import TailBench.Harness.Window

set_option autoImplicit false

/-! # The reported timeliness

`dumpStats` prints which share of the requests was generated in time, and warns when it is
below 97.5 %. The numerator `timely_gen_requests` counts the requests generated since the
phase switch; the denominator is the number of responses processed since then. A request is
*outstanding* from its generation until its response is processed. The two counters are about
the same requests up to those that are outstanding at the switch and those that are
outstanding at the dump: in the region of interest, the number of timely requests measured so
far and of timely requests outstanding together grow exactly as `timely_gen_requests` does.
-/

namespace TailBench

open Lib

/-- The request was started before its arrival time. -/
def Request.timely (r : Request) : Bool := decide (r.genNs > r.startNs)

namespace Client

/-- There is a timely request at a pointer. -/
def timelyAt (c : Client) (p : Nat) : Bool := (c.heap p).any Request.timely

/-- The number of timely requests that are outstanding. -/
def outstanding (c : Client) : Nat := (List.range c.allocated).countP c.timelyAt

/-- The responses whose samples `finiReq` recorded. -/
def measured (c : Client) : List Completion := c.completed.filter fun x => x.status = .ROI

/-- How many of them answer a timely request. -/
def measuredTimely (c : Client) : Nat := c.measured.countP fun x => x.req.timely

end Client

namespace Dump

/-- `perc_timely_req`. -/
def perc_timely_req (d : Dump) : ℚ := d.timely_gen_requests.toNat / d.gen_requests.toNat

/-- The branch that prints `REQUEST DISTRIBUTION BROKEN`. -/
def broken (d : Dump) : Bool := d.perc_timely_req < 975 / 1000

end Dump

/-! ## Generated requests -/

/-- What a step of a sender does to the timely requests: nothing, or it generates one request. -/
inductive Generates (c c' : Client) : Prop
  | none (ha : c'.allocated = c.allocated) (ht : c'.timelyAt = c.timelyAt)
      (hg : c'.timely_gen_requests = c.timely_gen_requests)
  | one (b : Bool) (ha : c'.allocated = c.allocated + 1)
      (ht : c'.timelyAt = Function.update c.timelyAt c.allocated b)
      (hg : c'.timely_gen_requests = c.timely_gen_requests + UInt64.ofNat b.toNat)

theorem Generates.refl (c : Client) : Generates c c := .none rfl rfl rfl

/-- A change of a live request that keeps its two times. -/
theorem Generates.modify {c c' : Client} {p : Nat} {f : Request → Request}
    (hh : c'.heap = (c.modifyReq p f).heap) (ha : c'.allocated = c.allocated)
    (hg : c'.timely_gen_requests = c.timely_gen_requests)
    (hf : ∀ r : Request, (f r).timely = r.timely) : Generates c c' := by
  refine .none ha ?_ hg
  funext q
  unfold Client.timelyAt
  rw [hh]
  by_cases hq : q = p
  · subst hq
    cases hr : c.heap q <;> simp [Client.modifyReq, hr, hf]
  · simp [Client.modifyReq, hq]

theorem startReqGen_generates {cfg : Config} {c c' : Client} {t ns : UInt64}
    {data : Payload MAX_REQ_BYTES} (h : c.startReqGen cfg t ns data = some c') :
    Generates c c' := by
  unfold Client.startReqGen at h
  split at h
  · cases h
  · next dist hd =>
      generalize dist.nextArrivalNs cfg.rng = drawn at h
      rcases drawn with ⟨genNs, dist'⟩
      obtain rfl := Option.some.inj h
      refine .one (decide (genNs > t)) rfl ?_ ?_
      · funext q
        unfold Client.timelyAt
        by_cases hq : q = c.allocated
        · subst hq; simp [Request.timely]
        · simp [hq]
      · by_cases hlt : genNs > t
        · simp [hlt]
        · simp [hlt]

theorem startReqRate_timely (cfg : Config) (ns : UInt64) (c : Client) :
    (c.startReqRate cfg ns).timely_gen_requests = c.timely_gen_requests := by
  unfold Client.startReqRate
  split
  · split
    · rfl
    · split <;> rfl
  · rfl

theorem StartEffect.generates {cfg : Config} {c c' : Client} {pc pc' : StartPc} {inp : Input}
    (h : StartEffect cfg c pc inp c' pc') : Generates c c' := by
  cases h with
  | same hp hs ht hr => exact .refl c
  | init ns hd =>
      simp only [Client.startReqInit, hd]
      exact .none rfl rfl rfl
  | rate ns =>
      rcases startReqRate_frame cfg ns c with ⟨hh, ha, -⟩
      refine .none ha ?_ (startReqRate_timely cfg ns c)
      funext q
      rw [Client.timelyAt, hh, Client.timelyAt]
  | gen ns data hg => exact startReqGen_generates hg
  | genEnd ns hg =>
      rcases Option.map_eq_some_iff.mp hg with ⟨r, hr, rfl⟩
      exact .modify rfl rfl rfl fun r => rfl
  | late ns target slept hh hr => exact .modify rfl rfl rfl fun r => rfl

/-- **A sender and the timely requests.** -/
theorem SenderMove.generates {cfg : Config} {d d' : NetData} {pc pc' : SenderPc} {inp : Input}
    {op : LockOp Mutex} (h : SenderMove cfg d pc inp d' pc' op) : Generates d.obj d'.obj := by
  cases h with
  | start he hfits hholds => exact he.generates
  | startReturn hr =>
      cases hr with
      | late ns hh hr => exact .modify rfl rfl rfl fun r => rfl
      | slept ns target slept ht => exact .none rfl rfl rfl
  | stamp ns hh => exact .modify rfl rfl rfl fun r => rfl
  | send ns hh hb => exact .modify rfl rfl rfl fun r => rfl
  | skip ns hh hb => exact .modify rfl rfl rfl fun r => rfl
  | count => exact .none rfl rfl rfl
  | _ => exact .refl _

/-- The outstanding requests after a generation. -/
theorem outstanding_update (c : Client) (b : Bool) :
    (List.range (c.allocated + 1)).countP (Function.update c.timelyAt c.allocated b)
      = c.outstanding + b.toNat := by
  have hold : (List.range c.allocated).countP (Function.update c.timelyAt c.allocated b)
      = c.outstanding := by
    refine List.countP_congr fun p hp => ?_
    rw [Function.update_of_ne (by have := List.mem_range.mp hp; omega)]
  rw [List.range_succ, List.countP_append, hold]
  cases b <;> simp

/-- Dropping one number from a count. -/
theorem countP_range_drop (f : Nat → Bool) {n p : Nat} (hp : p < n) :
    (List.range n).countP (Function.update f p false) + (f p).toNat = (List.range n).countP f := by
  induction n with
  | zero => omega
  | succ n ih =>
      rw [List.range_succ, List.countP_append, List.countP_append]
      by_cases hpn : p = n
      · subst hpn
        have hold : (List.range p).countP (Function.update f p false) = (List.range p).countP f :=
          List.countP_congr fun q hq => by
            rw [Function.update_of_ne (by have := List.mem_range.mp hq; omega)]
        rw [hold]
        cases hf : f p <;> simp [hf]
      · have hlast : Function.update f p false n = f n := Function.update_of_ne (Ne.symm hpn) _ _
        have hrest := ih (by omega)
        rw [List.countP_singleton, List.countP_singleton, hlast]
        omega

/-! ## The phases -/

namespace Client

variable {cfg : Config} {c c' : Client}

/-- What the phase says about the responses processed so far. -/
structure Phase (cfg : Config) (c : Client) : Prop where
  count : c.numReqsCompleted.toNat = c.completed.length
  before : c.status ≠ .ROI → c.measured = [] ∧ c.completed.length < cfg.warmupreqs.toNat
  after : c.status = .ROI → c.measured.length + cfg.warmupreqs.toNat = c.completed.length

/-- A step outside `finiReq`. -/
theorem Phase.frame (h : c.Phase cfg) (hw : SameWindow c c')
    (hroi : c'.status = .ROI ↔ c.status = .ROI) : c'.Phase cfg := by
  have hmeas : c'.measured = c.measured := by rw [measured, hw.completed, measured]
  constructor
  · rw [hw.numReqsCompleted, hw.completed]
    exact h.count
  · intro hst
    rw [hmeas, hw.completed]
    exact h.before fun hc => hst (hroi.mpr hc)
  · intro hst
    rw [hmeas, hw.completed]
    exact h.after (hroi.mp hst)

/-- The responses after one more. -/
theorem measured_finiRecord (p : Nat) (req : Request) (resp : Response) (curNs : UInt64)
    (c : Client) : (c.finiRecord p req resp curNs).measured
      = c.measured ++ if c.status = .ROI then
          [⟨req, resp, curNs, c.status, sample req resp curNs⟩] else [] := by
  rw [measured, finiRecord_completed, List.filter_append, measured]
  congr 1
  by_cases hs : c.status = .ROI <;> simp [hs]

/-- How the end of `finiReq` changes the phase: it switches, or it does not. -/
theorem FiniEnd.phase {laterNs : UInt64} {ex : Bool} (he : FiniEnd cfg laterNs c c' ex) :
    c'.numReqsCompleted = c.numReqsCompleted + 1 ∧
    ((c.status ≠ .ROI ∧ c'.status = .ROI ∧ c'.timely_gen_requests = 0 ∧
        (c.numReqsCompleted + 1 = cfg.warmupreqs ∨ cfg.warmupreqs = 0)) ∨
      (c'.status = c.status ∧ c'.timely_gen_requests = c.timely_gen_requests ∧
        c.numReqsCompleted + 1 ≠ cfg.warmupreqs)) := by
  cases he with
  | roi hw hs =>
      rcases _startRoi_some hs with ⟨hst, rfl⟩
      have hst : c.status = .WARMUP := hst
      exact ⟨rfl, .inl ⟨by rw [hst]; simp, rfl, rfl, hw⟩⟩
  | count hw hb => exact ⟨rfl, .inr ⟨rfl, rfl, fun h => hw (.inl h)⟩⟩
  | dump hw hb => exact ⟨rfl, .inr ⟨rfl, rfl, fun h => hw (.inl h)⟩⟩

/-- **A response is processed.** -/
theorem Phase.finiEnd (h : c.Phase cfg) {laterNs curNs : UInt64} {p : Nat} {req : Request}
    {resp : Response} {ex : Bool} (hW : 1 ≤ cfg.warmupreqs.toNat)
    (hlt : c.completed.length < cfg.budget.toNat)
    (he : FiniEnd cfg laterNs (c.finiRecord p req resp curNs) c' ex) : c'.Phase cfg := by
  have hcompl := he.same.completed
  have hmeas : c'.measured = (c.finiRecord p req resp curNs).measured := by
    rw [measured, hcompl, measured]
  have hlen : c'.completed.length = c.completed.length + 1 := by rw [hcompl]; simp
  have hcount : (c.numReqsCompleted + 1).toNat = c.completed.length + 1 := by
    have hmax := cfg.budget.toNat_lt
    rw [UInt64.toNat_add, h.count]
    exact Nat.mod_eq_of_lt (by simp only [UInt64.toNat_one]; omega)
  rw [measured_finiRecord] at hmeas
  rcases he.phase with ⟨hnum, hcase⟩
  rw [finiRecord_numReqsCompleted, finiRecord_status] at *
  refine ⟨by rw [hnum, hcount, hlen], ?_, ?_⟩
  · rcases hcase with ⟨-, hroi, -, -⟩ | ⟨hst, -, hne⟩
    · exact fun hnot => absurd hroi hnot
    · intro hnot
      rw [hst] at hnot
      rw [hmeas, if_neg hnot, List.append_nil, hlen]
      have hbefore := h.before hnot
      have hne' : c.completed.length + 1 ≠ cfg.warmupreqs.toNat := by
        rw [← hcount]
        exact fun heq => hne (UInt64.toNat_inj.mp heq)
      exact ⟨hbefore.1, by omega⟩
  · rcases hcase with ⟨hwarm, hroi, -, hsw⟩ | ⟨hst, -, -⟩
    · intro _
      have hsw' : c.completed.length + 1 = cfg.warmupreqs.toNat := by
        rcases hsw with hsw | hzero
        · rw [← hcount, hsw]
        · rw [hzero] at hW
          exact absurd hW (by decide)
      rw [hmeas, if_neg hwarm, List.append_nil, (h.before hwarm).1, hlen, hsw']
      exact Nat.zero_add _
    · intro hroi
      rw [hst] at hroi
      rw [hmeas, if_pos hroi, hlen, List.length_append, List.length_singleton, ← h.after hroi]
      omega

/-! ## The balance -/

/-- What is measured or outstanding and not counted in `timely_gen_requests`. -/
def balance (c : Client) : UInt64 :=
  UInt64.ofNat (c.measuredTimely + c.outstanding) - c.timely_gen_requests

theorem balance_generates (h : Generates c c') (hc : c'.completed = c.completed) :
    c'.balance = c.balance := by
  have hmeas : c'.measuredTimely = c.measuredTimely := by
    rw [measuredTimely, measured, hc, measuredTimely, measured]
  cases h with
  | none ha ht hg =>
      have hout : c'.outstanding = c.outstanding := by rw [outstanding, ha, ht, outstanding]
      rw [balance, hmeas, hout, hg, balance]
  | one b ha ht hg =>
      have hout : c'.outstanding = c.outstanding + b.toNat := by
        rw [outstanding, ha, ht, outstanding_update]
      rw [balance, hmeas, hout, hg, balance, ← Nat.add_assoc, UInt64.ofNat_add]
      grind

/-- In the region of interest a response moves its request from the outstanding to the
measured ones. -/
theorem balance_finiEnd {laterNs curNs : UInt64} {p : Nat} {req : Request} {resp : Response}
    {ex : Bool} (hroi : c.status = .ROI) (hp : p < c.allocated) (hr : c.heap p = some req)
    (he : FiniEnd cfg laterNs (c.finiRecord p req resp curNs) c' ex) :
    c'.status = .ROI ∧ c'.balance = c.balance := by
  rcases he.phase with ⟨-, ⟨hwarm, -⟩ | ⟨hst, hg, -⟩⟩
  · exact absurd (finiRecord_status .. |>.trans hroi) hwarm
  · refine ⟨by rw [hst, finiRecord_status, hroi], ?_⟩
    have hmeas : c'.measuredTimely = c.measuredTimely + req.timely.toNat := by
      rw [measuredTimely, measured, he.same.completed, ← measured, measured_finiRecord,
        if_pos hroi, List.countP_append, measuredTimely, List.countP_singleton]
      cases req.timely <;> rfl
    have hout : c'.outstanding + req.timely.toNat = c.outstanding := by
      have hat : c'.timelyAt = Function.update c.timelyAt p false := by
        funext q
        rw [timelyAt, he.same.heap, finiRecord_heap]
        by_cases hq : q = p
        · subst hq; simp
        · simp [hq, timelyAt]
      have htp : c.timelyAt p = req.timely := by rw [timelyAt, hr]; rfl
      rw [outstanding, he.same.allocated, finiRecord_allocated, hat, ← htp]
      exact countP_range_drop c.timelyAt hp
    have htimely : c'.timely_gen_requests = c.timely_gen_requests := by
      rw [hg]
      simp only [Client.finiRecord]
      split <;> rfl
    rw [balance, htimely, hmeas, balance, ← hout]
    congr 2
    omega

end Client

/-! ## Sessions -/

section Session

variable {cfg : Config} {strict : Bool} {nS nR : Nat} {s s' : Session nS nR}
  {a : SessionAction nS nR}

/-- The client object of a session. -/
abbrev Session.obj (s : Session nS nR) : Client := s.client.data.obj

/-- What a step of a session does to the object: nothing, the step of a sender, or the
processing of a response. -/
inductive Session.ObjStep (cfg : Config) (s : Session nS nR) : Client → Prop
  | same : ObjStep cfg s s.obj
  | sender {i : Fin nS} {d : NetData} {pc : SenderPc} {inp : Input} {op : LockOp Mutex}
      (hm : SenderMove cfg s.client.data (s.client.senders i) inp d pc op) : ObjStep cfg s d.obj
  | fini {j : Fin nR} {resp : Response} {p : Nat} {req : Request} {curNs laterNs : UInt64}
      {ex : Bool} {c : Client} (hj : s.client.receivers j = .fini resp)
      (hm : s.obj.Matches resp curNs p req)
      (he : Client.FiniEnd cfg laterNs (s.obj.finiRecord p req resp curNs) c ex) :
      ObjStep cfg s c

theorem Session.next_objStep (h : Session.next cfg strict a s = some s') :
    Session.ObjStep cfg s s'.obj := by
  cases Session.next_move h with
  | client hm harr htick =>
      cases hm with
      | sender i hrun hm hop => exact .sender hm
      | @receiver j _ d pc op locks hrun hm hop =>
          show Session.ObjStep cfg s d.obj
          rcases hm.obj with heq | ⟨resp, p, req, curNs, laterNs, ex, hj, -, hmatch, he⟩
          · rw [heq]
            exact .same
          · exact .fini hj hmatch he
  | answer id svcNs data hid ht => exact .same
  | finish => exact .same
  | tick htick => exact .same

theorem session_phase (hW : 1 ≤ cfg.warmupreqs.toNat)
    (h : (session cfg strict nS nR).Reachable s) : s.obj.Phase cfg := by
  refine Machine.Reachable.invariant (P := fun s : Session nS nR => s.obj.Phase cfg) ?_ ?_ h
  · rintro s ⟨t, rfl⟩
    exact ⟨rfl, fun _ => ⟨rfl, hW⟩, fun hroi => nomatch hroi⟩
  · intro s a s' hr hs hn
    have hstep := Session.next_objStep hn
    generalize s'.obj = c at hstep
    cases hstep with
    | same => exact hs
    | @sender i d pc inp op hm =>
        refine hs.frame hm.frame.window ?_
        have hobj := netClient_objects (session_client hr)
        rcases hm.dist (hobj.ready i) with ⟨hst, -⟩ | ⟨hd, -, hst⟩
        · rw [hst]
        · have hinit := hobj.status.mp hd
          rw [hst]
          exact iff_of_false (by simp) (by rw [show s.obj.status = .INIT from hinit]; simp)
    | fini hj hm he => exact hs.finiEnd hW (fini_within_budget hr hj).1 he

/-- In the region of interest nothing changes the balance. -/
theorem session_balance (h : (session cfg strict nS nR).Reachable s)
    (hn : Session.next cfg strict a s = some s') (hroi : s.obj.status = .ROI) :
    s'.obj.status = .ROI ∧ s'.obj.balance = s.obj.balance := by
  have hobj := netClient_objects (session_client h)
  have hstep := Session.next_objStep hn
  generalize s'.obj = c at hstep
  cases hstep with
  | same => exact ⟨hroi, rfl⟩
  | @sender i d pc inp op hm =>
      refine ⟨?_, Client.balance_generates hm.generates hm.frame.window.completed⟩
      rcases hm.dist (hobj.ready i) with ⟨hst, -⟩ | ⟨hd, -, -⟩
      · rw [hst, hroi]
      · have hinit : s.obj.status = .INIT := hobj.status.mp hd
        rw [hinit] at hroi
        cases hroi
  | fini hj hm he =>
      exact Client.balance_finiEnd hroi (hobj.heap _ _ hm.live).1 hm.live he

/-- At the switch the balance is what is outstanding. -/
theorem session_switch (hW : 1 ≤ cfg.warmupreqs.toNat)
    (h : (session cfg strict nS nR).Reachable s) (hn : Session.next cfg strict a s = some s')
    (hnot : s.obj.status ≠ .ROI) (hroi : s'.obj.status = .ROI) :
    s'.obj.balance = UInt64.ofNat s'.obj.outstanding := by
  have hobj := netClient_objects (session_client h)
  have hbefore := (session_phase hW h).before hnot
  have hstep := Session.next_objStep hn
  generalize s'.obj = c at hstep hroi
  cases hstep with
  | same => exact absurd hroi hnot
  | @sender i d pc inp op hm =>
      rcases hm.dist (hobj.ready i) with ⟨hst, -⟩ | ⟨-, -, hst⟩
      · rw [hst] at hroi
        exact absurd hroi hnot
      · rw [hst] at hroi
        cases hroi
  | @fini j resp p req curNs laterNs ex c hj hm he =>
      rcases he.phase with ⟨-, ⟨-, -, hzero, -⟩ | ⟨hst, -, -⟩⟩
      · have hmeas : c.measuredTimely = 0 := by
          rw [Client.measuredTimely, Client.measured, he.same.completed, ← Client.measured,
            Client.measured_finiRecord, if_neg hnot, List.append_nil, hbefore.1]
          rfl
        rw [Client.balance, hmeas, hzero, Nat.zero_add]
        simp
      · rw [hst, Client.finiRecord_status] at hroi
        exact absurd hroi hnot

/-- **The step in which `dumpStats` runs.** -/
theorem session_dump (h : (session cfg strict nS nR).Reachable s)
    (hn : Session.next cfg strict a s = some s') {d : Dump}
    (hd : s'.obj.dumps = s.obj.dumps ++ [d]) :
    s'.obj.status = s.obj.status ∧
    d.timely_gen_requests = s'.obj.timely_gen_requests ∧
    d.gen_requests = s'.obj.numReqsCompleted - cfg.warmupreqs ∧
    cfg.budget ≤ s'.obj.numReqsCompleted ∧ s'.obj.completed.length ≤ cfg.budget.toNat := by
  have hne : s'.obj.dumps ≠ s.obj.dumps := by rw [hd]; simp
  have hstep := Session.next_objStep hn
  generalize s'.obj = c at hstep hd hne
  cases hstep with
  | same => exact absurd rfl hne
  | sender hm => exact absurd hm.frame.window.dumps hne
  | @fini j resp p req curNs laterNs ex c hj hm he =>
      have hlen : c.completed.length = s.obj.completed.length + 1 := by
        rw [he.same.completed]
        simp
      have hlt : s.obj.completed.length < cfg.budget.toNat := (fini_within_budget h hj).1
      have hsame := Client.finiRecord_dumps p req resp curNs s.obj
      cases he with
      | roi hw hs =>
          rcases Client._startRoi_some hs with ⟨-, rfl⟩
          exact absurd hsame hne
      | count hw hb => exact absurd hsame hne
      | dump hw hb =>
          simp only [Client.dumpStats, Client.countOne, Client.finiRecord_dumps,
            List.append_cancel_left_eq, List.cons.injEq, and_true] at hd
          subst hd
          exact ⟨Client.finiRecord_status p req resp curNs s.obj, rfl, rfl, hb, by omega⟩

end Session

/-! ## The report -/

/-- The report of a dump is about the `n` measured requests `xs`. -/
structure Dump.Reports (d : Dump) (n : Nat) (xs : List Completion) : Prop where
  measured : xs.length = n
  gen : d.gen_requests.toNat = n
  timely : d.timely_gen_requests.toNat = xs.countP fun x => x.req.timely
  bounds : 0 ≤ d.perc_timely_req ∧ d.perc_timely_req ≤ 1
  all : (∀ x ∈ xs, x.req.timely = true) → d.perc_timely_req = 1
  warns : d.broken = true ↔ ((xs.countP fun x => x.req.timely : Nat) : ℚ) / n < 975 / 1000

/-- When the two numbers are right, so is everything that is printed. -/
theorem Dump.Reports.of_counts {d : Dump} {n : Nat} {xs : List Completion} (hn : 1 ≤ n)
    (hlen : xs.length = n) (hgen : d.gen_requests.toNat = n)
    (htimely : d.timely_gen_requests.toNat = xs.countP fun x => x.req.timely) :
    d.Reports n xs := by
  have hperc : d.perc_timely_req = ((xs.countP fun x => x.req.timely : Nat) : ℚ) / n := by
    rw [Dump.perc_timely_req, hgen, htimely]
  have hpos : (0 : ℚ) < n := by exact_mod_cast hn
  have hle : ((xs.countP fun x => x.req.timely : Nat) : ℚ) ≤ n := by
    rw [← hlen]
    exact_mod_cast List.countP_le_length
  refine ⟨hlen, hgen, htimely, ⟨?_, ?_⟩, fun hall => ?_, ?_⟩
  · rw [hperc]
    exact div_nonneg (by exact_mod_cast Nat.zero_le _) hpos.le
  · rw [hperc]
    exact (div_le_one hpos).mpr hle
  · rw [hperc, List.countP_eq_length.mpr hall, hlen]
    exact div_self hpos.ne'
  · rw [Dump.broken, hperc, decide_eq_true_iff]

section Report

variable {cfg : Config} {strict : Bool} {nS nR : Nat} {s s' : Session nS nR}
  {a : SessionAction nS nR} {d : Dump}

/-- **When the report is right.** In every session, when `dumpStats` runs: its report is about
the `maxreqs` measured requests if and only if as many timely requests are outstanding then as
were outstanding at the switch to the region of interest. -/
theorem timely_report_iff (hW : 1 ≤ cfg.warmupreqs) (hM : 1 ≤ cfg.maxreqs)
    (h : (session cfg strict nS nR).Reachable s) (hn : Session.next cfg strict a s = some s')
    (hd : s'.obj.dumps = s.obj.dumps ++ [d]) :
    d.Reports cfg.maxreqs.toNat s'.obj.measured ↔
      ∃ s₁ b s₂, (session cfg strict nS nR).Reachable s₁ ∧ s₁.obj.status ≠ .ROI ∧
        Session.next cfg strict b s₁ = some s₂ ∧ s₂.obj.status = .ROI ∧
        (session cfg strict nS nR).Leads s₂ s ∧
        UInt64.ofNat s'.obj.outstanding = UInt64.ofNat s₂.obj.outstanding := by
  have hW : 1 ≤ cfg.warmupreqs.toNat := UInt64.le_iff_toNat_le.mp hW
  have hM : 1 ≤ cfg.maxreqs.toNat := UInt64.le_iff_toNat_le.mp hM
  have hphase := session_phase hW (h.step a hn)
  rcases session_dump h hn hd with ⟨hstatus, htimely, hgen, hge, hle⟩
  -- what the balance says, from the switch to the dump
  have hbalance : ∀ s₁ b s₂, (session cfg strict nS nR).Reachable s₁ → s₁.obj.status ≠ .ROI →
      Session.next cfg strict b s₁ = some s₂ → s₂.obj.status = .ROI →
      (session cfg strict nS nR).Leads s₂ s → s.obj.status = .ROI ∧
        UInt64.ofNat s'.obj.measuredTimely + UInt64.ofNat s'.obj.outstanding
          = UInt64.ofNat s₂.obj.outstanding + d.timely_gen_requests := by
    intro s₁ b s₂ hr₁ hnot hn₁ hroi hl
    have hkeep := hl.invariant (P := fun t : Session nS nR =>
        (session cfg strict nS nR).Reachable t ∧ t.obj.status = .ROI ∧
          t.obj.balance = s₂.obj.balance)
      (fun t c t' ht hnt => by
        rcases session_balance ht.1 hnt ht.2.1 with ⟨h1, h2⟩
        exact ⟨ht.1.step c hnt, h1, h2.trans ht.2.2⟩)
      ⟨hr₁.step b hn₁, hroi, rfl⟩
    have hend := (session_balance h hn hkeep.2.1).2
    rw [hkeep.2.2, session_switch hW hr₁ hn₁ hnot hroi, Client.balance, ← htimely,
      UInt64.ofNat_add] at hend
    exact ⟨hkeep.2.1, by rw [← hend]; grind⟩
  constructor
  · intro hrep
    have hroi : s.obj.status = .ROI := by
      by_contra hnot
      have hnil := (hphase.before (by rw [hstatus]; exact hnot)).1
      have hlen := hrep.measured
      rw [hnil, List.length_nil] at hlen
      omega
    rcases Machine.Reachable.exists_change (P := fun t : Session nS nR => t.obj.status = .ROI)
      (by rintro t ⟨now, rfl⟩ ht; cases ht) h hroi with ⟨s₁, b, s₂, hr₁, hnot, hn₁, hroi₂, hl⟩
    refine ⟨s₁, b, s₂, hr₁, hnot, hn₁, hroi₂, hl, ?_⟩
    have heq := (hbalance s₁ b s₂ hr₁ hnot hn₁ hroi₂ hl).2
    have hcount : d.timely_gen_requests = UInt64.ofNat s'.obj.measuredTimely := by
      rw [Client.measuredTimely, ← hrep.timely, UInt64.ofNat_toNat]
    rw [hcount] at heq
    grind
  · rintro ⟨s₁, b, s₂, hr₁, hnot, hn₁, hroi₂, hl, hout⟩
    rcases hbalance s₁ b s₂ hr₁ hnot hn₁ hroi₂ hl with ⟨hroi, heq⟩
    have hafter := hphase.after (by rw [hstatus]; exact hroi)
    have hcount := hphase.count
    have hge := UInt64.le_iff_toNat_le.mp hge
    -- the budget did not wrap: it is at least `warmupreqs`
    have hbudget : cfg.budget.toNat = cfg.warmupreqs.toNat + cfg.maxreqs.toNat := by
      have hsum : cfg.budget.toNat
          = (cfg.warmupreqs.toNat + cfg.maxreqs.toNat) % 2 ^ 64 := by
        rw [Config.budget, UInt64.toNat_add]
      have h1 := cfg.warmupreqs.toNat_lt
      have h2 := cfg.maxreqs.toNat_lt
      omega
    have hlen : s'.obj.measured.length = cfg.maxreqs.toNat := by omega
    refine .of_counts hM hlen ?_ ?_
    · rw [hgen, UInt64.toNat_sub_of_le _ _ (UInt64.le_iff_toNat_le.mpr (by omega))]
      omega
    · have hT : d.timely_gen_requests = UInt64.ofNat s'.obj.measuredTimely := by
        rw [hout] at heq
        grind
      have hT' : s'.obj.measuredTimely ≤ cfg.maxreqs.toNat := hlen ▸ List.countP_le_length
      have hlt := cfg.maxreqs.toNat_lt
      rw [hT, UInt64.toNat_ofNat', Nat.mod_eq_of_lt (by omega)]
      rfl

end Report

/-! ### Two sessions of one sender

A run and its last step, in which `dumpStats` runs. -/

/-- A state and the one after it, in which there is the first dump. -/
theorem exists_dump_step (cfg : Config) (run : List (SessionAction 1 1)) (a : SessionAction 1 1)
    (ok : Client → Dump → Bool)
    (hrun : ((session cfg true 1 1).exec run ⟨NetClient.start cfg, [], 0⟩).any (fun s =>
      s.obj.dumps.isEmpty && (Session.next cfg true a s).any fun s' =>
        s'.obj.dumps.length == 1 && s'.obj.dumps.all (ok s'.obj)) = true) :
    ∃ s s' d, (session cfg true 1 1).Reachable s ∧ Session.next cfg true a s = some s' ∧
      s'.obj.dumps = s.obj.dumps ++ [d] ∧ ok s'.obj d = true := by
  rcases Machine.Reachable.exists_of_exec (M := session cfg true 1 1)
    (P := fun s => (s.obj.dumps.isEmpty && (Session.next cfg true a s).any fun s' =>
      s'.obj.dumps.length == 1 && s'.obj.dumps.all (ok s'.obj)) = true) run ⟨0, rfl⟩
    (by simpa only [Bool.decide_eq_true] using hrun) with ⟨s, hs, hp⟩
  rw [Bool.and_eq_true, List.isEmpty_iff] at hp
  rcases hp with ⟨hnone, hnext⟩
  rcases hn : Session.next cfg true a s with _ | s'
  · rw [hn] at hnext
    cases hnext
  · rw [hn, Option.any_some, Bool.and_eq_true, beq_iff_eq, List.length_eq_one_iff] at hnext
    rcases hnext with ⟨⟨d, hd⟩, hok⟩
    rw [hd, List.all_cons, List.all_nil, Bool.and_true] at hok
    exact ⟨s, s', d, hs, hn, by rw [hnone, hd]; rfl, hok⟩

/-- Each request is answered before the next, and none is timely: the report is right, and as
many timely requests are outstanding at the dump as at the switch. -/
theorem timely_report_iff_smallRun :
    ∃ s s' a d, (session smallConfig true 1 1).Reachable s ∧
      Session.next smallConfig true a s = some s' ∧ s'.obj.dumps = s.obj.dumps ++ [d] ∧
      d.Reports 1 s'.obj.measured ∧ ∃ s₂, (session smallConfig true 1 1).Leads s₂ s ∧
        s₂.obj.status = .ROI ∧
        UInt64.ofNat s'.obj.outstanding = UInt64.ofNat s₂.obj.outstanding := by
  rcases exists_dump_step smallConfig (smallRun.take (smallRun.length - 1))
    (.client ⟨.receiver 0, .fini 42 43⟩)
    (fun c d => c.measured.length == 1 && d.gen_requests.toNat == 1 &&
      d.timely_gen_requests.toNat == c.measuredTimely) (by decide +kernel) with
    ⟨s, s', d, hs, hn, hd, hok⟩
  simp only [Bool.and_eq_true, beq_iff_eq] at hok
  have hrep : d.Reports 1 s'.obj.measured := .of_counts le_rfl hok.1.1 hok.1.2 hok.2
  rcases (timely_report_iff (by decide) (by decide) hs hn hd).mp hrep with
    ⟨s₁, b, s₂, -, -, -, hroi, hl, hout⟩
  exact ⟨s, s', _, d, hs, hn, hd, hrep, s₂, hl, hroi, hout⟩

/-- A client with one request to warm up and one to measure, whose arrival times are one and
twenty nanoseconds after each other. -/
def pacedConfig : Config :=
  { smallConfig with rng := ⟨fun _ i => i, fun _ i => if i = 0 then 1 else 20⟩ }

/-- Both requests are sent in time before the first response arrives. -/
def earlyRun : List (SessionAction 1 1) :=
  (NetClient.sendOne 0 true 10 ⟨[], Nat.zero_le _⟩).map .client ++
  (NetClient.sendOne 0 false 30 ⟨[], Nat.zero_le _⟩).map .client ++
  [.answer 0 0 ⟨[], Nat.zero_le _⟩] ++
  (NetClient.recvOne 0 40 (mkResponse 0 0 ⟨[], Nat.zero_le _⟩)).map .client ++
  [.answer 1 0 ⟨[], Nat.zero_le _⟩] ++
  (NetClient.recvOne 0 50 (mkResponse 1 0 ⟨[], Nat.zero_le _⟩)).map .client

/-- The only measured request is timely; the report has none, and the warning is printed. -/
theorem timely_request_not_reported :
    ∃ s s' a d, (session pacedConfig true 1 1).Reachable s ∧
      Session.next pacedConfig true a s = some s' ∧ s'.obj.dumps = s.obj.dumps ++ [d] ∧
      s'.obj.measured.length = 1 ∧ (∀ x ∈ s'.obj.measured, x.req.timely = true) ∧
      d.timely_gen_requests = 0 ∧ d.broken = true ∧ ¬ d.Reports 1 s'.obj.measured := by
  rcases exists_dump_step pacedConfig (earlyRun.take (earlyRun.length - 1))
    (.client ⟨.receiver 0, .fini 52 53⟩)
    (fun c d => c.measured.length == 1 && c.measured.all (fun x => x.req.timely) &&
      (d.timely_gen_requests == 0 && d.broken)) (by decide +kernel) with
    ⟨s, s', d, hs, hn, hd, hok⟩
  simp only [Bool.and_eq_true, beq_iff_eq, List.all_eq_true] at hok
  rcases hok with ⟨⟨hlen, hall⟩, hzero, hbroken⟩
  refine ⟨s, s', _, d, hs, hn, hd, hlen, hall, hzero, hbroken, fun hrep => ?_⟩
  have htimely := hrep.timely
  rw [List.countP_eq_length.mpr hall, hlen, hzero] at htimely
  cases htimely

end TailBench
