import TailBench.Harness.RateChanges
import TailBench.Harness.Arrivals

set_option autoImplicit false

/-! # Draws and arrival times

The requests of a session in the order of their ids, each with the number of its draw and its
arrival time. A change of the rate makes a new engine with the seed of the first one and lets the
arrival clock start from the current time. So the stream of draws begins again
(`draws_in_order_iff`), and the next arrival may lie before one that is handed out already
(`arrivals_monotone_iff`).
-/

namespace TailBench

open Lib

/-- A request with its draw and its arrival time. -/
structure Arrival where
  draw : Nat
  id : UInt64
  genNs : UInt64
  deriving DecidableEq

def RateEvent.request : RateEvent → Option Arrival
  | .generated draw id genNs => some ⟨draw, id, genNs⟩
  | _ => none

/-- The requests of a log, in the order they were generated. -/
def requests (l : List RateEvent) : List Arrival := l.filterMap RateEvent.request

/-- The rate and the clock reading of the last change. -/
def lastChange (l : List RateEvent) : Option (ℚ × UInt64) :=
  l.foldl (fun last e => match e with | .changed _ r ns => some (r, ns) | _ => last) none

/-! ## Logs -/

section Logs

variable {l : List RateEvent} {x : RateEvent}

theorem requests_concat (l : List RateEvent) (x : RateEvent) :
    requests (l ++ [x]) = requests l ++ x.request.toList := by
  cases x <;> simp [requests, RateEvent.request]

theorem lastChange_concat (l : List RateEvent) (x : RateEvent) :
    lastChange (l ++ [x]) =
      match x with | .changed _ r ns => some (r, ns) | _ => lastChange l := by
  simp [lastChange]

/-- The draws of the current engine are draws of the log; all of them, if it is the first one. -/
theorem drawn_requests (l : List RateEvent) :
    (tally l).drawn ≤ (requests l).length ∧
      ((tally l).changes = 0 → (tally l).drawn = (requests l).length) := by
  induction l using List.reverseRecOn with
  | nil => exact ⟨le_rfl, fun _ => rfl⟩
  | append_singleton l x ih =>
      rw [tally_concat, requests_concat]
      cases x with
      | counted => simpa [Tally.next, RateEvent.request] using ih
      | changed i r ns => simp [Tally.next]
      | generated draw id genNs => simpa [Tally.next, RateEvent.request] using ih

theorem lastChange_eq_none : lastChange l = none ↔ (tally l).changes = 0 := by
  induction l using List.reverseRecOn with
  | nil => exact iff_of_true rfl rfl
  | append_singleton l x ih =>
      rw [tally_concat, lastChange_concat]
      cases x with
      | changed i r ns => simp [Tally.next]
      | _ => exact ih

/-- What a session appends to its log: the draw of a request is the next one of the engine in use,
its id the next number, and the rate changes only after the warm-up. -/
def RateEvent.Follows (l : List RateEvent) : RateEvent → Prop
  | .counted => True
  | .changed _ _ _ => requests l ≠ []
  | .generated draw id _ =>
      draw = (tally l).drawn ∧ id = UInt64.ofNat (requests l).length

/-- No request is generated after a change of the rate. -/
def NoRestart (l : List RateEvent) : Prop :=
  Machine.EachAfter (fun l₁ x => x.request ≠ none → (tally l₁).changes = 0) l

theorem requests_ne_nil (h : Machine.EachAfter RateEvent.Follows l) (hl : (tally l).changes ≠ 0) :
    requests l ≠ [] := by
  induction l using List.reverseRecOn with
  | nil => exact absurd rfl hl
  | append_singleton l x ih =>
      obtain ⟨hbefore, hx⟩ := Machine.eachAfter_concat.mp h
      rw [tally_concat] at hl
      rw [requests_concat]
      cases x with
      | counted => simpa [RateEvent.request] using ih hbefore hl
      | changed i r ns => simpa [RateEvent.request, RateEvent.Follows] using hx
      | generated draw id genNs => simp [RateEvent.request]

/-- As long as nothing is generated after a change, the engine in use is new. -/
theorem NoRestart.drawn_eq_zero (h : NoRestart l) (hl : (tally l).changes ≠ 0) :
    (tally l).drawn = 0 := by
  induction l using List.reverseRecOn with
  | nil => rfl
  | append_singleton l x ih =>
      obtain ⟨hbefore, hx⟩ := Machine.eachAfter_concat.mp h
      rw [tally_concat] at hl ⊢
      cases x with
      | counted => exact ih hbefore hl
      | changed i r ns => rfl
      | generated draw id genNs => exact absurd (hx (by simp [RateEvent.request])) hl

theorem NoRestart.draws_eq (h : NoRestart l) (hl : Machine.EachAfter RateEvent.Follows l) :
    (requests l).map Arrival.draw = List.range (requests l).length := by
  induction l using List.reverseRecOn with
  | nil => rfl
  | append_singleton l x ih =>
      obtain ⟨hbefore, hx⟩ := Machine.eachAfter_concat.mp h
      obtain ⟨hfollows, hnext⟩ := Machine.eachAfter_concat.mp hl
      rw [requests_concat]
      cases x with
      | generated draw id genNs =>
          have hfirst := (drawn_requests l).2 (hx (by simp [RateEvent.request]))
          simp [RateEvent.request, List.range_succ, ih hbefore hfollows, hnext.1, hfirst]
      | _ => simpa [RateEvent.request] using ih hbefore hfollows

/-- The first request after a change has the draw 0 again. -/
theorem noRestart_of_nodup (hl : Machine.EachAfter RateEvent.Follows l)
    (h : ((requests l).map Arrival.draw).Nodup) : NoRestart l := by
  induction l using List.reverseRecOn with
  | nil => exact .nil
  | append_singleton l x ih =>
      obtain ⟨hfollows, hnext⟩ := Machine.eachAfter_concat.mp hl
      rw [requests_concat, List.map_append] at h
      have hbefore := ih hfollows (List.nodup_append.mp h).1
      refine Machine.eachAfter_concat.mpr ⟨hbefore, fun hx => ?_⟩
      cases x with
      | generated draw id genNs =>
          by_contra hne
          have hzero : draw = 0 := hnext.1.trans (hbefore.drawn_eq_zero hne)
          have hmem : 0 ∈ (requests l).map Arrival.draw := by
            rw [hbefore.draws_eq hfollows, List.mem_range]
            exact List.length_pos_of_ne_nil (requests_ne_nil hfollows hne)
          exact (List.nodup_append.mp h).2.2 0 hmem draw (by simp [RateEvent.request]) hzero.symm
      | _ => exact absurd rfl hx

theorem ids_eq (hl : Machine.EachAfter RateEvent.Follows l) :
    (requests l).map Arrival.id = (List.range (requests l).length).map UInt64.ofNat := by
  induction l using List.reverseRecOn with
  | nil => rfl
  | append_singleton l x ih =>
      obtain ⟨hfollows, hnext⟩ := Machine.eachAfter_concat.mp hl
      rw [requests_concat]
      cases x with
      | generated draw id genNs =>
          simp [RateEvent.request, List.range_succ, ih hfollows, hnext.2]
      | _ => simpa [RateEvent.request] using ih hfollows

/-! ### Arrival times -/

/-- The arrival time of a request: after the arrival before it, or a gap after the change. -/
def RateEvent.Arrives (cfg : Config) (l : List RateEvent) : RateEvent → Prop
  | .generated _ _ genNs =>
      ((tally l).drawn = 0 → ∀ r ns, lastChange l = some (r, ns) →
        genNs.toNat = ns.toNat + (cfg.rng.gap r (cfg.rng.engine cfg.seed 0)).toNat) ∧
      ((tally l).drawn ≠ 0 → ∃ x, (requests l).getLast? = some x ∧ x.genNs ≤ genNs)
  | _ => True

/-- Whenever a request is the first one after a change, the clock reading of the change and the
first gap at the new rate come to no less than any arrival time handed out before. -/
def CatchesUp (cfg : Config) (l : List RateEvent) : Prop :=
  Machine.EachAfter (fun l₁ x => x.request ≠ none → (tally l₁).drawn = 0 →
    ∀ r ns, lastChange l₁ = some (r, ns) → ∀ y ∈ requests l₁,
      y.genNs.toNat ≤ ns.toNat + (cfg.rng.gap r (cfg.rng.engine cfg.seed 0)).toNat) l

theorem pairwise_genNs_iff {cfg : Config} (hl : Machine.EachAfter (RateEvent.Arrives cfg) l) :
    ((requests l).map Arrival.genNs).Pairwise (· ≤ ·) ↔ CatchesUp cfg l := by
  induction l using List.reverseRecOn with
  | nil => exact iff_of_true List.Pairwise.nil .nil
  | append_singleton l x ih =>
      obtain ⟨harrives, hx⟩ := Machine.eachAfter_concat.mp hl
      have ih := ih harrives
      rw [requests_concat, CatchesUp, Machine.eachAfter_concat, ← CatchesUp, ← ih]
      cases x with
      | generated draw id genNs =>
          obtain ⟨hfirst, hlater⟩ := hx
          simp only [RateEvent.request, Option.toList_some, List.map_append, List.map_cons,
            List.map_nil, List.pairwise_append, List.pairwise_singleton, true_and,
            List.mem_singleton, forall_eq]
          refine and_congr_right fun hsorted => ?_
          constructor
          · intro hle _ hzero r ns hchange y hy
            rw [← hfirst hzero r ns hchange]
            exact UInt64.le_iff_toNat_le.mp (hle _ (List.mem_map_of_mem hy))
          · intro hcatch g hg
            obtain ⟨y, hy, rfl⟩ := List.mem_map.mp hg
            by_cases hzero : (tally l).drawn = 0
            · cases hchange : lastChange l with
              -- without a change there is no request before this one
              | none =>
                  have hall := (drawn_requests l).2 (lastChange_eq_none.mp hchange)
                  rw [hzero] at hall
                  rw [List.length_eq_zero_iff.mp hall.symm] at hy
                  cases hy
              | some last =>
                  rw [UInt64.le_iff_toNat_le, hfirst hzero last.1 last.2 hchange]
                  exact hcatch nofun hzero last.1 last.2 hchange y hy
            -- the arrivals before are sorted, so the last of them is the latest
            · obtain ⟨z, hz, hle⟩ := hlater hzero
              obtain ⟨rest, hrest⟩ := List.getLast?_eq_some_iff.mp hz
              rw [hrest] at hsorted hy
              rcases List.mem_append.mp hy with hy | hy
              · rw [List.map_append, List.pairwise_append] at hsorted
                exact UInt64.le_trans (hsorted.2.2 _ (List.mem_map_of_mem hy) z.genNs (by simp)) hle
              · obtain rfl : y = z := by simpa using hy
                exact hle
      | _ => simp [RateEvent.request]

end Logs

/-! ## Sessions -/

/-- The generator and the phase of a session, read off its log. -/
structure Session.Draws {nS nR : Nat} (cfg : Config) (s : Session nS nR)
    (l : List RateEvent) : Prop where
  allocated : s.obj.allocated = (requests l).length
  roi : s.obj.status = .ROI → requests l ≠ []
  dist : ∀ d, s.obj.dist = some d → d.seed = cfg.seed ∧ d.drawn = (tally l).drawn ∧
    (d.drawn = 0 → ∀ r ns, lastChange l = some (r, ns) → d.lambda = r ∧ d.curNs = ns) ∧
    (d.drawn ≠ 0 → ∃ x, (requests l).getLast? = some x ∧ x.genNs = d.curNs)

section Sessions

variable {cfg : Config} {strict : Bool} {nS nR : Nat} {s s' : Session nS nR}
  {a : SessionAction nS nR} {l : List RateEvent}

/-- **One step.** -/
theorem Session.Draws.step (hobj : s.client.Objects) (hsched : s.Scheduled cfg l)
    (hs : s.Draws cfg l) (h : Session.next cfg strict a s = some s') :
    s'.Draws cfg (l ++ (s.rateEvent a s').toList) := by
  have hpaces := session_paces h
  have hchanged := fun i r ns => @changed_event cfg strict nS nR s s' a l i r ns hsched h
  have hcheck : s.rateEvent a s' = some .counted ∨
      (∃ i r ns, s.rateEvent a s' = some (.changed i r ns)) → s.obj.status = .ROI :=
    hsched.roi_of_check
  generalize s.rateEvent a s' = e at hpaces hchanged hcheck ⊢
  cases hpaces with
  | quiet hsame hstatus hcounter =>
      rw [Option.toList_none, List.append_nil]
      exact ⟨hsame.allocated.trans hs.allocated, by rw [hstatus]; exact hs.roi,
        by rw [hsame.dist]; exact hs.dist⟩
  | begin ns hd hbegin =>
      rw [Option.toList_none, List.append_nil]
      have hnil : (requests l).length = 0 := hs.allocated.symm.trans (hobj.fresh hd)
      have hnew : (tally l).drawn = 0 := by
        have hle := (drawn_requests l).1
        omega
      have hstatus : s.obj.status ≠ .ROI := by
        rw [show s.obj.status = .INIT from hobj.status.mp hd]
        decide
      have hchange : lastChange l = none := lastChange_eq_none.mpr (hsched.idle hstatus).1
      rw [Client.startReqInit_of_none ns hd] at hbegin
      refine ⟨?_, ?_, ?_⟩
      · rw [hbegin]
        exact hs.allocated
      · rw [hbegin]
        simp
      · rw [hbegin]
        rintro d ⟨⟩
        refine ⟨rfl, hnew.symm, fun _ r t hlast => ?_, fun hne => absurd rfl hne⟩
        rw [hchange] at hlast
        cases hlast
  | @roi p r hsame _ _ _ hp =>
      rw [Option.toList_none, List.append_nil]
      have hlt : p < s.obj.allocated := (hobj.heap p r hp).1
      rw [hs.allocated] at hlt
      exact ⟨hsame.allocated.trans hs.allocated,
        fun _ => List.ne_nil_of_length_pos (Nat.zero_lt_of_lt hlt),
        by rw [hsame.dist]; exact hs.dist⟩
  | counted ns hne hcount =>
      rw [Client.startReqRate_of_ne ns hne] at hcount
      simp only [Option.toList_some]
      refine ⟨?_, ?_, ?_⟩
      · rw [requests_concat, hcount]
        simpa [RateEvent.request] using hs.allocated
      · rw [requests_concat, hcount]
        simpa [RateEvent.request] using hs.roi
      · rw [requests_concat, tally_concat, lastChange_concat, hcount]
        simpa [RateEvent.request, Tally.next] using hs.dist
  | changed ns heq hchange hd =>
      obtain ⟨_, _, _, _, hdist, _⟩ := hchanged _ _ _ rfl
      have hbefore := hs.roi (hcheck (.inr ⟨_, _, _, rfl⟩))
      rw [Option.toList_some]
      refine ⟨?_, fun _ => ?_, ?_⟩
      · rw [requests_concat, hchange, (startReqRate_frame cfg ns s.obj).2.1]
        simpa [RateEvent.request] using hs.allocated
      · simpa [requests_concat, RateEvent.request] using hbefore
      -- the new engine has the old seed and has drawn nothing
      · rw [hdist, requests_concat, tally_concat, lastChange_concat]
        rintro _ ⟨⟩
        refine ⟨rfl, rfl, ?_, fun hne => absurd rfl hne⟩
        rintro _ r t ⟨⟩
        exact ⟨rfl, rfl⟩
  | @generated d hd hd' hsame hstatus hcounter hstarted halloc =>
      obtain ⟨hseed, hdrawn, _⟩ := hs.dist d hd
      rw [Option.toList_some]
      refine ⟨?_, fun _ => ?_, ?_⟩
      · rw [halloc, hs.allocated, requests_concat]
        simp [RateEvent.request]
      · simp [requests_concat, RateEvent.request]
      · rw [hd', requests_concat, tally_concat, lastChange_concat]
        rintro _ ⟨⟩
        exact ⟨hseed, congrArg (· + 1) hdrawn, fun hzero => absurd hzero (Nat.succ_ne_zero _),
          fun _ => ⟨⟨d.drawn, s.obj.startedReqs, (d.nextArrivalNs cfg.rng).1⟩,
            by simp [RateEvent.request], rfl⟩⟩

theorem loggedSession_draws {x : Session nS nR × List RateEvent}
    (h : (loggedSession cfg strict nS nR).Reachable x) : x.1.Draws cfg x.2 := by
  refine Machine.Reachable.invariant (P := fun x => x.1.Draws cfg x.2) ?_ ?_ h
  · rintro ⟨s, l⟩ ⟨⟨t, rfl⟩, rfl⟩
    refine ⟨rfl, ?_, ?_⟩
    · intro hroi
      cases hroi
    · intro d hd
      cases hd
  · intro x a y hr hs hn
    obtain ⟨hn, hlog⟩ := Machine.logged_next.mp hn
    rw [hlog]
    exact hs.step (loggedSession_objects hr) (loggedSession_scheduled hr) hn

/-- A generated request takes the next draw of the distribution in force. -/
theorem generated_event {draw : Nat} {id genNs : UInt64}
    (h : Session.next cfg strict a s = some s')
    (he : s.rateEvent a s' = some (.generated draw id genNs)) :
    ∃ d, s.obj.dist = some d ∧ draw = d.drawn ∧ id = s.obj.startedReqs ∧
      genNs = d.curNs + cfg.rng.gap d.lambda (cfg.rng.engine d.seed draw) := by
  have hpaces := session_paces h
  rw [he] at hpaces
  cases hpaces with
  | @generated d hd _ _ _ _ _ _ => exact ⟨d, hd, rfl, rfl, rfl⟩

/-- The log of a session. -/
theorem loggedSession_follows (h : (loggedSession cfg strict nS nR).Reachable (s, l)) :
    Machine.EachAfter RateEvent.Follows l := by
  refine Machine.ReachableBy.eachAfter (fun x a s' e hr _ hn he => ?_) h
  have hx := loggedSession_draws hr
  cases e with
  | counted => trivial
  | changed i r ns =>
      exact hx.roi ((loggedSession_scheduled hr).roi_of_check (.inr ⟨i, r, ns, he⟩))
  | generated draw id genNs =>
      obtain ⟨d, hd, rfl, rfl, _⟩ := generated_event hn he
      refine ⟨(hx.dist d hd).2.1, ?_⟩
      rw [← hx.allocated]
      exact (loggedSession_objects hr).started

/-- **The stream of draws.** The gap of a request is computed from its draw in the stream of the
seed. The `i`-th request has the `i`-th draw, and no draw is used twice, if and only if no request
is generated after a change of the rate. -/
theorem draws_in_order_iff (h : (loggedSession cfg strict nS nR).Reachable (s, l)) :
    (∀ a s' draw id genNs, Session.next cfg strict a s = some s' →
      s.rateEvent a s' = some (.generated draw id genNs) →
      ∃ d, s.obj.dist = some d ∧
        genNs = d.curNs + cfg.rng.gap d.lambda (cfg.rng.engine cfg.seed draw)) ∧
    ((requests l).map Arrival.draw = List.range (requests l).length ↔ NoRestart l) ∧
    (((requests l).map Arrival.draw).Nodup ↔ NoRestart l) := by
  have hfollows := loggedSession_follows h
  refine ⟨fun a s' draw id genNs hn he => ?_, ⟨fun heq => ?_, fun hno => ?_⟩, ⟨?_, fun hno => ?_⟩⟩
  · obtain ⟨d, hd, _, _, hgen⟩ := generated_event hn he
    rw [((loggedSession_draws h).dist d hd).1] at hgen
    exact ⟨d, hd, hgen⟩
  · refine noRestart_of_nodup hfollows ?_
    rw [heq]
    exact List.nodup_range
  · exact hno.draws_eq hfollows
  · exact noRestart_of_nodup hfollows
  · rw [hno.draws_eq hfollows]
    exact List.nodup_range

/-- The first period of the example: two requests, no change before them. -/
theorem draws_in_order_iff_two : ∃ s l, (loggedSession ratesConfig true 1 1).Reachable (s, l) ∧
    (requests l).length = 2 ∧ NoRestart l := by
  obtain ⟨⟨s, l⟩, hs, hdraws⟩ := Machine.Reachable.exists_of_exec
    (M := loggedSession ratesConfig true 1 1)
    (P := fun x => (requests x.2).map Arrival.draw = [0, 1])
    (s := (⟨NetClient.start ratesConfig, [], 0⟩, [])) firstPeriod ⟨⟨0, rfl⟩, rfl⟩
    (by decide +kernel)
  have hlength := congrArg List.length hdraws
  rw [List.length_map] at hlength
  refine ⟨s, l, hs, hlength, (draws_in_order_iff hs).2.1.mp ?_⟩
  rw [hdraws, hlength]
  rfl

/-- The request after the first change is generated from the draw of the first request. -/
theorem draws_in_order_repeats : ∃ s l, (loggedSession ratesConfig true 1 1).Reachable (s, l) ∧
    (requests l).map Arrival.draw = [0, 1, 0] ∧ ¬ ((requests l).map Arrival.draw).Nodup := by
  obtain ⟨⟨s, l⟩, hs, hdraws⟩ := Machine.Reachable.exists_of_exec
    (M := loggedSession ratesConfig true 1 1)
    (P := fun x => (requests x.2).map Arrival.draw = [0, 1, 0])
    (s := (⟨NetClient.start ratesConfig, [], 0⟩, [])) (firstPeriod ++ sendChecked 40)
    ⟨⟨0, rfl⟩, rfl⟩ (by decide +kernel)
  refine ⟨s, l, hs, hdraws, ?_⟩
  rw [show (requests l).map Arrival.draw = [0, 1, 0] from hdraws]
  decide

/-! ### Arrival times -/

/-- The step generates a request. -/
def SessionAction.generates : SessionAction nS nR → Bool
  | .client ⟨.sender _, .gen _ _⟩ => true
  | _ => false

/-- The next arrival time is a sum of integers: `curNs` does not overflow. -/
def ExpDist.Fits (rng : Rng) (d : ExpDist) : Prop :=
  d.curNs.toNat + (rng.gap d.lambda (rng.engine d.seed d.drawn)).toNat < 2 ^ 64

instance (rng : Rng) (d : ExpDist) : Decidable (d.Fits rng) := by
  unfold ExpDist.Fits
  infer_instance

/-- The draws are treated as integers. -/
def Session.Exact (cfg : Config) (x : Session nS nR × List RateEvent)
    (a : SessionAction nS nR) : Prop :=
  a.generates = true → ∀ d, x.1.obj.dist = some d → d.Fits cfg.rng

/-- Only an input of generated data leads to a request. -/
theorem generates_of_event {draw : Nat} {id genNs : UInt64}
    (h : Session.next cfg strict a s = some s')
    (he : s.rateEvent a s' = some (.generated draw id genNs)) : a.generates = true := by
  by_cases ha : ∃ i inp, a = .client ⟨.sender i, inp⟩
  · obtain ⟨i, inp, rfl⟩ := ha
    obtain ⟨d, pc, op, hstep, hobj, _⟩ := Session.next_sender h
    rw [Session.rateEvent] at he
    cases hpc : s.client.senders i with
    | start pc₀ =>
        rw [hpc] at he hstep
        cases pc₀ with
        | gen t =>
            cases inp with
            | gen ns data => rfl
            | _ => cases hstep
        | rate t =>
            simp only [SenderPc.rateEvent, StartPc.rateEvent] at he
            split at he
            · simp at he
            · simp at he
        | _ => cases he
    | _ =>
        rw [hpc] at he
        cases he
  · push Not at ha
    rw [(Session.next_other h ha).2.1] at he
    cases he

/-- With draws that are integers, an arrival time is the sum of the clock and the gap. -/
theorem loggedSession_arrives
    (h : (loggedSession cfg strict nS nR).ReachableBy (Session.Exact cfg) (s, l)) :
    Machine.EachAfter (RateEvent.Arrives cfg) l := by
  refine Machine.ReachableBy.eachAfter (fun x a s' e hr hexact hn he => ?_) h
  cases e with
  | generated draw id genNs =>
      obtain ⟨d, hd, rfl, rfl, rfl⟩ := generated_event hn he
      obtain ⟨hseed, hdrawn, hfirst, hlater⟩ := (loggedSession_draws hr.reachable).dist d hd
      have hsum : (d.curNs + cfg.rng.gap d.lambda (cfg.rng.engine d.seed d.drawn)).toNat =
          d.curNs.toNat + (cfg.rng.gap d.lambda (cfg.rng.engine d.seed d.drawn)).toNat := by
        rw [UInt64.toNat_add]
        exact Nat.mod_eq_of_lt (hexact (generates_of_event hn he) d hd)
      constructor
      · intro hzero r ns hchange
        rw [← hdrawn] at hzero
        obtain ⟨rfl, rfl⟩ := hfirst hzero r ns hchange
        rw [hsum, hseed, hzero]
      · intro hne
        rw [← hdrawn] at hne
        obtain ⟨y, hy, hcur⟩ := hlater hne
        refine ⟨y, hy, ?_⟩
        rw [UInt64.le_iff_toNat_le, hsum, hcur]
        omega
  | _ => trivial

/-- **Arrival times.** The ids are numbered in the order of the log. The arrival times do not
decrease with the ids if and only if, whenever a request is generated at a new rate, the restarted
clock has caught up with the arrival times handed out before. -/
theorem arrivals_monotone_iff
    (h : (loggedSession cfg strict nS nR).ReachableBy (Session.Exact cfg) (s, l)) :
    (requests l).map Arrival.id = (List.range (requests l).length).map UInt64.ofNat ∧
    (((requests l).map Arrival.genNs).Pairwise (· ≤ ·) ↔ CatchesUp cfg l) :=
  ⟨ids_eq (loggedSession_follows h.reachable), pairwise_genNs_iff (loggedSession_arrives h)⟩

end Sessions

/-! ### Two sessions -/

/-- A test for `Session.Exact`. -/
def Session.exact {nS nR : Nat} (cfg : Config) (x : Session nS nR × List RateEvent)
    (a : SessionAction nS nR) : Bool :=
  !a.generates || x.1.obj.dist.all fun d => decide (d.Fits cfg.rng)

theorem Session.exact_iff {nS nR : Nat} {cfg : Config} {x : Session nS nR × List RateEvent}
    {a : SessionAction nS nR} (h : Session.exact cfg x a = true) : Session.Exact cfg x a := by
  intro hgen d hd
  simpa [Session.exact, hgen, hd] using h

/-- A concrete run with arrival times `ts`. -/
theorem exists_arrivals (cfg : Config) {nS nR : Nat} (run : List (SessionAction nS nR))
    (ts : List UInt64)
    (h : (((loggedSession cfg true nS nR).guard (Session.exact cfg)).exec run
      (⟨NetClient.start cfg, [], 0⟩, [])).any
        (fun x => decide ((requests x.2).map Arrival.genNs = ts)) = true) :
    ∃ s l, (loggedSession cfg true nS nR).ReachableBy (Session.Exact cfg) (s, l) ∧
      (requests l).map Arrival.genNs = ts := by
  obtain ⟨⟨s, l⟩, hs, hts⟩ := Machine.Reachable.exists_of_exec
    (M := (loggedSession cfg true nS nR).guard (Session.exact cfg))
    (P := fun x => (requests x.2).map Arrival.genNs = ts) run ⟨⟨0, rfl⟩, rfl⟩ h
  exact ⟨s, l, hs.of_guard fun _ _ => Session.exact_iff, hts⟩

/-- A change of the rate at a time when no arrival is ahead. -/
theorem arrivals_monotone_iff_change : ∃ s l,
    (loggedSession ratesConfig true 1 1).ReachableBy (Session.Exact ratesConfig) (s, l) ∧
      (requests l).map Arrival.genNs = [11, 11, 41] ∧ CatchesUp ratesConfig l := by
  obtain ⟨s, l, hs, hts⟩ := exists_arrivals ratesConfig (firstPeriod ++ sendChecked 40)
    [11, 11, 41] (by decide +kernel)
  refine ⟨s, l, hs, hts, (arrivals_monotone_iff hs).2.mp ?_⟩
  rw [hts]
  decide

/-- The rate changes with every request; the first gap of the stream is 1, the others are 1000. -/
def gapsConfig : Config :=
  { smallConfig with
    maxreqs := 100
    qpsVar := 1
    iniQPS := 1
    rng := ⟨fun _ i => i, fun _ i => if i = 0 then 1 else 1000⟩ }

/-- Sender 0 sends the request of the warm-up, sender 1 generates one and sleeps. Sender 0 goes on
in the region of interest, changes the rate and generates one. -/
def earlyArrival : List (SessionAction 2 1) :=
  let sender (i : Fin 2) (inps : List Input) : List (SessionAction 2 1) :=
    inps.map fun inp => .client ⟨.sender i, inp⟩
  let none : Payload MAX_REQ_BYTES := ⟨[], Nat.zero_le _⟩
  twoStart.map .client ++
  sender 0 [.tau, .tau, .gen 12 none, .clock 13, .clock 14, .clock 15, .tau, .clock 16,
    .wrote requestHeaderLen, .tau, .tau] ++
  sender 1 [.tau, .tau, .gen 17 none, .clock 18, .clock 19] ++
  [.answer 0 0 ⟨[], Nat.zero_le _⟩] ++
  (NetClient.recvOne 0 20 (mkResponse 0 0 ⟨[], Nat.zero_le _⟩)).map .client ++
  sender 0 [.tau, .clock 30, .tau, .tau, .tau, .clock 31, .tau, .gen 32 none]

theorem arrivals_monotone_fails : ∃ s l,
    (loggedSession gapsConfig true 2 1).ReachableBy (Session.Exact gapsConfig) (s, l) ∧
      (requests l).map Arrival.genNs = [4, 1004, 32] ∧
      ¬ ((requests l).map Arrival.genNs).Pairwise (· ≤ ·) := by
  obtain ⟨s, l, hs, hts⟩ := exists_arrivals gapsConfig earlyArrival [4, 1004, 32]
    (by decide +kernel)
  refine ⟨s, l, hs, hts, ?_⟩
  rw [hts]
  decide

end TailBench
