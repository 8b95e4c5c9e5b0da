import TailBench.Harness.RateSchedule
import TailBench.Harness.Timeliness

set_option autoImplicit false

/-! # Rate checks and generated requests as events

A session with the list of what its senders do to the arrival process: a rate check counts or
changes the rate, and a request is generated with a draw of the current distribution. What one
step does to the client is `Client.Paces`; the invariants of the schedule are case analyses over
it.
-/

namespace TailBench

open Lib

/-- What a step does to the arrival process. -/
inductive RateEvent where
  /-- `qpsCounter++`. -/
  | counted
  /-- The rate changes: the interval in force until now, the new rate, the reading of the clock. -/
  | changed (interval : Int) (rate : ℚ) (curNs : UInt64)
  /-- A request, with the number of its draw in the stream of the engine. -/
  | generated (draw : Nat) (id genNs : UInt64)
  deriving DecidableEq

/-- The event of a step of `startReq` at a place. -/
def StartPc.rateEvent (c c' : Client) : StartPc → Option RateEvent
  | .rate _ =>
      if c.qpsCounter = c.qpsInterval then
        c'.dist.map fun d => .changed c.qpsInterval d.lambda d.curNs
      else some .counted
  | .gen _ =>
      c.dist.bind fun d => (c'.heap c.allocated).map fun r => .generated d.drawn r.id r.genNs
  | _ => none

def SenderPc.rateEvent (c c' : Client) : SenderPc → Option RateEvent
  | .start pc => pc.rateEvent c c'
  | _ => none

def Session.rateEvent {nS nR : Nat} (s : Session nS nR) (a : SessionAction nS nR)
    (s' : Session nS nR) : Option RateEvent :=
  match a with
  | .client ⟨.sender i, _⟩ =>
      (s.client.senders i).rateEvent s.obj s'.obj
  | _ => none

/-! ## What a step does to the client -/

namespace Client

/-- What determines the next arrival. -/
structure SamePace (c c' : Client) : Prop where
  qpsIni : c'.qpsIni = c.qpsIni
  qpsInterval : c'.qpsInterval = c.qpsInterval
  idxListQPS : c'.idxListQPS = c.idxListQPS
  dist : c'.dist = c.dist
  startedReqs : c'.startedReqs = c.startedReqs
  allocated : c'.allocated = c.allocated

theorem SamePace.refl (c : Client) : SamePace c c := ⟨rfl, rfl, rfl, rfl, rfl, rfl⟩

/-- What a step does to the pace of the client, and its event. -/
inductive Paces (cfg : Config) (c c' : Client) : Option RateEvent → Prop
  | quiet : SamePace c c' → c'.status = c.status → c'.qpsCounter = c.qpsCounter →
      Paces cfg c c' none
  | begin (ns : UInt64) : c.dist = none → c' = (c.startReqInit cfg ns).1 → Paces cfg c c' none
  | roi {p : Nat} {r : Request} : SamePace c c' → c.status = .WARMUP → c'.status = .ROI →
      c'.qpsCounter = 0 → c.heap p = some r → Paces cfg c c' none
  | counted (ns : UInt64) : c.qpsCounter ≠ c.qpsInterval → c' = c.startReqRate cfg ns →
      Paces cfg c c' (some .counted)
  | changed {d : ExpDist} (ns : UInt64) : c.qpsCounter = c.qpsInterval →
      c' = c.startReqRate cfg ns → c'.dist = some d →
      Paces cfg c c' (some (.changed c.qpsInterval d.lambda d.curNs))
  | generated {d : ExpDist} : c.dist = some d → c'.dist = some (d.nextArrivalNs cfg.rng).2 →
      SamePace c { c' with
        dist := c.dist, startedReqs := c.startedReqs, allocated := c.allocated } →
      c'.status = c.status → c'.qpsCounter = c.qpsCounter →
      c'.startedReqs = c.startedReqs + 1 → c'.allocated = c.allocated + 1 →
      Paces cfg c c' (some (.generated d.drawn c.startedReqs (d.nextArrivalNs cfg.rng).1))

end Client

/-- The third critical section of `startReq`. -/
theorem startReqGen_paces {cfg : Config} {c c' : Client} {t ns : UInt64}
    {data : Payload MAX_REQ_BYTES} (h : c.startReqGen cfg t ns data = some c') :
    c.Paces cfg c' ((StartPc.gen t).rateEvent c c') := by
  unfold Client.startReqGen at h
  split at h
  · cases h
  · next d hd =>
      obtain rfl := Option.some.inj h
      simp only [StartPc.rateEvent, hd, Option.bind_some, Function.update_self, Option.map_some]
      exact .generated hd rfl ⟨rfl, rfl, rfl, rfl, rfl, rfl⟩ rfl rfl rfl rfl

/-- The second one. -/
theorem startReqRate_paces (cfg : Config) (c : Client) (t ns : UInt64) :
    c.Paces cfg (c.startReqRate cfg ns) ((StartPc.rate t).rateEvent c (c.startReqRate cfg ns)) := by
  by_cases heq : c.qpsCounter = c.qpsInterval
  · obtain ⟨d, hd⟩ : ∃ d, (c.startReqRate cfg ns).dist = some d := by
      rw [Client.startReqRate, if_pos heq]
      exact ⟨_, rfl⟩
    simp only [StartPc.rateEvent, if_pos heq, hd, Option.map_some]
    exact .changed ns heq rfl hd
  · simp only [StartPc.rateEvent, if_neg heq]
    exact .counted ns heq rfl

/-- **A step inside `startReq`.** -/
theorem startReqStep_paces {cfg : Config} {n : Nat} {d d' : ClientCore} {pc pc' : StartPc}
    {inp : Input} {op : LockOp Mutex}
    (h : startReqStep cfg n d pc inp = some (.goes d' pc' op)) :
    d.obj.Paces cfg d'.obj (pc.rateEvent d.obj d'.obj) := by
  unfold startReqStep at h
  split at h
  all_goals try split at h
  all_goals try split at h
  all_goals simp only [Option.some.injEq, StartRes.goes.injEq, reduceCtorEq] at h
  all_goals obtain ⟨rfl, rfl, rfl⟩ := h
  all_goals
    first
    | exact .quiet (.refl _) rfl rfl
    | exact .begin _ ‹_› rfl
    | exact startReqRate_paces cfg _ _ _
    | exact startReqGen_paces ‹_›
    | exact .quiet ⟨rfl, rfl, rfl, rfl, rfl, rfl⟩ rfl rfl
    | skip
  -- the end of the third critical section only stamps the request
  · next hg =>
      obtain ⟨r, -, rfl⟩ := Option.map_eq_some_iff.mp hg
      exact .quiet ⟨rfl, rfl, rfl, rfl, rfl, rfl⟩ rfl rfl

theorem StartReturn.paces {cfg : Config} {c c' : Client} {pc : StartPc} {inp : Input} {p : Nat}
    (h : StartReturn c pc inp c' p) : c.Paces cfg c' (pc.rateEvent c c') := by
  cases h with
  | late ns hh hr => exact .quiet ⟨rfl, rfl, rfl, rfl, rfl, rfl⟩ rfl rfl
  | slept ns target slept ht => exact .quiet ⟨rfl, rfl, rfl, rfl, rfl, rfl⟩ rfl rfl

/-- A place at which `startReq` fails has no event. -/
theorem StartPc.rateEvent_of_fault {c c' : Client} {pc : StartPc}
    (h : (∃ t, pc = .gen t ∧ c.dist = none) ∨ ∃ p, pc.ptr = some p ∧ c.heap p = none) :
    pc.rateEvent c c' = none := by
  rcases h with ⟨t, rfl, hd⟩ | ⟨p, hp, _⟩
  · simp [StartPc.rateEvent, hd]
  · cases pc with
    | genEnd _ | generated _ | sleep _ _ _ => rfl
    | _ => cases hp

/-- **A step of a sender.** -/
theorem senderStep_paces {cfg : Config} {n : Nat} {d d' : NetData} {pc pc' : SenderPc}
    {inp : Input} {op : LockOp Mutex} (h : senderStep cfg n d pc inp = some (d', pc', op)) :
    d.obj.Paces cfg d'.obj (pc.rateEvent d.obj d'.obj) := by
  cases pc with
  | start pc =>
      simp only [senderStep] at h
      split at h
      · cases h
      · next hs =>
          cases h
          exact startReqStep_paces hs
      · next hs =>
          cases h
          exact (startReqStep_returns hs).paces
      · next hs =>
          cases h
          rw [SenderPc.rateEvent, StartPc.rateEvent_of_fault (startReqStep_faults hs).2]
          exact .quiet (.refl _) rfl rfl
  | _ =>
      cases senderStep_move h with
      | _ => exact .quiet ⟨rfl, rfl, rfl, rfl, rfl, rfl⟩ rfl rfl

/-- `finiReq` switches the phase, or leaves the pace alone. -/
theorem finiRecord_paces {cfg : Config} {laterNs : UInt64} {c c' : Client} {p : Nat}
    {req : Request} {resp : Response} {curNs : UInt64} {ex : Bool} (hp : c.heap p = some req)
    (he : Client.FiniEnd cfg laterNs (c.finiRecord p req resp curNs) c' ex) :
    c.Paces cfg c' none := by
  have hrecord : c.SamePace (c.finiRecord p req resp curNs) ∧
      (c.finiRecord p req resp curNs).qpsCounter = c.qpsCounter := by
    simp only [Client.finiRecord]
    split <;> exact ⟨⟨rfl, rfl, rfl, rfl, rfl, rfl⟩, rfl⟩
  obtain ⟨⟨h1, h2, h3, h4, h5, h6⟩, hcounter⟩ := hrecord
  cases he with
  | roi hw hs =>
      obtain ⟨hst, rfl⟩ := Client._startRoi_some hs
      exact .roi ⟨h1, h2, h3, h4, h5, h6⟩ (by simpa [Client.countOne] using hst) rfl rfl hp
  | count hw hb => exact .quiet ⟨h1, h2, h3, h4, h5, h6⟩ (by simp [Client.countOne]) hcounter
  | dump hw hb =>
      exact .quiet ⟨h1, h2, h3, h4, h5, h6⟩ (by simp [Client.countOne, Client.dumpStats]) hcounter

theorem ReceiverMove.paces {cfg : Config} {d d' : NetData} {pc pc' : ReceiverPc} {inp : Input}
    {op : LockOp Mutex} (h : ReceiverMove cfg d pc inp d' pc' op) :
    d.obj.Paces cfg d'.obj none := by
  cases h with
  | returns curNs laterNs hm he => exact finiRecord_paces hm.live he
  | exits curNs laterNs hm he => exact finiRecord_paces hm.live he
  | _ => exact .quiet (.refl _) rfl rfl

section Step

variable {cfg : Config} {strict : Bool} {nS nR : Nat} {s s' : Session nS nR}
  {a : SessionAction nS nR}

theorem Session.next_sender {i : Fin nS} {inp : Input}
    (h : Session.next cfg strict (.client ⟨.sender i, inp⟩) s = some s') :
    ∃ d pc op, senderStep cfg nS s.client.data (s.client.senders i) inp = some (d, pc, op) ∧
      s'.obj = d.obj ∧ s'.client.senders = Function.update s.client.senders i pc := by
  have hn := Session.next_client h
  simp only [NetClient.next] at hn
  split at hn
  · cases hn
  · split at hn
    · cases hn
    · next d pc op hs =>
        obtain ⟨locks, _, hc⟩ := Option.map_eq_some_iff.mp hn
        exact ⟨d, pc, op, hs, by rw [Session.obj, ← hc], by rw [← hc]⟩

theorem Session.next_other (h : Session.next cfg strict a s = some s')
    (ha : ∀ i inp, a ≠ .client ⟨.sender i, inp⟩) :
    s'.client.senders = s.client.senders ∧ s.rateEvent a s' = none ∧
      s.obj.Paces cfg s'.obj none := by
  cases a with
  | client a =>
      rcases a with ⟨tid, inp⟩
      cases tid with
      | sender i => exact absurd rfl (ha i inp)
      | receiver j =>
          have hn := Session.next_client h
          simp only [NetClient.next] at hn
          split at hn
          · cases hn
          · split at hn
            · cases hn
            · next hs =>
                obtain ⟨locks, _, hc⟩ := Option.map_eq_some_iff.mp hn
                have hpaces := (receiverStep_move hs).paces
                exact ⟨by rw [← hc], rfl, by rw [Session.obj, Session.obj, ← hc]; exact hpaces⟩
  | _ =>
      have hsame := Session.next_env h (by nofun)
      refine ⟨by rw [hsame], rfl, ?_⟩
      rw [Session.obj, Session.obj, hsame]
      exact .quiet (.refl _) rfl rfl

/-- **A step of a session.** -/
theorem session_paces (h : Session.next cfg strict a s = some s') :
    s.obj.Paces cfg s'.obj (s.rateEvent a s') := by
  by_cases ha : ∃ i inp, a = .client ⟨.sender i, inp⟩
  · obtain ⟨i, inp, rfl⟩ := ha
    obtain ⟨d, pc, op, hs, hobj, _⟩ := Session.next_sender h
    rw [Session.rateEvent, hobj]
    exact senderStep_paces hs
  · push Not at ha
    obtain ⟨_, hevent, hpaces⟩ := Session.next_other h ha
    rw [hevent]
    exact hpaces

end Step

/-! ## The place of the rate check -/

/-- On the way into the rate check. -/
def SenderPc.checking : SenderPc → Bool
  | .start (.lockRate _) | .start (.rate _) => true
  | _ => false

/-- Only the read of `status` leads there. -/
theorem senderStep_checking {cfg : Config} {n : Nat} {d d' : NetData} {pc pc' : SenderPc}
    {inp : Input} {op : LockOp Mutex} (h : senderStep cfg n d pc inp = some (d', pc', op))
    (hpc' : pc'.checking = true) :
    d'.obj = d.obj ∧ (pc.checking = true ∨ d.obj.status = .ROI) := by
  cases pc with
  | start pc =>
      simp only [senderStep] at h
      split at h
      · cases h
      · next hs =>
          cases h
          unfold startReqStep at hs
          split at hs
          all_goals try split at hs
          all_goals try split at hs
          all_goals simp only [Option.some.injEq, StartRes.goes.injEq, reduceCtorEq] at hs
          all_goals obtain ⟨rfl, rfl, rfl⟩ := hs
          all_goals try cases hpc'
          · next hroi => exact ⟨rfl, .inr hroi.1⟩
          · exact ⟨rfl, .inl rfl⟩
      · cases h
        cases hpc'
      · cases h
        exact ⟨rfl, .inl hpc'⟩
  | _ =>
      cases senderStep_move h with
      | fault hbad => exact ⟨rfl, .inl hpc'⟩
      | _ => cases hpc'

/-! ## Periods -/

/-- What a log comes to. -/
structure Tally where
  /-- The changes of the rate. -/
  changes : Nat := 0
  /-- The increments of `qpsCounter` since the last change. -/
  increments : Nat := 0
  /-- The requests generated since the last change. -/
  drawn : Nat := 0
  /-- A rate check was made, and no request was generated since. -/
  pending : Bool := false
  /-- The requests generated since the last change, each right after a rate check. -/
  checked : Nat := 0

def Tally.next (t : Tally) : RateEvent → Tally
  | .counted => { t with increments := t.increments + 1, pending := true }
  | .changed _ _ _ => { changes := t.changes + 1, pending := true }
  | .generated _ _ _ =>
      { t with
        drawn := t.drawn + 1
        pending := false
        checked := t.checked + t.pending.toNat }

def tally (l : List RateEvent) : Tally := l.foldl Tally.next {}

theorem tally_concat (l : List RateEvent) (x : RateEvent) :
    tally (l ++ [x]) = (tally l).next x := by
  simp [tally]

/-- The schedule of a session, read off its log. -/
structure Session.Scheduled {nS nR : Nat} (cfg : Config) (s : Session nS nR)
    (l : List RateEvent) : Prop where
  onSchedule : s.obj.OnSchedule cfg (tally l).changes
  idle : s.obj.status ≠ .ROI →
    (tally l).changes = 0 ∧ (tally l).increments = 0 ∧ (tally l).pending = false
  counter : s.obj.status = .ROI → s.obj.qpsCounter = (tally l).increments
  place : ∀ i, (s.client.senders i).checking = true → s.obj.status = .ROI

section Scheduled

variable {cfg : Config} {strict : Bool} {nS nR : Nat} {s s' : Session nS nR}
  {a : SessionAction nS nR} {l : List RateEvent} {e : Option RateEvent}

/-- A rate check is made in the region of interest. -/
theorem Session.Scheduled.roi_of_check (hs : s.Scheduled cfg l)
    (he : s.rateEvent a s' = some .counted ∨
      ∃ i r ns, s.rateEvent a s' = some (.changed i r ns)) : s.obj.status = .ROI := by
  unfold Session.rateEvent at he
  split at he
  · next i inp =>
      refine hs.place i ?_
      cases hpc : s.client.senders i with
      | start pc =>
          cases pc with
          | rate t => rfl
          | gen t =>
              rw [hpc] at he
              simp only [SenderPc.rateEvent, StartPc.rateEvent, Option.bind_eq_some_iff,
                Option.map_eq_some_iff] at he
              simp at he
          | _ => simp [hpc, SenderPc.rateEvent, StartPc.rateEvent] at he
      | _ => simp [hpc, SenderPc.rateEvent] at he
  · simp at he

/-- The place of the rate check is left alone by a step that leaves the status alone. -/
theorem Session.Scheduled.place_step (hs : s.Scheduled cfg l)
    (h : Session.next cfg strict a s = some s')
    (hroi : s.obj.status = .ROI → s'.obj.status = .ROI) (i : Fin nS)
    (hi : (s'.client.senders i).checking = true) : s'.obj.status = .ROI := by
  by_cases ha : ∃ i inp, a = .client ⟨.sender i, inp⟩
  · obtain ⟨j, inp, rfl⟩ := ha
    obtain ⟨d, pc, op, hstep, hobj, hsenders⟩ := Session.next_sender h
    rw [hsenders] at hi
    by_cases hj : i = j
    · subst hj
      rw [Function.update_self] at hi
      obtain ⟨hsame, hbefore⟩ := senderStep_checking hstep hi
      rw [hobj, hsame]
      exact hbefore.elim (hs.place i) id
    · rw [Function.update_of_ne hj] at hi
      exact hroi (hs.place i hi)
  · push Not at ha
    rw [(Session.next_other h ha).1] at hi
    exact hroi (hs.place i hi)

theorem Client.OnSchedule.of_same {c c' : Client} {k : Nat} (hs : c.OnSchedule cfg k)
    (h : c.SamePace c') : c'.OnSchedule cfg k where
  qpsIni := h.qpsIni.trans hs.qpsIni
  qpsInterval := h.qpsInterval.trans hs.qpsInterval
  idxListQPS := fun htwo => h.idxListQPS.trans (hs.idxListQPS htwo)
  dist := fun hvar d hd => hs.dist hvar d (h.dist ▸ hd)

/-- **One step.** -/
theorem Session.Scheduled.step (hobj : s.client.Objects) (hs : s.Scheduled cfg l)
    (h : Session.next cfg strict a s = some s') :
    s'.Scheduled cfg (l ++ (s.rateEvent a s').toList) := by
  have hpaces := session_paces h
  have hplace := hs.place_step h
  have hcheck : s.rateEvent a s' = some .counted ∨
      (∃ i r ns, s.rateEvent a s' = some (.changed i r ns)) → s.obj.status = .ROI :=
    hs.roi_of_check
  generalize s.rateEvent a s' = e at hpaces hcheck ⊢
  cases hpaces with
  | quiet hsame hstatus hcounter =>
      rw [Option.toList_none, List.append_nil]
      refine ⟨hs.onSchedule.of_same hsame, ?_, ?_, hplace ?_⟩
      · rw [hstatus]
        exact hs.idle
      · rw [hstatus, hcounter]
        exact hs.counter
      · rw [hstatus]
        exact id
  | begin ns hd hbegin =>
      rw [Option.toList_none, List.append_nil]
      have hinit : s.obj.status = .INIT := hobj.status.mp hd
      have hwarm : s'.obj.status = .WARMUP := by
        rw [hbegin, Client.startReqInit_of_none ns hd]
      have hidle := hs.idle (by rw [hinit]; decide)
      refine ⟨?_, fun _ => hidle, ?_, hplace ?_⟩
      · rw [hbegin]
        exact hs.onSchedule.startReqInit ns hd
      · rw [hwarm]
        simp
      · rw [hinit]
        simp
  | roi hsame hbefore hafter hcounter _ =>
      rw [Option.toList_none, List.append_nil]
      have hidle := hs.idle (by rw [hbefore]; decide)
      refine ⟨hs.onSchedule.of_same hsame, fun hne => absurd hafter hne, fun _ => ?_,
        hplace fun _ => hafter⟩
      rw [hcounter, hidle.2.1]
      rfl
  | counted ns hne hcount =>
      have hroi := hcheck (.inl rfl)
      have hcounter := hs.counter hroi
      rw [Client.startReqRate_of_ne ns hne] at hcount
      have hroi' : s'.obj.status = .ROI := by rw [hcount]; exact hroi
      rw [Option.toList_some]
      refine ⟨?_, fun hnot => absurd hroi' hnot, fun _ => ?_, hplace fun _ => hroi'⟩
      · rw [tally_concat]
        exact hs.onSchedule.of_same (by rw [hcount]; exact ⟨rfl, rfl, rfl, rfl, rfl, rfl⟩)
      · rw [tally_concat, hcount]
        simp only [Tally.next]
        omega
  | changed ns heq hchange hd =>
      have hroi := hcheck (.inr ⟨_, _, _, rfl⟩)
      have hroi' : s'.obj.status = .ROI := by
        rw [hchange, (startReqRate_frame cfg ns s.obj).2.2.2.2.1]
        exact hroi
      obtain ⟨hon, hzero, _⟩ := Client.startReqRate_of_eq ns heq hs.onSchedule
      rw [← hchange] at hon hzero
      rw [Option.toList_some]
      refine ⟨?_, fun hnot => absurd hroi' hnot, fun _ => ?_, hplace fun _ => hroi'⟩
      · rw [tally_concat]
        exact hon
      · rw [tally_concat, hzero]
        rfl
  | @generated d hd hd' hsame hstatus hcounter _ _ =>
      have hon := hs.onSchedule.of_same hsame
      rw [Option.toList_some]
      refine ⟨?_, ?_, ?_, hplace (by rw [hstatus]; exact id)⟩
      -- the draw is taken from the same distribution
      · rw [tally_concat]
        refine ⟨hon.qpsIni, hon.qpsInterval, hon.idxListQPS, ?_⟩
        rw [hd']
        rintro hvar _ ⟨⟩
        exact hon.dist hvar d hd
      · rw [tally_concat, hstatus]
        intro hnot
        obtain ⟨h1, h2, h3⟩ := hs.idle hnot
        exact ⟨h1, h2, rfl⟩
      · rw [tally_concat, hstatus, hcounter]
        exact hs.counter

theorem start_scheduled (cfg : Config) (t : UInt64) :
    (⟨NetClient.start cfg, [], t⟩ : Session nS nR).Scheduled cfg [] where
  onSchedule := Client.new_onSchedule cfg
  idle := fun _ => ⟨rfl, rfl, rfl⟩
  counter := by intro h; cases h
  place := by intro i h; cases h

/-- A session and its log. -/
def loggedSession (cfg : Config) (strict : Bool) (nS nR : Nat) :
    Machine (Session nS nR × List RateEvent) (SessionAction nS nR) :=
  (session cfg strict nS nR).logged Session.rateEvent

variable {x : Session nS nR × List RateEvent}

theorem loggedSession_objects (h : (loggedSession cfg strict nS nR).Reachable x) :
    x.1.client.Objects :=
  netClient_objects (session_client h.of_logged)

theorem loggedSession_scheduled (h : (loggedSession cfg strict nS nR).Reachable x) :
    x.1.Scheduled cfg x.2 := by
  refine Machine.Reachable.invariant (P := fun x => x.1.Scheduled cfg x.2) ?_ ?_ h
  · rintro ⟨s, l⟩ ⟨⟨t, rfl⟩, rfl⟩
    exact start_scheduled cfg t
  · intro x a y hr hs hn
    obtain ⟨hn, hlog⟩ := Machine.logged_next.mp hn
    rw [hlog]
    exact hs.step (loggedSession_objects hr) hn

end Scheduled

end TailBench
