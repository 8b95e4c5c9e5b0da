import TailBench.Harness.NetworkedClient

set_option autoImplicit false

/-! # What a step of a client thread can do

The transition functions of the client, read backwards: from the fact that a step happened
to the list of its possible effects. Every invariant of the client is a case analysis over
these, so the functions themselves are taken apart here only.
-/

namespace TailBench

open Lib

/-! ## `startReq` -/

/-- The request a thread inside `startReq` has generated. -/
def StartPc.ptr : StartPc → Option Nat
  | .genEnd p | .generated p | .sleep p _ _ => some p
  | _ => none

/-- The `startNs` a thread inside `startReq` carries to its request. -/
def StartPc.startNs : StartPc → Option UInt64
  | .checkInit t | .arrive1 t | .wait1 t _ | .lockInit t | .init t | .arrive2 t | .wait2 t _
  | .checkRoi t | .lockRate t | .rate t | .lockGen t | .gen t => some t
  | _ => none

/-- A thread inside `startReq` has made sure that `dist` exists. -/
def StartPc.ready : StartPc → Prop
  | .arrive2 _ | .wait2 _ _ | .checkRoi _ | .lockRate _ | .rate _ | .lockGen _ | .gen _ => True
  | _ => False

/-- The effect of a step inside `startReq` on the object. -/
inductive StartEffect (cfg : Config) (c : Client) :
    StartPc → Input → Client → StartPc → Prop
  | same {pc pc' : StartPc} {inp : Input} (hp : pc'.ptr = pc.ptr)
      (hs : ∀ t, pc'.startNs = some t → pc.startNs = some t ∨ inp = .clock t)
      (ht : pc.ptr ≠ none → pc' = pc)
      (hr : pc'.ready → pc.ready ∨ c.status ≠ .INIT ∨ c.dist ≠ none) :
      StartEffect cfg c pc inp c pc'
  | init {t : UInt64} (ns : UInt64) (hd : c.dist = none) :
      StartEffect cfg c (.init t) (.clock ns) (c.startReqInit cfg ns).1 (.arrive2 t)
  | rate {t : UInt64} {inp : Input} (ns : UInt64) :
      StartEffect cfg c (.rate t) inp (c.startReqRate cfg ns) (.lockGen t)
  | gen {t : UInt64} (ns : UInt64) (data : Payload MAX_REQ_BYTES) {c' : Client}
      (hg : c.startReqGen cfg t ns data = some c') :
      StartEffect cfg c (.gen t) (.gen ns data) c' (.genEnd c.allocated)
  | genEnd {p : Nat} (ns : UInt64) {c' : Client} (hg : c.startReqGenEnd p ns = some c') :
      StartEffect cfg c (.genEnd p) (.clock ns) c' (.generated p)
  | late {p : Nat} {r : Request} (ns target slept : UInt64) (hh : c.heap p = some r)
      (hr : r.genNs ≤ target) :
      StartEffect cfg c (.generated p) (.clock ns)
        (c.modifyReq p fun r => { r with late := decide (r.genNs < r.startNs) })
        (.sleep p target slept)

/-- The effect of the step with which `startReq` returns. -/
inductive StartReturn (c : Client) : StartPc → Input → Client → Nat → Prop
  | late {p : Nat} {r : Request} (ns : UInt64) (hh : c.heap p = some r) (hr : r.genNs ≤ ns) :
      StartReturn c (.generated p) (.clock ns)
        (c.modifyReq p fun r => { r with late := decide (r.genNs < r.startNs) }) p
  | slept {p : Nat} (ns target slept : UInt64) (ht : target ≤ ns) :
      StartReturn c (.sleep p target slept) (.clock ns)
        { c with total_sleep_ns := c.total_sleep_ns + slept } p

/-- The target of a sleep is not before the arrival time. -/
theorem le_sleepTarget (genNs ns : UInt64) : genNs ≤ max genNs ns := by
  rw [show max genNs ns = if genNs ≤ ns then ns else genNs from rfl]
  split
  · assumption
  · exact UInt64.le_refl genNs

/-- **A step inside `startReq`**: its effect on the object, and that its lock operation is
the difference between the two places. -/
theorem startReqStep_goes {cfg : Config} {n : Nat} {d d' : ClientCore} {pc pc' : StartPc}
    {inp : Input} {op : LockOp Mutex}
    (h : startReqStep cfg n d pc inp = some (.goes d' pc' op)) :
    StartEffect cfg d.obj pc inp d'.obj pc' ∧ op.Fits pc.holds ∧
      ∀ k, pc'.holds k ↔ op.after pc.holds k := by
  unfold startReqStep at h
  split at h
  all_goals try split at h
  all_goals try split at h
  all_goals simp only [Option.some.injEq, StartRes.goes.injEq, reduceCtorEq] at h
  all_goals obtain ⟨rfl, rfl, rfl⟩ := h
  all_goals
    refine ⟨?_, by simp [LockOp.Fits, StartPc.holds], by simp [LockOp.after, StartPc.holds]⟩
  all_goals
    first
    | (refine .same rfl (by simp [StartPc.startNs]) (by simp [StartPc.ptr]) ?_
       simp [StartPc.ready, *])
    | exact .init _ ‹_›
    | exact .rate _
    | exact .gen _ _ ‹_›
    | exact .genEnd _ ‹_›
    | exact .late _ _ _ ‹_› (le_sleepTarget _ _)

theorem startReqStep_returns {cfg : Config} {n : Nat} {d d' : ClientCore} {pc : StartPc}
    {inp : Input} {p : Nat} (h : startReqStep cfg n d pc inp = some (.returns d' p)) :
    StartReturn d.obj pc inp d'.obj p := by
  unfold startReqStep at h
  split at h
  all_goals try split at h
  all_goals try split at h
  all_goals simp only [Option.some.injEq, StartRes.returns.injEq, reduceCtorEq] at h
  all_goals obtain ⟨rfl, rfl⟩ := h
  · next hh hlt => exact .late _ hh (UInt64.not_lt.mp hlt)
  · next hlt => exact .slept _ _ _ (UInt64.not_lt.mp hlt)

/-- `startReq` fails only on a null `dist` or a dead request. -/
theorem startReqStep_faults {cfg : Config} {n : Nat} {d : ClientCore} {pc : StartPc}
    {inp : Input} {f : ClientFault} (h : startReqStep cfg n d pc inp = some (.faults f)) :
    f = .badPointer ∧
      ((∃ t, pc = .gen t ∧ d.obj.dist = none) ∨ ∃ p, pc.ptr = some p ∧ d.obj.heap p = none) := by
  unfold startReqStep at h
  split at h
  all_goals try split at h
  all_goals try split at h
  all_goals simp only [Option.some.injEq, StartRes.faults.injEq, reduceCtorEq] at h
  all_goals obtain rfl := h
  · next hnone =>
      refine ⟨rfl, .inl ⟨_, rfl, ?_⟩⟩
      cases hd : d.obj.dist with
      | none => rfl
      | some x => simp [Client.startReqGen, hd] at hnone
  · next hnone =>
      exact ⟨rfl, .inr ⟨_, rfl, by simpa [Client.startReqGenEnd] using hnone⟩⟩
  · next hnone => exact ⟨rfl, .inr ⟨_, rfl, hnone⟩⟩

/-! ## Senders -/

/-- The request a sender has started and not yet transferred. -/
def SenderPc.ptr : SenderPc → Option Nat
  | .start pc => pc.ptr
  | .sendEntry p | .lockSend p | .sendLocked p | .sending p _ _ => some p
  | _ => none

/-- What a sender holds. -/
def SenderPc.holds : SenderPc → Mutex → Prop
  | .start pc, m => pc.holds m
  | .sendLocked _, m | .sending _ _ _, m | .afterSend _, m | .unlockSend _, m => m = .sendLock
  | _, _ => False

/-- The steps of a sender. -/
inductive SenderMove (cfg : Config) (d : NetData) :
    SenderPc → Input → NetData → SenderPc → LockOp Mutex → Prop
  | exit (hb : cfg.budget ≤ d.obj.numReqsSent) : SenderMove cfg d .top .tau d .exited .keep
  | begin (hb : d.obj.numReqsSent < cfg.budget) :
      SenderMove cfg d .top .tau d (.start .enter) .keep
  | start {pc pc' : StartPc} {c : Client} {b : Barrier} {op : LockOp Mutex}
      {inp : Input} (he : StartEffect cfg d.obj pc inp c pc') (hfits : op.Fits pc.holds)
      (hholds : ∀ k, pc'.holds k ↔ op.after pc.holds k) :
      SenderMove cfg d (.start pc) inp { d with core := ⟨c, b⟩ } (.start pc') op
  | startReturn {pc : StartPc} {c : Client} {b : Barrier} {p : Nat}
      {inp : Input} (hr : StartReturn d.obj pc inp c p) :
      SenderMove cfg d (.start pc) inp { d with core := ⟨c, b⟩ } (.sendEntry p) .keep
  | fault {pc : SenderPc} {inp : Input}
      (hbad : (∃ t, pc = .start (.gen t) ∧ d.obj.dist = none) ∨
        ∃ p, pc.ptr = some p ∧ d.obj.heap p = none) :
      SenderMove cfg d pc inp { d with proc := .aborted .badPointer } pc .keep
  | stamp {p : Nat} {r : Request} (ns : UInt64) (hh : d.obj.heap p = some r) :
      SenderMove cfg d (.sendEntry p) (.clock ns)
        (d.setObj (d.obj.modifyReq p fun r => { r with sentNs := ns })) (.lockSend p) .keep
  | lockSend {p : Nat} :
      SenderMove cfg d (.lockSend p) .tau d (.sendLocked p) (.acquire .sendLock)
  | send {p : Nat} {r : Request} (ns : UInt64) (hh : d.obj.heap p = some r)
      (hb : d.obj.numReqsSent ≠ cfg.budget) :
      SenderMove cfg d (.sendLocked p) (.clock ns)
        (d.setObj (d.obj.modifyReq p fun r => { r with sentNs_lock_ad := ns }))
        (.sending p { r with sentNs_lock_ad := ns } { r with sentNs_lock_ad := ns }.frame) .keep
  | skip {p : Nat} {r : Request} (ns : UInt64) (hh : d.obj.heap p = some r)
      (hb : d.obj.numReqsSent = cfg.budget) :
      SenderMove cfg d (.sendLocked p) (.clock ns)
        { d.setObj (d.obj.modifyReq p fun r => { r with sentNs_lock_ad := ns }) with
          skipped := d.skipped ++ [p] } (.unlockSend true) .keep
  | write {p : Nat} {req : Request} {rest : Bytes} {k : Nat} (hk : 1 ≤ k)
      (hlt : k < rest.length) :
      SenderMove cfg d (.sending p req rest) (.wrote k)
        { d with wire := d.wire ++ rest.take k } (.sending p req (rest.drop k)) .keep
  | writeLast {p : Nat} {req : Request} {rest : Bytes} (hpos : 1 ≤ rest.length) :
      SenderMove cfg d (.sending p req rest) (.wrote rest.length)
        { d with wire := d.wire ++ rest, sent := d.sent ++ [(p, req)] } (.afterSend true) .keep
  | writeError {p : Nat} {req : Request} {rest : Bytes} :
      SenderMove cfg d (.sending p req rest) .sendError
        { d with failed := d.failed ++ [p] } (.afterSend false) .keep
  | count {ok : Bool} :
      SenderMove cfg d (.afterSend ok) .tau
        (d.setObj
          { d.obj with
            numReqsSent := d.obj.numReqsSent + 1
            sent_requests := d.obj.sent_requests + 1 }) (.unlockSend ok) .keep
  | unlock : SenderMove cfg d (.unlockSend true) .tau d .top (.release .sendLock)
  | stop : SenderMove cfg d (.unlockSend false) .tau d .stopped (.release .sendLock)

theorem senderStep_move {cfg : Config} {n : Nat} {d d' : NetData} {pc pc' : SenderPc}
    {inp : Input} {op : LockOp Mutex}
    (h : senderStep cfg n d pc inp = some (d', pc', op)) :
    SenderMove cfg d pc inp d' pc' op := by
  cases pc with
  | top =>
      cases inp with
      | tau =>
          cases h
          split
          · next hb => exact .exit hb
          · next hb => exact .begin (UInt64.not_le.mp hb)
      | _ => cases h
  | start pc =>
      simp only [senderStep] at h
      split at h
      · cases h
      · next hs =>
          cases h
          obtain ⟨he, hfits, hholds⟩ := startReqStep_goes hs
          exact .start he hfits hholds
      · next hs =>
          cases h
          exact .startReturn (startReqStep_returns hs)
      · next hs =>
          cases h
          obtain ⟨rfl, ⟨t, rfl, hd⟩ | hp⟩ := startReqStep_faults hs
          · exact .fault (.inl ⟨t, rfl, hd⟩)
          · exact .fault (.inr hp)
  | sendEntry p =>
      cases inp with
      | clock ns =>
          simp only [senderStep] at h
          split at h
          · next hh =>
              cases h
              exact .fault (.inr ⟨p, rfl, hh⟩)
          · next hh =>
              cases h
              exact .stamp ns hh
      | _ => cases h
  | lockSend p =>
      cases inp with
      | tau =>
          cases h
          exact .lockSend
      | _ => cases h
  | sendLocked p =>
      cases inp with
      | clock ns =>
          simp only [senderStep] at h
          split at h
          · next hh =>
              cases h
              exact .fault (.inr ⟨p, rfl, hh⟩)
          · next hh =>
              split at h
              · next hb =>
                  cases h
                  exact .send ns hh hb
              · next hb =>
                  cases h
                  exact .skip ns hh (not_not.mp hb)
      | _ => cases h
  | sending p req rest =>
      cases inp with
      | wrote k =>
          simp only [senderStep] at h
          split at h
          · next hk =>
              split at h
              · next hl =>
                  cases h
                  subst hl
                  rw [List.take_length]
                  exact .writeLast hk.1
              · next hl =>
                  cases h
                  exact .write hk.1 (lt_of_le_of_ne hk.2 hl)
          · cases h
      | sendError =>
          cases h
          exact .writeError
      | _ => cases h
  | afterSend ok =>
      cases inp with
      | tau =>
          cases h
          exact .count
      | _ => cases h
  | unlockSend ok =>
      cases inp with
      | tau =>
          cases h
          cases ok with
          | true => exact .unlock
          | false => exact .stop
      | _ => cases h
  | exited => cases h
  | stopped => cases h

/-- A step of a sender changes what it holds by its lock operation. -/
theorem SenderMove.holds {cfg : Config} {d d' : NetData} {pc pc' : SenderPc}
    {inp : Input} {op : LockOp Mutex} (h : SenderMove cfg d pc inp d' pc' op) :
    op.Fits pc.holds ∧ ∀ k, pc'.holds k ↔ op.after pc.holds k := by
  cases h with
  | start he hfits hholds => exact ⟨hfits, hholds⟩
  | startReturn hr => cases hr <;> simp [LockOp.Fits, LockOp.after, SenderPc.holds, StartPc.holds]
  | fault hbad => exact ⟨trivial, fun k => Iff.rfl⟩
  | _ => simp [LockOp.Fits, LockOp.after, SenderPc.holds, StartPc.holds]

/-- What only `finiReq` changes. -/
structure Client.SameWindow (c c' : Client) : Prop where
  numReqsCompleted : c'.numReqsCompleted = c.numReqsCompleted
  svcTimes : c'.svcTimes = c.svcTimes
  queueTimes : c'.queueTimes = c.queueTimes
  sjrnTimes : c'.sjrnTimes = c.sjrnTimes
  requestDate : c'.requestDate = c.requestDate
  nicSjrnTimes : c'.nicSjrnTimes = c.nicSjrnTimes
  completed : c'.completed = c.completed
  dumps : c'.dumps = c.dumps

theorem Client.SameWindow.refl (c : Client) : SameWindow c c :=
  ⟨rfl, rfl, rfl, rfl, rfl, rfl, rfl, rfl⟩

theorem StartEffect.window {cfg : Config} {c c' : Client} {pc pc' : StartPc} {inp : Input}
    (h : StartEffect cfg c pc inp c' pc') : Client.SameWindow c c' := by
  cases h with
  | same hp hs ht hr => exact .refl c
  | init ns hd =>
      simp only [Client.startReqInit, hd]
      exact ⟨rfl, rfl, rfl, rfl, rfl, rfl, rfl, rfl⟩
  | rate ns =>
      unfold Client.startReqRate
      split
      · split
        · exact ⟨rfl, rfl, rfl, rfl, rfl, rfl, rfl, rfl⟩
        · split
          · exact ⟨rfl, rfl, rfl, rfl, rfl, rfl, rfl, rfl⟩
          · exact ⟨rfl, rfl, rfl, rfl, rfl, rfl, rfl, rfl⟩
      · exact ⟨rfl, rfl, rfl, rfl, rfl, rfl, rfl, rfl⟩
  | gen ns data hg =>
      unfold Client.startReqGen at hg
      split at hg
      · cases hg
      · obtain rfl := Option.some.inj hg
        exact ⟨rfl, rfl, rfl, rfl, rfl, rfl, rfl, rfl⟩
  | genEnd ns hg =>
      obtain ⟨r, hr, rfl⟩ := Option.map_eq_some_iff.mp hg
      exact ⟨rfl, rfl, rfl, rfl, rfl, rfl, rfl, rfl⟩
  | late ns target slept hh hr => exact ⟨rfl, rfl, rfl, rfl, rfl, rfl, rfl, rfl⟩

/-- What a sender leaves alone. -/
structure SenderFrame (d d' : NetData) : Prop where
  rx : d'.rx = d.rx
  framesRead : d'.framesRead = d.framesRead
  window : Client.SameWindow d.obj d'.obj
  sent : d.sent <+: d'.sent

/-- **A sender does not touch what the receivers do**, and only adds to what was sent. -/
theorem SenderMove.frame {cfg : Config} {d d' : NetData} {pc pc' : SenderPc}
    {inp : Input} {op : LockOp Mutex} (h : SenderMove cfg d pc inp d' pc' op) :
    SenderFrame d d' := by
  have hsame : ∀ {d'' : NetData}, d''.rx = d.rx → d''.framesRead = d.framesRead →
      d''.sent = d.sent → Client.SameWindow d.obj d''.obj → SenderFrame d d'' :=
    fun hrx hfr hsent hw => ⟨hrx, hfr, hw, by rw [hsent]⟩
  cases h with
  | start he hfits hholds => exact hsame rfl rfl rfl he.window
  | startReturn hr =>
      cases hr with
      | late ns hh hr => exact hsame rfl rfl rfl ⟨rfl, rfl, rfl, rfl, rfl, rfl, rfl, rfl⟩
      | slept ns target slept ht =>
          exact hsame rfl rfl rfl ⟨rfl, rfl, rfl, rfl, rfl, rfl, rfl, rfl⟩
  | writeLast hpos => exact ⟨rfl, rfl, .refl _, List.prefix_append _ _⟩
  | _ => exact hsame rfl rfl rfl ⟨rfl, rfl, rfl, rfl, rfl, rfl, rfl, rfl⟩

/-- A sender aborts the process only over a bad pointer. -/
theorem SenderMove.proc {cfg : Config} {d d' : NetData} {pc pc' : SenderPc} {inp : Input}
    {op : LockOp Mutex} (h : SenderMove cfg d pc inp d' pc' op) :
    d'.proc = d.proc ∨ d'.proc = .aborted .badPointer := by
  cases h with
  | fault hbad => exact .inr rfl
  | _ => exact .inl rfl

/-! ## `finiReq` -/

namespace Client

/-- A switch of the phase: everything measured so far is dropped. -/
theorem _startRoi_some {c c' : Client} {ns : UInt64} (h : c._startRoi ns = some c') :
    c.status = .WARMUP ∧ c' =
      { c with
        status := .ROI
        qpsCounter := 0
        requestDate := []
        queueTimes := []
        svcTimes := []
        sjrnTimes := []
        nicSjrnTimes := []
        gen_requests := 0
        timely_gen_requests := 0
        sent_requests := 0
        gen_req_ns := 0
        total_sleep_ns := 0
        roi_start_ns := ns } := by
  unfold _startRoi at h
  split at h
  · next hs => exact ⟨hs, (Option.some.inj h).symm⟩
  · cases h

/-- `++numReqsCompleted`. -/
def countOne (c : Client) : Client := { c with numReqsCompleted := c.numReqsCompleted + 1 }

/-- The ways `finiReq` ends after it found its request: it switches the phase, just counts,
or dumps. The flag says that `exit_group` follows. -/
inductive FiniEnd (cfg : Config) (laterNs : UInt64) (c : Client) : Client → Bool → Prop
  | roi {c' : Client} (hw : c.numReqsCompleted + 1 = cfg.warmupreqs ∨ cfg.warmupreqs = 0)
      (hs : c.countOne._startRoi laterNs = some c') : FiniEnd cfg laterNs c c' false
  | count (hw : ¬ (c.numReqsCompleted + 1 = cfg.warmupreqs ∨ cfg.warmupreqs = 0))
      (hb : ¬ cfg.budget ≤ c.numReqsCompleted + 1) : FiniEnd cfg laterNs c c.countOne false
  | dump (hw : ¬ (c.numReqsCompleted + 1 = cfg.warmupreqs ∨ cfg.warmupreqs = 0))
      (hb : cfg.budget ≤ c.numReqsCompleted + 1) :
      FiniEnd cfg laterNs c (c.countOne.dumpStats cfg laterNs) true

/-- The ways `finiCount` ends. -/
theorem finiCount_cases (cfg : Config) (laterNs : UInt64) (c : Client) :
    (∃ c' , FiniEnd cfg laterNs c c' false ∧ c.finiCount cfg laterNs = .returns c') ∨
    (∃ c' , FiniEnd cfg laterNs c c' true ∧ c.finiCount cfg laterNs = .exits c') ∨
    ((c.numReqsCompleted + 1 = cfg.warmupreqs ∨ cfg.warmupreqs = 0) ∧ c.status ≠ .WARMUP ∧
      c.finiCount cfg laterNs = .fault .startRoi) := by
  unfold finiCount
  by_cases hw : c.numReqsCompleted + 1 = cfg.warmupreqs ∨ cfg.warmupreqs = 0
  · cases hs : c.countOne._startRoi laterNs with
    | none =>
        refine .inr (.inr ⟨hw, ?_, ?_⟩)
        · intro hst
          simp [_startRoi, countOne, hst] at hs
        · simp only [if_pos hw]
          simp only [countOne] at hs
          rw [hs]
    | some c' =>
        refine .inl ⟨c', .roi hw hs, ?_⟩
        simp only [if_pos hw]
        simp only [countOne] at hs
        rw [hs]
  · by_cases hb : cfg.budget ≤ c.numReqsCompleted + 1
    · exact .inr (.inl ⟨_, .dump hw hb, by simp only [if_neg hw, ge_iff_le, if_pos hb]; rfl⟩)
    · exact .inl ⟨_, .count hw hb, by simp only [if_neg hw, ge_iff_le, if_neg hb]; rfl⟩

/-- The request a response belongs to, and that it was generated in the past. -/
structure Matches (c : Client) (resp : Response) (curNs : UInt64) (p : Nat) (req : Request) :
    Prop where
  entry : c.inFlightReqs resp.id = some p
  live : c.heap p = some req
  past : req.genNs < curNs

/-- **`finiReq`**: it finds the request, and either ends in one of its ways or one of its
assertions fails. -/
theorem finiReq_cases (cfg : Config) (curNs laterNs : UInt64) (resp : Response) (c : Client) :
    (∃ p req, c.Matches resp curNs p req ∧
      ((∃ c', FiniEnd cfg laterNs (c.finiRecord p req resp curNs) c' false ∧
          c.finiReq cfg curNs laterNs resp = .returns c') ∨
       (∃ c', FiniEnd cfg laterNs (c.finiRecord p req resp curNs) c' true ∧
          c.finiReq cfg curNs laterNs resp = .exits c') ∨
       ((c.numReqsCompleted + 1 = cfg.warmupreqs ∨ cfg.warmupreqs = 0) ∧ c.status ≠ .WARMUP ∧
          c.finiReq cfg curNs laterNs resp = .fault .startRoi))) ∨
    (c.inFlightReqs resp.id = none ∧ c.finiReq cfg curNs laterNs resp = .fault .lookup) ∨
    (∃ p, c.inFlightReqs resp.id = some p ∧ c.heap p = none ∧
      c.finiReq cfg curNs laterNs resp = .fault .badPointer) ∨
    (∃ p req, c.inFlightReqs resp.id = some p ∧ c.heap p = some req ∧ ¬ req.genNs < curNs ∧
      c.finiReq cfg curNs laterNs resp = .fault .genNs) := by
  unfold finiReq
  cases hp : c.inFlightReqs resp.id with
  | none => exact .inr (.inl ⟨rfl, rfl⟩)
  | some p =>
      cases hr : c.heap p with
      | none => exact .inr (.inr (.inl ⟨p, rfl, hr, by simp only [hr]⟩))
      | some req =>
          simp only [hr]
          by_cases hns : req.genNs < curNs
          · refine .inl ⟨p, req, ⟨hp, hr, hns⟩, ?_⟩
            simp only [gt_iff_lt, if_pos hns]
            have hcount : (c.finiRecord p req resp curNs).numReqsCompleted
                = c.numReqsCompleted := by
              simp only [finiRecord]; split <;> rfl
            have hstatus : (c.finiRecord p req resp curNs).status = c.status := by
              simp only [finiRecord]; split <;> rfl
            have hcases := finiCount_cases cfg laterNs (c.finiRecord p req resp curNs)
            rwa [hcount, hstatus] at hcases
          · exact .inr (.inr (.inr ⟨p, req, rfl, hr, hns, by simp only [gt_iff_lt, if_neg hns]⟩))

theorem finiReq_returns {cfg : Config} {curNs laterNs : UInt64} {resp : Response}
    {c c' : Client} (h : c.finiReq cfg curNs laterNs resp = .returns c') :
    ∃ p req, c.Matches resp curNs p req ∧
      FiniEnd cfg laterNs (c.finiRecord p req resp curNs) c' false := by
  obtain ⟨p, req, hm, ⟨x, he, hx⟩ | ⟨x, -, hx⟩ | ⟨-, -, hx⟩⟩ | ⟨-, hx⟩ | ⟨-, -, -, hx⟩ |
    ⟨-, -, -, -, -, hx⟩ := finiReq_cases cfg curNs laterNs resp c
  all_goals rw [h] at hx
  all_goals cases hx
  exact ⟨p, req, hm, he⟩

theorem finiReq_exits {cfg : Config} {curNs laterNs : UInt64} {resp : Response}
    {c c' : Client} (h : c.finiReq cfg curNs laterNs resp = .exits c') :
    ∃ p req, c.Matches resp curNs p req ∧
      FiniEnd cfg laterNs (c.finiRecord p req resp curNs) c' true := by
  obtain ⟨p, req, hm, ⟨x, -, hx⟩ | ⟨x, he, hx⟩ | ⟨-, -, hx⟩⟩ | ⟨-, hx⟩ | ⟨-, -, -, hx⟩ |
    ⟨-, -, -, -, -, hx⟩ := finiReq_cases cfg curNs laterNs resp c
  all_goals rw [h] at hx
  all_goals cases hx
  exact ⟨p, req, hm, he⟩

/-- What `finiCount` leaves alone. -/
structure SameObjects (c c' : Client) : Prop where
  heap : c'.heap = c.heap
  allocated : c'.allocated = c.allocated
  startedReqs : c'.startedReqs = c.startedReqs
  inFlightReqs : c'.inFlightReqs = c.inFlightReqs
  dist : c'.dist = c.dist
  numReqsSent : c'.numReqsSent = c.numReqsSent
  completed : c'.completed = c.completed

theorem FiniEnd.same {cfg : Config} {laterNs : UInt64} {c c' : Client} {ex : Bool}
    (h : FiniEnd cfg laterNs c c' ex) : SameObjects c c' := by
  cases h with
  | roi hw hs =>
      obtain ⟨-, rfl⟩ := _startRoi_some hs
      exact ⟨rfl, rfl, rfl, rfl, rfl, rfl, rfl⟩
  | count hw hb => exact ⟨rfl, rfl, rfl, rfl, rfl, rfl, rfl⟩
  | dump hw hb => exact ⟨rfl, rfl, rfl, rfl, rfl, rfl, rfl⟩

theorem FiniEnd.status {cfg : Config} {laterNs : UInt64} {c c' : Client} {ex : Bool}
    (h : FiniEnd cfg laterNs c c' ex) :
    c'.status = c.status ∨ (c.status = .WARMUP ∧ c'.status = .ROI) := by
  cases h with
  | roi hw hs =>
      obtain ⟨hst, rfl⟩ := _startRoi_some hs
      exact .inr ⟨hst, rfl⟩
  | count hw hb => exact .inl rfl
  | dump hw hb => exact .inl rfl

section finiRecord

variable (p : Nat) (req : Request) (resp : Response) (curNs : UInt64) (c : Client)

@[simp] theorem finiRecord_status : (c.finiRecord p req resp curNs).status = c.status := by
  simp only [finiRecord]; split <;> rfl

@[simp] theorem finiRecord_numReqsCompleted :
    (c.finiRecord p req resp curNs).numReqsCompleted = c.numReqsCompleted := by
  simp only [finiRecord]; split <;> rfl

@[simp] theorem finiRecord_numReqsSent :
    (c.finiRecord p req resp curNs).numReqsSent = c.numReqsSent := by
  simp only [finiRecord]; split <;> rfl

@[simp] theorem finiRecord_allocated :
    (c.finiRecord p req resp curNs).allocated = c.allocated := by
  simp only [finiRecord]; split <;> rfl

@[simp] theorem finiRecord_startedReqs :
    (c.finiRecord p req resp curNs).startedReqs = c.startedReqs := by
  simp only [finiRecord]; split <;> rfl

@[simp] theorem finiRecord_dist : (c.finiRecord p req resp curNs).dist = c.dist := by
  simp only [finiRecord]; split <;> rfl

@[simp] theorem finiRecord_dumps : (c.finiRecord p req resp curNs).dumps = c.dumps := by
  simp only [finiRecord]; split <;> rfl

@[simp] theorem finiRecord_heap :
    (c.finiRecord p req resp curNs).heap = Function.update c.heap p none := rfl

@[simp] theorem finiRecord_inFlightReqs :
    (c.finiRecord p req resp curNs).inFlightReqs
      = Function.update c.inFlightReqs resp.id none := rfl

@[simp] theorem finiRecord_completed :
    (c.finiRecord p req resp curNs).completed
      = c.completed ++ [⟨req, resp, curNs, c.status, sample req resp curNs⟩] := rfl

end finiRecord

end Client

/-! ## Receivers -/

/-- What a receiver holds. A receiver that left its loop after a failed `recv` still holds
`recvLock`. -/
def ReceiverPc.holds : ReceiverPc → Mutex → Prop
  | .recvLocked, m | .header _ _, m | .payload _ _ _, m | .received _ _, m | .unlockRecv _, m
  | .recvFailed, m => m = .recvLock
  | .fini _, m => m = .lock
  | _, _ => False

/-- A receiver is inside one of the two `recvfull`s. -/
def ReceiverPc.inRecvfull : ReceiverPc → Prop
  | .header _ _ | .payload _ _ _ => True
  | _ => False

/-- The header a receiver inside `recvfull` has after the bytes `bs`. -/
def ReceiverPc.headAfter : ReceiverPc → Bytes → Bytes
  | .header _ got, bs => got ++ bs
  | .payload _ head _, _ => head
  | _, _ => []

/-- The steps of a receiver. -/
inductive ReceiverMove (cfg : Config) (d : NetData) :
    ReceiverPc → Input → NetData → ReceiverPc → LockOp Mutex → Prop
  | lock : ReceiverMove cfg d .top .tau d .recvLocked (.acquire .recvLock)
  | begin (s1 : UInt64) : ReceiverMove cfg d .recvLocked (.clock s1) d (.header s1 []) .keep
  | header {s1 : UInt64} {got : Bytes} (bs : Bytes)
      (hl : got.length + bs.length < responseHeaderLen) :
      ReceiverMove cfg d (.header s1 got) (.got bs) { d with rx := d.rx + bs.length }
        (.header s1 (got ++ bs)) .keep
  | headerData {s1 : UInt64} {got : Bytes} (bs : Bytes)
      (hl : got.length + bs.length = responseHeaderLen)
      (ht : (Response.ofHeader (got ++ bs)).type = ResponseType.RESPONSE.code)
      (hn : (cInt (Response.ofHeader (got ++ bs)).len.toNat).toNat ≠ 0) :
      ReceiverMove cfg d (.header s1 got) (.got bs) { d with rx := d.rx + bs.length }
        (.payload s1 (got ++ bs) []) .keep
  | headerEmpty {s1 : UInt64} {got : Bytes} (bs : Bytes)
      (hl : got.length + bs.length = responseHeaderLen)
      (ht : (Response.ofHeader (got ++ bs)).type = ResponseType.RESPONSE.code)
      (hn : (Response.ofHeader (got ++ bs)).len = 0) :
      ReceiverMove cfg d (.header s1 got) (.got bs)
        { d with rx := d.rx + bs.length, framesRead := d.framesRead + 1 }
        (.received s1 { Response.ofHeader (got ++ bs) with data := [] }) .keep
  | headerOther {s1 : UInt64} {got : Bytes} (bs : Bytes)
      (hl : got.length + bs.length = responseHeaderLen)
      (ht : (Response.ofHeader (got ++ bs)).type ≠ ResponseType.RESPONSE.code) :
      ReceiverMove cfg d (.header s1 got) (.got bs)
        { d with rx := d.rx + bs.length, framesRead := d.framesRead + 1 }
        (.received s1 (Response.ofHeader (got ++ bs))) .keep
  | payload {s1 : UInt64} {head got : Bytes} (bs : Bytes)
      (hl : got.length + bs.length < (cInt (Response.ofHeader head).len.toNat).toNat) :
      ReceiverMove cfg d (.payload s1 head got) (.got bs) { d with rx := d.rx + bs.length }
        (.payload s1 head (got ++ bs)) .keep
  | payloadDone {s1 : UInt64} {head got : Bytes} (bs : Bytes)
      (hl : got.length + bs.length = (cInt (Response.ofHeader head).len.toNat).toNat)
      (hn : UInt64.ofNat (got.length + bs.length) = (Response.ofHeader head).len) :
      ReceiverMove cfg d (.payload s1 head got) (.got bs)
        { d with rx := d.rx + bs.length, framesRead := d.framesRead + 1 }
        (.received s1 { Response.ofHeader head with data := got ++ bs }) .keep
  | ends {pc : ReceiverPc} {inp : Input} (hpc : pc.inRecvfull)
      (hinp : inp = .eof ∨ inp = .recvError) : ReceiverMove cfg d pc inp d .recvFailed .keep
  | tooLong {pc : ReceiverPc} (bs : Bytes) (hpc : pc.inRecvfull)
      (hhead : ∀ s1 got, pc = .header s1 got → got.length + bs.length = responseHeaderLen ∧
        (Response.ofHeader (got ++ bs)).type = ResponseType.RESPONSE.code)
      (hbig : 2 ^ 31 ≤ (Response.ofHeader (pc.headAfter bs)).len.toNat) :
      ReceiverMove cfg d pc (.got bs) { d with rx := d.rx + bs.length } .recvFailed .keep
  | stamp {s1 : UInt64} {resp : Response} (ns : UInt64) :
      ReceiverMove cfg d (.received s1 resp) (.clock ns) d
        (.unlockRecv { resp with recvNs := ns - s1 }) .keep
  | unlock {resp : Response} :
      ReceiverMove cfg d (.unlockRecv resp) .tau d (.dispatch resp) (.release .recvLock)
  | response {resp : Response} (ht : resp.type = ResponseType.RESPONSE.code) :
      ReceiverMove cfg d (.dispatch resp) .tau d (.lockFini resp) .keep
  | unknown {resp : Response} (ht : resp.type ≠ ResponseType.RESPONSE.code) :
      ReceiverMove cfg d (.dispatch resp) .tau d .unknownType .keep
  | lockFini {resp : Response} :
      ReceiverMove cfg d (.lockFini resp) .tau d (.fini resp) (.acquire .lock)
  | fault {resp : Response} {f : ClientFault} (curNs laterNs : UInt64)
      (hf : d.obj.finiReq cfg curNs laterNs resp = .fault f) :
      ReceiverMove cfg d (.fini resp) (.fini curNs laterNs) { d with proc := .aborted f }
        (.fini resp) .keep
  | returns {resp : Response} {c : Client} {p : Nat} {req : Request} (curNs laterNs : UInt64)
      (hm : d.obj.Matches resp curNs p req)
      (he : Client.FiniEnd cfg laterNs (d.obj.finiRecord p req resp curNs) c false) :
      ReceiverMove cfg d (.fini resp) (.fini curNs laterNs) (d.setObj c) .top (.release .lock)
  | exits {resp : Response} {c : Client} {p : Nat} {req : Request} (curNs laterNs : UInt64)
      (hm : d.obj.Matches resp curNs p req)
      (he : Client.FiniEnd cfg laterNs (d.obj.finiRecord p req resp curNs) c true) :
      ReceiverMove cfg d (.fini resp) (.fini curNs laterNs) (d.setObj c) .exiting
        (.release .lock)
  | exitGroup : ReceiverMove cfg d .exiting .tau { d with proc := .exited } .exiting .keep

/-- The two ways `recvDone` ends. -/
theorem recvDone_cases (d : NetData) (s1 : UInt64) (head got : Bytes) :
    (UInt64.ofNat got.length = (Response.ofHeader head).len ∧
      recvDone d s1 head got = ({ d with framesRead := d.framesRead + 1 },
        .received s1 { Response.ofHeader head with data := got }, .keep)) ∨
    (UInt64.ofNat got.length ≠ (Response.ofHeader head).len ∧
      recvDone d s1 head got = (d, .recvFailed, .keep)) := by
  unfold recvDone
  by_cases hn : UInt64.ofNat got.length = (Response.ofHeader head).len
  · exact .inl ⟨hn, by simp [hn]⟩
  · exact .inr ⟨hn, by simp [hn]⟩

/-- A transfer of as many bytes as the `int` says has the length of the header, unless the
length does not fit an `int`. -/
theorem le_of_ofNat_ne_len {n : Nat} {len : UInt64} (hl : n = (cInt len.toNat).toNat)
    (hne : UInt64.ofNat n ≠ len) : 2 ^ 31 ≤ len.toNat := by
  by_contra hlt
  rw [cInt_of_lt (by omega), Int.toNat_natCast] at hl
  exact hne (by rw [hl, UInt64.ofNat_toNat])

/-- The last bytes of the header. -/
theorem recvHeadDone_move {cfg : Config} {d d' : NetData} {pc' : ReceiverPc} {op : LockOp Mutex}
    {s1 : UInt64} {got bs : Bytes} (hl : got.length + bs.length = responseHeaderLen)
    (h : recvHeadDone { d with rx := d.rx + bs.length } s1 (got ++ bs) = (d', pc', op)) :
    ReceiverMove cfg d (.header s1 got) (.got bs) d' pc' op := by
  simp only [recvHeadDone] at h
  split at h
  · next ht =>
      split at h
      · next hn =>
          obtain ⟨hlen, hdone⟩ | ⟨hlen, hdone⟩ :=
            recvDone_cases { d with rx := d.rx + bs.length } s1 (got ++ bs) []
          · rw [hdone] at h
            cases h
            exact .headerEmpty bs hl ht hlen.symm
          · rw [hdone] at h
            cases h
            -- `int` has cut the length down to zero
            refine .tooLong bs trivial ?_ (le_of_ofNat_ne_len hn.symm hlen)
            rintro s1' got' ⟨⟩
            exact ⟨hl, ht⟩
      · next hn =>
          cases h
          exact .headerData bs hl ht hn
  · next ht =>
      cases h
      exact .headerOther bs hl ht

/-- The last bytes of the data. -/
theorem recvDone_move {cfg : Config} {d d' : NetData} {pc' : ReceiverPc} {op : LockOp Mutex}
    {s1 : UInt64} {head got bs : Bytes}
    (hl : got.length + bs.length = (cInt (Response.ofHeader head).len.toNat).toNat)
    (h : recvDone { d with rx := d.rx + bs.length } s1 head (got ++ bs) = (d', pc', op)) :
    ReceiverMove cfg d (.payload s1 head got) (.got bs) d' pc' op := by
  obtain ⟨hlen, hdone⟩ | ⟨hlen, hdone⟩ :=
    recvDone_cases { d with rx := d.rx + bs.length } s1 head (got ++ bs)
  · rw [hdone] at h
    cases h
    exact .payloadDone bs hl (by simpa using hlen)
  · rw [hdone] at h
    cases h
    exact .tooLong bs trivial (fun _ _ he => nomatch he)
      (le_of_ofNat_ne_len (by rw [List.length_append]; exact hl) hlen)

theorem recvStep_move {cfg : Config} {d d' : NetData} {pc pc' : ReceiverPc}
    {inp : Input} {op : LockOp Mutex} (h : recvStep d pc inp = some (d', pc', op)) :
    ReceiverMove cfg d pc inp d' pc' op := by
  cases pc with
  | top =>
      cases inp with
      | tau =>
          cases h
          exact .lock
      | _ => cases h
  | recvLocked =>
      cases inp with
      | clock ns =>
          cases h
          exact .begin ns
      | _ => cases h
  | header s1 got =>
      cases inp with
      | got bs =>
          simp only [recvStep] at h
          split at h
          · next hb =>
              split at h
              · next hl => exact recvHeadDone_move hl (Option.some.inj h)
              · next hl =>
                  cases h
                  exact .header bs (lt_of_le_of_ne hb.2 hl)
          · cases h
      | eof =>
          cases h
          exact .ends trivial (.inl rfl)
      | recvError =>
          cases h
          exact .ends trivial (.inr rfl)
      | _ => cases h
  | payload s1 head got =>
      cases inp with
      | got bs =>
          simp only [recvStep] at h
          split at h
          · next hb =>
              split at h
              · next hl => exact recvDone_move hl (Option.some.inj h)
              · next hl =>
                  cases h
                  exact .payload bs (lt_of_le_of_ne hb.2 hl)
          · cases h
      | eof =>
          cases h
          exact .ends trivial (.inl rfl)
      | recvError =>
          cases h
          exact .ends trivial (.inr rfl)
      | _ => cases h
  | received s1 resp =>
      cases inp with
      | clock ns =>
          cases h
          exact .stamp ns
      | _ => cases h
  | unlockRecv resp =>
      cases inp with
      | tau =>
          cases h
          exact .unlock
      | _ => cases h
  | _ => cases h

/-- **The steps of a receiver.** -/
theorem receiverStep_move {cfg : Config} {d d' : NetData} {pc pc' : ReceiverPc}
    {inp : Input} {op : LockOp Mutex}
    (h : receiverStep cfg d pc inp = some (d', pc', op)) :
    ReceiverMove cfg d pc inp d' pc' op := by
  cases pc with
  | dispatch resp =>
      cases inp with
      | tau =>
          cases h
          split
          · next ht => exact .response ht
          · next ht => exact .unknown ht
      | _ => cases h
  | lockFini resp =>
      cases inp with
      | tau =>
          cases h
          exact .lockFini
      | _ => cases h
  | fini resp =>
      cases inp with
      | fini curNs laterNs =>
          simp only [receiverStep] at h
          split at h
          · next hf =>
              cases h
              exact .fault curNs laterNs hf
          · next hf =>
              cases h
              obtain ⟨p, req, hm, he⟩ := Client.finiReq_returns hf
              exact .returns curNs laterNs hm he
          · next hf =>
              cases h
              obtain ⟨p, req, hm, he⟩ := Client.finiReq_exits hf
              exact .exits curNs laterNs hm he
      | _ => cases h
  | exiting =>
      cases inp with
      | tau =>
          cases h
          exact .exitGroup
      | _ => cases h
  -- everything else is inside `NetworkedClient::recv`
  | _ => exact recvStep_move h

/-- A step of a receiver changes what it holds by its lock operation. -/
theorem ReceiverMove.holds {cfg : Config} {d d' : NetData} {pc pc' : ReceiverPc}
    {inp : Input} {op : LockOp Mutex} (h : ReceiverMove cfg d pc inp d' pc' op) :
    op.Fits pc.holds ∧ ∀ k, pc'.holds k ↔ op.after pc.holds k := by
  cases h with
  | ends hpc hinp =>
      cases pc <;> simp_all [LockOp.Fits, LockOp.after, ReceiverPc.holds, ReceiverPc.inRecvfull]
  | tooLong bs hpc hhead hbig =>
      cases pc <;> simp_all [LockOp.Fits, LockOp.after, ReceiverPc.holds, ReceiverPc.inRecvfull]
  | _ => simp [LockOp.Fits, LockOp.after, ReceiverPc.holds]

/-- A receiver changes the object only where it processes a response. -/
theorem ReceiverMove.obj {cfg : Config} {d d' : NetData} {pc pc' : ReceiverPc}
    {inp : Input} {op : LockOp Mutex} (h : ReceiverMove cfg d pc inp d' pc' op) :
    d'.obj = d.obj ∨ ∃ resp p req curNs laterNs ex, pc = .fini resp ∧
      inp = .fini curNs laterNs ∧ d.obj.Matches resp curNs p req ∧
      Client.FiniEnd cfg laterNs (d.obj.finiRecord p req resp curNs) d'.obj ex := by
  cases h with
  | @returns resp c p req curNs laterNs hm he =>
      exact .inr ⟨resp, p, req, curNs, laterNs, false, rfl, rfl, hm, he⟩
  | @exits resp c p req curNs laterNs hm he =>
      exact .inr ⟨resp, p, req, curNs, laterNs, true, rfl, rfl, hm, he⟩
  | _ => exact .inl rfl

/-- What a receiver leaves alone. -/
structure ReceiverFrame (d d' : NetData) : Prop where
  wire : d'.wire = d.wire
  sent : d'.sent = d.sent
  failed : d'.failed = d.failed
  skipped : d'.skipped = d.skipped

/-- **A receiver does not touch what the senders do.** -/
theorem ReceiverMove.frame {cfg : Config} {d d' : NetData} {pc pc' : ReceiverPc}
    {inp : Input} {op : LockOp Mutex} (h : ReceiverMove cfg d pc inp d' pc' op) :
    ReceiverFrame d d' := by
  cases h <;> exact ⟨rfl, rfl, rfl, rfl⟩

/-! ## The process -/

/-- **A step of the process**: one thread moves, its place and the mutexes change with it. -/
theorem NetClient.next_cases {cfg : Config} {nS nR : Nat} {a : ClientAction nS nR}
    {s s' : NetClient nS nR} (h : NetClient.next cfg a s = some s') :
    s.data.proc = .running ∧
    ((∃ i d pc op locks, a.tid = .sender i ∧
        senderStep cfg nS s.data (s.senders i) a.inp = some (d, pc, op) ∧
        op.apply (.sender i) s.locks = some locks ∧
        s' = { s with data := d, locks := locks, senders := Function.update s.senders i pc }) ∨
     (∃ j d pc op locks, a.tid = .receiver j ∧
        receiverStep cfg s.data (s.receivers j) a.inp = some (d, pc, op) ∧
        op.apply (.receiver j) s.locks = some locks ∧
        s' = { s with data := d, locks := locks,
                      receivers := Function.update s.receivers j pc })) := by
  unfold NetClient.next at h
  split at h
  · simp at h
  · next hrun =>
      refine ⟨not_not.mp hrun, ?_⟩
      split at h
      · next i htid =>
          split at h
          · simp at h
          · next d pc op hstep =>
              obtain ⟨locks, hlocks, rfl⟩ := Option.map_eq_some_iff.mp h
              exact .inl ⟨i, d, pc, op, locks, htid, hstep, hlocks, rfl⟩
      · next j htid =>
          split at h
          · simp at h
          · next d pc op hstep =>
              obtain ⟨locks, hlocks, rfl⟩ := Option.map_eq_some_iff.mp h
              exact .inr ⟨j, d, pc, op, locks, htid, hstep, hlocks, rfl⟩

/-- What the threads of the process hold. -/
def NetClient.held {nS nR : Nat} (s : NetClient nS nR) : Tid nS nR → Mutex → Prop
  | .sender i => (s.senders i).holds
  | .receiver j => (s.receivers j).holds

/-- A sender moves: the recorded holders of the mutexes stay right. -/
theorem NetClient.owned_afterSender {nS nR : Nat} {s : NetClient nS nR} {i : Fin nS}
    {d : NetData} {pc : SenderPc} {op : LockOp Mutex} {locks : Mutex → Option (Tid nS nR)}
    (hm : op.Fits (s.senders i).holds ∧ ∀ k, pc.holds k ↔ op.after (s.senders i).holds k)
    (hop : op.apply (.sender i) s.locks = some locks) (ho : Owned s.locks s.held) :
    Owned locks (NetClient.held
      { s with data := d, locks := locks, senders := Function.update s.senders i pc }) := by
  refine ho.apply hop hm.1 (fun k => ?_) (fun u hu k => ?_)
  · simpa [NetClient.held] using hm.2 k
  · cases u with
    | sender i' =>
        have hne : i' ≠ i := fun e => hu (by rw [e])
        simp [NetClient.held, hne]
    | receiver j' => rfl

/-- A receiver moves. -/
theorem NetClient.owned_afterReceiver {nS nR : Nat} {s : NetClient nS nR} {j : Fin nR}
    {d : NetData} {pc : ReceiverPc} {op : LockOp Mutex} {locks : Mutex → Option (Tid nS nR)}
    (hm : op.Fits (s.receivers j).holds ∧ ∀ k, pc.holds k ↔ op.after (s.receivers j).holds k)
    (hop : op.apply (.receiver j) s.locks = some locks) (ho : Owned s.locks s.held) :
    Owned locks (NetClient.held
      { s with data := d, locks := locks, receivers := Function.update s.receivers j pc }) := by
  refine ho.apply hop hm.1 (fun k => ?_) (fun u hu k => ?_)
  · simpa [NetClient.held] using hm.2 k
  · cases u with
    | sender i' => rfl
    | receiver j' =>
        have hne : j' ≠ j := fun e => hu (by rw [e])
        simp [NetClient.held, hne]

/-- The process after a sender has moved. -/
def NetClient.afterSender {nS nR : Nat} (s : NetClient nS nR) (i : Fin nS) (d : NetData)
    (locks : Mutex → Option (Tid nS nR)) (pc : SenderPc) : NetClient nS nR :=
  { s with data := d, locks := locks, senders := Function.update s.senders i pc }

/-- The process after a receiver has moved. -/
def NetClient.afterReceiver {nS nR : Nat} (s : NetClient nS nR) (j : Fin nR) (d : NetData)
    (locks : Mutex → Option (Tid nS nR)) (pc : ReceiverPc) : NetClient nS nR :=
  { s with data := d, locks := locks, receivers := Function.update s.receivers j pc }

/-- The steps of the process, with what they take from outside. -/
inductive NetClient.Move {nS nR : Nat} (cfg : Config) (s : NetClient nS nR) :
    Input → NetClient nS nR → Prop
  | sender (i : Fin nS) {inp : Input} {d : NetData} {pc : SenderPc} {op : LockOp Mutex}
      {locks : Mutex → Option (Tid nS nR)} (hrun : s.data.proc = .running)
      (hm : SenderMove cfg s.data (s.senders i) inp d pc op)
      (hop : op.apply (.sender i) s.locks = some locks) :
      Move cfg s inp (s.afterSender i d locks pc)
  | receiver (j : Fin nR) {inp : Input} {d : NetData} {pc : ReceiverPc} {op : LockOp Mutex}
      {locks : Mutex → Option (Tid nS nR)} (hrun : s.data.proc = .running)
      (hm : ReceiverMove cfg s.data (s.receivers j) inp d pc op)
      (hop : op.apply (.receiver j) s.locks = some locks) :
      Move cfg s inp (s.afterReceiver j d locks pc)

theorem NetClient.next_move {cfg : Config} {nS nR : Nat} {a : ClientAction nS nR}
    {s s' : NetClient nS nR} (h : NetClient.next cfg a s = some s') : Move cfg s a.inp s' := by
  obtain ⟨hrun, ⟨i, d, pc, op, locks, -, hstep, hop, rfl⟩ |
    ⟨j, d, pc, op, locks, -, hstep, hop, rfl⟩⟩ := NetClient.next_cases h
  · exact .sender i hrun (senderStep_move hstep) hop
  · exact .receiver j hrun (receiverStep_move hstep) hop

/-- Every step keeps the recorded holders of the mutexes right. -/
theorem NetClient.Move.owned {cfg : Config} {nS nR : Nat} {inp : Input}
    {s s' : NetClient nS nR} (h : Move cfg s inp s') (ho : Owned s.locks s.held) :
    Owned s'.locks s'.held := by
  cases h with
  | sender i hrun hm hop => exact NetClient.owned_afterSender hm.holds hop ho
  | receiver j hrun hm hop => exact NetClient.owned_afterReceiver hm.holds hop ho

theorem NetClient.start_owned {cfg : Config} {nS nR : Nat} :
    Owned (NetClient.start cfg : NetClient nS nR).locks (NetClient.start cfg).held := by
  intro m t
  cases t <;> simp [NetClient.start, NetClient.held, SenderPc.holds, ReceiverPc.holds]

end TailBench
