import TailBench.Harness.ClientSteps
import TailBench.Lib.Machine

set_option autoImplicit false

/-! # The integrated server

`harness/tbench_server_integrated.cpp`: client and server in one process, without a
connection. Each of `n` threads alternates `recvReq`, which starts a request with
`Client::startReq`, and `sendResp`, which ends it with `Client::finiReq` and then counts it
in `finishedReqs` under the same `lock`.

The constructor passes `warmupreqs = maxreqs = 0` to `Client` and leaves the two options
`TBENCH_WARMUPREQS` and `TBENCH_MAXREQS` to `Server`. Both counters switch the phase: with
`warmupreqs = 0` every `finiReq` calls `_startRoi`, whose assertion fails the second time.
-/

namespace TailBench

open Lib

/-- The configuration of the `Client` part; `warmupreqs` and `maxreqs` of `cfg` are the
options that the `Server` part reads. -/
def Config.integrated (cfg : Config) : Config :=
  { cfg with client_id := 0, warmupreqs := 0, maxreqs := 0 }

/-- The data of the process. -/
structure IntegratedData (n : Nat) where
  core : ClientCore
  finishedReqs : UInt64
  reqInfo : Fin n → ReqInfo
  proc : Proc

/-- The place of a thread. -/
inductive IntegratedPc where
  /-- In `recvReq`, inside `startReq`. -/
  | start (pc : StartPc)
  /-- In `recvReq`, after `startReq`. -/
  | received (p : Nat)
  /-- The application works on the request. -/
  | serving
  | lockFini (resp : Response)
  | fini (resp : Response)
  | lockCount
  | count
  /-- After `dumpStats` or a failed assertion. -/
  | exiting
  deriving DecidableEq, Repr

/-- What a step takes from outside. -/
inductive IntegratedInput where
  | client (inp : Input)
  /-- The application calls `sendResp`, which reads the clock. -/
  | respond (ns : UInt64) (data : Payload MAX_RESP_BYTES)
  deriving DecidableEq, Repr

/-- The last critical section of `sendResp`; `laterNs` is the clock reading of `_startRoi`
or `dumpStats`. -/
def IntegratedData.sendRespCount {n : Nat} (cfg : Config) (laterNs : UInt64)
    (d : IntegratedData n) : IntegratedData n × IntegratedPc × LockOp Mutex :=
  let d := { d with finishedReqs := d.finishedReqs + 1 }
  if d.finishedReqs = cfg.warmupreqs then
    match d.core.obj._startRoi laterNs with
    | none => ({ d with proc := .aborted .startRoi }, .exiting, .release .lock)
    | some c => ({ d with core := { d.core with obj := c } }, .start .enter, .release .lock)
  else if d.finishedReqs = cfg.warmupreqs + cfg.maxreqs then
    ({ d with core := { d.core with obj := d.core.obj.dumpStats cfg.integrated laterNs },
              proc := .exited }, .exiting, .release .lock)
  else (d, .start .enter, .release .lock)

/-- One step of thread `i`. -/
def integratedStep {n : Nat} (cfg : Config) (i : Fin n) (d : IntegratedData n) :
    IntegratedPc → IntegratedInput → Option (IntegratedData n × IntegratedPc × LockOp Mutex)
  | .start pc, .client inp =>
      match startReqStep cfg.integrated n d.core pc inp with
      | none => none
      | some (.goes core pc op) => some ({ d with core := core }, .start pc, op)
      | some (.returns core p) => some ({ d with core := core }, .received p, .keep)
      | some (.faults f) => some ({ d with proc := .aborted f }, .start pc, .keep)
  | .received p, .client (.clock ns) =>
      match d.core.obj.heap p with
      | none => some ({ d with proc := .aborted .badPointer }, .received p, .keep)
      | some req =>
          some ({ d with reqInfo := Function.update d.reqInfo i ⟨req.id, ns⟩ }, .serving, .keep)
  | .serving, .respond ns data =>
      if ns > (d.reqInfo i).startNs then
        some (d, .lockFini (mkResponse (d.reqInfo i).id (ns - (d.reqInfo i).startNs) data), .keep)
      else some ({ d with proc := .aborted .startNs }, .serving, .keep)
  | .lockFini resp, .client .tau => some (d, .fini resp, .acquire .lock)
  | .fini resp, .client (.fini curNs laterNs) =>
      match d.core.obj.finiReq cfg.integrated curNs laterNs resp with
      | .fault f => some ({ d with proc := .aborted f }, .fini resp, .keep)
      | .returns c => some ({ d with core := { d.core with obj := c } }, .lockCount, .release .lock)
      | .exits c =>
          some ({ d with core := { d.core with obj := c }, proc := .exited }, .exiting,
            .release .lock)
  | .lockCount, .client .tau => some (d, .count, .acquire .lock)
  | .count, .client (.clock ns) => some (d.sendRespCount cfg ns)
  | _, _ => none

/-! ## The process -/

structure IntegratedServer (n : Nat) where
  data : IntegratedData n
  locks : Mutex → Option (Fin n)
  threads : Fin n → IntegratedPc

/-- A thread takes a step. -/
structure IntegratedAction (n : Nat) where
  tid : Fin n
  inp : IntegratedInput
  deriving DecidableEq, Repr

namespace IntegratedServer

variable {n : Nat}

/-- The process after the constructor, with all threads before their first `recvReq`. -/
def start (cfg : Config) : IntegratedServer n where
  data :=
    { core := ⟨Client.new cfg.integrated, {}⟩
      finishedReqs := 0
      reqInfo := fun _ => {}
      proc := .running }
  locks := fun _ => none
  threads := fun _ => .start .enter

/-- One step of one thread, while the process runs. -/
def next (cfg : Config) (a : IntegratedAction n) (s : IntegratedServer n) :
    Option (IntegratedServer n) :=
  if s.data.proc ≠ .running then none
  else
    match integratedStep cfg a.tid s.data (s.threads a.tid) a.inp with
    | none => none
    | some (d, pc, op) =>
        (op.apply a.tid s.locks).map fun locks =>
          { data := d, locks := locks, threads := Function.update s.threads a.tid pc }

end IntegratedServer

/-- The integrated server with `n` threads. -/
def integratedServer (cfg : Config) (n : Nat) :
    Machine (IntegratedServer n) (IntegratedAction n) where
  init := fun s => s = IntegratedServer.start cfg
  next := IntegratedServer.next cfg

/-! ## What a step can do -/

/-- What a step inside `startReq` does to the phase: nothing, or it ends `INIT` together with
creating the distribution. -/
theorem StartEffect.phase {cfg : Config} {c c' : Client} {pc pc' : StartPc} {inp : Input}
    (h : StartEffect cfg c pc inp c' pc') :
    (c'.status = c.status ∧ (c'.dist = none → c.dist = none)) ∨
      (c.dist = none ∧ c'.status = .WARMUP ∧ c'.dist ≠ none) := by
  cases h with
  | same hp hs ht hr => exact .inl ⟨rfl, id⟩
  | init ns hd => exact .inr (by simp [Client.startReqInit, hd])
  | rate ns =>
      refine .inl ?_
      unfold Client.startReqRate
      split
      · split
        · simp
        · split <;> simp
      · exact ⟨rfl, id⟩
  | gen ns data hg =>
      unfold Client.startReqGen at hg
      split at hg
      · cases hg
      · obtain rfl := Option.some.inj hg
        exact .inl ⟨rfl, by simp⟩
  | genEnd ns hg =>
      obtain ⟨r, hr, rfl⟩ := Option.map_eq_some_iff.mp hg
      exact .inl ⟨rfl, id⟩
  | late ns target slept hh hr => exact .inl ⟨rfl, id⟩

theorem StartReturn.same {c c' : Client} {pc : StartPc} {inp : Input} {p : Nat}
    (h : StartReturn c pc inp c' p) :
    Client.SameWindow c c' ∧ c'.status = c.status ∧ c'.dist = c.dist := by
  cases h with
  | late ns hh hr => exact ⟨⟨rfl, rfl, rfl, rfl, rfl, rfl, rfl, rfl⟩, rfl, rfl⟩
  | slept ns target slept ht => exact ⟨⟨rfl, rfl, rfl, rfl, rfl, rfl, rfl, rfl⟩, rfl, rfl⟩

/-- The steps of a thread, up to what they do to the counters and to the phase. -/
inductive IntegratedMove {n : Nat} (cfg : Config) (d : IntegratedData n) :
    IntegratedPc → IntegratedData n → IntegratedPc → Prop
  /-- In `startReq`. -/
  | start {pc pc' : StartPc} {c : Client} {b : Barrier} {inp : Input}
      (he : StartEffect cfg.integrated d.core.obj pc inp c pc') :
      IntegratedMove cfg d (.start pc) { d with core := ⟨c, b⟩ } (.start pc')
  | startReturn {pc : StartPc} {c : Client} {b : Barrier} {p : Nat} {inp : Input}
      (hr : StartReturn d.core.obj pc inp c p) :
      IntegratedMove cfg d (.start pc) { d with core := ⟨c, b⟩ } (.received p)
  /-- An assertion or a bad pointer ends the process. -/
  | abort {pc : IntegratedPc} (f : ClientFault) (hf : f = .startRoi → ∃ resp, pc = .fini resp) :
      IntegratedMove cfg d pc { d with proc := .aborted f } pc
  | stamp {p : Nat} (i : Fin n) (r : ReqInfo) :
      IntegratedMove cfg d (.received p) { d with reqInfo := Function.update d.reqInfo i r }
        .serving
  | respond {resp : Response} : IntegratedMove cfg d .serving d (.lockFini resp)
  | lockFini {resp : Response} : IntegratedMove cfg d (.lockFini resp) d (.fini resp)
  | fini {resp : Response} {curNs laterNs : UInt64} {p : Nat} {req : Request} {c : Client}
      (hm : d.core.obj.Matches resp curNs p req)
      (hs : (d.core.obj.finiRecord p req resp curNs).countOne._startRoi laterNs = some c) :
      IntegratedMove cfg d (.fini resp) { d with core := { d.core with obj := c } } .lockCount
  | lockCount : IntegratedMove cfg d .lockCount d .count
  | count (ns : UInt64) :
      IntegratedMove cfg d .count (d.sendRespCount cfg ns).1 (d.sendRespCount cfg ns).2.1

theorem integratedStep_move {n : Nat} {cfg : Config} {i : Fin n} {d d' : IntegratedData n}
    {pc pc' : IntegratedPc} {inp : IntegratedInput} {op : LockOp Mutex}
    (h : integratedStep cfg i d pc inp = some (d', pc', op)) : IntegratedMove cfg d pc d' pc' := by
  cases inp with
  | respond ns data =>
      cases pc with
      | serving =>
          simp only [integratedStep] at h
          split at h
          · cases h
            exact .respond
          · cases h
            exact .abort .startNs (by simp)
      | _ => cases h
  | client inp =>
      cases pc with
      | start pc =>
          simp only [integratedStep] at h
          split at h
          · cases h
          · next hs =>
              cases h
              exact .start (startReqStep_goes hs).1
          · next hs =>
              cases h
              exact .startReturn (startReqStep_returns hs)
          · next f hs =>
              cases h
              obtain ⟨rfl, -⟩ := startReqStep_faults hs
              exact .abort .badPointer (by simp)
      | received p =>
          cases inp with
          | clock ns =>
              simp only [integratedStep] at h
              split at h
              · cases h
                exact .abort .badPointer (by simp)
              · cases h
                exact .stamp i _
          | _ => cases h
      | lockFini resp =>
          cases inp with
          | tau =>
              cases h
              exact .lockFini
          | _ => cases h
      | fini resp =>
          cases inp with
          | fini curNs laterNs =>
              simp only [integratedStep] at h
              split at h
              · cases h
                exact .abort _ fun _ => ⟨resp, rfl⟩
              · next hr =>
                  cases h
                  -- `warmupreqs = 0`: the call returns only through `_startRoi`
                  obtain ⟨p, req, hm, hend⟩ := Client.finiReq_returns hr
                  cases hend with
                  | roi hw hs => exact .fini hm hs
                  | count hw hb => exact absurd (.inr rfl) hw
              · next hr =>
                  cases h
                  obtain ⟨p, req, hm, hend⟩ := Client.finiReq_exits hr
                  cases hend with
                  | dump hw hb => exact absurd (.inr rfl) hw
          | _ => cases h
      | lockCount =>
          cases inp with
          | tau =>
              cases h
              exact .lockCount
          | _ => cases h
      | count =>
          cases inp with
          | clock ns =>
              have hcount : d.sendRespCount cfg ns = (d', pc', op) := Option.some.inj h
              have hmove : IntegratedMove cfg d .count (d.sendRespCount cfg ns).1
                  (d.sendRespCount cfg ns).2.1 := .count ns
              rwa [hcount] at hmove
          | _ => cases h
      | _ => cases h

/-- A step of the process is a move of one thread. -/
theorem IntegratedServer.next_move {n : Nat} {cfg : Config} {a : IntegratedAction n}
    {s s' : IntegratedServer n} (h : s.next cfg a = some s') :
    s.data.proc = .running ∧ ∃ pc', IntegratedMove cfg s.data (s.threads a.tid) s'.data pc' ∧
      s'.threads = Function.update s.threads a.tid pc' := by
  unfold IntegratedServer.next at h
  split at h
  · cases h
  · next hrun =>
      split at h
      · cases h
      · next d pc op hstep =>
          obtain ⟨locks, -, rfl⟩ := Option.map_eq_some_iff.mp h
          exact ⟨not_not.mp hrun, pc, integratedStep_move hstep, rfl⟩

/-! ## Every run -/

/-- A thread between `finiReq` and the end of `sendResp`. -/
def IntegratedPc.counting : IntegratedPc → Nat
  | .lockCount | .count => 1
  | _ => 0

@[simp] theorem IntegratedPc.counting_fini (resp : Response) :
    (IntegratedPc.fini resp).counting = 0 := rfl

@[simp] theorem IntegratedPc.counting_lockCount : IntegratedPc.lockCount.counting = 1 := rfl

@[simp] theorem IntegratedPc.counting_count : IntegratedPc.count.counting = 1 := rfl

/-- How far the process can get: one request, whose `finiReq` started the region of
interest. -/
structure IntegratedServer.Stuck {n : Nat} (cfg : Config) (s : IntegratedServer n) : Prop where
  dist : s.data.core.obj.dist = none → s.data.core.obj.status = .INIT
  once : s.data.core.obj.completed.length ≤ 1
  roi : s.data.core.obj.completed.length = 1 ↔ s.data.core.obj.status = .ROI
  samples : s.data.core.obj.sjrnTimes = []
  counted : s.data.finishedReqs.toNat + ∑ i, (s.threads i).counting
    = s.data.core.obj.completed.length
  dumps : ∀ d ∈ s.data.core.obj.dumps, d.records = []
  early : s.data.finishedReqs = cfg.warmupreqs → s.data.proc = .aborted .startRoi

namespace IntegratedServer

variable {n : Nat} {cfg : Config} {s s' : IntegratedServer n}

/-- Steps that touch neither `finishedReqs` nor what `finiReq` changes. -/
theorem Stuck.frame (h : s.Stuck cfg) (hrun : s.data.proc = .running)
    (hw : Client.SameWindow s.data.core.obj s'.data.core.obj)
    (hfin : s'.data.finishedReqs = s.data.finishedReqs)
    (hph : (s'.data.core.obj.status = s.data.core.obj.status ∧
        (s'.data.core.obj.dist = none → s.data.core.obj.dist = none)) ∨
      (s.data.core.obj.dist = none ∧ s'.data.core.obj.status = .WARMUP ∧
        s'.data.core.obj.dist ≠ none))
    (hsum : ∑ i, (s'.threads i).counting = ∑ i, (s.threads i).counting) : s'.Stuck cfg where
  dist := by
    obtain ⟨hst, hd⟩ | ⟨-, -, hd⟩ := hph
    · intro hn
      rw [hst]
      exact h.dist (hd hn)
    · exact fun hn => absurd hn hd
  once := by rw [hw.completed]; exact h.once
  roi := by
    rw [hw.completed]
    obtain ⟨hst, -⟩ | ⟨hd, hst, -⟩ := hph
    · rw [hst]; exact h.roi
    · rw [h.roi, h.dist hd, hst]; simp
  samples := by rw [hw.sjrnTimes]; exact h.samples
  counted := by rw [hfin, hsum, hw.completed]; exact h.counted
  dumps := by rw [hw.dumps]; exact h.dumps
  early := by
    rw [hfin]
    intro he
    have habort := h.early he
    rw [hrun] at habort
    cases habort

/-- The end of `sendResp`, by its three branches. -/
theorem sendRespCount_cases (cfg : Config) (ns : UInt64) (d : IntegratedData n)
    (hroi : d.core.obj.status = .ROI) :
    (d.sendRespCount cfg ns).2.1.counting = 0 ∧
    (d.sendRespCount cfg ns).1.finishedReqs = d.finishedReqs + 1 ∧
    (d.sendRespCount cfg ns).1.core.obj.status = .ROI ∧
    (d.sendRespCount cfg ns).1.core.obj.dist = d.core.obj.dist ∧
    (d.sendRespCount cfg ns).1.core.obj.completed = d.core.obj.completed ∧
    (d.sendRespCount cfg ns).1.core.obj.sjrnTimes = d.core.obj.sjrnTimes ∧
    (∀ x ∈ (d.sendRespCount cfg ns).1.core.obj.dumps,
      x ∈ d.core.obj.dumps ∨ x.records = d.core.obj.dumpRecords) ∧
    (d.finishedReqs + 1 = cfg.warmupreqs →
      (d.sendRespCount cfg ns).1.proc = .aborted .startRoi) := by
  by_cases hw : d.finishedReqs + 1 = cfg.warmupreqs
  · -- `_startRoi` a second time
    simp only [IntegratedData.sendRespCount, Client._startRoi, hw, if_true, hroi, reduceCtorEq,
      if_false]
    simp +contextual [IntegratedPc.counting]
  · by_cases hm : d.finishedReqs + 1 = cfg.warmupreqs + cfg.maxreqs
    · have heq : d.sendRespCount cfg ns =
          ({ d with finishedReqs := d.finishedReqs + 1,
                    core := { d.core with obj := d.core.obj.dumpStats cfg.integrated ns },
                    proc := .exited }, .exiting, .release .lock) := by
        unfold IntegratedData.sendRespCount
        rw [if_neg hw, if_pos hm]
      rw [heq]
      refine ⟨rfl, rfl, hroi, rfl, rfl, rfl, ?_, fun h => absurd h hw⟩
      intro x hx
      rcases List.mem_append.mp hx with hx | hx
      · exact .inl hx
      · exact .inr (by rw [List.mem_singleton.mp hx])
    · have heq : d.sendRespCount cfg ns =
          ({ d with finishedReqs := d.finishedReqs + 1 }, .start .enter, .release .lock) := by
        unfold IntegratedData.sendRespCount
        rw [if_neg hw, if_neg hm]
      rw [heq]
      exact ⟨rfl, rfl, hroi, rfl, rfl, rfl, fun x hx => .inl hx, fun h => absurd h hw⟩

theorem counting_le_sum (s : IntegratedServer n) (i : Fin n) :
    (s.threads i).counting ≤ ∑ j, (s.threads j).counting :=
  le_sum IntegratedPc.counting s.threads i

/-- The first response ends the warm-up, and with it the measurement: `finiReq` throws its
sample away. -/
theorem Stuck.fini (h : s.Stuck cfg) (hrun : s.data.proc = .running) {resp : Response}
    {curNs laterNs : UInt64} {p : Nat} {req : Request} {c : Client}
    (hs : (s.data.core.obj.finiRecord p req resp curNs).countOne._startRoi laterNs = some c)
    (hd : s'.data = { s.data with core := { s.data.core with obj := c } })
    (hsum : ∑ i, (s'.threads i).counting + 0 = ∑ i, (s.threads i).counting + 1) :
    s'.Stuck cfg := by
  obtain ⟨hwarm, rfl⟩ := Client._startRoi_some hs
  have hwarm' : s.data.core.obj.status = .WARMUP := by simpa [Client.countOne] using hwarm
  have hzero : s.data.core.obj.completed.length = 0 := by
    have h1 := h.once
    have h2 : s.data.core.obj.completed.length ≠ 1 := fun h1 => by
      rw [h.roi.mp h1] at hwarm'
      cases hwarm'
    omega
  have hcounted := h.counted
  constructor
  case dist =>
    rw [hd]
    intro hn
    have hinit := h.dist (by simpa [Client.countOne] using hn)
    rw [hwarm'] at hinit
    cases hinit
  case once => rw [hd]; simp [Client.countOne, hzero]
  case roi => rw [hd]; simp [Client.countOne, hzero]
  case samples => rw [hd]
  case counted =>
    rw [hd]
    simp only [Client.countOne, Client.finiRecord_completed, List.length_append,
      List.length_singleton]
    omega
  case dumps => rw [hd]; simpa [Client.countOne] using h.dumps
  case early =>
    rw [hd]
    intro he
    have habort := h.early he
    rw [hrun] at habort
    cases habort

/-- `sendResp` counts the response a second time. -/
theorem Stuck.count (h : s.Stuck cfg) {ns : UInt64} (hd : s'.data = (s.data.sendRespCount cfg ns).1)
    (hle : 1 ≤ ∑ i, (s.threads i).counting)
    (hsum : ∑ i, (s'.threads i).counting + 1 =
      ∑ i, (s.threads i).counting + (s.data.sendRespCount cfg ns).2.1.counting) :
    s'.Stuck cfg := by
  have hcounted := h.counted
  have honce := h.once
  have hone : s.data.core.obj.completed.length = 1 := by omega
  have hroi := h.roi.mp hone
  obtain ⟨hpc0, hfin, hst, hdist, hcomp, hsj, hdumps, hearly⟩ :=
    sendRespCount_cases cfg ns s.data hroi
  rw [hpc0] at hsum
  have hfin0 : s.data.finishedReqs.toNat = 0 := by omega
  rw [← hd] at hfin hst hdist hcomp hsj hdumps hearly
  constructor
  case dist =>
    rw [hdist, hst]
    intro hn
    have hinit := h.dist hn
    rw [hroi] at hinit
    cases hinit
  case once => rw [hcomp]; exact h.once
  case roi => rw [hcomp, hst]; simp [hone]
  case samples => rw [hsj]; exact h.samples
  case counted =>
    rw [hcomp, hfin, UInt64.toNat_add, hfin0, hone]
    simp only [UInt64.toNat_one]
    omega
  case dumps =>
    intro x hx
    rcases hdumps x hx with hx | hx
    · exact h.dumps x hx
    · rw [hx]; simp [Client.dumpRecords, h.samples, cInt]
  case early => rw [hfin]; exact hearly

/-- One step. -/
theorem Stuck.next (h : s.Stuck cfg) {a : IntegratedAction n} (hn : s.next cfg a = some s') :
    s'.Stuck cfg := by
  obtain ⟨hrun, pc', hmove, hthreads⟩ := next_move hn
  have hsum := sum_update IntegratedPc.counting s.threads a.tid pc'
  rw [← hthreads] at hsum
  have hle := s.counting_le_sum a.tid
  generalize hd : s'.data = d' at hmove
  generalize hpc : s.threads a.tid = pc at hmove hsum hle
  cases hmove with
  | start he =>
      refine h.frame hrun (hd ▸ he.window) (hd ▸ rfl) (hd ▸ he.phase) ?_
      simpa [IntegratedPc.counting] using hsum
  | startReturn hr =>
      obtain ⟨hw, hst, hdist⟩ := hr.same
      refine h.frame hrun (hd ▸ hw) (hd ▸ rfl) (.inl ?_) ?_
      · rw [hd]; exact ⟨hst, fun hn => hdist ▸ hn⟩
      · simpa [IntegratedPc.counting] using hsum
  | abort f hf =>
      refine h.frame hrun (hd ▸ .refl _) (hd ▸ rfl) (.inl (hd ▸ ⟨rfl, id⟩)) ?_
      omega
  | stamp i r =>
      refine h.frame hrun (hd ▸ .refl _) (hd ▸ rfl) (.inl (hd ▸ ⟨rfl, id⟩)) ?_
      simpa [IntegratedPc.counting] using hsum
  | respond | lockFini | lockCount =>
      refine h.frame hrun (hd ▸ .refl _) (hd ▸ rfl) (.inl (hd ▸ ⟨rfl, id⟩)) ?_
      simpa [IntegratedPc.counting] using hsum
  | fini hm hs =>
      rw [IntegratedPc.counting_fini, IntegratedPc.counting_lockCount] at hsum
      exact h.fini hrun hs hd hsum
  | count ns =>
      rw [IntegratedPc.counting_count] at hle hsum
      exact h.count hd hle hsum

end IntegratedServer

/-- Every run of the integrated server. -/
theorem integratedServer_stuck {n : Nat} {cfg : Config} {s : IntegratedServer n}
    (hW : 1 ≤ cfg.warmupreqs) (h : (integratedServer cfg n).Reachable s) : s.Stuck cfg := by
  refine h.invariant ?_ fun s a s' _ hs hn => hs.next hn
  rintro s rfl
  exact
    { dist := fun _ => rfl
      once := Nat.zero_le _
      roi := by simp [IntegratedServer.start, Client.new]
      samples := rfl
      counted := by simp [IntegratedServer.start, Client.new, IntegratedPc.counting]
      dumps := by simp [IntegratedServer.start, Client.new]
      early := by
        intro he
        have hzero : cfg.warmupreqs = 0 := he.symm
        rw [hzero] at hW
        exact absurd hW (by decide) }

/-- A whole run as it is meant: `_startRoi` is executed once, when `warmupReqs` requests are
finished, its assertion never fails, and `dumpStats` is reached when `warmupReqs + maxReqs`
requests are finished, with `maxReqs` samples. -/
structure CompletesRun (cfg : Config) (n : Nat) : Prop where
  assertion : ∀ s, (integratedServer cfg n).Reachable s → s.data.proc ≠ .aborted .startRoi
  switch : ∀ s a s', (integratedServer cfg n).Reachable s → s.next cfg a = some s' →
    s.data.core.obj.status ≠ .ROI → s'.data.core.obj.status = .ROI →
    s'.data.finishedReqs = cfg.warmupreqs
  reached : ∃ s, (integratedServer cfg n).Reachable s ∧ s.data.core.obj.dumps ≠ []
  samples : ∀ s, (integratedServer cfg n).Reachable s → ∀ d ∈ s.data.core.obj.dumps,
    s.data.finishedReqs = cfg.warmupreqs + cfg.maxreqs ∧ d.records.length = cfg.maxreqs.toNat

/-- **The integrated server never completes a run.** Whatever the options and the number of
threads: at most one request is ever finished, the region of interest starts when none is,
by the time `warmupReqs` requests are finished the assertion of `_startRoi` has failed, and no
sample is ever written. -/
theorem integrated_never_completes (cfg : Config) (n : Nat) (hW : 1 ≤ cfg.warmupreqs)
    (hM : 1 ≤ cfg.maxreqs) :
    ¬ CompletesRun cfg n ∧
    ∀ s, (integratedServer cfg n).Reachable s →
      s.data.finishedReqs ≤ 1 ∧
      (s.data.finishedReqs = cfg.warmupreqs → s.data.proc = .aborted .startRoi) ∧
      (∀ d ∈ s.data.core.obj.dumps, d.records = []) ∧
      ∀ a s', s.next cfg a = some s' → s.data.core.obj.status ≠ .ROI →
        s'.data.core.obj.status = .ROI → s'.data.finishedReqs = 0 := by
  constructor
  · intro hc
    obtain ⟨s, hs, hne⟩ := hc.reached
    obtain ⟨d, hd⟩ := List.exists_mem_of_ne_nil _ hne
    have hlen := (hc.samples s hs d hd).2
    rw [(integratedServer_stuck hW hs).dumps d hd] at hlen
    have hpos : 1 ≤ cfg.maxreqs.toNat := UInt64.le_iff_toNat_le.mp hM
    simp only [List.length_nil] at hlen
    omega
  · intro s hs
    have hstuck := integratedServer_stuck hW hs
    refine ⟨?_, hstuck.early, hstuck.dumps, ?_⟩
    · have hcounted := hstuck.counted
      have honce := hstuck.once
      rw [UInt64.le_iff_toNat_le, UInt64.toNat_one]
      omega
    · intro a s' hn hnot hroi
      obtain ⟨-, pc', hmove, hthreads⟩ := IntegratedServer.next_move hn
      have hzero : s.data.finishedReqs = 0 := by
        have hne : s.data.core.obj.completed.length ≠ 1 := fun h1 => hnot (hstuck.roi.mp h1)
        have hcounted := hstuck.counted
        have honce := hstuck.once
        rw [← UInt64.toNat_inj, UInt64.toNat_zero]
        omega
      generalize hd : s'.data = d' at hmove
      generalize hpc : s.threads a.tid = pc at hmove
      cases hmove with
      | count ns =>
          -- a thread that counts has ended a request, so the region of interest has begun
          have hle := s.counting_le_sum a.tid
          rw [hpc, IntegratedPc.counting_count] at hle
          have hcounted := hstuck.counted
          have honce := hstuck.once
          exact absurd (hstuck.roi.mp (by omega)) hnot
      | _ => exact hzero

/-- Two warmup requests and one measured one. -/
def integratedConfig : Config where
  rng := ⟨fun _ _ => 0, fun _ _ => 0⟩
  warmupreqs := 2
  maxreqs := 1

theorem integrated_never_completes_integratedConfig :
    (1 : UInt64) ≤ integratedConfig.warmupreqs ∧ (1 : UInt64) ≤ integratedConfig.maxreqs ∧
      ¬ CompletesRun integratedConfig 1 :=
  ⟨by decide, by decide, (integrated_never_completes integratedConfig 1 (by decide) (by decide)).1⟩

/-- One thread, up to the end of its second request. -/
def integratedRun : List (IntegratedAction 1) :=
  let step := fun inp : Input => (⟨0, .client inp⟩ : IntegratedAction 1)
  let respond := fun ns : UInt64 => (⟨0, .respond ns ⟨[], Nat.zero_le _⟩⟩ : IntegratedAction 1)
  let gen := fun ns : UInt64 => step (.gen ns ⟨[], Nat.zero_le _⟩)
  [step (.clock 1), step .tau, step .tau, step .tau, step (.clock 2), step .tau,
   step .tau, step .tau, gen 3, step (.clock 4), step (.clock 5), step (.clock 6),
   respond 7, step .tau, step (.fini 8 9), step .tau, step (.clock 10),
   step (.clock 11), step .tau, step .tau, step .tau, gen 12, step (.clock 13),
   step (.clock 14), step (.clock 15), respond 16, step .tau, step (.fini 17 18)]

/-- The second `finiReq` fails the assertion of `_startRoi`, with one request finished. -/
theorem integrated_assertion_fails :
    (∃ s, (integratedServer integratedConfig 1).Reachable s ∧
      s.data.proc = .aborted .startRoi ∧ s.data.finishedReqs = 1) ∧
    ¬ CompletesRun integratedConfig 1 := by
  have hrun : ∃ s, (integratedServer integratedConfig 1).Reachable s ∧
      s.data.proc = .aborted .startRoi ∧ s.data.finishedReqs = 1 :=
    Machine.Reachable.exists_of_exec
      (P := fun s : IntegratedServer 1 =>
        s.data.proc = .aborted .startRoi ∧ s.data.finishedReqs = 1) integratedRun
      (show (integratedServer integratedConfig 1).init (IntegratedServer.start integratedConfig)
        from rfl) (by decide +kernel)
  refine ⟨hrun, fun hc => ?_⟩
  obtain ⟨s, hs, hproc, -⟩ := hrun
  exact hc.assertion s hs hproc

end TailBench
