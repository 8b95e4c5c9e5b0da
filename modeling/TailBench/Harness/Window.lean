import TailBench.Harness.SessionStream

set_option autoImplicit false

/-! # The measurement window

Which responses end up in the result file. `finiReq` counts every response, records it only
in the region of interest, switches the phase at the `warmupreqs`-th and dumps at the
`(warmupreqs + maxreqs)`-th. The history `completed` lists every response processed, so the
window is a statement about `completed` alone: the five vectors are the samples of
`completed.drop warmupreqs`.
-/

namespace TailBench

open Lib

namespace Client

/-- The five vectors are the columns of `xs`. -/
structure Columns (c : Client) (xs : List Sample) : Prop where
  queueTimes : c.queueTimes = xs.map Sample.queueTime
  svcTimes : c.svcTimes = xs.map Sample.svcTime
  sjrnTimes : c.sjrnTimes = xs.map Sample.sjrnTime
  requestDate : c.requestDate = xs.map Sample.requestDate
  nicSjrnTimes : c.nicSjrnTimes = xs.map Sample.nicSjrnTime

/-- The loop of `dumpStats` writes as many samples as `int` makes of their number. -/
theorem Columns.dumpRecords {c : Client} {xs : List Sample} (h : c.Columns xs) :
    c.dumpRecords = xs.take (cInt xs.length).toNat := by
  have hle : (cInt xs.length).toNat ≤ xs.length := cInt_toNat_le xs.length
  unfold Client.dumpRecords
  rw [h.queueTimes, h.svcTimes, h.sjrnTimes, h.requestDate, h.nicSjrnTimes, List.length_map]
  generalize (cInt xs.length).toNat = n at hle
  refine List.ext_getElem (by simp [hle]) fun i h1 h2 => ?_
  have hi : i < xs.length := lt_of_lt_of_le h2 (List.length_take_le n xs |>.trans hle)
  simp [List.getD, List.getElem?_eq_getElem hi]

/-- The five vectors hold the samples of `xs`, in this order. -/
structure Vectors (c : Client) (xs : List Completion) : Prop where
  queueTimes : c.queueTimes = xs.map fun x => x.sample.queueTime
  svcTimes : c.svcTimes = xs.map fun x => x.sample.svcTime
  sjrnTimes : c.sjrnTimes = xs.map fun x => x.sample.sjrnTime
  requestDate : c.requestDate = xs.map fun x => x.sample.requestDate
  nicSjrnTimes : c.nicSjrnTimes = xs.map fun x => x.sample.nicSjrnTime

/-- The window, as a property of the object. -/
structure Window (cfg : Config) (c : Client) : Prop where
  count : c.numReqsCompleted.toNat = c.completed.length
  le : c.completed.length ≤ cfg.warmupreqs.toNat + cfg.maxreqs.toNat
  roi : c.status = .ROI ↔ cfg.warmupreqs.toNat ≤ c.completed.length
  running : c.status ≠ .FINISHED
  vectors : c.Vectors (c.completed.drop cfg.warmupreqs.toNat)
  dumps : c.dumps.length =
    if c.completed.length = cfg.warmupreqs.toNat + cfg.maxreqs.toNat then 1 else 0
  records : ∀ x ∈ c.dumps,
    x.records = (c.completed.drop cfg.warmupreqs.toNat).map Completion.sample

variable {cfg : Config} {c c' : Client}

theorem Vectors.frame {xs : List Completion} (h : c.Vectors xs) (hw : SameWindow c c') :
    c'.Vectors xs where
  queueTimes := by rw [hw.queueTimes]; exact h.queueTimes
  svcTimes := by rw [hw.svcTimes]; exact h.svcTimes
  sjrnTimes := by rw [hw.sjrnTimes]; exact h.sjrnTimes
  requestDate := by rw [hw.requestDate]; exact h.requestDate
  nicSjrnTimes := by rw [hw.nicSjrnTimes]; exact h.nicSjrnTimes

/-- A step outside `finiReq`. -/
theorem Window.frame (h : c.Window cfg) (hw : SameWindow c c')
    (hroi : c'.status = .ROI ↔ c.status = .ROI) (hrun : c'.status ≠ .FINISHED) :
    c'.Window cfg where
  count := by rw [hw.numReqsCompleted, hw.completed]; exact h.count
  le := by rw [hw.completed]; exact h.le
  roi := by rw [hroi, hw.completed]; exact h.roi
  running := hrun
  vectors := by rw [hw.completed]; exact h.vectors.frame hw
  dumps := by rw [hw.dumps, hw.completed]; exact h.dumps
  records := by rw [hw.dumps, hw.completed]; exact h.records

theorem Vectors.columns {xs : List Completion} (h : c.Vectors xs) :
    c.Columns (xs.map Completion.sample) where
  queueTimes := by rw [h.queueTimes, List.map_map]; rfl
  svcTimes := by rw [h.svcTimes, List.map_map]; rfl
  sjrnTimes := by rw [h.sjrnTimes, List.map_map]; rfl
  requestDate := by rw [h.requestDate, List.map_map]; rfl
  nicSjrnTimes := by rw [h.nicSjrnTimes, List.map_map]; rfl

/-- It writes all of them, as long as `int` can count them. -/
theorem Vectors.dumpRecords {xs : List Completion} (h : c.Vectors xs)
    (hlen : xs.length < 2 ^ 31) : c.dumpRecords = xs.map Completion.sample := by
  rw [h.columns.dumpRecords, List.length_map, cInt_of_lt hlen, Int.toNat_natCast]
  exact List.take_of_length_le (by rw [List.length_map])

/-- The vectors after a response was recorded, or not. -/
theorem Window.finiRecord (h : c.Window cfg) (p : Nat) (req : Request) (resp : Response)
    (curNs : UInt64) :
    (c.finiRecord p req resp curNs).Vectors
      ((c.finiRecord p req resp curNs).completed.drop cfg.warmupreqs.toNat) := by
  rw [finiRecord_completed]
  by_cases hs : c.status = .ROI
  · rw [List.drop_append_of_le_length (h.roi.mp hs)]
    simp only [Client.finiRecord, hs, if_true, record]
    constructor
    · simp [h.vectors.queueTimes]
    · simp [h.vectors.svcTimes]
    · simp [h.vectors.sjrnTimes]
    · simp [h.vectors.requestDate]
    · simp [h.vectors.nicSjrnTimes]
  · -- still warming up: nothing is recorded, and the window is still empty
    have hlt : c.completed.length < cfg.warmupreqs.toNat := by
      have hroi := h.roi
      by_contra hge
      exact hs (hroi.mpr (by omega))
    have hold : c.completed.drop cfg.warmupreqs.toNat = [] :=
      List.drop_of_length_le (by omega)
    have hnew : (c.completed ++ [(⟨req, resp, curNs, c.status, sample req resp curNs⟩ :
        Completion)]).drop cfg.warmupreqs.toNat = [] :=
      List.drop_of_length_le (by rw [List.length_append, List.length_singleton]; omega)
    have hv := h.vectors
    rw [hold] at hv
    rw [hnew]
    simp only [Client.finiRecord, hs, if_false]
    exact ⟨hv.queueTimes, hv.svcTimes, hv.sjrnTimes, hv.requestDate, hv.nicSjrnTimes⟩

/-- **`finiReq` keeps the window**, when it is called for one of the first
`warmupreqs + maxreqs` responses and not before the phase `INIT` has ended. -/
theorem Window.finiEnd (h : c.Window cfg) {laterNs curNs : UInt64} {p : Nat} {req : Request}
    {resp : Response} {ex : Bool} (hW : 1 ≤ cfg.warmupreqs.toNat)
    (hM : 1 ≤ cfg.maxreqs.toNat) (hM' : cfg.maxreqs.toNat < 2 ^ 31)
    (hbudget : cfg.budget.toNat = cfg.warmupreqs.toNat + cfg.maxreqs.toNat)
    (hlt : c.completed.length < cfg.warmupreqs.toNat + cfg.maxreqs.toNat)
    (he : FiniEnd cfg laterNs (c.finiRecord p req resp curNs) c' ex) : c'.Window cfg := by
  have hvec := h.finiRecord p req resp curNs
  have hlen : (c.finiRecord p req resp curNs).completed.length = c.completed.length + 1 := by
    simp
  have hcount : (c.numReqsCompleted + 1).toNat = c.completed.length + 1 := by
    have hmax := cfg.budget.toNat_lt
    rw [UInt64.toNat_add, h.count]
    exact Nat.mod_eq_of_lt (by simp only [UInt64.toNat_one]; omega)
  have hW0 : cfg.warmupreqs ≠ 0 := fun h0 => by rw [h0] at hW; simp at hW
  have hwarm : c.numReqsCompleted + 1 = cfg.warmupreqs ↔
      c.completed.length + 1 = cfg.warmupreqs.toNat := by
    rw [← UInt64.toNat_inj, hcount]
  have hdumps : c.dumps = [] := by
    have hd := h.dumps
    rw [if_neg (by omega)] at hd
    exact List.eq_nil_of_length_eq_zero hd
  have hstat : (c.finiRecord p req resp curNs).status = c.status := finiRecord_status ..
  have hcompl := he.same.completed
  -- outside the switch the phase is what the number of responses says
  have hroi : c.completed.length + 1 ≠ cfg.warmupreqs.toNat →
      ((c.finiRecord p req resp curNs).status = .ROI ↔
        cfg.warmupreqs.toNat ≤ c.completed.length + 1) := by
    intro hne
    rw [hstat, h.roi]
    omega
  have hrun : (c.finiRecord p req resp curNs).status ≠ .FINISHED := by
    rw [hstat]
    exact h.running
  cases he with
  | roi hw hs =>
      -- the measurement begins: the vectors are cleared
      obtain ⟨-, rfl⟩ := _startRoi_some hs
      rw [finiRecord_numReqsCompleted, hwarm] at hw
      have hw' : c.completed.length + 1 = cfg.warmupreqs.toNat := hw.resolve_right hW0
      constructor
      case count => rw [hcompl, hlen]; simpa [countOne] using hcount
      case le => rw [hcompl, hlen]; omega
      case roi => exact iff_of_true rfl (by rw [hcompl, hlen]; omega)
      case running => simp
      case vectors =>
        rw [hcompl, List.drop_of_length_le (by omega)]
        exact ⟨rfl, rfl, rfl, rfl, rfl⟩
      case dumps =>
        rw [hcompl, hlen, if_neg (by omega)]
        simpa [countOne] using hdumps
      case records => simp [countOne, hdumps]
  | count hw hb =>
      rw [finiRecord_numReqsCompleted, hwarm] at hw
      rw [finiRecord_numReqsCompleted, UInt64.le_iff_toNat_le, hcount] at hb
      have hw' : c.completed.length + 1 ≠ cfg.warmupreqs.toNat := fun h' => hw (.inl h')
      constructor
      case count => rw [hcompl, hlen]; simpa [countOne] using hcount
      case le => rw [hcompl, hlen]; omega
      case roi => rw [hcompl, hlen]; exact hroi hw'
      case running => exact hrun
      case vectors => exact ⟨hvec.queueTimes, hvec.svcTimes, hvec.sjrnTimes, hvec.requestDate,
        hvec.nicSjrnTimes⟩
      case dumps =>
        rw [hcompl, hlen, if_neg (by omega)]
        simpa [countOne] using hdumps
      case records => simp [countOne, hdumps]
  | dump hw hb =>
      rw [finiRecord_numReqsCompleted, hwarm] at hw
      rw [finiRecord_numReqsCompleted, UInt64.le_iff_toNat_le, hcount] at hb
      have hw' : c.completed.length + 1 ≠ cfg.warmupreqs.toNat := fun h' => hw (.inl h')
      constructor
      case count => rw [hcompl, hlen]; simpa [countOne, dumpStats] using hcount
      case le => rw [hcompl, hlen]; omega
      case roi => rw [hcompl, hlen]; exact hroi hw'
      case running => exact hrun
      case vectors => exact ⟨hvec.queueTimes, hvec.svcTimes, hvec.sjrnTimes, hvec.requestDate,
        hvec.nicSjrnTimes⟩
      case dumps =>
        rw [hcompl, hlen, if_pos (by omega)]
        simp [countOne, dumpStats, hdumps]
      case records =>
        rw [hcompl]
        have hrec := hvec.dumpRecords (by rw [List.length_drop, hlen]; omega)
        simp only [countOne, dumpStats, finiRecord_dumps, hdumps, List.nil_append,
          List.mem_singleton, forall_eq]
        exact hrec

end Client

/-! ## The window in a session -/

section Session

variable {cfg : Config} {strict : Bool} {nS nR : Nat} {s s' : Session nS nR}

/-- When `finiReq` runs, fewer responses than the budget were processed, and the client has
left the phase `INIT`. -/
theorem fini_within_budget (h : (session cfg strict nS nR).Reachable s) {j : Fin nR}
    {resp : Response} (hj : s.client.receivers j = .fini resp) :
    s.client.data.obj.completed.length < cfg.budget.toNat ∧
      s.client.data.obj.status ≠ .INIT := by
  have hobj := netClient_objects (session_client h)
  have hlen := ((session_reads h).subperm hj).length_le
  have hbudget := (netClient_counts (session_client h)).transfers_le
  simp only [Client.completedIds, Session.sentIds, List.length_cons, List.length_map] at hlen
  simp only [NetData.transfers] at hbudget
  refine ⟨by omega, fun hinit => ?_⟩
  obtain ⟨x, hx⟩ := List.exists_mem_of_length_pos (show 0 < s.client.data.sent.length by omega)
  have hlt := hobj.sent_lt hx
  rw [hobj.fresh (hobj.status.mpr hinit)] at hlt
  omega

/-- The invariant: the window of the object, and that the assertion of `_startRoi` has not
failed. -/
structure Session.Windowed (cfg : Config) (s : Session nS nR) : Prop where
  window : s.client.data.obj.Window cfg
  noAbort : s.client.data.proc ≠ .aborted .startRoi

theorem Session.Windowed.afterSender (h : s.Windowed cfg) {i : Fin nS} {d : NetData}
    {pc : SenderPc} {inp : Input} {op : LockOp Mutex} (hobj : s.client.Objects)
    (hm : SenderMove cfg s.client.data (s.client.senders i) inp d pc op) :
    d.obj.Window cfg ∧ d.proc ≠ .aborted .startRoi := by
  constructor
  · obtain ⟨hst, -⟩ | ⟨hd, -, hst⟩ := hm.dist (hobj.ready i)
    · exact h.window.frame hm.frame.window (by rw [hst]) (by rw [hst]; exact h.window.running)
    · have hinit := hobj.status.mp hd
      refine h.window.frame hm.frame.window ?_ (by rw [hst]; simp)
      simp [hst, hinit]
  · obtain hp | hp := hm.proc
    · rw [hp]; exact h.noAbort
    · simp [hp]

theorem Session.Windowed.afterReceiver (h : s.Windowed cfg) {j : Fin nR} {d : NetData}
    {pc : ReceiverPc} {inp : Input} {op : LockOp Mutex} (hW : 1 ≤ cfg.warmupreqs.toNat)
    (hM : 1 ≤ cfg.maxreqs.toNat) (hM' : cfg.maxreqs.toNat < 2 ^ 31)
    (hbudget : cfg.budget.toNat = cfg.warmupreqs.toNat + cfg.maxreqs.toNat)
    (hlt : ∀ resp, s.client.receivers j = .fini resp →
      s.client.data.obj.completed.length < cfg.budget.toNat ∧
        s.client.data.obj.status ≠ .INIT)
    (hm : ReceiverMove cfg s.client.data (s.client.receivers j) inp d pc op) :
    d.obj.Window cfg ∧ d.proc ≠ .aborted .startRoi := by
  have hw := h.window
  refine ⟨?_, ?_⟩
  · obtain heq | ⟨resp, p, req, curNs, laterNs, ex, hpc, -, -, he⟩ := hm.obj
    · rw [heq]
      exact hw
    · exact hw.finiEnd hW hM hM' hbudget (by rw [← hbudget]; exact (hlt resp hpc).1) he
  · generalize hpc : s.client.receivers j = pc₀ at hm
    cases hm with
    | @fault resp f curNs laterNs hf =>
        rintro hab
        obtain rfl : f = .startRoi := by simpa using hab
        obtain ⟨hlen, hinit⟩ := hlt resp hpc
        obtain ⟨p, req, -, ⟨x, -, hx⟩ | ⟨x, -, hx⟩ | ⟨hwarm, hst, -⟩⟩ | ⟨-, hx⟩ |
          ⟨-, -, -, hx⟩ | ⟨-, -, -, -, -, hx⟩ :=
            Client.finiReq_cases cfg curNs laterNs resp s.client.data.obj
        case inl.inr.inr =>
          -- at the `warmupreqs`-th response the phase is `WARMUP`
          have hroi : s.client.data.obj.status ≠ .ROI := by
            intro hroi
            have hge := hw.roi.mp hroi
            have hmax := cfg.budget.toNat_lt
            obtain hwarm | hwarm := hwarm
            · have hn := congrArg UInt64.toNat hwarm
              rw [UInt64.toNat_add, hw.count, UInt64.toNat_one,
                Nat.mod_eq_of_lt (by omega)] at hn
              omega
            · rw [hwarm] at hW
              simp at hW
          cases hcase : s.client.data.obj.status with
          | INIT => exact hinit hcase
          | WARMUP => exact hst hcase
          | ROI => exact hroi hcase
          | FINISHED => exact hw.running hcase
        all_goals rw [hf] at hx
        all_goals cases hx
    | exitGroup => simp
    | _ => exact h.noAbort

theorem session_windowed (hW : 1 ≤ cfg.warmupreqs.toNat) (hM : 1 ≤ cfg.maxreqs.toNat)
    (hM' : cfg.maxreqs.toNat < 2 ^ 31)
    (hbudget : cfg.budget.toNat = cfg.warmupreqs.toNat + cfg.maxreqs.toNat)
    (h : (session cfg strict nS nR).Reachable s) : s.Windowed cfg := by
  refine Machine.Reachable.invariant ?_ ?_ h
  · rintro s ⟨t, rfl⟩
    refine ⟨?_, by simp [NetClient.start]⟩
    constructor
    case vectors => constructor <;> simp [NetClient.start, Client.new]
    case roi => exact iff_of_false (by simp [NetClient.start, Client.new]) (by
      simp [NetClient.start, Client.new]; omega)
    case dumps =>
      rw [if_neg (by simp [NetClient.start, Client.new]; omega)]
      rfl
    all_goals simp [NetClient.start, Client.new]
  · intro s a s' hr hs hn
    cases Session.next_move hn with
    | client hm harr htick =>
        cases hm with
        | sender i hrun hm hop =>
            obtain ⟨h1, h2⟩ := hs.afterSender (netClient_objects (session_client hr)) hm
            exact ⟨h1, h2⟩
        | receiver j hrun hm hop =>
            obtain ⟨h1, h2⟩ := hs.afterReceiver hW hM hM' hbudget
              (fun resp hj => fini_within_budget hr hj) hm
            exact ⟨h1, h2⟩
    | answer id svcNs data hid ht => exact ⟨hs.window, hs.noAbort⟩
    | finish => exact ⟨hs.window, hs.noAbort⟩
    | tick htick => exact ⟨hs.window, hs.noAbort⟩

/-- **The measurement window.** In every reachable state of a client whose requests are
answered at most once each, in any order: the phase is `ROI` from the `warmupreqs`-th
completion on; the five vectors have one entry for each completion after it; the assertion
of `_startRoi` has not failed; and `dumpStats` has run once if `warmupreqs + maxreqs`
responses were processed and not at all before, with one record for each of the last
`maxreqs` of them, in the order of completion. -/
theorem measurement_window (hW : 1 ≤ cfg.warmupreqs) (hM : 1 ≤ cfg.maxreqs)
    (hsum : cfg.warmupreqs.toNat + cfg.maxreqs.toNat < 2 ^ 64)
    (hint : cfg.maxreqs.toNat < 2 ^ 31) (h : (session cfg strict nS nR).Reachable s) :
    let c := s.client.data.obj
    (c.status = .ROI ↔ cfg.warmupreqs ≤ c.numReqsCompleted) ∧
    (c.requestDate.length = c.numReqsCompleted.toNat - cfg.warmupreqs.toNat ∧
      c.queueTimes.length = c.numReqsCompleted.toNat - cfg.warmupreqs.toNat ∧
      c.svcTimes.length = c.numReqsCompleted.toNat - cfg.warmupreqs.toNat ∧
      c.sjrnTimes.length = c.numReqsCompleted.toNat - cfg.warmupreqs.toNat ∧
      c.nicSjrnTimes.length = c.numReqsCompleted.toNat - cfg.warmupreqs.toNat) ∧
    s.client.data.proc ≠ .aborted .startRoi ∧
    (c.completed.length = c.numReqsCompleted.toNat ∧
      c.completed.length ≤ cfg.warmupreqs.toNat + cfg.maxreqs.toNat) ∧
    c.dumps.length =
      (if c.completed.length = cfg.warmupreqs.toNat + cfg.maxreqs.toNat then 1 else 0) ∧
    ∀ x ∈ c.dumps, x.records.length = cfg.maxreqs.toNat ∧
      x.records = ((c.completed.drop cfg.warmupreqs.toNat).take cfg.maxreqs.toNat).map
        Completion.sample := by
  have hbudget : cfg.budget.toNat = cfg.warmupreqs.toNat + cfg.maxreqs.toNat := by
    rw [Config.budget, UInt64.toNat_add, Nat.mod_eq_of_lt hsum]
  have hw := session_windowed (UInt64.le_iff_toNat_le.mp hW) (UInt64.le_iff_toNat_le.mp hM) hint
    hbudget h
  have hwin := hw.window
  have hvec := hwin.vectors
  refine ⟨?_, ?_, hw.noAbort, ⟨hwin.count.symm, hwin.le⟩, hwin.dumps, fun x hx => ?_⟩
  · rw [UInt64.le_iff_toNat_le, hwin.count]
    exact hwin.roi
  · rw [hwin.count, hvec.requestDate, hvec.queueTimes, hvec.svcTimes, hvec.sjrnTimes,
      hvec.nicSjrnTimes]
    simp only [List.length_map, List.length_drop, and_self]
  · -- there is a dump only after the last completion, so the window has `maxreqs` entries
    have hlast : s.client.data.obj.completed.length
        = cfg.warmupreqs.toNat + cfg.maxreqs.toNat := by
      by_contra hne
      have hd := hwin.dumps
      rw [if_neg hne] at hd
      rw [List.eq_nil_of_length_eq_zero hd] at hx
      simp at hx
    have hdrop : (s.client.data.obj.completed.drop cfg.warmupreqs.toNat).length
        = cfg.maxreqs.toNat := by
      rw [List.length_drop, hlast]
      omega
    rw [hwin.records x hx, List.take_of_length_le hdrop.le, List.length_map]
    exact ⟨hdrop, rfl⟩

/-- A run of it: two requests, each answered and processed before the next. -/
def smallRun : List (SessionAction 1 1) :=
  (NetClient.sendOne 0 true 10 ⟨[], Nat.zero_le _⟩).map .client ++
  [.answer 0 0 ⟨[], Nat.zero_le _⟩] ++
  (NetClient.recvOne 0 20 (mkResponse 0 0 ⟨[], Nat.zero_le _⟩)).map .client ++
  (NetClient.sendOne 0 false 30 ⟨[], Nat.zero_le _⟩).map .client ++
  [.answer 1 0 ⟨[], Nat.zero_le _⟩] ++
  (NetClient.recvOne 0 40 (mkResponse 1 0 ⟨[], Nat.zero_le _⟩)).map .client

/-- A run to its end: one dump, with one record, that of the second response. -/
theorem measurement_window_smallRun :
    ∃ s, (session smallConfig true 1 1).Reachable s ∧
      s.client.data.obj.numReqsCompleted = 2 ∧ s.client.data.obj.dumps.length = 1 ∧
      ∀ x ∈ s.client.data.obj.dumps, x.records.length = 1 := by
  obtain ⟨s, hs, hn⟩ := Machine.Reachable.exists_of_exec
    (P := fun s => s.client.data.obj.numReqsCompleted = 2) smallRun
    (show (session smallConfig true 1 1).init ⟨NetClient.start smallConfig, [], 0⟩ from ⟨0, rfl⟩)
    (by decide +kernel)
  obtain ⟨-, -, -, ⟨hlen, -⟩, hdumps, hrec⟩ :=
    measurement_window (by decide) (by decide) (by decide) (by decide) hs
  rw [hlen, hn] at hdumps
  exact ⟨s, hs, hn, hdumps, fun x hx => (hrec x hx).1⟩

end Session

end TailBench
