import TailBench.Harness.Table

set_option autoImplicit false

/-! # Running out of ids

`startedReqs` is a 64-bit counter, and up to `warmupreqs + maxreqs + nthreads - 1` requests
are started. When this exceeds `2^64` two requests can have the same id. The run is too long
to be written down: it is put together from two passages of one sender (`senderRun_start`,
`senderRun_send`), repeated by induction.
-/

namespace TailBench

open Lib

/-! ## Steps of one sender -/

/-- Several steps of the thread `t`, a sender at `pc`. -/
def senderRun {τ : Type} (cfg : Config) (n : Nat) (t : τ) : List Input → NetData → SenderPc →
    (Mutex → Option τ) → Option (NetData × SenderPc × (Mutex → Option τ))
  | [], d, pc, locks => some (d, pc, locks)
  | inp :: inps, d, pc, locks =>
      if d.proc ≠ .running then none
      else
        match senderStep cfg n d pc inp with
        | none => none
        | some (d, pc, op) =>
            match op.apply t locks with
            | none => none
            | some locks => senderRun cfg n t inps d pc locks

theorem senderRun_cons {τ : Type} {cfg : Config} {n : Nat} {t : τ} {inp : Input}
    {inps : List Input} {d d' : NetData} {pc pc' : SenderPc} {op : LockOp Mutex}
    {locks locks' : Mutex → Option τ} (hrun : d.proc = .running)
    (hstep : senderStep cfg n d pc inp = some (d', pc', op))
    (hop : op.apply t locks = some locks') :
    senderRun cfg n t (inp :: inps) d pc locks = senderRun cfg n t inps d' pc' locks' := by
  simp [senderRun, hrun, hstep, hop]

variable {cfg : Config} {nS nR : Nat}

/-- The steps of a sender are steps of the session, as long as nothing is read. -/
theorem senderRun_leads {s : Session nS nR} {i : Fin nS} {inps : List Input} {d : NetData}
    {pc : SenderPc} {locks : Mutex → Option (Tid nS nR)}
    (h : senderRun cfg nS (.sender i) inps s.client.data (s.client.senders i) s.client.locks
      = some (d, pc, locks))
    (hinps : ∀ inp ∈ inps, ∀ bs, inp ≠ .got bs) :
    ∃ s', (session cfg false nS nR).Leads s s' ∧
      s'.client = s.client.afterSender i d locks pc := by
  induction inps generalizing s with
  | nil =>
      simp only [senderRun, Option.some.injEq, Prod.mk.injEq] at h
      obtain ⟨rfl, rfl, rfl⟩ := h
      exact ⟨s, .refl s, by simp [NetClient.afterSender]⟩
  | cons inp inps ih =>
      simp only [senderRun] at h
      split at h
      · cases h
      · next hrun =>
          split at h
          · cases h
          · next d₁ pc₁ op hstep =>
              split at h
              · cases h
              · next locks₁ hop =>
                  -- the state after the first input, from which the rest of the run goes on
                  let s₁ : Session nS nR :=
                    { s with
                      client := s.client.afterSender i d₁ locks₁ pc₁
                      now := (inp.reading.getD s.now) }
                  have hnext : (session cfg false nS nR).next (.client ⟨.sender i, inp⟩) s
                      = some s₁ := by
                    have harr : inp.arrives s.stream s.client.data.rx := by
                      cases inp with
                      | got bs => exact absurd rfl (hinps _ (List.mem_cons_self ..) bs)
                      | _ => trivial
                    have htick : inp.tick false s.now = some (inp.reading.getD s.now) := by
                      cases hread : inp.reading <;> simp [Input.tick, hread]
                    simp only [session, Session.next, if_pos harr, htick, Option.bind_some,
                      NetClient.next, if_neg hrun, hstep, hop, Option.map_some]
                    rfl
                  have hself : s₁.client.senders i = pc₁ := Function.update_self ..
                  obtain ⟨s', hleads, hs'⟩ := @ih s₁
                    (by rw [hself]; exact h)
                    (fun inp' hmem => hinps inp' (List.mem_cons_of_mem _ hmem))
                  refine ⟨s', (Machine.Leads.single hnext).trans hleads, ?_⟩
                  rw [hs']
                  simp [s₁, NetClient.afterSender]

/-! ## Two passages -/

/-- What the two passages keep. -/
structure Warm (d : NetData) : Prop where
  running : d.proc = .running
  status : d.obj.status = .WARMUP
  dist : d.obj.dist ≠ none
  failed : d.failed = []

/-- The largest reading of the clock: every arrival time is in the past. -/
def lastNs : UInt64 := UInt64.ofNat (2 ^ 64 - 1)

/-- `startReq` of a thread that does not have to wait. -/
def startInputs : List Input :=
  [.clock 0, .tau, .tau, .tau, .gen 0 ⟨[], Nat.zero_le _⟩, .clock 0, .clock lastNs]

theorem not_lastNs_lt (ns : UInt64) : ¬ lastNs < ns := by
  rw [UInt64.lt_iff_toNat_lt]
  have hlt := ns.toNat_lt
  have hlast : lastNs.toNat = 2 ^ 64 - 1 := by decide
  omega

/-- Taking a free mutex and releasing it. -/
theorem update_update_none {τ : Type} {locks : Mutex → Option τ} {m : Mutex} {t : τ}
    (h : locks m = none) :
    Function.update (Function.update locks m (some t)) m none = locks := by
  rw [Function.update_idem, ← h, Function.update_eq_self]

/-- The objects that are alive stay alive. -/
theorem modifyReq_live {c : Client} {p q : Nat} {f : Request → Request}
    (h : c.heap q ≠ none) : (c.modifyReq p f).heap q ≠ none := by
  by_cases hq : q = p
  · subst hq; simpa [Client.modifyReq] using h
  · simpa [Client.modifyReq, hq] using h

theorem senderRun_start (hvar : cfg.qpsVar = 0) {τ : Type} (n : Nat) (t : τ) {d : NetData}
    (hw : Warm d) {locks : Mutex → Option τ} (hl : locks .lock = none) :
    ∃ d', senderRun cfg n t startInputs d (.start .enter) locks
        = some (d', .sendEntry d.obj.allocated, locks) ∧ Warm d' ∧
      d'.obj.allocated = d.obj.allocated + 1 ∧ d'.obj.numReqsSent = d.obj.numReqsSent ∧
      (∀ p, d.obj.heap p ≠ none → d'.obj.heap p ≠ none) ∧
      d'.obj.heap d.obj.allocated ≠ none := by
  obtain ⟨hrun, hstatus, hdist, hfailed⟩ := hw
  have hgen : ∃ c₁, d.obj.startReqGen cfg 0 0 ⟨[], Nat.zero_le _⟩ = some c₁ := by
    cases hd : d.obj.dist with
    | none => exact absurd hd hdist
    | some x => exact ⟨_, by simp only [Client.startReqGen, hd]; rfl⟩
  obtain ⟨c₁, hc₁⟩ := hgen
  obtain ⟨dist, req, -, hnew, -, -, -, heq⟩ := startReqGen_spec hc₁
  have hheap₁ : c₁.heap d.obj.allocated = some req := by rw [heq]; simp
  have hend : ∃ c₂, c₁.startReqGenEnd d.obj.allocated 0 = some c₂ := by
    simp [Client.startReqGenEnd, hheap₁]
  obtain ⟨c₂, hc₂⟩ := hend
  obtain ⟨r, -, hc₂'⟩ := Option.map_eq_some_iff.mp hc₂
  have hheap₂ : c₂.heap d.obj.allocated = some { req with startNs_lock_re := 0 } := by
    rw [← hc₂']
    simp [Client.modifyReq, hheap₁]
  let d₁ := d.setObj c₁
  let d₂ := d.setObj c₂
  let d₃ := d.setObj (c₂.modifyReq d.obj.allocated
    fun r => { r with late := decide (r.genNs < r.startNs) })
  refine ⟨d₃, ?_, ?_⟩
  · rw [startInputs,
      senderRun_cons hrun (show _ = some (d, .start (.checkInit 0), .keep) from rfl) rfl,
      senderRun_cons hrun (show _ = some (d, .start (.checkRoi 0), .keep) by
        simp [senderStep, startReqStep, hstatus]) rfl,
      senderRun_cons hrun (show _ = some (d, .start (.lockGen 0), .keep) by
        simp [senderStep, startReqStep, hvar]) rfl,
      senderRun_cons hrun (show _ = some (d, .start (.gen 0), .acquire .lock) from rfl)
        (show _ = some (Function.update locks .lock (some t)) by simp [LockOp.apply, hl]),
      senderRun_cons hrun (show _ = some (d₁, .start (.genEnd d.obj.allocated), .keep) by
        simp [senderStep, startReqStep, hc₁, d₁, NetData.setObj]) rfl,
      senderRun_cons (d := d₁) hrun
        (show _ = some (d₂, .start (.generated d.obj.allocated), .release .lock) by
          simp [senderStep, startReqStep, hc₂, d₁, d₂, NetData.setObj]) rfl,
      senderRun_cons (d := d₂) hrun
        (show _ = some (d₃, .sendEntry d.obj.allocated, .keep) by
          simp [senderStep, startReqStep, hheap₂, not_lastNs_lt, d₂, d₃, NetData.setObj]) rfl,
      update_update_none hl]
    rfl
  · have hc₂all : c₂.status = .WARMUP ∧ c₂.dist ≠ none ∧
        c₂.allocated = d.obj.allocated + 1 ∧ c₂.numReqsSent = d.obj.numReqsSent := by
      rw [← hc₂', heq]
      exact ⟨hstatus, by simp [Client.modifyReq], rfl, rfl⟩
    refine ⟨⟨hrun, hc₂all.1, hc₂all.2.1, hfailed⟩, hc₂all.2.2.1, hc₂all.2.2.2, fun p hp => ?_, ?_⟩
    · refine modifyReq_live ?_
      rw [← hc₂']
      refine modifyReq_live (c := c₁) ?_
      rw [heq]
      by_cases hpa : p = d.obj.allocated
      · subst hpa; simp
      · simpa [hpa] using hp
    · refine modifyReq_live ?_
      rw [hheap₂]
      simp

/-- The transfer of a request by a thread that does not have to wait. -/
def sendInputs (n : Nat) : List Input := [.clock 0, .tau, .clock 0, .wrote n, .tau, .tau]

theorem senderRun_send {τ : Type} (n : Nat) (t : τ) {d : NetData} (hw : Warm d)
    {locks : Mutex → Option τ} (hl : locks .sendLock = none) {p : Nat} {r : Request}
    (hp : d.obj.heap p = some r) (hfit : r.Fits) (hb : d.obj.numReqsSent ≠ cfg.budget) :
    ∃ d' k, senderRun cfg n t (sendInputs k) d (.sendEntry p) locks = some (d', .top, locks) ∧
      Warm d' ∧ d'.obj.allocated = d.obj.allocated ∧
      d'.obj.numReqsSent = d.obj.numReqsSent + 1 ∧
      ∀ p, d.obj.heap p ≠ none → d'.obj.heap p ≠ none := by
  obtain ⟨hrun, hstatus, hdist, hfailed⟩ := hw
  let req : Request := { r with sentNs := 0, sentNs_lock_ad := 0 }
  have hframe : 1 ≤ req.frame.length := by
    have hreq : req.Fits := hfit
    rw [Request.frame_eq hreq, Request.length_image hreq, requestHeaderLen_eq]
    omega
  let d₁ := d.setObj (d.obj.modifyReq p fun r => { r with sentNs := 0 })
  let d₂ := d₁.setObj (d₁.obj.modifyReq p fun r => { r with sentNs_lock_ad := 0 })
  let d₃ : NetData := { d₂ with wire := d₂.wire ++ req.frame, sent := d₂.sent ++ [(p, req)] }
  let d₄ := d₃.setObj
    { d₃.obj with
      numReqsSent := d₃.obj.numReqsSent + 1
      sent_requests := d₃.obj.sent_requests + 1 }
  have hp₁ : d₁.obj.heap p = some { r with sentNs := 0 } := by
    simp [d₁, NetData.setObj, NetData.obj, Client.modifyReq, hp]
  refine ⟨d₄, req.frame.length, ?_, ⟨hrun, hstatus, hdist, hfailed⟩, rfl, rfl, fun q hq => ?_⟩
  · rw [sendInputs,
      senderRun_cons hrun (show _ = some (d₁, .lockSend p, .keep) by
        simp [senderStep, hp, d₁]) rfl,
      senderRun_cons (d := d₁) hrun (show _ = some (d₁, .sendLocked p, .acquire .sendLock) from rfl)
        (show _ = some (Function.update locks .sendLock (some t)) by simp [LockOp.apply, hl]),
      senderRun_cons (d := d₁) hrun
        (show _ = some (d₂, .sending p req req.frame, .keep) by
          have hb₁ : d₁.obj.numReqsSent ≠ cfg.budget := hb
          simp [senderStep, hp₁, hb₁, d₂, req]) rfl,
      senderRun_cons (d := d₂) hrun (show _ = some (d₃, .afterSend true, .keep) by
        simp [senderStep, hframe, d₃]) rfl,
      senderRun_cons (d := d₃) hrun (show _ = some (d₄, .unlockSend true, .keep) from rfl) rfl,
      senderRun_cons (d := d₄) hrun (show _ = some (d₄, .top, .release .sendLock) from rfl) rfl,
      update_update_none hl]
    rfl
  · exact modifyReq_live (modifyReq_live hq)

/-! ## The run -/

/-- All senders are at the top of their loop and `k` requests were started and sent. -/
structure Calm (cfg : Config) (k : Nat) (s : Session nS nR) : Prop where
  reachable : (session cfg false nS nR).Reachable s
  warm : Warm s.client.data
  locks : ∀ m, s.client.locks m = none
  senders : ∀ i, s.client.senders i = .top
  allocated : s.client.data.obj.allocated = k
  numReqsSent : s.client.data.obj.numReqsSent = UInt64.ofNat k
  first : s.client.data.obj.heap 0 ≠ none

/-- A sender at the top of its loop enters `startReq`, while the budget lasts. -/
theorem senderRun_top {τ : Type} {n : Nat} {t : τ} {d : NetData} (hrun : d.proc = .running)
    (hb : d.obj.numReqsSent < cfg.budget) {locks : Mutex → Option τ} :
    senderRun cfg n t [.tau] d .top locks = some (d, .start .enter, locks) := by
  have hnot : ¬ cfg.budget ≤ d.obj.numReqsSent := UInt64.not_le.mpr hb
  simp [senderRun, hrun, senderStep, hnot, LockOp.apply]

/-- Sender `i` enters `startReq` and comes back with a new request. -/
theorem start_leads (hvar : cfg.qpsVar = 0) {s : Session nS nR} {i : Fin nS}
    (hi : s.client.senders i = .start .enter) (hw : Warm s.client.data)
    (hl : s.client.locks .lock = none) :
    ∃ s', (session cfg false nS nR).Leads s s' ∧ Warm s'.client.data ∧
      s'.client.locks = s.client.locks ∧
      s'.client.senders
        = Function.update s.client.senders i (.sendEntry s.client.data.obj.allocated) ∧
      s'.client.data.obj.allocated = s.client.data.obj.allocated + 1 ∧
      s'.client.data.obj.numReqsSent = s.client.data.obj.numReqsSent ∧
      (∀ p, s.client.data.obj.heap p ≠ none → s'.client.data.obj.heap p ≠ none) ∧
      s'.client.data.obj.heap s.client.data.obj.allocated ≠ none := by
  obtain ⟨d, hrun, hwarm, hrest⟩ :=
    senderRun_start hvar nS (.sender i : Tid nS nR) hw hl
  obtain ⟨s', hleads, hs'⟩ := senderRun_leads (i := i)
    (by rw [hi]; exact hrun) (by simp [startInputs])
  refine ⟨s', hleads, ?_⟩
  rw [hs']
  exact ⟨hwarm, rfl, rfl, hrest⟩

/-- Sender `i` passes the check at the top of its loop. -/
theorem top_leads {s : Session nS nR} {i : Fin nS} (hi : s.client.senders i = .top)
    (hrun : s.client.data.proc = .running)
    (hb : s.client.data.obj.numReqsSent < cfg.budget) :
    ∃ s', (session cfg false nS nR).Leads s s' ∧ s'.client.data = s.client.data ∧
      s'.client.locks = s.client.locks ∧
      s'.client.senders = Function.update s.client.senders i (.start .enter) := by
  obtain ⟨s', hleads, hs'⟩ := senderRun_leads (i := i) (s := s)
    (by rw [hi]; exact senderRun_top hrun hb) (by simp)
  refine ⟨s', hleads, ?_⟩
  rw [hs']
  exact ⟨rfl, rfl, rfl⟩

/-- **One more request**, by sender `i`. -/
theorem Calm.next {k : Nat} {s : Session nS nR} (h : Calm cfg k s) (hvar : cfg.qpsVar = 0)
    (hb : UInt64.ofNat k < cfg.budget) (i : Fin nS) :
    ∃ s' : Session nS nR, Calm cfg (k + 1) s' := by
  have hsent := h.numReqsSent
  -- through `startReq`
  obtain ⟨s₁, hl₁, hd₁, hk₁, hp₁⟩ :=
    top_leads (h.senders i) h.warm.running (by rw [hsent]; exact hb)
  obtain ⟨s₂, hl₂, hw₂, hk₂, hp₂, ha₂, hn₂, hh₂, hnew₂⟩ := start_leads (i := i) (s := s₁) hvar
    (by rw [hp₁]; simp) (by rw [hd₁]; exact h.warm) (by rw [hk₁]; exact h.locks _)
  rw [hd₁] at ha₂ hn₂ hh₂ hnew₂ hp₂
  have hr₂ : (session cfg false nS nR).Reachable s₂ := (h.reachable.leads hl₁).leads hl₂
  obtain ⟨r, hr⟩ := Option.ne_none_iff_exists'.mp hnew₂
  have hfit := ((netClient_objects (session_client hr₂)).heap _ _ hr).2.2
  -- and through `send`
  have hfree : s₂.client.locks .sendLock = none := by
    rw [hk₂, hk₁]
    exact h.locks _
  obtain ⟨d, n, hrun, hw₃, ha₃, hn₃, hh₃⟩ := senderRun_send nS (.sender i : Tid nS nR) hw₂
    hfree hr hfit (show _ ≠ cfg.budget by rw [hn₂, hsent]; exact UInt64.ne_of_lt hb)
  obtain ⟨s₃, hl₃, hs₃⟩ := senderRun_leads (i := i) (s := s₂)
    (by rw [hp₂, Function.update_self]; exact hrun) (by simp [sendInputs])
  refine ⟨s₃, hr₂.leads hl₃, ?_, ?_, ?_, ?_, ?_, ?_⟩
  · rw [hs₃]; exact hw₃
  · intro m
    rw [hs₃]
    show s₂.client.locks m = none
    rw [hk₂, hk₁]
    exact h.locks m
  · intro k'
    rw [hs₃]
    show Function.update s₂.client.senders i .top k' = .top
    by_cases hki : k' = i
    · subst hki; simp
    · simpa [hki, hp₂, hp₁] using h.senders k'
  · rw [hs₃]
    show d.obj.allocated = k + 1
    rw [ha₃, ha₂, h.allocated]
  · rw [hs₃]
    show d.obj.numReqsSent = UInt64.ofNat (k + 1)
    rw [hn₃, hn₂, hsent]
    exact (UInt64.ofNat_add k 1).symm
  · rw [hs₃]
    exact hh₃ 0 (hh₂ 0 h.first)

/-- As many requests as the budget allows. -/
theorem Calm.exists {k n : Nat} {s : Session nS nR} (h : Calm cfg k s)
    (hvar : cfg.qpsVar = 0) (i : Fin nS) (hn : k + n ≤ cfg.budget.toNat) :
    ∃ s' : Session nS nR, Calm cfg (k + n) s' := by
  induction n with
  | zero => exact ⟨s, h⟩
  | succ n ih =>
      obtain ⟨s', hs'⟩ := ih (by omega)
      refine hs'.next hvar ?_ i
      have hmax := cfg.budget.toNat_lt
      rw [UInt64.lt_iff_toNat_lt, UInt64.toNat_ofNat', Nat.mod_eq_of_lt (by omega)]
      omega

/-- Three senders with the largest budget. -/
def wrapConfig : Config where
  rng := ⟨fun _ _ => 0, fun _ _ => 0⟩
  warmupreqs := 1
  maxreqs := UInt64.ofNat (2 ^ 64 - 2)

/-- The three senders pass the barriers of `startReq`, and each sends one request. -/
def wrapStart : List (SessionAction 3 3) :=
  let act := fun (i : Fin 3) (inps : List Input) =>
    inps.map fun inp => (.client ⟨.sender i, inp⟩ : SessionAction 3 3)
  let rest : List Input := [.tau, .tau, .gen 2 ⟨[], Nat.zero_le _⟩, .clock 2, .clock 2, .clock 2,
    .tau, .clock 2, .wrote 80, .tau, .tau]
  act 0 [.tau, .clock 1, .tau, .tau] ++ act 1 [.tau, .clock 1, .tau, .tau] ++
  act 2 [.tau, .clock 1, .tau, .tau] ++ act 0 [.tau, .tau, .clock 1, .tau] ++
  act 1 [.tau, .tau, .tau, .tau] ++ act 2 [.tau, .tau, .tau] ++ act 0 [.tau] ++ act 1 [.tau] ++
  act 0 rest ++ act 1 rest ++ act 2 rest

theorem wrapStart_calm : ∃ s : Session 3 3, Calm wrapConfig 3 s := by
  obtain ⟨s, hs, h⟩ := Machine.Reachable.exists_of_exec
    (P := fun s : Session 3 3 => (s.client.data.proc = .running ∧
      s.client.data.obj.status = .WARMUP ∧ s.client.data.obj.dist.isSome = true ∧
      s.client.data.failed = []) ∧
      (s.client.locks .lock = none ∧ s.client.locks .sendLock = none ∧
      s.client.locks .recvLock = none) ∧ (∀ i, s.client.senders i = .top) ∧
      s.client.data.obj.allocated = 3 ∧ s.client.data.obj.numReqsSent = 3 ∧
      (s.client.data.obj.heap 0).isSome = true) wrapStart
    (show (session wrapConfig false 3 3).init ⟨NetClient.start wrapConfig, [], 0⟩ from ⟨0, rfl⟩)
    (by decide +kernel)
  obtain ⟨⟨hrun, hst, hd, hf⟩, ⟨hl1, hl2, hl3⟩, hsend, ha, hn, hh⟩ := h
  refine ⟨s, hs, ⟨hrun, hst, ?_, hf⟩, ?_, hsend, ha, hn, ?_⟩
  · intro hnone
    simp [hnone] at hd
  · intro m
    cases m
    · exact hl1
    · exact hl2
    · exact hl3
  · intro hnone
    simp [hnone] at hh

/-- Sender `i` starts one more request, although the budget may be used up meanwhile. -/
theorem lateStart (hvar : cfg.qpsVar = 0) {s : Session nS nR} {i : Fin nS}
    (hi : s.client.senders i = .start .enter) (hw : Warm s.client.data)
    (hl : ∀ m, s.client.locks m = none) :
    ∃ s', (session cfg false nS nR).Leads s s' ∧ Warm s'.client.data ∧
      (∀ m, s'.client.locks m = none) ∧
      (∀ k, k ≠ i → s'.client.senders k = s.client.senders k) ∧
      s'.client.data.obj.allocated = s.client.data.obj.allocated + 1 ∧
      (∀ p, s.client.data.obj.heap p ≠ none → s'.client.data.obj.heap p ≠ none) ∧
      s'.client.data.obj.heap s.client.data.obj.allocated ≠ none := by
  obtain ⟨s', hleads, hw', hk', hp', ha', -, hh', hnew⟩ := start_leads hvar hi hw (hl _)
  refine ⟨s', hleads, hw', fun m => by rw [hk']; exact hl m, fun k hk => ?_, ha', hh', hnew⟩
  rw [hp', Function.update_of_ne hk]

/-- **Two live requests with one id**, within the budget `2^64 - 1` and with three senders:
when `2^64 - 2` requests were sent, all three senders start one more. -/
theorem ids_wrap_around :
    ∃ s : Session 3 3, (session wrapConfig false 3 3).Reachable s ∧
      s.client.data.failed = [] ∧
      ∃ r r', s.client.data.obj.heap 0 = some r ∧
        s.client.data.obj.heap (2 ^ 64) = some r' ∧ r.id = r'.id := by
  have hvar : wrapConfig.qpsVar = 0 := rfl
  have hbudget : wrapConfig.budget.toNat = 2 ^ 64 - 1 := by decide
  obtain ⟨s₀, hs₀⟩ := wrapStart_calm
  obtain ⟨s, hs⟩ := @Calm.exists wrapConfig 3 3 3 (2 ^ 64 - 5) s₀ hs₀ hvar 0 (by omega)
  have hleft : s.client.data.obj.numReqsSent < wrapConfig.budget := by
    rw [hs.numReqsSent]
    decide
  -- all three are past the check before any of them sends
  obtain ⟨t₀, hl₀, hd₀, hk₀, hp₀⟩ := top_leads (hs.senders 0) hs.warm.running hleft
  obtain ⟨t₁, hl₁, hd₁, hk₁, hp₁⟩ := top_leads (i := 1) (s := t₀)
    (by rw [hp₀]; simpa using hs.senders 1) (by rw [hd₀]; exact hs.warm.running)
    (by rw [hd₀]; exact hleft)
  obtain ⟨t₂, hl₂, hd₂, hk₂, hp₂⟩ := top_leads (i := 2) (s := t₁)
    (by rw [hp₁, hp₀]; simpa using hs.senders 2) (by rw [hd₁, hd₀]; exact hs.warm.running)
    (by rw [hd₁, hd₀]; exact hleft)
  have hdata : t₂.client.data = s.client.data := by rw [hd₂, hd₁, hd₀]
  obtain ⟨u₀, hm₀, hw₀, hu₀, hq₀, ha₀, hh₀, -⟩ := lateStart (i := 0) (s := t₂) hvar
    (by rw [hp₂, hp₁, hp₀]; simp) (by rw [hdata]; exact hs.warm)
    (fun m => by rw [hk₂, hk₁, hk₀]; exact hs.locks m)
  obtain ⟨u₁, hm₁, hw₁, hu₁, hq₁, ha₁, hh₁, -⟩ := lateStart (i := 1) (s := u₀) hvar
    (by rw [hq₀ 1 (by decide), hp₂, hp₁]; simp) hw₀ hu₀
  obtain ⟨u₂, hm₂, hw₂, hu₂, hq₂, ha₂, hh₂, hnew⟩ := lateStart (i := 2) (s := u₁) hvar
    (by rw [hq₁ 2 (by decide), hq₀ 2 (by decide), hp₂]; simp) hw₁ hu₁
  have hreach : (session wrapConfig false 3 3).Reachable u₂ :=
    (((((hs.reachable.leads hl₀).leads hl₁).leads hl₂).leads hm₀).leads hm₁).leads hm₂
  have hlast : u₁.client.data.obj.allocated = 2 ^ 64 := by
    rw [ha₁, ha₀, hdata, hs.allocated]
    omega
  rw [hlast] at hnew
  have hzero := hh₂ 0 (hh₁ 0 (hh₀ 0 (by rw [hdata]; exact hs.first)))
  obtain ⟨r, hr⟩ := Option.ne_none_iff_exists'.mp hzero
  obtain ⟨r', hr'⟩ := Option.ne_none_iff_exists'.mp hnew
  have hobj := netClient_objects (session_client hreach)
  refine ⟨u₂, hreach, hw₂.failed, r, r', hr, hr', ?_⟩
  rw [(hobj.heap _ _ hr).2.1, (hobj.heap _ _ hr').2.1]
  decide

end TailBench
