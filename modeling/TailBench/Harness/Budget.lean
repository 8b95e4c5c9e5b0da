import TailBench.Harness.ClientObjects

set_option autoImplicit false

/-! # The request budget

The loop `send` reads `numReqsSent` without a lock before it starts a request, and
`NetworkedClient::send` compares it again under `sendLock`. Between the two other senders
may use the budget up, so a request can be started and not sent. How many of these there
can be, how many requests are started in all, and what is on the wire.
-/

namespace TailBench

open Lib

/-! ## Requests that are started in vain -/

/-- A sender is past the check of the loop and not yet at the check of `send`. -/
def SenderPc.committed : SenderPc → Nat
  | .start _ | .sendEntry _ | .lockSend _ | .sendLocked _ => 1
  | _ => 0

/-- A sender has a request in its hands. -/
def SenderPc.working (pc : SenderPc) : Nat := if pc.ptr.isSome then 1 else 0

theorem SenderPc.committed_le_one (pc : SenderPc) : pc.committed ≤ 1 := by
  cases pc <;> simp [SenderPc.committed]

theorem SenderPc.working_le_one (pc : SenderPc) : pc.working ≤ 1 := by
  unfold SenderPc.working
  split <;> omega

/-- A sender with a request is before the check of `send`, or in the transfer. -/
theorem SenderPc.working_le (pc : SenderPc) :
    pc.working + pc.uncounted ≤ pc.committed + pc.spending ∧ pc.working + pc.uncounted ≤ 1 := by
  have hle := pc.working_le_one
  cases pc with
  | start pc => exact ⟨hle, hle⟩
  | _ => simp [SenderPc.working, SenderPc.ptr, SenderPc.committed, SenderPc.spending,
      SenderPc.uncounted]

/-- What a step of a sender does to these numbers. -/
inductive Skipping (cfg : Config) (d d' : NetData) (pc pc' : SenderPc) : Prop
  | keep (hn : d'.obj.numReqsSent = d.obj.numReqsSent) (hk : d'.skipped = d.skipped)
      (hc : pc'.committed ≤ pc.committed)
  | begin (hb : d.obj.numReqsSent < cfg.budget)
      (hn : d'.obj.numReqsSent = d.obj.numReqsSent) (hk : d'.skipped = d.skipped)
  | skip (p : Nat) (hb : d.obj.numReqsSent = cfg.budget)
      (hn : d'.obj.numReqsSent = d.obj.numReqsSent) (hk : d'.skipped = d.skipped ++ [p])
      (hc : pc.committed = 1) (hc' : pc'.committed = 0)
  | count (hn : d'.obj.numReqsSent = d.obj.numReqsSent + 1) (hk : d'.skipped = d.skipped)
      (hs : pc.spending = 1) (hc : pc'.committed = 0)

theorem SenderMove.skipping {cfg : Config} {d d' : NetData} {pc pc' : SenderPc} {inp : Input}
    {op : LockOp Mutex} (h : SenderMove cfg d pc inp d' pc' op) :
    Skipping cfg d d' pc pc' := by
  cases h with
  | begin hb => exact .begin hb rfl rfl
  | start he hfits hholds => exact .keep he.numReqsSent rfl le_rfl
  | startReturn hr => cases hr <;> exact .keep rfl rfl le_rfl
  | @skip p r ns hh hb => exact .skip p hb rfl rfl rfl rfl
  | count => exact .count rfl rfl rfl rfl
  | _ => exact .keep rfl rfl (by simp [SenderPc.committed])

/-- The total after a step of a sender. -/
theorem Placement.total {d d' : NetData} {pc pc' : SenderPc} (h : Placement d d' pc pc') :
    d'.obj.allocated + pc.working + d.settled.length
      = d.obj.allocated + pc'.working + d'.settled.length := by
  cases h with
  | keep hp ha hs =>
      rw [ha, hs]
      simp only [SenderPc.working, hp]
  | alloc hp hp' ha hs =>
      rw [ha, hs]
      simp only [SenderPc.working, hp, hp', Option.isSome_none, Option.isSome_some]
      simp
  | settle p hp hp' ha hs =>
      have hlen := hs.length_eq
      rw [List.length_cons] at hlen
      rw [ha, hlen]
      simp only [SenderPc.working, hp, hp', Option.isSome_none, Option.isSome_some]
      simp
      omega

namespace NetClient

variable {nS nR : Nat}

/-- Requests are skipped only once the budget is spent, and then by fewer threads than
there are. -/
structure Skips (cfg : Config) (s : NetClient nS nR) : Prop where
  before : s.data.obj.numReqsSent.toNat < cfg.budget.toNat → s.data.skipped = []
  after : s.data.obj.numReqsSent.toNat = cfg.budget.toNat →
    s.data.skipped.length + (∑ i, (s.senders i).committed) + 1 ≤ nS
  total : s.data.obj.allocated = s.data.settled.length + ∑ i, (s.senders i).working

/-- One sender is in a transfer: the others are all that can still skip. -/
theorem sum_committed_lt {s : NetClient nS nR} {i : Fin nS}
    (hi : (s.senders i).spending = 1) : (∑ k, (s.senders k).committed) + 1 ≤ nS := by
  have hci : (s.senders i).committed = 0 := by
    cases hpc : s.senders i <;> simp_all [SenderPc.spending, SenderPc.committed]
  have hcard : (Finset.univ.erase i).card + 1 = nS := by
    rw [Finset.card_erase_add_one (Finset.mem_univ i), Finset.card_univ, Fintype.card_fin]
  have hsum : ∑ k, (s.senders k).committed ≤ (Finset.univ.erase i).card := by
    rw [← Finset.add_sum_erase _ _ (Finset.mem_univ i), hci, Nat.zero_add]
    calc ∑ k ∈ Finset.univ.erase i, (s.senders k).committed
        ≤ ∑ _k ∈ Finset.univ.erase i, 1 :=
          Finset.sum_le_sum fun k _ => (s.senders k).committed_le_one
      _ = (Finset.univ.erase i).card := by simp
  omega

theorem Skips.afterSender {cfg : Config} {s : NetClient nS nR} (h : s.Skips cfg)
    (hc : s.Counts cfg) {i : Fin nS} {d : NetData} {locks : Mutex → Option (Tid nS nR)}
    {pc : SenderPc} {inp : Input} {op : LockOp Mutex}
    (hm : SenderMove cfg s.data (s.senders i) inp d pc op) :
    (s.afterSender i d locks pc).Skips cfg := by
  have hcomm := sum_update SenderPc.committed s.senders i pc
  have hwork := sum_update SenderPc.working s.senders i pc
  have hroom := hc.room
  have htotal : d.obj.allocated = d.settled.length
      + ∑ k, (Function.update s.senders i pc k).working := by
    have hp := hm.placement.total
    have ht := h.total
    omega
  suffices hgoal : (d.obj.numReqsSent.toNat < cfg.budget.toNat → d.skipped = []) ∧
      (d.obj.numReqsSent.toNat = cfg.budget.toNat →
        d.skipped.length + (∑ k, (Function.update s.senders i pc k).committed) + 1 ≤ nS) from
    ⟨hgoal.1, hgoal.2, htotal⟩
  cases hm.skipping with
  | keep hn hk hle =>
      rw [hn, hk]
      refine ⟨h.before, fun heq => ?_⟩
      have hold := h.after heq
      omega
  | begin hb hn hk =>
      rw [UInt64.lt_iff_toNat_lt] at hb
      rw [hn, hk]
      exact ⟨h.before, fun heq => by omega⟩
  | skip p hb hn hk hcom hcom' =>
      have heq : s.data.obj.numReqsSent.toNat = cfg.budget.toNat := by rw [hb]
      have hold := h.after heq
      rw [hn, hk, List.length_append, List.length_singleton]
      exact ⟨fun hlt => by omega, fun _ => by omega⟩
  | count hn hk hs hcom =>
      -- the count that spends the budget: nothing was skipped before
      have hsp : 1 ≤ ∑ k, (s.senders k).spending := by
        rw [← hs]
        exact le_sum SenderPc.spending s.senders i
      have hold := h.before (by omega)
      have hlt := sum_committed_lt hs
      rw [hk, hold]
      refine ⟨fun _ => rfl, fun _ => ?_⟩
      have hci : (s.senders i).committed = 0 := by
        cases hpc : s.senders i <;> simp_all [SenderPc.spending, SenderPc.committed]
      simp only [List.length_nil]
      omega

theorem Skips.afterReceiver {cfg : Config} {s : NetClient nS nR} (h : s.Skips cfg)
    {j : Fin nR} {d : NetData} {locks : Mutex → Option (Tid nS nR)} {pc : ReceiverPc}
    {inp : Input} {op : LockOp Mutex}
    (hm : ReceiverMove cfg s.data (s.receivers j) inp d pc op) :
    (s.afterReceiver j d locks pc).Skips cfg := by
  have hf := hm.frame
  have hsettled : d.settled = s.data.settled := by
    simp only [NetData.settled, hf.sent, hf.failed, hf.skipped]
  have hobj : d.obj.numReqsSent = s.data.obj.numReqsSent ∧
      d.obj.allocated = s.data.obj.allocated := by
    obtain heq | ⟨resp, p, req, curNs, laterNs, ex, -, -, -, he⟩ := hm.obj
    · rw [heq]
      exact ⟨rfl, rfl⟩
    · exact ⟨by simp [he.same.numReqsSent], by simp [he.same.allocated]⟩
  suffices hgoal : (d.obj.numReqsSent.toNat < cfg.budget.toNat → d.skipped = []) ∧
      (d.obj.numReqsSent.toNat = cfg.budget.toNat →
        d.skipped.length + (∑ i, (s.senders i).committed) + 1 ≤ nS) ∧
      d.obj.allocated = d.settled.length + ∑ i, (s.senders i).working from
    ⟨hgoal.1, hgoal.2.1, hgoal.2.2⟩
  rw [hobj.1, hobj.2, hf.skipped, hsettled]
  exact ⟨h.before, h.after, h.total⟩

theorem Move.skips {cfg : Config} {s s' : NetClient nS nR} {inp : Input}
    (hm : Move cfg s inp s') (hc : s.Counts cfg) (h : s.Skips cfg) : s'.Skips cfg := by
  cases hm with
  | sender i hrun hm hop => exact h.afterSender hc hm
  | receiver j hrun hm hop => exact h.afterReceiver hm

/-- **How many requests are started in all.** -/
theorem Skips.allocated_le {cfg : Config} {s : NetClient nS nR} (h : s.Skips cfg)
    (hc : s.Counts cfg) :
    s.data.obj.allocated + 1 ≤ cfg.budget.toNat + nS := by
  have hsettled : s.data.settled.length = s.data.transfers + s.data.skipped.length := by
    simp only [NetData.settled, NetData.transfers, List.length_append, List.length_map]
  have hcounted := hc.counted
  have hroom := hc.room
  have htotal := h.total
  have hadd := Finset.sum_add_distrib (f := fun i => (s.senders i).working)
    (g := fun i => (s.senders i).uncounted) (s := Finset.univ)
  have hadd' := Finset.sum_add_distrib (f := fun i => (s.senders i).committed)
    (g := fun i => (s.senders i).spending) (s := Finset.univ)
  have hle : ∑ i, ((s.senders i).working + (s.senders i).uncounted)
      ≤ ∑ i, ((s.senders i).committed + (s.senders i).spending) :=
    Finset.sum_le_sum fun i _ => (s.senders i).working_le.1
  -- a sender has at most one request that is not settled
  have hle' : ∑ i, ((s.senders i).working + (s.senders i).uncounted) ≤ nS := by
    calc ∑ i, ((s.senders i).working + (s.senders i).uncounted)
        ≤ ∑ _i : Fin nS, 1 := Finset.sum_le_sum fun i _ => (s.senders i).working_le.2
      _ = nS := by simp
  by_cases hlt : s.data.obj.numReqsSent.toNat < cfg.budget.toNat
  · have hnil := h.before hlt
    rw [hnil, List.length_nil] at hsettled
    omega
  · have hafter := h.after (by omega)
    omega

end NetClient

/-! ## What is on the wire -/

/-- The frames of the requests that were sent. -/
def NetData.frames (d : NetData) : Bytes := (d.sent.map fun x => x.2.frame).flatten

namespace NetClient

variable {nS nR : Nat}

/-- As long as no transfer has failed, the wire holds whole frames, and the first bytes of
the one that is being sent. -/
structure WireOk (s : NetClient nS nR) : Prop where
  sending : s.data.failed = [] → ∀ i p req rest, s.senders i = .sending p req rest →
    s.data.wire ++ rest = s.data.frames ++ req.frame
  idle : s.data.failed = [] → (∀ i p req rest, s.senders i ≠ .sending p req rest) →
    s.data.wire = s.data.frames

/-- A step that does not touch the wire. -/
theorem WireOk.keep {s : NetClient nS nR} (h : s.WireOk) {i : Fin nS} {d : NetData}
    {locks : Mutex → Option (Tid nS nR)} {pc : SenderPc} (hw : d.wire = s.data.wire)
    (hs : d.sent = s.data.sent) (hf : d.failed = s.data.failed)
    (hpc : ∀ p req rest, pc = .sending p req rest ↔ s.senders i = .sending p req rest) :
    (s.afterSender i d locks pc).WireOk := by
  have hiff : ∀ k p req rest, Function.update s.senders i pc k = .sending p req rest ↔
      s.senders k = .sending p req rest := by
    intro k p req rest
    by_cases hki : k = i
    · subst hki; simpa using hpc p req rest
    · simp [hki]
  have hframes : d.frames = s.data.frames := by simp only [NetData.frames, hs]
  constructor
  · intro hfail k p req rest hk
    show d.wire ++ rest = d.frames ++ req.frame
    rw [hw, hframes]
    exact h.sending (by rw [← hf]; exact hfail) k p req rest ((hiff k p req rest).mp hk)
  · intro hfail hnone
    show d.wire = d.frames
    rw [hw, hframes]
    exact h.idle (by rw [← hf]; exact hfail) fun k p req rest hk =>
      hnone k p req rest ((hiff k p req rest).mpr hk)

/-- While a sender holds `sendLock` no other one is in a transfer. -/
theorem not_sending_of_lock {s : NetClient nS nR} (ho : Owned s.locks s.held) {i k : Fin nS}
    (hi : (s.senders i).holds .sendLock) (hki : k ≠ i) {p : Nat} {req : Request}
    {rest : Bytes} : s.senders k ≠ .sending p req rest := by
  intro hk
  have hk' : s.held (.sender k) .sendLock := by
    show (s.senders k).holds .sendLock
    rw [hk]
    rfl
  have heq := ho.unique hk' (show s.held (.sender i) .sendLock from hi)
  exact hki (by simpa using heq)

theorem WireOk.afterSender {cfg : Config} {s : NetClient nS nR} (h : s.WireOk)
    (ho : Owned s.locks s.held) {i : Fin nS} {d : NetData}
    {locks : Mutex → Option (Tid nS nR)} {pc : SenderPc} {inp : Input} {op : LockOp Mutex}
    (hm : SenderMove cfg s.data (s.senders i) inp d pc op) :
    (s.afterSender i d locks pc).WireOk := by
  generalize hpc₀ : s.senders i = pc₀ at hm
  -- under `sendLock` nobody else is in `sendfull`
  have hlock : pc₀.holds .sendLock → ∀ k p req rest, k ≠ i →
      s.senders k ≠ .sending p req rest := fun hl k p req rest hki =>
    not_sending_of_lock ho (by rw [hpc₀]; exact hl) hki
  cases hm with
  | @send p r ns hh hb =>
      constructor
      · intro hfail k q req rest hk
        by_cases hki : k = i
        · subst hki
          obtain ⟨rfl, rfl, rfl⟩ : p = q ∧ _ = req ∧ _ = rest := by
            simpa [NetClient.afterSender] using hk
          have hidle := h.idle hfail fun k' q' req' rest' => by
            by_cases hk' : k' = k
            · subst hk'; rw [hpc₀]; simp
            · exact hlock rfl k' q' req' rest' hk'
          show s.data.wire ++ _ = s.data.frames ++ _
          rw [hidle]
        · exact absurd (by simpa [NetClient.afterSender, hki] using hk) (hlock rfl k q req rest hki)
      · intro hfail hnone
        exact absurd (Function.update_self i _ s.senders) (hnone i p _ _)
  | @write p req rest k hk hlt =>
      constructor
      · intro hfail k' q req' rest' hk'
        by_cases hki : k' = i
        · subst hki
          obtain ⟨rfl, rfl, rfl⟩ : p = q ∧ req = req' ∧ _ = rest' := by
            simpa [NetClient.afterSender] using hk'
          have hold := h.sending hfail k' p req rest hpc₀
          show (s.data.wire ++ rest.take k) ++ rest.drop k = s.data.frames ++ req.frame
          rw [List.append_assoc, List.take_append_drop, hold]
        · exact absurd (by simpa [NetClient.afterSender, hki] using hk')
            (hlock rfl k' q req' rest' hki)
      · intro hfail hnone
        exact absurd (Function.update_self i _ s.senders) (hnone i p req (rest.drop k))
  | @writeLast p req rest hpos =>
      constructor
      · intro hfail k q req' rest' hk
        by_cases hki : k = i
        · subst hki; simp [NetClient.afterSender] at hk
        · exact absurd (by simpa [NetClient.afterSender, hki] using hk)
            (hlock rfl k q req' rest' hki)
      · intro hfail _
        have hold := h.sending hfail i p req rest hpc₀
        show s.data.wire ++ rest = _
        rw [hold]
        simp [NetClient.afterSender, NetData.frames]
  | @writeError p req rest =>
      constructor
      · intro hfail
        simp [NetClient.afterSender] at hfail
      · intro hfail
        simp [NetClient.afterSender] at hfail
  | fault hbad => exact h.keep rfl rfl rfl fun p req rest => by rw [hpc₀]
  | start he hfits hholds => exact h.keep rfl rfl rfl fun p req rest => by simp [hpc₀]
  | startReturn hr => exact h.keep rfl rfl rfl fun p req rest => by simp [hpc₀]
  | _ => exact h.keep rfl rfl rfl fun p req rest => by simp [hpc₀]

theorem WireOk.afterReceiver {cfg : Config} {s : NetClient nS nR} (h : s.WireOk)
    {j : Fin nR} {d : NetData} {locks : Mutex → Option (Tid nS nR)} {pc : ReceiverPc}
    {inp : Input} {op : LockOp Mutex}
    (hm : ReceiverMove cfg s.data (s.receivers j) inp d pc op) :
    (s.afterReceiver j d locks pc).WireOk := by
  have hf := hm.frame
  have hframes : d.frames = s.data.frames := by simp only [NetData.frames, hf.sent]
  constructor
  · show d.failed = [] → ∀ i p req rest, s.senders i = .sending p req rest →
      d.wire ++ rest = d.frames ++ req.frame
    rw [hf.failed, hf.wire, hframes]
    exact h.sending
  · show d.failed = [] → (∀ i p req rest, s.senders i ≠ .sending p req rest) →
      d.wire = d.frames
    rw [hf.failed, hf.wire, hframes]
    exact h.idle

end NetClient

/-! ## Reachable states -/

section Reachable

variable {cfg : Config} {nS nR : Nat} {s : NetClient nS nR}

theorem netClient_skips (hpos : 0 < cfg.budget.toNat)
    (h : (netClient cfg nS nR).Reachable s) : s.Skips cfg := by
  refine Machine.Reachable.invariant ?_ ?_ h
  · rintro s rfl
    refine ⟨fun _ => rfl, fun heq => ?_, ?_⟩
    · simp [NetClient.start, Client.new] at heq
      omega
    · simp [NetClient.start, Client.new, NetData.settled, SenderPc.working, SenderPc.ptr]
  · intro s a s' hr hs hn
    exact (NetClient.next_move hn).skips (netClient_counts hr) hs

/-- A sender leaves its loop only when the budget is spent. -/
theorem netClient_exited (h : (netClient cfg nS nR).Reachable s) (i : Fin nS)
    (hi : s.senders i = .exited) : s.data.obj.numReqsSent.toNat = cfg.budget.toNat := by
  -- one inequality is an invariant, the other is the bound on the counter
  suffices hinv : ∀ i, s.senders i = .exited →
      cfg.budget.toNat ≤ s.data.obj.numReqsSent.toNat by
    have hroom := (netClient_counts h).room
    have hge := hinv i hi
    omega
  refine Machine.Reachable.invariant (P := fun s => ∀ i, s.senders i = .exited →
    cfg.budget.toNat ≤ s.data.obj.numReqsSent.toNat) ?_ ?_ h
  · rintro s rfl i hi
    simp [NetClient.start] at hi
  · intro s a s' hr hs hn
    have hmove := NetClient.next_move hn
    generalize a.inp = inp at hmove
    cases hmove with
    | @receiver j _ d pc op locks hrun hm hop =>
        intro i hi
        have hsent : d.obj.numReqsSent = s.data.obj.numReqsSent := by
          obtain heq | ⟨resp, p, req, curNs, laterNs, ex, -, -, -, he⟩ := hm.obj
          · rw [heq]
          · simp [he.same.numReqsSent]
        show _ ≤ d.obj.numReqsSent.toNat
        rw [hsent]
        exact hs i hi
    | @sender k _ d pc op locks hrun hm hop =>
        intro i hi
        show _ ≤ d.obj.numReqsSent.toNat
        -- the counter does not wrap below the budget
        have hmono : s.data.obj.numReqsSent.toNat ≤ d.obj.numReqsSent.toNat := by
          have hroom := (netClient_counts hr).room
          cases hm.spending with
          | keep hn' hs' hu => rw [hn']
          | commit hb hl hn' hs' hs'' hu hu' ht => rw [hn']
          | count hn' hs' hs'' hu hu' ht =>
              have hsp : 1 ≤ ∑ k, (s.senders k).spending := by
                rw [← hs']
                exact le_sum SenderPc.spending s.senders k
              have hmax := cfg.budget.toNat_lt
              rw [hn', UInt64.toNat_add, UInt64.toNat_one, Nat.mod_eq_of_lt (by omega)]
              omega
        by_cases hik : i = k
        · subst hik
          have hpc : pc = .exited := by simpa [NetClient.afterSender] using hi
          generalize hpc₀ : s.senders i = pc₀ at hm
          cases hm with
          | exit hb => exact UInt64.le_iff_toNat_le.mp hb
          | fault hbad => exact (hs i (by rw [hpc₀, hpc])).trans hmono
          | _ => simp at hpc
        · exact (hs i (by simpa [NetClient.afterSender, hik] using hi)).trans hmono

theorem netClient_wireOk (h : (netClient cfg nS nR).Reachable s) : s.WireOk := by
  refine Machine.Reachable.invariant ?_ ?_ h
  · rintro s rfl
    exact ⟨fun _ i p req rest hi => by simp [NetClient.start] at hi, fun _ _ => rfl⟩
  · intro s a s' hr hs hn
    cases NetClient.next_move hn with
    | sender i hrun hm hop => exact hs.afterSender (netClient_owned hr) hm
    | receiver j hrun hm hop => exact hs.afterReceiver hm

end Reachable

end TailBench
