import TailBench.Harness.Rendezvous

set_option autoImplicit false

/-! # Runs of the start-up

What a whole run of the client does at start-up. Every sender goes through the rendezvous in
at most nine steps (`SenderPc.toGo` counts what is left), a step of one sender takes nothing
away from another, and as long as one sender is on its way some sender on its way can move.
The number of arrivals and departures at the two waits, and of the distributions that are
created, can be read off the state that the run ends in.
-/

namespace TailBench

open Lib

/-! ## The way through the rendezvous -/

/-- How many steps a sender has at most until it is through, when the barrier has opened
`round` times. -/
def SenderPc.toGo (round : Nat) : SenderPc → Nat
  | .top => if round = 0 then 9 else 0
  | .start .enter => if round = 0 then 8 else 0
  | .start (.checkInit _) => if round = 0 then 7 else 0
  | .start (.arrive1 _) => 6
  | .start (.wait1 _ _) => 5
  | .start (.lockInit _) => 4
  | .start (.init _) => 3
  | .start (.arrive2 _) => 2
  | .start (.wait2 _ _) => 1
  | _ => 0

theorem SenderPc.toGo_of_beyond {pc : SenderPc} (h : pc.beyond) (round : Nat) :
    pc.toGo round = 0 := by
  cases pc with
  | start pc => cases pc <;> simp_all [SenderPc.beyond, StartPc.beyond, SenderPc.toGo]
  | _ => simp_all [SenderPc.beyond, SenderPc.toGo]

/-- A blocked thread has as far to go after the opening as before. -/
theorem SenderPc.toGo_of_blocked {pc : SenderPc} {round : Nat} (h : pc.blocked round = 1)
    (round' : Nat) : pc.toGo round' = pc.toGo round := by
  cases pc with
  | start pc =>
      cases pc with
      | wait1 t r => rfl
      | wait2 t r => rfl
      | _ => simp [SenderPc.blocked] at h
  | _ => simp [SenderPc.blocked] at h

/-- Before the second opening every sender that has not left its loop is on its way. -/
theorem SenderPc.toGo_pos {pc : SenderPc} {round : Nat} (ha : pc.allowed round)
    (hr : round ≤ 1) (hne : pc ≠ .exited) : 0 < pc.toGo round := by
  cases pc with
  | top =>
      have h1 : round ≠ 1 := ha
      rw [SenderPc.toGo, if_pos (by omega)]
      decide
  | start pc =>
      cases pc with
      | enter =>
          have h1 : round ≠ 1 := ha
          rw [SenderPc.toGo, if_pos (by omega)]
          decide
      | checkInit t =>
          have h1 : round ≠ 1 := ha
          rw [SenderPc.toGo, if_pos (by omega)]
          decide
      | arrive1 t | wait1 t r | lockInit t | init t | arrive2 t | wait2 t r => simp [SenderPc.toGo]
      | _ =>
          have h2 : round = 2 := ha
          omega
  | exited => exact absurd rfl hne
  | _ =>
      have h2 : round = 2 := ha
      omega

/-- After it, whoever is on its way has only to leave the second wait. -/
theorem SenderPc.last_place {pc : SenderPc} (ha : pc.allowed 2) (hgo : 0 < pc.toGo 2) :
    ∃ t, pc = .start (.wait2 t 1) := by
  cases pc with
  | start pc =>
      cases pc with
      | arrive1 t | lockInit t | init t | arrive2 t => cases ha
      | wait1 t r => exact absurd ha.2 (by decide)
      | wait2 t r =>
          rw [ha.1]
          exact ⟨t, rfl⟩
      | _ => simp [SenderPc.toGo] at hgo
  | _ => simp [SenderPc.toGo] at hgo

/-- One step on the way: `k` steps before it, `k'` after it. A thread that finds the barrier
full does not stop there. -/
inductive Advance : Nat → Nat → Prop
  | through : Advance 0 0
  | next {k : Nat} (hk : k ≤ 8) : Advance (k + 1) k
  | open1 : Advance 6 4
  | open2 : Advance 2 0

theorem Advance.cases_eq {k k' : Nat} (h : Advance k k') :
    (k = 0 ∧ k' = 0) ∨ k = k' + 1 ∨ (k = 6 ∧ k' = 4) ∨ (k = 2 ∧ k' = 0) := by
  cases h <;> omega

namespace NetClient

variable {nS nR : Nat} {cfg : Config} {s : NetClient nS nR} {i : Fin nS} {d : NetData}
  {pc : SenderPc}

/-- What sender `i` has to go. -/
def toGo (s : NetClient nS nR) (i : Fin nS) : Nat := (s.senders i).toGo s.barrier.round

/-- **A step of a sender on its way**, when there is something to send. The others have as
far to go as before. -/
theorem Rendezvous.advance (h : s.Rendezvous cfg) (ho : s.Objects) (hbudget : cfg.budget ≠ 0)
    (hu : SenderUp cfg nS s.data (s.senders i) d pc) :
    Advance (s.toGo i) (pc.toGo d.core.barrier.round) ∧
      ∀ k, k ≠ i → (s.senders k).toGo d.core.barrier.round = s.toGo k := by
  have hplace := h.places i
  have hle := h.round_le
  unfold toGo
  -- an opening changes the round under those that are blocked, which have the same way to go
  have hothers : s.barrier.waiting + 1 = nS → (s.senders i).blocked s.barrier.round = 0 →
      ∀ round' k, k ≠ i → (s.senders k).toGo round' = (s.senders k).toGo s.barrier.round :=
    fun hn hb₀ round' k hk => SenderPc.toGo_of_blocked (h.others_blocked hn hb₀ hk) round'
  generalize s.senders i = pc₀ at hu hplace hothers
  cases hu with
  | begin hb =>
      refine ⟨?_, fun k hk => rfl⟩
      simp only [SenderPc.toGo]
      split
      · exact .next (by decide)
      · exact .through
  | exit hb =>
      refine ⟨?_, fun k hk => rfl⟩
      -- before the first opening nothing was sent, so the budget is not spent
      have hround : s.barrier.round ≠ 0 := by
        intro h0
        rw [(h.staged.idle (by rw [show s.data.core.barrier.round = 0 from h0]; decide)).1] at hb
        exact hbudget (by simpa using hb)
      simp only [SenderPc.toGo, if_neg hround]
      exact .through
  | beyond hb hb' hbar =>
      have hround : s.barrier.round = 2 := (SenderPc.allowed_of_beyond hb _).mp hplace
      refine ⟨?_, fun k hk => by rw [hbar]⟩
      rw [SenderPc.toGo_of_beyond hb, hbar, show s.data.core.barrier.round = 2 from hround]
      rcases hb' with hb' | rfl
      · rw [SenderPc.toGo_of_beyond hb']
        exact .through
      · exact .through
  | @start pc₁ pc' core hs =>
      cases hs with
      | enter ns =>
          refine ⟨?_, fun k hk => rfl⟩
          simp only [SenderPc.toGo]
          split
          · exact .next (by decide)
          · exact .through
      | check hst =>
          refine ⟨?_, fun k hk => rfl⟩
          simp only [SenderPc.toGo, if_pos ((h.init_iff ho hplace).mp hst)]
          exact .next (by decide)
      | skip hst =>
          have hne := fun h0 => hst ((h.init_iff ho hplace).mpr h0)
          refine ⟨?_, fun k hk => rfl⟩
          simp only [SenderPc.toGo, if_neg hne]
          exact .through
      | open1 hn => exact ⟨.open1, hothers hn rfl _⟩
      | open2 hn => exact ⟨.open2, hothers hn rfl _⟩
      | beyond hb hb' hbar =>
          have hb : (SenderPc.start pc₁).beyond := hb
          have hb' : (SenderPc.start pc').beyond := hb'
          refine ⟨?_, fun k hk => by rw [hbar]⟩
          rw [SenderPc.toGo_of_beyond hb, SenderPc.toGo_of_beyond hb']
          exact .through
      | _ => exact ⟨.next (by decide), fun k hk => rfl⟩

/-- When there is nothing to send, a sender leaves its loop at once. -/
theorem Rendezvous.advance_spent (h : s.Rendezvous cfg) (hbudget : cfg.budget = 0)
    (hu : SenderUp cfg nS s.data (s.senders i) d pc) :
    s.senders i = .top ∧ pc = .exited ∧ d = s.data := by
  rcases h.spent hbudget i with hi | hi
  · rw [hi] at hu
    cases hu with
    | begin hb =>
        rw [hbudget] at hb
        exact absurd hb (by simp)
    | exit hb => exact ⟨hi, rfl, rfl⟩
    | beyond hb hb' hbar => cases hb
  · rw [hi] at hu
    cases hu with
    | beyond hb hb' hbar => cases hb

/-! ## Progress -/

theorem next_of_senderStep (hrun : s.data.proc = .running) {inp : Input} {op : LockOp Mutex}
    {locks : Mutex → Option (Tid nS nR)}
    (hstep : senderStep cfg nS s.data (s.senders i) inp = some (d, pc, op))
    (hop : op.apply (.sender i) s.locks = some locks) :
    NetClient.next cfg ⟨.sender i, inp⟩ s = some (s.afterSender i d locks pc) := by
  simp [NetClient.next, hrun, hstep, hop, NetClient.afterSender]

/-- A sender on its way can move, unless it is blocked at the barrier or `lock` is taken. -/
theorem can_move (hrun : s.data.proc = .running) (hgo : 0 < s.toGo i)
    (hb : (s.senders i).blocked s.barrier.round = 0)
    (hl : ∀ t, s.senders i = .start (.lockInit t) → s.locks .lock = none) :
    ∃ inp s', NetClient.next cfg ⟨.sender i, inp⟩ s = some s' := by
  unfold toGo at hgo
  cases hpc : s.senders i with
  | top => exact ⟨.tau, _, next_of_senderStep hrun (by rw [hpc]; rfl) rfl⟩
  | start pc =>
      cases pc with
      | enter => exact ⟨.clock 0, _, next_of_senderStep hrun (by rw [hpc]; rfl) rfl⟩
      | checkInit t => exact ⟨.tau, _, next_of_senderStep hrun (by rw [hpc]; rfl) rfl⟩
      | arrive1 t => exact ⟨.tau, _, next_of_senderStep hrun (by rw [hpc]; rfl) rfl⟩
      | wait1 t r =>
          have hne : s.barrier.round ≠ r := by
            intro heq
            rw [hpc, SenderPc.blocked, if_pos heq.symm] at hb
            cases hb
          have hstep : senderStep cfg nS s.data (s.senders i) .tau
              = some (s.data, .start (.lockInit t), .keep) := by
            rw [hpc]
            simp only [senderStep, startReqStep, if_neg hne]
          exact ⟨.tau, _, next_of_senderStep hrun hstep rfl⟩
      -- the lock is free by assumption
      | lockInit t =>
          have hop : (LockOp.acquire Mutex.lock).apply (.sender i) s.locks
              = some (Function.update s.locks .lock (some (.sender i))) := by
            simp only [LockOp.apply, hl t hpc]
          exact ⟨.tau, _, next_of_senderStep hrun (by rw [hpc]; rfl) hop⟩
      | init t =>
          cases hd : s.data.core.obj.dist with
          | none =>
              have hstep : ∃ d, senderStep cfg nS s.data (s.senders i) (.clock 0)
                  = some (d, .start (.arrive2 t), .release .lock) := by
                rw [hpc]
                simp only [senderStep, startReqStep, hd]
                exact ⟨_, rfl⟩
              rcases hstep with ⟨d, hstep⟩
              exact ⟨.clock 0, _, next_of_senderStep hrun hstep rfl⟩
          | some x =>
              have hstep : senderStep cfg nS s.data (s.senders i) .tau
                  = some (s.data, .start (.arrive2 t), .release .lock) := by
                rw [hpc]
                simp only [senderStep, startReqStep, hd]
              exact ⟨.tau, _, next_of_senderStep hrun hstep rfl⟩
      | arrive2 t => exact ⟨.tau, _, next_of_senderStep hrun (by rw [hpc]; rfl) rfl⟩
      | wait2 t r =>
          have hne : s.barrier.round ≠ r := by
            intro heq
            rw [hpc, SenderPc.blocked, if_pos heq.symm] at hb
            cases hb
          have hstep : senderStep cfg nS s.data (s.senders i) .tau
              = some (s.data, .start (.checkRoi t), .keep) := by
            rw [hpc]
            simp only [senderStep, startReqStep, if_neg hne]
          exact ⟨.tau, _, next_of_senderStep hrun hstep rfl⟩
      | _ => simp [hpc, SenderPc.toGo] at hgo
  | _ => simp [hpc, SenderPc.toGo] at hgo

/-- `finiReq` always ends. -/
theorem receiver_can_move (hrun : s.data.proc = .running) {j : Fin nR} {resp : Response}
    (hj : s.receivers j = .fini resp) :
    ∃ inp s', NetClient.next cfg ⟨.receiver j, inp⟩ s = some s' := by
  refine ⟨.fini 0 0, ?_⟩
  simp only [NetClient.next, hrun, hj, receiverStep, ne_eq, not_true_eq_false, if_false]
  cases s.data.obj.finiReq cfg 0 0 resp with
  | fault f => exact ⟨_, rfl⟩
  | returns c => exact ⟨_, rfl⟩
  | exits c => exact ⟨_, rfl⟩

/-- Between the openings only a thread that creates the distribution, or finds it there,
holds `lock`; or a receiver does. -/
theorem Rendezvous.lock_holder (h : s.Rendezvous cfg) (ho : Owned s.locks s.held)
    (hr : s.barrier.round = 1) {t : Tid nS nR} (ht : s.locks .lock = some t) :
    (∃ k ns, t = .sender k ∧ s.senders k = .start (.init ns)) ∨
      ∃ j resp, t = .receiver j ∧ s.receivers j = .fini resp := by
  -- the places under `lock` are few, and in this round a sender is at only one of them
  have hheld := (ho .lock t).mp ht
  cases t with
  | sender k =>
      have hheld : (s.senders k).holds .lock := hheld
      have hplace := h.places k
      rw [hr] at hplace
      left
      cases hpc : s.senders k with
      | start pc =>
          rw [hpc] at hheld hplace
          cases pc with
          | init ns => exact ⟨k, ns, rfl, hpc⟩
          | rate ns => cases hplace
          | gen ns => cases hplace
          | genEnd p => cases hplace
          | _ => exact absurd hheld (by simp [SenderPc.holds, StartPc.holds])
      | _ => exact absurd (hpc ▸ hheld) (by simp [SenderPc.holds])
  | receiver j =>
      have hheld : (s.receivers j).holds .lock := hheld
      right
      cases hpc : s.receivers j with
      | fini resp => exact ⟨j, resp, rfl, hpc⟩
      | _ => exact absurd (hpc ▸ hheld) (by simp [ReceiverPc.holds])

end NetClient

section Progress

variable {cfg : Config} {nS nR : Nat} {s : NetClient nS nR}

/-- **Nobody is stuck in the rendezvous.** As long as a sender is on its way, a sender on
its way can move, or a receiver that holds `lock` can. -/
theorem netClient_progress (hr : (netClient cfg nS nR).Reachable s)
    (hrun : s.data.proc = .running) {i : Fin nS} (hgo : 0 < s.toGo i) :
    (∃ k inp s', 0 < s.toGo k ∧ NetClient.next cfg ⟨.sender k, inp⟩ s = some s') ∨
      ∃ j inp s', s.locks .lock = some (.receiver j) ∧
        NetClient.next cfg ⟨.receiver j, inp⟩ s = some s' := by
  have h := netClient_rendezvous hr
  have hle := h.round_le
  -- outside the last stage some sender is not blocked
  have hroom := h.room i.pos
  rw [h.waiting] at hroom
  rcases exists_ne_one_of_sum_lt hroom with ⟨k, hk⟩
  have hb : (s.senders k).blocked s.barrier.round = 0 := by
    have hle1 := SenderPc.blocked_le_one s.barrier.round (s.senders k)
    omega
  have hmove : ∀ k, 0 < s.toGo k → (s.senders k).blocked s.barrier.round = 0 →
      (∀ t, s.senders k = .start (.lockInit t) → s.locks .lock = none) →
      ∃ k inp s', 0 < s.toGo k ∧ NetClient.next cfg ⟨.sender k, inp⟩ s = some s' := by
    intro k hgo hb hl
    rcases NetClient.can_move hrun hgo hb hl with ⟨inp, s', hn⟩
    exact ⟨k, inp, s', hgo, hn⟩
  have hplace := h.places k
  rcases (show s.barrier.round = 0 ∨ s.barrier.round = 1 ∨ s.barrier.round = 2 by omega) with
    h0 | h1 | h2
  · by_cases hex : s.senders k = .exited
    · -- nothing to send: sender `i` is at the top of its loop
      have hbudget : cfg.budget = 0 := by
        have hsent := netClient_exited hr k hex
        rw [(h.staged.idle (by rw [show s.data.core.barrier.round = 0 from h0]; decide)).1] at hsent
        exact UInt64.toNat_inj.mp hsent.symm
      rcases h.spent hbudget i with hi | hi
      · exact .inl (hmove i hgo (by rw [hi]; rfl) fun t ht => by rw [hi] at ht; cases ht)
      · rw [NetClient.toGo, hi] at hgo
        cases hgo
    · refine .inl (hmove k (SenderPc.toGo_pos hplace (by omega) hex) hb fun t ht => ?_)
      rw [ht] at hplace
      exact absurd (h0.symm.trans hplace) (by decide)
  · have hex : s.senders k ≠ .exited := by
      intro hex
      rw [hex] at hplace
      exact hplace h1
    by_cases hfree : s.locks .lock = none
    · exact .inl (hmove k (SenderPc.toGo_pos hplace (by omega) hex) hb fun t _ => hfree)
    · rcases Option.ne_none_iff_exists'.mp hfree with ⟨t, ht⟩
      rcases h.lock_holder (netClient_owned hr) h1 ht with ⟨k', ns, rfl, hk'⟩ | ⟨j, resp, rfl, hj⟩
      · refine .inl (hmove k' (by rw [NetClient.toGo, hk']; exact Nat.succ_pos 2)
          (by rw [hk']; rfl) ?_)
        intro t ht
        rw [hk'] at ht
        cases ht
      · rcases NetClient.receiver_can_move hrun hj with ⟨inp, s', hn⟩
        exact .inr ⟨j, inp, s', ht, hn⟩
  · have hgo₂ := hgo
    rw [NetClient.toGo, h2] at hgo₂
    rcases SenderPc.last_place (h2 ▸ h.places i) hgo₂ with ⟨t, hi⟩
    refine .inl (hmove i hgo (by rw [hi, h2]; rfl) fun t ht => ?_)
    rw [hi] at ht
    cases ht

end Progress

/-! ## Events -/

/-- A sender is about to call `pthread_barrier_wait`, for the first or the `second` time. -/
def SenderPc.arriving (second : Bool) : SenderPc → Bool
  | .start (.arrive1 _) => !second
  | .start (.arrive2 _) => second
  | _ => false

/-- A sender is in that call, or about to make it. -/
def SenderPc.atBarrier (second : Bool) : SenderPc → Bool
  | .start (.arrive1 _) | .start (.wait1 _ _) => !second
  | .start (.arrive2 _) | .start (.wait2 _ _) => second
  | _ => false

namespace NetClient

variable {nS nR : Nat}

/-- Sender `i` arrives at one of the two waits. -/
def arrives (second : Bool) (i : Fin nS) (s : NetClient nS nR) (a : ClientAction nS nR)
    (_ : NetClient nS nR) : Bool :=
  decide (a.tid = .sender i) && (s.senders i).arriving second

/-- One of the two waits of sender `i` returns. -/
def passes (second : Bool) (i : Fin nS) (s : NetClient nS nR) (a : ClientAction nS nR)
    (s' : NetClient nS nR) : Bool :=
  decide (a.tid = .sender i) && (s.senders i).atBarrier second &&
    !(s'.senders i).atBarrier second

/-- A thread creates a distribution, ends `INIT`, and destroys and initialises the barrier. -/
def creates (s : NetClient nS nR) (a : ClientAction nS nR) (_ : NetClient nS nR) : Bool :=
  match a.tid with
  | .sender i =>
      match s.senders i with
      | .start (.init _) => s.data.obj.dist.isNone
      | _ => false
  | .receiver _ => false

/-- `INIT` ends. -/
def warmsUp (s : NetClient nS nR) (_ : ClientAction nS nR) (s' : NetClient nS nR) : Bool :=
  decide (s.data.obj.status = .INIT) && decide (s'.data.obj.status = .WARMUP)

/-- A sender that is on its way through the rendezvous moves. -/
def advances (s : NetClient nS nR) (a : ClientAction nS nR) (_ : NetClient nS nR) : Bool :=
  match a.tid with
  | .sender i => decide (0 < s.toGo i)
  | .receiver _ => false

end NetClient

/-- What the place of a sender says about how far it has to go. -/
theorem SenderPc.toGo_places (pc : SenderPc) (round : Nat) :
    (pc.arriving false = true ↔ pc.toGo round = 6) ∧
    (pc.arriving true = true ↔ pc.toGo round = 2) ∧
    (pc.atBarrier false = true ↔ pc.toGo round = 6 ∨ pc.toGo round = 5) ∧
    (pc.atBarrier true = true ↔ pc.toGo round = 2 ∨ pc.toGo round = 1) := by
  cases pc with
  | start pc =>
      cases pc <;> simp only [SenderPc.arriving, SenderPc.atBarrier, SenderPc.toGo] <;>
        (try split) <;> simp
  | top =>
      simp only [SenderPc.arriving, SenderPc.atBarrier, SenderPc.toGo]
      split <;> simp
  | _ => simp [SenderPc.arriving, SenderPc.atBarrier, SenderPc.toGo]

section Counts

variable {cfg : Config} {nS nR : Nat} {s s' : NetClient nS nR} {a : ClientAction nS nR}

/-- **A step and the ways of the senders**, when there is something to send. -/
theorem netClient_advance (hr : (netClient cfg nS nR).Reachable s) (hbudget : cfg.budget ≠ 0)
    (hn : NetClient.next cfg a s = some s') (i : Fin nS) :
    (a.tid = .sender i ∧ Advance (s.toGo i) (s'.toGo i)) ∨
      (a.tid ≠ .sender i ∧ s'.toGo i = s.toGo i) := by
  have h := netClient_rendezvous hr
  rcases NetClient.next_cases hn with ⟨-, ⟨k, d, pc, op, locks, htid, hstep, -, rfl⟩ |
    ⟨j, d, pc, op, locks, htid, hstep, -, rfl⟩⟩
  · have hadv := h.advance (netClient_objects hr) hbudget (senderStep_senderUp hstep)
    by_cases hik : i = k
    · subst hik
      refine .inl ⟨htid, ?_⟩
      simpa [NetClient.toGo] using hadv.1
    · refine .inr ⟨?_, ?_⟩
      · rw [htid]
        simpa using fun e => hik e.symm
      · simpa [NetClient.toGo, hik] using hadv.2 i hik
  · refine .inr ⟨by rw [htid]; simp, ?_⟩
    show (s.senders i).toGo d.core.barrier.round = s.toGo i
    rw [(receiverStep_move hstep).barrier]
    rfl

/-- **Arrivals.** A sender has arrived once at each wait that is behind it. -/
theorem count_arrives (hbudget : cfg.budget ≠ 0) (second : Bool) (i : Fin nS)
    {as : List (ClientAction nS nR)}
    (h : (netClient cfg nS nR).exec as (NetClient.start cfg) = some s) :
    (netClient cfg nS nR).count (NetClient.arrives second i) as (NetClient.start cfg)
      = if s.toGo i ≤ (if second then 1 else 5) then 1 else 0 := by
  have hcount := Machine.count_eq (M := netClient cfg nS nR) (e := NetClient.arrives second i)
    (φ := fun s => if s.toGo i ≤ (if second then 1 else 5) then 1 else 0) ?_ as
    (.init rfl) h
  · have hstart : (NetClient.start cfg : NetClient nS nR).toGo i = 9 := rfl
    rw [hcount, hstart]
    cases second <;> simp
  · intro s a s' hr hn
    rcases netClient_advance hr hbudget hn i with ⟨htid, hadv⟩ | ⟨htid, heq⟩
    -- the potential jumps exactly at the step that arrives: from 6 to 5, or from 2 to 1
    · rcases SenderPc.toGo_places (s.senders i) s.barrier.round with ⟨h6, h2, -, -⟩
      change _ ↔ s.toGo i = 6 at h6
      change _ ↔ s.toGo i = 2 at h2
      have hcases := hadv.cases_eq
      cases second with
      | false =>
          simp only [NetClient.arrives, htid, decide_true, Bool.true_and, h6, Bool.false_eq_true,
            if_false]
          split_ifs <;> omega
      | true =>
          simp only [NetClient.arrives, htid, decide_true, Bool.true_and, h2, if_true]
          split_ifs <;> omega
    · simp [NetClient.arrives, htid, heq]

/-- **Departures.** Each wait that is behind a sender has returned once. -/
theorem count_passes (hbudget : cfg.budget ≠ 0) (second : Bool) (i : Fin nS)
    {as : List (ClientAction nS nR)}
    (h : (netClient cfg nS nR).exec as (NetClient.start cfg) = some s) :
    (netClient cfg nS nR).count (NetClient.passes second i) as (NetClient.start cfg)
      = if s.toGo i ≤ (if second then 0 else 4) then 1 else 0 := by
  have hcount := Machine.count_eq (M := netClient cfg nS nR) (e := NetClient.passes second i)
    (φ := fun s => if s.toGo i ≤ (if second then 0 else 4) then 1 else 0) ?_ as
    (.init rfl) h
  · have hstart : (NetClient.start cfg : NetClient nS nR).toGo i = 9 := rfl
    rw [hcount, hstart]
    cases second <;> simp
  · intro s a s' hr hn
    rcases netClient_advance hr hbudget hn i with ⟨htid, hadv⟩ | ⟨htid, heq⟩
    -- a wait returns when the way to go falls below 5, or to 0
    · rcases SenderPc.toGo_places (s.senders i) s.barrier.round with ⟨-, -, h5, h1⟩
      rcases SenderPc.toGo_places (s'.senders i) s'.barrier.round with ⟨-, -, h5', h1'⟩
      change _ ↔ s.toGo i = 6 ∨ s.toGo i = 5 at h5
      change _ ↔ s.toGo i = 2 ∨ s.toGo i = 1 at h1
      change _ ↔ s'.toGo i = 6 ∨ s'.toGo i = 5 at h5'
      change _ ↔ s'.toGo i = 2 ∨ s'.toGo i = 1 at h1'
      have hcases := hadv.cases_eq
      cases second with
      | false =>
          simp only [NetClient.passes, htid, decide_true, Bool.true_and, Bool.and_eq_true,
            Bool.not_eq_true', ← Bool.not_eq_true, h5, h5', Bool.false_eq_true, if_false]
          split_ifs <;> omega
      | true =>
          simp only [NetClient.passes, htid, decide_true, Bool.true_and, Bool.and_eq_true,
            Bool.not_eq_true', ← Bool.not_eq_true, h1, h1', if_true]
          split_ifs <;> omega
    · simp [NetClient.passes, htid, heq]

theorem creates_iff : s.creates a s' = true ↔
    ∃ i t, a.tid = .sender i ∧ s.senders i = .start (.init t) ∧ s.data.obj.dist = none := by
  unfold NetClient.creates
  split
  · next i htid =>
      split
      · next t hi =>
          rw [Option.isNone_iff_eq_none]
          constructor
          · exact fun hd => ⟨i, t, htid, hi, hd⟩
          · rintro ⟨-, -, -, -, hd⟩
            exact hd
      · next hi =>
          constructor
          · exact fun hc => absurd hc Bool.false_ne_true
          · rintro ⟨k, t, hk, hkt, -⟩
            obtain rfl : i = k := by simpa using htid.symm.trans hk
            exact absurd hkt (hi t)
  · next j htid =>
      constructor
      · exact fun hc => absurd hc Bool.false_ne_true
      · rintro ⟨k, t, hk, -, -⟩
        rw [htid] at hk
        cases hk

/-- **The step that creates the distribution.** Nobody waits at the barrier. -/
theorem netClient_creates (hr : (netClient cfg nS nR).Reachable s)
    (hn : NetClient.next cfg a s = some s') (hc : s.creates a s' = true) :
    s.data.obj.dist = none ∧ s'.data.obj.dist ≠ none ∧ s'.data.obj.status = .WARMUP ∧
      s.barrier.waiting = 0 ∧ ∀ k, (s.senders k).blocked s.barrier.round = 0 := by
  have h := netClient_rendezvous hr
  rcases creates_iff.mp hc with ⟨i, t, htid, hi, hd⟩
  have hround : s.barrier.round = 1 := (hi ▸ h.places i : (SenderPc.start (.init t)).allowed _)
  refine ⟨hd, ?_⟩
  rw [← and_assoc]
  refine ⟨?_, h.waiting_eq_zero (netClient_objects hr) hround hd⟩
  -- of the steps from `init`, only the one that finds no distribution is left
  rcases NetClient.next_cases hn with ⟨-, ⟨k, d, pc, op, locks, hk, hstep, -, rfl⟩ |
    ⟨j, d, pc, op, locks, hj, -, -, rfl⟩⟩
  · obtain rfl : i = k := by simpa using htid.symm.trans hk
    show d.obj.dist ≠ none ∧ d.obj.status = .WARMUP
    have hu := senderStep_senderUp hstep
    rw [hi] at hu
    cases hu with
    | start hs =>
        cases hs with
        | create ns hd' =>
            have hd : s.data.core.obj.dist = none := hd
            simp [NetData.obj, Client.startReqInit, hd]
        | created hd' => exact absurd hd hd'
        | beyond hb hb' hbar => cases hb
    | beyond hb hb' hbar => cases hb
  · rw [htid] at hj
    cases hj

/-- No other step does. -/
theorem netClient_not_creates (hr : (netClient cfg nS nR).Reachable s)
    (hn : NetClient.next cfg a s = some s') (hc : s.creates a s' ≠ true) :
    s'.data.obj.dist = none ↔ s.data.obj.dist = none := by
  have h := netClient_rendezvous hr
  rcases NetClient.next_cases hn with ⟨-, ⟨i, d, pc, op, locks, htid, hstep, -, rfl⟩ |
    ⟨j, d, pc, op, locks, htid, hstep, -, rfl⟩⟩
  · show d.obj.dist = none ↔ s.data.obj.dist = none
    -- behind the rendezvous it is there already
    have hbeyond : (s.senders i).beyond → (d.obj.dist = none ↔ s.data.obj.dist = none) := by
      intro hb
      have hround := (SenderPc.allowed_of_beyond hb _).mp (h.places i)
      rcases (senderStep_move hstep).dist ((netClient_objects hr).ready i) with
        ⟨-, hiff⟩ | ⟨hnone, -, -⟩
      · exact hiff
      · exact absurd hnone (h.staged.after hround)
    have hu := senderStep_senderUp hstep
    generalize hpc₀ : s.senders i = pc₀ at hu hbeyond
    cases hu with
    | begin hb => exact Iff.rfl
    | exit hb => exact Iff.rfl
    | beyond hb hb' hbar => exact hbeyond hb
    | start hs =>
        cases hs with
        | create ns hd => exact absurd (creates_iff.mpr ⟨i, _, htid, hpc₀, hd⟩) hc
        | beyond hb hb' hbar => exact hbeyond hb
        | _ => exact Iff.rfl
  · show d.obj.dist = none ↔ s.data.obj.dist = none
    rcases (receiverStep_move hstep).obj with heq | ⟨resp, p, req, curNs, laterNs, ex, -, -, -, he⟩
    · rw [heq]
    · rw [he.same.dist, Client.finiRecord_dist]

/-- **One distribution.** -/
theorem count_creates {as : List (ClientAction nS nR)}
    (h : (netClient cfg nS nR).exec as (NetClient.start cfg) = some s) :
    (netClient cfg nS nR).count NetClient.creates as (NetClient.start cfg)
      = if s.data.obj.status = .INIT then 0 else 1 := by
  have hcount := Machine.count_eq (M := netClient cfg nS nR) (e := NetClient.creates)
    (φ := fun s => if s.data.obj.dist = none then 0 else 1) ?_ as (.init rfl) h
  · have hreach : (netClient cfg nS nR).Reachable s := Machine.Reachable.leads (.init rfl) ⟨as, h⟩
    have hstart : (NetClient.start cfg : NetClient nS nR).data.obj.dist = none := rfl
    rw [if_pos hstart, Nat.zero_add] at hcount
    rw [← hcount]
    simp only [(netClient_objects hreach).status]
  · intro s a s' hr hn
    by_cases hc : s.creates a s' = true
    · rcases netClient_creates hr hn hc with ⟨hd, hd', -⟩
      rw [if_neg hd', if_pos hd, if_pos hc]
    · simp only [netClient_not_creates hr hn hc, if_neg hc, Nat.add_zero]

/-- **`INIT` ends once**, in `WARMUP`. -/
theorem count_warmsUp {as : List (ClientAction nS nR)}
    (h : (netClient cfg nS nR).exec as (NetClient.start cfg) = some s) :
    (netClient cfg nS nR).count NetClient.warmsUp as (NetClient.start cfg)
      = if s.data.obj.status = .INIT then 0 else 1 := by
  have hcount := Machine.count_eq (M := netClient cfg nS nR) (e := NetClient.warmsUp)
    (φ := fun s => if s.data.obj.status = .INIT then 0 else 1) ?_ as (.init rfl) h
  · have hstart : (NetClient.start cfg : NetClient nS nR).data.obj.status = .INIT := rfl
    rw [if_pos hstart, Nat.zero_add] at hcount
    exact hcount.symm
  · intro s a s' hr hn
    have hst := (netClient_objects hr).status
    have hst' := (netClient_objects (hr.step a hn)).status
    by_cases hc : s.creates a s' = true
    · rcases netClient_creates hr hn hc with ⟨hd, -, hwarm, -⟩
      simp [NetClient.warmsUp, hst.mp hd, hwarm]
    · have hiff : s'.data.obj.status = .INIT ↔ s.data.obj.status = .INIT := by
        rw [← hst, ← hst']
        exact netClient_not_creates hr hn hc
      by_cases hi : s.data.obj.status = .INIT
      · simp [NetClient.warmsUp, hi, hiff.mpr hi]
      · simp [NetClient.warmsUp, hi, hiff]

/-- No step takes a sender back, and its own take it on. -/
theorem netClient_toGo (hr : (netClient cfg nS nR).Reachable s)
    (hn : NetClient.next cfg a s = some s') (i : Fin nS) :
    s'.toGo i ≤ s.toGo i ∧ (a.tid = .sender i → 0 < s.toGo i → s'.toGo i < s.toGo i) := by
  by_cases hbudget : cfg.budget = 0
  · -- there is nothing to send: a sender can only leave its loop
    rcases NetClient.next_cases hn with ⟨-, ⟨k, d, pc, op, locks, htid, hstep, -, rfl⟩ |
      ⟨j, d, pc, op, locks, htid, hstep, -, rfl⟩⟩
    · rcases (netClient_rendezvous hr).advance_spent hbudget (senderStep_senderUp hstep) with
        ⟨-, rfl, rfl⟩
      by_cases hik : i = k
      · subst hik
        simp [NetClient.toGo, SenderPc.toGo]
      · have hne : a.tid ≠ .sender i := by
          rw [htid]
          simpa using fun e => hik e.symm
        simp [NetClient.toGo, hik, hne]
    · have hsame : s.toGo i = (s.senders i).toGo d.core.barrier.round := by
        rw [(receiverStep_move hstep).barrier]
        rfl
      exact ⟨hsame.ge, fun h => absurd h (by rw [htid]; simp)⟩
  · rcases netClient_advance hr hbudget hn i with ⟨-, hadv⟩ | ⟨htid, heq⟩
    · have hcases := hadv.cases_eq
      exact ⟨by omega, fun _ _ => by omega⟩
    · exact ⟨heq.le, fun h => absurd h htid⟩

/-- **The senders are through after at most nine steps each.** -/
theorem count_advances {as : List (ClientAction nS nR)}
    (h : (netClient cfg nS nR).exec as (NetClient.start cfg) = some s) :
    (netClient cfg nS nR).count NetClient.advances as (NetClient.start cfg) + ∑ i, s.toGo i
      ≤ 9 * nS := by
  have hcount := Machine.count_add_le (M := netClient cfg nS nR) (e := NetClient.advances)
    (μ := fun s => ∑ i, s.toGo i) ?_ as (.init rfl) h
  · have hstart : ∑ i, (NetClient.start cfg : NetClient nS nR).toGo i = 9 * nS := by
      simp [NetClient.toGo, NetClient.start, SenderPc.toGo, mul_comm]
    omega
  · intro s a s' hr hn
    have hle : ∑ i, s'.toGo i ≤ ∑ i, s.toGo i :=
      Finset.sum_le_sum fun i _ => (netClient_toGo hr hn i).1
    split
    · next hev =>
        cases htid : a.tid with
        | sender k =>
            have hpos : 0 < s.toGo k := by simpa [NetClient.advances, htid] using hev
            have hlt : ∑ i, s'.toGo i < ∑ i, s.toGo i :=
              Finset.sum_lt_sum (fun i _ => (netClient_toGo hr hn i).1)
                ⟨k, Finset.mem_univ k, (netClient_toGo hr hn k).2 htid hpos⟩
            omega
        | receiver j => simp [NetClient.advances, htid] at hev
    · omega

end Counts

/-- **The rendezvous at start-up**, for every number of senders and every run.

One distribution is created and `INIT` ends once. Where the barrier is destroyed and
initialised again nobody is blocked at it. A thread that generates a request finds that all
have arrived at both waits. While the process runs and a sender is on its way, a sender on
its way can move, or a receiver that holds `lock` can; the senders make at most nine steps
each on the way, and when all are through both waits of each have returned. -/
theorem startup_rendezvous (cfg : Config) (nS nR : Nat) (as : List (ClientAction nS nR))
    (s : NetClient nS nR)
    (h : (netClient cfg nS nR).exec as (NetClient.start cfg) = some s) :
    ((netClient cfg nS nR).count NetClient.creates as (NetClient.start cfg)
        = (if s.data.obj.status = .INIT then 0 else 1) ∧
      (netClient cfg nS nR).count NetClient.warmsUp as (NetClient.start cfg)
        = if s.data.obj.status = .INIT then 0 else 1) ∧
    (∀ a s', NetClient.next cfg a s = some s' → s.creates a s' = true →
      s.barrier.waiting = 0 ∧ ∀ i, (s.senders i).blocked s.barrier.round = 0) ∧
    (∀ i t, s.senders i = .start (.gen t) → s.data.obj.status ≠ .INIT ∧
      ∀ k second,
        (netClient cfg nS nR).count (NetClient.arrives second k) as (NetClient.start cfg) = 1) ∧
    (s.data.proc = .running → ∀ i, 0 < s.toGo i →
      (∃ k inp s', 0 < s.toGo k ∧ NetClient.next cfg ⟨.sender k, inp⟩ s = some s') ∨
        ∃ j inp s', s.locks .lock = some (.receiver j) ∧
          NetClient.next cfg ⟨.receiver j, inp⟩ s = some s') ∧
    (netClient cfg nS nR).count NetClient.advances as (NetClient.start cfg) + (∑ i, s.toGo i)
      ≤ 9 * nS ∧
    (cfg.budget ≠ 0 → (∀ i, s.toGo i = 0) → ∀ i second,
      (netClient cfg nS nR).count (NetClient.passes second i) as (NetClient.start cfg) = 1) := by
  have hr : (netClient cfg nS nR).Reachable s := Machine.Reachable.leads (.init rfl) ⟨as, h⟩
  have hinv := netClient_rendezvous hr
  refine ⟨⟨count_creates h, count_warmsUp h⟩, ?_, ?_, ?_, count_advances h, ?_⟩
  · intro a s' hn hc
    exact (netClient_creates hr hn hc).2.2.2
  · intro i t hi
    have hround : s.barrier.round = 2 := (hi ▸ hinv.places i : (SenderPc.start (.gen t)).allowed _)
    -- somebody generates a request, so there is something to send
    have hbudget : cfg.budget ≠ 0 := by
      intro hzero
      rcases hinv.spent hzero i with htop | hex
      · rw [hi] at htop; cases htop
      · rw [hi] at hex; cases hex
    refine ⟨fun hinit => hinv.staged.after hround ((netClient_objects hr).status.mpr hinit), ?_⟩
    intro k second
    -- after the second opening the others can at most be about to leave the second wait
    have hk : s.toGo k ≤ 1 := by
      by_contra hgt
      have hplace := hinv.places k
      rw [NetClient.toGo, hround] at hgt
      rw [hround] at hplace
      rcases SenderPc.last_place hplace (by omega) with ⟨t, hpc⟩
      rw [hpc] at hgt
      exact hgt le_rfl
    rw [count_arrives hbudget second k h, if_pos]
    cases second with
    | false => exact hk.trans (by decide)
    | true => exact hk
  · intro hrun i hgo
    exact netClient_progress hr hrun hgo
  · intro hbudget hall i second
    rw [count_passes hbudget second i h, hall i, if_pos (Nat.zero_le _)]

/-- Two senders go through the rendezvous: the second to arrive opens the barrier and creates
the distribution, the first opens it again. -/
def twoStart : List (ClientAction 2 1) :=
  let first (inp : Input) : ClientAction 2 1 := ⟨.sender 0, inp⟩
  let second (inp : Input) : ClientAction 2 1 := ⟨.sender 1, inp⟩
  [first .tau, first (.clock 1), first .tau, first .tau,
   second .tau, second (.clock 2), second .tau, second .tau,
   second .tau, second (.clock 3), second .tau,
   first .tau, first .tau, first .tau, first .tau, second .tau]

theorem startup_rendezvous_two :
    (netClient smallConfig 2 1).count NetClient.creates twoStart (NetClient.start smallConfig) = 1 ∧
      ∀ i second, (netClient smallConfig 2 1).count (NetClient.passes second i) twoStart
        (NetClient.start smallConfig) = 1 := by
  have hrun : ((netClient smallConfig 2 1).exec twoStart (NetClient.start smallConfig)).any
      (fun s => decide (s.data.obj.status = .WARMUP ∧ ∀ i, s.toGo i = 0)) = true := by
    decide +kernel
  rw [Option.any_eq_true_iff_get] at hrun
  rcases hrun with ⟨hsome, hend⟩
  rcases of_decide_eq_true hend with ⟨hstatus, hall⟩
  rcases startup_rendezvous smallConfig 2 1 twoStart _ (Option.some_get hsome).symm with
    ⟨⟨hone, -⟩, -, -, -, -, hpass⟩
  refine ⟨?_, hpass (by decide) hall⟩
  rw [hone, hstatus]
  decide

end TailBench
