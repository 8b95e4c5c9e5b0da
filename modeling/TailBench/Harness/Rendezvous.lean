import TailBench.Harness.Budget

set_option autoImplicit false

/-! # The rendezvous at start-up

In its first call of `startReq` every sender waits twice at `barrier`. Between the two waits
the first thread that takes `lock` creates the distribution, ends `INIT`, and destroys and
initialises the barrier again. `status`, which decides whether a thread takes part at all, is
read without the lock.

`barrier.round` tells the three stages apart: before the first opening, between the two, and
after the second. In each stage a sender can only be at some places (`SenderPc.allowed`), and
the number of threads that wait is the number of senders that are blocked. From this follows
everything else: who creates what, that nobody is blocked where the barrier is destroyed,
and that some sender can always go on.
-/

namespace TailBench

open Lib

/-! ## Steps of the start-up -/

/-- A thread inside `startReq` has the rendezvous behind it. -/
def StartPc.beyond : StartPc → Prop
  | .checkRoi _ | .lockRate _ | .rate _ | .lockGen _ | .gen _ | .genEnd _ | .generated _
  | .sleep _ _ _ => True
  | _ => False

/-- The steps inside `startReq`, with what they do to the barrier. -/
inductive StartUp (cfg : Config) (n : Nat) (d : ClientCore) :
    StartPc → ClientCore → StartPc → Prop
  | enter (ns : UInt64) : StartUp cfg n d .enter d (.checkInit ns)
  | check {t : UInt64} (hs : d.obj.status = .INIT) :
      StartUp cfg n d (.checkInit t) d (.arrive1 t)
  | skip {t : UInt64} (hs : d.obj.status ≠ .INIT) :
      StartUp cfg n d (.checkInit t) d (.checkRoi t)
  | arrive1 {t : UInt64} (hn : d.barrier.waiting + 1 ≠ n) :
      StartUp cfg n d (.arrive1 t)
        { d with barrier := { d.barrier with waiting := d.barrier.waiting + 1 } }
        (.wait1 t d.barrier.round)
  | open1 {t : UInt64} (hn : d.barrier.waiting + 1 = n) :
      StartUp cfg n d (.arrive1 t) { d with barrier := ⟨0, d.barrier.round + 1⟩ } (.lockInit t)
  | leave1 {t : UInt64} {round : Nat} (hr : d.barrier.round ≠ round) :
      StartUp cfg n d (.wait1 t round) d (.lockInit t)
  | lock {t : UInt64} : StartUp cfg n d (.lockInit t) d (.init t)
  | create {t : UInt64} (ns : UInt64) (hd : d.obj.dist = none) :
      StartUp cfg n d (.init t) ⟨(d.obj.startReqInit cfg ns).1, d.barrier.reinit⟩ (.arrive2 t)
  | created {t : UInt64} (hd : d.obj.dist ≠ none) : StartUp cfg n d (.init t) d (.arrive2 t)
  | arrive2 {t : UInt64} (hn : d.barrier.waiting + 1 ≠ n) :
      StartUp cfg n d (.arrive2 t)
        { d with barrier := { d.barrier with waiting := d.barrier.waiting + 1 } }
        (.wait2 t d.barrier.round)
  | open2 {t : UInt64} (hn : d.barrier.waiting + 1 = n) :
      StartUp cfg n d (.arrive2 t) { d with barrier := ⟨0, d.barrier.round + 1⟩ } (.checkRoi t)
  | leave2 {t : UInt64} {round : Nat} (hr : d.barrier.round ≠ round) :
      StartUp cfg n d (.wait2 t round) d (.checkRoi t)
  | beyond {d' : ClientCore} {pc pc' : StartPc} (hpc : pc.beyond) (hpc' : pc'.beyond)
      (hb : d'.barrier = d.barrier) : StartUp cfg n d pc d' pc'

/-- The places after the second wait do not touch the barrier. -/
theorem startReqStep_beyond {cfg : Config} {n : Nat} {d d' : ClientCore} {pc pc' : StartPc}
    {inp : Input} {op : LockOp Mutex}
    (h : startReqStep cfg n d pc inp = some (.goes d' pc' op)) (hpc : pc.beyond) :
    pc'.beyond ∧ d'.barrier = d.barrier := by
  unfold startReqStep at h
  split at h
  all_goals try split at h
  all_goals try split at h
  all_goals simp only [Option.some.injEq, StartRes.goes.injEq, reduceCtorEq] at h
  all_goals obtain ⟨rfl, rfl, rfl⟩ := h
  all_goals first | exact hpc.elim | exact ⟨trivial, rfl⟩

theorem startReqStep_startUp {cfg : Config} {n : Nat} {d d' : ClientCore} {pc pc' : StartPc}
    {inp : Input} {op : LockOp Mutex}
    (h : startReqStep cfg n d pc inp = some (.goes d' pc' op)) :
    StartUp cfg n d pc d' pc' := by
  cases pc with
  | enter =>
      cases inp with
      | clock ns =>
          cases h
          exact .enter ns
      | _ => cases h
  | checkInit t =>
      cases inp with
      | tau =>
          cases h
          split
          · next hs => exact .check hs
          · next hs => exact .skip hs
      | _ => cases h
  | arrive1 t =>
      cases inp with
      | tau =>
          simp only [startReqStep, Barrier.arrive] at h
          split at h
          · next hn =>
              cases h
              exact .open1 hn
          · next hn =>
              cases h
              exact .arrive1 hn
      | _ => cases h
  | wait1 t round =>
      cases inp with
      | tau =>
          simp only [startReqStep] at h
          split at h
          · cases h
          · next hr =>
              cases h
              exact .leave1 hr
      | _ => cases h
  | lockInit t =>
      cases inp with
      | tau =>
          cases h
          exact .lock
      | _ => cases h
  | init t =>
      cases inp with
      | clock ns =>
          simp only [startReqStep] at h
          split at h
          · next hd =>
              have hfst : (d.obj.startReqInit cfg ns).2 = true := by
                simp [Client.startReqInit, hd]
              simp only [hfst, if_true] at h
              cases h
              exact .create ns hd
          · cases h
      | tau =>
          simp only [startReqStep] at h
          split at h
          · next hd =>
              cases h
              exact .created (by simp [hd])
          · cases h
      | _ => cases h
  | arrive2 t =>
      cases inp with
      | tau =>
          simp only [startReqStep, Barrier.arrive] at h
          split at h
          · next hn =>
              cases h
              exact .open2 hn
          · next hn =>
              cases h
              exact .arrive2 hn
      | _ => cases h
  | wait2 t round =>
      cases inp with
      | tau =>
          simp only [startReqStep] at h
          split at h
          · cases h
          · next hr =>
              cases h
              exact .leave2 hr
      | _ => cases h
  | _ =>
      rcases startReqStep_beyond h trivial with ⟨hpc', hb⟩
      exact .beyond trivial hpc' hb

theorem StartPc.beyond_of_ptr {pc : StartPc} {p : Nat} (h : pc.ptr = some p) : pc.beyond := by
  cases pc <;> simp_all [StartPc.ptr, StartPc.beyond]

/-- `startReq` returns from a place behind the rendezvous, and leaves the barrier alone. -/
theorem startReqStep_returns_beyond {cfg : Config} {n : Nat} {d d' : ClientCore} {pc : StartPc}
    {inp : Input} {p : Nat} (h : startReqStep cfg n d pc inp = some (.returns d' p)) :
    pc.beyond ∧ d'.barrier = d.barrier := by
  unfold startReqStep at h
  split at h
  all_goals try split at h
  all_goals try split at h
  all_goals simp only [Option.some.injEq, StartRes.returns.injEq, reduceCtorEq] at h
  all_goals obtain ⟨rfl, rfl⟩ := h
  all_goals exact ⟨trivial, rfl⟩

/-- It fails at such a place too. -/
theorem startReqStep_faults_beyond {cfg : Config} {n : Nat} {d : ClientCore} {pc : StartPc}
    {inp : Input} {f : ClientFault} (h : startReqStep cfg n d pc inp = some (.faults f)) :
    pc.beyond := by
  rcases startReqStep_faults h with ⟨-, ⟨t, rfl, -⟩ | ⟨p, hp, -⟩⟩
  · trivial
  · exact StartPc.beyond_of_ptr hp

theorem ReceiverMove.barrier {cfg : Config} {d d' : NetData} {pc pc' : ReceiverPc}
    {inp : Input} {op : LockOp Mutex} (h : ReceiverMove cfg d pc inp d' pc' op) :
    d'.core.barrier = d.core.barrier := by
  cases h <;> rfl

/-- A sender has the rendezvous behind it, and is not at the top of its loop. -/
def SenderPc.beyond : SenderPc → Prop
  | .start pc => pc.beyond
  | .top | .exited => False
  | _ => True

/-- The steps of a sender, with what they do to the barrier. -/
inductive SenderUp (cfg : Config) (n : Nat) (d : NetData) : SenderPc → NetData → SenderPc → Prop
  | begin (hb : d.obj.numReqsSent < cfg.budget) : SenderUp cfg n d .top d (.start .enter)
  | exit (hb : cfg.budget ≤ d.obj.numReqsSent) : SenderUp cfg n d .top d .exited
  | start {pc pc' : StartPc} {core : ClientCore} (hs : StartUp cfg n d.core pc core pc') :
      SenderUp cfg n d (.start pc) { d with core := core } (.start pc')
  | beyond {d' : NetData} {pc pc' : SenderPc} (hpc : pc.beyond) (hpc' : pc'.beyond ∨ pc' = .top)
      (hb : d'.core.barrier = d.core.barrier) : SenderUp cfg n d pc d' pc'

theorem senderStep_senderUp {cfg : Config} {n : Nat} {d d' : NetData} {pc pc' : SenderPc}
    {inp : Input} {op : LockOp Mutex} (h : senderStep cfg n d pc inp = some (d', pc', op)) :
    SenderUp cfg n d pc d' pc' := by
  cases pc with
  | top =>
      cases inp with
      | tau =>
          cases h
          split
          · next hb => exact .exit hb
          · next hb => exact .begin (UInt64.not_le.mp hb)
      | _ => cases h
  | start pc =>
      simp only [senderStep] at h
      split at h
      · cases h
      · next hs =>
          cases h
          exact .start (startReqStep_startUp hs)
      · next hs =>
          cases h
          rcases startReqStep_returns_beyond hs with ⟨hbeyond, hbarrier⟩
          exact .beyond hbeyond (.inl trivial) hbarrier
      · next hs =>
          cases h
          have hbeyond := startReqStep_faults_beyond hs
          exact .beyond hbeyond (.inl hbeyond) rfl
  | exited => cases h
  -- all other places are behind the rendezvous, and `send` does not touch the barrier
  | unlockSend ok =>
      cases senderStep_move h with
      | unlock => exact .beyond trivial (.inr rfl) rfl
      | _ => exact .beyond trivial (.inl trivial) rfl
  | _ => cases senderStep_move h <;> exact .beyond trivial (.inl trivial) rfl

/-! ## Stages -/

/-- Where a sender can be when the barrier has opened `round` times. -/
def SenderPc.allowed (round : Nat) : SenderPc → Prop
  | .top | .exited | .start .enter | .start (.checkInit _) => round ≠ 1
  | .start (.arrive1 _) => round = 0
  | .start (.wait1 _ r) => r = 0 ∧ round ≤ 1
  | .start (.lockInit _) | .start (.init _) | .start (.arrive2 _) => round = 1
  | .start (.wait2 _ r) => r = 1 ∧ 1 ≤ round
  | _ => round = 2

/-- A sender is blocked at the barrier. -/
def SenderPc.blocked (round : Nat) : SenderPc → Nat
  | .start (.wait1 _ r) | .start (.wait2 _ r) => if r = round then 1 else 0
  | _ => 0

theorem SenderPc.blocked_le_one (round : Nat) (pc : SenderPc) : pc.blocked round ≤ 1 := by
  unfold SenderPc.blocked
  split
  · split <;> omega
  · split <;> omega
  · omega

theorem SenderPc.allowed_of_beyond {pc : SenderPc} (h : pc.beyond) (round : Nat) :
    pc.allowed round ↔ round = 2 := by
  cases pc with
  | start pc => cases pc <;> simp_all [SenderPc.beyond, StartPc.beyond, SenderPc.allowed]
  | _ => simp_all [SenderPc.beyond, SenderPc.allowed]

theorem SenderPc.blocked_of_beyond {pc : SenderPc} (h : pc.beyond) (round : Nat) :
    pc.blocked round = 0 := by
  cases pc with
  | start pc => cases pc <;> simp_all [SenderPc.beyond, StartPc.beyond, SenderPc.blocked]
  | _ => rfl

/-- When the barrier opens, a thread that was blocked is where the next stage has it. -/
theorem SenderPc.allowed_succ {pc : SenderPc} {round : Nat} (ha : pc.allowed round)
    (hb : pc.blocked round = 1) (hr : round ≤ 1) :
    pc.allowed (round + 1) ∧ pc.blocked (round + 1) = 0 := by
  cases pc with
  | start pc =>
      cases pc with
      | wait1 t r => simp_all [SenderPc.allowed, SenderPc.blocked]
      | wait2 t r =>
          obtain rfl : round = 1 := le_antisymm hr ha.2
          simp_all [SenderPc.allowed, SenderPc.blocked]
      | _ => simp [SenderPc.blocked] at hb
  | _ => simp [SenderPc.blocked] at hb

/-- What a stage says about the object. -/
structure NetData.Staged (d : NetData) : Prop where
  before : d.core.barrier.round = 0 → d.obj.dist = none
  after : d.core.barrier.round = 2 → d.obj.dist ≠ none
  idle : d.core.barrier.round ≠ 2 → d.obj.numReqsSent = 0 ∧ d.obj.allocated = 0

namespace NetClient

variable {nS nR : Nat}

/-- The barrier. -/
abbrev barrier (s : NetClient nS nR) : Barrier := s.data.core.barrier

/-- **The invariant of the rendezvous.** -/
structure Rendezvous (cfg : Config) (s : NetClient nS nR) : Prop where
  round_le : s.barrier.round ≤ 2
  places : ∀ i, (s.senders i).allowed s.barrier.round
  waiting : s.barrier.waiting = ∑ i, (s.senders i).blocked s.barrier.round
  room : 0 < nS → s.barrier.waiting < nS
  staged : s.data.Staged
  spent : cfg.budget = 0 → ∀ i, s.senders i = .top ∨ s.senders i = .exited

section Steps

variable {cfg : Config} {s : NetClient nS nR} {i : Fin nS} {d : NetData}
  {locks : Mutex → Option (Tid nS nR)} {pc : SenderPc}

/-- A step within a round: the barrier counts the moving thread as its place says. -/
theorem Rendezvous.stays (h : s.Rendezvous cfg) (hround : d.core.barrier.round = s.barrier.round)
    (hwait : d.core.barrier.waiting + (s.senders i).blocked s.barrier.round
      = s.barrier.waiting + pc.blocked s.barrier.round)
    (hroom : 0 < nS → d.core.barrier.waiting < nS) (ha : pc.allowed s.barrier.round)
    (hstaged : d.Staged) (hspent : cfg.budget ≠ 0 ∨ pc = .exited) :
    (s.afterSender i d locks pc).Rendezvous cfg := by
  -- the sum over the places changes by the moving thread alone
  have hsum := sum_update (SenderPc.blocked s.barrier.round) s.senders i pc
  have hcount := h.waiting
  constructor
  · show d.core.barrier.round ≤ 2
    rw [hround]
    exact h.round_le
  · intro k
    show (Function.update s.senders i pc k).allowed d.core.barrier.round
    rw [hround]
    by_cases hk : k = i
    · subst hk; simpa using ha
    · simpa [hk] using h.places k
  · show d.core.barrier.waiting = ∑ k, (Function.update s.senders i pc k).blocked
      d.core.barrier.round
    rw [hround]
    omega
  · exact hroom
  · exact hstaged
  · intro hzero k
    show Function.update s.senders i pc k = _ ∨ Function.update s.senders i pc k = _
    by_cases hk : k = i
    · subst hk
      rw [Function.update_self]
      exact .inr (hspent.resolve_left (not_not.mpr hzero))
    · simpa [hk] using h.spent hzero k

/-- A step that leaves the barrier as it is. -/
theorem Rendezvous.quiet (h : s.Rendezvous cfg) (hbar : d.core.barrier = s.barrier)
    (ha : pc.allowed s.barrier.round)
    (hb : pc.blocked s.barrier.round = (s.senders i).blocked s.barrier.round)
    (hstaged : d.Staged) (hspent : cfg.budget ≠ 0 ∨ pc = .exited) :
    (s.afterSender i d locks pc).Rendezvous cfg :=
  h.stays (by rw [hbar]) (by rw [hbar, hb]) (by rw [hbar]; exact h.room) ha hstaged hspent

/-- A thread arrives and has to wait. -/
theorem Rendezvous.arrives (h : s.Rendezvous cfg)
    (hbar : d.core.barrier = { s.barrier with waiting := s.barrier.waiting + 1 })
    (hn : s.barrier.waiting + 1 ≠ nS) (ha : pc.allowed s.barrier.round)
    (hb : pc.blocked s.barrier.round = 1) (hb₀ : (s.senders i).blocked s.barrier.round = 0)
    (hstaged : d.Staged) (hbudget : cfg.budget ≠ 0) :
    (s.afterSender i d locks pc).Rendezvous cfg := by
  refine h.stays (by rw [hbar]) (by rw [hbar, hb, hb₀]) (fun hpos => ?_) ha hstaged
    (.inl hbudget)
  have hroom := h.room hpos
  rw [hbar]
  show s.barrier.waiting + 1 < nS
  omega

/-- When the last thread arrives, all others are blocked. -/
theorem Rendezvous.others_blocked (h : s.Rendezvous cfg) (hn : s.barrier.waiting + 1 = nS)
    (hb₀ : (s.senders i).blocked s.barrier.round = 0) {k : Fin nS} (hk : k ≠ i) :
    (s.senders k).blocked s.barrier.round = 1 :=
  eq_one_of_sum (w := fun k => (s.senders k).blocked s.barrier.round)
    (fun k => SenderPc.blocked_le_one _ _) hb₀ (by rw [← h.waiting]; exact hn) hk

/-- The last thread arrives: the others are let go, and nobody is in the next round. -/
theorem Rendezvous.opens (h : s.Rendezvous cfg)
    (hbar : d.core.barrier = ⟨0, s.barrier.round + 1⟩)
    (hn : s.barrier.waiting + 1 = nS) (hr : s.barrier.round ≤ 1)
    (ha : pc.allowed (s.barrier.round + 1)) (hb : pc.blocked (s.barrier.round + 1) = 0)
    (hb₀ : (s.senders i).blocked s.barrier.round = 0) (hstaged : d.Staged)
    (hbudget : cfg.budget ≠ 0) : (s.afterSender i d locks pc).Rendezvous cfg := by
  -- the others were all blocked in the old round, so they are allowed in the new one
  have hothers : ∀ k, k ≠ i → (s.senders k).allowed (s.barrier.round + 1) ∧
      (s.senders k).blocked (s.barrier.round + 1) = 0 := by
    intro k hk
    exact SenderPc.allowed_succ (h.places k) (h.others_blocked hn hb₀ hk) hr
  constructor
  · show d.core.barrier.round ≤ 2
    rw [hbar]
    show s.barrier.round + 1 ≤ 2
    omega
  · intro k
    show (Function.update s.senders i pc k).allowed d.core.barrier.round
    rw [hbar]
    by_cases hk : k = i
    · subst hk; simpa using ha
    · simpa [hk] using (hothers k hk).1
  · show d.core.barrier.waiting = ∑ k, (Function.update s.senders i pc k).blocked
      d.core.barrier.round
    rw [hbar]
    refine (Finset.sum_eq_zero fun k _ => ?_).symm
    by_cases hk : k = i
    · subst hk; simpa using hb
    · simpa [hk] using (hothers k hk).2
  · intro hpos
    show d.core.barrier.waiting < nS
    rw [hbar]
    exact hpos
  · exact hstaged
  · intro hzero
    exact absurd hzero hbudget

/-- Between the openings, while the distribution is missing, nobody waits at the barrier. -/
theorem Rendezvous.waiting_eq_zero (h : s.Rendezvous cfg) (ho : s.Objects)
    (hr : s.barrier.round = 1) (hd : s.data.obj.dist = none) :
    s.barrier.waiting = 0 ∧ ∀ k, (s.senders k).blocked s.barrier.round = 0 := by
  have hnone : ∀ k, (s.senders k).blocked s.barrier.round = 0 := by
    intro k
    have hplace := h.places k
    have hready := ho.ready k
    rw [hr] at hplace ⊢
    cases hpc : s.senders k with
    | start pc =>
        rw [hpc] at hplace
        cases pc with
        | wait1 t r =>
            rw [SenderPc.blocked, if_neg]
            rw [hplace.1]
            decide
        | wait2 t r => exact absurd hd (hready _ hpc trivial)
        | _ => rfl
    | _ => rfl
  exact ⟨by rw [h.waiting]; exact Finset.sum_eq_zero fun k _ => hnone k, hnone⟩

/-- The unlocked read of `status` outside the rendezvous tells the first stage from the last. -/
theorem Rendezvous.init_iff (h : s.Rendezvous cfg) (ho : s.Objects)
    (hr : s.barrier.round ≠ 1) : s.data.obj.status = .INIT ↔ s.barrier.round = 0 := by
  rw [← ho.status]
  constructor
  · intro hd
    have hle := h.round_le
    have hne : s.barrier.round ≠ 2 := fun h2 => h.staged.after h2 hd
    omega
  · exact h.staged.before

theorem Rendezvous.afterStart (h : s.Rendezvous cfg) (ho : s.Objects) {pc₀ pc : StartPc}
    {core : ClientCore} (hpc₀ : s.senders i = .start pc₀)
    (hs : StartUp cfg nS s.data.core pc₀ core pc)
    (hstaged : pc₀.beyond → { s.data with core := core }.Staged) :
    (s.afterSender i { s.data with core := core } locks (.start pc)).Rendezvous cfg := by
  -- with nothing to send nobody calls `startReq`
  have hbudget : cfg.budget ≠ 0 := by
    intro hzero
    rcases h.spent hzero i with hi | hi
    · rw [hpc₀] at hi; cases hi
    · rw [hpc₀] at hi; cases hi
  have hplace : (SenderPc.start pc₀).allowed s.barrier.round := hpc₀ ▸ h.places i
  have hblocked : ∀ r, (s.senders i).blocked r = (SenderPc.start pc₀).blocked r := by simp [hpc₀]
  cases hs with
  | enter ns => exact h.quiet rfl hplace (hblocked _).symm h.staged (.inl hbudget)
  | check hst =>
      have hround := (h.init_iff ho hplace).mp hst
      exact h.quiet rfl hround (hblocked _).symm h.staged (.inl hbudget)
  | skip hst =>
      have hne : s.barrier.round ≠ 0 := fun h0 => hst ((h.init_iff ho hplace).mpr h0)
      have hround : s.barrier.round = 2 := by
        have hle := h.round_le
        have hne' : s.barrier.round ≠ 1 := hplace
        omega
      exact h.quiet rfl hround (hblocked _).symm h.staged (.inl hbudget)
  | arrive1 hn =>
      have hround : s.barrier.round = 0 := hplace
      refine h.arrives rfl hn ⟨hround, by omega⟩ ?_ (hblocked _)
        ⟨h.staged.before, h.staged.after, h.staged.idle⟩ hbudget
      simp [SenderPc.blocked]
  | open1 hn =>
      have hround : s.barrier.round = 0 := hplace
      have hidle := h.staged.idle (by rw [hround]; decide)
      refine h.opens rfl hn (by omega) (by rw [hround]; rfl) rfl (hblocked _)
        ⟨fun h0 => ?_, fun h2 => ?_, fun _ => hidle⟩ hbudget
      · simp at h0
      · rw [show s.data.core.barrier.round = 0 from hround] at h2
        cases h2
  | @leave1 t r hr =>
      -- the barrier has left the round the thread waited for
      have hround : s.barrier.round = 1 := by
        have hle := hplace.2
        have hne : s.barrier.round ≠ r := hr
        rw [hplace.1] at hne
        omega
      have hfree : (SenderPc.start (.wait1 t r)).blocked s.barrier.round = 0 :=
        if_neg fun heq => hr heq.symm
      exact h.quiet rfl hround (by rw [hblocked, hfree]; rfl) h.staged (.inl hbudget)
  | lock => exact h.quiet rfl hplace (hblocked _).symm h.staged (.inl hbudget)
  | create ns hd =>
      have hround : s.barrier.round = 1 := hplace
      -- nobody waits, so destroying and initialising the barrier changes nothing
      have hreinit : s.barrier.reinit = s.barrier := by
        have hzero := (h.waiting_eq_zero ho hround hd).1
        rw [Barrier.reinit, ← hzero]
      refine h.quiet hreinit hround (hblocked _).symm ⟨fun h0 => ?_, fun h2 => ?_, fun _ => ?_⟩
        (.inl hbudget)
      · exact absurd (hround.symm.trans h0) (by decide)
      · exact absurd (hround.symm.trans h2) (by decide)
      · have hidle := h.staged.idle (by rw [show s.data.core.barrier.round = 1 from hround]; decide)
        have hd' : s.data.core.obj.dist = none := hd
        simp only [NetData.obj, Client.startReqInit, hd']
        exact hidle
  | created hd => exact h.quiet rfl hplace (hblocked _).symm h.staged (.inl hbudget)
  | arrive2 hn =>
      have hround : s.barrier.round = 1 := hplace
      refine h.arrives rfl hn ⟨hround, by omega⟩ ?_ (hblocked _)
        ⟨h.staged.before, h.staged.after, h.staged.idle⟩ hbudget
      simp [SenderPc.blocked]
  | open2 hn =>
      have hround : s.barrier.round = 1 := hplace
      refine h.opens rfl hn (by omega) (by rw [hround]; rfl) rfl (hblocked _)
        ⟨fun h0 => ?_, fun _ => ho.ready i _ hpc₀ trivial, fun h2 => ?_⟩ hbudget
      · simp at h0
      · exact absurd (congrArg (· + 1) hround) h2
  | @leave2 t r hr =>
      have hround : s.barrier.round = 2 := by
        have hle := h.round_le
        have hge := hplace.2
        have hne : s.barrier.round ≠ r := hr
        rw [hplace.1] at hne
        omega
      have hfree : (SenderPc.start (.wait2 t r)).blocked s.barrier.round = 0 :=
        if_neg fun heq => hr heq.symm
      exact h.quiet rfl hround (by rw [hblocked, hfree]; rfl) h.staged (.inl hbudget)
  | beyond hb hb' hbar =>
      have hb : (SenderPc.start pc₀).beyond := hb
      have hb' : (SenderPc.start pc).beyond := hb'
      have hround := (SenderPc.allowed_of_beyond hb _).mp hplace
      refine h.quiet hbar ?_ ?_ (hstaged hb) (.inl hbudget)
      · exact (SenderPc.allowed_of_beyond hb' _).mpr hround
      · rw [hblocked, SenderPc.blocked_of_beyond hb', SenderPc.blocked_of_beyond hb]

/-- **One step of a sender.** -/
theorem Rendezvous.afterSender (h : s.Rendezvous cfg) (ho : s.Objects) {inp : Input}
    {op : LockOp Mutex} (hu : SenderUp cfg nS s.data (s.senders i) d pc)
    (hm : SenderMove cfg s.data (s.senders i) inp d pc op) :
    (s.afterSender i d locks pc).Rendezvous cfg := by
  -- behind the rendezvous the distribution stays where it is
  have hstaged : (s.senders i).beyond → d.core.barrier = s.barrier → d.Staged := by
    intro hb hbar
    have hround := (SenderPc.allowed_of_beyond hb _).mp (h.places i)
    refine ⟨fun h0 => ?_, fun _ => ?_, fun h2 => ?_⟩
    · rw [hbar, hround] at h0
      cases h0
    · have hdist := h.staged.after hround
      rcases hm.dist (ho.ready i) with ⟨-, hiff⟩ | ⟨hnone, -, -⟩
      · exact fun hnone => hdist (hiff.mp hnone)
      · exact absurd hnone hdist
    · rw [hbar] at h2
      exact absurd hround h2
  generalize hpc₀ : s.senders i = pc₀ at hu hstaged
  cases hu with
  | begin hb =>
      have hplace : SenderPc.top.allowed s.barrier.round := hpc₀ ▸ h.places i
      refine h.quiet rfl hplace (by rw [hpc₀]; rfl) h.staged (.inl ?_)
      intro hzero
      rw [hzero] at hb
      exact absurd hb (by simp)
  | exit hb =>
      have hplace : SenderPc.top.allowed s.barrier.round := hpc₀ ▸ h.places i
      exact h.quiet rfl hplace (by rw [hpc₀]; rfl) h.staged (.inr rfl)
  | @start pc₁ pc' core hs =>
      refine h.afterStart ho hpc₀ hs fun hb => hstaged hb ?_
      cases hs <;> first | rfl | assumption | cases hb
  | beyond hb hb' hbar =>
      have hround := (SenderPc.allowed_of_beyond hb _).mp (hpc₀ ▸ h.places i)
      refine h.quiet hbar ?_ ?_ (hstaged hb hbar) (.inl ?_)
      · rcases hb' with hb' | rfl
        · exact (SenderPc.allowed_of_beyond hb' _).mpr hround
        · show s.barrier.round ≠ 1
          omega
      · rw [hpc₀, SenderPc.blocked_of_beyond hb]
        rcases hb' with hb' | rfl
        · exact SenderPc.blocked_of_beyond hb' _
        · rfl
      · intro hzero
        rcases h.spent hzero i with hi | hi
        · rw [hpc₀] at hi; subst hi; cases hb
        · rw [hpc₀] at hi; subst hi; cases hb

/-- **One step of a receiver.** -/
theorem Rendezvous.afterReceiver (h : s.Rendezvous cfg) {j : Fin nR} {pc : ReceiverPc}
    {inp : Input} {op : LockOp Mutex}
    (hm : ReceiverMove cfg s.data (s.receivers j) inp d pc op) :
    (s.afterReceiver j d locks pc).Rendezvous cfg := by
  have hbar : d.core.barrier = s.barrier := hm.barrier
  -- `finiReq` touches neither the distribution nor what counts requests
  have hobj : d.obj.dist = s.data.obj.dist ∧ d.obj.numReqsSent = s.data.obj.numReqsSent ∧
      d.obj.allocated = s.data.obj.allocated := by
    rcases hm.obj with heq | ⟨resp, p, req, curNs, laterNs, ex, -, -, -, he⟩
    · rw [heq]
      exact ⟨rfl, rfl, rfl⟩
    · exact ⟨by simp [he.same.dist], by simp [he.same.numReqsSent], by simp [he.same.allocated]⟩
  constructor
  · show d.core.barrier.round ≤ 2
    rw [hbar]
    exact h.round_le
  · intro k
    show (s.senders k).allowed d.core.barrier.round
    rw [hbar]
    exact h.places k
  · show d.core.barrier.waiting = ∑ k, (s.senders k).blocked d.core.barrier.round
    rw [hbar]
    exact h.waiting
  · show 0 < nS → d.core.barrier.waiting < nS
    rw [hbar]
    exact h.room
  · rcases h.staged with ⟨hbefore, hafter, hidle⟩
    refine ⟨?_, ?_, ?_⟩
    · show d.core.barrier.round = 0 → d.obj.dist = none
      rw [hbar, hobj.1]
      exact hbefore
    · show d.core.barrier.round = 2 → d.obj.dist ≠ none
      rw [hbar, hobj.1]
      exact hafter
    · show d.core.barrier.round ≠ 2 → d.obj.numReqsSent = 0 ∧ d.obj.allocated = 0
      rw [hbar, hobj.2.1, hobj.2.2]
      exact hidle
  · exact h.spent

end Steps

end NetClient

section Reachable

variable {cfg : Config} {nS nR : Nat} {s : NetClient nS nR}

theorem netClient_rendezvous (h : (netClient cfg nS nR).Reachable s) : s.Rendezvous cfg := by
  refine Machine.Reachable.invariant ?_ ?_ h
  · rintro s rfl
    refine ⟨Nat.zero_le 2, fun i => ?_, ?_, fun hpos => hpos, ⟨fun _ => rfl, fun h2 => ?_,
      fun _ => ⟨rfl, rfl⟩⟩, fun _ i => .inl rfl⟩
    · show 0 ≠ 1
      decide
    · simp [NetClient.start, SenderPc.blocked]
    · cases h2
  · intro s a s' hr hs hn
    rcases NetClient.next_cases hn with ⟨-, ⟨i, d, pc, op, locks, -, hstep, -, rfl⟩ |
      ⟨j, d, pc, op, locks, -, hstep, -, rfl⟩⟩
    · exact hs.afterSender (netClient_objects hr) (senderStep_senderUp hstep)
        (senderStep_move hstep)
    · exact hs.afterReceiver (receiverStep_move hstep)

end Reachable

end TailBench
