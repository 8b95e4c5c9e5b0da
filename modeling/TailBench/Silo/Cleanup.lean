import TailBench.Silo.Epochs

set_option autoImplicit false

/-! # What a cleaner takes

The queues of a thread in every state (`ThreadsWf`): the epochs in them do not go down and are not
beyond the next tick, what the cleaner has taken is of epochs that are over, and it takes all of them
but the very first one (`le_of_cleaned`). No `INVARIANT` of the source fails (`rcu_asserts`).
-/

namespace TailBench.Silo.Rcu

open Lib

variable {n : Nat}

/-! ## The queues of a thread -/

/-- The thread may be in the region of `do_cleanup`. -/
def Pc.reaps : Pc → Bool
  | .locking | .locked | .loaded _ | .inside _ => true
  | .outside | .unlocking _ | .cleaning => false

/-- `tick` is the one of the core, ticks up to `last` are over. -/
structure Thread.Wf (t : Thread) (tick last : Nat) : Prop where
  queue : PxQueue.Sane groupSize t.queue
  scratch : PxQueue.Sane groupSize t.scratch
  ahead : ∀ g ∈ t.queue, g.tick ≤ toRcuTicks (tick + 1)
  ended : ∀ g ∈ t.scratch, g.tick < toRcuTicks (last + 1)
  reaped : ∃ r, t.lastReapedEpoch = r % 2 ^ 32 ∧ r ≤ toRcuTicks (last + 1) - 1
    ∧ ∀ g ∈ t.queue, r < g.tick ∨ r = 0
  todo : ∀ es, t.reaping = some es → es <:+ t.scratch.flatMap (·.pxs)
  idle : t.reaping = none → t.scratch = []
  region : t.reaping ≠ none → t.pc.reaps = true

/-- What has been retired and not yet run. -/
def Thread.pending (t : Thread) : List DeleteEntry :=
  t.reaping.getD [] ++ t.queue.flatMap (·.pxs)

theorem toRcuTicks_mono {a b : Nat} (h : a ≤ b) : toRcuTicks a ≤ toRcuTicks b :=
  Nat.div_le_div_right h

section Queues

variable {t : Thread} {tick tick' last last' : Nat} {pc : Pc} {e : DeleteEntry}

theorem Thread.Wf.mono (h : t.Wf tick last) (htick : tick ≤ tick') (hlast : last ≤ last') :
    t.Wf tick' last' := by
  have hahead : toRcuTicks (tick + 1) ≤ toRcuTicks (tick' + 1) := toRcuTicks_mono (by omega)
  have hended : toRcuTicks (last + 1) ≤ toRcuTicks (last' + 1) := toRcuTicks_mono (by omega)
  obtain ⟨r, hr, hle, hqueue⟩ := h.reaped
  exact ⟨h.queue, h.scratch, fun g hg => Nat.le_trans (h.ahead g hg) hahead,
    fun g hg => Nat.lt_of_lt_of_le (h.ended g hg) hended, ⟨r, hr, by omega, hqueue⟩, h.todo, h.idle,
    h.region⟩

theorem Thread.Wf.setPc (h : t.Wf tick last) (hpc : t.pc.reaps = true → pc.reaps = true) :
    Thread.Wf { t with pc := pc } tick last :=
  ⟨h.queue, h.scratch, h.ahead, h.ended, h.reaped, h.todo, h.idle, fun hr => hpc (h.region hr)⟩

/-- The thread is in no region of its own cleaner. -/
theorem Thread.Wf.leave (h : t.Wf tick last) (hreaping : t.reaping = none) :
    Thread.Wf { t with pc := pc } tick last :=
  ⟨h.queue, h.scratch, h.ahead, h.ended, h.reaped, h.todo, h.idle, fun hr => absurd hreaping hr⟩

theorem Thread.Wf.retire (h : t.Wf tick last) (hlt : last < tick) : Thread.Wf
    { t with queue := t.queue.enqueue groupSize e (toRcuTicks (tick + 1)) } tick last := by
  have hmem : ∀ g ∈ t.queue.enqueue groupSize e (toRcuTicks (tick + 1)),
      g.tick = toRcuTicks (tick + 1) ∨ ∃ g' ∈ t.queue, g'.tick = g.tick :=
    fun g hg => PxQueue.tick_of_mem_enqueue hg
  obtain ⟨r, hr, hle, hqueue⟩ := h.reaped
  have hmono : toRcuTicks (last + 1) ≤ toRcuTicks (tick + 1) := toRcuTicks_mono (by omega)
  refine ⟨h.queue.enqueue (by decide) h.ahead, h.scratch, fun g hg => ?_, h.ended,
    ⟨r, hr, hle, fun g hg => ?_⟩, h.todo, h.idle, h.region⟩
  · rcases hmem g hg with heq | ⟨g', hg', heq⟩
    · exact Nat.le_of_eq heq
    · rw [← heq]
      exact h.ahead g' hg'
  · rcases hmem g hg with heq | ⟨g', hg', heq⟩
    · omega
    · rw [← heq]
      exact hqueue g' hg'

theorem Thread.Wf.clear (h : t.Wf tick last) :
    Thread.Wf { t with pc := pc, scratch := [], reaping := none } tick last :=
  ⟨h.queue, ⟨by simp, List.Pairwise.nil⟩, h.ahead, by simp, h.reaped, by simp, fun _ => rfl,
    fun hr => absurd rfl hr⟩

theorem Thread.Wf.run {es : List DeleteEntry} (h : t.Wf tick last)
    (hreaping : t.reaping = some (e :: es)) : Thread.Wf { t with reaping := some es } tick last := by
  refine ⟨h.queue, h.scratch, h.ahead, h.ended, h.reaped, fun es' hes => ?_, by simp, fun _ => ?_⟩
  · obtain rfl := Option.some.inj hes
    exact (List.suffix_cons e es).trans (h.todo _ hreaping)
  · exact h.region (by rw [hreaping]; simp)

theorem Thread.Wf.doCleanup (h : t.Wf tick last) (hreaping : t.reaping = none) :
    (t.doCleanup (toRcuTicks (last + 1))).Wf tick last := by
  unfold Thread.doCleanup
  split
  · exact h.leave hreaping
  · next hgo =>
      rw [not_or] at hgo
      obtain ⟨haccepted, hrest⟩ := h.queue.accepted (toRcuTicks (last + 1) - 1)
      have hwf : ∀ pc, Thread.Wf { t with
          pc := pc
          lastReapedEpoch := (toRcuTicks (last + 1) - 1) % 2 ^ 32
          queue := (PxQueue.emptyAcceptFrom (toRcuTicks (last + 1) - 1) t.queue).2
          scratch := [] } tick last := by
        intro pc
        refine ⟨hrest, ⟨by simp, List.Pairwise.nil⟩, fun g hg => h.ahead g ?_, by simp,
          ⟨_, rfl, Nat.le_refl _, fun g hg => .inl (PxQueue.lt_of_mem_rest h.queue.sorted hg)⟩,
          fun es hes => ?_, fun _ => rfl, fun hr => absurd hreaping hr⟩
        · rw [← PxQueue.acceptFrom_append (toRcuTicks (last + 1) - 1) t.queue]
          exact List.mem_append_right _ hg
        · rw [show t.reaping = some es from hes] at hreaping
          cases hreaping
      dsimp only
      split
      · next hnone =>
          rw [hnone]
          exact hwf _
      · have hnew := hwf .locking
        refine ⟨hnew.queue, haccepted, hnew.ahead, fun g hg => ?_, hnew.reaped, fun es hes => ?_,
          by simp, fun _ => rfl⟩
        · have hle := PxQueue.le_of_mem_accepted hg
          omega
        · obtain rfl := Option.some.inj hes
          exact List.suffix_refl _

/-- The entries go from the queue to the cleaner. -/
theorem Thread.pending_doCleanup (t : Thread) (k : Nat) (hreaping : t.reaping = none) :
    (t.doCleanup k).pending = t.pending := by
  unfold Thread.doCleanup
  split
  · rfl
  · have happend := congrArg (List.flatMap fun g => g.pxs)
      (PxQueue.acceptFrom_append (k - 1) t.queue)
    rw [List.flatMap_append] at happend
    dsimp only
    split
    · next hnone =>
        rw [hnone] at happend
        rw [Thread.pending, Thread.pending, hreaping]
        exact happend
    · rw [Thread.pending, Thread.pending, hreaping]
      exact happend

/-- `do_cleanup` takes every epoch that is over, but for the very first one. -/
theorem Thread.Wf.le_of_cleaned (h : t.Wf tick last) {g : PxGroup DeleteEntry}
    (hg : g ∈ (t.doCleanup (toRcuTicks (last + 1))).queue) :
    toRcuTicks (last + 1) ≤ g.tick ∨ toRcuTicks (last + 1) = 1 := by
  unfold Thread.doCleanup at hg
  split at hg
  · next hstop =>
      obtain ⟨r, hr, hle, hqueue⟩ := h.reaped
      rcases hstop with hzero | hsame
      · exact .inl (by omega)
      · have hlt := hqueue g hg
        have hmod := Nat.mod_le r (2 ^ 32)
        omega
  · refine .inl ?_
    have hlt : toRcuTicks (last + 1) - 1 < g.tick := by
      refine PxQueue.lt_of_mem_rest h.queue.sorted ?_
      dsimp only at hg
      split at hg <;> exact hg
    omega

end Queues

/-! ## Every thread, in every state -/

section Threads

variable {s s' : State n} {i : Fin n} {act : Action n}

def ThreadsWf (s : State n) : Prop :=
  ∀ i, (s.threads i).Wf (s.ticks i).currentTick s.lastTickInclusive

/-- What a step does not do to the ticks. -/
structure Forward (s s' : State n) : Prop where
  tick : ∀ i, (s.ticks i).currentTick ≤ (s'.ticks i).currentTick
  last : s.lastTickInclusive ≤ s'.lastTickInclusive

theorem setTick_currentTick_le (s : State n) {ti : TickInfo}
    (h : (s.ticks i).currentTick ≤ ti.currentTick) (j : Fin n) :
    (s.ticks j).currentTick ≤ ((s.setTick i ti).ticks j).currentTick := by
  by_cases hj : j = i
  · subst hj
    rwa [State.setTick_ticks, Function.update_self]
  · exact Nat.le_of_eq (by rw [State.setTick_ticks, Function.update_of_ne hj])

/-- **Time does not go back.** -/
theorem Step.forward (h : Step s act s') (hwf : TicksWf s) : Forward s s' := by
  cases h with
  | lock => exact ⟨setTick_currentTick_le s (Nat.le_refl _), Nat.le_refl _⟩
  | @store i tick hpc =>
      have hg := hwf.guards i
      rw [hpc] at hg
      exact ⟨setTick_currentTick_le s hg.1, Nat.le_refl _⟩
  | unlock => exact ⟨setTick_currentTick_le s (Nat.le_refl _), Nat.le_refl _⟩
  | @finish last i hpc hi =>
      have hlast := hwf.ending last (by rw [hpc]; rfl)
      refine ⟨fun _ => Nat.le_refl _, ?_⟩
      change _ ≤ last
      omega
  | grab => exact ⟨setTick_currentTick_le s (Nat.le_refl _), Nat.le_refl _⟩
  | @stamp last i hpc =>
      have hcurrent := (hwf.of_ending (by rw [hpc]; rfl)).2
      refine ⟨setTick_currentTick_le s ?_, Nat.le_refl _⟩
      have hhigh := hwf.high i
      change _ ≤ last + 1
      omega
  | release => exact ⟨setTick_currentTick_le s (Nat.le_refl _), Nat.le_refl _⟩
  | _ => exact ⟨fun _ => Nat.le_refl _, Nat.le_refl _⟩

/-- The thread that takes a step changes its own queues only. -/
theorem Step.threads (h : Step s act s') (hwf : TicksWf s) (hthreads : ThreadsWf s) (i : Fin n) :
    (s'.threads i).Wf (s.ticks i).currentTick s.lastTickInclusive := by
  have hset : ∀ {s₁ : State n} {i : Fin n} {t : Thread},
      t.Wf (s.ticks i).currentTick s.lastTickInclusive → s₁.threads = s.threads → ∀ j,
      ((s₁.setThread i t).threads j).Wf (s.ticks j).currentTick s.lastTickInclusive := by
    intro s₁ i t ht hsame j
    rw [State.setThread_threads, hsame]
    by_cases hj : j = i
    · subst hj
      rwa [Function.update_self]
    · rw [Function.update_of_ne hj]
      exact hthreads j
  have hidle : ∀ {i : Fin n} {pc : Pc}, (s.threads i).pc = pc → pc.reaps = false →
      (s.threads i).reaping = none := by
    rintro i pc rfl hpc
    by_contra hr
    rw [(hthreads i).region hr] at hpc
    cases hpc
  cases h with
  | @enter i hpc => exact hset ((hthreads i).setPc fun _ => rfl) rfl _
  | @nest i gs hpc => exact hset ((hthreads i).setPc fun _ => rfl) rfl _
  | @retire i e gs hpc => exact hset ((hthreads i).retire (hwf.low i)) rfl _
  | @unnest i b g g' gs hpc => exact hset ((hthreads i).setPc fun _ => rfl) rfl _
  | @leave i b g hpc hreaping => exact hset ((hthreads i).leave hreaping) rfl _
  | @clear i b g hpc hreaping => exact hset (hthreads i).clear rfl _
  | @lock i hpc hfree => exact hset ((hthreads i).setPc fun _ => rfl) rfl _
  | @load i hpc => exact hset ((hthreads i).setPc fun _ => rfl) rfl _
  | @store i tick hpc => exact hset ((hthreads i).setPc fun _ => rfl) rfl _
  | @run i g e es hpc hreaping => exact hset ((hthreads i).run hreaping) rfl _
  | @unlock i b hpc => exact hset ((hthreads i).leave (hidle hpc rfl)) rfl _
  | @cleanup i hpc => exact hset ((hthreads i).doCleanup (hidle hpc rfl)) rfl _
  | _ => exact hthreads i

theorem rcu_threadsWf (h : (rcu n).Reachable s) : ThreadsWf s := by
  refine h.invariant (P := ThreadsWf) ?_ ?_
  · rintro s ⟨-, -, -, -, hthreads⟩ i
    rw [hthreads]
    exact ⟨⟨by simp, List.Pairwise.nil⟩, ⟨by simp, List.Pairwise.nil⟩, by simp, by simp,
      ⟨0, rfl, Nat.zero_le _, by simp⟩, by simp, by simp, by simp⟩
  · intro s act s' hr hthreads hn i
    have hstep := Step.of_next hn
    have hforward := hstep.forward (rcu_ticksWf hr)
    exact (hstep.threads (rcu_ticksWf hr) hthreads i).mono (hforward.tick i) hforward.last

/-- **No `INVARIANT` of the ticker, of the regions or of the queues fails**, in any run. -/
theorem rcu_asserts (h : (rcu n).Reachable s) (act : Action n) : s.Asserts act := by
  have hwf := rcu_ticksWf h
  have hthreads := rcu_threadsWf h
  have hlock : ∀ {i : Fin n} {pc : Pc}, (s.threads i).pc = pc → pc.holds = true →
      (s.ticks i).lock ≠ none := by
    rintro i pc rfl hpc hnone
    rw [(hwf.thread i).mpr hpc] at hnone
    cases hnone
  cases act with
  | enter i =>
      simp only [State.Asserts]
      split
      · next hpc => exact hlock hpc rfl
      · trivial
  | retire i e =>
      simp only [State.Asserts]
      split
      · exact ⟨(hthreads i).queue, (hthreads i).ahead⟩
      · trivial
  | leave i b =>
      simp only [State.Asserts]
      split
      · next gs hpc =>
          have hg := hwf.guards i
          rw [hpc] at hg
          refine ⟨hg.1, hlock hpc rfl, fun g hmem => ?_⟩
          rw [hg.2 g hmem]
          exact hwf.low i
      · trivial
  | step i =>
      simp only [State.Asserts]
      split
      · next tick hpc =>
          have hg := hwf.guards i
          rw [hpc] at hg
          exact ⟨hg.1, hlock hpc rfl⟩
      · next hpc => exact hlock hpc rfl
      · next hpc =>
          intro hk
          obtain ⟨r, hr, hle, -⟩ := (hthreads i).reaped
          refine ⟨?_, (hthreads i).idle ?_⟩
          · rw [hr]
            exact Nat.le_trans (Nat.mod_le _ _) hle
          · by_contra hreaping
            have hreaps := (hthreads i).region hreaping
            rw [hpc] at hreaps
            cases hreaps
      · trivial
  | tick =>
      simp only [State.Asserts]
      split
      · next last i hpc =>
          intro hi
          have hending : s.ticker.ending = some last := by rw [hpc]; rfl
          obtain ⟨hlast, hcurrent⟩ := hwf.of_ending hending
          have hlow := hwf.low ⟨i, hi⟩
          have hhigh := hwf.high ⟨i, hi⟩
          omega
      · next last i hpc =>
          rw [hwf.lock_of_holds (by rw [hpc]; simp [TickerPc.holds])]
          simp
      · trivial

end Threads

end TailBench.Silo.Rcu
