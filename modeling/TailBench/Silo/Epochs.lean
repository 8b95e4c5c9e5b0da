import TailBench.Silo.Rcu

set_option autoImplicit false

/-! # Epochs

What a step of the ticker or of a thread can do (`Step`), and what holds of the ticks in every state
(`TicksWf`): a tick is over only when every core has gone on, and a guard keeps the tick of its core
from going on.
-/

namespace TailBench.Silo.Rcu

open Lib

variable {n : Nat}

/-! ## What a step can do -/

inductive Step (s : State n) : Action n → State n → Prop
  | enter {i : Fin n} (hpc : (s.threads i).pc = .outside) :
      Step s (.enter i) (s.setThread i { s.threads i with pc := .locking })
  | nest {i : Fin n} {gs : List Nat} (hpc : (s.threads i).pc = .inside gs) :
      Step s (.enter i) (s.setThread i { s.threads i with
        pc := .inside ((s.ticks i).currentTick :: gs) })
  | retire {i : Fin n} {e : DeleteEntry} {gs : List Nat} (hpc : (s.threads i).pc = .inside gs) :
      Step s (.retire i e) (s.setThread i { s.threads i with
        queue := (s.threads i).queue.enqueue groupSize e
          (toRcuTicks ((s.ticks i).currentTick + 1)) })
  | unnest {i : Fin n} {b : Bool} {g g' : Nat} {gs : List Nat}
      (hpc : (s.threads i).pc = .inside (g :: g' :: gs)) :
      Step s (.leave i b) (s.setThread i { s.threads i with pc := .inside (g' :: gs) })
  | leave {i : Fin n} {b : Bool} {g : Nat} (hpc : (s.threads i).pc = .inside [g])
      (hreaping : (s.threads i).reaping = none) :
      Step s (.leave i b) (s.setThread i { s.threads i with pc := .unlocking b })
  | clear {i : Fin n} {b : Bool} {g : Nat} (hpc : (s.threads i).pc = .inside [g])
      (hreaping : (s.threads i).reaping = some []) :
      Step s (.leave i b) (s.setThread i { s.threads i with
        pc := .unlocking true, scratch := [], reaping := none })
  | lock {i : Fin n} (hpc : (s.threads i).pc = .locking) (hfree : (s.ticks i).lock = none) :
      Step s (.step i) ((s.setTick i { s.ticks i with lock := some .thread }).setThread i
        { s.threads i with pc := .locked })
  | load {i : Fin n} (hpc : (s.threads i).pc = .locked) :
      Step s (.step i) (s.setThread i { s.threads i with pc := .loaded s.currentTick })
  | store {i : Fin n} {tick : Nat} (hpc : (s.threads i).pc = .loaded tick) :
      Step s (.step i) ((s.setTick i { s.ticks i with currentTick := tick }).setThread i
        { s.threads i with pc := .inside [tick] })
  | run {i : Fin n} {g : Nat} {e : DeleteEntry} {es : List DeleteEntry}
      (hpc : (s.threads i).pc = .inside [g]) (hreaping : (s.threads i).reaping = some (e :: es)) :
      Step s (.step i) (s.setThread i { s.threads i with reaping := some es })
  | unlock {i : Fin n} {b : Bool} (hpc : (s.threads i).pc = .unlocking b) :
      Step s (.step i) ((s.setTick i { s.ticks i with lock := none }).setThread i
        { s.threads i with pc := if b then .cleaning else .outside })
  | cleanup {i : Fin n} (hpc : (s.threads i).pc = .cleaning) :
      Step s (.step i) (s.setThread i ((s.threads i).doCleanup s.cleaningRcuTickExclusive))
  | bump (hpc : s.ticker = .sleeping) :
      Step s .tick { s with
        currentTick := s.currentTick + 1, ticker := .visiting s.currentTick 0 }
  | pass {last : Nat} {i : Fin n} (hpc : s.ticker = .visiting last i)
      (hgone : (s.ticks i).currentTick = last + 1) :
      Step s .tick { s with ticker := .visiting last (i + 1) }
  | wait {last : Nat} {i : Fin n} (hpc : s.ticker = .visiting last i) :
      Step s .tick { s with ticker := .locking last i }
  | finish {last i : Nat} (hpc : s.ticker = .visiting last i) (hi : n ≤ i) :
      Step s .tick { s with lastTickInclusive := last, ticker := .sleeping }
  | grab {last : Nat} {i : Fin n} (hpc : s.ticker = .locking last i)
      (hfree : (s.ticks i).lock = none) :
      Step s .tick { s.setTick i { s.ticks i with lock := some .ticker } with
        ticker := .storing last i }
  | stamp {last : Nat} {i : Fin n} (hpc : s.ticker = .storing last i) :
      Step s .tick { s.setTick i { s.ticks i with currentTick := last + 1 } with
        ticker := .unlocking last i }
  | release {last : Nat} {i : Fin n} (hpc : s.ticker = .unlocking last i) :
      Step s .tick { s.setTick i { s.ticks i with lock := none } with
        ticker := .visiting last (i + 1) }

section OfNext

variable {s s' : State n} {i : Fin n}

theorem Step.of_leave {b : Bool} (h : s.leave i b = some s') : Step s (.leave i b) s' := by
  simp only [State.leave] at h
  split at h
  · next hpc =>
      obtain rfl := Option.some.inj h
      exact .unnest hpc
  · next hpc hreaping =>
      obtain rfl := Option.some.inj h
      exact .leave hpc hreaping
  · next hpc hreaping =>
      obtain rfl := Option.some.inj h
      exact .clear hpc hreaping
  · cases h

theorem Step.of_step (h : s.step i = some s') : Step s (.step i) s' := by
  simp only [State.step] at h
  split at h
  · next hpc =>
      split at h
      · next hfree =>
          obtain rfl := Option.some.inj h
          exact .lock hpc hfree
      · cases h
  · next hpc =>
      obtain rfl := Option.some.inj h
      exact .load hpc
  · next hpc =>
      obtain rfl := Option.some.inj h
      exact .store hpc
  · next hpc =>
      split at h
      · next hreaping =>
          obtain rfl := Option.some.inj h
          exact .run hpc hreaping
      · cases h
  · next hpc =>
      obtain rfl := Option.some.inj h
      exact .unlock hpc
  · next hpc =>
      obtain rfl := Option.some.inj h
      exact .cleanup hpc
  · cases h

theorem Step.of_tick (h : s.tick = some s') : Step s .tick s' := by
  simp only [State.tick] at h
  split at h
  · next hpc =>
      obtain rfl := Option.some.inj h
      exact .bump hpc
  · next last i hpc =>
      split at h
      · next hi =>
          split at h
          · next hgone =>
              obtain rfl := Option.some.inj h
              exact .pass (i := ⟨i, hi⟩) hpc hgone
          · obtain rfl := Option.some.inj h
            exact .wait (i := ⟨i, hi⟩) hpc
      · next hi =>
          obtain rfl := Option.some.inj h
          exact .finish hpc (Nat.le_of_not_lt hi)
  · next hpc =>
      split at h
      · next hfree =>
          obtain rfl := Option.some.inj h
          exact .grab hpc hfree
      · cases h
  · next hpc =>
      obtain rfl := Option.some.inj h
      exact .stamp hpc
  · next hpc =>
      obtain rfl := Option.some.inj h
      exact .release hpc

theorem Step.of_next {act : Action n} (h : s.next act = some s') : Step s act s' := by
  cases act with
  | enter i =>
      simp only [State.next, State.enter] at h
      split at h
      · next hpc =>
          obtain rfl := Option.some.inj h
          exact .enter hpc
      · next hpc =>
          obtain rfl := Option.some.inj h
          exact .nest hpc
      · cases h
  | retire i e =>
      simp only [State.next, State.retire] at h
      split at h
      · next hpc =>
          obtain rfl := Option.some.inj h
          exact .retire hpc
      · cases h
  | leave i b => exact .of_leave h
  | step i => exact .of_step h
  | tick => exact .of_tick h

end OfNext

/-! ## The ticks -/

/-- The thread has the lock of its core. -/
def Pc.holds : Pc → Bool
  | .locked | .loaded _ | .inside _ | .unlocking _ => true
  | .outside | .locking | .cleaning => false

/-- The daemon has the lock of the core. -/
def TickerPc.holds (i : Fin n) : TickerPc n → Bool
  | .storing _ j | .unlocking _ j => decide (i = j)
  | _ => false

/-- The cores that have gone on to the global tick. -/
def TickerPc.passed : TickerPc n → Nat
  | .sleeping => n
  | .visiting _ i => i
  | .locking _ i | .storing _ i => i
  | .unlocking _ i => i + 1

/-- The tick that is to be ended. -/
def TickerPc.ending : TickerPc n → Option Nat
  | .sleeping => none
  | .visiting last _ | .locking last _ | .storing last _ | .unlocking last _ => some last

/-- The tick of a guard is between the one of the core and the global one. -/
def Pc.TickWf (current tick : Nat) : Pc → Prop
  | .loaded t => tick ≤ t ∧ t ≤ current
  | .inside gs => gs ≠ [] ∧ ∀ g ∈ gs, g = tick
  | _ => True

structure TicksWf (s : State n) : Prop where
  thread : ∀ i, (s.ticks i).lock = some .thread ↔ (s.threads i).pc.holds = true
  daemon : ∀ i, (s.ticks i).lock = some .ticker ↔ s.ticker.holds i = true
  clock : s.currentTick = s.lastTickInclusive + 1 + (if s.ticker.ending = none then 0 else 1)
  ending : ∀ last, s.ticker.ending = some last → last = s.lastTickInclusive + 1
  low : ∀ i, s.lastTickInclusive < (s.ticks i).currentTick
  high : ∀ i, (s.ticks i).currentTick ≤ s.currentTick
  passed : ∀ i : Fin n, i < s.ticker.passed → (s.ticks i).currentTick = s.currentTick
  guards : ∀ i, (s.threads i).pc.TickWf s.currentTick (s.ticks i).currentTick

section TicksWf

variable {s s' : State n} {i : Fin n} {act : Action n} {t : Thread}

/-- A step of a thread. -/
theorem TicksWf.of_thread (hwf : TicksWf s)
    (hothers : ∀ j, j ≠ i → s'.ticks j = s.ticks j ∧ s'.threads j = s.threads j)
    (hticker : s'.ticker = s.ticker) (hcurrent : s'.currentTick = s.currentTick)
    (hlast : s'.lastTickInclusive = s.lastTickInclusive)
    (hthread : (s'.ticks i).lock = some .thread ↔ (s'.threads i).pc.holds = true)
    (hdaemon : (s'.ticks i).lock = some .ticker ↔ (s.ticks i).lock = some .ticker)
    (hlow : (s.ticks i).currentTick ≤ (s'.ticks i).currentTick)
    (hhigh : (s'.ticks i).currentTick ≤ s.currentTick)
    (hguards : (s'.threads i).pc.TickWf s.currentTick (s'.ticks i).currentTick) : TicksWf s' := by
  refine ⟨fun j => ?_, fun j => ?_, ?_, ?_, fun j => ?_, fun j => ?_, fun j hj => ?_, fun j => ?_⟩
  · by_cases hj : j = i
    · rw [hj]
      exact hthread
    · rw [(hothers j hj).1, (hothers j hj).2]
      exact hwf.thread j
  · rw [hticker]
    by_cases hj : j = i
    · rw [hj, hdaemon]
      exact hwf.daemon i
    · rw [(hothers j hj).1]
      exact hwf.daemon j
  · rw [hcurrent, hlast, hticker]
    exact hwf.clock
  · rw [hticker, hlast]
    exact hwf.ending
  · rw [hlast]
    by_cases hj : j = i
    · rw [hj]
      exact Nat.lt_of_lt_of_le (hwf.low i) hlow
    · rw [(hothers j hj).1]
      exact hwf.low j
  · rw [hcurrent]
    by_cases hj : j = i
    · rw [hj]
      exact hhigh
    · rw [(hothers j hj).1]
      exact hwf.high j
  · rw [hticker] at hj
    rw [hcurrent]
    have hgone := hwf.passed j hj
    by_cases hji : j = i
    · subst hji
      omega
    · rw [(hothers j hji).1]
      exact hgone
  · rw [hcurrent]
    by_cases hj : j = i
    · rw [hj]
      exact hguards
    · rw [(hothers j hj).1, (hothers j hj).2]
      exact hwf.guards j

/-- The thread goes on without the lock of its core. -/
theorem TicksWf.setThread (hwf : TicksWf s) (hholds : t.pc.holds = (s.threads i).pc.holds)
    (hguards : t.pc.TickWf s.currentTick (s.ticks i).currentTick) : TicksWf (s.setThread i t) := by
  have hself : (s.setThread i t).threads i = t := Function.update_self ..
  refine hwf.of_thread (i := i) (fun j hj => ⟨rfl, Function.update_of_ne hj ..⟩) rfl rfl rfl ?_
    Iff.rfl (Nat.le_refl _) (hwf.high i) ?_
  · rw [hself, hholds]
    exact hwf.thread i
  · rw [hself]
    exact hguards

/-- The thread takes the lock of its core, gives it back or stores the tick. -/
theorem TicksWf.setTick (hwf : TicksWf s) {ti : TickInfo}
    (hthread : ti.lock = some .thread ↔ t.pc.holds = true)
    (hdaemon : ti.lock = some .ticker ↔ (s.ticks i).lock = some .ticker)
    (hlow : (s.ticks i).currentTick ≤ ti.currentTick) (hhigh : ti.currentTick ≤ s.currentTick)
    (hguards : t.pc.TickWf s.currentTick ti.currentTick) :
    TicksWf ((s.setTick i ti).setThread i t) := by
  have hself : ((s.setTick i ti).setThread i t).threads i = t := Function.update_self ..
  have htick : ((s.setTick i ti).setThread i t).ticks i = ti := Function.update_self ..
  refine hwf.of_thread (i := i)
    (fun j hj => ⟨Function.update_of_ne hj .., Function.update_of_ne hj ..⟩)
    rfl rfl rfl ?_ ?_ ?_ ?_ ?_
  · rwa [hself, htick]
  · rwa [htick]
  · rwa [htick]
  · rwa [htick]
  · rwa [hself, htick]

/-- A step of the daemon that leaves the cores alone. -/
theorem TicksWf.setTicker (hwf : TicksWf s) {p : TickerPc n} (hending : p.ending = s.ticker.ending)
    (hholds : ∀ j, p.holds j = s.ticker.holds j)
    (hpassed : ∀ j : Fin n, j < p.passed → (s.ticks j).currentTick = s.currentTick) :
    TicksWf { s with ticker := p } := by
  refine ⟨hwf.thread, fun j => ?_, ?_, ?_, hwf.low, hwf.high, hpassed, hwf.guards⟩
  · rw [hholds]
    exact hwf.daemon j
  · rw [hending]
    exact hwf.clock
  · rw [hending]
    exact hwf.ending

/-- A step of the daemon at a core that its thread has not locked. -/
theorem TicksWf.setDaemon (hwf : TicksWf s) {p : TickerPc n} {ti : TickInfo}
    (hfree : (s.ticks i).lock ≠ some .thread) (hending : p.ending = s.ticker.ending)
    (hlock : ti.lock ≠ some .thread) (hdaemon : ti.lock = some .ticker ↔ p.holds i = true)
    (hothers : ∀ j, j ≠ i → p.holds j = s.ticker.holds j)
    (hlow : (s.ticks i).currentTick ≤ ti.currentTick) (hhigh : ti.currentTick ≤ s.currentTick)
    (hpassed : ∀ j : Fin n, j < p.passed →
      j < s.ticker.passed ∨ j = i ∧ ti.currentTick = s.currentTick) :
    TicksWf { s.setTick i ti with ticker := p } := by
  have hself : Function.update s.ticks i ti i = ti := Function.update_self ..
  have hother : ∀ j, j ≠ i → Function.update s.ticks i ti j = s.ticks j :=
    fun j hj => Function.update_of_ne hj ..
  have houtside : (s.threads i).pc.holds = false := by
    by_contra h
    exact hfree ((hwf.thread i).mpr (by simpa using h))
  refine ⟨fun j => ?_, fun j => ?_, ?_, ?_, fun j => ?_, fun j => ?_, fun j hj => ?_, fun j => ?_⟩
  · change (Function.update s.ticks i ti j).lock = _ ↔ _
    by_cases hj : j = i
    · rw [hj, hself]
      exact iff_of_false hlock fun h => Bool.false_ne_true (houtside.symm.trans h)
    · rw [hother j hj]
      exact hwf.thread j
  · change (Function.update s.ticks i ti j).lock = _ ↔ p.holds j = true
    by_cases hj : j = i
    · rw [hj, hself]
      exact hdaemon
    · rw [hother j hj, hothers j hj]
      exact hwf.daemon j
  · change s.currentTick = s.lastTickInclusive + 1 + _
    rw [hending]
    exact hwf.clock
  · change ∀ last, p.ending = some last → _
    rw [hending]
    exact hwf.ending
  · change s.lastTickInclusive < (Function.update s.ticks i ti j).currentTick
    by_cases hj : j = i
    · rw [hj, hself]
      exact Nat.lt_of_lt_of_le (hwf.low i) hlow
    · rw [hother j hj]
      exact hwf.low j
  · change (Function.update s.ticks i ti j).currentTick ≤ s.currentTick
    by_cases hj : j = i
    · rwa [hj, hself]
    · rw [hother j hj]
      exact hwf.high j
  · change (Function.update s.ticks i ti j).currentTick = s.currentTick
    by_cases hji : j = i
    · subst hji
      rw [hself]
      rcases hpassed j hj with hbefore | ⟨-, hgone⟩
      · have hgone := hwf.passed j hbefore
        omega
      · exact hgone
    · rw [hother j hji]
      rcases hpassed j hj with hbefore | ⟨heq, -⟩
      · exact hwf.passed j hbefore
      · exact absurd heq hji
  · change (s.threads j).pc.TickWf s.currentTick (Function.update s.ticks i ti j).currentTick
    by_cases hj : j = i
    · rw [hj]
      cases hpc : (s.threads i).pc with
      | loaded => rw [hpc] at houtside; cases houtside
      | inside => rw [hpc] at houtside; cases houtside
      | _ => trivial
    · rw [hother j hj]
      exact hwf.guards j

theorem Thread.doCleanup_pc (t : Thread) (tick : Nat) :
    (t.doCleanup tick).pc = .outside ∨ (t.doCleanup tick).pc = .locking := by
  unfold Thread.doCleanup
  split
  · exact .inl rfl
  · dsimp only
    split
    · exact .inl rfl
    · exact .inr rfl

/-- The daemon ends the tick after the last one that is over, and the global tick is the next. -/
theorem TicksWf.of_ending (hwf : TicksWf s) {last : Nat} (h : s.ticker.ending = some last) :
    last = s.lastTickInclusive + 1 ∧ s.currentTick = last + 1 := by
  have hlast := hwf.ending last h
  have hclock := hwf.clock
  rw [h] at hclock
  simp only [reduceCtorEq, if_false] at hclock
  exact ⟨hlast, by omega⟩

theorem TicksWf.lock_of_holds (hwf : TicksWf s) (h : s.ticker.holds i = true) :
    (s.ticks i).lock = some .ticker :=
  (hwf.daemon i).mpr h

/-- The steps of the daemon. -/
theorem Step.ticksWf_tick (h : Step s .tick s') (hwf : TicksWf s) : TicksWf s' := by
  cases h with
  | bump hpc =>
      have hclock := hwf.clock
      have hdaemon := hwf.daemon
      have hgone := hwf.passed
      rw [hpc] at hclock hdaemon hgone
      simp only [TickerPc.ending, if_true] at hclock
      refine ⟨hwf.thread, hdaemon, ?_, ?_, hwf.low, fun i => ?_, fun i hi => ?_, fun i => ?_⟩
      · simp only [TickerPc.ending, reduceCtorEq, if_false]
        omega
      · intro last hlast
        obtain rfl := Option.some.inj hlast
        exact hclock
      · exact Nat.le_succ_of_le (hwf.high i)
      · exact absurd hi (Nat.not_lt_zero _)
      · have hg := hwf.guards i
        change (s.threads i).pc.TickWf (s.currentTick + 1) _
        cases hcase : (s.threads i).pc with
        | loaded t =>
            rw [hcase] at hg
            exact ⟨hg.1, Nat.le_succ_of_le hg.2⟩
        | inside gs =>
            rw [hcase] at hg
            exact hg
        | _ => trivial
  | @pass last i hpc hgone =>
      refine hwf.setTicker (by rw [hpc]; rfl) (fun j => by rw [hpc]; rfl) fun j hj => ?_
      rcases Nat.lt_succ_iff_lt_or_eq.mp hj with hlt | heq
      · exact hwf.passed j (by rw [hpc]; exact hlt)
      · rw [Fin.ext heq, hgone]
        exact (hwf.of_ending (by rw [hpc]; rfl)).2.symm
  | @wait last i hpc =>
      refine hwf.setTicker (by rw [hpc]; rfl) (fun j => by rw [hpc]; rfl) fun j hj => ?_
      exact hwf.passed j (by rw [hpc]; exact hj)
  | @finish last i hpc hi =>
      have hcurrent := (hwf.of_ending (by rw [hpc]; rfl)).2
      have hdaemon := hwf.daemon
      rw [hpc] at hdaemon
      have hall : ∀ j, (s.ticks j).currentTick = s.currentTick := by
        intro j
        exact hwf.passed j (by rw [hpc]; exact Nat.lt_of_lt_of_le j.isLt hi)
      refine ⟨hwf.thread, hdaemon, ?_, ?_, fun j => ?_, hwf.high, fun j _ => hall j, hwf.guards⟩
      · exact hcurrent
      · intro l hl
        cases hl
      · have hj := hall j
        change last < (s.ticks j).currentTick
        omega
  | @grab last i hpc hfree =>
      refine hwf.setDaemon (by rw [hfree]; simp) (by rw [hpc]; rfl) (by simp) ?_ ?_ (Nat.le_refl _)
        (hwf.high i) ?_
      · exact iff_of_true rfl (by simp [TickerPc.holds])
      · intro j hj
        rw [hpc]
        simp [TickerPc.holds, hj]
      · intro j hj
        rw [hpc]
        exact .inl hj
  | @stamp last i hpc =>
      have hcurrent := (hwf.of_ending (by rw [hpc]; rfl)).2
      have hlock := hwf.lock_of_holds (i := i) (by rw [hpc]; simp [TickerPc.holds])
      have hhigh := hwf.high i
      refine hwf.setDaemon (by rw [hlock]; simp) (by rw [hpc]; rfl) (by rw [hlock]; simp)
        ?_ ?_ ?_ ?_ ?_
      · exact iff_of_true hlock (by simp [TickerPc.holds])
      · intro j hj
        rw [hpc]
        rfl
      · change _ ≤ last + 1
        omega
      · change last + 1 ≤ _
        omega
      · intro j hj
        rw [hpc]
        rcases Nat.lt_succ_iff_lt_or_eq.mp hj with hlt | heq
        · exact .inl hlt
        · refine .inr ⟨Fin.ext heq, ?_⟩
          change last + 1 = _
          omega
  | @release last i hpc =>
      have hlock := hwf.lock_of_holds (i := i) (by rw [hpc]; simp [TickerPc.holds])
      refine hwf.setDaemon (by rw [hlock]; simp) (by rw [hpc]; rfl) (by simp) ?_ ?_ (Nat.le_refl _)
        (hwf.high i) ?_
      · exact iff_of_false (by simp) (by simp [TickerPc.holds])
      · intro j hj
        rw [hpc]
        simp [TickerPc.holds, hj]
      · intro j hj
        rw [hpc]
        exact .inl hj

/-- The steps of the threads. -/
theorem Step.ticksWf_thread (h : Step s act s') (hact : act ≠ .tick) (hwf : TicksWf s) :
    TicksWf s' := by
  have hholds : ∀ {i : Fin n} {pc : Pc}, (s.threads i).pc = pc → pc.holds = true →
      (s.ticks i).lock = some .thread := by
    rintro i pc rfl h
    exact (hwf.thread i).mpr h
  cases h with
  | enter hpc => exact hwf.setThread (by rw [hpc]; rfl) trivial
  | @nest i gs hpc =>
      have hg := hwf.guards i
      rw [hpc] at hg
      refine hwf.setThread (by rw [hpc]; rfl) ⟨by simp, fun g hmem => ?_⟩
      rcases List.mem_cons.mp hmem with rfl | hmem
      · rfl
      · exact hg.2 g hmem
  | @retire i _ _ hpc =>
      refine hwf.setThread rfl ?_
      exact hwf.guards i
  | @unnest i b g g' gs hpc =>
      have hg := hwf.guards i
      rw [hpc] at hg
      exact hwf.setThread (by rw [hpc]; rfl)
        ⟨by simp, fun x hmem => hg.2 x (List.mem_cons_of_mem g hmem)⟩
  | leave hpc hreaping => exact hwf.setThread (by rw [hpc]; rfl) trivial
  | clear hpc hreaping => exact hwf.setThread (by rw [hpc]; rfl) trivial
  | @lock i hpc hfree =>
      exact hwf.setTick (iff_of_true rfl rfl) (by rw [hfree]; simp) (Nat.le_refl _) (hwf.high i)
        trivial
  | @load i hpc =>
      exact hwf.setThread (by rw [hpc]; rfl) ⟨hwf.high i, Nat.le_refl _⟩
  | @store i tick hpc =>
      have hlock := hholds hpc rfl
      have hg := hwf.guards i
      rw [hpc] at hg
      refine hwf.setTick (iff_of_true hlock rfl) Iff.rfl hg.1 hg.2 ⟨by simp, fun g hmem => ?_⟩
      exact List.mem_singleton.mp hmem
  | @run i _ _ _ hpc hreaping =>
      refine hwf.setThread rfl ?_
      exact hwf.guards i
  | @unlock i b hpc =>
      have hlock := hholds hpc rfl
      cases b with
      | true =>
          exact hwf.setTick (iff_of_false (by simp) (by simp [Pc.holds])) (by rw [hlock]; simp)
            (Nat.le_refl _) (hwf.high i) trivial
      | false =>
          exact hwf.setTick (iff_of_false (by simp) (by simp [Pc.holds])) (by rw [hlock]; simp)
            (Nat.le_refl _) (hwf.high i) trivial
  | @cleanup i hpc =>
      rcases Thread.doCleanup_pc (s.threads i) s.cleaningRcuTickExclusive with hout | hout
      · exact hwf.setThread (by rw [hpc, hout]; rfl) (by rw [hout]; trivial)
      · exact hwf.setThread (by rw [hpc, hout]; rfl) (by rw [hout]; trivial)
  | _ => exact absurd rfl hact

theorem Step.ticksWf (h : Step s act s') (hwf : TicksWf s) : TicksWf s' := by
  by_cases hact : act = .tick
  · subst hact
    exact h.ticksWf_tick hwf
  · exact h.ticksWf_thread hact hwf

theorem TicksWf.init (h : (rcu n).init s) : TicksWf s := by
  obtain ⟨hcurrent, hlast, hticker, hticks, hthreads⟩ := h
  refine ⟨fun i => ?_, fun i => ?_, ?_, ?_, fun i => ?_, fun i => ?_, fun i _ => ?_, fun i => ?_⟩
  · rw [hticks, hthreads]
    simp [Pc.holds]
  · rw [hticks, hticker]
    simp [TickerPc.holds]
  · rw [hcurrent, hlast, hticker]
    rfl
  · rw [hticker]
    simp [TickerPc.ending]
  · rw [hticks, hlast]
    exact Nat.one_pos
  · exact Nat.le_of_eq (by rw [hticks, hcurrent])
  · rw [hticks, hcurrent]
  · rw [hthreads]
    trivial

theorem rcu_ticksWf (h : (rcu n).Reachable s) : TicksWf s :=
  h.invariant (P := TicksWf) (fun _ hi => .init hi) fun _ _ _ _ hwf hn =>
    (Step.of_next hn).ticksWf hwf

end TicksWf

end TailBench.Silo.Rcu
