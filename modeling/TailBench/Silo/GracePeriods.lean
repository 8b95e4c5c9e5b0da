import TailBench.Lib.Threads
import TailBench.Silo.Cleanup

set_option autoImplicit false

/-! # Grace periods

What a thread has retired it runs in the same order, each entry once (`rcu_fifo`), and only when every
region that was under way at the time has ended (`rcu_grace`). The argument is about ticks: a guard
that is there when an entry is retired has at most the tick of the entry, and a cleaner runs an epoch
when the last tick that is over is beyond it, but a guard keeps its own tick from being over.
-/

namespace TailBench.Silo.Rcu

open Lib

variable {n : Nat}

/-! ## What the log says -/

/-- The thread is in a region after the log. -/
def inRegion (k : Fin n) (l : List (Event n)) : Bool :=
  l.foldl (fun b e => match e with
    | .enter i => if i = k then true else b
    | .leave i => if i = k then false else b
    | _ => b) false

/-- What the thread has retired, in order. -/
def retired (k : Fin n) (l : List (Event n)) : List DeleteEntry :=
  l.filterMap fun e => match e with
    | .retire i x => if i = k then some x else none
    | _ => none

/-- What the thread has run, in order. -/
def ran (k : Fin n) (l : List (Event n)) : List DeleteEntry :=
  l.filterMap fun e => match e with
    | .run i x => if i = k then some x else none
    | _ => none

/-- An entry that is run has been retired by the same thread, and every region that was under way then
has ended. -/
def Grace (l : List (Event n)) : Event n → Prop
  | .run i e => ∃ l₁ l₂, l = l₁ ++ .retire i e :: l₂
      ∧ ∀ k, inRegion k l₁ = true → .leave k ∈ l₂
  | _ => True

/-- The entry has been retired, and a region that was under way then has ended or has a tick of at
most its epoch; `tick k` is the tick of the region of `k`. -/
def Waits (tick : Fin n → Option Nat) (l : List (Event n)) (i : Fin n) (e : DeleteEntry)
    (epoch : Nat) : Prop :=
  ∃ l₁ l₂, l = l₁ ++ .retire i e :: l₂
    ∧ ∀ k, inRegion k l₁ = true → .leave k ∈ l₂ ∨ ∃ t, tick k = some t ∧ toRcuTicks t ≤ epoch

/-- The tick of the region of a thread. -/
def Pc.regionTick : Pc → Nat → Option Nat
  | .loaded t, _ => some t
  | .inside _, tick | .unlocking _, tick => some tick
  | _, _ => none

def State.regionTick (s : State n) (k : Fin n) : Option Nat :=
  (s.threads k).pc.regionTick (s.ticks k).currentTick

section Log

variable {l : List (Event n)} {ev : Event n} {i k : Fin n} {e : DeleteEntry} {epoch : Nat}
  {tick tick' : Fin n → Option Nat}

theorem inRegion_concat (k : Fin n) (l : List (Event n)) (ev : Event n) :
    inRegion k (l ++ [ev]) = match ev with
      | .enter i => if i = k then true else inRegion k l
      | .leave i => if i = k then false else inRegion k l
      | _ => inRegion k l := by
  rw [inRegion, List.foldl_append]
  rfl

theorem Waits.now (htick : ∀ k, inRegion k l = true → ∃ t, tick k = some t ∧ toRcuTicks t ≤ epoch) :
    Waits tick (l ++ [.retire i e]) i e epoch :=
  ⟨l, [], rfl, fun k hk => .inr (htick k hk)⟩

/-- The log goes on; a region that changes its tick has ended. -/
theorem Waits.append (h : Waits tick l i e epoch) (evs : List (Event n))
    (htick : ∀ k, tick' k = tick k ∨ .leave k ∈ evs ∨ tick k = none) :
    Waits tick' (l ++ evs) i e epoch := by
  obtain ⟨l₁, l₂, rfl, hregions⟩ := h
  refine ⟨l₁, l₂ ++ evs, by rw [List.append_assoc, List.cons_append], fun k hk => ?_⟩
  rcases hregions k hk with hleft | ⟨t, ht, hle⟩
  · exact .inl (List.mem_append_left _ hleft)
  · rcases htick k with hsame | hleave | hnone
    · exact .inr ⟨t, hsame.trans ht, hle⟩
    · exact .inl (List.mem_append_right _ hleave)
    · rw [hnone] at ht
      cases ht

end Log

/-! ## Regions -/

section Regions

variable {s s' : State n} {i k : Fin n} {act : Action n}

/-- A step and the regions. -/
inductive RegionStep (s s' : State n) : Option (Event n) → Prop
  | quiet {ev : Option (Event n)} (hev : ∀ i, ev ≠ some (.enter i) ∧ ev ≠ some (.leave i))
      (hsame : ∀ k, s'.regionTick k = s.regionTick k) : RegionStep s s' ev
  | enter (i : Fin n) (hold : s.regionTick i = none) (hnew : s'.regionTick i ≠ none)
      (hsame : ∀ k, k ≠ i → s'.regionTick k = s.regionTick k) : RegionStep s s' (some (.enter i))
  | leave (i : Fin n) (hold : s.regionTick i ≠ none) (hnew : s'.regionTick i = none)
      (hsame : ∀ k, k ≠ i → s'.regionTick k = s.regionTick k) : RegionStep s s' (some (.leave i))

theorem regionTick_setThread (s : State n) (i : Fin n) (t : Thread) (k : Fin n) :
    (s.setThread i t).regionTick k
      = if k = i then t.pc.regionTick (s.ticks i).currentTick else s.regionTick k := by
  rw [State.regionTick, State.setThread_threads, State.setThread_ticks]
  by_cases hk : k = i
  · rw [if_pos hk, hk, Function.update_self]
  · rw [if_neg hk, Function.update_of_ne hk]
    rfl

theorem regionTick_setTick (s : State n) (i : Fin n) (ti : TickInfo) (t : Thread) (k : Fin n) :
    ((s.setTick i ti).setThread i t).regionTick k
      = if k = i then t.pc.regionTick ti.currentTick else s.regionTick k := by
  rw [regionTick_setThread, State.setTick_ticks, Function.update_self]
  by_cases hk : k = i
  · rw [if_pos hk, if_pos hk]
  · rw [if_neg hk, if_neg hk, State.regionTick, State.setTick_ticks, Function.update_of_ne hk]
    rfl

/-- The daemon changes the tick of a core only if its thread is in no region. -/
theorem regionTick_daemon {ti : TickInfo} {p : TickerPc n}
    (h : (s.threads i).pc.holds = false ∨ ti.currentTick = (s.ticks i).currentTick) (k : Fin n) :
    State.regionTick { s.setTick i ti with ticker := p } k = s.regionTick k := by
  change (s.threads k).pc.regionTick (Function.update s.ticks i ti k).currentTick = s.regionTick k
  by_cases hk : k = i
  · subst hk
    rw [Function.update_self, State.regionTick]
    rcases h with hout | hsame
    · cases hpc : (s.threads k).pc with
      | inside => rw [hpc] at hout; cases hout
      | unlocking => rw [hpc] at hout; cases hout
      | _ => rfl
    · rw [hsame]
  · rw [Function.update_of_ne hk, State.regionTick]

theorem Step.region (h : Step s act s') (hwf : TicksWf s) :
    RegionStep s s' (event s act s') := by
  have hquiet : ∀ {i : Fin n} {t : Thread} {ev : Option (Event n)},
      (∀ j, ev ≠ some (.enter j) ∧ ev ≠ some (.leave j)) →
      t.pc.regionTick (s.ticks i).currentTick = s.regionTick i →
      RegionStep s (s.setThread i t) ev := by
    intro i t ev hev hsame
    refine .quiet hev fun k => ?_
    rw [regionTick_setThread]
    split
    · next hk => rw [hk, hsame]
    · rfl
  have hdaemon : ∀ {i : Fin n} {ti : TickInfo} {p : TickerPc n},
      (s.threads i).pc.holds = false ∨ ti.currentTick = (s.ticks i).currentTick →
      RegionStep s { s.setTick i ti with ticker := p } none := by
    intro i ti p h
    exact .quiet (by simp) (regionTick_daemon h)
  have hold : ∀ {i : Fin n} {pc : Pc}, (s.threads i).pc = pc →
      s.regionTick i = pc.regionTick (s.ticks i).currentTick := by
    rintro i pc rfl
    rfl
  cases h with
  | enter hpc => exact hquiet (by simp [event]) (by rw [hold hpc]; rfl)
  | nest hpc => exact hquiet (by simp [event]) (by rw [hold hpc]; rfl)
  | retire hpc => exact hquiet (by simp [event]) rfl
  | unnest hpc => exact hquiet (by simp [event]) (by rw [hold hpc]; rfl)
  | leave hpc hreaping => exact hquiet (by simp [event]) (by rw [hold hpc]; rfl)
  | clear hpc hreaping => exact hquiet (by simp [event]) (by rw [hold hpc]; rfl)
  | @lock i hpc hfree =>
      refine .quiet (by simp [event, hpc]) fun k => ?_
      rw [regionTick_setTick]
      split
      · next hk =>
          rw [hk, hold hpc]
          rfl
      · rfl
  | @load i hpc =>
      have hev : event s (.step i) (s.setThread i { s.threads i with pc := .loaded s.currentTick })
          = some (.enter i) := by simp [event, hpc]
      rw [hev]
      refine .enter i (by rw [hold hpc]; rfl) ?_ fun k hk => ?_
      · rw [regionTick_setThread, if_pos rfl]
        simp [Pc.regionTick]
      · rw [regionTick_setThread, if_neg hk]
  | @store i tick hpc =>
      refine .quiet (by simp [event, hpc]) fun k => ?_
      rw [regionTick_setTick]
      split
      · next hk =>
          rw [hk, hold hpc]
          rfl
      · rfl
  | run hpc hreaping => exact hquiet (by simp [event, hpc, hreaping]) rfl
  | @unlock i b hpc =>
      have hev : event s (.step i) ((s.setTick i { s.ticks i with lock := none }).setThread i
          { s.threads i with pc := if b then .cleaning else .outside }) = some (.leave i) := by
        simp [event, hpc]
      rw [hev]
      refine .leave i (by rw [hold hpc]; simp [Pc.regionTick]) ?_ fun k hk => ?_
      · rw [regionTick_setTick, if_pos rfl]
        cases b <;> rfl
      · rw [regionTick_setTick, if_neg hk]
  | @cleanup i hpc =>
      refine hquiet (by simp [event, hpc]) ?_
      rw [hold hpc]
      rcases Thread.doCleanup_pc (s.threads i) s.cleaningRcuTickExclusive with hout | hout
      · rw [hout]
        rfl
      · rw [hout]
        rfl
  | grab hpc hfree => exact hdaemon (.inr rfl)
  | @stamp last i hpc =>
      refine hdaemon (.inl ?_)
      have hlock := hwf.lock_of_holds (i := i) (by rw [hpc]; simp [TickerPc.holds])
      by_contra hheld
      rw [Bool.not_eq_false] at hheld
      rw [(hwf.thread i).mpr hheld] at hlock
      cases hlock
  | release hpc => exact hdaemon (.inr rfl)
  | _ => exact .quiet (by simp [event]) fun _ => rfl

/-- The tick of a region is not over, and not beyond the next tick of any core. -/
theorem TicksWf.regionTick (hwf : TicksWf s) {t : Nat} (ht : s.regionTick k = some t) (i : Fin n) :
    s.lastTickInclusive < t ∧ t ≤ (s.ticks i).currentTick + 1 := by
  have hlow := hwf.low k
  have hhigh := hwf.high k
  have hlowi := hwf.low i
  have hclock := hwf.clock
  have hbounds : (s.ticks k).currentTick ≤ t ∧ t ≤ s.currentTick := by
    have hg := hwf.guards k
    rw [State.regionTick] at ht
    cases hpc : (s.threads k).pc with
    | loaded t' =>
        rw [hpc] at ht hg
        obtain rfl := Option.some.inj ht
        exact hg
    | inside gs =>
        rw [hpc] at ht
        obtain rfl := Option.some.inj ht
        exact ⟨Nat.le_refl _, hhigh⟩
    | unlocking =>
        rw [hpc] at ht
        obtain rfl := Option.some.inj ht
        exact ⟨Nat.le_refl _, hhigh⟩
    | _ =>
        rw [hpc] at ht
        cases ht
  split at hclock <;> omega

end Regions

/-! ## Every run -/

section Runs

variable {s s' : State n} {l : List (Event n)} {i j : Fin n} {act : Action n}

/-- The entries of a thread with their epochs. -/
def Thread.stamped (t : Thread) : List (Nat × DeleteEntry) :=
  PxQueue.stamped t.scratch ++ PxQueue.stamped t.queue

structure Logged (s : State n) (l : List (Event n)) : Prop where
  region : ∀ k, inRegion k l = true ↔ s.regionTick k ≠ none
  fifo : ∀ i, retired i l = ran i l ++ (s.threads i).pending
  waits : ∀ i, ∀ x ∈ (s.threads i).stamped, Waits s.regionTick l i x.2 x.1

/-- A step and the queues of a thread. -/
inductive QueueStep (i : Fin n) (t t' : Thread) (tick : Nat) : Option (Event n) → Prop
  | quiet {ev : Option (Event n)}
      (hev : ∀ e, ev ≠ some (.retire i e) ∧ ev ≠ some (.run i e)) (hpending : t'.pending = t.pending)
      (hstamped : ∀ x ∈ t'.stamped, x ∈ t.stamped) : QueueStep i t t' tick ev
  | retire (e : DeleteEntry) (hpending : t'.pending = t.pending ++ [e])
      (hstamped : ∀ x ∈ t'.stamped, x ∈ t.stamped ∨ x = (toRcuTicks (tick + 1), e)) :
      QueueStep i t t' tick (some (.retire i e))
  | run (e : DeleteEntry) (hpending : t.pending = e :: t'.pending)
      (hstamped : ∀ x ∈ t'.stamped, x ∈ t.stamped) : QueueStep i t t' tick (some (.run i e))

theorem Thread.stamped_doCleanup (t : Thread) (k : Nat) (hscratch : t.scratch = []) :
    (t.doCleanup k).stamped = t.stamped := by
  unfold Thread.doCleanup
  split
  · rfl
  · have happend := PxQueue.stamped_acceptFrom (k - 1) t.queue
    dsimp only
    split
    · next hnone =>
        rw [hnone] at happend
        rw [Thread.stamped, Thread.stamped, hscratch, hnone]
        exact happend
    · rw [Thread.stamped, Thread.stamped, hscratch]
      exact happend

theorem Step.queues (h : Step s act s') (hthreads : ThreadsWf s) (j : Fin n) :
    QueueStep j (s.threads j) (s'.threads j) (s.ticks j).currentTick (event s act s') := by
  -- a step of another thread
  have hother : ∀ {i : Fin n} {s₁ : State n} {t : Thread} {ev : Option (Event n)},
      s₁.threads = s.threads →
      (∀ e, i ≠ j → ev ≠ some (.retire j e) ∧ ev ≠ some (.run j e)) →
      (i = j → QueueStep i (s.threads i) t (s.ticks i).currentTick ev) →
      QueueStep j (s.threads j) ((s₁.setThread i t).threads j) (s.ticks j).currentTick ev := by
    intro i s₁ t ev hs hev ht
    by_cases hji : j = i
    · subst hji
      rw [State.setThread_threads, Function.update_self]
      exact ht rfl
    · rw [State.setThread_threads, Function.update_of_ne hji, hs]
      exact .quiet (fun e => hev e (Ne.symm hji)) rfl fun _ hx => hx
  have hplain : ∀ {i : Fin n} {s₁ : State n} {pc : Pc} {ev : Option (Event n)},
      s₁.threads = s.threads → (∀ e, ev ≠ some (.retire j e) ∧ ev ≠ some (.run j e)) →
      QueueStep j (s.threads j) ((s₁.setThread i { s.threads i with pc := pc }).threads j)
        (s.ticks j).currentTick ev := by
    intro i s₁ pc ev hs hev
    refine hother hs (fun e _ => hev e) ?_
    rintro rfl
    exact .quiet hev rfl fun _ hx => hx
  cases h with
  | enter hpc => exact hplain rfl (by simp [event])
  | nest hpc => exact hplain rfl (by simp [event])
  | @retire i e gs hpc =>
      refine hother rfl (fun e' hij => by simp [event, hij]) fun _ => ?_
      refine .retire e ?_ fun x hx => ?_
      · rw [Thread.pending, PxQueue.flatMap_enqueue, ← List.append_assoc]
        rfl
      · rw [Thread.stamped, PxQueue.stamped_enqueue, ← List.append_assoc] at hx
        rcases List.mem_append.mp hx with hx | hx
        · exact .inl hx
        · exact .inr (List.mem_singleton.mp hx)
  | unnest hpc => exact hplain rfl (by simp [event])
  | leave hpc hreaping => exact hplain rfl (by simp [event])
  | @clear i b g hpc hreaping =>
      refine hother rfl (fun e _ => by simp [event]) fun _ => ?_
      refine .quiet (by simp [event]) ?_ fun x hx => List.mem_append_right _ hx
      rw [Thread.pending, Thread.pending, hreaping]
      rfl
  | lock hpc hfree => exact hplain rfl (by simp [event, hpc])
  | load hpc => exact hplain rfl (by simp [event, hpc])
  | store hpc => exact hplain rfl (by simp [event, hpc])
  | @run i g e es hpc hreaping =>
      have hev : event s (.step i) (s.setThread i { s.threads i with reaping := some es })
          = some (.run i e) := by simp [event, hpc, hreaping]
      rw [hev]
      refine hother rfl (fun e' hij => by simp [hij]) fun _ => ?_
      refine .run e ?_ fun _ hx => hx
      rw [Thread.pending, Thread.pending, hreaping]
      rfl
  | unlock hpc => exact hplain rfl (by simp [event, hpc])
  | @cleanup i hpc =>
      refine hother rfl (fun e _ => by simp [event, hpc]) fun _ => ?_
      have hreaping : (s.threads i).reaping = none := by
        by_contra hr
        have hreaps := (hthreads i).region hr
        rw [hpc] at hreaps
        cases hreaps
      refine .quiet (by simp [event, hpc]) (Thread.pending_doCleanup _ _ hreaping) fun x hx => ?_
      rwa [Thread.stamped_doCleanup _ _ ((hthreads i).idle hreaping)] at hx
  | _ => exact .quiet (by simp [event]) rfl fun _ hx => hx

theorem retired_append (k : Fin n) (l : List (Event n)) (ev : Event n) :
    retired k (l ++ [ev]) = match ev with
      | .retire i e => if i = k then retired k l ++ [e] else retired k l
      | _ => retired k l := by
  rw [retired, List.filterMap_append]
  cases ev with
  | retire i e =>
      by_cases hi : i = k
      · simp [hi, retired]
      · simp [hi, retired]
  | _ => simp [retired]

theorem ran_append (k : Fin n) (l : List (Event n)) (ev : Event n) :
    ran k (l ++ [ev]) = match ev with
      | .run i e => if i = k then ran k l ++ [e] else ran k l
      | _ => ran k l := by
  rw [ran, List.filterMap_append]
  cases ev with
  | run i e =>
      by_cases hi : i = k
      · simp [hi, ran]
      · simp [hi, ran]
  | _ => simp [ran]

/-- The regions in the log are the regions of the threads. -/
theorem RegionStep.region {ev : Option (Event n)} (h : RegionStep s s' ev)
    (hl : ∀ k, inRegion k l = true ↔ s.regionTick k ≠ none) (k : Fin n) :
    inRegion k (l ++ ev.toList) = true ↔ s'.regionTick k ≠ none := by
  cases h with
  | quiet hev hsame =>
      rw [hsame k, ← hl k]
      cases ev with
      | none => rw [Option.toList_none, List.append_nil]
      | some ev =>
          rw [Option.toList_some, inRegion_concat]
          cases ev with
          | enter i => exact absurd rfl (hev i).1
          | leave i => exact absurd rfl (hev i).2
          | _ => rfl
  | enter i hold hnew hsame =>
      rw [Option.toList_some, inRegion_concat]
      by_cases hk : i = k
      · rw [← hk]
        simp [hnew]
      · simp only [if_neg hk, hsame k (Ne.symm hk)]
        exact hl k
  | leave i hold hnew hsame =>
      rw [Option.toList_some, inRegion_concat]
      by_cases hk : i = k
      · rw [← hk]
        simp [hnew]
      · simp only [if_neg hk, hsame k (Ne.symm hk)]
        exact hl k

/-- A region that changes its tick has ended. -/
theorem RegionStep.tick {ev : Option (Event n)} (h : RegionStep s s' ev) (k : Fin n) :
    s'.regionTick k = s.regionTick k ∨ .leave k ∈ ev.toList ∨ s.regionTick k = none := by
  cases h with
  | quiet hev hsame => exact .inl (hsame k)
  | enter i hold hnew hsame =>
      by_cases hk : k = i
      · exact .inr (.inr (hk ▸ hold))
      · exact .inl (hsame k hk)
  | leave i hold hnew hsame =>
      by_cases hk : k = i
      · exact .inr (.inl (by simp [hk]))
      · exact .inl (hsame k hk)

theorem Logged.fifo_step (hl : Logged s l) {ev : Option (Event n)}
    (h : QueueStep j (s.threads j) (s'.threads j) (s.ticks j).currentTick ev) :
    retired j (l ++ ev.toList) = ran j (l ++ ev.toList) ++ (s'.threads j).pending := by
  have hold := hl.fifo j
  generalize s.threads j = t at h hold
  generalize s'.threads j = t' at h ⊢
  cases h with
  | quiet hev hpending hstamped =>
      rw [hpending]
      cases ev with
      | none => rwa [Option.toList_none, List.append_nil]
      | some ev =>
          rw [Option.toList_some, retired_append, ran_append]
          cases ev with
          | retire i e =>
              have hi : i ≠ j := fun hi => (hev e).1 (by rw [hi])
              simpa only [if_neg hi] using hold
          | run i e =>
              have hi : i ≠ j := fun hi => (hev e).2 (by rw [hi])
              simpa only [if_neg hi] using hold
          | _ => exact hold
  | retire e hpending hstamped =>
      rw [Option.toList_some, retired_append, ran_append]
      simp only [if_true]
      rw [hpending, hold, List.append_assoc]
  | run e hpending hstamped =>
      rw [Option.toList_some, retired_append, ran_append]
      simp only [if_true]
      rw [hold, hpending, List.append_assoc]
      rfl

theorem Logged.step (hl : Logged s l) (hwf : TicksWf s) (hthreads : ThreadsWf s)
    (h : Step s act s') : Logged s' (l ++ (event s act s').toList) := by
  have hregion := h.region hwf
  refine ⟨hregion.region hl.region, fun i => hl.fifo_step (h.queues hthreads i), fun i x hx => ?_⟩
  have hkeep : x ∈ (s.threads i).stamped →
      Waits s'.regionTick (l ++ (event s act s').toList) i x.2 x.1 :=
    fun hx => (hl.waits i x hx).append _ hregion.tick
  have hqueue := h.queues hthreads i
  cases hev : event s act s' with
  | none =>
      rw [hev] at hkeep hqueue
      cases hqueue with
      | quiet _ _ hstamped => exact hkeep (hstamped x hx)
  | some ev =>
      rw [hev] at hkeep hqueue hregion
      cases hqueue with
      | quiet _ _ hstamped => exact hkeep (hstamped x hx)
      | run e _ hstamped => exact hkeep (hstamped x hx)
      | retire e _ hstamped =>
          rcases hstamped x hx with hx | rfl
          · exact hkeep hx
          · cases hregion with
            | quiet _ hsame =>
                refine Waits.now fun k hk => ?_
                obtain ⟨t, ht⟩ := Option.ne_none_iff_exists'.mp ((hl.region k).mp hk)
                exact ⟨t, (hsame k).trans ht, toRcuTicks_mono (hwf.regionTick ht i).2⟩

theorem Logged.init (h : (rcu n).init s) : Logged s [] := by
  obtain ⟨-, -, -, -, hthreads⟩ := h
  refine ⟨fun k => ?_, fun i => ?_, fun i x hx => ?_⟩
  · rw [State.regionTick, hthreads]
    simp [inRegion, Pc.regionTick]
  · rw [hthreads]
    rfl
  · rw [hthreads] at hx
    cases hx

theorem rcu_logged {x : State n × List (Event n)} (h : ((rcu n).logged event).Reachable x) :
    Logged x.1 x.2 := by
  refine h.invariant (P := fun x => Logged x.1 x.2) ?_ ?_
  · rintro ⟨s, l⟩ ⟨hi, hl⟩
    obtain rfl : l = [] := hl
    exact .init hi
  · intro x act y hr hl hn
    obtain ⟨hn, hy⟩ := Machine.logged_next.mp hn
    rw [hy]
    exact hl.step (rcu_ticksWf hr.of_logged) (rcu_threadsWf hr.of_logged) (Step.of_next hn)

/-- An entry is run from the queue of the cleaner. -/
theorem reaping_of_run {e : DeleteEntry} (h : event s act s' = some (.run i e)) :
    ∃ es, (s.threads i).reaping = some (e :: es) := by
  cases act with
  | step j =>
      simp only [event] at h
      split at h
      · cases h
      · cases h
      · next e' es hpc hreaping =>
          obtain ⟨rfl, rfl⟩ : j = i ∧ e' = e := by simpa using h
          exact ⟨es, hreaping⟩
      · cases h
  | _ => cases h

/-- **Grace periods.** Whenever a thread runs an entry, it has retired it, and every region of every
thread that was under way at that moment has ended since. -/
theorem rcu_grace {x : State n × List (Event n)} (h : ((rcu n).logged event).Reachable x) :
    Machine.EachAfter Grace x.2 := by
  refine h.eachAfter fun x act s' ev hr _ _ hev => ?_
  cases ev with
  | run i e =>
      obtain ⟨es, hreaping⟩ := reaping_of_run hev
      have hwf := rcu_ticksWf hr.of_logged
      have hthread := rcu_threadsWf hr.of_logged i
      have hmem : e ∈ (x.1.threads i).scratch.flatMap (·.pxs) :=
        (hthread.todo _ hreaping).subset (List.mem_cons_self ..)
      rw [← PxQueue.map_snd_stamped] at hmem
      obtain ⟨⟨epoch, e'⟩, hstamped, rfl⟩ := List.mem_map.mp hmem
      have hended : epoch < toRcuTicks (x.1.lastTickInclusive + 1) := by
        obtain ⟨g, hg, hge⟩ := List.mem_flatMap.mp hstamped
        obtain ⟨e'', -, heq⟩ := List.mem_map.mp hge
        rw [← (Prod.mk.inj heq).1]
        exact hthread.ended g hg
      obtain ⟨l₁, l₂, hsplit, hregions⟩ :=
        (rcu_logged hr).waits i (epoch, e') (List.mem_append_left _ hstamped)
      refine ⟨l₁, l₂, hsplit, fun k hk => ?_⟩
      rcases hregions k hk with hleft | ⟨t, ht, hle⟩
      · exact hleft
      -- a region that is still there would keep its tick, and so the epoch, from being over
      · have hlow := (hwf.regionTick ht i).1
        have hmono : toRcuTicks (x.1.lastTickInclusive + 1) ≤ toRcuTicks t :=
          toRcuTicks_mono (by omega)
        exact absurd (Nat.lt_of_lt_of_le hended hmono) (Nat.not_lt_of_le hle)
  | _ => trivial

/-- **Nothing is lost, run twice or out of order**: what a thread has retired is what it has run and
then what it has still to run. A cleaner that has looked at its queue leaves no epoch that is over in
it, but for the very first one. -/
theorem rcu_fifo {x : State n × List (Event n)} (h : ((rcu n).logged event).Reachable x) (i : Fin n) :
    retired i x.2 = ran i x.2 ++ (x.1.threads i).pending
      ∧ ∀ g ∈ ((x.1.threads i).doCleanup x.1.cleaningRcuTickExclusive).queue,
        x.1.cleaningRcuTickExclusive ≤ g.tick ∨ x.1.cleaningRcuTickExclusive = 1 :=
  ⟨(rcu_logged h).fifo i, fun _ hg => (rcu_threadsWf h.of_logged i).le_of_cleaned hg⟩

/-! ## A run -/

/-- Two cores at the start. -/
def start : State 2 where
  ticks := fun _ => ⟨none, 1⟩
  threads := fun _ => ⟨.outside, [], [], none, 0⟩
  ticker := .sleeping
  currentTick := 1
  lastTickInclusive := 0

theorem start_init : (rcu 2).init start :=
  ⟨rfl, rfl, rfl, fun _ => rfl, fun _ => rfl⟩

/-- Core `0` retires an entry while core `1` is in a region. -/
def retireSteps : List (Action 2) :=
  [.enter 1, .step 1, .step 1, .step 1, .enter 0, .step 0, .step 0, .step 0, .retire 0 ⟨7, -8⟩,
    .leave 0 true, .step 0, .step 0, .leave 1 false, .step 1]

/-- The daemon ends `m` ticks while no thread is in a region. -/
def tickSteps (m : Nat) : List (Action 2) := List.replicate (10 * m) .tick

/-- Core `0` has a region when the epoch is over, and cleans up. -/
def cleanSteps : List (Action 2) :=
  [.enter 0, .step 0, .step 0, .step 0, .leave 0 true, .step 0, .step 0, .step 0, .step 0, .step 0,
    .step 0]

/-- The daemon waits for a core whose thread is in a region. -/
theorem rcu_asserts_run : ∃ s : State 2, (s.threads 0).pc = .inside [1] ∧ s.currentTick = 2
    ∧ s.Asserts (.leave 0 true) := by
  obtain ⟨s, hs, hpc, hcurrent⟩ := Machine.Reachable.exists_of_exec (M := rcu 2)
    (P := fun s => (s.threads 0).pc = .inside [1] ∧ s.currentTick = 2) (s := start)
    [.enter 0, .step 0, .step 0, .step 0, .tick, .tick] start_init (by decide)
  exact ⟨s, hpc, hcurrent, rcu_asserts hs (.leave 0 true)⟩

theorem rcu_grace_run : ∃ x : State 2 × List (Event 2),
    x.2 = [.enter 1, .enter 0, .retire 0 ⟨7, -8⟩, .leave 0, .leave 1, .enter 0, .leave 0, .enter 0,
      .run 0 ⟨7, -8⟩] ∧ Machine.EachAfter Grace x.2 := by
  obtain ⟨x, hx, hlog⟩ := Machine.Reachable.exists_of_exec (M := (rcu 2).logged event)
    (P := fun x => x.2 = [.enter 1, .enter 0, .retire 0 ⟨7, -8⟩, .leave 0, .leave 1, .enter 0,
      .leave 0, .enter 0, .run 0 ⟨7, -8⟩]) (s := (start, []))
    (retireSteps ++ tickSteps 49 ++ cleanSteps) ⟨start_init, rfl⟩ (by decide +kernel)
  exact ⟨x, hlog, rcu_grace hx⟩

theorem rcu_fifo_run : ∃ x : State 2 × List (Event 2), ran 0 x.2 = [⟨7, -8⟩]
    ∧ retired 0 x.2 = ran 0 x.2 ++ (x.1.threads 0).pending
    ∧ ∀ g ∈ ((x.1.threads 0).doCleanup x.1.cleaningRcuTickExclusive).queue,
      x.1.cleaningRcuTickExclusive ≤ g.tick ∨ x.1.cleaningRcuTickExclusive = 1 := by
  obtain ⟨x, hx, hlog⟩ := Machine.Reachable.exists_of_exec (M := (rcu 2).logged event)
    (P := fun x => ran 0 x.2 = [⟨7, -8⟩]) (s := (start, []))
    (retireSteps ++ tickSteps 49 ++ cleanSteps) ⟨start_init, rfl⟩ (by decide +kernel)
  exact ⟨x, hlog, rcu_fifo hx 0⟩

end Runs

end TailBench.Silo.Rcu
