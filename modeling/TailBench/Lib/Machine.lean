import Mathlib.Tactic.Basic

set_option autoImplicit false

/-! # Machines, runs and invariants

A machine has a set of initial states and a partial transition function: `next a s` is the
state after the action `a` in `s`, or `none` when `a` is not possible in `s`. The action
carries everything the machine does not decide itself (which thread moves, what a system
call returns), so a run is a list of actions and the states it visits.

* `ReachableBy ok`: the states of the runs whose every action passes `ok` in the state it
  is taken from; `Reachable` is the case without a condition.
* `ReachableBy.invariant`: what holds initially and is kept by every step holds in every
  reachable state.
* `Reachable.simulate`: a map that sends steps to runs sends reachable states to reachable
  states.
* `since`: the machine from a state on.
* `logged`: the machine with the list of the events of its run, so that an invariant can speak
  of what has happened.
* `Inevitable`: what every run that goes on as long as it can comes to; `Inevitable.of_measure`: a
  measure that every step decreases while some step is possible.
* `count`: how often an event happens in a run; `count_eq`: a potential that every step
  raises by what it counts for gives the number.
-/

namespace TailBench.Lib

/-- A machine with states `σ` and actions `α`. -/
structure Machine (σ α : Type*) where
  init : σ → Prop
  next : α → σ → Option σ

namespace Machine

variable {σ τ α β : Type*} (M : Machine σ α) (N : Machine τ β)

/-- The state after a list of actions, or `none` when one of them is not possible. -/
def exec : List α → σ → Option σ
  | [], s => some s
  | a :: as, s => (M.next a s).bind (exec as)

/-- The states reached by runs whose every action passes `ok`. -/
inductive ReachableBy (ok : σ → α → Prop) : σ → Prop
  | init {s : σ} : M.init s → ReachableBy ok s
  | step {s : σ} (a : α) {s' : σ} :
      ReachableBy ok s → ok s a → M.next a s = some s' → ReachableBy ok s'

/-- The states reached by any run. -/
def Reachable (s : σ) : Prop := M.ReachableBy (fun _ _ => True) s

/-- `s'` is reached from `s` by some list of actions. -/
def Leads (s s' : σ) : Prop := ∃ as, M.exec as s = some s'

variable {M N}

theorem exec_append (as bs : List α) (s : σ) :
    M.exec (as ++ bs) s = (M.exec as s).bind (M.exec bs) := by
  induction as generalizing s with
  | nil => rfl
  | cons a as ih =>
      simp only [List.cons_append, exec]
      cases M.next a s with
      | none => rfl
      | some s' => simpa using ih s'

theorem Leads.refl (s : σ) : M.Leads s s := ⟨[], rfl⟩

theorem Leads.single {a : α} {s s' : σ} (h : M.next a s = some s') : M.Leads s s' :=
  ⟨[a], by simp [exec, h]⟩

theorem Leads.trans {s t u : σ} (h : M.Leads s t) (h' : M.Leads t u) : M.Leads s u := by
  obtain ⟨as, ha⟩ := h
  obtain ⟨bs, hb⟩ := h'
  exact ⟨as ++ bs, by rw [exec_append, ha]; exact hb⟩

/-- What every step keeps, every run keeps. -/
theorem Leads.invariant {P : σ → Prop} (hstep : ∀ s a s', P s → M.next a s = some s' → P s')
    {s s' : σ} (h : M.Leads s s') (hs : P s) : P s' := by
  obtain ⟨as, ha⟩ := h
  induction as generalizing s with
  | nil =>
      obtain rfl : s = s' := by simpa [exec] using ha
      exact hs
  | cons a as ih =>
      simp only [exec, Option.bind_eq_some_iff] at ha
      obtain ⟨t, ht, hrest⟩ := ha
      exact ih (hstep s a t hs ht) hrest

theorem Reachable.step {s s' : σ} (hs : M.Reachable s) (a : α) (h : M.next a s = some s') :
    M.Reachable s' :=
  ReachableBy.step a hs trivial h

/-- Runs extend reachable states. -/
theorem Reachable.leads {s s' : σ} (hs : M.Reachable s) (h : M.Leads s s') :
    M.Reachable s' :=
  h.invariant (fun _ a _ ht hn => ht.step a hn) hs

/-- A concrete run leads to a state with a property. -/
theorem Leads.exists_of_exec {P : σ → Prop} [DecidablePred P] {s : σ} (as : List α)
    (h : (M.exec as s).any (fun t => decide (P t)) = true) : ∃ t, M.Leads s t ∧ P t := by
  rw [Option.any_eq_true_iff_get] at h
  obtain ⟨hsome, hP⟩ := h
  exact ⟨_, ⟨as, (Option.some_get hsome).symm⟩, by simpa using hP⟩

/-- A concrete run shows that a state with a property is reachable. -/
theorem Reachable.exists_of_exec {P : σ → Prop} [DecidablePred P] {s : σ} (as : List α)
    (hs : M.init s) (h : (M.exec as s).any (fun t => decide (P t)) = true) :
    ∃ t, M.Reachable t ∧ P t := by
  obtain ⟨t, ht, hP⟩ := Leads.exists_of_exec as h
  exact ⟨t, Reachable.leads (ReachableBy.init hs) ht, hP⟩

/-- The machine from a state on. -/
def since (M : Machine σ α) (s : σ) : Machine σ α where
  init := (· = s)
  next := M.next

/-- The machine that takes only the actions that pass a test. -/
def guard (M : Machine σ α) (ok : σ → α → Bool) : Machine σ α where
  init := M.init
  next := fun a s => if ok s a then M.next a s else none

/-- A run of the guarded machine is a run under the condition it tests for. -/
theorem Reachable.of_guard {test : σ → α → Bool} {ok : σ → α → Prop}
    (htest : ∀ s a, test s a = true → ok s a) {s : σ} (h : (M.guard test).Reachable s) :
    M.ReachableBy ok s := by
  induction h with
  | init hi => exact .init hi
  | @step s a s' _ _ hn ih =>
      simp only [guard] at hn
      split at hn
      · next ht => exact .step a ih (htest s a ht) hn
      · cases hn

/-- A run under a condition is one under a weaker condition. -/
theorem ReachableBy.mono {ok ok' : σ → α → Prop} (hok : ∀ s a, ok s a → ok' s a) {s : σ}
    (h : M.ReachableBy ok s) : M.ReachableBy ok' s := by
  induction h with
  | init hi => exact .init hi
  | @step s a s' _ ha hn ih => exact .step a ih (hok s a ha) hn

/-- A run under a condition is a run. -/
theorem ReachableBy.reachable {ok : σ → α → Prop} {s : σ} (h : M.ReachableBy ok s) :
    M.Reachable s :=
  h.mono fun _ _ _ => trivial

/-- **The invariant rule.** The step may use that its source is itself reachable, so
invariants proved earlier are at hand. -/
theorem ReachableBy.invariant {ok : σ → α → Prop} {P : σ → Prop}
    (hinit : ∀ s, M.init s → P s)
    (hstep : ∀ s a s', M.ReachableBy ok s → P s → ok s a → M.next a s = some s' → P s')
    {s : σ} (h : M.ReachableBy ok s) : P s := by
  induction h with
  | init hi => exact hinit _ hi
  | step a hr hok hn ih => exact hstep _ a _ hr ih hok hn

/-- The invariant rule for runs without a condition. -/
theorem Reachable.invariant {P : σ → Prop}
    (hinit : ∀ s, M.init s → P s)
    (hstep : ∀ s a s', M.Reachable s → P s → M.next a s = some s' → P s')
    {s : σ} (h : M.Reachable s) : P s :=
  ReachableBy.invariant hinit (fun s a s' hr hp _ hn => hstep s a s' hr hp hn) h

/-- **Simulation.** If `f` sends initial states of `M` to initial states of `N`, and every
step of `M` from a reachable state to a run of `N`, it sends every reachable state of `M`
to a reachable state of `N`. -/
theorem Reachable.simulate (f : σ → τ)
    (hinit : ∀ s, M.init s → N.init (f s))
    (hstep : ∀ s a s', M.Reachable s → M.next a s = some s' → N.Leads (f s) (f s'))
    {s : σ} (h : M.Reachable s) : N.Reachable (f s) :=
  Reachable.invariant (P := fun s => N.Reachable (f s))
    (fun s hi => ReachableBy.init (hinit s hi))
    (fun s a s' hr hp hn => hp.leads (hstep s a s' hr hn)) h

/-- What does not hold initially and holds later has begun to hold in some step. -/
theorem Reachable.exists_change {P : σ → Prop} (hinit : ∀ s, M.init s → ¬ P s) {s : σ}
    (h : M.Reachable s) (hp : P s) :
    ∃ s₁ a s₂, M.Reachable s₁ ∧ ¬ P s₁ ∧ M.next a s₁ = some s₂ ∧ P s₂ ∧ M.Leads s₂ s := by
  induction h with
  | init hi => exact absurd hp (hinit _ hi)
  | @step s a s' hr _ hn ih =>
      by_cases hs : P s
      -- it has begun to hold before this step
      · rcases ih hs with ⟨s₁, b, s₂, hr₁, hnot, hn₁, hp₂, hl⟩
        exact ⟨s₁, b, s₂, hr₁, hnot, hn₁, hp₂, hl.trans (.single hn)⟩
      · exact ⟨s, a, s', hr, hs, hn, hp, .refl s'⟩

/-! ### What every run comes to -/

/-- Every run from `s` that goes on as long as it can visits a state with `P`. -/
inductive Inevitable (M : Machine σ α) (P : σ → Prop) : σ → Prop
  | now {s : σ} : P s → Inevitable M P s
  | later {s : σ} : (∃ a s', M.next a s = some s') →
      (∀ a s', M.next a s = some s' → Inevitable M P s') → Inevitable M P s

/-- **The measure rule.** -/
theorem Inevitable.of_measure {P I : σ → Prop} (μ : σ → Nat)
    (hlive : ∀ s, I s → ¬ P s → ∃ a s', M.next a s = some s')
    (hstep : ∀ s a s', I s → M.next a s = some s' → I s' ∧ μ s' < μ s) {s : σ} (hs : I s) :
    M.Inevitable P s := by
  obtain ⟨k, hk⟩ : ∃ k, μ s < k := ⟨μ s + 1, Nat.lt_succ_self _⟩
  induction k generalizing s with
  | zero => omega
  | succ k ih =>
      by_cases hp : P s
      · exact .now hp
      · refine .later (hlive s hs hp) fun a s' hn => ?_
        obtain ⟨hs', hlt⟩ := hstep s a s' hs hn
        exact ih hs' (by omega)

/-! ### Events of a run -/

/-- Every element of a list passes a test that may look at the elements before it. -/
def EachAfter {ε : Type*} (ok : List ε → ε → Prop) (l : List ε) : Prop :=
  ∀ l₁ x l₂, l = l₁ ++ x :: l₂ → ok l₁ x

section EachAfter

variable {ε : Type*} {ok : List ε → ε → Prop}

theorem EachAfter.nil : EachAfter ok [] := by
  intro l₁ x l₂ h
  simp at h

theorem eachAfter_concat {l : List ε} {x : ε} :
    EachAfter ok (l ++ [x]) ↔ EachAfter ok l ∧ ok l x := by
  constructor
  · intro h
    refine ⟨fun l₁ y l₂ hl => h l₁ y (l₂ ++ [x]) ?_, h l x [] rfl⟩
    rw [hl, List.append_assoc, List.cons_append]
  · rintro ⟨hl, hx⟩ l₁ y l₂ hsplit
    rcases List.eq_nil_or_concat l₂ with rfl | ⟨l₃, z, rfl⟩
    · obtain ⟨rfl, hxy⟩ := List.append_inj' hsplit rfl
      obtain rfl : x = y := by simpa using hxy
      exact hx
    · rw [List.concat_eq_append, ← List.cons_append, ← List.append_assoc] at hsplit
      exact hl l₁ y l₃ (List.append_inj' hsplit rfl).1

/-- A log goes on, with an event or without. -/
theorem EachAfter.append_toList {l : List ε} {e : Option ε} (h : EachAfter ok l)
    (he : ∀ x, e = some x → ok l x) : EachAfter ok (l ++ e.toList) := by
  cases e with
  | none => simpa using h
  | some x => exact eachAfter_concat.mpr ⟨h, he x rfl⟩

end EachAfter

/-- The machine with the events of its run; `e` says which event a step is. -/
def logged {ε : Type*} (M : Machine σ α) (e : σ → α → σ → Option ε) : Machine (σ × List ε) α where
  init x := M.init x.1 ∧ x.2 = []
  next a x := (M.next a x.1).map fun s' => (s', x.2 ++ (e x.1 a s').toList)

section Logged

variable {ε : Type*} {e : σ → α → σ → Option ε}

theorem logged_next {a : α} {x y : σ × List ε} :
    (M.logged e).next a x = some y ↔
      M.next a x.1 = some y.1 ∧ y.2 = x.2 ++ (e x.1 a y.1).toList := by
  simp only [logged, Option.map_eq_some_iff]
  constructor
  · rintro ⟨s', hn, rfl⟩
    exact ⟨hn, rfl⟩
  · rintro ⟨hn, hl⟩
    exact ⟨y.1, hn, by rw [← hl]⟩

/-- A logged run is a run. -/
theorem Reachable.of_logged {x : σ × List ε} (h : (M.logged e).Reachable x) : M.Reachable x.1 := by
  refine Reachable.simulate (M := M.logged e) (N := M) Prod.fst ?_ ?_ h
  · intro x hi
    exact hi.1
  · intro x a y _ hn
    exact Leads.single (logged_next.mp hn).1

/-- The same under a condition that does not look at the log. -/
theorem ReachableBy.of_logged {ok : σ → α → Prop} {x : σ × List ε}
    (h : (M.logged e).ReachableBy (fun x => ok x.1) x) : M.ReachableBy ok x.1 := by
  induction h with
  | init hi => exact .init hi.1
  | step a _ ha hn ih => exact .step a ih ha (logged_next.mp hn).1

/-- **Simulation with events.** If every step becomes a run with the same event, every log of `M` is
one of `N`. -/
theorem ReachableBy.simulate_logged {e' : τ → β → τ → Option ε} {ok : σ → α → Prop} (f : σ → τ)
    (hinit : ∀ s, M.init s → N.init (f s))
    (hstep : ∀ s a s', M.ReachableBy ok s → ok s a → M.next a s = some s' → ∀ l,
      (N.logged e').Leads (f s, l) (f s', l ++ (e s a s').toList))
    {x : σ × List ε} (h : (M.logged e).ReachableBy (fun x => ok x.1) x) :
    (N.logged e').Reachable (f x.1, x.2) := by
  refine h.invariant (P := fun x => (N.logged e').Reachable (f x.1, x.2)) ?_ ?_
  · intro x hi
    exact ReachableBy.init ⟨hinit _ hi.1, hi.2⟩
  · intro x a y hr hx hok hn
    obtain ⟨hn, hl⟩ := logged_next.mp hn
    rw [hl]
    exact hx.leads (hstep x.1 a y.1 hr.of_logged hok hn x.2)

/-- **The rule for logs.** If every event passes a test when it is appended, every event of the log
of a run does. -/
theorem ReachableBy.eachAfter {cond : σ × List ε → α → Prop} {ok : List ε → ε → Prop}
    (hstep : ∀ x a s' y, (M.logged e).ReachableBy cond x → cond x a → M.next a x.1 = some s' →
      e x.1 a s' = some y → ok x.2 y)
    {x : σ × List ε} (h : (M.logged e).ReachableBy cond x) : EachAfter ok x.2 := by
  refine h.invariant (P := fun x => EachAfter ok x.2) ?_ ?_
  · rintro ⟨s, l⟩ ⟨_, rfl⟩
    exact .nil
  · intro x a z hr hl hc hn
    obtain ⟨hn, hlog⟩ := logged_next.mp hn
    rw [hlog]
    exact hl.append_toList fun y hy => hstep x a z.1 y hr hc hn hy

end Logged

/-- How many steps of a run are an event. -/
def count (M : Machine σ α) (e : σ → α → σ → Bool) : List α → σ → Nat
  | [], _ => 0
  | a :: as, s =>
      match M.next a s with
      | none => 0
      | some s' => (if e s a s' then 1 else 0) + count M e as s'

/-- **Counting by a potential.** If every step from a reachable state raises `φ` by one when
it is the event and keeps it otherwise, a run raises it by the number of its events. -/
theorem count_eq {e : σ → α → σ → Bool} {φ : σ → Nat}
    (hstep : ∀ s a s', M.Reachable s → M.next a s = some s' →
      φ s' = φ s + if e s a s' then 1 else 0)
    (as : List α) {s t : σ} (hs : M.Reachable s) (h : M.exec as s = some t) :
    φ t = φ s + M.count e as s := by
  induction as generalizing s with
  | nil =>
      obtain rfl : s = t := by simpa [exec] using h
      rfl
  | cons a as ih =>
      simp only [exec, Option.bind_eq_some_iff] at h
      rcases h with ⟨s', hn, hrest⟩
      calc φ t = φ s' + M.count e as s' := ih (hs.step a hn) hrest
        _ = φ s + M.count e (a :: as) s := by
            simp only [count, hn]
            rw [hstep s a s' hs hn]
            omega

/-- If every step from a reachable state lowers `μ` by at least one when it is the event
and never raises it, a run has at most `μ s` events. -/
theorem count_add_le {e : σ → α → σ → Bool} {μ : σ → Nat}
    (hstep : ∀ s a s', M.Reachable s → M.next a s = some s' →
      μ s' + (if e s a s' then 1 else 0) ≤ μ s)
    (as : List α) {s t : σ} (hs : M.Reachable s) (h : M.exec as s = some t) :
    M.count e as s + μ t ≤ μ s := by
  induction as generalizing s with
  | nil =>
      obtain rfl : s = t := by simpa [exec] using h
      simp [count]
  | cons a as ih =>
      simp only [exec, Option.bind_eq_some_iff] at h
      rcases h with ⟨s', hn, hrest⟩
      have hone := hstep s a s' hs hn
      have hmore := ih (hs.step a hn) hrest
      simp only [count, hn]
      omega

end Machine

end TailBench.Lib
