import Mathlib.Algebra.BigOperators.Fin
import Mathlib.Algebra.Order.BigOperators.Group.Finset
import Mathlib.Tactic.Basic

set_option autoImplicit false

/-! # Thread tables and mutexes

A process has a table `Fin n → β` of the places its threads are at; one step changes one
entry (`Function.update`). A quantity summed over the threads changes by that entry alone
(`sum_update`).

A table of mutexes `μ → Option τ` is *owned* by `held : τ → μ → Prop` when the recorded
holder of each mutex is the thread that, by its place, holds it. Taking, releasing and
passing through a step that touches no mutex keep this (`Owned.acquire`, `Owned.release`,
`Owned.frame`).
-/

namespace TailBench.Lib

/-! ## Numerals

`0 : Fin 1` names the only thread of a run. The instances below are constants, so that a definition
with such a numeral has no proof inside. -/

instance neZero_one : NeZero 1 := ⟨Nat.one_ne_zero⟩

instance neZero_two : NeZero 2 := ⟨Nat.succ_ne_zero 1⟩

instance neZero_three : NeZero 3 := ⟨Nat.succ_ne_zero 2⟩

/-! ## Sums over a thread table -/

/-- The sum of a weight over the threads after one entry changed. -/
theorem sum_update {n : Nat} {β : Type*} (w : β → Nat) (g : Fin n → β) (i : Fin n) (x : β) :
    (∑ j, w (Function.update g i x j)) + w (g i) = (∑ j, w (g j)) + w x := by
  have hcomp : (fun j => w (Function.update g i x j))
      = Function.update (fun j => w (g j)) i (w x) := by
    funext j
    by_cases hj : j = i
    · subst hj; simp
    · simp [hj]
  rw [hcomp, Finset.sum_update_of_mem (Finset.mem_univ i), Finset.sdiff_singleton_eq_erase,
    ← Finset.add_sum_erase Finset.univ (fun j => w (g j)) (Finset.mem_univ i)]
  omega

/-- What one thread counts for is at most the sum. -/
theorem le_sum {n : Nat} {β : Type*} (w : β → Nat) (g : Fin n → β) (i : Fin n) :
    w (g i) ≤ ∑ j, w (g j) :=
  Finset.single_le_sum (f := fun j => w (g j)) (fun _ _ => Nat.zero_le _) (Finset.mem_univ i)

/-- If one thread does not count and the sum is one short of the number of threads, all
others count. -/
theorem eq_one_of_sum {n : Nat} {w : Fin n → Nat} (hw : ∀ j, w j ≤ 1) {i : Fin n}
    (hi : w i = 0) (hsum : (∑ j, w j) + 1 = n) {j : Fin n} (hj : j ≠ i) : w j = 1 := by
  have hcard : ∑ k ∈ Finset.univ.erase i, 1 + 1 = n := by
    rw [Finset.sum_const, smul_eq_mul, mul_one, Finset.card_erase_add_one (Finset.mem_univ i),
      Finset.card_univ, Fintype.card_fin]
  have herase : ∑ k ∈ Finset.univ.erase i, w k = ∑ k ∈ Finset.univ.erase i, 1 := by
    have hadd := Finset.add_sum_erase Finset.univ w (Finset.mem_univ i)
    omega
  have hall := (Finset.sum_eq_sum_iff_of_le fun k _ => hw k).mp herase
  exact hall j (Finset.mem_erase.mpr ⟨hj, Finset.mem_univ j⟩)

/-- If the sum is less than the number of threads, one does not count. -/
theorem exists_ne_one_of_sum_lt {n : Nat} {w : Fin n → Nat} (h : ∑ j, w j < n) :
    ∃ j, w j ≠ 1 := by
  by_contra hall
  push Not at hall
  have hsum : ∑ j, w j = n := by simp [hall]
  omega

/-! ## A table with one holder -/

section Only

variable {τ β : Type*} {f : τ → Option β} {t u : τ} {x y : β}

/-- Where the others have nothing, what is found is the thread's own. -/
theorem only_eq (h : ∀ u, u ≠ t → f u = none) (ht : f t = some x) (hu : f u = some y) : y = x := by
  by_cases hut : u = t
  · rw [hut, ht] at hu
    exact (Option.some.inj hu).symm
  · rw [h u hut] at hu
    cases hu

theorem only_none (h : ∀ u, u ≠ t → f u = none) (ht : f t = none) (u : τ) : f u = none := by
  by_cases hut : u = t
  · rw [hut, ht]
  · exact h u hut

end Only

/-! ## Events of threads -/

theorem count_snd_filter {τ β : Type*} [DecidableEq τ] [DecidableEq β] (l : List (τ × β)) (t : τ)
    (b : β) : ((l.filter (·.1 = t)).map Prod.snd).count b = l.count (t, b) := by
  induction l with
  | nil => rfl
  | cons x l ih =>
      rcases x with ⟨u, c⟩
      by_cases hu : u = t
      · subst hu
        simp [List.count_cons, ih]
      · simp [hu, ih]

/-- Two logs in which every thread has the same events have the same events. -/
theorem perm_of_thread_eq {τ β : Type*} [DecidableEq τ] {l l' : List (τ × β)}
    (h : ∀ t, (l.filter (·.1 = t)).map Prod.snd = (l'.filter (·.1 = t)).map Prod.snd) :
    l.Perm l' := by
  classical
  rw [List.perm_iff_count]
  rintro ⟨t, b⟩
  rw [← count_snd_filter l, ← count_snd_filter l', h t]

/-! ## Mutexes -/

section Owned

variable {μ τ : Type*}

/-- The recorded holder of each mutex is the thread that holds it by its place. -/
def Owned (locks : μ → Option τ) (held : τ → μ → Prop) : Prop :=
  ∀ m t, locks m = some t ↔ held t m

variable {locks : μ → Option τ} {held held' : τ → μ → Prop} {t : τ} {m : μ}

/-- A step that takes and releases nothing. -/
theorem Owned.frame (h : Owned locks held) (hh : ∀ u k, held' u k ↔ held u k) :
    Owned locks held' := by
  intro k u
  rw [h k u, hh u k]

/-- Taking a free mutex. -/
theorem Owned.acquire [DecidableEq μ] (h : Owned locks held) (hfree : locks m = none)
    (hself : ∀ k, held' t k ↔ held t k ∨ k = m)
    (hother : ∀ u, u ≠ t → ∀ k, held' u k ↔ held u k) :
    Owned (Function.update locks m (some t)) held' := by
  intro k u
  by_cases hk : k = m
  · subst hk
    rw [Function.update_self]
    constructor
    · intro he
      obtain rfl : t = u := by simpa using he
      exact (hself k).mpr (Or.inr rfl)
    · intro hu
      by_cases hut : u = t
      · rw [hut]
      · have := (h k u).mpr ((hother u hut k).mp hu)
        rw [hfree] at this
        simp at this
  · rw [Function.update_of_ne hk, h k u]
    by_cases hut : u = t
    · subst hut; rw [hself k]; simp [hk]
    · rw [hother u hut k]

/-- Releasing a mutex. -/
theorem Owned.release [DecidableEq μ] (h : Owned locks held) (hheld : held t m)
    (hself : ∀ k, held' t k ↔ held t k ∧ k ≠ m)
    (hother : ∀ u, u ≠ t → ∀ k, held' u k ↔ held u k) :
    Owned (Function.update locks m none) held' := by
  intro k u
  by_cases hk : k = m
  · subst hk
    rw [Function.update_self]
    constructor
    · intro he; simp at he
    · intro hu
      by_cases hut : u = t
      · subst hut; exact absurd rfl ((hself k).mp hu).2
      · have hu' := (h k u).mpr ((hother u hut k).mp hu)
        rw [(h k t).mpr hheld] at hu'
        exact absurd (by simpa using hu'.symm) hut
  · rw [Function.update_of_ne hk, h k u]
    by_cases hut : u = t
    · subst hut; rw [hself k]; simp [hk]
    · rw [hother u hut k]

/-- At most one thread holds a mutex. -/
theorem Owned.unique (h : Owned locks held) {u : τ} (ht : held t m) (hu : held u m) :
    t = u := by
  have h1 := (h m t).mpr ht
  rw [(h m u).mpr hu] at h1
  simpa using h1.symm

/-! ### What a step does to the mutexes -/

/-- A step takes one mutex, releases one, or does neither. -/
inductive LockOp (μ : Type*) where
  | keep
  | acquire (m : μ)
  | release (m : μ)

/-- The table after the operation of thread `t`; `none` when the thread has to wait. -/
def LockOp.apply [DecidableEq μ] (t : τ) (locks : μ → Option τ) :
    LockOp μ → Option (μ → Option τ)
  | .keep => some locks
  | .acquire m =>
      match locks m with
      | none => some (Function.update locks m (some t))
      | some _ => none
  | .release m => some (Function.update locks m none)

/-- What a thread holds after the operation, when it held `h` before. -/
def LockOp.after (h : μ → Prop) : LockOp μ → μ → Prop
  | .keep, k => h k
  | .acquire m, k => h k ∨ k = m
  | .release m, k => h k ∧ k ≠ m

/-- A thread releases only what it holds. -/
def LockOp.Fits (h : μ → Prop) : LockOp μ → Prop
  | .release m => h m
  | _ => True

/-- **One step.** If the place of the stepping thread changes as the operation says, the
table stays owned. -/
theorem Owned.apply [DecidableEq μ] {op : LockOp μ} {locks' : μ → Option τ}
    (h : Owned locks held) (hop : op.apply t locks = some locks')
    (hfits : op.Fits (held t)) (hself : ∀ k, held' t k ↔ op.after (held t) k)
    (hother : ∀ u, u ≠ t → ∀ k, held' u k ↔ held u k) : Owned locks' held' := by
  cases op with
  | keep =>
      obtain rfl : locks = locks' := by simpa [LockOp.apply] using hop
      refine h.frame fun u k => ?_
      by_cases hut : u = t
      · subst hut; exact hself k
      · exact hother u hut k
  | acquire m =>
      simp only [LockOp.apply] at hop
      split at hop
      · next hfree =>
          obtain rfl := Option.some.inj hop
          exact h.acquire hfree hself hother
      · cases hop
  | release m =>
      obtain rfl : Function.update locks m none = locks' := by simpa [LockOp.apply] using hop
      exact h.release hfits hself hother

end Owned

end TailBench.Lib
