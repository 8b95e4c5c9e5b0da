import Mathlib.Algebra.Order.Field.Rat
import Mathlib.Data.List.Sort
import Mathlib.Tactic.Linarith

set_option autoImplicit false

/-! # Quantiles of a list

`IsQuantile p xs x`: at least the share `p` of the elements of `xs` is at most `x`. In a sorted
list the number of elements up to `x` is read off positions: more than `k` of them are at most
`x` exactly when the element at position `k` is.
-/

namespace TailBench.Lib

variable {α : Type*} [LinearOrder α]

/-- At least the share `p` of `xs` is at most `x`. -/
def IsQuantile (p : ℚ) (xs : List α) (x : α) : Prop :=
  p * xs.length ≤ xs.countP fun y => y ≤ x

theorem IsQuantile.perm_iff {p : ℚ} {xs ys : List α} (h : xs.Perm ys) (x : α) :
    IsQuantile p xs x ↔ IsQuantile p ys x := by
  unfold IsQuantile
  rw [h.length_eq, h.countP_eq]

/-- **Counting in a sorted list.** -/
theorem lt_countP_le_iff {a : List α} (ha : a.Pairwise (· ≤ ·)) (x : α) {k : Nat}
    (hk : k < a.length) : k < a.countP (fun y => y ≤ x) ↔ a[k] ≤ x := by
  induction a generalizing k with
  | nil => cases hk
  | cons y a ih =>
      obtain ⟨hy, ha⟩ := List.pairwise_cons.mp ha
      by_cases hyx : y ≤ x
      · rw [List.countP_cons_of_pos (by simpa using hyx)]
        cases k with
        | zero => simpa using hyx
        | succ k =>
            rw [Nat.add_lt_add_iff_right, ih ha (by simpa using hk)]
            rfl
      -- the first element is above `x`, and so are the others
      · have habove : ∀ z ∈ a, ¬ z ≤ x := fun z hz hzx => hyx ((hy z hz).trans hzx)
        have hnone : a.countP (fun y => y ≤ x) = 0 :=
          List.countP_eq_zero.mpr fun z hz => by simpa using habove z hz
        rw [List.countP_cons_of_neg (by simpa using hyx), hnone]
        cases k with
        | zero => simpa using hyx
        | succ k => simpa using habove _ (List.getElem_mem _)

/-- A quantile of a sorted list, by the position that has to be reached. -/
theorem isQuantile_iff {a : List α} (ha : a.Pairwise (· ≤ ·)) {p : ℚ} {k : Nat}
    (hk : k < a.length) (hlow : (k : ℚ) < p * a.length) (hhigh : p * a.length ≤ k + 1) (x : α) :
    IsQuantile p a x ↔ a[k] ≤ x := by
  rw [← lt_countP_le_iff ha x hk]
  unfold IsQuantile
  constructor
  · intro h
    exact_mod_cast hlow.trans_le h
  · intro h
    have hcount : (k + 1 : ℚ) ≤ (a.countP fun y => y ≤ x : Nat) := by exact_mod_cast h
    exact hhigh.trans hcount

end TailBench.Lib
