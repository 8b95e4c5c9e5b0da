import Mathlib.Data.List.Rotate

set_option autoImplicit false

/-! # Round robin

A scan looks at the elements of a list from a position on, cyclically, and takes the first one that
passes a test; the position need not be in the range. In a series of scans each begins one position
further.

* `visits n h`: the indices in the order of a scan from `h` on; a rotation of `0, …, n - 1`.
* `pick`: what a scan takes. It takes nothing only if no element passes (`pick_eq_none`).
* `turns`: what a series of scans takes. In as many scans as there are elements, an element that
  passes every test is taken (`mem_turns`), and if all pass, each has its turn (`turns_eq`).
-/

namespace TailBench.Lib

/-- The indices of a list of length `n`, from `h` on. -/
def visits (n h : Nat) : List Nat := (List.range n).map fun i => (h + i) % n

theorem visits_eq_rotate (n h : Nat) : visits n h = (List.range n).rotate h := by
  refine List.ext_getElem (by simp [visits]) fun i hi hi' => ?_
  simp [visits, List.getElem_rotate, Nat.add_comm]

/-- **The order of a scan**: every index once, cyclically. -/
theorem visits_spec (n h : Nat) :
    (visits n h).Nodup ∧ (visits n h).IsRotated (List.range n) ∧
      ∀ i, i + 1 < n → (visits n h)[i + 1]? = (visits n h)[i]?.map fun k => (k + 1) % n := by
  rw [visits_eq_rotate]
  refine ⟨List.nodup_rotate.mpr List.nodup_range, List.IsRotated.forall _ h, fun i hi => ?_⟩
  rw [← visits_eq_rotate]
  have hbefore : i < n := by omega
  simp [visits, hi, hbefore, Nat.add_assoc]

section Pick

variable {α : Type*} {l : List α} {h : Nat} {p : α → Bool} {x : α}

/-- The first element from position `h` on that passes the test. -/
def pick (l : List α) (h : Nat) (p : α → Bool) : Option α := (l.rotate h).find? p

theorem pick_mod (l : List α) (h : Nat) (p : α → Bool) : pick l (h % l.length) p = pick l h p := by
  rw [pick, List.rotate_mod, pick]

theorem pick_eq_none : pick l h p = none ↔ ∀ x ∈ l, p x = false := by
  simp [pick, List.find?_eq_none]

/-- **What a scan takes**: an element that passes, when none of those visited before does. -/
theorem pick_eq_some :
    pick l h p = some x ↔ p x = true ∧ ∃ k, k < l.length ∧ l[(h + k) % l.length]? = some x ∧
      ∀ j < k, ∀ y, l[(h + j) % l.length]? = some y → p y = false := by
  have hget : ∀ k, k < l.length → (l.rotate h)[k]? = l[(h + k) % l.length]? := by
    intro k hk
    rw [List.getElem?_rotate hk, Nat.add_comm]
  rw [pick, List.find?_eq_some_iff_getElem]
  refine and_congr_right fun _ => ⟨?_, ?_⟩
  · rintro ⟨k, hk, rfl, hbefore⟩
    have hk' : k < l.length := by simpa using hk
    refine ⟨k, hk', ?_, fun j hj y hy => ?_⟩
    · rw [← hget k hk', List.getElem?_eq_getElem hk]
    · rw [← hget j (hj.trans hk'), List.getElem?_eq_getElem (hj.trans hk)] at hy
      obtain rfl := Option.some.inj hy
      simpa using hbefore j hj
  · rintro ⟨k, hk, hx, hbefore⟩
    have hk' : k < (l.rotate h).length := by simpa using hk
    rw [← hget k hk, List.getElem?_eq_getElem hk'] at hx
    refine ⟨k, hk', Option.some.inj hx, fun j hj => ?_⟩
    have hy := hbefore j hj (l.rotate h)[j]
      (by rw [← hget j (hj.trans hk), List.getElem?_eq_getElem (hj.trans hk')])
    rw [hy]
    rfl

/-- The element at the position itself is taken if it passes. -/
theorem pick_of_head (hx : l[h % l.length]? = some x) (hp : p x = true) : pick l h p = some x := by
  have hlt : h % l.length < l.length := (List.getElem?_eq_some_iff.mp hx).1
  refine pick_eq_some.mpr ⟨hp, 0, by omega, hx, fun j hj => absurd hj (Nat.not_lt_zero j)⟩

end Pick

section Turns

variable {α : Type*} {l : List α} {h : Nat} {ps : List (α → Bool)} {x : α}

/-- A series of scans, each with its test. -/
def turns (l : List α) : Nat → List (α → Bool) → List (Option α)
  | _, [] => []
  | h, p :: ps => pick l h p :: turns l (h + 1) ps

theorem turns_concat (l : List α) (h : Nat) (ps : List (α → Bool)) (p : α → Bool) :
    turns l h (ps ++ [p]) = turns l h ps ++ [pick l (h + ps.length) p] := by
  induction ps generalizing h with
  | nil => rfl
  | cons q ps ih =>
      simp only [List.cons_append, turns, ih, List.length_cons]
      rw [Nat.add_right_comm, Nat.add_assoc]

theorem getElem?_turns (l : List α) (h : Nat) (ps : List (α → Bool)) (t : Nat) :
    (turns l h ps)[t]? = ps[t]?.map fun p => pick l (h + t) p := by
  induction ps generalizing h t with
  | nil => simp [turns]
  | cons p ps ih =>
      cases t with
      | zero => rfl
      | succ t =>
          simp only [turns, List.getElem?_cons_succ, ih]
          rw [Nat.add_right_comm, Nat.add_assoc]

/-- **Nobody starves.** An element that passes every test of a whole round is taken. -/
theorem mem_turns (hlen : ps.length = l.length) (hx : x ∈ l) (hp : ∀ p ∈ ps, p x = true) :
    some x ∈ turns l h ps := by
  -- the scan that begins at `x`
  obtain ⟨t, ht, hget⟩ := List.getElem_of_mem (List.mem_rotate.mpr hx : x ∈ l.rotate h)
  rw [List.length_rotate] at ht
  have hhead : l[(h + t) % l.length]? = some x := by
    rw [Nat.add_comm, ← List.getElem?_rotate ht, List.getElem?_eq_some_iff]
    exact ⟨by simpa using ht, hget⟩
  have hlt : t < ps.length := by omega
  refine List.mem_of_getElem? (i := t) ?_
  rw [getElem?_turns, List.getElem?_eq_getElem hlt, Option.map_some,
    pick_of_head hhead (hp _ (List.getElem_mem hlt))]

/-- **Fair turns.** If all elements pass in a whole round, they are taken in the order of the list,
from the first position on. -/
theorem turns_eq (hlen : ps.length = l.length) (hp : ∀ p ∈ ps, ∀ x ∈ l, p x = true) :
    turns l h ps = (l.rotate h).map some := by
  refine List.ext_getElem? fun t => ?_
  rw [getElem?_turns, List.getElem?_map]
  by_cases ht : t < l.length
  · have hlt : t < ps.length := by omega
    have hmod : (h + t) % l.length < l.length := Nat.mod_lt _ (by omega)
    rw [List.getElem?_eq_getElem hlt, List.getElem?_rotate ht, Nat.add_comm t h,
      List.getElem?_eq_getElem hmod, Option.map_some, Option.map_some,
      pick_of_head (List.getElem?_eq_getElem hmod)
        (hp _ (List.getElem_mem hlt) _ (List.getElem_mem hmod))]
  · rw [List.getElem?_eq_none (by omega), List.getElem?_eq_none (by simpa using ht)]
    rfl

theorem turns_perm (hlen : ps.length = l.length) (hp : ∀ p ∈ ps, ∀ x ∈ l, p x = true) :
    (turns l h ps).Perm (l.map some) := by
  rw [turns_eq hlen hp]
  exact (List.rotate_perm l h).map some

end Turns

end TailBench.Lib
