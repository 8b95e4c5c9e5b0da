import Mathlib.Data.List.TakeWhile
import TailBench.Lib.Bytes

set_option autoImplicit false

/-! # Byte memory

What a pointer points to: a byte at every offset, `load` and `store` of byte strings, and the
C string that is stored at a place. Memory has no bounds of its own. A program stays within a
buffer of `n` bytes when, whatever the memory held before, the offsets from `n` on hold it
afterwards.
-/

namespace TailBench.Lib

/-- The bytes from a pointer on. -/
abbrev Memory := Nat → UInt8

namespace Memory

variable {m m' : Memory} {p q n k i : Nat} {bs cs : Bytes}

/-- The `n` bytes from offset `p` on. -/
def load (m : Memory) (p n : Nat) : Bytes := (List.range n).map fun i => m (p + i)

/-- The memory after `bs` was copied to offset `p`. -/
def store (m : Memory) (p : Nat) (bs : Bytes) : Memory := fun i =>
  if p ≤ i then (bs[i - p]?).getD (m i) else m i

@[simp] theorem length_load (m : Memory) (p n : Nat) : (m.load p n).length = n := by
  simp [load]

@[simp] theorem load_zero (m : Memory) (p : Nat) : m.load p 0 = [] := rfl

theorem getElem?_load (h : i < n) : (m.load p n)[i]? = some (m (p + i)) := by
  simp [load, h]

theorem load_add (m : Memory) (p n k : Nat) :
    m.load p (n + k) = m.load p n ++ m.load (p + n) k := by
  simp only [load, List.range_add, List.map_append, List.map_map, List.append_cancel_left_eq]
  refine List.map_congr_left fun i _ => ?_
  rw [Function.comp_apply, Nat.add_assoc]

/-- What is loaded depends on the bytes that are loaded. -/
theorem load_congr (h : ∀ i, p ≤ i → i < p + n → m i = m' i) : m.load p n = m'.load p n := by
  refine List.map_congr_left fun i hi => h _ (by omega) ?_
  have := List.mem_range.mp hi
  omega

theorem take_load (h : k ≤ n) : (m.load p n).take k = m.load p k := by
  obtain ⟨j, rfl⟩ := Nat.exists_eq_add_of_le h
  rw [load_add, List.take_left' (length_load m p k)]

theorem drop_load (m : Memory) (p n k : Nat) : (m.load p n).drop k = m.load (p + k) (n - k) := by
  by_cases h : k ≤ n
  · obtain ⟨j, rfl⟩ := Nat.exists_eq_add_of_le h
    rw [load_add, List.drop_left' (length_load m p k), Nat.add_sub_cancel_left]
  · rw [List.drop_eq_nil_of_le (by rw [length_load]; omega), Nat.sub_eq_zero_of_le (by omega),
      load_zero]

/-! ## Stores -/

@[simp] theorem store_nil (m : Memory) (p : Nat) : m.store p [] = m := by
  funext i
  simp [store]

/-- A store leaves everything outside alone. -/
theorem store_outside (h : i < p ∨ p + bs.length ≤ i) : m.store p bs i = m i := by
  unfold store
  split
  · rw [List.getElem?_eq_none (by omega)]
    rfl
  · rfl

theorem store_inside (h : i < bs.length) : m.store p bs (p + i) = bs[i] := by
  rw [store, if_pos (by omega), Nat.add_sub_cancel_left, List.getElem?_eq_getElem h]
  rfl

@[simp] theorem store_cons_self (m : Memory) (p : Nat) (b : UInt8) (bs : Bytes) :
    m.store p (b :: bs) p = b := by
  simp [store]

/-- **What was stored is loaded.** -/
theorem load_store (m : Memory) (p : Nat) (bs : Bytes) : (m.store p bs).load p bs.length = bs := by
  refine List.ext_getElem? fun i => ?_
  by_cases h : i < bs.length
  · rw [getElem?_load h, store_inside h, List.getElem?_eq_getElem h]
  · rw [List.getElem?_eq_none (by rw [length_load]; omega), List.getElem?_eq_none (by omega)]

/-- A load elsewhere does not see a store. -/
theorem load_store_outside (h : p + n ≤ q ∨ q + bs.length ≤ p) :
    (m.store q bs).load p n = m.load p n :=
  load_congr fun i _ _ => store_outside (by omega)

/-- A load that goes on behind what was stored. -/
theorem load_store_le (m : Memory) (p : Nat) (h : bs.length ≤ n) :
    (m.store p bs).load p n = bs ++ m.load (p + bs.length) (n - bs.length) := by
  obtain ⟨k, rfl⟩ := Nat.exists_eq_add_of_le h
  rw [load_add, load_store, load_store_outside (.inr le_rfl), Nat.add_sub_cancel_left]

/-- A range that is copied is read as it was. -/
theorem load_copy (m m' : Memory) (p q : Nat) (h : i + k ≤ n) :
    (m.store q (m'.load p n)).load (q + i) k = m'.load (p + i) k := by
  refine List.ext_getElem? fun j => ?_
  by_cases hj : j < k
  · have hcell : m.store q (m'.load p n) (q + (i + j)) = m' (p + (i + j)) := by
      rw [store_inside (by rw [length_load]; omega)]
      exact Option.some.inj ((List.getElem?_eq_getElem _).symm.trans (getElem?_load (by omega)))
    rw [getElem?_load hj, getElem?_load hj, Nat.add_assoc, Nat.add_assoc, hcell]
  · rw [List.getElem?_eq_none (by rw [length_load]; omega),
      List.getElem?_eq_none (by rw [length_load]; omega)]

/-- Two stores in a row. -/
theorem store_append (m : Memory) (p : Nat) (bs cs : Bytes) :
    m.store p (bs ++ cs) = (m.store p bs).store (p + bs.length) cs := by
  funext i
  by_cases hlow : i < p + bs.length
  · rw [store_outside (.inl hlow)]
    by_cases hp : p ≤ i
    · obtain ⟨j, rfl⟩ := Nat.exists_eq_add_of_le hp
      have hj : j < bs.length := by omega
      rw [store_inside (by rw [List.length_append]; omega), store_inside hj,
        List.getElem_append_left hj]
    · rw [store_outside (.inl (by omega)), store_outside (.inl (by omega))]
  · by_cases hhigh : i < p + bs.length + cs.length
    · obtain ⟨j, rfl⟩ := Nat.exists_eq_add_of_le (not_lt.mp hlow)
      have hj : j < cs.length := by omega
      rw [store_inside hj, Nat.add_assoc, store_inside (by rw [List.length_append]; omega),
        List.getElem_append_right (by omega)]
      simp
    · rw [store_outside (.inr (by rw [List.length_append]; omega)),
        store_outside (.inr (by omega)), store_outside (.inr (by omega))]

/-- A store over another that is not longer. -/
theorem store_store (m : Memory) (p : Nat) {bs cs : Bytes} (h : bs.length ≤ cs.length) :
    (m.store p bs).store p cs = m.store p cs := by
  funext i
  by_cases hi : p ≤ i ∧ i < p + cs.length
  · obtain ⟨j, rfl⟩ := Nat.exists_eq_add_of_le hi.1
    rw [store_inside (by omega), store_inside (by omega)]
  · have hout : i < p ∨ p + cs.length ≤ i := by omega
    rw [store_outside hout, store_outside hout, store_outside (by omega)]

/-- A string is stored, and another from where it ends, over its zero. -/
theorem store_string_append (m : Memory) (p : Nat) (bs : Bytes) (c : UInt8) (cs : Bytes) :
    (m.store p (bs ++ [0])).store (p + bs.length) (c :: cs) = m.store p (bs ++ c :: cs) := by
  rw [store_append, store_store _ _ (by simp), ← store_append]

end Memory

/-! ## C strings -/

/-- The string in a buffer: its bytes up to the first zero. -/
def cString (buf : Bytes) : Bytes := buf.takeWhile (· ≠ 0)

theorem cString_eq_self_iff {bs : Bytes} : cString bs = bs ↔ 0 ∉ bs := by
  rw [cString, List.takeWhile_eq_self_iff]
  constructor
  · intro hall h0
    exact absurd (hall 0 h0) (by simp)
  · intro h0 b hb
    exact decide_eq_true fun hb0 => h0 (hb0 ▸ hb)

/-- What is behind a zero is not read. -/
theorem cString_append_zero (bs rest : Bytes) : cString (bs ++ 0 :: rest) = cString bs := by
  unfold cString
  induction bs with
  | nil => simp
  | cons b bs ih => rw [List.cons_append, List.takeWhile_cons, List.takeWhile_cons, ih]

theorem cString_append {bs rest : Bytes} (h : 0 ∉ bs) : cString (bs ++ 0 :: rest) = bs := by
  rw [cString_append_zero, cString_eq_self_iff.mpr h]

end TailBench.Lib
