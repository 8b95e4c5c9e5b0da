import Mathlib.Data.List.Nodup
import Mathlib.Data.List.InsertIdx
import Mathlib.Data.List.Range
import Mathlib.Data.List.Perm.Basic
import TailBench.Lib.Machine
import TailBench.Lib.Nibble

set_option autoImplicit false

/-! # The permutation of a masstree node

`kpermuter` of `masstree/kpermuter.hh` for the widths 8 to 15, whose storage is one 64-bit word; a
narrower node has a word of 16 or 32 bits, which is not modelled (the lemmas hold for a 64-bit word
of any width up to 15). The lowest nibble is the number of elements; nibble `i + 1` is the element
at position `i`. The positions from the size on are the free slots, the last of them allocated
first. `insert_selected`, `rotate` and `exchange_values` are left out.

`Slots` is what the word stands for: the used slots in order and the free ones. Every operation on
words does to the slots what its comment says (`view_apply`), and over any run no slot is lost or
in two places (`permuter_refines`).
-/

namespace TailBench.Masstree

open Lib

namespace Kpermuter

/-- `info::initial_value` -/
def initialValue : Word := 0x0123456789ABCDE0#64

/-- `info::full_value` -/
def fullValue : Word := 0xEDCBA98765432100#64

/-! ## The operations -/

def makeEmpty (width : Nat) : Word := (initialValue >>> (4 * (15 - width))) &&& ~~~ 15#64

def makeSorted (width n : Nat) : Word :=
  let mask := (if n = width then 0#64 else 16#64 <<< (4 * n)) - 1#64
  (makeEmpty width <<< (4 * n)) ||| (fullValue &&& mask) ||| BitVec.ofNat 64 n

def size (x : Word) : Nat := (x &&& 15#64).toNat

/-- `operator[]` -/
def get (x : Word) (i : Nat) : Nat := ((x >>> (4 * i + 4)) &&& 15#64).toNat

def back (width : Nat) (x : Word) : Nat := get x (width - 1)

def setSize (x : Word) (n : Nat) : Word := (x &&& ~~~ 15#64) ||| BitVec.ofNat 64 n

/-- The word after `insert_from_back`; the call returns `back`. -/
def insertFromBack (width : Nat) (x : Word) (i : Nat) : Word :=
  ((x + 1#64) &&& ((16#64 <<< (4 * i)) - 1#64))
    ||| (BitVec.ofNat 64 (back width x) <<< (4 * i + 4))
    ||| ((x <<< 4) &&& ~~~ ((256#64 <<< (4 * i)) - 1#64))

def remove (x : Word) (i : Nat) : Word :=
  if size x = i + 1 then x - 1#64
  else
    let rotAmount := 4 * (size x - i - 1)
    let rotMask := ((16#64 <<< rotAmount) - 1#64) <<< (4 * (i + 1))
    ((x - 1#64) &&& ~~~ rotMask)
      ||| (((x &&& rotMask) >>> 4) &&& rotMask)
      ||| (((x &&& rotMask) <<< rotAmount) &&& rotMask)

def removeToBack (width : Nat) (x : Word) (i : Nat) : Word :=
  let mask := ~~~ ((16#64 <<< (4 * i)) - 1#64)
  let y := x &&& ((16#64 <<< (4 * width)) - 1#64)
  ((y - 1#64) &&& ~~~ mask)
    ||| ((y >>> 4) &&& mask)
    ||| ((y &&& mask) <<< (4 * (width - i - 1)))

def exchange (x : Word) (i j : Nat) : Word :=
  let diff := ((x >>> (4 * i)) ^^^ (x >>> (4 * j))) &&& 240#64
  x ^^^ ((diff <<< (4 * i)) ||| (diff <<< (4 * j)))

/-! ## The digits of the results -/

section Digits

variable {width i j : Nat} {x : Word}

theorem size_eq (x : Word) : size x = nibble x 0 := by
  rw [size, nibble, Nat.mul_zero, BitVec.ushiftRight_zero]

theorem get_eq (x : Word) (i : Nat) : get x i = nibble x (i + 1) := rfl

theorem get_lt (x : Word) (i : Nat) : get x i < 16 := nibble_lt x (i + 1)

theorem mask_sixteen (i : Nat) : (16#64 <<< (4 * i)) - 1#64 = lowNibbles (i + 1) := by
  rw [Nat.add_comm, ← lowNibbles_add]
  rfl

theorem mask_256 (i : Nat) : (256#64 <<< (4 * i)) - 1#64 = lowNibbles (i + 2) := by
  rw [Nat.add_comm, ← lowNibbles_add]
  rfl

theorem back_lt (width : Nat) (x : Word) : back width x < 16 := get_lt x _

theorem nibble_setSize {n : Nat} (hn : n < 16) :
    nibble (setSize x n) j = if j = 0 then n else nibble x j := by
  rw [setSize, ← lowNibbles_one, nibble_or, nibble_and_not_low (by decide), nibble_ofNat hn]
  cases j with
  | zero => simp
  | succ j => simp

/-- The new element stands at `i`, the elements and slots above are shifted up. -/
theorem nibble_insertFromBack (hi : i < 15) (hsize : size x < 15) (hj : j < 16) :
    nibble (insertFromBack width x i) j =
      if j = 0 then size x + 1
      else if j ≤ i then nibble x j
      else if j = i + 1 then back width x
      else nibble x (j - 1) := by
  have hshift : x <<< 4 = x <<< (4 * 1) := rfl
  have hback : 4 * i + 4 = 4 * (i + 1) := by omega
  rw [size_eq] at hsize
  rw [insertFromBack, mask_sixteen, mask_256, hshift, hback, nibble_or, nibble_or,
    nibble_and_low (by omega), nibble_and_not_low (by omega), nibble_shiftLeft _ _ hj,
    nibble_shiftLeft _ _ hj, nibble_add_one hsize, nibble_ofNat (back_lt width x), size_eq]
  rcases Nat.lt_trichotomy j (i + 1) with h | h | h
  · have h2 : j < i + 2 := by omega
    have hle : j ≤ i := by omega
    simp [h, h2, hle]
  · subst h
    simp
  · have hge : ¬ j < i + 1 := by omega
    have hne : j - (i + 1) ≠ 0 := by omega
    have h2 : ¬ j < i + 2 := by omega
    have h0 : j ≠ 0 := by omega
    have hle : ¬ j ≤ i := by omega
    have heq : j ≠ i + 1 := by omega
    have h1 : ¬ j < 1 := by omega
    simp [hge, hne, h2, h0, hle, heq, h1]

/-- The elements above `i` are shifted down, the removed one is the first free slot. -/
theorem nibble_remove (hi : i < size x) (hsize : size x ≤ 15) (hj : j < 16) :
    nibble (remove x i) j =
      if j = 0 then size x - 1
      else if j ≤ i then nibble x j
      else if j < size x then nibble x (j + 1)
      else if j = size x then nibble x (i + 1)
      else nibble x j := by
  have hpos : 0 < nibble x 0 := by
    rw [← size_eq]
    omega
  rw [remove]
  split
  · next hlast =>
      rw [nibble_sub_one hpos, size_eq]
      rw [size_eq] at hlast
      split
      · rfl
      · split
        · rfl
        · rw [if_neg (by omega)]
          split
          · next h => rw [h, hlast]
          · rfl
  · next hlast =>
      have hrot : i + 1 + (size x - i - 1 + 1) ≤ 16 := by omega
      have hend : i + 1 + (size x - i - 1 + 1) = size x + 1 := by omega
      have hdown : ∀ y : Word, y >>> 4 = y >>> (4 * 1) := fun _ => rfl
      simp only [mask_sixteen, hdown]
      rw [nibble_or, nibble_or, nibble_and_not_window hrot, nibble_and_window hrot,
        nibble_and_window hrot, nibble_shiftRight, nibble_shiftLeft _ _ hj,
        nibble_and_window hrot, nibble_and_window hrot, nibble_sub_one hpos, hend, size_eq]
      rw [size_eq] at hi hsize hlast
      clear hpos hrot hend
      generalize nibble x 0 = n at hi hsize hlast ⊢
      by_cases hle : j ≤ i
      · have hout : ¬ (i + 1 ≤ j ∧ j < n + 1) := by omega
        simp only [hout, hle, if_true, if_false, Nat.or_zero]
      · have h0 : j ≠ 0 := by omega
        rcases Nat.lt_trichotomy j n with h | h | h
        · have hin : i + 1 ≤ j ∧ j < n + 1 := by omega
          have hin' : i + 1 ≤ j + 1 ∧ j + 1 < n + 1 := by omega
          have hout : ¬ (i + 1 ≤ j - (n - i - 1) ∧ j - (n - i - 1) < n + 1) := by omega
          simp only [hin, hin', hout, hle, h, h0, and_self, if_true, if_false, Nat.or_zero, ite_self,
            Nat.zero_or]
        · subst h
          have hin : i + 1 ≤ j ∧ j < j + 1 := by omega
          have hfirst : i + 1 ≤ i + 1 ∧ i + 1 < j + 1 := by omega
          have hback : j - (j - i - 1) = i + 1 := by omega
          have hge : ¬ j < j - i - 1 := by omega
          simp only [hin, hfirst, hback, hge, hle, h0, and_self, and_false, if_true, if_false,
            Nat.lt_irrefl, Nat.zero_or]
        · have hout : ¬ (i + 1 ≤ j ∧ j < n + 1) := by omega
          have hlt : ¬ j < n := by omega
          have hne : j ≠ n := by omega
          simp only [hout, h0, hle, hlt, hne, if_false, Nat.or_zero]

/-- The elements and slots above `i` are shifted down, the removed one is the last free slot. -/
theorem nibble_removeToBack (hi : i < size x) (hsize : size x ≤ width) (hwidth : width ≤ 15)
    (hj : j ≤ width) :
    nibble (removeToBack width x i) j =
      if j = 0 then size x - 1
      else if j ≤ i then nibble x j
      else if j < width then nibble x (j + 1)
      else nibble x (i + 1) := by
  rw [size_eq] at hi hsize
  have hdown : ∀ y : Word, y >>> 4 = y >>> (4 * 1) := fun _ => rfl
  have hcut : nibble (x &&& lowNibbles (width + 1)) 0 = nibble x 0 := by
    rw [nibble_and_low (by omega), if_pos (by omega)]
  have hpos : 0 < nibble (x &&& lowNibbles (width + 1)) 0 := by omega
  simp only [removeToBack, mask_sixteen, hdown, BitVec.not_not]
  rw [nibble_or, nibble_or, nibble_and_low (by omega), nibble_and_not_low (by omega),
    nibble_shiftRight, nibble_shiftLeft _ _ (by omega), nibble_and_not_low (by omega),
    nibble_sub_one hpos, nibble_and_low (by omega), nibble_and_low (by omega),
    nibble_and_low (by omega), nibble_and_low (by omega), size_eq]
  by_cases hle : j ≤ i
  · have hlt : j < i + 1 := by omega
    have hcutj : j < width + 1 := by omega
    by_cases hback : j < width - i - 1
    · simp [hle, hlt, hcutj, hback]
    · have hout : j - (width - i - 1) < i + 1 := by omega
      simp [hle, hlt, hcutj, hback, hout]
  · have hlt : ¬ j < i + 1 := by omega
    have h0 : j ≠ 0 := by omega
    by_cases hw : j < width
    · have hcutj : j + 1 < width + 1 := by omega
      by_cases hback : j < width - i - 1
      · simp [hle, hlt, hcutj, hback, h0, hw]
      · have hout : j - (width - i - 1) < i + 1 := by omega
        simp [hle, hlt, hcutj, hback, hout, h0, hw]
    · obtain rfl : j = width := by omega
      have hback : ¬ j < j - i - 1 := by omega
      have hend : j - (j - i - 1) = i + 1 := by omega
      simp [hle, hlt, hback, hend, h0]

/-- The elements at `a` and `b` change places. -/
theorem nibble_exchange (x : Word) (a b : Nat) (hj : j < 16) :
    nibble (exchange x a b) j =
      if j = a + 1 then nibble x (b + 1)
      else if j = b + 1 then nibble x (a + 1)
      else nibble x j := by
  have h240 : (240#64 : Word) = lowNibbles 1 <<< (4 * 1) := rfl
  simp only [exchange]
  rw [nibble_xor, nibble_or, nibble_shiftLeft _ _ hj, nibble_shiftLeft _ _ hj, h240,
    nibble_and_window (by decide), nibble_and_window (by decide), nibble_xor, nibble_xor,
    nibble_shiftRight, nibble_shiftRight, nibble_shiftRight, nibble_shiftRight]
  by_cases hja : j = a + 1
  · subst hja
    have h1 : ¬ a + 1 < a := by omega
    have h2 : a + 1 - a + a = a + 1 := by omega
    have h3 : a + 1 - a + b = b + 1 := by omega
    have h4 : 1 ≤ a + 1 - a ∧ a + 1 - a < 1 + 1 := by omega
    by_cases hab : a = b
    · subst hab
      simp
    · have h5 : ¬ (1 ≤ a + 1 - b ∧ a + 1 - b < 1 + 1) := by omega
      simp only [h1, h2, h3, h4, h5, and_self, if_true, if_false, ite_self, Nat.or_zero]
      rw [← Nat.xor_assoc, Nat.xor_self, Nat.zero_xor]
  · by_cases hjb : j = b + 1
    · subst hjb
      have h1 : ¬ b + 1 < b := by omega
      have h2 : b + 1 - b + a = a + 1 := by omega
      have h3 : b + 1 - b + b = b + 1 := by omega
      have h4 : 1 ≤ b + 1 - b ∧ b + 1 - b < 1 + 1 := by omega
      have h5 : ¬ (1 ≤ b + 1 - a ∧ b + 1 - a < 1 + 1) := by omega
      simp only [h1, h2, h3, h4, h5, hja, and_self, if_true, if_false, ite_self, Nat.zero_or]
      rw [Nat.xor_comm (nibble x (a + 1)), ← Nat.xor_assoc, Nat.xor_self, Nat.zero_xor]
    · have h4 : ¬ (1 ≤ j - a ∧ j - a < 1 + 1) := by omega
      have h5 : ¬ (1 ≤ j - b ∧ j - b < 1 + 1) := by omega
      simp only [h4, h5, hja, hjb, if_false, ite_self, Nat.or_zero, Nat.xor_zero]

theorem nibble_makeEmpty (hwidth : width ≤ 15) (hj : j ≤ width) :
    nibble (makeEmpty width) j = if j = 0 then 0 else width - j := by
  have hinit : ∀ k, k < 16 → 0 < k → nibble initialValue k = 15 - k := by decide
  rw [makeEmpty, ← lowNibbles_one, nibble_and_not_low (by decide), nibble_shiftRight]
  cases j with
  | zero => simp
  | succ j =>
      rw [if_neg (by omega), if_neg (by omega), hinit _ (by omega) (by omega)]
      omega

/-- The elements `0, …, n - 1` in order; the slots from `n` on are allocated in order. -/
theorem nibble_makeSorted {n : Nat} (hwidth : width ≤ 15) (hn : n ≤ width) (hj : j ≤ width) :
    nibble (makeSorted width n) j =
      if j = 0 then n else if j ≤ n then j - 1 else width + n - j := by
  have hfull : ∀ k, k < 16 → 0 < k → nibble fullValue k = k - 1 := by decide
  have hfull0 : nibble fullValue 0 = 0 := by decide
  have hmask : ∃ m, m ≤ 16 ∧ (if n = width then 0#64 else 16#64 <<< (4 * n)) - 1#64 = lowNibbles m
      ∧ ∀ k, k ≤ width → (k < m ↔ k ≤ n) := by
    by_cases hnw : n = width
    · exact ⟨16, by decide, by rw [if_pos hnw]; rfl, fun k hk => by omega⟩
    · exact ⟨n + 1, by omega, by rw [if_neg hnw, mask_sixteen], fun k _ => by omega⟩
  obtain ⟨m, hm, hmeq, hmlt⟩ := hmask
  simp only [makeSorted]
  rw [hmeq, nibble_or, nibble_or, nibble_shiftLeft _ _ (by omega), nibble_and_low hm,
    nibble_ofNat (by omega), nibble_makeEmpty hwidth (by omega)]
  cases j with
  | zero => simp [hfull0]
  | succ j =>
      rw [hfull _ (by omega) (by omega)]
      by_cases hle : j + 1 ≤ n
      · have hlow : j + 1 < m := (hmlt _ hj).mpr hle
        by_cases hlt : j + 1 < n
        · simp [hlow, hlt, hle]
        · have hsub : j + 1 - n = 0 := by omega
          simp [hlow, hle, hsub]
      · have hlow : ¬ j + 1 < m := fun h => hle ((hmlt _ hj).mp h)
        have hlt : ¬ j + 1 < n := by omega
        have hsub : j + 1 - n ≠ 0 := by omega
        simp [hlow, hlt, hle, hsub]
        omega

end Digits

end Kpermuter

/-! ## What the word stands for -/

/-- The slots of a node: those of its elements in order, and the free ones in the order in which
they are allocated, the last first. -/
structure Slots where
  used : List Nat
  free : List Nat
  deriving DecidableEq, Repr

namespace Slots

def all (s : Slots) : List Nat := s.used ++ s.free

/-- The first `n` of a list of slots are used. -/
def ofList (l : List Nat) (n : Nat) : Slots := ⟨l.take n, l.drop n⟩

/-- The last free slot becomes the element at position `i`. -/
def insertFromBack (s : Slots) (i : Nat) : Slots :=
  match s.free.getLast? with
  | none => s
  | some a => ⟨s.used.insertIdx i a, s.free.dropLast⟩

/-- The element at position `i` becomes the first free slot. -/
def remove (s : Slots) (i : Nat) : Slots :=
  match s.used[i]? with
  | none => s
  | some a => ⟨s.used.eraseIdx i, a :: s.free⟩

/-- The element at position `i` becomes the last free slot. -/
def removeToBack (s : Slots) (i : Nat) : Slots :=
  match s.used[i]? with
  | none => s
  | some a => ⟨s.used.eraseIdx i, s.free ++ [a]⟩

/-- Two positions change their slots. -/
def exchange (s : Slots) (i j : Nat) : Slots :=
  match s.all[i]?, s.all[j]? with
  | some a, some b => ofList ((s.all.set i b).set j a) s.used.length
  | _, _ => s

def setSize (s : Slots) (n : Nat) : Slots := ofList s.all n

end Slots

/-- A call of an operation. -/
inductive PermuterOp where
  | insertFromBack (i : Nat)
  | remove (i : Nat)
  | removeToBack (i : Nat)
  | exchange (i j : Nat)
  | setSize (n : Nat)
  deriving DecidableEq, Repr

namespace PermuterOp

/-- What the comments of the source and the calls in the tree ask of the arguments. -/
def pre (width size : Nat) : PermuterOp → Bool
  | .insertFromBack i => i ≤ size && size < width
  | .remove i => i < size
  | .removeToBack i => i < size
  | .exchange i j => i < width && j < width
  | .setSize n => n ≤ width

def onWord (width : Nat) : PermuterOp → Word → Word
  | .insertFromBack i, x => Kpermuter.insertFromBack width x i
  | .remove i, x => Kpermuter.remove x i
  | .removeToBack i, x => Kpermuter.removeToBack width x i
  | .exchange i j, x => Kpermuter.exchange x i j
  | .setSize n, x => Kpermuter.setSize x n

def onSlots : PermuterOp → Slots → Slots
  | .insertFromBack i, s => s.insertFromBack i
  | .remove i, s => s.remove i
  | .removeToBack i, s => s.removeToBack i
  | .exchange i j, s => s.exchange i j
  | .setSize n, s => s.setSize n

end PermuterOp

/-- A permuter under the operations, from `make_empty` or `make_sorted`. -/
def permuter (width : Nat) : Machine Word PermuterOp where
  init x := x = Kpermuter.makeEmpty width ∨ ∃ n, n ≤ width ∧ x = Kpermuter.makeSorted width n
  next op x := if op.pre width (Kpermuter.size x) then some (op.onWord width x) else none

/-- Slots under the operations. -/
def slotTable (width : Nat) : Machine Slots PermuterOp where
  init s := ∃ n, n ≤ width ∧ s = ⟨List.range n, ((List.range width).drop n).reverse⟩
  next op s := if op.pre width s.used.length then some (op.onSlots s) else none

namespace Kpermuter

/-- The slots at the positions of a permuter. -/
def entries (width : Nat) (x : Word) : List Nat := (List.range width).map (get x)

def view (width : Nat) (x : Word) : Slots := Slots.ofList (entries width x) (size x)

section View

variable {width : Nat} {x : Word}

@[simp] theorem length_entries : (entries width x).length = width := by simp [entries]

@[simp] theorem getElem_entries {i : Nat} (h : i < (entries width x).length) :
    (entries width x)[i] = nibble x (i + 1) := by
  simp [entries, get_eq]

@[simp] theorem view_all : (view width x).all = entries width x := List.take_append_drop _ _

theorem length_view_used (hsize : size x ≤ width) : (view width x).used.length = size x := by
  simp [view, Slots.ofList, hsize]

theorem view_insertFromBack {i : Nat} (hwidth : width ≤ 15) (hi : i ≤ size x)
    (hsize : size x < width) :
    view width (insertFromBack width x i) = (view width x).insertFromBack i := by
  have hdigit : ∀ {j : Nat}, j < 16 → nibble (insertFromBack width x i) j =
      if j = 0 then size x + 1 else if j ≤ i then nibble x j
      else if j = i + 1 then back width x else nibble x (j - 1) :=
    nibble_insertFromBack (by omega) (by omega)
  have hnew : size (insertFromBack width x i) = size x + 1 := by
    rw [size_eq, hdigit (by decide), if_pos rfl]
  have hlast : (view width x).free.getLast? = some (back width x) := by
    rw [List.getLast?_eq_getElem?]
    simp only [view, Slots.ofList, List.length_drop, length_entries, List.getElem?_drop]
    rw [List.getElem?_eq_getElem (by rw [length_entries]; omega), getElem_entries, back, get_eq]
    congr 3
    omega
  rw [Slots.insertFromBack, hlast]
  simp only [view, Slots.ofList, hnew, Slots.mk.injEq]
  constructor
  · have hlen : ((entries width x).take (size x)).length = size x := by
      rw [List.length_take, length_entries]
      omega
    refine List.ext_getElem ?_ fun p hp _ => ?_
    · rw [List.length_insertIdx, hlen, if_pos hi, List.length_take, length_entries]
      omega
    simp only [List.length_take, length_entries] at hp
    rw [List.getElem_take, getElem_entries, hdigit (by omega), List.getElem_insertIdx]
    rw [if_neg (Nat.succ_ne_zero p)]
    rcases Nat.lt_trichotomy p i with h | h | h
    · simp [h, show p + 1 ≤ i by omega]
    · subst h
      simp
    · simp [show ¬ p < i by omega, show p ≠ i by omega, show ¬ p + 1 ≤ i by omega,
        show p - 1 + 1 = p by omega]
  · refine List.ext_getElem (by simp; omega) fun p hp _ => ?_
    simp only [List.length_drop, length_entries] at hp
    rw [List.getElem_drop, getElem_entries, hdigit (by omega), List.getElem_dropLast,
      List.getElem_drop, getElem_entries]
    rw [if_neg (by omega), if_neg (by omega), if_neg (by omega)]
    congr 1
    omega

theorem getElem?_view_used {i : Nat} (hi : i < size x) (hsize : size x ≤ width) :
    (view width x).used[i]? = some (nibble x (i + 1)) := by
  simp only [view, Slots.ofList]
  rw [List.getElem?_take_of_lt hi, List.getElem?_eq_getElem (by rw [length_entries]; omega),
    getElem_entries]

/-- The elements after one is taken out at `i`. -/
theorem take_eraseIdx {y : Word} {i : Nat} (hi : i < size x) (hsize : size x ≤ width)
    (hlow : ∀ p, p < i → nibble y (p + 1) = nibble x (p + 1))
    (hhigh : ∀ p, i ≤ p → p + 1 < size x → nibble y (p + 1) = nibble x (p + 2)) :
    (entries width y).take (size x - 1) = ((entries width x).take (size x)).eraseIdx i := by
  have hlen : ((entries width x).take (size x)).length = size x := by
    rw [List.length_take, length_entries]
    omega
  refine List.ext_getElem ?_ fun p hp _ => ?_
  · rw [List.length_eraseIdx_of_lt (by omega), hlen, List.length_take, length_entries]
    omega
  · simp only [List.length_take, length_entries] at hp
    rw [List.getElem_take, getElem_entries, List.getElem_eraseIdx]
    split
    · next h => rw [List.getElem_take, getElem_entries, hlow p h]
    · next h => rw [List.getElem_take, getElem_entries, hhigh p (by omega) (by omega)]

theorem view_remove {i : Nat} (hwidth : width ≤ 15) (hi : i < size x) (hsize : size x ≤ width) :
    view width (remove x i) = (view width x).remove i := by
  have hdigit := fun {j} => nibble_remove (x := x) (i := i) (j := j) hi (by omega)
  have hnew : size (remove x i) = size x - 1 := by
    rw [size_eq, hdigit (by decide), if_pos rfl]
  rw [Slots.remove, getElem?_view_used hi hsize]
  simp only [view, Slots.ofList, hnew, Slots.mk.injEq]
  constructor
  · refine take_eraseIdx hi hsize (fun p hp => ?_) (fun p hp hlt => ?_)
    · rw [hdigit (by omega), if_neg (Nat.succ_ne_zero p), if_pos (by omega)]
    · rw [hdigit (by omega), if_neg (Nat.succ_ne_zero p), if_neg (by omega), if_pos hlt]
  · refine List.ext_getElem (by simp; omega) fun p hp _ => ?_
    simp only [List.length_drop, length_entries] at hp
    rw [List.getElem_drop, getElem_entries, hdigit (by omega)]
    cases p with
    | zero =>
        have hend : size x - 1 + 0 + 1 = size x := by omega
        rw [hend, if_neg (by omega), if_neg (by omega), if_neg (by omega), if_pos rfl]
        rfl
    | succ p =>
        rw [if_neg (by omega), if_neg (by omega), if_neg (by omega), if_neg (by omega),
          List.getElem_cons_succ, List.getElem_drop, getElem_entries]
        congr 1
        omega

theorem view_removeToBack {i : Nat} (hwidth : width ≤ 15) (hi : i < size x)
    (hsize : size x ≤ width) :
    view width (removeToBack width x i) = (view width x).removeToBack i := by
  have hdigit := fun {j} => nibble_removeToBack (x := x) (i := i) (j := j) hi hsize hwidth
  have hnew : size (removeToBack width x i) = size x - 1 := by
    rw [size_eq, hdigit (by omega), if_pos rfl]
  rw [Slots.removeToBack, getElem?_view_used hi hsize]
  simp only [view, Slots.ofList, hnew, Slots.mk.injEq]
  constructor
  · refine take_eraseIdx hi hsize (fun p hp => ?_) (fun p hp hlt => ?_)
    · rw [hdigit (by omega), if_neg (Nat.succ_ne_zero p), if_pos (by omega)]
    · rw [hdigit (by omega), if_neg (Nat.succ_ne_zero p), if_neg (by omega), if_pos (by omega)]
  · refine List.ext_getElem (by simp; omega) fun p hp _ => ?_
    simp only [List.length_drop, length_entries] at hp
    rw [List.getElem_drop, getElem_entries, hdigit (by omega), if_neg (by omega)]
    rw [if_neg (by omega)]
    have hlen : ((entries width x).drop (size x)).length = width - size x := by
      rw [List.length_drop, length_entries]
    by_cases h : size x - 1 + p + 1 < width
    · rw [if_pos h, List.getElem_append_left (by omega), List.getElem_drop, getElem_entries]
      congr 1
      omega
    · rw [if_neg h, List.getElem_append_right (by omega), List.getElem_singleton]

theorem view_exchange {i j : Nat} (hwidth : width ≤ 15) (hi : i < width) (hj : j < width)
    (hsize : size x ≤ width) :
    view width (exchange x i j) = (view width x).exchange i j := by
  have hdigit := fun {k} => nibble_exchange x i j (j := k)
  have hnew : size (exchange x i j) = size x := by
    rw [size_eq, hdigit (by decide), if_neg (by omega), if_neg (by omega), size_eq]
  have hget : ∀ k, k < width → (entries width x)[k]? = some (nibble x (k + 1)) := fun k hk => by
    rw [List.getElem?_eq_getElem (by rwa [length_entries]), getElem_entries]
  rw [Slots.exchange, view_all, hget i hi, hget j hj, length_view_used hsize]
  simp only [view, hnew]
  congr 1
  refine List.ext_getElem (by simp) fun p hp _ => ?_
  rw [length_entries] at hp
  rw [getElem_entries, hdigit (by omega), List.getElem_set, List.getElem_set, getElem_entries]
  by_cases hpj : j = p
  · subst hpj
    by_cases hij : j = i
    · subst hij
      simp
    · simp [hij]
  · by_cases hpi : i = p
    · subst hpi
      simp [hpj]
    · simp [hpi, hpj, Ne.symm hpi, Ne.symm hpj]

theorem view_setSize {n : Nat} (hwidth : width ≤ 15) (hn : n ≤ width) :
    view width (setSize x n) = (view width x).setSize n := by
  have hn16 : n < 16 := by omega
  have hnew : size (setSize x n) = n := by
    rw [size_eq, nibble_setSize hn16, if_pos rfl]
  rw [Slots.setSize, view_all, view, hnew]
  congr 1
  refine List.ext_getElem (by simp) fun p hp _ => ?_
  rw [getElem_entries, getElem_entries, nibble_setSize hn16, if_neg (Nat.succ_ne_zero p)]

end View

/-- **One operation.** On the word it does what it does on the slots. -/
theorem view_apply {width : Nat} {x : Word} {op : PermuterOp} (hwidth : width ≤ 15)
    (hsize : size x ≤ width) (hpre : op.pre width (size x)) :
    view width (op.onWord width x) = op.onSlots (view width x) := by
  cases op with
  | insertFromBack i =>
      simp only [PermuterOp.pre, Bool.and_eq_true, decide_eq_true_eq] at hpre
      exact view_insertFromBack hwidth hpre.1 hpre.2
  | remove i => exact view_remove hwidth (by simpa [PermuterOp.pre] using hpre) hsize
  | removeToBack i => exact view_removeToBack hwidth (by simpa [PermuterOp.pre] using hpre) hsize
  | exchange i j =>
      simp only [PermuterOp.pre, Bool.and_eq_true, decide_eq_true_eq] at hpre
      exact view_exchange hwidth hpre.1 hpre.2 hsize
  | setSize n => exact view_setSize hwidth (by simpa [PermuterOp.pre] using hpre)

theorem view_makeSorted {width n : Nat} (hwidth : width ≤ 15) (hn : n ≤ width) :
    size (makeSorted width n) = n ∧
      view width (makeSorted width n) = ⟨List.range n, ((List.range width).drop n).reverse⟩ := by
  have hdigit := fun {j} => nibble_makeSorted (j := j) hwidth hn
  have hsize : size (makeSorted width n) = n := by
    rw [size_eq, hdigit (Nat.zero_le _), if_pos rfl]
  refine ⟨hsize, ?_⟩
  simp only [view, Slots.ofList, hsize, Slots.mk.injEq]
  constructor
  · refine List.ext_getElem (by simp [hn]) fun p hp _ => ?_
    simp only [List.length_take, length_entries] at hp
    rw [List.getElem_take, getElem_entries, hdigit (by omega), if_neg (Nat.succ_ne_zero p),
      if_pos (by omega), List.getElem_range, Nat.add_sub_cancel]
  · refine List.ext_getElem (by simp) fun p hp _ => ?_
    simp only [List.length_drop, length_entries] at hp
    rw [List.getElem_drop, getElem_entries, hdigit (by omega), if_neg (by omega),
      if_neg (by omega)]
    simp
    omega

theorem makeEmpty_eq {width : Nat} (hwidth : 0 < width) :
    makeEmpty width = makeSorted width 0 := by
  have hmask : (if 0 = width then 0#64 else 16#64 <<< (4 * 0)) - 1#64 = lowNibbles 1 := by
    rw [if_neg (by omega), mask_sixteen]
  simp only [makeSorted]
  rw [hmask]
  simp [lowNibbles, fullValue]

example : makeSorted 15 3 = 0x3456789ABCDE2103#64 := by decide

end Kpermuter

/-! ## Runs -/

section Runs

variable {width : Nat} {s s' : Slots} {op : PermuterOp}

theorem Slots.ofList_all (l : List Nat) (n : Nat) : (Slots.ofList l n).all = l :=
  List.take_append_drop n l

/-- An operation moves slots: none is lost, none is in two places. -/
theorem Slots.perm_apply (hpre : op.pre width s.used.length) : (op.onSlots s).all.Perm s.all := by
  cases op with
  | insertFromBack i =>
      simp only [PermuterOp.pre, Bool.and_eq_true, decide_eq_true_eq] at hpre
      simp only [PermuterOp.onSlots, Slots.insertFromBack]
      split
      · exact List.Perm.refl _
      · next a ha =>
          obtain ⟨f, hf⟩ := List.getLast?_eq_some_iff.mp ha
          rw [Slots.all, Slots.all, hf, List.dropLast_concat]
          calc List.Perm (s.used.insertIdx i a ++ f) (a :: s.used ++ f) :=
                (List.perm_insertIdx a s.used hpre.1).append_right f
            List.Perm _ (s.used ++ f ++ [a]) := (List.perm_append_singleton a _).symm
            _ = s.used ++ (f ++ [a]) := List.append_assoc ..
  | remove i =>
      simp only [PermuterOp.onSlots, Slots.remove]
      split
      · exact List.Perm.refl _
      · next a ha =>
          obtain ⟨hi, rfl⟩ := List.getElem?_eq_some_iff.mp ha
          exact List.perm_middle.trans ((List.getElem_cons_eraseIdx_perm hi).append_right s.free)
  | removeToBack i =>
      simp only [PermuterOp.onSlots, Slots.removeToBack]
      split
      · exact List.Perm.refl _
      · next a ha =>
          obtain ⟨hi, rfl⟩ := List.getElem?_eq_some_iff.mp ha
          rw [Slots.all, ← List.append_assoc]
          exact (List.perm_append_singleton _ _).trans
            ((List.getElem_cons_eraseIdx_perm hi).append_right s.free)
  | exchange i j =>
      simp only [PermuterOp.onSlots, Slots.exchange]
      split
      · next a b ha hb =>
          obtain ⟨hi, rfl⟩ := List.getElem?_eq_some_iff.mp ha
          obtain ⟨hj, rfl⟩ := List.getElem?_eq_some_iff.mp hb
          rw [Slots.ofList_all]
          exact List.set_set_perm hi hj
      · exact List.Perm.refl _
  | setSize n =>
      rw [PermuterOp.onSlots, Slots.setSize, Slots.ofList_all]

theorem Kpermuter.init_size (hwidth : 0 < width) (h15 : width ≤ 15) {x : Word}
    (hx : (permuter width).init x) :
    size x ≤ width ∧ (slotTable width).init (view width x) := by
  obtain ⟨n, hn, rfl⟩ : ∃ n, n ≤ width ∧ x = makeSorted width n := by
    rcases hx with rfl | hx
    · exact ⟨0, Nat.zero_le _, makeEmpty_eq hwidth⟩
    · exact hx
  obtain ⟨hsize, hview⟩ := view_makeSorted h15 hn
  exact ⟨by omega, n, hn, hview⟩

/-- One step, with the bound on the size that the next one needs. -/
theorem Kpermuter.next_view (h15 : width ≤ 15) {x y : Word} (hsize : size x ≤ width)
    (hn : (permuter width).next op x = some y) :
    size y ≤ width ∧ (slotTable width).next op (view width x) = some (view width y)
      ∧ (view width y).all.Perm (view width x).all := by
  simp only [permuter] at hn
  split at hn
  · next hpre =>
      obtain rfl := Option.some.inj hn
      have hview := view_apply h15 hsize hpre
      have hpre' : op.pre width (view width x).used.length := by
        rwa [length_view_used hsize]
      have hperm : (view width (op.onWord width x)).all.Perm (view width x).all := by
        rw [hview]
        exact Slots.perm_apply hpre'
      refine ⟨?_, ?_, hperm⟩
      · cases op with
        | insertFromBack i =>
            simp only [PermuterOp.pre, Bool.and_eq_true, decide_eq_true_eq] at hpre
            rw [PermuterOp.onWord, size_eq, nibble_insertFromBack (by omega) (by omega) (by decide),
              if_pos rfl]
            omega
        | remove i =>
            simp only [PermuterOp.pre, decide_eq_true_eq] at hpre
            rw [PermuterOp.onWord, size_eq, nibble_remove hpre (by omega) (by decide), if_pos rfl]
            omega
        | removeToBack i =>
            simp only [PermuterOp.pre, decide_eq_true_eq] at hpre
            rw [PermuterOp.onWord, size_eq, nibble_removeToBack hpre hsize h15 (Nat.zero_le _),
              if_pos rfl]
            omega
        | exchange i j =>
            rw [PermuterOp.onWord, size_eq, nibble_exchange x i j (by decide), if_neg (by omega),
              if_neg (by omega), ← size_eq]
            exact hsize
        | setSize n =>
            simp only [PermuterOp.pre, decide_eq_true_eq] at hpre
            rw [PermuterOp.onWord, size_eq, nibble_setSize (by omega), if_pos rfl]
            exact hpre
      · simp only [slotTable, hpre', if_true, hview]
  · cases hn

/-- **The permuter is a table of slots.** Over every run of a 64-bit permuter from `make_empty` or
`make_sorted`, in which the operations are called as their comments ask, the word goes through the
same operations as the slots it stands for, and each slot of the node is at one position. -/
theorem permuter_refines (hwidth : 0 < width) (h15 : width ≤ 15) {x y : Word}
    (hx : (permuter width).init x) (ops : List PermuterOp)
    (h : (permuter width).exec ops x = some y) :
    (slotTable width).init (Kpermuter.view width x)
      ∧ (slotTable width).exec ops (Kpermuter.view width x) = some (Kpermuter.view width y)
      ∧ (Kpermuter.view width y).all.Perm (List.range width)
      ∧ (Kpermuter.view width y).used.length = Kpermuter.size y := by
  obtain ⟨hsize, hinit⟩ := Kpermuter.init_size hwidth h15 hx
  have hperm : (Kpermuter.view width x).all.Perm (List.range width) := by
    obtain ⟨n, hle, hn⟩ := hinit
    rw [hn, Slots.all]
    calc List.Perm (List.range n ++ ((List.range width).drop n).reverse)
          (List.range n ++ (List.range width).drop n) := (List.reverse_perm _).append_left _
      _ = (List.range width).take n ++ (List.range width).drop n := by
          rw [List.take_range, Nat.min_eq_left hle]
      _ = List.range width := List.take_append_drop ..
  refine ⟨hinit, ?_⟩
  clear hinit hx
  induction ops generalizing x with
  | nil =>
      obtain rfl : x = y := by simpa [Machine.exec] using h
      exact ⟨rfl, hperm, Kpermuter.length_view_used hsize⟩
  | cons op ops ih =>
      simp only [Machine.exec, Option.bind_eq_some_iff] at h
      obtain ⟨z, hz, hrest⟩ := h
      obtain ⟨hsize', hnext, hperm'⟩ := Kpermuter.next_view h15 hsize hz
      obtain ⟨hexec, hend⟩ := ih hrest hsize' (hperm'.trans hperm)
      refine ⟨?_, hend⟩
      simp only [Machine.exec, hnext, Option.bind_some]
      exact hexec

theorem permuter_refines_run :
    (slotTable 15).exec [.insertFromBack 0, .insertFromBack 0, .insertFromBack 2, .remove 1,
        .remove 1] (Kpermuter.view 15 (Kpermuter.makeEmpty 15))
      = some (Kpermuter.view 15 0x3456789ABCDE0211#64) :=
  (permuter_refines (by decide) (by decide) (.inl rfl) _ (by decide)).2.1

end Runs

end TailBench.Masstree
