import Mathlib.Data.BitVec

set_option autoImplicit false

/-! # Words of nibbles

A 64-bit word read as sixteen 4-bit digits. `nibble x j` is the digit `j` of `x`, the lowest
first. Each operation on words that moves whole digits has a lemma that gives the digits of its
result (`nibble_or`, `nibble_shiftLeft`, `nibble_and_low`, ...).
-/

namespace TailBench.Lib

abbrev Word := BitVec 64

/-- The digit `j`. -/
def nibble (x : Word) (j : Nat) : Nat := ((x >>> (4 * j)) &&& 15#64).toNat

/-- The mask of the digits below `m`. -/
def lowNibbles (m : Nat) : Word := (1#64 <<< (4 * m)) - 1#64

theorem nibble_eq (x : Word) (j : Nat) : nibble x j = x.toNat / 2 ^ (4 * j) % 16 := by
  rw [nibble, BitVec.toNat_and, BitVec.toNat_ushiftRight, Nat.shiftRight_eq_div_pow]
  exact Nat.and_two_pow_sub_one_eq_mod _ 4

theorem nibble_lt (x : Word) (j : Nat) : nibble x j < 16 := by
  rw [nibble_eq]
  exact Nat.mod_lt _ (by decide)

theorem testBit_nibble (x : Word) (j b : Nat) :
    (nibble x j).testBit b = (decide (b < 4) && x.getLsbD (4 * j + b)) := by
  rw [nibble_eq, Nat.testBit_mod_two_pow (j := 4), Nat.testBit_div_two_pow, BitVec.getLsbD,
    Nat.add_comm]

/-- A digit is given by its bits. -/
theorem nibble_congr {x y : Word} {j k : Nat}
    (h : ∀ b, b < 4 → x.getLsbD (4 * j + b) = y.getLsbD (4 * k + b)) : nibble x j = nibble y k := by
  refine Nat.eq_of_testBit_eq fun b => ?_
  rw [testBit_nibble, testBit_nibble]
  by_cases hb : b < 4
  · rw [h b hb]
  · simp [hb]

theorem nibble_eq_zero {x : Word} {j : Nat} (h : ∀ b, b < 4 → x.getLsbD (4 * j + b) = false) :
    nibble x j = 0 := by
  refine Nat.eq_of_testBit_eq fun b => ?_
  rw [testBit_nibble, Nat.zero_testBit]
  by_cases hb : b < 4
  · rw [h b hb, Bool.and_false]
  · simp [hb]

theorem nibble_of_le (x : Word) {j : Nat} (hj : 16 ≤ j) : nibble x j = 0 :=
  nibble_eq_zero fun b _ => BitVec.getLsbD_of_ge _ _ (by omega)

/-! ## Masks and shifts -/

theorem lowNibbles_one : lowNibbles 1 = 15#64 := rfl

/-- The mask as it is written from a power of sixteen. -/
theorem lowNibbles_add (a m : Nat) :
    ((1#64 <<< (4 * a)) <<< (4 * m)) - 1#64 = lowNibbles (a + m) := by
  rw [lowNibbles, Nat.mul_add, BitVec.shiftLeft_add]

theorem getLsbD_lowNibbles {m : Nat} (hm : m ≤ 16) {k : Nat} (hk : k < 64) :
    (lowNibbles m).getLsbD k = decide (k < 4 * m) := by
  have hval : lowNibbles m = BitVec.ofNat 64 (2 ^ (4 * m) - 1) := by
    by_cases h16 : m = 16
    · subst h16
      decide
    · have hlt : 2 ^ (4 * m) < 2 ^ 64 := Nat.pow_lt_pow_right (by decide) (by omega)
      have hpos : 0 < 2 ^ (4 * m) := Nat.two_pow_pos _
      apply BitVec.eq_of_toNat_eq
      rw [lowNibbles, ← BitVec.twoPow_eq, BitVec.toNat_sub, BitVec.toNat_twoPow,
        BitVec.toNat_ofNat, BitVec.toNat_ofNat, Nat.mod_eq_of_lt hlt]
      omega
  rw [hval, BitVec.getLsbD_ofNat, Nat.testBit_two_pow_sub_one]
  simp [hk]

theorem nibble_and_low {m : Nat} (hm : m ≤ 16) (x : Word) (j : Nat) :
    nibble (x &&& lowNibbles m) j = if j < m then nibble x j else 0 := by
  by_cases hj : 16 ≤ j
  · simp [nibble_of_le _ hj]
  · split
    · next h =>
        refine nibble_congr fun b hb => ?_
        rw [BitVec.getLsbD_and, getLsbD_lowNibbles hm (by omega)]
        simp [show 4 * j + b < 4 * m by omega]
    · next h =>
        refine nibble_eq_zero fun b hb => ?_
        rw [BitVec.getLsbD_and, getLsbD_lowNibbles hm (by omega)]
        simp [show ¬ 4 * j + b < 4 * m by omega]

theorem nibble_and_not_low {m : Nat} (hm : m ≤ 16) (x : Word) (j : Nat) :
    nibble (x &&& ~~~ lowNibbles m) j = if j < m then 0 else nibble x j := by
  by_cases hj : 16 ≤ j
  · simp [nibble_of_le _ hj]
  · split
    · next h =>
        refine nibble_eq_zero fun b hb => ?_
        rw [BitVec.getLsbD_and, BitVec.getLsbD_not, getLsbD_lowNibbles hm (by omega)]
        simp [show 4 * j + b < 4 * m by omega]
    · next h =>
        refine nibble_congr fun b hb => ?_
        rw [BitVec.getLsbD_and, BitVec.getLsbD_not, getLsbD_lowNibbles hm (by omega)]
        simp [show ¬ 4 * j + b < 4 * m by omega, show 4 * j + b < 64 by omega]

/-- The mask of `m` digits from the digit `k` on. -/
theorem getLsbD_window {k m : Nat} (hm : k + m ≤ 16) {b : Nat} (hb : b < 64) :
    (lowNibbles m <<< (4 * k)).getLsbD b = decide (4 * k ≤ b ∧ b < 4 * (k + m)) := by
  rw [BitVec.getLsbD_shiftLeft]
  by_cases h : b < 4 * k
  · simp [h, show ¬ 4 * k ≤ b by omega]
  · rw [getLsbD_lowNibbles (by omega) (by omega)]
    simp only [hb, h, decide_true, decide_false, Bool.true_and, Bool.not_false]
    exact decide_eq_decide.mpr (by omega)

theorem nibble_and_window {k m : Nat} (hm : k + m ≤ 16) (x : Word) (j : Nat) :
    nibble (x &&& lowNibbles m <<< (4 * k)) j = if k ≤ j ∧ j < k + m then nibble x j else 0 := by
  by_cases hj : 16 ≤ j
  · simp [nibble_of_le _ hj]
  · split
    · next h =>
        refine nibble_congr fun b hb => ?_
        rw [BitVec.getLsbD_and, getLsbD_window hm (by omega)]
        simp [show 4 * k ≤ 4 * j + b ∧ 4 * j + b < 4 * (k + m) by omega]
    · next h =>
        refine nibble_eq_zero fun b hb => ?_
        rw [BitVec.getLsbD_and, getLsbD_window hm (by omega)]
        simp [show ¬ (4 * k ≤ 4 * j + b ∧ 4 * j + b < 4 * (k + m)) by omega]

theorem nibble_and_not_window {k m : Nat} (hm : k + m ≤ 16) (x : Word) (j : Nat) :
    nibble (x &&& ~~~ (lowNibbles m <<< (4 * k))) j
      = if k ≤ j ∧ j < k + m then 0 else nibble x j := by
  by_cases hj : 16 ≤ j
  · simp [nibble_of_le _ hj]
  · split
    · next h =>
        refine nibble_eq_zero fun b hb => ?_
        rw [BitVec.getLsbD_and, BitVec.getLsbD_not, getLsbD_window hm (by omega)]
        simp [show 4 * k ≤ 4 * j + b ∧ 4 * j + b < 4 * (k + m) by omega]
    · next h =>
        refine nibble_congr fun b hb => ?_
        rw [BitVec.getLsbD_and, BitVec.getLsbD_not, getLsbD_window hm (by omega)]
        simp [show ¬ (4 * k ≤ 4 * j + b ∧ 4 * j + b < 4 * (k + m)) by omega,
          show 4 * j + b < 64 by omega]

theorem nibble_shiftLeft (x : Word) (m : Nat) {j : Nat} (hj : j < 16) :
    nibble (x <<< (4 * m)) j = if j < m then 0 else nibble x (j - m) := by
  split
  · next h =>
      refine nibble_eq_zero fun b hb => ?_
      rw [BitVec.getLsbD_shiftLeft]
      simp [show 4 * j + b < 4 * m by omega]
  · next h =>
      refine nibble_congr fun b hb => ?_
      rw [BitVec.getLsbD_shiftLeft, show 4 * j + b - 4 * m = 4 * (j - m) + b by omega]
      simp [show ¬ 4 * j + b < 4 * m by omega, show 4 * j + b < 64 by omega]

theorem nibble_shiftRight (x : Word) (m j : Nat) : nibble (x >>> (4 * m)) j = nibble x (j + m) := by
  refine nibble_congr fun b hb => ?_
  rw [BitVec.getLsbD_ushiftRight, show 4 * m + (4 * j + b) = 4 * (j + m) + b by omega]

/-- Digits that only one of two words has. -/
theorem nibble_or (x y : Word) (j : Nat) : nibble (x ||| y) j = nibble x j ||| nibble y j := by
  refine Nat.eq_of_testBit_eq fun b => ?_
  simp only [Nat.testBit_or, testBit_nibble, BitVec.getLsbD_or, Bool.and_or_distrib_left]

theorem nibble_xor (x y : Word) (j : Nat) : nibble (x ^^^ y) j = nibble x j ^^^ nibble y j := by
  refine Nat.eq_of_testBit_eq fun b => ?_
  simp only [Nat.testBit_xor, testBit_nibble, BitVec.getLsbD_xor, Bool.and_xor_distrib_left]

/-- A word of one digit. -/
theorem nibble_ofNat {v : Nat} (hv : v < 16) (j : Nat) :
    nibble (BitVec.ofNat 64 v) j = if j = 0 then v else 0 := by
  have hlt : v < 2 ^ 64 := Nat.lt_of_lt_of_le hv (by decide)
  rw [nibble_eq, BitVec.toNat_ofNat, Nat.mod_eq_of_lt hlt]
  split
  · next h =>
      subst h
      simpa using Nat.mod_eq_of_lt hv
  · next h =>
      have hle : 2 ^ 4 ≤ 2 ^ (4 * j) := Nat.pow_le_pow_right (by decide) (by omega)
      rw [Nat.div_eq_of_lt (by omega)]

/-! ## The lowest digit as a counter -/

theorem nibble_add_one {x : Word} (h : nibble x 0 < 15) (j : Nat) :
    nibble (x + 1#64) j = if j = 0 then nibble x 0 + 1 else nibble x j := by
  have hx := x.isLt
  have h0 : x.toNat % 16 < 15 := by simpa [nibble_eq] using h
  have hadd : (x + 1#64).toNat = x.toNat + 1 := by
    rw [BitVec.toNat_add, BitVec.toNat_ofNat]
    omega
  rw [nibble_eq, nibble_eq, nibble_eq, hadd]
  cases j with
  | zero =>
      simp only [Nat.mul_zero, Nat.pow_zero, Nat.div_one, if_true]
      omega
  | succ j =>
      have hpow : 2 ^ (4 * (j + 1)) = 16 * 2 ^ (4 * j) := by
        rw [Nat.mul_add, Nat.pow_add, Nat.mul_comm]
      rw [if_neg (Nat.succ_ne_zero j), hpow, ← Nat.div_div_eq_div_mul, ← Nat.div_div_eq_div_mul,
        show (x.toNat + 1) / 16 = x.toNat / 16 by omega]

theorem nibble_sub_one {x : Word} (h : 0 < nibble x 0) (j : Nat) :
    nibble (x - 1#64) j = if j = 0 then nibble x 0 - 1 else nibble x j := by
  have hx := x.isLt
  have h0 : 0 < x.toNat % 16 := by simpa [nibble_eq] using h
  have hsub : (x - 1#64).toNat = x.toNat - 1 := by
    rw [BitVec.toNat_sub, BitVec.toNat_ofNat]
    omega
  rw [nibble_eq, nibble_eq, nibble_eq, hsub]
  cases j with
  | zero =>
      simp only [Nat.mul_zero, Nat.pow_zero, Nat.div_one, if_true]
      omega
  | succ j =>
      have hpow : 2 ^ (4 * (j + 1)) = 16 * 2 ^ (4 * j) := by
        rw [Nat.mul_add, Nat.pow_add, Nat.mul_comm]
      rw [if_neg (Nat.succ_ne_zero j), hpow, ← Nat.div_div_eq_div_mul, ← Nat.div_div_eq_div_mul,
        show (x.toNat - 1) / 16 = x.toNat / 16 by omega]

end TailBench.Lib
