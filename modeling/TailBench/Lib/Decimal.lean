import Mathlib.Tactic.Basic
import TailBench.Lib.Bytes

set_option autoImplicit false

/-! # Decimal numbers

What `sprintf` writes for `%d`, and the value of a string of digits, with the two facts that relate
them: the value of a printed number is the number, and how many digits it takes.
-/

namespace TailBench.Lib

/-- `'0'` to `'9'` -/
def isDigit (b : UInt8) : Bool := 48 ≤ b.toNat && b.toNat ≤ 57

/-- The decimal digits of a number. -/
def decimal (n : Nat) : Bytes := (Nat.toDigits 10 n).map fun c => UInt8.ofNat c.toNat

/-- The decimal digits of an integer, with a `-` if it is negative. -/
def signedDecimal : Int → Bytes
  | .ofNat n => decimal n
  | .negSucc n => 45 :: decimal (n + 1)

/-- The value of a string of digits. -/
def digitsValue (ds : Bytes) : Nat := ds.foldl (fun acc b => 10 * acc + (b.toNat - 48)) 0

theorem isDigit_iff {b : UInt8} : isDigit b = true ↔ 48 ≤ b.toNat ∧ b.toNat ≤ 57 := by
  simp [isDigit]

/-- A digit of a printed number is a character that fits a byte. -/
theorem toNat_digitChar {n : Nat} {c : Char} (hc : c ∈ Nat.toDigits 10 n) :
    48 ≤ c.toNat ∧ c.toNat ≤ 57 := by
  have hdigit := Nat.isDigit_of_mem_toDigits (by decide) (by decide) hc
  exact Char.isDigit_iff_toNat.mp hdigit

theorem isDigit_of_mem_decimal {n : Nat} {b : UInt8} (hb : b ∈ decimal n) : isDigit b = true := by
  obtain ⟨c, hc, rfl⟩ := List.mem_map.mp hb
  obtain ⟨hlow, hhigh⟩ := toNat_digitChar hc
  rw [isDigit_iff, UInt8.toNat_ofNat', Nat.mod_eq_of_lt (by omega)]
  exact ⟨hlow, hhigh⟩

theorem decimal_ne_nil (n : Nat) : decimal n ≠ [] := by
  simp [decimal]

/-- **What is printed is the number.** -/
theorem digitsValue_decimal (n : Nat) : digitsValue (decimal n) = n := by
  have hread : ∀ cs : List Char, (∀ c ∈ cs, c.toNat ≤ 57) → ∀ acc,
      (cs.map fun c => UInt8.ofNat c.toNat).foldl (fun acc b => 10 * acc + (b.toNat - 48)) acc =
        Nat.ofDigitChars 10 cs acc := by
    intro cs hcs
    induction cs with
    | nil =>
        intro acc
        rfl
    | cons c cs ih =>
        intro acc
        obtain ⟨hc, hcs⟩ := List.forall_mem_cons.mp hcs
        rw [List.map_cons, List.foldl_cons, Nat.ofDigitChars_cons, UInt8.toNat_ofNat',
          Nat.mod_eq_of_lt (by omega)]
        exact ih hcs _
  rw [digitsValue, decimal, hread _ (fun c hc => (toNat_digitChar hc).2)]
  exact Nat.ofDigitChars_ten_toDigits

theorem length_decimal_le {n k : Nat} (hk : 0 < k) : (decimal n).length ≤ k ↔ n < 10 ^ k := by
  rw [decimal, List.length_map]
  exact Nat.length_toDigits_le_iff (by decide) hk

end TailBench.Lib
