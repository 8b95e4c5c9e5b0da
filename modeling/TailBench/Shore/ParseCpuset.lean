import Mathlib.Data.List.TakeWhile
import TailBench.Lib.Decimal

set_option autoImplicit false

/-! # The list of processors

`parseCpuSet` of `util/parse_cpuset.h`, which `trx_worker_t` calls to bind its thread. A string is
its characters, and `npos` is `none`. `atoi` follows the C standard library: blanks, a sign, digits,
the value as a `long` and then as an `int`. The counter of the inner loop is an `int`.

The loop reads one item after the other: `pos` is the length of what was read, with its commas.
-/

namespace TailBench.Shore.CpuSet

open Lib

/-- `','` -/
def comma : UInt8 := 44

/-- `'-'` -/
def hyphenChar : UInt8 := 45

/-! ## The library -/

/-- `s.find(c, pos)`, and `s.find_first_of` for one character. -/
def find (s : Bytes) (c : UInt8) (pos : Nat) : Option Nat :=
  ((s.drop pos).findIdx? (· == c)).map (pos + ·)

/-- `s.substr(pos, n)`, for `pos` in the string. -/
def substr (s : Bytes) (pos n : Nat) : Bytes := (s.drop pos).take n

/-- `isspace` -/
def isSpace (c : UInt8) : Bool := c.toNat == 32 || (9 ≤ c.toNat && c.toNat ≤ 13)

/-- `strtol(s, NULL, 10)` -/
def strtol (s : Bytes) : Int :=
  let s := s.dropWhile isSpace
  let digits (s : Bytes) : Int := digitsValue (s.takeWhile isDigit)
  let v := if s.head? = some 45 then - digits s.tail
    else if s.head? = some 43 then digits s.tail
    else digits s
  max (-2 ^ 63) (min v (2 ^ 63 - 1))

/-- An `int` that is computed with wrap-around. -/
def toInt (v : Int) : Int := v.bmod (2 ^ 32)

/-- `atoi` -/
def atoi (s : Bytes) : Int := toInt (strtol s)

/-! ## `parseCpuSet` -/

/-- `begin` and `end` of an item. -/
def bounds (subStr : Bytes) (maxCpu : Int) : Int × Int :=
  match find subStr hyphenChar 0 with
  | none =>
      let begin_ := atoi subStr
      (begin_, begin_)
  | some hyphen =>
      let begin_ := atoi (substr subStr 0 hyphen)
      -- the string has a hyphen, so its size is not 0
      if hyphen = subStr.length - 1 then (begin_, maxCpu)
      else (begin_, atoi (substr subStr (hyphen + 1) (subStr.length - hyphen - 1)))

/-- `for (int i = begin; i <= end; i++)` -/
def pushLoop : (fuel : Nat) → (i end_ : Int) → (cpuSet : List Int) → Option (List Int)
  | 0, _, _, _ => none
  | fuel + 1, i, end_, cpuSet =>
      if i ≤ end_ then pushLoop fuel (toInt (i + 1)) end_ (cpuSet ++ [i]) else some cpuSet

/-- The `while` loop. -/
def itemLoop (cpuSetStr : Bytes) (maxCpu : Int) (steps : Nat) :
    (fuel : Nat) → (pos : Nat) → (cpuSet : List Int) → Option (List Int)
  | 0, _, _ => none
  | fuel + 1, pos, cpuSet =>
      if pos < cpuSetStr.length then
        let newPos := (find cpuSetStr comma pos).getD cpuSetStr.length
        let subStr := substr cpuSetStr pos (newPos - pos)
        let (begin_, end_) := bounds subStr maxCpu
        (pushLoop steps begin_ end_ cpuSet).bind (itemLoop cpuSetStr maxCpu steps fuel (newPos + 1))
      else some cpuSet

/-- `parseCpuSet`, where every loop has at most `fuel` tests; `none` when that is not enough. -/
def parseCpuSet (fuel : Nat) (cpuSetStr : Bytes) (maxCpu : Int) : Option (List Int) :=
  if cpuSetStr.length > 0 then itemLoop cpuSetStr maxCpu fuel fuel 0 [] else some []

/-! ## The syntax -/

/-- A decimal number below `2^31 - 1`. -/
structure Number where
  digits : Bytes
  ne_nil : digits ≠ []
  valid : ∀ d ∈ digits, isDigit d = true
  small : digitsValue digits < 2 ^ 31 - 1

def Number.value (n : Number) : Int := digitsValue n.digits

/-- A number as it is printed. -/
def Number.ofNat (n : Nat) (h : n < 2 ^ 31 - 1) : Number where
  digits := decimal n
  ne_nil := decimal_ne_nil n
  valid _ := isDigit_of_mem_decimal
  small := by rwa [digitsValue_decimal]

theorem Number.value_ofNat (n : Nat) (h : n < 2 ^ 31 - 1) : (Number.ofNat n h).value = n := by
  rw [Number.value, Number.ofNat, digitsValue_decimal]

inductive Item where
  /-- `N` -/
  | single (n : Number)
  /-- `N-M` -/
  | range (n m : Number)
  /-- `N-` -/
  | openEnd (n : Number)

def Item.text : Item → Bytes
  | .single n => n.digits
  | .range n m => n.digits ++ hyphenChar :: m.digits
  | .openEnd n => n.digits ++ [hyphenChar]

/-- The numbers from `a` to `b`. -/
def interval (a b : Int) : List Int := (List.range (b + 1 - a).toNat).map fun k : Nat => a + k

/-- What an item denotes. -/
def Item.cpus (maxCpu : Int) : Item → List Int
  | .single n => [n.value]
  | .range n m => interval n.value m.value
  | .openEnd n => interval n.value maxCpu

/-- The items, with commas between them. -/
def join (items : List Item) : Bytes := [comma].intercalate (items.map Item.text)

/-! ## Positions -/

section Positions

variable (pre : Bytes) {l rest : Bytes} {c : UInt8}

theorem find_none (h : c ∉ l) : find (pre ++ l) c pre.length = none := by
  rw [find, List.drop_left, Option.map_eq_none_iff, List.findIdx?_eq_none_iff]
  intro b hb
  exact beq_eq_false_iff_ne.mpr fun hbc => h (hbc ▸ hb)

/-- The first occurrence behind a part without any. -/
theorem find_append (h : c ∉ l) :
    find (pre ++ (l ++ c :: rest)) c pre.length = some (pre.length + l.length) := by
  have hnone : l.findIdx? (· == c) = none := by
    rw [List.findIdx?_eq_none_iff]
    intro b hb
    exact beq_eq_false_iff_ne.mpr fun hbc => h (hbc ▸ hb)
  rw [find, List.drop_left, List.findIdx?_append, hnone, List.findIdx?_cons]
  simp

theorem substr_append : substr (pre ++ (l ++ rest)) pre.length l.length = l := by
  rw [substr, List.drop_left, List.take_left]

end Positions

/-! ## Numbers -/

/-- A digit is none of the other characters. -/
theorem Number.notMem (n : Number) {c : UInt8} (hc : isDigit c = false) : c ∉ n.digits := by
  intro h
  rw [n.valid c h] at hc
  cases hc

theorem toInt_of_bounds {v : Int} (hlow : -2 ^ 31 ≤ v) (hhigh : v < 2 ^ 31) : toInt v = v := by
  rw [toInt]
  exact Int.bmod_eq_of_le (by omega) (by omega)

/-- **`atoi` reads a number.** -/
theorem atoi_digits (n : Number) : atoi n.digits = n.value := by
  obtain ⟨d, ds, hd⟩ := List.exists_cons_of_ne_nil n.ne_nil
  have hdigit := isDigit_iff.mp (n.valid d (hd ▸ List.mem_cons_self))
  have hspace : n.digits.dropWhile isSpace = n.digits := by
    have hno : isSpace d = false := by
      simp [isSpace]
      omega
    rw [hd, List.dropWhile_cons, hno]
    rfl
  have hminus : n.digits.head? ≠ some 45 := by
    rw [hd, List.head?_cons]
    rintro ⟨rfl⟩
    exact absurd hdigit (by decide)
  have hplus : n.digits.head? ≠ some 43 := by
    rw [hd, List.head?_cons]
    rintro ⟨rfl⟩
    exact absurd hdigit (by decide)
  have hall : n.digits.takeWhile isDigit = n.digits :=
    List.takeWhile_eq_self_iff.mpr n.valid
  have hsmall := n.small
  have hlong : strtol n.digits = n.value := by
    simp only [strtol, hspace, if_neg hminus, if_neg hplus, hall]
    show max (-2 ^ 63) (min (digitsValue n.digits : Int) (2 ^ 63 - 1)) = digitsValue n.digits
    omega
  rw [atoi, hlong]
  refine toInt_of_bounds ?_ ?_ <;> rw [Number.value] <;> omega

/-! ## One item -/

theorem Item.comma_notMem (x : Item) : comma ∉ x.text := by
  have hdigits : ∀ n : Number, comma ∉ n.digits := fun n => n.notMem (by decide)
  cases x with
  | single n => exact hdigits n
  | range n m =>
      have hne : comma ≠ hyphenChar := by decide
      simp [Item.text, hdigits, hne]
  | openEnd n =>
      have hne : comma ≠ hyphenChar := by decide
      simp [Item.text, hdigits, hne]

theorem Item.text_ne_nil (x : Item) : x.text ≠ [] := by
  cases x with
  | single n => exact n.ne_nil
  | range n m => simp [Item.text]
  | openEnd n => simp [Item.text]

/-- Bounds of an item: the inner loop counts from the first to the second without a wrap. -/
structure Bounds (x : Item) (maxCpu begin_ end_ : Int) : Prop where
  nonneg : 0 ≤ begin_
  small : begin_ < 2 ^ 31
  limit : end_ < 2 ^ 31 - 1
  cpus : interval begin_ end_ = x.cpus maxCpu

theorem Number.value_bounds (n : Number) : 0 ≤ n.value ∧ n.value < 2 ^ 31 - 1 := by
  have hsmall := n.small
  unfold Number.value
  omega

theorem interval_self (a : Int) : interval a a = [a] := by
  simp [interval]

/-- **The bounds of an item.** -/
theorem bounds_spec (x : Item) {maxCpu : Int} (hmax : maxCpu < 2 ^ 31 - 1) :
    ∃ begin_ end_, bounds x.text maxCpu = (begin_, end_) ∧ Bounds x maxCpu begin_ end_ := by
  have hhyphen : ∀ n : Number, hyphenChar ∉ n.digits := fun n => n.notMem (by decide)
  cases x with
  | single n =>
      have hv := n.value_bounds
      have hfind : find n.digits hyphenChar 0 = none := find_none [] (hhyphen n)
      refine ⟨n.value, n.value, ?_, hv.1, by omega, hv.2, interval_self _⟩
      simp only [Item.text, bounds, hfind, atoi_digits]
  | range n m =>
      have hv := n.value_bounds
      have hw := m.value_bounds
      have hfind : find (n.digits ++ hyphenChar :: m.digits) hyphenChar 0 =
          some (0 + n.digits.length) := find_append [] (hhyphen n)
      have hfirst : substr (n.digits ++ hyphenChar :: m.digits) 0 n.digits.length = n.digits :=
        substr_append []
      have hlen : (n.digits ++ hyphenChar :: m.digits).length =
          n.digits.length + 1 + m.digits.length := by
        rw [List.length_append, List.length_cons]
        omega
      have hsecond : substr (n.digits ++ hyphenChar :: m.digits) (n.digits.length + 1)
          ((n.digits ++ hyphenChar :: m.digits).length - n.digits.length - 1) = m.digits := by
        have hsub : substr ((n.digits ++ [hyphenChar]) ++ (m.digits ++ []))
            (n.digits ++ [hyphenChar]).length m.digits.length = m.digits := substr_append _
        rw [List.append_assoc, List.append_nil, List.singleton_append, List.length_append,
          List.length_singleton] at hsub
        have hsize : n.digits.length + 1 + m.digits.length - n.digits.length - 1 =
            m.digits.length := by omega
        rw [hlen, hsize, hsub]
      have hlast : ¬ n.digits.length = (n.digits ++ hyphenChar :: m.digits).length - 1 := by
        have hpos := List.length_pos_iff.mpr m.ne_nil
        omega
      refine ⟨n.value, m.value, ?_, hv.1, by omega, hw.2, rfl⟩
      simp only [Item.text, bounds, hfind, Nat.zero_add, hfirst, if_neg hlast, hsecond,
        atoi_digits]
  | openEnd n =>
      have hv := n.value_bounds
      have hfind : find (n.digits ++ [hyphenChar]) hyphenChar 0 = some (0 + n.digits.length) :=
        find_append [] (hhyphen n)
      have hfirst : substr (n.digits ++ [hyphenChar]) 0 n.digits.length = n.digits :=
        substr_append []
      have hlast : n.digits.length = (n.digits ++ [hyphenChar]).length - 1 := by
        rw [List.length_append, List.length_singleton, Nat.add_sub_cancel]
      refine ⟨n.value, maxCpu, ?_, hv.1, by omega, hmax, rfl⟩
      simp only [Item.text, bounds, hfind, Nat.zero_add, hfirst, if_pos hlast, atoi_digits]

/-! ## The loops -/

theorem interval_empty {a b : Int} (h : b < a) : interval a b = [] := by
  have hzero : (b + 1 - a).toNat = 0 := by omega
  simp [interval, hzero]

theorem interval_cons {a b : Int} (h : a ≤ b) : interval a b = a :: interval (a + 1) b := by
  obtain ⟨k, hk⟩ : ∃ k, (b + 1 - a).toNat = k + 1 := ⟨(b - a).toNat, by omega⟩
  have hk' : (b + 1 - (a + 1)).toNat = k := by omega
  rw [interval, interval, hk, hk', List.range_succ_eq_map, List.map_cons, List.map_map]
  simp only [Nat.cast_zero, add_zero, List.cons.injEq, true_and]
  refine List.map_congr_left fun j _ => ?_
  simp only [Function.comp_apply, Nat.cast_succ]
  omega

/-- **The inner loop** pushes the numbers of an interval. -/
theorem pushLoop_spec {end_ : Int} (hend : end_ < 2 ^ 31 - 1) (fuel : Nat) (i : Int)
    (hlow : 0 ≤ i) (hhigh : i < 2 ^ 31) (hfuel : (end_ + 1 - i).toNat < fuel)
    (cpuSet : List Int) :
    pushLoop fuel i end_ cpuSet = some (cpuSet ++ interval i end_) := by
  induction fuel generalizing i cpuSet with
  | zero => omega
  | succ fuel ih =>
      rw [pushLoop]
      by_cases hle : i ≤ end_
      · have hnext : toInt (i + 1) = i + 1 := toInt_of_bounds (by omega) (by omega)
        rw [if_pos hle, hnext, ih (i + 1) (by omega) (by omega) (by omega), interval_cons hle,
          List.append_assoc, List.singleton_append]
      · rw [if_neg hle, interval_empty (by omega), List.append_nil]

section Loop

variable {maxCpu : Int} {steps : Nat}

/-- **One item** is read, with the comma behind it if there is one. -/
theorem itemLoop_item (hmax : maxCpu < 2 ^ 31 - 1) (hsteps : 2 ^ 32 ≤ steps) (x : Item)
    {pre tail : Bytes} (htail : tail = [] ∨ ∃ more, tail = comma :: more) (fuel : Nat)
    (cpuSet : List Int) :
    itemLoop (pre ++ (x.text ++ tail)) maxCpu steps (fuel + 1) pre.length cpuSet =
      itemLoop (pre ++ (x.text ++ tail)) maxCpu steps fuel (pre.length + x.text.length + 1)
        (cpuSet ++ x.cpus maxCpu) := by
  have hpos : 0 < x.text.length := List.length_pos_iff.mpr x.text_ne_nil
  have hlen : (pre ++ (x.text ++ tail)).length = pre.length + (x.text.length + tail.length) := by
    rw [List.length_append, List.length_append]
  -- the item ends at a comma or with the string
  have hend : (find (pre ++ (x.text ++ tail)) comma pre.length).getD
      (pre ++ (x.text ++ tail)).length = pre.length + x.text.length := by
    rcases htail with rfl | ⟨more, rfl⟩
    · rw [List.append_nil, find_none pre x.comma_notMem, Option.getD_none, List.length_append]
    · rw [find_append pre x.comma_notMem, Option.getD_some]
  have hsub : substr (pre ++ (x.text ++ tail)) pre.length
      (pre.length + x.text.length - pre.length) = x.text := by
    rw [Nat.add_sub_cancel_left, substr_append]
  obtain ⟨begin_, end_, hbounds, hb⟩ := bounds_spec x hmax
  have hpush : pushLoop steps begin_ end_ cpuSet = some (cpuSet ++ x.cpus maxCpu) := by
    have hnonneg := hb.nonneg
    have hlimit := hb.limit
    rw [pushLoop_spec hlimit steps begin_ hnonneg hb.small (by omega), hb.cpus]
  rw [itemLoop, if_pos (by omega)]
  simp only [hend, hsub, hbounds, hpush, Option.bind_some]

theorem join_singleton (x : Item) : join [x] = x.text := List.intercalate_singleton

theorem join_cons (x y : Item) (items : List Item) :
    join (x :: y :: items) = x.text ++ comma :: join (y :: items) := by
  rw [join, List.map_cons, List.map_cons, List.intercalate_cons_cons, List.append_assoc]
  rfl

theorem join_pos (x : Item) (items : List Item) : 0 < (join (x :: items)).length := by
  have hpos : 0 < x.text.length := List.length_pos_iff.mpr x.text_ne_nil
  cases items with
  | nil => rwa [join_singleton]
  | cons y items =>
      rw [join_cons, List.length_append]
      omega

/-- **The items**, from the one at the position on. -/
theorem itemLoop_items (hmax : maxCpu < 2 ^ 31 - 1) (hsteps : 2 ^ 32 ≤ steps) (x : Item)
    (items : List Item) {pre tail : Bytes} (htail : tail = [] ∨ tail = [comma]) {fuel : Nat}
    (hfuel : items.length + 1 < fuel) (cpuSet : List Int) :
    itemLoop (pre ++ (join (x :: items) ++ tail)) maxCpu steps fuel pre.length cpuSet =
      some (cpuSet ++ (x :: items).flatMap (Item.cpus maxCpu)) := by
  induction items generalizing x pre fuel cpuSet with
  | nil =>
      obtain ⟨k, rfl⟩ : ∃ k, fuel = k + 2 := ⟨fuel - 2, by simp at hfuel; omega⟩
      have htail' : tail = [] ∨ ∃ more, tail = comma :: more := htail.imp id fun h => ⟨[], h⟩
      have hover : ¬ pre.length + x.text.length + 1 < (pre ++ (x.text ++ tail)).length := by
        have hlen : tail.length ≤ 1 := by rcases htail with rfl | rfl <;> simp
        rw [List.length_append, List.length_append]
        omega
      rw [join_singleton, itemLoop_item hmax hsteps x htail', itemLoop, if_neg hover]
      simp
  | cons y items ih =>
      obtain ⟨k, rfl⟩ : ∃ k, fuel = k + 1 := ⟨fuel - 1, by omega⟩
      have htext : join (x :: y :: items) ++ tail =
          x.text ++ comma :: (join (y :: items) ++ tail) := by
        rw [join_cons, List.append_assoc, List.cons_append]
      -- the rest of the string is behind the item and its comma
      have hrest : pre ++ (x.text ++ comma :: (join (y :: items) ++ tail)) =
          (pre ++ x.text ++ [comma]) ++ (join (y :: items) ++ tail) := by
        simp only [List.append_assoc, List.singleton_append]
      have hpos : pre.length + x.text.length + 1 = (pre ++ x.text ++ [comma]).length := by
        rw [List.length_append, List.length_append, List.length_singleton]
      have hfuel' : items.length + 1 < k := by
        rw [List.length_cons] at hfuel
        omega
      rw [htext]
      calc itemLoop (pre ++ (x.text ++ comma :: (join (y :: items) ++ tail))) maxCpu steps (k + 1)
            pre.length cpuSet
          = itemLoop ((pre ++ x.text ++ [comma]) ++ (join (y :: items) ++ tail)) maxCpu steps k
              (pre ++ x.text ++ [comma]).length (cpuSet ++ x.cpus maxCpu) := by
            rw [itemLoop_item hmax hsteps x (.inr ⟨_, rfl⟩), hrest, hpos]
        _ = some (cpuSet ++ x.cpus maxCpu ++ (y :: items).flatMap (Item.cpus maxCpu)) :=
            ih y hfuel' _
        _ = some (cpuSet ++ (x :: y :: items).flatMap (Item.cpus maxCpu)) := by
            rw [List.append_assoc, ← List.flatMap_cons]

end Loop

/-- **What the list denotes.** For every `maxCpu` below `2^31 - 1` and every list of items that is
not empty, with or without a comma at the end: the parser terminates with the concatenation of what
the items denote. -/
theorem parseCpuSet_items {maxCpu : Int} (hmax : maxCpu < 2 ^ 31 - 1) {items : List Item}
    (hitems : items ≠ []) (trailing : Bool) :
    ∃ k, ∀ fuel, k ≤ fuel →
      parseCpuSet fuel (join items ++ if trailing then [comma] else []) maxCpu =
        some (items.flatMap (Item.cpus maxCpu)) := by
  obtain ⟨x, rest, rfl⟩ := List.exists_cons_of_ne_nil hitems
  refine ⟨rest.length + 2 ^ 32, fun fuel hfuel => ?_⟩
  have htail : (if trailing then [comma] else []) = ([] : Bytes) ∨
      (if trailing then [comma] else []) = [comma] := by
    cases trailing with
    | false => exact .inl rfl
    | true => exact .inr rfl
  have hloop : itemLoop ([] ++ (join (x :: rest) ++ if trailing then [comma] else [])) maxCpu fuel
      fuel ([] : Bytes).length [] = some ([] ++ (x :: rest).flatMap (Item.cpus maxCpu)) :=
    itemLoop_items hmax (by omega) x rest htail (by omega) []
  have hpos : 0 < (join (x :: rest) ++ if trailing then [comma] else []).length := by
    have hjoin := join_pos x rest
    rw [List.length_append]
    omega
  rw [parseCpuSet, if_pos hpos]
  exact hloop

/-- `0,2-4,30-,` with 31 as the last processor. -/
theorem parseCpuSet_mixed : ∃ k, ∀ fuel, k ≤ fuel →
    parseCpuSet fuel [48, 44, 50, 45, 52, 44, 51, 48, 45, 44] 31 =
      some [0, 2, 3, 4, 30, 31] := by
  let items : List Item :=
    [.single (.ofNat 0 (by decide)), .range (.ofNat 2 (by decide)) (.ofNat 4 (by decide)),
      .openEnd (.ofNat 30 (by decide))]
  have hjoin : (join items ++ if true then [comma] else []) =
      [48, 44, 50, 45, 52, 44, 51, 48, 45, 44] := by decide
  have hcpus : items.flatMap (Item.cpus 31) = [0, 2, 3, 4, 30, 31] := by
    simp only [items, List.flatMap_cons, List.flatMap_nil, Item.cpus, Number.value_ofNat]
    decide
  have hparse := parseCpuSet_items (show (31 : Int) < 2 ^ 31 - 1 by decide)
    (show items ≠ [] from List.cons_ne_nil _ _) true
  rwa [hjoin, hcpus] at hparse

end TailBench.Shore.CpuSet
