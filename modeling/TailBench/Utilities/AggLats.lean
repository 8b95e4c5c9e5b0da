import TailBench.Lib.Quantile
import TailBench.Harness.LatencyFile
import Mathlib.Data.Rat.Floor

set_option autoImplicit false

/-! # The aggregate tail latency

`utilities/agg-lats.sh`: it runs `parselats.py` on `lats_0.bin`, `lats_1.bin`, ... as long as
there is a file, collects the third column of `lats.txt` each time, sorts what it has and prints
one element. The lines are lists of words; numbers are exact, and so is the arithmetic of `awk`.

With `c` samples the script counts back from the end: it skips the last twentieth, rounded up,
and prints the element before those (`getLatPct`'s own percentile does not enter). One more
element than that has to be covered unless `c` is a multiple of 20.
-/

namespace TailBench.Utilities

open Lib

/-! ## `parselats.py` -/

/-- A word of a line; a number is what its digits say. -/
inductive Word where
  | name (s : String)
  | number (x : ℚ)
  deriving DecidableEq

/-- A line, as `awk` splits it. -/
abbrev Line := List Word

/-- `'%.<digits>f' % x`: the nearest number with these digits, of two the even one. -/
def fixed (digits : Nat) (x : ℚ) : ℚ :=
  let scaled := x * 10 ^ digits
  let below := ⌊scaled⌋
  let n :=
    if Int.fract scaled < 1 / 2 ∨ (Int.fract scaled = 1 / 2 ∧ below % 2 = 0) then below
    else below + 1
  n / 10 ^ digits

/-- A time in milliseconds. -/
def ms (l : UInt64) : ℚ := l.toNat / 1000000

/-- The heading of `lats.txt`. -/
def heading : Line :=
  [.name "QueueTimes", .name "ServiceTimes", .name "SojournTimes", .name "RequestDate(usec)",
    .name "NicSojournTimes"]

/-- One line of the loop in `getLatPct`. -/
def latLine : ℚ × ℚ × ℚ × ℚ × ℚ → Line
  | (q, svc, sjrn, rdate, nicsjrn) =>
      [.number (fixed 3 q), .number (fixed 3 svc), .number (fixed 3 sjrn),
        .number (fixed 0 rdate), .number (fixed 3 nicsjrn)]

/-- What `getLatPct` writes to `lats.txt`. -/
def getLatPct (l : Lat) : List Line :=
  let qTimes := l.parseQueueTimes.map ms
  let svcTimes := l.parseSvcTimes.map ms
  let sjrnTimes := l.parseSojournTimes.map ms
  let reqDate := l.parseRequestDate.map fun x => (x.toNat : ℚ)
  let nicSjrnTimes := l.parseNicSojournTimes.map ms
  heading :: [] ::
    (qTimes.zip (svcTimes.zip (sjrnTimes.zip (reqDate.zip nicSjrnTimes)))).map latLine

/-! ## `agg-lats.sh` -/

/-- The two files of the script. -/
structure Shell where
  latsTxt : List Line
  tmpfile : List Line := []

/-- `awk '{print $3}'` on one line. -/
def print3 (ws : Line) : Line := ws[2]?.toList

/-- One turn of the loop over the files. -/
def Shell.turn (order : ByteOrder) (s : Shell) (file : Bytes) : Shell :=
  -- when `parselats.py` fails, `lats.txt` is what it was
  let latsTxt := (Lat.new order file).elim s.latsTxt getLatPct
  { latsTxt := latsTxt, tmpfile := s.tmpfile ++ (latsTxt.drop 1).map print3 }

/-- The key of `sort -n`: a line that does not begin with a number counts as 0. -/
def sortKey : Line → ℚ
  | .number x :: _ => x
  | _ => 0

/-- `sort $tmpfile -n`. -/
def sortN (lines : List Line) : List Line := lines.mergeSort fun l l' => sortKey l ≤ sortKey l'

/-- `length($0){a[c]=$0;c++}`. -/
def awkArray (lines : List Line) : List Line := lines.filter fun l => l.length ≠ 0

/-- `p5=(c/100*5); p5=p5%1?int(p5)+1:p5`. -/
def awkP5 (c : Nat) : ℚ :=
  let p5 : ℚ := c / 100 * 5
  if Int.fract p5 ≠ 0 then ⌊p5⌋ + 1 else p5

/-- `c-p5-1`. -/
def awkIndex (c : Nat) : ℚ := c - awkP5 c - 1

/-- `a[i]`; an element that was never set is empty. -/
def awkElement (a : List Line) (i : ℚ) : Line :=
  if i.den = 1 ∧ 0 ≤ i.num then a.getD i.num.toNat [] else []

/-- What the script prints after `AGG_95th_LAT`, for the files there are and what an earlier run
has left in `lats.txt`. -/
def aggLats (order : ByteOrder) (old : List Line) (files : List Bytes) : Line :=
  let a := awkArray (sortN (files.foldl (Shell.turn order) { latsTxt := old }).tmpfile)
  awkElement a (awkIndex a.length)

/-! ## The samples -/

/-- The sojourn times of a file, as `lats.txt` shows them. -/
def sojourns (l : Lat) : List ℚ := l.parseSojournTimes.map fun x => fixed 3 (ms x)

/-- The samples of all files. -/
def samples (lats : List Lat) : List ℚ := lats.flatMap sojourns

/-- The script prints a 95th percentile of the samples, with an index into the sorted samples. -/
structure Prints95 (printed : Line) (xs : List ℚ) : Prop where
  low : 0 ≤ awkIndex xs.length
  high : awkIndex xs.length ≤ xs.length - 1
  quantile : ∃ x, printed = [.number x] ∧ IsQuantile (95 / 100) xs x

/-- In the sorted samples, the element after the one that is printed is the same. -/
def Tied (xs : List ℚ) : Prop :=
  let a := xs.mergeSort (· ≤ ·)
  a[a.length - (a.length + 19) / 20]? = a[a.length - (a.length + 19) / 20 - 1]?

/-! ## What is printed -/

/-- The column of a file that the script collects: a blank line, and the sojourn times. -/
theorem getLatPct_print3 (l : Lat) :
    ((getLatPct l).drop 1).map print3 = [] :: (sojourns l).map fun x => [.number x] := by
  simp only [getLatPct, Lat.parseQueueTimes, Lat.parseSvcTimes, Lat.parseSojournTimes,
    Lat.parseRequestDate, Lat.parseNicSojournTimes, Lat.column, sojourns, List.map_map,
    List.zip_map', List.drop_succ_cons, List.drop_zero, List.map_cons]
  rfl

theorem turn_foldl {order : ByteOrder} {files : List Bytes} {lats : List Lat}
    (h : files.mapM (Lat.new order) = some lats) (s : Shell) :
    (files.foldl (Shell.turn order) s).tmpfile =
      s.tmpfile ++ lats.flatMap fun l => [] :: (sojourns l).map fun x => [.number x] := by
  induction files generalizing lats s with
  | nil =>
      obtain rfl : lats = [] := by simpa using h.symm
      simp
  | cons file files ih =>
      simp only [List.mapM_cons, Option.bind_eq_bind, Option.bind_eq_some_iff, Option.pure_def,
        Option.some.injEq] at h
      obtain ⟨l, hl, ls, hls, rfl⟩ := h
      rw [List.foldl_cons, ih hls, Shell.turn, hl]
      simp only [Option.elim_some, getLatPct_print3, List.append_assoc, List.flatMap_cons]

/-- The blank lines are not counted. -/
theorem awkArray_column (lats : List Lat) :
    awkArray (lats.flatMap fun l => [] :: (sojourns l).map fun x => [.number x]) =
      (samples lats).map fun x => [.number x] := by
  induction lats with
  | nil => rfl
  | cons l lats ih =>
      have hrest : ((sojourns l).map fun x => ([.number x] : Line)).filter (fun l => l.length ≠ 0)
          = (sojourns l).map fun x => [.number x] := by
        refine List.filter_eq_self.mpr fun line hline => ?_
        obtain ⟨x, _, rfl⟩ := List.mem_map.mp hline
        rfl
      simp only [awkArray, samples, List.flatMap_cons, List.map_append, List.filter_append] at ih ⊢
      rw [ih]
      congr 1

/-- The array is the sorted list of the samples. -/
theorem awkArray_sortN {lines : List Line} {xs : List ℚ}
    (h : awkArray lines = xs.map fun x => [.number x]) :
    awkArray (sortN lines) = (xs.mergeSort (· ≤ ·)).map fun x => [.number x] := by
  have hperm : (awkArray (sortN lines)).Perm (xs.map fun x => [.number x]) := by
    rw [← h]
    exact (List.mergeSort_perm lines _).filter _
  have hkeys : ((awkArray (sortN lines)).map sortKey).Perm xs := by
    have hmap := hperm.map sortKey
    rw [List.map_map] at hmap
    simpa [Function.comp_def, sortKey] using hmap
  have hsort : (sortN lines).Pairwise fun l l' => decide (sortKey l ≤ sortKey l') = true := by
    refine List.pairwise_mergeSort ?_ ?_ lines
    · intro a b c hab hbc
      exact decide_eq_true (le_trans (of_decide_eq_true hab) (of_decide_eq_true hbc))
    · intro a b
      simpa using le_total (sortKey a) (sortKey b)
  have hsorted : ((awkArray (sortN lines)).map sortKey).Pairwise (· ≤ ·) := by
    rw [List.pairwise_map]
    exact (hsort.sublist List.filter_sublist).imp of_decide_eq_true
  have heq : (awkArray (sortN lines)).map sortKey = xs.mergeSort (· ≤ ·) :=
    (hkeys.trans (List.mergeSort_perm xs _).symm).eq_of_pairwise' hsorted
      (List.pairwise_mergeSort' (· ≤ ·) xs)
  -- every line of the array is its key
  have hlines : ∀ line ∈ awkArray (sortN lines), [.number (sortKey line)] = line := by
    intro line hline
    obtain ⟨x, _, rfl⟩ := List.mem_map.mp (hperm.mem_iff.mp hline)
    rfl
  rw [← heq, List.map_map]
  exact ((List.map_congr_left hlines).trans (List.map_id _)).symm

/-! ## The index -/

/-- A twentieth of the samples, rounded up. -/
theorem awkP5_eq (c : Nat) : awkP5 c = ((c + 19) / 20 : Nat) := by
  have hp : (c : ℚ) / 100 * 5 = c / (20 : Nat) := by push_cast; ring
  have hfloor : ((⌊(c : ℚ) / (20 : Nat)⌋ : Int) : ℚ) = ((c / 20 : Nat) : ℚ) := by
    rw [Rat.floor_natCast_div_natCast, ← Int.natCast_div, Int.cast_natCast]
  simp only [awkP5, hp, hfloor, Int.fract]
  by_cases hdvd : 20 ∣ c
  · obtain ⟨q, rfl⟩ := hdvd
    have hq : ((20 * q : Nat) : ℚ) / (20 : Nat) = q := by push_cast; ring
    rw [hq, Nat.mul_div_cancel_left q (by norm_num), show (20 * q + 19) / 20 = q by omega]
    simp
  · have hne : (c : ℚ) / (20 : Nat) - ((c / 20 : Nat) : ℚ) ≠ 0 := by
      intro hzero
      have hmul : (c : ℚ) = ((20 * (c / 20) : Nat) : ℚ) := by
        rw [Nat.cast_mul]
        norm_num at hzero ⊢
        linarith
      have hc : c = 20 * (c / 20) := by exact_mod_cast hmul
      exact hdvd ⟨_, hc⟩
    rw [if_pos hne, show (c + 19) / 20 = c / 20 + 1 by omega, Nat.cast_succ]

theorem awkIndex_eq {c : Nat} (hc : 2 ≤ c) : awkIndex c = ((c - (c + 19) / 20 - 1 : Nat) : ℚ) := by
  rw [awkIndex, awkP5_eq, Nat.cast_sub (by omega), Nat.cast_sub (by omega)]
  norm_num

theorem awkElement_natCast (a : List Line) (j : Nat) : awkElement a j = a.getD j [] := by
  simp [awkElement]

/-- What is printed, as an element of the sorted samples. -/
theorem aggLats_eq {order : ByteOrder} {old : List Line} {files : List Bytes} {lats : List Lat}
    (h : files.mapM (Lat.new order) = some lats) :
    aggLats order old files =
      awkElement (((samples lats).mergeSort (· ≤ ·)).map fun x => [.number x])
        (awkIndex (samples lats).length) := by
  have hlines : (files.foldl (Shell.turn order) { latsTxt := old }).tmpfile =
      lats.flatMap fun l => [] :: (sojourns l).map fun x => [.number x] := by
    rw [turn_foldl h]
    rfl
  rw [aggLats, hlines, awkArray_sortN (awkArray_column lats), List.length_map,
    List.length_mergeSort]

/-- When the element at the script's index is a 95th percentile of a sorted list. -/
theorem isQuantile_index {a : List ℚ} (ha : a.Pairwise (· ≤ ·)) (hc : 2 ≤ a.length) {x : ℚ}
    (hx : a[a.length - (a.length + 19) / 20 - 1]? = some x) :
    IsQuantile (95 / 100) a x ↔
      20 ∣ a.length ∨ a[a.length - (a.length + 19) / 20]? = some x := by
  -- the position that has to be reached
  have hk : a.length - a.length / 20 - 1 < a.length := by omega
  have hdiv : 20 * (a.length / 20) ≤ a.length ∧ a.length < 20 * (a.length / 20) + 20 := by omega
  have hcast : ((a.length - a.length / 20 - 1 : Nat) : ℚ) =
      a.length - (a.length / 20 : Nat) - 1 := by
    rw [Nat.cast_sub (by omega), Nat.cast_sub (by omega), Nat.cast_one]
  have hdivq : (20 : ℚ) * (a.length / 20 : Nat) ≤ a.length ∧
      (a.length : ℚ) < 20 * (a.length / 20 : Nat) + 20 := by
    exact_mod_cast hdiv
  rw [isQuantile_iff ha hk (by rw [hcast]; linarith) (by rw [hcast]; linarith)]
  obtain ⟨hj, rfl⟩ := List.getElem?_eq_some_iff.mp hx
  by_cases hdvd : 20 ∣ a.length
  · have hsame : a.length - a.length / 20 - 1 = a.length - (a.length + 19) / 20 - 1 := by omega
    simp only [hsame, hdvd, le_refl, true_or]
  -- otherwise it is the next position
  · have hnext : a.length - a.length / 20 - 1 = a.length - (a.length + 19) / 20 := by omega
    have hlt : a.length - (a.length + 19) / 20 < a.length := by omega
    have hle := List.pairwise_iff_getElem.mp ha _ _ hj hlt (by omega)
    simp only [hnext, hdvd, false_or, List.getElem?_eq_getElem hlt, Option.some.injEq]
    exact ⟨fun h => le_antisymm h hle, fun h => h.le⟩

/-- **What the script prints.** For every list of readable files with at least one sample: what it
prints is a 95th percentile with an index in range, if and only if there are at least two samples
and their number is a multiple of 20 or the next sample is the same. -/
theorem agg_95th_iff {order : ByteOrder} {old : List Line} {files : List Bytes} {lats : List Lat}
    (hfiles : files.mapM (Lat.new order) = some lats) (hne : samples lats ≠ []) :
    Prints95 (aggLats order old files) (samples lats) ↔
      2 ≤ (samples lats).length ∧ (20 ∣ (samples lats).length ∨ Tied (samples lats)) := by
  rw [aggLats_eq hfiles]
  unfold Tied
  generalize samples lats = xs at hne ⊢
  have hpos : 0 < xs.length := List.length_pos_iff.mpr hne
  have hperm : (xs.mergeSort (· ≤ ·)).Perm xs := List.mergeSort_perm xs _
  have hsorted : (xs.mergeSort (· ≤ ·)).Pairwise (· ≤ ·) := List.pairwise_mergeSort' (· ≤ ·) xs
  generalize xs.mergeSort (· ≤ ·) = a at hperm hsorted ⊢
  have hlen : a.length = xs.length := hperm.length_eq
  by_cases hc : 2 ≤ xs.length
  · obtain ⟨x, hx⟩ : ∃ x, a[a.length - (a.length + 19) / 20 - 1]? = some x :=
      ⟨_, List.getElem?_eq_getElem (by omega)⟩
    have hprint : awkElement (a.map fun x => [.number x]) (awkIndex xs.length) = [.number x] := by
      rw [awkIndex_eq hc, awkElement_natCast, ← hlen, List.getD_eq_getElem?_getD, List.getElem?_map,
        hx]
      rfl
    have hquantile : IsQuantile (95 / 100) xs x ↔
        20 ∣ xs.length ∨ a[a.length - (a.length + 19) / 20]? = some x := by
      rw [← IsQuantile.perm_iff hperm, isQuantile_index hsorted (by omega) hx, hlen]
    simp only [hx, hprint]
    constructor
    · rintro ⟨_, _, y, hy, hq⟩
      obtain rfl : x = y := by simpa using hy
      exact ⟨hc, hquantile.mp hq⟩
    · rintro ⟨_, hq⟩
      refine ⟨?_, ?_, x, rfl, hquantile.mpr hq⟩
      · rw [awkIndex_eq hc]
        exact Nat.cast_nonneg _
      · calc awkIndex xs.length
            = ((xs.length - (xs.length + 19) / 20 - 1 : Nat) : ℚ) := awkIndex_eq hc
          _ ≤ ((xs.length - 1 : Nat) : ℚ) := Nat.cast_le.mpr (by omega)
          _ = xs.length - 1 := by rw [Nat.cast_sub (by omega), Nat.cast_one]
  -- the index of a single sample is -1
  · have hone : xs.length = 1 := by omega
    constructor
    · rintro ⟨hlow, _, _⟩
      rw [hone, awkIndex, awkP5_eq] at hlow
      norm_num at hlow
    · rintro ⟨htwo, _⟩
      exact absurd htwo hc

/-! ### Files of a client -/

/-- The file of records with these sojourn times, in nanoseconds. -/
def fileOf (sjrnTimes : List UInt64) : Bytes :=
  (sjrnTimes.map fun x => (⟨0, 0, x, 0, 0⟩ : Sample)).flatMap (Sample.bytes .little)

theorem mapM_fileOf (sjrnTimes : List UInt64) :
    ∃ lats, [fileOf sjrnTimes].mapM (Lat.new .little) = some lats ∧
      samples lats = sjrnTimes.map fun x => fixed 3 (ms x) := by
  refine ⟨_, by rw [List.mapM_cons, fileOf, lat_new_bytes]; rfl, ?_⟩
  simp [samples, sojourns, Lat.parseSojournTimes, Lat.column, Sample.words, Function.comp_def]

/-- Twenty samples of 1 to 20 milliseconds. -/
theorem agg_95th_iff_twenty :
    ∃ files lats, files.mapM (Lat.new .little) = some lats ∧ (samples lats).length = 20 ∧
      Prints95 (aggLats .little [] files) (samples lats) := by
  obtain ⟨lats, hfiles, hsamples⟩ :=
    mapM_fileOf ((List.range 20).map fun k => UInt64.ofNat (1000000 * (k + 1)))
  have hlen : (samples lats).length = 20 := by rw [hsamples]; simp
  refine ⟨_, lats, hfiles, hlen, (agg_95th_iff hfiles ?_).mpr ⟨by omega, .inl (by rw [hlen])⟩⟩
  rw [← List.length_pos_iff]
  omega

/-- One millisecond and two: the script prints the smaller one, which half of the samples
exceed. -/
theorem agg_95th_of_two :
    ∃ files lats, files.mapM (Lat.new .little) = some lats ∧ samples lats ≠ [] ∧
      aggLats .little [] files = [.number 1] ∧
      ¬ Prints95 (aggLats .little [] files) (samples lats) := by
  obtain ⟨lats, hfiles, hsamples⟩ := mapM_fileOf [1000000, 2000000]
  have htwo : samples lats = [1, 2] := by rw [hsamples]; decide +kernel
  have hsort : [(1 : ℚ), 2].mergeSort (· ≤ ·) = [1, 2] := List.mergeSort_eq_self (· ≤ ·) (by decide)
  have hprint : aggLats .little [] [fileOf [1000000, 2000000]] = [.number 1] := by
    rw [aggLats_eq hfiles, htwo, hsort, awkIndex_eq (by decide), awkElement_natCast]
    rfl
  refine ⟨_, lats, hfiles, by rw [htwo]; nofun, hprint, ?_⟩
  rintro ⟨_, _, x, hx, hquantile⟩
  obtain rfl : 1 = x := by simpa [hprint] using hx
  rw [htwo, IsQuantile] at hquantile
  norm_num at hquantile

end TailBench.Utilities
