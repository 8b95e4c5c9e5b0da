import TailBench.Lib.Memory

set_option autoImplicit false

/-! # The terms file

The constructor of `TermSet`, from `xapian/client.cpp`. The stream is the bytes that are still to
be read and the state bits; `getline` follows the C++ standard. The array `term` is on the stack, so
it holds anything before the first `getline`.

A line that does not fit sets `failbit` with a count of 127, so the test for the error, which asks
for 128, is never true and nothing is read afterwards. A last line without a newline sets `eofbit`
and is dropped by the exit test.
-/

namespace TailBench.Xapian

open Lib

namespace TermSet

def MAX_TERM_LEN : Nat := 128

/-- `'\n'` -/
def newline : UInt8 := 10

/-! ## `std::istream::getline` -/

/-- An input stream. -/
structure IStream where
  rest : Bytes
  eof : Bool := false
  fail : Bool := false
  gcount : Nat := 0
  deriving DecidableEq

/-- `fin.getline(s, n)`: the stream and the array afterwards. -/
def getline (fin : IStream) (s : Memory) (n : Nat) : IStream × Memory :=
  if fin.eof || fin.fail then
    -- the sentry is false
    ({ fin with fail := true, gcount := 0 }, s.store 0 [0])
  else
    let stored := (fin.rest.take (n - 1)).takeWhile (· ≠ newline)
    let s := s.store 0 (stored ++ [0])
    match fin.rest.drop stored.length with
    | [] =>
        ({ rest := [], eof := true, fail := stored.isEmpty, gcount := stored.length }, s)
    | c :: rest =>
        if c = newline then ({ rest := rest, gcount := stored.length + 1 }, s)
        else ({ rest := c :: rest, fail := true, gcount := stored.length }, s)

/-- `std::string(term)` -/
def string (term : Memory) : Bytes := cString (term.load 0 MAX_TERM_LEN)

/-! ## The constructor -/

end TermSet

/-- A constructed object: the terms and the bounds of `termGen`. -/
structure TermSet where
  terms : List Bytes
  termGen : UInt64 × UInt64

namespace TermSet

/-- How the constructor ends. -/
inductive Outcome where
  | errorOpening
  | tooBig (termCount : UInt64)
  | loaded (termCount : UInt64) (termSet : TermSet)

/-- The `while` loop. -/
def termLoop : (fuel : Nat) → IStream → Memory → (termCount : UInt64) → (terms : List Bytes) →
    Option Outcome
  | 0, _, _, _, _ => none
  | fuel + 1, fin, term, termCount, terms =>
      let (fin, term) := getline fin term MAX_TERM_LEN
      if fin.eof then some (.loaded termCount { terms := terms, termGen := (0, termCount - 1) })
      else
        let termCount := termCount + 1
        if fin.fail && fin.gcount == MAX_TERM_LEN then some (.tooBig termCount)
        else termLoop fuel fin term termCount (terms ++ [string term])

/-- The constructor, on the contents of the file; there are none when it cannot be opened. -/
def construct (fuel : Nat) (term : Memory) : (termsFile : Option Bytes) → Option Outcome
  | none => some .errorOpening
  | some file => termLoop fuel { rest := file } term 0 []

/-! ## The lines of a file -/

/-- The lines that end in a newline, and what is behind the last newline. -/
def splitLines : Bytes → List Bytes × Bytes
  | [] => ([], [])
  | b :: bs =>
      let (ls, last) := splitLines bs
      if b = newline then ([] :: ls, last)
      else
        match ls with
        | [] => ([], b :: last)
        | l :: ls => ((b :: l) :: ls, last)

/-- The lines of a file; the last one may lack its newline. -/
def fileLines (file : Bytes) : List Bytes :=
  if (splitLines file).2 = [] then (splitLines file).1
  else (splitLines file).1 ++ [(splitLines file).2]

/-- The bytes of lines that end in a newline. -/
def unlines (ls : List Bytes) : Bytes := (ls.map (· ++ [newline])).flatten

/-- A file that is empty or ends in a newline. -/
def Terminated (file : Bytes) : Prop := file = [] ∨ file.getLast? = some newline

/-- What the constructor is for. -/
structure LoadsLines (file : Bytes) (r : Outcome) : Prop where
  tooBig : (∃ c, r = .tooBig c) ↔ ∃ l ∈ fileLines file, MAX_TERM_LEN ≤ l.length
  loaded : (∀ l ∈ fileLines file, l.length < MAX_TERM_LEN) →
    ∃ termCount termSet, r = .loaded termCount termSet ∧ termSet.terms = fileLines file ∧
      termCount = UInt64.ofNat termSet.terms.length ∧
      (file ≠ [] → ∀ idx, termSet.termGen.1 ≤ idx → idx ≤ termSet.termGen.2 →
        idx.toNat < termSet.terms.length)

/-- The constructor terminates and loads the lines, whatever was on the stack. -/
def Loads (file : Bytes) : Prop :=
  ∀ term, ∃ fuel r, construct fuel term (some file) = some r ∧ LoadsLines file r

/-! ### Splitting -/

theorem unlines_cons (l : Bytes) (ls : List Bytes) :
    unlines (l :: ls) = l ++ newline :: unlines ls := by
  simp [unlines]

/-- The lines put together are the file. -/
theorem unlines_splitLines (file : Bytes) :
    unlines (splitLines file).1 ++ (splitLines file).2 = file := by
  induction file with
  | nil => rfl
  | cons b bs ih =>
      rw [splitLines]
      generalize splitLines bs = r at ih ⊢
      obtain ⟨ls, last⟩ := r
      by_cases hb : b = newline
      · simp only [hb, if_true, unlines_cons, List.nil_append, List.cons_append]
        rw [ih]
      · cases ls with
        | nil =>
            simp only [if_neg hb]
            exact congrArg (b :: ·) ih
        | cons l ls =>
            simp only [if_neg hb]
            rw [unlines_cons] at ih ⊢
            exact congrArg (b :: ·) ih

/-- No line has a newline in it. -/
theorem newline_notMem_splitLines (file : Bytes) :
    (∀ l ∈ (splitLines file).1, newline ∉ l) ∧ newline ∉ (splitLines file).2 := by
  induction file with
  | nil => simp [splitLines]
  | cons b bs ih =>
      rw [splitLines]
      generalize splitLines bs = r at ih ⊢
      obtain ⟨ls, last⟩ := r
      obtain ⟨hls, hlast⟩ := ih
      by_cases hb : b = newline
      · simp only [if_pos hb]
        exact ⟨List.forall_mem_cons.mpr ⟨List.not_mem_nil, hls⟩, hlast⟩
      · have hne : newline ≠ b := fun h => hb h.symm
        cases ls with
        | nil =>
            simp only [if_neg hb]
            exact ⟨by simp, List.not_mem_cons_of_ne_of_not_mem hne hlast⟩
        | cons l ls =>
            simp only [if_neg hb]
            rw [List.forall_mem_cons] at hls ⊢
            exact ⟨⟨List.not_mem_cons_of_ne_of_not_mem hne hls.1, hls.2⟩, hlast⟩

/-- A file of one line. -/
theorem splitLines_line {l : Bytes} (hl : newline ∉ l) :
    splitLines (l ++ [newline]) = ([l], []) := by
  induction l with
  | nil => rfl
  | cons b l ih =>
      have hb : b ≠ newline := fun h => hl (h ▸ List.mem_cons_self)
      rw [List.cons_append, splitLines, ih fun h => hl (List.mem_cons_of_mem _ h)]
      simp only [if_neg hb]

theorem mem_fileLines_of_splitLines {file l : Bytes} (h : l ∈ (splitLines file).1) :
    l ∈ fileLines file := by
  unfold fileLines
  split
  · exact h
  · exact List.mem_append_left _ h

/-- Nothing is behind the last newline when the file ends there. -/
theorem splitLines_snd_eq_nil_iff (file : Bytes) : (splitLines file).2 = [] ↔ Terminated file := by
  have hfile := unlines_splitLines file
  have hlast := (newline_notMem_splitLines file).2
  generalize splitLines file = r at hfile hlast ⊢
  obtain ⟨ls, last⟩ := r
  subst hfile
  constructor
  · rintro rfl
    rw [List.append_nil]
    rcases List.eq_nil_or_concat ls with rfl | ⟨ls, l, rfl⟩
    · exact Or.inl rfl
    · refine Or.inr ?_
      simp [unlines]
  · intro hterm
    rcases List.eq_nil_or_concat last with rfl | ⟨init, b, rfl⟩
    · rfl
    · exfalso
      simp only [Terminated, List.concat_eq_append, ← List.append_assoc, List.getLast?_concat]
        at hterm
      rcases hterm with h | h
      · simp at h
      · obtain rfl := Option.some.inj h
        exact hlast (by simp)

/-- The lines of a file that is terminated. -/
theorem fileLines_of_terminated {file : Bytes} (h : Terminated file) :
    fileLines file = (splitLines file).1 := by
  rw [fileLines, if_pos ((splitLines_snd_eq_nil_iff file).mpr h)]

/-! ## One call of `getline` -/

section Getline

variable {l rest : Bytes} {g : Nat} (s : Memory)

theorem takeWhile_line (hl : newline ∉ l) (rest : Bytes) :
    (l ++ rest).takeWhile (· ≠ newline) = l ++ rest.takeWhile (· ≠ newline) := by
  refine List.takeWhile_append_of_pos fun b hb => decide_eq_true ?_
  rintro rfl
  exact hl hb

/-- A line that fits is stored, and its newline is extracted. -/
theorem getline_line (hl : newline ∉ l) (hlen : l.length < MAX_TERM_LEN) :
    getline { rest := l ++ newline :: rest, gcount := g } s MAX_TERM_LEN =
      ({ rest := rest, gcount := l.length + 1 }, s.store 0 (l ++ [0])) := by
  have hstored : ((l ++ newline :: rest).take (MAX_TERM_LEN - 1)).takeWhile (· ≠ newline) = l := by
    rw [List.take_append, List.take_of_length_le (by omega), takeWhile_line hl]
    cases MAX_TERM_LEN - 1 - l.length <;> simp
  simp only [getline, hstored, List.drop_left]
  simp

/-- The end of the file, before a newline. -/
theorem getline_last (hl : newline ∉ l) (hlen : l.length < MAX_TERM_LEN) :
    (getline { rest := l, gcount := g } s MAX_TERM_LEN).1.eof = true := by
  have hstored : (l.take (MAX_TERM_LEN - 1)).takeWhile (· ≠ newline) = l := by
    have hline := takeWhile_line hl []
    rw [List.append_nil] at hline
    rw [List.take_of_length_le (by omega), hline]
    simp
  simp only [getline, hstored, List.drop_length]
  simp

/-- A line that does not fit sets `failbit`, with a count of 127. -/
theorem getline_long (hl : newline ∉ l) (hlen : MAX_TERM_LEN ≤ l.length) (rest : Bytes) (g : Nat) :
    let fin := (getline { rest := l ++ rest, gcount := g } s MAX_TERM_LEN).1
    fin.eof = false ∧ fin.fail = true ∧ fin.gcount = MAX_TERM_LEN - 1 := by
  have hmax : MAX_TERM_LEN = 128 := rfl
  have htake : newline ∉ l.take (MAX_TERM_LEN - 1) := fun h => hl (List.mem_of_mem_take h)
  have hstored : ((l ++ rest).take (MAX_TERM_LEN - 1)).takeWhile (· ≠ newline) =
      l.take (MAX_TERM_LEN - 1) := by
    have hline := takeWhile_line htake []
    rw [List.append_nil] at hline
    rw [List.take_append_of_le_length (by omega), hline]
    simp
  have hcount : (l.take (MAX_TERM_LEN - 1)).length = MAX_TERM_LEN - 1 := by
    rw [List.length_take]
    omega
  -- the character that is next belongs to the line
  obtain ⟨c, more, hc⟩ : ∃ c more, (l.drop (MAX_TERM_LEN - 1)) = c :: more := by
    refine List.exists_cons_of_ne_nil fun h => ?_
    have := List.drop_eq_nil_iff.mp h
    omega
  have hcl : c ≠ newline := by
    rintro rfl
    exact hl (List.mem_of_mem_drop (hc ▸ List.mem_cons_self))
  have hdrop : (l ++ rest).drop (MAX_TERM_LEN - 1) = c :: (more ++ rest) := by
    rw [List.drop_append_of_le_length (by omega), hc, List.cons_append]
  simp only [getline, hstored, hcount, hdrop]
  simp [hcl]

end Getline

/-! ## The loop -/

/-- What is copied into the string is the line, up to its first zero. -/
theorem string_store {l : Bytes} (hlen : l.length < MAX_TERM_LEN) (s : Memory) :
    string (s.store 0 (l ++ [0])) = cString l := by
  have hfits : (l ++ [0]).length ≤ MAX_TERM_LEN := by
    rw [List.length_append, List.length_singleton]
    omega
  rw [string, Memory.load_store_le s 0 hfits, List.append_assoc, List.singleton_append,
    cString_append_zero]

/-- **Lines that fit** are loaded, each up to its first zero. -/
theorem termLoop_lines {ls : List Bytes} (hls : ∀ l ∈ ls, newline ∉ l)
    (hlen : ∀ l ∈ ls, l.length < MAX_TERM_LEN) (fuel : Nat) (rest : Bytes) (g : Nat)
    (term : Memory) (termCount : UInt64) (terms : List Bytes) :
    ∃ g' term', termLoop (ls.length + fuel) { rest := unlines ls ++ rest, gcount := g } term
        termCount terms =
      termLoop fuel { rest := rest, gcount := g' } term' (termCount + UInt64.ofNat ls.length)
        (terms ++ ls.map cString) := by
  induction ls generalizing g term termCount terms with
  | nil => exact ⟨g, term, by simp [unlines]⟩
  | cons l ls ih =>
      obtain ⟨hl, hls⟩ := List.forall_mem_cons.mp hls
      obtain ⟨hlen1, hlens⟩ := List.forall_mem_cons.mp hlen
      obtain ⟨g', term', hih⟩ := ih hls hlens (l.length + 1) (term.store 0 (l ++ [0]))
        (termCount + 1) (terms ++ [cString l])
      have hfuel : (l :: ls).length + fuel = (ls.length + fuel) + 1 := by
        rw [List.length_cons]
        omega
      have hcount : termCount + 1 + UInt64.ofNat ls.length =
          termCount + UInt64.ofNat (l :: ls).length := by
        rw [List.length_cons, UInt64.ofNat_add, UInt64.add_assoc, UInt64.add_comm 1]
        rfl
      refine ⟨g', term', ?_⟩
      rw [hfuel, unlines_cons, List.append_assoc, List.cons_append]
      calc termLoop (ls.length + fuel + 1)
            { rest := l ++ newline :: (unlines ls ++ rest), gcount := g } term termCount terms
          = termLoop (ls.length + fuel) { rest := unlines ls ++ rest, gcount := l.length + 1 }
              (term.store 0 (l ++ [0])) (termCount + 1) (terms ++ [cString l]) := by
            rw [termLoop, getline_line term hl hlen1]
            simp only [Bool.false_and, if_false, Bool.false_eq_true, string_store hlen1]
        _ = termLoop fuel { rest := rest, gcount := g' } term'
              (termCount + 1 + UInt64.ofNat ls.length)
              ((terms ++ [cString l]) ++ ls.map cString) := hih
        _ = termLoop fuel { rest := rest, gcount := g' } term'
              (termCount + UInt64.ofNat (l :: ls).length) (terms ++ (l :: ls).map cString) := by
            rw [hcount, List.map_cons, List.append_assoc, List.singleton_append]

/-- Behind the last newline the loop ends. -/
theorem termLoop_last {last : Bytes} (hlast : newline ∉ last) (hlen : last.length < MAX_TERM_LEN)
    (fuel g : Nat) (term : Memory) (termCount : UInt64) (terms : List Bytes) :
    termLoop (fuel + 1) { rest := last, gcount := g } term termCount terms =
      some (.loaded termCount { terms := terms, termGen := (0, termCount - 1) }) := by
  rw [termLoop]
  simp only [getline_last term hlast hlen, if_true]

/-- After `failbit` the loop never ends. -/
theorem termLoop_failed (fuel : Nat) {fin : IStream} (heof : fin.eof = false)
    (hfail : fin.fail = true) (term : Memory) (termCount : UInt64) (terms : List Bytes) :
    termLoop fuel fin term termCount terms = none := by
  induction fuel generalizing fin term termCount terms with
  | zero => rfl
  | succ fuel ih =>
      have hget : getline fin term MAX_TERM_LEN =
          ({ fin with fail := true, gcount := 0 }, term.store 0 [0]) := by
        rw [getline, if_pos (by rw [hfail, Bool.or_true])]
      rw [termLoop, hget]
      simp only [heof, Bool.false_eq_true, if_false, Bool.true_and]
      rw [if_neg (by decide)]
      exact ih rfl rfl _ _ _

/-- A line that does not fit: the error test is false, and the loop never ends. -/
theorem termLoop_long {l : Bytes} (hl : newline ∉ l) (hlen : MAX_TERM_LEN ≤ l.length)
    (fuel : Nat) (rest : Bytes) (g : Nat) (term : Memory) (termCount : UInt64)
    (terms : List Bytes) :
    termLoop fuel { rest := l ++ rest, gcount := g } term termCount terms = none := by
  cases fuel with
  | zero => rfl
  | succ fuel =>
      obtain ⟨heof, hfail, hcount⟩ := getline_long term hl hlen rest g
      rw [termLoop]
      simp only [heof, hfail, hcount, Bool.false_eq_true, if_false, Bool.true_and]
      rw [if_neg (by decide)]
      exact termLoop_failed fuel heof hfail _ _ _

/-- So it is when the line comes after others. -/
theorem termLoop_some_long {ls : List Bytes} {last : Bytes} (hls : ∀ l ∈ ls, newline ∉ l)
    (hlast : newline ∉ last) (hlong : ∃ l ∈ ls ++ [last], MAX_TERM_LEN ≤ l.length)
    (fuel g : Nat) (term : Memory) (termCount : UInt64) (terms : List Bytes) :
    termLoop fuel { rest := unlines ls ++ last, gcount := g } term termCount terms = none := by
  induction ls generalizing fuel g term termCount terms with
  | nil =>
      obtain ⟨l, hl, hlen⟩ := hlong
      obtain rfl : l = last := by simpa using hl
      simpa [unlines] using termLoop_long hlast hlen fuel [] g term termCount terms
  | cons l ls ih =>
      obtain ⟨hl, hls⟩ := List.forall_mem_cons.mp hls
      rw [unlines_cons, List.append_assoc, List.cons_append]
      by_cases hlen : MAX_TERM_LEN ≤ l.length
      · exact termLoop_long hl hlen fuel _ g term termCount terms
      · have hrest : ∃ l' ∈ ls ++ [last], MAX_TERM_LEN ≤ l'.length := by
          obtain ⟨l', hl', hlen'⟩ := hlong
          rcases List.mem_cons.mp hl' with rfl | hl'
          · exact absurd hlen' hlen
          · exact ⟨l', hl', hlen'⟩
        cases fuel with
        | zero => rfl
        | succ fuel =>
            rw [termLoop, getline_line term hl (by omega)]
            simp only [Bool.false_and, if_false, Bool.false_eq_true]
            exact ih hls hrest _ _ _ _ _

/-- More fuel does not change the result. -/
theorem termLoop_add {fuel : Nat} {fin : IStream} {term : Memory} {termCount : UInt64}
    {terms : List Bytes} {r : Outcome} (h : termLoop fuel fin term termCount terms = some r)
    (k : Nat) : termLoop (fuel + k) fin term termCount terms = some r := by
  induction fuel generalizing fin term termCount terms with
  | zero => cases h
  | succ fuel ih =>
      rw [Nat.add_right_comm]
      rw [termLoop] at h ⊢
      generalize getline fin term MAX_TERM_LEN = got at h ⊢
      obtain ⟨fin', term'⟩ := got
      by_cases heof : fin'.eof = true
      · simpa only [heof, if_true] using h
      · simp only [heof] at h ⊢
        by_cases hbig : (fin'.fail && fin'.gcount == MAX_TERM_LEN) = true
        · simpa only [hbig, if_true] using h
        · simp only [hbig] at h ⊢
          exact ih h

/-! ## What is loaded -/

theorem construct_unique {fuel fuel' : Nat} {term : Memory} {file : Bytes} {r r' : Outcome}
    (h : construct fuel term (some file) = some r)
    (h' : construct fuel' term (some file) = some r') : r = r' := by
  have hadd := termLoop_add h fuel'
  have hadd' := termLoop_add h' fuel
  rw [Nat.add_comm] at hadd'
  exact Option.some.inj (hadd.symm.trans hadd')

/-- **A line of 128 characters or more**: the constructor does not terminate. -/
theorem construct_long {file : Bytes} (hlong : ∃ l ∈ fileLines file, MAX_TERM_LEN ≤ l.length)
    (fuel : Nat) (term : Memory) : construct fuel term (some file) = none := by
  obtain ⟨hls, hlast⟩ := newline_notMem_splitLines file
  obtain ⟨l, hl, hlen⟩ := hlong
  have hmem : l ∈ (splitLines file).1 ++ [(splitLines file).2] := by
    unfold fileLines at hl
    split at hl
    · exact List.mem_append_left _ hl
    · exact hl
  have hloop := termLoop_some_long hls hlast ⟨l, hmem, hlen⟩ fuel 0 term 0 []
  rwa [unlines_splitLines] at hloop

/-- **Without such a line** the lines that end in a newline are loaded, up to their first zero. -/
theorem construct_short {file : Bytes} (hshort : ∀ l ∈ fileLines file, l.length < MAX_TERM_LEN)
    (term : Memory) :
    construct ((splitLines file).1.length + 1) term (some file) =
      some (.loaded (UInt64.ofNat (splitLines file).1.length)
        { terms := (splitLines file).1.map cString
          termGen := (0, UInt64.ofNat (splitLines file).1.length - 1) }) := by
  obtain ⟨hls, hlast⟩ := newline_notMem_splitLines file
  have hlen : ∀ l ∈ (splitLines file).1, l.length < MAX_TERM_LEN := fun l hl =>
    hshort l (mem_fileLines_of_splitLines hl)
  have hlen' : (splitLines file).2.length < MAX_TERM_LEN := by
    by_cases hnil : (splitLines file).2 = []
    · rw [hnil]
      decide
    · refine hshort _ ?_
      rw [fileLines, if_neg hnil]
      exact List.mem_append_right _ List.mem_cons_self
  obtain ⟨g', term', hloop⟩ := termLoop_lines hls hlen 1 (splitLines file).2 0 term 0 []
  rw [unlines_splitLines] at hloop
  rw [construct, hloop, termLoop_last hlast hlen', UInt64.zero_add, List.nil_append]

/-- An index that is drawn is in bounds when there is a term. -/
theorem drawn_lt {n : Nat} (hn : 0 < n) {idx : UInt64} (h : idx ≤ UInt64.ofNat n - 1) :
    idx.toNat < n := by
  obtain ⟨k, rfl⟩ := Nat.exists_eq_add_of_lt hn
  have hmax : UInt64.ofNat (0 + k + 1) - 1 = UInt64.ofNat k := by
    rw [Nat.zero_add, UInt64.ofNat_add]
    exact UInt64.add_sub_cancel _ _
  rw [hmax, UInt64.le_iff_toNat_le, UInt64.toNat_ofNat'] at h
  have hmod := Nat.mod_le k (2 ^ 64)
  omega

/-- **What the constructor loads.** For every terms file: the constructor terminates and loads
exactly its lines, whatever was on the stack, if and only if every line has fewer than 128
characters and no zero, and the file is empty or ends in a newline. -/
theorem loads_iff (file : Bytes) : Loads file ↔
    (∀ l ∈ fileLines file, l.length < MAX_TERM_LEN ∧ 0 ∉ l) ∧ Terminated file := by
  constructor
  · intro hloads
    obtain ⟨fuel, r, hr, hlines⟩ := hloads fun _ => 0
    have hshort : ∀ l ∈ fileLines file, l.length < MAX_TERM_LEN := by
      by_contra hlong
      push Not at hlong
      rw [construct_long hlong] at hr
      cases hr
    obtain ⟨termCount, termSet, rfl, hterms, -, -⟩ := hlines.loaded hshort
    obtain ⟨-, rfl⟩ := Outcome.loaded.inj (construct_unique hr (construct_short hshort _))
    -- as many lines as there are newlines
    have hnil : (splitLines file).2 = [] := by
      by_contra hne
      have hcount := congrArg List.length hterms
      rw [fileLines, if_neg hne] at hcount
      simp at hcount
    rw [fileLines, if_pos hnil] at hterms hshort ⊢
    refine ⟨fun l hl => ⟨hshort l hl, ?_⟩, (splitLines_snd_eq_nil_iff file).mp hnil⟩
    have hself : (splitLines file).1.map cString = (splitLines file).1.map id := by
      rw [List.map_id]
      exact hterms
    exact cString_eq_self_iff.mp (List.map_inj_left.mp hself l hl)
  · rintro ⟨hgood, hterm⟩ term
    have hshort : ∀ l ∈ fileLines file, l.length < MAX_TERM_LEN := fun l hl => (hgood l hl).1
    refine ⟨_, _, construct_short hshort term, ?_, fun _ => ?_⟩
    · constructor
      · rintro ⟨c, hc⟩
        cases hc
      · rintro ⟨l, hl, hlen⟩
        have := hshort l hl
        omega
    · refine ⟨_, _, rfl, ?_, ?_, ?_⟩
      · rw [fileLines_of_terminated hterm] at hgood ⊢
        refine (List.map_congr_left fun l hl => ?_).trans (List.map_id _)
        exact cString_eq_self_iff.mpr (hgood l hl).2
      · rw [List.length_map]
      · intro hne idx _ hidx
        have hpos : 0 < (splitLines file).1.length := by
          refine List.length_pos_iff.mpr fun hls => hne ?_
          have hfile := unlines_splitLines file
          rw [hls, (splitLines_snd_eq_nil_iff file).mpr hterm] at hfile
          exact hfile.symm
        rw [List.length_map]
        exact drawn_lt hpos hidx

/-- The file is one line without a newline, and no term is loaded; the generator draws any index.
The file is a line of 128 characters, and the constructor does not terminate. -/
theorem file_not_loaded :
    ((∀ term, construct 1 term (some [97]) = some (.loaded 0
        { terms := [], termGen := (0, 0xFFFFFFFFFFFFFFFF) })) ∧ ¬ Loads [97]) ∧
    (∀ fuel term, construct fuel term (some (List.replicate 128 97 ++ [newline])) = none) ∧
      ¬ Loads (List.replicate 128 97 ++ [newline]) := by
  have hlong : ∃ l ∈ fileLines (List.replicate 128 97 ++ [newline]), MAX_TERM_LEN ≤ l.length := by
    refine ⟨List.replicate 128 97, mem_fileLines_of_splitLines ?_, by simp [MAX_TERM_LEN]⟩
    rw [splitLines_line (by simp [newline])]
    exact List.mem_cons_self
  refine ⟨⟨fun _ => rfl, fun hloads => ?_⟩, construct_long hlong, fun hloads => ?_⟩
  · obtain ⟨fuel, r, hr, hlines⟩ := hloads fun _ => 0
    obtain ⟨_, termSet, rfl, hterms, -, -⟩ := hlines.loaded (by decide)
    obtain ⟨-, rfl⟩ := Outcome.loaded.inj (construct_unique hr (construct_short (by decide) _))
    exact absurd hterms (by decide)
  · obtain ⟨fuel, r, hr, -⟩ := hloads fun _ => 0
    rw [construct_long hlong] at hr
    cases hr

end TermSet

end TailBench.Xapian
