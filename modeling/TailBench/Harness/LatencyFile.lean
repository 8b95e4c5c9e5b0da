import TailBench.Harness.Window

set_option autoImplicit false

/-! # The latency file

`dumpStats` writes the samples of the region of interest to `lats_<id>.bin`, five words each,
with no header. The class `Lat` of `utilities/parselats.py` reads the file back: all words at
once, in rows of five, of which it hands out the columns. The order of the five writes in the
one and the five column numbers in the other are all that says which word is which.

The script is Python 2, so the number of rows is a truncated quotient; `reshape` fails when
the words do not fill the rows.
-/

namespace TailBench

open Lib

/-! ## Words of a machine -/

/-- The byte order of the machine. -/
inductive ByteOrder where
  | little
  | big
  deriving DecidableEq, Repr

/-- The image of a word in memory. -/
def ByteOrder.bytes : ByteOrder → UInt64 → Bytes
  | .little, x => u64Bytes x
  | .big, x => (u64Bytes x).reverse

/-- The word that eight bytes hold. -/
def ByteOrder.word : ByteOrder → Bytes → UInt64
  | .little, bs => u64At bs
  | .big, bs => u64At bs.reverse

section Order

variable (order : ByteOrder)

@[simp] theorem ByteOrder.length_bytes (x : UInt64) : (order.bytes x).length = 8 := by
  cases order <;> simp [ByteOrder.bytes]

@[simp] theorem ByteOrder.word_bytes (x : UInt64) : order.word (order.bytes x) = x := by
  have hword : u64At (u64Bytes x) = x := by simpa using u64At_append x []
  cases order with
  | little => exact hword
  | big => rw [ByteOrder.word, ByteOrder.bytes, List.reverse_reverse, hword]

theorem ByteOrder.bytes_word {bs : Bytes} (h : bs.length = 8) :
    order.bytes (order.word bs) = bs := by
  cases order with
  | little => exact u64Bytes_u64At h
  | big =>
      rw [ByteOrder.word, ByteOrder.bytes, u64Bytes_u64At (by rw [List.length_reverse, h]),
        List.reverse_reverse]

end Order

/-! ## The writer -/

/-- The five words of a record. -/
def Sample.words (x : Sample) : List UInt64 :=
  [x.queueTime, x.svcTime, x.sjrnTime, x.requestDate, x.nicSjrnTime]

/-- The five writes of one turn of the loop. -/
def Sample.bytes (order : ByteOrder) (x : Sample) : Bytes :=
  order.bytes x.queueTime ++ order.bytes x.svcTime ++ order.bytes x.sjrnTime ++
    order.bytes x.requestDate ++ order.bytes x.nicSjrnTime

/-- The file `dumpStats` writes. -/
def Client.dumpFile (order : ByteOrder) (c : Client) : Bytes :=
  c.dumpRecords.flatMap (Sample.bytes order)

/-! ## The reader -/

/-- `np.fromfile(f, dtype=np.uint64)`: the whole words of the file. -/
def fromfile (order : ByteOrder) (file : Bytes) : List UInt64 :=
  (blocks 8 (file.length / 8) file).map order.word

/-- `a.reshape((rows, cols))`; `none` when it raises `ValueError`. -/
def reshape (rows cols : Nat) (a : List UInt64) : Option (List (List UInt64)) :=
  if a.length = rows * cols then some (blocks cols rows a) else none

structure Lat where
  reqTimes : List (List UInt64)

namespace Lat

/-- `Lat(fileName)`. -/
def new (order : ByteOrder) (file : Bytes) : Option Lat :=
  let a := fromfile order file
  (reshape (a.length / 5) 5 a).map Lat.mk

/-- `reqTimes[:, k]`. -/
def column (l : Lat) (k : Nat) : List UInt64 := l.reqTimes.map fun row => row.getD k 0

def parseQueueTimes (l : Lat) : List UInt64 := l.column 0

def parseSvcTimes (l : Lat) : List UInt64 := l.column 1

def parseSojournTimes (l : Lat) : List UInt64 := l.column 2

def parseRequestDate (l : Lat) : List UInt64 := l.column 3

def parseNicSojournTimes (l : Lat) : List UInt64 := l.column 4

/-- What the script reads from a file is what a client has in its five vectors. -/
structure Shows (l : Lat) (c : Client) : Prop where
  queueTimes : l.parseQueueTimes = c.queueTimes
  svcTimes : l.parseSvcTimes = c.svcTimes
  sjrnTimes : l.parseSojournTimes = c.sjrnTimes
  requestDate : l.parseRequestDate = c.requestDate
  nicSjrnTimes : l.parseNicSojournTimes = c.nicSjrnTimes

end Lat

/-! ## Reading what was written -/

section RoundTrip

variable (order : ByteOrder)

theorem Sample.bytes_eq (x : Sample) : x.bytes order = (x.words.map order.bytes).flatten := by
  simp [Sample.bytes, Sample.words]

theorem Sample.length_bytes (x : Sample) : (x.bytes order).length = 40 := by
  simp [Sample.bytes]

theorem length_flatMap_bytes (xs : List Sample) :
    (xs.flatMap (Sample.bytes order)).length = xs.length * 40 := by
  rw [List.flatMap_def, length_flatten_of_blocks (k := 40), List.length_map]
  intro b hb
  rcases List.mem_map.mp hb with ⟨x, -, rfl⟩
  exact x.length_bytes order

/-- Reading the words of a file that consists of words. -/
theorem fromfile_bytes (ws : List UInt64) :
    fromfile order (ws.map order.bytes).flatten = ws := by
  have hwords : ∀ b ∈ ws.map order.bytes, b.length = 8 := by
    intro b hb
    rcases List.mem_map.mp hb with ⟨x, -, rfl⟩
    exact order.length_bytes x
  have hlen := length_flatten_of_blocks hwords
  have hcut := blocks_flatten hwords
  rw [List.length_map] at hlen hcut
  rw [fromfile, hlen, Nat.mul_div_cancel _ (by decide), hcut, List.map_map]
  simp [Function.comp_def]

/-- **The reader after the writer.** -/
theorem lat_new_bytes (xs : List Sample) :
    Lat.new order (xs.flatMap (Sample.bytes order)) = some ⟨xs.map Sample.words⟩ := by
  have hfile : xs.flatMap (Sample.bytes order)
      = ((xs.map Sample.words).flatten.map order.bytes).flatten := by
    induction xs with
    | nil => rfl
    | cons x xs ih =>
        rw [List.flatMap_cons, ih, Sample.bytes_eq, List.map_cons, List.flatten_cons,
          List.map_append, List.flatten_append]
  have hrows : ∀ row ∈ xs.map Sample.words, row.length = 5 := by
    intro row hrow
    rcases List.mem_map.mp hrow with ⟨x, -, rfl⟩
    rfl
  have hlen := length_flatten_of_blocks hrows
  have hcut := blocks_flatten hrows
  rw [List.length_map] at hlen hcut
  rw [Lat.new, hfile, fromfile_bytes, reshape, hlen, Nat.mul_div_cancel _ (by decide),
    if_pos rfl, hcut]
  rfl

/-- The columns of the rows of a file. -/
theorem shows_iff (xs : List Sample) (c : Client) :
    Lat.Shows ⟨xs.map Sample.words⟩ c ↔ c.Columns xs := by
  have hcol : ∀ (k : Nat) (f : Sample → UInt64), (∀ x : Sample, x.words.getD k 0 = f x) →
      Lat.column ⟨xs.map Sample.words⟩ k = xs.map f := by
    intro k f hf
    rw [Lat.column, List.map_map]
    exact List.map_congr_left fun x _ => hf x
  -- the order of the columns is the order of the five writes
  have h0 := hcol 0 Sample.queueTime fun _ => rfl
  have h1 := hcol 1 Sample.svcTime fun _ => rfl
  have h2 := hcol 2 Sample.sjrnTime fun _ => rfl
  have h3 := hcol 3 Sample.requestDate fun _ => rfl
  have h4 := hcol 4 Sample.nicSjrnTime fun _ => rfl
  constructor
  · intro h
    exact ⟨h.queueTimes.symm.trans h0, h.svcTimes.symm.trans h1, h.sjrnTimes.symm.trans h2,
      h.requestDate.symm.trans h3, h.nicSjrnTimes.symm.trans h4⟩
  · intro h
    exact ⟨h0.trans h.queueTimes.symm, h1.trans h.svcTimes.symm, h2.trans h.sjrnTimes.symm,
      h3.trans h.requestDate.symm, h4.trans h.nicSjrnTimes.symm⟩

/-- A row of five words is a record. -/
theorem exists_words {row : List UInt64} (h : row.length = 5) : ∃ x : Sample, x.words = row := by
  match row, h with
  | [a, b, c, d, e], _ => exact ⟨⟨a, b, c, d, e⟩, rfl⟩

/-- **Every file of whole records was written from them.** -/
theorem exists_records {file : Bytes} {n : Nat} (h : file.length = n * 40) :
    ∃ xs : List Sample, xs.length = n ∧ xs.flatMap (Sample.bytes order) = file := by
  induction n generalizing file with
  | zero =>
      obtain rfl : file = [] := List.eq_nil_of_length_eq_zero (by simpa using h)
      exact ⟨[], rfl, rfl⟩
  | succ n ih =>
      have hhead : (file.take 40).length = 5 * 8 := by
        rw [List.length_take, h]
        omega
      have hwords := length_of_mem_blocks hhead
      have hfive : ((blocks 8 5 (file.take 40)).map order.word).length = 5 := by
        rw [List.length_map, length_blocks]
      rcases exists_words hfive with ⟨x, hx⟩
      -- cutting the record into words and writing them again gives it back
      have hsame : ∀ b ∈ blocks 8 5 (file.take 40), (order.bytes ∘ order.word) b = id b :=
        fun b hb => order.bytes_word (hwords b hb)
      have hbytes : x.bytes order = file.take 40 := by
        rw [Sample.bytes_eq, hx, List.map_map]
        calc ((blocks 8 5 (file.take 40)).map (order.bytes ∘ order.word)).flatten
            = (blocks 8 5 (file.take 40)).flatten := by
              rw [List.map_congr_left hsame, List.map_id]
          _ = file.take 40 := flatten_blocks hhead
      have hrest : (file.drop 40).length = n * 40 := by
        rw [List.length_drop, h]
        omega
      rcases ih hrest with ⟨xs, hlen, hxs⟩
      refine ⟨x :: xs, by rw [List.length_cons, hlen], ?_⟩
      rw [List.flatMap_cons, hbytes, hxs, List.take_append_drop]

/-- What `dumpStats` writes is all of it exactly when `int` can count the records. -/
theorem dumpFile_eq_iff {c : Client} {xs : List Sample} (h : c.Columns xs) :
    c.dumpFile order = xs.flatMap (Sample.bytes order) ↔ xs.length < 2 ^ 31 := by
  rw [Client.dumpFile, h.dumpRecords]
  constructor
  · intro heq
    by_contra hge
    -- the bound of the loop is smaller than the number of records, so the file is shorter
    have hlt := cInt_toNat_lt (not_lt.mp hge)
    have hlen := congrArg List.length heq
    rw [length_flatMap_bytes, length_flatMap_bytes, List.length_take] at hlen
    omega
  · intro hlt
    rw [cInt_of_lt hlt, Int.toNat_natCast, List.take_length]

end RoundTrip

/-- A client that has recorded the samples `xs` and no others. -/
theorem exists_columns (cfg : Config) (xs : List Sample) : ∃ c : Client, c.Columns xs := by
  induction xs using List.reverseRecOn with
  | nil => exact ⟨Client.new cfg, rfl, rfl, rfl, rfl, rfl⟩
  | append_singleton xs x ih =>
      rcases ih with ⟨c, hc⟩
      refine ⟨c.record x, ?_, ?_, ?_, ?_, ?_⟩
      · simp [Client.record, hc.queueTimes]
      · simp [Client.record, hc.svcTimes]
      · simp [Client.record, hc.sjrnTimes]
      · simp [Client.record, hc.requestDate]
      · simp [Client.record, hc.nicSjrnTimes]

/-- **The latency file.** For every list of fewer than `2 ^ 31` samples the script reads the
five vectors back from the file that `dumpStats` writes; and every file of fewer than `2 ^ 31`
whole records is what `dumpStats` writes from the columns the script reads in it. -/
theorem latency_file_round_trip (order : ByteOrder) :
    (∀ (xs : List Sample) (c : Client), xs.length < 2 ^ 31 → c.Columns xs →
      ∃ l, Lat.new order (c.dumpFile order) = some l ∧
        l.parseQueueTimes = xs.map Sample.queueTime ∧
        l.parseSvcTimes = xs.map Sample.svcTime ∧
        l.parseSojournTimes = xs.map Sample.sjrnTime ∧
        l.parseRequestDate = xs.map Sample.requestDate ∧
        l.parseNicSojournTimes = xs.map Sample.nicSjrnTime) ∧
    ∀ file : Bytes, file.length % 40 = 0 → file.length / 40 < 2 ^ 31 →
      ∃ l, Lat.new order file = some l ∧ (∃ c, l.Shows c) ∧
        ∀ c, l.Shows c → c.dumpFile order = file := by
  constructor
  · intro xs c hlen hc
    refine ⟨⟨xs.map Sample.words⟩, ?_, ?_⟩
    · rw [(dumpFile_eq_iff order hc).mpr hlen, lat_new_bytes]
    · have hshows := (shows_iff xs c).mpr hc
      exact ⟨hshows.queueTimes.trans hc.queueTimes, hshows.svcTimes.trans hc.svcTimes,
        hshows.sjrnTimes.trans hc.sjrnTimes, hshows.requestDate.trans hc.requestDate,
        hshows.nicSjrnTimes.trans hc.nicSjrnTimes⟩
  · intro file hmod hlen
    -- a file of whole records is cut into them
    have hfile : file.length = file.length / 40 * 40 := by omega
    rcases exists_records order hfile with ⟨xs, hxs, rfl⟩
    refine ⟨⟨xs.map Sample.words⟩, lat_new_bytes order xs, ?_, fun c hc => ?_⟩
    · rcases exists_columns smallConfig xs with ⟨c, hc⟩
      exact ⟨c, (shows_iff xs c).mpr hc⟩
    · exact (dumpFile_eq_iff order ((shows_iff xs c).mp hc)).mpr (by rw [hxs]; exact hlen)

/-- Two samples, written and read. -/
def twoSamples : List Sample := [⟨1, 2, 3, 4, 5⟩, ⟨6, 7, 8, 9, 10⟩]

theorem latency_file_round_trip_two :
    ∃ c : Client, c.Columns twoSamples ∧ ∃ l, Lat.new .little (c.dumpFile .little) = some l ∧
      l.parseSojournTimes = [3, 8] ∧
      ∀ c', l.Shows c' → c'.dumpFile .little = c.dumpFile .little := by
  rcases exists_columns smallConfig twoSamples with ⟨c, hc⟩
  rcases latency_file_round_trip .little with ⟨hread, hwrite⟩
  have hfile : c.dumpFile .little = twoSamples.flatMap (Sample.bytes .little) :=
    (dumpFile_eq_iff .little hc).mpr (by decide)
  have hlen : (c.dumpFile .little).length = 80 := by rw [hfile, length_flatMap_bytes]; rfl
  rcases hread twoSamples c (by decide) hc with ⟨l, hl, -, -, hsjrn, -, -⟩
  rcases hwrite (c.dumpFile .little) (by rw [hlen]) (by rw [hlen]; decide) with ⟨l', hl', -, hall⟩
  obtain rfl : l = l' := Option.some.inj (hl.symm.trans hl')
  exact ⟨c, hc, l, hl, hsjrn, hall⟩

/-- A file of `2 ^ 31` records is not what `dumpStats` writes from its columns: `int` makes a
negative number of their count, and the file stays empty. -/
theorem long_file_not_dumped :
    ∃ file : Bytes, file.length % 40 = 0 ∧ ∃ l, Lat.new .little file = some l ∧
      ∃ c, l.Shows c ∧ c.dumpFile .little = [] ∧ c.dumpFile .little ≠ file := by
  rcases exists_columns smallConfig (List.replicate (2 ^ 31) ⟨0, 0, 0, 0, 0⟩) with ⟨c, hc⟩
  have hlen := length_flatMap_bytes .little (List.replicate (2 ^ 31) ⟨0, 0, 0, 0, 0⟩)
  rw [List.length_replicate] at hlen
  refine ⟨_, ?_, _, lat_new_bytes .little _, c, (shows_iff _ c).mpr hc, ?_, ?_⟩
  · rw [hlen, Nat.mul_mod_left]
  · rw [Client.dumpFile, hc.dumpRecords, List.length_replicate]
    have hneg : (cInt (2 ^ 31)).toNat = 0 := by decide
    rw [hneg, List.take_zero, List.flatMap_nil]
  · rw [ne_eq, dumpFile_eq_iff .little hc, List.length_replicate]
    decide

end TailBench
