import TailBench.Lib.Loops
import TailBench.Lib.Memory
import TailBench.Harness.Helpers

set_option autoImplicit false

/-! # The images of img-dnn

`read_Mnist` and `concatenateMat` of `img-dnn/common.cpp`, `SerializedMat` of `common.h`, the part
of `Client::get` after the draw, and the part of `Worker::doRun` before the prediction. A
`cv::Mat` is a row-major matrix. A `double` is the 64-bit pattern it has in memory; the conversion
from a byte and the division by 255 are parameters.

A pixel is named by its row and column in the image, by its row in a column of `testX`, and by its
position in the array of the request. All three number the pixels as the file does.
-/

namespace TailBench.ImgDnn

open Lib

/-! ## `cv::Mat` -/

/-- A matrix; only the elements within `rows` and `cols` are its own. -/
structure Mat (α : Type) where
  rows : Nat
  cols : Nat
  data : Nat → Nat → α

namespace Mat

variable {α β : Type}

/-- `cv::Mat::zeros` -/
def zeros (rows cols : Nat) (zero : α) : Mat α :=
  { rows := rows, cols := cols, data := fun _ _ => zero }

/-- The value of `at(r, c)`. -/
def at? (m : Mat α) (r c : Nat) : Option α :=
  if r < m.rows ∧ c < m.cols then some (m.data r c) else none

/-- An assignment to `at(r, c)`. -/
def set (m : Mat α) (r c : Nat) (v : α) : Option (Mat α) :=
  if r < m.rows ∧ c < m.cols then
    some { m with data := fun r' c' => if r' = r ∧ c' = c then v else m.data r' c' }
  else none

/-- An operation on every element. -/
def map (f : α → β) (m : Mat α) : Mat β :=
  { rows := m.rows, cols := m.cols, data := fun r c => f (m.data r c) }

/-- `reshape(0, rows)`: the same elements in row-major order. -/
def reshape (m : Mat α) (rows : Nat) : Option (Mat α) :=
  if m.rows * m.cols % rows = 0 then
    let cols := m.rows * m.cols / rows
    some
      { rows := rows, cols := cols
        data := fun r c => m.data ((r * cols + c) / m.cols) ((r * cols + c) % m.cols) }
  else none

/-- `m(cv::Rect(x, y, width, height))`, for reading. -/
def roi (m : Mat α) (x y width height : Nat) : Option (Mat α) :=
  if x + width ≤ m.cols ∧ y + height ≤ m.rows then
    some { rows := height, cols := width, data := fun r c => m.data (y + r) (x + c) }
  else none

/-- `src.copyTo(m(cv::Rect(x, y, src.cols, src.rows)))` -/
def copyTo (src m : Mat α) (x y : Nat) : Option (Mat α) :=
  if x + src.cols ≤ m.cols ∧ y + src.rows ≤ m.rows then
    let inside (r c : Nat) : Prop := y ≤ r ∧ r < y + src.rows ∧ x ≤ c ∧ c < x + src.cols
    some { m with data := fun r c => if inside r c then src.data (r - y) (c - x) else m.data r c }
  else none

end Mat

/-! ## The file -/

/-- `ReverseInt`, on the pattern of an `int`. -/
def reverseInt (i : UInt32) : Int :=
  let ch1 := i &&& 255
  let ch2 := (i >>> 8) &&& 255
  let ch3 := (i >>> 16) &&& 255
  let ch4 := (i >>> 24) &&& 255
  cInt ((ch1 <<< 24) + (ch2 <<< 16) + (ch3 <<< 8) + ch4).toNat

structure Header where
  magic_number : Int
  number_of_images : Int
  n_rows : Int
  n_cols : Int
  deriving DecidableEq, Repr

/-- `file.read` of four bytes into an `int`, and `ReverseInt`. -/
def readInt (file : Bytes) : Int × Bytes := (reverseInt (u32At file), file.drop 4)

/-- The header, and what is behind it. -/
def readHeader (file : Bytes) : Header × Bytes :=
  let (magic_number, file) := readInt file
  let (number_of_images, file) := readInt file
  let (n_rows, file) := readInt file
  let (n_cols, file) := readInt file
  ({ magic_number := magic_number, number_of_images := number_of_images
     n_rows := n_rows, n_cols := n_cols }, file)

/-- One pixel: `temp` stays 0 at the end of the file. -/
def readPixel (r c : Nat) (s : Bytes × Mat UInt8) : Option (Bytes × Mat UInt8) :=
  (s.2.set r c (s.1.headD 0)).map fun tpmat => (s.1.tail, tpmat)

/-- One image. -/
def readImage (n_rows n_cols : Nat) (file : Bytes) : Option (Bytes × Mat UInt8) :=
  forGrid n_rows n_cols readPixel (file, Mat.zeros n_rows n_cols 0)

/-- `read_Mnist` -/
def readMnist (file : Bytes) : Option (List (Mat UInt8)) :=
  let (h, file) := readHeader file
  (forRange h.number_of_images.toNat (fun _ s =>
    (readImage h.n_rows.toNat h.n_cols.toNat s.1).map fun t => (t.1, s.2 ++ [t.2]))
    (file, [])).map Prod.snd

section Double

variable (conv : UInt8 → UInt64) (div255 : UInt64 → UInt64)

/-- `concatenateMat` -/
def concatenateMat (vec : List (Mat UInt8)) : Option (Mat UInt64) := do
  let first ← vec.head?
  let height := first.rows
  let width := first.cols
  let res ← forRange vec.length (fun i res => do
    let img ← vec[i]?
    let ptmat ← (img.map conv).reshape (height * width)
    ptmat.copyTo res i 0) (Mat.zeros (height * width) vec.length 0)
  pure (res.map div255)

/-- The matrix of `readData`. -/
def readData (file : Bytes) : Option (Mat UInt64) :=
  (readMnist file).bind (concatenateMat conv div255)

end Double

/-! ## The request -/

namespace SerializedMat

def rows : Nat := 28 * 28

def cols : Nat := 1

/-- `sizeof(SerializedMat)` -/
def size : Nat := 8 * (rows * cols)

/-- `serialize`: the state of the loops is the index of `ptr` and the object. -/
def serialize (mat : Mat UInt64) (smat : Memory) : Option Memory :=
  (forGrid rows cols (fun r c (s : Nat × Memory) =>
    (mat.at? r c).map fun v => (s.1 + 1, s.2.store (8 * s.1) (u64Bytes v))) (0, smat)).map Prod.snd

/-- `deserialize` -/
def deserialize (smat : Memory) : Option (Mat UInt64) :=
  (forGrid rows cols (fun r c (s : Nat × Mat UInt64) =>
    (s.2.set r c (u64At (smat.load (8 * s.1) 8))).map fun mat => (s.1 + 1, mat))
    (0, Mat.zeros rows cols 0)).map Prod.snd

end SerializedMat

/-- `Client::totalImgs` -/
def totalImgs : Nat := 10000

/-- The column of an image, copied to `buf` as a `SerializedMat`. -/
def sendColumn (testX : Mat UInt64) (req : Nat) (smat buf : Memory) : Option (Memory × Nat) := do
  let single_testX ← testX.roi req 0 1 testX.rows
  let smat ← SerializedMat.serialize single_testX smat
  pure (buf.store 0 (smat.load 0 SerializedMat.size), SerializedMat.size)

/-- `Client::get`, when the draw is `req`; `none` when the assertion fails. -/
def get (testX : Mat UInt64) (req : Nat) (smat buf : Memory) : Option (Memory × Nat) :=
  if req < totalImgs then sendColumn testX req smat buf else none

/-! ## A file of images -/

/-- The bytes of a 32-bit number, most significant first. -/
def be32 (n : Nat) : Bytes :=
  [UInt8.ofNat (n / 2 ^ 24), UInt8.ofNat (n / 2 ^ 16), UInt8.ofNat (n / 2 ^ 8), UInt8.ofNat n]

/-- A file of `n` images of 28 by 28 pixels. -/
structure IsMnist (file : Bytes) (n : Nat) : Prop where
  count : n < 2 ^ 31
  layout : ∃ pixels, pixels.length = 784 * n ∧
    file = be32 0x803 ++ (be32 n ++ (be32 28 ++ (be32 28 ++ pixels)))

/-! ## The header -/

/-- A byte of a word. -/
theorem toNat_byte {k : UInt32} {j : Nat} (hk : k.toNat % 32 = j) (x : UInt32) :
    ((x >>> k) &&& 255).toNat = x.toNat / 2 ^ j % 256 := by
  rw [UInt32.toNat_and, UInt32.toNat_shiftRight, Nat.shiftRight_eq_div_pow, hk]
  exact Nat.and_two_pow_sub_one_eq_mod _ 8

/-- A byte at its place in a word. -/
theorem toNat_placed {k : UInt32} {j : Nat} (hk : k.toNat % 32 = j) {x : UInt32}
    (h : x.toNat * 2 ^ j < 2 ^ 32) : (x <<< k).toNat = x.toNat * 2 ^ j := by
  rw [UInt32.toNat_shiftLeft, Nat.shiftLeft_eq, hk, Nat.mod_eq_of_lt h]

/-- The bytes of a number. -/
theorem exists_be32 {n : Nat} (hn : n < 2 ^ 31) : ∃ b3 b2 b1 b0,
    b3 < 128 ∧ b2 < 256 ∧ b1 < 256 ∧ b0 < 256 ∧
    n = b3 * 2 ^ 24 + b2 * 2 ^ 16 + b1 * 2 ^ 8 + b0 ∧
    be32 n = [UInt8.ofNat b3, UInt8.ofNat b2, UInt8.ofNat b1, UInt8.ofNat b0] := by
  refine ⟨n / 2 ^ 24, n / 2 ^ 16 % 256, n / 2 ^ 8 % 256, n % 256, by omega, by omega, by omega,
    by omega, by omega, ?_⟩
  have hmod : ∀ k : Nat, UInt8.ofNat (k % 256) = UInt8.ofNat k := fun k =>
    UInt8.toNat_inj.mp (by simp)
  rw [be32, hmod, hmod, hmod]

/-- **`ReverseInt` reads a big-endian number.** -/
theorem reverseInt_be32 {n : Nat} (hn : n < 2 ^ 31) (rest : Bytes) :
    reverseInt (u32At (be32 n ++ rest)) = n := by
  obtain ⟨b3, b2, b1, b0, h3, h2, h1, h0, hsum, hbytes⟩ := exists_be32 hn
  -- the most significant byte is the lowest of the word that is read
  have hword : (u32At (be32 n ++ rest)).toNat = b3 + 2 ^ 8 * b2 + 2 ^ 16 * b1 + 2 ^ 24 * b0 := by
    have hof : ofLe ((be32 n ++ rest).take 4) = b3 + 256 * (b2 + 256 * (b1 + 256 * b0)) := by
      rw [hbytes]
      simp only [List.cons_append, List.nil_append, List.take_succ_cons, List.take_zero, ofLe,
        UInt8.toNat_ofNat']
      rw [Nat.mod_eq_of_lt (by omega : b3 < 2 ^ 8), Nat.mod_eq_of_lt h2, Nat.mod_eq_of_lt h1,
        Nat.mod_eq_of_lt h0, Nat.mul_zero, Nat.add_zero]
    rw [u32At, hof, UInt32.toNat_ofNat', Nat.mod_eq_of_lt (by omega)]
    omega
  generalize u32At (be32 n ++ rest) = i at hword ⊢
  have hch1 : (i &&& 255).toNat = b3 := by
    have hbyte := toNat_byte (k := 0) (j := 0) rfl i
    rw [UInt32.shiftRight_zero] at hbyte
    omega
  have hch2 : ((i >>> 8) &&& 255).toNat = b2 := by
    have hdiv : i.toNat / 2 ^ 8 = b2 + 256 * (b1 + 2 ^ 8 * b0) := by omega
    rw [toNat_byte (k := 8) (j := 8) rfl i, hdiv, Nat.add_mul_mod_self_left, Nat.mod_eq_of_lt h2]
  have hch3 : ((i >>> 16) &&& 255).toNat = b1 := by
    have hdiv : i.toNat / 2 ^ 16 = b1 + 256 * b0 := by omega
    rw [toNat_byte (k := 16) (j := 16) rfl i, hdiv, Nat.add_mul_mod_self_left, Nat.mod_eq_of_lt h1]
  have hch4 : ((i >>> 24) &&& 255).toNat = b0 := by
    have hdiv : i.toNat / 2 ^ 24 = b0 := by omega
    rw [toNat_byte (k := 24) (j := 24) rfl i, hdiv, Nat.mod_eq_of_lt h0]
  have hp1 := toNat_placed (k := 24) (j := 24) rfl (x := i &&& 255) (by rw [hch1]; omega)
  have hp2 := toNat_placed (k := 16) (j := 16) rfl (x := (i >>> 8) &&& 255) (by rw [hch2]; omega)
  have hp3 := toNat_placed (k := 8) (j := 8) rfl (x := (i >>> 16) &&& 255) (by rw [hch3]; omega)
  have hn' : (((i &&& 255) <<< 24) + (((i >>> 8) &&& 255) <<< 16) +
      (((i >>> 16) &&& 255) <<< 8) + ((i >>> 24) &&& 255)).toNat = n := by
    rw [UInt32.toNat_add, UInt32.toNat_add, UInt32.toNat_add, hp1, hp2, hp3, hch1, hch2, hch3,
      hch4]
    omega
  show cInt _ = n
  rw [hn', cInt_of_lt hn]

theorem readInt_be32 {n : Nat} (hn : n < 2 ^ 31) (rest : Bytes) :
    readInt (be32 n ++ rest) = ((n : Int), rest) := by
  rw [readInt, reverseInt_be32 hn]
  rfl

theorem readHeader_spec {file : Bytes} {n : Nat} (h : IsMnist file n) :
    ∃ pixels, pixels.length = 784 * n ∧ file.drop 16 = pixels ∧
      readHeader file = ({ magic_number := 0x803, number_of_images := n
                           n_rows := 28, n_cols := 28 }, pixels) := by
  obtain ⟨pixels, hlen, rfl⟩ := h.layout
  refine ⟨pixels, hlen, rfl, ?_⟩
  simp only [readHeader, readInt_be32 h.count, readInt_be32 (show 0x803 < 2 ^ 31 by decide),
    readInt_be32 (show 28 < 2 ^ 31 by decide)]
  rfl

/-! ## The pixels -/

section Mat

variable {α : Type} {m m' : Mat α} {r c : Nat} {v : α}

/-- An assignment within the matrix. -/
theorem Mat.set_spec (hr : r < m.rows) (hc : c < m.cols) (v : α) :
    ∃ m', m.set r c v = some m' ∧ m'.rows = m.rows ∧ m'.cols = m.cols ∧ m'.data r c = v ∧
      ∀ r' c', ¬ (r' = r ∧ c' = c) → m'.data r' c' = m.data r' c' := by
  refine ⟨_, if_pos ⟨hr, hc⟩, rfl, rfl, ?_, fun r' c' hne => ?_⟩
  · exact if_pos ⟨rfl, rfl⟩
  · exact if_neg hne

/-- As many elements in other rows. -/
theorem Mat.reshape_spec (rows cols : Nat) (h : m.rows * m.cols = rows * cols) (hrows : 0 < rows) :
    m.reshape rows = some
      { rows := rows, cols := cols
        data := fun r c => m.data ((r * cols + c) / m.cols) ((r * cols + c) % m.cols) } := by
  rw [Mat.reshape, h, if_pos (Nat.mul_mod_right rows cols), Nat.mul_div_cancel_left cols hrows]

/-- A column is copied. -/
theorem Mat.copyTo_spec (src : Mat α) {x : Nat} (hx : x < m.cols) (hcols : src.cols = 1)
    (hrows : src.rows = m.rows) :
    ∃ m', src.copyTo m x 0 = some m' ∧ m'.rows = m.rows ∧ m'.cols = m.cols ∧
      (∀ r < m.rows, m'.data r x = src.data r 0) ∧
      ∀ r c, c ≠ x → m'.data r c = m.data r c := by
  refine ⟨_, if_pos ⟨by omega, by omega⟩, rfl, rfl, fun r hr => ?_, fun r c hc => ?_⟩
  · refine (if_pos ⟨Nat.zero_le r, by omega, le_rfl, by omega⟩).trans ?_
    rw [Nat.sub_zero, Nat.sub_self]
  · exact if_neg fun hin => by omega

/-- The position of an element in row-major order gives its row and column. -/
theorem rowMajor_inj {cols r c r' c' : Nat} (hc : c < cols) (hc' : c' < cols)
    (h : r * cols + c = r' * cols + c') : r = r' ∧ c = c' := by
  have hpos : 0 < cols := by omega
  have hrow : r = r' := by
    have hdiv := congrArg (· / cols) h
    simpa [Nat.mul_comm _ cols, Nat.mul_add_div hpos, Nat.div_eq_of_lt, hc, hc'] using hdiv
  subst hrow
  exact ⟨rfl, by omega⟩

end Mat

/-- A matrix of 28 by 28 whose elements are the bytes in the order of the file. -/
structure IsImage (pixels : Bytes) (m : Mat UInt8) : Prop where
  rows : m.rows = 28
  cols : m.cols = 28
  data : ∀ r c, r < 28 → c < 28 → m.data r c = (pixels.drop (r * 28 + c)).headD 0

/-- The first `k` pixels of an image are in place. -/
structure PixelsRead (pixels : Bytes) (k : Nat) (s : Bytes × Mat UInt8) : Prop where
  file : s.1 = pixels.drop k
  rows : s.2.rows = 28
  cols : s.2.cols = 28
  data : ∀ r c, r < 28 → c < 28 → r * 28 + c < k →
    s.2.data r c = (pixels.drop (r * 28 + c)).headD 0

theorem PixelsRead.step {pixels : Bytes} {s : Bytes × Mat UInt8} {r c : Nat} (hr : r < 28)
    (hc : c < 28) (h : PixelsRead pixels (r * 28 + c) s) :
    ∃ s', readPixel r c s = some s' ∧ PixelsRead pixels (r * 28 + c + 1) s' := by
  obtain ⟨m', hset, hrows, hcols, hself, hother⟩ :=
    Mat.set_spec (h.rows ▸ hr) (h.cols ▸ hc) (s.1.headD 0)
  refine ⟨(s.1.tail, m'), by simp only [readPixel, hset, Option.map_some], ?_,
    hrows.trans h.rows, hcols.trans h.cols, fun r' c' hr' hc' hlt => ?_⟩
  · show s.1.tail = pixels.drop (r * 28 + c + 1)
    rw [h.file, List.tail_drop]
  · by_cases heq : r' = r ∧ c' = c
    · obtain ⟨rfl, rfl⟩ := heq
      exact hself.trans (by rw [h.file])
    · have hbefore : r' * 28 + c' < r * 28 + c := by
        have hne : r' * 28 + c' ≠ r * 28 + c := fun h => heq (rowMajor_inj hc' hc h)
        omega
      exact (hother r' c' heq).trans (h.data r' c' hr' hc' hbefore)

/-- **An image** has the bytes that are next in the file. -/
theorem readImage_spec (pixels : Bytes) :
    ∃ m, readImage 28 28 pixels = some (pixels.drop 784, m) ∧ IsImage pixels m := by
  have hinit : PixelsRead pixels 0 (pixels, Mat.zeros 28 28 0) :=
    ⟨rfl, rfl, rfl, fun _ _ _ _ h => absurd h (Nat.not_lt_zero _)⟩
  obtain ⟨⟨file, m⟩, hrun, hread⟩ :=
    forGrid_spec 28 28 (PixelsRead pixels) hinit fun r hr c hc s h => h.step hr hc
  obtain rfl : file = pixels.drop 784 := hread.file
  exact ⟨m, hrun, hread.rows, hread.cols, fun r c hr hc => hread.data r c hr hc (by omega)⟩

/-- The first `i` images are in the vector. -/
structure ImagesRead (pixels : Bytes) (i : Nat) (s : Bytes × List (Mat UInt8)) : Prop where
  file : s.1 = pixels.drop (784 * i)
  count : s.2.length = i
  images : ∀ j < i, ∃ m, s.2[j]? = some m ∧ IsImage (pixels.drop (784 * j)) m

theorem ImagesRead.step {pixels : Bytes} {i : Nat} {s : Bytes × List (Mat UInt8)}
    (h : ImagesRead pixels i s) :
    ∃ s', (readImage 28 28 s.1).map (fun t => (t.1, s.2 ++ [t.2])) = some s' ∧
      ImagesRead pixels (i + 1) s' := by
  obtain ⟨m, hread, himage⟩ := readImage_spec s.1
  refine ⟨(s.1.drop 784, s.2 ++ [m]), by rw [hread]; rfl, ?_, ?_, fun j hj => ?_⟩
  · show s.1.drop 784 = pixels.drop (784 * (i + 1))
    rw [h.file, List.drop_drop, Nat.mul_succ]
  · show (s.2 ++ [m]).length = i + 1
    rw [List.length_append, h.count, List.length_singleton]
  · by_cases hlast : j = i
    · subst hlast
      refine ⟨m, ?_, h.file ▸ himage⟩
      rw [List.getElem?_append_right h.count.le, h.count, Nat.sub_self]
      rfl
    · obtain ⟨m', hget, himage'⟩ := h.images j (by omega)
      have hcount := h.count
      refine ⟨m', ?_, himage'⟩
      rw [List.getElem?_append_left (by omega), hget]

/-- **All images.** -/
theorem readMnist_spec {file : Bytes} {n : Nat} (h : IsMnist file n) :
    ∃ vec, readMnist file = some vec ∧ vec.length = n ∧
      ∀ i < n, ∃ m, vec[i]? = some m ∧ IsImage (file.drop (16 + 784 * i)) m := by
  obtain ⟨pixels, hlen, hdrop, hheader⟩ := readHeader_spec h
  have hinit : ImagesRead pixels 0 (pixels, []) :=
    ⟨rfl, rfl, fun _ h => absurd h (Nat.not_lt_zero _)⟩
  obtain ⟨⟨rest, vec⟩, hrun, hread⟩ :=
    forRange_spec (n := n) (ImagesRead pixels) hinit fun i _ s h => h.step
  refine ⟨vec, ?_, hread.count, fun i hi => ?_⟩
  · simp only [readMnist, hheader, Int.toNat_natCast]
    exact congrArg (Option.map Prod.snd) hrun
  · obtain ⟨m, hget, himage⟩ := hread.images i hi
    refine ⟨m, hget, ?_⟩
    rwa [← List.drop_drop, hdrop]

/-! ## The columns -/

/-- The reshaped image: its rows are the pixels in order. -/
theorem reshape_image {pixels : Bytes} {m : Mat UInt8} (h : IsImage pixels m)
    (conv : UInt8 → UInt64) :
    ∃ pt, (m.map conv).reshape (28 * 28) = some pt ∧ pt.rows = 28 * 28 ∧ pt.cols = 1 ∧
      ∀ k < 784, pt.data k 0 = conv ((pixels.drop k).headD 0) := by
  have hrows : (m.map conv).rows = 28 := h.rows
  have hcols : (m.map conv).cols = 28 := h.cols
  refine ⟨_, Mat.reshape_spec _ 1 (by rw [hrows, hcols]) (by decide), rfl, rfl,
    fun k hk => ?_⟩
  show conv (m.data ((k * 1 + 0) / (m.map conv).cols) ((k * 1 + 0) % (m.map conv).cols)) = _
  have hposition : k / 28 * 28 + k % 28 = k := by omega
  rw [hcols, Nat.mul_one, Nat.add_zero, h.data (k / 28) (k % 28) (by omega) (by omega), hposition]

section Double

variable (conv : UInt8 → UInt64) (div255 : UInt64 → UInt64)

/-- The body of the loop over the images. -/
def fillColumn (vec : List (Mat UInt8)) (i : Nat) (res : Mat UInt64) : Option (Mat UInt64) := do
  let img ← vec[i]?
  let ptmat ← (img.map conv).reshape (28 * 28)
  ptmat.copyTo res i 0

/-- The first `i` columns have the pixels of their images. -/
structure ColumnsFilled (file : Bytes) (n i : Nat) (res : Mat UInt64) : Prop where
  rows : res.rows = 28 * 28
  cols : res.cols = n
  data : ∀ j < i, ∀ k < 784, res.data k j = conv ((file.drop (16 + 784 * j + k)).headD 0)

theorem ColumnsFilled.step {file : Bytes} {n i : Nat} {vec : List (Mat UInt8)} {img : Mat UInt8}
    {res : Mat UInt64} (h : ColumnsFilled conv file n i res) (hi : i < n)
    (himg : vec[i]? = some img) (himage : IsImage (file.drop (16 + 784 * i)) img) :
    ∃ res', fillColumn conv vec i res = some res' ∧ ColumnsFilled conv file n (i + 1) res' := by
  obtain ⟨pt, hreshape, hptRows, hptCols, hpt⟩ := reshape_image himage conv
  have hrows := h.rows
  have hcols := h.cols
  obtain ⟨res', hcopy, hrows', hcols', hself, hother⟩ :=
    Mat.copyTo_spec (m := res) pt (x := i) (by omega) hptCols (by omega)
  refine ⟨res', ?_, hrows'.trans hrows, hcols'.trans hcols, fun j hj k hk => ?_⟩
  · simp only [fillColumn, himg, hreshape, hcopy, Option.bind_eq_bind, Option.bind_some]
  · by_cases hlast : j = i
    · subst hlast
      rw [hself k (by omega), hpt k hk, List.drop_drop]
    · rw [hother k j hlast, h.data j (by omega) k hk]

/-- **The matrix of all images**: column `i` has the pixels of image `i`. -/
theorem readData_spec {file : Bytes} {n : Nat} (h : IsMnist file n) (hn : 0 < n) :
    ∃ testX, readData conv div255 file = some testX ∧ testX.rows = 28 * 28 ∧ testX.cols = n ∧
      ∀ i < n, ∀ k < 784,
        testX.data k i = div255 (conv ((file.drop (16 + 784 * i + k)).headD 0)) := by
  obtain ⟨vec, hread, hlen, himages⟩ := readMnist_spec h
  obtain ⟨first, hfirst, himage⟩ := himages 0 hn
  have hhead : vec.head? = some first := by rw [List.head?_eq_getElem?, hfirst]
  have hsize : first.rows * first.cols = 28 * 28 := by rw [himage.rows, himage.cols]
  have hinit : ColumnsFilled conv file n 0 (Mat.zeros (28 * 28) vec.length 0) :=
    ⟨rfl, hlen, fun _ h => absurd h (Nat.not_lt_zero _)⟩
  obtain ⟨res, hrun, hfilled⟩ :=
    forRange_spec (n := vec.length) (f := fillColumn conv vec) (ColumnsFilled conv file n) hinit
      fun i hi res h => by
        obtain ⟨img, himg, himage⟩ := himages i (by omega)
        exact h.step conv (by omega) himg himage
  refine ⟨res.map div255, ?_, hfilled.rows, hfilled.cols, fun i hi k hk => ?_⟩
  · have hconcat : concatenateMat conv div255 vec =
        (forRange vec.length (fillColumn conv vec) (Mat.zeros (28 * 28) vec.length 0)).bind
          fun res => some (res.map div255) := by
      simp only [concatenateMat, hhead, Option.bind_eq_bind, Option.bind_some, hsize]
      rfl
    rw [readData, hread, Option.bind_some, hconcat, hrun]
    rfl
  · show div255 (res.data k i) = _
    rw [hfilled.data i (by omega) k hk]

end Double

/-! ## The request -/

/-- The first `k` elements are stored, and `ptr` is at the next. -/
structure Stored (mat : Mat UInt64) (k : Nat) (s : Nat × Memory) : Prop where
  ptr : s.1 = k
  data : ∀ j < k, s.2.load (8 * j) 8 = u64Bytes (mat.data j 0)

theorem Stored.step {mat : Mat UInt64} {k : Nat} {s : Nat × Memory} (h : Stored mat k s)
    (hrows : k < mat.rows) (hcols : 0 < mat.cols) :
    ∃ s', (mat.at? k 0).map (fun v => (s.1 + 1, s.2.store (8 * s.1) (u64Bytes v))) = some s' ∧
      Stored mat (k + 1) s' := by
  obtain ⟨ptr, m⟩ := s
  obtain rfl : ptr = k := h.ptr
  refine ⟨(ptr + 1, m.store (8 * ptr) (u64Bytes (mat.data ptr 0))), ?_, rfl, fun j hj => ?_⟩
  · rw [Mat.at?, if_pos ⟨hrows, hcols⟩]
    rfl
  · show (m.store (8 * ptr) (u64Bytes (mat.data ptr 0))).load (8 * j) 8 = _
    by_cases hlast : j = ptr
    · subst hlast
      have hload := Memory.load_store m (8 * j) (u64Bytes (mat.data j 0))
      rwa [length_u64Bytes] at hload
    · have hbefore : 8 * j + 8 ≤ 8 * ptr := by omega
      exact (Memory.load_store_outside (.inl hbefore)).trans (h.data j (by omega))

/-- **`serialize`**: the elements of the column, one after the other. -/
theorem serialize_spec {mat : Mat UInt64} (hrows : mat.rows = 28 * 28) (hcols : mat.cols = 1)
    (smat : Memory) :
    ∃ smat', SerializedMat.serialize mat smat = some smat' ∧
      ∀ k < 784, smat'.load (8 * k) 8 = u64Bytes (mat.data k 0) := by
  have hinit : Stored mat 0 (0, smat) := ⟨rfl, fun _ h => absurd h (Nat.not_lt_zero _)⟩
  obtain ⟨⟨ptr, smat'⟩, hrun, hstored⟩ :=
    forGrid_spec SerializedMat.rows SerializedMat.cols
      (f := fun r c s => (mat.at? r c).map fun v => (s.1 + 1, s.2.store (8 * s.1) (u64Bytes v)))
      (Stored mat) hinit fun r hr c hc s h => by
        -- the only column
        obtain rfl : c = 0 := Nat.lt_one_iff.mp hc
        have hr' : r < 28 * 28 := hr
        have hindex : r * SerializedMat.cols + 0 = r := Nat.mul_one r
        rw [hindex] at h ⊢
        exact h.step (by omega) (by omega)
  refine ⟨smat', ?_, hstored.data⟩
  rw [SerializedMat.serialize, hrun]
  rfl

/-- The first `k` elements are those of the object, and `ptr` is at the next. -/
structure Loaded (smat : Memory) (k : Nat) (s : Nat × Mat UInt64) : Prop where
  ptr : s.1 = k
  rows : s.2.rows = 784
  cols : s.2.cols = 1
  data : ∀ j < k, s.2.data j 0 = u64At (smat.load (8 * j) 8)

theorem Loaded.step {smat : Memory} {k : Nat} {s : Nat × Mat UInt64} (h : Loaded smat k s)
    (hk : k < 784) :
    ∃ s', (s.2.set k 0 (u64At (smat.load (8 * s.1) 8))).map (fun mat => (s.1 + 1, mat)) = some s' ∧
      Loaded smat (k + 1) s' := by
  have hrows := h.rows
  have hcols := h.cols
  obtain ⟨m', hset, hrows', hcols', hself, hother⟩ :=
    Mat.set_spec (m := s.2) (r := k) (c := 0) (by omega) (by omega) (u64At (smat.load (8 * s.1) 8))
  refine ⟨(s.1 + 1, m'), by rw [hset]; rfl, congrArg (· + 1) h.ptr, hrows'.trans hrows,
    hcols'.trans hcols, fun j hj => ?_⟩
  by_cases hlast : j = k
  · subst hlast
    exact hself.trans (by rw [h.ptr])
  · exact (hother j 0 fun heq => hlast heq.1).trans (h.data j (by omega))

/-- **`deserialize`**: the matrix whose elements are in the object. -/
theorem deserialize_spec (smat : Memory) :
    ∃ mat, SerializedMat.deserialize smat = some mat ∧ mat.rows = 784 ∧ mat.cols = 1 ∧
      ∀ k < 784, mat.data k 0 = u64At (smat.load (8 * k) 8) := by
  have hinit : Loaded smat 0 (0, Mat.zeros SerializedMat.rows SerializedMat.cols 0) :=
    ⟨rfl, rfl, rfl, fun _ h => absurd h (Nat.not_lt_zero _)⟩
  obtain ⟨⟨ptr, mat⟩, hrun, hloaded⟩ :=
    forGrid_spec SerializedMat.rows SerializedMat.cols
      (f := fun r c s =>
        (s.2.set r c (u64At (smat.load (8 * s.1) 8))).map fun mat => (s.1 + 1, mat))
      (Loaded smat) hinit fun r hr c hc s h => by
        obtain rfl : c = 0 := Nat.lt_one_iff.mp hc
        have hindex : r * SerializedMat.cols + 0 = r := Nat.mul_one r
        rw [hindex] at h ⊢
        exact h.step hr
  refine ⟨mat, ?_, hloaded.rows, hloaded.cols, hloaded.data⟩
  rw [SerializedMat.deserialize, hrun]
  rfl

/-- A `double` is read back from the copy of the object. -/
theorem u64At_copied {smat : Memory} {k : Nat} {x : UInt64} (hk : k < 784)
    (h : smat.load (8 * k) 8 = u64Bytes x) (buf : Memory) :
    u64At ((buf.store 0 (smat.load 0 SerializedMat.size)).load (8 * k) 8) = x := by
  have hinside : 8 * k + 8 ≤ SerializedMat.size := by
    show 8 * k + 8 ≤ 6272
    omega
  have hcopy := Memory.load_copy buf smat 0 0 hinside
  rw [Nat.zero_add] at hcopy
  have happend := u64At_append x []
  rw [List.append_nil] at happend
  rw [hcopy, h, happend]

/-- The column of an image goes through the request unchanged. -/
theorem sendColumn_spec {testX : Mat UInt64} {i : Nat} (hrows : testX.rows = 28 * 28)
    (hi : i < testX.cols) (smat buf : Memory) :
    ∃ buf' mat, sendColumn testX i smat buf = some (buf', SerializedMat.size) ∧
      SerializedMat.deserialize buf' = some mat ∧ mat.rows = 784 ∧ mat.cols = 1 ∧
      ∀ k < 784, mat.data k 0 = testX.data k i := by
  let col : Mat UInt64 :=
    { rows := testX.rows, cols := 1, data := fun r c => testX.data (0 + r) (i + c) }
  have hroi : testX.roi i 0 1 testX.rows = some col := if_pos ⟨by omega, by omega⟩
  have hcolRows : col.rows = 28 * 28 := hrows
  obtain ⟨smat', hserialize, hdata⟩ := serialize_spec hcolRows rfl smat
  obtain ⟨mat, hdeserialize, hmatRows, hmatCols, hmat⟩ :=
    deserialize_spec (buf.store 0 (smat'.load 0 SerializedMat.size))
  refine ⟨_, mat, ?_, hdeserialize, hmatRows, hmatCols, fun k hk => ?_⟩
  · simp only [sendColumn, hroi, hserialize, Option.bind_eq_bind, Option.bind_some]
    rfl
  · rw [hmat k hk, u64At_copied hk (hdata k hk)]
    show testX.data (0 + k) (i + 0) = testX.data k i
    rw [Nat.zero_add, Nat.add_zero]

/-- **The image that is classified is the image in the file.** For every file of images of 28 by 28
pixels and every image in it, and whatever the buffers hold: `ReverseInt` decodes the header, and
the matrix that the server makes from the column of image `i` is 784 by 1, its entry `k` the
converted byte at `16 + 784 * i + k`. A draw of the client sends that column. -/
theorem image_classified (conv : UInt8 → UInt64) (div255 : UInt64 → UInt64) {file : Bytes} {n : Nat}
    (h : IsMnist file n) {i : Nat} (hi : i < n) (smat buf : Memory) :
    (readHeader file).1 =
      { magic_number := 0x803, number_of_images := n, n_rows := 28, n_cols := 28 } ∧
    ∃ testX buf' mat, readData conv div255 file = some testX ∧
      sendColumn testX i smat buf = some (buf', SerializedMat.size) ∧
      (i < totalImgs → get testX i smat buf = some (buf', SerializedMat.size)) ∧
      SerializedMat.deserialize buf' = some mat ∧ mat.rows = 784 ∧ mat.cols = 1 ∧
      ∀ k < 784, ∃ b, file[16 + 784 * i + k]? = some b ∧
        mat.at? k 0 = some (div255 (conv b)) := by
  obtain ⟨pixels, hlen, hdrop, hheader⟩ := readHeader_spec h
  obtain ⟨testX, hread, hrows, hcols, hdata⟩ := readData_spec conv div255 h (by omega)
  obtain ⟨buf', mat, hsend, hdeserialize, hmatRows, hmatCols, hmat⟩ :=
    sendColumn_spec hrows (hcols ▸ hi) smat buf
  refine ⟨by rw [hheader], testX, buf', mat, hread, hsend, fun hdraw => ?_, hdeserialize, hmatRows,
    hmatCols, fun k hk => ?_⟩
  · rw [get, if_pos hdraw, hsend]
  · have hfile : 16 + 784 * i + k < file.length := by
      have hrest : file.length - 16 = 784 * n := by rw [← List.length_drop, hdrop, hlen]
      have hmul : 784 * (i + 1) ≤ 784 * n := Nat.mul_le_mul_left 784 hi
      omega
    refine ⟨_, List.getElem?_eq_getElem hfile, ?_⟩
    have hbyte : (file.drop (16 + 784 * i + k)).headD 0 = file[16 + 784 * i + k] := by
      rw [List.drop_eq_getElem_cons hfile, List.headD_cons]
    rw [Mat.at?, if_pos ⟨by omega, by omega⟩, hmat k hk, hdata i hi k hk, hbyte]

/-! ### Two images of three shades -/

/-- Pixel `p` of the file. -/
def shade (p : Nat) : UInt8 := if p % 3 = 0 then 0 else if p % 3 = 1 then 51 else 255

/-- The patterns of 255.0, 51.0 and 0.0. -/
def shadeConv (b : UInt8) : UInt64 :=
  if b = 255 then 0x406FE00000000000 else if b = 51 then 0x4049800000000000 else 0

/-- The patterns of 1.0, 0.2 and 0.0. -/
def shadeDiv (x : UInt64) : UInt64 :=
  if x = 0x406FE00000000000 then 0x3FF0000000000000
  else if x = 0x4049800000000000 then 0x3FC999999999999A else 0

def shadedFile : Bytes :=
  be32 0x803 ++ (be32 2 ++ (be32 28 ++ (be32 28 ++ (List.range 1568).map shade)))

/-- The second of two images, which begins with another shade than the first. -/
theorem second_image_classified : ∃ testX buf' mat,
    readData shadeConv shadeDiv shadedFile = some testX ∧
    get testX 1 (fun _ => 7) (fun _ => 7) = some (buf', SerializedMat.size) ∧
    SerializedMat.deserialize buf' = some mat ∧ mat.rows = 784 ∧ mat.cols = 1 ∧
    mat.at? 0 0 = some 0x3FC999999999999A ∧ mat.at? 1 0 = some 0x3FF0000000000000 ∧
    mat.at? 2 0 = some 0 ∧
    ∀ k < 784, mat.at? k 0 = some (shadeDiv (shadeConv (shade (784 + k)))) := by
  have hfile : IsMnist shadedFile 2 := ⟨by decide, (List.range 1568).map shade, by simp, rfl⟩
  obtain ⟨-, testX, buf', mat, hread, -, hget, hdeserialize, hrows, hcols, hmat⟩ :=
    image_classified shadeConv shadeDiv hfile (i := 1) (by decide) (fun _ => 7) (fun _ => 7)
  have hall : ∀ k < 784, mat.at? k 0 = some (shadeDiv (shadeConv (shade (784 + k)))) := by
    intro k hk
    obtain ⟨b, hb, hat⟩ := hmat k hk
    have hhead : shadedFile =
        (be32 0x803 ++ be32 2 ++ be32 28 ++ be32 28) ++ (List.range 1568).map shade := by
      simp only [shadedFile, List.append_assoc]
    have hlen : (be32 0x803 ++ be32 2 ++ be32 28 ++ be32 28).length = 16 := rfl
    have hindex : 16 + 784 * 1 + k - 16 = 784 + k := by omega
    rw [hhead, List.getElem?_append_right (by omega), hlen, hindex, List.getElem?_map,
      List.getElem?_range (by omega)] at hb
    rw [hat, ← Option.some.inj hb]
  refine ⟨testX, buf', mat, hread, hget (by decide), hdeserialize, hrows, hcols, ?_, ?_, ?_, hall⟩
  · rw [hall 0 (by decide)]
    decide
  · rw [hall 1 (by decide)]
    decide
  · rw [hall 2 (by decide)]
    decide

end TailBench.ImgDnn
