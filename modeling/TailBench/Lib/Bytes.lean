import Mathlib.Tactic.Ring
import Mathlib.Tactic.Basic

set_option autoImplicit false

/-! # Words as bytes, blocks, and self-delimiting frames

Little-endian images of machine words, lists cut into blocks of one length, and the one fact
about framing that parsing a byte stream needs: when the length of a frame can be read off its
first bytes, a stream is cut into frames in one way only.
-/

namespace TailBench.Lib

/-- A byte string. -/
abbrev Bytes := List UInt8

/-! ## Little-endian words -/

/-- The `k` low bytes of `n`, least significant first. -/
def leBytes : Nat → Nat → Bytes
  | 0, _ => []
  | k + 1, n => UInt8.ofNat n :: leBytes k (n / 256)

/-- The number whose bytes are given, least significant first. -/
def ofLe : Bytes → Nat
  | [] => 0
  | b :: bs => b.toNat + 256 * ofLe bs

@[simp] theorem length_leBytes (k n : Nat) : (leBytes k n).length = k := by
  induction k generalizing n with
  | zero => rfl
  | succ k ih => simp [leBytes, ih]

theorem ofLe_leBytes (k n : Nat) : ofLe (leBytes k n) = n % 256 ^ k := by
  induction k generalizing n with
  | zero => simp [leBytes, ofLe, Nat.mod_one]
  | succ k ih =>
      have hb : (UInt8.ofNat n).toNat = n % 256 := by simp
      rw [leBytes, ofLe, hb, ih, pow_succ', Nat.mod_mul]

theorem leBytes_ofLe (bs : Bytes) : leBytes bs.length (ofLe bs) = bs := by
  induction bs with
  | nil => rfl
  | cons b bs ih =>
      have hlt := b.toNat_lt
      have hlow : UInt8.ofNat (b.toNat + 256 * ofLe bs) = b := by
        rw [← UInt8.toNat_inj]
        simp
      have hhigh : (b.toNat + 256 * ofLe bs) / 256 = ofLe bs := by omega
      rw [List.length_cons, ofLe, leBytes, hlow, hhigh, ih]

theorem ofLe_lt (bs : Bytes) : ofLe bs < 256 ^ bs.length := by
  induction bs with
  | nil => simp [ofLe]
  | cons b bs ih =>
      have hlt := b.toNat_lt
      rw [ofLe, List.length_cons, pow_succ]
      omega

/-- The image of a 64-bit word. -/
def u64Bytes (x : UInt64) : Bytes := leBytes 8 x.toNat

/-- The image of a 32-bit word. -/
def u32Bytes (x : UInt32) : Bytes := leBytes 4 x.toNat

/-- The 64-bit word a byte string begins with. -/
def u64At (bs : Bytes) : UInt64 := UInt64.ofNat (ofLe (bs.take 8))

/-- The 32-bit word a byte string begins with. -/
def u32At (bs : Bytes) : UInt32 := UInt32.ofNat (ofLe (bs.take 4))

@[simp] theorem length_u64Bytes (x : UInt64) : (u64Bytes x).length = 8 := by simp [u64Bytes]

@[simp] theorem length_u32Bytes (x : UInt32) : (u32Bytes x).length = 4 := by simp [u32Bytes]

@[simp] theorem u64At_append (x : UInt64) (bs : Bytes) : u64At (u64Bytes x ++ bs) = x := by
  have htake : (u64Bytes x ++ bs).take 8 = u64Bytes x := by
    rw [List.take_append_of_le_length (by simp), List.take_of_length_le (by simp)]
  have hlt : x.toNat < 256 ^ 8 := x.toNat_lt
  rw [u64At, htake, u64Bytes, ofLe_leBytes, Nat.mod_eq_of_lt hlt]
  simp

/-- Eight bytes are the image of the word they hold. -/
theorem u64Bytes_u64At {bs : Bytes} (h : bs.length = 8) : u64Bytes (u64At bs) = bs := by
  have hlt := ofLe_lt bs
  rw [h] at hlt
  have htake : bs.take 8 = bs := List.take_of_length_le h.le
  have hword : (UInt64.ofNat (ofLe bs)).toNat = ofLe bs := by
    rw [UInt64.toNat_ofNat']
    exact Nat.mod_eq_of_lt hlt
  calc u64Bytes (u64At bs) = leBytes 8 (ofLe bs) := by rw [u64At, htake, u64Bytes, hword]
    _ = bs := by rw [← h, leBytes_ofLe]

@[simp] theorem u32At_append (x : UInt32) (bs : Bytes) : u32At (u32Bytes x ++ bs) = x := by
  have htake : (u32Bytes x ++ bs).take 4 = u32Bytes x := by
    rw [List.take_append_of_le_length (by simp), List.take_of_length_le (by simp)]
  have hlt : x.toNat < 256 ^ 4 := x.toNat_lt
  rw [u32At, htake, u32Bytes, ofLe_leBytes, Nat.mod_eq_of_lt hlt]
  simp

/-! ## Blocks of one length -/

section Blocks

variable {α : Type*}

/-- The first `n` blocks of `k` elements. -/
def blocks (k : Nat) : Nat → List α → List (List α)
  | 0, _ => []
  | n + 1, xs => xs.take k :: blocks k n (xs.drop k)

@[simp] theorem length_blocks (k n : Nat) (xs : List α) : (blocks k n xs).length = n := by
  induction n generalizing xs with
  | zero => rfl
  | succ n ih => rw [blocks, List.length_cons, ih]

theorem length_flatten_of_blocks {k : Nat} {bs : List (List α)} (h : ∀ b ∈ bs, b.length = k) :
    bs.flatten.length = bs.length * k := by
  induction bs with
  | nil => simp
  | cons b bs ih =>
      rw [List.flatten_cons, List.length_append, h b (by simp), ih fun x hx => h x (by simp [hx]),
        List.length_cons, Nat.succ_mul, Nat.add_comm]

/-- Cutting what was put together from blocks. -/
theorem blocks_flatten {k : Nat} {bs : List (List α)} (h : ∀ b ∈ bs, b.length = k) :
    blocks k bs.length bs.flatten = bs := by
  induction bs with
  | nil => rfl
  | cons b bs ih =>
      have hb : b.length = k := h b (by simp)
      rw [List.length_cons, blocks, List.flatten_cons, List.take_left' hb, List.drop_left' hb,
        ih fun x hx => h x (by simp [hx])]

/-- Putting together what was cut. -/
theorem flatten_blocks {k n : Nat} {xs : List α} (h : xs.length = n * k) :
    (blocks k n xs).flatten = xs := by
  induction n generalizing xs with
  | zero =>
      obtain rfl : xs = [] := List.eq_nil_of_length_eq_zero (by simpa using h)
      rfl
  | succ n ih =>
      rw [Nat.succ_mul] at h
      have hrest : (xs.drop k).length = n * k := by
        rw [List.length_drop, h, Nat.add_sub_cancel]
      rw [blocks, List.flatten_cons, ih hrest, List.take_append_drop]

/-- Every block is full. -/
theorem length_of_mem_blocks {k n : Nat} {xs : List α} (h : xs.length = n * k) :
    ∀ b ∈ blocks k n xs, b.length = k := by
  induction n generalizing xs with
  | zero => simp [blocks]
  | succ n ih =>
      rw [Nat.succ_mul] at h
      have hrest : (xs.drop k).length = n * k := by
        rw [List.length_drop, h, Nat.add_sub_cancel]
      intro b hb
      rcases List.mem_cons.mp hb with rfl | hmem
      · rw [List.length_take, h]
        exact Nat.min_eq_left (Nat.le_add_left k (n * k))
      · exact ih hrest b hmem

end Blocks

/-! ## Self-delimiting frames

A frame starts with a header of `h` bytes from which the length of the whole frame can be
read (`size`). -/

/-- `f` is one whole frame. -/
def IsFrame (h : Nat) (size : Bytes → Nat) (f : Bytes) : Prop :=
  h ≤ f.length ∧ f.length = size (f.take h)

/-- A prefix with at least `k` bytes agrees with the stream on the first `k`. -/
theorem take_eq_of_prefixed {f s : Bytes} {k : Nat} (h : f <+: s) (hk : k ≤ f.length) :
    f.take k = s.take k := by
  obtain ⟨t, rfl⟩ := h
  rw [List.take_append_of_le_length hk]

/-- Two frames that begin the same stream are equal. -/
theorem IsFrame.eq_of_prefixed {h : Nat} {size : Bytes → Nat} {f g s : Bytes}
    (hf : IsFrame h size f) (hg : IsFrame h size g) (hfs : f <+: s) (hgs : g <+: s) :
    f = g := by
  have hhead : f.take h = g.take h := by
    rw [take_eq_of_prefixed hfs hf.1, take_eq_of_prefixed hgs hg.1]
  have hlen : f.length = g.length := by rw [hf.2, hg.2, hhead]
  exact (List.prefix_of_prefix_length_le hfs hgs hlen.le).eq_of_length hlen

/-- **A stream of frames is cut in one way.** Let a stream be whole frames `fs` followed by
bytes `r'` that begin with no frame. Any list of frames `gs` that a cut of the stream begins
with is a prefix of `fs`. -/
theorem frames_prefix {h : Nat} {size : Bytes → Nat} {fs gs : List Bytes} {r r' : Bytes}
    (hfs : ∀ f ∈ fs, IsFrame h size f) (hgs : ∀ g ∈ gs, IsFrame h size g)
    (hr' : ∀ g, IsFrame h size g → ¬ g <+: r')
    (hcut : gs.flatten ++ r <+: fs.flatten ++ r') : gs <+: fs := by
  induction gs generalizing fs with
  | nil => exact List.nil_prefix
  | cons g gs ih =>
      have hg : IsFrame h size g := hgs g (by simp)
      have hgcut : g <+: fs.flatten ++ r' := by
        refine List.IsPrefix.trans ?_ hcut
        rw [List.flatten_cons, List.append_assoc]
        exact List.prefix_append _ _
      cases fs with
      | nil => exact absurd (by simpa using hgcut) (hr' g hg)
      | cons f fs =>
          have hf : IsFrame h size f := hfs f (by simp)
          have hfcut : f <+: (f :: fs).flatten ++ r' := by
            rw [List.flatten_cons, List.append_assoc]
            exact List.prefix_append _ _
          obtain rfl : g = f := hg.eq_of_prefixed hf hgcut hfcut
          rw [List.flatten_cons, List.flatten_cons, List.append_assoc, List.append_assoc,
            List.prefix_append_right_inj] at hcut
          rw [List.cons_prefix_cons]
          exact ⟨rfl, ih (fun f hf => hfs f (by simp [hf])) (fun g hg => hgs g (by simp [hg]))
            hcut⟩

/-- The rest of a stream of frames, after some of them. -/
theorem frames_rest {h : Nat} {size : Bytes → Nat} {fs gs : List Bytes} {r : Bytes}
    (hpos : 0 < h) (hfs : ∀ f ∈ fs, IsFrame h size f) (hgs : ∀ g ∈ gs, IsFrame h size g)
    (hcut : gs.flatten ++ r <+: fs.flatten) :
    ∃ rest, fs = gs ++ rest ∧ r <+: rest.flatten := by
  have hnil : ∀ g, IsFrame h size g → ¬ g <+: [] := by
    intro g hg hpre
    have hle := hpre.length_le
    have hge := hg.1
    simp only [List.length_nil] at hle
    omega
  obtain ⟨rest, rfl⟩ := frames_prefix hfs hgs hnil (by simpa using hcut)
  refine ⟨rest, rfl, ?_⟩
  rwa [List.flatten_append, List.prefix_append_right_inj] at hcut

/-! ## Reading a stream of frames

A reader has passed the frames `fs.take n` and holds `part` of the next one, after reading
`rx` bytes in all. -/

structure Cursor (fs : List Bytes) (n : Nat) (part : Bytes) (rx : Nat) : Prop where
  le : n ≤ fs.length
  pos : rx = (fs.take n).flatten.length + part.length
  pre : part <+: (fs.drop n).flatten

/-- Before the first byte. -/
theorem Cursor.start (fs : List Bytes) : Cursor fs 0 [] 0 :=
  ⟨Nat.zero_le _, by simp, List.nil_prefix⟩

/-- More frames may be written meanwhile. -/
theorem Cursor.append {fs : List Bytes} {n rx : Nat} {part : Bytes} (h : Cursor fs n part rx)
    (gs : List Bytes) : Cursor (fs ++ gs) n part rx := by
  refine ⟨by rw [List.length_append]; exact Nat.le_add_right_of_le h.le, ?_, ?_⟩
  · rw [List.take_append_of_le_length h.le]
    exact h.pos
  · rw [List.drop_append_of_le_length h.le, List.flatten_append]
    exact h.pre.trans (List.prefix_append _ _)

/-- The stream from the cursor on. -/
theorem Cursor.drop {fs : List Bytes} {n rx : Nat} {part : Bytes} (h : Cursor fs n part rx) :
    part ++ fs.flatten.drop rx = (fs.drop n).flatten := by
  obtain ⟨rest, hrest⟩ := h.pre
  have hsplit : fs.flatten = (fs.take n).flatten ++ (part ++ rest) := by
    rw [hrest, ← List.flatten_append, List.take_append_drop]
  rw [hsplit, h.pos, List.drop_append, List.drop_of_length_le (Nat.le_add_right _ _),
    Nat.add_sub_cancel_left, List.nil_append, List.drop_left, hrest]

/-- The next bytes of the stream are read. -/
theorem Cursor.read {fs : List Bytes} {n rx : Nat} {part bs : Bytes}
    (h : Cursor fs n part rx) (hbs : bs <+: fs.flatten.drop rx) :
    Cursor fs n (part ++ bs) (rx + bs.length) := by
  refine ⟨h.le, by rw [List.length_append, h.pos, Nat.add_assoc], ?_⟩
  rw [← h.drop]
  exact (List.prefix_append_right_inj part).mpr hbs

/-- Bytes in hand belong to a frame that was written. -/
theorem Cursor.current {fs : List Bytes} {n rx : Nat} {part : Bytes}
    (h : Cursor fs n part rx) (hpos : 0 < part.length) :
    ∃ f, fs[n]? = some f ∧ part <+: f ++ (fs.drop (n + 1)).flatten := by
  have hlt : n < fs.length := by
    by_contra hge
    have hpre := h.pre
    rw [List.drop_of_length_le (by omega), List.flatten_nil, List.prefix_nil] at hpre
    rw [hpre] at hpos
    simp at hpos
  refine ⟨fs[n], List.getElem?_eq_getElem hlt, ?_⟩
  have hpre := h.pre
  rwa [List.drop_eq_getElem_cons hlt, List.flatten_cons] at hpre

/-- The frame is complete. -/
theorem Cursor.done {fs : List Bytes} {n rx : Nat} {part : Bytes} (h : Cursor fs n part rx)
    (hf : fs[n]? = some part) : Cursor fs (n + 1) [] rx := by
  obtain ⟨hlt, hget⟩ := List.getElem?_eq_some_iff.mp hf
  refine ⟨hlt, ?_, List.nil_prefix⟩
  rw [h.pos, List.take_add_one, hf]
  simp

end TailBench.Lib
