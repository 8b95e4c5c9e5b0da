import Mathlib.Data.BitVec
import Mathlib.Data.Nat.Bitwise

set_option autoImplicit false

/-! # The header word of a tuple

The 32 bits of `dbtuple::hdr` (`silo/tuple.h`): five flags and a number of 27 bits that every unlock
of a written tuple raises. `Header` has the fields apart; the operations on the word are shown to be
those on the fields, so that nothing else looks at bits.
-/

namespace TailBench.Silo.Hdr

/-- `version_t` -/
abbrev VersionT := BitVec 32

def lockedMask : VersionT := 0x1#32

def deletingMask : VersionT := 0x1#32 <<< 1

def writeIntentMask : VersionT := 0x1#32 <<< 2

def modifyingMask : VersionT := 0x1#32 <<< 3

def latestMask : VersionT := 0x1#32 <<< 4

def versionShift : Nat := 5

def versionMask : VersionT := (-1#32) <<< versionShift

/-- `v & mask` as a condition. -/
def has (v mask : VersionT) : Bool := v &&& mask != 0#32

def isLocked (v : VersionT) : Bool := has v lockedMask

def isDeleting (v : VersionT) : Bool := has v deletingMask

def isWriteIntent (v : VersionT) : Bool := has v writeIntentMask

def isModifying (v : VersionT) : Bool := has v modifyingMask

def isLatest (v : VersionT) : Bool := has v latestMask

def version (v : VersionT) : VersionT := (v &&& versionMask) >>> versionShift

/-- What `lock(write_intent)` sets. -/
def lock (writeIntent : Bool) (v : VersionT) : VersionT :=
  v ||| if writeIntent then lockedMask ||| writeIntentMask else lockedMask

/-- An unlock raises the number (`newv`). -/
def isNumbered (v : VersionT) : Bool := isModifying v || isWriteIntent v

def unlock (v : VersionT) : VersionT :=
  let v :=
    if isNumbered v then
      (v &&& ~~~ versionMask) ||| (((version v + 1) <<< versionShift) &&& versionMask)
    else v
  v &&& ~~~ (lockedMask ||| modifyingMask ||| writeIntentMask)

def markDeleting (v : VersionT) : VersionT := v ||| deletingMask

def markModifying (v : VersionT) : VersionT := v ||| modifyingMask

def clearLatest (v : VersionT) : VersionT := v &&& ~~~ latestMask

def moduloBits : VersionT := lockedMask ||| writeIntentMask ||| latestMask

def readerCheckVersion (hdr v : VersionT) : Bool := hdr &&& ~~~ moduloBits == v &&& ~~~ moduloBits

def writerCheckVersion (hdr v : VersionT) : Bool := hdr == v

/-- The constructor of a tuple that is inserted: locked, the latest, deleted if it is empty. -/
def first (size : Nat) : VersionT :=
  latestMask ||| (lockedMask ||| writeIntentMask) ||| (if size = 0 then deletingMask else 0#32)

/-! ## The fields -/

@[ext]
structure Header where
  locked : Bool
  deleting : Bool
  writeIntent : Bool
  modifying : Bool
  latest : Bool
  version : Nat
  deriving DecidableEq, Repr

def header (v : VersionT) : Header :=
  ⟨isLocked v, isDeleting v, isWriteIntent v, isModifying v, isLatest v, (version v).toNat⟩

variable {v w m : VersionT}

theorem has_eq (v : VersionT) {i : Nat} (hi : i < 32) : has v (0x1#32 <<< i) = v.getLsbD i := by
  rw [has, ← BitVec.twoPow_eq, BitVec.and_twoPow]
  cases h : v.getLsbD i with
  | false => simp
  | true =>
      have hne : BitVec.twoPow 32 i ≠ 0#32 := by
        intro h0
        have hbit := congrArg (fun x => x.getLsbD i) h0
        simp [hi] at hbit
      simp [hne]

theorem and_low27 (v : VersionT) : v >>> 5 &&& 0x7FFFFFF#32 = v >>> 5 := by
  apply BitVec.eq_of_toNat_eq
  have hlt : (v >>> 5).toNat < 2 ^ 27 := by
    rw [BitVec.toNat_ushiftRight, Nat.shiftRight_eq_div_pow]
    omega
  rw [BitVec.toNat_and]
  change (v >>> 5).toNat &&& (2 ^ 27 - 1) = _
  rw [Nat.and_two_pow_sub_one_eq_mod, Nat.mod_eq_of_lt hlt]

theorem version_eq (v : VersionT) : version v = v >>> 5 := by
  have hmask : versionMask >>> 5 = 0x7FFFFFF#32 := by decide
  rw [version, versionShift, BitVec.ushiftRight_and_distrib, hmask, and_low27]

theorem version_lt (v : VersionT) : (version v).toNat < 2 ^ 27 := by
  rw [version_eq, BitVec.toNat_ushiftRight, Nat.shiftRight_eq_div_pow]
  omega

theorem header_eq (v : VersionT) : header v =
    ⟨v.getLsbD 0, v.getLsbD 1, v.getLsbD 2, v.getLsbD 3, v.getLsbD 4, (v >>> 5).toNat⟩ := by
  have hlocked : isLocked v = v.getLsbD 0 := has_eq v (i := 0) (by decide)
  have hdeleting : isDeleting v = v.getLsbD 1 := has_eq v (by decide)
  have hintent : isWriteIntent v = v.getLsbD 2 := has_eq v (by decide)
  have hmodifying : isModifying v = v.getLsbD 3 := has_eq v (by decide)
  have hlatest : isLatest v = v.getLsbD 4 := has_eq v (by decide)
  rw [header, hlocked, hdeleting, hintent, hmodifying, hlatest, version_eq]

/-- Low bits are set. -/
theorem header_or (hm : m >>> 5 = 0#32) : header (v ||| m) =
    ⟨isLocked v || m.getLsbD 0, isDeleting v || m.getLsbD 1, isWriteIntent v || m.getLsbD 2,
      isModifying v || m.getLsbD 3, isLatest v || m.getLsbD 4, (version v).toNat⟩ := by
  have h := header_eq v
  simp only [header, Header.mk.injEq] at h
  obtain ⟨h0, h1, h2, h3, h4, h5⟩ := h
  rw [header_eq, h0, h1, h2, h3, h4, h5]
  simp [BitVec.ushiftRight_or_distrib, hm]

/-- Low bits are cleared. -/
theorem header_and_not (hm : (~~~ m) >>> 5 = 0x7FFFFFF#32) : header (v &&& ~~~ m) =
    ⟨isLocked v && !m.getLsbD 0, isDeleting v && !m.getLsbD 1, isWriteIntent v && !m.getLsbD 2,
      isModifying v && !m.getLsbD 3, isLatest v && !m.getLsbD 4, (version v).toNat⟩ := by
  have h := header_eq v
  simp only [header, Header.mk.injEq] at h
  obtain ⟨h0, h1, h2, h3, h4, h5⟩ := h
  rw [header_eq, h0, h1, h2, h3, h4, h5, BitVec.ushiftRight_and_distrib, hm, and_low27]
  simp

/-! ## The operations -/

theorem header_lock (b : Bool) (v : VersionT) :
    header (lock b v) = { header v with locked := true, writeIntent := isWriteIntent v || b } := by
  cases b with
  | true =>
      rw [lock, if_pos rfl, header_or (by decide)]
      simp [header, lockedMask, writeIntentMask]
  | false =>
      rw [lock, if_neg (by simp), header_or (by decide)]
      simp [header, lockedMask]

theorem header_markModifying (v : VersionT) :
    header (markModifying v) = { header v with modifying := true } := by
  rw [markModifying, header_or (by decide)]
  simp [header, modifyingMask]

theorem header_markDeleting (v : VersionT) :
    header (markDeleting v) = { header v with deleting := true } := by
  rw [markDeleting, header_or (by decide)]
  simp [header, deletingMask]

theorem header_clearLatest (v : VersionT) :
    header (clearLatest v) = { header v with latest := false } := by
  rw [clearLatest, header_and_not (by decide)]
  simp [header, latestMask]

theorem header_first (size : Nat) : header (first size) =
    ⟨true, decide (size = 0), true, false, true, 0⟩ := by
  rw [first]
  split <;> simp [*] <;> decide

/-- The word with the next number. -/
def nextVersion (v : VersionT) : VersionT :=
  (v &&& ~~~ versionMask) ||| (((version v + 1) <<< versionShift) &&& versionMask)

theorem getLsbD_nextVersion (v : VersionT) {i : Nat} (hi : i < 5) :
    (nextVersion v).getLsbD i = v.getLsbD i := by
  have hmask : ∀ i < 5, (~~~ versionMask).getLsbD i = true ∧ versionMask.getLsbD i = false := by
    decide
  obtain ⟨hnot, hmask⟩ := hmask i hi
  rw [nextVersion, BitVec.getLsbD_or, BitVec.getLsbD_and, BitVec.getLsbD_and, hnot, hmask,
    Bool.and_true, Bool.and_false, Bool.or_false]

theorem toNat_nextVersion (v : VersionT) :
    (nextVersion v >>> 5).toNat = ((version v).toNat + 1) % 2 ^ 27 := by
  have hnot : (~~~ versionMask) >>> 5 = 0#32 := by decide
  have hmask : versionMask >>> 5 = 0x7FFFFFF#32 := by decide
  have hlt := version_lt v
  have hone : (version v + 1).toNat = (version v).toNat + 1 := by
    rw [BitVec.toNat_add]
    exact Nat.mod_eq_of_lt (by simp; omega)
  rw [nextVersion, BitVec.ushiftRight_or_distrib, BitVec.ushiftRight_and_distrib,
    BitVec.ushiftRight_and_distrib, hnot, hmask, and_low27, BitVec.and_zero, BitVec.zero_or,
    versionShift, BitVec.toNat_ushiftRight, BitVec.toNat_shiftLeft, hone, Nat.shiftLeft_eq,
    Nat.shiftRight_eq_div_pow]
  omega

theorem header_unlock_numbered (h : isNumbered v = true) : header (unlock v) =
    { header v with
      locked := false, writeIntent := false, modifying := false
      version := ((header v).version + 1) % 2 ^ 27 } := by
  have hunlock :
      unlock v = nextVersion v &&& ~~~ (lockedMask ||| modifyingMask ||| writeIntentMask) := by
    rw [unlock, if_pos h]
    rfl
  have hv := header_eq v
  have hn := header_eq (nextVersion v)
  simp only [header, Header.mk.injEq] at hv hn
  obtain ⟨-, hv1, -, -, hv4, -⟩ := hv
  obtain ⟨-, hn1, -, -, hn4, hn5⟩ := hn
  rw [hunlock, header_and_not (by decide), hn1, hn4, hn5, toNat_nextVersion,
    getLsbD_nextVersion v (by decide), getLsbD_nextVersion v (by decide)]
  simp [header, hv1, hv4, lockedMask, modifyingMask, writeIntentMask]

/-- **An unlock** clears the flags; after a write it raises the number, without a carry out of its
27 bits. -/
theorem header_unlock (v : VersionT) : header (unlock v) =
    { header v with
      locked := false, writeIntent := false, modifying := false
      version := ((header v).version + if isNumbered v then 1 else 0) % 2 ^ 27 } := by
  by_cases h : isNumbered v = true
  · rw [if_pos h]
    exact header_unlock_numbered h
  · have hunlock : unlock v = v &&& ~~~ (lockedMask ||| modifyingMask ||| writeIntentMask) := by
      rw [unlock, if_neg h]
    have hnumber : (header v).version % 2 ^ 27 = (version v).toNat := Nat.mod_eq_of_lt (version_lt v)
    rw [hunlock, header_and_not (by decide), if_neg h, Nat.add_zero, hnumber]
    simp [header, lockedMask, modifyingMask, writeIntentMask]

/-! ## The checks -/

/-- The fields decide the word. -/
theorem header_inj : header v = header w ↔ v = w := by
  refine ⟨fun h => ?_, fun h => by rw [h]⟩
  rw [header_eq, header_eq, Header.mk.injEq] at h
  obtain ⟨h0, h1, h2, h3, h4, h5⟩ := h
  apply BitVec.eq_of_getLsbD_eq
  intro i hi
  have hhigh := BitVec.eq_of_toNat_eq h5
  rcases Nat.lt_or_ge i 5 with hlow | hge
  · obtain rfl | rfl | rfl | rfl | rfl : i = 0 ∨ i = 1 ∨ i = 2 ∨ i = 3 ∨ i = 4 := by omega
    · exact h0
    · exact h1
    · exact h2
    · exact h3
    · exact h4
  · have hbit := congrArg (fun x => x.getLsbD (i - 5)) hhigh
    simpa [BitVec.getLsbD_ushiftRight, Nat.add_sub_cancel' hge] using hbit

theorem readerCheckVersion_iff (hdr v : VersionT) : readerCheckVersion hdr v = true ↔
    isDeleting hdr = isDeleting v ∧ isModifying hdr = isModifying v
      ∧ (header hdr).version = (header v).version := by
  have hmod : ∀ u : VersionT, header (u &&& ~~~ moduloBits)
      = ⟨false, isDeleting u, false, isModifying u, false, (version u).toNat⟩ := by
    intro u
    rw [header_and_not (by decide)]
    simp [moduloBits, lockedMask, writeIntentMask, latestMask]
  rw [readerCheckVersion, beq_iff_eq, ← header_inj, hmod, hmod]
  simp [header]

theorem writerCheckVersion_iff (hdr v : VersionT) :
    writerCheckVersion hdr v = true ↔ header hdr = header v := by
  rw [writerCheckVersion, beq_iff_eq, header_inj]

end TailBench.Silo.Hdr
