import Mathlib.Logic.Function.Basic
import TailBench.Silo.Tid

set_option autoImplicit false

/-! # The tuples of silo

`dbtuple` (`silo/tuple.h`) as the transactions use it: one version of a record with its header, and
`write_record_at`, which overwrites the latest version in place, keeps the old one behind it
(a spill), or makes a new tuple that has to replace it in the tree.

The locks of the transactions are all taken with write intent, so that one `lockOwner` stands for
the bits `locked` and `write_intent`. The bit `modifying` and the version number of the header are
about readers that overlap with a write and are left to the tuple machine.
-/

namespace TailBench.Silo

abbrev Addr := Nat

abbrev Bytes := List UInt8

structure Tuple (ι κ : Type*) where
  /-- As under `TUPLE_CHECK_KEY`. -/
  key : κ
  /-- As under `TUPLE_LOCK_OWNERSHIP_CHECKING`. -/
  lockOwner : Option ι := none
  deleting : Bool := false
  latest : Bool := false
  version : Nat
  allocSize : Nat
  next : Option Addr := none
  /-- The `size` bytes at `value_start`. -/
  value : Bytes := []
  deriving DecidableEq, Repr

/-- The tuples that have been allocated. -/
abbrev Heap (ι κ : Type*) := Addr → Option (Tuple ι κ)

namespace Tuple

variable {ι κ : Type*}

def size (x : Tuple ι κ) : Nat := x.value.length

/-- `sizeof(dbtuple)`, which is packed -/
def headerSize : Nat := 24

def nodeSizeMax : Nat := 2 ^ 16 - 1

/-- The bytes for a value behind the header, with the rounding of the allocator. -/
def allocSizeFor (sz : Nat) : Nat :=
  min ((headerSize + sz + 15) / 16 * 16) (nodeSizeMax + headerSize) - headerSize

/-- `alloc_first(sz, true)` with the value written: a tentative record at `MAX_TID`. -/
def allocFirst (i : ι) (k : κ) (v : Option Bytes) : Tuple ι κ where
  key := k
  lockOwner := some i
  deleting := v.getD [] = []
  latest := true
  version := maxTid
  allocSize := allocSizeFor (v.getD []).length
  value := v.getD []

/-- `alloc(version, base, false)` -/
def alloc (base : Tuple ι κ) : Tuple ι κ where
  key := base.key
  deleting := base.deleting
  version := base.version
  allocSize := allocSizeFor base.size
  next := base.next
  value := base.value

/-- `alloc_spill(t, .., next, true, false)` with the value written: the writer of a plain tree does
not need the old value. -/
def allocSpill (k : κ) (t : Nat) (v : Option Bytes) (next : Addr) : Tuple ι κ where
  key := k
  deleting := v.getD [] = []
  latest := true
  version := t
  allocSize := allocSizeFor (v.getD []).length
  next := some next
  value := v.getD []

/-- What a reader takes from the bytes of a tuple; a deleted record is absent. -/
def data (x : Tuple ι κ) : Option Bytes :=
  if x.deleting = true ∨ x.size = 0 then none else some x.value

/-- The record that the tuple stands for: a tentative insert is still absent. -/
def content (x : Tuple ι κ) : Option Bytes := if x.version = maxTid then none else x.data

/-- `is_latest_version` -/
def isLatestVersion (x : Tuple ι κ) (t : Nat) : Bool := x.latest && decide (x.version ≤ t)

structure WriteRecordRet where
  head : Addr
  rest : Option Addr
  forcedSpill : Bool
  deriving DecidableEq, Repr

/-- The tuple with the new value in its own bytes. -/
def overwrite (x : Tuple ι κ) (t : Nat) (v : Option Bytes) : Tuple ι κ :=
  { x with version := t, value := v.getD [], deleting := x.deleting || decide (v.getD [] = []) }

/-- `write_record_at` on the tuple `x` at `a`; `b` is what the allocator returns where the call
allocates. -/
def writeRecordAt (snapshotsEnabled : Bool) (heap : Heap ι κ) (a : Addr) (x : Tuple ι κ) (b : Addr)
    (t : Nat) (v : Option Bytes) : Heap ι κ × WriteRecordRet :=
  let newSz := (v.getD []).length
  let oldSz := if x.deleting then 0 else x.size
  let replaced := Function.update (Function.update heap b (some (allocSpill x.key t v a)))
    a (some { x with latest := false })
  if Tid.canOverwriteRecordTid snapshotsEnabled x.version t && oldSz != 0 then
    -- in place if there is the space
    if newSz ≤ x.allocSize then
      (Function.update heap a (some (x.overwrite t v)), ⟨a, none, false⟩)
    else (replaced, ⟨b, some a, false⟩)
  else if newSz ≤ x.allocSize ∧ oldSz ≠ 0 then
    (Function.update (Function.update heap b (some x.alloc))
      a (some ({ x with next := some b }.overwrite t v)), ⟨a, some b, true⟩)
  else (replaced, ⟨b, some a, true⟩)

/-! ## What a write leaves -/

/-- `y` is `x` with another version. -/
structure Overwritten (x y : Tuple ι κ) (t : Nat) (v : Option Bytes) : Prop where
  key_eq : y.key = x.key
  lockOwner_eq : y.lockOwner = x.lockOwner
  latest_eq : y.latest = x.latest
  version_eq : y.version = t
  data_eq : y.data = v

variable {heap : Heap ι κ} {a b : Addr} {x : Tuple ι κ} {t : Nat} {v : Option Bytes}

theorem data_of_value {y : Tuple ι κ} (hv : v ≠ some []) (hvalue : y.value = v.getD [])
    (hdel : y.deleting = decide (v.getD [] = [])) : y.data = v := by
  cases v with
  | none => simp [data, hdel]
  | some w =>
      have hw : w ≠ [] := fun h => hv (by rw [h])
      simp only [Option.getD_some] at hvalue hdel
      simp [data, size, hvalue, hdel, hw]

theorem overwritten_overwrite (hv : v ≠ some []) (hx : x.deleting = false) :
    Overwritten x (x.overwrite t v) t v :=
  ⟨rfl, rfl, rfl, rfl, data_of_value hv rfl (by simp [overwrite, hx])⟩

theorem data_allocSpill (k : κ) (hv : v ≠ some []) : (allocSpill k t v a : Tuple ι κ).data = v :=
  data_of_value hv rfl rfl

theorem content_of_version (h : x.version ≠ maxTid) : x.content = x.data := if_neg h

theorem content_of_maxTid (h : x.version = maxTid) : x.content = none := if_pos h

theorem content_allocFirst (i : ι) (k : κ) : (allocFirst i k v).content = none :=
  content_of_maxTid rfl

/-- The record is written over, with or without a spill, or there is a new tuple for it. -/
theorem writeRecordAt_cases (s : Bool) (hb : heap b = none) (hv : v ≠ some []) :
    ∃ y o, (writeRecordAt s heap a x b t v).1 = Function.update (Function.update heap b o) a (some y)
      ∧ (((writeRecordAt s heap a x b t v).2.head = a ∧ Overwritten x y t v
          ∧ ∀ z ∈ o, z.key = x.key ∧ z.latest = false ∧ z.lockOwner = none
            ∧ z.version = x.version)
        ∨ ((writeRecordAt s heap a x b t v).2.head = b ∧ y = { x with latest := false }
          ∧ ∃ z, o = some z ∧ z.key = x.key ∧ z.latest = true ∧ z.lockOwner = none
            ∧ z.version = t ∧ z.data = v)) := by
  have hsame : Function.update heap b none = heap := by rw [← hb, Function.update_eq_self]
  have hreplaced : ∃ z, some (allocSpill x.key t v a : Tuple ι κ) = some z ∧ z.key = x.key
      ∧ z.latest = true ∧ z.lockOwner = none ∧ z.version = t ∧ z.data = v :=
    ⟨_, rfl, rfl, rfl, rfl, rfl, data_allocSpill x.key hv⟩
  have hdel : (if x.deleting = true then 0 else x.size) ≠ 0 → x.deleting = false := by
    intro h
    by_cases hd : x.deleting = true
    · simp [hd] at h
    · simpa using hd
  rw [writeRecordAt]
  by_cases hover : (Tid.canOverwriteRecordTid s x.version t
      && (if x.deleting = true then 0 else x.size) != 0) = true
  · rw [if_pos hover]
    simp only [Bool.and_eq_true, bne_iff_ne] at hover
    by_cases hfit : (v.getD []).length ≤ x.allocSize
    · rw [if_pos hfit]
      refine ⟨_, none, by rw [hsame], .inl ⟨rfl, overwritten_overwrite hv (hdel hover.2), ?_⟩⟩
      simp
    · rw [if_neg hfit]
      exact ⟨_, _, rfl, .inr ⟨rfl, rfl, hreplaced⟩⟩
  · rw [if_neg hover]
    by_cases hspill : (v.getD []).length ≤ x.allocSize
        ∧ (if x.deleting = true then 0 else x.size) ≠ 0
    · rw [if_pos hspill]
      have hx := hdel hspill.2
      refine ⟨_, _, rfl, .inl ⟨rfl, ?_, ?_⟩⟩
      · exact ⟨rfl, rfl, rfl, rfl, data_of_value hv rfl (by simp [overwrite, hx])⟩
      · simp [alloc]
    · rw [if_neg hspill]
      exact ⟨_, _, rfl, .inr ⟨rfl, rfl, hreplaced⟩⟩

end Tuple

end TailBench.Silo
