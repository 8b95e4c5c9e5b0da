import Mathlib.Data.Nat.Bitwise
import Mathlib.Tactic.Ring

set_option autoImplicit false

/-! # Transaction ids

The commit ids of `transaction_proto2_static` (`silo/txn_proto2_impl.h`): a core id, a number and
an epoch in one 64-bit word, so that the ids of one epoch are ordered by their numbers and the
epochs come first. `genCommitTid` is larger than everything the transaction has read or is about
to overwrite as long as the number has not run through its 24 bits (`GenSpec`).
-/

namespace TailBench.Silo

/-! ## The packed word

A `tid_t` is a natural number below `2 ^ 64`. -/

def minTid : Nat := 0

def maxTid : Nat := 2 ^ 64 - 1

namespace Tid

def coreBits : Nat := 9

def nbitsNumber : Nat := 24

def numIdShift : Nat := coreBits

def epochShift : Nat := coreBits + nbitsNumber

/-- `CoreId`; the mask is that of the low bits. -/
def coreId (v : Nat) : Nat := v % 2 ^ coreBits

def numId (v : Nat) : Nat := v / 2 ^ numIdShift % 2 ^ nbitsNumber

def epochId (v : Nat) : Nat := v / 2 ^ epochShift

def makeTid (coreId numId epochId : Nat) : Nat :=
  (coreId ||| numId <<< numIdShift ||| epochId <<< epochShift) % 2 ^ 64

def readOnlyEpochMultiplier : Nat := 25

def toReadOnlyTick (epochTick : Nat) : Nat := epochTick / readOnlyEpochMultiplier

/-- `can_overwrite_record_tid` -/
def canOverwriteRecordTid (snapshotsEnabled : Bool) (prev cur : Nat) : Bool :=
  !snapshotsEnabled || toReadOnlyTick (epochId prev) == toReadOnlyTick (epochId cur) || prev == 0

/-- The number `gen_commit_tid` starts from: the last one of the core in this epoch, or a later one
that was read or is overwritten. `MAX_TID` stands for a tuple that the transaction has inserted. -/
def baseTid (lastCommitTid : Nat) (commitEpoch : Nat) (reads writes : List Nat) : Nat :=
  let ret := if commitEpoch ≠ epochId lastCommitTid then makeTid 0 0 commitEpoch else lastCommitTid
  let ret := reads.foldl (fun ret t => if t > ret then t else ret) ret
  writes.foldl (fun ret t => if t ≠ maxTid ∧ t > ret then t else ret) ret

def genCommitTid (myCoreId : Nat) (lastCommitTid : Nat) (commitEpoch : Nat)
    (reads writes : List Nat) : Nat :=
  makeTid myCoreId (numId (baseTid lastCommitTid commitEpoch reads writes) + 1) commitEpoch

/-! ## The fields of an id -/

section Fields

variable {core num epoch : Nat} {t u : Nat}

theorem makeTid_eq (hcore : core < 2 ^ coreBits) (hnum : num < 2 ^ nbitsNumber)
    (hepoch : epoch < 2 ^ 30) : makeTid core num epoch = core + num * 2 ^ 9 + epoch * 2 ^ 33 := by
  simp only [coreBits, nbitsNumber] at hcore hnum
  have hlow : core ||| num <<< 9 = num <<< 9 + core := by
    rw [Nat.or_comm, Nat.shiftLeft_add_eq_or_of_lt hcore]
  have hshift : num <<< 9 + core < 2 ^ 33 := by
    rw [Nat.shiftLeft_eq]
    omega
  have hall : core ||| num <<< 9 ||| epoch <<< 33 = epoch <<< 33 + (num <<< 9 + core) := by
    rw [hlow, Nat.or_comm, Nat.shiftLeft_add_eq_or_of_lt hshift]
  rw [makeTid, numIdShift, epochShift, coreBits, nbitsNumber, hall, Nat.shiftLeft_eq,
    Nat.shiftLeft_eq]
  omega

theorem epochId_makeTid (hcore : core < 2 ^ coreBits) (hnum : num < 2 ^ nbitsNumber)
    (hepoch : epoch < 2 ^ 30) : epochId (makeTid core num epoch) = epoch := by
  rw [makeTid_eq hcore hnum hepoch, epochId, epochShift]
  simp only [coreBits, nbitsNumber] at *
  omega

theorem coreId_makeTid (hcore : core < 2 ^ coreBits) (hnum : num < 2 ^ nbitsNumber)
    (hepoch : epoch < 2 ^ 30) : coreId (makeTid core num epoch) = core := by
  rw [makeTid_eq hcore hnum hepoch, coreId]
  simp only [coreBits, nbitsNumber] at *
  omega

/-- In one epoch a larger number is a larger id. -/
theorem lt_makeTid (hcore : core < 2 ^ coreBits) (hnum : num < 2 ^ nbitsNumber)
    (hepoch : epoch < 2 ^ 30) (ht : epochId t = epoch) (h : numId t < num) :
    t < makeTid core num epoch := by
  rw [makeTid_eq hcore hnum hepoch]
  simp only [epochId, numId, epochShift, numIdShift, coreBits, nbitsNumber] at *
  omega

theorem makeTid_ne_maxTid (hcore : core < 2 ^ coreBits) (hnum : num < 2 ^ nbitsNumber)
    (hepoch : epoch < 2 ^ 30) : makeTid core num epoch ≠ maxTid := by
  rw [makeTid_eq hcore hnum hepoch, maxTid]
  simp only [coreBits, nbitsNumber] at *
  omega

theorem epochId_mono (h : t ≤ u) : epochId t ≤ epochId u := Nat.div_le_div_right h

end Fields

/-! ## The generated id -/

section Generate

variable {core epoch : Nat} {last : Nat} {reads writes : List Nat}

/-- The running maximum over the elements that pass a test. -/
theorem foldl_max_spec {p : Nat → Prop} [DecidablePred p] (l : List Nat) (r : Nat) :
    (r ≤ l.foldl (fun ret t => if p t ∧ t > ret then t else ret) r)
      ∧ (∀ t ∈ l, p t → t ≤ l.foldl (fun ret t => if p t ∧ t > ret then t else ret) r)
      ∧ (l.foldl (fun ret t => if p t ∧ t > ret then t else ret) r = r
          ∨ ∃ t ∈ l, p t ∧ l.foldl (fun ret t => if p t ∧ t > ret then t else ret) r = t) := by
  induction l generalizing r with
  | nil => simp
  | cons u l ih =>
      rw [List.foldl_cons]
      obtain ⟨hle, hall, hmem⟩ := ih (if p u ∧ u > r then u else r)
      have hr : r ≤ if p u ∧ u > r then u else r := by
        split <;> omega
      refine ⟨hr.trans hle, ?_, ?_⟩
      · intro t ht hp
        rcases List.mem_cons.mp ht with rfl | ht
        · refine le_trans ?_ hle
          by_cases h : t > r
          · rw [if_pos ⟨hp, h⟩]
          · rw [if_neg (fun hc => h hc.2)]
            omega
        · exact hall t ht hp
      · rcases hmem with heq | ⟨t, ht, hp, heq⟩
        · by_cases h : p u ∧ u > r
          · exact .inr ⟨u, by simp, h.1, by rw [heq, if_pos h]⟩
          · exact .inl (by rw [heq, if_neg h])
        · exact .inr ⟨t, by simp [ht], hp, heq⟩

/-- What `gen_commit_tid` assures. -/
structure GenSpec (core epoch : Nat) (last : Nat) (reads writes : List Nat) (t : Nat) : Prop where
  epoch_eq : epochId t = epoch
  core_eq : coreId t = core
  ne_max : t ≠ maxTid
  last_lt : last < t
  read_lt : ∀ u ∈ reads, u < t
  write_lt : ∀ u ∈ writes, u ≠ maxTid → u < t

/-- The bounds of `baseTid`; the last one is the assertion of `gen_commit_tid`. -/
theorem baseTid_spec (hepoch : epoch < 2 ^ 30)
    (hreads : ∀ t ∈ reads, epochId t ≤ epoch)
    (hwrites : ∀ t ∈ writes, t ≠ maxTid → epochId t ≤ epoch) :
    (epochId last = epoch → last ≤ baseTid last epoch reads writes)
      ∧ (∀ t ∈ reads, t ≤ baseTid last epoch reads writes)
      ∧ (∀ t ∈ writes, t ≠ maxTid → t ≤ baseTid last epoch reads writes)
      ∧ epochId (baseTid last epoch reads writes) = epoch := by
  obtain ⟨r, hr⟩ : ∃ r, r = if epoch ≠ epochId last then makeTid 0 0 epoch else last := ⟨_, rfl⟩
  have hbase : epochId r = epoch ∧ (epochId last = epoch → last ≤ r) := by
    rw [hr]
    by_cases h : epoch = epochId last
    · rw [if_neg (by simp [h])]
      exact ⟨h.symm, fun _ => le_refl _⟩
    · rw [if_pos h, epochId_makeTid (by decide) (by decide) hepoch]
      exact ⟨rfl, fun hl => absurd hl.symm h⟩
  obtain ⟨hle₁, hall₁, hmem₁⟩ := foldl_max_spec (p := fun _ => True) reads r
  simp only [true_and, forall_const] at hle₁ hall₁ hmem₁
  have hdef : baseTid last epoch reads writes
      = writes.foldl (fun ret t => if t ≠ maxTid ∧ t > ret then t else ret)
          (reads.foldl (fun ret t => if t > ret then t else ret) r) := by
    rw [hr]
    rfl
  obtain ⟨hle₂, hall₂, hmem₂⟩ := foldl_max_spec (p := fun t => t ≠ maxTid) writes
    (reads.foldl (fun ret t => if t > ret then t else ret) r)
  rw [← hdef] at hle₂ hall₂ hmem₂
  refine ⟨fun h => (hbase.2 h).trans (hle₁.trans hle₂), fun t ht => (hall₁ t ht).trans hle₂, hall₂,
    Nat.le_antisymm ?_ ?_⟩
  · rcases hmem₂ with heq | ⟨t, ht, hne, heq⟩
    · rw [heq]
      rcases hmem₁ with heq' | ⟨t, ht, heq'⟩
      · rw [heq', hbase.1]
      · rw [heq']
        exact hreads t ht
    · rw [heq]
      exact hwrites t ht hne
  · calc epoch = epochId r := hbase.1.symm
      _ ≤ _ := epochId_mono (hle₁.trans hle₂)

/-- **A new id is larger** than the last one of its core, than all ids read and than all ids
overwritten, and belongs to its epoch. -/
theorem genCommitTid_spec (hcore : core < 2 ^ coreBits) (hepoch : epoch < 2 ^ 30)
    (hlast : epochId last ≤ epoch) (hreads : ∀ t ∈ reads, epochId t ≤ epoch)
    (hwrites : ∀ t ∈ writes, t ≠ maxTid → epochId t ≤ epoch)
    (hnum : numId (baseTid last epoch reads writes) + 1 < 2 ^ nbitsNumber) :
    GenSpec core epoch last reads writes (genCommitTid core last epoch reads writes) := by
  obtain ⟨hl, hr, hw, hbase⟩ := baseTid_spec hepoch hreads hwrites
  have hlt : baseTid last epoch reads writes < genCommitTid core last epoch reads writes :=
    lt_makeTid hcore hnum hepoch hbase (Nat.lt_succ_self _)
  refine ⟨epochId_makeTid hcore hnum hepoch, coreId_makeTid hcore hnum hepoch,
    makeTid_ne_maxTid hcore hnum hepoch, ?_, fun u hu => (hr u hu).trans_lt hlt,
    fun u hu hne => (hw u hu hne).trans_lt hlt⟩
  by_cases h : epochId last = epoch
  · exact (hl h).trans_lt hlt
  · have hgen : epochId (genCommitTid core last epoch reads writes) = epoch :=
      epochId_makeTid hcore hnum hepoch
    by_contra hge
    have := epochId_mono (Nat.le_of_not_lt hge)
    omega

end Generate

end Tid

end TailBench.Silo
