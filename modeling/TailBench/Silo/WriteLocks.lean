import TailBench.Silo.WriteSet

set_option autoImplicit false

/-! # Who holds which tuple

What is true of the tuples, the tree and the places of the threads in every state.

* `Indexed`: the tree has, for each key, the latest tuple of this key, and nothing else.
* `Locks`: a thread is the owner of the tuples whose infos it has noted as locked, each once.
* `PcWf`: what a place needs: tentative tuples are still at `MAX_TID`, the tuples locked so far
  are the latest ones, the marks of the write set are those of the loop.

A step of another thread keeps all of it because it changes no tuple that this thread owns
(`HeapStep`, `ThreadWf.stable`).
-/

namespace TailBench.Silo.Proto2

open Lib

variable {n : Nat} {κ : Type*}

/-- The infos that say which tuples the thread has locked. -/
def Pc.infos (t : Transaction κ) : Pc κ → List (WriteInfo κ)
  | .idle => []
  | .ready | .reading _ _ | .putting _ _ _ => t.writeInfos
  | .locking _ done rest => done ++ rest
  | .validating _ infos _ | .nodes _ infos _ | .writing _ infos _ => infos
  | .unlocking rest | .aborting rest => rest

/-- The id of the transaction, once it has one. -/
def Pc.tid : Pc κ → Option Nat
  | .validating tid _ _ | .nodes tid _ _ => tid
  | .writing tid _ _ => some tid
  | _ => none

/-! ## What is kept -/

/-- The tree has the latest tuples. -/
structure Indexed (heap : Heap (Fin n) κ) (index : κ → Option Addr) : Prop where
  latest : ∀ k a, index k = some a → ∃ x, heap a = some x ∧ x.key = k ∧ x.latest = true
  index_eq : ∀ a x, heap a = some x → x.latest = true → index x.key = some a

structure Locks (heap : Heap (Fin n) κ) (i : Fin n) (infos : List (WriteInfo κ)) : Prop where
  owner_iff : ∀ a x, heap a = some x →
    (x.lockOwner = some i ↔ ∃ w ∈ infos, w.locked = true ∧ w.tuple = a)
  key : ∀ w ∈ infos, ∃ x, heap w.tuple = some x ∧ x.key = w.key
  once : ((infos.filter (·.locked)).map (·.tuple)).Nodup
  insert_locked : ∀ w ∈ infos, w.insert = true → w.locked = true

/-- The tuples inserted are tentative. -/
def Markers (heap : Heap (Fin n) κ) (infos : List (WriteInfo κ)) : Prop :=
  ∀ w ∈ infos, w.insert = true →
    ∃ x, heap w.tuple = some x ∧ x.latest = true ∧ x.version = maxTid

/-- The infos are those of the write set. -/
structure Whole (t : Transaction κ) (infos : List (WriteInfo κ)) : Prop where
  infosOf : InfosOf t.writeSet infos
  first : InsertFirst t.writeSet
  values : ∀ w ∈ t.writeSet, w.value ≠ some []

/-- Between the calls of a transaction. -/
structure Active (heap : Heap (Fin n) κ) (t : Transaction κ) : Prop where
  first : InsertFirst t.writeSet
  values : ∀ w ∈ t.writeSet, w.value ≠ some []
  unmarked : ∀ w ∈ t.writeSet, w.doWrite = false
  markers : Markers heap t.writeInfos

/-- The tuple is locked by the thread and the latest of its key. -/
def Held (heap : Heap (Fin n) κ) (i : Fin n) (a : Addr) : Prop :=
  ∃ x, heap a = some x ∧ x.lockOwner = some i ∧ x.latest = true

structure Locking (heap : Heap (Fin n) κ) (i : Fin n) (t : Transaction κ) (inserted : Bool)
    (done rest : List (WriteInfo κ)) : Prop where
  sorted : (done ++ rest).Pairwise WriteInfo.le
  marked : MarkedBy done t.writeSet
  group : inserted = true ↔
    ∃ w ∈ done, w.insert = true ∧ rest.head?.map (·.tuple) = some w.tuple
  held : ∀ w ∈ done, (∀ d ∈ rest, d.tuple ≠ w.tuple) → Held heap i w.tuple
  nonempty : t.writeSet ≠ []

/-- All locks are held. -/
structure Claimed (heap : Heap (Fin n) κ) (i : Fin n) (t : Transaction κ) (tid : Option Nat) :
    Prop where
  held : ∀ w ∈ t.writeSet, Held heap i w.tuple
  marked : Marked t.writeSet
  readOnly : tid = none → t.writeSet = []

structure Writing (heap : Heap (Fin n) κ) (i : Fin n) (t : Transaction κ)
    (rest : List (WriteRecord κ)) : Prop where
  suffix : ∃ q, rest = t.writeSet.drop q
  marked : Marked t.writeSet
  owned : ∀ w ∈ t.writeSet, ∃ x, heap w.tuple = some x ∧ x.lockOwner = some i
  /-- What is still to be written is the latest, and tentative where it was inserted. -/
  todo : ∀ w ∈ rest, w.doWrite = true →
    ∃ x, heap w.tuple = some x ∧ x.latest = true ∧ (w.insert = true → x.version = maxTid)

/-- What the places need. -/
def PcWf (heap : Heap (Fin n) κ) (i : Fin n) (t : Transaction κ) : Pc κ → Prop
  | .idle | .unlocking _ => True
  | .ready => Active heap t
  | .reading k a => Active heap t ∧ ∃ x, heap a = some x ∧ x.key = k
  | .putting _ v _ => Active heap t ∧ v ≠ some []
  | .locking inserted done rest =>
      Whole t (done ++ rest) ∧ Markers heap (done ++ rest) ∧ Locking heap i t inserted done rest
  | .validating tid infos _ | .nodes tid infos _ =>
      Whole t infos ∧ Markers heap infos ∧ Claimed heap i t tid
  | .writing _ infos rest => Whole t infos ∧ Writing heap i t rest
  | .aborting rest => Markers heap rest

structure ThreadWf (heap : Heap (Fin n) κ) (i : Fin n) (t : Transaction κ) (pc : Pc κ) : Prop where
  locks : Locks heap i (pc.infos t)
  place : PcWf heap i t pc

/-- What holds in every state. -/
structure Wf (s : State n κ) : Prop where
  indexed : Indexed s.heap s.index
  thread : ∀ i, ThreadWf s.heap i (s.txn i) (s.pc i)

/-! ## The steps of other threads -/

/-- What a step of `i` does to the tuples: those of other threads stay, no key changes. -/
structure HeapStep (i : Fin n) (heap heap' : Heap (Fin n) κ) : Prop where
  kept : ∀ a x, heap a = some x → ∃ x', heap' a = some x' ∧ x'.key = x.key
    ∧ ∀ j, j ≠ i → x.lockOwner = some j ∨ x'.lockOwner = some j → x' = x
  fresh : ∀ a x', heap a = none → heap' a = some x' → x'.lockOwner = none ∨ x'.lockOwner = some i

section Stable

variable {heap heap' : Heap (Fin n) κ} {i j : Fin n} {t : Transaction κ} {pc : Pc κ}
  {infos : List (WriteInfo κ)} {a b : Addr} {x x' : Tuple (Fin n) κ}

theorem HeapStep.own (h : HeapStep i heap heap') (hj : j ≠ i) (hx : heap a = some x)
    (hown : x.lockOwner = some j) : heap' a = some x := by
  obtain ⟨x', hx', -, hsame⟩ := h.kept a x hx
  rw [hx', hsame j hj (.inl hown)]

theorem Held.stable (h : HeapStep i heap heap') (hj : j ≠ i) (hh : Held heap j a) :
    Held heap' j a := by
  obtain ⟨x, hx, hown, hlatest⟩ := hh
  exact ⟨x, h.own hj hx hown, hown, hlatest⟩

theorem Locks.stable (h : HeapStep i heap heap') (hj : j ≠ i) (hl : Locks heap j infos) :
    Locks heap' j infos := by
  refine ⟨?_, ?_, hl.once, hl.insert_locked⟩
  · intro a x' hx'
    cases hx : heap a with
    | none =>
        constructor
        · intro hown
          rcases h.fresh a x' hx hx' with h | h <;> rw [hown] at h <;> cases h
          exact absurd rfl hj
        · rintro ⟨w, hw, -, rfl⟩
          obtain ⟨x, hx', -⟩ := hl.key w hw
          rw [hx] at hx'
          cases hx'
    | some x =>
        obtain ⟨y, hy, -, hsame⟩ := h.kept a x hx
        obtain rfl : y = x' := Option.some.inj (hy.symm.trans hx')
        rw [← hl.owner_iff a x hx]
        constructor
        · intro hown
          rw [← hsame j hj (.inr hown)]
          exact hown
        · intro hown
          rw [hsame j hj (.inl hown)]
          exact hown
  · intro w hw
    obtain ⟨x, hx, hkey⟩ := hl.key w hw
    obtain ⟨x', hx', hkey', -⟩ := h.kept _ x hx
    exact ⟨x', hx', hkey'.trans hkey⟩

/-- The owner of a tuple, from an info. -/
theorem Locks.owner (hl : Locks heap i infos) {w : WriteInfo κ} (hw : w ∈ infos)
    (hlocked : w.locked = true) : ∃ x, heap w.tuple = some x ∧ x.key = w.key
      ∧ x.lockOwner = some i := by
  obtain ⟨x, hx, hkey⟩ := hl.key w hw
  exact ⟨x, hx, hkey, (hl.owner_iff _ x hx).mpr ⟨w, hw, hlocked, rfl⟩⟩

theorem Markers.stable (h : HeapStep i heap heap') (hj : j ≠ i) (hl : Locks heap j infos)
    (hm : Markers heap infos) : Markers heap' infos := by
  intro w hw hins
  obtain ⟨x, hx, hrest⟩ := hm w hw hins
  obtain ⟨y, hy, -, hown⟩ := hl.owner hw (hl.insert_locked w hw hins)
  obtain rfl : y = x := Option.some.inj (hy.symm.trans hx)
  exact ⟨y, h.own hj hx hown, hrest⟩

theorem ThreadWf.stable (h : HeapStep i heap heap') (hj : j ≠ i) (hwf : ThreadWf heap j t pc) :
    ThreadWf heap' j t pc := by
  obtain ⟨hl, hp⟩ := hwf
  have hactive : pc.infos t = t.writeInfos → Active heap t → Active heap' t := by
    rintro hinfos ⟨hfirst, hvalues, hunmarked, hmarkers⟩
    exact ⟨hfirst, hvalues, hunmarked, hmarkers.stable h hj (hinfos ▸ hl)⟩
  refine ⟨hl.stable h hj, ?_⟩
  cases pc with
  | idle => trivial
  | unlocking rest => trivial
  | ready => exact hactive rfl hp
  | reading k a =>
      obtain ⟨hact, x, hx, hkey⟩ := hp
      obtain ⟨x', hx', hkey', -⟩ := h.kept a x hx
      exact ⟨hactive rfl hact, x', hx', hkey'.trans hkey⟩
  | putting k v e => exact ⟨hactive rfl hp.1, hp.2⟩
  | locking inserted done rest =>
      obtain ⟨hwhole, hmarkers, hsorted, hmarked, hgroup, hheld, hne⟩ := hp
      exact ⟨hwhole, hmarkers.stable h hj hl, hsorted, hmarked, hgroup,
        fun w hw hlast => (hheld w hw hlast).stable h hj, hne⟩
  | validating tid infos rest =>
      obtain ⟨hwhole, hmarkers, hheld, hmarked, hread⟩ := hp
      exact ⟨hwhole, hmarkers.stable h hj hl, fun w hw => (hheld w hw).stable h hj, hmarked, hread⟩
  | nodes tid infos rest =>
      obtain ⟨hwhole, hmarkers, hheld, hmarked, hread⟩ := hp
      exact ⟨hwhole, hmarkers.stable h hj hl, fun w hw => (hheld w hw).stable h hj, hmarked, hread⟩
  | writing tid infos rest =>
      obtain ⟨hwhole, hsuffix, hmarked, howned, htodo⟩ := hp
      refine ⟨hwhole, hsuffix, hmarked, ?_, ?_⟩
      · intro w hw
        obtain ⟨x, hx, hown⟩ := howned w hw
        exact ⟨x, h.own hj hx hown, hown⟩
      · intro w hw hdo
        obtain ⟨q, rfl⟩ := hsuffix
        obtain ⟨x, hx, hrest⟩ := htodo w hw hdo
        obtain ⟨y, hy, hown⟩ := howned w (List.mem_of_mem_drop hw)
        obtain rfl : y = x := Option.some.inj (hy.symm.trans hx)
        exact ⟨y, h.own hj hx hown, hrest⟩
  | aborting rest => exact Markers.stable h hj hl hp

end Stable

end TailBench.Silo.Proto2
