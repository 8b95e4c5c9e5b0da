import TailBench.Silo.WriteLocks

set_option autoImplicit false

/-! # The locks and the tree in a step

How the infos of a thread follow the locks it takes and gives back, what a step does to the tree, and
that it leaves the tuples of the other threads alone.
-/

namespace TailBench.Silo.Proto2

open Lib

variable {n : Nat} {κ : Type*}

/-! ## Infos -/

section Infos

variable {heap heap' : Heap (Fin n) κ} {i : Fin n} {t : Transaction κ} {w it : WriteInfo κ}
  {infos infos' done rest : List (WriteInfo κ)} {a : Addr} {x x' : Tuple (Fin n) κ}

theorem locked_of_mem_writeInfos (hw : w ∈ t.writeInfos) : w.locked = w.insert := by
  obtain ⟨p, hp, rfl⟩ := List.mem_mapIdx.mp hw
  rfl

theorem writeInfos_concat (t : Transaction κ) (u : WriteRecord κ) (t' : Transaction κ)
    (h : t'.writeSet = t.writeSet ++ [u]) :
    t'.writeInfos = t.writeInfos ++ [⟨u.tuple, u.key, u.insert, t.writeSet.length, u.insert⟩] := by
  rw [Transaction.writeInfos, h, List.mapIdx_concat, Transaction.writeInfos]

theorem Locks.nil (h : ∀ a x, heap a = some x → x.lockOwner ≠ some i) : Locks heap i [] := by
  refine ⟨fun a x hx => ?_, by simp, by simp, by simp⟩
  simp [h a x hx]

theorem Locks.perm (h : Locks heap i infos) (hp : infos'.Perm infos) : Locks heap i infos' := by
  refine ⟨?_, fun w hw => h.key w (hp.mem_iff.mp hw),
    ((hp.filter _).map _).nodup_iff.mpr h.once, fun w hw => h.insert_locked w (hp.mem_iff.mp hw)⟩
  intro a x hx
  rw [h.owner_iff a x hx]
  exact exists_congr fun w => and_congr_left' hp.mem_iff.symm

/-- `abort_impl` goes through the inserts, which are all that is locked. -/
theorem Locks.inserts (h : Locks heap i t.writeInfos) : Locks heap i t.insertInfos := by
  refine ⟨?_, fun w hw => h.key w (List.mem_filter.mp hw).1, ?_,
    fun w hw => h.insert_locked w (List.mem_filter.mp hw).1⟩
  · intro a x hx
    rw [h.owner_iff a x hx]
    constructor
    · rintro ⟨w, hw, hlocked, rfl⟩
      refine ⟨w, List.mem_filter.mpr ⟨hw, ?_⟩, hlocked, rfl⟩
      rw [← locked_of_mem_writeInfos hw, hlocked]
    · rintro ⟨w, hw, hlocked, rfl⟩
      exact ⟨w, (List.mem_filter.mp hw).1, hlocked, rfl⟩
  · exact List.Nodup.sublist ((List.filter_sublist.filter _).map _) h.once

/-- Tuples change, but not in what this thread owns. -/
theorem Locks.of_heap (h : Locks heap i infos)
    (hkept : ∀ a x, heap a = some x → ∃ x', heap' a = some x' ∧ x'.key = x.key
      ∧ (x'.lockOwner = some i ↔ x.lockOwner = some i))
    (hnew : ∀ a x', heap a = none → heap' a = some x' → x'.lockOwner ≠ some i) :
    Locks heap' i infos := by
  refine ⟨?_, ?_, h.once, h.insert_locked⟩
  · intro a x' hx'
    cases hx : heap a with
    | none =>
        refine iff_of_false (hnew a x' hx hx') ?_
        rintro ⟨w, hw, -, rfl⟩
        obtain ⟨x, hx', -⟩ := h.key w hw
        rw [hx] at hx'
        cases hx'
    | some x =>
        obtain ⟨y, hy, -, hown⟩ := hkept a x hx
        obtain rfl : y = x' := Option.some.inj (hy.symm.trans hx')
        rw [hown, h.owner_iff a x hx]
  · intro w hw
    obtain ⟨x, hx, hkey⟩ := h.key w hw
    obtain ⟨x', hx', hkey', -⟩ := hkept _ x hx
    exact ⟨x', hx', hkey'.trans hkey⟩

theorem Locks.skip (h : Locks heap i (w :: rest)) (hw : w.locked = false) : Locks heap i rest := by
  refine ⟨?_, fun u hu => h.key u (List.mem_cons_of_mem _ hu), ?_,
    fun u hu => h.insert_locked u (List.mem_cons_of_mem _ hu)⟩
  · intro a x hx
    rw [h.owner_iff a x hx]
    constructor
    · rintro ⟨u, hu, hlocked, rfl⟩
      rcases List.mem_cons.mp hu with rfl | hu
      · rw [hw] at hlocked
        cases hlocked
      · exact ⟨u, hu, hlocked, rfl⟩
    · rintro ⟨u, hu, hlocked, rfl⟩
      exact ⟨u, List.mem_cons_of_mem _ hu, hlocked, rfl⟩
  · have honce := h.once
    rw [List.filter_cons_of_neg (by simp [hw])] at honce
    exact honce

theorem Locks.unlock (h : Locks heap i (w :: rest)) (hw : w.locked = true)
    (hx : heap w.tuple = some x) (hkey : x'.key = x.key) (hown : x'.lockOwner = none) :
    Locks (Function.update heap w.tuple (some x')) i rest := by
  have honce := h.once
  rw [List.filter_cons_of_pos hw, List.map_cons, List.nodup_cons] at honce
  refine ⟨?_, ?_, honce.2, fun u hu => h.insert_locked u (List.mem_cons_of_mem _ hu)⟩
  · intro a y hy
    by_cases ha : a = w.tuple
    · subst ha
      obtain rfl : x' = y := by simpa using hy
      refine iff_of_false (by simp [hown]) ?_
      rintro ⟨u, hu, hlocked, heq⟩
      exact honce.1 (List.mem_map.mpr ⟨u, List.mem_filter.mpr ⟨hu, hlocked⟩, heq⟩)
    · rw [Function.update_of_ne ha] at hy
      rw [h.owner_iff a y hy]
      constructor
      · rintro ⟨u, hu, hlocked, rfl⟩
        rcases List.mem_cons.mp hu with rfl | hu
        · exact absurd rfl ha
        · exact ⟨u, hu, hlocked, rfl⟩
      · rintro ⟨u, hu, hlocked, rfl⟩
        exact ⟨u, List.mem_cons_of_mem _ hu, hlocked, rfl⟩
  · intro u hu
    obtain ⟨y, hy, hyk⟩ := h.key u (List.mem_cons_of_mem _ hu)
    by_cases ha : u.tuple = w.tuple
    · rw [ha, hx] at hy
      obtain rfl := Option.some.inj hy
      exact ⟨x', by rw [ha, Function.update_self], hkey.trans hyk⟩
    · exact ⟨y, by rw [Function.update_of_ne ha, hy], hyk⟩

theorem Locks.lock (h : Locks heap i (done ++ it :: rest)) (hx : heap it.tuple = some x)
    (hown : x.lockOwner = none) :
    Locks (Function.update heap it.tuple (some { x with lockOwner := some i })) i
      (done ++ { it with locked := true } :: rest) := by
  have hnot : ∀ u ∈ done ++ it :: rest, u.locked = true → u.tuple ≠ it.tuple := by
    intro u hu hlocked heq
    have := (h.owner_iff _ x hx).mpr ⟨u, hu, hlocked, heq⟩
    rw [hown] at this
    cases this
  have hit : it.locked = false := by
    by_contra hl
    exact hnot it (by simp) (by simpa using hl) rfl
  have hmem : ∀ u, u ∈ done ++ { it with locked := true } :: rest →
      u = { it with locked := true } ∨ u ∈ done ++ it :: rest := by
    intro u hu
    simp only [List.mem_append, List.mem_cons] at hu ⊢
    tauto
  refine ⟨?_, ?_, ?_, ?_⟩
  · intro a y hy
    by_cases ha : a = it.tuple
    · subst ha
      obtain rfl : { x with lockOwner := some i } = y := by simpa using hy
      exact iff_of_true rfl ⟨{ it with locked := true }, by simp, rfl, rfl⟩
    · rw [Function.update_of_ne ha] at hy
      rw [h.owner_iff a y hy]
      constructor
      · rintro ⟨u, hu, hlocked, rfl⟩
        refine ⟨u, ?_, hlocked, rfl⟩
        simp only [List.mem_append, List.mem_cons] at hu ⊢
        rcases hu with hu | rfl | hu
        · exact .inl hu
        · exact absurd rfl ha
        · exact .inr (.inr hu)
      · rintro ⟨u, hu, hlocked, rfl⟩
        rcases hmem u hu with rfl | hu
        · exact absurd rfl ha
        · exact ⟨u, hu, hlocked, rfl⟩
  · have hkey : ∀ u ∈ done ++ it :: rest, ∃ y,
        Function.update heap it.tuple (some { x with lockOwner := some i }) u.tuple = some y
          ∧ y.key = u.key := by
      intro u hu
      obtain ⟨y, hy, hyk⟩ := h.key u hu
      by_cases ha : u.tuple = it.tuple
      · rw [ha, hx] at hy
        obtain rfl := Option.some.inj hy
        exact ⟨{ x with lockOwner := some i }, by rw [ha, Function.update_self], hyk⟩
      · exact ⟨y, by rw [Function.update_of_ne ha, hy], hyk⟩
    intro u hu
    rcases hmem u hu with rfl | hu
    · exact hkey it (by simp)
    · exact hkey u hu
  · have honce := h.once
    rw [List.filter_append, List.filter_cons_of_neg (by simp [hit])] at honce
    rw [List.filter_append, List.filter_cons_of_pos rfl, List.map_append, List.map_cons,
      List.nodup_middle, List.nodup_cons, ← List.map_append]
    refine ⟨?_, honce⟩
    intro hin
    obtain ⟨u, hu, heq⟩ := List.mem_map.mp hin
    have hu' : u ∈ done ++ it :: rest ∧ u.locked = true := by
      rcases List.mem_append.mp hu with hu | hu
      · exact ⟨by simp [(List.mem_filter.mp hu).1], (List.mem_filter.mp hu).2⟩
      · exact ⟨by simp [(List.mem_filter.mp hu).1], (List.mem_filter.mp hu).2⟩
    exact hnot u hu'.1 hu'.2 heq
  · intro u hu hins
    rcases hmem u hu with rfl | hu
    · rfl
    · exact h.insert_locked u hu hins

/-- A tuple that was found is noted. -/
theorem Locks.append (h : Locks heap i infos) (hx : heap w.tuple = some x) (hkey : x.key = w.key)
    (hw : w.locked = false) (hins : w.insert = false) : Locks heap i (infos ++ [w]) := by
  refine ⟨?_, ?_, ?_, ?_⟩
  · intro a y hy
    rw [h.owner_iff a y hy]
    constructor
    · rintro ⟨u, hu, hlocked, rfl⟩
      exact ⟨u, List.mem_append_left _ hu, hlocked, rfl⟩
    · rintro ⟨u, hu, hlocked, rfl⟩
      rcases List.mem_append.mp hu with hu | hu
      · exact ⟨u, hu, hlocked, rfl⟩
      · obtain rfl := List.mem_singleton.mp hu
        rw [hw] at hlocked
        cases hlocked
  · intro u hu
    rcases List.mem_append.mp hu with hu | hu
    · exact h.key u hu
    · obtain rfl := List.mem_singleton.mp hu
      exact ⟨x, hx, hkey⟩
  · rw [List.filter_append, List.filter_cons_of_neg (by simp [hw]), List.filter_nil, List.append_nil]
    exact h.once
  · intro u hu hui
    rcases List.mem_append.mp hu with hu | hu
    · exact h.insert_locked u hu hui
    · obtain rfl := List.mem_singleton.mp hu
      rw [hins] at hui
      cases hui

/-- A tuple that was inserted is noted as locked. -/
theorem Locks.insert (h : Locks heap i infos) (ha : heap w.tuple = none)
    (hkey : x.key = w.key) (hown : x.lockOwner = some i) (hw : w.locked = true) :
    Locks (Function.update heap w.tuple (some x)) i (infos ++ [w]) := by
  have hne : ∀ u ∈ infos, u.tuple ≠ w.tuple := by
    intro u hu heq
    obtain ⟨y, hy, -⟩ := h.key u hu
    rw [heq, ha] at hy
    cases hy
  refine ⟨?_, ?_, ?_, ?_⟩
  · intro b y hy
    by_cases hb : b = w.tuple
    · subst hb
      obtain rfl : x = y := by simpa using hy
      exact iff_of_true hown ⟨w, by simp, hw, rfl⟩
    · rw [Function.update_of_ne hb] at hy
      rw [h.owner_iff b y hy]
      constructor
      · rintro ⟨u, hu, hlocked, rfl⟩
        exact ⟨u, List.mem_append_left _ hu, hlocked, rfl⟩
      · rintro ⟨u, hu, hlocked, rfl⟩
        rcases List.mem_append.mp hu with hu | hu
        · exact ⟨u, hu, hlocked, rfl⟩
        · obtain rfl := List.mem_singleton.mp hu
          exact absurd rfl hb
  · intro u hu
    rcases List.mem_append.mp hu with hu | hu
    · obtain ⟨y, hy, hyk⟩ := h.key u hu
      exact ⟨y, by rw [Function.update_of_ne (hne u hu), hy], hyk⟩
    · obtain rfl := List.mem_singleton.mp hu
      exact ⟨x, by simp, hkey⟩
  · rw [List.filter_append, List.filter_cons_of_pos hw, List.filter_nil, List.map_append,
      List.map_singleton, List.nodup_append]
    refine ⟨h.once, List.nodup_singleton _, ?_⟩
    intro b hb c hc
    obtain rfl := List.mem_singleton.mp hc
    obtain ⟨u, hu, rfl⟩ := List.mem_map.mp hb
    exact hne u (List.mem_filter.mp hu).1
  · intro u hu hui
    rcases List.mem_append.mp hu with hu | hu
    · exact h.insert_locked u hu hui
    · obtain rfl := List.mem_singleton.mp hu
      exact hw

theorem Markers.subset (h : Markers heap infos) (hs : ∀ w ∈ infos', w ∈ infos) :
    Markers heap infos' :=
  fun w hw => h w (hs w hw)

/-- A change of tuples that are not tentative inserts of the thread. -/
theorem Markers.of_heap (h : Markers heap infos)
    (hkept : ∀ w ∈ infos, w.insert = true → heap' w.tuple = heap w.tuple) : Markers heap' infos := by
  intro w hw hins
  obtain ⟨x, hx, hrest⟩ := h w hw hins
  exact ⟨x, (hkept w hw hins).trans hx, hrest⟩

end Infos

/-! ## The tree -/

section Tree

variable {heap : Heap (Fin n) κ} {index : κ → Option Addr} {a b : Addr} {x x' z : Tuple (Fin n) κ}
  {k : κ}

/-- A tuple is changed and stays the latest, or not. -/
theorem Indexed.update (h : Indexed heap index) (hx : heap a = some x) (hkey : x'.key = x.key)
    (hlatest : x'.latest = x.latest) : Indexed (Function.update heap a (some x')) index := by
  refine ⟨?_, ?_⟩
  · intro k b hb
    obtain ⟨y, hy, hyk, hyl⟩ := h.latest k b hb
    by_cases hba : b = a
    · subst hba
      obtain rfl : y = x := Option.some.inj (hy.symm.trans hx)
      exact ⟨x', by simp, hkey.trans hyk, hlatest.trans hyl⟩
    · exact ⟨y, by rw [Function.update_of_ne hba, hy], hyk, hyl⟩
  · intro b y hy hyl
    by_cases hba : b = a
    · subst hba
      obtain rfl : x' = y := by simpa using hy
      rw [hkey]
      exact h.index_eq b x hx (hlatest ▸ hyl)
    · rw [Function.update_of_ne hba] at hy
      exact h.index_eq b y hy hyl

/-- A new tuple that is not the latest. -/
theorem Indexed.alloc {o : Option (Tuple (Fin n) κ)} (h : Indexed heap index) (hb : heap b = none)
    (ho : ∀ z ∈ o, z.latest = false) : Indexed (Function.update heap b o) index := by
  refine ⟨?_, ?_⟩
  · intro k c hc
    obtain ⟨y, hy, hyk, hyl⟩ := h.latest k c hc
    refine ⟨y, ?_, hyk, hyl⟩
    rw [Function.update_of_ne, hy]
    rintro rfl
    rw [hb] at hy
    cases hy
  · intro c y hy hyl
    by_cases hcb : c = b
    · subst hcb
      rw [Function.update_self] at hy
      rw [ho y hy] at hyl
      cases hyl
    · rw [Function.update_of_ne hcb] at hy
      exact h.index_eq c y hy hyl

variable [DecidableEq κ]

theorem Indexed.insert (h : Indexed heap index) (ha : heap a = none) (hk : index k = none)
    (hkey : x.key = k) (hlatest : x.latest = true) :
    Indexed (Function.update heap a (some x)) (Function.update index k (some a)) := by
  refine ⟨?_, ?_⟩
  · intro k' c hc
    by_cases hkk : k' = k
    · subst hkk
      obtain rfl : a = c := by simpa using hc
      exact ⟨x, by simp, hkey, hlatest⟩
    · rw [Function.update_of_ne hkk] at hc
      obtain ⟨y, hy, hyk, hyl⟩ := h.latest k' c hc
      refine ⟨y, ?_, hyk, hyl⟩
      rw [Function.update_of_ne, hy]
      rintro rfl
      rw [ha] at hy
      cases hy
  · intro c y hy hyl
    by_cases hca : c = a
    · subst hca
      obtain rfl : x = y := by simpa using hy
      rw [hkey, Function.update_self]
    · rw [Function.update_of_ne hca] at hy
      have hy' := h.index_eq c y hy hyl
      rw [Function.update_of_ne, hy']
      rintro rfl
      rw [hk] at hy'
      cases hy'

theorem Indexed.remove (h : Indexed heap index) (hx : heap a = some x) (hlatest : x.latest = true)
    (hkey : x.key = k) (hx' : x'.latest = false) :
    Indexed (Function.update heap a (some x')) (Function.update index k none) := by
  refine ⟨?_, ?_⟩
  · intro k' c hc
    by_cases hkk : k' = k
    · subst hkk
      simp at hc
    · rw [Function.update_of_ne hkk] at hc
      obtain ⟨y, hy, hyk, hyl⟩ := h.latest k' c hc
      refine ⟨y, ?_, hyk, hyl⟩
      rw [Function.update_of_ne, hy]
      rintro rfl
      obtain rfl : y = x := Option.some.inj (hy.symm.trans hx)
      exact hkk (hyk.symm.trans hkey)
  · intro c y hy hyl
    by_cases hca : c = a
    · subst hca
      obtain rfl : x' = y := by simpa using hy
      rw [hx'] at hyl
      cases hyl
    · rw [Function.update_of_ne hca] at hy
      have hy' := h.index_eq c y hy hyl
      rw [Function.update_of_ne, hy']
      rintro hyk
      have := h.index_eq a x hx hlatest
      rw [hkey, ← hyk, hy'] at this
      exact hca (Option.some.inj this)

/-- One tuple takes the place of another. -/
theorem Indexed.replace (h : Indexed heap index) (hx : heap a = some x) (hlatest : x.latest = true)
    (hkey : x.key = k) (hx' : x'.latest = false) (hb : heap b = none) (hz : z.key = k)
    (hzl : z.latest = true) :
    Indexed (Function.update (Function.update heap b (some z)) a (some x'))
      (Function.update index k (some b)) := by
  have hba : b ≠ a := by
    rintro rfl
    rw [hx] at hb
    cases hb
  have hins := (h.remove hx hlatest hkey hx').insert (a := b) (k := k)
    (by rw [Function.update_of_ne hba, hb]) (by simp) hz hzl
  rw [Function.update_idem] at hins
  rw [Function.update_comm hba]
  exact hins

end Tree

/-! ## One tuple in a step -/

/-- What a step of `i` does to a tuple that is there; `tid` is the id of its transaction. -/
inductive TupleStep (i : Fin n) (tid : Option Nat) (x : Tuple (Fin n) κ) : Tuple (Fin n) κ → Prop
  | same : TupleStep i tid x x
  | locked (hown : x.lockOwner = none) (htid : tid = none) :
      TupleStep i tid x { x with lockOwner := some i }
  | unlocked (hown : x.lockOwner = some i) : TupleStep i tid x { x with lockOwner := none }
  | removed (hown : x.lockOwner = some i) (hv : x.version = maxTid) :
      TupleStep i tid x { x with latest := false, lockOwner := none }
  | replaced (hown : x.lockOwner = some i) (htid : tid.isSome) :
      TupleStep i tid x { x with latest := false }
  | written {y : Tuple (Fin n) κ} {t : Nat} (hown : x.lockOwner = some i) (htid : tid = some t)
      (hkey : y.key = x.key) (hown' : y.lockOwner = x.lockOwner) (hlatest : y.latest = x.latest)
      (hv : y.version = t) : TupleStep i tid x y

/-- What a new tuple is. -/
inductive NewTuple (i : Fin n) (heap : Heap (Fin n) κ) (tid : Option Nat) (x' : Tuple (Fin n) κ) :
    Prop
  | marker {k : κ} {v : Option Bytes} (h : x' = .allocFirst i k v) (htid : tid = none)
  | spill {a : Addr} {x : Tuple (Fin n) κ} (hx : heap a = some x) (hown : x'.lockOwner = none)
      (hlatest : x'.latest = false) (hv : x'.version = x.version)
  | replacement (hown : x'.lockOwner = none) (htid : tid = some x'.version)

section TupleStep

variable {heap : Heap (Fin n) κ} {i j : Fin n} {tid : Option Nat} {a b : Addr}
  {x x' y y' : Tuple (Fin n) κ}

theorem TupleStep.key_eq (h : TupleStep i tid x x') : x'.key = x.key := by
  cases h with
  | written _ _ hkey => exact hkey
  | _ => rfl

/-- A tuple of another thread stays as it is, and does not become one. -/
theorem TupleStep.eq_of_owner (h : TupleStep i tid x x') (hj : j ≠ i)
    (hown : x.lockOwner = some j ∨ x'.lockOwner = some j) : x' = x := by
  have hi : ∀ o : Option (Fin n), o = some i → o ≠ some j := by
    rintro o rfl heq
    exact hj (Option.some.inj heq).symm
  cases h with
  | same => rfl
  | locked h =>
      rcases hown with hown | hown
      · rw [h] at hown
        cases hown
      · exact absurd hown (hi _ rfl)
  | unlocked h =>
      rcases hown with hown | hown
      · exact absurd hown (hi _ h)
      · cases hown
  | removed h =>
      rcases hown with hown | hown
      · exact absurd hown (hi _ h)
      · cases hown
  | replaced h =>
      rcases hown with hown | hown <;> exact absurd hown (hi _ h)
  | written h _ _ h' =>
      rcases hown with hown | hown
      · exact absurd hown (hi _ h)
      · exact absurd hown (hi _ (h'.trans h))

theorem TupleStep.update (hx : heap a = some x) (hy : heap b = some y) (h : TupleStep i tid y y') :
    ∃ x', Function.update heap b (some y') a = some x' ∧ TupleStep i tid x x' := by
  by_cases hab : a = b
  · subst hab
    obtain rfl : y = x := Option.some.inj (hy.symm.trans hx)
    exact ⟨y', by simp, h⟩
  · exact ⟨x, by rw [Function.update_of_ne hab, hx], .same⟩

theorem update_of_alloc (hb : heap b = none) (hx : heap a = some x) (o : Option (Tuple (Fin n) κ)) :
    Function.update heap b o a = some x := by
  rw [Function.update_of_ne, hx]
  rintro rfl
  rw [hb] at hx
  cases hx

/-- A write, in place or not. -/
theorem writeRecordAt_tuple {snapshots : Bool} {t : Nat} {v : Option Bytes}
    (hown : y.lockOwner = some i) (htid : tid = some t) (hb : heap b = none) (hv : v ≠ some [])
    (hy : heap a = some y) :
    (∀ c x, heap c = some x → ∃ x', (y.writeRecordAt snapshots heap a b t v).1 c = some x'
      ∧ TupleStep i tid x x')
      ∧ ∀ c x', heap c = none → (y.writeRecordAt snapshots heap a b t v).1 c = some x' →
        NewTuple i heap tid x' := by
  obtain ⟨z, o, hheap, hz⟩ := Tuple.writeRecordAt_cases (a := a) (x := y) (t := t) snapshots hb hv
  rw [hheap]
  refine ⟨?_, ?_⟩
  · intro c x hx
    refine TupleStep.update (update_of_alloc hb hx o) (update_of_alloc hb hy o) ?_
    rcases hz with ⟨-, hz, -⟩ | ⟨-, rfl, -⟩
    · exact .written hown htid hz.key_eq hz.lockOwner_eq hz.latest_eq hz.version_eq
    · exact .replaced hown (by rw [htid]; rfl)
  · intro c x' hc hx'
    have hca : c ≠ a := by
      rintro rfl
      rw [hc] at hy
      cases hy
    rw [Function.update_of_ne hca] at hx'
    by_cases hcb : c = b
    · subst hcb
      rw [Function.update_self] at hx'
      subst hx'
      rcases hz with ⟨-, -, ho⟩ | ⟨-, -, z, hz, -, -, hown', hzv, -⟩
      · obtain ⟨-, hl, hown', hver⟩ := ho x' rfl
        exact .spill hy hown' hl hver
      · obtain rfl := Option.some.inj hz
        exact .replacement hown' (by rw [htid, hzv])
    · rw [Function.update_of_ne hcb, hc] at hx'
      cases hx'

end TupleStep

/-! ## The steps -/

section Steps

variable {cfg : Config} {s s' : State n κ} {i j : Fin n} {act : Action n κ}

theorem Whole.key {heap : Heap (Fin n) κ} {t : Transaction κ} {infos : List (WriteInfo κ)}
    (h : Whole t infos) (hl : Locks heap i infos) {w : WriteRecord κ} (hw : w ∈ t.writeSet) :
    ∃ x, heap w.tuple = some x ∧ x.key = w.key := by
  obtain ⟨p, hp⟩ := List.mem_iff_getElem?.mp hw
  obtain ⟨d, hd, rfl⟩ := h.infosOf.cover p w hp
  obtain ⟨u, hu, hut, huk, -⟩ := h.infosOf.mem d hd
  obtain rfl : u = w := Option.some.inj (hu.symm.trans hp)
  rw [hut, huk]
  exact hl.key d hd

/-- The thread at the end of a lock owns the tuple. -/
theorem Wf.owner (hwf : Wf s) {w : WriteInfo κ} (hw : w ∈ (s.pc i).infos (s.txn i))
    (hlocked : w.locked = true) {x : Tuple (Fin n) κ} (hx : s.heap w.tuple = some x) :
    x.lockOwner = some i ∧ x.key = w.key := by
  obtain ⟨y, hy, hkey, hown⟩ := (hwf.thread i).locks.owner hw hlocked
  obtain rfl : y = x := Option.some.inj (hy.symm.trans hx)
  exact ⟨hown, hkey⟩

/-- What the thread writes is its own and the latest. -/
theorem Wf.writing (hwf : Wf s) {tid : Nat} {infos : List (WriteInfo κ)} {w : WriteRecord κ}
    {rest : List (WriteRecord κ)} {x : Tuple (Fin n) κ}
    (hpc : s.pc i = .writing tid infos (w :: rest)) (hw : w.doWrite = true)
    (hx : s.heap w.tuple = some x) :
    x.lockOwner = some i ∧ x.latest = true ∧ x.key = w.key ∧ w.value ≠ some []
      ∧ (w.insert = true → x.version = maxTid) := by
  have hth := hwf.thread i
  rw [hpc] at hth
  obtain ⟨hl, hwhole, ⟨q, hq⟩, -, howned, htodo⟩ := hth
  have hmem : w ∈ (s.txn i).writeSet := List.mem_of_mem_drop (hq ▸ List.mem_cons_self)
  obtain ⟨y, hy, hown⟩ := howned w hmem
  obtain rfl : y = x := Option.some.inj (hy.symm.trans hx)
  obtain ⟨z, hz, hlatest, hins⟩ := htodo w (by simp) hw
  obtain rfl : z = y := Option.some.inj (hz.symm.trans hx)
  obtain ⟨u, hu, hkey⟩ := hwhole.key hl hmem
  obtain rfl : u = z := Option.some.inj (hu.symm.trans hx)
  exact ⟨hown, hlatest, hkey, hwhole.values w hmem, hins⟩

variable [DecidableEq κ]

/-- Places and transactions of the other threads. -/
theorem TxnStep.others (h : TxnStep cfg s i act s') (hj : j ≠ i) :
    s'.pc j = s.pc j ∧ s'.txn j = s.txn j := by
  cases h <;> simp [State.abortImpl, hj]

theorem TxnStep.tuple (hwf : Wf s) (h : TxnStep cfg s i act s') {a : Addr} {x : Tuple (Fin n) κ}
    (hx : s.heap a = some x) : ∃ x', s'.heap a = some x' ∧ TupleStep i (s.pc i).tid x x' := by
  cases h with
  | inserted hpc ha hk => exact ⟨x, update_of_alloc ha hx _, .same⟩
  | insertedChanged hpc ha hk => exact ⟨x, update_of_alloc ha hx _, .same⟩
  | lockLatest hpc hgroup hins hy hv hlock hlatest =>
      exact TupleStep.update hx hy (.locked hlock (by rw [hpc]; rfl))
  | lockStale hpc hins hy hv hlock =>
      exact TupleStep.update hx hy (.locked hlock (by rw [hpc]; rfl))
  | writeInsert hpc hw hins hy =>
      have hown := (hwf.writing hpc hw hy).1
      exact TupleStep.update hx hy (.written hown (by rw [hpc]; rfl) rfl rfl rfl rfl)
  | writeOver hpc hw hins hy hb hhead =>
      obtain ⟨hown, -, -, hv, -⟩ := hwf.writing hpc hw hy
      exact (writeRecordAt_tuple hown (by rw [hpc]; rfl) hb hv hy).1 a x hx
  | writeReplace hpc hw hins hy hb hhead =>
      obtain ⟨hown, -, -, hv, -⟩ := hwf.writing hpc hw hy
      exact (writeRecordAt_tuple hown (by rw [hpc]; rfl) hb hv hy).1 a x hx
  | unlockTuple hpc hw hy =>
      exact TupleStep.update hx hy
        (.unlocked (hwf.owner (by rw [hpc]; exact List.mem_cons_self) hw hy).1)
  | @cleanupInsert w rest y hpc hw hins hy =>
      have hown := (hwf.owner (by rw [hpc]; exact List.mem_cons_self) hw hy).1
      have hth := hwf.thread i
      rw [hpc] at hth
      obtain ⟨z, hz, -, hv⟩ := hth.place w (by simp) hins
      obtain rfl : z = y := Option.some.inj (hz.symm.trans hy)
      exact TupleStep.update hx hy (.removed hown hv)
  | cleanupTuple hpc hw hins hy =>
      exact TupleStep.update hx hy
        (.unlocked (hwf.owner (by rw [hpc]; exact List.mem_cons_self) hw hy).1)
  | _ => exact ⟨x, hx, .same⟩

theorem TxnStep.new (hwf : Wf s) (h : TxnStep cfg s i act s') {a : Addr} {x' : Tuple (Fin n) κ}
    (ha : s.heap a = none) (hx' : s'.heap a = some x') : NewTuple i s.heap (s.pc i).tid x' := by
  have hother : ∀ {b : Addr} {y y' : Tuple (Fin n) κ}, s.heap b = some y →
      Function.update s.heap b (some y') a ≠ some x' := by
    intro b y y' hy heq
    rw [Function.update_of_ne, ha] at heq
    · cases heq
    · rintro rfl
      rw [ha] at hy
      cases hy
  have hfresh : ∀ {b : Addr} {o : Option (Tuple (Fin n) κ)},
      Function.update s.heap b o a = some x' → o = some x' := by
    intro b o heq
    by_cases hab : a = b
    · subst hab
      simpa using heq
    · rw [Function.update_of_ne hab, ha] at heq
      cases heq
  cases h with
  | inserted hpc hb hk =>
      exact .marker (Option.some.inj (hfresh hx')).symm (by rw [hpc]; rfl)
  | insertedChanged hpc hb hk =>
      exact .marker (Option.some.inj (hfresh hx')).symm (by rw [hpc]; rfl)
  | lockLatest hpc hgroup hins hy hv hlock hlatest => exact absurd hx' (hother hy)
  | lockStale hpc hins hy hv hlock => exact absurd hx' (hother hy)
  | writeInsert hpc hw hins hy => exact absurd hx' (hother hy)
  | writeOver hpc hw hins hy hb hhead =>
      obtain ⟨hown, -, -, hv, -⟩ := hwf.writing hpc hw hy
      exact (writeRecordAt_tuple hown (by rw [hpc]; rfl) hb hv hy).2 a x' ha hx'
  | writeReplace hpc hw hins hy hb hhead =>
      obtain ⟨hown, -, -, hv, -⟩ := hwf.writing hpc hw hy
      exact (writeRecordAt_tuple hown (by rw [hpc]; rfl) hb hv hy).2 a x' ha hx'
  | unlockTuple hpc hw hy => exact absurd hx' (hother hy)
  | cleanupInsert hpc hw hins hy => exact absurd hx' (hother hy)
  | cleanupTuple hpc hw hins hy => exact absurd hx' (hother hy)
  | _ => cases ha.symm.trans hx'

theorem TxnStep.heapStep (hwf : Wf s) (h : TxnStep cfg s i act s') :
    HeapStep i s.heap s'.heap := by
  refine ⟨?_, ?_⟩
  · intro a x hx
    obtain ⟨x', hx', hstep⟩ := h.tuple hwf hx
    exact ⟨x', hx', hstep.key_eq, fun j hj hown => hstep.eq_of_owner hj hown⟩
  · intro a x' ha hx'
    cases h.new hwf ha hx' with
    | marker hm _ => exact .inr (by rw [hm]; rfl)
    | spill _ hown _ _ => exact .inl hown
    | replacement hown _ => exact .inl hown

theorem TxnStep.indexed (hwf : Wf s) (h : TxnStep cfg s i act s') :
    Indexed s'.heap s'.index := by
  have hidx := hwf.indexed
  cases h with
  | inserted hpc ha hk => exact hidx.insert ha hk rfl rfl
  | insertedChanged hpc ha hk => exact hidx.insert ha hk rfl rfl
  | lockLatest hpc hgroup hins hx hv hlock hlatest => exact hidx.update hx rfl rfl
  | lockStale hpc hins hx hv hlock => exact hidx.update hx rfl rfl
  | writeInsert hpc hw hins hx => exact hidx.update hx rfl rfl
  | @writeOver b tid infos w rest x hpc hw hins hx hb hhead =>
      obtain ⟨-, -, -, hv, -⟩ := hwf.writing hpc hw hx
      have hne : b ≠ w.tuple := by
        rintro rfl
        rw [hx] at hb
        cases hb
      obtain ⟨y, o, hheap, ⟨-, hy, ho⟩ | ⟨hhead', -⟩⟩ :=
        Tuple.writeRecordAt_cases (a := w.tuple) (x := x) (t := tid) cfg.snapshotsEnabled hb hv
      · simp only [hheap]
        refine (hidx.alloc hb fun z hz => (ho z hz).2.1).update (x := x) ?_ hy.key_eq hy.latest_eq
        rw [Function.update_of_ne (Ne.symm hne), hx]
      · exact absurd (hhead'.symm.trans hhead) hne
  | @writeReplace b tid infos w rest x hpc hw hins hx hb hhead =>
      obtain ⟨-, hlatest, hkey, hv, -⟩ := hwf.writing hpc hw hx
      obtain ⟨y, o, hheap, ⟨hhead', -⟩ | ⟨hhead', rfl, z, rfl, hz, hzl, -⟩⟩ :=
        Tuple.writeRecordAt_cases (a := w.tuple) (x := x) (t := tid) cfg.snapshotsEnabled hb hv
      · exact absurd hhead' hhead
      · simp only [hheap, hhead']
        exact hidx.replace hx hlatest hkey rfl hb (hz.trans hkey) hzl
  | unlockTuple hpc hw hx => exact hidx.update hx rfl rfl
  | @cleanupInsert w rest x hpc hw hins hx =>
      have hth := hwf.thread i
      rw [hpc] at hth
      obtain ⟨y, hy, hlatest, -⟩ := hth.place w (by simp) hins
      obtain rfl : y = x := Option.some.inj (hy.symm.trans hx)
      have hkey := (hwf.owner (by rw [hpc]; exact List.mem_cons_self) hw hx).2
      exact hidx.remove hx hlatest hkey rfl
  | cleanupTuple hpc hw hins hx => exact hidx.update hx rfl rfl
  | _ => exact hidx

end Steps

end TailBench.Silo.Proto2
