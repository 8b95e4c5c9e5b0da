import TailBench.Silo.TransactionSteps

set_option autoImplicit false

/-! # The write set and the order of the locks

`commit` sorts the entries of the write set by tuple, inserts first, then by position, and goes
through the groups of one tuple each. What the loop leaves (`MarkedBy`): of the entries of a tuple
the insert and the last one are marked to be written, and no others. Writing these is writing all of
them (`store_filter_doWrite`).
-/

namespace TailBench.Silo.Proto2

open Lib

variable {κ : Type*}

/-! ## The infos of a write set -/

/-- No entry behind `p` is about the tuple. -/
def IsLast (ws : List (WriteRecord κ)) (p : Nat) (a : Addr) : Prop :=
  ∀ (q : Nat) (u : WriteRecord κ), p < q → ws[q]? = some u → u.tuple ≠ a

/-- A tuple is inserted before it is written again. -/
def InsertFirst (ws : List (WriteRecord κ)) : Prop :=
  ∀ (p q : Nat) (w u : WriteRecord κ), ws[p]? = some w → ws[q]? = some u → w.insert = true →
    u.tuple = w.tuple → p ≤ q

/-- One info for each entry, whatever the locks. -/
structure InfosOf (ws : List (WriteRecord κ)) (infos : List (WriteInfo κ)) : Prop where
  mem : ∀ d ∈ infos, ∃ w, ws[d.pos]? = some w ∧ w.tuple = d.tuple ∧ w.key = d.key
    ∧ w.insert = d.insert
  cover : ∀ (p : Nat) (w : WriteRecord κ), ws[p]? = some w → ∃ d ∈ infos, d.pos = p
  nodup : (infos.map (·.pos)).Nodup

/-- The entries marked are the inserts and the last entries of a tuple among those done. -/
def MarkedBy (done : List (WriteInfo κ)) (ws : List (WriteRecord κ)) : Prop :=
  ∀ (p : Nat) (w : WriteRecord κ), ws[p]? = some w →
    (w.doWrite = true ↔ (∃ d ∈ done, d.pos = p) ∧ (w.insert = true ∨ IsLast ws p w.tuple))

/-- All entries are done. -/
def Marked (ws : List (WriteRecord κ)) : Prop :=
  ∀ (p : Nat) (w : WriteRecord κ), ws[p]? = some w →
    (w.doWrite = true ↔ w.insert = true ∨ IsLast ws p w.tuple)

/-- The positions of the write set in a list that keeps them. -/
def SameEntry (w u : WriteRecord κ) : Prop :=
  w.tuple = u.tuple ∧ w.key = u.key ∧ w.value = u.value ∧ w.insert = u.insert

section Infos

variable {ws : List (WriteRecord κ)} {infos infos' done rest : List (WriteInfo κ)} {it : WriteInfo κ}

theorem infosOf_writeInfos (t : Transaction κ) : InfosOf t.writeSet t.writeInfos := by
  have hpos : t.writeInfos.map (·.pos) = List.range t.writeSet.length := by
    apply List.ext_getElem?
    intro p
    simp only [Transaction.writeInfos, List.getElem?_map, List.getElem?_mapIdx, Option.map_map]
    rcases lt_or_ge p t.writeSet.length with h | h
    · simp [h]
    · simp [h]
  refine ⟨?_, ?_, ?_⟩
  · intro d hd
    obtain ⟨p, hp, rfl⟩ := List.mem_mapIdx.mp hd
    exact ⟨t.writeSet[p], by simp [hp], rfl, rfl, rfl⟩
  · intro p w hw
    have hmem : p ∈ t.writeInfos.map (·.pos) := by
      rw [hpos, List.mem_range]
      exact (List.getElem?_eq_some_iff.mp hw).1
    obtain ⟨d, hd, hdp⟩ := List.mem_map.mp hmem
    exact ⟨d, hd, hdp⟩
  · rw [hpos]
    exact List.nodup_range

theorem InfosOf.perm (h : InfosOf ws infos) (hp : infos'.Perm infos) : InfosOf ws infos' := by
  refine ⟨fun d hd => h.mem d (hp.mem_iff.mp hd), ?_, (hp.map _).nodup_iff.mpr h.nodup⟩
  intro p w hw
  obtain ⟨d, hd, hdp⟩ := h.cover p w hw
  exact ⟨d, hp.mem_iff.mpr hd, hdp⟩

/-- A lock is noted in an info. -/
theorem InfosOf.setLocked (h : InfosOf ws (done ++ it :: rest)) (b : Bool) :
    InfosOf ws (done ++ { it with locked := b } :: rest) := by
  refine ⟨?_, ?_, ?_⟩
  · intro d hd
    rcases List.mem_append.mp hd with hd | hd
    · exact h.mem d (List.mem_append_left _ hd)
    rcases List.mem_cons.mp hd with rfl | hd
    · exact h.mem it (by simp)
    · exact h.mem d (by simp [hd])
  · intro p w hw
    obtain ⟨d, hd, hdp⟩ := h.cover p w hw
    rcases List.mem_append.mp hd with hd | hd
    · exact ⟨d, List.mem_append_left _ hd, hdp⟩
    rcases List.mem_cons.mp hd with rfl | hd
    · exact ⟨{ d with locked := b }, by simp, hdp⟩
    · exact ⟨d, by simp [hd], hdp⟩
  · simpa using h.nodup

section Sorted

variable (hinfos : InfosOf ws (done ++ it :: rest))
  (hsorted : (done ++ it :: rest).Pairwise WriteInfo.le) (hfirst : InsertFirst ws)

include hsorted in
theorem le_of_mem_done {d : WriteInfo κ} (hd : d ∈ done) : d.le it :=
  (List.pairwise_append.mp hsorted).2.2 d hd it (by simp)

include hsorted in
theorem le_of_mem_rest {d : WriteInfo κ} (hd : d ∈ rest) : it.le d :=
  (List.pairwise_cons.mp (List.pairwise_append.mp hsorted).2.1).1 d hd

include hsorted in
/-- Behind the end of a group there are only larger tuples. -/
theorem lt_of_mem_rest (hgroup : rest.head?.map (·.tuple) ≠ some it.tuple) {d : WriteInfo κ}
    (hd : d ∈ rest) : it.tuple < d.tuple := by
  have htail := (List.pairwise_append.mp hsorted).2.1
  cases rest with
  | nil => simp at hd
  | cons h rest =>
      simp only [List.head?_cons, Option.map_some, ne_eq, Option.some.injEq] at hgroup
      obtain ⟨hit, hrest⟩ := List.pairwise_cons.mp htail
      have hlt : it.tuple < h.tuple := by
        rcases hit h (by simp) with hlt | ⟨heq, -⟩
        · exact hlt
        · exact absurd heq.symm hgroup
      rcases List.mem_cons.mp hd with rfl | hd
      · exact hlt
      · rcases (List.pairwise_cons.mp hrest).1 d hd with h' | ⟨h', -⟩
        · exact hlt.trans h'
        · exact h' ▸ hlt

include hinfos hsorted hfirst in
/-- The last info of a group is that of the last entry of its tuple. -/
theorem isLast_of_group (hgroup : rest.head?.map (·.tuple) ≠ some it.tuple) :
    IsLast ws it.pos it.tuple := by
  intro q u hq hu heq
  obtain ⟨d, hd, rfl⟩ := hinfos.cover q u hu
  obtain ⟨w, hw, hwt, -, hwi⟩ := hinfos.mem it (by simp)
  obtain ⟨u', hu', hut, -, hui⟩ := hinfos.mem d hd
  obtain rfl : u' = u := Option.some.inj (hu'.symm.trans hu)
  have hdt : d.tuple = it.tuple := hut.symm.trans heq
  rcases List.mem_append.mp hd with hd | hd
  · rcases le_of_mem_done hsorted hd with hlt | ⟨-, ⟨hins, -⟩ | ⟨-, hle⟩⟩
    · exact hlt.ne hdt
    · have := hfirst d.pos it.pos u' w hu hw (hui.trans hins) (hwt.trans heq.symm)
      omega
    · omega
  · rcases List.mem_cons.mp hd with rfl | hd
    · omega
    · exact (lt_of_mem_rest hsorted hgroup hd).ne hdt.symm

include hinfos hsorted hfirst in
/-- An info that is followed by one of its tuple is not the last. -/
theorem not_isLast_of_group (hgroup : rest.head?.map (·.tuple) = some it.tuple) :
    ¬ IsLast ws it.pos it.tuple := by
  intro hlast
  cases rest with
  | nil => simp at hgroup
  | cons d rest =>
      simp only [List.head?_cons, Option.map_some, Option.some.injEq] at hgroup
      obtain ⟨w, hw, hwt, -, hwi⟩ := hinfos.mem it (by simp)
      obtain ⟨u, hu, hut, -, hui⟩ := hinfos.mem d (by simp)
      have hne : it.pos ≠ d.pos := by
        have hnodup := hinfos.nodup
        simp only [List.map_append, List.map_cons] at hnodup
        have := (List.nodup_cons.mp (List.nodup_append.mp hnodup).2.1).1
        simp only [List.mem_cons, not_or] at this
        exact this.1
      have hle : it.pos ≤ d.pos := by
        rcases le_of_mem_rest hsorted (d := d) (by simp) with hlt | ⟨-, ⟨hins, -⟩ | ⟨-, hle⟩⟩
        · exact absurd hgroup.symm hlt.ne
        · exact hfirst it.pos d.pos w u hw hu (hwi.trans hins)
            (hut.trans (hgroup.trans hwt.symm))
        · exact hle
      exact hlast d.pos u (by omega) hu (hut.trans hgroup)

end Sorted

end Infos

/-! ## Marking -/

section Marking

variable {t : Transaction κ} {done rest : List (WriteInfo κ)} {it : WriteInfo κ} {p : Nat}

theorem setDoWrite_getElem? (t : Transaction κ) (pos p : Nat) :
    (t.setDoWrite pos).writeSet[p]?
      = t.writeSet[p]?.map fun w => if pos = p then { w with doWrite := true } else w := by
  rw [Transaction.setDoWrite, List.getElem?_modify]
  rfl

/-- Marks change nothing else of the entries. -/
theorem setDoWrite_entry {pos : Nat} {w : WriteRecord κ}
    (h : (t.setDoWrite pos).writeSet[p]? = some w) :
    ∃ u, t.writeSet[p]? = some u ∧ SameEntry w u := by
  rw [setDoWrite_getElem?, Option.map_eq_some_iff] at h
  obtain ⟨u, hu, rfl⟩ := h
  refine ⟨u, hu, ?_⟩
  split <;> exact ⟨rfl, rfl, rfl, rfl⟩

theorem entry_setDoWrite {u : WriteRecord κ} (pos : Nat) (h : t.writeSet[p]? = some u) :
    ∃ w, (t.setDoWrite pos).writeSet[p]? = some w ∧ SameEntry w u := by
  refine ⟨_, by rw [setDoWrite_getElem?, h]; rfl, ?_⟩
  split <;> exact ⟨rfl, rfl, rfl, rfl⟩

theorem isLast_setDoWrite {pos : Nat} {a : Addr} :
    IsLast (t.setDoWrite pos).writeSet p a ↔ IsLast t.writeSet p a := by
  constructor
  · intro h q u hq hu
    obtain ⟨w, hw, hsame⟩ := entry_setDoWrite pos hu
    rw [← hsame.1]
    exact h q w hq hw
  · intro h q w hq hw
    obtain ⟨u, hu, hsame⟩ := setDoWrite_entry hw
    rw [hsame.1]
    exact h q u hq hu

theorem InsertFirst.setDoWrite (h : InsertFirst t.writeSet) (pos : Nat) :
    InsertFirst (t.setDoWrite pos).writeSet := by
  intro p q w u hw hu hins heq
  obtain ⟨w', hw', hsame⟩ := setDoWrite_entry hw
  obtain ⟨u', hu', hsame'⟩ := setDoWrite_entry hu
  exact h p q w' u' hw' hu' (hsame.2.2.2 ▸ hins) (by rw [← hsame'.1, ← hsame.1, heq])

theorem InfosOf.setDoWrite {infos : List (WriteInfo κ)} (h : InfosOf t.writeSet infos) (pos : Nat) :
    InfosOf (t.setDoWrite pos).writeSet infos := by
  refine ⟨?_, ?_, h.nodup⟩
  · intro d hd
    obtain ⟨u, hu, htuple, hkey, hins⟩ := h.mem d hd
    obtain ⟨w, hw, h₁, h₂, -, h₃⟩ := entry_setDoWrite pos hu
    exact ⟨w, hw, h₁.trans htuple, h₂.trans hkey, h₃.trans hins⟩
  · intro p w hw
    obtain ⟨u, hu, -⟩ := setDoWrite_entry hw
    exact h.cover p u hu

/-- An entry that is neither an insert nor the last of its tuple is passed over. -/
theorem MarkedBy.pass (h : MarkedBy done t.writeSet)
    (hit : ∀ w, t.writeSet[it.pos]? = some w →
      w.insert = false ∧ ¬ IsLast t.writeSet it.pos w.tuple) :
    MarkedBy (done ++ [it]) t.writeSet := by
  intro p w hw
  rw [h p w hw]
  simp only [List.mem_append, List.mem_singleton]
  constructor
  · rintro ⟨⟨d, hd, hdp⟩, hor⟩
    exact ⟨⟨d, .inl hd, hdp⟩, hor⟩
  · rintro ⟨⟨d, hd | rfl, hdp⟩, hor⟩
    · exact ⟨⟨d, hd, hdp⟩, hor⟩
    · subst hdp
      obtain ⟨hins, hlast⟩ := hit w hw
      rcases hor with hor | hor
      · rw [hins] at hor
        cases hor
      · exact absurd hor hlast

theorem MarkedBy.mark (h : MarkedBy done t.writeSet)
    (hit : ∀ w, t.writeSet[it.pos]? = some w → w.insert = true ∨ IsLast t.writeSet it.pos w.tuple)
    (it' : WriteInfo κ) (hpos : it'.pos = it.pos) :
    MarkedBy (done ++ [it']) (t.setDoWrite it.pos).writeSet := by
  intro p w hw
  rw [setDoWrite_getElem?, Option.map_eq_some_iff] at hw
  obtain ⟨u, hu, rfl⟩ := hw
  by_cases hp : it.pos = p
  · subst hp
    refine ⟨fun _ => ⟨⟨it', by simp, hpos⟩, ?_⟩, fun _ => by simp⟩
    rw [if_pos rfl]
    rcases hit u hu with hins | hlast
    · exact .inl hins
    · exact .inr (isLast_setDoWrite.mpr hlast)
  · rw [if_neg hp, h p u hu, isLast_setDoWrite]
    simp only [List.mem_append, List.mem_singleton]
    constructor
    · rintro ⟨⟨d, hd, hdp⟩, hor⟩
      exact ⟨⟨d, .inl hd, hdp⟩, hor⟩
    · rintro ⟨⟨d, hd | rfl, hdp⟩, hor⟩
      · exact ⟨⟨d, hd, hdp⟩, hor⟩
      · exact absurd (hpos.symm.trans hdp) hp

theorem MarkedBy.marked {ws : List (WriteRecord κ)} (h : MarkedBy done ws) (hinfos : InfosOf ws done) :
    Marked ws := by
  intro p w hw
  rw [h p w hw]
  exact ⟨fun hor => hor.2, fun hor => ⟨hinfos.cover p w hw, hor⟩⟩

end Marking

/-! ## Writing the marked entries -/

section Store

/-- The entries as the ledger has them. -/
def stores (ws : List (WriteRecord κ)) : List (κ × Option Bytes) := ws.map fun w => (w.key, w.value)

theorem writes_eq (t : Transaction κ) : t.writes = stores t.writeSet := rfl

theorem map_fst_stores (ws : List (WriteRecord κ)) : (stores ws).map Prod.fst = ws.map (·.key) := by
  rw [stores, List.map_map]
  rfl

variable [DecidableEq κ]

/-- One key: its last entry decides. -/
theorem store_filter_key {ws : List (WriteRecord κ)} (m : κ → Option Bytes) (k : κ)
    (h : ∀ (p : Nat) (w : WriteRecord κ), ws[p]? = some w → w.key = k →
      (∀ (q : Nat) (u : WriteRecord κ), p < q → ws[q]? = some u → u.key ≠ k) → w.doWrite = true) :
    Txn.store m (stores (ws.filter (·.doWrite))) k = Txn.store m (stores ws) k := by
  induction ws using List.reverseRecOn with
  | nil => rfl
  | append_singleton ws w ih =>
      have hstores : stores (ws ++ [w]) = stores ws ++ [(w.key, w.value)] := by simp [stores]
      rw [hstores, Txn.store_append, List.filter_append]
      by_cases hk : w.key = k
      · have hdo : w.doWrite = true := by
          refine h ws.length w (by simp) hk ?_
          intro q u hq hu
          have := (List.getElem?_eq_some_iff.mp hu).1
          simp at this
          omega
        rw [List.filter_cons_of_pos hdo]
        subst hk
        simp [stores, Txn.store]
      · have htail : Txn.store m (stores (ws.filter (·.doWrite))) k = Txn.store m (stores ws) k := by
          refine ih ?_
          intro p u hu huk hlast
          have hlt := (List.getElem?_eq_some_iff.mp hu).1
          refine h p u (by rw [List.getElem?_append_left hlt]; exact hu) huk ?_
          intro q v hq hv hvk
          rcases lt_or_ge q ws.length with hqlt | hqge
          · rw [List.getElem?_append_left hqlt] at hv
            exact hlast q v hq hv hvk
          · rw [List.getElem?_append_right hqge, List.getElem?_singleton] at hv
            split at hv
            · obtain rfl := Option.some.inj hv
              exact hk hvk
            · cases hv
        have hlast : ∀ m : κ → Option Bytes, Txn.store m [(w.key, w.value)] k = m k := by
          intro m
          exact Function.update_of_ne (Ne.symm hk) _ _
        rw [hlast, ← htail]
        by_cases hdo : w.doWrite = true
        · rw [List.filter_cons_of_pos hdo, stores, List.map_append, Txn.store_append]
          exact hlast _
        · rw [List.filter_cons_of_neg hdo, List.filter_nil, List.append_nil]

/-- **The marked entries have the effect of all of them.** -/
theorem store_filter_doWrite {ws : List (WriteRecord κ)} (hmarked : Marked ws)
    (hkeys : ∀ u ∈ ws, ∀ w ∈ ws, u.tuple = w.tuple → u.key = w.key) (m : κ → Option Bytes) :
    Txn.store m (stores (ws.filter (·.doWrite))) = Txn.store m (stores ws) := by
  funext k
  refine store_filter_key m k ?_
  intro p w hw hwk hlast
  refine (hmarked p w hw).mpr (.inr ?_)
  intro q u hq hu hut
  -- an entry of the same tuple is one of the same key
  exact hlast q u hq hu ((hkeys u (List.mem_of_getElem? hu) w (List.mem_of_getElem? hw) hut).trans hwk)

/-- Every key has an entry that is marked. -/
theorem mem_filter_doWrite {ws : List (WriteRecord κ)} (hmarked : Marked ws)
    (hkeys : ∀ u ∈ ws, ∀ w ∈ ws, u.tuple = w.tuple → u.key = w.key) {k : κ}
    (hk : k ∈ (stores ws).map Prod.fst) : k ∈ (stores (ws.filter (·.doWrite))).map Prod.fst := by
  by_contra hnot
  -- otherwise the key would keep what was there
  have hsame : ∀ v : Option Bytes, Txn.store (fun _ => v) (stores ws) k = v := by
    intro v
    rw [← store_filter_doWrite hmarked hkeys, Txn.store_of_notMem hnot]
  have hany : Txn.store (fun _ => none) (stores ws) k
      = Txn.store (fun _ => some []) (stores ws) k := Txn.store_of_mem hk
  rw [hsame, hsame] at hany
  cases hany

end Store

end TailBench.Silo.Proto2
