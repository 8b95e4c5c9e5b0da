import TailBench.Silo.WriteLockSteps

set_option autoImplicit false

/-! # Every run keeps the locks

The invariants of `WriteLocks` for the thread that takes a step, place by place, and with
`ThreadWf.stable` for all threads in every run (`silo_wf`).
-/

namespace TailBench.Silo.Proto2

open Lib

variable {n : Nat} {κ : Type*}

/-! ## The write set grows -/

section WriteSet

variable {heap : Heap (Fin n) κ} {i : Fin n} {t t' : Transaction κ} {u : WriteRecord κ}
  {infos done rest : List (WriteInfo κ)} {it : WriteInfo κ}

theorem Whole.of_active (h : Active heap t) : Whole t t.writeInfos :=
  ⟨infosOf_writeInfos t, h.first, h.values⟩

theorem Whole.setDoWrite (h : Whole t infos) (pos : Nat) : Whole (t.setDoWrite pos) infos := by
  refine ⟨h.infosOf.setDoWrite pos, h.first.setDoWrite pos, ?_⟩
  intro w hw
  obtain ⟨p, hp⟩ := List.mem_iff_getElem?.mp hw
  obtain ⟨u, hu, -, -, hvalue, -⟩ := setDoWrite_entry hp
  rw [hvalue]
  exact h.values u (List.mem_of_getElem? hu)

/-- A new entry that is an insert only if its tuple is new. -/
theorem InsertFirst.concat (h : InsertFirst t.writeSet)
    (hu : u.insert = true → ∀ w ∈ t.writeSet, w.tuple ≠ u.tuple) :
    InsertFirst (t.writeSet ++ [u]) := by
  intro p q w v hw hv hins heq
  have hp := (List.getElem?_eq_some_iff.mp hw).1
  have hq := (List.getElem?_eq_some_iff.mp hv).1
  simp only [List.length_append, List.length_singleton] at hp hq
  by_cases hpl : p < t.writeSet.length
  · by_cases hql : q < t.writeSet.length
    · rw [List.getElem?_append_left hpl] at hw
      rw [List.getElem?_append_left hql] at hv
      exact h p q w v hw hv hins heq
    · omega
  · obtain rfl : p = t.writeSet.length := by omega
    obtain rfl : u = w := by simpa using hw
    by_cases hql : q < t.writeSet.length
    · rw [List.getElem?_append_left hql] at hv
      exact absurd heq (hu hins v (List.mem_of_getElem? hv))
    · omega

/-- An entry is added; the marker of an insert is there. -/
theorem Active.concat (h : Active heap t) {heap' : Heap (Fin n) κ}
    (hws : t'.writeSet = t.writeSet ++ [u]) (hvalue : u.value ≠ some []) (hdo : u.doWrite = false)
    (hnew : u.insert = true → ∀ w ∈ t.writeSet, w.tuple ≠ u.tuple)
    (hmarkers : Markers heap' t.writeInfos)
    (hmarker : u.insert = true →
      ∃ x, heap' u.tuple = some x ∧ x.latest = true ∧ x.version = maxTid) : Active heap' t' := by
  refine ⟨?_, ?_, ?_, ?_⟩
  · rw [hws]
    exact h.first.concat hnew
  · intro w hw
    rw [hws] at hw
    rcases List.mem_append.mp hw with hw | hw
    · exact h.values w hw
    · obtain rfl := List.mem_singleton.mp hw
      exact hvalue
  · intro w hw
    rw [hws] at hw
    rcases List.mem_append.mp hw with hw | hw
    · exact h.unmarked w hw
    · obtain rfl := List.mem_singleton.mp hw
      exact hdo
  · rw [writeInfos_concat t u t' hws]
    intro w hw hins
    rcases List.mem_append.mp hw with hw | hw
    · exact hmarkers w hw hins
    · obtain rfl := List.mem_singleton.mp hw
      exact hmarker hins

end WriteSet

/-! ## The locking loop -/

section Loop

variable {heap : Heap (Fin n) κ} {i : Fin n} {t : Transaction κ} {inserted : Bool}
  {done rest : List (WriteInfo κ)} {it : WriteInfo κ}

instance : Std.Total (WriteInfo.le : WriteInfo κ → WriteInfo κ → Prop) where
  total x y := by
    rcases Nat.lt_trichotomy x.tuple y.tuple with h | h | h
    · exact .inl (.inl h)
    · cases hx : x.insert <;> cases hy : y.insert
      · rcases Nat.le_total x.pos y.pos with hp | hp
        · exact .inl (.inr ⟨h, .inr ⟨by rw [hx, hy], hp⟩⟩)
        · exact .inr (.inr ⟨h.symm, .inr ⟨by rw [hx, hy], hp⟩⟩)
      · exact .inr (.inr ⟨h.symm, .inl ⟨hy, hx⟩⟩)
      · exact .inl (.inr ⟨h, .inl ⟨hx, hy⟩⟩)
      · rcases Nat.le_total x.pos y.pos with hp | hp
        · exact .inl (.inr ⟨h, .inr ⟨by rw [hx, hy], hp⟩⟩)
        · exact .inr (.inr ⟨h.symm, .inr ⟨by rw [hx, hy], hp⟩⟩)
    · exact .inr (.inl h)

instance : IsTrans (WriteInfo κ) WriteInfo.le where
  trans x y z := by
    rintro (hxy | ⟨hxy, h⟩) (hyz | ⟨hyz, h'⟩)
    · exact .inl (hxy.trans hyz)
    · exact .inl (hyz ▸ hxy)
    · exact .inl (hxy ▸ hyz)
    · refine .inr ⟨hxy.trans hyz, ?_⟩
      rcases h with ⟨hx, hy⟩ | ⟨hx, hp⟩ <;> rcases h' with ⟨hy', hz⟩ | ⟨hy', hp'⟩
      · exact .inl ⟨hx, hz⟩
      · exact .inl ⟨hx, hy'.symm.trans hy⟩
      · exact .inl ⟨hx.trans hy', hz⟩
      · exact .inr ⟨hx.trans hy', hp.trans hp'⟩

/-- Nothing is done yet. -/
theorem Locking.start (h : Active heap t) (hne : t.writeSet ≠ []) :
    Locking heap i t false [] (t.writeInfos.insertionSort WriteInfo.le) := by
  refine ⟨?_, ?_, ?_, ?_, hne⟩
  · rw [List.nil_append]
    exact List.pairwise_insertionSort _ _
  · intro p w hw
    rw [h.unmarked w (List.mem_of_getElem? hw)]
    simp
  · simp
  · simp

/-- A tuple in the group of an insert is held. -/
theorem Held.of_marker {infos : List (WriteInfo κ)} (hl : Locks heap i infos)
    (hm : Markers heap infos) {w : WriteInfo κ} (hw : w ∈ infos) (hins : w.insert = true) :
    Held heap i w.tuple := by
  obtain ⟨x, hx, hlatest, -⟩ := hm w hw hins
  obtain ⟨y, hy, -, hown⟩ := hl.owner hw (hl.insert_locked w hw hins)
  obtain rfl : y = x := Option.some.inj (hy.symm.trans hx)
  exact ⟨y, hx, hown, hlatest⟩

variable (hwhole : Whole t (done ++ it :: rest)) (h : Locking heap i t inserted done (it :: rest))

include hwhole

theorem Whole.entry {w : WriteRecord κ} (hw : t.writeSet[it.pos]? = some w) :
    w.tuple = it.tuple ∧ w.insert = it.insert := by
  obtain ⟨u, hu, htuple, -, hins⟩ := hwhole.infosOf.mem it (by simp)
  obtain rfl : u = w := Option.some.inj (hu.symm.trans hw)
  exact ⟨htuple, hins⟩

include h

/-- In the middle of a group. -/
theorem Locking.next (hgroup : rest.head?.map (·.tuple) = some it.tuple) :
    Locking heap i (if it.insert then t.setDoWrite it.pos else t) (inserted || it.insert)
      (done ++ [it]) rest := by
  have hnot := not_isLast_of_group hwhole.infosOf h.sorted hwhole.first hgroup
  refine ⟨?_, ?_, ?_, ?_, ?_⟩
  · rw [List.append_assoc, List.singleton_append]
    exact h.sorted
  · by_cases hins : it.insert = true
    · rw [if_pos hins]
      exact h.marked.mark (fun w hw => .inl ((hwhole.entry hw).2.trans hins)) it rfl
    · rw [if_neg hins]
      refine h.marked.pass fun w hw => ?_
      obtain ⟨htuple, hwi⟩ := hwhole.entry hw
      rw [htuple, hwi]
      exact ⟨by simpa using hins, hnot⟩
  · rw [Bool.or_eq_true, h.group]
    simp only [List.head?_cons, Option.map_some, List.mem_append, List.mem_singleton, hgroup]
    constructor
    · rintro (⟨w, hw, hins, heq⟩ | hins)
      · exact ⟨w, .inl hw, hins, heq⟩
      · exact ⟨it, .inr rfl, hins, rfl⟩
    · rintro ⟨w, hw | rfl, hins, heq⟩
      · exact .inl ⟨w, hw, hins, heq⟩
      · exact .inr hins
  · obtain ⟨d, hd, hdt⟩ : ∃ d ∈ rest, d.tuple = it.tuple := by
      obtain ⟨d, hd, hdt⟩ := Option.map_eq_some_iff.mp hgroup
      exact ⟨d, List.mem_of_mem_head? hd, hdt⟩
    intro w hw hlast
    rcases List.mem_append.mp hw with hw | hw
    · refine h.held w hw fun d' hd' => ?_
      rcases List.mem_cons.mp hd' with rfl | hd'
      · rw [← hdt]
        exact hlast d hd
      · exact hlast d' hd'
    · obtain rfl := List.mem_singleton.mp hw
      exact absurd hdt (hlast d hd)
  · split
    · intro hnil
      refine h.nonempty ?_
      rw [Transaction.setDoWrite] at hnil
      simpa using hnil
    · exact h.nonempty

/-- At the end of a group, when its tuple is held; `it'` is the info with the lock noted. -/
theorem Locking.last (hgroup : rest.head?.map (·.tuple) ≠ some it.tuple) {heap' : Heap (Fin n) κ}
    (it' : WriteInfo κ) (hpos : it'.pos = it.pos) (htuple : it'.tuple = it.tuple)
    (hinsert : it'.insert = it.insert) (hit : Held heap' i it.tuple)
    (hheld : ∀ a, a ≠ it.tuple → Held heap i a → Held heap' i a) :
    Locking heap' i (t.setDoWrite it.pos) false (done ++ [it']) rest := by
  have hlast := isLast_of_group hwhole.infosOf h.sorted hwhole.first hgroup
  have hle : ∀ d, it.le d ↔ it'.le d := by
    intro d
    rw [WriteInfo.le, WriteInfo.le, hpos, htuple, hinsert]
  have hge : ∀ d : WriteInfo κ, d.le it ↔ d.le it' := by
    intro d
    rw [WriteInfo.le, WriteInfo.le, hpos, htuple, hinsert]
  refine ⟨?_, ?_, ?_, ?_, ?_⟩
  · rw [List.append_assoc, List.singleton_append]
    obtain ⟨hdone, htail, hcross⟩ := List.pairwise_append.mp h.sorted
    obtain ⟨hit, hrest⟩ := List.pairwise_cons.mp htail
    refine List.pairwise_append.mpr ⟨hdone, List.pairwise_cons.mpr ⟨?_, hrest⟩, ?_⟩
    · exact fun d hd => (hle d).mp (hit d hd)
    · intro d hd e he
      rcases List.mem_cons.mp he with rfl | he
      · exact (hge d).mp (hcross d hd it (by simp))
      · exact hcross d hd e (by simp [he])
  · exact h.marked.mark (fun w hw => .inr ((hwhole.entry hw).1 ▸ hlast)) it' hpos
  · -- what follows is a larger tuple than all that is done
    simp only [Bool.false_eq_true, false_iff, not_exists, not_and]
    intro w hw hins heq
    obtain ⟨d, hd, hdt⟩ := Option.map_eq_some_iff.mp heq
    have hlt := lt_of_mem_rest h.sorted hgroup (List.mem_of_mem_head? hd)
    rcases List.mem_append.mp hw with hw | hw
    · rcases le_of_mem_done h.sorted hw with hlt' | ⟨heq', -⟩
      · exact (hlt'.trans hlt).ne hdt.symm
      · exact hlt.ne (heq'.symm.trans hdt.symm)
    · obtain rfl := List.mem_singleton.mp hw
      exact hlt.ne (htuple.symm.trans hdt.symm)
  · intro w hw hrest
    by_cases hwt : w.tuple = it.tuple
    · rw [hwt]
      exact hit
    · rcases List.mem_append.mp hw with hw | hw
      · refine hheld _ hwt (h.held w hw fun d hd => ?_)
        rcases List.mem_cons.mp hd with rfl | hd
        · exact Ne.symm hwt
        · exact hrest d hd
      · obtain rfl := List.mem_singleton.mp hw
        exact absurd htuple hwt
  · intro hnil
    refine h.nonempty ?_
    rw [Transaction.setDoWrite] at hnil
    simpa using hnil

end Loop

/-! ## The thread that takes the step -/

section Own

variable {cfg : Config} {s s' : State n κ} {i : Fin n} {act : Action n κ}

/-- A write to the tuple of `w`: the infos are kept, and what is behind `w` as well. -/
theorem ThreadWf.write {heap heap' : Heap (Fin n) κ} {t : Transaction κ} {tid : Nat}
    {infos : List (WriteInfo κ)} {w : WriteRecord κ} {rest : List (WriteRecord κ)}
    (h : ThreadWf heap i t (.writing tid infos (w :: rest)))
    (hkept : ∀ a x, heap a = some x → ∃ x', heap' a = some x' ∧ x'.key = x.key
      ∧ (x'.lockOwner = some i ↔ x.lockOwner = some i))
    (hnew : ∀ a x', heap a = none → heap' a = some x' → x'.lockOwner ≠ some i)
    (hother : ∀ a x, heap a = some x → a ≠ w.tuple → heap' a = some x)
    (hsame : ∀ u ∈ rest, u.doWrite = true → u.tuple = w.tuple →
      ∃ x, heap' u.tuple = some x ∧ x.latest = true ∧ (u.insert = true → x.version = maxTid)) :
    ThreadWf heap' i t (.writing tid infos rest) := by
  obtain ⟨hl, hwhole, ⟨q, hq⟩, hmarked, howned, htodo⟩ := h
  refine ⟨hl.of_heap hkept hnew, hwhole, ⟨q + 1, ?_⟩, hmarked, ?_, ?_⟩
  · rw [← List.tail_drop, ← hq, List.tail_cons]
  · intro u hu
    obtain ⟨x, hx, hown⟩ := howned u hu
    obtain ⟨x', hx', -, hown'⟩ := hkept _ x hx
    exact ⟨x', hx', hown'.mpr hown⟩
  · intro u hu hdo
    by_cases hut : u.tuple = w.tuple
    · exact hsame u hu hdo hut
    · obtain ⟨x, hx, hrest⟩ := htodo u (List.mem_cons_of_mem _ hu) hdo
      exact ⟨x, hother _ x hx hut, hrest⟩

/-- Behind an entry to be written that is not an insert there is none of its tuple. -/
theorem ThreadWf.last {heap : Heap (Fin n) κ} {t : Transaction κ} {tid : Nat}
    {infos : List (WriteInfo κ)} {w : WriteRecord κ} {rest : List (WriteRecord κ)}
    (h : ThreadWf heap i t (.writing tid infos (w :: rest))) (hdo : w.doWrite = true)
    (hins : w.insert = false) : ∀ u ∈ rest, u.tuple ≠ w.tuple := by
  obtain ⟨-, -, ⟨q, hq⟩, hmarked, -, -⟩ := h
  have hw : t.writeSet[q]? = some w := by
    rw [← Nat.add_zero q, ← List.getElem?_drop, ← hq]
    rfl
  intro u hu
  obtain ⟨p, hp⟩ := List.mem_iff_getElem?.mp hu
  have hup : t.writeSet[q + (p + 1)]? = some u := by
    rw [← List.getElem?_drop, ← hq, List.getElem?_cons_succ]
    exact hp
  rcases (hmarked q w hw).mp hdo with h | h
  · rw [hins] at h
    cases h
  · exact h _ u (by omega) hup

/-- An insert stands before the other entries of its tuple. -/
theorem ThreadWf.insert_once {heap : Heap (Fin n) κ} {t : Transaction κ} {tid : Nat}
    {infos : List (WriteInfo κ)} {w : WriteRecord κ} {rest : List (WriteRecord κ)}
    (h : ThreadWf heap i t (.writing tid infos (w :: rest))) :
    ∀ u ∈ rest, u.tuple = w.tuple → u.insert = false := by
  obtain ⟨-, hwhole, ⟨q, hq⟩, -, -, -⟩ := h
  have hw : t.writeSet[q]? = some w := by
    rw [← Nat.add_zero q, ← List.getElem?_drop, ← hq]
    rfl
  intro u hu heq
  obtain ⟨p, hp⟩ := List.mem_iff_getElem?.mp hu
  have hup : t.writeSet[q + (p + 1)]? = some u := by
    rw [← List.getElem?_drop, ← hq, List.getElem?_cons_succ]
    exact hp
  by_contra hins
  have := hwhole.first _ _ u w hup hw (by simpa using hins) heq.symm
  omega

/-- After a claim the infos of the inserts have their markers. -/
theorem Whole.marker {heap : Heap (Fin n) κ} {t : Transaction κ} {infos : List (WriteInfo κ)}
    (h : Whole t infos) (hm : Markers heap infos) {w : WriteRecord κ} (hw : w ∈ t.writeSet)
    (hins : w.insert = true) : ∃ x, heap w.tuple = some x ∧ x.version = maxTid := by
  obtain ⟨p, hp⟩ := List.mem_iff_getElem?.mp hw
  obtain ⟨d, hd, rfl⟩ := h.infosOf.cover p w hp
  obtain ⟨u, hu, hut, -, hui⟩ := h.infosOf.mem d hd
  obtain rfl : u = w := Option.some.inj (hu.symm.trans hp)
  obtain ⟨x, hx, -, hv⟩ := hm d hd (hui.symm.trans hins)
  exact ⟨x, hut ▸ hx, hv⟩

/-- A record is written at its tuple, with a new tuple at `b` or not. -/
theorem ThreadWf.write_record {heap : Heap (Fin n) κ} {t : Transaction κ} {tid : Nat}
    {infos : List (WriteInfo κ)} {w : WriteRecord κ} {rest : List (WriteRecord κ)} {b : Addr}
    {x y : Tuple (Fin n) κ} {o : Option (Tuple (Fin n) κ)}
    (h : ThreadWf heap i t (.writing tid infos (w :: rest))) (hx : heap w.tuple = some x)
    (hb : heap b = none) (ho : ∀ z ∈ o, z.lockOwner = none) (hkey : y.key = x.key)
    (hown : y.lockOwner = some i ↔ x.lockOwner = some i) (hlast : ∀ u ∈ rest, u.tuple ≠ w.tuple) :
    ThreadWf (Function.update (Function.update heap b o) w.tuple (some y)) i t
      (.writing tid infos rest) := by
  have hne : b ≠ w.tuple := by
    rintro rfl
    rw [hx] at hb
    cases hb
  refine h.write ?_ ?_ ?_ fun u hu _ heq => absurd heq (hlast u hu)
  · intro a z hz
    by_cases ha : a = w.tuple
    · subst ha
      obtain rfl : z = x := Option.some.inj (hz.symm.trans hx)
      exact ⟨y, by simp, hkey, hown⟩
    · have hab : a ≠ b := by
        rintro rfl
        rw [hb] at hz
        cases hz
      exact ⟨z, by rw [Function.update_of_ne ha, Function.update_of_ne hab, hz], rfl, Iff.rfl⟩
  · intro a z ha hz
    have haw : a ≠ w.tuple := by
      rintro rfl
      rw [hx] at ha
      cases ha
    rw [Function.update_of_ne haw] at hz
    by_cases hab : a = b
    · subst hab
      rw [Function.update_self] at hz
      simp [ho z hz]
    · rw [Function.update_of_ne hab, ha] at hz
      cases hz
  · intro a z hz ha
    have hab : a ≠ b := by
      rintro rfl
      rw [hb] at hz
      cases hz
    rw [Function.update_of_ne ha, Function.update_of_ne hab, hz]

/-- The marker of an insert. -/
theorem ThreadWf.insert_marker {heap : Heap (Fin n) κ} {t : Transaction κ} {k : κ}
    {v : Option Bytes} {e : Bool} {a : Addr} (h : ThreadWf heap i t (.putting k v e))
    (ha : heap a = none) (t' : Transaction κ)
    (hws : t'.writeSet = t.writeSet ++ [⟨a, k, v, true, false⟩]) :
    Locks (Function.update heap a (some (.allocFirst i k v))) i t'.writeInfos
      ∧ Active (Function.update heap a (some (.allocFirst i k v))) t' := by
  obtain ⟨hact, hv⟩ := h.place
  have hne : ∀ w ∈ t.writeInfos, w.tuple ≠ a := by
    rintro w hw rfl
    obtain ⟨x, hx, -⟩ := h.locks.key w hw
    rw [ha] at hx
    cases hx
  refine ⟨?_, hact.concat hws hv rfl ?_ ?_ ?_⟩
  · rw [writeInfos_concat t ⟨a, k, v, true, false⟩ t' hws]
    have hlocks : Locks heap i t.writeInfos := h.locks
    exact hlocks.insert (w := ⟨a, k, true, t.writeSet.length, true⟩) ha rfl rfl rfl
  · intro _ w hw heq
    obtain ⟨x, hx, -⟩ := (Whole.of_active hact).key h.locks hw
    rw [heq, ha] at hx
    cases hx
  · exact Markers.of_heap hact.markers fun w hw _ => Function.update_of_ne (hne w hw) _ _
  · exact fun _ => ⟨_, Function.update_self .., rfl, rfl⟩

/-- A lock changes no tuple that was inserted. -/
theorem ThreadWf.markers_lock {heap : Heap (Fin n) κ} {t : Transaction κ} {inserted : Bool}
    {done rest : List (WriteInfo κ)} {it : WriteInfo κ} {x : Tuple (Fin n) κ}
    (h : ThreadWf heap i t (.locking inserted done (it :: rest)))
    (hm : Markers heap (done ++ it :: rest)) (hins : it.insert = false)
    (hx : heap it.tuple = some x) (hlock : x.lockOwner = none) :
    Markers (Function.update heap it.tuple (some { x with lockOwner := some i }))
      (done ++ { it with locked := true } :: rest) := by
  have hm' : Markers heap (done ++ { it with locked := true } :: rest) := by
    intro w hw hwi
    simp only [List.mem_append, List.mem_cons] at hw
    rcases hw with hw | rfl | hw
    · exact hm w (by simp [hw]) hwi
    · rw [hins] at hwi
      cases hwi
    · exact hm w (by simp [hw]) hwi
  refine Markers.of_heap hm' fun w hw hwi => Function.update_of_ne ?_ _ _
  intro heq
  have hmem : w ∈ done ++ it :: rest := by
    simp only [List.mem_append, List.mem_cons] at hw ⊢
    rcases hw with hw | rfl | hw
    · exact .inl hw
    · rw [hins] at hwi
      cases hwi
    · exact .inr (.inr hw)
  obtain ⟨y, hy, -, hown⟩ := h.locks.owner hmem (h.locks.insert_locked w hmem hwi)
  rw [heq, hx] at hy
  obtain rfl := Option.some.inj hy
  rw [hlock] at hown
  cases hown

/-- The steps that only move the thread. -/
theorem Active.abort {heap : Heap (Fin n) κ} {t : Transaction κ} (hl : Locks heap i t.writeInfos)
    (hm : Markers heap t.writeInfos) : ThreadWf heap i t (.aborting t.insertInfos) :=
  ⟨hl.inserts, hm.subset fun _ hw => (List.mem_filter.mp hw).1⟩

theorem Markers.tail {heap heap' : Heap (Fin n) κ} {w : WriteInfo κ} {rest : List (WriteInfo κ)}
    (hl : Locks heap i (w :: rest)) (hm : Markers heap (w :: rest)) (hw : w.locked = true)
    (hother : ∀ a, a ≠ w.tuple → heap' a = heap a) : Markers heap' rest := by
  refine Markers.of_heap (fun u hu => hm u (List.mem_cons_of_mem _ hu)) ?_
  intro u hu hins
  refine hother _ fun heq => ?_
  have honce := hl.once
  rw [List.filter_cons_of_pos hw, List.map_cons, List.nodup_cons] at honce
  have hlocked := hl.insert_locked u (List.mem_cons_of_mem _ hu) hins
  exact honce.1 (List.mem_map.mpr ⟨u, List.mem_filter.mpr ⟨hu, hlocked⟩, heq⟩)

/-- A tentative record gets its id. -/
theorem ThreadWf.write_tentative {heap : Heap (Fin n) κ} {t : Transaction κ} {tid : Nat}
    {infos : List (WriteInfo κ)} {w : WriteRecord κ} {rest : List (WriteRecord κ)}
    {x : Tuple (Fin n) κ} (h : ThreadWf heap i t (.writing tid infos (w :: rest)))
    (hx : heap w.tuple = some x) (hlatest : x.latest = true) :
    ThreadWf (Function.update heap w.tuple (some { x with version := tid })) i t
      (.writing tid infos rest) := by
  refine h.write ?_ ?_ ?_ ?_
  · intro a y hy
    by_cases ha : a = w.tuple
    · subst ha
      obtain rfl : y = x := Option.some.inj (hy.symm.trans hx)
      exact ⟨{ y with version := tid }, by simp, rfl, Iff.rfl⟩
    · exact ⟨y, by simp [Function.update_of_ne ha, hy], rfl, Iff.rfl⟩
  · intro a y ha hy
    have hne : a ≠ w.tuple := by
      rintro rfl
      rw [hx] at ha
      cases ha
    simp [Function.update_of_ne hne, ha] at hy
  · exact fun a y hy hne => by simp [Function.update_of_ne hne, hy]
  · intro u hu hdo heq
    refine ⟨{ x with version := tid }, by simp [heq], hlatest, fun hui => ?_⟩
    rw [h.insert_once u hu heq] at hui
    cases hui

/-- `write_record_at`, whether the tuple keeps its place or a new one takes it. -/
theorem ThreadWf.write_tuple {heap : Heap (Fin n) κ} {t : Transaction κ} {tid : Nat}
    {infos : List (WriteInfo κ)} {w : WriteRecord κ} {rest : List (WriteRecord κ)} {b : Addr}
    {x : Tuple (Fin n) κ} (snapshotsEnabled : Bool)
    (h : ThreadWf heap i t (.writing tid infos (w :: rest))) (hx : heap w.tuple = some x)
    (hb : heap b = none) (hv : w.value ≠ some []) (hlast : ∀ u ∈ rest, u.tuple ≠ w.tuple) :
    ThreadWf (Tuple.writeRecordAt snapshotsEnabled heap w.tuple x b tid w.value).1 i t
      (.writing tid infos rest) := by
  obtain ⟨y, o, hheap, ⟨-, hy, ho⟩ | ⟨-, rfl, z, rfl, hz⟩⟩ :=
    Tuple.writeRecordAt_cases (a := w.tuple) (x := x) (t := tid) snapshotsEnabled hb hv
  · rw [hheap]
    exact h.write_record hx hb (fun z hz => (ho z hz).2.2.1) hy.key_eq (by rw [hy.lockOwner_eq])
      hlast
  · rw [hheap]
    exact h.write_record hx hb (by rintro y ⟨⟩; exact hz.2.2.1) rfl Iff.rfl hlast

/-! ### The locks are taken -/

section Claimed

variable {heap : Heap (Fin n) κ} {t : Transaction κ} {infos done rest : List (WriteInfo κ)}
  {it : WriteInfo κ} {inserted : Bool} {tid : Nat}

/-- The tuple of an insert, and of the entries that follow it, needs no lock. -/
theorem Locking.held_inserted (h : Locking heap i t inserted done (it :: rest))
    (hl : Locks heap i (done ++ it :: rest)) (hm : Markers heap (done ++ it :: rest))
    (hins : (inserted || it.insert) = true) : Held heap i it.tuple := by
  rcases Bool.or_eq_true _ _ ▸ hins with hins | hins
  · obtain ⟨w, hw, hwi, heq⟩ := h.group.mp hins
    rw [show it.tuple = w.tuple by simpa using heq]
    exact Held.of_marker hl hm (List.mem_append_left _ hw) hwi
  · exact Held.of_marker hl hm (by simp) hins

/-- After the locking loop every tuple of the write set is held. -/
theorem Locking.claimed (h : Locking heap i t inserted done []) (hwhole : Whole t done) :
    Claimed heap i t (some tid) := by
  refine ⟨?_, h.marked.marked hwhole.infosOf, by simp⟩
  intro w hw
  obtain ⟨p, hp⟩ := List.mem_iff_getElem?.mp hw
  obtain ⟨d, hd, rfl⟩ := hwhole.infosOf.cover p w hp
  obtain ⟨u, hu, hut, -⟩ := hwhole.infosOf.mem d hd
  obtain rfl : u = w := Option.some.inj (hu.symm.trans hp)
  rw [hut]
  exact h.held d hd (by simp)

theorem Claimed.infos_eq_nil (h : Claimed heap i t none) (hwhole : Whole t infos) :
    infos = [] := by
  refine List.eq_nil_iff_forall_not_mem.mpr fun d hd => ?_
  obtain ⟨w, hw, -⟩ := hwhole.infosOf.mem d hd
  rw [h.readOnly rfl] at hw
  simp at hw

theorem Claimed.writing (h : Claimed heap i t (some tid)) (hwhole : Whole t infos)
    (hm : Markers heap infos) : Writing heap i t t.writeSet := by
  refine ⟨⟨0, by simp⟩, h.marked, ?_, ?_⟩
  · intro w hw
    obtain ⟨x, hx, hown, -⟩ := h.held w hw
    exact ⟨x, hx, hown⟩
  · intro w hw hdo
    obtain ⟨x, hx, -, hlatest⟩ := h.held w hw
    refine ⟨x, hx, hlatest, fun hins => ?_⟩
    obtain ⟨y, hy, hv⟩ := hwhole.marker hm hw hins
    obtain rfl : y = x := Option.some.inj (hy.symm.trans hx)
    exact hv

end Claimed

theorem ThreadWf.of_eq {heap' : Heap (Fin n) κ} {t' : Transaction κ} {pc' : Pc κ}
    (hheap : s'.heap = heap') (ht : s'.txn i = t') (hpc : s'.pc i = pc')
    (h : ThreadWf heap' i t' pc') : ThreadWf s'.heap i (s'.txn i) (s'.pc i) := by
  rw [hheap, ht, hpc]
  exact h

variable [DecidableEq κ]

theorem TxnStep.own (hwf : Wf s) (h : TxnStep cfg s i act s') :
    ThreadWf s'.heap i (s'.txn i) (s'.pc i) := by
  have hth := hwf.thread i
  have hidx := hwf.indexed
  cases h with
  | begin hpc =>
      rw [hpc] at hth
      refine ThreadWf.of_eq rfl (Function.update_self ..) (Function.update_self ..) ⟨hth.locks, ?_⟩
      exact ⟨by simp [InsertFirst], by simp, by simp, by simp [Markers, Transaction.writeInfos]⟩
  | found hpc hk =>
      rw [hpc] at hth
      obtain ⟨x, hx, hkey, -⟩ := hidx.latest _ _ hk
      exact ThreadWf.of_eq rfl rfl (Function.update_self ..) ⟨hth.locks, hth.place, x, hx, hkey⟩
  | absentNew hpc hk hm =>
      rw [hpc] at hth
      exact ThreadWf.of_eq rfl (Function.update_self ..) hpc
        ⟨hth.locks, hth.place.first, hth.place.values, hth.place.unmarked, hth.place.markers⟩
  | absentSame hpc hk he =>
      rw [hpc] at hth
      exact ThreadWf.of_eq rfl (Function.update_self ..) hpc
        ⟨hth.locks, hth.place.first, hth.place.values, hth.place.unmarked, hth.place.markers⟩
  | absentChanged hpc =>
      rw [hpc] at hth
      exact ThreadWf.of_eq rfl rfl (Function.update_self ..)
        (Active.abort hth.locks hth.place.markers)
  | readOwn hpc =>
      rw [hpc] at hth
      exact ThreadWf.of_eq rfl rfl (Function.update_self ..) ⟨hth.locks, hth.place.1⟩
  | readMarker hpc hx hv =>
      rw [hpc] at hth
      obtain ⟨hact, -⟩ := hth.place
      exact ThreadWf.of_eq rfl (Function.update_self ..) (Function.update_self ..)
        ⟨hth.locks, hact.first, hact.values, hact.unmarked, hact.markers⟩
  | readTuple hpc hx hv hlock =>
      rw [hpc] at hth
      obtain ⟨hact, -⟩ := hth.place
      exact ThreadWf.of_eq rfl (Function.update_self ..) (Function.update_self ..)
        ⟨hth.locks, hact.first, hact.values, hact.unmarked, hact.markers⟩
  | put hpc hv =>
      rw [hpc] at hth
      exact ThreadWf.of_eq rfl rfl (Function.update_self ..) ⟨hth.locks, hth.place, hv⟩
  | @searchFound k v a hpc hk =>
      rw [hpc] at hth
      obtain ⟨hact, hv⟩ := hth.place
      obtain ⟨x, hx, hkey, -⟩ := hidx.latest _ _ hk
      refine ThreadWf.of_eq rfl (Function.update_self ..) (Function.update_self ..) ⟨?_, ?_⟩
      · rw [Pc.infos, writeInfos_concat (s.txn i) ⟨a, k, v, false, false⟩ _ rfl]
        exact hth.locks.append hx hkey rfl rfl
      · exact Active.concat hact rfl hv rfl (by simp) hact.markers (by simp)
  | searchAbsent hpc =>
      rw [hpc] at hth
      exact ThreadWf.of_eq rfl rfl (Function.update_self ..) ⟨hth.locks, hth.place⟩
  | insertFailed hpc =>
      rw [hpc] at hth
      exact ThreadWf.of_eq rfl rfl (Function.update_self ..) ⟨hth.locks, hth.place⟩
  | @inserted k v a hpc ha hk =>
      rw [hpc] at hth
      obtain ⟨hlocks, hact⟩ := hth.insert_marker ha { s.txn i with
        writeSet := (s.txn i).writeSet ++ [⟨a, k, v, true, false⟩]
        absentSet := (s.txn i).absentSet.map fun e =>
          if e = (s.leaf k, s.nodeVersion (s.leaf k)) then
            (s.leaf k, s.nodeVersion (s.leaf k) + 1) else e } rfl
      exact ThreadWf.of_eq rfl (Function.update_self ..) (Function.update_self ..) ⟨hlocks, hact⟩
  | @insertedChanged k v a hpc ha hk =>
      rw [hpc] at hth
      obtain ⟨hlocks, hact⟩ := hth.insert_marker ha { s.txn i with
        writeSet := (s.txn i).writeSet ++ [⟨a, k, v, true, false⟩] } rfl
      refine ThreadWf.of_eq rfl (Function.update_self ..) (Function.update_self ..) ?_
      rw [State.setTxn_txn, Function.update_self]
      exact Active.abort hlocks hact.markers
  | abort hpc =>
      rw [hpc] at hth
      exact ThreadWf.of_eq rfl rfl (Function.update_self ..)
        (Active.abort hth.locks hth.place.markers)
  | commitRead hpc hw =>
      rw [hpc] at hth
      have hinfos : (s.txn i).writeInfos = [] := by simp [Transaction.writeInfos, hw]
      have hlocks := hth.locks
      have hwhole := Whole.of_active hth.place
      rw [Pc.infos, hinfos] at hlocks
      rw [hinfos] at hwhole
      refine ThreadWf.of_eq rfl rfl (Function.update_self ..)
        ⟨hlocks, hwhole, by simp [Markers], ?_, ?_, ?_⟩
      · simp [hw]
      · simp [Marked, hw]
      · exact fun _ => hw
  | commitWrite hpc hw =>
      rw [hpc] at hth
      have hperm := List.perm_insertionSort WriteInfo.le (s.txn i).writeInfos
      have hwhole := Whole.of_active hth.place
      refine ThreadWf.of_eq rfl rfl (Function.update_self ..) ⟨hth.locks.perm hperm,
        ⟨hwhole.infosOf.perm hperm, hwhole.first, hwhole.values⟩,
        hth.place.markers.subset fun _ hw => hperm.mem_iff.mp hw, Locking.start hth.place hw⟩
  | @lockNext inserted done rest it hpc hgroup =>
      rw [hpc] at hth
      obtain ⟨hwhole, hmarkers, hlocking⟩ := hth.place
      have happend : done ++ [it] ++ rest = done ++ it :: rest := by simp
      refine ThreadWf.of_eq rfl (Function.update_self ..) (Function.update_self ..)
        ⟨?_, ?_, ?_, hlocking.next hwhole hgroup⟩
      · rw [Pc.infos, happend]
        exact hth.locks
      · rw [happend]
        split
        · exact hwhole.setDoWrite _
        · exact hwhole
      · rw [happend]
        exact hmarkers
  | @lockInserted inserted done rest it hpc hgroup hins =>
      rw [hpc] at hth
      obtain ⟨hwhole, hmarkers, hlocking⟩ := hth.place
      have happend : done ++ [it] ++ rest = done ++ it :: rest := by simp
      have hit := hlocking.held_inserted hth.locks hmarkers hins
      refine ThreadWf.of_eq rfl (Function.update_self ..) (Function.update_self ..) ⟨?_, ?_, ?_,
        hlocking.last hwhole hgroup it rfl rfl rfl hit fun _ _ h => h⟩
      · rw [Pc.infos, happend]
        exact hth.locks
      · rw [happend]
        exact hwhole.setDoWrite _
      · rw [happend]
        exact hmarkers
  | lockTentative hpc =>
      rw [hpc] at hth
      exact ThreadWf.of_eq rfl rfl (Function.update_self ..) ⟨hth.locks, hth.place.2.1⟩
  | @lockLatest done rest it x hpc hgroup hins hx hv hlock hlatest =>
      rw [hpc] at hth
      obtain ⟨hwhole, hmarkers, hlocking⟩ := hth.place
      have happend : done ++ [{ it with locked := true }] ++ rest
          = done ++ { it with locked := true } :: rest := by simp
      refine ThreadWf.of_eq rfl (Function.update_self ..) (Function.update_self ..) ⟨?_, ?_, ?_,
        hlocking.last hwhole hgroup _ rfl rfl rfl
          ⟨{ x with lockOwner := some i }, by simp, rfl, hlatest⟩ ?_⟩
      · rw [Pc.infos, happend]
        exact hth.locks.lock hx hlock
      · rw [happend]
        exact ⟨(hwhole.setDoWrite _).infosOf.setLocked true, (hwhole.setDoWrite _).first,
          (hwhole.setDoWrite _).values⟩
      · rw [happend]
        exact hth.markers_lock hmarkers hins hx hlock
      · rintro a ha ⟨y, hy, hrest⟩
        exact ⟨y, by simp [Function.update_of_ne ha, hy], hrest⟩
  | @lockStale done rest it x hpc hins hx hv hlock =>
      rw [hpc] at hth
      exact ThreadWf.of_eq rfl rfl (Function.update_self ..)
        ⟨hth.locks.lock hx hlock, hth.markers_lock hth.place.2.1 hins hx hlock⟩
  | @genCommitTid inserted done tid hpc htid =>
      rw [hpc] at hth
      obtain ⟨hwhole, hmarkers, hlocking⟩ := hth.place
      rw [List.append_nil] at hwhole hmarkers
      have hlocks := hth.locks
      rw [Pc.infos, List.append_nil] at hlocks
      exact ThreadWf.of_eq rfl rfl (Function.update_self ..)
        ⟨hlocks, hwhole, hmarkers, hlocking.claimed hwhole⟩
  | validated hpc =>
      rw [hpc] at hth
      exact ThreadWf.of_eq rfl rfl (Function.update_self ..) ⟨hth.locks, hth.place⟩
  | validateRead hpc hx hlock hlatest hle =>
      rw [hpc] at hth
      exact ThreadWf.of_eq rfl rfl (Function.update_self ..) ⟨hth.locks, hth.place⟩
  | validateFailed hpc =>
      rw [hpc] at hth
      exact ThreadWf.of_eq rfl rfl (Function.update_self ..) ⟨hth.locks, hth.place.2.1⟩
  | @nodesRead infos hpc =>
      rw [hpc] at hth
      obtain ⟨hwhole, -, hclaimed⟩ := hth.place
      obtain rfl := hclaimed.infos_eq_nil hwhole
      exact ThreadWf.of_eq rfl rfl (Function.update_self ..) ⟨hth.locks, trivial⟩
  | @nodesWrite tid infos hpc =>
      rw [hpc] at hth
      obtain ⟨hwhole, hmarkers, hclaimed⟩ := hth.place
      exact ThreadWf.of_eq rfl rfl (Function.update_self ..)
        ⟨hth.locks, hwhole, hclaimed.writing hwhole hmarkers⟩
  | nodeSame hpc hv =>
      rw [hpc] at hth
      exact ThreadWf.of_eq rfl rfl (Function.update_self ..) ⟨hth.locks, hth.place⟩
  | nodeChanged hpc =>
      rw [hpc] at hth
      exact ThreadWf.of_eq rfl rfl (Function.update_self ..) ⟨hth.locks, hth.place.2.1⟩
  | written hpc =>
      rw [hpc] at hth
      exact ThreadWf.of_eq rfl rfl (Function.update_self ..) ⟨hth.locks, trivial⟩
  | @writeSkip b tid infos w rest hpc hw =>
      rw [hpc] at hth
      refine ThreadWf.of_eq rfl rfl (Function.update_self ..) (hth.write ?_ ?_ ?_ ?_)
      · exact fun a x hx => ⟨x, hx, rfl, Iff.rfl⟩
      · intro a x ha hx
        cases ha.symm.trans hx
      · exact fun a x hx _ => hx
      · exact fun u hu hdo _ => hth.place.2.todo u (List.mem_cons_of_mem _ hu) hdo
  | @writeInsert b tid infos w rest x hpc hw hins hx =>
      have hlatest := (hwf.writing hpc hw hx).2.1
      rw [hpc] at hth
      exact ThreadWf.of_eq rfl rfl (Function.update_self ..) (hth.write_tentative hx hlatest)
  | @writeOver b tid infos w rest x hpc hw hins hx hb hhead =>
      obtain ⟨-, -, -, hv, -⟩ := hwf.writing hpc hw hx
      rw [hpc] at hth
      exact ThreadWf.of_eq rfl rfl (Function.update_self ..)
        (hth.write_tuple cfg.snapshotsEnabled hx hb hv (hth.last hw hins))
  | @writeReplace b tid infos w rest x hpc hw hins hx hb hhead =>
      obtain ⟨-, -, -, hv, -⟩ := hwf.writing hpc hw hx
      rw [hpc] at hth
      exact ThreadWf.of_eq rfl rfl (Function.update_self ..)
        (hth.write_tuple cfg.snapshotsEnabled hx hb hv (hth.last hw hins))
  | unlocked hpc =>
      rw [hpc] at hth
      exact ThreadWf.of_eq rfl rfl (Function.update_self ..) ⟨hth.locks, trivial⟩
  | unlockSkip hpc hw =>
      rw [hpc] at hth
      exact ThreadWf.of_eq rfl rfl (Function.update_self ..) ⟨hth.locks.skip hw, trivial⟩
  | unlockTuple hpc hw hx =>
      rw [hpc] at hth
      exact ThreadWf.of_eq rfl rfl (Function.update_self ..)
        ⟨hth.locks.unlock hw hx rfl rfl, trivial⟩
  | cleaned hpc =>
      rw [hpc] at hth
      exact ThreadWf.of_eq rfl rfl (Function.update_self ..) ⟨hth.locks, trivial⟩
  | cleanupSkip hpc hw =>
      rw [hpc] at hth
      exact ThreadWf.of_eq rfl rfl (Function.update_self ..)
        ⟨hth.locks.skip hw, Markers.subset hth.place fun _ hu => List.mem_cons_of_mem _ hu⟩
  | cleanupInsert hpc hw hins hx =>
      rw [hpc] at hth
      exact ThreadWf.of_eq rfl rfl (Function.update_self ..) ⟨hth.locks.unlock hw hx rfl rfl,
        Markers.tail hth.locks hth.place hw fun a ha => by simp [Function.update_of_ne ha]⟩
  | cleanupTuple hpc hw hins hx =>
      rw [hpc] at hth
      exact ThreadWf.of_eq rfl rfl (Function.update_self ..) ⟨hth.locks.unlock hw hx rfl rfl,
        Markers.tail hth.locks hth.place hw fun a ha => by simp [Function.update_of_ne ha]⟩

theorem Wf.init {s : State n κ} (h : (silo n κ cfg).init s) : Wf s := by
  obtain ⟨hheap, hindex, -, hpc, htxn, -⟩ := h
  refine ⟨⟨by simp [hindex], by simp [hheap]⟩, fun i => ?_⟩
  rw [hheap, hpc, htxn]
  exact ⟨Locks.nil (by simp), trivial⟩

theorem Wf.next {s s' : State n κ} (hwf : Wf s) (h : State.next cfg act s = some s') : Wf s' := by
  cases hi : act.thread with
  | none =>
      cases act with
      | tick =>
          obtain rfl := Option.some.inj h
          exact ⟨hwf.indexed, hwf.thread⟩
      | reshape leaf nodeVersion =>
          obtain rfl := Option.some.inj h
          exact ⟨hwf.indexed, hwf.thread⟩
      | _ => cases hi
  | some i =>
      have hstep := TxnStep.of_next h hi
      refine ⟨hstep.indexed hwf, fun j => ?_⟩
      by_cases hj : j = i
      · rw [hj]
        exact hstep.own hwf
      · obtain ⟨hpc, htxn⟩ := hstep.others hj
        rw [hpc, htxn]
        exact (hwf.thread j).stable (hstep.heapStep hwf) hj

/-- **In every run the locks are where the threads have noted them.** -/
theorem silo_wf (h : (silo n κ cfg).Reachable s) : Wf s :=
  h.invariant (P := Wf) (fun _ hi => Wf.init hi) fun _ _ _ _ hwf hn => Wf.next hwf hn

end Own

end TailBench.Silo.Proto2
