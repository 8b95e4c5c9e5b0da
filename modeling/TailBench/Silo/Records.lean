import TailBench.Silo.CommitTids

set_option autoImplicit false

/-! # The records of the tree

What the database has at each key, and what a thread that has decided to commit still has to write.
A step writes one entry (`WriteStep`) or leaves all records as they are, although it may insert or
remove tentative tuples, lock, or move a record to another tuple.
-/

namespace TailBench.Silo.Proto2

open Lib

variable {n : Nat} {κ : Type*}

/-- The record of each key. -/
def records (heap : Heap (Fin n) κ) (index : κ → Option Addr) (k : κ) : Option Bytes :=
  ((index k).bind heap).bind Tuple.content

def State.record (s : State n κ) : κ → Option Bytes := records s.heap s.index

/-- What a thread has still to write. -/
def Pc.todo : Pc κ → List (κ × Option Bytes)
  | .writing _ _ rest => stores (rest.filter (·.doWrite))
  | _ => []

/-- The entries of the write set whose tuples are not written yet. -/
def Pc.unwritten (t : Transaction κ) : Pc κ → List (WriteRecord κ)
  | .ready | .reading _ _ | .putting _ _ _ | .locking _ _ _ | .validating _ _ _ | .nodes _ _ _ =>
      t.writeSet
  | .writing _ _ rest => rest
  | .idle | .unlocking _ | .aborting _ => []

/-- A tuple that was inserted has the value of its entry. -/
def Valued (heap : Heap (Fin n) κ) (i : Fin n) (ws : List (WriteRecord κ)) : Prop :=
  ∀ w ∈ ws, w.insert = true →
    ∃ x, heap w.tuple = some x ∧ x.lockOwner = some i ∧ x.data = w.value

def ValuesWf (s : State n κ) : Prop := ∀ i, Valued s.heap i ((s.pc i).unwritten (s.txn i))

section Records

variable {heap heap' : Heap (Fin n) κ} {index index' : κ → Option Addr} {a b : Addr} {k : κ}
  {x x' : Tuple (Fin n) κ} {v : Option Bytes}

theorem records_of_index (hk : index k = some a) (hx : heap a = some x) :
    records heap index k = x.content := by
  rw [records, hk, Option.bind_some, hx, Option.bind_some]

theorem records_of_none (hk : index k = none) : records heap index k = none := by
  rw [records, hk, Option.bind_none, Option.bind_none]

/-- A tuple changes, but not its record. -/
theorem records_update (hx : heap a = some x) (hcontent : x'.content = x.content) :
    records (Function.update heap a (some x')) index = records heap index := by
  funext k
  cases hk : index k with
  | none => rw [records_of_none hk, records_of_none hk]
  | some b =>
      rw [records, records, hk, Option.bind_some, Option.bind_some]
      by_cases hb : b = a
      · subst hb
        rw [Function.update_self, hx, Option.bind_some, Option.bind_some, hcontent]
      · rw [Function.update_of_ne hb]

/-- Tuples of other keys are other tuples. -/
theorem Indexed.ne_of_key (h : Indexed heap index) (hx : heap a = some x) (hb : index k = some b)
    (hk : k ≠ x.key) : b ≠ a := by
  rintro rfl
  obtain ⟨y, hy, hyk, -⟩ := h.latest k b hb
  obtain rfl : y = x := Option.some.inj (hy.symm.trans hx)
  exact hk hyk.symm

variable [DecidableEq κ]

/-- One key changes, in the tree or at its tuple. -/
theorem records_step (hk : records heap' index' k = v)
    (hother : ∀ k', k' ≠ k → index' k' = index k'
      ∧ ∀ c, index k' = some c → heap' c = heap c) :
    records heap' index' = Function.update (records heap index) k v := by
  funext k'
  by_cases hkk : k' = k
  · subst hkk
    rw [Function.update_self, hk]
  · obtain ⟨hidx, hheap⟩ := hother k' hkk
    rw [Function.update_of_ne hkk, records, records, hidx]
    cases hc : index k' with
    | none => rfl
    | some c => rw [Option.bind_some, Option.bind_some, hheap c hc]

/-- The record is written into the tuple. -/
theorem records_write (h : Indexed heap index) (hx : heap a = some x) (hlatest : x.latest = true)
    (hkey : x.key = k) (hx' : heap' a = some x') (hcontent : x'.content = v)
    (hother : ∀ c y, heap c = some y → c ≠ a → heap' c = some y) :
    records heap' index = Function.update (records heap index) k v := by
  subst hkey
  refine records_step ?_ ?_
  · rw [records_of_index (h.index_eq a x hx hlatest) hx', hcontent]
  · intro k' hk'
    refine ⟨rfl, fun c hc => ?_⟩
    obtain ⟨y, hy, -, -⟩ := h.latest k' c hc
    rw [hother c y hy (h.ne_of_key hx hc hk'), hy]

/-- The record is written to another tuple. -/
theorem records_replace (h : Indexed heap index) (hx : heap a = some x) (hkey : x.key = k)
    (hb : heap b = none) {z : Tuple (Fin n) κ} (hcontent : z.content = v) :
    records (Function.update (Function.update heap b (some z)) a (some x'))
        (Function.update index k (some b))
      = Function.update (records heap index) k v := by
  subst hkey
  have hba : b ≠ a := by
    rintro rfl
    rw [hx] at hb
    cases hb
  refine records_step ?_ ?_
  · refine (records_of_index (Function.update_self ..) ?_).trans hcontent
    rw [Function.update_of_ne hba, Function.update_self]
  · intro k' hk'
    refine ⟨Function.update_of_ne hk' _ _, fun c hc => ?_⟩
    obtain ⟨y, hy, -, -⟩ := h.latest k' c hc
    rw [Function.update_of_ne (h.ne_of_key hx hc hk'), update_of_alloc hb hy, hy]

/-- A tentative tuple comes. -/
theorem records_insert (h : Indexed heap index) (ha : heap a = none) (hk : index k = none)
    (hcontent : x.content = none) :
    records (Function.update heap a (some x)) (Function.update index k (some a))
      = records heap index := by
  have hstep : records (Function.update heap a (some x)) (Function.update index k (some a))
      = Function.update (records heap index) k none := by
    refine records_step ?_ ?_
    · exact (records_of_index (Function.update_self ..) (Function.update_self ..)).trans hcontent
    · intro k' hk'
      refine ⟨Function.update_of_ne hk' _ _, fun c hc => ?_⟩
      obtain ⟨y, hy, -, -⟩ := h.latest k' c hc
      rw [update_of_alloc ha hy, hy]
  rw [hstep, ← show records heap index k = none from records_of_none hk, Function.update_eq_self]

/-- A tentative tuple goes. -/
theorem records_remove (h : Indexed heap index) (hx : heap a = some x) (hlatest : x.latest = true)
    (hkey : x.key = k) (hcontent : x.content = none) :
    records (Function.update heap a (some x')) (Function.update index k none)
      = records heap index := by
  subst hkey
  have hstep : records (Function.update heap a (some x')) (Function.update index x.key none)
      = Function.update (records heap index) x.key none := by
    refine records_step (records_of_none (Function.update_self ..)) ?_
    intro k' hk'
    refine ⟨Function.update_of_ne hk' _ _, fun c hc => ?_⟩
    rw [Function.update_of_ne (h.ne_of_key hx hc hk')]
  rw [hstep, ← hcontent, ← records_of_index (h.index_eq a x hx hlatest) hx, Function.update_eq_self]

end Records

/-! ## The values of the inserts -/

section Values

variable {heap heap' : Heap (Fin n) κ} {i j : Fin n} {t : Transaction κ}
  {ws ws' : List (WriteRecord κ)}

theorem Valued.stable (h : HeapStep i heap heap') (hj : j ≠ i) (hv : Valued heap j ws) :
    Valued heap' j ws := by
  intro w hw hins
  obtain ⟨x, hx, hown, hdata⟩ := hv w hw hins
  exact ⟨x, h.own hj hx hown, hown, hdata⟩

/-- Marks and other entries do not matter. -/
theorem Valued.of_same (hv : Valued heap i ws) (hws : ∀ w ∈ ws', ∃ u ∈ ws, SameEntry w u) :
    Valued heap i ws' := by
  intro w hw hins
  obtain ⟨u, hu, htuple, -, hvalue, hinsert⟩ := hws w hw
  rw [htuple, hvalue]
  exact hv u hu (hinsert.symm.trans hins)

theorem Valued.setDoWrite (hv : Valued heap i t.writeSet) (pos : Nat) :
    Valued heap i (t.setDoWrite pos).writeSet := by
  refine hv.of_same fun w hw => ?_
  obtain ⟨p, hp⟩ := List.mem_iff_getElem?.mp hw
  obtain ⟨u, hu, hsame⟩ := setDoWrite_entry hp
  exact ⟨u, List.mem_of_getElem? hu, hsame⟩

/-- A tuple that no insert is about changes. -/
theorem Valued.of_heap (hv : Valued heap i ws)
    (hkept : ∀ w ∈ ws, w.insert = true → ∀ x, heap w.tuple = some x → x.lockOwner = some i →
      heap' w.tuple = some x) : Valued heap' i ws := by
  intro w hw hins
  obtain ⟨x, hx, hown, hdata⟩ := hv w hw hins
  exact ⟨x, hkept w hw hins x hx hown, hown, hdata⟩

theorem Valued.tail {w : WriteRecord κ} (hv : Valued heap i (w :: ws)) : Valued heap i ws :=
  fun u hu => hv u (List.mem_cons_of_mem _ hu)

theorem Valued.nil : Valued heap i ([] : List (WriteRecord κ)) := by
  simp [Valued]

/-- The entry of a new tuple. -/
theorem Valued.insert (hv : Valued heap i ws) {a : Addr} (ha : heap a = none) {k : κ}
    {v : Option Bytes} (hvalue : v ≠ some []) :
    Valued (Function.update heap a (some (.allocFirst i k v))) i
      (ws ++ [⟨a, k, v, true, false⟩]) := by
  intro w hw hins
  rcases List.mem_append.mp hw with hw | hw
  · obtain ⟨x, hx, hrest⟩ := hv w hw hins
    exact ⟨x, update_of_alloc ha hx _, hrest⟩
  · obtain rfl := List.mem_singleton.mp hw
    exact ⟨_, Function.update_self .., rfl, Tuple.data_of_value hvalue rfl rfl⟩

variable {cfg : Config} {s s' : State n κ} {act : Action n κ}

theorem Valued.of_eq {heap' : Heap (Fin n) κ} {t' : Transaction κ} {pc' : Pc κ}
    (hheap : s'.heap = heap') (ht : s'.txn i = t') (hpc : s'.pc i = pc')
    (h : Valued heap' i (pc'.unwritten t')) :
    Valued s'.heap i ((s'.pc i).unwritten (s'.txn i)) := by
  rw [hheap, ht, hpc]
  exact h

/-- `write_record_at` leaves the other tuples as they are. -/
theorem Valued.write_tuple {rest : List (WriteRecord κ)} {w : WriteRecord κ}
    {x : Tuple (Fin n) κ} {b : Addr} {tid : Nat} (hv : Valued heap i rest)
    (snapshotsEnabled : Bool) (hb : heap b = none) (hvalue : w.value ≠ some [])
    (hlast : ∀ u ∈ rest, u.tuple ≠ w.tuple) :
    Valued (Tuple.writeRecordAt snapshotsEnabled heap w.tuple x b tid w.value).1 i rest := by
  obtain ⟨y, o, hheap, -⟩ := Tuple.writeRecordAt_cases (a := w.tuple) (x := x) (t := tid)
    snapshotsEnabled hb hvalue
  rw [hheap]
  refine hv.of_heap fun u hu _ z hz _ => ?_
  rw [Function.update_of_ne (hlast u hu), update_of_alloc hb hz]

variable [DecidableEq κ]

/-- The values for the thread that takes the step. -/
theorem TxnStep.valued (hwf : Wf s) (h : TxnStep cfg s i act s')
    (hv : Valued s.heap i ((s.pc i).unwritten (s.txn i))) :
    Valued s'.heap i ((s'.pc i).unwritten (s'.txn i)) := by
  have hth := hwf.thread i
  have hwrite : ∀ {tid : Nat} {infos : List (WriteInfo κ)} {w : WriteRecord κ}
      {rest : List (WriteRecord κ)}, s.pc i = .writing tid infos (w :: rest) →
      Valued s.heap i rest := by
    intro tid infos w rest hpc
    rw [hpc] at hv
    exact Valued.tail hv
  cases h with
  | begin hpc => exact .of_eq rfl (Function.update_self ..) (Function.update_self ..) .nil
  | found hpc hk =>
      rw [hpc] at hv
      exact .of_eq rfl rfl (Function.update_self ..) hv
  | absentNew hpc hk hm =>
      rw [hpc] at hv
      exact .of_eq rfl (Function.update_self ..) hpc hv
  | absentSame hpc hk he =>
      rw [hpc] at hv
      exact .of_eq rfl (Function.update_self ..) hpc hv
  | absentChanged hpc => exact .of_eq rfl rfl (Function.update_self ..) .nil
  | readOwn hpc =>
      rw [hpc] at hv
      exact .of_eq rfl rfl (Function.update_self ..) hv
  | readMarker hpc hx hver =>
      rw [hpc] at hv
      exact .of_eq rfl (Function.update_self ..) (Function.update_self ..) hv
  | readTuple hpc hx hver hlock =>
      rw [hpc] at hv
      exact .of_eq rfl (Function.update_self ..) (Function.update_self ..) hv
  | put hpc hvalue =>
      rw [hpc] at hv
      exact .of_eq rfl rfl (Function.update_self ..) hv
  | searchFound hpc hk =>
      rw [hpc] at hv
      refine .of_eq rfl (Function.update_self ..) (Function.update_self ..) ?_
      intro w hw hins
      rcases List.mem_append.mp hw with hw | hw
      · exact hv w hw hins
      · obtain rfl := List.mem_singleton.mp hw
        cases hins
  | searchAbsent hpc =>
      rw [hpc] at hv
      exact .of_eq rfl rfl (Function.update_self ..) hv
  | insertFailed hpc =>
      rw [hpc] at hv
      exact .of_eq rfl rfl (Function.update_self ..) hv
  | inserted hpc ha hk =>
      rw [hpc] at hv hth
      exact .of_eq rfl (Function.update_self ..) (Function.update_self ..)
        (Valued.insert hv ha hth.place.2)
  | insertedChanged hpc ha hk => exact .of_eq rfl rfl (Function.update_self ..) .nil
  | abort hpc => exact .of_eq rfl rfl (Function.update_self ..) .nil
  | commitRead hpc hw =>
      rw [hpc] at hv
      exact .of_eq rfl rfl (Function.update_self ..) hv
  | commitWrite hpc hw =>
      rw [hpc] at hv
      exact .of_eq rfl rfl (Function.update_self ..) hv
  | lockNext hpc hgroup =>
      rw [hpc] at hv
      refine .of_eq rfl (Function.update_self ..) (Function.update_self ..) ?_
      split
      · exact Valued.setDoWrite hv _
      · exact hv
  | lockInserted hpc hgroup hins =>
      rw [hpc] at hv
      exact .of_eq rfl (Function.update_self ..) (Function.update_self ..) (Valued.setDoWrite hv _)
  | lockTentative hpc => exact .of_eq rfl rfl (Function.update_self ..) .nil
  | lockLatest hpc hgroup hins hx hver hlock hlatest =>
      rw [hpc] at hv
      refine .of_eq rfl (Function.update_self ..) (Function.update_self ..) ?_
      refine (Valued.setDoWrite hv _).of_heap fun w hw hwi y hy hown => ?_
      refine (Function.update_of_ne (fun heq => ?_) _ _).trans hy
      rw [heq, hx] at hy
      obtain rfl := Option.some.inj hy
      rw [hlock] at hown
      cases hown
  | lockStale hpc hins hx hver hlock => exact .of_eq rfl rfl (Function.update_self ..) .nil
  | genCommitTid hpc htid =>
      rw [hpc] at hv
      exact .of_eq rfl rfl (Function.update_self ..) hv
  | validated hpc =>
      rw [hpc] at hv
      exact .of_eq rfl rfl (Function.update_self ..) hv
  | validateRead hpc hx hlock hlatest hle =>
      rw [hpc] at hv
      exact .of_eq rfl rfl (Function.update_self ..) hv
  | validateFailed hpc => exact .of_eq rfl rfl (Function.update_self ..) .nil
  | nodesRead hpc => exact .of_eq rfl rfl (Function.update_self ..) .nil
  | nodesWrite hpc =>
      rw [hpc] at hv
      exact .of_eq rfl rfl (Function.update_self ..) hv
  | nodeSame hpc hsame =>
      rw [hpc] at hv
      exact .of_eq rfl rfl (Function.update_self ..) hv
  | nodeChanged hpc => exact .of_eq rfl rfl (Function.update_self ..) .nil
  | written hpc => exact .of_eq rfl rfl (Function.update_self ..) .nil
  | writeSkip hpc hw => exact .of_eq rfl rfl (Function.update_self ..) (hwrite hpc)
  | writeInsert hpc hw hins hx =>
      have htail := hwrite hpc
      rw [hpc] at hth
      refine .of_eq rfl rfl (Function.update_self ..) (htail.of_heap fun u hu hui y hy hown => ?_)
      refine (Function.update_of_ne (fun heq => ?_) _ _).trans hy
      rw [hth.insert_once u hu heq] at hui
      cases hui
  | writeOver hpc hw hins hx hb hhead =>
      have htail := hwrite hpc
      have hvalue := (hwf.writing hpc hw hx).2.2.2.1
      rw [hpc] at hth
      exact .of_eq rfl rfl (Function.update_self ..)
        (htail.write_tuple cfg.snapshotsEnabled hb hvalue (hth.last hw hins))
  | writeReplace hpc hw hins hx hb hhead =>
      have htail := hwrite hpc
      have hvalue := (hwf.writing hpc hw hx).2.2.2.1
      rw [hpc] at hth
      exact .of_eq rfl rfl (Function.update_self ..)
        (htail.write_tuple cfg.snapshotsEnabled hb hvalue (hth.last hw hins))
  | unlocked hpc => exact .of_eq rfl rfl (Function.update_self ..) .nil
  | unlockSkip hpc hw => exact .of_eq rfl rfl (Function.update_self ..) .nil
  | unlockTuple hpc hw hx => exact .of_eq rfl rfl (Function.update_self ..) .nil
  | cleaned hpc => exact .of_eq rfl rfl (Function.update_self ..) .nil
  | cleanupSkip hpc hw => exact .of_eq rfl rfl (Function.update_self ..) .nil
  | cleanupInsert hpc hw hins hx => exact .of_eq rfl rfl (Function.update_self ..) .nil
  | cleanupTuple hpc hw hins hx => exact .of_eq rfl rfl (Function.update_self ..) .nil

theorem ValuesWf.next (hvalues : ValuesWf s) (hwf : Wf s) (h : State.next cfg act s = some s') :
    ValuesWf s' := by
  cases hi : act.thread with
  | none =>
      cases act with
      | tick =>
          obtain rfl := Option.some.inj h
          exact hvalues
      | reshape leaf nodeVersion =>
          obtain rfl := Option.some.inj h
          exact hvalues
      | _ => cases hi
  | some i =>
      have hstep := TxnStep.of_next h hi
      intro j
      by_cases hj : j = i
      · rw [hj]
        exact hstep.valued hwf (hvalues i)
      · obtain ⟨hpc, htxn⟩ := hstep.others hj
        rw [hpc, htxn]
        exact (hvalues j).stable (hstep.heapStep hwf) hj

theorem silo_values (h : (silo n κ cfg).Reachable s) : ValuesWf s := by
  refine h.invariant (P := ValuesWf) ?_ fun _ _ _ hr hv hn => hv.next (silo_wf hr) hn
  rintro s ⟨-, -, -, hpc, -⟩ i
  rw [hpc]
  exact Valued.nil

end Values

/-! ## What a step does to the records -/

/-- An entry is written. -/
structure WriteStep (s : State n κ) [DecidableEq κ] (i : Fin n) (s' : State n κ) (tid : Nat)
    (w : WriteRecord κ) (rest : List (WriteRecord κ)) : Prop where
  place : ∃ infos, s.pc i = .writing tid infos (w :: rest) ∧ s'.pc i = .writing tid infos rest
  doWrite : w.doWrite = true
  txn_eq : s'.txn = s.txn
  record_eq : s'.record = Function.update s.record w.key w.value
  /-- Who has read the old record finds another version or a tuple that is not the latest. -/
  tuple : ∃ x x', s.heap w.tuple = some x ∧ x.key = w.key ∧ x.latest = true
    ∧ x.lockOwner = some i ∧ s'.heap w.tuple = some x' ∧ (x'.latest = true → x'.version = tid)

section Steps

variable [DecidableEq κ] {cfg : Config} {s s' : State n κ} {i : Fin n} {act : Action n κ}

theorem TxnStep.writes (hwf : Wf s) (htids : TidsWf s) (hvalues : ValuesWf s)
    (h : TxnStep cfg s i act s') :
    (∃ tid w rest, WriteStep s i s' tid w rest)
      ∨ (s'.record = s.record ∧ ((s'.pc i).todo = (s.pc i).todo
        ∨ ∃ tid infos, s.pc i = .nodes (some tid) infos []
          ∧ s'.pc i = .writing tid infos (s.txn i).writeSet)) := by
  have hidx := hwf.indexed
  have hth := hwf.thread i
  have hv := hvalues i
  cases h with
  | absentNew hpc hk hm => exact .inr ⟨rfl, .inl rfl⟩
  | absentSame hpc hk he => exact .inr ⟨rfl, .inl rfl⟩
  | inserted hpc ha hk =>
      refine .inr ⟨records_insert hidx ha hk (Tuple.content_allocFirst i _), .inl ?_⟩
      simp [hpc, Pc.todo]
  | insertedChanged hpc ha hk =>
      refine .inr ⟨records_insert hidx ha hk (Tuple.content_allocFirst i _), .inl ?_⟩
      simp [State.abortImpl, hpc, Pc.todo]
  | lockLatest hpc hgroup hins hx hver hlock hlatest =>
      exact .inr ⟨records_update hx rfl, .inl (by simp [hpc, Pc.todo])⟩
  | lockStale hpc hins hx hver hlock =>
      exact .inr ⟨records_update hx rfl, .inl (by simp [hpc, Pc.todo])⟩
  | nodesWrite hpc => exact .inr ⟨rfl, .inr ⟨_, _, hpc, Function.update_self ..⟩⟩
  | writeSkip hpc hw =>
      refine .inr ⟨rfl, .inl ?_⟩
      rw [State.setPc_pc, Function.update_self, hpc, Pc.todo, Pc.todo,
        List.filter_cons_of_neg (by simp [hw])]
  | @writeInsert b tid infos w rest x hpc hw hins hx =>
      obtain ⟨hown, hlatest, hkey, -, -⟩ := hwf.writing hpc hw hx
      rw [hpc] at hv
      obtain ⟨y, hy, -, hdata⟩ := hv w (by simp [Pc.unwritten]) hins
      obtain rfl : y = x := Option.some.inj (hy.symm.trans hx)
      have htid := (htids.tid i tid (by rw [hpc]; rfl)).2.ne_max
      refine .inl ⟨tid, w, rest, ⟨infos, hpc, Function.update_self ..⟩, hw, rfl, ?_,
        ⟨y, _, hx, hkey, hlatest, hown, Function.update_self .., fun _ => rfl⟩⟩
      exact records_write hidx hx hlatest hkey (Function.update_self ..)
        ((Tuple.content_of_version htid).trans hdata)
        fun c z hz hc => (Function.update_of_ne hc _ _).trans hz
  | @writeOver b tid infos w rest x hpc hw hins hx hb hhead =>
      obtain ⟨hown, hlatest, hkey, hvalue, -⟩ := hwf.writing hpc hw hx
      have htid := (htids.tid i tid (by rw [hpc]; rfl)).2.ne_max
      have hne : b ≠ w.tuple := by
        rintro rfl
        rw [hx] at hb
        cases hb
      obtain ⟨y, o, hheap, ⟨-, hy, ho⟩ | ⟨hhead', -⟩⟩ :=
        Tuple.writeRecordAt_cases (a := w.tuple) (x := x) (t := tid) cfg.snapshotsEnabled hb hvalue
      · have hcontent : y.content = w.value := by
          rw [Tuple.content_of_version (hy.version_eq ▸ htid), hy.data_eq]
        refine .inl ⟨tid, w, rest, ⟨infos, hpc, Function.update_self ..⟩, hw, rfl, ?_,
          ⟨x, y, hx, hkey, hlatest, hown, ?_, fun _ => hy.version_eq⟩⟩
        · refine (congrArg (records · s.index) hheap).trans (records_write hidx hx hlatest hkey
            (Function.update_self ..) hcontent fun c z hz hc => ?_)
          rw [Function.update_of_ne hc, update_of_alloc hb hz]
        · exact (congrFun hheap w.tuple).trans (Function.update_self ..)
      · exact absurd (hhead'.symm.trans hhead) hne
  | @writeReplace b tid infos w rest x hpc hw hins hx hb hhead =>
      obtain ⟨hown, hlatest, hkey, hvalue, -⟩ := hwf.writing hpc hw hx
      have htid := (htids.tid i tid (by rw [hpc]; rfl)).2.ne_max
      obtain ⟨y, o, hheap, ⟨hhead', -⟩ | ⟨hhead', rfl, z, rfl, -, -, -, hzv, hz⟩⟩ :=
        Tuple.writeRecordAt_cases (a := w.tuple) (x := x) (t := tid) cfg.snapshotsEnabled hb hvalue
      · exact absurd hhead' hhead
      · have hcontent : z.content = w.value := by
          rw [Tuple.content_of_version (hzv ▸ htid), hz]
        refine .inl ⟨tid, w, rest, ⟨infos, hpc, Function.update_self ..⟩, hw, rfl, ?_,
          ⟨x, { x with latest := false }, hx, hkey, hlatest, hown, ?_, by simp⟩⟩
        · exact (congrArg₂ records hheap
            (congrArg (fun b => Function.update s.index w.key (some b)) hhead')).trans
            (records_replace hidx hx hkey hb hcontent)
        · exact (congrFun hheap w.tuple).trans (Function.update_self ..)
  | unlockTuple hpc hw hx => exact .inr ⟨records_update hx rfl, .inl (by simp [hpc, Pc.todo])⟩
  | @cleanupInsert w rest x hpc hw hins hx =>
      have hkey := (hwf.owner (by rw [hpc]; exact List.mem_cons_self) hw hx).2
      rw [hpc] at hth
      obtain ⟨y, hy, hlatest, hver⟩ := hth.place w (by simp) hins
      obtain rfl : y = x := Option.some.inj (hy.symm.trans hx)
      refine .inr ⟨?_, .inl (by simp [hpc, Pc.todo])⟩
      exact records_remove hidx hx hlatest hkey (Tuple.content_of_maxTid hver)
  | cleanupTuple hpc hw hins hx =>
      exact .inr ⟨records_update hx rfl, .inl (by simp [hpc, Pc.todo])⟩
  | written hpc => exact .inr ⟨rfl, .inl (by simp [hpc, Pc.todo, stores])⟩
  | _ => exact .inr ⟨rfl, .inl (by simp [State.abortImpl, Pc.todo, *])⟩

end Steps

end TailBench.Silo.Proto2
