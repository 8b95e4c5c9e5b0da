import TailBench.Silo.Records

set_option autoImplicit false

/-! # What the read sets stand for

A transaction that is still undecided has read versions of tuples and has found keys absent. What is
true of them until the decision, whatever the other threads do:

* the tuple of a read has the version read or a later one, and who holds the tuple with an id has a
  larger id than the version read (`Seen`);
* if the tuple is still the latest at the version read, its record is the one read (`Current`);
* if the leaf of an absent key has the version noted, the key is still absent, or the transaction has
  inserted it itself (`Absences`).

`V` is the store that the records read are compared with.
-/

namespace TailBench.Silo.Proto2

open Lib

variable {n : Nat} {κ : Type*}

/-- In a transaction and before its end. -/
def Pc.undecided : Pc κ → Bool
  | .ready | .reading _ _ | .putting _ _ _ | .locking _ _ _ | .validating _ _ _ | .nodes _ _ _ =>
      true
  | .idle | .writing _ _ _ | .unlocking _ | .aborting _ => false

/-- No thread has still to write the key. -/
def State.Installed (s : State n κ) (k : κ) : Prop := ∀ j, k ∉ (s.pc j).todo.map Prod.fst

structure Seen (s : State n κ) (r : ReadRecord κ) : Prop where
  tuple : ∃ x, s.heap r.tuple = some x ∧ x.key = r.key ∧ r.tid ≤ x.version
    ∧ (x.version = maxTid → r.tid = minTid)
  older : ∀ j t, (s.pc j).tid = some t → ∀ x, s.heap r.tuple = some x → x.lockOwner = some j →
    r.tid < t

def SeenWf (s : State n κ) : Prop := ∀ i, ∀ r ∈ (s.txn i).readSet, Seen s r

def Current (s : State n κ) (V : κ → Option Bytes) (r : ReadRecord κ) : Prop :=
  ∀ x, s.heap r.tuple = some x → x.latest = true → x.version ≤ r.tid → s.Installed r.key →
    V r.key = r.value

/-- The key is absent for `i`. -/
def State.Absent (s : State n κ) (i : Fin n) (k : κ) : Prop :=
  ∀ a, s.index k = some a → ∃ x, s.heap a = some x ∧ x.lockOwner = some i ∧ x.version = maxTid

structure Absences (s : State n κ) (i : Fin n) (V : κ → Option Bytes) : Prop where
  covered : ∀ a ∈ (s.txn i).absent, ∃ e ∈ (s.txn i).absentSet, e.1 = a.2
  le : ∀ e ∈ (s.txn i).absentSet, e.2 ≤ s.nodeVersion e.1
  leaf : ∀ a ∈ (s.txn i).absent, (a.2, s.nodeVersion a.2) ∈ (s.txn i).absentSet → s.leaf a.1 = a.2
  absent : ∀ a ∈ (s.txn i).absent, (a.2, s.nodeVersion a.2) ∈ (s.txn i).absentSet → s.Absent i a.1
  current : ∀ a ∈ (s.txn i).absent, (a.2, s.nodeVersion a.2) ∈ (s.txn i).absentSet → V a.1 = none

/-! ## What is left to be written -/

section Todo

variable {s : State n κ} {i j : Fin n} {k : κ} {a : Addr} {x : Tuple (Fin n) κ}

theorem mem_todo {p : Pc κ} (h : k ∈ p.todo.map Prod.fst) :
    ∃ tid infos rest, p = .writing tid infos rest ∧ ∃ w ∈ rest, w.doWrite = true ∧ w.key = k := by
  cases p with
  | writing tid infos rest =>
      rw [Pc.todo, map_fst_stores, List.mem_map] at h
      obtain ⟨w, hw, rfl⟩ := h
      obtain ⟨hw, hdo⟩ := List.mem_filter.mp hw
      exact ⟨tid, infos, rest, rfl, w, hw, hdo, rfl⟩
  | _ => simp [Pc.todo] at h

/-- A key that is still to be written has its tuple, and the thread holds it. -/
theorem Wf.todo_held (hwf : Wf s) (h : k ∈ (s.pc j).todo.map Prod.fst) :
    ∃ a x, s.index k = some a ∧ s.heap a = some x ∧ x.lockOwner = some j := by
  obtain ⟨tid, infos, rest, hpc, w, hw, hdo, rfl⟩ := mem_todo h
  have hth := hwf.thread j
  rw [hpc] at hth
  obtain ⟨hl, hwhole, ⟨q, hq⟩, -, howned, htodo⟩ := hth
  have hmem : w ∈ (s.txn j).writeSet := List.mem_of_mem_drop (hq ▸ hw)
  obtain ⟨x, hx, hlatest, -⟩ := htodo w hw hdo
  obtain ⟨y, hy, hown⟩ := howned w hmem
  obtain rfl : y = x := Option.some.inj (hy.symm.trans hx)
  obtain ⟨z, hz, hkey⟩ := hwhole.key hl hmem
  obtain rfl : z = y := Option.some.inj (hz.symm.trans hx)
  exact ⟨w.tuple, z, hkey ▸ hwf.indexed.index_eq _ z hx hlatest, hx, hown⟩

/-- A key whose tuple nobody holds is written. -/
theorem Wf.installed (hwf : Wf s) (h : ∀ a x, s.index k = some a → s.heap a = some x →
    ∀ j, x.lockOwner = some j → (s.pc j).todo = []) : s.Installed k := by
  intro j hk
  obtain ⟨a, x, ha, hx, hown⟩ := hwf.todo_held hk
  rw [h a x ha hx j hown] at hk
  simp at hk

theorem todo_of_undecided {p : Pc κ} (h : p.undecided = true) : p.todo = [] := by
  cases p with
  | writing => cases h
  | _ => rfl

end Todo

/-! ## Reads -/

section NewRead

variable {s : State n κ} {i : Fin n} {V : κ → Option Bytes} {r : ReadRecord κ}

theorem Seen.of_newRead (hwf : Wf s) (htids : TidsWf s) (h : NewRead s i r) : Seen s r := by
  have hth := hwf.thread i
  cases h with
  | @marker k a x hpc hx hv =>
      rw [hpc] at hth
      obtain ⟨-, y, hy, hkey⟩ := hth.place
      obtain rfl : y = x := Option.some.inj (hy.symm.trans hx)
      exact ⟨⟨y, hx, hkey, Nat.zero_le _, fun _ => rfl⟩, fun j t ht _ _ _ => (htids.tid j t ht).1⟩
  | @tuple k a x hpc hx hv hlock =>
      rw [hpc] at hth
      obtain ⟨-, y, hy, hkey⟩ := hth.place
      obtain rfl : y = x := Option.some.inj (hy.symm.trans hx)
      refine ⟨⟨y, hx, hkey, le_rfl, fun h => absurd h hv⟩, ?_⟩
      intro j t ht z hz hown
      obtain rfl : z = y := Option.some.inj (hz.symm.trans hx)
      rw [hlock] at hown
      cases hown

/-- A record that has just been read. -/
theorem Current.of_newRead (hwf : Wf s) (h : NewRead s i r)
    (hV : ∀ k, s.Installed k → V k = s.record k) : Current s V r := by
  have hth := hwf.thread i
  intro y hy hlatest hle hinst
  rw [hV _ hinst]
  cases h with
  | @marker k a x hpc hx hv =>
      obtain rfl : y = x := Option.some.inj (hy.symm.trans hx)
      rw [hv] at hle
      simp [minTid, maxTid] at hle
  | @tuple k a x hpc hx hv hlock =>
      obtain rfl : y = x := Option.some.inj (hy.symm.trans hx)
      rw [hpc] at hth
      obtain ⟨-, z, hz, hkey⟩ := hth.place
      obtain rfl : z = y := Option.some.inj (hz.symm.trans hx)
      have hk := hwf.indexed.index_eq _ z hx hlatest
      rw [hkey] at hk
      exact (records_of_index hk hx).trans (Tuple.content_of_version hv)

end NewRead

section Steps

variable [DecidableEq κ] {cfg : Config} {s s' : State n κ} {i j : Fin n} {act : Action n κ}
  {V V' : κ → Option Bytes} {r : ReadRecord κ}

theorem Seen.step (hseen : Seen s r) (hwf : Wf s) (htids : TidsWf s) (hn : n ≤ 2 ^ Tid.coreBits)
    (hok : Allowed s act) (h : TxnStep cfg s i act s') : Seen s' r := by
  obtain ⟨x, hx, hkey, hle, hmin⟩ := hseen.tuple
  refine ⟨?_, ?_⟩
  · obtain ⟨x', hx', hstep⟩ := h.tuple hwf hx
    refine ⟨x', hx', hstep.key_eq.trans hkey, ?_⟩
    cases hstep with
    | written hown htid hkey' hown' hlatest hver =>
        rw [hver]
        exact ⟨(hseen.older i _ htid x hx hown).le,
          fun hmax => absurd hmax (htids.tid i _ htid).2.ne_max⟩
    | _ => exact ⟨hle, hmin⟩
  · intro j t ht x' hx' hown
    rcases h.ids with ⟨-, -, -, htid⟩ | ⟨u, rfl, inserted, done, hpc, hu, rfl⟩
    · obtain ⟨htj, hown₀⟩ := h.kept_owner hwf htid ht hx hx' hown
      exact hseen.older j t htj x hx hown₀
    · obtain rfl : x' = x := Option.some.inj (hx'.symm.trans hx)
      by_cases hj : j = i
      · subst hj
        have hspec := htids.genSpec hn hpc hok
        rw [← hu] at hspec
        obtain rfl : u = t := by simpa [Pc.tid] using ht
        by_cases hmax : x'.version = maxTid
        · rw [hmin hmax]
          exact Nat.zero_lt_of_lt hspec.last_lt
        · have hmem := (hwf.locked_version hpc hx hown).resolve_left hmax
          exact hle.trans_lt (hspec.write_lt _ hmem hmax)
      · exact hseen.older j t (by simpa [Function.update_of_ne hj] using ht) x' hx hown

theorem SeenWf.next (hseen : SeenWf s) (hwf : Wf s) (htids : TidsWf s) (hn : n ≤ 2 ^ Tid.coreBits)
    (hok : Allowed s act) (h : State.next cfg act s = some s') : SeenWf s' := by
  cases hi : act.thread with
  | none =>
      cases act with
      | tick =>
          obtain rfl := Option.some.inj h
          exact fun i r hr => ⟨(hseen i r hr).tuple, (hseen i r hr).older⟩
      | reshape leaf nodeVersion =>
          obtain rfl := Option.some.inj h
          exact fun i r hr => ⟨(hseen i r hr).tuple, (hseen i r hr).older⟩
      | _ => cases hi
  | some i =>
      have hstep := TxnStep.of_next h hi
      intro j r hr
      have hold : Seen s r := by
        by_cases hj : j = i
        · subst hj
          rcases hstep.readSet hr with hr | ⟨hr, -, -⟩
          · exact hseen j r hr
          · exact Seen.of_newRead hwf htids hr
        · rw [(hstep.others hj).2] at hr
          exact hseen j r hr
      exact hold.step hwf htids hn hok hstep

theorem silo_seen (hn : n ≤ 2 ^ Tid.coreBits) (h : (silo n κ cfg).ReachableBy Allowed s) :
    SeenWf s := by
  refine h.invariant (P := SeenWf) ?_ fun _ _ _ hr hseen hok hnext =>
    hseen.next (silo_wf hr.reachable) (silo_tids hn hr) hn hok hnext
  rintro s ⟨-, -, -, -, htxn, -⟩ i r hr
  rw [htxn] at hr
  cases hr

/-- A tuple that is the latest at the version read was so before. -/
theorem Seen.latest (hseen : Seen s r) (hwf : Wf s) (h : TxnStep cfg s i act s')
    {x' : Tuple (Fin n) κ} (hx' : s'.heap r.tuple = some x') (hlatest : x'.latest = true)
    (hle : x'.version ≤ r.tid) :
    ∃ x, s.heap r.tuple = some x ∧ x.key = r.key ∧ x.latest = true ∧ x.version ≤ r.tid := by
  obtain ⟨x, hx, hkey, -⟩ := hseen.tuple
  refine ⟨x, hx, hkey, ?_⟩
  obtain ⟨y, hy, hstep⟩ := h.tuple hwf hx
  obtain rfl : y = x' := Option.some.inj (hy.symm.trans hx')
  cases hstep with
  | removed => cases hlatest
  | replaced => cases hlatest
  | written hown htid hkey' hown' hlatest' hver =>
      have := hseen.older i _ htid x hx hown
      omega
  | _ => exact ⟨hlatest, hle⟩

/-- Its key is not the one that is written. -/
theorem Seen.not_written (hseen : Seen s r) (hwf : Wf s) (h : TxnStep cfg s i act s') {tid : Nat}
    {w : WriteRecord κ} {rest : List (WriteRecord κ)} (hw : WriteStep s i s' tid w rest)
    {x' : Tuple (Fin n) κ} (hx' : s'.heap r.tuple = some x') (hlatest : x'.latest = true)
    (hle : x'.version ≤ r.tid) : w.key ≠ r.key := by
  intro heq
  obtain ⟨x, hx, hkey, hxl, -⟩ := hseen.latest hwf h hx' hlatest hle
  obtain ⟨y, y', hy, hyk, hyl, hyown, hy', hversion⟩ := hw.tuple
  have htuple : w.tuple = r.tuple := by
    have hxa := hwf.indexed.index_eq _ x hx hxl
    have hya := hwf.indexed.index_eq _ y hy hyl
    rw [hyk, heq, ← hkey, hxa] at hya
    exact (Option.some.inj hya).symm
  rw [htuple] at hy hy'
  obtain rfl : y' = x' := Option.some.inj (hy'.symm.trans hx')
  obtain ⟨infos, hpc, -⟩ := hw.place
  have := hseen.older i tid (by rw [hpc]; rfl) y hy hyown
  have := hversion hlatest
  omega

/-- Only a write installs a key. -/
theorem Installed.back (h : TxnStep cfg s i act s') (hwf : Wf s) (htids : TidsWf s)
    (hvalues : ValuesWf s) {k : κ} (hinst : s'.Installed k)
    (hw : ∀ tid w rest, WriteStep s i s' tid w rest → w.key ≠ k) : s.Installed k := by
  intro j hk
  by_cases hj : j = i
  · subst hj
    have hnot := hinst j
    rcases h.writes hwf htids hvalues with ⟨tid, w, rest, hstep⟩ | ⟨-, htodo | ⟨tid, infos, hpc, -⟩⟩
    · obtain ⟨infos, hpc, hpc'⟩ := hstep.place
      rw [hpc, Pc.todo, List.filter_cons_of_pos hstep.doWrite, map_fst_stores, List.map_cons,
        List.mem_cons] at hk
      rw [hpc', Pc.todo, map_fst_stores] at hnot
      rcases hk with rfl | hk
      · exact hw tid w rest hstep rfl
      · exact hnot hk
    · rw [htodo] at hnot
      exact hnot hk
    · rw [hpc] at hk
      simp [Pc.todo] at hk
  · have hnot := hinst j
    rw [(h.others hj).1] at hnot
    exact hnot hk

/-- **A record read stays current** as long as the store it is compared with changes only where
there is something to be written. -/
theorem Current.step (hc : Current s V r) (hseen : Seen s r) (hwf : Wf s) (htids : TidsWf s)
    (hvalues : ValuesWf s) (h : TxnStep cfg s i act s')
    (hV : s'.Installed r.key → V' r.key = V r.key) : Current s' V' r := by
  intro x' hx' hlatest hle hinst
  obtain ⟨x, hx, -, hxl, hxle⟩ := hseen.latest hwf h hx' hlatest hle
  rw [hV hinst]
  refine hc x hx hxl hxle (Installed.back h hwf htids hvalues hinst ?_)
  exact fun tid w rest hw => hseen.not_written hwf h hw hx' hlatest hle

end Steps

/-! ## Absent keys -/

section Absent

variable {s s' : State n κ} {i j : Fin n} {V V' : κ → Option Bytes} {k : κ}

/-- Nobody else has still to write an absent key. -/
theorem State.Absent.installed (h : s.Absent i k) (hwf : Wf s) (hpc : (s.pc i).undecided = true) :
    s.Installed k := by
  refine hwf.installed fun a x ha hx j hown => ?_
  obtain ⟨y, hy, hown', -⟩ := h a ha
  obtain rfl : y = x := Option.some.inj (hy.symm.trans hx)
  obtain rfl : i = j := Option.some.inj (hown'.symm.trans hown)
  exact todo_of_undecided hpc

/-- The notes are the same, and where the version noted is still there nothing has changed. -/
theorem Absences.of_same (ha : Absences s j V) (hwf' : Wf s') (hpc' : (s'.pc j).undecided = true)
    (habsent : (s'.txn j).absent = (s.txn j).absent)
    (hset : (s'.txn j).absentSet = (s.txn j).absentSet)
    (hle : ∀ m, s.nodeVersion m ≤ s'.nodeVersion m)
    (hleaf : ∀ a ∈ (s.txn j).absent, s.leaf a.1 = a.2 → s'.nodeVersion a.2 = s.nodeVersion a.2 →
      s'.leaf a.1 = a.2)
    (hkey : ∀ a ∈ (s.txn j).absent, s.leaf a.1 = a.2 → s'.nodeVersion a.2 = s.nodeVersion a.2 →
      s.Absent j a.1 → s'.Absent j a.1)
    (hV : ∀ k, s'.Installed k → V' k = V k) : Absences s' j V' := by
  have hback : ∀ a, (a, s'.nodeVersion a) ∈ (s.txn j).absentSet →
      s'.nodeVersion a = s.nodeVersion a := fun a h => Nat.le_antisymm (ha.le _ h) (hle a)
  have habs : ∀ a ∈ (s.txn j).absent, (a.2, s'.nodeVersion a.2) ∈ (s.txn j).absentSet →
      s'.Absent j a.1 := by
    intro a hmem hset
    have heq := hback _ hset
    rw [heq] at hset
    exact hkey a hmem (ha.leaf a hmem hset) heq (ha.absent a hmem hset)
  refine ⟨?_, ?_, ?_, ?_, ?_⟩
  · rw [habsent, hset]
    exact ha.covered
  · rw [hset]
    exact fun e he => (ha.le e he).trans (hle _)
  · rw [habsent, hset]
    intro a hmem hset
    have heq := hback _ hset
    rw [heq] at hset
    exact hleaf a hmem (ha.leaf a hmem hset) heq
  · rw [habsent, hset]
    exact habs
  · rw [habsent, hset]
    intro a hmem hset
    rw [hV _ ((habs a hmem hset).installed hwf' hpc')]
    rw [hback _ hset] at hset
    exact ha.current a hmem hset

theorem Absences.nil (habsent : (s.txn j).absent = []) (hset : (s.txn j).absentSet = []) :
    Absences s j V := by
  refine ⟨?_, ?_, ?_, ?_, ?_⟩ <;> simp [habsent, hset]

theorem Absences.reshape (ha : Absences s j V) (hwf : Wf s) (hpc : (s.pc j).undecided = true)
    {leaf : κ → Node} {nodeVersion : Node → Nat} (hok : Allowed s (.reshape leaf nodeVersion)) :
    Absences { s with leaf := leaf, nodeVersion := nodeVersion } j V := by
  refine ha.of_same ⟨hwf.indexed, hwf.thread⟩ hpc rfl rfl hok.1 ?_ (fun _ _ _ _ h => h)
    fun _ _ => rfl
  intro a _ hleaf heq
  by_contra hne
  have hlt := hok.2 a.1 (hleaf ▸ hne)
  rw [hleaf] at hlt
  exact hlt.ne' heq

/-- A key has not been found. -/
theorem Absences.note (ha : Absences s i V) (hwf' : Wf s') (hpc' : (s'.pc i).undecided = true)
    (hk : s.index k = none) (hVk : V k = none)
    (hheap : s'.heap = s.heap) (hindex : s'.index = s.index) (hleaf : s'.leaf = s.leaf)
    (hnv : s'.nodeVersion = s.nodeVersion)
    (habsent : (s'.txn i).absent = (s.txn i).absent ++ [(k, s.leaf k)])
    (hset : (s'.txn i).absentSet = (s.txn i).absentSet ∧ (∃ e ∈ (s.txn i).absentSet, e.1 = s.leaf k)
      ∨ (s'.txn i).absentSet = (s.txn i).absentSet ++ [(s.leaf k, s.nodeVersion (s.leaf k))]
        ∧ ∀ e ∈ (s.txn i).absentSet, e.1 ≠ s.leaf k)
    (hV : ∀ k, s'.Installed k → V' k = V k) : Absences s' i V' := by
  have hmem : ∀ e, e ∈ (s'.txn i).absentSet →
      e ∈ (s.txn i).absentSet ∨ e = (s.leaf k, s.nodeVersion (s.leaf k)) := by
    intro e he
    rcases hset with ⟨hset, -⟩ | ⟨hset, -⟩
    · exact .inl (hset ▸ he)
    · simpa [hset] using he
  have hsub : ∀ e ∈ (s.txn i).absentSet, e ∈ (s'.txn i).absentSet := by
    intro e he
    rcases hset with ⟨hset, -⟩ | ⟨hset, -⟩ <;> simp [hset, he]
  -- the version of an old key is not the one just noted
  have hold : ∀ a ∈ (s.txn i).absent, (a.2, s'.nodeVersion a.2) ∈ (s'.txn i).absentSet →
      (a.2, s.nodeVersion a.2) ∈ (s.txn i).absentSet := by
    intro a ha' he
    rw [hnv] at he
    rcases hset with ⟨hset, -⟩ | ⟨hset, hnew⟩
    · exact hset ▸ he
    · rcases hmem _ he with he | he
      · exact he
      · obtain ⟨e, he', heq⟩ := ha.covered a ha'
        exact absurd (heq.trans (congrArg Prod.fst he)) (hnew e he')
  have hnew : s'.Absent i k := by
    intro b hb
    rw [hindex, hk] at hb
    cases hb
  have habs : ∀ a ∈ (s'.txn i).absent, (a.2, s'.nodeVersion a.2) ∈ (s'.txn i).absentSet →
      s'.Absent i a.1 ∧ s'.leaf a.1 = a.2 ∧ V a.1 = none := by
    intro a ha' he
    rw [habsent] at ha'
    rcases List.mem_append.mp ha' with ha' | ha'
    · have hmem := hold a ha' he
      refine ⟨?_, hleaf ▸ ha.leaf a ha' hmem, ha.current a ha' hmem⟩
      intro b hb
      rw [hindex] at hb
      rw [hheap]
      exact ha.absent a ha' hmem b hb
    · obtain rfl := List.mem_singleton.mp ha'
      exact ⟨hnew, by rw [hleaf], hVk⟩
  refine ⟨?_, ?_, fun a ha' he => (habs a ha' he).2.1, fun a ha' he => (habs a ha' he).1, ?_⟩
  · intro a ha'
    rw [habsent] at ha'
    rcases List.mem_append.mp ha' with ha' | ha'
    · obtain ⟨e, he, heq⟩ := ha.covered a ha'
      exact ⟨e, hsub e he, heq⟩
    · obtain rfl := List.mem_singleton.mp ha'
      rcases hset with ⟨hset, e, he, heq⟩ | ⟨hset, -⟩
      · exact ⟨e, hsub e he, heq⟩
      · exact ⟨(s.leaf k, s.nodeVersion (s.leaf k)), by simp [hset], rfl⟩
  · intro e he
    rw [hnv]
    rcases hmem e he with he | rfl
    · exact ha.le e he
    · exact le_rfl
  · intro a ha' he
    obtain ⟨hab, -, hval⟩ := habs a ha' he
    rw [hV _ (hab.installed hwf' hpc'), hval]

variable [DecidableEq κ] {cfg : Config} {act : Action n κ}

/-- What a step does to the tree at a key. -/
theorem TxnStep.tree (hwf : Wf s) (h : TxnStep cfg s i act s') :
    s'.leaf = s.leaf ∧ (∀ m, s.nodeVersion m ≤ s'.nodeVersion m)
      ∧ ∀ k, s'.index k = s.index k ∨ s.nodeVersion (s.leaf k) < s'.nodeVersion (s.leaf k)
        ∨ ∃ a x, s.index k = some a ∧ s.heap a = some x ∧ x.lockOwner = some i := by
  have hbump : ∀ (f : Node → Nat) (m m' : Node), f m' ≤ Function.update f m (f m + 1) m' := by
    intro f m m'
    by_cases hm : m' = m
    · subst hm
      simp
    · rw [Function.update_of_ne hm]
  have hchanged : ∀ (o : Option Addr) (k k' : κ), Function.update s.index k o k' = s.index k'
      ∨ s.nodeVersion (s.leaf k')
        < Function.update s.nodeVersion (s.leaf k) (s.nodeVersion (s.leaf k) + 1) (s.leaf k') := by
    intro o k k'
    by_cases hk : k' = k
    · subst hk
      simp
    · exact .inl (Function.update_of_ne hk _ _)
  cases h with
  | inserted hpc ha hk =>
      exact ⟨rfl, hbump _ _, fun k' => (hchanged _ _ k').imp_right .inl⟩
  | insertedChanged hpc ha hk =>
      exact ⟨rfl, hbump _ _, fun k' => (hchanged _ _ k').imp_right .inl⟩
  | cleanupInsert hpc hw hins hx =>
      exact ⟨rfl, hbump _ _, fun k' => (hchanged _ _ k').imp_right .inl⟩
  | @writeReplace b tid infos w rest x hpc hw hins hx hb hhead =>
      obtain ⟨hown, hlatest, hkey, -, -⟩ := hwf.writing hpc hw hx
      refine ⟨rfl, fun _ => le_rfl, fun k' => ?_⟩
      by_cases hk : k' = w.key
      · subst hk
        exact .inr (.inr ⟨w.tuple, x, hkey ▸ hwf.indexed.index_eq _ x hx hlatest, hx, hown⟩)
      · exact .inl (Function.update_of_ne hk _ _)
  | _ => exact ⟨rfl, fun _ => le_rfl, fun _ => .inl rfl⟩

/-- A step of another thread. -/
theorem Absences.other (ha : Absences s j V) (hj : j ≠ i) (hwf : Wf s) (hwf' : Wf s')
    (hpc : (s.pc j).undecided = true) (h : TxnStep cfg s i act s')
    (hV : ∀ k, s'.Installed k → V' k = V k) : Absences s' j V' := by
  obtain ⟨hpc', htxn⟩ := h.others hj
  obtain ⟨hleaf, hle, hindex⟩ := h.tree hwf
  refine ha.of_same hwf' (by rw [hpc', hpc]) (by rw [htxn]) (by rw [htxn]) hle ?_ ?_ hV
  · intro a _ hl _
    rw [hleaf, hl]
  · intro a _ hl heq habsent b hb
    rcases hindex a.1 with hsame | hlt | ⟨c, x, hc, hx, hown⟩
    · obtain ⟨x, hx, hown, hv⟩ := habsent b (hsame ▸ hb)
      exact ⟨x, (h.heapStep hwf).own hj hx hown, hown, hv⟩
    · rw [hl] at hlt
      exact absurd heq hlt.ne'
    · obtain ⟨y, hy, hown', -⟩ := habsent c hc
      obtain rfl : y = x := Option.some.inj (hy.symm.trans hx)
      exact absurd (Option.some.inj (hown'.symm.trans hown)) hj

/-- The own insert changes the version of its leaf, in the notes as well. -/
theorem Absences.inserted (ha : Absences s i V) {k : κ} {v : Option Bytes} {a : Addr}
    (hfree : s.heap a = none) (hwf' : Wf s') (hpc' : (s'.pc i).undecided = true)
    (hheap : s'.heap = Function.update s.heap a (some (.allocFirst i k v)))
    (hindex : s'.index = Function.update s.index k (some a)) (hleaf : s'.leaf = s.leaf)
    (hnv : s'.nodeVersion
      = Function.update s.nodeVersion (s.leaf k) (s.nodeVersion (s.leaf k) + 1))
    (habsent : (s'.txn i).absent = (s.txn i).absent)
    (hset : (s'.txn i).absentSet = (s.txn i).absentSet.map fun e =>
      if e = (s.leaf k, s.nodeVersion (s.leaf k)) then
        (s.leaf k, s.nodeVersion (s.leaf k) + 1) else e)
    (hV : ∀ k, s'.Installed k → V' k = V k) : Absences s' i V' := by
  have hle : ∀ m, s.nodeVersion m ≤ s'.nodeVersion m := by
    intro m
    rw [hnv]
    by_cases hm : m = s.leaf k
    · subst hm
      simp
    · rw [Function.update_of_ne hm]
  have hback : ∀ m, (m, s'.nodeVersion m) ∈ (s'.txn i).absentSet →
      (m, s.nodeVersion m) ∈ (s.txn i).absentSet := by
    intro m hm
    rw [hset] at hm
    obtain ⟨e, he, heq⟩ := List.mem_map.mp hm
    split at heq
    · next hek =>
        obtain ⟨rfl, -⟩ := Prod.mk.injEq .. ▸ heq
        exact hek ▸ he
    · next hek =>
        subst heq
        by_cases hmk : m = s.leaf k
        · subst hmk
          have := ha.le _ he
          rw [hnv] at this
          simp at this
        · rw [hnv, Function.update_of_ne hmk] at he
          exact he
  have habs : ∀ b ∈ (s.txn i).absent, (b.2, s.nodeVersion b.2) ∈ (s.txn i).absentSet →
      s'.Absent i b.1 := by
    intro b hmem hb c hc
    rw [hindex] at hc
    rw [hheap]
    by_cases hk : b.1 = k
    · rw [hk, Function.update_self] at hc
      obtain rfl := Option.some.inj hc
      exact ⟨_, Function.update_self .., rfl, rfl⟩
    · rw [Function.update_of_ne hk] at hc
      obtain ⟨x, hx, hrest⟩ := ha.absent b hmem hb c hc
      exact ⟨x, update_of_alloc hfree hx _, hrest⟩
  refine ⟨?_, ?_, ?_, ?_, ?_⟩
  · intro b hb
    obtain ⟨e, he, heq⟩ := ha.covered b (habsent ▸ hb)
    refine ⟨_, hset ▸ List.mem_map_of_mem he, ?_⟩
    split
    · next hek => rw [← heq, hek]
    · exact heq
  · intro e' he'
    rw [hset] at he'
    obtain ⟨e, he, rfl⟩ := List.mem_map.mp he'
    split
    · rw [hnv, Function.update_self]
    · exact (ha.le e he).trans (hle _)
  · intro b hb hmem
    rw [hleaf]
    exact ha.leaf b (habsent ▸ hb) (hback _ hmem)
  · intro b hb hmem
    exact habs b (habsent ▸ hb) (hback _ hmem)
  · intro b hb hmem
    rw [hV _ ((habs b (habsent ▸ hb) (hback _ hmem)).installed hwf' hpc')]
    exact ha.current b (habsent ▸ hb) (hback _ hmem)

/-- A step of the thread itself. -/
theorem Absences.own (ha : (s.pc i).undecided = true → Absences s i V) (hwf : Wf s) (hwf' : Wf s')
    (h : TxnStep cfg s i act s') (hpc' : (s'.pc i).undecided = true)
    (hrecord : s.pc i = .ready → ∀ k, s.Installed k → V k = s.record k)
    (hV : ∀ k, s'.Installed k → V' k = V k) : Absences s' i V' := by
  have hsame : (s.pc i).undecided = true → s'.index = s.index → s'.leaf = s.leaf →
      s'.nodeVersion = s.nodeVersion → (s'.txn i).absent = (s.txn i).absent →
      (s'.txn i).absentSet = (s.txn i).absentSet →
      (∀ a x, s.heap a = some x → x.lockOwner = some i → s'.heap a = some x) →
      Absences s' i V' := by
    intro hpc hindex hleaf hnv habsent hset hheap
    refine (ha hpc).of_same hwf' hpc' habsent hset (by simp [hnv]) ?_ ?_ hV
    · intro a _ hl _
      rw [hleaf, hl]
    · intro a _ _ _ habs b hb
      rw [hindex] at hb
      obtain ⟨x, hx, hown, hv⟩ := habs b hb
      exact ⟨x, hheap b x hx hown, hown, hv⟩
  have hinst : ∀ {k : κ}, s.index k = none → s.Installed k := by
    intro k hk
    refine hwf.installed fun a x ha' => ?_
    rw [hk] at ha'
    cases ha'
  cases h with
  | begin hpc => exact .nil (by simp) (by simp)
  | absentNew hpc hk hm =>
      refine (ha (by rw [hpc]; rfl)).note hwf' hpc' hk ?_ rfl rfl rfl rfl (by simp)
        (.inr ⟨by simp, hm⟩) hV
      rw [hrecord hpc _ (hinst hk)]
      exact records_of_none hk
  | absentSame hpc hk he =>
      refine (ha (by rw [hpc]; rfl)).note hwf' hpc' hk ?_ rfl rfl rfl rfl (by simp)
        (.inl ⟨by simp, _, he, rfl⟩) hV
      rw [hrecord hpc _ (hinst hk)]
      exact records_of_none hk
  | inserted hpc hfree hk =>
      exact (ha (by rw [hpc]; rfl)).inserted hfree hwf' hpc' rfl rfl rfl rfl (by simp) (by simp) hV
  | lockLatest hpc hgroup hins hx hv hlock hlatest =>
      refine hsame (by rw [hpc]; rfl) rfl rfl rfl (by simp [Transaction.setDoWrite])
        (by simp [Transaction.setDoWrite]) fun a y hy hown => ?_
      refine (Function.update_of_ne (fun heq => ?_) _ _).trans hy
      rw [heq, hx] at hy
      obtain rfl := Option.some.inj hy
      rw [hlock] at hown
      cases hown
  | lockNext hpc hgroup =>
      refine hsame (by rw [hpc]; rfl) rfl rfl rfl ?_ ?_ fun _ _ hx _ => hx
      · rw [State.setPc_txn, State.setTxn_txn, Function.update_self]
        split <;> rfl
      · rw [State.setPc_txn, State.setTxn_txn, Function.update_self]
        split <;> rfl
  | found hpc => exact hsame (by rw [hpc]; rfl) rfl rfl rfl rfl rfl fun _ _ hx _ => hx
  | readOwn hpc => exact hsame (by rw [hpc]; rfl) rfl rfl rfl rfl rfl fun _ _ hx _ => hx
  | readMarker hpc =>
      exact hsame (by rw [hpc]; rfl) rfl rfl rfl (by simp) (by simp) fun _ _ hx _ => hx
  | readTuple hpc =>
      exact hsame (by rw [hpc]; rfl) rfl rfl rfl (by simp) (by simp) fun _ _ hx _ => hx
  | put hpc => exact hsame (by rw [hpc]; rfl) rfl rfl rfl rfl rfl fun _ _ hx _ => hx
  | searchFound hpc =>
      exact hsame (by rw [hpc]; rfl) rfl rfl rfl (by simp) (by simp) fun _ _ hx _ => hx
  | searchAbsent hpc => exact hsame (by rw [hpc]; rfl) rfl rfl rfl rfl rfl fun _ _ hx _ => hx
  | insertFailed hpc => exact hsame (by rw [hpc]; rfl) rfl rfl rfl rfl rfl fun _ _ hx _ => hx
  | commitRead hpc => exact hsame (by rw [hpc]; rfl) rfl rfl rfl rfl rfl fun _ _ hx _ => hx
  | commitWrite hpc => exact hsame (by rw [hpc]; rfl) rfl rfl rfl rfl rfl fun _ _ hx _ => hx
  | lockInserted hpc =>
      exact hsame (by rw [hpc]; rfl) rfl rfl rfl (by simp [Transaction.setDoWrite])
        (by simp [Transaction.setDoWrite]) fun _ _ hx _ => hx
  | genCommitTid hpc => exact hsame (by rw [hpc]; rfl) rfl rfl rfl rfl rfl fun _ _ hx _ => hx
  | validated hpc => exact hsame (by rw [hpc]; rfl) rfl rfl rfl rfl rfl fun _ _ hx _ => hx
  | validateRead hpc => exact hsame (by rw [hpc]; rfl) rfl rfl rfl rfl rfl fun _ _ hx _ => hx
  | nodeSame hpc => exact hsame (by rw [hpc]; rfl) rfl rfl rfl rfl rfl fun _ _ hx _ => hx
  | _ => simp [State.abortImpl, Pc.undecided] at hpc'

end Absent

end TailBench.Silo.Proto2
