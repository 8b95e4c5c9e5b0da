import TailBench.Silo.WriteLockRuns

set_option autoImplicit false

/-! # The ids in a run

`gen_commit_tid` is called by many threads, each of which looks only at its own last id, at what it
has read and at what it is about to overwrite. In every run that does not exhaust the numbers of an
epoch:

* the ids are distinct, and those of one core increase (`commit_tids`);
* a tuple is only written over with a larger id (`version_le`).

The invariant `TidsWf` says that no id is from a later epoch than the ticker, which is what the
assertions of `gen_commit_tid` rely on.
-/

namespace TailBench.Silo.Proto2

open Lib

variable {n : Nat} {κ : Type*}

/-- The id has been given out, or is `MIN_TID`. -/
structure Past (tick t : Nat) : Prop where
  ne_max : t ≠ maxTid
  epoch_le : Tid.epochId t ≤ tick

structure TidsWf (s : State n κ) : Prop where
  tick_lt : s.tick < 2 ^ 30
  last : ∀ i, Past s.tick (s.lastCommitTid i)
  version : ∀ a x, s.heap a = some x → x.version ≠ maxTid → Past s.tick x.version
  read : ∀ i, ∀ r ∈ (s.txn i).readSet, Past s.tick r.tid
  tid : ∀ i t, (s.pc i).tid = some t → 0 < t ∧ Past s.tick t
  /-- What a thread has locked is older than its id. -/
  held : ∀ i t, (s.pc i).tid = some t → ∀ a x, s.heap a = some x → x.lockOwner = some i →
    x.version = maxTid ∨ x.version ≤ t

theorem Past.mono {tick tick' t : Nat} (h : Past tick t) (hle : tick ≤ tick') : Past tick' t :=
  ⟨h.ne_max, h.epoch_le.trans hle⟩

theorem Past.minTid {tick : Nat} : Past tick minTid :=
  ⟨by decide, by simp [Silo.minTid, Tid.epochId]⟩

/-- The record a read adds to the read set. -/
inductive NewRead (s : State n κ) (i : Fin n) : ReadRecord κ → Prop
  | marker {k : κ} {a : Addr} {x : Tuple (Fin n) κ} (hpc : s.pc i = .reading k a)
      (hx : s.heap a = some x) (hv : x.version = maxTid) : NewRead s i ⟨a, minTid, k, none⟩
  | tuple {k : κ} {a : Addr} {x : Tuple (Fin n) κ} (hpc : s.pc i = .reading k a)
      (hx : s.heap a = some x) (hv : x.version ≠ maxTid) (hlock : x.lockOwner = none) :
      NewRead s i ⟨a, x.version, k, x.data⟩

/-- The step that gives an id. -/
structure NewTid (s : State n κ) (i : Fin n) (act : Action n κ) (s' : State n κ) (t : Nat) :
    Prop where
  act_eq : act = .genCommitTid i
  place : ∃ inserted done, s.pc i = .locking inserted done []
    ∧ t = Tid.genCommitTid i (s.lastCommitTid i) s.tick ((s.txn i).readSet.map (·.tid))
      (s.writeTids done)
    ∧ s' = { s with lastCommitTid := Function.update s.lastCommitTid i t }.setPc i
      (.validating (some t) done (s.txn i).readSet)

section Ids

variable {s : State n κ} {i : Fin n} {infos : List (WriteInfo κ)}

theorem mem_writeTids {u : Nat} (h : u ∈ s.writeTids infos) :
    ∃ a x, s.heap a = some x ∧ x.version = u := by
  obtain ⟨w, -, hu⟩ := List.mem_filterMap.mp h
  split at hu
  · cases hu
  · obtain ⟨x, hx, rfl⟩ := Option.map_eq_some_iff.mp hu
    exact ⟨w.tuple, x, hx, rfl⟩

theorem version_mem_writeTids {w : WriteInfo κ}
    {x : Tuple (Fin n) κ} (hw : w ∈ infos) (hins : w.insert = false)
    (hx : s.heap w.tuple = some x) : x.version ∈ s.writeTids infos :=
  List.mem_filterMap.mpr ⟨w, hw, by rw [hins, hx]; rfl⟩

/-- `gen_commit_tid` with what it relies on. -/
theorem TidsWf.genSpec (htids : TidsWf s) (hn : n ≤ 2 ^ Tid.coreBits) {inserted : Bool}
    {done : List (WriteInfo κ)} (hpc : s.pc i = .locking inserted done [])
    (hok : Allowed s (.genCommitTid i)) :
    Tid.GenSpec i s.tick (s.lastCommitTid i) ((s.txn i).readSet.map (·.tid)) (s.writeTids done)
      (Tid.genCommitTid i (s.lastCommitTid i) s.tick ((s.txn i).readSet.map (·.tid))
        (s.writeTids done)) := by
  rw [Allowed, hpc] at hok
  refine Tid.genCommitTid_spec (i.isLt.trans_le hn) htids.tick_lt (htids.last i).epoch_le ?_ ?_ hok
  · intro u hu
    obtain ⟨r, hr, rfl⟩ := List.mem_map.mp hu
    exact (htids.read i r hr).epoch_le
  · intro u hu hne
    obtain ⟨a, x, hx, rfl⟩ := mem_writeTids hu
    exact (htids.version a x hx hne).epoch_le

/-- At the end of the loop that locks, what a thread has locked is in the write set or new. -/
theorem Wf.locked_version (hwf : Wf s) {inserted : Bool} {done : List (WriteInfo κ)}
    (hpc : s.pc i = .locking inserted done []) {a : Addr} {x : Tuple (Fin n) κ}
    (hx : s.heap a = some x) (hown : x.lockOwner = some i) :
    x.version = maxTid ∨ x.version ∈ s.writeTids done := by
  have hth := hwf.thread i
  rw [hpc] at hth
  obtain ⟨w, hw, -, rfl⟩ := (hth.locks.owner_iff a x hx).mp hown
  simp only [Pc.infos, List.append_nil] at hw
  by_cases hins : w.insert = true
  · obtain ⟨y, hy, -, hv⟩ := hth.place.2.1 w (by simpa using hw) hins
    obtain rfl : y = x := Option.some.inj (hy.symm.trans hx)
    exact .inl hv
  · exact .inr (version_mem_writeTids hw (by simpa using hins) hx)

theorem TidsWf.newRead (htids : TidsWf s) {r : ReadRecord κ} (h : NewRead s i r) :
    Past s.tick r.tid := by
  cases h with
  | marker hpc hx hv => exact .minTid
  | tuple hpc hx hv hlock => exact htids.version _ _ hx hv

end Ids

section Steps

variable [DecidableEq κ] {cfg : Config} {s s' : State n κ} {i : Fin n} {act : Action n κ}

theorem TxnStep.readSet (h : TxnStep cfg s i act s') {r : ReadRecord κ}
    (hr : r ∈ (s'.txn i).readSet) :
    r ∈ (s.txn i).readSet ∨ (NewRead s i r ∧ s'.heap = s.heap ∧ s'.pc i = .ready) := by
  cases h with
  | begin hpc => simp at hr
  | absentNew hpc hk hm => exact .inl (by simpa using hr)
  | absentSame hpc hk he => exact .inl (by simpa using hr)
  | readMarker hpc hx hv =>
      simp only [State.setPc_txn, State.setTxn_txn, Function.update_self, List.mem_append,
        List.mem_singleton] at hr
      rcases hr with hr | rfl
      · exact .inl hr
      · exact .inr ⟨.marker hpc hx hv, rfl, Function.update_self ..⟩
  | readTuple hpc hx hv hlock =>
      simp only [State.setPc_txn, State.setTxn_txn, Function.update_self, List.mem_append,
        List.mem_singleton] at hr
      rcases hr with hr | rfl
      · exact .inl hr
      · exact .inr ⟨.tuple hpc hx hv hlock, rfl, Function.update_self ..⟩
  | searchFound hpc hk => exact .inl (by simpa using hr)
  | inserted hpc ha hk => exact .inl (by simpa using hr)
  | insertedChanged hpc ha hk => exact .inl (by simpa [State.abortImpl] using hr)
  | @lockNext inserted done rest it hpc hgroup =>
      refine .inl ?_
      rw [State.setPc_txn, State.setTxn_txn, Function.update_self] at hr
      split at hr <;> exact hr
  | lockInserted hpc hgroup hins => exact .inl (by simpa [Transaction.setDoWrite] using hr)
  | lockLatest hpc hgroup hins hx hv hlock hlatest =>
      exact .inl (by simpa [Transaction.setDoWrite] using hr)
  | _ => exact .inl hr

/-- An id is kept until the end of the transaction. -/
theorem TxnStep.ids (h : TxnStep cfg s i act s') :
    ((∀ j, act ≠ .genCommitTid j) ∧ s'.lastCommitTid = s.lastCommitTid ∧ s'.tick = s.tick
      ∧ ((s'.pc i).tid = none ∨ (s'.pc i).tid = (s.pc i).tid))
      ∨ ∃ t, NewTid s i act s' t := by
  cases h with
  | genCommitTid hpc htid => exact .inr ⟨_, rfl, _, _, hpc, htid, rfl⟩
  | validated hpc => exact .inl ⟨by simp, rfl, rfl, .inr (by simp [hpc, Pc.tid])⟩
  | validateRead hpc hx hlock hlatest hle =>
      exact .inl ⟨by simp, rfl, rfl, .inr (by simp [hpc, Pc.tid])⟩
  | nodesWrite hpc => exact .inl ⟨by simp, rfl, rfl, .inr (by simp [hpc, Pc.tid])⟩
  | nodeSame hpc hv => exact .inl ⟨by simp, rfl, rfl, .inr (by simp [hpc, Pc.tid])⟩
  | writeSkip hpc hw => exact .inl ⟨by simp, rfl, rfl, .inr (by simp [hpc, Pc.tid])⟩
  | writeInsert hpc hw hins hx => exact .inl ⟨by simp, rfl, rfl, .inr (by simp [hpc, Pc.tid])⟩
  | writeOver hpc hw hins hx hb hhead => exact .inl ⟨by simp, rfl, rfl, .inr (by simp [hpc, Pc.tid])⟩
  | writeReplace hpc hw hins hx hb hhead =>
      exact .inl ⟨by simp, rfl, rfl, .inr (by simp [hpc, Pc.tid])⟩
  | absentNew hpc hk hm => exact .inl ⟨by simp, rfl, rfl, .inl (by simp [hpc, Pc.tid])⟩
  | absentSame hpc hk he => exact .inl ⟨by simp, rfl, rfl, .inl (by simp [hpc, Pc.tid])⟩
  | _ => exact .inl ⟨by simp, rfl, rfl, .inl (by simp [State.abortImpl, Pc.tid])⟩

/-- The versions after a step. -/
theorem TidsWf.version_step (htids : TidsWf s) (hwf : Wf s) (h : TxnStep cfg s i act s')
    {a : Addr} {x' : Tuple (Fin n) κ} (hx' : s'.heap a = some x') (hv : x'.version ≠ maxTid) :
    Past s.tick x'.version := by
  cases hx : s.heap a with
  | none =>
      cases h.new hwf hx hx' with
      | marker hm => exact absurd (by rw [hm]; rfl) hv
      | spill hy hown hlatest hver => exact hver ▸ htids.version _ _ hy (hver ▸ hv)
      | replacement hown htid => exact (htids.tid i _ htid).2
  | some x =>
      obtain ⟨y, hy, hstep⟩ := h.tuple hwf hx
      obtain rfl : y = x' := Option.some.inj (hy.symm.trans hx')
      cases hstep with
      | written hown htid hkey hown' hlatest hver => exact hver ▸ (htids.tid i _ htid).2
      | _ => exact htids.version a x hx hv

/-- With the id it had before, a thread has locked no more tuples. -/
theorem TxnStep.kept_owner (hwf : Wf s) (h : TxnStep cfg s i act s')
    (htid : (s'.pc i).tid = none ∨ (s'.pc i).tid = (s.pc i).tid) {j : Fin n} {t : Nat}
    (ht : (s'.pc j).tid = some t) {a : Addr} {x x' : Tuple (Fin n) κ} (hx : s.heap a = some x)
    (hx' : s'.heap a = some x') (hown : x'.lockOwner = some j) :
    (s.pc j).tid = some t ∧ x.lockOwner = some j := by
  obtain ⟨y, hy, hstep⟩ := h.tuple hwf hx
  obtain rfl : y = x' := Option.some.inj (hy.symm.trans hx')
  by_cases hj : j = i
  · subst hj
    have htj : (s.pc j).tid = some t := by
      rcases htid with htid | htid
      · rw [htid] at ht
        cases ht
      · exact htid.symm.trans ht
    refine ⟨htj, ?_⟩
    cases hstep with
    | same => exact hown
    | locked hfree hnone => rw [hnone] at htj; cases htj
    | unlocked => cases hown
    | removed => cases hown
    | replaced => exact hown
    | written hown₀ => exact hown₀
  · obtain rfl := hstep.eq_of_owner hj (.inr hown)
    exact ⟨(h.others hj).1 ▸ ht, hown⟩

/-- The tuples locked after a step of a thread that keeps its id. -/
theorem TidsWf.held_step (htids : TidsWf s) (hwf : Wf s) (h : TxnStep cfg s i act s')
    (htid : (s'.pc i).tid = none ∨ (s'.pc i).tid = (s.pc i).tid) {j : Fin n} {t : Nat}
    (ht : (s'.pc j).tid = some t) {a : Addr} {x' : Tuple (Fin n) κ} (hx' : s'.heap a = some x')
    (hown : x'.lockOwner = some j) : x'.version = maxTid ∨ x'.version ≤ t := by
  cases hx : s.heap a with
  | none =>
      cases h.new hwf hx hx' with
      | marker hm => exact .inl (by rw [hm]; rfl)
      | spill hy hnone => rw [hnone] at hown; cases hown
      | replacement hnone => rw [hnone] at hown; cases hown
  | some x =>
      obtain ⟨htj, hown₀⟩ := h.kept_owner hwf htid ht hx hx' hown
      obtain ⟨y, hy, hstep⟩ := h.tuple hwf hx
      obtain rfl : y = x' := Option.some.inj (hy.symm.trans hx')
      have hheld := htids.held j t htj a x hx hown₀
      cases hstep with
      | written hown₁ hsome hkey hown' hlatest hver =>
          obtain rfl : i = j := Option.some.inj (hown₁.symm.trans hown₀)
          rw [hsome] at htj
          exact .inr (hver.trans (Option.some.inj htj)).le
      | _ => exact hheld

theorem TidsWf.step (htids : TidsWf s) (hwf : Wf s) (hn : n ≤ 2 ^ Tid.coreBits)
    (hok : Allowed s act) (h : TxnStep cfg s i act s') : TidsWf s' := by
  have hread : ∀ j, ∀ r ∈ (s'.txn j).readSet, Past s.tick r.tid := by
    intro j r hr
    by_cases hj : j = i
    · subst hj
      rcases h.readSet hr with hr | ⟨hr, -, -⟩
      · exact htids.read j r hr
      · exact htids.newRead hr
    · rw [(h.others hj).2] at hr
      exact htids.read j r hr
  rcases h.ids with ⟨-, hlast, htick, htid⟩ | ⟨t, rfl, inserted, done, hpc, ht, rfl⟩
  · refine ⟨htick ▸ htids.tick_lt, ?_, ?_, ?_, ?_, ?_⟩
    · rw [hlast, htick]
      exact htids.last
    · intro a x' hx' hv
      rw [htick]
      exact htids.version_step hwf h hx' hv
    · rw [htick]
      exact hread
    · intro j t ht
      rw [htick]
      by_cases hj : j = i
      · subst hj
        rcases htid with htid | htid
        · rw [htid] at ht
          cases ht
        · exact htids.tid j t (htid.symm.trans ht)
      · rw [(h.others hj).1] at ht
        exact htids.tid j t ht
    · exact fun j t ht a x' hx' hown => htids.held_step hwf h htid ht hx' hown
  · have hspec := htids.genSpec hn hpc hok
    rw [← ht] at hspec
    have hnew : 0 < t ∧ Past s.tick t :=
      ⟨Nat.zero_lt_of_lt hspec.last_lt, hspec.ne_max, hspec.epoch_eq.le⟩
    have htid : ∀ j u, (Function.update s.pc i (.validating (some t) done (s.txn i).readSet) j).tid
        = some u → (j = i ∧ u = t) ∨ (j ≠ i ∧ (s.pc j).tid = some u) := by
      intro j u hu
      by_cases hj : j = i
      · subst hj
        rw [Function.update_self] at hu
        exact .inl ⟨rfl, (Option.some.inj hu).symm⟩
      · rw [Function.update_of_ne hj] at hu
        exact .inr ⟨hj, hu⟩
    refine ⟨htids.tick_lt, ?_, htids.version, hread, ?_, ?_⟩
    · intro j
      by_cases hj : j = i
      · subst hj
        simpa using hnew.2
      · simpa [Function.update_of_ne hj] using htids.last j
    · intro j u hu
      rcases htid j u hu with ⟨-, rfl⟩ | ⟨-, hu⟩
      · exact hnew
      · exact htids.tid j u hu
    · intro j u hu a x hx hown
      rcases htid j u hu with ⟨rfl, rfl⟩ | ⟨-, hu⟩
      · rcases hwf.locked_version hpc hx hown with hv | hv
        · exact .inl hv
        · by_cases hmax : x.version = maxTid
          · exact .inl hmax
          · exact .inr (hspec.write_lt _ hv hmax).le
      · exact htids.held j u hu a x hx hown

theorem TidsWf.next (htids : TidsWf s) (hwf : Wf s) (hn : n ≤ 2 ^ Tid.coreBits)
    (hok : Allowed s act) (h : State.next cfg act s = some s') : TidsWf s' := by
  cases hi : act.thread with
  | some i => exact htids.step hwf hn hok (TxnStep.of_next h hi)
  | none =>
      cases act with
      | tick =>
          obtain rfl := Option.some.inj h
          have hle : s.tick ≤ s.tick + 1 := Nat.le_succ _
          exact ⟨hok, fun i => (htids.last i).mono hle,
            fun a x hx hv => (htids.version a x hx hv).mono hle,
            fun i r hr => (htids.read i r hr).mono hle,
            fun i t ht => ⟨(htids.tid i t ht).1, (htids.tid i t ht).2.mono hle⟩, htids.held⟩
      | reshape leaf nodeVersion =>
          obtain rfl := Option.some.inj h
          exact ⟨htids.tick_lt, htids.last, htids.version, htids.read, htids.tid, htids.held⟩
      | _ => cases hi

theorem TidsWf.init (h : (silo n κ cfg).init s) : TidsWf s := by
  obtain ⟨hheap, -, hlast, hpc, htxn, htick⟩ := h
  refine ⟨htick, ?_, by simp [hheap], by simp [htxn], by simp [hpc, Pc.tid], by simp [hpc, Pc.tid]⟩
  intro i
  rw [hlast]
  exact .minTid

theorem silo_tids (hn : n ≤ 2 ^ Tid.coreBits) (h : (silo n κ cfg).ReachableBy Allowed s) :
    TidsWf s :=
  h.invariant (P := TidsWf) (fun _ hi => TidsWf.init hi)
    fun _ _ _ hr htids hok hnext => htids.next (silo_wf hr.reachable) hn hok hnext

/-- **A tuple is only written over with a larger id.** -/
theorem version_le (hn : n ≤ 2 ^ Tid.coreBits) (h : (silo n κ cfg).ReachableBy Allowed s)
    (hnext : State.next cfg act s = some s') {a : Addr} {x : Tuple (Fin n) κ}
    (hx : s.heap a = some x) :
    ∃ x', s'.heap a = some x' ∧ (x.version = maxTid ∨ x.version ≤ x'.version) := by
  cases hi : act.thread with
  | some i =>
      obtain ⟨x', hx', hstep⟩ := (TxnStep.of_next hnext hi).tuple (silo_wf h.reachable) hx
      refine ⟨x', hx', ?_⟩
      cases hstep with
      | written hown htid hkey hown' hlatest hver =>
          rw [hver]
          exact (silo_tids hn h).held i _ htid a x hx hown
      | _ => exact .inr le_rfl
  | none =>
      cases act with
      | tick =>
          obtain rfl := Option.some.inj hnext
          exact ⟨x, hx, .inr le_rfl⟩
      | reshape leaf nodeVersion =>
          obtain rfl := Option.some.inj hnext
          exact ⟨x, hx, .inr le_rfl⟩
      | _ => cases hi

end Steps

/-! ## All ids of a run -/

section Run

variable [DecidableEq κ] {cfg : Config} {s s' : State n κ} {i : Fin n} {act : Action n κ}

/-- The id that a step gives out. -/
def tidEvent (_ : State n κ) (act : Action n κ) (s' : State n κ) : Option Nat :=
  match act with
  | .genCommitTid i => some (s'.lastCommitTid i)
  | _ => none

/-- What two ids of a run are to each other, the earlier one first. -/
def Later (t u : Nat) : Prop := t ≠ u ∧ (Tid.coreId t = Tid.coreId u → t < u)

/-- The ids of a core are not above its last one. -/
def Given (s : State n κ) (t : Nat) : Prop :=
  ∃ i, Tid.coreId t = i.val ∧ t ≤ s.lastCommitTid i

theorem Given.next (htids : TidsWf s) (hn : n ≤ 2 ^ Tid.coreBits) (hok : Allowed s act)
    (h : State.next cfg act s = some s') :
    (∀ t, Given s t → Given s' t)
      ∧ ∀ u, tidEvent s act s' = some u → Given s' u ∧ ∀ t, Given s t → Later t u := by
  cases hi : act.thread with
  | none =>
      cases act with
      | tick =>
          obtain rfl := Option.some.inj h
          exact ⟨fun _ h => h, by simp [tidEvent]⟩
      | reshape leaf nodeVersion =>
          obtain rfl := Option.some.inj h
          exact ⟨fun _ h => h, by simp [tidEvent]⟩
      | _ => cases hi
  | some i =>
      rcases (TxnStep.of_next h hi).ids with
        ⟨hact, hlast, -, -⟩ | ⟨u, rfl, inserted, done, hpc, hu, rfl⟩
      · refine ⟨?_, ?_⟩
        · rintro t ⟨j, hj, hle⟩
          exact ⟨j, hj, hlast ▸ hle⟩
        · intro u hu
          cases act with
          | genCommitTid j => exact absurd rfl (hact j)
          | _ => cases hu
      · have hspec := htids.genSpec hn hpc hok
        rw [← hu] at hspec
        have hlast : ∀ j, s.lastCommitTid j ≤ Function.update s.lastCommitTid i u j := by
          intro j
          by_cases hj : j = i
          · subst hj
            simpa using hspec.last_lt.le
          · rw [Function.update_of_ne hj]
        refine ⟨?_, ?_⟩
        · rintro t ⟨j, hj, hle⟩
          exact ⟨j, hj, hle.trans (hlast j)⟩
        · intro u' hu'
          obtain rfl : u = u' := by simpa [tidEvent] using hu'
          refine ⟨⟨i, hspec.core_eq, by simp⟩, ?_⟩
          rintro t ⟨j, hj, hle⟩
          have hlt : Tid.coreId t = Tid.coreId u → t < u := by
            intro hcore
            obtain rfl : j = i := Fin.ext (by rw [← hj, hcore, hspec.core_eq])
            exact hle.trans_lt hspec.last_lt
          exact ⟨fun heq => absurd (hlt (by rw [heq])) (by omega), hlt⟩

/-- **Of all ids given out in a run no two are equal, and those of a core increase.** -/
theorem commit_tids (hn : n ≤ 2 ^ Tid.coreBits) {x : State n κ × List Nat}
    (h : ((silo n κ cfg).logged tidEvent).ReachableBy (fun x => Allowed x.1) x) :
    x.2.Pairwise Later := by
  have hinv : x.2.Pairwise Later ∧ ∀ t ∈ x.2, Given x.1 t := by
    refine h.invariant (P := fun x => x.2.Pairwise Later ∧ ∀ t ∈ x.2, Given x.1 t) ?_ ?_
    · rintro ⟨s, l⟩ ⟨-, rfl⟩
      exact ⟨List.Pairwise.nil, by simp⟩
    · intro x a y hr hP hok hnext
      obtain ⟨hpair, hgiven⟩ := hP
      obtain ⟨hnext, hlog⟩ := Machine.logged_next.mp hnext
      obtain ⟨hkeep, hnew⟩ := Given.next (silo_tids hn hr.of_logged) hn hok hnext
      rw [hlog]
      cases hev : tidEvent x.1 a y.1 with
      | none =>
          rw [Option.toList_none, List.append_nil]
          exact ⟨hpair, fun t ht => hkeep t (hgiven t ht)⟩
      | some u =>
          obtain ⟨hu, hlater⟩ := hnew u hev
          rw [Option.toList_some]
          refine ⟨List.pairwise_append.mpr ⟨hpair, List.pairwise_singleton _ _, ?_⟩, ?_⟩
          · intro t ht u' hu'
            obtain rfl := List.mem_singleton.mp hu'
            exact hlater t (hgiven t ht)
          · intro t ht
            rcases List.mem_append.mp ht with ht | ht
            · exact hkeep t (hgiven t ht)
            · obtain rfl := List.mem_singleton.mp ht
              exact hu
  exact hinv.1

/-- `Allowed` for runs without `reshape`. -/
def plain (s : State n κ) : Action n κ → Bool
  | .tick => s.tick + 1 < 2 ^ 30
  | .reshape _ _ => false
  | .genCommitTid i =>
      match s.pc i with
      | .locking _ done [] =>
          Tid.numId (Tid.baseTid (s.lastCommitTid i) s.tick ((s.txn i).readSet.map (·.tid))
            (s.writeTids done)) + 1 < 2 ^ Tid.nbitsNumber
      | _ => true
  | _ => true

omit [DecidableEq κ] in
theorem allowed_of_plain {act : Action n κ} (h : plain s act = true) : Allowed s act := by
  cases act with
  | tick =>
      rw [plain, decide_eq_true_eq] at h
      exact h
  | reshape => cases h
  | genCommitTid i =>
      simp only [plain] at h
      simp only [Allowed]
      split
      · next hpc => simpa [hpc] using h
      · trivial
  | _ => trivial

/-- An empty tree. -/
def start (n : Nat) (κ : Type*) : State n κ where
  heap := fun _ => none
  index := fun _ => none
  leaf := fun _ => 0
  nodeVersion := fun _ => 0
  tick := 1
  lastCommitTid := fun _ => 0
  pc := fun _ => .idle
  txn := fun _ => {}

/-- The steps of a transaction with one insert, up to its id. -/
def insertSteps (i : Fin n) (k : κ) (v : Bytes) (a : Addr) : List (Action n κ) :=
  [.begin i, .put i k (some v) true, .insert i a, .commit i, .lock i, .genCommitTid i]

/-- Two threads in one epoch. -/
theorem commit_tids_run : ∃ x : State 2 Nat × List Nat,
    x.2 = [Tid.makeTid 0 1 1, Tid.makeTid 1 1 1] ∧ x.2.Pairwise Later := by
  obtain ⟨x, hx, hlog⟩ := Machine.Reachable.exists_of_exec
    (M := ((silo 2 Nat {}).logged tidEvent).guard fun x => plain x.1)
    (P := fun x => x.2 = [Tid.makeTid 0 1 1, Tid.makeTid 1 1 1])
    (s := (start 2 Nat, [])) (insertSteps 0 7 [1] 100 ++ insertSteps 1 8 [1] 101)
    ⟨⟨rfl, rfl, rfl, rfl, rfl, by decide⟩, rfl⟩ (by decide +kernel)
  exact ⟨x, hlog, commit_tids (by decide)
    (Machine.Reachable.of_guard (fun _ _ h => allowed_of_plain h) hx)⟩

end Run

end TailBench.Silo.Proto2
