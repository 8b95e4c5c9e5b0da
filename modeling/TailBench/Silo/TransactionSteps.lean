import TailBench.Silo.Transaction

set_option autoImplicit false

/-! # What a step of a transaction can do

The steps of the threads read backwards: one constructor of `TxnStep` for each way a step can go, with
what it has found. `TxnStep.of_next` is the only place where the transition function is opened.
-/

namespace TailBench.Silo.Proto2

open Lib

variable {n : Nat} {κ : Type*} [DecidableEq κ]

/-- One way of each step. -/
inductive TxnStep (cfg : Config) (s : State n κ) (i : Fin n) : Action n κ → State n κ → Prop
  | begin (hpc : s.pc i = .idle) : TxnStep cfg s i (.begin i) ((s.setTxn i {}).setPc i .ready)
  | found {k : κ} {a : Addr} (hpc : s.pc i = .ready) (hk : s.index k = some a) :
      TxnStep cfg s i (.get i k) (s.setPc i (.reading k a))
  | absentNew {k : κ} (hpc : s.pc i = .ready) (hk : s.index k = none)
      (hm : ∀ e ∈ (s.txn i).absentSet, e.1 ≠ s.leaf k) :
      TxnStep cfg s i (.get i k) (s.setTxn i { s.txn i with
        absentSet := (s.txn i).absentSet ++ [(s.leaf k, s.nodeVersion (s.leaf k))]
        absent := (s.txn i).absent ++ [(k, s.leaf k)] })
  | absentSame {k : κ} (hpc : s.pc i = .ready) (hk : s.index k = none)
      (he : (s.leaf k, s.nodeVersion (s.leaf k)) ∈ (s.txn i).absentSet) :
      TxnStep cfg s i (.get i k) (s.setTxn i { s.txn i with
        absent := (s.txn i).absent ++ [(k, s.leaf k)] })
  | absentChanged {k : κ} (hpc : s.pc i = .ready) : TxnStep cfg s i (.get i k) (s.abortImpl i)
  | readOwn {k : κ} {a : Addr} (hpc : s.pc i = .reading k a) :
      TxnStep cfg s i (.read i) (s.setPc i .ready)
  | readMarker {k : κ} {a : Addr} {x : Tuple (Fin n) κ} (hpc : s.pc i = .reading k a)
      (hx : s.heap a = some x) (hv : x.version = maxTid) :
      TxnStep cfg s i (.read i) ((s.setTxn i { s.txn i with
        readSet := (s.txn i).readSet ++ [⟨a, minTid, k, none⟩] }).setPc i .ready)
  | readTuple {k : κ} {a : Addr} {x : Tuple (Fin n) κ} (hpc : s.pc i = .reading k a)
      (hx : s.heap a = some x) (hv : x.version ≠ maxTid) (hlock : x.lockOwner = none) :
      TxnStep cfg s i (.read i) ((s.setTxn i { s.txn i with
        readSet := (s.txn i).readSet ++ [⟨a, x.version, k, x.data⟩] }).setPc i .ready)
  | put {k : κ} {v : Option Bytes} {expectNew : Bool} (hpc : s.pc i = .ready) (hv : v ≠ some []) :
      TxnStep cfg s i (.put i k v expectNew) (s.setPc i (.putting k v expectNew))
  | searchFound {k : κ} {v : Option Bytes} {a : Addr} (hpc : s.pc i = .putting k v false)
      (hk : s.index k = some a) :
      TxnStep cfg s i (.search i) ((s.setTxn i { s.txn i with
        writeSet := (s.txn i).writeSet ++ [⟨a, k, v, false, false⟩] }).setPc i .ready)
  | searchAbsent {k : κ} {v : Option Bytes} (hpc : s.pc i = .putting k v false) :
      TxnStep cfg s i (.search i) (s.setPc i (.putting k v true))
  | insertFailed {k : κ} {v : Option Bytes} {a : Addr} (hpc : s.pc i = .putting k v true) :
      TxnStep cfg s i (.insert i a) (s.setPc i (.putting k v false))
  | inserted {k : κ} {v : Option Bytes} {a : Addr} (hpc : s.pc i = .putting k v true)
      (ha : s.heap a = none) (hk : s.index k = none) :
      TxnStep cfg s i (.insert i a) (((((s.setTuple a (.allocFirst i k v)).setIndex k
        (some a)).bump (s.leaf k)).setTxn i { s.txn i with
          writeSet := (s.txn i).writeSet ++ [⟨a, k, v, true, false⟩]
          absentSet := (s.txn i).absentSet.map fun e =>
            if e = (s.leaf k, s.nodeVersion (s.leaf k)) then
              (s.leaf k, s.nodeVersion (s.leaf k) + 1) else e }).setPc i .ready)
  | insertedChanged {k : κ} {v : Option Bytes} {a : Addr} (hpc : s.pc i = .putting k v true)
      (ha : s.heap a = none) (hk : s.index k = none) :
      TxnStep cfg s i (.insert i a) (((((s.setTuple a (.allocFirst i k v)).setIndex k
        (some a)).bump (s.leaf k)).setTxn i { s.txn i with
          writeSet := (s.txn i).writeSet ++ [⟨a, k, v, true, false⟩] }).abortImpl i)
  | abort (hpc : s.pc i = .ready) : TxnStep cfg s i (.abort i) (s.abortImpl i)
  | commitRead (hpc : s.pc i = .ready) (hw : (s.txn i).writeSet = []) :
      TxnStep cfg s i (.commit i) (s.setPc i (.validating none [] (s.txn i).readSet))
  | commitWrite (hpc : s.pc i = .ready) (hw : (s.txn i).writeSet ≠ []) :
      TxnStep cfg s i (.commit i)
        (s.setPc i (.locking false [] ((s.txn i).writeInfos.insertionSort WriteInfo.le)))
  | lockNext {inserted : Bool} {done rest : List (WriteInfo κ)} {it : WriteInfo κ}
      (hpc : s.pc i = .locking inserted done (it :: rest))
      (hgroup : rest.head?.map (·.tuple) = some it.tuple) :
      TxnStep cfg s i (.lock i) ((s.setTxn i (if it.insert then (s.txn i).setDoWrite it.pos
        else s.txn i)).setPc i (.locking (inserted || it.insert) (done ++ [it]) rest))
  | lockInserted {inserted : Bool} {done rest : List (WriteInfo κ)} {it : WriteInfo κ}
      (hpc : s.pc i = .locking inserted done (it :: rest))
      (hgroup : rest.head?.map (·.tuple) ≠ some it.tuple) (hins : (inserted || it.insert) = true) :
      TxnStep cfg s i (.lock i) ((s.setTxn i ((s.txn i).setDoWrite it.pos)).setPc i
        (.locking false (done ++ [it]) rest))
  | lockTentative {inserted : Bool} {done rest : List (WriteInfo κ)} {it : WriteInfo κ}
      (hpc : s.pc i = .locking inserted done (it :: rest)) :
      TxnStep cfg s i (.lock i) (s.setPc i (.aborting (done ++ it :: rest)))
  | lockLatest {done rest : List (WriteInfo κ)} {it : WriteInfo κ} {x : Tuple (Fin n) κ}
      (hpc : s.pc i = .locking false done (it :: rest))
      (hgroup : rest.head?.map (·.tuple) ≠ some it.tuple) (hins : it.insert = false)
      (hx : s.heap it.tuple = some x) (hv : x.version ≠ maxTid) (hlock : x.lockOwner = none)
      (hlatest : x.latest = true) :
      TxnStep cfg s i (.lock i) (((s.setTuple it.tuple { x with lockOwner := some i }).setTxn i
        ((s.txn i).setDoWrite it.pos)).setPc i
          (.locking false (done ++ [{ it with locked := true }]) rest))
  | lockStale {done rest : List (WriteInfo κ)} {it : WriteInfo κ} {x : Tuple (Fin n) κ}
      (hpc : s.pc i = .locking false done (it :: rest)) (hins : it.insert = false)
      (hx : s.heap it.tuple = some x) (hv : x.version ≠ maxTid) (hlock : x.lockOwner = none) :
      TxnStep cfg s i (.lock i) ((s.setTuple it.tuple { x with lockOwner := some i }).setPc i
        (.aborting (done ++ { it with locked := true } :: rest)))
  | genCommitTid {inserted : Bool} {done : List (WriteInfo κ)} {tid : Nat}
      (hpc : s.pc i = .locking inserted done [])
      (htid : tid = Tid.genCommitTid i (s.lastCommitTid i) s.tick
        ((s.txn i).readSet.map (·.tid)) (s.writeTids done)) :
      TxnStep cfg s i (.genCommitTid i)
        ({ s with lastCommitTid := Function.update s.lastCommitTid i tid }.setPc i
          (.validating (some tid) done (s.txn i).readSet))
  | validated {changed : Bool} {tid : Option Nat} {infos : List (WriteInfo κ)}
      (hpc : s.pc i = .validating tid infos []) :
      TxnStep cfg s i (.validate i changed) (s.setPc i (.nodes tid infos (s.txn i).absentSet))
  | validateRead {changed : Bool} {tid : Option Nat} {infos : List (WriteInfo κ)}
      {r : ReadRecord κ} {rest : List (ReadRecord κ)} {x : Tuple (Fin n) κ}
      (hpc : s.pc i = .validating tid infos (r :: rest)) (hx : s.heap r.tuple = some x)
      (hlock : x.lockOwner = none ∨ ∃ w ∈ infos, w.tuple = r.tuple) (hlatest : x.latest = true)
      (hle : x.version ≤ r.tid) :
      TxnStep cfg s i (.validate i changed) (s.setPc i (.validating tid infos rest))
  | validateFailed {changed : Bool} {tid : Option Nat} {infos : List (WriteInfo κ)}
      {r : ReadRecord κ} {rest : List (ReadRecord κ)}
      (hpc : s.pc i = .validating tid infos (r :: rest)) :
      TxnStep cfg s i (.validate i changed) (s.setPc i (.aborting infos))
  | nodesRead {infos : List (WriteInfo κ)} (hpc : s.pc i = .nodes none infos []) :
      TxnStep cfg s i (.validateNode i) (s.setPc i .idle)
  | nodesWrite {tid : Nat} {infos : List (WriteInfo κ)} (hpc : s.pc i = .nodes (some tid) infos []) :
      TxnStep cfg s i (.validateNode i) (s.setPc i (.writing tid infos (s.txn i).writeSet))
  | nodeSame {tid : Option Nat} {infos : List (WriteInfo κ)} {m : Node} {v : Nat}
      {rest : List (Node × Nat)} (hpc : s.pc i = .nodes tid infos ((m, v) :: rest))
      (hv : s.nodeVersion m = v) :
      TxnStep cfg s i (.validateNode i) (s.setPc i (.nodes tid infos rest))
  | nodeChanged {tid : Option Nat} {infos : List (WriteInfo κ)} {m : Node} {v : Nat}
      {rest : List (Node × Nat)} (hpc : s.pc i = .nodes tid infos ((m, v) :: rest)) :
      TxnStep cfg s i (.validateNode i) (s.setPc i (.aborting infos))
  | written {b : Addr} {tid : Nat} {infos : List (WriteInfo κ)}
      (hpc : s.pc i = .writing tid infos []) :
      TxnStep cfg s i (.write i b) (s.setPc i (.unlocking infos))
  | writeSkip {b : Addr} {tid : Nat} {infos : List (WriteInfo κ)} {w : WriteRecord κ}
      {rest : List (WriteRecord κ)} (hpc : s.pc i = .writing tid infos (w :: rest))
      (hw : w.doWrite = false) :
      TxnStep cfg s i (.write i b) (s.setPc i (.writing tid infos rest))
  | writeInsert {b : Addr} {tid : Nat} {infos : List (WriteInfo κ)} {w : WriteRecord κ}
      {rest : List (WriteRecord κ)} {x : Tuple (Fin n) κ}
      (hpc : s.pc i = .writing tid infos (w :: rest)) (hw : w.doWrite = true)
      (hins : w.insert = true) (hx : s.heap w.tuple = some x) :
      TxnStep cfg s i (.write i b) ((s.setPc i (.writing tid infos rest)).setTuple w.tuple
        { x with version := tid })
  | writeOver {b : Addr} {tid : Nat} {infos : List (WriteInfo κ)} {w : WriteRecord κ}
      {rest : List (WriteRecord κ)} {x : Tuple (Fin n) κ}
      (hpc : s.pc i = .writing tid infos (w :: rest)) (hw : w.doWrite = true)
      (hins : w.insert = false) (hx : s.heap w.tuple = some x) (hb : s.heap b = none)
      (hhead : (x.writeRecordAt cfg.snapshotsEnabled s.heap w.tuple b tid w.value).2.head
        = w.tuple) :
      TxnStep cfg s i (.write i b) { s.setPc i (.writing tid infos rest) with
        heap := (x.writeRecordAt cfg.snapshotsEnabled s.heap w.tuple b tid w.value).1 }
  | writeReplace {b : Addr} {tid : Nat} {infos : List (WriteInfo κ)} {w : WriteRecord κ}
      {rest : List (WriteRecord κ)} {x : Tuple (Fin n) κ}
      (hpc : s.pc i = .writing tid infos (w :: rest)) (hw : w.doWrite = true)
      (hins : w.insert = false) (hx : s.heap w.tuple = some x) (hb : s.heap b = none)
      (hhead : (x.writeRecordAt cfg.snapshotsEnabled s.heap w.tuple b tid w.value).2.head
        ≠ w.tuple) :
      TxnStep cfg s i (.write i b) ({ s.setPc i (.writing tid infos rest) with
        heap := (x.writeRecordAt cfg.snapshotsEnabled s.heap w.tuple b tid w.value).1 }.setIndex
          w.key
          (some (x.writeRecordAt cfg.snapshotsEnabled s.heap w.tuple b tid w.value).2.head))
  | unlocked (hpc : s.pc i = .unlocking []) : TxnStep cfg s i (.unlock i) (s.setPc i .idle)
  | unlockSkip {w : WriteInfo κ} {rest : List (WriteInfo κ)} (hpc : s.pc i = .unlocking (w :: rest))
      (hw : w.locked = false) : TxnStep cfg s i (.unlock i) (s.setPc i (.unlocking rest))
  | unlockTuple {w : WriteInfo κ} {rest : List (WriteInfo κ)} {x : Tuple (Fin n) κ}
      (hpc : s.pc i = .unlocking (w :: rest)) (hw : w.locked = true)
      (hx : s.heap w.tuple = some x) :
      TxnStep cfg s i (.unlock i)
        ((s.setPc i (.unlocking rest)).setTuple w.tuple { x with lockOwner := none })
  | cleaned (hpc : s.pc i = .aborting []) : TxnStep cfg s i (.cleanup i) (s.setPc i .idle)
  | cleanupSkip {w : WriteInfo κ} {rest : List (WriteInfo κ)} (hpc : s.pc i = .aborting (w :: rest))
      (hw : w.locked = false) : TxnStep cfg s i (.cleanup i) (s.setPc i (.aborting rest))
  | cleanupInsert {w : WriteInfo κ} {rest : List (WriteInfo κ)} {x : Tuple (Fin n) κ}
      (hpc : s.pc i = .aborting (w :: rest)) (hw : w.locked = true) (hins : w.insert = true)
      (hx : s.heap w.tuple = some x) :
      TxnStep cfg s i (.cleanup i) ((((s.setPc i (.aborting rest)).setTuple w.tuple
        { x with latest := false, lockOwner := none }).setIndex w.key none).bump (s.leaf w.key))
  | cleanupTuple {w : WriteInfo κ} {rest : List (WriteInfo κ)} {x : Tuple (Fin n) κ}
      (hpc : s.pc i = .aborting (w :: rest)) (hw : w.locked = true) (hins : w.insert = false)
      (hx : s.heap w.tuple = some x) :
      TxnStep cfg s i (.cleanup i)
        ((s.setPc i (.aborting rest)).setTuple w.tuple { x with lockOwner := none })

/-- The thread that takes an action. -/
def Action.thread : Action n κ → Option (Fin n)
  | .begin i | .get i _ | .read i | .put i _ _ _ | .search i | .insert i _ | .abort i | .commit i
  | .lock i | .genCommitTid i | .validate i _ | .validateNode i | .write i _ | .unlock i
  | .cleanup i => some i
  | .tick | .reshape _ _ => none

section OfNext

variable {cfg : Config} {s s' : State n κ} {i : Fin n}

theorem TxnStep.of_get {k : κ} (h : s.get i k = some s') : TxnStep cfg s i (.get i k) s' := by
  rw [State.get] at h
  split at h
  · next hpc =>
      split at h
      · next a hk =>
          obtain rfl := Option.some.inj h
          exact .found hpc hk
      · next hk =>
          obtain rfl := Option.some.inj h
          rw [State.doNodeRead]
          split
          · next he => exact .absentNew hpc hk (by simpa using List.find?_eq_none.mp he)
          · next e he =>
              split
              · next hv =>
                  have hmem := List.mem_of_find?_eq_some he
                  have hm : e.1 = s.leaf k := by simpa using List.find?_some he
                  obtain rfl : e = (s.leaf k, s.nodeVersion (s.leaf k)) := Prod.ext hm hv
                  exact .absentSame hpc hk hmem
              · exact .absentChanged hpc
  · cases h

theorem TxnStep.of_read (h : s.read i cfg = some s') : TxnStep cfg s i (.read i) s' := by
  rw [State.read] at h
  split at h
  · next k a hpc =>
      simp only at h
      split at h
      · obtain rfl := Option.some.inj h
        exact .readOwn hpc
      · split at h
        · cases h
        · next x hx =>
            split at h
            · next hv =>
                obtain rfl := Option.some.inj h
                exact .readMarker hpc hx hv
            · next hv =>
                split at h
                · cases h
                · next hlock =>
                    obtain rfl := Option.some.inj h
                    exact .readTuple hpc hx hv (by simpa using hlock)
  · cases h

theorem TxnStep.of_search (h : s.search i = some s') : TxnStep cfg s i (.search i) s' := by
  rw [State.search] at h
  split at h
  · next k v hpc =>
      simp only at h
      split at h
      · next a hk =>
          obtain rfl := Option.some.inj h
          exact .searchFound hpc hk
      · obtain rfl := Option.some.inj h
        exact .searchAbsent hpc
  · cases h

theorem TxnStep.of_insert {a : Addr} (h : s.insert i a = some s') :
    TxnStep cfg s i (.insert i a) s' := by
  rw [State.insert] at h
  split at h
  · next k v hpc =>
      split at h
      · cases h
      · next ha =>
          split at h
          · obtain rfl := Option.some.inj h
            exact .insertFailed hpc
          · next hk =>
              simp only at h
              split at h
              · next hnone =>
                  obtain rfl := Option.some.inj h
                  have hmap : ((s.txn i).absentSet.map fun e =>
                      if e = (s.leaf k, s.nodeVersion (s.leaf k)) then
                        (s.leaf k, s.nodeVersion (s.leaf k) + 1) else e) = (s.txn i).absentSet := by
                    conv_rhs => rw [← List.map_id (s.txn i).absentSet]
                    refine List.map_congr_left fun e he => if_neg ?_
                    rintro rfl
                    simpa using List.find?_eq_none.mp hnone _ he
                  have hstep : TxnStep cfg s i (.insert i a) _ := .inserted hpc ha hk
                  rw [hmap] at hstep
                  exact hstep
              · split at h
                · obtain rfl := Option.some.inj h
                  exact .inserted hpc ha hk
                · obtain rfl := Option.some.inj h
                  exact .insertedChanged hpc ha hk
  · cases h

theorem TxnStep.of_lock (h : s.lock i = some s') : TxnStep cfg s i (.lock i) s' := by
  rw [State.lock] at h
  split at h
  · next inserted done it rest hpc =>
      simp only at h
      split at h
      · next hgroup =>
          obtain rfl := Option.some.inj h
          exact .lockNext hpc hgroup
      · next hgroup =>
          split at h
          · next hins =>
              obtain rfl := Option.some.inj h
              have hstep : TxnStep cfg s i (.lock i) _ := .lockInserted hpc hgroup hins
              by_cases hit : it.insert = true
              · rw [if_pos hit, if_pos hit]
                exact hstep
              · rw [if_neg hit, if_neg hit]
                exact hstep
          · next hins =>
              simp only [Bool.or_eq_true, not_or, Bool.not_eq_true] at hins
              obtain ⟨rfl, hit⟩ := hins
              rw [if_neg (by simp [hit])] at h
              split at h
              · cases h
              · next x hx =>
                  split at h
                  · obtain rfl := Option.some.inj h
                    exact .lockTentative hpc
                  · next hv =>
                      split at h
                      · cases h
                      · next hlock =>
                          have hlock : x.lockOwner = none := by simpa using hlock
                          split at h
                          · next hlatest =>
                              obtain rfl := Option.some.inj h
                              exact .lockLatest hpc hgroup hit hx hv hlock hlatest
                          · obtain rfl := Option.some.inj h
                            exact .lockStale hpc hit hx hv hlock
  · cases h

theorem TxnStep.of_validate {changed : Bool} (h : s.validate i changed = some s') :
    TxnStep cfg s i (.validate i changed) s' := by
  rw [State.validate] at h
  split at h
  · next hpc =>
      obtain rfl := Option.some.inj h
      exact .validated hpc
  · next tid infos r rest hpc =>
      split at h
      · next hok =>
          obtain rfl := Option.some.inj h
          rw [State.validates] at hok
          split at hok
          · cases hok
          · next x hx =>
              split at hok
              · next hany =>
                  simp only [Tuple.isLatestVersion, Bool.and_eq_true, decide_eq_true_eq] at hok
                  exact .validateRead hpc hx (.inr (by simpa using hany)) hok.1 hok.2
              · simp only [Tuple.isLatestVersion, Bool.and_eq_true, decide_eq_true_eq,
                  Option.isNone_iff_eq_none] at hok
                exact .validateRead hpc hx (.inl hok.1.2) hok.2.1 hok.2.2
      · obtain rfl := Option.some.inj h
        exact .validateFailed hpc
  · cases h

theorem TxnStep.of_validateNode (h : s.validateNode i = some s') :
    TxnStep cfg s i (.validateNode i) s' := by
  rw [State.validateNode] at h
  split at h
  · next hpc =>
      obtain rfl := Option.some.inj h
      exact .nodesRead hpc
  · next hpc =>
      obtain rfl := Option.some.inj h
      exact .nodesWrite hpc
  · next tid infos m v rest hpc =>
      split at h
      · next hv =>
          obtain rfl := Option.some.inj h
          exact .nodeSame hpc hv
      · obtain rfl := Option.some.inj h
        exact .nodeChanged hpc
  · cases h

theorem TxnStep.of_write {b : Addr} (h : s.write i cfg b = some s') :
    TxnStep cfg s i (.write i b) s' := by
  rw [State.write] at h
  split at h
  · next hpc =>
      obtain rfl := Option.some.inj h
      exact .written hpc
  · next tid infos w rest hpc =>
      simp only at h
      split at h
      · next hw =>
          obtain rfl := Option.some.inj h
          exact .writeSkip hpc hw
      · next hw =>
          have hw : w.doWrite = true := by simpa using hw
          split at h
          · cases h
          · next x hx =>
              split at h
              · next hins =>
                  obtain rfl := Option.some.inj h
                  exact .writeInsert hpc hw hins hx
              · next hins =>
                  have hins : w.insert = false := by simpa using hins
                  split at h
                  · cases h
                  · next hb =>
                      split at h
                      · next hhead =>
                          obtain rfl := Option.some.inj h
                          exact .writeOver hpc hw hins hx hb hhead
                      · next hhead =>
                          obtain rfl := Option.some.inj h
                          exact .writeReplace hpc hw hins hx hb hhead
  · cases h

theorem TxnStep.of_unlock (h : s.unlock i = some s') : TxnStep cfg s i (.unlock i) s' := by
  rw [State.unlock] at h
  split at h
  · next hpc =>
      obtain rfl := Option.some.inj h
      exact .unlocked hpc
  · next w rest hpc =>
      simp only at h
      split at h
      · next hw =>
          obtain ⟨x, hx, rfl⟩ := Option.map_eq_some_iff.mp h
          exact .unlockTuple hpc hw hx
      · next hw =>
          obtain rfl := Option.some.inj h
          exact .unlockSkip hpc (by simpa using hw)
  · cases h

theorem TxnStep.of_cleanup (h : s.cleanup i = some s') : TxnStep cfg s i (.cleanup i) s' := by
  rw [State.cleanup] at h
  split at h
  · next hpc =>
      obtain rfl := Option.some.inj h
      exact .cleaned hpc
  · next w rest hpc =>
      simp only at h
      split at h
      · next hw =>
          obtain ⟨x, hx, rfl⟩ := Option.map_eq_some_iff.mp h
          split
          · next hins => exact .cleanupInsert hpc hw hins hx
          · next hins => exact .cleanupTuple hpc hw (by simpa using hins) hx
      · next hw =>
          obtain rfl := Option.some.inj h
          exact .cleanupSkip hpc (by simpa using hw)
  · cases h

/-- **Every step of a thread is one of these.** -/
theorem TxnStep.of_next {a : Action n κ} (h : State.next cfg a s = some s')
    (hi : a.thread = some i) : TxnStep cfg s i a s' := by
  cases a with
  | begin j =>
      obtain rfl := Option.some.inj hi
      change s.begin j = some s' at h
      rw [State.begin] at h
      split at h
      · next hpc =>
          obtain rfl := Option.some.inj h
          exact .begin hpc
      · cases h
  | get j k =>
      obtain rfl := Option.some.inj hi
      exact .of_get h
  | read j =>
      obtain rfl := Option.some.inj hi
      exact .of_read h
  | put j k v expectNew =>
      obtain rfl := Option.some.inj hi
      change s.put j k v expectNew = some s' at h
      rw [State.put] at h
      split at h
      · next hpc =>
          split at h
          · cases h
          · next hv =>
              obtain rfl := Option.some.inj h
              exact .put hpc hv
      · cases h
  | search j =>
      obtain rfl := Option.some.inj hi
      exact .of_search h
  | insert j a =>
      obtain rfl := Option.some.inj hi
      exact .of_insert h
  | abort j =>
      obtain rfl := Option.some.inj hi
      change s.abort j = some s' at h
      rw [State.abort] at h
      split at h
      · next hpc =>
          obtain rfl := Option.some.inj h
          exact .abort hpc
      · cases h
  | commit j =>
      obtain rfl := Option.some.inj hi
      change s.commit j = some s' at h
      rw [State.commit] at h
      split at h
      · next hpc =>
          simp only at h
          split at h
          · next hw =>
              obtain rfl := Option.some.inj h
              exact .commitRead hpc hw
          · next hw =>
              obtain rfl := Option.some.inj h
              exact .commitWrite hpc hw
      · cases h
  | lock j =>
      obtain rfl := Option.some.inj hi
      exact .of_lock h
  | genCommitTid j =>
      obtain rfl := Option.some.inj hi
      change s.genCommitTid j = some s' at h
      rw [State.genCommitTid] at h
      split at h
      · next hpc =>
          obtain rfl := Option.some.inj h
          exact .genCommitTid hpc rfl
      · cases h
  | validate j changed =>
      obtain rfl := Option.some.inj hi
      exact .of_validate h
  | validateNode j =>
      obtain rfl := Option.some.inj hi
      exact .of_validateNode h
  | write j b =>
      obtain rfl := Option.some.inj hi
      exact .of_write h
  | unlock j =>
      obtain rfl := Option.some.inj hi
      exact .of_unlock h
  | cleanup j =>
      obtain rfl := Option.some.inj hi
      exact .of_cleanup h
  | tick => cases hi
  | reshape leaf nodeVersion => cases hi

end OfNext

end TailBench.Silo.Proto2
