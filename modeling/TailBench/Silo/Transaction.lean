import Mathlib.Data.List.Sort
import Mathlib.Tactic.Simps.Basic
import TailBench.Lib.Ledger
import TailBench.Silo.Tuple

set_option autoImplicit false

/-! # Transactions of silo

The commit protocol of `transaction_proto2` on one tree: `do_search` and `do_tree_put`
(`silo/base_txn_btree.h`), `do_tuple_read`, `do_node_read`, `try_insert_new_tuple`, `commit` and
`abort_impl` (`silo/txn_impl.h`), with `gen_commit_tid`. Every thread runs one transaction after the
other; a step of a thread reads or changes one tuple, one entry of the tree or one node version.

* `stable_read` and `stable_is_latest_version` are one step each: that they are atomic is a matter
  of the header of the tuple alone. A read waits while another thread has the lock, a validation
  fails then, and may also fail because the header has `changed` between its two looks.
* The tree maps keys to tuples and to the leaf that is responsible for them. A leaf has a version
  that every insert into it and every removal from it changes; the tree may also move keys to other
  leaves, which changes the version of the leaf they have left (`reshape`). An insert that splits
  its leaf is `reshape` and then `insert`.
* The protocol is modelled by itself. Left out are garbage collection (`on_dbtuple_spill`,
  `on_logical_delete` and the cleaner, which locks the tuple of a key that was removed, takes the key
  out of the tree and then clears `latest`), read-only transactions on snapshots, range scans and
  logging. A build with the cleaner has runs that are not runs of this machine.
* An id holds an epoch of 30 bits and a number within the epoch; `Allowed` says that neither runs
  through.

The steps that make a commit are events of a ledger: a transaction with writes is claimed
when it has its id, all its locks being held, one without writes when the commit begins.
-/

namespace TailBench.Silo.Proto2

open Lib

abbrev Node := Nat

structure ReadRecord (κ : Type*) where
  tuple : Addr
  tid : Nat
  /-- History: the key that was searched and what the read returned. -/
  key : κ
  value : Option Bytes
  deriving DecidableEq, Repr

structure WriteRecord (κ : Type*) where
  tuple : Addr
  key : κ
  /-- `none` removes the key. -/
  value : Option Bytes
  insert : Bool
  doWrite : Bool := false
  deriving DecidableEq, Repr

/-- `dbtuple_write_info`, with the key of its entry. -/
structure WriteInfo (κ : Type*) where
  tuple : Addr
  key : κ
  insert : Bool
  pos : Nat
  locked : Bool
  deriving DecidableEq, Repr

/-- The order of `dbtuple_write_info::operator<`, not strict. -/
def WriteInfo.le {κ : Type*} (x y : WriteInfo κ) : Prop :=
  x.tuple < y.tuple ∨ (x.tuple = y.tuple
    ∧ ((x.insert = true ∧ y.insert = false) ∨ (x.insert = y.insert ∧ x.pos ≤ y.pos)))

instance {κ : Type*} (x y : WriteInfo κ) : Decidable (x.le y) :=
  inferInstanceAs (Decidable (_ ∨ _))

structure Transaction (κ : Type*) where
  readSet : List (ReadRecord κ) := []
  writeSet : List (WriteRecord κ) := []
  absentSet : List (Node × Nat) := []
  /-- History: the keys that were not found, with their leaves. -/
  absent : List (κ × Node) := []
  deriving DecidableEq, Repr

namespace Transaction

variable {κ : Type*} (t : Transaction κ)

/-- The vector `write_dbtuples` before it is sorted. -/
def writeInfos : List (WriteInfo κ) :=
  t.writeSet.mapIdx fun pos w => ⟨w.tuple, w.key, w.insert, pos, w.insert⟩

/-- The inserts, which `abort_impl` goes through. -/
def insertInfos : List (WriteInfo κ) := t.writeInfos.filter (·.insert)

/-- `find_write_set`: the first entry for the tuple. -/
def findWriteSet (a : Addr) : Option (WriteRecord κ) := t.writeSet.find? (·.tuple = a)

/-- `set_do_write` on the entry at a position. -/
def setDoWrite (pos : Nat) : Transaction κ :=
  { t with writeSet := t.writeSet.modify pos fun w => { w with doWrite := true } }

/-- What the transaction has read from the database: tuples and absent keys. -/
def reads : List (κ × Option Bytes) :=
  t.readSet.map (fun r => (r.key, r.value)) ++ t.absent.map (fun e => (e.1, none))

/-- All its writes, in the order of the calls. -/
def writes : List (κ × Option Bytes) := t.writeSet.map fun w => (w.key, w.value)

/-- The transaction as the ledger has it. -/
def claimed : Txn κ (Option Bytes) := ⟨t.reads, t.writes⟩

end Transaction

/-- Where a thread is. -/
inductive Pc (κ : Type*) where
  /-- Between two transactions. -/
  | idle
  /-- In a transaction, between two calls. -/
  | ready
  /-- `do_tuple_read` of the tuple found. -/
  | reading (k : κ) (a : Addr)
  /-- At the label `retry` of `do_tree_put`. -/
  | putting (k : κ) (v : Option Bytes) (expectNew : Bool)
  /-- In the loop that locks, at the first of `rest`. -/
  | locking (inserted : Bool) (done rest : List (WriteInfo κ))
  /-- In the loop over the read set; the id is there if the transaction writes. -/
  | validating (tid : Option Nat) (infos : List (WriteInfo κ)) (rest : List (ReadRecord κ))
  /-- In the loop over the absent set. -/
  | nodes (tid : Option Nat) (infos : List (WriteInfo κ)) (rest : List (Node × Nat))
  /-- In the loop that writes the records. -/
  | writing (tid : Nat) (infos : List (WriteInfo κ)) (rest : List (WriteRecord κ))
  | unlocking (rest : List (WriteInfo κ))
  /-- In the loop of `abort_impl` or at `do_abort`. -/
  | aborting (rest : List (WriteInfo κ))
  deriving DecidableEq, Repr

structure State (n : Nat) (κ : Type*) where
  heap : Heap (Fin n) κ
  index : κ → Option Addr
  leaf : κ → Node
  nodeVersion : Node → Nat
  /-- `global_current_tick` -/
  tick : Nat
  lastCommitTid : Fin n → Nat
  pc : Fin n → Pc κ
  txn : Fin n → Transaction κ

/-- The compile-time and run-time switches. -/
structure Config where
  readOwnWrites : Bool := true
  snapshotsEnabled : Bool := true
  deriving DecidableEq, Repr

inductive Action (n : Nat) (κ : Type*) where
  | begin (i : Fin n)
  | get (i : Fin n) (k : κ)
  /-- `do_tuple_read` -/
  | read (i : Fin n)
  | put (i : Fin n) (k : κ) (v : Option Bytes) (expectNew : Bool)
  /-- The search of `do_tree_put`. -/
  | search (i : Fin n)
  /-- `try_insert_new_tuple`, where the allocator returns `a`. -/
  | insert (i : Fin n) (a : Addr)
  | abort (i : Fin n)
  | commit (i : Fin n)
  | lock (i : Fin n)
  | genCommitTid (i : Fin n)
  | validate (i : Fin n) (changed : Bool)
  | validateNode (i : Fin n)
  /-- One record is written; `b` is what the allocator returns if it is called. -/
  | write (i : Fin n) (b : Addr)
  | unlock (i : Fin n)
  | cleanup (i : Fin n)
  | tick
  /-- The tree moves keys between leaves. -/
  | reshape (leaf : κ → Node) (nodeVersion : Node → Nat)

namespace State

variable {n : Nat} {κ : Type*} (s : State n κ) (i : Fin n)

@[simps] def setPc (p : Pc κ) : State n κ := { s with pc := Function.update s.pc i p }

@[simps] def setTxn (t : Transaction κ) : State n κ := { s with txn := Function.update s.txn i t }

@[simps] def setTuple (a : Addr) (x : Tuple (Fin n) κ) : State n κ :=
  { s with heap := Function.update s.heap a (some x) }

/-- A leaf has changed. -/
@[simps] def bump (m : Node) : State n κ :=
  { s with nodeVersion := Function.update s.nodeVersion m (s.nodeVersion m + 1) }

/-- `abort_impl` -/
def abortImpl : State n κ := s.setPc i (.aborting (s.txn i).insertInfos)

/-- `do_node_read` -/
def doNodeRead (k : κ) (m : Node) (v : Nat) : State n κ :=
  let t := s.txn i
  match t.absentSet.find? (·.1 = m) with
  | none => s.setTxn i { t with absentSet := t.absentSet ++ [(m, v)], absent := t.absent ++ [(k, m)] }
  | some e =>
      if e.2 = v then s.setTxn i { t with absent := t.absent ++ [(k, m)] } else s.abortImpl i

def begin : Option (State n κ) :=
  match s.pc i with
  | .idle => some ((s.setTxn i {}).setPc i .ready)
  | _ => none

/-- `do_search` -/
def get (k : κ) : Option (State n κ) :=
  match s.pc i with
  | .ready =>
      match s.index k with
      | some a => some (s.setPc i (.reading k a))
      | none => some (s.doNodeRead i k (s.leaf k) (s.nodeVersion (s.leaf k)))
  | _ => none

def read (cfg : Config) : Option (State n κ) :=
  match s.pc i with
  | .reading k a =>
      let t := s.txn i
      if cfg.readOwnWrites = true ∧ (t.findWriteSet a).isSome = true then some (s.setPc i .ready)
      else
        match s.heap a with
        | none => none
        | some x =>
            if x.version = maxTid then
              some ((s.setTxn i { t with readSet := t.readSet ++ [⟨a, minTid, k, none⟩] }).setPc i
                .ready)
            -- the reader waits for a stable version
            else if x.lockOwner.isSome then none
            else
              some ((s.setTxn i { t with readSet := t.readSet ++ [⟨a, x.version, k, x.data⟩] }).setPc
                i .ready)
  | _ => none

def put (k : κ) (v : Option Bytes) (expectNew : Bool) : Option (State n κ) :=
  match s.pc i with
  | .ready => if v = some [] then none else some (s.setPc i (.putting k v expectNew))
  | _ => none

def search : Option (State n κ) :=
  match s.pc i with
  | .putting k v false =>
      let t := s.txn i
      match s.index k with
      | some a =>
          some ((s.setTxn i { t with writeSet := t.writeSet ++ [⟨a, k, v, false, false⟩] }).setPc i
            .ready)
      | none => some (s.setPc i (.putting k v true))
  | _ => none

variable [DecidableEq κ]

@[simps] def setIndex (k : κ) (o : Option Addr) : State n κ :=
  { s with index := Function.update s.index k o }

/-- `insert_if_absent`, then the new tuple in the write set and the new node version in the absent
set. -/
def insert (a : Addr) : Option (State n κ) :=
  match s.pc i with
  | .putting k v true =>
      match s.heap a with
      | some _ => none
      | none =>
          match s.index k with
          | some _ => some (s.setPc i (.putting k v false))
          | none =>
              let t := s.txn i
              let m := s.leaf k
              let old := s.nodeVersion m
              let s' := ((s.setTuple a (.allocFirst i k v)).setIndex k (some a)).bump m
              let t' := { t with writeSet := t.writeSet ++ [⟨a, k, v, true, false⟩] }
              match t.absentSet.find? (·.1 = m) with
              | none => some ((s'.setTxn i t').setPc i .ready)
              | some e =>
                  if e.2 = old then
                    some ((s'.setTxn i { t' with
                      absentSet := t.absentSet.map fun e =>
                        if e = (m, old) then (m, old + 1) else e }).setPc i .ready)
                  else some ((s'.setTxn i t').abortImpl i)
  | _ => none

def abort : Option (State n κ) :=
  match s.pc i with
  | .ready => some (s.abortImpl i)
  | _ => none

def commit : Option (State n κ) :=
  match s.pc i with
  | .ready =>
      let t := s.txn i
      if t.writeSet = [] then some (s.setPc i (.validating none [] t.readSet))
      else some (s.setPc i (.locking false [] (t.writeInfos.insertionSort WriteInfo.le)))
  | _ => none

/-- One round of the locking loop. The source looks at the last tuple of a group
(`handle_last_tuple_in_group`) when it comes to the next group; here it is done at the end of the
group itself. -/
def lock : Option (State n κ) :=
  match s.pc i with
  | .locking inserted done (it :: rest) =>
      let t := if it.insert then (s.txn i).setDoWrite it.pos else s.txn i
      let inserted' := inserted || it.insert
      if rest.head?.map (·.tuple) = some it.tuple then
        some ((s.setTxn i t).setPc i (.locking inserted' (done ++ [it]) rest))
      else if inserted' then
        let t' := if it.insert then t else t.setDoWrite it.pos
        some ((s.setTxn i t').setPc i (.locking false (done ++ [it]) rest))
      else
        match s.heap it.tuple with
        | none => none
        | some x =>
            if x.version = maxTid then some (s.setPc i (.aborting (done ++ it :: rest)))
            else if x.lockOwner.isSome then none
            else
              let s' := s.setTuple it.tuple { x with lockOwner := some i }
              let it' := { it with locked := true }
              if x.latest then
                some ((s'.setTxn i (t.setDoWrite it.pos)).setPc i
                  (.locking false (done ++ [it']) rest))
              else some (s'.setPc i (.aborting (done ++ it' :: rest)))
  | _ => none

/-- The ids that `gen_commit_tid` looks at in the write set. -/
def writeTids (infos : List (WriteInfo κ)) : List Nat :=
  infos.filterMap fun w => if w.insert then none else (s.heap w.tuple).map (·.version)

def genCommitTid : Option (State n κ) :=
  match s.pc i with
  | .locking _ done [] =>
      let t := s.txn i
      let tid := Tid.genCommitTid i (s.lastCommitTid i) s.tick (t.readSet.map (·.tid))
        (s.writeTids done)
      some ({ s with lastCommitTid := Function.update s.lastCommitTid i tid }.setPc i
        (.validating (some tid) done t.readSet))
  | _ => none

/-- The test of one entry of the read set. -/
def validates (infos : List (WriteInfo κ)) (changed : Bool) (r : ReadRecord κ) : Bool :=
  match s.heap r.tuple with
  | none => false
  | some x =>
      if infos.any (·.tuple = r.tuple) then x.isLatestVersion r.tid
      else !changed && x.lockOwner.isNone && x.isLatestVersion r.tid

def validate (changed : Bool) : Option (State n κ) :=
  match s.pc i with
  | .validating tid infos [] => some (s.setPc i (.nodes tid infos (s.txn i).absentSet))
  | .validating tid infos (r :: rest) =>
      if s.validates infos changed r then some (s.setPc i (.validating tid infos rest))
      else some (s.setPc i (.aborting infos))
  | _ => none

/-- After the last node the transaction commits. -/
def validateNode : Option (State n κ) :=
  match s.pc i with
  | .nodes none _ [] => some (s.setPc i .idle)
  | .nodes (some tid) infos [] => some (s.setPc i (.writing tid infos (s.txn i).writeSet))
  | .nodes tid infos ((m, v) :: rest) =>
      if s.nodeVersion m = v then some (s.setPc i (.nodes tid infos rest))
      else some (s.setPc i (.aborting infos))
  | _ => none

def write (cfg : Config) (b : Addr) : Option (State n κ) :=
  match s.pc i with
  | .writing _ infos [] => some (s.setPc i (.unlocking infos))
  | .writing tid infos (w :: rest) =>
      let s' := s.setPc i (.writing tid infos rest)
      if w.doWrite = false then some s'
      else
        match s.heap w.tuple with
        | none => none
        | some x =>
            if w.insert then some (s'.setTuple w.tuple { x with version := tid })
            else
              match s.heap b with
              | some _ => none
              | none =>
                  let ret := x.writeRecordAt cfg.snapshotsEnabled s.heap w.tuple b tid w.value
                  -- the tree is told about a tuple that replaces the old one
                  if ret.2.head = w.tuple then some { s' with heap := ret.1 }
                  else some ({ s' with heap := ret.1 }.setIndex w.key (some ret.2.head))
  | _ => none

def unlock : Option (State n κ) :=
  match s.pc i with
  | .unlocking [] => some (s.setPc i .idle)
  | .unlocking (w :: rest) =>
      let s' := s.setPc i (.unlocking rest)
      if w.locked then
        (s.heap w.tuple).map fun x => s'.setTuple w.tuple { x with lockOwner := none }
      else some s'
  | _ => none

/-- `cleanup_inserted_tuple_marker` for an insert, and the unlock. -/
def cleanup : Option (State n κ) :=
  match s.pc i with
  | .aborting [] => some (s.setPc i .idle)
  | .aborting (w :: rest) =>
      let s' := s.setPc i (.aborting rest)
      if w.locked then
        (s.heap w.tuple).map fun x =>
          if w.insert then
            ((s'.setTuple w.tuple { x with latest := false, lockOwner := none }).setIndex w.key
              none).bump (s.leaf w.key)
          else s'.setTuple w.tuple { x with lockOwner := none }
      else some s'
  | _ => none

end State

section Machine

variable {n : Nat} {κ : Type*} [DecidableEq κ]

def State.next (cfg : Config) : Action n κ → State n κ → Option (State n κ)
  | .begin i, s => s.begin i
  | .get i k, s => s.get i k
  | .read i, s => s.read i cfg
  | .put i k v expectNew, s => s.put i k v expectNew
  | .search i, s => s.search i
  | .insert i a, s => s.insert i a
  | .abort i, s => s.abort i
  | .commit i, s => s.commit i
  | .lock i, s => s.lock i
  | .genCommitTid i, s => s.genCommitTid i
  | .validate i changed, s => s.validate i changed
  | .validateNode i, s => s.validateNode i
  | .write i b, s => s.write i cfg b
  | .unlock i, s => s.unlock i
  | .cleanup i, s => s.cleanup i
  | .tick, s => some { s with tick := s.tick + 1 }
  | .reshape leaf nodeVersion, s => some { s with leaf := leaf, nodeVersion := nodeVersion }

/-- Threads on an empty tree. -/
def silo (n : Nat) (κ : Type*) [DecidableEq κ] (cfg : Config) : Machine (State n κ) (Action n κ) where
  init s := s.heap = (fun _ => none) ∧ s.index = (fun _ => none) ∧ s.lastCommitTid = (fun _ => 0)
    ∧ s.pc = (fun _ => .idle) ∧ s.txn = (fun _ => {}) ∧ s.tick < 2 ^ 30
  next := State.next cfg

/-- What a run may rely on: keys leave a leaf only with a change of its version, and versions do not
come back; the epochs and the numbers of the ids do not run through. -/
def Allowed (s : State n κ) : Action n κ → Prop
  | .tick => s.tick + 1 < 2 ^ 30
  | .reshape leaf nodeVersion =>
      (∀ m, s.nodeVersion m ≤ nodeVersion m)
        ∧ ∀ k, leaf k ≠ s.leaf k → s.nodeVersion (s.leaf k) < nodeVersion (s.leaf k)
  | .genCommitTid i =>
      match s.pc i with
      | .locking _ done [] =>
          Tid.numId (Tid.baseTid (s.lastCommitTid i) s.tick ((s.txn i).readSet.map (·.tid))
            (s.writeTids done)) + 1 < 2 ^ Tid.nbitsNumber
      | _ => True
  | _ => True

/-- The event of a step in the ledger. -/
def event (s : State n κ) (a : Action n κ) (s' : State n κ) :
    Option (Ledger.Event (Fin n) κ (Option Bytes)) :=
  match a with
  | .commit i => if (s.txn i).writeSet = [] then some (.claim i (s.txn i).claimed) else none
  | .genCommitTid i => some (.claim i (s.txn i).claimed)
  | .validate i _ =>
      match s.pc i, s'.pc i with
      | .validating _ _ (r :: _), .validating _ _ _ => some (.certify i [(r.key, r.value)])
      | _, .aborting _ => some (.abort i)
      | _, _ => none
  | .validateNode i =>
      match s.pc i, s'.pc i with
      | .nodes _ _ [], _ => some (.commit i)
      | .nodes _ _ ((m, _) :: _), .nodes _ _ _ =>
          some (.certify i (((s.txn i).absent.filter (·.2 = m)).map fun e => (e.1, none)))
      | _, .aborting _ => some (.abort i)
      | _, _ => none
  | _ => none

end Machine

end TailBench.Silo.Proto2
