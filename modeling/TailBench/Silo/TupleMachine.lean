import Mathlib.Tactic.Simps.Basic
import TailBench.Lib.Register
import TailBench.Silo.Tuple
import TailBench.Silo.TupleHeader

set_option autoImplicit false

/-! # One tuple and its readers

The accesses of the threads to one `dbtuple`, load by load and store by store: `lock` with write
intent (a transaction) or without (the cleaner), `write_record_at`, `clear_latest` and `unlock` of the
owner, `stable_read` of a transaction (`record_at`), on a snapshot with `allow_write_intent`, and
`stable_is_latest_version` of one that validates (`silo/tuple.h`). After the commit of a removal the
owner puts the key into the tuple for the cleaner (`on_logical_delete`, `silo/txn_proto2_impl.h`).
Readers take no lock: they look at the header before and after, and copy the bytes in between one by
one while a writer may be changing them.

* A store to the header by the owner of the lock is one step: nobody else can change it then. A lock
  is the successful compare-and-swap.
* A word of the tuple (the header, the id, the size, the pointer) is loaded and stored as a whole.
* What a reader finds behind the pointer `next` is another tuple.
* The owner does what the invariants of the source allow it: it writes with write intent only.
-/

namespace TailBench.Silo.Dbtuple

open Lib Hdr

/-- The memory of a tuple. -/
structure Cell where
  hdr : VersionT
  version : Nat
  size : Nat
  value : Nat → UInt8
  next : Option Addr

/-- The record in a tuple; a deleted one is absent. -/
def Cell.data (c : Cell) : Option Bytes :=
  if isDeleting c.hdr = true ∨ c.size = 0 then none else some ((List.range c.size).map c.value)

/-- What `record_at` finds. -/
inductive ReadRet where
  | found (start : Nat) (data : Option Bytes)
  /-- The version is too new; the reader goes on with the chain. -/
  | older (next : Option Addr)
  deriving DecidableEq, Repr

inductive ReadPc where
  /-- At the test for a tentative tuple. -/
  | enter
  /-- In `reader_stable_version`. -/
  | stable
  /-- At `is_not_behind(t)`; `v` is the header that was loaded. -/
  | compare (v : VersionT)
  | start (v : VersionT)
  | size (v : VersionT) (start : Nat)
  /-- The bytes copied so far. -/
  | copy (v : VersionT) (start sz : Nat) (buf : Bytes)
  | next (v : VersionT)
  /-- At `reader_check_version(v)`. -/
  | check (v : VersionT) (res : ReadRet)
  | done (res : ReadRet)
  deriving DecidableEq, Repr

inductive CheckPc where
  /-- In `try_writer_stable_version`. -/
  | spin (spins : Nat)
  | compare (v : VersionT)
  | check (v : VersionT)
  | done (b : Bool)
  deriving DecidableEq, Repr

inductive Pc where
  | idle
  /-- Has the tuple that it has created. -/
  | inserting
  | holding
  /-- In `write_record_at`, behind `mark_modifying`. -/
  | linking (t : Nat) (v : Option Bytes) (spill : Option Addr)
  /-- The first `j` bytes are written. -/
  | storing (t : Nat) (v : Option Bytes) (j : Nat)
  | stamping (t : Nat) (v : Option Bytes)
  | sizing (v : Option Bytes)
  | dropping
  /-- In `on_logical_delete`, with the first `j` bytes of the key written. -/
  | keeping (key : Bytes) (j : Nat)
  | reading (t : Nat) (allowWriteIntent : Bool) (p : ReadPc)
  | checking (t : Nat) (p : CheckPc)
  deriving DecidableEq, Repr

/-- What the tuple is to somebody who does not hold it. -/
structure Content where
  version : Nat
  data : Option Bytes
  next : Option Addr
  latest : Bool
  writeIntent : Bool
  deriving DecidableEq, Repr

def Cell.content (c : Cell) : Content :=
  ⟨c.version, c.data, c.next, isLatest c.hdr, isWriteIntent c.hdr⟩

structure State (n : Nat) where
  cell : Cell
  pc : Fin n → Pc
  /-- History: the unlocks with a new number so far, the memory and these unlocks when a thread has
  loaded the header for the last time, and the content when nobody was modifying it. -/
  unlocks : Nat
  since : Fin n → Cell × Nat
  published : Content

inductive Action (n : Nat) where
  | lock (i : Fin n) (writeIntent : Bool)
  | unlock (i : Fin n)
  /-- Another tuple has taken the place of this one. -/
  | clearLatest (i : Fin n)
  /-- The commit of an insert. -/
  | setVersion (i : Fin n) (t : Nat)
  /-- `write_record_at` in place, with the old record in a spill or not. -/
  | writeRecord (i : Fin n) (t : Nat) (v : Option Bytes) (spill : Option Addr)
  | onLogicalDelete (i : Fin n) (key : Bytes)
  | stableRead (i : Fin n) (t : Nat) (allowWriteIntent : Bool)
  | stableIsLatestVersion (i : Fin n) (t : Nat)
  | step (i : Fin n)
  | ret (i : Fin n)
  deriving DecidableEq, Repr

/-! ## The steps -/

section Steps

variable {n : Nat} (s : State n) (i : Fin n)

@[simps] def State.setPc (p : Pc) : State n := { s with pc := Function.update s.pc i p }

@[simps] def State.setCell (c : Cell) : State n := { s with cell := c }

@[simps] def State.load : State n := { s with since := Function.update s.since i (s.cell, s.unlocks) }

/-- What the tuple is can be seen, unless somebody is modifying it. -/
@[simps] def State.publish : State n :=
  { s with published := if isModifying s.cell.hdr then s.published else s.cell.content }

def State.lock (writeIntent : Bool) : Option (State n) :=
  match s.pc i with
  | .idle =>
      if isLocked s.cell.hdr then none
      else
        let c := { s.cell with hdr := Hdr.lock writeIntent s.cell.hdr }
        some ((s.setCell c).publish.setPc i .holding)
  | _ => none

def State.unlock : Option (State n) :=
  let c := { s.cell with hdr := Hdr.unlock s.cell.hdr }
  match s.pc i with
  | .holding | .inserting =>
      some { (s.setCell c).publish.setPc i .idle with
        unlocks := s.unlocks + if isNumbered s.cell.hdr then 1 else 0 }
  | _ => none

def State.clearLatest : Option (State n) :=
  match s.pc i with
  | .holding | .inserting =>
      if isLatest s.cell.hdr then
        some (s.setCell { s.cell with hdr := Hdr.clearLatest s.cell.hdr }).publish
      else none
  | _ => none

def State.setVersion (t : Nat) : Option (State n) :=
  match s.pc i with
  | .inserting =>
      if t = maxTid then none
      else some ((s.setCell { s.cell with version := t }).publish.setPc i .holding)
  | _ => none

def State.writeRecord (allocSize : Nat) (t : Nat) (v : Option Bytes) (spill : Option Addr) :
    Option (State n) :=
  match s.pc i with
  | .holding =>
      -- the branches of the call that write in place
      if t ≠ maxTid ∧ (v.getD []).length ≤ allocSize ∧ isWriteIntent s.cell.hdr = true ∧
          isLatest s.cell.hdr = true ∧ isDeleting s.cell.hdr = false ∧ s.cell.size ≠ 0 then
        some ((s.setCell { s.cell with hdr := markModifying s.cell.hdr }).setPc i
          (.linking t v spill))
      else none
  | _ => none

def State.onLogicalDelete (allocSize : Nat) (key : Bytes) : Option (State n) :=
  match s.pc i with
  | .holding =>
      if isWriteIntent s.cell.hdr = true ∧ isLatest s.cell.hdr = true ∧
          isDeleting s.cell.hdr = true ∧ s.cell.size = 0 ∧ key.length ≤ allocSize then
        some (s.setPc i (.keeping key 0))
      else none
  | _ => none

/-- The next load of `record_at`. -/
def State.readStep (t : Nat) (allow : Bool) : ReadPc → Option (State n)
  | .enter =>
      if s.cell.version = maxTid then some (s.setPc i (.reading t allow (.done (.found minTid none))))
      else some (s.setPc i (.reading t allow .stable))
  | .stable =>
      if isModifying s.cell.hdr || (!allow && isWriteIntent s.cell.hdr) then none
      else some ((s.load i).setPc i (.reading t allow (.compare s.cell.hdr)))
  | .compare v =>
      some (s.setPc i (.reading t allow (if s.cell.version ≤ t then .start v else .next v)))
  | .start v => some (s.setPc i (.reading t allow (.size v s.cell.version)))
  | .size v start =>
      some (s.setPc i (.reading t allow (.copy v start (if isDeleting v then 0 else s.cell.size) [])))
  | .copy v start sz buf =>
      if buf.length < sz then
        some (s.setPc i (.reading t allow (.copy v start sz (buf ++ [s.cell.value buf.length]))))
      else
        some (s.setPc i
          (.reading t allow (.check v (.found start (if sz = 0 then none else some buf)))))
  | .next v => some (s.setPc i (.reading t allow (.check v (.older s.cell.next))))
  | .check v res =>
      some (s.setPc i
        (.reading t allow (if readerCheckVersion s.cell.hdr v then .done res else .stable)))
  | .done _ => none

def State.checkStep (t : Nat) : CheckPc → Option (State n)
  | .spin spins =>
      if isWriteIntent s.cell.hdr then
        match spins with
        | 0 => some (s.setPc i (.checking t (.done false)))
        | spins + 1 => some (s.setPc i (.checking t (.spin spins)))
      else some ((s.load i).setPc i (.checking t (.compare s.cell.hdr)))
  | .compare v =>
      some (s.setPc i (.checking t
        (if isLatest v && decide (s.cell.version ≤ t) then .check v else .done false)))
  | .check v => some (s.setPc i (.checking t (.done (writerCheckVersion s.cell.hdr v))))
  | .done _ => none

def State.step : Option (State n) :=
  match s.pc i with
  | .linking t v spill =>
      some ((s.setCell { s.cell with next := spill.or s.cell.next }).setPc i (.storing t v 0))
  | .storing t v j =>
      if h : j < (v.getD []).length then
        some ((s.setCell { s.cell with
          value := Function.update s.cell.value j ((v.getD []).get ⟨j, h⟩) }).setPc i
            (.storing t v (j + 1)))
      else some (s.setPc i (.stamping t v))
  | .stamping t v => some ((s.setCell { s.cell with version := t }).setPc i (.sizing v))
  | .sizing v =>
      some ((s.setCell { s.cell with size := (v.getD []).length }).setPc i
        (if v.getD [] = [] then .dropping else .holding))
  | .dropping =>
      some ((s.setCell { s.cell with hdr := markDeleting s.cell.hdr }).setPc i .holding)
  | .keeping key j =>
      if h : j < key.length then
        some ((s.setCell { s.cell with
          value := Function.update s.cell.value j (key.get ⟨j, h⟩) }).setPc i (.keeping key (j + 1)))
      else some ((s.setCell { s.cell with size := key.length }).setPc i .holding)
  | .reading t allow p => s.readStep i t allow p
  | .checking t p => s.checkStep i t p
  | _ => none

def State.ret : Option (State n) :=
  match s.pc i with
  | .reading _ _ (.done _) | .checking _ (.done _) => some (s.setPc i .idle)
  | _ => none

def State.call (p : Pc) : Option (State n) :=
  match s.pc i with
  | .idle => some (s.setPc i p)
  | _ => none

def State.apply (allocSize : Nat) : Action n → Option (State n)
  | .lock i writeIntent => s.lock i writeIntent
  | .unlock i => s.unlock i
  | .clearLatest i => s.clearLatest i
  | .setVersion i t => s.setVersion i t
  | .writeRecord i t v spill => s.writeRecord i allocSize t v spill
  | .onLogicalDelete i key => s.onLogicalDelete i allocSize key
  | .stableRead i t allow => s.call i (.reading t allow .enter)
  | .stableIsLatestVersion i t => s.call i (.checking t (.spin 16))
  | .step i => s.step i
  | .ret i => s.ret i

end Steps

/-! ## Where a tuple begins -/

/-- `alloc_first(sz, true)` with the value written. -/
structure Inserted {n : Nat} (s : State n) (i : Fin n) : Prop where
  hdr_eq : s.cell.hdr = first s.cell.size
  version_eq : s.cell.version = maxTid
  pc_eq : s.pc = Function.update (fun _ => .idle) i .inserting

/-- `alloc_spill` with the value written: a tuple that takes the place of another one. -/
structure Replacing {n : Nat} (s : State n) : Prop where
  hdr_eq : s.cell.hdr = latestMask ||| (if s.cell.size = 0 then deletingMask else 0#32)
  version_ne : s.cell.version ≠ maxTid
  pc_eq : s.pc = fun _ => .idle

/-- A tuple and `n` threads. -/
def dbtuple (n allocSize : Nat) : Machine (State n) (Action n) where
  init s := s.unlocks = 0 ∧ s.published = s.cell.content ∧ ((∃ i, Inserted s i) ∨ Replacing s)
  next a s := s.apply allocSize a

/-- The number of the header does not come round between the two looks of a reader. -/
def NoWrap {n : Nat} (s : State n) : Action n → Prop
  | .step i =>
      match s.pc i with
      | .reading _ _ (.check _ _) | .checking _ (.check _) => s.unlocks - (s.since i).2 < 2 ^ 27
      | _ => True
  | _ => True

/-! ## What can be seen from outside -/

inductive Query where
  | stableRead (t : Nat) (allowWriteIntent : Bool)
  | stableIsLatestVersion (t : Nat)
  deriving DecidableEq, Repr

inductive Reply where
  | stableRead (res : ReadRet)
  | stableIsLatestVersion (b : Bool)
  deriving DecidableEq, Repr

/-- The record of version `t`. -/
def Content.read (c : Content) (t : Nat) : ReadRet :=
  if c.version = maxTid then .found minTid none
  else if c.version ≤ t then .found c.version c.data
  else .older c.next

/-- The record may be read: nobody has it to write it, or the reader does not mind. A tentative
record is absent in any case. -/
def Content.readable (allow : Bool) (c : Content) : Bool :=
  allow || !c.writeIntent || decide (c.version = maxTid)

/-- What may be returned for a content; the check may fail for no reason. -/
def Content.allows : Query → Content → Reply → Bool
  | .stableRead t allow, c, .stableRead res => c.readable allow && decide (res = c.read t)
  | .stableIsLatestVersion t, c, .stableIsLatestVersion b =>
      !b || (!c.writeIntent && c.latest && decide (c.version ≤ t))
  | _, _, _ => false

/-- The calls, the returns, and what the tuple is from now on. -/
def event {n : Nat} (s : State n) :
    Action n → State n → Option (RegisterEvent (Fin n) Content Query Reply)
  | .lock _ _, s' | .unlock _, s' | .clearLatest _, s' | .setVersion _ _, s' =>
      if isModifying s'.cell.hdr then none else some (.publish s'.published)
  | .stableRead i t allow, _ => some (.ask i (.stableRead t allow))
  | .stableIsLatestVersion i t, _ => some (.ask i (.stableIsLatestVersion t))
  | .ret i, _ =>
      match s.pc i with
      | .reading _ _ (.done res) => some (.answer i (.stableRead res))
      | .checking _ (.done b) => some (.answer i (.stableIsLatestVersion b))
      | _ => none
  | _, _ => none

end TailBench.Silo.Dbtuple
