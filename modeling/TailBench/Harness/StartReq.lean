import TailBench.Harness.Client
import TailBench.Lib.Threads

set_option autoImplicit false

/-! # `Client::startReq`, step by step

`startReq` is the one method that several threads are inside at the same time, at different
places: two waits at a barrier, three critical sections under `lock`, unlocked reads of
`status`, and a sleep. `StartPc` is the place of a thread in it and `startReqStep` one
atomic step. Each step contains at most one of: a clock reading, a critical section's body,
a lock or barrier operation, an unlocked read of a shared variable.

The barrier counts the threads that wait in the current round; the last one to arrive opens
it by starting the next round, and a waiting thread leaves once its round is over.
-/

namespace TailBench

open Lib

/-- The mutexes of the harness. -/
inductive Mutex where
  | lock
  | sendLock
  | recvLock
  deriving DecidableEq, Repr

/-- What a step takes from outside: a clock reading, generated data, the result of a system
call. -/
inductive Input where
  | tau
  | clock (ns : UInt64)
  | gen (ns : UInt64) (data : Payload MAX_REQ_BYTES)
  | wrote (k : Nat)
  | sendError
  | got (bs : Bytes)
  | eof
  | recvError
  /-- The readings of `finiReq` and of what it calls. -/
  | fini (curNs laterNs : UInt64)
  deriving DecidableEq, Repr

/-- The clock reading a step is made with. -/
def Input.reading : Input → Option UInt64
  | .clock ns => some ns
  | .gen ns _ => some ns
  | .fini curNs _ => some curNs
  | _ => none

structure Barrier where
  waiting : Nat := 0
  round : Nat := 0
  deriving DecidableEq, Repr

/-- A thread arrives: the `n`-th opens the barrier. The flag says whether it did. -/
def Barrier.arrive (n : Nat) (b : Barrier) : Barrier × Bool :=
  if b.waiting + 1 = n then ({ waiting := 0, round := b.round + 1 }, true)
  else ({ b with waiting := b.waiting + 1 }, false)

/-- `pthread_barrier_destroy` and `pthread_barrier_init`. -/
def Barrier.reinit (b : Barrier) : Barrier := { b with waiting := 0 }

/-- The place of a thread inside `startReq`. -/
inductive StartPc where
  | enter
  | checkInit (startNs : UInt64)
  | arrive1 (startNs : UInt64)
  | wait1 (startNs : UInt64) (round : Nat)
  | lockInit (startNs : UInt64)
  | init (startNs : UInt64)
  | arrive2 (startNs : UInt64)
  | wait2 (startNs : UInt64) (round : Nat)
  | checkRoi (startNs : UInt64)
  | lockRate (startNs : UInt64)
  | rate (startNs : UInt64)
  | lockGen (startNs : UInt64)
  | gen (startNs : UInt64)
  | genEnd (p : Nat)
  | generated (p : Nat)
  /-- In `sleepUntil(target)`; `slept` is added to `total_sleep_ns` after it. -/
  | sleep (p : Nat) (target slept : UInt64)
  deriving DecidableEq, Repr

/-- The object and its barrier. -/
structure ClientCore where
  obj : Client
  barrier : Barrier

/-- How a step of `startReq` ends. -/
inductive StartRes where
  | goes (d : ClientCore) (pc : StartPc) (op : LockOp Mutex)
  | returns (d : ClientCore) (p : Nat)
  | faults (f : ClientFault)

/-- One step of `startReq`. -/
def startReqStep (cfg : Config) (nthreads : Nat) (d : ClientCore) :
    StartPc → Input → Option StartRes
  | .enter, .clock ns => some (.goes d (.checkInit ns) .keep)
  -- `status` is read without the lock
  | .checkInit t, .tau =>
      some (.goes d (if d.obj.status = .INIT then .arrive1 t else .checkRoi t) .keep)
  -- the rendezvous of the first calls: all have come before anybody looks at `dist`
  | .arrive1 t, .tau =>
      let (b, opened) := d.barrier.arrive nthreads
      some (.goes { d with barrier := b }
        (if opened then .lockInit t else .wait1 t d.barrier.round) .keep)
  | .wait1 t round, .tau =>
      if d.barrier.round = round then none else some (.goes d (.lockInit t) .keep)
  | .lockInit t, .tau => some (.goes d (.init t) (.acquire .lock))
  -- the clock is read only by the thread that creates the distribution
  | .init t, .clock ns =>
      match d.obj.dist with
      | none =>
          let r := d.obj.startReqInit cfg ns
          some (.goes ⟨r.1, if r.2 then d.barrier.reinit else d.barrier⟩ (.arrive2 t)
            (.release .lock))
      | some _ => none
  | .init t, .tau =>
      match d.obj.dist with
      | some _ => some (.goes d (.arrive2 t) (.release .lock))
      | none => none
  -- and all have passed the critical section before anybody generates a request
  | .arrive2 t, .tau =>
      let (b, opened) := d.barrier.arrive nthreads
      some (.goes { d with barrier := b }
        (if opened then .checkRoi t else .wait2 t d.barrier.round) .keep)
  | .wait2 t round, .tau =>
      if d.barrier.round = round then none else some (.goes d (.checkRoi t) .keep)
  | .checkRoi t, .tau =>
      some (.goes d (if d.obj.status = .ROI ∧ cfg.qpsVar ≠ 0 then .lockRate t else .lockGen t)
        .keep)
  | .lockRate t, .tau => some (.goes d (.rate t) (.acquire .lock))
  -- the clock is read only when the rate changes
  | .rate t, .clock ns =>
      if d.obj.qpsCounter = d.obj.qpsInterval then
        some (.goes { d with obj := d.obj.startReqRate cfg ns } (.lockGen t) (.release .lock))
      else none
  | .rate t, .tau =>
      if d.obj.qpsCounter = d.obj.qpsInterval then none
      else some (.goes { d with obj := d.obj.startReqRate cfg 0 } (.lockGen t) (.release .lock))
  | .lockGen t, .tau => some (.goes d (.gen t) (.acquire .lock))
  | .gen t, .gen ns data =>
      match d.obj.startReqGen cfg t ns data with
      | none => some (.faults .badPointer)
      | some c => some (.goes { d with obj := c } (.genEnd d.obj.allocated) .keep)
  | .genEnd p, .clock ns =>
      match d.obj.startReqGenEnd p ns with
      | none => some (.faults .badPointer)
      | some c => some (.goes { d with obj := c } (.generated p) (.release .lock))
  | .generated p, .clock ns =>
      match d.obj.heap p with
      | none => some (.faults .badPointer)
      | some req =>
          -- a request whose time has come goes out at once, late or not
          let c := d.obj.modifyReq p fun r => { r with late := decide (r.genNs < r.startNs) }
          if ns < req.genNs then
            some (.goes { d with obj := c }
              (.sleep p (max req.genNs (ns + cfg.minSleepNs))
                (max (req.genNs - ns) cfg.minSleepNs)) .keep)
          else some (.returns { d with obj := c } p)
  | .sleep p target slept, .clock ns =>
      if ns < target then some (.goes d (.sleep p target slept) .keep)
      else some (.returns
        { d with obj := { d.obj with total_sleep_ns := d.obj.total_sleep_ns + slept } } p)
  | _, _ => none

/-- What a thread at a place of `startReq` holds. -/
def StartPc.holds : StartPc → Mutex → Prop
  | .init _, m | .rate _, m | .gen _, m | .genEnd _, m => m = .lock
  | _, _ => False

end TailBench
