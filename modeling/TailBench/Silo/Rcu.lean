import Mathlib.Tactic.Ring
import Mathlib.Tactic.Simps.Basic
import TailBench.Lib.Machine
import TailBench.Silo.Pxqueue

set_option autoImplicit false

/-! # The ticker and the RCU regions

Silo frees what concurrent threads may still read only after an epoch (`silo/ticker.h`,
`silo/rcu.h`, `silo/rcu.cc`). A daemon raises the global tick and then visits the cores one by one,
under the lock that a thread of the core holds as long as it is in a region; the tick is over when it
has visited all of them. A thread stamps what it retires with the epoch of the next tick, and runs it
at the end of a later region when the epoch is over.

* One thread a core, and a step of a thread or of the daemon loads or stores one shared word: a lock,
  the tick of a core, the global tick, the last tick that is over. The depth of a region and the
  queues are the thread's own.
* Ticks are numbers: the 64-bit ticks of the source are taken not to overflow. `last_reaped_epoch_` is
  cut to 32 bits, as in the source.
* A thread cleans up when its outermost region ends, if that is a `scoped_rcu_region`; one of
  `scoped_rcu_base<false>` does not.
* The memory arenas and the start times are left out.
-/

namespace TailBench.Silo.Rcu

open Lib

/-! ## The state -/

/-- Ticks in an RCU epoch. -/
def epochTimeMultiplier : Nat := 25

def toRcuTicks (ticks : Nat) : Nat := ticks / epochTimeMultiplier

/-- The elements in a group of a queue. -/
def groupSize : Nat := 4096

/-- A pointer with the function to call, or the size to free. -/
structure DeleteEntry where
  ptr : Nat
  action : Int
  deriving DecidableEq, Repr

/-- Who has the lock of a core: its thread or the daemon. -/
inductive Holder where
  | thread
  | ticker
  deriving DecidableEq, Repr

structure TickInfo where
  lock : Option Holder
  currentTick : Nat
  deriving DecidableEq, Repr

inductive Pc where
  | outside
  /-- In the constructor of the outermost guard. -/
  | locking
  | locked
  /-- Has loaded the global tick. -/
  | loaded (tick : Nat)
  /-- In a region; the ticks of the guards, the innermost first. -/
  | inside (guards : List Nat)
  /-- In the destructor of the outermost guard. -/
  | unlocking (doCleanup : Bool)
  /-- At the beginning of `do_cleanup`. -/
  | cleaning
  deriving DecidableEq, Repr

structure Thread where
  pc : Pc
  queue : PxQueue DeleteEntry
  scratch : PxQueue DeleteEntry
  /-- In the loop of `do_cleanup`: what is still to be run. -/
  reaping : Option (List DeleteEntry)
  lastReapedEpoch : Nat
  deriving DecidableEq, Repr

/-- Where the daemon is in its loop: at core `i`, to end the tick `last`. -/
inductive TickerPc (n : Nat) where
  | sleeping
  | visiting (last i : Nat)
  | locking (last : Nat) (i : Fin n)
  | storing (last : Nat) (i : Fin n)
  | unlocking (last : Nat) (i : Fin n)
  deriving DecidableEq, Repr

structure State (n : Nat) where
  ticks : Fin n → TickInfo
  threads : Fin n → Thread
  ticker : TickerPc n
  currentTick : Nat
  lastTickInclusive : Nat

inductive Action (n : Nat) where
  /-- A guard is made. -/
  | enter (i : Fin n)
  /-- `free_with_fn` or `dealloc_rcu`. -/
  | retire (i : Fin n) (e : DeleteEntry)
  /-- The innermost guard is destroyed. -/
  | leave (i : Fin n) (doCleanup : Bool)
  | step (i : Fin n)
  | tick
  deriving DecidableEq, Repr

/-! ## The steps -/

section Steps

variable {n : Nat} (s : State n) (i : Fin n)

@[simps] def State.setThread (t : Thread) : State n :=
  { s with threads := Function.update s.threads i t }

@[simps] def State.setTick (t : TickInfo) : State n :=
  { s with ticks := Function.update s.ticks i t }

/-- Ticks below this one are over. -/
def State.cleaningRcuTickExclusive : Nat := toRcuTicks (s.lastTickInclusive + 1)

/-- `do_cleanup` up to its own region; `tick` is the first epoch that is not over. -/
def Thread.doCleanup (t : Thread) (tick : Nat) : Thread :=
  if tick = 0 ∨ t.lastReapedEpoch = tick - 1 then { t with pc := .outside }
  else
    let (accepted, rest) := PxQueue.emptyAcceptFrom (tick - 1) t.queue
    let t := { t with lastReapedEpoch := (tick - 1) % 2 ^ 32, queue := rest, scratch := accepted }
    if accepted = [] then { t with pc := .outside }
    else { t with pc := .locking, reaping := some (accepted.flatMap (·.pxs)) }

def State.enter : Option (State n) :=
  let t := s.threads i
  match t.pc with
  | .outside => some (s.setThread i { t with pc := .locking })
  | .inside gs => some (s.setThread i { t with pc := .inside ((s.ticks i).currentTick :: gs) })
  | _ => none

def State.retire (e : DeleteEntry) : Option (State n) :=
  let t := s.threads i
  match t.pc with
  | .inside _ => some (s.setThread i { t with
      queue := t.queue.enqueue groupSize e (toRcuTicks ((s.ticks i).currentTick + 1)) })
  | _ => none

def State.leave (doCleanup : Bool) : Option (State n) :=
  let t := s.threads i
  match t.pc, t.reaping with
  | .inside (_ :: g :: gs), _ => some (s.setThread i { t with pc := .inside (g :: gs) })
  | .inside [_], none => some (s.setThread i { t with pc := .unlocking doCleanup })
  -- the region of `do_cleanup` is a `scoped_rcu_region`
  | .inside [_], some [] =>
      some (s.setThread i { t with pc := .unlocking true, scratch := [], reaping := none })
  | _, _ => none

def State.step : Option (State n) :=
  let t := s.threads i
  match t.pc with
  | .locking =>
      if (s.ticks i).lock = none then
        some ((s.setTick i { s.ticks i with lock := some .thread }).setThread i
          { t with pc := .locked })
      else none
  | .locked => some (s.setThread i { t with pc := .loaded s.currentTick })
  | .loaded tick =>
      some ((s.setTick i { s.ticks i with currentTick := tick }).setThread i
        { t with pc := .inside [tick] })
  | .inside [_] =>
      match t.reaping with
      | some (_ :: es) => some (s.setThread i { t with reaping := some es })
      | _ => none
  | .unlocking doCleanup =>
      some ((s.setTick i { s.ticks i with lock := none }).setThread i
        { t with pc := if doCleanup then .cleaning else .outside })
  | .cleaning => some (s.setThread i (t.doCleanup s.cleaningRcuTickExclusive))
  | _ => none

/-- The loop of the daemon. -/
def State.tick : Option (State n) :=
  match s.ticker with
  | .sleeping =>
      some { s with currentTick := s.currentTick + 1, ticker := .visiting s.currentTick 0 }
  | .visiting last i =>
      if h : i < n then
        if (s.ticks ⟨i, h⟩).currentTick = last + 1 then
          some { s with ticker := .visiting last (i + 1) }
        else some { s with ticker := .locking last ⟨i, h⟩ }
      else some { s with lastTickInclusive := last, ticker := .sleeping }
  | .locking last i =>
      if (s.ticks i).lock = none then
        some { s.setTick i { s.ticks i with lock := some .ticker } with ticker := .storing last i }
      else none
  | .storing last i =>
      some { s.setTick i { s.ticks i with currentTick := last + 1 } with
        ticker := .unlocking last i }
  | .unlocking last i =>
      some { s.setTick i { s.ticks i with lock := none } with ticker := .visiting last (i + 1) }

def State.next : Action n → Option (State n)
  | .enter i => s.enter i
  | .retire i e => s.retire i e
  | .leave i doCleanup => s.leave i doCleanup
  | .step i => s.step i
  | .tick => s.tick

/-- The `INVARIANT`s of the source at a step. -/
def State.Asserts : Action n → Prop
  | .enter i =>
      match (s.threads i).pc with
      | .inside _ => (s.ticks i).lock ≠ none
      | _ => True
  | .retire i _ =>
      match (s.threads i).pc with
      | .inside _ => PxQueue.Sane groupSize (s.threads i).queue
          ∧ ∀ g ∈ (s.threads i).queue, g.tick ≤ toRcuTicks ((s.ticks i).currentTick + 1)
      | _ => True
  | .leave i _ =>
      match (s.threads i).pc with
      | .inside gs => gs ≠ [] ∧ (s.ticks i).lock ≠ none ∧ ∀ g ∈ gs, s.lastTickInclusive < g
      | _ => True
  | .step i =>
      match (s.threads i).pc with
      | .loaded tick => (s.ticks i).currentTick ≤ tick ∧ (s.ticks i).lock ≠ none
      | .unlocking _ => (s.ticks i).lock ≠ none
      | .cleaning => s.cleaningRcuTickExclusive ≠ 0 →
          (s.threads i).lastReapedEpoch ≤ s.cleaningRcuTickExclusive - 1
            ∧ (s.threads i).scratch = []
      | _ => True
  | .tick =>
      match s.ticker with
      | .visiting last i => ∀ h : i < n,
          (s.ticks ⟨i, h⟩).currentTick = last ∨ (s.ticks ⟨i, h⟩).currentTick = last + 1
      | .unlocking _ i => (s.ticks i).lock ≠ none
      | _ => True

end Steps

/-- A ticker and the threads of `n` cores. -/
def rcu (n : Nat) : Machine (State n) (Action n) where
  init s := s.currentTick = 1 ∧ s.lastTickInclusive = 0 ∧ s.ticker = .sleeping
    ∧ (∀ i, s.ticks i = ⟨none, 1⟩) ∧ ∀ i, s.threads i = ⟨.outside, [], [], none, 0⟩
  next a s := s.next a

/-! ## What happens -/

inductive Event (n : Nat) where
  /-- A region begins: the global tick is loaded. -/
  | enter (i : Fin n)
  /-- A region ends: the lock of the core is given back. -/
  | leave (i : Fin n)
  | retire (i : Fin n) (e : DeleteEntry)
  | run (i : Fin n) (e : DeleteEntry)
  deriving DecidableEq, Repr

def event {n : Nat} (s : State n) : Action n → State n → Option (Event n)
  | .retire i e, _ => some (.retire i e)
  | .step i, _ =>
      match (s.threads i).pc, (s.threads i).reaping with
      | .locked, _ => some (.enter i)
      | .unlocking _, _ => some (.leave i)
      | .inside _, some (e :: _) => some (.run i e)
      | _, _ => none
  | _, _ => none

end TailBench.Silo.Rcu
