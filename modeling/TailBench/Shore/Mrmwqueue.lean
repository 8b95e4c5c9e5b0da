import TailBench.Shore.Worker
import TailBench.Lib.Machine

set_option autoImplicit false

/-! # The queue of the workers

`mrmwqueue` (`sm/shore/mrmwqueue.h`) with the threads that use it: workers, which run the
state machine `work` and pop requests (`sm/shore/shore_worker.cpp`, `shore_trx_worker.cpp`),
pushers, which call `push`, and controllers, which stop, start and pause workers, change their
working state and set up the queue.

A critical section of a worker touches nothing but what `_lock` protects, so it is one step,
possible while the lock is free. `push` calls `set_ws` on other workers from inside its critical
section, so it is many steps, during which `lock` names the pusher. Everything else that is
shared (`_ws`, `_control`, the condex) is read and written one access a step.

The state machine of a worker: `work` looks at `_control` and calls the implementation of that
state. An attached transaction is not modelled: `_serve_action` ends with a commit or an abort
of the transaction it begins. How a thread gets at the queue, and the destructor that takes it
away, are in `TrxWorker.lean`.

Sizes and counters are those of the source as long as these do not overflow: fewer than `2 ^ 31`
requests in the queue (`queue_sz` and `woken` are `int`s), and `_loops` below `2 ^ 31 - 1`, which
`++loopcnt` goes past by one.
-/

namespace TailBench.Shore

open Lib

/-- `mrmwqueue`, with what its lock protects. -/
structure Mrmwqueue (n : Nat) (α : Type) where
  queue : List α := []
  waiters : List (Fin n) := []
  my_ws : WorkingState := .UNDEF
  loops : Int := 0
  thres : Int := 0

/-- The queue after `trx_worker_t::init(lc)`. -/
def inputQueue {n : Nat} {α : Type} (lc : Int) : Mrmwqueue n α :=
  { my_ws := .INPUT_Q, loops := lc }

/-! ## Workers -/

/-- The place of a worker. -/
inductive WorkerPc (α : Type) where
  /-- `switch (get_control())` in `work`. -/
  | switch
  /-- In `_work_PAUSED_impl`. -/
  | paused
  /-- `while (get_control() == WC_ACTIVE)` in `_work_ACTIVE_impl`. -/
  | active
  /-- In `set_ws(WS_LOOP)`. -/
  | setLoop (pc : SetWsPc)
  /-- Before the first critical section of `pop`. -/
  | pop (loopcnt : Int)
  /-- In `condex_sleep`: before `_ws` is read. -/
  | sleepRead
  /-- In `condex_sleep`: before the compare-and-swap. -/
  | sleepCas
  /-- Before `_notify.wait()`. -/
  | sleepWait
  /-- In the loop of `_notify.wait()`. -/
  | sleeping
  /-- Before the second critical section of `pop`. -/
  | leave
  /-- Before `get_control()` in `pop`. -/
  | checkControl (loopcnt : Int)
  /-- In `set_ws(WS_FINISHED)`. -/
  | setFinished (pc : SetWsPc)
  /-- Before `_my_ws` is read for `can_continue`. -/
  | canContinue (loopcnt : Int)
  /-- In `can_continue`: the comparison with `my_ws`. -/
  | canMine (loopcnt : Int) (my_ws : WorkingState)
  /-- In `can_continue`: the comparison with `WS_LOOP`. -/
  | canLoop (loopcnt : Int)
  /-- Before `_serve_action`. -/
  | serve (a : α)
  /-- Before the critical section of `_pre_STOP_impl`. -/
  | preStop
  /-- `work` has returned. -/
  | stopped
  deriving DecidableEq, Repr

/-- The assertions that can fail. -/
inductive Assertion where
  /-- `assert(0)` in `work`. -/
  | work
  /-- `assert (axct)` in `abort_one_trx`. -/
  | abort_one_trx
  deriving DecidableEq, Repr

/-- What a step of a worker adds to the history. -/
inductive WorkerEvent (α : Type) where
  | quiet
  /-- `pop` returns; `none` is the null pointer. -/
  | returned (action : Option α)
  /-- `_serve_action` was called. -/
  | served (a : α)
  /-- `abort_one_trx` was called for these. -/
  | swept (as : List α)
  /-- An assertion failed, after `abort_one_trx` returned for these. -/
  | failed (what : Assertion) (as : List α)

variable {n : Nat} {α : Type}

/-- One step of worker `i`. `xct` is the transaction of a request; `free` says that nobody is in
a critical section. -/
def workerStep (xct : α → Option Nat) (free : Bool) (i : Fin n) (q : Mrmwqueue n α) (w : Worker) :
    WorkerPc α → Option (Mrmwqueue n α × Worker × WorkerPc α × WorkerEvent α)
  | .switch =>
      match w.control with
      | .PAUSED => some (q, w, .paused, .quiet)
      | .ACTIVE => some (q, w, .active, .quiet)
      | .STOPPED => some (q, w, .preStop, .quiet)
      | .RECOVERY => some (q, w, .stopped, .failed .work [])
  | .paused => some (q, w, if w.control = .PAUSED then .paused else .switch, .quiet)
  | .active => some (q, w, if w.control = .ACTIVE then .setLoop .read else .switch, .quiet)
  | .setLoop pc =>
      match set_wsStep .LOOP w pc with
      | (w', some pc') => some (q, w', .setLoop pc', .quiet)
      | (w', none) => some (q, w', .pop 0, .quiet)
  | .pop loopcnt =>
      if free then
        match q.queue with
        | a :: rest => some ({ q with queue := rest }, w, .serve a, .returned (some a))
        | [] =>
            -- `++loopcnt > _loops`
            if loopcnt + 1 > q.loops then
              some ({ q with waiters := q.waiters ++ [i] }, w, .sleepRead, .quiet)
            else some (q, w, .checkControl (loopcnt + 1), .quiet)
      else none
  | .sleepRead => some (q, w, if w.ws = .LOOP then .sleepCas else .leave, .quiet)
  | .sleepCas =>
      if w.ws = .LOOP then some (q, { w with ws := .SLEEP }, .sleepWait, .quiet)
      -- somebody has changed `_ws` in between: no sleep
      else some (q, w, .leave, .quiet)
  | .sleepWait => some (q, { w with notify := w.notify.wait }, .sleeping, .quiet)
  | .sleeping => if w.notify.waiting then none else some (q, w, .leave, .quiet)
  -- the first occurrence is erased
  | .leave =>
      if free then some ({ q with waiters := q.waiters.erase i }, w, .checkControl 0, .quiet)
      else none
  | .checkControl loopcnt =>
      some (q, w, if w.control = .ACTIVE then .canContinue loopcnt else .setFinished .read, .quiet)
  | .setFinished pc =>
      match set_wsStep .FINISHED w pc with
      | (w', some pc') => some (q, w', .setFinished pc', .quiet)
      | (w', none) => some (q, w', .active, .returned none)
  | .canContinue loopcnt => some (q, w, .canMine loopcnt q.my_ws, .quiet)
  | .canMine loopcnt my_ws =>
      some (q, w, if w.ws = my_ws then .pop loopcnt else .canLoop loopcnt, .quiet)
  | .canLoop loopcnt =>
      if w.ws = .LOOP then some (q, w, .pop loopcnt, .quiet)
      else some (q, w, .active, .returned none)
  | .serve a => some (q, w, .active, .served a)
  | .preStop =>
      if free then
        -- the requests stay in the queue
        let as := q.queue.takeWhile fun a => (xct a).isSome
        some (q, w, .stopped,
          if as.length = q.queue.length then .swept as else .failed .abort_one_trx as)
      else none
  | .stopped => none

/-! ## Pushers -/

/-- The place of a pusher. -/
inductive PusherPc where
  | idle
  /-- At the head of the loop over `_waiters`, `woken` of them behind it. -/
  | wake (queue_sz woken : Nat)
  /-- In `set_ws` on the next of them. -/
  | setWs (queue_sz woken : Nat) (pc : SetWsPc)
  deriving DecidableEq, Repr

/-- The end of one turn of the loop. -/
def PusherPc.turn (queue_sz woken : Nat) : PusherPc :=
  if woken + 1 = queue_sz then .idle else .wake queue_sz (woken + 1)

/-! ## Controllers -/

/-- What other threads do to workers and queue. -/
inductive Command (n : Nat) where
  /-- `stop`, `start` and `pause`. -/
  | control (i : Fin n) (awc : WorkerControl)
  | set_ws (i : Fin n) (new_ws : WorkingState)
  | setqueue (aws : WorkingState) (loops thres : Int)
  deriving DecidableEq, Repr

/-- The place of a controller. -/
inductive ControllerPc (n : Nat) where
  | idle
  /-- In `set_control`, before one of its tests. -/
  | test (i : Fin n) (awc : WorkerControl) (k : Nat)
  | swap (i : Fin n) (awc : WorkerControl)
  /-- `if (is_sleeping())` -/
  | checkSleeping (i : Fin n)
  | signal (i : Fin n)
  | setWs (i : Fin n) (new_ws : WorkingState) (pc : SetWsPc)
  deriving DecidableEq, Repr

/-- One step of a controller inside a command: the worker it works on, after it. -/
def controllerStep (workers : Fin n → Worker) :
    ControllerPc n → Option ((Fin n → Worker) × ControllerPc n)
  | .idle => none
  | .test i awc k =>
      some (workers,
        if set_controlTest awc (workers i).control k then .swap i awc
        else if k < 2 then .test i awc (k + 1) else .checkSleeping i)
  | .swap i awc =>
      some (Function.update workers i { workers i with control := awc }, .checkSleeping i)
  | .checkSleeping i => some (workers, if (workers i).is_sleeping then .signal i else .idle)
  | .signal i =>
      some (Function.update workers i { workers i with notify := (workers i).notify.signal }, .idle)
  | .setWs i new_ws pc =>
      let r := set_wsStep new_ws (workers i) pc
      some (Function.update workers i r.1,
        match r.2 with
        | some pc' => .setWs i new_ws pc'
        | none => .idle)

/-! ## The process -/

/-- The workers, the threads around them, and the queue. -/
structure Pool (n m r : Nat) (α : Type) where
  q : Mrmwqueue n α
  /-- The pusher that is inside its critical section. -/
  lock : Option (Fin m)
  workers : Fin n → Worker
  pcs : Fin n → WorkerPc α
  pushers : Fin m → PusherPc
  controllers : Fin r → ControllerPc n
  /-- The assertion that failed, which ends the process. -/
  aborted : Option Assertion
  /-- History: what was pushed. -/
  pushed : List α
  /-- History: what the calls of `pop` returned, and to whom. -/
  returned : List (Fin n × Option α)
  /-- History: the calls of `_serve_action`. -/
  served : List (Fin n × α)
  /-- History: the calls of `abort_one_trx`. -/
  swept : List (Fin n × α)

inductive PoolAction (n m r : Nat) (α : Type) where
  | worker (i : Fin n)
  /-- A pusher calls `push`. -/
  | push (k : Fin m) (a : α) (bWake : Bool)
  | pusher (k : Fin m)
  /-- A controller begins a command. -/
  | command (c : Fin r) (cmd : Command n)
  | controller (c : Fin r)
  deriving DecidableEq, Repr

namespace Pool

variable {m r : Nat}

/-- The workers after `fork`, with an empty queue. -/
def start (q : Mrmwqueue n α) (control : Fin n → WorkerControl) : Pool n m r α where
  q := { q with queue := [], waiters := [] }
  lock := none
  workers := fun i => { control := control i }
  pcs := fun _ => .switch
  pushers := fun _ => .idle
  controllers := fun _ => .idle
  aborted := none
  pushed := []
  returned := []
  served := []
  swept := []

/-- What a step of worker `i` leaves in the history. -/
def record (s : Pool n m r α) (i : Fin n) : WorkerEvent α → Pool n m r α
  | .quiet => s
  | .returned action => { s with returned := s.returned ++ [(i, action)] }
  | .served a => { s with served := s.served ++ [(i, a)] }
  | .swept as => { s with swept := s.swept ++ as.map (i, ·) }
  | .failed what as => { s with swept := s.swept ++ as.map (i, ·), aborted := some what }

/-- A worker takes a step. -/
def workerNext (xct : α → Option Nat) (i : Fin n) (s : Pool n m r α) : Option (Pool n m r α) :=
  (workerStep xct s.lock.isNone i s.q (s.workers i) (s.pcs i)).map fun x =>
    { s with
      q := x.1
      workers := Function.update s.workers i x.2.1
      pcs := Function.update s.pcs i x.2.2.1 }.record i x.2.2.2

/-- `push(a, bWake)` up to the loop over `_waiters`. -/
def pushNext (k : Fin m) (a : α) (bWake : Bool) (s : Pool n m r α) : Option (Pool n m r α) :=
  if s.pushers k = .idle ∧ s.lock = none then
    let queue := s.q.queue ++ [a]
    let s := { s with q := { s.q with queue := queue }, pushed := s.pushed ++ [a] }
    if (queue.length : Int) ≥ s.q.thres ∨ bWake = true then
      some { s with
        lock := some k
        pushers := Function.update s.pushers k (.wake queue.length 0) }
    else some s
  else none

/-- The loop of `push` over `_waiters`. -/
def pusherNext (k : Fin m) (s : Pool n m r α) : Option (Pool n m r α) :=
  match s.pushers k with
  | .idle => none
  | .wake queue_sz woken =>
      if woken < s.q.waiters.length then
        some { s with pushers := Function.update s.pushers k (.setWs queue_sz woken .read) }
      else some { s with lock := none, pushers := Function.update s.pushers k .idle }
  | .setWs queue_sz woken pc =>
      match s.q.waiters[woken]? with
      | none => none
      | some i =>
          let x := set_wsStep s.q.my_ws (s.workers i) pc
          let s := { s with workers := Function.update s.workers i x.1 }
          match x.2 with
          | some pc' =>
              some { s with pushers := Function.update s.pushers k (.setWs queue_sz woken pc') }
          | none =>
              let pc' := PusherPc.turn queue_sz woken
              some { s with
                lock := if pc' = .idle then none else s.lock
                pushers := Function.update s.pushers k pc' }

/-- A controller begins a command; `setqueue` is one critical section. -/
def commandNext (c : Fin r) (s : Pool n m r α) : Command n → Option (Pool n m r α)
  | .control i awc =>
      if s.controllers c = .idle then
        some { s with controllers := Function.update s.controllers c (.test i awc 0) }
      else none
  | .set_ws i new_ws =>
      if s.controllers c = .idle then
        some { s with controllers := Function.update s.controllers c (.setWs i new_ws .read) }
      else none
  | .setqueue aws loops thres =>
      if s.controllers c = .idle ∧ s.lock = none then
        some { s with q := { s.q with my_ws := aws, loops := loops, thres := thres } }
      else none

def next (xct : α → Option Nat) (a : PoolAction n m r α) (s : Pool n m r α) :
    Option (Pool n m r α) :=
  if s.aborted.isSome then none
  else
    match a with
    | .worker i => s.workerNext xct i
    | .push k a bWake => s.pushNext k a bWake
    | .pusher k => s.pusherNext k
    | .command c cmd => s.commandNext c cmd
    | .controller c =>
        (controllerStep s.workers (s.controllers c)).map fun x =>
          { s with
            workers := x.1
            controllers := Function.update s.controllers c x.2 }

end Pool

/-- The process as a machine: any set-up of the queue, any control of the workers. -/
def pool (xct : α → Option Nat) (n m r : Nat) : Machine (Pool n m r α) (PoolAction n m r α) where
  init s := ∃ q control, s = Pool.start q control
  next := Pool.next xct

end TailBench.Shore
