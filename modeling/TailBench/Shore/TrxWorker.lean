import TailBench.Shore.ActiveWorker

set_option autoImplicit false

/-! # The static queue of the workers

The workers of the transaction benchmark reach their queue through `_pqueue`, a static pointer of
`trx_worker_t` (`sm/shore/shore_trx_worker.cpp`). The first constructor makes the queue, with the
`_actionpool` of its worker for the memory of the requests. Every destructor sets `_pqueue` to
`NULL` and frees the `_actionpool` of its worker. `ShoreEnv::stop` and `ShoreEnv::close`
(`sm/shore/shore_env.cpp`) stop a worker, join it and delete it before they go on to the next one.

`Pool` is the queue with the threads inside its operations. `TrxWorkers` adds how they get there:

* a worker reads `_pqueue` when it calls `pop`, and is inside that queue until `pop` returns;
* `_pre_STOP_impl` asserts that `_pqueue` is set, and then reads it again for the lock;
* `enqueue` reads `_pqueue` and calls `push`;
* `init` reads `_pqueue` and calls `setqueue`, in one step.

The constructors have run. The critical section of `_pre_STOP_impl` is one step also here, so no
destructor runs in the middle of it.
-/

namespace TailBench.Shore

open Lib

variable {n m r : Nat} {α : Type}

/-- The ends of the process that `_pqueue` and `_actionpool` bring about. -/
inductive Fault where
  /-- `assert (_pqueue)` in `_pre_STOP_impl`. -/
  | assertion
  /-- `_pqueue` is used, and is `NULL`. -/
  | null
  /-- `push_back` on a queue whose `_actionpool` was freed. -/
  | freed
  deriving DecidableEq, Repr

/-- The place is one of `pop`, or of `_pre_STOP_impl`. -/
def WorkerPc.usesQueue (pc : WorkerPc α) : Bool := pc.inPop || pc.stopping

structure TrxWorkers (n m r : Nat) (α : Type) where
  pool : Pool n m r α
  /-- `_pqueue` is not `NULL`. -/
  pqueue : Bool
  /-- The worker whose constructor made the queue. -/
  maker : Option (Fin n)
  /-- The worker has read `_pqueue` for the call it is in. -/
  ready : Fin n → Bool
  /-- The calls of `push` that have read `_pqueue`, before their critical section. -/
  calls : Fin m → Option (α × Bool)
  deleted : Fin n → Bool
  fault : Option Fault

inductive TrxAction (n m r : Nat) (α : Type) where
  | worker (i : Fin n)
  /-- A client calls `enqueue`. -/
  | enqueue (k : Fin m) (a : α) (bWake : Bool)
  /-- `push` enters its critical section. -/
  | push (k : Fin m)
  | pusher (k : Fin m)
  | command (c : Fin r) (cmd : Command n)
  | controller (c : Fin r)
  /-- `delete` of a worker that was joined. -/
  | delete (i : Fin n)
  deriving DecidableEq, Repr

namespace TrxWorkers

/-- The workers after `fork`. -/
def start (pool : Pool n m r α) (maker : Option (Fin n)) : TrxWorkers n m r α where
  pool := pool
  pqueue := true
  maker := maker
  ready := fun _ => false
  calls := fun _ => none
  deleted := fun _ => false
  fault := none

/-- The `_actionpool` of the queue is there. -/
def actionpool (s : TrxWorkers n m r α) : Bool := s.maker.all fun i => !s.deleted i

def fail (s : TrxWorkers n m r α) (what : Fault) : TrxWorkers n m r α :=
  { s with fault := some what }

/-- A worker takes a step. -/
def workerNext (xct : α → Option Nat) (i : Fin n) (s : TrxWorkers n m r α) :
    Option (TrxWorkers n m r α) :=
  let pc := s.pool.pcs i
  if pc.usesQueue = true ∧ s.ready i = false then
    if s.pqueue then some { s with ready := Function.update s.ready i true }
    else some (s.fail (if pc.stopping then .assertion else .null))
  -- `_pqueue->_lock`
  else if pc.stopping = true ∧ s.pqueue = false then some (s.fail .null)
  else
    (s.pool.next xct (.worker i)).map fun pool =>
      { s with
        pool := pool
        ready := Function.update s.ready i (s.ready i && (pool.pcs i).usesQueue) }

/-- `enqueue(a, bWake)` up to the critical section of `push`. -/
def enqueueNext (k : Fin m) (a : α) (bWake : Bool) (s : TrxWorkers n m r α) :
    Option (TrxWorkers n m r α) :=
  if s.pool.pushers k = .idle ∧ s.calls k = none then
    if s.pqueue then some { s with calls := Function.update s.calls k (some (a, bWake)) }
    else some (s.fail .null)
  else none

/-- `push` enters its critical section. -/
def pushNext (xct : α → Option Nat) (k : Fin m) (s : TrxWorkers n m r α) :
    Option (TrxWorkers n m r α) :=
  match s.calls k with
  | none => none
  | some (a, bWake) =>
      (s.pool.next xct (.push k a bWake)).map fun pool =>
        if s.actionpool then { s with pool := pool, calls := Function.update s.calls k none }
        else s.fail .freed

/-- A controller begins a command. -/
def commandNext (xct : α → Option Nat) (c : Fin r) (cmd : Command n) (s : TrxWorkers n m r α) :
    Option (TrxWorkers n m r α) :=
  match cmd with
  | .setqueue _ _ _ =>
      if s.pqueue then
        (s.pool.next xct (.command c cmd)).map fun pool => { s with pool := pool }
      else some (s.fail .null)
  | _ => (s.pool.next xct (.command c cmd)).map fun pool => { s with pool := pool }

/-- `~trx_worker_t`, after the thread has ended. -/
def deleteNext (i : Fin n) (s : TrxWorkers n m r α) : Option (TrxWorkers n m r α) :=
  match s.pool.pcs i with
  | .stopped =>
      if s.deleted i = false then
        some { s with pqueue := false, deleted := Function.update s.deleted i true }
      else none
  | _ => none

/-- The process has ended with a fault or with an assertion. -/
def failed (s : TrxWorkers n m r α) : Bool := s.fault.isSome || s.pool.aborted.isSome

def next (xct : α → Option Nat) (act : TrxAction n m r α) (s : TrxWorkers n m r α) :
    Option (TrxWorkers n m r α) :=
  if s.failed then none
  else
    match act with
    | .worker i => s.workerNext xct i
    | .enqueue k a bWake => s.enqueueNext k a bWake
    | .push k => s.pushNext xct k
    | .pusher k => (s.pool.next xct (.pusher k)).map fun pool => { s with pool := pool }
    | .command c cmd => s.commandNext xct c cmd
    | .controller c => (s.pool.next xct (.controller c)).map fun pool => { s with pool := pool }
    | .delete i => s.deleteNext i

end TrxWorkers

/-- The process with its static pointer, from the calls of `fork` on. -/
def trxWorkers (xct : α → Option Nat) (n m r : Nat) :
    Machine (TrxWorkers n m r α) (TrxAction n m r α) where
  init s := ∃ q control maker, s = .start (.start q control) maker
  next := TrxWorkers.next xct

/-! ## What a step can do -/

namespace TrxWorkers

/-- The step of the pool that an action takes. -/
def poolAction (s : TrxWorkers n m r α) : TrxAction n m r α → Option (PoolAction n m r α)
  | .worker i => some (.worker i)
  | .push k => (s.calls k).map fun x => .push k x.1 x.2
  | .pusher k => some (.pusher k)
  | .command c cmd => some (.command c cmd)
  | .controller c => some (.controller c)
  | .enqueue _ _ _ | .delete _ => none

/-- The action may read `_pqueue`. -/
def Reads (s : TrxWorkers n m r α) : TrxAction n m r α → Prop
  | .worker i => (s.pool.pcs i).usesQueue = true
  | .enqueue _ _ _ | .command _ (.setqueue _ _ _) => True
  | _ => False

end TrxWorkers

/-- A step, for the pool, the pointer and the destructors. -/
inductive TrxMove (xct : α → Option Nat) (s s' : TrxWorkers n m r α) :
    TrxAction n m r α → Prop where
  /-- A step of the pool. A worker in `_pre_STOP_impl` has found the pointer set. -/
  | pool {act : TrxAction n m r α} {pact : PoolAction n m r α} :
      s.poolAction act = some pact → (pool xct n m r).next pact s.pool = some s'.pool →
      (∀ i, act = .worker i → (s.pool.pcs i).stopping = true → s.pqueue = true) →
      s'.pqueue = s.pqueue → s'.deleted = s.deleted → s'.fault = s.fault →
      TrxMove xct s s' act
  /-- A thread has read the pointer, which is set. -/
  | read {act : TrxAction n m r α} : s.Reads act → s'.pool = s.pool → s'.pqueue = s.pqueue →
      s'.deleted = s.deleted → s'.fault = s.fault → TrxMove xct s s' act
  | null {act : TrxAction n m r α} {what : Fault} : s.Reads act → s.pqueue = false →
      s' = s.fail what → TrxMove xct s s' act
  | freed {k : Fin m} : s.actionpool = false → s' = s.fail .freed → TrxMove xct s s' (.push k)
  | delete {i : Fin n} : s.pool.pcs i = .stopped →
      s' = { s with pqueue := false, deleted := Function.update s.deleted i true } →
      TrxMove xct s s' (.delete i)

section Steps

variable {xct : α → Option Nat} {s s' : TrxWorkers n m r α}

theorem TrxWorkers.workerNext_move {i : Fin n} (h : s.workerNext xct i = some s') :
    TrxMove xct s s' (.worker i) := by
  simp only [TrxWorkers.workerNext] at h
  split at h
  · next hread =>
      split at h <;> obtain rfl := by simpa using h
      · exact .read hread.1 rfl rfl rfl rfl
      · next hnull => exact .null hread.1 (by simpa using hnull) rfl
  · split at h
    · next hstop =>
        obtain rfl := by simpa using h
        exact .null (show (s.pool.pcs i).usesQueue = true by simp [WorkerPc.usesQueue, hstop.1])
          hstop.2 rfl
    · next hstop =>
        rcases Option.map_eq_some_iff.mp h with ⟨pool', hn, rfl⟩
        refine .pool rfl hn (fun j hj hpc => ?_) rfl rfl rfl
        obtain rfl := TrxAction.worker.inj hj
        by_contra hnull
        exact hstop ⟨hpc, by simpa using hnull⟩

theorem TrxWorkers.commandNext_move {c : Fin r} {cmd : Command n}
    (h : s.commandNext xct c cmd = some s') : TrxMove xct s s' (.command c cmd) := by
  simp only [TrxWorkers.commandNext] at h
  split at h
  · split at h
    · rcases Option.map_eq_some_iff.mp h with ⟨pool', hn, rfl⟩
      exact .pool rfl hn (by simp) rfl rfl rfl
    · next hnull =>
        obtain rfl := by simpa using h
        exact .null trivial (by simpa using hnull) rfl
  · rcases Option.map_eq_some_iff.mp h with ⟨pool', hn, rfl⟩
    exact .pool rfl hn (by simp) rfl rfl rfl

/-- **What a step can do.** -/
theorem trxWorkers_move {act : TrxAction n m r α}
    (h : (trxWorkers xct n m r).next act s = some s') :
    s.failed = false ∧ TrxMove xct s s' act := by
  simp only [trxWorkers, TrxWorkers.next] at h
  split at h
  · cases h
  · next hrunning =>
      refine ⟨by simpa using hrunning, ?_⟩
      cases act with
      | worker i => exact TrxWorkers.workerNext_move h
      | enqueue k a bWake =>
          simp only [TrxWorkers.enqueueNext] at h
          split at h
          · split at h <;> obtain rfl := by simpa using h
            · exact .read trivial rfl rfl rfl rfl
            · next hnull => exact .null trivial (by simpa using hnull) rfl
          · cases h
      | push k =>
          simp only [TrxWorkers.pushNext] at h
          split at h
          · cases h
          · next a bWake hcall =>
              rcases Option.map_eq_some_iff.mp h with ⟨pool', hn, rfl⟩
              have hact : s.poolAction (.push k) = some (.push k a bWake) := by
                simp [TrxWorkers.poolAction, hcall]
              split
              · exact .pool hact hn (by simp) rfl rfl rfl
              · next hfreed => exact .freed (by simpa using hfreed) rfl
      | pusher k =>
          rcases Option.map_eq_some_iff.mp h with ⟨pool', hn, rfl⟩
          exact .pool rfl hn (by simp) rfl rfl rfl
      | command c cmd => exact TrxWorkers.commandNext_move h
      | controller c =>
          rcases Option.map_eq_some_iff.mp h with ⟨pool', hn, rfl⟩
          exact .pool rfl hn (by simp) rfl rfl rfl
      | delete i =>
          simp only [TrxWorkers.deleteNext] at h
          split at h
          · next hstopped =>
              split at h
              · obtain rfl := by simpa using h
                exact .delete hstopped rfl
              · cases h
          · cases h

/-- The queue and the threads inside its operations do what the pool does. -/
theorem TrxWorkers.pool_reachable {ok : TrxWorkers n m r α → TrxAction n m r α → Prop}
    {ok' : Pool n m r α → PoolAction n m r α → Prop}
    (hok : ∀ s act pact, ok s act → s.poolAction act = some pact → ok' s.pool pact)
    (h : (trxWorkers xct n m r).ReachableBy ok s) :
    (Shore.pool xct n m r).ReachableBy ok' s.pool := by
  refine Machine.ReachableBy.invariant
    (P := fun s => (Shore.pool xct n m r).ReachableBy ok' s.pool) ?_ ?_ h
  · rintro s ⟨q, control, maker, rfl⟩
    exact .init ⟨q, control, rfl⟩
  · intro s act s' _ hs hact hn
    cases (trxWorkers_move hn).2 with
    | pool hpact hstep _ _ _ _ => exact .step _ hs (hok s act _ hact hpact) hstep
    | read _ hpool _ _ _ => rwa [hpool]
    | null _ _ hs' => rwa [hs']
    | freed _ hs' => rwa [hs']
    | delete _ hs' => rwa [hs']

end Steps

end TailBench.Shore
