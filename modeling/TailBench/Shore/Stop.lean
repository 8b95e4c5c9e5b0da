import TailBench.Shore.Fifo
import TailBench.Shore.TrxWorker

set_option autoImplicit false

/-! # Stopping the workers

A stopped worker goes through the queue and aborts what is left there (`_pre_STOP_impl`). The
queue is that of all workers and nothing is removed from it, and a request of a client has no
transaction before a worker begins to serve it. So the first stopped worker that finds a request
fails the assertion of `abort_one_trx`.

The destructor of a worker takes the queue away from all of them. `ShoreEnv::stop` deletes the
first worker before it stops the second one, which then calls `pop` on a null pointer or fails
`assert (_pqueue)`.

In the `Orderly` runs every worker finds the queue empty when it stops, no worker is deleted before
all have ended, and the queue is not called after that. There each request is served once, by the
worker that popped it.
-/

namespace TailBench.Shore

open Lib

variable {n m r : Nat} {α : Type}

/-! ## From `pop` to `_serve_action` -/

/-- What the step returns from `pop`. -/
def WorkerEvent.returns : WorkerEvent α → List (Option α)
  | .returned action => [action]
  | _ => []

/-- The requests the step serves. -/
def WorkerEvent.serves : WorkerEvent α → List α
  | .served a => [a]
  | _ => []

/-- A worker serves what it has popped. -/
theorem QueueMove.hand {xct : α → Option Nat} {free : Bool} {i : Fin n} {q q' : Mrmwqueue n α}
    {pc pc' : WorkerPc α} {ev : WorkerEvent α} (h : QueueMove xct free i q pc q' pc' ev) :
    pc.hand.toList ++ ev.returns.filterMap id = ev.serves ++ pc'.hand.toList := by
  cases h with
  | keep hev _ _ hhand hhand' _ =>
      rw [hhand, hhand']
      rcases hev with rfl | rfl <;> rfl
  | _ => rfl

namespace Pool

variable {xct : α → Option Nat} {s s' : Pool n m r α} {act : PoolAction n m r α}

/-- What worker `i` has served. -/
def servedBy (s : Pool n m r α) (i : Fin n) : List α := (s.served.filter (·.1 = i)).map Prod.snd

theorem returnsOf_record (s : Pool n m r α) (i j : Fin n) (ev : WorkerEvent α) :
    (s.record i ev).returnsOf j = s.returnsOf j ++ if i = j then ev.returns else [] := by
  cases ev with
  | returned action => by_cases hij : i = j <;> simp [record, returnsOf, WorkerEvent.returns, hij]
  | _ => simp [record, returnsOf, WorkerEvent.returns]

theorem servedBy_record (s : Pool n m r α) (i j : Fin n) (ev : WorkerEvent α) :
    (s.record i ev).servedBy j = s.servedBy j ++ if i = j then ev.serves else [] := by
  cases ev with
  | served a => by_cases hij : i = j <;> simp [record, servedBy, WorkerEvent.serves, hij]
  | _ => simp [record, servedBy, WorkerEvent.serves]

/-- What a worker has popped, it has served, in order, up to the request in its hands. -/
def HandedOn (s : Pool n m r α) : Prop :=
  ∀ i, (s.returnsOf i).filterMap id = s.servedBy i ++ (s.pcs i).hand.toList

theorem HandedOn.same (hs : s.HandedOn) (hpcs : s'.pcs = s.pcs) (hhist : s.SameHistory s') :
    s'.HandedOn := by
  intro i
  have hi := hs i
  simp only [returnsOf, servedBy] at hi ⊢
  rw [hpcs, hhist.returned, hhist.served]
  exact hi

theorem HandedOn.step (hs : s.HandedOn) (h : (pool xct n m r).next act s = some s') :
    s'.HandedOn := by
  rcases pool_move h with ⟨-, hmove⟩
  cases hmove with
  | @worker i pc q' w' pc' ev hpc hstep hs' =>
      have hhand := (workerStep_queueMove hstep).hand
      intro j
      rw [hs', returnsOf_record, servedBy_record, record_pcs]
      have hj : (s.returnsOf j).filterMap id = s.servedBy j ++ (s.pcs j).hand.toList := hs j
      by_cases hij : i = j
      · subst hij
        rw [hpc] at hj
        simp only [Function.update_self, if_true]
        -- what the step returns goes through its hands
        calc (s.returnsOf i ++ ev.returns).filterMap id
            = s.servedBy i ++ (pc.hand.toList ++ ev.returns.filterMap id) := by
              rw [List.filterMap_append, hj, List.append_assoc]
          _ = s.servedBy i ++ ev.serves ++ pc'.hand.toList := by rw [hhand, List.append_assoc]
      · simp only [hij, if_false, List.append_nil, Function.update_of_ne (Ne.symm hij)]
        exact hj
  | push _ hpcs _ _ hhist => exact hs.same hpcs hhist
  | other _ _ _ _ hpcs _ hhist => exact hs.same hpcs hhist

theorem handedOn (h : (pool xct n m r).Reachable s) : s.HandedOn :=
  Machine.Reachable.invariant (P := HandedOn)
    (by rintro s ⟨q, control, rfl⟩ i; rfl)
    (fun _ _ _ _ hs hn => hs.step hn) h

/-- When nobody has a request in its hands, what was popped was served once. -/
theorem HandedOn.perm (hs : s.HandedOn) (hhand : ∀ i, (s.pcs i).hand = none) :
    s.popped.Perm (s.served.map Prod.snd) := by
  have hgiven : (s.returned.filterMap fun x => x.2.map (x.1, ·)).Perm s.served := by
    refine perm_of_thread_eq fun i => ?_
    have hi := hs i
    rw [hhand i] at hi
    simp only [Option.toList_none, List.append_nil] at hi
    rw [← servedBy, ← hi, returnsOf]
    -- the two filters of the history commute
    generalize s.returned = l
    induction l with
    | nil => rfl
    | cons x l ih =>
        rcases x with ⟨j, _ | a⟩ <;> by_cases hj : j = i <;> simp_all
  have hpopped : s.popped = (s.returned.filterMap fun x => x.2.map (x.1, ·)).map Prod.snd := by
    rw [popped, List.map_filterMap]
    congr 1
    funext x
    cases x.2 <;> rfl
  rw [hpopped]
  exact hgiven.map Prod.snd

/-! ## `_pre_STOP_impl` -/

/-- A worker that runs `_pre_STOP_impl` finds the queue empty, and nothing is pushed after the
last of them. -/
structure Drained (s : Pool n m r α) (act : PoolAction n m r α) : Prop where
  stop : ∀ i, act = .worker i → s.pcs i = .preStop → s.q.queue = []
  push : ∀ k a bWake, act = .push k a bWake → ∃ j, s.pcs j ≠ .stopped

/-- Nothing was aborted, the assertion of `abort_one_trx` has not failed, and after the last
worker nothing is queued. -/
structure Unswept (s : Pool n m r α) : Prop where
  aborted : s.aborted ≠ some .abort_one_trx
  swept : s.swept = []
  empty : s.aborted = none → (∀ j, s.pcs j = .stopped) → s.q.queue = []

/-- A step of a worker that has not ended keeps it so. -/
theorem Unswept.running {i : Fin n} (haborted : s'.aborted ≠ some .abort_one_trx)
    (hswept : s'.swept = []) (hi : (s'.pcs i).ended = false) : s'.Unswept := by
  refine ⟨haborted, hswept, fun _ hall => ?_⟩
  rw [hall i] at hi
  cases hi

theorem Unswept.step (hs : s.Unswept) (hok : s.Drained act)
    (h : (pool xct n m r).next act s = some s') : s'.Unswept := by
  rcases pool_move h with ⟨hrunning, hmove⟩
  cases hmove with
  | @worker i pc q' w' pc' ev hpc hstep hs' =>
      subst hs'
      cases workerStep_queueMove hstep with
      | keep hev _ _ _ _ hended =>
          rcases hev with rfl | rfl
          · exact .running (i := i) hs.aborted hs.swept (by simpa using hended)
          · exact .running (i := i) hs.aborted hs.swept (by simpa using hended)
      | take _ _ | enroll _ _ | leave _ | serve =>
          exact .running (i := i) hs.aborted hs.swept (by simp; rfl)
      | sweep _ _ =>
          have hempty := hok.stop i rfl hpc
          exact ⟨hs.aborted, by simp [record, hs.swept, hempty], fun _ _ => hempty⟩
      -- the queue is empty, so there is nothing to fail on
      | sweepFail _ ha _ =>
          rw [hok.stop i rfl hpc] at ha
          cases ha
      | recovery => exact ⟨by simp [record], by simp [record, hs.swept], by simp [record]⟩
  | push _ hpcs _ _ hhist =>
      refine ⟨hhist.aborted ▸ hs.aborted, hhist.swept ▸ hs.swept, fun _ hall => ?_⟩
      obtain ⟨j, hj⟩ := hok.push _ _ _ rfl
      exact absurd (by rw [← hpcs]; exact hall j) hj
  | other _ _ hqueue _ hpcs _ hhist =>
      refine ⟨hhist.aborted ▸ hs.aborted, hhist.swept ▸ hs.swept, fun _ hall => ?_⟩
      rw [hqueue]
      exact hs.empty hrunning (by rw [← hpcs]; exact hall)

theorem unswept (h : (pool xct n m r).ReachableBy Drained s) : s.Unswept :=
  Machine.ReachableBy.invariant (P := Unswept)
    (by rintro s ⟨q, control, rfl⟩; exact ⟨by simp [start], rfl, fun _ _ => rfl⟩)
    (fun _ _ _ _ hs hok hn => hs.step hok hn) h

/-- Among requests without a transaction, the assertion fails as soon as there is one. -/
theorem aborted_iff {i : Fin n} (hpc : s.pcs i = .preStop) (hnull : ∀ a ∈ s.q.queue, xct a = none)
    (h : (pool xct n m r).next (.worker i) s = some s') :
    s'.aborted = some .abort_one_trx ↔ s.q.queue ≠ [] := by
  rcases pool_move h with ⟨hrunning, hmove⟩
  cases hmove with
  | @worker _ pc q' w' pc' ev hpc' hstep hs' =>
      obtain rfl : pc = .preStop := by rw [← hpc', hpc]
      subst hs'
      cases workerStep_queueMove hstep with
      | keep _ hstop _ _ _ _ => cases hstop
      | sweep _ hall =>
          -- a request in the queue would have a transaction
          have hempty : s.q.queue = [] := by
            refine List.eq_nil_iff_forall_not_mem.mpr fun a ha => ?_
            have hsome := hall a ha
            rw [hnull a ha] at hsome
            cases hsome
          simp [record, hrunning, hempty]
      | sweepFail _ ha _ =>
          refine iff_of_true rfl fun hempty => ?_
          rw [hempty] at ha
          cases ha
  | other hnot _ _ _ _ _ _ => exact absurd rfl (hnot i)

/-- After the last worker has ended, every request was served once. -/
theorem pushed_perm_served (h : (pool xct n m r).ReachableBy Drained s)
    (hrunning : s.aborted = none) (hall : ∀ j, s.pcs j = .stopped) :
    s.pushed.Perm (s.served.map Prod.snd) := by
  -- pushed is popped, and popped is served
  have horder := inOrder h.reachable
  rw [InOrder, (unswept h).empty hrunning hall, List.append_nil] at horder
  rw [← horder]
  exact (handedOn h.reachable).perm fun j => by rw [hall j]; rfl

/-- A worker that has ended stays so. -/
theorem stopped_stays {j : Fin n} (h : (pool xct n m r).next act s = some s')
    (hj : s.pcs j = .stopped) : s'.pcs j = .stopped := by
  cases (pool_move h).2 with
  | @worker i pc q' w' pc' ev hpc hstep hs' =>
      have hij : j ≠ i := by
        rintro rfl
        rw [hj] at hpc
        subst hpc
        cases hstep
      simpa [hs', Function.update_of_ne hij] using hj
  | push _ hpcs _ _ _ => rw [hpcs, hj]
  | other _ _ _ _ hpcs _ _ => rw [hpcs, hj]

/-- A worker ends in `_pre_STOP_impl`, or with the process. -/
theorem stopped_of_step {j : Fin n} (h : (pool xct n m r).next act s = some s')
    (hj : s.pcs j ≠ .stopped) (hj' : s'.pcs j = .stopped) :
    (act = .worker j ∧ (s.pcs j).stopping = true) ∨ s'.aborted.isSome = true := by
  cases (pool_move h).2 with
  | @worker i pc q' w' pc' ev hpc hstep hs' =>
      subst hs'
      by_cases hij : j = i
      · subst hij
        obtain rfl : pc' = .stopped := by simpa using hj'
        cases workerStep_queueMove hstep with
        | keep _ _ _ _ _ hended => cases hended
        | sweep _ _ => exact .inl ⟨rfl, by rw [hpc]; rfl⟩
        | sweepFail _ _ _ => exact .inl ⟨rfl, by rw [hpc]; rfl⟩
        | recovery => exact .inr rfl
      · exact absurd (by simpa [Function.update_of_ne hij] using hj') hj
  | push _ hpcs _ _ _ => exact absurd (by rw [← hpcs]; exact hj') hj
  | other _ _ _ _ hpcs _ _ => exact absurd (by rw [← hpcs]; exact hj') hj

end Pool

/-! ## `_pqueue` -/

namespace TrxWorkers

variable {xct : α → Option Nat} {s s' : TrxWorkers n m r α} {act : TrxAction n m r α}

/-- A worker that runs `_pre_STOP_impl` finds the queue empty, workers are deleted after all have
ended, and the queue is not called after that. -/
def Orderly (s : TrxWorkers n m r α) : TrxAction n m r α → Prop
  | .worker i => s.pool.pcs i = .preStop → s.pool.q.queue = []
  | .enqueue _ _ _ | .push _ | .command _ (.setqueue _ _ _) => ∃ j, s.pool.pcs j ≠ .stopped
  | .delete _ => ∀ j, s.pool.pcs j = .stopped
  | _ => True

/-- An orderly step is one of the pool with the queue drained. -/
theorem Orderly.drained {pact : PoolAction n m r α} (hok : s.Orderly act)
    (hact : s.poolAction act = some pact) : s.pool.Drained pact where
  stop := by
    rintro i rfl hpc
    cases act with
    | worker j =>
        obtain rfl : j = i := by simpa [poolAction] using hact
        exact hok hpc
    | push k => simp [poolAction] at hact
    | _ => cases hact
  push := by
    rintro k a bWake rfl
    cases act with
    | push j => exact hok
    | _ => cases hact

theorem pool_drained (h : (trxWorkers xct n m r).ReachableBy Orderly s) :
    (Shore.pool xct n m r).ReachableBy Pool.Drained s.pool :=
  pool_reachable (fun _ _ _ hok hact => hok.drained hact) h

/-- The process runs, and while some worker has not ended the queue is there. -/
structure Standing (s : TrxWorkers n m r α) : Prop where
  fault : s.fault = none
  there : ∀ j, s.pool.pcs j ≠ .stopped → s.pqueue = true ∧ ∀ i, s.deleted i = false

/-- What an orderly step reads is there. -/
theorem Orderly.running (hok : s.Orderly act) (hread : s.Reads act) :
    ∃ j, s.pool.pcs j ≠ .stopped := by
  cases act with
  | worker i =>
      refine ⟨i, fun hstopped => ?_⟩
      simp only [Reads, hstopped] at hread
      cases hread
  | enqueue k a bWake => exact hok
  | command c cmd =>
      cases cmd with
      | setqueue aws loops thres => exact hok
      | _ => exact hread.elim
  | _ => exact hread.elim

theorem Standing.step (hs : s.Standing) (hok : s.Orderly act)
    (h : (trxWorkers xct n m r).next act s = some s') : s'.Standing := by
  cases (trxWorkers_move h).2 with
  | pool _ hstep _ hpqueue hdeleted hfault =>
      refine ⟨hfault.trans hs.fault, fun j hj => ?_⟩
      rw [hpqueue, hdeleted]
      exact hs.there j fun hstopped => hj (Pool.stopped_stays hstep hstopped)
  | read _ hpool hpqueue hdeleted hfault =>
      refine ⟨hfault.trans hs.fault, ?_⟩
      rw [hpool, hpqueue, hdeleted]
      exact hs.there
  | null hread hnull _ =>
      obtain ⟨j, hj⟩ := hok.running hread
      rw [(hs.there j hj).1] at hnull
      cases hnull
  -- the worker that made the queue was not deleted
  | freed hfreed _ =>
      obtain ⟨j, hj⟩ := hok
      have hthere := (hs.there j hj).2
      simp [actionpool, hthere] at hfreed
  | delete _ hs' =>
      subst hs'
      exact ⟨hs.fault, fun j hj => absurd (hok j) hj⟩

theorem standing (h : (trxWorkers xct n m r).ReachableBy Orderly s) : s.Standing :=
  Machine.ReachableBy.invariant (P := Standing)
    (by rintro s ⟨q, control, maker, rfl⟩; exact ⟨rfl, fun _ _ => ⟨rfl, fun _ => rfl⟩⟩)
    (fun _ _ _ _ hs hok hn => hs.step hok hn) h

/-- In `_pre_STOP_impl`, after the assertion. -/
theorem aborted_iff {i : Fin n} (hpc : s.pool.pcs i = .preStop) (hready : s.ready i = true)
    (hpqueue : s.pqueue = true) (hnull : ∀ a ∈ s.pool.q.queue, xct a = none)
    (h : (trxWorkers xct n m r).next (.worker i) s = some s') :
    s'.pool.aborted = some .abort_one_trx ↔ s.pool.q.queue ≠ [] := by
  simp only [trxWorkers, next] at h
  split at h
  · cases h
  · simp only [workerNext, hready, hpqueue, reduceCtorEq, and_false, if_false] at h
    rcases Option.map_eq_some_iff.mp h with ⟨pool', hn, rfl⟩
    exact Pool.aborted_iff hpc hnull hn

/-- With `_pqueue` gone, a worker that has not ended takes the process with it. -/
theorem failed_of_leads {t : TrxWorkers n m r α} {j : Fin n} (hnull : s.pqueue = false)
    (hj : s.pool.pcs j ≠ .stopped) (h : (trxWorkers xct n m r).Leads s t)
    (hstopped : t.pool.pcs j = .stopped) : t.failed = true := by
  have hinv : t.pqueue = false ∧ (t.pool.pcs j = .stopped → t.failed = true) := by
    refine h.invariant
      (P := fun t => t.pqueue = false ∧ (t.pool.pcs j = .stopped → t.failed = true)) ?_
      ⟨hnull, fun hjs => absurd hjs hj⟩
    intro u act u' hu hn
    rcases trxWorkers_move hn with ⟨hrunning, hmove⟩
    have huj : u.pool.pcs j ≠ .stopped := by
      intro hjs
      rw [hu.2 hjs] at hrunning
      cases hrunning
    cases hmove with
    | pool hact hstep hstop hpqueue _ _ =>
        refine ⟨hpqueue.trans hu.1, fun hj' => ?_⟩
        rcases Pool.stopped_of_step hstep huj hj' with ⟨rfl, hstopping⟩ | haborted
        -- it would have found the pointer set
        · obtain rfl : act = .worker j := by
            cases act with
            | worker i => simpa [poolAction] using hact
            | push k => simp [poolAction] at hact
            | _ => cases hact
          have hset := hstop j rfl hstopping
          rw [hu.1] at hset
          cases hset
        · simp [failed, haborted]
    | read _ hpool hpqueue _ _ =>
        refine ⟨hpqueue.trans hu.1, fun hj' => ?_⟩
        rw [hpool] at hj'
        exact absurd hj' huj
    | null _ _ hu' =>
        subst hu'
        exact ⟨hu.1, fun _ => rfl⟩
    | freed _ hu' =>
        subst hu'
        exact ⟨hu.1, fun _ => rfl⟩
    | delete _ hu' =>
        subst hu'
        exact ⟨rfl, fun hj' => absurd hj' huj⟩
  exact hinv.2 hstopped

instance [DecidableEq α] (s : TrxWorkers n m r α) : DecidablePred s.Orderly
  | .worker i => inferInstanceAs (Decidable (s.pool.pcs i = .preStop → s.pool.q.queue = []))
  | .enqueue _ _ _ | .push _ | .command _ (.setqueue _ _ _) =>
      inferInstanceAs (Decidable (∃ j, s.pool.pcs j ≠ .stopped))
  | .delete _ => inferInstanceAs (Decidable (∀ j, s.pool.pcs j = .stopped))
  | .pusher _ | .controller _ | .command _ (.control _ _) | .command _ (.set_ws _ _) =>
      inferInstanceAs (Decidable True)

end TrxWorkers

/-- **Requests and stopped workers.** In orderly runs no assertion of `abort_one_trx` or
`_pre_STOP_impl` fails, no null pointer is used and nothing is aborted: each request is in the
queue, or was popped by one worker, which serves it once; and when all workers have ended all were
served. A worker that finds requests without a transaction when it stops fails, and so does every
worker that has not ended when another one is deleted. -/
theorem stop_disposes_once {xct : α → Option Nat} {s : TrxWorkers n m r α}
    (h : (trxWorkers xct n m r).ReachableBy TrxWorkers.Orderly s) :
    s.fault = none ∧ s.pool.aborted ≠ some .abort_one_trx ∧ s.pool.swept = [] ∧
      s.pool.pushed = s.pool.popped ++ s.pool.q.queue ∧
      (∀ i, (s.pool.returnsOf i).filterMap id =
        s.pool.servedBy i ++ (s.pool.pcs i).hand.toList) ∧
      (s.pool.aborted = none → (∀ j, s.pool.pcs j = .stopped) →
        s.pool.pushed.Perm (s.pool.served.map Prod.snd)) ∧
      (∀ i s', (trxWorkers xct n m r).next (.worker i) s = some s' → s.pool.pcs i = .preStop →
        s.ready i = true → s.pqueue = true → (∀ a ∈ s.pool.q.queue, xct a = none) →
          (s'.pool.aborted = some .abort_one_trx ↔ s.pool.q.queue ≠ [])) ∧
      ∀ i s', (trxWorkers xct n m r).next (.delete i) s = some s' →
        ∀ j, s.pool.pcs j ≠ .stopped → ∀ t, (trxWorkers xct n m r).Leads s' t →
          t.pool.pcs j = .stopped → t.failed = true := by
  have hpool := TrxWorkers.pool_drained h
  have hr := hpool.reachable
  refine ⟨(TrxWorkers.standing h).fault, (Pool.unswept hpool).aborted, (Pool.unswept hpool).swept,
    (Pool.inOrder hr).symm, Pool.handedOn hr, Pool.pushed_perm_served hpool, ?_, ?_⟩
  · intro i s' hn hpc hready hpqueue hnull
    exact TrxWorkers.aborted_iff hpc hready hpqueue hnull hn
  · intro i s' hn j hj t ht hstopped
    cases (trxWorkers_move hn).2 with
    | pool hact _ _ _ _ _ => cases hact
    | read hread _ _ _ _ => exact hread.elim
    | null hread _ _ => exact hread.elim
    | delete _ hs' =>
        subst hs'
        exact TrxWorkers.failed_of_leads (s := { s with pqueue := false, deleted := _ }) rfl hj ht
          hstopped

/-! ### Runs -/

/-- A controller calls `stop` on a worker. -/
def stopWorker {n : Nat} (i : Fin n) : List (TrxAction n 1 1 Nat) :=
  .command 0 (.control i .STOPPED) :: List.replicate 4 (.controller 0)

/-- A client pushes a request while no worker waits. -/
def pushRequest {n : Nat} (a : Nat) : List (TrxAction n 1 1 Nat) :=
  [.enqueue 0 a false, .push 0, .pusher 0]

/-- Two workers serve a request each, are stopped one after the other, and then deleted. -/
def orderlyRun : List (TrxAction 2 1 1 Nat) :=
  List.flatten [pushRequest 7, pushRequest 8, List.replicate 7 (.worker 1),
    List.replicate 7 (.worker 0), stopWorker 0, List.replicate 4 (.worker 0), stopWorker 1,
    List.replicate 4 (.worker 1), [.delete 0, .delete 1]]

theorem stop_disposes_once_two : ∃ s : TrxWorkers 2 1 1 Nat,
    (trxWorkers (fun _ => none) 2 1 1).ReachableBy TrxWorkers.Orderly s ∧
      s.pool.pushed = [7, 8] ∧ (∀ i, s.deleted i = true) ∧ s.fault = none ∧
      s.pool.servedBy 1 = [7] ∧ (s.pool.served.map Prod.snd).Perm [7, 8] := by
  obtain ⟨s, hs, hpushed, hdeleted, haborted, hall, hret⟩ := Machine.Reachable.exists_of_exec
    (P := fun s : TrxWorkers 2 1 1 Nat => s.pool.pushed = [7, 8] ∧ (∀ i, s.deleted i = true) ∧
      s.pool.aborted = none ∧ (∀ i, s.pool.pcs i = .stopped) ∧ s.pool.returnsOf 1 = [some 7])
    orderlyRun
    (show ((trxWorkers (fun _ => none) 2 1 1).guard fun s act => decide (s.Orderly act)).init _ from
      ⟨inputQueue 0, fun _ => .ACTIVE, some 0, rfl⟩) (by decide +kernel)
  have hby : (trxWorkers (fun _ => none) 2 1 1).ReachableBy TrxWorkers.Orderly s :=
    Machine.Reachable.of_guard (by simp) hs
  rcases stop_disposes_once hby with ⟨hfault, -, -, -, hserved, hperm, -⟩
  refine ⟨s, hby, hpushed, hdeleted, hfault, ?_, hpushed ▸ (hperm haborted hall).symm⟩
  have hone := hserved 1
  rw [hret, hall 1] at hone
  simpa [WorkerPc.hand] using hone.symm

/-- A worker is stopped while a request is queued; or the first of two workers is stopped, a request
is pushed, and the worker is deleted before the second one is stopped. In both runs an assertion
fails, and the request is neither served nor aborted. -/
theorem stop_fails_assertion :
    (∃ s : TrxWorkers 1 1 1 Nat, (trxWorkers (fun _ => none) 1 1 1).Reachable s ∧
      s.pool.pushed = [7] ∧ s.pool.served = [] ∧ s.pool.swept = [] ∧
      (∀ i, s.pool.pcs i = .stopped) ∧ s.pool.aborted = some .abort_one_trx) ∧
    ∃ s : TrxWorkers 2 1 1 Nat, (trxWorkers (fun _ => none) 2 1 1).Reachable s ∧
      s.pool.pushed = [7] ∧ s.pool.served = [] ∧ s.pool.swept = [] ∧
      s.pool.pcs 0 = .stopped ∧ s.pool.pcs 1 = .preStop ∧ s.fault = some .assertion := by
  constructor
  · exact Machine.Reachable.exists_of_exec
      (P := fun s : TrxWorkers 1 1 1 Nat => s.pool.pushed = [7] ∧ s.pool.served = [] ∧
        s.pool.swept = [] ∧ (∀ i, s.pool.pcs i = .stopped) ∧
        s.pool.aborted = some .abort_one_trx)
      (List.flatten [pushRequest 7, stopWorker 0, List.replicate 3 (.worker 0)])
      (show (trxWorkers (fun _ => none) 1 1 1).init _ from
        ⟨inputQueue 0, fun _ => .ACTIVE, some 0, rfl⟩) (by decide +kernel)
  · exact Machine.Reachable.exists_of_exec
      (P := fun s : TrxWorkers 2 1 1 Nat => s.pool.pushed = [7] ∧ s.pool.served = [] ∧
        s.pool.swept = [] ∧ s.pool.pcs 0 = .stopped ∧ s.pool.pcs 1 = .preStop ∧
        s.fault = some .assertion)
      (List.flatten [stopWorker 0, List.replicate 3 (.worker 0), pushRequest 7, [.delete 0],
        stopWorker 1, List.replicate 2 (.worker 1)])
      (show (trxWorkers (fun _ => none) 2 1 1).init _ from
        ⟨inputQueue 0, fun _ => .ACTIVE, some 0, rfl⟩) (by decide +kernel)

end TailBench.Shore
