import TailBench.Shore.Mrmwqueue
import Mathlib.Data.List.TakeWhile
import Mathlib.Tactic

set_option autoImplicit false

/-! # What a step of the pool can do

* `SetWsMove`: a step of `set_ws`, which is called by the worker itself, by `push` and by
  controllers.
* `QueueMove`: a step of a worker, as the queue and the history of requests see it.
* `PoolMove`: a step of the process, for the queue, the places of the workers and the history.
-/

namespace TailBench.Shore

open Lib

variable {n m r : Nat} {α : Type}

/-! ## `set_ws` -/

/-- A step of `set_ws(new_ws)` on `w`. -/
inductive SetWsMove (new_ws : WorkingState) (w : Worker) :
    SetWsPc → Worker → Option SetWsPc → Prop where
  | done {pc : SetWsPc} : pc ≠ .condex_wakeup →
      w.ws = new_ws ∨ (w.ws = .COMMIT_Q ∧ new_ws ≠ .LOOP) → SetWsMove new_ws w pc w none
  | again {pc : SetWsPc} : pc ≠ .condex_wakeup → w.ws ≠ new_ws →
      SetWsMove new_ws w pc w (some (.cas w.ws))
  | swap {old_ws : WorkingState} : w.ws = old_ws → ¬ (old_ws = .SLEEP ∧ new_ws ≠ .SLEEP) →
      SetWsMove new_ws w (.cas old_ws) { w with ws := new_ws } none
  | wake : w.ws = .SLEEP → new_ws ≠ .SLEEP →
      SetWsMove new_ws w (.cas .SLEEP) { w with ws := new_ws } (some .condex_wakeup)
  | signal : SetWsMove new_ws w .condex_wakeup { w with notify := w.notify.signal } none

theorem SetWsMove.of_loop (new_ws : WorkingState) (w : Worker) {pc : SetWsPc}
    (hpc : pc ≠ .condex_wakeup) : SetWsMove new_ws w pc w (SetWsPc.loop new_ws w.ws) := by
  unfold SetWsPc.loop
  split
  · next heq => exact .done hpc (.inl heq)
  · next hne =>
      split
      · next hcommit => exact .done hpc (.inr hcommit)
      · exact .again hpc hne

theorem set_wsStep_move (new_ws : WorkingState) (w : Worker) (pc : SetWsPc) :
    SetWsMove new_ws w pc (set_wsStep new_ws w pc).1 (set_wsStep new_ws w pc).2 := by
  cases pc with
  | read => exact .of_loop new_ws w (by simp)
  | cas old_ws =>
      by_cases hold : w.ws = old_ws
      · by_cases hsleep : old_ws = .SLEEP ∧ new_ws ≠ .SLEEP
        · obtain ⟨rfl, hne⟩ := hsleep
          simp only [set_wsStep, hold, hne, ne_eq, not_false_eq_true, and_self, if_true]
          exact .wake hold hne
        · simp only [set_wsStep, hold, hsleep, if_true, if_false]
          exact .swap hold hsleep
      · simp only [set_wsStep, hold, if_false]
        exact .of_loop new_ws w (by simp)
  | condex_wakeup => exact .signal

/-! ## Workers -/

namespace WorkerPc

/-- Between registering and deregistering in `pop`. -/
def registered : WorkerPc α → Bool
  | .sleepRead | .sleepCas | .sleepWait | .sleeping | .leave => true
  | _ => false

/-- The request that was popped and is not served yet. -/
def hand : WorkerPc α → Option α
  | .serve a => some a
  | _ => none

/-- In `_pre_STOP_impl`. -/
def stopping : WorkerPc α → Bool
  | .preStop => true
  | _ => false

/-- The thread has ended. -/
def ended : WorkerPc α → Bool
  | .stopped => true
  | _ => false

end WorkerPc

/-- A step of worker `i`, for the queue. -/
inductive QueueMove (xct : α → Option Nat) (free : Bool) (i : Fin n) (q : Mrmwqueue n α) :
    WorkerPc α → Mrmwqueue n α → WorkerPc α → WorkerEvent α → Prop where
  | keep {pc pc' : WorkerPc α} {ev : WorkerEvent α} :
      ev = .quiet ∨ ev = .returned none → pc.stopping = false →
      pc'.registered = pc.registered → pc.hand = none → pc'.hand = none → pc'.ended = false →
      QueueMove xct free i q pc q pc' ev
  | take {loopcnt : Int} {a : α} {rest : List α} : free = true → q.queue = a :: rest →
      QueueMove xct free i q (.pop loopcnt) { q with queue := rest } (.serve a)
        (.returned (some a))
  | enroll {loopcnt : Int} : free = true → q.queue = [] →
      QueueMove xct free i q (.pop loopcnt) { q with waiters := q.waiters ++ [i] } .sleepRead
        .quiet
  | leave : free = true →
      QueueMove xct free i q .leave { q with waiters := q.waiters.erase i } (.checkControl 0)
        .quiet
  | serve {a : α} : QueueMove xct free i q (.serve a) q .active (.served a)
  | sweep : free = true → (∀ a ∈ q.queue, (xct a).isSome = true) →
      QueueMove xct free i q .preStop q .stopped (.swept q.queue)
  | sweepFail {a : α} {as : List α} : free = true → a ∈ q.queue → xct a = none →
      QueueMove xct free i q .preStop q .stopped (.failed .abort_one_trx as)
  | recovery : QueueMove xct free i q .switch q .stopped (.failed .work [])

section Worker

variable {xct : α → Option Nat} {free : Bool} {i : Fin n} {q q' : Mrmwqueue n α} {w w' : Worker}
  {pc pc' : WorkerPc α} {ev : WorkerEvent α}

/-- A step that is no event and keeps the worker on one side of registering. -/
theorem QueueMove.quiet (hstop : pc.stopping = false) (hreg : pc'.registered = pc.registered)
    (hhand : pc.hand = none) (hhand' : pc'.hand = none) (hended : pc'.ended = false) :
    QueueMove xct free i q pc q pc' .quiet :=
  .keep (.inl rfl) hstop hreg hhand hhand' hended

/-- `_pre_STOP_impl` gets through the queue when every request has a transaction. -/
theorem QueueMove.preStop (hfree : free = true) :
    QueueMove xct free i q .preStop q .stopped
      (if (q.queue.takeWhile fun a => (xct a).isSome).length = q.queue.length
        then .swept (q.queue.takeWhile fun a => (xct a).isSome)
        else .failed .abort_one_trx (q.queue.takeWhile fun a => (xct a).isSome)) := by
  by_cases hall : ∀ a ∈ q.queue, (xct a).isSome = true
  · rw [List.takeWhile_eq_self_iff.mpr hall, if_pos rfl]
    exact .sweep hfree hall
  -- it stops at the first request without a transaction
  · have hshort : (q.queue.takeWhile fun a => (xct a).isSome).length ≠ q.queue.length := by
      intro hlen
      have heq := (List.takeWhile_sublist fun a => (xct a).isSome).eq_of_length hlen
      exact hall (List.takeWhile_eq_self_iff.mp heq)
    rw [if_neg hshort]
    push Not at hall
    rcases hall with ⟨a, ha, hnone⟩
    exact .sweepFail hfree ha (by simpa using hnone)

theorem workerStep_queueMove (h : workerStep xct free i q w pc = some (q', w', pc', ev)) :
    QueueMove xct free i q pc q' pc' ev := by
  cases pc with
  | switch =>
      simp only [workerStep] at h
      split at h <;> obtain ⟨rfl, rfl, rfl, rfl⟩ := by simpa using h
      · exact .quiet rfl rfl rfl rfl rfl
      · exact .quiet rfl rfl rfl rfl rfl
      · exact .quiet rfl rfl rfl rfl rfl
      · exact .recovery
  | paused =>
      obtain ⟨rfl, rfl, rfl, rfl⟩ := by simpa [workerStep] using h
      split <;> exact .quiet rfl rfl rfl rfl rfl
  | active =>
      obtain ⟨rfl, rfl, rfl, rfl⟩ := by simpa [workerStep] using h
      split <;> exact .quiet rfl rfl rfl rfl rfl
  | setLoop spc =>
      simp only [workerStep] at h
      split at h <;> obtain ⟨rfl, rfl, rfl, rfl⟩ := by simpa using h
      · exact .quiet rfl rfl rfl rfl rfl
      · exact .quiet rfl rfl rfl rfl rfl
  | pop loopcnt =>
      simp only [workerStep] at h
      split at h
      · next hfree =>
          split at h
          · next a rest hqueue =>
              obtain ⟨rfl, rfl, rfl, rfl⟩ := by simpa using h
              exact .take hfree hqueue
          · next hqueue =>
              split at h <;> obtain ⟨rfl, rfl, rfl, rfl⟩ := by simpa using h
              · exact .enroll hfree hqueue
              · exact .quiet rfl rfl rfl rfl rfl
      · cases h
  | sleepRead =>
      obtain ⟨rfl, rfl, rfl, rfl⟩ := by simpa [workerStep] using h
      split <;> exact .quiet rfl rfl rfl rfl rfl
  | sleepCas =>
      simp only [workerStep] at h
      split at h <;> obtain ⟨rfl, rfl, rfl, rfl⟩ := by simpa using h
      · exact .quiet rfl rfl rfl rfl rfl
      · exact .quiet rfl rfl rfl rfl rfl
  | sleepWait =>
      obtain ⟨rfl, rfl, rfl, rfl⟩ := by simpa [workerStep] using h
      exact .quiet rfl rfl rfl rfl rfl
  | sleeping =>
      simp only [workerStep] at h
      split at h
      · cases h
      · obtain ⟨rfl, rfl, rfl, rfl⟩ := by simpa using h
        exact .quiet rfl rfl rfl rfl rfl
  | leave =>
      simp only [workerStep] at h
      split at h
      · next hfree =>
          obtain ⟨rfl, rfl, rfl, rfl⟩ := by simpa using h
          exact .leave hfree
      · cases h
  | checkControl loopcnt =>
      obtain ⟨rfl, rfl, rfl, rfl⟩ := by simpa [workerStep] using h
      split <;> exact .quiet rfl rfl rfl rfl rfl
  -- `pop` returns `NULL` after the state is `FINISHED`
  | setFinished spc =>
      simp only [workerStep] at h
      split at h <;> obtain ⟨rfl, rfl, rfl, rfl⟩ := by simpa using h
      · exact .quiet rfl rfl rfl rfl rfl
      · exact .keep (.inr rfl) rfl rfl rfl rfl rfl
  | canContinue loopcnt =>
      obtain ⟨rfl, rfl, rfl, rfl⟩ := by simpa [workerStep] using h
      exact .quiet rfl rfl rfl rfl rfl
  | canMine loopcnt my_ws =>
      obtain ⟨rfl, rfl, rfl, rfl⟩ := by simpa [workerStep] using h
      split <;> exact .quiet rfl rfl rfl rfl rfl
  | canLoop loopcnt =>
      simp only [workerStep] at h
      split at h <;> obtain ⟨rfl, rfl, rfl, rfl⟩ := by simpa using h
      · exact .quiet rfl rfl rfl rfl rfl
      · exact .keep (.inr rfl) rfl rfl rfl rfl rfl
  | serve a =>
      obtain ⟨rfl, rfl, rfl, rfl⟩ := by simpa [workerStep] using h
      exact .serve
  | preStop =>
      simp only [workerStep] at h
      split at h
      · next hfree =>
          obtain ⟨rfl, rfl, rfl, rfl⟩ := by simpa using h
          exact .preStop hfree
      · cases h
  | stopped => simp [workerStep] at h

end Worker

/-! ## The process -/

namespace Pool

section Record

variable (s : Pool n m r α) (i : Fin n) (ev : WorkerEvent α)

@[simp] theorem record_q : (s.record i ev).q = s.q := by cases ev <;> rfl
@[simp] theorem record_lock : (s.record i ev).lock = s.lock := by cases ev <;> rfl
@[simp] theorem record_workers : (s.record i ev).workers = s.workers := by cases ev <;> rfl
@[simp] theorem record_pcs : (s.record i ev).pcs = s.pcs := by cases ev <;> rfl
@[simp] theorem record_pushers : (s.record i ev).pushers = s.pushers := by cases ev <;> rfl
@[simp] theorem record_controllers : (s.record i ev).controllers = s.controllers := by
  cases ev <;> rfl

end Record

/-- What was popped and what happened to it. -/
structure SameHistory (s s' : Pool n m r α) : Prop where
  aborted : s'.aborted = s.aborted
  returned : s'.returned = s.returned
  served : s'.served = s.served
  swept : s'.swept = s.swept

end Pool

/-- A step of the process. The third case is a step of a pusher or of a controller, which
leaves the content of the queue alone. -/
inductive PoolMove (xct : α → Option Nat) (s s' : Pool n m r α) : PoolAction n m r α → Prop where
  | worker {i : Fin n} {pc : WorkerPc α} {q' : Mrmwqueue n α} {w' : Worker} {pc' : WorkerPc α}
      {ev : WorkerEvent α} : s.pcs i = pc →
      workerStep xct s.lock.isNone i s.q (s.workers i) pc = some (q', w', pc', ev) →
      s' = { s with
        q := q'
        workers := Function.update s.workers i w'
        pcs := Function.update s.pcs i pc' }.record i ev →
      PoolMove xct s s' (.worker i)
  | push {k : Fin m} {a : α} {bWake : Bool} :
      s'.q = { s.q with queue := s.q.queue ++ [a] } → s'.pcs = s.pcs → s'.workers = s.workers →
      s'.pushed = s.pushed ++ [a] → s.SameHistory s' → PoolMove xct s s' (.push k a bWake)
  | other {act : PoolAction n m r α} :
      (∀ i, act ≠ .worker i) → (∀ k a bWake, act ≠ .push k a bWake) →
      s'.q.queue = s.q.queue → s'.q.waiters = s.q.waiters → s'.pcs = s.pcs →
      s'.pushed = s.pushed → s.SameHistory s' → PoolMove xct s s' act

section Steps

variable {xct : α → Option Nat} {s s' : Pool n m r α}

theorem Pool.workerNext_move {i : Fin n} (h : s.workerNext xct i = some s') :
    PoolMove xct s s' (.worker i) := by
  simp only [Pool.workerNext, Option.map_eq_some_iff, Prod.exists] at h
  rcases h with ⟨q', w', pc', ev, hstep, rfl⟩
  exact .worker rfl hstep rfl

theorem Pool.pushNext_move {k : Fin m} {a : α} {bWake : Bool}
    (h : s.pushNext k a bWake = some s') : PoolMove xct s s' (.push k a bWake) := by
  simp only [Pool.pushNext] at h
  split at h
  · split at h <;> obtain rfl := by simpa using h
    · exact .push rfl rfl rfl rfl ⟨rfl, rfl, rfl, rfl⟩
    · exact .push rfl rfl rfl rfl ⟨rfl, rfl, rfl, rfl⟩
  · cases h

theorem Pool.pusherNext_move {k : Fin m} (h : s.pusherNext k = some s') :
    PoolMove xct s s' (.pusher k) := by
  have hmove : s'.q = s.q ∧ s'.pcs = s.pcs ∧ s'.pushed = s.pushed ∧ s.SameHistory s' := by
    simp only [Pool.pusherNext] at h
    split at h
    · cases h
    · split at h <;> obtain rfl := by simpa using h
      · exact ⟨rfl, rfl, rfl, rfl, rfl, rfl, rfl⟩
      · exact ⟨rfl, rfl, rfl, rfl, rfl, rfl, rfl⟩
    · split at h
      · cases h
      · split at h <;> obtain rfl := by simpa using h
        · exact ⟨rfl, rfl, rfl, rfl, rfl, rfl, rfl⟩
        · exact ⟨rfl, rfl, rfl, rfl, rfl, rfl, rfl⟩
  rcases hmove with ⟨hq, hpcs, hpushed, hhist⟩
  exact .other (by simp) (by simp) (by rw [hq]) (by rw [hq]) hpcs hpushed hhist

theorem Pool.commandNext_move {c : Fin r} {cmd : Command n} (h : s.commandNext c cmd = some s') :
    PoolMove xct s s' (.command c cmd) := by
  cases cmd with
  | control i awc =>
      simp only [Pool.commandNext] at h
      split at h
      · obtain rfl := by simpa using h
        exact .other (by simp) (by simp) rfl rfl rfl rfl ⟨rfl, rfl, rfl, rfl⟩
      · cases h
  | set_ws i new_ws =>
      simp only [Pool.commandNext] at h
      split at h
      · obtain rfl := by simpa using h
        exact .other (by simp) (by simp) rfl rfl rfl rfl ⟨rfl, rfl, rfl, rfl⟩
      · cases h
  | setqueue aws loops thres =>
      simp only [Pool.commandNext] at h
      split at h
      · obtain rfl := by simpa using h
        exact .other (by simp) (by simp) rfl rfl rfl rfl ⟨rfl, rfl, rfl, rfl⟩
      · cases h

/-- **What a step of the process can do.** -/
theorem pool_move {act : PoolAction n m r α} (h : (pool xct n m r).next act s = some s') :
    s.aborted = none ∧ PoolMove xct s s' act := by
  simp only [pool, Pool.next] at h
  split at h
  · cases h
  · next hrunning =>
      refine ⟨by simpa using hrunning, ?_⟩
      cases act with
      | worker i => exact Pool.workerNext_move h
      | push k a bWake => exact Pool.pushNext_move h
      | pusher k => exact Pool.pusherNext_move h
      | command c cmd => exact Pool.commandNext_move h
      | controller c =>
          simp only [Option.map_eq_some_iff] at h
          rcases h with ⟨x, -, rfl⟩
          exact .other (by simp) (by simp) rfl rfl rfl rfl ⟨rfl, rfl, rfl, rfl⟩

end Steps

end TailBench.Shore
