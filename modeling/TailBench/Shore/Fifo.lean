import TailBench.Shore.PoolSteps
import TailBench.Lib.Threads

set_option autoImplicit false

/-! # First in, first out

Whatever workers, pushers and controllers do, the requests that calls of `pop` have returned are
the first of those that were pushed, in order, and the others are in the queue. The list of
waiters holds exactly the workers that have registered in `pop` and not deregistered, each once.
-/

namespace TailBench.Shore

open Lib

variable {n m r : Nat} {α : Type}

namespace Pool

variable {s s' : Pool n m r α} {xct : α → Option Nat} {act : PoolAction n m r α}

/-- The requests that calls of `pop` returned, in the order of their critical sections. -/
def popped (s : Pool n m r α) : List α := s.returned.filterMap Prod.snd

theorem SameHistory.popped (h : s.SameHistory s') : s'.popped = s.popped := by
  simp only [Pool.popped, h.returned]

/-! ## Requests -/

/-- What was popped, and then what is queued, is what was pushed. -/
def InOrder (s : Pool n m r α) : Prop := s.popped ++ s.q.queue = s.pushed

theorem InOrder.step (hs : s.InOrder) (h : (pool xct n m r).next act s = some s') :
    s'.InOrder := by
  rcases pool_move h with ⟨-, hmove⟩
  unfold InOrder at hs ⊢
  cases hmove with
  | @worker i pc q' w' pc' ev hpc hstep hs' =>
      subst hs'
      cases workerStep_queueMove hstep with
      | keep hev _ _ _ _ _ =>
          rcases hev with rfl | rfl
          · exact hs
          · simpa [popped, record] using hs
      | @take loopcnt a rest hfree hqueue =>
          rw [hqueue] at hs
          simpa [popped, record] using hs
      | enroll hfree hqueue => exact hs
      | leave hfree => exact hs
      | serve => exact hs
      | sweep hfree _ => exact hs
      | sweepFail hfree _ _ => exact hs
      | recovery => exact hs
  | push hq hpcs hworkers hpushed hhist =>
      rw [hhist.popped, hq, hpushed, ← hs, List.append_assoc]
  | other _ _ hqueue _ _ hpushed hhist =>
      rw [hhist.popped, hqueue, hpushed, hs]

theorem inOrder (h : (pool xct n m r).Reachable s) : s.InOrder :=
  Machine.Reachable.invariant (P := InOrder)
    (by rintro s ⟨q, control, rfl⟩; rfl)
    (fun _ _ _ _ hs hn => hs.step hn) h

/-! ## Waiters -/

/-- The waiters are the registered workers, each once. -/
structure Enrolled (s : Pool n m r α) : Prop where
  nodup : s.q.waiters.Nodup
  mem : ∀ i, i ∈ s.q.waiters ↔ (s.pcs i).registered = true

/-- A step of worker `i` that changes neither the waiters nor its side of registering. -/
theorem Enrolled.keep {i : Fin n} {pc' : WorkerPc α} (hs : s.Enrolled)
    (hwaiters : s'.q.waiters = s.q.waiters) (hpcs : s'.pcs = Function.update s.pcs i pc')
    (hreg : pc'.registered = (s.pcs i).registered) : s'.Enrolled := by
  refine ⟨by rw [hwaiters]; exact hs.nodup, fun j => ?_⟩
  rw [hwaiters, hs.mem j, hpcs]
  by_cases hj : j = i
  · subst hj
    rw [Function.update_self, hreg]
  · rw [Function.update_of_ne hj]

/-- A worker registers. -/
theorem Enrolled.enroll {i : Fin n} {pc' : WorkerPc α} (hs : s.Enrolled)
    (hwaiters : s'.q.waiters = s.q.waiters ++ [i])
    (hpcs : s'.pcs = Function.update s.pcs i pc') (hreg : (s.pcs i).registered = false)
    (hreg' : pc'.registered = true) : s'.Enrolled := by
  have hout : i ∉ s.q.waiters := by
    intro hin
    rw [(hs.mem i).mp hin] at hreg
    cases hreg
  constructor
  · rw [hwaiters, List.nodup_append]
    refine ⟨hs.nodup, List.nodup_singleton i, fun a ha b hb => ?_⟩
    obtain rfl := List.mem_singleton.mp hb
    exact fun hab => hout (hab ▸ ha)
  · intro j
    rw [hwaiters, List.mem_append, List.mem_singleton, hs.mem j, hpcs]
    by_cases hj : j = i
    · subst hj
      simp [hreg']
    · simp [hj]

/-- A worker deregisters. -/
theorem Enrolled.leave {i : Fin n} {pc' : WorkerPc α} (hs : s.Enrolled)
    (hwaiters : s'.q.waiters = s.q.waiters.erase i)
    (hpcs : s'.pcs = Function.update s.pcs i pc') (hreg' : pc'.registered = false) :
    s'.Enrolled := by
  constructor
  · rw [hwaiters]
    exact hs.nodup.erase i
  · intro j
    rw [hwaiters, hs.nodup.mem_erase_iff, hs.mem j, hpcs]
    by_cases hj : j = i
    · subst hj
      simp [hreg']
    · simp [hj]

theorem Enrolled.step (hs : s.Enrolled) (h : (pool xct n m r).next act s = some s') :
    s'.Enrolled := by
  rcases pool_move h with ⟨-, hmove⟩
  cases hmove with
  | @worker i pc q' w' pc' ev hpc hstep hs' =>
      subst hs'
      cases workerStep_queueMove hstep with
      | keep _ _ hreg _ _ _ => exact hs.keep (by simp) (record_pcs ..) (by rw [hreg, hpc])
      | take hfree _ => exact hs.keep (by simp) (record_pcs ..) (by rw [hpc]; rfl)
      | enroll hfree _ => exact hs.enroll (by simp) (record_pcs ..) (by rw [hpc]; rfl) rfl
      | leave hfree => exact hs.leave (by simp) (record_pcs ..) rfl
      | serve => exact hs.keep (by simp) (record_pcs ..) (by rw [hpc]; rfl)
      | sweep hfree _ => exact hs.keep (by simp) (record_pcs ..) (by rw [hpc]; rfl)
      | sweepFail hfree _ _ => exact hs.keep (by simp) (record_pcs ..) (by rw [hpc]; rfl)
      | recovery => exact hs.keep (by simp) (record_pcs ..) (by rw [hpc]; rfl)
  | push hq hpcs _ _ _ => exact ⟨by rw [hq]; exact hs.nodup, by rw [hq, hpcs]; exact hs.mem⟩
  | other _ _ _ hwaiters hpcs _ _ =>
      exact ⟨by rw [hwaiters]; exact hs.nodup, by rw [hwaiters, hpcs]; exact hs.mem⟩

theorem enrolled (h : (pool xct n m r).Reachable s) : s.Enrolled :=
  Machine.Reachable.invariant (P := Enrolled)
    (by rintro s ⟨q, control, rfl⟩; exact ⟨List.nodup_nil, fun i => by simp [start]; rfl⟩)
    (fun _ _ _ _ hs hn => hs.step hn) h

/-! ## What a call removes -/

/-- What a step does to the queue, and what it returns. -/
inductive Effect (s s' : Pool n m r α) : PoolAction n m r α → Prop where
  | keep {act : PoolAction n m r α} : s'.q.queue = s.q.queue → s'.returned = s.returned →
      Effect s s' act
  /-- A call of `pop` returns the null pointer. -/
  | null {i : Fin n} : s'.q.queue = s.q.queue → s'.returned = s.returned ++ [(i, none)] →
      Effect s s' (.worker i)
  /-- A call of `pop` returns the front of the queue. -/
  | front {i : Fin n} {a : α} : s.q.queue = a :: s'.q.queue →
      s'.returned = s.returned ++ [(i, some a)] → Effect s s' (.worker i)
  | push {k : Fin m} {a : α} {bWake : Bool} : s'.q.queue = s.q.queue ++ [a] →
      s'.returned = s.returned → Effect s s' (.push k a bWake)

theorem effect (h : (pool xct n m r).next act s = some s') : s.Effect s' act := by
  rcases pool_move h with ⟨-, hmove⟩
  cases hmove with
  | @worker i pc q' w' pc' ev hpc hstep hs' =>
      subst hs'
      cases workerStep_queueMove hstep with
      | keep hev _ _ _ _ _ =>
          rcases hev with rfl | rfl
          · exact .keep rfl rfl
          · exact .null rfl rfl
      | take hfree hqueue => exact .front hqueue rfl
      | enroll hfree hqueue => exact .keep rfl rfl
      | leave hfree => exact .keep rfl rfl
      | serve => exact .keep rfl rfl
      | sweep hfree _ => exact .keep rfl rfl
      | sweepFail hfree _ _ => exact .keep rfl rfl
      | recovery => exact .keep rfl rfl
  | push hq _ _ _ hhist => exact .push (by rw [hq]) hhist.returned
  | other _ _ hqueue _ _ _ hhist => exact .keep hqueue hhist.returned

/-! ## What a call returns -/

/-- What the calls of `pop` by worker `i` returned. -/
def returnsOf (s : Pool n m r α) (i : Fin n) : List (Option α) :=
  (s.returned.filter (·.1 = i)).map Prod.snd

theorem returnsOf_self {i : Fin n} {x : Option α} (h : s'.returned = s.returned ++ [(i, x)]) :
    s'.returnsOf i = s.returnsOf i ++ [x] := by
  simp [returnsOf, h]

theorem returnsOf_mono (i : Fin n) (h : (pool xct n m r).next act s = some s') :
    s.returnsOf i <+: s'.returnsOf i := by
  have happ : ∃ l, s'.returned = s.returned ++ l := by
    cases effect h with
    | keep _ hret => exact ⟨[], by simpa using hret⟩
    | null _ hret => exact ⟨_, hret⟩
    | front _ hret => exact ⟨_, hret⟩
    | push _ hret => exact ⟨[], by simpa using hret⟩
  rcases happ with ⟨l, hl⟩
  exact ⟨(l.filter (·.1 = i)).map Prod.snd, by simp [returnsOf, hl]⟩

theorem returnsOf_leads (i : Fin n) (h : (pool xct n m r).Leads s s') :
    s.returnsOf i <+: s'.returnsOf i :=
  h.invariant (P := fun t => s.returnsOf i <+: t.returnsOf i)
    (fun _ _ _ ht hn => ht.trans (returnsOf_mono i hn)) (List.prefix_refl _)

/-- In a run in which the only call of worker `i` that returns, returns the null pointer, no
step of the worker removes anything. -/
theorem null_removes_nothing {i : Fin n} {t : Pool n m r α} {as bs cs : List (PoolAction n m r α)}
    {u v : Pool n m r α} (hrun : (pool xct n m r).exec as s = some t)
    (hnull : t.returnsOf i = s.returnsOf i ++ [none]) (hsplit : as = bs ++ .worker i :: cs)
    (hu : (pool xct n m r).exec bs s = some u)
    (hv : (pool xct n m r).next (.worker i) u = some v) : v.q.queue = u.q.queue := by
  have hrest : (pool xct n m r).exec cs v = some t := by
    rw [hsplit, Machine.exec_append, hu] at hrun
    simpa [Machine.exec, hv] using hrun
  cases effect hv with
  | keep hqueue _ => exact hqueue
  | null hqueue _ => exact hqueue
  | front _ hret =>
      have hbefore : s.returnsOf i <+: u.returnsOf i := returnsOf_leads i ⟨bs, hu⟩
      have hafter : v.returnsOf i <+: t.returnsOf i := returnsOf_leads i ⟨cs, hrest⟩
      rw [returnsOf_self hret, hnull] at hafter
      -- both have one entry more than before, so they are equal
      have hlen := hafter.length_le
      have hlen' := hbefore.length_le
      rw [List.length_append, List.length_append] at hlen
      have heq := hafter.eq_of_length (by simp at hlen ⊢; omega)
      have hlast := (List.append_inj' heq rfl).2
      simp at hlast

end Pool

/-- **The queue of the workers is first in, first out, without loss or duplication.** -/
theorem mrmwqueue_fifo {xct : α → Option Nat} {s : Pool n m r α}
    (h : (pool xct n m r).Reachable s) :
    s.popped ++ s.q.queue = s.pushed ∧
      (s.q.waiters.Nodup ∧ ∀ i, i ∈ s.q.waiters ↔ (s.pcs i).registered = true) ∧
      -- a removal is the return of what is removed
      (∀ act s', (pool xct n m r).next act s = some s' →
        s.q.queue <+: s'.q.queue ∨
          ∃ i a, act = .worker i ∧ s.q.queue = a :: s'.q.queue ∧
            s'.returned = s.returned ++ [(i, some a)]) ∧
      -- a call that returns the null pointer removes nothing
      (∀ i as t, (pool xct n m r).exec as s = some t → t.returnsOf i = s.returnsOf i ++ [none] →
        ∀ bs cs u v, as = bs ++ .worker i :: cs → (pool xct n m r).exec bs s = some u →
          (pool xct n m r).next (.worker i) u = some v → v.q.queue = u.q.queue) := by
  refine ⟨Pool.inOrder h, ⟨(Pool.enrolled h).nodup, (Pool.enrolled h).mem⟩, ?_, ?_⟩
  · intro act s' hn
    cases Pool.effect hn with
    | keep hqueue _ => exact .inl (by rw [hqueue])
    | null hqueue _ => exact .inl (by rw [hqueue])
    | front hqueue hret => exact .inr ⟨_, _, rfl, hqueue, hret⟩
    | push hqueue _ => exact .inl ⟨_, hqueue.symm⟩
  · intro i as t hrun hnull bs cs u v hsplit hu hv
    exact Pool.null_removes_nothing hrun hnull hsplit hu hv

/-- A worker falls asleep, is woken by the first of two requests and takes it. -/
def sleeperRun : List (PoolAction 2 1 0 Nat) :=
  List.replicate 8 (.worker 0) ++ [.push 0 7 false] ++ List.replicate 4 (.pusher 0) ++
    List.replicate 6 (.worker 0) ++ [.push 0 8 false]

theorem mrmwqueue_fifo_sleeperRun : ∃ s : Pool 2 1 0 Nat,
    (pool (fun _ => none) 2 1 0).Reachable s ∧ s.pushed = [7, 8] ∧
      s.returned = [(0, some 7)] ∧ s.popped ++ s.q.queue = s.pushed := by
  obtain ⟨s, hs, hp, hr⟩ := Machine.Reachable.exists_of_exec
    (M := pool (fun _ => none) 2 1 0) (P := fun s => s.pushed = [7, 8] ∧ s.returned = [(0, some 7)])
    sleeperRun ⟨inputQueue 0, fun _ => .ACTIVE, rfl⟩ (by decide +kernel)
  exact ⟨s, hs, hp, hr, (mrmwqueue_fifo hs).1⟩

end TailBench.Shore
