import TailBench.Shore.Wakeup

set_option autoImplicit false

/-! # Registering and not sleeping

`condex_sleep` does not sleep when `_ws` is not `LOOP`; by its comment, because an action was
enqueued during this loop. But `_ws` is set to `LOOP` only before `pop` is called. A worker that
was woken by a `push`, and finds that another worker has taken the request, goes round the loop of
`pop` with `_ws` still `INPUT_Q`: it registers, does not sleep, deregisters, and so on.

A `start` on a worker that sleeps has a similar effect. It signals the worker, whose state stays
`SLEEP`; `pop` returns, and `set_ws(LOOP)` signals once more. The next `wait` returns at once.

So a registered worker goes to sleep unless somebody calls it exactly if it registered with the
state `LOOP` and without a signal in advance (`pop_sleeps_iff`).
-/

namespace TailBench.Shore

open Lib

variable {n m r : Nat} {α : Type}

/-- In `condex_sleep`, before the loop of `_notify.wait()`. -/
def WorkerPc.toSleep : WorkerPc α → Bool
  | .sleepRead | .sleepCas | .sleepWait => true
  | _ => false

/-- In `set_ws`. -/
def ControllerPc.inSetWs : ControllerPc n → Bool
  | .setWs _ _ _ => true
  | _ => false

namespace Pool

/-! ## Calls from outside -/

/-- Only the worker itself and `push` call `set_ws`, as in the source. -/
def Called (_ : Pool n m r α) (act : PoolAction n m r α) : Prop :=
  ∀ c i new_ws, act ≠ .command c (.set_ws i new_ws)

/-- A call of `push`, or a step of `stop`, `pause` or `start`. -/
def Calling (s : Pool n m r α) : PoolAction n m r α → Prop
  | .push _ _ _ => True
  | .command _ (.control _ _) => True
  | .controller c => (s.controllers c).inSetWs = false
  | _ => False

/-- Worker `i`, inside `pop`, registers as a waiter, and is to call `condex_sleep`. -/
structure Registers (xct : α → Option Nat) (i : Fin n) (s s' : Pool n m r α) : Prop where
  before : ∃ loopcnt, s.pcs i = .pop loopcnt
  next : (pool xct n m r).next (.worker i) s = some s'
  after : s'.pcs i = .sleepRead

/-- A step of worker `i` from `t` to `t'` ends `condex_sleep` without a sleep: with `return (0)`,
or because the condition of the loop of `wait` is false from the start. -/
def NoSleep (i : Fin n) (t t' : Pool n m r α) : Prop :=
  (t.pcs i).toSleep = true ∧
    (t'.pcs i = .leave ∨ (t'.pcs i = .sleeping ∧ ¬ (t'.workers i).notify.waiting))

/-- Worker `i` is on its way to sleep, and nobody calls. -/
structure Quiet (i : Fin n) (s : Pool n m r α) (act : PoolAction n m r α) : Prop where
  called : s.Called act
  calling : ¬ s.Calling act
  place : (s.pcs i).toSleep = true

/-- `condex_sleep`, called by worker `i` in `s`, does not end without a sleep as long as nobody
calls. -/
def SleepsUnlessCalled (xct : α → Option Nat) (i : Fin n) (s : Pool n m r α) : Prop :=
  ∀ t t', ((pool xct n m r).since s).ReachableBy (Quiet i) t →
    (pool xct n m r).next (.worker i) t = some t' → ¬ NoSleep i t t'

/-! ## Pushers and controllers -/

section Steps

variable {xct : α → Option Nat} {s s' : Pool n m r α} {act : PoolAction n m r α}

/-- A command begins: what it leaves alone. -/
theorem commandNext_frame {c : Fin r} {cmd : Command n} (h : s.commandNext c cmd = some s') :
    s'.lock = s.lock ∧ s'.pushers = s.pushers ∧ s'.workers = s.workers ∧ s'.pcs = s.pcs ∧
      (s'.controllers = s.controllers ∨ (∃ i awc, cmd = .control i awc ∧
        s'.controllers = Function.update s.controllers c (.test i awc 0)) ∨
        ∃ i new_ws, cmd = .set_ws i new_ws) := by
  cases cmd with
  | control i awc =>
      simp only [commandNext] at h
      split at h
      · obtain rfl := by simpa using h
        exact ⟨rfl, rfl, rfl, rfl, .inr (.inl ⟨i, awc, rfl, rfl⟩)⟩
      · cases h
  | set_ws i new_ws =>
      simp only [commandNext] at h
      split at h
      · obtain rfl := by simpa using h
        exact ⟨rfl, rfl, rfl, rfl, .inr (.inr ⟨i, new_ws, rfl⟩)⟩
      · cases h
  | setqueue aws loops thres =>
      simp only [commandNext] at h
      split at h
      · obtain rfl := by simpa using h
        exact ⟨rfl, rfl, rfl, rfl, .inl rfl⟩
      · cases h

theorem Mutex.push {k : Fin m} {a : α} {bWake : Bool} (hs : s.Mutex)
    (h : s.pushNext k a bWake = some s') : s'.Mutex := by
  simp only [pushNext] at h
  split at h
  · next hidle =>
      split at h <;> obtain rfl := by simpa using h
      · intro k'
        have hother := hs k'
        rw [hidle.2] at hother
        by_cases hk : k' = k
        · subst hk
          simp
        · simpa [Function.update_of_ne hk, Ne.symm hk] using hother
      · exact hs
  · cases h

/-- The lock is held by the pusher that is inside `push`. -/
theorem mutex (h : (pool xct n m r).Reachable s) : s.Mutex := by
  refine Machine.Reachable.invariant (P := Mutex) ?_ ?_ h
  · rintro s ⟨q, control, rfl⟩ k
    simp [start]
  · intro s act s' _ hs hn
    simp only [pool, next] at hn
    split at hn
    · cases hn
    · cases act with
      | worker i =>
          simp only [workerNext, Option.map_eq_some_iff, Prod.exists] at hn
          obtain ⟨q', w', pc', ev, _, rfl⟩ := hn
          simpa [Mutex] using hs
      | push k a bWake => exact hs.push hn
      | pusher k =>
          obtain ⟨pc', hpushers, hlock, hq, hpcs, hmove⟩ := pusherNext_cases hn
          exact PusherStep.mutex ⟨hpushers, hlock, hq, hpcs, hmove⟩ hs
      | command c cmd =>
          obtain ⟨hlock, hpushers, _⟩ := commandNext_frame hn
          unfold Mutex
          rw [hlock, hpushers]
          exact hs
      | controller c =>
          simp only [Option.map_eq_some_iff] at hn
          obtain ⟨x, _, rfl⟩ := hn
          exact hs

/-- No controller is inside `set_ws`. -/
def NoneSetsWs (s : Pool n m r α) : Prop := ∀ c, (s.controllers c).inSetWs = false

theorem controllerStep_inSetWs {workers : Fin n → Worker} {pc : ControllerPc n}
    {x : (Fin n → Worker) × ControllerPc n} (h : controllerStep workers pc = some x)
    (hpc : pc.inSetWs = false) : x.2.inSetWs = false := by
  cases pc with
  | idle => cases h
  | test i awc k =>
      obtain rfl := Option.some.inj h
      dsimp only
      split
      · rfl
      · split <;> rfl
  | swap i awc =>
      obtain rfl := Option.some.inj h
      rfl
  | checkSleeping i =>
      obtain rfl := Option.some.inj h
      dsimp only
      split <;> rfl
  | signal i =>
      obtain rfl := Option.some.inj h
      rfl
  | setWs i new_ws pc => cases hpc

theorem NoneSetsWs.step (hs : s.NoneSetsWs) (hok : s.Called act)
    (h : (pool xct n m r).next act s = some s') : s'.NoneSetsWs := by
  simp only [pool, next] at h
  split at h
  · cases h
  · cases act with
    | worker i =>
        simp only [workerNext, Option.map_eq_some_iff, Prod.exists] at h
        obtain ⟨q', w', pc', ev, _, rfl⟩ := h
        simpa [NoneSetsWs] using hs
    | push k a bWake =>
        simp only [pushNext] at h
        split at h
        · split at h <;> obtain rfl := by simpa using h
          · exact hs
          · exact hs
        · cases h
    | pusher k =>
        have hctrl : s'.controllers = s.controllers := by
          simp only [pusherNext] at h
          split at h
          · cases h
          · split at h <;> obtain rfl := by simpa using h
            · rfl
            · rfl
          · split at h
            · cases h
            · split at h <;> obtain rfl := by simpa using h
              · rfl
              · rfl
        unfold NoneSetsWs
        rw [hctrl]
        exact hs
    | command c cmd =>
        obtain ⟨_, _, _, _, hctrl⟩ := commandNext_frame h
        intro c'
        rcases hctrl with hsame | ⟨i, awc, _, hctrl⟩ | ⟨i, new_ws, rfl⟩
        · rw [hsame]
          exact hs c'
        · rw [hctrl]
          by_cases hc : c' = c
          · subst hc
            rw [Function.update_self]
            rfl
          · rw [Function.update_of_ne hc]
            exact hs c'
        · exact absurd rfl (hok c i new_ws)
    | controller c =>
        simp only [Option.map_eq_some_iff] at h
        obtain ⟨x, hx, rfl⟩ := h
        intro c'
        by_cases hc : c' = c
        · subst hc
          simpa using controllerStep_inSetWs hx (hs c')
        · simpa [Function.update_of_ne hc] using hs c'

theorem noneSetsWs (h : (pool xct n m r).ReachableBy Called s) : s.NoneSetsWs := by
  refine Machine.ReachableBy.invariant (P := NoneSetsWs) ?_ ?_ h
  · rintro s ⟨q, control, rfl⟩ c
    rfl
  · intro s act s' _ hs hok hn
    exact hs.step hok hn

end Steps

end Pool

/-! ## From registering to the sleep -/

/-- A worker that is on its way to sleep and gets there if nobody calls. -/
def WorkerPc.Drowsy (w : Worker) : WorkerPc α → Prop
  | .sleepRead | .sleepCas => w.ws = .LOOP ∧ w.notify.signals ≤ w.notify.waits
  | .sleepWait => w.notify.signals ≤ w.notify.waits
  | _ => True

/-- The next step of `condex_sleep`. -/
theorem WorkerPc.Drowsy.step {xct : α → Option Nat} {free : Bool} {i : Fin n}
    {q q' : Mrmwqueue n α} {w w' : Worker} {pc pc' : WorkerPc α} {ev : WorkerEvent α}
    (hd : pc.Drowsy w) (hsleep : pc.toSleep = true)
    (h : workerStep xct free i q w pc = some (q', w', pc', ev)) :
    pc'.Drowsy w' ∧ pc' ≠ .leave ∧ (pc' = .sleeping → w'.notify.waiting) := by
  cases pc with
  | sleepRead =>
      obtain ⟨hloop, hcount⟩ := hd
      obtain ⟨rfl, rfl, rfl, rfl⟩ := by simpa [workerStep, hloop] using h
      exact ⟨⟨hloop, hcount⟩, by simp, by simp⟩
  | sleepCas =>
      obtain ⟨hloop, hcount⟩ := hd
      obtain ⟨rfl, rfl, rfl, rfl⟩ := by simpa [workerStep, hloop] using h
      exact ⟨hcount, by simp, by simp⟩
  | sleepWait =>
      obtain ⟨rfl, rfl, rfl, rfl⟩ := by simpa [workerStep] using h
      have hcount : w.notify.signals ≤ w.notify.waits := hd
      refine ⟨trivial, by simp, fun _ => ?_⟩
      simp only [Condex.waiting, Condex.wait]
      omega
  | _ => cases hsleep

namespace Pool

section Segment

variable {xct : α → Option Nat} {s s' : Pool n m r α} {i : Fin n} {act : PoolAction n m r α}

/-- Nobody is about to do anything to worker `i`, which is on its way to sleep. -/
structure Undisturbed (s : Pool n m r α) (i : Fin n) : Prop where
  idle : ∀ k, s.pushers k = .idle
  calm : s.NoneSetsWs
  drowsy : (s.pcs i).Drowsy (s.workers i)

/-- A step of a worker leaves the others alone. -/
theorem workerNext_cases {j : Fin n} (h : s.workerNext xct j = some s') :
    ∃ q' w' pc' ev, workerStep xct s.lock.isNone j s.q (s.workers j) (s.pcs j)
        = some (q', w', pc', ev) ∧ s'.workers = Function.update s.workers j w' ∧
      s'.pcs = Function.update s.pcs j pc' ∧ s'.pushers = s.pushers ∧
      s'.controllers = s.controllers := by
  simp only [workerNext, Option.map_eq_some_iff, Prod.exists] at h
  obtain ⟨q', w', pc', ev, hstep, rfl⟩ := h
  exact ⟨q', w', pc', ev, hstep, by simp, by simp, by simp, by simp⟩

theorem Undisturbed.step (hs : s.Undisturbed i) (hok : Quiet i s act)
    (h : (pool xct n m r).next act s = some s') : s'.Undisturbed i := by
  have hcalm := hs.calm.step hok.called h
  simp only [pool, next] at h
  split at h
  · cases h
  · cases act with
    | worker j =>
        obtain ⟨q', w', pc', ev, hstep, hworkers, hpcs, hpushers, _⟩ := workerNext_cases h
        refine ⟨by rw [hpushers]; exact hs.idle, hcalm, ?_⟩
        rw [hworkers, hpcs]
        by_cases hj : i = j
        · subst hj
          rw [Function.update_self, Function.update_self]
          exact (hs.drowsy.step hok.place hstep).1
        · rw [Function.update_of_ne hj, Function.update_of_ne hj]
          exact hs.drowsy
    | push k a bWake => exact absurd trivial hok.calling
    -- nobody was in `push` when the worker registered
    | pusher k =>
        simp only [pusherNext, hs.idle k] at h
        cases h
    | command c cmd =>
        obtain ⟨_, hpushers, hworkers, hpcs, hctrl⟩ := commandNext_frame h
        exact ⟨by rw [hpushers]; exact hs.idle, hcalm, by rw [hworkers, hpcs]; exact hs.drowsy⟩
    -- every step of a controller belongs to a `stop`, `pause` or `start`
    | controller c => exact absurd (hs.calm c) hok.calling

/-- What registering does. -/
theorem Registers.frame (h : Registers xct i s s') :
    s.lock = none ∧ s'.aborted = none ∧ s'.workers i = s.workers i ∧ s'.pushers = s.pushers ∧
      s'.controllers = s.controllers := by
  obtain ⟨loopcnt, hpc⟩ := h.before
  have hn := h.next
  have hafter := h.after
  simp only [pool, Pool.next] at hn
  split at hn
  · cases hn
  · next habort =>
      simp only [workerNext, hpc, workerStep, Option.map_eq_some_iff] at hn
      obtain ⟨x, hx, rfl⟩ := hn
      split at hx
      · next hfree =>
          split at hx
          · obtain rfl := Option.some.inj hx
            simp at hafter
          · split at hx
            · obtain rfl := Option.some.inj hx
              refine ⟨by simpa using hfree, by simpa [record] using habort, by simp, rfl, rfl⟩
            · obtain rfl := Option.some.inj hx
              simp at hafter
      · cases hx

theorem Undisturbed.of_registers (hs : (pool xct n m r).ReachableBy Called s)
    (h : Registers xct i s s') (hws : (s.workers i).ws = .LOOP)
    (hcount : (s.workers i).notify.signals ≤ (s.workers i).notify.waits) :
    s'.Undisturbed i := by
  obtain ⟨hlock, _, hworker, hpushers, hctrl⟩ := h.frame
  refine ⟨fun k => ?_, ?_, ?_⟩
  · rw [hpushers]
    by_contra hk
    have hheld := (mutex hs.reachable k).mpr hk
    rw [hlock] at hheld
    cases hheld
  · unfold NoneSetsWs
    rw [hctrl]
    exact noneSetsWs hs
  · rw [h.after, hworker]
    exact ⟨hws, hcount⟩

variable (xct i) in
/-- A quiet step of worker `i`, from what it computes. -/
theorem next_of_workerStep (q' : Mrmwqueue n α) (w' : Worker) (pc' : WorkerPc α)
    (habort : s.aborted = none) (h : workerStep xct s.lock.isNone i s.q (s.workers i) (s.pcs i)
      = some (q', w', pc', .quiet)) :
    (pool xct n m r).next (.worker i) s = some { s with
      q := q'
      workers := Function.update s.workers i w'
      pcs := Function.update s.pcs i pc' } := by
  simp [pool, next, habort, workerNext, h, record]

theorem quiet_worker (h : (s.pcs i).toSleep = true) : Quiet i s (.worker i) where
  called := by
    intro c j new_ws
    simp
  calling := id
  place := h

variable (xct) in
/-- The two steps that change the state from `LOOP` to `SLEEP`. -/
theorem exists_sleepWait (habort : s.aborted = none) (hpc : s.pcs i = .sleepRead)
    (hws : (s.workers i).ws = .LOOP) :
    ∃ t, ((pool xct n m r).since s).ReachableBy (Quiet i) t ∧ t.aborted = none ∧
      t.pcs i = .sleepWait ∧ (t.workers i).notify = (s.workers i).notify := by
  have hn₁ := next_of_workerStep xct i s.q (s.workers i) .sleepCas habort
    (by rw [hpc, workerStep, if_pos hws])
  have hr₁ : ((pool xct n m r).since s).ReachableBy (Quiet i) _ :=
    .step (PoolAction.worker i) (.init rfl) (quiet_worker (by rw [hpc]; rfl)) hn₁
  refine ⟨_, .step (PoolAction.worker i) hr₁ (quiet_worker (by simp; rfl)) (next_of_workerStep xct i
    s.q { s.workers i with ws := .SLEEP } .sleepWait habort ?_), habort, by simp, by simp⟩
  simp [workerStep, hws]

end Segment

end Pool

/-- **When a registered worker sleeps.** In every run, for a worker that registers on the empty
queue: unless somebody calls, `condex_sleep` does not return without a sleep, if and only if the
worker registers with the state `LOOP` and without a signal in advance. -/
theorem pop_sleeps_iff {xct : α → Option Nat} {s s' : Pool n m r α} {i : Fin n}
    (hs : (pool xct n m r).ReachableBy Pool.Called s) (hreg : Pool.Registers xct i s s') :
    Pool.SleepsUnlessCalled xct i s' ↔
      (s.workers i).ws = .LOOP ∧ (s.workers i).notify.signals ≤ (s.workers i).notify.waits := by
  obtain ⟨_, habort, hworker, _, _⟩ := hreg.frame
  constructor
  · intro hsleeps
    have hplace : (s'.pcs i).toSleep = true := by rw [hreg.after]; rfl
    have hloop : (s.workers i).ws = .LOOP := by
      by_contra hws
      have hn := Pool.next_of_workerStep xct i s'.q (s'.workers i) .leave habort
        (by rw [hreg.after, hworker, workerStep, if_neg hws])
      exact hsleeps s' _ (.init rfl) hn ⟨hplace, .inl (by simp)⟩
    refine ⟨hloop, ?_⟩
    by_contra hcount
    -- it changes its state to `SLEEP`, and `wait` finds a signal
    obtain ⟨t, ht, haborted, hpc, hnotify⟩ :=
      Pool.exists_sleepWait xct habort hreg.after (by rw [hworker]; exact hloop)
    have hn := Pool.next_of_workerStep xct i t.q _ .sleeping haborted (by rw [hpc, workerStep])
    refine hsleeps t _ ht hn ⟨by rw [hpc]; rfl, .inr ⟨by simp, ?_⟩⟩
    simp only [Function.update_self, Condex.waiting, Condex.wait, hnotify, hworker]
    omega
  · rintro ⟨hws, hcount⟩ t t' ht hn ⟨hplace, hend⟩
    have hund : t.Undisturbed i := by
      refine Machine.ReachableBy.invariant (P := fun t => t.Undisturbed i) ?_ ?_ ht
      · rintro t rfl
        exact .of_registers hs hreg hws hcount
      · intro t act t' _ hund hok hn
        exact hund.step hok hn
    simp only [pool, Pool.next] at hn
    split at hn
    · cases hn
    · obtain ⟨q', w', pc', ev, hstep, hworkers, hpcs, _⟩ := Pool.workerNext_cases hn
      obtain ⟨_, hleave, hwaiting⟩ := hund.drowsy.step hplace hstep
      rw [hpcs, hworkers, Function.update_self, Function.update_self] at hend
      rcases hend with hend | ⟨hend, hnot⟩
      · exact hleave hend
      · exact hnot (hwaiting hend)

/-! ### Two workers and a pusher

Runs up to the registration of the first worker. -/

/-- In a run, the worker is inside `pop` and registers with its next step. -/
theorem exists_registers (run : List (PoolAction 2 1 0 Nat))
    (ok : Pool 2 1 0 Nat → Pool 2 1 0 Nat → Bool)
    (h : ((pool (fun _ => none) 2 1 0).exec run (Pool.start (inputQueue 0) fun _ => .ACTIVE)).any
      (fun s => s.pcs 0 = .pop 0 && (Pool.next (fun _ => none) (.worker 0) s).any fun s' =>
        s'.pcs 0 = .sleepRead && ok s s') = true) :
    ∃ s s', (pool (fun _ => none) 2 1 0).ReachableBy Pool.Called s ∧
      Pool.Registers (fun _ => none) 0 s s' ∧ ok s s' = true := by
  obtain ⟨s, hs, hp⟩ := Machine.Reachable.exists_of_exec
    (M := pool (fun _ => none) 2 1 0)
    (P := fun s => (s.pcs 0 = .pop 0 && (Pool.next (fun _ => none) (.worker 0) s).any fun s' =>
      s'.pcs 0 = .sleepRead && ok s s') = true) run ⟨inputQueue 0, fun _ => .ACTIVE, rfl⟩
    (by simpa only [Bool.decide_eq_true] using h)
  rw [Bool.and_eq_true, decide_eq_true_iff] at hp
  obtain ⟨hpop, hnext⟩ := hp
  cases hn : Pool.next (fun _ => none) (.worker 0) s with
  | none =>
      rw [hn] at hnext
      cases hnext
  | some s' =>
      rw [hn, Option.any_some, Bool.and_eq_true, decide_eq_true_iff] at hnext
      obtain ⟨hafter, hok⟩ := hnext
      -- there are no controllers
      exact ⟨s, s', hs.mono fun _ _ _ c => c.elim0, ⟨⟨0, hpop⟩, hn, hafter⟩, hok⟩

/-- The first worker registers in its first call of `pop`. -/
theorem pop_sleeps_iff_first : ∃ s s' : Pool 2 1 0 Nat,
    (pool (fun _ => none) 2 1 0).ReachableBy Pool.Called s ∧
      Pool.Registers (fun _ => none) 0 s s' ∧
      Pool.SleepsUnlessCalled (fun _ => none) 0 s' := by
  obtain ⟨s, s', hs, hreg, hok⟩ := exists_registers (List.replicate 4 (.worker 0))
    (fun s _ => (s.workers 0).ws = .LOOP && (s.workers 0).notify.signals == 0) (by decide +kernel)
  rw [Bool.and_eq_true, decide_eq_true_iff, beq_iff_eq] at hok
  obtain ⟨hws, hsignals⟩ := hok
  exact ⟨s, s', hs, hreg, (pop_sleeps_iff hs hreg).mpr ⟨hws, by omega⟩⟩

/-- The first worker sleeps, a request is pushed, the second worker takes it; the first one wakes
up and is to register again. -/
def spinRun : List (PoolAction 2 1 0 Nat) :=
  List.replicate 8 (.worker 0) ++ List.replicate 4 (.worker 1) ++ [.push 0 7 false] ++
    List.replicate 4 (.pusher 0) ++ [.worker 1] ++ List.replicate 5 (.worker 0)

/-- It registers, and its next step leaves `condex_sleep`. -/
theorem pop_spins : ∃ s s' : Pool 2 1 0 Nat,
    (pool (fun _ => none) 2 1 0).ReachableBy Pool.Called s ∧
      Pool.Registers (fun _ => none) 0 s s' ∧
      ¬ Pool.SleepsUnlessCalled (fun _ => none) 0 s' := by
  obtain ⟨s, s', hs, hreg, hok⟩ := exists_registers spinRun
    (fun _ s' => (Pool.next (fun _ => none) (.worker 0) s').any fun t => t.pcs 0 = .leave)
    (by decide +kernel)
  refine ⟨s, s', hs, hreg, fun hsleeps => ?_⟩
  rw [Option.any_eq_true] at hok
  obtain ⟨t, hn, hleave⟩ := hok
  exact hsleeps s' t (.init rfl) hn ⟨by rw [hreg.after]; rfl, .inl (by simpa using hleave)⟩

end TailBench.Shore
