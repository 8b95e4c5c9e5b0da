import TailBench.Shore.PoolSteps

set_option autoImplicit false

/-! # A worker that stays active

The places inside `pop`, when a worker is blocked there, and what a step can do while `_control`
stays `ACTIVE` and the queue is set up by `trx_worker_t::init` (`ActiveMove`). What it does to
the counters of the condex is read off in `ActiveMove.count`, and what it does to the workers
inside `pop` and to those that are not blocked in `ActiveMove.weight`.
-/

namespace TailBench.Shore

open Lib

variable {n m r : Nat} {α : Type}

/-! ## Inside `pop` -/

namespace WorkerPc

/-- Between the call of `pop` and its return. -/
def inPop : WorkerPc α → Bool
  | .pop _ | .sleepRead | .sleepCas | .sleepWait | .sleeping | .leave | .checkControl _
  | .setFinished _ | .canContinue _ | .canMine _ _ | .canLoop _ => true
  | _ => false

/-- The worker sleeps, or it will unless somebody wakes it: it is registered with `_ws` still
`LOOP`, or its `wait` does not return with the signals there are. -/
def blocked (w : Worker) : WorkerPc α → Bool
  | .sleepRead | .sleepCas => w.ws = .LOOP
  | .sleepWait => w.notify.wait.waiting
  | .sleeping => w.notify.waiting
  | _ => false

/-- The working states a worker that stays `ACTIVE` has at a place. -/
def Place (ws : WorkingState) : WorkerPc α → Prop
  | .switch | .active | .serve _ | .setLoop .read | .setLoop (.cas _) => ws ≠ .SLEEP
  | .pop _ | .checkControl _ | .canContinue _ | .sleepRead | .sleepCas =>
      ws = .LOOP ∨ ws = .INPUT_Q
  | .canMine _ my_ws => (ws = .LOOP ∨ ws = .INPUT_Q) ∧ my_ws = .INPUT_Q
  | .canLoop _ => ws = .LOOP
  | .sleepWait | .sleeping => ws = .SLEEP ∨ ws = .INPUT_Q
  | .leave => ws = .INPUT_Q
  | .setLoop .condex_wakeup | .paused | .setFinished _ | .preStop | .stopped => False

/-- The state was changed to `SLEEP`, and `_waits` was not raised. -/
def entering : WorkerPc α → Nat
  | .sleepWait => 1
  | _ => 0

theorem place_input {pc : WorkerPc α} (h : pc.registered = true) : pc.Place .INPUT_Q := by
  cases pc <;> simp_all [registered, Place]

theorem inPop_of_registered {pc : WorkerPc α} (h : pc.registered = true) : pc.inPop = true := by
  cases pc <;> simp_all [registered, inPop]

theorem not_blocked_of_unregistered {pc : WorkerPc α} (h : pc.registered = false) (w : Worker) :
    pc.blocked w = false := by
  cases pc <;> simp_all [registered, blocked]

theorem entering_of_unregistered {pc : WorkerPc α} (h : pc.registered = false) :
    pc.entering = 0 := by
  cases pc <;> simp_all [registered, entering]

theorem unregistered_of_outside {pc : WorkerPc α} (h : pc.inPop = false) :
    pc.registered = false := by
  cases pc <;> simp_all [registered, inPop]

theorem sleepWait_not_blocked (w : Worker) :
    (sleepWait : WorkerPc α).blocked w = false ↔ w.notify.waits + 1 ≤ w.notify.signals := by
  simp [blocked, Condex.waiting, Condex.wait]

theorem sleeping_not_blocked (w : Worker) :
    (sleeping : WorkerPc α).blocked w = false ↔ w.notify.waits ≤ w.notify.signals := by
  simp [blocked, Condex.waiting]

end WorkerPc

/-- The worker counts as asleep for its condex. -/
def WorkingState.asleep (ws : WorkingState) : Nat := if ws = .SLEEP then 1 else 0

/-! ## Steps of a worker -/

/-- A step of a worker that stays `ACTIVE`. -/
inductive ActiveMove (free : Bool) (i : Fin n) (q : Mrmwqueue n α) (w : Worker) :
    WorkerPc α → Mrmwqueue n α → Worker → WorkerPc α → Prop where
  | outside {pc pc' : WorkerPc α} {ws : WorkingState} : pc.inPop = false → pc'.inPop = false →
      pc'.Place ws → w.ws ≠ .SLEEP → ws ≠ .SLEEP →
      ActiveMove free i q w pc q { w with ws := ws } pc'
  | enter {spc : SetWsPc} : w.ws ≠ .SLEEP →
      ActiveMove free i q w (.setLoop spc) q { w with ws := .LOOP } (.pop 0)
  | take {loopcnt : Int} {a : α} {rest : List α} : free = true → q.queue = a :: rest →
      w.ws ≠ .SLEEP →
      ActiveMove free i q w (.pop loopcnt) { q with queue := rest } w (.serve a)
  | enroll {loopcnt : Int} : free = true → q.queue = [] → w.ws = .LOOP ∨ w.ws = .INPUT_Q →
      ActiveMove free i q w (.pop loopcnt) { q with waiters := q.waiters ++ [i] } w .sleepRead
  | spin {pc pc' : WorkerPc α} : pc.inPop = true → pc'.inPop = true →
      pc.registered = false → pc'.registered = false → pc'.Place w.ws →
      ActiveMove free i q w pc q w pc'
  | read : w.ws = .LOOP → ActiveMove free i q w .sleepRead q w .sleepCas
  | stay {pc : WorkerPc α} : pc = .sleepRead ∨ pc = .sleepCas → w.ws = .INPUT_Q →
      ActiveMove free i q w pc q w .leave
  | sleep : w.ws = .LOOP →
      ActiveMove free i q w .sleepCas q { w with ws := .SLEEP } .sleepWait
  | wait : w.ws = .SLEEP ∨ w.ws = .INPUT_Q →
      ActiveMove free i q w .sleepWait q { w with notify := w.notify.wait } .sleeping
  | wakeUp : ¬ w.notify.waiting → ActiveMove free i q w .sleeping q w .leave
  | leave : free = true → w.ws = .INPUT_Q →
      ActiveMove free i q w .leave { q with waiters := q.waiters.erase i } w (.checkControl 0)

section Worker

variable {xct : α → Option Nat} {free : Bool} {i : Fin n} {q q' : Mrmwqueue n α} {w w' : Worker}
  {pc pc' : WorkerPc α} {ev : WorkerEvent α}

/-- A step outside `pop` that keeps the variables of the worker. -/
theorem ActiveMove.goto (hpc : pc.inPop = false) (hpc' : pc'.inPop = false)
    (hplace : pc'.Place w.ws) (hws : w.ws ≠ .SLEEP) : ActiveMove free i q w pc q w pc' :=
  .outside hpc hpc' hplace hws hws

theorem workerStep_activeMove (h : workerStep xct free i q w pc = some (q', w', pc', ev))
    (hcontrol : w.control = .ACTIVE) (hmy : q.my_ws = .INPUT_Q) (hplace : pc.Place w.ws) :
    ActiveMove free i q w pc q' w' pc' := by
  cases pc with
  | switch =>
      obtain ⟨rfl, rfl, rfl, rfl⟩ := by simpa [workerStep, hcontrol] using h
      exact .goto rfl rfl hplace hplace
  | paused => exact hplace.elim
  | active =>
      obtain ⟨rfl, rfl, rfl, rfl⟩ := by simpa [workerStep, hcontrol] using h
      exact .goto rfl rfl hplace hplace
  | setLoop spc =>
      -- nobody but the worker itself puts it to sleep, and it is not in `pop`
      have hws : w.ws ≠ .SLEEP := by
        cases spc with
        | read => exact hplace
        | cas old_ws => exact hplace
        | condex_wakeup => exact hplace.elim
      simp only [workerStep] at h
      have hmove := set_wsStep_move .LOOP w spc
      generalize hset : set_wsStep .LOOP w spc = x at h hmove
      rcases x with ⟨w₁, next⟩
      simp only at hmove
      cases hmove with
      | done hpc hdone =>
          obtain ⟨rfl, rfl, rfl, rfl⟩ := by simpa using h
          -- the state was `LOOP` before: this is an `enter` that writes nothing new
          have hloop : w.ws = .LOOP := by simpa using hdone
          have henter : ActiveMove free i q w (.setLoop spc) q { w with ws := .LOOP } (.pop 0) :=
            .enter hws
          rwa [← hloop] at henter
      | again hpc hne =>
          obtain ⟨rfl, rfl, rfl, rfl⟩ := by simpa using h
          exact .goto rfl rfl hws hws
      | swap hold hnot =>
          obtain ⟨rfl, rfl, rfl, rfl⟩ := by simpa using h
          exact .enter hws
      | wake hold hnot => exact absurd hold hws
      | signal => exact hplace.elim
  | pop loopcnt =>
      have hws : w.ws ≠ .SLEEP := by rcases hplace with hws | hws <;> simp [hws]
      simp only [workerStep] at h
      split at h
      · next hfree =>
          split at h
          · next a rest hqueue =>
              obtain ⟨rfl, rfl, rfl, rfl⟩ := by simpa using h
              exact .take hfree hqueue hws
          · next hqueue =>
              split at h <;> obtain ⟨rfl, rfl, rfl, rfl⟩ := by simpa using h
              · exact .enroll hfree hqueue hplace
              · exact .spin rfl rfl rfl rfl hplace
      · cases h
  | sleepRead =>
      obtain ⟨rfl, rfl, rfl, rfl⟩ := by simpa [workerStep] using h
      rcases hplace with hws | hws
      · simpa [hws] using ActiveMove.read hws
      · simpa [hws] using ActiveMove.stay (.inl rfl) hws
  | sleepCas =>
      rcases hplace with hws | hws <;>
        obtain ⟨rfl, rfl, rfl, rfl⟩ := by simpa [workerStep, hws] using h
      · exact .sleep hws
      · exact .stay (.inr rfl) hws
  | sleepWait =>
      obtain ⟨rfl, rfl, rfl, rfl⟩ := by simpa [workerStep] using h
      exact .wait hplace
  | sleeping =>
      simp only [workerStep] at h
      split at h
      · cases h
      · next hwaiting =>
          obtain ⟨rfl, rfl, rfl, rfl⟩ := by simpa using h
          exact .wakeUp hwaiting
  | leave =>
      simp only [workerStep] at h
      split at h
      · next hfree =>
          obtain ⟨rfl, rfl, rfl, rfl⟩ := by simpa using h
          exact .leave hfree hplace
      · cases h
  | checkControl loopcnt =>
      obtain ⟨rfl, rfl, rfl, rfl⟩ := by simpa [workerStep, hcontrol] using h
      exact .spin rfl rfl rfl rfl hplace
  | setFinished spc => exact hplace.elim
  | canContinue loopcnt =>
      obtain ⟨rfl, rfl, rfl, rfl⟩ := by simpa [workerStep] using h
      exact .spin rfl rfl rfl rfl ⟨hplace, hmy⟩
  -- `can_continue` holds: the state of the worker is that of its queue, or `LOOP`
  | canMine loopcnt my_ws =>
      rcases hplace with ⟨hws, rfl⟩
      rcases hws with hws | hws <;>
        obtain ⟨rfl, rfl, rfl, rfl⟩ := by simpa [workerStep, hws] using h
      · exact .spin rfl rfl rfl rfl hws
      · exact .spin rfl rfl rfl rfl (.inr hws)
  | canLoop loopcnt =>
      have hws : w.ws = .LOOP := hplace
      obtain ⟨rfl, rfl, rfl, rfl⟩ := by simpa [workerStep, hws] using h
      exact .spin rfl rfl rfl rfl (.inl hws)
  | serve a =>
      obtain ⟨rfl, rfl, rfl, rfl⟩ := by simpa [workerStep] using h
      exact .goto rfl rfl hplace hplace
  | preStop => exact hplace.elim
  | stopped => exact hplace.elim

/-- How far a worker has waited and was signalled, with its place and its state. -/
theorem ActiveMove.count (h : ActiveMove free i q w pc q' w' pc') :
    w'.notify.waits + pc'.entering + (w.notify.signals + w.ws.asleep) =
      w.notify.waits + pc.entering + (w'.notify.signals + w'.ws.asleep) := by
  cases h with
  | outside hpc hpc' _ hws hws' =>
      simp [WorkerPc.entering_of_unregistered (WorkerPc.unregistered_of_outside hpc),
        WorkerPc.entering_of_unregistered (WorkerPc.unregistered_of_outside hpc'),
        WorkingState.asleep, hws, hws']
  | enter hws => simp [WorkerPc.entering, WorkingState.asleep, hws]
  | take _ _ _ => simp [WorkerPc.entering]
  | enroll _ _ _ => simp [WorkerPc.entering]
  | spin _ _ hreg hreg' _ =>
      simp [WorkerPc.entering_of_unregistered hreg, WorkerPc.entering_of_unregistered hreg']
  | read _ => simp [WorkerPc.entering]
  | stay hpc _ => rcases hpc with rfl | rfl <;> simp [WorkerPc.entering]
  | sleep hws =>
      simp only [WorkerPc.entering, WorkingState.asleep, hws, reduceCtorEq, if_true, if_false]
      omega
  | wait _ => simp only [WorkerPc.entering, Condex.wait]
  | wakeUp _ => simp [WorkerPc.entering]
  | leave _ _ => simp [WorkerPc.entering]

theorem ActiveMove.control (h : ActiveMove free i q w pc q' w' pc') : w'.control = w.control := by
  cases h <;> rfl

/-- The set-up of the queue stays. -/
theorem ActiveMove.setup (h : ActiveMove free i q w pc q' w' pc') :
    q'.my_ws = q.my_ws ∧ q'.thres = q.thres := by
  cases h <;> exact ⟨rfl, rfl⟩

/-- While somebody is in a critical section, content and waiters stay. -/
theorem ActiveMove.locked (h : ActiveMove false i q w pc q' w' pc') :
    q'.queue = q.queue ∧ q'.waiters = q.waiters := by
  cases h with
  | take hfree _ _ => cases hfree
  | enroll hfree _ _ => cases hfree
  | leave hfree _ => cases hfree
  | _ => exact ⟨rfl, rfl⟩

/-- The places stay right if a worker whose `wait` returns is in the state `INPUT_Q`. -/
theorem ActiveMove.place (h : ActiveMove free i q w pc q' w' pc')
    (hwoken : pc = .sleeping → ¬ w.notify.waiting → w.ws = .INPUT_Q) : pc'.Place w'.ws := by
  cases h with
  | outside _ _ hplace _ _ => exact hplace
  | enter _ => exact .inl rfl
  | take _ _ hws => exact hws
  | enroll _ _ hws => exact hws
  | spin _ _ _ _ hplace => exact hplace
  | read hws => exact .inl hws
  | stay _ hws => exact hws
  | sleep _ => exact .inl rfl
  | wait hws => exact hws
  | wakeUp hwaiting => exact hwoken rfl hwaiting
  | leave _ hws => exact .inr hws

/-- A registered worker that was told to look into the queue stays so. -/
theorem ActiveMove.input (h : ActiveMove free i q w pc q' w' pc') (hreg : pc.registered = true)
    (hws : w.ws = .INPUT_Q) : w'.ws = .INPUT_Q := by
  cases h with
  | outside hpc _ _ _ _ =>
      rw [WorkerPc.unregistered_of_outside hpc] at hreg
      cases hreg
  | enter _ => cases hreg
  | sleep hloop =>
      rw [hws] at hloop
      cases hloop
  | _ => exact hws

/-- A worker that is not blocked stays so, unless it registers. -/
theorem ActiveMove.awake (h : ActiveMove free i q w pc q' w' pc')
    (hqueue : free = true → q.queue ≠ []) (hawake : pc.blocked w = false) :
    pc'.blocked w' = false := by
  cases h with
  | outside _ hpc' _ _ _ =>
      exact WorkerPc.not_blocked_of_unregistered (WorkerPc.unregistered_of_outside hpc') _
  | spin _ _ _ hreg' _ => exact WorkerPc.not_blocked_of_unregistered hreg' _
  -- a worker registers with the queue empty only
  | enroll hfree hempty _ => exact absurd hempty (hqueue hfree)
  | read hws => simp [WorkerPc.blocked, hws] at hawake
  | sleep hws => simp [WorkerPc.blocked, hws] at hawake
  | wait _ => exact hawake
  | _ => rfl

/-- The worker is inside `pop`. -/
def popWeight (x : Worker × WorkerPc α) : Nat := if x.2.inPop = true then 1 else 0

/-- The worker is inside `pop` and not blocked. -/
def awakeWeight (x : Worker × WorkerPc α) : Nat :=
  if x.2.inPop = true ∧ x.2.blocked x.1 = false then 1 else 0

/-- A worker that is inside `pop` stays there, and one that is not blocked stays so. -/
theorem weight_le (hstay : pc.inPop = true → pc'.inPop = true)
    (hawake : pc.blocked w = false → pc'.blocked w' = false) :
    awakeWeight (w, pc) ≤ awakeWeight (w', pc') ∧
      popWeight (w', pc') + awakeWeight (w, pc) ≤ popWeight (w, pc) + awakeWeight (w', pc') := by
  unfold awakeWeight popWeight
  by_cases hpc : pc.inPop = true
  · by_cases hblocked : pc.blocked w = false
    · simp [hpc, hblocked, hstay hpc, hawake hblocked]
    · simp [hpc, hblocked, hstay hpc]
  · have hreg : pc.registered = false := WorkerPc.unregistered_of_outside (by simpa using hpc)
    have hfree := hawake (WorkerPc.not_blocked_of_unregistered hreg w)
    by_cases hpc' : pc'.inPop = true <;> simp [hpc, hpc', hfree]

/-- A worker takes a request and leaves `pop` with it, or it registers with the queue empty, or
the number of workers that are not blocked grows at least as that of those inside `pop`. -/
theorem ActiveMove.weight (h : ActiveMove free i q w pc q' w' pc') :
    (free = true ∧ q.queue.length = q'.queue.length + 1 ∧
      popWeight (w, pc) = 1 ∧ awakeWeight (w, pc) = 1 ∧
      popWeight (w', pc') = 0 ∧ awakeWeight (w', pc') = 0) ∨
    (q.queue.length = 0 ∧ q'.queue.length = 0) ∨
    (q'.queue.length = q.queue.length ∧ awakeWeight (w, pc) ≤ awakeWeight (w', pc') ∧
      popWeight (w', pc') + awakeWeight (w, pc) ≤ popWeight (w, pc) + awakeWeight (w', pc')) := by
  by_cases hempty : q.queue = [] ∧ q'.queue = []
  · exact .inr (.inl (by simp [hempty]))
  -- from here on the queue is not empty on both sides, so nobody registers
  have hawake : q'.queue = q.queue → pc.blocked w = false → pc'.blocked w' = false := by
    intro hsame
    exact h.awake fun _ hnil => hempty ⟨hnil, by rw [hsame, hnil]⟩
  cases h with
  | take hfree hqueue _ => exact .inl ⟨hfree, by simp [hqueue], rfl, rfl, rfl, rfl⟩
  | outside hpc _ _ _ _ =>
      refine .inr (.inr ⟨rfl, weight_le (fun hin => ?_) (hawake rfl)⟩)
      rw [hpc] at hin
      cases hin
  | spin _ hpc' _ _ _ => exact .inr (.inr ⟨rfl, weight_le (fun _ => hpc') (hawake rfl)⟩)
  | _ => exact .inr (.inr ⟨rfl, weight_le (fun _ => rfl) (hawake rfl)⟩)

end Worker

/-! ## `set_ws(WS_INPUT_Q)` on a registered worker -/

section Wake

variable {w w' : Worker} {pc : SetWsPc} {next : Option SetWsPc} {wpc : WorkerPc α}

theorem SetWsMove.ws (h : SetWsMove .INPUT_Q w pc w' next) : w'.ws = w.ws ∨ w'.ws = .INPUT_Q := by
  cases h with
  | swap _ _ => exact .inr rfl
  | wake _ _ => exact .inr rfl
  | _ => exact .inl rfl

theorem SetWsMove.control {new_ws : WorkingState} (h : SetWsMove new_ws w pc w' next) :
    w'.control = w.control := by
  cases h <;> rfl

/-- Nobody falls asleep by it. -/
theorem SetWsMove.awake (h : SetWsMove .INPUT_Q w pc w' next) (hawake : wpc.blocked w = false) :
    wpc.blocked w' = false := by
  cases h with
  | done _ _ => exact hawake
  | again _ _ => exact hawake
  | swap _ _ => cases wpc <;> simp_all [WorkerPc.blocked]
  | wake _ _ => cases wpc <;> simp_all [WorkerPc.blocked]
  | signal =>
      cases wpc with
      | sleepWait =>
          rw [WorkerPc.sleepWait_not_blocked] at hawake ⊢
          exact Nat.le_succ_of_le hawake
      | sleeping =>
          rw [WorkerPc.sleeping_not_blocked] at hawake ⊢
          exact Nat.le_succ_of_le hawake
      | _ => exact hawake

theorem SetWsMove.place (h : SetWsMove .INPUT_Q w pc w' next) (hreg : wpc.registered = true)
    (hplace : wpc.Place w.ws) : wpc.Place w'.ws := by
  rcases h.ws with hws | hws
  · rw [hws]
    exact hplace
  · rw [hws]
    exact WorkerPc.place_input hreg

/-- The counters after a step that does not leave a signal to be sent. -/
theorem SetWsMove.settled {e : Nat} (h : SetWsMove .INPUT_Q w pc w' next)
    (hsettled : pc ≠ .condex_wakeup → w.notify.waits + e = w.notify.signals + w.ws.asleep)
    (hsig : pc = .condex_wakeup →
      w.ws = .INPUT_Q ∧ w.notify.waits + e = w.notify.signals + 1)
    (hnext : next ≠ some .condex_wakeup) :
    w'.notify.waits + e = w'.notify.signals + w'.ws.asleep := by
  cases h with
  | done hpc _ => exact hsettled hpc
  | again hpc _ => exact hsettled hpc
  -- `SLEEP` would have taken the other branch, so no sleep is counted before or after
  | swap hold hnot =>
      have hcount := hsettled (by simp)
      have hws : w.ws ≠ .SLEEP := by
        intro hsleep
        exact hnot ⟨hold ▸ hsleep, by simp⟩
      simpa [WorkingState.asleep, hws] using hcount
  | wake _ _ => exact absurd rfl hnext
  | signal =>
      rcases hsig rfl with ⟨hinput, hcount⟩
      simpa [WorkingState.asleep, hinput, Condex.signal] using hcount

/-- The counters after a step that leaves a signal to be sent. -/
theorem SetWsMove.signalling {e : Nat} (h : SetWsMove .INPUT_Q w pc w' (some .condex_wakeup))
    (hsettled : pc ≠ .condex_wakeup → w.notify.waits + e = w.notify.signals + w.ws.asleep) :
    w'.ws = .INPUT_Q ∧ w'.notify.waits + e = w'.notify.signals + 1 := by
  cases h with
  | wake hold _ =>
      have hcount := hsettled (by simp)
      exact ⟨rfl, by simpa [WorkingState.asleep, hold] using hcount⟩

/-- The state after the last step. -/
theorem SetWsMove.input (h : SetWsMove .INPUT_Q w pc w' none) (hcommit : w.ws ≠ .COMMIT_Q)
    (hsig : pc = .condex_wakeup → w.ws = .INPUT_Q) : w'.ws = .INPUT_Q := by
  cases h with
  | done _ hdone =>
      rcases hdone with hws | ⟨hws, _⟩
      · exact hws
      · exact absurd hws hcommit
  | swap _ _ => rfl
  | signal => exact hsig rfl

end Wake

end TailBench.Shore
