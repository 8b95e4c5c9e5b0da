import Mathlib.Logic.Function.Basic
import Mathlib.Tactic.Basic

set_option autoImplicit false

/-! # Worker threads of the storage manager

`base_worker_t` (`sm/shore/shore_worker.h`), which the workers of the transaction benchmark
derive from: its status variables, the condition variable it sleeps on (`util/condex.h`) and
`set_ws`, with which the worker and other threads change its working state. `set_ws` takes no
lock: it reads `_ws`, and swaps it in by compare-and-swap until nobody was in between.

Counters of the statistics and the pointer to the environment are left out. A condex is waited on
and signalled fewer than `2 ^ 63` times: its counters are `long`s.
-/

namespace TailBench.Shore

/-- `eWorkerControl`. -/
inductive WorkerControl where
  | PAUSED
  | ACTIVE
  | STOPPED
  | RECOVERY
  deriving DecidableEq, Repr

/-- `eWorkingState`. -/
inductive WorkingState where
  | UNDEF
  | LOOP
  | SLEEP
  | COMMIT_Q
  | INPUT_Q
  | FINISHED
  deriving DecidableEq, Repr

/-- `condex`: a condition variable that counts. -/
structure Condex where
  signals : Nat := 0
  waits : Nat := 0
  deriving DecidableEq, Repr

namespace Condex

def signal (c : Condex) : Condex := { c with signals := c.signals + 1 }

/-- The beginning of `wait`. -/
def wait (c : Condex) : Condex := { c with waits := c.waits + 1 }

/-- The loop of `wait` goes on: the thread is, or goes back, to sleep. -/
def waiting (c : Condex) : Prop := c.waits > c.signals

instance (c : Condex) : Decidable c.waiting := inferInstanceAs (Decidable (c.waits > c.signals))

end Condex

/-- The variables of a worker that other threads see. -/
structure Worker where
  control : WorkerControl
  ws : WorkingState := .UNDEF
  notify : Condex := {}
  deriving DecidableEq, Repr

/-! ## `set_ws` -/

/-- The place of a thread inside `set_ws`. -/
inductive SetWsPc where
  | read
  | cas (old_ws : WorkingState)
  | condex_wakeup
  deriving DecidableEq, Repr

/-- The head of the loop of `set_ws(new_ws)`; `none` when it returns. -/
def SetWsPc.loop (new_ws old_ws : WorkingState) : Option SetWsPc :=
  if old_ws = new_ws then none
  -- a worker that was told to commit is not told anything else
  else if old_ws = .COMMIT_Q ∧ new_ws ≠ .LOOP then none
  else some (.cas old_ws)

/-- One step of `set_ws(new_ws)` on a worker; `none` when it returns. -/
def set_wsStep (new_ws : WorkingState) (w : Worker) : SetWsPc → Worker × Option SetWsPc
  | .read => (w, SetWsPc.loop new_ws w.ws)
  | .cas old_ws =>
      if w.ws = old_ws then
        ({ w with ws := new_ws },
          if old_ws = .SLEEP ∧ new_ws ≠ .SLEEP then some .condex_wakeup else none)
      else (w, SetWsPc.loop new_ws w.ws)
  | .condex_wakeup => ({ w with notify := w.notify.signal }, none)

def Worker.is_sleeping (w : Worker) : Bool := w.ws = .SLEEP

/-! ## `set_control` -/

/-- The tests of `set_control(awc)`, each with a reading of `_control` of its own. -/
def set_controlTest (awc : WorkerControl) (control : WorkerControl) : Nat → Bool
  | 0 => control = .PAUSED ∧ (awc = .ACTIVE ∨ awc = .STOPPED)
  | 1 => control = .ACTIVE ∧ (awc = .PAUSED ∨ awc = .STOPPED)
  | _ => control = .RECOVERY ∨ awc = .RECOVERY

end TailBench.Shore
