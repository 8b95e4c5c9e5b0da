import TailBench.Lib.Machine
import Mathlib.Logic.Function.Basic

set_option autoImplicit false

/-! # The worker loop of silo

`bench_worker::run` (`silo/benchmarks/bench.cc`) from its `while` on. The harness is seen through
the two calls the loop makes, `tBenchRecvReq` and `tBenchSendResp`; what a transaction returns is
open, and another thread may set `running` to false at any time. The timer and the spinning
before a retry change nothing that the loop reads and are left out.

A transaction that aborts is run again only if `retry_aborted_transaction` is set and `running`
still holds. Otherwise the loop goes on without a response: the request stays open while the
worker receives the next one or returns (`run_answers`).
-/

namespace TailBench.Silo

open Lib

inductive RunMode where
  | RUNMODE_TIME
  | RUNMODE_OPS
  deriving DecidableEq, Repr

/-- The globals of `bench.cc` that do not change during a run. -/
structure Options where
  run_mode : RunMode := .RUNMODE_TIME
  ops_per_worker : UInt64 := 0
  retry_aborted_transaction : Bool := false
  backoff_aborted_transaction : Bool := false
  deriving DecidableEq, Repr

/-- The calls of the harness, with the type of the request and `resp.success`. -/
inductive Event where
  | tBenchRecvReq (type : Nat)
  | tBenchSendResp (success : Bool)
  deriving DecidableEq, Repr

/-- The place of the worker. -/
inductive Pc where
  /-- At the condition of the loop. -/
  | loop
  | recvReq
  /-- At the label `retry`. -/
  | retry (type : Nat)
  | sendResp (type : Nat) (size : Int)
  /-- After an abort, before `retry_aborted_transaction && running`. -/
  | aborted (type : Nat) (old_seed : UInt64) (size : Int)
  /-- At the end of the body. -/
  | counts (type : Nat) (size : Int)
  | returned
  deriving DecidableEq, Repr

structure BenchWorker where
  running : Bool := true
  ntxn_commits : UInt64 := 0
  ntxn_aborts : UInt64 := 0
  backoff_shifts : Nat := 0
  size_delta : Int := 0
  txn_counts : Nat → UInt64 := fun _ => 0
  /-- The seed of the generator `r`. -/
  seed : UInt64
  pc : Pc := .loop
  /-- History: the calls of the harness. -/
  log : List Event := []

/-- What a step takes from outside. -/
inductive Input where
  | tau
  | request (type : Nat)
  /-- The transaction returns `ret`, and leaves the generator with a seed. -/
  | ret (committed : Bool) (size : Int) (seed : UInt64)
  deriving DecidableEq, Repr

inductive Action where
  | worker (inp : Input)
  /-- Another thread sets `running` to false. -/
  | stop
  deriving DecidableEq, Repr

namespace BenchWorker

/-- One step of the worker. -/
def step (opts : Options) (s : BenchWorker) : Pc → Input → Option BenchWorker
  | .loop, .tau =>
      some { s with
        pc := if s.running = true ∧
            (opts.run_mode ≠ .RUNMODE_OPS ∨ s.ntxn_commits < opts.ops_per_worker)
          then .recvReq else .returned }
  | .recvReq, .request type =>
      some { s with pc := .retry type, log := s.log ++ [.tBenchRecvReq type] }
  | .retry type, .ret committed size seed =>
      if committed then
        some { s with
          ntxn_commits := s.ntxn_commits + 1
          backoff_shifts := s.backoff_shifts / 2
          seed := seed
          pc := .sendResp type size }
      else
        some { s with
          ntxn_aborts := s.ntxn_aborts + 1
          seed := seed
          pc := .aborted type s.seed size }
  | .sendResp type size, .tau =>
      some { s with pc := .counts type size, log := s.log ++ [.tBenchSendResp true] }
  | .aborted type old_seed size, .tau =>
      if opts.retry_aborted_transaction = true ∧ s.running = true then
        some { s with
          backoff_shifts :=
            if opts.backoff_aborted_transaction = true ∧ s.backoff_shifts < 63
            then s.backoff_shifts + 1 else s.backoff_shifts
          seed := old_seed
          pc := .retry type }
      -- no response on this way
      else some { s with pc := .counts type size }
  | .counts type size, .tau =>
      some { s with
        size_delta := s.size_delta + size
        txn_counts := Function.update s.txn_counts type (s.txn_counts type + 1)
        pc := .loop }
  | _, _ => none

def next (opts : Options) : Action → BenchWorker → Option BenchWorker
  | .worker inp, s => s.step opts s.pc inp
  | .stop, s => some { s with running := false }

end BenchWorker

/-- A worker with any seed. -/
def benchWorker (opts : Options) : Machine BenchWorker Action where
  init s := ∃ seed, s = { seed := seed }
  next := BenchWorker.next opts

/-! ## What a step can do -/

/-- The worker has received a request and is to answer it. -/
def Pc.busy : Pc → Bool
  | .retry _ | .sendResp _ _ | .aborted _ _ _ => true
  | _ => false

/-- The steps, up to the counters. -/
inductive Move (opts : Options) (s s' : BenchWorker) : Action → Prop
  | quiet {a : Action} : s'.log = s.log → s'.pc.busy = s.pc.busy →
      (s.pc = .returned → s'.pc = .returned) → Move opts s s' a
  | recv {a : Action} (type : Nat) : s.pc = .recvReq → s'.pc = .retry type →
      s'.log = s.log ++ [.tBenchRecvReq type] → Move opts s s' a
  | send {a : Action} (type : Nat) (size : Int) : s.pc = .sendResp type size →
      s'.pc = .counts type size → s'.log = s.log ++ [.tBenchSendResp true] → Move opts s s' a
  | giveUp {inp : Input} (type : Nat) (old_seed : UInt64) (size : Int) :
      s.pc = .aborted type old_seed size →
      ¬ (opts.retry_aborted_transaction = true ∧ s.running = true) →
      s'.pc = .counts type size → s'.log = s.log → Move opts s s' (.worker inp)

section Steps

variable {opts : Options} {s s' : BenchWorker}

theorem BenchWorker.step_move {pc : Pc} {inp : Input} (hpc : s.pc = pc)
    (h : s.step opts pc inp = some s') : Move opts s s' (.worker inp) := by
  cases pc with
  | loop =>
      cases inp with
      | tau =>
          cases h
          refine .quiet rfl ?_ (by rw [hpc]; nofun)
          rw [hpc]
          dsimp only
          split <;> rfl
      | _ => cases h
  | recvReq =>
      cases inp with
      | request type =>
          cases h
          exact .recv type hpc rfl rfl
      | _ => cases h
  | retry type =>
      cases inp with
      | ret committed size seed =>
          simp only [BenchWorker.step] at h
          split at h
          · cases h
            exact .quiet rfl (by rw [hpc]; rfl) (by rw [hpc]; nofun)
          · cases h
            exact .quiet rfl (by rw [hpc]; rfl) (by rw [hpc]; nofun)
      | _ => cases h
  | sendResp type size =>
      cases inp with
      | tau =>
          cases h
          exact .send type size hpc rfl rfl
      | _ => cases h
  | aborted type old_seed size =>
      cases inp with
      | tau =>
          simp only [BenchWorker.step] at h
          split at h
          · cases h
            exact .quiet rfl (by rw [hpc]; rfl) (by rw [hpc]; nofun)
          · next hnot =>
              cases h
              exact .giveUp type old_seed size hpc hnot rfl rfl
      | _ => cases h
  | counts type size =>
      cases inp with
      | tau =>
          cases h
          exact .quiet rfl (by rw [hpc]; rfl) (by rw [hpc]; nofun)
      | _ => cases h
  | returned => cases h

theorem BenchWorker.next_move {a : Action} (h : s.next opts a = some s') : Move opts s s' a := by
  cases a with
  | worker inp => exact step_move rfl h
  | stop =>
      cases h
      exact .quiet rfl rfl id

end Steps

/-! ## Requests and responses -/

/-- What the calls made so far come to. -/
inductive Standing where
  /-- Every request has had one response, before the next request. -/
  | answered
  /-- So has every request but the last, which has had none. -/
  | waiting
  | broken
  deriving DecidableEq, Repr

def Standing.next : Standing → Event → Standing
  | .answered, .tBenchRecvReq _ => .waiting
  | .waiting, .tBenchSendResp _ => .answered
  | _, _ => .broken

def standing (log : List Event) : Standing := log.foldl Standing.next .answered

theorem standing_append (log : List Event) (e : Event) :
    standing (log ++ [e]) = (standing log).next e := by
  simp [standing]

/-- Exactly one response for each request, before the next request or before returning. -/
def Answers (s : BenchWorker) : Prop :=
  standing s.log ≠ .broken ∧ (s.pc = .returned → standing s.log = .answered)

instance (s : BenchWorker) : Decidable (Answers s) :=
  inferInstanceAs (Decidable (_ ∧ (_ → _)))

/-- A worker that is past an abort will run the transaction again. -/
def Retried (opts : Options) (s : BenchWorker) : Action → Prop
  | .stop => True
  | .worker _ => ∀ type old_seed size, s.pc = .aborted type old_seed size →
      opts.retry_aborted_transaction = true ∧ s.running = true

/-- The test that the loop makes after an abort, as a guard for concrete runs. -/
def retries (opts : Options) (s : BenchWorker) : Action → Bool
  | .stop => true
  | .worker _ =>
      match s.pc with
      | .aborted _ _ _ => opts.retry_aborted_transaction && s.running
      | _ => true

theorem Retried.of_retries {opts : Options} (s : BenchWorker) (a : Action)
    (h : retries opts s a = true) : Retried opts s a := by
  cases a with
  | stop => trivial
  | worker inp =>
      intro type old_seed size hpc
      simpa [retries, hpc] using h

section Runs

variable {opts : Options} {s s' : BenchWorker} {a : Action}

/-- While every abort is retried, a request is open exactly when the worker is on it. -/
theorem standing_of_retried (h : (benchWorker opts).ReachableBy (Retried opts) s) :
    standing s.log = if s.pc.busy then .waiting else .answered := by
  refine Machine.ReachableBy.invariant
    (P := fun s => standing s.log = if s.pc.busy then .waiting else .answered) ?_ ?_ h
  · rintro s ⟨seed, rfl⟩
    rfl
  · intro s a s' _ ih hok hn
    cases BenchWorker.next_move hn with
    | quiet hlog hbusy _ => rw [hlog, hbusy, ih]
    | recv type hpc hpc' hlog =>
        rw [hlog, standing_append, ih, hpc, hpc']
        rfl
    | send type size hpc hpc' hlog =>
        rw [hlog, standing_append, ih, hpc, hpc']
        rfl
    | giveUp type old_seed size hpc hnot => exact absurd (hok type old_seed size hpc) hnot

/-- In any run, a worker that is on a request has not answered it. -/
theorem standing_of_busy (h : (benchWorker opts).Reachable s) (hbusy : s.pc.busy = true) :
    standing s.log ≠ .answered := by
  suffices hinv : s.pc.busy = true → standing s.log ≠ .answered from hinv hbusy
  refine Machine.Reachable.invariant (P := fun s => s.pc.busy = true → standing s.log ≠ .answered)
    ?_ ?_ h
  · rintro s ⟨seed, rfl⟩ hb
    cases hb
  · intro s a s' _ ih hn hb
    cases BenchWorker.next_move hn with
    | quiet hlog hsame _ => rw [hlog]; exact ih (hsame ▸ hb)
    | recv type hpc hpc' hlog =>
        rw [hlog, standing_append]
        cases standing s.log with
        | _ => nofun
    | send type size hpc hpc' hlog =>
        rw [hpc'] at hb
        cases hb
    | giveUp type old_seed size hpc hnot hpc' =>
        rw [hpc'] at hb
        cases hb

/-- A request has been left without a response. -/
def Lost (s : BenchWorker) : Prop :=
  standing s.log = .broken ∨ (standing s.log = .waiting ∧ s.pc.busy = false)

theorem Lost.next (h : Lost s) (hn : s.next opts a = some s') : Lost s' := by
  cases BenchWorker.next_move hn with
  | quiet hlog hbusy _ =>
      unfold Lost
      rw [hlog, hbusy]
      exact h
  | recv type hpc hpc' hlog =>
      left
      rw [hlog, standing_append]
      rcases h with hb | ⟨hw, _⟩
      · rw [hb]; rfl
      · rw [hw]; rfl
  | send type size hpc hpc' hlog =>
      left
      rw [hlog, standing_append]
      rcases h with hb | ⟨_, hbusy⟩
      · rw [hb]; rfl
      -- only a worker that is on a request sends a response
      · rw [hpc] at hbusy
        cases hbusy
  | giveUp type old_seed size hpc hnot hpc' hlog =>
      rcases h with hb | ⟨_, hbusy⟩
      · exact .inl (hlog ▸ hb)
      · rw [hpc] at hbusy
        cases hbusy

/-- A step that does not retry leaves the request without a response. -/
theorem Lost.of_not_retried (hs : (benchWorker opts).Reachable s) (hn : s.next opts a = some s')
    (hnot : ¬ Retried opts s a) : Lost s' := by
  cases a with
  | stop => exact absurd trivial hnot
  | worker inp =>
      simp only [Retried, not_forall] at hnot
      obtain ⟨type, old_seed, size, hpc, hno⟩ := hnot
      have hopen := standing_of_busy hs (by rw [hpc]; rfl)
      cases inp with
      | tau =>
          simp only [BenchWorker.next, hpc, BenchWorker.step, if_neg hno, Option.some.injEq] at hn
          subst hn
          cases hst : standing s.log with
          | answered => exact absurd hst hopen
          | waiting => exact .inr ⟨hst, rfl⟩
          | broken => exact .inl hst
      | request type => simp [BenchWorker.next, hpc, BenchWorker.step] at hn
      | ret committed size seed => simp [BenchWorker.next, hpc, BenchWorker.step] at hn

/-- A lost request shows at the next request and at the return. -/
theorem Lost.not_answers (h : Lost s) (hpc : s.pc.busy = true ∨ s.pc = .returned) :
    ¬ Answers s := by
  rintro ⟨hne, hret⟩
  rcases h with hb | ⟨hw, hbusy⟩
  · exact hne hb
  · rcases hpc with hpc | hpc
    · rw [hbusy] at hpc
      cases hpc
    · rw [hret hpc] at hw
      cases hw

end Runs

/-- Runs in which every aborted transaction is retried answer every request. After a step that
does not retry, no run gets to the next request or to the end of the loop with every request
answered. -/
theorem run_answers (opts : Options) :
    (∀ s, (benchWorker opts).ReachableBy (Retried opts) s → Answers s) ∧
    ∀ s a s' t, (benchWorker opts).Reachable s → (benchWorker opts).next a s = some s' →
      ¬ Retried opts s a → (benchWorker opts).Leads s' t →
      t.pc.busy = true ∨ t.pc = .returned → ¬ Answers t := by
  constructor
  · intro s h
    have hst := standing_of_retried h
    constructor
    · rw [hst]
      split <;> nofun
    · intro hpc
      rw [hst, hpc]
      rfl
  · intro s a s' t hs hn hnot ht hpc
    have hlost : Lost t :=
      ht.invariant (fun s a s' hl h => hl.next h) (Lost.of_not_retried hs hn hnot)
    exact hlost.not_answers hpc

/-- With retries on, an abort and a commit: the request is answered once, and `running` falls
after that. -/
theorem run_answers_retry :
    ∃ s, (benchWorker { retry_aborted_transaction := true }).ReachableBy
        (Retried { retry_aborted_transaction := true }) s ∧ Answers s ∧
      s.pc = .returned ∧ s.log = [.tBenchRecvReq 0, .tBenchSendResp true] := by
  obtain ⟨s, hs, hpc, hlog⟩ :=
    Machine.Reachable.exists_of_exec
      (M := (benchWorker { retry_aborted_transaction := true }).guard
        (retries { retry_aborted_transaction := true }))
      (P := fun s => s.pc = .returned ∧ s.log = [.tBenchRecvReq 0, .tBenchSendResp true])
      (s := { seed := 7 })
      [.worker .tau, .worker (.request 0), .worker (.ret false 0 8), .worker .tau,
        .worker (.ret true 0 9), .worker .tau, .worker .tau, .stop, .worker .tau]
      ⟨7, rfl⟩ (by decide)
  have hby := Machine.Reachable.of_guard Retried.of_retries hs
  exact ⟨s, hby, (run_answers _).1 s hby, hpc, hlog⟩

/-- By default `retry_aborted_transaction` is off: after one abort the worker receives the next
request with the first unanswered. -/
theorem run_skips_response :
    ∃ s, (benchWorker {}).Reachable s ∧ ¬ Answers s ∧
      s.log = [.tBenchRecvReq 0, .tBenchRecvReq 1] :=
  Machine.Reachable.exists_of_exec (s := { seed := 7 })
    [.worker .tau, .worker (.request 0), .worker (.ret false 0 8), .worker .tau, .worker .tau,
      .worker .tau, .worker (.request 1)]
    ⟨7, rfl⟩ (by decide)

end TailBench.Silo
