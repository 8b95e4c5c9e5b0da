import TailBench.Lib.Machine
import TailBench.Lib.Threads

set_option autoImplicit false

/-! # The threads of the xapian server

`Server::_run` of `xapian/server.cpp` in `n + 1` threads, and `main` of `xapian/main.cpp`, whose
thread is the last of them: it creates the others, runs `_run` itself, joins them and calls
`tBenchServerFinish`. A thread that is not created yet is at its start. A call of `processRequest`
is two steps, the receive and the response.

The test of `numReqsProcessed` and its increment are apart, with the receive between them, so
threads that pass the test together take more requests than there are.
-/

namespace TailBench.Xapian

open Lib

/-- The place of a thread. -/
inductive Place where
  | start
  /-- In `pthread_barrier_wait`. -/
  | barrier
  /-- At the condition of the loop. -/
  | check
  /-- In `tBenchRecvReq`. -/
  | recvReq
  /-- With a request that is to be answered. -/
  | sendResp
  /-- Before `++numReqsProcessed`. -/
  | increment
  /-- `_run` has returned. -/
  | returned
  deriving DecidableEq, Repr

structure Server (n : Nat) where
  place : Fin (n + 1) → Place := fun _ => .start
  numReqsProcessed : UInt64 := 0
  /-- `tBenchServerFinish` has been called. -/
  finished : Bool := false
  /-- History: the calls of `processRequest`. -/
  calls : Nat := 0
  /-- History: the calls of `tBenchSendResp`. -/
  answered : Nat := 0
  deriving DecidableEq

namespace Server

variable {n : Nat}

def move (s : Server n) (t : Fin (n + 1)) (p : Place) : Server n :=
  { s with place := Function.update s.place t p }

/-- The next step of a thread. -/
def next (numReqsToProcess : UInt64) (t : Fin (n + 1)) (s : Server n) : Option (Server n) :=
  match s.place t with
  | .start => some (s.move t .barrier)
  | .barrier => if ∀ u, s.place u ≠ .start then some (s.move t .check) else none
  | .check =>
      if s.numReqsProcessed < numReqsToProcess then
        some { s.move t .recvReq with calls := s.calls + 1 }
      else some (s.move t .returned)
  | .recvReq => some (s.move t .sendResp)
  | .sendResp => some { s.move t .increment with answered := s.answered + 1 }
  | .increment => some { s.move t .check with numReqsProcessed := s.numReqsProcessed + 1 }
  | .returned =>
      -- `main` has joined the other threads
      if t = Fin.last n ∧ s.finished = false ∧ ∀ u, s.place u = .returned then
        some { s with finished := true }
      else none

end Server

/-- The server. -/
def server (N : UInt64) (n : Nat) : Machine (Server n) (Fin (n + 1)) where
  init s := s = {}
  next := Server.next N

/-- A thread that has passed the test and not yet incremented. -/
def Place.inLoop : Place → Nat
  | .recvReq | .sendResp | .increment => 1
  | _ => 0

/-- A thread in `processRequest`. -/
def Place.inRequest : Place → Nat
  | .recvReq | .sendResp => 1
  | _ => 0

/-- How far a thread is from its end, when it does not pass the test again. -/
def Place.left : Place → Nat
  | .start => 6
  | .barrier => 5
  | .recvReq => 4
  | .sendResp => 3
  | .increment => 2
  | .check => 1
  | .returned => 0

namespace Server

variable {n : Nat}

/-- The threads between their test and their increment. -/
def claimed (s : Server n) : Nat := ∑ t, (s.place t).inLoop

/-- The threads in `processRequest`. -/
def inProcess (s : Server n) : Nat := ∑ t, (s.place t).inRequest

/-- Nobody passes the test while another thread is between its test and its increment. -/
def inTurn (N : UInt64) (s : Server n) (t : Fin (n + 1)) : Bool :=
  decide (s.place t = .check → s.numReqsProcessed < N → s.claimed = 0)

/-- At most `N` requests are taken. When `N` are answered, no thread is blocked in `tBenchRecvReq`
and the run comes to `tBenchServerFinish`. -/
structure Exact (M : Machine (Server n) (Fin (n + 1))) (N : UInt64) (s : Server n) : Prop where
  calls : s.calls ≤ N.toNat
  finishes : s.answered = N.toNat →
    (∀ t, s.place t ≠ .recvReq) ∧ M.Inevitable (fun s => s.finished = true) s

/-! ## What a step can do -/

section Next

variable {N : UInt64} {s : Server n} {t : Fin (n + 1)}

theorem next_start (hp : s.place t = .start) : next N t s = some (s.move t .barrier) := by
  simp only [next, hp]

theorem next_barrier (hp : s.place t = .barrier) (hall : ∀ u, s.place u ≠ .start) :
    next N t s = some (s.move t .check) := by
  simp only [next, hp, if_pos hall]

theorem next_enter (hp : s.place t = .check) (hlt : s.numReqsProcessed < N) :
    next N t s = some { s.move t .recvReq with calls := s.calls + 1 } := by
  simp only [next, hp, if_pos hlt]

theorem next_leave (hp : s.place t = .check) (hge : ¬ s.numReqsProcessed < N) :
    next N t s = some (s.move t .returned) := by
  simp only [next, hp, if_neg hge]

theorem next_recv (hp : s.place t = .recvReq) : next N t s = some (s.move t .sendResp) := by
  simp only [next, hp]

theorem next_send (hp : s.place t = .sendResp) :
    next N t s = some { s.move t .increment with answered := s.answered + 1 } := by
  simp only [next, hp]

theorem next_count (hp : s.place t = .increment) :
    next N t s = some { s.move t .check with numReqsProcessed := s.numReqsProcessed + 1 } := by
  simp only [next, hp]

theorem next_finish (hall : ∀ u, s.place u = .returned) (hf : s.finished = false) :
    next N (Fin.last n) s = some { s with finished := true } := by
  simp only [next, hall]
  rw [if_pos ⟨trivial, hf, fun _ => trivial⟩]

end Next

/-- The steps. -/
inductive Move (N : UInt64) (s : Server n) (t : Fin (n + 1)) : Server n → Prop
  | arrive : s.place t = .start → Move N s t (s.move t .barrier)
  | pass : s.place t = .barrier → Move N s t (s.move t .check)
  | enter : s.place t = .check → s.numReqsProcessed < N →
      Move N s t { s.move t .recvReq with calls := s.calls + 1 }
  | leave : s.place t = .check → ¬ s.numReqsProcessed < N → Move N s t (s.move t .returned)
  | recv : s.place t = .recvReq → Move N s t (s.move t .sendResp)
  | send : s.place t = .sendResp →
      Move N s t { s.move t .increment with answered := s.answered + 1 }
  | count : s.place t = .increment →
      Move N s t { s.move t .check with numReqsProcessed := s.numReqsProcessed + 1 }
  | finish : (∀ u, s.place u = .returned) → s.finished = false →
      Move N s t { s with finished := true }

theorem next_move {N : UInt64} {s s' : Server n} {t : Fin (n + 1)} (h : next N t s = some s') :
    Move N s t s' := by
  unfold next at h
  split at h
  · next hp =>
      cases h
      exact .arrive hp
  · next hp =>
      split at h
      · cases h
        exact .pass hp
      · cases h
  · next hp =>
      split at h
      · next hlt =>
          cases h
          exact .enter hp hlt
      · next hge =>
          cases h
          exact .leave hp hge
  · next hp =>
      cases h
      exact .recv hp
  · next hp =>
      cases h
      exact .send hp
  · next hp =>
      cases h
      exact .count hp
  · split at h
    · next hall =>
        cases h
        exact .finish hall.2.2 hall.2.1
    · cases h

@[simp] theorem place_move_self (s : Server n) (t : Fin (n + 1)) (p : Place) :
    (s.move t p).place t = p := Function.update_self ..

theorem place_move_of_ne {s : Server n} {t u : Fin (n + 1)} (h : u ≠ t) (p : Place) :
    (s.move t p).place u = s.place u := Function.update_of_ne h ..

/-- What a thread claims when it moves from a place to another. -/
theorem claimed_move {s : Server n} {t : Fin (n + 1)} {q : Place} (hq : s.place t = q)
    (p : Place) : (s.move t p).claimed + q.inLoop = s.claimed + p.inLoop :=
  hq ▸ sum_update Place.inLoop s.place t p

theorem inProcess_move {s : Server n} {t : Fin (n + 1)} {q : Place} (hq : s.place t = q)
    (p : Place) : (s.move t p).inProcess + q.inRequest = s.inProcess + p.inRequest :=
  hq ▸ sum_update Place.inRequest s.place t p

end Server

/-- The server whose threads go through the loop one after the other. -/
def serverInTurn (N : UInt64) (n : Nat) : Machine (Server n) (Fin (n + 1)) :=
  (server N n).guard (Server.inTurn N)

namespace Server

variable {n : Nat} {N : UInt64} {s s' : Server n} {t : Fin (n + 1)}

theorem serverInTurn_next : (serverInTurn N n).next t s = some s' ↔
    s.inTurn N t = true ∧ next N t s = some s' := by
  simp only [serverInTurn, Machine.guard]
  split
  · next hok => simp [hok, server]
  · next hok => simp [hok]

/-- What is counted: every call is processed or claimed, and answered or open. -/
structure Counted (N : UInt64) (s : Server n) : Prop where
  claims : s.calls = s.numReqsProcessed.toNat + s.claimed
  limit : s.calls ≤ N.toNat
  requests : s.calls = s.answered + s.inProcess

theorem Counted.init : Counted N ({} : Server n) := by
  have hclaimed : ({} : Server n).claimed = 0 := Finset.sum_eq_zero fun _ _ => rfl
  have hprocess : ({} : Server n).inProcess = 0 := Finset.sum_eq_zero fun _ _ => rfl
  exact ⟨by rw [hclaimed]; rfl, Nat.zero_le _, by rw [hprocess]⟩

/-- A move that neither claims nor answers. -/
theorem Counted.move (h : Counted N s) {q p : Place} (hq : s.place t = q)
    (hloop : p.inLoop = q.inLoop) (hreq : p.inRequest = q.inRequest) : Counted N (s.move t p) := by
  have hclaimed := claimed_move hq p
  have hprocess := inProcess_move hq p
  refine ⟨?_, h.limit, ?_⟩
  · have hclaims := h.claims
    show s.calls = s.numReqsProcessed.toNat + (s.move t p).claimed
    omega
  · have hrequests := h.requests
    show s.calls = s.answered + (s.move t p).inProcess
    omega

/-- A thread that passes the test in turn has a request left. -/
theorem room_of_inTurn (h : s.inTurn N t = true) (hp : s.place t = .check)
    (hlt : s.numReqsProcessed < N) : s.numReqsProcessed.toNat + s.claimed < N.toNat := by
  have hzero : s.claimed = 0 := of_decide_eq_true h hp hlt
  rw [hzero]
  exact UInt64.lt_iff_toNat_lt.mp hlt

theorem Counted.step (h : Counted N s) (hturn : s.inTurn N t = true) (hm : Move N s t s') :
    Counted N s' := by
  obtain ⟨hclaims, hlimit, hrequests⟩ := id h
  cases hm with
  | arrive hp | pass hp | leave hp _ | recv hp => exact h.move hp rfl rfl
  | enter hp hlt =>
      have hclaimed := claimed_move hp .recvReq
      have hprocess := inProcess_move hp .recvReq
      simp only [Place.inLoop, Place.inRequest] at hclaimed hprocess
      have hroom := room_of_inTurn hturn hp hlt
      refine ⟨?_, ?_, ?_⟩
      · show s.calls + 1 = s.numReqsProcessed.toNat + (s.move t .recvReq).claimed
        omega
      · show s.calls + 1 ≤ N.toNat
        omega
      · show s.calls + 1 = s.answered + (s.move t .recvReq).inProcess
        omega
  | send hp =>
      have hclaimed := claimed_move hp .increment
      have hprocess := inProcess_move hp .increment
      simp only [Place.inLoop, Place.inRequest] at hclaimed hprocess
      refine ⟨?_, hlimit, ?_⟩
      · show s.calls = s.numReqsProcessed.toNat + (s.move t .increment).claimed
        omega
      · show s.calls = s.answered + 1 + (s.move t .increment).inProcess
        omega
  | count hp =>
      have hclaimed := claimed_move hp .check
      have hprocess := inProcess_move hp .check
      simp only [Place.inLoop, Place.inRequest] at hclaimed hprocess
      -- the counter does not wrap, for it stays below `N`
      have hsucc : (s.numReqsProcessed + 1).toNat = s.numReqsProcessed.toNat + 1 := by
        have hlt := N.toNat_lt
        rw [UInt64.toNat_add]
        exact Nat.mod_eq_of_lt (by show s.numReqsProcessed.toNat + 1 < 2 ^ 64; omega)
      refine ⟨?_, hlimit, ?_⟩
      · show s.calls = (s.numReqsProcessed + 1).toNat + (s.move t .check).claimed
        omega
      · show s.calls = s.answered + (s.move t .check).inProcess
        omega
  | finish _ _ => exact ⟨hclaims, hlimit, hrequests⟩

theorem counted (h : (serverInTurn N n).Reachable s) : Counted N s := by
  refine Machine.Reachable.invariant ?_ ?_ h
  · rintro s rfl
    exact Counted.init
  · intro s t s' _ hs hn
    obtain ⟨hturn, hn⟩ := serverInTurn_next.mp hn
    exact hs.step hturn (next_move hn)

/-! ## When all are answered -/

/-- All requests are answered, and nobody has claimed another. -/
structure AllAnswered (N : UInt64) (s : Server n) : Prop where
  counted : Counted N s
  answered : s.answered = N.toNat

/-- Nobody is in `processRequest` then. -/
theorem AllAnswered.place_ne (h : AllAnswered N s) (t : Fin (n + 1)) :
    (s.place t).inRequest = 0 := by
  have hle : (s.place t).inRequest ≤ s.inProcess := le_sum Place.inRequest s.place t
  have hlimit := h.counted.limit
  have hrequests := h.counted.requests
  have hanswered := h.answered
  omega

/-- The test is passed by nobody any more. -/
theorem AllAnswered.not_inTurn (h : AllAnswered N s) (hp : s.place t = .check)
    (hlt : s.numReqsProcessed < N) : ¬ s.inTurn N t = true := by
  intro hturn
  have hroom := room_of_inTurn hturn hp hlt
  have hclaims := h.counted.claims
  have hrequests := h.counted.requests
  have hanswered := h.answered
  omega

/-- What is left to do. -/
def left (s : Server n) : Nat := (∑ t, (s.place t).left) + if s.finished then 0 else 1

theorem left_move_lt {q p : Place} (hq : s.place t = q) (h : p.left < q.left) :
    (s.move t p).left < s.left := by
  have hsum := sum_update Place.left s.place t p
  rw [hq] at hsum
  have hmove : (s.move t p).left =
      (∑ u, (Function.update s.place t p u).left) + if s.finished then 0 else 1 := rfl
  rw [hmove, left]
  omega

/-- Every step gets nearer to the end. -/
theorem AllAnswered.step (h : AllAnswered N s) (hn : (serverInTurn N n).next t s = some s') :
    AllAnswered N s' ∧ s'.left < s.left := by
  obtain ⟨hturn, hn⟩ := serverInTurn_next.mp hn
  have hm := next_move hn
  have hcounted := h.counted.step hturn hm
  cases hm with
  | arrive hp | pass hp | leave hp _ | recv hp | count hp =>
      exact ⟨⟨hcounted, h.answered⟩, left_move_lt hp (by decide)⟩
  | enter hp hlt => exact absurd hturn (h.not_inTurn hp hlt)
  | send hp =>
      have hnone := h.place_ne t
      rw [hp] at hnone
      cases hnone
  | finish hall hf =>
      refine ⟨⟨hcounted, h.answered⟩, ?_⟩
      simp [left, hf]

/-- A thread that is not at the test may always go on. -/
theorem inTurn_of_ne (h : s.place t ≠ .check) : s.inTurn N t = true :=
  decide_eq_true fun hp => absurd hp h

/-- Until `main` is through, some thread can go on. -/
theorem AllAnswered.live (h : AllAnswered N s) (hf : ¬ s.finished = true) :
    ∃ t s', (serverInTurn N n).next t s = some s' := by
  simp only [serverInTurn_next]
  by_cases hstart : ∃ t, s.place t = .start
  · obtain ⟨t, hp⟩ := hstart
    exact ⟨t, _, inTurn_of_ne (by simp [hp]), next_start hp⟩
  push Not at hstart
  by_cases hbarrier : ∃ t, s.place t = .barrier
  · obtain ⟨t, hp⟩ := hbarrier
    exact ⟨t, _, inTurn_of_ne (by simp [hp]), next_barrier hp hstart⟩
  by_cases hinc : ∃ t, s.place t = .increment
  · obtain ⟨t, hp⟩ := hinc
    exact ⟨t, _, inTurn_of_ne (by simp [hp]), next_count hp⟩
  push Not at hbarrier hinc
  -- the others are at the test or have returned
  have hquiet : ∀ t, s.place t = .check ∨ s.place t = .returned := by
    intro t
    have hnone := h.place_ne t
    cases hp : s.place t with
    | start => exact absurd hp (hstart t)
    | barrier => exact absurd hp (hbarrier t)
    | check => exact .inl rfl
    | recvReq | sendResp =>
        rw [hp] at hnone
        cases hnone
    | increment => exact absurd hp (hinc t)
    | returned => exact .inr rfl
  by_cases hcheck : ∃ t, s.place t = .check
  · obtain ⟨t, hp⟩ := hcheck
    -- so nothing is claimed, and all that was taken is processed
    have hzero : s.claimed = 0 := by
      refine Finset.sum_eq_zero fun u _ => ?_
      rcases hquiet u with hu | hu <;> rw [hu] <;> rfl
    have hge : ¬ s.numReqsProcessed < N := by
      have hclaims := h.counted.claims
      have hrequests := h.counted.requests
      have hanswered := h.answered
      rw [UInt64.lt_iff_toNat_lt]
      omega
    exact ⟨t, _, decide_eq_true fun _ hlt => absurd hlt hge, next_leave hp hge⟩
  · push Not at hcheck
    have hall : ∀ t, s.place t = .returned := fun t => (hquiet t).resolve_left (hcheck t)
    exact ⟨Fin.last n, _, inTurn_of_ne (hcheck _), next_finish hall (by simpa using hf)⟩

/-- **In turn, the server processes exactly `N` requests.** -/
theorem exact_inTurn (h : (serverInTurn N n).Reachable s) : Exact (serverInTurn N n) N s := by
  have hcounted := counted h
  refine ⟨hcounted.limit, fun hanswered => ?_⟩
  have hall : AllAnswered N s := ⟨hcounted, hanswered⟩
  constructor
  · intro t hp
    have hnone := hall.place_ne t
    rw [hp] at hnone
    cases hnone
  · exact Machine.Inevitable.of_measure left (fun _ hs hf => hs.live hf)
      (fun _ _ _ hs hn => hs.step hn) hall

/-- A single thread, or no request: the threads are in turn. -/
theorem inTurn_always (h : n = 0 ∨ N = 0) (s : Server n) (t : Fin (n + 1)) :
    s.inTurn N t = true := by
  refine decide_eq_true fun hp hlt => ?_
  rcases h with rfl | rfl
  · refine Finset.sum_eq_zero fun u _ => ?_
    obtain rfl : u = t := Fin.ext (by omega)
    rw [hp]
    rfl
  · exact absurd hlt (UInt64.not_lt_zero)

theorem serverInTurn_eq (h : n = 0 ∨ N = 0) : serverInTurn N n = server N n := by
  have hnext : (serverInTurn N n).next = (server N n).next := by
    funext t s
    simp only [serverInTurn, Machine.guard, inTurn_always h, if_true]
  show Machine.mk _ (serverInTurn N n).next = Machine.mk _ _
  rw [hnext]
  rfl

/-! ## When two threads are in the loop -/

/-- The first `k` threads are at the barrier. -/
def arrived (n k : Nat) : Server n :=
  { place := fun i => if i.val < k then .barrier else .start }

theorem reachable_arrived (N : UInt64) (n k : Nat) (hk : k ≤ n + 1) :
    (server N n).Reachable (arrived n k) := by
  induction k with
  | zero => exact .init rfl
  | succ k ih =>
      let t : Fin (n + 1) := ⟨k, hk⟩
      have hn : next N t (arrived n k) = some ((arrived n k).move t .barrier) :=
        next_start (if_neg (Nat.lt_irrefl k))
      have hmove : (arrived n k).move t .barrier = arrived n (k + 1) := by
        simp only [move, arrived, Server.mk.injEq, and_true]
        funext i
        by_cases hi : i = t
        · rw [hi, Function.update_self, if_pos (Nat.lt_succ_self k)]
        · have hne : i.val ≠ k := fun h => hi (Fin.ext h)
          rw [Function.update_of_ne hi]
          split <;> split <;> first | rfl | omega
      rw [hmove] at hn
      exact (ih (by omega)).step t hn

/-- A thread at the test processes a request. -/
theorem leads_round (hp : s.place t = .check) (hlt : s.numReqsProcessed < N) :
    (server N n).Leads s { s with
      numReqsProcessed := s.numReqsProcessed + 1, calls := s.calls + 1
      answered := s.answered + 1 } := by
  let s₁ : Server n := { s.move t .recvReq with calls := s.calls + 1 }
  let s₂ : Server n := s₁.move t .sendResp
  let s₃ : Server n := { s₂.move t .increment with answered := s.answered + 1 }
  let s₄ : Server n := { s₃.move t .check with numReqsProcessed := s.numReqsProcessed + 1 }
  have hend : s₄ = { s with
      numReqsProcessed := s.numReqsProcessed + 1, calls := s.calls + 1
      answered := s.answered + 1 } := by
    have hself : Function.update s.place t .check = s.place := hp ▸ Function.update_eq_self t _
    simp only [s₄, s₃, s₂, s₁, move, Function.update_idem, hself]
  have h₁ : next N t s = some s₁ := next_enter hp hlt
  have h₂ : next N t s₁ = some s₂ := next_recv (place_move_self ..)
  have h₃ : next N t s₂ = some s₃ := next_send (place_move_self ..)
  have h₄ : next N t s₃ = some s₄ := next_count (place_move_self ..)
  rw [← hend]
  exact (((Machine.Leads.single h₁).trans (.single h₂)).trans (.single h₃)).trans (.single h₄)

/-- And another, as long as fewer than `N` are processed. -/
theorem leads_rounds (hp : s.place t = .check) (k : Nat)
    (hk : s.numReqsProcessed.toNat + k ≤ N.toNat) :
    (server N n).Leads s { s with
      numReqsProcessed := s.numReqsProcessed + UInt64.ofNat k, calls := s.calls + k
      answered := s.answered + k } := by
  induction k with
  | zero =>
      have hsame : s.numReqsProcessed + UInt64.ofNat 0 = s.numReqsProcessed := UInt64.add_zero _
      rw [hsame]
      exact .refl s
  | succ k ih =>
      have hmax := N.toNat_lt
      let u : Server n := { s with
        numReqsProcessed := s.numReqsProcessed + UInt64.ofNat k, calls := s.calls + k
        answered := s.answered + k }
      have hlt : u.numReqsProcessed < N := by
        show s.numReqsProcessed + UInt64.ofNat k < N
        rw [UInt64.lt_iff_toNat_lt, UInt64.toNat_add, UInt64.toNat_ofNat', Nat.add_mod_mod,
          Nat.mod_eq_of_lt (by omega)]
        omega
      have hround := leads_round (s := u) hp hlt
      have hcount : s.numReqsProcessed + UInt64.ofNat (k + 1) = u.numReqsProcessed + 1 := by
        rw [UInt64.ofNat_add, ← UInt64.add_assoc]
        rfl
      rw [hcount]
      exact (ih (by omega)).trans hround

/-- One thread is behind the barrier and has processed all requests but one. -/
theorem exists_one_left (hN : 0 < N.toNat) : ∃ s : Server n, (server N n).Reachable s ∧
    s.place 0 = .check ∧ (∀ u, u ≠ 0 → s.place u = .barrier) ∧
      s.numReqsProcessed.toNat + 1 = N.toNat ∧ s.calls + 1 = N.toNat := by
  have hmax := N.toNat_lt
  let s₀ := arrived n (n + 1)
  have hplace : ∀ u, s₀.place u = .barrier := fun u => if_pos u.isLt
  have hn : next N 0 s₀ = some (s₀.move 0 .check) :=
    next_barrier (hplace 0) fun u => by simp [hplace u]
  have hr := (reachable_arrived N n (n + 1) le_rfl).step 0 hn
  have hrounds := leads_rounds (N := N) (place_move_self s₀ 0 .check) (N.toNat - 1)
    (by show 0 + (N.toNat - 1) ≤ N.toNat; omega)
  refine ⟨_, hr.leads hrounds, place_move_self s₀ 0 .check, fun u hu => ?_, ?_, ?_⟩
  · exact (place_move_of_ne hu _).trans (hplace u)
  · show (0 + UInt64.ofNat (N.toNat - 1)).toNat + 1 = N.toNat
    rw [UInt64.zero_add, UInt64.toNat_ofNat', Nat.mod_eq_of_lt (by omega)]
    omega
  · show 0 + (N.toNat - 1) + 1 = N.toNat
    omega

/-- **Two threads take one request more than there are.** -/
theorem exists_too_many {m : Nat} (hN : 0 < N.toNat) :
    ∃ s, (server N (m + 1)).Reachable s ∧ s.calls = N.toNat + 1 := by
  obtain ⟨s, hr, hzero, hplace, hprocessed, hcalls⟩ := exists_one_left (n := m + 1) hN
  have hlt : s.numReqsProcessed < N := by
    rw [UInt64.lt_iff_toNat_lt]
    omega
  have hne : (1 : Fin (m + 1 + 1)) ≠ 0 := by simp
  have hstart : ∀ u, s.place u ≠ .start := by
    intro u
    by_cases hu : u = 0
    · simp [hu, hzero]
    · simp [hplace u hu]
  -- both threads pass the test
  let s₁ : Server (m + 1) := s.move 1 .check
  let s₂ : Server (m + 1) := { s₁.move 0 .recvReq with calls := s₁.calls + 1 }
  have h₁ : next N 1 s = some s₁ := next_barrier (hplace 1 hne) hstart
  have h₂ : next N 0 s₁ = some s₂ := next_enter ((place_move_of_ne hne.symm _).trans hzero) hlt
  have hone : s₂.place 1 = .check := (place_move_of_ne hne .recvReq).trans (place_move_self s 1 .check)
  have h₃ : next N 1 s₂ = some _ := next_enter hone hlt
  refine ⟨_, ((hr.step 1 h₁).step 0 h₂).step 1 h₃, ?_⟩
  show s.calls + 1 + 1 = N.toNat + 1
  omega

/-- **How many requests are processed.** For every number of requests and of threads: in every run
whose threads go through the loop one after the other, at most `N` requests are taken, and when `N`
are answered no thread is blocked and `tBenchServerFinish` is reached. All runs of the server have
these properties if and only if it has one thread or there is no request. -/
theorem requests_exact_iff (N : UInt64) (n : Nat) :
    (∀ s, (serverInTurn N n).Reachable s → Exact (serverInTurn N n) N s) ∧
    ((∀ s, (server N n).Reachable s → Exact (server N n) N s) ↔ n = 0 ∨ N = 0) := by
  refine ⟨fun s hs => exact_inTurn hs, fun hexact => ?_, fun h s hs => ?_⟩
  · by_contra hmany
    push Not at hmany
    obtain ⟨m, rfl⟩ := Nat.exists_eq_succ_of_ne_zero hmany.1
    have hpos : 0 < N.toNat := by
      refine Nat.pos_of_ne_zero fun h => hmany.2 (UInt64.toNat_inj.mp ?_)
      rw [h]
      rfl
    obtain ⟨s, hs, hcalls⟩ := exists_too_many (m := m) hpos
    have hlimit := (hexact s hs).calls
    omega
  · rw [← serverInTurn_eq h] at hs ⊢
    exact exact_inTurn hs

/-- Two threads and one request: both pass the test, the first answers the request, and the second
is blocked. -/
theorem second_thread_blocked :
    (∃ s, (server 1 1).Reachable s ∧ s.calls = 2 ∧ s.answered = 1 ∧ s.place 1 = .recvReq) ∧
      ¬ ∀ s, (server 1 1).Reachable s → Exact (server 1 1) 1 s := by
  have hrun : ∃ s, (server 1 1).Reachable s ∧ s.calls = 2 ∧ s.answered = 1 ∧
      s.place 1 = .recvReq :=
    Machine.Reachable.exists_of_exec [0, 1, 0, 1, 0, 1, 0, 0] rfl (by decide)
  refine ⟨hrun, fun hexact => ?_⟩
  obtain ⟨s, hs, -, hanswered, hblocked⟩ := hrun
  exact ((hexact s hs).finishes hanswered).1 1 hblocked

end Server

end TailBench.Xapian
