import TailBench.Shore.Fifo
import TailBench.Shore.ActiveWorker
import TailBench.Lib.Threads

set_option autoImplicit false

/-! # No lost wake-up

Workers that stay `ACTIVE` and pushers, on the queue as `trx_worker_t::init` sets it up. Of the
workers inside `pop`, as many as there are requests in the queue are not blocked, the request of
a `push` that has not come to the end of its critical section aside.

The counters of a worker's condex are tied to its place and its working state: it has begun one
wait more than it was signalled while its state is `SLEEP`, and while the pusher that has
replaced `SLEEP` has not signalled yet (`Pool.Counted`). So a registered worker whose state is
`INPUT_Q` is awake as soon as the pusher has gone on. A pusher that goes through the waiters
leaves awake workers behind it (`Pool.Woken`), and at the end of `push` it has met all of them,
or as many as there are requests.
-/

namespace TailBench.Shore

open Lib

variable {n m r : Nat} {α : Type}

/-- The workers stay `ACTIVE`, and there are only pushers besides. -/
def activePool (xct : α → Option Nat) (n m : Nat) :
    Machine (Pool n m 0 α) (PoolAction n m 0 α) where
  init s := ∃ lc, s = Pool.start (inputQueue lc) fun _ => .ACTIVE
  next := Pool.next xct

theorem activePool_reachable {xct : α → Option Nat} {s : Pool n m 0 α}
    (h : (activePool xct n m).Reachable s) : (pool xct n m 0).Reachable s := by
  refine h.simulate (N := pool xct n m 0) id ?_ ?_
  · rintro s ⟨lc, rfl⟩
    exact ⟨_, _, rfl⟩
  · intro s a s' _ hn
    exact Machine.Leads.single hn

/-! ## Steps of a pusher -/

/-- A step of a pusher: the workers, and its place, after it. -/
inductive PusherMove (q : Mrmwqueue n α) (workers : Fin n → Worker) :
    PusherPc → (Fin n → Worker) → PusherPc → Prop where
  | next {queue_sz woken : Nat} : woken < q.waiters.length →
      PusherMove q workers (.wake queue_sz woken) workers (.setWs queue_sz woken .read)
  | stop {queue_sz woken : Nat} : q.waiters.length ≤ woken →
      PusherMove q workers (.wake queue_sz woken) workers .idle
  | set {queue_sz woken : Nat} {i : Fin n} {pc pc' : SetWsPc} {w' : Worker} :
      q.waiters[woken]? = some i → SetWsMove q.my_ws (workers i) pc w' (some pc') →
      PusherMove q workers (.setWs queue_sz woken pc) (Function.update workers i w')
        (.setWs queue_sz woken pc')
  | turn {queue_sz woken : Nat} {i : Fin n} {pc : SetWsPc} {w' : Worker} :
      q.waiters[woken]? = some i → SetWsMove q.my_ws (workers i) pc w' none →
      PusherMove q workers (.setWs queue_sz woken pc) (Function.update workers i w')
        (.turn queue_sz woken)

/-- The requests and the waiters a pusher has counted. -/
def PusherPc.progress : PusherPc → Option (Nat × Nat)
  | .idle => none
  | .wake queue_sz woken | .setWs queue_sz woken _ => some (queue_sz, woken)

namespace Pool

variable {xct : α → Option Nat} {s s' : Pool n m r α}

/-- The place of the pusher that is inside its critical section. -/
def critical (s : Pool n m r α) : PusherPc :=
  match s.lock with
  | none => .idle
  | some k => s.pushers k

/-- The lock is held by the pusher that is inside `push`. -/
def Mutex (s : Pool n m r α) : Prop := ∀ k, s.lock = some k ↔ s.pushers k ≠ .idle

theorem critical_eq_of_lock {k : Fin m} (h : s.lock = some k) : s.critical = s.pushers k := by
  simp only [critical, h]

theorem critical_eq_idle (h : s.lock = none) : s.critical = .idle := by
  simp only [critical, h]

theorem pusherNext_cases {k : Fin m} (h : s.pusherNext k = some s') :
    ∃ pc', s'.pushers = Function.update s.pushers k pc' ∧
      s'.lock = (if pc' = .idle then none else s.lock) ∧ s'.q = s.q ∧ s'.pcs = s.pcs ∧
      PusherMove s.q s.workers (s.pushers k) s'.workers pc' := by
  simp only [pusherNext] at h
  split at h
  · cases h
  · next queue_sz woken hpc =>
      split at h <;> obtain rfl := by simpa using h
      · next hlt => exact ⟨_, rfl, by simp, rfl, rfl, hpc ▸ .next hlt⟩
      · next hge => exact ⟨_, rfl, by simp, rfl, rfl, hpc ▸ .stop (by omega)⟩
  · next queue_sz woken pc hpc =>
      split at h
      · cases h
      · next i hi =>
          have hmove := set_wsStep_move s.q.my_ws (s.workers i) pc
          split at h <;> obtain rfl := by simpa using h
          · next pc' hpc' =>
              rw [hpc'] at hmove
              exact ⟨_, rfl, by simp, rfl, rfl, hpc ▸ .set hi hmove⟩
          · next hdone =>
              rw [hdone] at hmove
              exact ⟨_, rfl, rfl, rfl, rfl, hpc ▸ .turn hi hmove⟩

theorem pushNext_cases {k : Fin m} {a : α} {bWake : Bool} (hthres : s.q.thres = 0)
    (h : s.pushNext k a bWake = some s') :
    s.lock = none ∧ s'.lock = some k ∧ s'.q = { s.q with queue := s.q.queue ++ [a] } ∧
      s'.workers = s.workers ∧ s'.pcs = s.pcs ∧
      s'.pushers = Function.update s.pushers k (.wake (s.q.queue.length + 1) 0) := by
  simp only [pushNext] at h
  split at h
  · next hidle =>
      rw [if_pos (.inl (by rw [hthres]; omega))] at h
      obtain rfl := by simpa using h
      exact ⟨hidle.2, rfl, rfl, rfl, rfl, by simp⟩
  · cases h

/-! ## The invariant -/

/-- A pusher has replaced `SLEEP` as the state of worker `i`, and has not signalled yet. -/
def Signalling (s : Pool n m r α) (i : Fin n) : Prop :=
  ∃ queue_sz woken, s.critical = .setWs queue_sz woken .condex_wakeup ∧
    s.q.waiters[woken]? = some i

/-- The counters of a worker's condex. -/
structure Counted (s : Pool n m r α) (i : Fin n) : Prop where
  settled : ¬ s.Signalling i →
    (s.workers i).notify.waits + (s.pcs i).entering =
      (s.workers i).notify.signals + (s.workers i).ws.asleep
  signalling : s.Signalling i → (s.workers i).ws = .INPUT_Q ∧
    (s.workers i).notify.waits + (s.pcs i).entering = (s.workers i).notify.signals + 1

/-- The first `k` waiters are not blocked. -/
def Woken (s : Pool n m r α) (k : Nat) : Prop :=
  ∀ j < k, ∀ i, s.q.waiters[j]? = some i → (s.pcs i).blocked (s.workers i) = false

/-- What holds while workers stay `ACTIVE`. -/
structure Alert (s : Pool n m r α) : Prop where
  mutex : s.Mutex
  my_ws : s.q.my_ws = .INPUT_Q
  thres : s.q.thres = 0
  control : ∀ i, (s.workers i).control = .ACTIVE
  place : ∀ i, (s.pcs i).Place (s.workers i).ws
  counted : ∀ i, s.Counted i
  push : ∀ queue_sz woken, s.critical.progress = some (queue_sz, woken) →
    queue_sz = s.q.queue.length ∧ woken < queue_sz ∧ s.Woken woken

/-- A worker whose state is `INPUT_Q` is not blocked, unless a pusher is about to signal it. -/
theorem Counted.awake {i : Fin n} (h : s.Counted i) (hinput : (s.workers i).ws = .INPUT_Q)
    (hnot : ¬ s.Signalling i) : (s.pcs i).blocked (s.workers i) = false := by
  have hcount := h.settled hnot
  rw [hinput] at hcount
  generalize s.pcs i = pc at hcount ⊢
  cases pc with
  | sleepRead => simp [WorkerPc.blocked, hinput]
  | sleepCas => simp [WorkerPc.blocked, hinput]
  | sleepWait =>
      rw [WorkerPc.sleepWait_not_blocked]
      exact le_of_eq hcount
  | sleeping =>
      rw [WorkerPc.sleeping_not_blocked]
      exact le_of_eq hcount
  | _ => rfl

/-- A worker whose `wait` returns has the state `INPUT_Q`. -/
theorem Alert.input_of_woken {i : Fin n} (hs : s.Alert) (hpc : s.pcs i = .sleeping)
    (hwaiting : ¬ (s.workers i).notify.waiting) : (s.workers i).ws = .INPUT_Q := by
  by_cases hsig : s.Signalling i
  · exact ((hs.counted i).signalling hsig).1
  · have hcount := (hs.counted i).settled hsig
    have hplace := hs.place i
    rw [hpc] at hcount hplace
    rcases hplace with hws | hws
    -- state `SLEEP`: one wait more than signals, so `wait` would not have returned
    · simp [WorkerPc.entering, WorkingState.asleep, hws] at hcount
      simp [Condex.waiting, hcount] at hwaiting
    · exact hws

/-! ### Steps of a worker -/

section WorkerStep

variable {i : Fin n} {q' : Mrmwqueue n α} {w' : Worker} {pc' : WorkerPc α}

/-- A step of worker `i` from `s` to `s'`. -/
structure WorkerStep (s s' : Pool n m r α) (i : Fin n) (w' : Worker) (pc' : WorkerPc α) :
    Prop where
  lock : s'.lock = s.lock
  pushers : s'.pushers = s.pushers
  workers : s'.workers = Function.update s.workers i w'
  pcs : s'.pcs = Function.update s.pcs i pc'
  move : ActiveMove s.lock.isNone i s.q (s.workers i) (s.pcs i) s'.q w' pc'

namespace WorkerStep

variable (h : WorkerStep s s' i w' pc')
include h

theorem self : s'.workers i = w' ∧ s'.pcs i = pc' := by
  rw [h.workers, h.pcs, Function.update_self, Function.update_self]
  exact ⟨rfl, rfl⟩

theorem other {j : Fin n} (hj : j ≠ i) : s'.workers j = s.workers j ∧ s'.pcs j = s.pcs j := by
  rw [h.workers, h.pcs, Function.update_of_ne hj, Function.update_of_ne hj]
  exact ⟨rfl, rfl⟩

theorem critical : s'.critical = s.critical := by
  simp only [Pool.critical, h.lock, h.pushers]

/-- While a pusher is in its critical section, content and waiters stay. -/
theorem held (hlock : s.lock ≠ none) :
    s'.q.queue = s.q.queue ∧ s'.q.waiters = s.q.waiters := by
  have hmove := h.move
  rw [Option.isNone_eq_false_iff.mpr (Option.isSome_iff_ne_none.mpr hlock)] at hmove
  exact hmove.locked

theorem signalling (j : Fin n) : s'.Signalling j ↔ s.Signalling j := by
  unfold Signalling
  rw [h.critical]
  by_cases hlock : s.lock = none
  · simp [critical_eq_idle hlock]
  · rw [(h.held hlock).2]

theorem counted (hs : s.Alert) (henr : s.Enrolled) (j : Fin n) : s'.Counted j := by
  constructor
  · intro hnot
    have hcount := (hs.counted j).settled fun hsig => hnot ((h.signalling j).mpr hsig)
    by_cases hj : j = i
    · subst hj
      have hmove := h.move.count
      rw [h.self.1, h.self.2]
      omega
    · rw [(h.other hj).1, (h.other hj).2]
      exact hcount
  · intro hsig
    have hold := (h.signalling j).mp hsig
    rcases (hs.counted j).signalling hold with ⟨hinput, hcount⟩
    by_cases hj : j = i
    · subst hj
      rcases hold with ⟨_, woken, _, hwaiter⟩
      -- the worker is registered, so it keeps the state the pusher wrote
      have hreg := (henr.mem j).mp (List.mem_of_getElem? hwaiter)
      have hinput' := h.move.input hreg hinput
      have hmove := h.move.count
      rw [hinput, hinput'] at hmove
      rw [h.self.1, h.self.2]
      exact ⟨hinput', by omega⟩
    · rw [(h.other hj).1, (h.other hj).2]
      exact ⟨hinput, hcount⟩

theorem place (hs : s.Alert) (j : Fin n) : (s'.pcs j).Place (s'.workers j).ws := by
  by_cases hj : j = i
  · subst hj
    rw [h.self.1, h.self.2]
    exact h.move.place hs.input_of_woken
  · rw [(h.other hj).1, (h.other hj).2]
    exact hs.place j

/-- The waiters behind a pusher stay awake. -/
theorem woken (hlock : s.lock ≠ none) {k : Nat} (hk : s.Woken k) : s'.Woken k := by
  intro j hj i' hi'
  rw [(h.held hlock).2] at hi'
  have hawake := hk j hj i' hi'
  by_cases hi : i' = i
  · subst hi
    rw [h.self.1, h.self.2]
    -- the pusher holds the lock, so nobody registers
    refine h.move.awake (fun hfree => ?_) hawake
    exact absurd (Option.isNone_iff_eq_none.mp hfree) hlock
  · rw [(h.other hi).1, (h.other hi).2]
    exact hawake

theorem alert (hs : s.Alert) (henr : s.Enrolled) : s'.Alert where
  mutex := by
    unfold Mutex
    rw [h.lock, h.pushers]
    exact hs.mutex
  my_ws := by rw [h.move.setup.1, hs.my_ws]
  thres := by rw [h.move.setup.2, hs.thres]
  control := by
    intro j
    by_cases hj : j = i
    · subst hj
      rw [h.self.1, h.move.control, hs.control]
    · rw [(h.other hj).1, hs.control]
  place := h.place hs
  counted := h.counted hs henr
  push := by
    intro queue_sz woken hprogress
    rw [h.critical] at hprogress
    have hlock : s.lock ≠ none := by
      intro hnone
      rw [critical_eq_idle hnone] at hprogress
      cases hprogress
    rcases hs.push queue_sz woken hprogress with ⟨hsz, hlt, hwoken⟩
    exact ⟨by rw [(h.held hlock).1, hsz], hlt, h.woken hlock hwoken⟩

end WorkerStep

end WorkerStep

/-! ### Steps of a pusher -/

/-- `push` begins. -/
theorem Alert.pushNext {k : Fin m} {a : α} {bWake : Bool} (hs : s.Alert)
    (h : s.pushNext k a bWake = some s') : s'.Alert := by
  rcases pushNext_cases hs.thres h with ⟨hfree, hlock, hq, hworkers, hpcs, hpushers⟩
  have hcritical : s'.critical = .wake (s.q.queue.length + 1) 0 := by
    rw [critical_eq_of_lock hlock, hpushers, Function.update_self]
  -- neither before nor after is a pusher between writing a state and signalling
  have hquiet : ∀ i, ¬ s.Signalling i := by
    rintro i ⟨_, _, hcrit, _⟩
    rw [critical_eq_idle hfree] at hcrit
    cases hcrit
  have hquiet' : ∀ i, ¬ s'.Signalling i := by
    rintro i ⟨_, _, hcrit, _⟩
    rw [hcritical] at hcrit
    cases hcrit
  refine ⟨?_, by rw [hq, hs.my_ws], by rw [hq, hs.thres], by rw [hworkers]; exact hs.control,
    by rw [hworkers, hpcs]; exact hs.place, ?_, ?_⟩
  · intro k'
    rw [hlock, hpushers]
    by_cases hk : k' = k
    · subst hk
      simp
    · have hidle := hs.mutex k'
      rw [hfree] at hidle
      simpa [Function.update_of_ne hk, hk, Ne.symm hk] using hidle
  · intro i
    refine ⟨fun _ => ?_, fun hsig => absurd hsig (hquiet' i)⟩
    rw [hworkers, hpcs]
    exact (hs.counted i).settled (hquiet i)
  -- nobody was woken yet
  · intro queue_sz woken hprogress
    rw [hcritical] at hprogress
    obtain ⟨rfl, rfl⟩ := by simpa [PusherPc.progress] using hprogress
    exact ⟨by simp [hq], by omega, fun j hj => absurd hj (by omega)⟩

/-- A step of pusher `k` from `s` to `s'`. -/
structure PusherStep (s s' : Pool n m r α) (k : Fin m) (pc' : PusherPc) : Prop where
  pushers : s'.pushers = Function.update s.pushers k pc'
  lock : s'.lock = if pc' = .idle then none else s.lock
  q : s'.q = s.q
  pcs : s'.pcs = s.pcs
  move : PusherMove s.q s.workers (s.pushers k) s'.workers pc'

theorem signalling_iff {queue_sz woken : Nat} {pc : SetWsPc} {i : Fin n}
    (hcritical : s.critical = .setWs queue_sz woken pc) (hi : s.q.waiters[woken]? = some i)
    (j : Fin n) : s.Signalling j ↔ pc = .condex_wakeup ∧ j = i := by
  constructor
  · rintro ⟨_, _, hcrit, hj⟩
    rw [hcritical] at hcrit
    obtain ⟨rfl, rfl, rfl⟩ := by simpa using hcrit
    exact ⟨rfl, by simpa [hi] using hj.symm⟩
  · rintro ⟨rfl, rfl⟩
    exact ⟨_, _, hcritical, hi⟩

theorem not_signalling (hcritical : ∀ queue_sz woken pc, s.critical ≠ .setWs queue_sz woken pc)
    (i : Fin n) : ¬ s.Signalling i := by
  rintro ⟨_, _, hcrit, _⟩
  exact hcritical _ _ _ hcrit

namespace PusherStep

variable {k : Fin m} {pc' : PusherPc} (h : PusherStep s s' k pc')
include h

theorem lock_before (hs : s.Mutex) : s.lock = some k := by
  refine (hs k).mpr fun hidle => ?_
  have hmove := h.move
  rw [hidle] at hmove
  cases hmove

theorem critical_before (hs : s.Mutex) : s.critical = s.pushers k :=
  critical_eq_of_lock (h.lock_before hs)

theorem critical_after (hs : s.Mutex) : s'.critical = pc' := by
  by_cases hidle : pc' = .idle
  · rw [critical_eq_idle (by rw [h.lock, if_pos hidle]), hidle]
  · have hlock : s'.lock = some k := by rw [h.lock, if_neg hidle, h.lock_before hs]
    rw [critical_eq_of_lock hlock, h.pushers, Function.update_self]

theorem mutex (hs : s.Mutex) : s'.Mutex := by
  intro k'
  have hlock := h.lock_before hs
  rw [h.lock, hlock, h.pushers]
  by_cases hk : k' = k
  · subst hk
    by_cases hidle : pc' = .idle <;> simp [hidle]
  · have hother := hs k'
    rw [hlock] at hother
    rw [Function.update_of_ne hk, ← hother]
    by_cases hidle : pc' = .idle <;> simp [hidle, Ne.symm hk]

/-- A step leaves a worker alone, or it is a step of `set_ws` on a waiter. -/
theorem worker (hmy : s.q.my_ws = .INPUT_Q) (j : Fin n) :
    s'.workers j = s.workers j ∨
      (j ∈ s.q.waiters ∧ ∃ pc next, SetWsMove .INPUT_Q (s.workers j) pc (s'.workers j) next) := by
  have hupdate : ∀ {i : Fin n} {w' : Worker} {pc : SetWsPc} {next : Option SetWsPc},
      i ∈ s.q.waiters → SetWsMove s.q.my_ws (s.workers i) pc w' next →
      Function.update s.workers i w' j = s.workers j ∨ (j ∈ s.q.waiters ∧
        ∃ pc next, SetWsMove .INPUT_Q (s.workers j) pc (Function.update s.workers i w' j) next) := by
    intro i w' pc next hi hset
    by_cases hj : j = i
    · subst hj
      rw [Function.update_self]
      exact .inr ⟨hi, pc, next, hmy ▸ hset⟩
    · exact .inl (Function.update_of_ne hj _ _)
  have hmove := h.move
  generalize s.pushers k = pc, s'.workers = workers' at hmove ⊢
  cases hmove with
  | next _ => exact .inl rfl
  | stop _ => exact .inl rfl
  | set hi hset => exact hupdate (List.mem_of_getElem? hi) hset
  | turn hi hset => exact hupdate (List.mem_of_getElem? hi) hset

theorem place (hs : s.Alert) (henr : s.Enrolled) (j : Fin n) :
    (s'.pcs j).Place (s'.workers j).ws := by
  rw [h.pcs]
  rcases h.worker hs.my_ws j with hsame | ⟨hj, pc, next, hset⟩
  · rw [hsame]
    exact hs.place j
  · exact hset.place ((henr.mem j).mp hj) (hs.place j)

theorem control (hs : s.Alert) (j : Fin n) : (s'.workers j).control = .ACTIVE := by
  rcases h.worker hs.my_ws j with hsame | ⟨-, pc, next, hset⟩
  · rw [hsame, hs.control]
  · rw [hset.control, hs.control]

/-- Nobody falls asleep by a step of a pusher. -/
theorem awake (hs : s.Alert) {j : Fin n} (hj : (s.pcs j).blocked (s.workers j) = false) :
    (s'.pcs j).blocked (s'.workers j) = false := by
  rw [h.pcs]
  rcases h.worker hs.my_ws j with hsame | ⟨-, pc, next, hset⟩
  · rw [hsame]
    exact hj
  · exact hset.awake hj

theorem woken (hs : s.Alert) {k' : Nat} (hk : s.Woken k') : s'.Woken k' := by
  intro j hj i hi
  rw [h.q] at hi
  exact h.awake hs (hk j hj i hi)

end PusherStep

/-- The counters after a step of `set_ws` on a waiter. -/
theorem counted_of_set {queue_sz woken : Nat} {i : Fin n} {pc : SetWsPc} {w' : Worker}
    {next : Option SetWsPc} (hs : s.Alert)
    (hcritical : s.critical = .setWs queue_sz woken pc) (hi : s.q.waiters[woken]? = some i)
    (hset : SetWsMove .INPUT_Q (s.workers i) pc w' next)
    (hworkers : s'.workers = Function.update s.workers i w') (hpcs : s'.pcs = s.pcs)
    (hnext : ∀ j, s'.Signalling j ↔ next = some .condex_wakeup ∧ j = i) (j : Fin n) :
    s'.Counted j := by
  have hsignalling := signalling_iff hcritical hi
  have hcount := hs.counted j
  by_cases hj : j = i
  · subst hj
    have hsettled : pc ≠ .condex_wakeup → _ := fun hpc =>
      hcount.settled fun hsig => hpc ((hsignalling j).mp hsig).1
    have hsig : pc = .condex_wakeup → _ := fun hpc =>
      hcount.signalling ((hsignalling j).mpr ⟨hpc, rfl⟩)
    constructor
    · intro hnot
      rw [hworkers, hpcs, Function.update_self]
      exact hset.settled hsettled hsig fun hn => hnot ((hnext j).mpr ⟨hn, rfl⟩)
    · intro hsig'
      obtain ⟨rfl, -⟩ := (hnext j).mp hsig'
      rw [hworkers, hpcs, Function.update_self]
      exact hset.signalling hsettled
  · constructor
    · intro _
      rw [hworkers, hpcs, Function.update_of_ne hj]
      exact hcount.settled fun hsig => hj ((hsignalling j).mp hsig).2
    · intro hsig
      exact absurd ((hnext j).mp hsig).2 hj

/-- The counters after a step that works on nobody. -/
theorem counted_of_same (hs : s.Alert)
    (hbefore : ∀ queue_sz woken pc, s.critical ≠ .setWs queue_sz woken pc)
    (hafter : ∀ i, ¬ s'.Signalling i) (hworkers : s'.workers = s.workers)
    (hpcs : s'.pcs = s.pcs) (i : Fin n) : s'.Counted i := by
  refine ⟨fun _ => ?_, fun hsig => absurd hsig (hafter i)⟩
  rw [hworkers, hpcs]
  exact (hs.counted i).settled (not_signalling hbefore i)

namespace PusherStep

variable {k : Fin m} {queue_sz woken : Nat}

theorem turn_ne_setWs (queue_sz woken queue_sz' woken' : Nat) (pc : SetWsPc) :
    PusherPc.turn queue_sz woken ≠ .setWs queue_sz' woken' pc := by
  unfold PusherPc.turn
  split <;> simp

theorem counted {pc' : PusherPc} (h : PusherStep s s' k pc') (hs : s.Alert) (j : Fin n) :
    s'.Counted j := by
  have hbefore := h.critical_before hs.mutex
  have hafter := h.critical_after hs.mutex
  have hmove := h.move
  generalize hpc : s.pushers k = pc, hw : s'.workers = workers' at hmove
  rw [hpc] at hbefore
  cases hmove with
  | next _ =>
      refine counted_of_same hs (by simp [hbefore]) (fun i hsig => ?_) hw h.pcs j
      rcases hsig with ⟨_, _, hcrit, _⟩
      simp [hafter] at hcrit
  | stop _ =>
      exact counted_of_same hs (by simp [hbefore]) (not_signalling (by simp [hafter])) hw h.pcs j
  | @set _ _ i _ next _ hi hset =>
      refine counted_of_set hs hbefore hi (hs.my_ws ▸ hset) hw h.pcs (fun j => ?_) j
      rw [signalling_iff hafter (by rw [h.q]; exact hi) j, Option.some_inj]
  | turn hi hset =>
      refine counted_of_set hs hbefore hi (hs.my_ws ▸ hset) hw h.pcs (fun j => ?_) j
      have hnot := not_signalling (s := s') (by rw [hafter]; exact turn_ne_setWs _ _) j
      simp [hnot]

/-- At the end of a turn of the loop, one waiter more is awake. -/
theorem woken_turn (h : PusherStep s s' k (.turn queue_sz woken)) (hs : s.Alert)
    (henr : s.Enrolled) {pc : SetWsPc} (hpc : s.pushers k = .setWs queue_sz woken pc) {i : Fin n}
    {w' : Worker} (hi : s.q.waiters[woken]? = some i)
    (hset : SetWsMove .INPUT_Q (s.workers i) pc w' none)
    (hw : s'.workers = Function.update s.workers i w') : s'.Woken (woken + 1) := by
  have hbefore : s.critical = .setWs queue_sz woken pc := by rw [h.critical_before hs.mutex, hpc]
  have hafter := h.critical_after hs.mutex
  rcases hs.push queue_sz woken (by rw [hbefore]; rfl) with ⟨-, -, hwoken⟩
  intro j hj i' hi'
  rcases Nat.lt_succ_iff_lt_or_eq.mp hj with hlt | rfl
  · exact h.woken hs hwoken j hlt i' hi'
  · obtain rfl : i = i' := by
      rw [h.q, hi] at hi'
      exact Option.some.inj hi'
    have hcommit : (s.workers i).ws ≠ .COMMIT_Q := by
      have hreg := (henr.mem i).mp (List.mem_of_getElem? hi)
      have hplace := hs.place i
      generalize s.pcs i = wpc at hreg hplace
      cases wpc <;> simp_all [WorkerPc.registered, WorkerPc.Place] <;>
        rcases hplace with hws | hws <;> simp [hws]
    have hinput : (s'.workers i).ws = .INPUT_Q := by
      rw [hw, Function.update_self]
      refine hset.input hcommit fun hwake => ?_
      exact ((hs.counted i).signalling ((signalling_iff hbefore hi i).mpr ⟨hwake, rfl⟩)).1
    refine (h.counted hs i).awake hinput (not_signalling ?_ i)
    rw [hafter]
    exact turn_ne_setWs _ _

theorem alert {pc' : PusherPc} (h : PusherStep s s' k pc') (hs : s.Alert) (henr : s.Enrolled) :
    s'.Alert where
  mutex := h.mutex hs.mutex
  my_ws := by rw [h.q, hs.my_ws]
  thres := by rw [h.q, hs.thres]
  control := h.control hs
  place := h.place hs henr
  counted := h.counted hs
  push := by
    intro queue_sz woken hprogress
    rw [h.critical_after hs.mutex] at hprogress
    have hpush := hs.push
    rw [h.critical_before hs.mutex] at hpush
    have hmove := h.move
    generalize hpc : s.pushers k = pc, hw : s'.workers = workers' at hmove
    rw [hpc] at hpush
    rw [h.q]
    cases hmove with
    | next _ =>
        obtain ⟨rfl, rfl⟩ := by simpa [PusherPc.progress] using hprogress
        rcases hpush _ _ rfl with ⟨hsz, hlt, hwoken⟩
        exact ⟨hsz, hlt, h.woken hs hwoken⟩
    | stop _ => cases hprogress
    | set _ _ =>
        obtain ⟨rfl, rfl⟩ := by simpa [PusherPc.progress] using hprogress
        rcases hpush _ _ rfl with ⟨hsz, hlt, hwoken⟩
        exact ⟨hsz, hlt, h.woken hs hwoken⟩
    | turn hi hset =>
        rcases hpush _ _ rfl with ⟨hsz, hlt, hwoken⟩
        -- `set_ws` has returned for one more waiter
        have hone := h.woken_turn hs henr hpc hi (hs.my_ws ▸ hset) hw
        unfold PusherPc.turn at hprogress
        split at hprogress
        · cases hprogress
        · obtain ⟨rfl, rfl⟩ := by simpa [PusherPc.progress] using hprogress
          exact ⟨hsz, by omega, hone⟩

end PusherStep

/-! ## Counting -/

/-- The workers inside `pop`. -/
def poppers (s : Pool n m r α) : Finset (Fin n) :=
  Finset.univ.filter fun i => (s.pcs i).inPop = true

/-- Those of them that are not blocked. -/
def awakePoppers (s : Pool n m r α) : Finset (Fin n) :=
  Finset.univ.filter fun i => (s.pcs i).inPop = true ∧ (s.pcs i).blocked (s.workers i) = false

/-- The requests in the queue, without that of a `push` inside its critical section. -/
def announced (s : Pool n m r α) : Nat :=
  s.q.queue.length - if s.lock = none then 0 else 1

/-- Of the workers inside `pop`, as many as there are requests are not blocked. -/
def Enough (s : Pool n m r α) : Prop := min s.announced s.poppers.card ≤ s.awakePoppers.card

theorem card_poppers (s : Pool n m r α) :
    s.poppers.card = ∑ i, popWeight (s.workers i, s.pcs i) := Finset.card_filter _ _

theorem card_awakePoppers (s : Pool n m r α) :
    s.awakePoppers.card = ∑ i, awakeWeight (s.workers i, s.pcs i) := Finset.card_filter _ _

theorem WorkerStep.enough {i : Fin n} {w' : Worker} {pc' : WorkerPc α}
    (h : WorkerStep s s' i w' pc') (hs : s.Enough) : s'.Enough := by
  have htable : (fun j => (s'.workers j, s'.pcs j)) =
      Function.update (fun j => (s.workers j, s.pcs j)) i (w', pc') := by
    funext j
    rw [h.workers, h.pcs]
    by_cases hj : j = i
    · subst hj
      simp
    · simp [hj]
  have hpop := sum_update popWeight (fun j => (s.workers j, s.pcs j)) i (w', pc')
  have hawake := sum_update awakeWeight (fun j => (s.workers j, s.pcs j)) i (w', pc')
  rw [← htable] at hpop hawake
  simp only [← card_poppers, ← card_awakePoppers] at hpop hawake
  unfold Enough announced at hs ⊢
  rw [h.lock]
  rcases h.move.weight with ⟨hfree, hlen, hp, ha, hp', ha'⟩ | ⟨hlen, hlen'⟩ | ⟨hlen, ha, hp⟩
  · rw [if_pos (Option.isNone_iff_eq_none.mp hfree)] at hs ⊢
    omega
  · omega
  · rw [hlen]
    omega

theorem pushNext_enough {k : Fin m} {a : α} {bWake : Bool} (hs : s.Alert) (henough : s.Enough)
    (h : s.pushNext k a bWake = some s') : s'.Enough := by
  rcases pushNext_cases hs.thres h with ⟨hfree, hlock, hq, hworkers, hpcs, -⟩
  have hpop : s'.poppers = s.poppers := by simp only [poppers, hpcs]
  have hawake : s'.awakePoppers = s.awakePoppers := by simp only [awakePoppers, hpcs, hworkers]
  unfold Enough announced at henough ⊢
  rw [hpop, hawake, hlock, hq]
  rw [hfree] at henough
  simpa using henough

/-- With all waiters awake, nobody inside `pop` is blocked. -/
theorem awakePoppers_eq (henr : s.Enrolled) {k : Nat} (hk : s.q.waiters.length ≤ k)
    (hwoken : s.Woken k) : s.awakePoppers = s.poppers := by
  refine Finset.filter_congr fun i _ => ⟨fun h => h.1, fun hpop => ⟨hpop, ?_⟩⟩
  by_cases hreg : (s.pcs i).registered = true
  · rcases List.getElem?_of_mem ((henr.mem i).mpr hreg) with ⟨j, hj⟩
    have hlt : j < s.q.waiters.length := (List.getElem?_eq_some_iff.mp hj).1
    exact hwoken j (by omega) i hj
  · exact WorkerPc.not_blocked_of_unregistered (by simpa using hreg) _

/-- With the first `k` waiters awake, `k` workers inside `pop` are not blocked. -/
theorem le_card_awakePoppers (henr : s.Enrolled) {k : Nat} (hk : k ≤ s.q.waiters.length)
    (hwoken : s.Woken k) : k ≤ s.awakePoppers.card := by
  have hnodup : (s.q.waiters.take k).Nodup := henr.nodup.sublist (List.take_sublist k _)
  have hcard : (s.q.waiters.take k).toFinset.card = k := by
    rw [List.toFinset_card_of_nodup hnodup, List.length_take, Nat.min_eq_left hk]
  rw [← hcard]
  refine Finset.card_le_card fun i hi => ?_
  rw [List.mem_toFinset] at hi
  rcases List.getElem?_of_mem hi with ⟨j, hj⟩
  rw [List.getElem?_take] at hj
  split at hj
  · next hlt =>
      have hreg := (henr.mem i).mp (List.mem_of_getElem? hj)
      exact Finset.mem_filter.mpr
        ⟨Finset.mem_univ i, WorkerPc.inPop_of_registered hreg, hwoken j hlt i hj⟩
  · cases hj

theorem PusherStep.enough {k : Fin m} {pc' : PusherPc} (h : PusherStep s s' k pc') (hs : s.Alert)
    (henr : s.Enrolled) (henr' : s'.Enrolled) (henough : s.Enough) : s'.Enough := by
  have hpop : s'.poppers = s.poppers := by simp only [poppers, h.pcs]
  have hawake : s.awakePoppers.card ≤ s'.awakePoppers.card := by
    refine Finset.card_le_card fun i hi => ?_
    simp only [awakePoppers, Finset.mem_filter] at hi ⊢
    exact ⟨hi.1, by rw [h.pcs]; exact hi.2.1, h.awake hs hi.2.2⟩
  by_cases hidle : pc' = .idle
  · -- the end of `push`
    have hlock' : s'.lock = none := by rw [h.lock, if_pos hidle]
    unfold Enough announced
    rw [hlock', if_pos rfl, Nat.sub_zero]
    have hpush := hs.push
    rw [h.critical_before hs.mutex] at hpush
    have hmove := h.move
    generalize hpc : s.pushers k = pc, hw : s'.workers = workers' at hmove
    rw [hpc] at hpush
    cases hmove with
    | next _ => cases hidle
    | set _ _ => cases hidle
    -- there are no more waiters: all of them are awake
    | stop hge =>
        rcases hpush _ _ rfl with ⟨-, -, hwoken⟩
        rw [awakePoppers_eq henr' (by rw [h.q]; exact hge) (h.woken hs hwoken)]
        exact Nat.min_le_right _ _
    -- as many were woken as there are requests
    | @turn queue_sz woken i _ _ hi hset =>
        rcases hpush _ _ rfl with ⟨hsz, hlt, -⟩
        have hall := h.woken_turn hs henr hpc hi (hs.my_ws ▸ hset) hw
        have hlast : woken + 1 = queue_sz := by
          unfold PusherPc.turn at hidle
          split at hidle
          · assumption
          · cases hidle
        have hlen : woken < s.q.waiters.length := (List.getElem?_eq_some_iff.mp hi).1
        have hcard := le_card_awakePoppers henr' (by rw [h.q]; exact hlen) hall
        rw [h.q, ← hsz, ← hlast]
        exact le_trans (Nat.min_le_left _ _) hcard
  · unfold Enough announced at henough ⊢
    rw [h.lock, if_neg hidle, h.q, hpop]
    omega

end Pool

section Main

variable {xct : α → Option Nat} {s : Pool n m 0 α}

theorem start_alert (lc : Int) : (Pool.start (inputQueue lc) fun _ => .ACTIVE :
    Pool n m r α).Alert where
  mutex := by intro k; simp [Pool.start]
  my_ws := rfl
  thres := rfl
  control := fun _ => rfl
  place := by intro i; simp [Pool.start, WorkerPc.Place]
  counted := by
    intro i
    refine ⟨fun _ => rfl, fun hsig => ?_⟩
    rcases hsig with ⟨_, _, hcrit, _⟩
    cases hcrit
  push := by intro queue_sz woken h; cases h

/-- A step of the active pool: a worker, a pusher that begins, or one that goes on. -/
theorem activePool_cases {act : PoolAction n m 0 α} {s' : Pool n m 0 α} (hs : s.Alert)
    (h : (activePool xct n m).next act s = some s') :
    (∃ i w' pc', s.WorkerStep s' i w' pc') ∨ (∃ k a bWake, s.pushNext k a bWake = some s') ∨
      ∃ k pc', s.PusherStep s' k pc' := by
  simp only [activePool, Pool.next] at h
  split at h
  · cases h
  · cases act with
    | worker i =>
        simp only [Pool.workerNext, Option.map_eq_some_iff, Prod.exists] at h
        rcases h with ⟨q', w', pc', ev, hstep, rfl⟩
        have hmove := workerStep_activeMove hstep (hs.control i) hs.my_ws (hs.place i)
        exact .inl ⟨i, w', pc', by simp, by simp, by simp, by simp, by simpa using hmove⟩
    | push k a bWake => exact .inr (.inl ⟨k, a, bWake, h⟩)
    | pusher k =>
        rcases Pool.pusherNext_cases h with ⟨pc', hpushers, hlock, hq, hpcs, hmove⟩
        exact .inr (.inr ⟨k, pc', hpushers, hlock, hq, hpcs, hmove⟩)
    | command c cmd => exact c.elim0
    | controller c => exact c.elim0

theorem activePool_enough (h : (activePool xct n m).Reachable s) : s.Alert ∧ s.Enough := by
  refine Machine.Reachable.invariant (P := fun s => s.Alert ∧ s.Enough) ?_ ?_ h
  · rintro s ⟨lc, rfl⟩
    exact ⟨start_alert lc, by simp [Pool.Enough, Pool.announced, Pool.start]⟩
  · intro s act s' hr hs hn
    rcases hs with ⟨halert, henough⟩
    have henr := Pool.enrolled (activePool_reachable hr)
    have henr' := Pool.enrolled (activePool_reachable (hr.step act hn))
    rcases activePool_cases halert hn with
      ⟨i, w', pc', hstep⟩ | ⟨k, a, bWake, hpush⟩ | ⟨k, pc', hstep⟩
    · exact ⟨hstep.alert halert henr, hstep.enough henough⟩
    · exact ⟨halert.pushNext hpush, Pool.pushNext_enough halert henough hpush⟩
    · exact ⟨hstep.alert halert henr, hstep.enough halert henr henr' henough⟩

/-- **No lost wake-up.** Of the workers inside `pop`, at least as many as there are requests in
the queue are not blocked, and one fewer while a `push` is inside its critical section. So
outside of it a request never waits for workers that all sleep. -/
theorem no_lost_wakeup (h : (activePool xct n m).Reachable s) :
    min (s.q.queue.length - if s.lock = none then 0 else 1) s.poppers.card
        ≤ s.awakePoppers.card ∧
      (s.lock = none →
        min s.q.queue.length s.poppers.card ≤ s.awakePoppers.card ∧
          (s.q.queue ≠ [] → s.poppers.Nonempty → s.awakePoppers.Nonempty)) := by
  have henough : min (s.q.queue.length - if s.lock = none then 0 else 1) s.poppers.card
      ≤ s.awakePoppers.card := (activePool_enough h).2
  refine ⟨henough, fun hfree => ?_⟩
  rw [if_pos hfree, Nat.sub_zero] at henough
  refine ⟨henough, fun hqueue hpop => ?_⟩
  have hlen := List.length_pos_iff.mpr hqueue
  have hcard := Finset.card_pos.mpr hpop
  exact Finset.card_pos.mp (by omega)

end Main

/-- A worker falls asleep. -/
def fallAsleep : List (PoolAction 1 1 0 Nat) := List.replicate 8 (.worker 0)

/-- A sleeping worker, after `push` has woken it. -/
theorem no_lost_wakeup_sleeper : ∃ s : Pool 1 1 0 Nat,
    (activePool (fun _ => none) 1 1).Reachable s ∧ s.lock = none ∧ s.q.queue = [7] ∧
      s.pcs 0 = .sleeping ∧ s.awakePoppers.Nonempty := by
  obtain ⟨s, hs, hlock, hqueue, hpc⟩ := Machine.Reachable.exists_of_exec
    (P := fun s : Pool 1 1 0 Nat => s.lock = none ∧ s.q.queue = [7] ∧ s.pcs 0 = .sleeping)
    (fallAsleep ++ [.push 0 7 false] ++ List.replicate 4 (.pusher 0))
    (show (activePool (fun _ => none) 1 1).init _ from ⟨0, rfl⟩) (by decide +kernel)
  have hpop : s.poppers.Nonempty := ⟨0, by simp [Pool.poppers, hpc, WorkerPc.inPop]⟩
  exact ⟨s, hs, hlock, hqueue, hpc,
    ((no_lost_wakeup hs).2 hlock).2 (by rw [hqueue]; simp) hpop⟩

/-- After `push_back` and before `set_ws`, the queue holds a request and the only worker
sleeps. -/
theorem asleep_inside_push : ∃ s : Pool 1 1 0 Nat,
    (activePool (fun _ => none) 1 1).Reachable s ∧
      ¬ min s.q.queue.length s.poppers.card ≤ s.awakePoppers.card ∧
      s.q.queue ≠ [] ∧ ∀ i, (s.pcs i).blocked (s.workers i) = true := by
  obtain ⟨s, hs, hgoal⟩ := Machine.Reachable.exists_of_exec
    (P := fun s : Pool 1 1 0 Nat => ¬ min s.q.queue.length s.poppers.card ≤ s.awakePoppers.card ∧
      s.q.queue ≠ [] ∧ ∀ i, (s.pcs i).blocked (s.workers i) = true)
    (fallAsleep ++ [.push 0 7 false])
    (show (activePool (fun _ => none) 1 1).init _ from ⟨0, rfl⟩) (by decide +kernel)
  exact ⟨s, hs, hgoal⟩

end TailBench.Shore
