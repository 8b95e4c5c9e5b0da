import TailBench.Harness.AtRest

set_option autoImplicit false

/-! # What the workers wait for

`recvReq` waits in one of three `select`s, under `recvLock`, so that nobody else can accept a
client or read a request meanwhile. The one after a new client has been accepted leaves out
`listenFd`: while the clients that are there stay silent, nobody else is accepted. Nor is anybody
while a worker waits, inside a `recvfull`, for the rest of a request.
-/

namespace TailBench

open Lib

namespace NetServer

variable {n : Nat} {listenFd : Fd} {s s' : NetServer n}

/-- Every worker that waits in `select` waits for new connections and for every client, and
each of them wakes it up. -/
structure Attentive (listenFd : Fd) (s : NetServer n) : Prop where
  watches : ∀ i watch, (s.workers i).watch listenFd s.data = some watch →
    listenFd ∈ watch ∧ s.data.clientFds ⊆ watch
  wakes : s.data.proc = .running → ∀ i watch, (s.workers i).watch listenFd s.data = some watch →
    ∀ fd, fd = listenFd ∨ fd ∈ s.data.clientFds → s.data.ready listenFd fd = true →
      (s.next listenFd (.worker i (.ready [fd]))).isSome = true

/-- **Which waits are good**: all but the one after a new client. -/
theorem attentive_iff (hf : s.Fds listenFd) :
    s.Attentive listenFd ↔ ∀ i, s.workers i ≠ .reselect := by
  constructor
  · intro h i hi
    -- `listenFd` is no connection, so it is not among the clients
    obtain ⟨hmem, -⟩ := h.watches i s.data.clientFds (by rw [hi]; rfl)
    exact (hf.data.clients listenFd hmem).1 hf.data.listener
  · intro h
    have hwatch : ∀ i watch, (s.workers i).watch listenFd s.data = some watch →
        listenFd ∈ watch ∧ s.data.clientFds ⊆ watch := fun i watch hw =>
      ⟨ServerPc.watch_listen hw (h i), ServerPc.watch_clients hw⟩
    refine ⟨hwatch, fun hrun i watch hw fd hfd hready => next_ready hrun hw ?_ hready⟩
    obtain ⟨hlisten, hclients⟩ := hwatch i watch hw
    rcases hfd with rfl | hmem
    · exact hlisten
    · exact hclients hmem

/-- The server does not wait for its clients while somebody else connects: when a process that
runs comes to rest, everybody was accepted, and a client that connects then wakes it up. -/
def Accepting (listenFd : Fd) (s : NetServer n) : Prop :=
  s.data.proc = .running → s.AtRest listenFd → s.data.backlog = [] ∧
    ∀ fd s', s.next listenFd (.connect fd) = some s' → ¬ s'.AtRest listenFd

end NetServer

/-- A connection is accepted only while there are no clients. -/
def AcceptsFirst {n : Nat} (s : NetServer n) : ServerAction n → Prop
  | .worker i .accepted => ∀ rs, s.workers i ≠ .acceptMore rs
  | _ => True

section Reachable

variable {n : Nat} {listenFd : Fd} {s : NetServer n}

theorem scanStep_ne_reselect {d d' : ServerData n} {rs : List Fd} {op : LockOp Mutex} :
    d.scanStep rs ≠ (d', .reselect, op) := by
  intro h
  unfold ServerData.scanStep at h
  split at h
  · cases h
  · cases h

/-- Only an accepted connection leads to the third `select`. -/
theorem serverStep_reselect {i : Fin n} {d d' : ServerData n} {pc : ServerPc}
    {inp : ServerInput} {op : LockOp Mutex}
    (h : serverStep listenFd i d pc inp = some (d', .reselect, op)) :
    pc = .reselect ∨ inp = .accepted ∧ ∃ rs, pc = .acceptMore rs := by
  by_cases hch : pc.choosing
  · have hmove := serverStep_choosing hch h
    generalize hpc' : ServerPc.reselect = pc' at hmove
    cases hmove with
    | acceptMore => exact .inr ⟨rfl, _, rfl⟩
    | rescan => exact .inl hpc'
    | reselectError => exact .inl rfl
    | scan _ _ _ hscan | failMore hscan | closeMore _ hscan =>
        subst hpc'
        exact absurd hscan scanStep_ne_reselect
    | _ => cases hpc'
  -- other places lead to it by no step
  · exfalso
    have hmove := serverStep_move h
    generalize hpc' : ServerPc.reselect = pc' at hmove
    cases hmove with
    | choose hpc hpc' => exact hch hpc
    | selectError hpc => exact hch hpc
    | accept hpc hb hpc' => exact hch hpc
    | acceptClose hpc hb hpc' => exact hch hpc
    | cut | full =>
        subst hpc'
        exact hch trivial
    | _ => cases hpc'

theorem netServer_noReselect (h : (netServer listenFd n).ReachableBy AcceptsFirst s) :
    ∀ i, s.workers i ≠ .reselect := by
  refine Machine.ReachableBy.invariant (P := fun s : NetServer n =>
    ∀ i, s.workers i ≠ .reselect) ?_ ?_ h
  · rintro s rfl i hi
    cases hi
  · intro s a s' _ hs hok hn j hj
    obtain ⟨-, hmove⟩ := NetServer.next_move hn
    cases hmove with
    | @worker i inp d pc op locks hm hop hstep =>
        by_cases hji : j = i
        · subst hji
          obtain rfl : pc = .reselect := by simpa [NetServer.afterWorker] using hj
          rcases serverStep_reselect hstep with hold | ⟨rfl, rs, hmore⟩
          · exact hs j hold
          · exact hok rs hmore
        · exact hs j (by simpa [NetServer.afterWorker, hji] using hj)
    | finisher hm hop => exact hs j hj
    | connect | arrive | hangup => exact hs j hj

/-- **What a worker waits for.** In every reachable state, the workers in `select` wait for new
connections and all clients, and wake up for each of them, if and only if none of them waits in
the `select` after a new client. When a process that runs comes to rest, a client that connects
stays unaccepted if and only if a worker is in that `select` or inside a `recvfull`; and where
nobody is, all clients were accepted. In a run in which connections are accepted only while there
are no clients, nobody ever is in that `select`; and nobody is inside a `recvfull` at rest unless
an open client is silent inside a request. -/
theorem select_watches_all (h : (netServer listenFd n).Reachable s) :
    (s.Attentive listenFd ↔ ∀ i, s.workers i ≠ .reselect) ∧
    (0 < n → s.data.proc = .running → s.AtRest listenFd →
      (s.data.backlog ≠ [] → ∃ i, s.Deaf i) ∧
      ∀ fd s', s.next listenFd (.connect fd) = some s' →
        (s'.AtRest listenFd ↔ ∃ i, s.Deaf i)) ∧
    ((netServer listenFd n).ReachableBy AcceptsFirst s →
      s.Attentive listenFd ∧
      (0 < n → (s.AtRest listenFd → s.Whole) → s.Accepting listenFd)) := by
  have hiff := NetServer.attentive_iff (netServer_fds h)
  refine ⟨hiff, fun hn hrun hrest => ⟨fun hback => ?_, fun fd s' hnext => ⟨fun hrest' => ?_, ?_⟩⟩,
    fun hby => ⟨hiff.mpr (netServer_noReselect hby), fun hn hwhole hrun hrest => ?_⟩⟩
  · by_contra hno
    exact hback (hrest.accepting hrun h hn (not_exists.mp hno)).1
  · by_contra hno
    exact (hrest.accepting hrun h hn (not_exists.mp hno)).2 fd s' hnext hrest'
  · rintro ⟨i, hi⟩
    exact hrest.connect_deaf h hi hnext
  · have hno := (hrest.whole_iff hrun h hn).mp (hwhole hrest)
    exact hrest.accepting hrun h hn fun i hi =>
      hi.elim (netServer_noReselect hby i) fun hr => hr (hno i)

end Reachable

/-! ### One client, and three -/

/-- The first client. -/
def firstClient : List (ServerAction 1) :=
  [.connect 4, .worker 0 .tau, .worker 0 (.ready [3]), .worker 0 .accepted]

/-- A test for `AcceptsFirst`. -/
def smallAccepts (s : NetServer 1) : ServerAction 1 → Bool
  | .worker i .accepted => s.workers i = .acceptFirst
  | _ => true

theorem acceptsFirst_of_smallAccepts (s : NetServer 1) (a : ServerAction 1)
    (h : smallAccepts s a = true) : AcceptsFirst s a := by
  cases a with
  | worker i inp =>
      cases inp with
      | accepted =>
          intro rs hrs
          have hfirst : s.workers i = .acceptFirst := by simpa [smallAccepts] using h
          rw [hrs] at hfirst
          cases hfirst
      | _ => trivial
  | _ => trivial

/-- With the first client accepted and silent, the server is at rest; a second connection wakes
the worker up. -/
theorem select_watches_all_firstClient :
    ∃ s s', (netServer 3 1).ReachableBy AcceptsFirst s ∧ s.data.clientFds = [4] ∧ s.AtRest 3 ∧
      s.next 3 (.connect 5) = some s' ∧ ¬ s'.AtRest 3 ∧
      (s'.next 3 (.worker 0 (.ready [3]))).isSome = true := by
  obtain ⟨s, hs, ⟨hrun, hfin, hlock, hw⟩, hfds, hback, hconn, hfree⟩ :=
    Machine.Reachable.exists_of_exec
    (P := fun s : NetServer 1 => (s.data.proc = .running ∧ s.finisher = .idle ∧
      s.locks .recvLock ≠ none ∧ s.workers 0 = .loop) ∧ s.data.clientFds = [4] ∧
      s.data.backlog = [] ∧ s.data.conns 4 = some {} ∧ s.data.conns 5 = none) firstClient
    (show ((netServer 3 1).guard smallAccepts).init NetServer.start from rfl) (by decide +kernel)
  have hby := Machine.Reachable.of_guard acceptsFirst_of_smallAccepts hs
  have hwatch : (s.workers 0).watch 3 s.data = some [3, 4] := by
    rw [hw]
    simp [ServerPc.watch, hfds]
  have hrest : s.AtRest 3 := by
    refine NetServer.atRest_of_step hfin
      (fun inp => NetServer.serverStep_select_none hwatch fun fd hfd => ?_) hlock
      fun j hj => absurd (Subsingleton.elim j 0) hj
    rcases List.mem_pair.mp hfd with rfl | rfl
    · simp [ServerData.ready, hback]
    · simp [ServerData.ready, hconn, Conn.readable, Conn.unread]
  have hwhole : s.Whole := by
    intro fd hfd c hc _
    rw [hfds, List.mem_singleton] at hfd
    rw [hfd, hconn] at hc
    cases hc
    exact ⟨[], List.forall_mem_nil _, rfl⟩
  obtain ⟨s', hs', hw', hfds', hback', hrun'⟩ : ∃ s', s.next 3 (.connect 5) = some s' ∧
      s'.workers 0 = .loop ∧ s'.data.clientFds = [4] ∧ s'.data.backlog = [5] ∧
      s'.data.proc = .running := by
    simp [NetServer.next, hrun, hfree, hw, hfds, hback]
  have hok : AcceptsFirst s (.connect 5) := trivial
  have hby' : (netServer 3 1).ReachableBy AcceptsFirst s' := .step _ hby hok hs'
  obtain ⟨-, haccept⟩ := (select_watches_all hby.reachable).2.2 hby
  obtain ⟨hatt, -⟩ := (select_watches_all hby'.reachable).2.2 hby'
  refine ⟨s, s', hby, hfds, hrest, hs',
    (haccept Nat.one_pos (fun _ => hwhole) hrun hrest).2 5 s' hs',
    hatt.wakes hrun' 0 [3, 4] ?_ 3 (.inl rfl) ?_⟩
  · rw [hw']
    simp [ServerPc.watch, hfds']
  · simp [ServerData.ready, hback']

/-- With two clients accepted one after the other, the worker waits for these two; they stay
silent, a third one connects, and the worker cannot go on. -/
theorem connection_ignored :
    ∃ s, (netServer 3 1).Reachable s ∧ s.data.proc = .running ∧ s.data.backlog = [6] ∧
      s.workers 0 = .reselect ∧ (s.workers 0).watch 3 s.data = some [4, 5] ∧
      (∀ rs, s.next 3 (.worker 0 (.ready rs)) = none) ∧ ¬ s.Attentive 3 := by
  obtain ⟨s, hs, hrun, hfds, hback, hw, h4, h5⟩ := Machine.Reachable.exists_of_exec
    (P := fun s : NetServer 1 => s.data.proc = .running ∧ s.data.clientFds = [4, 5] ∧
      s.data.backlog = [6] ∧ s.workers 0 = .reselect ∧ s.data.ready 3 4 = false ∧
      s.data.ready 3 5 = false)
    (firstClient ++ [.connect 5, .worker 0 (.ready [3]), .worker 0 .accepted, .connect 6])
    (show (netServer 3 1).init NetServer.start from rfl) (by decide +kernel)
  have hsel : ∀ rs, s.data.selects 3 [4, 5] rs = false := by
    intro rs
    cases rs with
    | nil => simp [ServerData.selects]
    | cons fd rs =>
        simp only [ServerData.selects, decide_eq_false_iff_not]
        intro hall
        obtain ⟨hmem, hr⟩ := hall.2 fd List.mem_cons_self
        rcases List.mem_pair.mp hmem with rfl | rfl
        · rw [h4] at hr
          cases hr
        · rw [h5] at hr
          cases hr
  refine ⟨s, hs, hrun, hback, hw, by rw [hw]; simp [ServerPc.watch, hfds], fun rs => ?_,
    fun hatt => ?_⟩
  · simp [NetServer.next, hrun, hw, serverStep, hfds, hsel rs]
  · obtain ⟨hmem, -⟩ := hatt.watches 0 [4, 5] (by rw [hw]; simp [ServerPc.watch, hfds])
    simp at hmem

end TailBench
