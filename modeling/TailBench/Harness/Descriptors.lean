import TailBench.Harness.Isolation

set_option autoImplicit false

/-! # Open descriptors and live clients

The server serves any number of clients, one after the other. Two things follow from
`removeClient`:

* it does not close the descriptor, so a descriptor that was accepted stays open for the rest of
  the run, and descriptors leak with every client that leaves;
* `checkRecv` calls it for a request without data, whose client is still there.
-/

namespace TailBench

open Lib

/-! ## Open descriptors -/

/-- The descriptor a worker still needs for the request it works on. -/
def ServerPc.needs (active : Fd) : ServerPc → Option Fd
  | .unlockRecv | .serving | .sendLocked => some active
  | .sending fd _ => some fd
  | _ => none

namespace NetServer

variable {n : Nat} {listenFd : Fd} {s s' : NetServer n}

/-- The descriptors that are needed for requests in progress. -/
def needed (s : NetServer n) : List Fd :=
  (List.finRange n).filterMap fun i => (s.workers i).needs (s.data.activeFds i)

/-- The accepted descriptors that are open are those of the clients, and those that are needed
for requests in progress. -/
def Accounted (s : NetServer n) : Prop :=
  ∀ fd, s.data.Accepted fd ↔ fd ∈ s.data.clientFds ∨ fd ∈ s.needed

/-- Clients and descriptors in use are open. -/
theorem Fds.accepted (h : s.Fds listenFd) {fd : Fd}
    (hfd : fd ∈ s.data.clientFds ∨ fd ∈ s.needed) : s.data.Accepted fd := by
  rcases hfd with hmem | hneed
  · exact h.data.clients fd hmem
  · obtain ⟨i, -, hi⟩ := List.mem_filterMap.mp hneed
    have hok := h.workers i
    cases hw : s.workers i with
    | unlockRecv | serving | sendLocked =>
        rw [hw] at hi hok
        cases hi
        exact hok.active trivial
    | sending fd' rest =>
        rw [hw] at hi hok
        cases hi
        exact hok.outgoing fd rest rfl
    | _ =>
        rw [hw] at hi
        cases hi

/-- **The bound.** Where the open descriptors are accounted for, there are at most as many as
clients and workers together. -/
theorem Accounted.length_le (h : s.Accounted) {fds : List Fd} (hnodup : fds.Nodup)
    (hacc : ∀ fd ∈ fds, s.data.Accepted fd) : fds.length ≤ s.data.clientFds.length + n := by
  have hsub : fds ⊆ s.data.clientFds ++ s.needed := by
    intro fd hfd
    exact List.mem_append.mpr ((h fd).mp (hacc fd hfd))
  have hneed : s.needed.length ≤ n := by
    calc s.needed.length ≤ (List.finRange n).length := List.length_filterMap_le _ _
      _ = n := List.length_finRange
  calc fds.length ≤ (s.data.clientFds ++ s.needed).length :=
        (List.subperm_of_subset hnodup hsub).length_le
    _ = s.data.clientFds.length + s.needed.length := List.length_append
    _ ≤ s.data.clientFds.length + n := by omega

/-- A client that was removed stays removed, and its descriptor stays open. -/
theorem gone_of_leads {fd : Fd} (h : (netServer listenFd n).Leads s s')
    (hfd : s.data.Accepted fd) (hgone : fd ∉ s.data.clientFds) :
    s'.data.Accepted fd ∧ fd ∉ s'.data.clientFds := by
  refine h.invariant (P := fun s : NetServer n => s.data.Accepted fd ∧ fd ∉ s.data.clientFds)
    ?_ ⟨hfd, hgone⟩
  rintro s a s' ⟨hacc, hgone⟩ hn
  obtain ⟨-, hmove⟩ := NetServer.next_move hn
  refine ⟨hmove.accepted hacc, fun hmem => ?_⟩
  -- it would have to come from the backlog, where the accepted ones are not
  rcases hmove.newClient hmem with hold | hback
  · exact hgone hold
  · exact hacc.2 hback

end NetServer

/-- No client is removed. -/
def KeepsClients {n : Nat} (s : NetServer n) (a : ServerAction n) : Prop :=
  ∀ fd, ¬ s.Removes fd a

section Leaving

variable {n : Nat} {listenFd : Fd} {s : NetServer n}

/-- While no client is removed, the open descriptors are those of the clients. -/
theorem netServer_accounted (h : (netServer listenFd n).ReachableBy KeepsClients s) :
    ∀ fd, s.data.Accepted fd → fd ∈ s.data.clientFds := by
  refine Machine.ReachableBy.invariant (P := fun s : NetServer n =>
    ∀ fd, s.data.Accepted fd → fd ∈ s.data.clientFds) ?_ ?_ h
  · rintro s rfl fd hfd
    exact absurd rfl hfd.1
  · intro s a s' _ hs hok hn fd hfd
    rcases (NetServer.next_move hn).2.stays hfd with hmem | ⟨hacc, hgone | hremoved⟩
    · exact hmem
    · exact absurd (hs fd hacc) hgone
    · exact absurd hremoved (hok fd)

/-- **Open descriptors.** In every run in which no client is removed, the accepted descriptors
that are open are those in `clientFds` and those needed for requests in progress, and there are
no more of them than clients and workers together. The descriptor of a client that was removed
is open ever after, so from then on they are not accounted for whenever nobody works on a
request of that client. -/
theorem open_descriptors (h : (netServer listenFd n).ReachableBy KeepsClients s) :
    s.Accounted ∧
    (∀ fds : List Fd, fds.Nodup → (∀ fd ∈ fds, s.data.Accepted fd) →
      fds.length ≤ s.data.clientFds.length + n) ∧
    ∀ (t t' : NetServer n) (fd : Fd), t.data.Accepted fd → fd ∉ t.data.clientFds →
      (netServer listenFd n).Leads t t' → fd ∉ t'.needed → ¬ t'.Accounted := by
  have hacc : s.Accounted := by
    intro fd
    exact ⟨fun hfd => .inl (netServer_accounted h fd hfd), (netServer_fds h.reachable).accepted⟩
  refine ⟨hacc, fun fds hnodup hfds => hacc.length_le hnodup hfds, ?_⟩
  intro t t' fd hfd hgone hl hneed ht
  obtain ⟨hopen, hgone'⟩ := NetServer.gone_of_leads hl hfd hgone
  rcases (ht fd).mp hopen with hmem | hmem
  · exact hgone' hmem
  · exact hneed hmem

end Leaving

/-! ### Clients that come and go

One client at a time: it connects, is accepted, and leaves. -/

/-- A client connects as `fd`, is accepted by the worker in the loop, and leaves. -/
def comeAndGo (fd : Fd) : List (ServerAction 1) :=
  [.connect fd, .worker 0 (.ready [3]), .worker 0 .accepted, .hangup fd,
   .worker 0 (.ready [fd]), .worker 0 .eof]

/-- A test for `KeepsClients`. -/
def smallKeeps (s : NetServer 1) : ServerAction 1 → Bool
  | .worker _ .eof | .worker _ .recvError => false
  | .worker i (.got k) =>
      match s.workers i with
      | .header fd got => (s.data.conns fd).all fun c =>
          0 < cInt (Request.ofHeader (got ++ c.unread.take k)).len.toNat
      | _ => true
  | _ => true

theorem keepsClients_of_smallKeeps (s : NetServer 1) (a : ServerAction 1)
    (h : smallKeeps s a = true) : KeepsClients s a := by
  intro fd hr
  cases hr with
  | ended hi hinp hc hend =>
      rcases hinp with rfl | rfl
      · cases h
      · cases h
  | empty hi hc hk hlen hpos =>
      simp only [smallKeeps, hi, hc, Option.all_some, decide_eq_true_eq] at h
      omega

/-- Two clients, with the request of one of them being served: their descriptors are the only
ones. -/
theorem open_descriptors_two :
    ∃ s, (netServer 3 1).ReachableBy KeepsClients s ∧ s.data.clientFds = [4, 5] ∧
      s.workers 0 = .serving ∧ s.needed = [4] ∧ s.Accounted ∧
      ∀ fds : List Fd, fds.Nodup → (∀ fd ∈ fds, s.data.Accepted fd) → fds.length ≤ 3 := by
  obtain ⟨s, hs, hfds, hw, hneed⟩ := Machine.Reachable.exists_of_exec
    (P := fun s : NetServer 1 => s.data.clientFds = [4, 5] ∧ s.workers 0 = .serving ∧
      s.needed = [4])
    ((twoClients (smallRequest 7).image).filter (· ≠ .hangup 4) ++
      [.worker 0 (.got 80), .worker 0 (.got 1), .worker 0 (.clock 10), .worker 0 .tau])
    (show ((netServer 3 1).guard smallKeeps).init NetServer.start from rfl) (by decide +kernel)
  have hby := Machine.Reachable.of_guard keepsClients_of_smallKeeps hs
  obtain ⟨hacc, hbound, -⟩ := open_descriptors hby
  rw [hfds] at hbound
  exact ⟨s, hby, hfds, hw, hneed, hacc, hbound⟩

/-- Three clients come and go, never two at once: nobody is there any more, and three accepted
descriptors are open. -/
theorem descriptors_leak :
    ∃ s, (netServer 3 1).Reachable s ∧ s.data.clientFds = [] ∧ s.needed = [] ∧
      (∀ fd ∈ [4, 5, 6], s.data.Accepted fd) ∧ ¬ s.Accounted := by
  obtain ⟨s, hs, hfds, hneed, hopen, hback⟩ := Machine.Reachable.exists_of_exec
    (P := fun s : NetServer 1 => s.data.clientFds = [] ∧ s.needed = [] ∧
      (∀ fd ∈ [4, 5, 6], (s.data.conns fd).isSome) ∧ s.data.backlog = [])
    (.worker 0 .tau :: (comeAndGo 4 ++ comeAndGo 5 ++ comeAndGo 6))
    (show (netServer 3 1).init NetServer.start from rfl) (by decide +kernel)
  have hacc : ∀ fd ∈ [4, 5, 6], s.data.Accepted fd := by
    intro fd hfd
    refine ⟨Option.isSome_iff_ne_none.mp (hopen fd hfd), ?_⟩
    rw [hback]
    exact List.not_mem_nil
  refine ⟨s, hs, hfds, hneed, hacc, fun h => ?_⟩
  have hmem := (h 4).mp (hacc 4 (by decide))
  rw [hfds, hneed] at hmem
  simp at hmem

/-! ## Live clients -/

section Live

variable {n : Nat} {listenFd : Fd} {s : NetServer n}

end Live

/-! ### A request with data, and one without -/

end TailBench
