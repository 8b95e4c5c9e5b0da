import TailBench.Harness.ServerStreams

set_option autoImplicit false

/-! # What `select` reports

A worker in `select` goes on when one of the descriptors it waits for is ready. What it then
expects to be ready stays so until it reads: it holds `recvLock`, and nobody else reads.
-/

namespace TailBench

open Lib

/-! ## What a worker waits for -/

/-- The descriptors a worker waits for. -/
def ServerPc.watch {n : Nat} (listenFd : Fd) (d : ServerData n) : ServerPc → Option (List Fd)
  | .loop => some (if d.clientFds = [] then [listenFd] else listenFd :: d.clientFds)
  | .reselect => some d.clientFds
  | _ => none

/-- A worker in `select` waits for all clients. -/
theorem ServerPc.watch_clients {n : Nat} {listenFd : Fd} {d : ServerData n} {pc : ServerPc}
    {watch : List Fd} (h : pc.watch listenFd d = some watch) : d.clientFds ⊆ watch := by
  cases pc with
  | loop =>
      obtain rfl := Option.some.inj h
      by_cases hnil : d.clientFds = []
      · rw [hnil]
        exact List.nil_subset _
      · rw [if_neg hnil]
        exact List.subset_cons_self _ _
  | reselect =>
      obtain rfl := Option.some.inj h
      exact List.Subset.refl _
  | _ => cases h

/-- Only the `select` after a new client leaves out `listenFd`. -/
theorem ServerPc.watch_listen {n : Nat} {listenFd : Fd} {d : ServerData n} {pc : ServerPc}
    {watch : List Fd} (h : pc.watch listenFd d = some watch) (hpc : pc ≠ .reselect) :
    listenFd ∈ watch := by
  cases pc with
  | loop =>
      obtain rfl := Option.some.inj h
      by_cases hnil : d.clientFds = []
      · rw [if_pos hnil]
        exact List.mem_singleton_self _
      · rw [if_neg hnil]
        exact List.mem_cons_self
  | reselect => exact absurd rfl hpc
  | _ => cases h

theorem ServerPc.choosing_of_watch {n : Nat} {listenFd : Fd} {d : ServerData n} {pc : ServerPc}
    {watch : List Fd} (h : pc.watch listenFd d = some watch) : pc.choosing := by
  cases pc with
  | loop | reselect => trivial
  | _ => cases h

/-- A `select` returns some of the descriptors that are waited for. -/
theorem serverStep_ready {n : Nat} {listenFd : Fd} {i : Fin n} {d : ServerData n} {pc : ServerPc}
    {watch : List Fd} (hw : pc.watch listenFd d = some watch) (rs : List Fd) :
    (∃ d' pc', serverStep listenFd i d pc (.ready rs) = some (d', pc', .keep)) ↔
      d.selects listenFd watch rs = true := by
  have hscan : ∃ d' pc', d.scanStep rs = (d', pc', .keep) := by
    obtain ⟨head, pc', -, he⟩ := scanStep_chosen d rs
    exact ⟨_, pc', he⟩
  obtain ⟨d₁, pc₁, hscan⟩ := hscan
  cases pc with
  | loop =>
      obtain rfl := Option.some.inj hw
      by_cases hnil : d.clientFds = []
      · -- with no clients, `checkNewClient` comes next
        by_cases hsel : d.selects listenFd [listenFd] rs = true
        · simp [serverStep, hnil, hsel]
        · simp [serverStep, hnil, hsel]
      · by_cases hsel : d.selects listenFd (listenFd :: d.clientFds) rs = true
        · by_cases hl : listenFd ∈ rs
          · simp [serverStep, hnil, hsel, hl]
          · simp [serverStep, hnil, hsel, hl, hscan]
        · simp [serverStep, hnil, hsel]
  | reselect =>
      obtain rfl := Option.some.inj hw
      by_cases hsel : d.selects listenFd d.clientFds rs = true
      · simp [serverStep, hsel, hscan]
      · simp [serverStep, hsel]
  | _ => cases hw

namespace NetServer

variable {n : Nat} {listenFd : Fd} {s : NetServer n}

/-- A descriptor that is waited for and ready wakes the worker up. -/
theorem next_ready (hrun : s.data.proc = .running) {i : Fin n} {watch : List Fd}
    (hw : (s.workers i).watch listenFd s.data = some watch) {fd : Fd} (hfd : fd ∈ watch)
    (hready : s.data.ready listenFd fd = true) :
    (s.next listenFd (.worker i (.ready [fd]))).isSome = true := by
  have hsel : s.data.selects listenFd watch [fd] = true := by
    simp [ServerData.selects, hfd, hready]
  obtain ⟨d', pc', hstep⟩ := (serverStep_ready (i := i) hw [fd]).mpr hsel
  simp only [NetServer.next, hrun, ne_eq, not_true_eq_false, if_false, hstep, LockOp.apply,
    Option.map_some, Option.isSome_some]

end NetServer

/-! ## What `select` promised

Between the `select` that reports a client and the first byte of its header nobody else
reads, so the first `recv` does not block. -/

/-- The descriptors a worker expects to be ready. -/
def ServerPc.awaits : ServerPc → List Fd
  | .acceptMore rs => rs
  | .header fd [] => [fd]
  | _ => []

/-- A `recv` on the connection would not block. -/
def ServerData.readable {n : Nat} (d : ServerData n) (fd : Fd) : Prop :=
  ∃ c, d.conns fd = some c ∧ c.readable = true

section Ready

variable {n : Nat} {listenFd : Fd} {d d' : ServerData n} {i : Fin n}

theorem ServerData.readable_of_ready {fd : Fd} (h : d.ready listenFd fd = true)
    (hne : fd ≠ listenFd) : d.readable fd := by
  rw [ServerData.ready, if_neg hne, Option.any_eq_true] at h
  exact h

theorem ServerData.selects_ready {watch rs : List Fd} (h : d.selects listenFd watch rs = true) :
    ∀ fd ∈ rs, fd ≠ listenFd → d.readable fd := by
  simp only [ServerData.selects, decide_eq_true_eq] at h
  intro fd hfd hne
  exact ServerData.readable_of_ready (h.2 fd hfd).2 hne

/-- The choice among descriptors that are ready. -/
theorem scanStep_awaits {rs : List Fd} {pc' : ServerPc} {op : LockOp Mutex}
    (h : d.scanStep rs = (d', pc', op)) {P : Fd → Prop} (hP : ∀ fd ∈ rs, fd ∈ d.clientFds → P fd) :
    ∀ fd ∈ pc'.awaits, P fd := by
  unfold ServerData.scanStep ServerData.scan at h
  cases hnc : ServerData.nextClient d.clientFds d.recvClientHead rs with
  | none =>
      rw [hnc] at h
      cases h
      exact nofun
  | some fd =>
      rw [hnc] at h
      cases h
      intro fd' hfd'
      obtain rfl := List.mem_singleton.mp hfd'
      exact hP fd' (nextClient_mem hnc).2 (nextClient_mem hnc).1

theorem scanStep_readable {rs : List Fd} {pc' : ServerPc} {op : LockOp Mutex}
    (h : d.scanStep rs = (d', pc', op))
    (hr : ∀ fd ∈ rs, fd ∈ d.clientFds → fd ≠ listenFd → d.readable fd) :
    ∀ fd ∈ pc'.awaits, fd ≠ listenFd → d'.readable fd := by
  obtain ⟨head, -, hd', -⟩ := scanStep_eq h
  refine scanStep_awaits h fun fd hfd hclient hne => ?_
  rw [hd']
  exact hr fd hfd hclient hne

/-- A step from a `choosing` place. -/
theorem serverStep_awaits {pc pc' : ServerPc} {inp : ServerInput} {op : LockOp Mutex}
    (hpc : pc.choosing) (hd : d.FdsOk listenFd)
    (hr : ∀ fd ∈ pc.awaits, fd ≠ listenFd → d.readable fd)
    (h : serverStep listenFd i d pc inp = some (d', pc', op)) :
    ∀ fd ∈ pc'.awaits, fd ≠ listenFd → d'.readable fd := by
  cases serverStep_choosing hpc h with
  | watchMore _ hsel _ => exact ServerData.selects_ready hsel
  | scan _ hsel _ hscan | rescan hsel hscan =>
      refine scanStep_readable hscan fun fd hfd _ hne => ?_
      exact ServerData.selects_ready hsel fd hfd hne
  | failMore hscan => exact scanStep_readable hscan fun fd hfd _ hne => hr fd hfd hne
  | @closeMore rs fd₀ rest d' pc' op hb hscan =>
      refine scanStep_readable hscan fun fd hfd hclient hne => ?_
      -- the descriptor that was closed was still in the backlog, so it is no client's
      have hfd₀ : fd ≠ fd₀ := by
        rintro rfl
        exact (hd.clients fd hclient).2 (by rw [hb]; exact List.mem_cons_self)
      obtain ⟨c, hc, hread⟩ := hr fd hfd hne
      exact ⟨c, by simpa [hfd₀] using hc, hread⟩
  | _ => simp [ServerPc.awaits]

/-- A change of one connection that keeps it readable. -/
theorem ServerData.readable.modifyConn {fd fd' : Fd} {f : Conn → Conn} (h : d.readable fd')
    (hf : ∀ c, c.readable = true → (f c).readable = true) : (d.modifyConn fd f).readable fd' := by
  obtain ⟨c, hc, hr⟩ := h
  by_cases he : fd' = fd
  · exact ⟨f c, by rw [ServerData.modifyConn_conns, if_pos he, hc]; rfl, hf c hr⟩
  · exact ⟨c, by rw [ServerData.modifyConn_conns, if_neg he, hc], hr⟩

/-- Only a thread with `recvLock` takes bytes away. -/
theorem ServerMove.readable {pc pc' : ServerPc} {inp : ServerInput} {op : LockOp Mutex}
    (h : ServerMove i d pc inp d' pc' op) (hpc : ¬ pc.holds .recvLock) {fd : Fd}
    (hr : d.readable fd) : d'.readable fd := by
  cases h with
  | readHead | headOk | headEmpty | overrun | readData | dataDone => exact absurd rfl hpc
  | acceptClose hch hb hch' => exact absurd (ServerPc.holds_of_choosing hch) hpc
  | write | writeLast | writeError => exact hr.modifyConn fun c hc => hc
  | _ => exact hr

/-- A step inside a `recvfull` touches no mutex. -/
theorem ServerMove.keep_of_reading {pc pc' : ServerPc} {inp : ServerInput} {op : LockOp Mutex}
    (h : ServerMove i d pc inp d' pc' op) {x : Fd × Bytes} (hpc : pc.reading = some x) :
    op = .keep := by
  cases h with
  | lockRecv | unlockRecv | lockSend | count => cases hpc
  | _ => rfl

theorem ServerMove.keep_of_choosing {pc pc' : ServerPc} {inp : ServerInput} {op : LockOp Mutex}
    (h : ServerMove i d pc inp d' pc' op) (hpc : pc.choosing) : op = .keep := by
  cases h with
  | lockRecv | unlockRecv | lockSend | count => exact hpc.elim
  | _ => rfl

/-- A worker that expects descriptors to be ready holds `recvLock`. -/
theorem ServerPc.holds_of_awaits {pc : ServerPc} {fd : Fd} (h : fd ∈ pc.awaits) :
    pc.holds .recvLock := by
  cases pc with
  | acceptMore rs | header fd' got => rfl
  | _ => cases h

/-- The other steps leave a place at which nothing is expected, or the place as it was. -/
theorem ServerMove.awaits {pc pc' : ServerPc} {inp : ServerInput} {op : LockOp Mutex}
    (h : ServerMove i d pc inp d' pc' op) (hpc : ¬ pc.choosing) :
    pc'.awaits = [] ∨ pc' = pc ∧ d'.conns = d.conns := by
  cases h with
  | choose hch | selectError hch | accept hch | acceptClose hch => exact absurd hch hpc
  | @readHead fd got k c hc hk hk' hlen =>
      refine .inl ?_
      have hne : got ++ c.unread.take k ≠ [] := by
        intro he
        have hlen := congrArg List.length he
        rw [List.length_append, List.length_take, List.length_nil] at hlen
        omega
      cases hx : got ++ c.unread.take k with
      | nil => exact absurd hx hne
      | cons b bs => rfl
  | cut | full | assertFails | sigpipe => exact .inr ⟨rfl, rfl⟩
  | _ => exact .inl rfl

end Ready

/-- What the workers expect to be ready is ready. -/
def NetServer.Ready {n : Nat} (listenFd : Fd) (s : NetServer n) : Prop :=
  ∀ i, ∀ fd ∈ (s.workers i).awaits, fd ≠ listenFd → s.data.readable fd

/-- One step of the process or the network. -/
theorem NetServer.Move.ready {n : Nat} {listenFd : Fd} {a : ServerAction n}
    {s s' : NetServer n} (h : Move listenFd s a s') (hr : s.Ready listenFd)
    (ho : Owned s.locks s.held) (hf : s.Fds listenFd) : s'.Ready listenFd := by
  have hnet : ∀ {fd : Fd} {f : Conn → Conn},
      (∀ c, c.readable = true → (f c).readable = true) →
      (s.withData (s.data.modifyConn fd f)).Ready listenFd :=
    fun hkeep j fd' hfd' hne => (hr j fd' hfd' hne).modifyConn hkeep
  cases h with
  | @worker i inp d pc op locks hm hop hstep =>
      intro j fd hfd hne
      by_cases hj : j = i
      · subst hj
        have hpc : (s.afterWorker j d pc locks).workers j = pc := by simp [afterWorker]
        rw [hpc] at hfd
        by_cases hch : (s.workers j).choosing
        · exact serverStep_awaits hch hf.data (hr j) hstep fd hfd hne
        · obtain hnil | ⟨he, hconns⟩ := hm.awaits hch
          · rw [hnil] at hfd
            cases hfd
          · rw [he] at hfd
            obtain ⟨c, hc, hread⟩ := hr j fd hfd hne
            exact ⟨c, by rw [← hc]; exact congrFun hconns fd, hread⟩
      · have hpc : (s.afterWorker i d pc locks).workers j = s.workers j := by
          simp [afterWorker, hj]
        rw [hpc] at hfd
        -- worker `j` holds `recvLock`, so worker `i` does not
        refine hm.readable (fun hi => hj ?_) (hr j fd hfd hne)
        have hheld : s.held (.worker j) .recvLock := ServerPc.holds_of_awaits hfd
        exact ServerTid.worker.inj (ho.unique hheld (show s.held (.worker i) .recvLock from hi))
  | @finisher inp d pc op locks hm hop =>
      intro j fd hfd hne
      have hread := hr j fd hfd hne
      generalize s.finisher = pc₀ at hm
      cases hm with
      | write | writeLast | writeError =>
          exact hread.modifyConn fun c hc => hc
      | _ => exact hread
  | @connect fd hl hfd =>
      intro j fd' hfd' hne
      obtain ⟨c, hc, hread⟩ := hr j fd' hfd' hne
      have hne' : fd' ≠ fd := by
        rintro rfl
        rw [hfd] at hc
        cases hc
      exact ⟨c, by simpa [withData, hne'] using hc, hread⟩
  | arrive hc hopen =>
      refine hnet fun c hread => ?_
      simp only [Conn.readable, Conn.unread, decide_eq_true_eq, ne_eq,
        List.drop_eq_nil_iff, List.length_append] at hread ⊢
      exact hread.imp (fun hlt => by omega) id
  | hangup => exact hnet fun c hread => by simp [Conn.readable]

theorem netServer_ready {n : Nat} {listenFd : Fd} {s : NetServer n}
    (h : (netServer listenFd n).Reachable s) : s.Ready listenFd := by
  refine Machine.Reachable.invariant ?_ ?_ h
  · rintro s rfl
    exact fun i fd hfd => nomatch hfd
  · intro s a s' hr hs hn
    obtain ⟨-, hmove⟩ := NetServer.next_move hn
    exact hmove.ready hs (netServer_owned hr) (netServer_fds hr)

end TailBench
