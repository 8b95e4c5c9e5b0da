import TailBench.Harness.ServerSteps

set_option autoImplicit false

/-! # The descriptors of the server

What the log of the server says about a connection, what a thread has in hand at a place,
and the first invariant of the process, for any number of threads and any network (`Fds`):
a descriptor in use is that of an accepted connection, which stays open.
-/

namespace TailBench

open Lib

/-! ## Events -/

namespace ServerEvent

variable {n : Nat}

def fd : ServerEvent n → Fd
  | .delivered _ fd _ | .responded _ fd _ | .finish fd => fd

/-- The bytes of a request delivered from `fd`. -/
def request (fd : Fd) : ServerEvent n → Option Bytes
  | .delivered _ fd' raw => if fd' = fd then some raw else none
  | _ => none

/-- A response sent to `fd`. -/
def response (fd : Fd) : ServerEvent n → Option Response
  | .responded _ fd' resp => if fd' = fd then some resp else none
  | .finish fd' => if fd' = fd then some finishFrame else none
  | _ => none

end ServerEvent

namespace ServerData

variable {n : Nat}

/-- The requests delivered from a connection. -/
def requestsFrom (d : ServerData n) (fd : Fd) : List Bytes :=
  d.log.filterMap (ServerEvent.request fd)

/-- The responses sent to a connection. -/
def responsesTo (d : ServerData n) (fd : Fd) : List Response :=
  d.log.filterMap (ServerEvent.response fd)

/-- The connection is open and `accept` has returned it. -/
def Accepted (d : ServerData n) (fd : Fd) : Prop := d.conns fd ≠ none ∧ fd ∉ d.backlog

@[simp] theorem modifyConn_backlog (d : ServerData n) (fd : Fd) (f : Conn → Conn) :
    (d.modifyConn fd f).backlog = d.backlog := rfl

theorem modifyConn_conns (d : ServerData n) (fd fd' : Fd) (f : Conn → Conn) :
    (d.modifyConn fd f).conns fd' = if fd' = fd then (d.conns fd').map f else d.conns fd' := by
  unfold modifyConn
  by_cases h : fd' = fd
  · subst h; simp
  · simp [h]

@[simp] theorem modifyConn_conns_none (d : ServerData n) (fd fd' : Fd) (f : Conn → Conn) :
    (d.modifyConn fd f).conns fd' = none ↔ d.conns fd' = none := by
  rw [modifyConn_conns]
  split <;> simp

/-- The connection after the change of one. -/
theorem modifyConn_some {d : ServerData n} {fd fd' : Fd} {f : Conn → Conn} {c : Conn}
    (h : (d.modifyConn fd f).conns fd' = some c) :
    ∃ c₀, d.conns fd' = some c₀ ∧ (fd' = fd ∧ c = f c₀ ∨ fd' ≠ fd ∧ c = c₀) := by
  rw [modifyConn_conns] at h
  split at h
  · next he =>
      obtain ⟨c₀, hc₀, rfl⟩ := Option.map_eq_some_iff.mp h
      exact ⟨c₀, hc₀, .inl ⟨he, rfl⟩⟩
  · next hne => exact ⟨c, h, .inr ⟨hne, rfl⟩⟩

@[simp] theorem accepted_modifyConn (d : ServerData n) (fd fd' : Fd) (f : Conn → Conn) :
    (d.modifyConn fd f).Accepted fd' ↔ d.Accepted fd' := by
  simp [Accepted]

end ServerData

/-! ## Places -/

/-- The bytes of a request that a worker has read and not yet delivered. -/
def ServerPc.hand : ServerPc → Option (Fd × Bytes)
  | .header fd got => some (fd, got)
  | .payload fd head got => some (fd, head ++ got)
  | .stamp fd raw => some (fd, raw)
  | _ => none

/-- A worker has received a request and not yet answered it. -/
def ServerPc.answering : ServerPc → Prop
  | .unlockRecv | .serving | .sendLocked => True
  | _ => False

/-- The bytes a worker still has to write, and where. -/
def ServerPc.outgoing : ServerPc → Option (Fd × Bytes)
  | .sending fd rest => some (fd, rest)
  | _ => none

def FinishPc.outgoing : FinishPc → Option (Fd × Bytes)
  | .sending fd rest _ => some (fd, rest)
  | _ => none

/-- The clients `finish` still has to visit. -/
def FinishPc.todo : FinishPc → List Fd
  | .clients todo | .sending _ _ todo => todo
  | _ => []

theorem ServerPc.choosing.idle {pc : ServerPc} (h : pc.choosing) :
    pc.hand = none ∧ ¬ pc.answering ∧ pc.outgoing = none := by
  cases pc with
  | loop | acceptFirst | acceptMore rs | reselect => exact ⟨rfl, id, rfl⟩
  | _ => exact h.elim

theorem ServerPc.Chosen.idle {pc : ServerPc} {fds : List Fd} (h : pc.Chosen fds) :
    (pc.hand = none ∨ ∃ fd ∈ fds, pc.hand = some (fd, [])) ∧ ¬ pc.answering ∧
      pc.outgoing = none := by
  obtain h | ⟨fd, hfd, rfl⟩ := h
  · exact ⟨.inl h.idle.1, h.idle.2⟩
  · exact ⟨.inr ⟨fd, hfd, rfl⟩, id, rfl⟩

theorem ServerPc.reading_idle {pc : ServerPc} {x : Fd × Bytes} (h : pc.reading = some x) :
    ¬ pc.answering ∧ pc.outgoing = none := by
  cases pc with
  | header fd got | payload fd head got => exact ⟨id, rfl⟩
  | _ => cases h

/-- A worker with bytes in hand holds `recvLock`. -/
theorem ServerPc.holds_of_hand {pc : ServerPc} {x : Fd × Bytes} (h : pc.hand = some x) :
    pc.holds .recvLock := by
  cases pc with
  | header fd got | payload fd head got | stamp fd raw => rfl
  | _ => cases h

theorem ServerPc.holds_of_choosing {pc : ServerPc} (h : pc.choosing) : pc.holds .recvLock := by
  cases pc with
  | loop | acceptFirst | acceptMore rs | reselect => rfl
  | _ => exact h.elim

/-- A worker that writes holds `sendLock`. -/
theorem ServerPc.holds_of_outgoing {pc : ServerPc} {x : Fd × Bytes}
    (h : pc.outgoing = some x) : pc.holds .sendLock := by
  cases pc with
  | sending fd rest => rfl
  | _ => cases h

theorem FinishPc.holds_of_outgoing {pc : FinishPc} {x : Fd × Bytes}
    (h : pc.outgoing = some x) : pc.holds .sendLock := by
  cases pc with
  | sending fd rest todo => rfl
  | _ => cases h

/-- What a thread still has to write. -/
def NetServer.outgoing {n : Nat} (s : NetServer n) : ServerTid n → Option (Fd × Bytes)
  | .worker i => (s.workers i).outgoing
  | .finisher => s.finisher.outgoing

/-! ## Descriptors -/

/-- No step closes an accepted connection. -/
theorem ServerMove.accepted {n : Nat} {i : Fin n} {d d' : ServerData n} {pc pc' : ServerPc}
    {inp : ServerInput} {op : LockOp Mutex} (h : ServerMove i d pc inp d' pc' op) {fd : Fd}
    (hfd : d.Accepted fd) : d'.Accepted fd := by
  have hmod : ∀ {fd' : Fd} {f : Conn → Conn}, (d.modifyConn fd' f).Accepted fd :=
    (ServerData.accepted_modifyConn d _ fd _).mpr hfd
  cases h with
  | accept hpc hb hpc' =>
      refine ⟨hfd.1, fun hmem => hfd.2 ?_⟩
      rw [hb]
      exact List.mem_cons_of_mem _ hmem
  | @acceptClose _ _ fd' rest _ hpc hb hpc' =>
      have hne : fd ≠ fd' := fun he => hfd.2 (by rw [hb, he]; exact List.mem_cons_self)
      refine ⟨by simpa [hne] using hfd.1, fun hmem => hfd.2 ?_⟩
      rw [hb]
      exact List.mem_cons_of_mem _ hmem
  | readHead | headOk | headEmpty | overrun | readData | dataDone | write | writeLast
  | writeError => exact hmod
  | _ => exact hfd

theorem FinishMove.accepted {n : Nat} {d d' : ServerData n} {pc pc' : FinishPc}
    {inp : ServerInput} {op : LockOp Mutex} (h : FinishMove d pc inp d' pc' op) {fd : Fd}
    (hfd : d.Accepted fd) : d'.Accepted fd := by
  have hmod : ∀ {fd' : Fd} {f : Conn → Conn}, (d.modifyConn fd' f).Accepted fd :=
    (ServerData.accepted_modifyConn d _ fd _).mpr hfd
  cases h with
  | write | writeLast | writeError => exact hmod
  | _ => exact hfd

theorem NetServer.Move.accepted {n : Nat} {listenFd : Fd} {a : ServerAction n}
    {s s' : NetServer n} (h : Move listenFd s a s') {fd : Fd} (hfd : s.data.Accepted fd) :
    s'.data.Accepted fd := by
  cases h with
  | worker hm hop => exact hm.accepted hfd
  | finisher hm hop => exact hm.accepted hfd
  | @connect fd' hl hnone =>
      have hne : fd ≠ fd' := fun he => hfd.1 (by rw [he]; exact hnone)
      simp only [NetServer.withData, ServerData.Accepted, Function.update_of_ne hne,
        List.mem_append, List.mem_singleton, not_or]
      exact ⟨hfd.1, hfd.2, hne⟩
  | arrive hc hopen => exact (ServerData.accepted_modifyConn ..).mpr hfd
  | hangup => exact (ServerData.accepted_modifyConn ..).mpr hfd

/-- The shared part: clients are accepted connections, those in the backlog are untouched. -/
structure ServerData.FdsOk {n : Nat} (listenFd : Fd) (d : ServerData n) : Prop where
  listener : d.conns listenFd = none
  nodup : d.backlog.Nodup
  waiting : ∀ fd ∈ d.backlog, ∃ c, d.conns fd = some c ∧ c.rx = 0 ∧ c.out = []
  clients : ∀ fd ∈ d.clientFds, d.Accepted fd
  clients_nodup : d.clientFds.Nodup
  log : ∀ e ∈ d.log, d.Accepted e.fd

/-- The descriptors that worker `i` uses at a place are those of accepted connections. -/
structure ServerPc.FdsOk {n : Nat} (d : ServerData n) (i : Fin n) (pc : ServerPc) : Prop where
  hand : ∀ fd bs, pc.hand = some (fd, bs) → d.Accepted fd
  active : pc.answering → d.Accepted (d.activeFds i)
  outgoing : ∀ fd bs, pc.outgoing = some (fd, bs) → d.Accepted fd

/-- The same for `finish`. -/
structure FinishPc.FdsOk {n : Nat} (d : ServerData n) (pc : FinishPc) : Prop where
  outgoing : ∀ fd bs, pc.outgoing = some (fd, bs) → d.Accepted fd
  todo : ∀ fd ∈ pc.todo, d.Accepted fd

/-- Every descriptor in use is that of an accepted connection. -/
structure NetServer.Fds {n : Nat} (listenFd : Fd) (s : NetServer n) : Prop where
  data : s.data.FdsOk listenFd
  workers : ∀ i, (s.workers i).FdsOk s.data i
  finisher : s.finisher.FdsOk s.data

section Fds

variable {n : Nat} {listenFd : Fd} {d d' : ServerData n}

theorem ServerPc.FdsOk.mono {i : Fin n} {pc : ServerPc} (h : pc.FdsOk d i)
    (hacc : ∀ fd, d.Accepted fd → d'.Accepted fd) (hact : d'.activeFds i = d.activeFds i) :
    pc.FdsOk d' i where
  hand := fun fd bs he => hacc fd (h.hand fd bs he)
  active := fun ha => by rw [hact]; exact hacc _ (h.active ha)
  outgoing := fun fd bs he => hacc fd (h.outgoing fd bs he)

theorem FinishPc.FdsOk.mono {pc : FinishPc} (h : pc.FdsOk d)
    (hacc : ∀ fd, d.Accepted fd → d'.Accepted fd) : pc.FdsOk d' where
  outgoing := fun fd bs he => hacc fd (h.outgoing fd bs he)
  todo := fun fd hfd => hacc fd (h.todo fd hfd)

/-- A place that uses no descriptor. -/
theorem ServerPc.FdsOk.idle {i : Fin n} {pc : ServerPc}
    (h : pc.hand = none ∧ ¬ pc.answering ∧ pc.outgoing = none) : pc.FdsOk d i where
  hand := fun fd bs he => by rw [h.1] at he; cases he
  active := fun ha => absurd ha h.2.1
  outgoing := fun fd bs he => by rw [h.2.2] at he; cases he

/-- A place with bytes in hand. -/
theorem ServerPc.FdsOk.holding {i : Fin n} {pc : ServerPc} {fd : Fd} {bs : Bytes}
    (h : pc.hand = some (fd, bs) ∧ ¬ pc.answering ∧ pc.outgoing = none) (hfd : d.Accepted fd) :
    pc.FdsOk d i where
  hand := fun fd' bs' he => by rw [h.1] at he; cases he; exact hfd
  active := fun ha => absurd ha h.2.1
  outgoing := fun fd' bs' he => by rw [h.2.2] at he; cases he

theorem ServerData.FdsOk.frame (h : d.FdsOk listenFd) (hconns : d'.conns = d.conns)
    (hb : d'.backlog = d.backlog) (hfds : d'.clientFds = d.clientFds)
    (hlog : ∀ e ∈ d'.log, d.Accepted e.fd) : d'.FdsOk listenFd := by
  have hacc : ∀ fd, d'.Accepted fd ↔ d.Accepted fd := by
    intro fd
    rw [ServerData.Accepted, ServerData.Accepted, hconns, hb]
  refine ⟨by rw [hconns]; exact h.listener, by rw [hb]; exact h.nodup, ?_, ?_, ?_, ?_⟩
  · rw [hb, hconns]
    exact h.waiting
  · intro fd hfd
    rw [hfds] at hfd
    exact (hacc fd).mpr (h.clients fd hfd)
  · rw [hfds]
    exact h.clients_nodup
  · intro e he
    exact (hacc _).mpr (hlog e he)

/-- A change of one connection, as long as it is accepted or keeps `rx` and `out`. -/
theorem ServerData.FdsOk.modifyConn (h : d.FdsOk listenFd) {fd : Fd} {f : Conn → Conn}
    (hf : d.Accepted fd ∨ ∀ c, (f c).rx = c.rx ∧ (f c).out = c.out) :
    (d.modifyConn fd f).FdsOk listenFd where
  listener := (ServerData.modifyConn_conns_none ..).mpr h.listener
  nodup := h.nodup
  waiting := by
    intro fd' hfd'
    obtain ⟨c, hc, hrx, hout⟩ := h.waiting fd' hfd'
    rw [ServerData.modifyConn_conns, hc]
    split
    · next he =>
        subst he
        obtain hacc | hkeep := hf
        · exact absurd hfd' hacc.2
        · exact ⟨f c, rfl, by rw [(hkeep c).1, hrx], by rw [(hkeep c).2, hout]⟩
    · exact ⟨c, rfl, hrx, hout⟩
  clients := fun fd' hfd' => (ServerData.accepted_modifyConn ..).mpr (h.clients fd' hfd')
  clients_nodup := h.clients_nodup
  log := fun e he => (ServerData.accepted_modifyConn ..).mpr (h.log e he)

theorem ServerData.FdsOk.removeClient (h : d.FdsOk listenFd) (fd : Fd) :
    (d.removeClient fd).FdsOk listenFd where
  listener := h.listener
  nodup := h.nodup
  waiting := h.waiting
  clients := fun fd' hfd' => h.clients fd' (List.mem_of_mem_erase hfd')
  clients_nodup := h.clients_nodup.erase fd
  log := h.log

/-- Another event of an accepted connection. -/
theorem ServerData.FdsOk.logged (h : d.FdsOk listenFd) {e : ServerEvent n}
    (he : d.Accepted e.fd) : ∀ x ∈ d.log ++ [e], d.Accepted x.fd := by
  intro x hx
  rcases List.mem_append.mp hx with hx | hx
  · exact h.log x hx
  · rw [List.mem_singleton.mp hx]
    exact he

/-- The connection that `accept` returns. -/
theorem ServerData.FdsOk.accept (h : d.FdsOk listenFd) {fd : Fd} {rest : List Fd} {head : Nat}
    (hb : d.backlog = fd :: rest) :
    ({ d with backlog := rest, clientFds := d.clientFds ++ [fd],
              recvClientHead := head } : ServerData n).FdsOk listenFd where
  listener := h.listener
  nodup := by
    have hnd := h.nodup
    rw [hb] at hnd
    exact (List.nodup_cons.mp hnd).2
  waiting := fun fd' hfd' => h.waiting fd' (by rw [hb]; exact List.mem_cons_of_mem _ hfd')
  clients := by
    have hnd := h.nodup
    rw [hb, List.nodup_cons] at hnd
    intro fd' hfd'
    rcases List.mem_append.mp hfd' with hfd' | hfd'
    · refine ⟨(h.clients fd' hfd').1, fun hmem => (h.clients fd' hfd').2 ?_⟩
      rw [hb]
      exact List.mem_cons_of_mem _ hmem
    · obtain rfl := List.mem_singleton.mp hfd'
      obtain ⟨c, hc, -⟩ := h.waiting fd' (by rw [hb]; exact List.mem_cons_self)
      exact ⟨by simp [hc], hnd.1⟩
  clients_nodup := by
    have hnot : fd ∉ d.clientFds := fun hmem =>
      (h.clients fd hmem).2 (by rw [hb]; exact List.mem_cons_self)
    rw [List.nodup_append]
    refine ⟨h.clients_nodup, List.nodup_singleton fd, ?_⟩
    intro a ha b hb'
    obtain rfl := List.mem_singleton.mp hb'
    exact fun he => hnot (he ▸ ha)
  log := fun e he => by
    refine ⟨(h.log e he).1, fun hmem => (h.log e he).2 ?_⟩
    rw [hb]
    exact List.mem_cons_of_mem _ hmem

/-- The connection that is closed again. -/
theorem ServerData.FdsOk.acceptClose (h : d.FdsOk listenFd) {fd : Fd} {rest : List Fd}
    {head : Nat} (hb : d.backlog = fd :: rest)
    (hacc : ∀ fd', d.Accepted fd' →
      ({ d with backlog := rest, conns := Function.update d.conns fd none,
                recvClientHead := head } : ServerData n).Accepted fd') :
    ({ d with backlog := rest, conns := Function.update d.conns fd none,
              recvClientHead := head } : ServerData n).FdsOk listenFd where
  listener := by
    by_cases he : listenFd = fd
    · simp [he]
    · simpa [he] using h.listener
  nodup := by
    have hnd := h.nodup
    rw [hb] at hnd
    exact (List.nodup_cons.mp hnd).2
  waiting := by
    have hnd := h.nodup
    rw [hb, List.nodup_cons] at hnd
    intro fd' hfd'
    have hne : fd' ≠ fd := fun he => hnd.1 (he ▸ hfd')
    simp only [Function.update_of_ne hne]
    exact h.waiting fd' (by rw [hb]; exact List.mem_cons_of_mem _ hfd')
  clients := fun fd' hfd' => hacc fd' (h.clients fd' hfd')
  clients_nodup := h.clients_nodup
  log := fun e he => hacc _ (h.log e he)

/-- A worker keeps its descriptors. -/
theorem ServerMove.activeFds {i j : Fin n} {pc pc' : ServerPc} {inp : ServerInput}
    {op : LockOp Mutex} (h : ServerMove i d pc inp d' pc' op) (hj : j ≠ i) :
    d'.activeFds j = d.activeFds j := by
  cases h with
  | stamp ns => simp [hj]
  | _ => rfl

/-- **One step of a worker**: the shared part and its own. -/
theorem ServerMove.fds {i : Fin n} {pc pc' : ServerPc} {inp : ServerInput} {op : LockOp Mutex}
    (h : ServerMove i d pc inp d' pc' op) (hd : d.FdsOk listenFd) (hpc : pc.FdsOk d i) :
    d'.FdsOk listenFd ∧ pc'.FdsOk d' i := by
  have hacc := fun fd => @ServerMove.accepted n i d d' pc pc' inp op h fd
  -- the descriptor that `select` picks is in `clientFds`
  have hchosen : ∀ {pc : ServerPc}, pc.Chosen d.clientFds → pc.FdsOk d' i := by
    intro pc hch
    obtain ⟨hhand, hans, hout⟩ := hch.idle
    refine ⟨fun fd bs he => ?_, fun ha => absurd ha hans, fun fd bs he => ?_⟩
    · obtain hnone | ⟨fd', hfd', hsome⟩ := hhand
      · rw [hnone] at he; cases he
      · rw [hsome] at he
        cases he
        exact hacc _ (hd.clients _ hfd')
    · rw [hout] at he; cases he
  cases h with
  | lockRecv => exact ⟨hd, .idle ⟨rfl, id, rfl⟩⟩
  | choose hc hc' => exact ⟨hd.frame rfl rfl rfl hd.log, hchosen hc'⟩
  | selectError hc => exact ⟨hd.frame rfl rfl rfl hd.log, .idle hc.idle⟩
  | accept hc hb hc' => exact ⟨hd.accept hb, .idle hc'.idle⟩
  | acceptClose hc hb hc' => exact ⟨hd.acceptClose hb hacc, hchosen hc'⟩
  | readHead hc hk hk' hlen =>
      have hfd := hpc.hand _ _ rfl
      exact ⟨hd.modifyConn (.inl hfd), .holding ⟨rfl, id, rfl⟩ (hacc _ hfd)⟩
  | headOk hc hk hk' hlen hpos hmax =>
      have hfd := hpc.hand _ _ rfl
      exact ⟨hd.modifyConn (.inl hfd), .holding ⟨rfl, id, rfl⟩ (hacc _ hfd)⟩
  | headEmpty hc hk hk' hlen hpos =>
      have hfd := hpc.hand _ _ rfl
      exact ⟨(hd.modifyConn (.inl hfd)).removeClient _, .idle ⟨rfl, id, rfl⟩⟩
  | @overrun fd got k c hc hk hk' hlen hmax =>
      have hfd := hpc.hand _ _ rfl
      have hd' := hd.modifyConn (f := fun c => { c with rx := c.rx + k }) (.inl hfd)
      exact ⟨hd'.frame rfl rfl rfl hd'.log, .holding ⟨rfl, id, rfl⟩ (hacc _ hfd)⟩
  | readData hc hk hk' hlen =>
      have hfd := hpc.hand _ _ rfl
      exact ⟨hd.modifyConn (.inl hfd), .holding ⟨rfl, id, rfl⟩ (hacc _ hfd)⟩
  | @dataDone fd head got k c hc hk hk' hlen =>
      have hfd := hpc.hand _ _ rfl
      have hd' := hd.modifyConn (f := fun c => { c with rx := c.rx + k }) (.inl hfd)
      exact ⟨hd'.frame rfl rfl rfl hd'.log, .holding ⟨rfl, id, rfl⟩ (hacc _ hfd)⟩
  | leave hr hc hend hinp => exact ⟨hd.removeClient _, .idle ⟨rfl, id, rfl⟩⟩
  | cut hr hgot hc hend hinp => exact ⟨hd.frame rfl rfl rfl hd.log, hpc.mono hacc rfl⟩
  | full hr hfull => exact ⟨hd, hpc⟩
  | stamp ns =>
      have hfd := hpc.hand _ _ rfl
      -- `activeFds` now names the connection the request came from
      refine ⟨hd.frame rfl rfl rfl (hd.logged (e := .delivered i _ _) hfd), ?_⟩
      exact ⟨nofun, fun _ => by simpa using hacc _ hfd, nofun⟩
  | unlockRecv => exact ⟨hd, ⟨nofun, fun _ => hpc.active trivial, nofun⟩⟩
  | lockSend => exact ⟨hd, ⟨nofun, fun _ => hpc.active trivial, nofun⟩⟩
  | respond ns data hns =>
      have hfd := hpc.active trivial
      refine ⟨hd.frame rfl rfl rfl (hd.logged (e := .responded i _ _) hfd), ?_⟩
      refine ⟨nofun, fun ha => ha.elim, fun fd bs he => ?_⟩
      cases he
      exact hacc _ hfd
  | assertFails ns data hns =>
      exact ⟨hd.frame rfl rfl rfl hd.log, hpc.mono hacc rfl⟩
  | write hk hlt =>
      have hfd := hpc.outgoing _ _ rfl
      refine ⟨hd.modifyConn (.inl hfd), nofun, fun ha => ha.elim, fun fd bs he => ?_⟩
      cases he
      exact hacc _ hfd
  | writeLast hpos =>
      have hfd := hpc.outgoing _ _ rfl
      exact ⟨hd.modifyConn (.inl hfd), .idle ⟨rfl, id, rfl⟩⟩
  | writeError =>
      have hfd := hpc.outgoing _ _ rfl
      exact ⟨hd.modifyConn (.inl hfd), .idle ⟨rfl, id, rfl⟩⟩
  | sigpipe => exact ⟨hd.frame rfl rfl rfl hd.log, hpc.mono hacc rfl⟩
  | count => exact ⟨hd.frame rfl rfl rfl hd.log, .idle ⟨rfl, id, rfl⟩⟩

theorem FinishMove.activeFds {pc pc' : FinishPc} {inp : ServerInput} {op : LockOp Mutex}
    (h : FinishMove d pc inp d' pc' op) (j : Fin n) : d'.activeFds j = d.activeFds j := by
  cases h <;> rfl

/-- One step of `finish`. -/
theorem FinishMove.fds {pc pc' : FinishPc} {inp : ServerInput} {op : LockOp Mutex}
    (h : FinishMove d pc inp d' pc' op) (hd : d.FdsOk listenFd) (hpc : pc.FdsOk d) :
    d'.FdsOk listenFd ∧ pc'.FdsOk d' := by
  have hacc := fun fd => @FinishMove.accepted n d d' pc pc' inp op h fd
  cases h with
  | lockSend => exact ⟨hd, nofun, nofun⟩
  | clients => exact ⟨hd, nofun, hd.clients⟩
  | unlock => exact ⟨hd, nofun, nofun⟩
  | @send fd todo =>
      have hfd := hpc.todo fd List.mem_cons_self
      refine ⟨hd.frame rfl rfl rfl (hd.logged (e := .finish fd) hfd), ?_, ?_⟩
      · intro fd' bs he
        cases he
        exact hacc _ hfd
      · intro fd' hfd'
        exact hacc _ (hpc.todo fd' (List.mem_cons_of_mem _ hfd'))
  | write hk hlt =>
      have hfd := hpc.outgoing _ _ rfl
      refine ⟨hd.modifyConn (.inl hfd), fun fd' bs he => ?_, fun fd' h' => hacc _ (hpc.todo fd' h')⟩
      cases he
      exact hacc _ hfd
  | writeLast hpos =>
      have hfd := hpc.outgoing _ _ rfl
      exact ⟨hd.modifyConn (.inl hfd), nofun, fun fd' h' => hacc _ (hpc.todo fd' h')⟩
  | @writeError fd rest todo =>
      have hfd := hpc.outgoing _ _ rfl
      have hd' := hd.modifyConn (f := fun c => { c with failed := true }) (.inl hfd)
      exact ⟨hd'.frame rfl rfl rfl hd'.log, hpc.mono hacc⟩
  | sigpipe => exact ⟨hd.frame rfl rfl rfl hd.log, hpc.mono hacc⟩

/-- A client connects. -/
theorem ServerData.FdsOk.connect (h : d.FdsOk listenFd) {fd : Fd} (hl : fd ≠ listenFd)
    (hfd : d.conns fd = none)
    (hacc : ∀ fd', d.Accepted fd' →
      ({ d with conns := Function.update d.conns fd (some {}),
                backlog := d.backlog ++ [fd] } : ServerData n).Accepted fd') :
    ({ d with conns := Function.update d.conns fd (some {}),
              backlog := d.backlog ++ [fd] } : ServerData n).FdsOk listenFd where
  listener := by simpa [hl.symm] using h.listener
  nodup := by
    rw [List.nodup_append]
    refine ⟨h.nodup, List.nodup_singleton fd, ?_⟩
    intro a ha b hb he
    obtain rfl := List.mem_singleton.mp hb
    obtain ⟨c, hc, -⟩ := h.waiting a ha
    rw [he, hfd] at hc
    cases hc
  waiting := by
    intro fd' hfd'
    by_cases he : fd' = fd
    · subst he
      exact ⟨{}, by simp, rfl, rfl⟩
    · simp only [Function.update_of_ne he]
      have hmem : fd' ∈ d.backlog := by
        rcases List.mem_append.mp hfd' with hmem | hmem
        · exact hmem
        · exact absurd (List.mem_singleton.mp hmem) he
      exact h.waiting fd' hmem
  clients := fun fd' hfd' => hacc fd' (h.clients fd' hfd')
  clients_nodup := h.clients_nodup
  log := fun e he => hacc _ (h.log e he)

/-- One step of the process or the network. -/
theorem NetServer.Move.fds {a : ServerAction n} {s s' : NetServer n}
    (h : Move listenFd s a s') (hs : s.Fds listenFd) : s'.Fds listenFd := by
  have hacc := fun fd => @NetServer.Move.accepted n listenFd a s s' h fd
  cases h with
  | @worker i inp d pc op locks hm hop =>
      obtain ⟨hd, hpc⟩ := hm.fds hs.data (hs.workers i)
      refine ⟨hd, fun j => ?_, hs.finisher.mono hacc⟩
      by_cases hj : j = i
      · subst hj
        simpa [NetServer.afterWorker] using hpc
      · have hmono : (s.workers j).FdsOk d j := (hs.workers j).mono hacc (hm.activeFds hj)
        simpa [NetServer.afterWorker, hj] using hmono
  | finisher hm hop =>
      obtain ⟨hd, hpc⟩ := hm.fds hs.data hs.finisher
      exact ⟨hd, fun j => (hs.workers j).mono hacc (hm.activeFds j), hpc⟩
  | connect hl hfd =>
      exact ⟨hs.data.connect hl hfd hacc, fun j => (hs.workers j).mono hacc rfl,
        hs.finisher.mono hacc⟩
  | arrive hc hopen =>
      exact ⟨hs.data.modifyConn (.inr fun c => ⟨rfl, rfl⟩),
        fun j => (hs.workers j).mono hacc rfl, hs.finisher.mono hacc⟩
  | hangup =>
      exact ⟨hs.data.modifyConn (.inr fun c => ⟨rfl, rfl⟩),
        fun j => (hs.workers j).mono hacc rfl, hs.finisher.mono hacc⟩

end Fds

/-- Every run of the server. -/
theorem netServer_fds {n : Nat} {listenFd : Fd} {s : NetServer n}
    (h : (netServer listenFd n).Reachable s) : s.Fds listenFd := by
  refine Machine.Reachable.invariant ?_ ?_ h
  · rintro s rfl
    exact ⟨⟨rfl, List.nodup_nil, nofun, nofun, List.nodup_nil, nofun⟩,
      fun i => .idle ⟨rfl, id, rfl⟩, ⟨nofun, nofun⟩⟩
  · intro s a s' _ hs hn
    obtain ⟨-, hmove⟩ := NetServer.next_move hn
    exact hmove.fds hs

end TailBench
