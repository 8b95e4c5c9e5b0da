import TailBench.Harness.ServerFds

set_option autoImplicit false

/-! # The bytes of a connection

Two invariants of the server process, for any number of threads and any network:

* `Received`: the bytes read from a connection are the requests delivered from it, in order,
  followed by the bytes in the hands of the one thread that reads it;
* `Written`: the bytes written to a connection, with those that the one sending thread still
  has to write, are the responses sent to it, in order.
-/

namespace TailBench

open Lib

/-! ## What was received -/

/-- Of the bytes read from a connection, `rs` were delivered and `part` comes after them. -/
def Conn.Holds (c : Conn) (rs : List Bytes) (part : Bytes) : Prop :=
  c.rx ≤ c.inp.length ∧ rs.flatten ++ part = c.inp.take c.rx

/-- More may arrive. -/
theorem Conn.Holds.mono {c c' : Conn} {rs : List Bytes} {part : Bytes} (h : c.Holds rs part)
    (hrx : c'.rx = c.rx) (hinp : c.inp <+: c'.inp) : c'.Holds rs part := by
  refine ⟨by rw [hrx]; exact h.1.trans hinp.length_le, ?_⟩
  rw [h.2, hrx, take_eq_of_prefixed hinp h.1]

/-- The next bytes are read. -/
theorem Conn.Holds.read {c : Conn} {rs : List Bytes} {part : Bytes} (h : c.Holds rs part)
    {k : Nat} (hk : k ≤ c.unread.length) :
    ({ c with rx := c.rx + k } : Conn).Holds rs (part ++ c.unread.take k) := by
  unfold Conn.unread at hk ⊢
  rw [List.length_drop] at hk
  have hle := h.1
  refine ⟨show c.rx + k ≤ c.inp.length by omega, ?_⟩
  rw [← List.append_assoc, h.2]
  show _ = c.inp.take (c.rx + k)
  rw [List.take_add]

/-- A request is delivered. -/
theorem Conn.Holds.deliver {c : Conn} {rs : List Bytes} {part : Bytes} (h : c.Holds rs part) :
    c.Holds (rs ++ [part]) [] := by
  refine ⟨h.1, ?_⟩
  rw [← h.2]
  simp

theorem Conn.Holds.start {c : Conn} (hrx : c.rx = 0) : c.Holds [] [] := by
  refine ⟨by omega, ?_⟩
  simp [hrx]

/-- What was read and where it went. -/
structure NetServer.Received {n : Nat} (s : NetServer n) : Prop where
  conn : ∀ fd c, s.data.conns fd = some c → ∃ part, c.Holds (s.data.requestsFrom fd) part
  /-- Only the connection of a client is read. -/
  client : ∀ i fd bs, (s.workers i).hand = some (fd, bs) → fd ∈ s.data.clientFds
  hand : ∀ i fd bs, (s.workers i).hand = some (fd, bs) →
    ∀ c, s.data.conns fd = some c → c.Holds (s.data.requestsFrom fd) bs
  rest : ∀ fd ∈ s.data.clientFds, (∀ i bs, (s.workers i).hand ≠ some (fd, bs)) →
    ∀ c, s.data.conns fd = some c → c.Holds (s.data.requestsFrom fd) []

namespace NetServer

variable {n : Nat} {listenFd : Fd} {s s' : NetServer n}

/-- While a worker holds `recvLock`, no other one has bytes in hand. -/
theorem hand_none (ho : Owned s.locks s.held) {i j : Fin n}
    (hi : (s.workers i).holds .recvLock) (hj : j ≠ i) : (s.workers j).hand = none := by
  cases hh : (s.workers j).hand with
  | none => rfl
  | some x =>
      have hheld : s.held (.worker j) .recvLock := ServerPc.holds_of_hand hh
      have he := ho.unique hheld (show s.held (.worker i) .recvLock from hi)
      exact absurd (ServerTid.worker.inj he) hj

/-- Where connections only grow. -/
def ConnsGrow (s s' : NetServer n) : Prop :=
  ∀ fd c', s'.data.conns fd = some c' →
    ∃ c, s.data.conns fd = some c ∧ c'.rx = c.rx ∧ c.inp <+: c'.inp

/-- A step that reads and delivers nothing. -/
theorem Received.frame (h : s.Received) (hconns : ConnsGrow s s')
    (hreq : ∀ fd, s'.data.requestsFrom fd = s.data.requestsFrom fd)
    (hfds : s'.data.clientFds = s.data.clientFds)
    (hhand : ∀ j, (s'.workers j).hand = (s.workers j).hand) : s'.Received where
  conn := by
    intro fd c' hc'
    obtain ⟨c, hc, hrx, hinp⟩ := hconns fd c' hc'
    obtain ⟨part, hpart⟩ := h.conn fd c hc
    rw [hreq]
    exact ⟨part, hpart.mono hrx hinp⟩
  client := by
    intro i fd bs hi
    rw [hhand] at hi
    rw [hfds]
    exact h.client i fd bs hi
  hand := by
    intro i fd bs hi c' hc'
    obtain ⟨c, hc, hrx, hinp⟩ := hconns fd c' hc'
    rw [hhand] at hi
    rw [hreq]
    exact (h.hand i fd bs hi c hc).mono hrx hinp
  rest := by
    intro fd hfd hnone c' hc'
    obtain ⟨c, hc, hrx, hinp⟩ := hconns fd c' hc'
    rw [hfds] at hfd
    rw [hreq]
    refine (h.rest fd hfd (fun i bs hi => hnone i bs ?_) c hc).mono hrx hinp
    rw [hhand]
    exact hi

/-- A worker begins to read from a client. -/
theorem Received.begin (h : s.Received) (hconns : ConnsGrow s s')
    (hreq : ∀ fd, s'.data.requestsFrom fd = s.data.requestsFrom fd)
    (hfds : s'.data.clientFds = s.data.clientFds) {i : Fin n} {fd : Fd}
    (hfd : fd ∈ s.data.clientFds) (hnone : ∀ j, (s.workers j).hand = none)
    (hi : (s'.workers i).hand = some (fd, []))
    (hj : ∀ j, j ≠ i → (s'.workers j).hand = none) : s'.Received := by
  have hrest : ∀ fd ∈ s.data.clientFds, ∀ c', s'.data.conns fd = some c' →
      c'.Holds (s'.data.requestsFrom fd) [] := by
    intro fd hfd c' hc'
    obtain ⟨c, hc, hrx, hinp⟩ := hconns fd c' hc'
    rw [hreq]
    refine (h.rest fd hfd (fun i bs hi => ?_) c hc).mono hrx hinp
    rw [hnone] at hi
    cases hi
  have honly : ∀ j fd' bs, (s'.workers j).hand = some (fd', bs) → fd' = fd ∧ bs = [] := by
    intro j fd' bs hjs
    cases only_eq hj hi hjs
    exact ⟨rfl, rfl⟩
  refine ⟨?_, ?_, ?_, ?_⟩
  · intro fd' c' hc'
    obtain ⟨c, hc, hrx, hinp⟩ := hconns fd' c' hc'
    obtain ⟨part, hpart⟩ := h.conn fd' c hc
    rw [hreq]
    exact ⟨part, hpart.mono hrx hinp⟩
  · intro j fd' bs hjs
    obtain ⟨rfl, rfl⟩ := honly j fd' bs hjs
    rw [hfds]
    exact hfd
  · intro j fd' bs hjs c' hc'
    obtain ⟨rfl, rfl⟩ := honly j fd' bs hjs
    exact hrest fd' hfd c' hc'
  · intro fd' hfd' _ c' hc'
    rw [hfds] at hfd'
    exact hrest fd' hfd' c' hc'

/-- The reading worker stores more bytes. -/
theorem Received.read (h : s.Received) {i : Fin n} {fd : Fd} {bs : Bytes} {k : Nat} {c : Conn}
    (hi : (s.workers i).hand = some (fd, bs)) (hc : s.data.conns fd = some c)
    (hk : k ≤ c.unread.length)
    (hconns : s'.data.conns
      = (s.data.modifyConn fd fun c => { c with rx := c.rx + k }).conns)
    (hreq : ∀ fd, s'.data.requestsFrom fd = s.data.requestsFrom fd)
    (hfds : s'.data.clientFds = s.data.clientFds)
    (hi' : (s'.workers i).hand = some (fd, bs ++ c.unread.take k))
    (hj : ∀ j, j ≠ i → (s.workers j).hand = none ∧ (s'.workers j).hand = none) :
    s'.Received := by
  have hread := (h.hand i fd bs hi c hc).read hk
  have hfd : ∀ c', s'.data.conns fd = some c' →
      c'.Holds (s'.data.requestsFrom fd) (bs ++ c.unread.take k) := by
    intro c' hc'
    rw [hconns, ServerData.modifyConn_conns, if_pos rfl, hc, Option.map_some] at hc'
    cases hc'
    rw [hreq]
    exact hread
  have hother : ∀ fd' c', fd' ≠ fd → s'.data.conns fd' = some c' →
      s.data.conns fd' = some c' := by
    intro fd' c' hne hc'
    rwa [hconns, ServerData.modifyConn_conns, if_neg hne] at hc'
  have honly : ∀ j fd' bs', (s'.workers j).hand = some (fd', bs') →
      fd' = fd ∧ bs' = bs ++ c.unread.take k := by
    intro j fd' bs' hjs
    cases only_eq (fun j he => (hj j he).2) hi' hjs
    exact ⟨rfl, rfl⟩
  refine ⟨?_, ?_, ?_, ?_⟩
  · intro fd' c' hc'
    by_cases he : fd' = fd
    · subst he
      exact ⟨_, hfd c' hc'⟩
    · rw [hreq]
      exact h.conn fd' c' (hother fd' c' he hc')
  · intro j fd' bs' hjs
    obtain ⟨rfl, rfl⟩ := honly j fd' bs' hjs
    rw [hfds]
    exact h.client i fd' bs hi
  · intro j fd' bs' hjs c' hc'
    obtain ⟨rfl, rfl⟩ := honly j fd' bs' hjs
    exact hfd c' hc'
  · intro fd' hfd' hnone c' hc'
    have hne : fd' ≠ fd := by
      rintro rfl
      exact hnone i _ hi'
    rw [hfds] at hfd'
    rw [hreq]
    refine h.rest fd' hfd' (fun j bs' hjs => ?_) c' (hother fd' c' hne hc')
    cases only_eq (fun j he => (hj j he).1) hi hjs
    exact hne rfl

/-- The reading worker gives up and removes the client. -/
theorem Received.leave (h : s.Received) (hnd : s.data.clientFds.Nodup) {i : Fin n} {fd : Fd}
    {bs : Bytes} (hi : (s.workers i).hand = some (fd, bs)) (hconns : s'.data.conns = s.data.conns)
    (hreq : ∀ fd, s'.data.requestsFrom fd = s.data.requestsFrom fd)
    (hfds : s'.data.clientFds = s.data.clientFds.erase fd) (hi' : (s'.workers i).hand = none)
    (hj : ∀ j, j ≠ i → (s.workers j).hand = none ∧ (s'.workers j).hand = none) :
    s'.Received := by
  have hnone : ∀ j fd' bs', (s'.workers j).hand ≠ some (fd', bs') := by
    intro j fd' bs' hjs
    rw [only_none (fun j he => (hj j he).2) hi' j] at hjs
    cases hjs
  refine ⟨?_, ?_, ?_, ?_⟩
  · intro fd' c hc
    rw [hconns] at hc
    rw [hreq]
    exact h.conn fd' c hc
  · exact fun j fd' bs' hjs => absurd hjs (hnone j fd' bs')
  · exact fun j fd' bs' hjs => absurd hjs (hnone j fd' bs')
  · intro fd' hfd' _ c hc
    rw [hfds, hnd.mem_erase_iff] at hfd'
    rw [hconns] at hc
    rw [hreq]
    refine h.rest fd' hfd'.2 (fun j bs' hjs => ?_) c hc
    cases only_eq (fun j he => (hj j he).1) hi hjs
    exact hfd'.1 rfl

/-- The reading worker delivers its request. -/
theorem Received.deliver (h : s.Received) {i : Fin n} {fd : Fd} {raw : Bytes}
    (hi : (s.workers i).hand = some (fd, raw)) (hconns : s'.data.conns = s.data.conns)
    (hlog : s'.data.log = s.data.log ++ [.delivered i fd raw])
    (hfds : s'.data.clientFds = s.data.clientFds) (hi' : (s'.workers i).hand = none)
    (hj : ∀ j, j ≠ i → (s.workers j).hand = none ∧ (s'.workers j).hand = none) :
    s'.Received := by
  have hself : s'.data.requestsFrom fd = s.data.requestsFrom fd ++ [raw] := by
    simp [ServerData.requestsFrom, hlog, ServerEvent.request]
  have hother : ∀ fd', fd' ≠ fd → s'.data.requestsFrom fd' = s.data.requestsFrom fd' := by
    intro fd' hne
    simp [ServerData.requestsFrom, hlog, ServerEvent.request, hne.symm]
  have hnone : ∀ j fd' bs', (s'.workers j).hand ≠ some (fd', bs') := by
    intro j fd' bs' hjs
    rw [only_none (fun j he => (hj j he).2) hi' j] at hjs
    cases hjs
  have hfd : ∀ c, s.data.conns fd = some c → c.Holds (s'.data.requestsFrom fd) [] := by
    intro c hc
    rw [hself]
    exact (h.hand i fd raw hi c hc).deliver
  refine ⟨?_, ?_, ?_, ?_⟩
  · intro fd' c hc
    rw [hconns] at hc
    by_cases he : fd' = fd
    · subst he
      exact ⟨[], hfd c hc⟩
    · rw [hother fd' he]
      exact h.conn fd' c hc
  · exact fun j fd' bs' hjs => absurd hjs (hnone j fd' bs')
  · exact fun j fd' bs' hjs => absurd hjs (hnone j fd' bs')
  · intro fd' hfd' _ c hc
    rw [hfds] at hfd'
    rw [hconns] at hc
    by_cases he : fd' = fd
    · subst he
      exact hfd c hc
    · rw [hother fd' he]
      refine h.rest fd' hfd' (fun j bs' hjs => ?_) c hc
      cases only_eq (fun j hji => (hj j hji).1) hi hjs
      exact he rfl

/-- A new client, of which nothing was read. -/
theorem Received.accept (h : s.Received) {fd : Fd}
    (hnew : ∀ c, s.data.conns fd = some c → c.rx = 0) (hreqs : s.data.requestsFrom fd = [])
    (hconns : s'.data.conns = s.data.conns)
    (hreq : ∀ fd, s'.data.requestsFrom fd = s.data.requestsFrom fd)
    (hfds : s'.data.clientFds = s.data.clientFds ++ [fd])
    (hhand : ∀ j, (s'.workers j).hand = (s.workers j).hand) : s'.Received where
  conn := by
    intro fd' c hc
    rw [hconns] at hc
    rw [hreq]
    exact h.conn fd' c hc
  client := by
    intro j fd' bs hjs
    rw [hhand] at hjs
    rw [hfds]
    exact List.mem_append_left _ (h.client j fd' bs hjs)
  hand := by
    intro j fd' bs hjs c hc
    rw [hhand] at hjs
    rw [hconns] at hc
    rw [hreq]
    exact h.hand j fd' bs hjs c hc
  rest := by
    intro fd' hfd' hnone c hc
    rw [hconns] at hc
    rw [hreq]
    rw [hfds] at hfd'
    rcases List.mem_append.mp hfd' with hmem | hmem
    · refine h.rest fd' hmem (fun j bs hjs => hnone j bs ?_) c hc
      rw [hhand]
      exact hjs
    · obtain rfl := List.mem_singleton.mp hmem
      rw [hreqs]
      exact .start (hnew c hc)

/-- Nothing is delivered from a connection before it is accepted. -/
theorem Fds.requestsFrom_nil (h : s.Fds listenFd) {fd : Fd} (hfd : ¬ s.data.Accepted fd) :
    s.data.requestsFrom fd = [] := by
  rw [ServerData.requestsFrom, List.filterMap_eq_nil_iff]
  intro e he
  have hacc := h.data.log e he
  cases e with
  | delivered i fd' raw =>
      have hne : fd' ≠ fd := fun heq => hfd (heq ▸ hacc)
      simp [ServerEvent.request, hne]
  | _ => rfl

/-- Nothing is sent to it either. -/
theorem Fds.responsesTo_nil (h : s.Fds listenFd) {fd : Fd} (hfd : ¬ s.data.Accepted fd) :
    s.data.responsesTo fd = [] := by
  rw [ServerData.responsesTo, List.filterMap_eq_nil_iff]
  intro e he
  have hacc := h.data.log e he
  cases e with
  | delivered i fd' raw => rfl
  | responded i fd' resp | finish fd' =>
      have hne : fd' ≠ fd := fun heq => hfd (heq ▸ hacc)
      simp [ServerEvent.response, hne]

/-- A change of one connection that leaves its input alone. -/
theorem connsGrow_modifyConn {fd : Fd} {f : Conn → Conn} {s s' : NetServer n}
    (hs : s'.data.conns = (s.data.modifyConn fd f).conns)
    (hf : ∀ c, (f c).rx = c.rx ∧ c.inp <+: (f c).inp) : ConnsGrow s s' := by
  intro fd' c' hc'
  rw [hs] at hc'
  obtain ⟨c, hc, ⟨-, rfl⟩ | ⟨-, rfl⟩⟩ := ServerData.modifyConn_some hc'
  · exact ⟨c, hc, (hf c).1, (hf c).2⟩
  · exact ⟨c', hc, rfl, List.prefix_refl _⟩

theorem connsGrow_of_eq {s s' : NetServer n} (hs : s'.data.conns = s.data.conns) :
    ConnsGrow s s' := by
  intro fd c hc
  rw [hs] at hc
  exact ⟨c, hc, rfl, List.prefix_refl _⟩

/-- One step of a worker. -/
theorem Received.worker (h : s.Received) (ho : Owned s.locks s.held) (hf : s.Fds listenFd)
    {i : Fin n} {inp : ServerInput} {d : ServerData n} {pc : ServerPc} {op : LockOp Mutex}
    {locks : Mutex → Option (ServerTid n)}
    (hm : ServerMove i s.data (s.workers i) inp d pc op) :
    (s.afterWorker i d pc locks).Received := by
  have hself : ((s.afterWorker i d pc locks).workers i) = pc := by simp [afterWorker]
  have hother : ∀ j, j ≠ i → (s.afterWorker i d pc locks).workers j = s.workers j := by
    intro j hj
    simp [afterWorker, hj]
  -- a step after which worker `i` has the same bytes in hand
  have hsame : pc.hand = (s.workers i).hand →
      ∀ j, ((s.afterWorker i d pc locks).workers j).hand = (s.workers j).hand := by
    intro he j
    by_cases hj : j = i
    · rw [hj, hself, he]
    · rw [hother j hj]
  -- while worker `i` holds `recvLock`
  have hothers : (s.workers i).holds .recvLock → ∀ j, j ≠ i → (s.workers j).hand = none ∧
      ((s.afterWorker i d pc locks).workers j).hand = none := by
    intro hi j hj
    rw [hother j hj]
    exact ⟨hand_none ho hi hj, hand_none ho hi hj⟩
  have hchoice : ∀ {d₁ : ServerData n}, d = d₁ → (s.workers i).choosing →
      pc.Chosen s.data.clientFds → ConnsGrow s (s.afterWorker i d₁ pc locks) →
      (∀ fd, d₁.requestsFrom fd = s.data.requestsFrom fd) →
      d₁.clientFds = s.data.clientFds → (s.afterWorker i d pc locks).Received := by
    rintro d₁ rfl hpc hpc' hconns hreq hfds
    obtain ⟨hnone | ⟨fd, hfd, hsome⟩, -⟩ := hpc'.idle
    · exact h.frame hconns hreq hfds (hsame (by rw [hnone, hpc.idle.1]))
    · have hi := ServerPc.holds_of_choosing hpc
      refine h.begin hconns hreq hfds hfd (fun j => ?_) (by rw [hself]; exact hsome)
        fun j hj => (hothers hi j hj).2
      by_cases hj : j = i
      · rw [hj, hpc.idle.1]
      · exact (hothers hi j hj).1
  generalize hpc₀ : s.workers i = pc₀ at hm hothers hsame hchoice
  cases hm with
  | choose hpc hpc' =>
      exact hchoice rfl hpc hpc' (connsGrow_of_eq rfl) (fun _ => rfl) rfl
  | lockRecv | unlockRecv | lockSend | assertFails | sigpipe | count | full =>
      exact h.frame (connsGrow_of_eq rfl) (fun _ => rfl) rfl (hsame rfl)
  | selectError hpc | cut hpc =>
      exact h.frame (connsGrow_of_eq rfl) (fun _ => rfl) rfl (hsame rfl)
  | respond ns data hns =>
      refine h.frame (connsGrow_of_eq rfl) (fun fd => ?_) rfl (hsame rfl)
      simp [afterWorker, ServerData.requestsFrom, ServerEvent.request]
  | write | writeLast | writeError =>
      exact h.frame (connsGrow_modifyConn rfl fun c => ⟨rfl, List.prefix_refl _⟩)
        (fun _ => rfl) rfl (hsame rfl)
  | @accept _ _ _ fd rest head hpc hb hpc' =>
      have hmem : fd ∈ s.data.backlog := by rw [hb]; exact List.mem_cons_self
      have hreqs : s.data.requestsFrom fd = [] := hf.requestsFrom_nil fun ha => ha.2 hmem
      refine h.accept (fun c hc => ?_) hreqs rfl (fun _ => rfl) rfl
        (hsame (by rw [hpc'.idle.1, hpc.idle.1]))
      obtain ⟨c₀, hc₀, hrx, -⟩ := hf.data.waiting fd hmem
      rw [hc] at hc₀
      cases hc₀
      exact hrx
  | @acceptClose _ _ fd rest head hpc hb hpc' =>
      refine hchoice rfl hpc hpc' ?_ (fun _ => rfl) rfl
      intro fd' c hc
      by_cases he : fd' = fd
      · simp [afterWorker, he] at hc
      · exact ⟨c, by simpa [afterWorker, he] using hc, rfl, List.prefix_refl _⟩
  | readHead hc hk hk' hlen =>
      exact h.read (by rw [hpc₀]; rfl) hc hk' rfl (fun _ => rfl) rfl (by rw [hself]; rfl)
        (hothers rfl)
  | headOk hc hk hk' hlen hpos hmax =>
      exact h.read (by rw [hpc₀]; rfl) hc hk' rfl (fun _ => rfl) rfl
        (by rw [hself]; simp [ServerPc.hand]) (hothers rfl)
  | overrun hc hk hk' hlen hmax =>
      exact h.read (by rw [hpc₀]; rfl) hc hk' rfl (fun _ => rfl) rfl
        (by rw [hself]; simp [ServerPc.hand]) (hothers rfl)
  | readData hc hk hk' hlen =>
      exact h.read (by rw [hpc₀]; rfl) hc hk' rfl (fun _ => rfl) rfl
        (by rw [hself]; simp [ServerPc.hand]) (hothers rfl)
  | dataDone hc hk hk' hlen =>
      exact h.read (by rw [hpc₀]; rfl) hc hk' rfl (fun _ => rfl) rfl
        (by rw [hself]; simp [ServerPc.hand]) (hothers rfl)
  | @headEmpty fd got k c hc hk hk' hlen hpos =>
      -- first the bytes are stored, then the client is removed
      let s₁ := s.afterWorker i (s.data.modifyConn fd fun c => { c with rx := c.rx + k })
        (.header fd (got ++ c.unread.take k)) locks
      have hself₁ : s₁.workers i = .header fd (got ++ c.unread.take k) := by
        simp [s₁, afterWorker]
      have hother₁ : ∀ j, j ≠ i → (s.workers j).hand = none ∧ (s₁.workers j).hand = none := by
        intro j hj
        simpa [s₁, afterWorker, hj] using (hothers rfl j hj).1
      have h₁ : s₁.Received :=
        h.read (by rw [hpc₀]; rfl) hc hk' rfl (fun _ => rfl) rfl (by rw [hself₁]; rfl) hother₁
      exact h₁.leave hf.data.clients_nodup (by rw [hself₁]; rfl) rfl (fun _ => rfl) rfl
        (by rw [hself]; rfl) fun j hj => ⟨(hother₁ j hj).2, (hothers rfl j hj).2⟩
  | @leave pc₁ inp fd c hpc hc hend hinp =>
      have hhand : ∃ bs, pc₀.hand = some (fd, bs) := by
        cases pc₀ with
        | header fd' got => cases hpc; exact ⟨_, rfl⟩
        | payload fd' head got => cases hpc; exact ⟨_, rfl⟩
        | _ => cases hpc
      obtain ⟨bs, hbs⟩ := hhand
      exact h.leave hf.data.clients_nodup (by rw [hpc₀]; exact hbs) rfl (fun _ => rfl) rfl
        (by rw [hself]; rfl) (hothers (ServerPc.holds_of_hand hbs))
  | stamp ns =>
      exact h.deliver (by rw [hpc₀]; rfl) rfl rfl rfl (by rw [hself]; rfl) (hothers rfl)

/-- One step of the process or the network. -/
theorem Move.received {a : ServerAction n} (hm : Move listenFd s a s') (h : s.Received)
    (ho : Owned s.locks s.held) (hf : s.Fds listenFd) : s'.Received := by
  cases hm with
  | worker hm hop => exact h.worker ho hf hm
  | @finisher inp d pc op locks hm hop =>
      generalize s.finisher = pc₀ at hm
      cases hm with
      | send =>
          refine h.frame (connsGrow_of_eq rfl) (fun fd => ?_) rfl fun _ => rfl
          simp [afterFinisher, ServerData.requestsFrom, ServerEvent.request]
      | write | writeLast | writeError =>
          exact h.frame (connsGrow_modifyConn rfl fun c => ⟨rfl, List.prefix_refl _⟩)
            (fun _ => rfl) rfl fun _ => rfl
      | _ => exact h.frame (connsGrow_of_eq rfl) (fun _ => rfl) rfl fun _ => rfl
  | @connect fd hl hfd =>
      have hold : ∀ fd' c, fd' ≠ fd →
          (Function.update s.data.conns fd (some {})) fd' = some c →
          s.data.conns fd' = some c := fun fd' c he hc => by simpa [he] using hc
      have hnot : ∀ fd', s.data.Accepted fd' → fd' ≠ fd := fun fd' ha he => ha.1 (he ▸ hfd)
      refine ⟨fun fd' c hc => ?_, h.client, fun j fd' bs hjs c hc => ?_,
        fun fd' hfd' hnone c hc => ?_⟩
      · by_cases he : fd' = fd
        · subst he
          have hc' : some {} = some c := by simpa [withData] using hc
          have hreqs : s.data.requestsFrom fd' = [] := hf.requestsFrom_nil fun ha => ha.1 hfd
          refine ⟨[], ?_⟩
          show c.Holds (s.data.requestsFrom fd') []
          rw [hreqs]
          cases hc'
          exact .start rfl
        · exact h.conn fd' c (hold fd' c he hc)
      · exact h.hand j fd' bs hjs c (hold fd' c (hnot fd' ((hf.workers j).hand fd' bs hjs)) hc)
      · exact h.rest fd' hfd' hnone c (hold fd' c (hnot fd' (hf.data.clients fd' hfd')) hc)
  | arrive hc hopen =>
      exact h.frame (connsGrow_modifyConn rfl fun c => ⟨rfl, List.prefix_append _ _⟩)
        (fun _ => rfl) rfl fun _ => rfl
  | hangup =>
      exact h.frame (connsGrow_modifyConn rfl fun c => ⟨rfl, List.prefix_refl _⟩)
        (fun _ => rfl) rfl fun _ => rfl

end NetServer

theorem netServer_received {n : Nat} {listenFd : Fd} {s : NetServer n}
    (h : (netServer listenFd n).Reachable s) : s.Received := by
  refine Machine.Reachable.invariant ?_ ?_ h
  · rintro s rfl
    exact ⟨nofun, nofun, nofun, nofun⟩
  · intro s a s' hr hs hn
    obtain ⟨-, hmove⟩ := NetServer.next_move hn
    exact hmove.received hs (netServer_owned hr) (netServer_fds hr)

/-! ## What was written -/

/-- What was written to a connection, as long as no `send` on it has failed. -/
structure NetServer.Written {n : Nat} (s : NetServer n) : Prop where
  sending : ∀ t fd rest, s.outgoing t = some (fd, rest) → ∀ c, s.data.conns fd = some c →
    c.failed = false → c.out ++ rest = (s.data.responsesTo fd).flatMap Response.frame
  idle : ∀ fd c, s.data.conns fd = some c → c.failed = false →
    (∀ t rest, s.outgoing t ≠ some (fd, rest)) →
    c.out = (s.data.responsesTo fd).flatMap Response.frame

namespace NetServer

variable {n : Nat} {listenFd : Fd} {s s' : NetServer n}

/-- While a thread holds `sendLock`, no other one writes. -/
theorem outgoing_none (ho : Owned s.locks s.held) {t u : ServerTid n}
    (ht : s.held t .sendLock) (hu : u ≠ t) : s.outgoing u = none := by
  cases hout : s.outgoing u with
  | none => rfl
  | some x =>
      have hheld : s.held u .sendLock := by
        cases u with
        | worker i => exact ServerPc.holds_of_outgoing hout
        | finisher => exact FinishPc.holds_of_outgoing hout
      exact absurd (ho.unique hheld ht) hu

/-- A step that writes nothing. -/
theorem Written.frame (h : s.Written)
    (hconns : ∀ fd c', s'.data.conns fd = some c' →
      ∃ c, s.data.conns fd = some c ∧ c'.out = c.out ∧ (c'.failed = false → c.failed = false))
    (hresp : ∀ fd, s'.data.responsesTo fd = s.data.responsesTo fd)
    (hout : ∀ t, s'.outgoing t = s.outgoing t) : s'.Written where
  sending := by
    intro t fd rest ht c' hc' hfail
    obtain ⟨c, hc, heq, hf⟩ := hconns fd c' hc'
    rw [hout] at ht
    rw [heq, hresp]
    exact h.sending t fd rest ht c hc (hf hfail)
  idle := by
    intro fd c' hc' hfail hnone
    obtain ⟨c, hc, heq, hf⟩ := hconns fd c' hc'
    rw [heq, hresp]
    refine h.idle fd c hc (hf hfail) fun t rest ht => hnone t rest ?_
    rw [hout]
    exact ht

/-- A thread begins to send a response. -/
theorem Written.begin (h : s.Written) (t : ServerTid n) (fd : Fd) (resp : Response)
    {e : ServerEvent n} (hconns : s'.data.conns = s.data.conns)
    (hlog : s'.data.log = s.data.log ++ [e]) (he : e.response fd = some resp)
    (he' : ∀ fd', fd' ≠ fd → e.response fd' = none) (hnone : ∀ u, s.outgoing u = none)
    (ht : s'.outgoing t = some (fd, resp.frame))
    (hu : ∀ u, u ≠ t → s'.outgoing u = none) : s'.Written := by
  have hself : s'.data.responsesTo fd = s.data.responsesTo fd ++ [resp] := by
    simp [ServerData.responsesTo, hlog, he]
  have hother : ∀ fd', fd' ≠ fd → s'.data.responsesTo fd' = s.data.responsesTo fd' := by
    intro fd' hne
    simp [ServerData.responsesTo, hlog, he' fd' hne]
  have hidle : ∀ fd' c, s.data.conns fd' = some c → c.failed = false →
      c.out = (s.data.responsesTo fd').flatMap Response.frame := by
    intro fd' c hc hfail
    refine h.idle fd' c hc hfail fun u rest hurest => ?_
    rw [hnone] at hurest
    cases hurest
  constructor
  · intro u fd' rest hurest c hc hfail
    rw [hconns] at hc
    cases only_eq hu ht hurest
    rw [hself, List.flatMap_append, hidle fd c hc hfail]
    simp
  · intro fd' c hc hfail hno
    rw [hconns] at hc
    have hne : fd' ≠ fd := by
      rintro rfl
      exact hno t _ ht
    rw [hother fd' hne]
    exact hidle fd' c hc hfail

/-- The sending thread writes the next bytes, or its connection fails. -/
theorem Written.write (h : s.Written) {t : ServerTid n} {fd : Fd} {rest : Bytes}
    {f : Conn → Conn} (ht : s.outgoing t = some (fd, rest))
    (hconns : s'.data.conns = (s.data.modifyConn fd f).conns)
    (hresp : ∀ fd, s'.data.responsesTo fd = s.data.responsesTo fd)
    (hu : ∀ u, u ≠ t → s.outgoing u = none ∧ s'.outgoing u = none)
    (hf : ∀ c, c.failed = false ∧
        (∃ rest', s'.outgoing t = some (fd, rest') ∧ (f c).out ++ rest' = c.out ++ rest) ∨
      c.failed = false ∧ s'.outgoing t = none ∧ (f c).out = c.out ++ rest ∨
      (f c).failed = true ∧ ∀ fd' rest', s'.outgoing t = some (fd', rest') → fd' = fd) :
    s'.Written := by
  have hother : ∀ fd' c', fd' ≠ fd → s'.data.conns fd' = some c' →
      s.data.conns fd' = some c' := by
    intro fd' c' hne hc'
    rwa [hconns, ServerData.modifyConn_conns, if_neg hne] at hc'
  have hfd : ∀ c', s'.data.conns fd = some c' → ∃ c, s.data.conns fd = some c ∧ c' = f c := by
    intro c' hc'
    rw [hconns, ServerData.modifyConn_conns, if_pos rfl] at hc'
    obtain ⟨c, hc, rfl⟩ := Option.map_eq_some_iff.mp hc'
    exact ⟨c, hc, rfl⟩
  constructor
  · intro u fd' rest' hurest c' hc' hfail
    by_cases hut : u = t
    · subst hut
      by_cases he : fd' = fd
      · subst he
        obtain ⟨c, hc, rfl⟩ := hfd c' hc'
        obtain ⟨hcf, r, hr, hsum⟩ | ⟨-, hnone, -⟩ | ⟨hbad, -⟩ := hf c
        · rw [hr] at hurest
          cases hurest
          rw [hsum, hresp]
          exact h.sending u fd' rest ht c hc hcf
        · rw [hnone] at hurest
          cases hurest
        · rw [hbad] at hfail
          cases hfail
      · obtain ⟨-, r, hr, -⟩ | ⟨-, hnone, -⟩ | ⟨-, hsame⟩ := hf c'
        · rw [hr] at hurest
          cases hurest
          exact absurd rfl he
        · rw [hnone] at hurest
          cases hurest
        · exact absurd (hsame fd' rest' hurest) he
    · rw [(hu u hut).2] at hurest
      cases hurest
  · intro fd' c' hc' hfail hno
    by_cases he : fd' = fd
    · subst he
      obtain ⟨c, hc, rfl⟩ := hfd c' hc'
      obtain ⟨-, r, hr, -⟩ | ⟨hcf, -, hsum⟩ | ⟨hbad, -⟩ := hf c
      · exact absurd hr (hno t r)
      · rw [hsum, hresp]
        exact h.sending t fd' rest ht c hc hcf
      · rw [hbad] at hfail
        cases hfail
    · rw [hresp]
      refine h.idle fd' c' (hother fd' c' he hc') hfail fun u r hur => ?_
      cases only_eq (fun u hut => (hu u hut).1) ht hur
      exact he rfl

/-- A change of one connection that leaves its output alone. -/
theorem conns_modifyConn_out {fd : Fd} {f : Conn → Conn} {s s' : NetServer n}
    (hs : s'.data.conns = (s.data.modifyConn fd f).conns)
    (hf : ∀ c, (f c).out = c.out ∧ ((f c).failed = false → c.failed = false)) :
    ∀ fd' c', s'.data.conns fd' = some c' → ∃ c, s.data.conns fd' = some c ∧
      c'.out = c.out ∧ (c'.failed = false → c.failed = false) := by
  intro fd' c' hc'
  rw [hs] at hc'
  obtain ⟨c, hc, ⟨-, rfl⟩ | ⟨-, rfl⟩⟩ := ServerData.modifyConn_some hc'
  · exact ⟨c, hc, (hf c).1, (hf c).2⟩
  · exact ⟨c', hc, rfl, id⟩

theorem conns_out_of_eq {s s' : NetServer n} (hs : s'.data.conns = s.data.conns) :
    ∀ fd' c', s'.data.conns fd' = some c' → ∃ c, s.data.conns fd' = some c ∧
      c'.out = c.out ∧ (c'.failed = false → c.failed = false) := by
  intro fd' c' hc'
  rw [hs] at hc'
  exact ⟨c', hc', rfl, id⟩

/-- The first `k` bytes of what is left, as `Written.write` wants them. -/
theorem write_cases {s' : NetServer n} {t : ServerTid n} {fd : Fd} (rest : Bytes) (k : Nat)
    (hout : s'.outgoing t = some (fd, rest.drop k) ∨ s'.outgoing t = none ∧ rest.take k = rest)
    (c : Conn) :
    c.failed = false ∧ (∃ rest', s'.outgoing t = some (fd, rest') ∧
        (c.out ++ rest.take k) ++ rest' = c.out ++ rest) ∨
      c.failed = false ∧ s'.outgoing t = none ∧ c.out ++ rest.take k = c.out ++ rest ∨
      c.failed = true ∧ ∀ fd' rest', s'.outgoing t = some (fd', rest') → fd' = fd := by
  cases hc : c.failed with
  | true =>
      refine .inr (.inr ⟨rfl, fun fd' rest' he => ?_⟩)
      obtain hsome | ⟨hnone, -⟩ := hout
      · rw [hsome] at he
        cases he
        rfl
      · rw [hnone] at he
        cases he
  | false =>
      obtain hsome | ⟨hnone, htake⟩ := hout
      · exact .inl ⟨rfl, _, hsome, by rw [List.append_assoc, List.take_append_drop]⟩
      · exact .inr (.inl ⟨rfl, hnone, by rw [htake]⟩)

/-- One step of a worker. -/
theorem Written.worker (h : s.Written) (ho : Owned s.locks s.held) {i : Fin n}
    {inp : ServerInput} {d : ServerData n} {pc : ServerPc} {op : LockOp Mutex}
    {locks : Mutex → Option (ServerTid n)}
    (hm : ServerMove i s.data (s.workers i) inp d pc op) :
    (s.afterWorker i d pc locks).Written := by
  have hself : (s.afterWorker i d pc locks).outgoing (.worker i) = pc.outgoing := by
    simp [NetServer.outgoing, afterWorker]
  have hother : ∀ u, u ≠ .worker i →
      (s.afterWorker i d pc locks).outgoing u = s.outgoing u := by
    intro u hu
    cases u with
    | worker j =>
        have hj : j ≠ i := fun hji => hu (by rw [hji])
        simp [NetServer.outgoing, afterWorker, hj]
    | finisher => rfl
  have hsame : pc.outgoing = (s.workers i).outgoing →
      ∀ u, (s.afterWorker i d pc locks).outgoing u = s.outgoing u := by
    intro he u
    by_cases hu : u = .worker i
    · rw [hu, hself, he]
      rfl
    · exact hother u hu
  have hnone : (s.workers i).holds .sendLock → ∀ u, u ≠ .worker i →
      s.outgoing u = none ∧ (s.afterWorker i d pc locks).outgoing u = none := by
    intro hi u hu
    have hout : s.outgoing u = none :=
      outgoing_none ho (show s.held (.worker i) .sendLock from hi) hu
    exact ⟨hout, by rw [hother u hu, hout]⟩
  have hidle : ∀ {f : Conn → Conn} {fd : Fd} {d₁ : ServerData n}, d = d₁ →
      pc.outgoing = (s.workers i).outgoing →
      d₁.conns = (s.data.modifyConn fd f).conns →
      (∀ c, (f c).out = c.out ∧ ((f c).failed = false → c.failed = false)) →
      (∀ fd, d₁.responsesTo fd = s.data.responsesTo fd) →
      (s.afterWorker i d pc locks).Written := by
    rintro f fd d₁ rfl hpc hconns hf hresp
    exact h.frame (conns_modifyConn_out hconns hf) hresp (hsame hpc)
  have hrun : (s.workers i).outgoing = s.outgoing (.worker i) := rfl
  generalize hpc₀ : s.workers i = pc₀ at hm hsame hnone hidle hrun
  cases hm with
  | lockRecv | unlockRecv | lockSend | assertFails | sigpipe | count | full =>
      exact h.frame (conns_out_of_eq rfl) (fun _ => rfl) (hsame rfl)
  | selectError hpc | cut hpc =>
      exact h.frame (conns_out_of_eq rfl) (fun _ => rfl) (hsame rfl)
  | choose hpc hpc' =>
      exact h.frame (conns_out_of_eq rfl) (fun _ => rfl)
        (hsame (by rw [hpc'.idle.2.2, hpc.idle.2.2]))
  | accept hpc hb hpc' =>
      exact h.frame (conns_out_of_eq rfl) (fun _ => rfl)
        (hsame (by rw [hpc'.idle.2.2, hpc.idle.2.2]))
  | @acceptClose _ _ fd rest head hpc hb hpc' =>
      refine h.frame ?_ (fun _ => rfl) (hsame (by rw [hpc'.idle.2.2, hpc.idle.2.2]))
      intro fd' c hc
      by_cases he : fd' = fd
      · simp [afterWorker, he] at hc
      · exact ⟨c, by simpa [afterWorker, he] using hc, rfl, id⟩
  | readHead | headOk | headEmpty | overrun | readData | dataDone =>
      exact hidle rfl rfl rfl (fun c => ⟨rfl, id⟩) fun _ => rfl
  | leave hpc hc hend hinp =>
      exact h.frame (conns_out_of_eq rfl) (fun _ => rfl)
        (hsame (by rw [(ServerPc.reading_idle hpc).2]; rfl))
  | stamp ns =>
      refine h.frame (conns_out_of_eq rfl) (fun fd => ?_) (hsame rfl)
      simp [afterWorker, ServerData.responsesTo, ServerEvent.response]
  | respond ns data hns =>
      refine h.begin (.worker i) (s.data.activeFds i) _ rfl rfl (if_pos rfl)
        (fun fd' hne => if_neg hne.symm) ?_
        (by rw [hself]; rfl) fun u hu => (hnone rfl u hu).2
      exact only_none (fun u hu => (hnone rfl u hu).1) hrun.symm
  | write hk hlt =>
      exact h.write (t := .worker i) hrun.symm rfl (fun _ => rfl) (hnone rfl)
        (write_cases _ _ (.inl hself))
  | @writeLast fd rest hpos =>
      refine h.write (t := .worker i) hrun.symm rfl (fun _ => rfl) (hnone rfl) fun c => ?_
      simpa using write_cases rest rest.length (.inr ⟨hself, List.take_length⟩) c
  | writeError =>
      refine h.write (t := .worker i) hrun.symm rfl (fun _ => rfl) (hnone rfl) fun c => ?_
      refine .inr (.inr ⟨rfl, fun fd' rest' he => ?_⟩)
      rw [hself] at he
      cases he

/-- One step of `finish`. -/
theorem Written.finisher (h : s.Written) (ho : Owned s.locks s.held) {inp : ServerInput}
    {d : ServerData n} {pc : FinishPc} {op : LockOp Mutex}
    {locks : Mutex → Option (ServerTid n)} (hm : FinishMove s.data s.finisher inp d pc op) :
    (s.afterFinisher d pc locks).Written := by
  have hself : (s.afterFinisher d pc locks).outgoing .finisher = pc.outgoing := rfl
  have hother : ∀ u, u ≠ .finisher → (s.afterFinisher d pc locks).outgoing u = s.outgoing u := by
    intro u hu
    cases u with
    | worker j => rfl
    | finisher => exact absurd rfl hu
  have hsame : pc.outgoing = s.finisher.outgoing →
      ∀ u, (s.afterFinisher d pc locks).outgoing u = s.outgoing u := by
    intro he u
    cases u with
    | worker j => rfl
    | finisher => exact he
  have hnone : s.finisher.holds .sendLock → ∀ u, u ≠ .finisher →
      s.outgoing u = none ∧ (s.afterFinisher d pc locks).outgoing u = none := by
    intro hi u hu
    have hout : s.outgoing u = none :=
      outgoing_none ho (show s.held .finisher .sendLock from hi) hu
    exact ⟨hout, by rw [hother u hu, hout]⟩
  have hrun : s.finisher.outgoing = s.outgoing .finisher := rfl
  generalize s.finisher = pc₀ at hm hsame hnone hrun
  cases hm with
  | lockSend | clients | unlock | sigpipe =>
      exact h.frame (conns_out_of_eq rfl) (fun _ => rfl) (hsame rfl)
  | @send fd todo =>
      refine h.begin .finisher fd finishFrame rfl rfl (if_pos rfl)
        (fun fd' hne => if_neg hne.symm) ?_
        rfl fun u hu => (hnone rfl u hu).2
      exact only_none (fun u hu => (hnone rfl u hu).1) hrun.symm
  | write hk hlt =>
      exact h.write (t := .finisher) hrun.symm rfl (fun _ => rfl) (hnone rfl)
        (write_cases _ _ (.inl rfl))
  | @writeLast fd rest todo hpos =>
      refine h.write (t := .finisher) hrun.symm rfl (fun _ => rfl) (hnone rfl) fun c => ?_
      simpa using write_cases rest rest.length (.inr ⟨hself, List.take_length⟩) c
  | writeError =>
      refine h.write (t := .finisher) hrun.symm rfl (fun _ => rfl) (hnone rfl) fun c => ?_
      refine .inr (.inr ⟨rfl, fun fd' rest' he => ?_⟩)
      cases he
      rfl

/-- One step of the process or the network. -/
theorem Move.written {a : ServerAction n} (hm : Move listenFd s a s') (h : s.Written)
    (ho : Owned s.locks s.held) (hf : s.Fds listenFd) : s'.Written := by
  cases hm with
  | worker hm hop => exact h.worker ho hm
  | finisher hm hop => exact h.finisher ho hm
  | @connect fd hl hfd =>
      have hold : ∀ fd' c, fd' ≠ fd →
          (Function.update s.data.conns fd (some {})) fd' = some c →
          s.data.conns fd' = some c := fun fd' c he hc => by simpa [he] using hc
      constructor
      · intro t fd' rest ht c hc hfail
        have hacc : s.data.Accepted fd' := by
          cases t with
          | worker i => exact (hf.workers i).outgoing fd' rest ht
          | finisher => exact hf.finisher.outgoing fd' rest ht
        have hne : fd' ≠ fd := fun he => hacc.1 (he ▸ hfd)
        exact h.sending t fd' rest ht c (hold fd' c hne hc) hfail
      · intro fd' c hc hfail hno
        by_cases he : fd' = fd
        · subst he
          have hc' : some {} = some c := by simpa [withData] using hc
          have hresp : s.data.responsesTo fd' = [] := hf.responsesTo_nil fun ha => ha.1 hfd
          show c.out = (s.data.responsesTo fd').flatMap Response.frame
          rw [hresp]
          cases hc'
          rfl
        · exact h.idle fd' c (hold fd' c he hc) hfail hno
  | arrive hc hopen =>
      exact h.frame (conns_modifyConn_out rfl fun c => ⟨rfl, id⟩) (fun _ => rfl) fun _ => rfl
  | hangup =>
      exact h.frame (conns_modifyConn_out rfl fun c => ⟨rfl, id⟩) (fun _ => rfl) fun _ => rfl

end NetServer

theorem netServer_written {n : Nat} {listenFd : Fd} {s : NetServer n}
    (h : (netServer listenFd n).Reachable s) : s.Written := by
  refine Machine.Reachable.invariant ?_ ?_ h
  · rintro s rfl
    constructor
    · intro t fd rest ht c hc
      cases hc
    · intro fd c hc
      cases hc
  · intro s a s' hr hs hn
    obtain ⟨-, hmove⟩ := NetServer.next_move hn
    exact hmove.written hs (netServer_owned hr) (netServer_fds hr)

end TailBench
