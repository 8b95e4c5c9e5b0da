import TailBench.Harness.Routing

set_option autoImplicit false

/-! # Streams of requests, and who is removed

`checkRecv` takes the count that `recvfull` returns: `0` means that the client has left, and the
client is removed. A `recvfull` of no bytes returns `0` as well. While every request has at
least one byte of data, only clients whose stream has ended are removed, whatever else happens.
-/

namespace TailBench

open Lib

/-! ## Streams of requests -/

/-- A request that a client may send: at least one byte of data, and no more than fit. -/
def ValidRequest (f : Bytes) : Prop :=
  IsRequest f ∧ requestHeaderLen < f.length ∧ f.length ≤ requestHeaderLen + MAX_REQ_BYTES

/-- The beginning of a sequence of requests. -/
def ValidStream (bs : Bytes) : Prop :=
  ∃ fs : List Bytes, (∀ f ∈ fs, ValidRequest f) ∧ bs <+: fs.flatten

/-- What is left of a stream after some requests. -/
theorem ValidStream.rest {gs : List Bytes} {r : Bytes} (hgs : ∀ g ∈ gs, IsRequest g)
    (h : ValidStream (gs.flatten ++ r)) : ValidStream r := by
  obtain ⟨fs, hfs, hcut⟩ := h
  obtain ⟨rest, rfl, hr⟩ :=
    frames_rest requestHeaderLen_pos (fun f hf => (hfs f hf).1) hgs hcut
  exact ⟨rest, fun f hf => hfs f (List.mem_append_right _ hf), hr⟩

/-- A worker inside a `recvfull` has no whole request in hand. -/
theorem ServerPc.Shape.no_request {n : Nat} {d : ServerData n} {i : Fin n} {pc : ServerPc}
    (h : pc.Shape d i) {fd : Fd} {bs : Bytes} (hbs : pc.hand = some (fd, bs))
    {x : Fd × Bytes} (hx : pc.reading = some x) {g : Bytes} (hg : IsRequest g) : ¬ g <+: bs := by
  intro hpre
  have hge := hg.1
  have hle := hpre.length_le
  cases pc with
  | header fd' got =>
      cases hbs
      have hlt : bs.length < requestHeaderLen := h
      omega
  | payload fd' head got =>
      cases hbs
      obtain ⟨hhead, hgot⟩ := h
      have htake : g.take requestHeaderLen = head := by
        rw [take_eq_of_prefixed hpre hge, ← hhead, List.take_left]
      have hlen := hg.2
      rw [htake, requestSize] at hlen
      rw [List.length_append] at hle
      omega
  | _ => cases hx

theorem length_append_take {xs ys : Bytes} {k m : Nat} (hk : k ≤ ys.length)
    (hm : xs.length + k = m) : (xs ++ ys.take k).length = m := by
  rw [List.length_append, List.length_take]
  omega

theorem ServerPc.hand_of_reading {pc : ServerPc} {fd : Fd} {got : Bytes}
    (h : pc.reading = some (fd, got)) : ∃ bs, pc.hand = some (fd, bs) := by
  cases pc with
  | header fd' got' =>
      cases h
      exact ⟨got, rfl⟩
  | payload fd' head got' =>
      cases h
      exact ⟨head ++ got, rfl⟩
  | _ => cases h

/-- The header of a request in a stream. -/
theorem ValidStream.head {head : Bytes} (h : ValidStream head)
    (hlen : head.length = requestHeaderLen) :
    0 < cInt (Request.ofHeader head).len.toNat ∧
      (cInt (Request.ofHeader head).len.toNat).toNat ≤ MAX_REQ_BYTES := by
  obtain ⟨fs, hfs, hpre⟩ := h
  cases fs with
  | nil =>
      have hle := hpre.length_le
      have hpos := requestHeaderLen_pos
      simp only [List.flatten_nil, List.length_nil] at hle
      omega
  | cons f fs =>
      obtain ⟨hreq, hlt, hle⟩ := hfs f List.mem_cons_self
      have htake : f.take requestHeaderLen = head := by
        have h1 := take_eq_of_prefixed hpre hlen.ge
        rw [List.take_of_length_le hlen.le, List.flatten_cons,
          List.take_append_of_le_length hlt.le] at h1
        exact h1.symm
      have hsize := hreq.2
      rw [htake, requestSize] at hsize
      omega

/-! ## What a step does to connections and clients -/

/-- What a step does to a connection. -/
structure NetServer.ConnStep {n : Nat} (s : NetServer n) (a : ServerAction n) (fd : Fd)
    (c c' : Conn) : Prop where
  inp : c'.inp = c.inp ∨ ∃ bs, a = .arrive fd bs ∧ c.ended = false ∧ c'.inp = c.inp ++ bs
  out : c'.out = c.out ∨ c'.failed = c.failed ∧
    ∃ t k rest, a = ServerTid.action t (.wrote k) ∧ s.outgoing t = some (fd, rest)
  ended : c'.ended = c.ended ∨ a = .hangup fd ∧ c'.ended = true

theorem NetServer.Move.conns {n : Nat} {listenFd : Fd} {a : ServerAction n} {s s' : NetServer n}
    (h : Move listenFd s a s') {fd : Fd} {c' : Conn} (hc' : s'.data.conns fd = some c') :
    c' = {} ∧ a = .connect fd ∨ ∃ c, s.data.conns fd = some c ∧ s.ConnStep a fd c c' := by
  have hsame : ∀ {d : ServerData n}, d.conns = s.data.conns → d.conns fd = some c' →
      ∃ c, s.data.conns fd = some c ∧ s.ConnStep a fd c c' := by
    intro d hd hc
    rw [hd] at hc
    exact ⟨c', hc, .inl rfl, .inl rfl, .inl rfl⟩
  have hmodify : ∀ {d : ServerData n} {fd' : Fd} {f : Conn → Conn},
      d.conns = (s.data.modifyConn fd' f).conns → d.conns fd = some c' →
      (∀ c, (fd = fd' → s.ConnStep a fd c (f c))) →
      ∃ c, s.data.conns fd = some c ∧ s.ConnStep a fd c c' := by
    intro d fd' f hd hc hf
    rw [hd] at hc
    obtain ⟨c, hcc, ⟨he, rfl⟩ | ⟨-, rfl⟩⟩ := ServerData.modifyConn_some hc
    · exact ⟨c, hcc, hf c he⟩
    · exact ⟨c', hcc, .inl rfl, .inl rfl, .inl rfl⟩
  cases h with
  | @worker i inp d pc op locks hm hop hstep =>
      refine .inr ?_
      generalize hw : s.workers i = pc₀ at hm
      cases hm with
      | @acceptClose pc pc' fd' rest head hpc hb hpc' =>
          have hne : fd ≠ fd' := by
            rintro rfl
            simp [afterWorker] at hc'
          refine ⟨c', ?_, .inl rfl, .inl rfl, .inl rfl⟩
          simpa [afterWorker, hne] using hc'
      | readHead | headOk | headEmpty | overrun | readData | dataDone =>
          exact hmodify rfl hc' fun c _ => ⟨.inl rfl, .inl rfl, .inl rfl⟩
      | @write fd' rest k hk hlt =>
          refine hmodify rfl hc' fun c he =>
            ⟨.inl rfl, .inr ⟨rfl, .worker i, k, rest, rfl, ?_⟩, .inl rfl⟩
          rw [he, outgoing, hw]
          rfl
      | @writeLast fd' rest hpos =>
          refine hmodify rfl hc' fun c he =>
            ⟨.inl rfl, .inr ⟨rfl, .worker i, rest.length, rest, rfl, ?_⟩, .inl rfl⟩
          rw [he, outgoing, hw]
          rfl
      | writeError => exact hmodify rfl hc' fun c _ => ⟨.inl rfl, .inl rfl, .inl rfl⟩
      | _ => exact hsame rfl hc'
  | finisher hm hop =>
      refine .inr ?_
      generalize hf : s.finisher = pc₀ at hm
      cases hm with
      | @write fd' rest todo k hk hlt =>
          refine hmodify rfl hc' fun c he =>
            ⟨.inl rfl, .inr ⟨rfl, .finisher, k, rest, rfl, ?_⟩, .inl rfl⟩
          rw [he, outgoing, hf]
          rfl
      | @writeLast fd' rest todo hpos =>
          refine hmodify rfl hc' fun c he =>
            ⟨.inl rfl, .inr ⟨rfl, .finisher, rest.length, rest, rfl, ?_⟩, .inl rfl⟩
          rw [he, outgoing, hf]
          rfl
      | writeError => exact hmodify rfl hc' fun c _ => ⟨.inl rfl, .inl rfl, .inl rfl⟩
      | _ => exact hsame rfl hc'
  | @connect fd' hl hnone =>
      by_cases he : fd = fd'
      · subst he
        simp only [withData, Function.update_self, Option.some.injEq] at hc'
        exact .inl ⟨hc'.symm, rfl⟩
      · refine .inr ⟨c', ?_, .inl rfl, .inl rfl, .inl rfl⟩
        simpa [withData, he] using hc'
  | @arrive fd' bs c₀ hc₀ hopen =>
      obtain ⟨c, hc, ⟨he, rfl⟩ | ⟨-, rfl⟩⟩ := ServerData.modifyConn_some hc'
      · subst he
        rw [hc₀] at hc
        cases hc
        exact .inr ⟨c₀, hc₀, .inr ⟨bs, rfl, hopen, rfl⟩, .inl rfl, .inl rfl⟩
      · exact .inr ⟨c', hc, .inl rfl, .inl rfl, .inl rfl⟩
  | hangup =>
      exact .inr (hmodify rfl hc' fun c he => ⟨.inl rfl, .inl rfl, .inr ⟨by rw [he], rfl⟩⟩)

/-- A stream that has ended stays so. -/
theorem NetServer.Move.ended {n : Nat} {listenFd : Fd} {a : ServerAction n} {s s' : NetServer n}
    (h : Move listenFd s a s') {fd : Fd} {c : Conn} (hc : s.data.conns fd = some c)
    (hend : c.ended = true) (hfd : s.data.Accepted fd) :
    ∃ c', s'.data.conns fd = some c' ∧ c'.ended = true := by
  obtain ⟨c', hc'⟩ := Option.ne_none_iff_exists'.mp (h.accepted hfd).1
  refine ⟨c', hc', ?_⟩
  rcases h.conns hc' with ⟨-, rfl⟩ | ⟨c₀, hc₀, hstep⟩
  · cases h with
    | connect hl hnone =>
        rw [hnone] at hc
        cases hc
  · rw [hc] at hc₀
    cases hc₀
    rcases hstep.ended with he | ⟨-, he⟩
    · rw [he, hend]
    · exact he

/-- A step at which `recvfull` returns `0`, so that `checkRecv` removes the client: its stream
has ended before the next byte, or the header it has sent announces no data. -/
inductive NetServer.Removes {n : Nat} (s : NetServer n) (fd : Fd) : ServerAction n → Prop
  | ended {i : Fin n} {inp : ServerInput} {c : Conn}
      (hi : (s.workers i).reading = some (fd, [])) (hinp : inp = .eof ∨ inp = .recvError)
      (hc : s.data.conns fd = some c) (hend : c.ended = true) : Removes s fd (.worker i inp)
  | empty {i : Fin n} {got : Bytes} {k : Nat} {c : Conn} (hi : s.workers i = .header fd got)
      (hc : s.data.conns fd = some c) (hk : k ≤ c.unread.length)
      (hlen : got.length + k = requestHeaderLen)
      (hpos : cInt (Request.ofHeader (got ++ c.unread.take k)).len.toNat ≤ 0) :
      Removes s fd (.worker i (.got k))

/-- **Who is removed.** A client that was accepted is in `clientFds` after a step, unless it
was gone before, or the step removes it. -/
theorem NetServer.Move.stays {n : Nat} {listenFd : Fd} {a : ServerAction n} {s s' : NetServer n}
    (h : Move listenFd s a s') {fd : Fd} (hfd : s'.data.Accepted fd) :
    fd ∈ s'.data.clientFds ∨
      (s.data.Accepted fd ∧ (fd ∉ s.data.clientFds ∨ s.Removes fd a)) := by
  -- nothing is removed
  have hkeep : s.data.Accepted fd → s.data.clientFds ⊆ s'.data.clientFds →
      fd ∈ s'.data.clientFds ∨
        (s.data.Accepted fd ∧ (fd ∉ s.data.clientFds ∨ s.Removes fd a)) := by
    intro hacc hsub
    by_cases hmem : fd ∈ s.data.clientFds
    · exact .inl (hsub hmem)
    · exact .inr ⟨hacc, .inl hmem⟩
  -- one client is removed
  have herase : ∀ {fd' : Fd}, s'.data.clientFds = s.data.clientFds.erase fd' →
      s.data.Accepted fd → (fd = fd' → s.Removes fd a) →
      fd ∈ s'.data.clientFds ∨
        (s.data.Accepted fd ∧ (fd ∉ s.data.clientFds ∨ s.Removes fd a)) := by
    intro fd' hfds hacc hwhy
    by_cases he : fd = fd'
    · exact .inr ⟨hacc, .inr (hwhy he)⟩
    · by_cases hmem : fd ∈ s.data.clientFds
      · exact .inl (by rw [hfds]; exact (List.mem_erase_of_ne he).mpr hmem)
      · exact .inr ⟨hacc, .inl hmem⟩
  have hmodify : ∀ {d : ServerData n} {fd' : Fd} {f : Conn → Conn},
      d.conns = (s.data.modifyConn fd' f).conns → d.backlog = s.data.backlog →
      d.Accepted fd → s.data.Accepted fd := by
    intro d fd' f hconns hback hacc
    refine (ServerData.accepted_modifyConn s.data fd' fd f).mp ⟨?_, ?_⟩
    · rw [← hconns]
      exact hacc.1
    · rw [ServerData.modifyConn_backlog, ← hback]
      exact hacc.2
  cases h with
  | @worker i inp d pc op locks hm hop hstep =>
      generalize hw : s.workers i = pc₀ at hm
      cases hm with
      | @accept _ _ _ fd' rest head hpc hb hpc' =>
          by_cases he : fd = fd'
          · exact .inl (by rw [he]; exact List.mem_append_right _ (List.mem_singleton_self fd'))
          · refine hkeep ⟨hfd.1, ?_⟩ (List.subset_append_left _ _)
            rw [hb]
            exact List.not_mem_cons_of_ne_of_not_mem he hfd.2
      | @acceptClose _ _ fd' rest head hpc hb hpc' =>
          have hne : fd ≠ fd' := by
            rintro rfl
            exact hfd.1 (by simp [afterWorker])
          refine hkeep ⟨?_, ?_⟩ (List.Subset.refl _)
          · have hopen := hfd.1
            simpa [afterWorker, hne] using hopen
          · rw [hb]
            exact List.not_mem_cons_of_ne_of_not_mem hne hfd.2
      | readHead | headOk | overrun | readData | dataDone | write | writeLast | writeError =>
          exact hkeep (hmodify rfl rfl hfd) (List.Subset.refl _)
      | @headEmpty fd' got k c hc hk hk' hlen hpos =>
          refine herase rfl (hmodify rfl rfl hfd) fun he => ?_
          subst he
          exact .empty hw hc hk' hlen hpos
      | @leave _ _ fd' c hpc hc hend hinp =>
          refine herase rfl hfd fun he => ?_
          subst he
          exact .ended (by rw [hw]; exact hpc) (hinp.imp_left And.left) hc hend
      | _ => exact hkeep hfd (List.Subset.refl _)
  | finisher hm hop =>
      generalize s.finisher = pc₀ at hm
      cases hm with
      | write | writeLast | writeError =>
          exact hkeep (hmodify rfl rfl hfd) (List.Subset.refl _)
      | _ => exact hkeep hfd (List.Subset.refl _)
  | @connect fd' hl hnone =>
      have hne : fd ≠ fd' := by
        rintro rfl
        exact hfd.2 (List.mem_append_right _ (List.mem_singleton_self fd))
      refine hkeep ⟨?_, fun hmem => hfd.2 (List.mem_append_left _ hmem)⟩ (List.Subset.refl _)
      have hopen := hfd.1
      simpa [withData, hne] using hopen
  | arrive hc hopen =>
      exact hkeep ((ServerData.accepted_modifyConn ..).mp hfd) (List.Subset.refl _)
  | hangup => exact hkeep ((ServerData.accepted_modifyConn ..).mp hfd) (List.Subset.refl _)

/-- New clients come from the backlog. -/
theorem NetServer.Move.newClient {n : Nat} {listenFd : Fd} {a : ServerAction n}
    {s s' : NetServer n} (h : Move listenFd s a s') {fd : Fd} (hfd : fd ∈ s'.data.clientFds) :
    fd ∈ s.data.clientFds ∨ fd ∈ s.data.backlog := by
  cases h with
  | @worker i inp d pc op locks hm hop hstep =>
      change fd ∈ d.clientFds at hfd
      generalize s.workers i = pc₀ at hm
      cases hm with
      | accept hpc hb hpc' =>
          rcases List.mem_append.mp hfd with hmem | hnew
          · exact .inl hmem
          · rw [hb, List.mem_singleton.mp hnew]
            exact .inr List.mem_cons_self
      | headEmpty => exact .inl (List.mem_of_mem_erase hfd)
      | leave => exact .inl (List.mem_of_mem_erase hfd)
      | _ => exact .inl hfd
  | @finisher inp d pc op locks hm hop =>
      change fd ∈ d.clientFds at hfd
      generalize s.finisher = pc₀ at hm
      cases hm with
      | _ => exact .inl hfd
  | connect | arrive | hangup => exact .inl hfd

/-! ## Clients that are kept -/

/-- The streams are sequences of requests with data. -/
def StreamStep {n : Nat} (s : NetServer n) : ServerAction n → Prop
  | .arrive fd bs => ∀ c, s.data.conns fd = some c → ValidStream (c.inp ++ bs)
  | _ => True

/-- Streams are sequences of requests, and only clients whose stream has ended are gone. -/
structure NetServer.Kept {n : Nat} (s : NetServer n) : Prop where
  valid : ∀ fd c, s.data.conns fd = some c → ValidStream c.inp
  left : ∀ fd, s.data.Accepted fd → fd ∈ s.data.clientFds ∨
    ∃ c, s.data.conns fd = some c ∧ c.ended = true

namespace NetServer

variable {n : Nat} {listenFd : Fd} {s s' : NetServer n}

/-- What a worker has in hand is the beginning of a sequence of requests. -/
theorem Kept.hand_valid (h : s.Kept) (hrec : s.Received) (hroutes : s.Routes)
    {i : Fin n} {fd : Fd} {bs : Bytes} (hi : (s.workers i).hand = some (fd, bs)) {c : Conn}
    (hc : s.data.conns fd = some c) {k : Nat} (hk : k ≤ c.unread.length) :
    ValidStream (bs ++ c.unread.take k) := by
  have hread := (hrec.hand i fd bs hi c hc).read hk
  obtain ⟨fs, hfs, hpre⟩ := h.valid fd c hc
  refine ValidStream.rest (hroutes.requests fd) ⟨fs, hfs, ?_⟩
  rw [hread.2]
  exact (List.take_prefix _ _).trans hpre

/-- Every request announces data, so only clients whose stream has ended are removed. -/
theorem Kept.removes (h : s.Kept) (hrec : s.Received) (hroutes : s.Routes) {fd : Fd}
    {a : ServerAction n} (hr : s.Removes fd a) :
    ∃ c, s.data.conns fd = some c ∧ c.ended = true := by
  cases hr with
  | ended hi hinp hc hend => exact ⟨_, hc, hend⟩
  | @empty i got k c hi hc hk hlen hpos =>
      have hhand : (s.workers i).hand = some (fd, got) := by rw [hi]; rfl
      have hhead := h.hand_valid hrec hroutes hhand hc hk
      exact absurd (hhead.head (length_append_take hk hlen)).1 (not_lt.mpr hpos)

/-- One step of the process or the network. -/
theorem Move.kept {a : ServerAction n} (hm : Move listenFd s a s') (h : s.Kept)
    (hrec : s.Received) (hroutes : s.Routes) (hok : StreamStep s a) : s'.Kept where
  valid := by
    intro fd c' hc'
    rcases hm.conns hc' with ⟨rfl, -⟩ | ⟨c, hc, hstep⟩
    · exact ⟨[], nofun, List.prefix_refl _⟩
    · rcases hstep.inp with he | ⟨bs, rfl, -, he⟩
      · rw [he]
        exact h.valid fd c hc
      · rw [he]
        exact hok c hc
  left := by
    intro fd hfd
    rcases hm.stays hfd with hmem | ⟨hacc, hgone | hremoved⟩
    · exact .inl hmem
    · -- it was gone, so its stream had ended
      obtain ⟨c, hc, hend⟩ := (h.left fd hacc).resolve_left hgone
      exact .inr (hm.ended hc hend hacc)
    · obtain ⟨c, hc, hend⟩ := h.removes hrec hroutes hremoved
      exact .inr (hm.ended hc hend hacc)

end NetServer

end TailBench
