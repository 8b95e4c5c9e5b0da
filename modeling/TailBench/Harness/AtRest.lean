import TailBench.Harness.ServerReady

set_option autoImplicit false

/-! # The server at rest

When no worker can go on and nobody calls `finish`, all workers but one are before `recvReq`.
That one holds `recvLock`, and there are two cases.

* It is in a `select` that reports nothing. Then everything the clients have sent is delivered,
  and the open streams consist of whole requests.
* It is inside a `recvfull`, of a client that has stopped inside a request. Nobody else is
  served until that client goes on.
-/

namespace TailBench

open Lib

/-! ## The server at rest -/

namespace NetServer

variable {n : Nat} {listenFd : Fd} {s : NetServer n}

/-- No worker can go on, and nobody is in `finish`. (A `select` may always fail.) -/
def AtRest (listenFd : Fd) (s : NetServer n) : Prop :=
  s.finisher = .idle ∧
    ∀ i inp, inp ≠ .selectError → s.next listenFd (.worker i inp) = none

theorem next_worker_of_none {i : Fin n} {inp : ServerInput}
    (h : serverStep listenFd i s.data (s.workers i) inp = none) :
    s.next listenFd (.worker i inp) = none := by
  unfold next
  split
  · rfl
  · simp only [h]

/-! ## Which states are at rest -/

/-- A `select` with nothing to report. -/
theorem serverStep_select_none {d : ServerData n} {i : Fin n} {pc : ServerPc} {watch : List Fd}
    (hw : pc.watch listenFd d = some watch) (hnone : ∀ fd ∈ watch, d.ready listenFd fd = false)
    {inp : ServerInput} (hinp : inp ≠ .selectError) : serverStep listenFd i d pc inp = none := by
  have hch := ServerPc.choosing_of_watch hw
  cases hstep : serverStep listenFd i d pc inp with
  | none => rfl
  | some r =>
      exfalso
      obtain ⟨d', pc', op⟩ := r
      have hkeep := (serverStep_move hstep).keep_of_choosing hch
      subst hkeep
      cases inp with
      | ready rs =>
          have hsel := (serverStep_ready hw rs).mp ⟨d', pc', hstep⟩
          simp only [ServerData.selects, decide_eq_true_eq] at hsel
          obtain ⟨fd, hfd⟩ := List.exists_mem_of_ne_nil rs hsel.1
          obtain ⟨hmem, hr⟩ := hsel.2 fd hfd
          rw [hnone fd hmem] at hr
          cases hr
      | selectError => exact hinp rfl
      | _ =>
          cases pc with
          | loop | reselect => cases hstep
          | _ => cases hw

/-- A `recvfull` of a connection on which nothing arrives. -/
theorem serverStep_recv_none {d : ServerData n} {i : Fin n} {pc : ServerPc} {fd : Fd}
    {got : Bytes} (hr : pc.reading = some (fd, got)) {c : Conn} (hc : d.conns fd = some c)
    (hread : c.readable = false) (inp : ServerInput) : serverStep listenFd i d pc inp = none := by
  simp only [Conn.readable, decide_eq_false_iff_not, not_or, ne_eq, not_not,
    Bool.not_eq_true] at hread
  have hrecv : ∀ max k, d.recv fd max k = none := by
    intro max k
    simp only [ServerData.recv, hc, Option.bind_some, hread.1, List.length_nil]
    exact if_neg (by omega)
  cases pc with
  | header fd' got' | payload fd' head got' =>
      cases hr
      cases inp with
      | got k => simp only [serverStep, hrecv, Option.map_none]
      | eof => simp [serverStep, ServerData.atEof, hc, hread.2]
      | recvError => simp [serverStep, ServerData.mayFail, hc, hread.2]
      | _ => rfl
  | _ => cases hr

/-- One worker waits for its clients, and the others wait for `recvLock`. -/
theorem atRest_of_step (hfin : s.finisher = .idle) {i : Fin n}
    (hi : ∀ inp, inp ≠ .selectError → serverStep listenFd i s.data (s.workers i) inp = none)
    (hlock : s.locks .recvLock ≠ none) (hothers : ∀ j, j ≠ i → s.workers j = .recv) :
    s.AtRest listenFd := by
  refine ⟨hfin, fun j inp hinp => ?_⟩
  by_cases hj : j = i
  · subst hj
    exact next_worker_of_none (hi inp hinp)
  · unfold next
    split
    · rfl
    · obtain ⟨t, ht⟩ := Option.ne_none_iff_exists'.mp hlock
      simp only [hothers j hj]
      cases inp with
      | tau => simp [serverStep, LockOp.apply, ht]
      | _ => rfl

/-! ## What the workers do at rest -/

/-- At rest, a worker that has something to do waits for a mutex. -/
theorem AtRest.step (h : s.AtRest listenFd) (hrun : s.data.proc = .running) {i : Fin n}
    {inp : ServerInput} (hinp : inp ≠ .selectError) {r : ServerStep n}
    (hstep : serverStep listenFd i s.data (s.workers i) inp = some r) :
    ∃ m u, r.2.2 = .acquire m ∧ s.locks m = some u := by
  have hnone := h.2 i inp hinp
  obtain ⟨d, pc, op⟩ := r
  simp only [NetServer.next, hrun, ne_eq, not_true_eq_false, if_false, hstep,
    Option.map_eq_none_iff] at hnone
  cases op with
  | keep => cases hnone
  | release m => cases hnone
  | acquire m =>
      simp only [LockOp.apply] at hnone
      split at hnone
      · cases hnone
      · next u hu => exact ⟨m, u, rfl, hu⟩

/-- At rest, no worker can take a step that takes no mutex. -/
theorem AtRest.keeps (h : s.AtRest listenFd) (hrun : s.data.proc = .running) {i : Fin n}
    {inp : ServerInput} (hinp : inp ≠ .selectError) {r : ServerStep n}
    (hstep : serverStep listenFd i s.data (s.workers i) inp = some r)
    (hop : ∀ m, r.2.2 ≠ .acquire m) : False := by
  obtain ⟨m, u, hacq, -⟩ := h.step hrun hinp hstep
  exact hop m hacq

/-- At rest, nobody holds `sendLock`: its holder could always go on. -/
theorem AtRest.sendLock (h : s.AtRest listenFd) (hrun : s.data.proc = .running)
    (ho : Owned s.locks s.held) : s.locks .sendLock = none := by
  cases hl : s.locks .sendLock with
  | none => rfl
  | some t =>
      exfalso
      have hheld := (ho _ _).mp hl
      cases t with
      | finisher =>
          have hfin : s.finisher.holds .sendLock := hheld
          rw [h.1] at hfin
          exact hfin
      | worker i =>
          have hpc : (s.workers i).holds .sendLock := hheld
          cases hw : s.workers i with
          | sendLocked =>
              rw [hw] at hpc
              -- `sendResp` needs no one: it takes a step whatever the clock reads
              have hsome : ∃ r, serverStep listenFd i s.data (s.workers i)
                  (.respond 0 ⟨[], Nat.zero_le _⟩) = some r ∧ r.2.2 = .keep := by
                rw [hw]
                simp only [serverStep]
                split
                · exact ⟨_, rfl, rfl⟩
                · exact ⟨_, rfl, rfl⟩
              obtain ⟨r, hr, hop⟩ := hsome
              exact h.keeps hrun (by simp) hr (by rw [hop]; simp)
          | sending fd rest =>
              have hr : serverStep listenFd i s.data (s.workers i) .sendError = some
                  (s.data.modifyConn fd fun c => { c with failed := true }, .afterSend, .keep) := by
                rw [hw]
                rfl
              exact h.keeps hrun (by simp) hr (by simp)
          | afterSend =>
              have hr : serverStep listenFd i s.data (s.workers i) .tau = some
                  ({ s.data with finishedReqs := s.data.finishedReqs + 1 }, .recv,
                    .release .sendLock) := by
                rw [hw]
                rfl
              exact h.keeps hrun (by simp) hr (by simp)
          | _ => rw [hw] at hpc; cases hpc

/-- At rest, a worker without `recvLock` is before `recvReq`. -/
theorem AtRest.before (h : s.AtRest listenFd) (hrun : s.data.proc = .running)
    (ho : Owned s.locks s.held) {i : Fin n} (hi : ¬ (s.workers i).holds .recvLock) :
    s.workers i = .recv := by
  have hsend : ¬ (s.workers i).holds .sendLock := by
    intro hheld
    have hlock := (ho .sendLock (.worker i)).mpr hheld
    rw [h.sendLock hrun ho] at hlock
    cases hlock
  cases hw : s.workers i with
  | recv => rfl
  | serving =>
      exfalso
      have hr : serverStep listenFd i s.data (s.workers i) .tau = some
          (s.data, .sendLocked, .acquire .sendLock) := by
        rw [hw]
        rfl
      obtain ⟨m, u, hacq, hu⟩ := h.step hrun (by simp) hr
      cases hacq
      rw [h.sendLock hrun ho] at hu
      cases hu
  | sendLocked | sending fd rest | afterSend => exact absurd (by rw [hw]; rfl) hsend
  | _ => exact absurd (by rw [hw]; rfl) hi

/-- At rest, some worker holds `recvLock`. -/
theorem AtRest.recvLock (h : s.AtRest listenFd) (hrun : s.data.proc = .running)
    (ho : Owned s.locks s.held) (hn : 0 < n) : ∃ i, (s.workers i).holds .recvLock := by
  by_cases h0 : (s.workers ⟨0, hn⟩).holds .recvLock
  · exact ⟨_, h0⟩
  · -- the first worker waits for it
    have hr : serverStep listenFd ⟨0, hn⟩ s.data (s.workers ⟨0, hn⟩) .tau = some
        (s.data, .loop, .acquire .recvLock) := by
      rw [h.before hrun ho h0]
      rfl
    obtain ⟨m, u, hacq, hu⟩ := h.step hrun (by simp) hr
    cases hacq
    have hheld := (ho _ _).mp hu
    cases u with
    | worker i => exact ⟨i, hheld⟩
    | finisher =>
        have hfin : s.finisher.holds .recvLock := hheld
        rw [h.1] at hfin
        exact hfin.elim

/-- **The worker with `recvLock`**, at rest: `select` has nothing for it, or it is inside a
`recvfull`. -/
theorem AtRest.waits (h : s.AtRest listenFd) (hrun : s.data.proc = .running) {i : Fin n}
    (hi : (s.workers i).holds .recvLock) :
    (∃ watch, (s.workers i).watch listenFd s.data = some watch ∧
      ∀ fd ∈ watch, s.data.ready listenFd fd = false) ∨
    ∃ fd got, (s.workers i).reading = some (fd, got) := by
  have hselect : ∀ watch, (s.workers i).watch listenFd s.data = some watch →
      ∀ fd ∈ watch, s.data.ready listenFd fd = false := by
    intro watch hw fd hfd
    by_contra hr
    rw [Bool.not_eq_false] at hr
    have hgo := next_ready hrun hw hfd hr
    rw [h.2 i (.ready [fd]) (by simp)] at hgo
    cases hgo
  have hscan : ∀ rs m, (s.data.scanStep rs).2.2 ≠ .acquire m := by
    intro rs m
    obtain ⟨head, pc, -, he⟩ := scanStep_chosen s.data rs
    rw [he]
    simp
  cases hw : s.workers i with
  | loop | reselect =>
      rw [hw] at hselect
      exact .inl ⟨_, rfl, hselect _ rfl⟩
  | header fd got | payload fd head got => exact .inr ⟨fd, got, rfl⟩
  -- the other places need nothing from outside
  | acceptFirst =>
      exact (h.keeps hrun (show ServerInput.acceptFailed ≠ .selectError by simp) (by rw [hw]; rfl)
        (fun m he => by cases he)).elim
  | acceptMore rs =>
      exact (h.keeps hrun (show ServerInput.acceptFailed ≠ .selectError by simp) (by rw [hw]; rfl)
        (hscan rs)).elim
  | stamp fd raw =>
      exact (h.keeps hrun (show ServerInput.clock 0 ≠ .selectError by simp) (by rw [hw]; rfl)
        (fun m he => by cases he)).elim
  | unlockRecv =>
      exact (h.keeps hrun (show ServerInput.tau ≠ .selectError by simp) (by rw [hw]; rfl)
        (fun m he => by cases he)).elim
  | _ => rw [hw] at hi; cases hi

/-- At rest, a connection that a worker reads from has nothing for it. -/
theorem AtRest.blocked (h : s.AtRest listenFd) (hrun : s.data.proc = .running) {i : Fin n}
    {fd : Fd} {got : Bytes} (hi : (s.workers i).reading = some (fd, got))
    (hshape : (s.workers i).Shape s.data i) {c : Conn} (hc : s.data.conns fd = some c) :
    c.readable = false := by
  by_contra hread
  rw [Bool.not_eq_false] at hread
  simp only [Conn.readable, decide_eq_true_eq] at hread
  -- with a byte to read, `recv` returns it; at the end of the stream it returns `0`
  have hsome : ∃ inp, inp ≠ .selectError ∧
      (serverStep listenFd i s.data (s.workers i) inp).isSome = true := by
    by_cases hun : c.unread = []
    · have heof : s.data.atEof fd = true := by
        simp [ServerData.atEof, hc, hun, hread.resolve_left (fun hne => hne hun)]
      cases hw : s.workers i with
      | header fd' got' =>
          rw [hw] at hi
          cases hi
          exact ⟨.eof, by simp, by simp only [serverStep, heof, if_true, Option.isSome_some]⟩
      | payload fd' head got' =>
          rw [hw] at hi
          cases hi
          exact ⟨.eof, by simp, by simp only [serverStep, heof, if_true, Option.isSome_some]⟩
      | _ => rw [hw] at hi; cases hi
    · have hpos : 1 ≤ c.unread.length := List.length_pos_iff.mpr hun
      have hrecv : ∀ {max : Nat}, 1 ≤ max → s.data.recv fd max 1 = some
          (c.unread.take 1, s.data.modifyConn fd fun c => { c with rx := c.rx + 1 }) := by
        intro max hmax
        simp [ServerData.recv, hc, hmax, hpos]
      cases hw : s.workers i with
      | header fd' got' =>
          rw [hw] at hi hshape
          cases hi
          have hlt : got.length < requestHeaderLen := hshape
          have hone : 1 ≤ requestHeaderLen - got.length := by omega
          exact ⟨.got 1, by simp, by
            simp only [serverStep, hrecv hone, Option.map_some, Option.isSome_some]⟩
      | payload fd' head got' =>
          rw [hw] at hi hshape
          cases hi
          have hlt := hshape.2
          have hone : 1 ≤ (cInt (Request.ofHeader head).len.toNat).toNat - got.length := by omega
          exact ⟨.got 1, by simp, by
            simp only [serverStep, hrecv hone, Option.map_some, Option.isSome_some]⟩
      | _ => rw [hw] at hi; cases hi
  obtain ⟨inp, hne, hr⟩ := hsome
  obtain ⟨⟨d, pc, op⟩, hr⟩ := Option.isSome_iff_exists.mp hr
  have hkeep := (serverStep_move hr).keep_of_reading hi
  exact h.keeps hrun hne hr (by rw [hkeep]; simp)

/-- Where nothing is ready, everything that arrived has been delivered. -/
theorem delivered_of_blocked (hrec : s.Received) (hf : s.Fds listenFd)
    (hnone : ∀ j, (s.workers j).hand = none) {fd : Fd} (hfd : fd ∈ s.data.clientFds)
    (hread : s.data.ready listenFd fd = false) :
    ∃ c, s.data.conns fd = some c ∧ c.ended = false ∧
      (s.data.requestsFrom fd).flatten = c.inp := by
  obtain ⟨c, hc⟩ := Option.ne_none_iff_exists'.mp (hf.data.clients fd hfd).1
  have hne : fd ≠ listenFd := by
    rintro rfl
    rw [hf.data.listener] at hc
    cases hc
  rw [ServerData.ready, if_neg hne, hc, Option.any_some] at hread
  simp only [Conn.readable, decide_eq_false_iff_not, not_or, ne_eq, not_not,
    Bool.not_eq_true] at hread
  refine ⟨c, hc, hread.2, ?_⟩
  have hrest := hrec.rest fd hfd (fun j bs hj => by rw [hnone j] at hj; cases hj) c hc
  have hall := hrest.2
  rw [List.append_nil] at hall
  rw [hall]
  exact List.take_of_length_le (List.drop_eq_nil_iff.mp hread.1)

/-- The streams of the open clients are whole requests. -/
def Whole (s : NetServer n) : Prop :=
  ∀ fd ∈ s.data.clientFds, ∀ c, s.data.conns fd = some c → c.ended = false →
    ∃ fs : List Bytes, (∀ f ∈ fs, IsRequest f) ∧ c.inp = fs.flatten

/-- The client has stopped inside a request: what has come after the requests that were
delivered is not nothing, and not a whole request. -/
def Stopped (s : NetServer n) (fd : Fd) : Prop :=
  fd ∈ s.data.clientFds ∧ ∃ c bs, s.data.conns fd = some c ∧ c.ended = false ∧ bs ≠ [] ∧
    (s.data.requestsFrom fd).flatten ++ bs = c.inp ∧ ∀ g, IsRequest g → ¬ g <+: bs

/-- A client that has stopped inside a request has not sent whole requests only. -/
theorem Stopped.not_whole (hroutes : s.Routes) {fd : Fd} (h : s.Stopped fd) : ¬ s.Whole := by
  intro hwhole
  obtain ⟨hfd, c, bs, hc, hopen, hne, hinp, hno⟩ := h
  obtain ⟨fs, hfs, hall⟩ := hwhole fd hfd c hc hopen
  obtain ⟨rest, rfl, -⟩ := frames_rest requestHeaderLen_pos hfs (hroutes.requests fd)
    (by rw [← hall, ← hinp])
  rw [hall, List.flatten_append, List.append_cancel_left_eq] at hinp
  cases rest with
  | nil => exact hne hinp
  | cons g rest =>
      refine hno g (hfs g (by simp)) ?_
      rw [hinp, List.flatten_cons]
      exact List.prefix_append _ _

/-- At rest, the client that a worker reads from has stopped inside a request: with nothing in
hand, the `recv` of the worker would not block. -/
theorem AtRest.stopped (h : s.AtRest listenFd) (hrun : s.data.proc = .running)
    (hs : (netServer listenFd n).Reachable s) {i : Fin n} {fd : Fd} {got : Bytes}
    (hr : (s.workers i).reading = some (fd, got)) : s.Stopped fd := by
  have hrec := netServer_received hs
  have hdata := (netServer_fds hs).data
  have hshape := ((netServer_routes hs).worker i).shape
  obtain ⟨bs, hbs⟩ := ServerPc.hand_of_reading hr
  have hclient := hrec.client i fd bs hbs
  obtain ⟨c, hc⟩ := Option.ne_none_iff_exists'.mp (hdata.clients fd hclient).1
  have hblocked := h.blocked hrun hr hshape hc
  have hquiet := hblocked
  simp only [Conn.readable, decide_eq_false_iff_not, not_or, ne_eq, not_not,
    Bool.not_eq_true] at hquiet
  refine ⟨hclient, c, bs, hc, hquiet.2, ?_, ?_, fun g hg => hshape.no_request hbs hr hg⟩
  · rintro rfl
    cases hw : s.workers i with
    | header fd' got' =>
        rw [hw] at hbs
        cases hbs
        have hne : fd ≠ listenFd := by
          rintro rfl
          rw [hdata.listener] at hc
          cases hc
        obtain ⟨c', hc', hread⟩ := netServer_ready hs i fd
          (by rw [hw]; exact List.mem_singleton_self fd) hne
        rw [hc] at hc'
        cases hc'
        rw [hblocked] at hread
        cases hread
    | payload fd' head got' =>
        rw [hw] at hbs hshape
        have hnil : head ++ got' = [] := by
          have hpair := Option.some.inj hbs
          exact congrArg Prod.snd hpair
        have hlen := congrArg List.length hnil
        rw [List.length_append, hshape.1, List.length_nil] at hlen
        have hpos := requestHeaderLen_pos
        omega
    | _ => rw [hw] at hr; cases hr
  · rw [(hrec.hand i fd bs hbs c hc).2]
    exact List.take_of_length_le (List.drop_eq_nil_iff.mp hquiet.1)

/-- **At rest, with nobody inside a `recvfull`**, everything that has arrived was delivered, and
the clients whose streams have ended are gone. -/
theorem AtRest.delivered (h : s.AtRest listenFd) (hrun : s.data.proc = .running)
    (hs : (netServer listenFd n).Reachable s) (hn : 0 < n)
    (hno : ∀ i, (s.workers i).reading = none) :
    ∀ fd ∈ s.data.clientFds, ∃ c, s.data.conns fd = some c ∧ c.ended = false ∧
      (s.data.requestsFrom fd).flatten = c.inp := by
  have ho := netServer_owned hs
  obtain ⟨i, hi⟩ := h.recvLock hrun ho hn
  rcases h.waits hrun hi with ⟨watch, hw, hnone⟩ | ⟨fd, got, hr⟩
  · intro fd hfd
    refine delivered_of_blocked (netServer_received hs) (netServer_fds hs) (fun j => ?_) hfd
      (hnone fd (ServerPc.watch_clients hw hfd))
    by_cases hj : j = i
    · subst hj
      exact (ServerPc.choosing_of_watch hw).idle.1
    · exact hand_none ho hi hj
  · rw [hno i] at hr
    cases hr

/-- **The two cases**, told apart by what the clients have sent. -/
theorem AtRest.whole_iff (h : s.AtRest listenFd) (hrun : s.data.proc = .running)
    (hs : (netServer listenFd n).Reachable s) (hn : 0 < n) :
    s.Whole ↔ ∀ i, (s.workers i).reading = none := by
  constructor
  · intro hwhole i
    by_contra hr
    obtain ⟨⟨fd, got⟩, hr⟩ := Option.ne_none_iff_exists'.mp hr
    exact (h.stopped hrun hs hr).not_whole (netServer_routes hs) hwhole
  · intro hno fd hfd c hc _
    obtain ⟨c', hc', -, hall⟩ := h.delivered hrun hs hn hno fd hfd
    rw [hc] at hc'
    cases hc'
    exact ⟨_, (netServer_routes hs).requests fd, hall.symm⟩

/-! ## A client that connects -/

/-- A worker in the `select` after a new client, or inside a `recvfull`: it waits for clients
that are there already. -/
def Deaf (s : NetServer n) (i : Fin n) : Prop :=
  s.workers i = .reselect ∨ (s.workers i).reading ≠ none

theorem Deaf.holds {i : Fin n} (h : s.Deaf i) : (s.workers i).holds .recvLock := by
  rcases h with hre | hr
  · rw [hre]
    rfl
  · obtain ⟨⟨fd, got⟩, hr⟩ := Option.ne_none_iff_exists'.mp hr
    obtain ⟨bs, hbs⟩ := ServerPc.hand_of_reading hr
    exact ServerPc.holds_of_hand hbs

/-- **A client that connects to a server at rest** is not accepted while a worker waits for
clients that are there already. -/
theorem AtRest.connect_deaf (h : s.AtRest listenFd) (hs : (netServer listenFd n).Reachable s)
    {i : Fin n} (hi : s.Deaf i) {fd : Fd} {s' : NetServer n}
    (hn : s.next listenFd (.connect fd) = some s') : s'.AtRest listenFd := by
  obtain ⟨hrun, hmove⟩ := next_move hn
  have ho := netServer_owned hs
  have hdata := (netServer_fds hs).data
  cases hmove with
  | connect hl hfd =>
      have hother : ∀ fd' ∈ s.data.clientFds, fd' ≠ fd := by
        rintro fd' hmem rfl
        exact (hdata.clients fd' hmem).1 hfd
      -- everybody else waits for `recvLock`
      have hlock := (ho .recvLock (.worker i)).mpr hi.holds
      have hbefore : ∀ j, j ≠ i → s.workers j = .recv := fun j hj => by
        refine h.before hrun ho fun hheld => hj ?_
        exact ServerTid.worker.inj (ho.unique (show s.held (.worker j) .recvLock from hheld)
          (show s.held (.worker i) .recvLock from hi.holds))
      refine atRest_of_step h.1 (i := i) (fun inp hinp => ?_) ?_ hbefore
      · show serverStep listenFd i _ (s.workers i) inp = none
        rcases hi with hre | hr
        · -- the clients are as quiet as before
          obtain ⟨watch, hw, hnone⟩ := (h.waits hrun (Deaf.holds (.inl hre))).resolve_right
            fun ⟨fd', got, hr⟩ => by rw [hre] at hr; cases hr
          rw [hre] at hw
          obtain rfl := Option.some.inj hw
          refine serverStep_select_none (by rw [hre]; rfl) (fun fd' hmem => ?_) hinp
          have hne : fd' ≠ listenFd := by
            rintro rfl
            exact (hdata.clients fd' hmem).1 hdata.listener
          rw [← hnone fd' hmem]
          simp [withData, ServerData.ready, hne, hother fd' hmem]
        · obtain ⟨⟨fd', got⟩, hr⟩ := Option.ne_none_iff_exists'.mp hr
          obtain ⟨bs, hbs⟩ := ServerPc.hand_of_reading hr
          have hmem := (netServer_received hs).client i fd' bs hbs
          obtain ⟨c, hc⟩ := Option.ne_none_iff_exists'.mp (hdata.clients fd' hmem).1
          have hread := h.blocked hrun hr ((netServer_routes hs).worker i).shape hc
          exact serverStep_recv_none hr (by simpa [withData, hother fd' hmem] using hc) hread inp
      · show s.locks .recvLock ≠ none
        rw [hlock]
        simp

/-- A server at rest in which nobody waits for the clients that are there only: everybody was
accepted, and a client that connects wakes a worker up. -/
theorem AtRest.accepting (h : s.AtRest listenFd) (hrun : s.data.proc = .running)
    (hs : (netServer listenFd n).Reachable s) (hn : 0 < n) (hno : ∀ i, ¬ s.Deaf i) :
    s.data.backlog = [] ∧
    ∀ fd s', s.next listenFd (.connect fd) = some s' → ¬ s'.AtRest listenFd := by
  obtain ⟨i, hi⟩ := h.recvLock hrun (netServer_owned hs) hn
  obtain ⟨watch, hw, hnone⟩ := (h.waits hrun hi).resolve_right fun ⟨fd, got, hr⟩ =>
    hno i (.inr (by rw [hr]; simp))
  have hre : s.workers i ≠ .reselect := fun hre => hno i (.inl hre)
  have hback : s.data.backlog = [] := by
    have hl := hnone listenFd (ServerPc.watch_listen hw hre)
    simpa [ServerData.ready] using hl
  -- the worker waits for `listenFd`, so it goes on as soon as there is a connection
  have hwakes : ∀ d : ServerData n, d.proc = .running → d.clientFds = s.data.clientFds →
      d.backlog ≠ [] → ¬ (s.withData d).AtRest listenFd := by
    intro d hd hfds hne hrest
    have hw' : ((s.withData d).workers i).watch listenFd (s.withData d).data = some watch := by
      rw [← hw]
      cases hpc : s.workers i with
      | loop => simp [withData, hpc, ServerPc.watch, hfds]
      | reselect => exact absurd hpc hre
      | _ => rw [hpc] at hw; cases hw
    have hgo := next_ready hd hw' (ServerPc.watch_listen hw hre) (by
      simp [ServerData.ready, withData, hne])
    rw [hrest.2 i (.ready [listenFd]) (by simp)] at hgo
    cases hgo
  refine ⟨hback, fun fd s' hn => ?_⟩
  obtain ⟨-, hmove⟩ := next_move hn
  cases hmove with
  | connect hl hfd =>
      refine hwakes _ ?_ ?_ (by simp)
      · exact hrun
      · rfl

end NetServer

end TailBench
