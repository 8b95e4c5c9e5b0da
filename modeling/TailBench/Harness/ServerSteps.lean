import TailBench.Harness.NetworkedServer

set_option autoImplicit false

/-! # What a step of the server can do

The transition functions of the server, read backwards, as `ClientSteps.lean` does for the
client. The steps between two `recvfull` calls (`select`, `accept`, the choice of a client)
differ only in what they do to `clientFds` and the backlog; they are the moves between
`choosing` places.
-/

namespace TailBench

open Lib

/-! ## Places -/

namespace ServerPc

/-- At a `select` or an `accept`. -/
def choosing : ServerPc → Prop
  | .loop | .acceptFirst | .acceptMore _ | .reselect => True
  | _ => False

/-- The connection a `recvfull` reads from, and the bytes it has stored. -/
def reading : ServerPc → Option (Fd × Bytes)
  | .header fd got => some (fd, got)
  | .payload fd _ got => some (fd, got)
  | _ => none

/-- How many bytes the `recvfull` is to store. -/
def expected : ServerPc → Int
  | .header _ _ => requestHeaderLen
  | .payload _ head _ => cInt (Request.ofHeader head).len.toNat
  | _ => 0

/-- What a worker holds. -/
def holds : ServerPc → Mutex → Prop
  | .loop, m | .acceptFirst, m | .acceptMore _, m | .reselect, m | .header _ _, m
  | .payload _ _ _, m | .stamp _ _, m | .unlockRecv, m => m = .recvLock
  | .sendLocked, m | .sending _ _, m | .afterSend, m => m = .sendLock
  | _, _ => False

end ServerPc

/-- What the thread of `finish` holds. -/
def FinishPc.holds : FinishPc → Mutex → Prop
  | .idle, _ => False
  | _, m => m = .sendLock

/-- Where the choice of a client leads: to another choice, or to the header of a request of a
client. -/
def ServerPc.Chosen (fds : List Fd) (pc : ServerPc) : Prop :=
  pc.choosing ∨ ∃ fd ∈ fds, pc = .header fd []

/-! ## Choosing a client -/

theorem nextClient_mem {fds rs : List Fd} {head : Nat} {fd : Fd}
    (h : ServerData.nextClient fds head rs = some fd) : fd ∈ fds ∧ fd ∈ rs := by
  refine ⟨?_, by simpa using List.find?_some h⟩
  have hmem := List.mem_of_find?_eq_some h
  simp only [List.mem_map, List.mem_range] at hmem
  obtain ⟨i, hi, rfl⟩ := hmem
  have hlt : (head + i) % fds.length < fds.length := Nat.mod_lt _ (by omega)
  simp [List.getD_eq_getElem?_getD, hlt]

theorem scanStep_chosen {n : Nat} (d : ServerData n) (rs : List Fd) :
    ∃ head pc, pc.Chosen d.clientFds ∧
      d.scanStep rs = ({ d with recvClientHead := head }, pc, .keep) := by
  unfold ServerData.scanStep ServerData.scan
  cases hnc : ServerData.nextClient d.clientFds d.recvClientHead rs with
  | none => exact ⟨_, .loop, .inl trivial, rfl⟩
  | some fd => exact ⟨_, .header fd [], .inr ⟨fd, (nextClient_mem hnc).1, rfl⟩, rfl⟩

theorem accept_some {n : Nat} {d d' : ServerData n} (h : d.accept = some d') :
    ∃ fd rest, d.backlog = fd :: rest ∧
      d' = { d with backlog := rest, clientFds := d.clientFds ++ [fd] } := by
  unfold ServerData.accept at h
  split at h
  · cases h
  · next fd rest hb => exact ⟨fd, rest, hb, (Option.some.inj h).symm⟩

theorem acceptClose_some {n : Nat} {d d' : ServerData n} (h : d.acceptClose = some d') :
    ∃ fd rest, d.backlog = fd :: rest ∧
      d' = { d with backlog := rest, conns := Function.update d.conns fd none } := by
  unfold ServerData.acceptClose at h
  split at h
  · cases h
  · next fd rest hb => exact ⟨fd, rest, hb, (Option.some.inj h).symm⟩

theorem recv_some {n : Nat} {d d' : ServerData n} {fd : Fd} {max k : Nat} {bs : Bytes}
    (h : d.recv fd max k = some (bs, d')) :
    ∃ c, d.conns fd = some c ∧ 1 ≤ k ∧ k ≤ max ∧ k ≤ c.unread.length ∧
      bs = c.unread.take k ∧ d' = d.modifyConn fd fun c => { c with rx := c.rx + k } := by
  unfold ServerData.recv at h
  rw [Option.bind_eq_some_iff] at h
  obtain ⟨c, hc, h⟩ := h
  split at h
  · next hk =>
      simp only [Option.some.injEq, Prod.mk.injEq] at h
      exact ⟨c, hc, hk.1, hk.2.1, hk.2.2, h.1.symm, h.2.symm⟩
  · cases h

/-! ## Workers -/

/-- The steps of a worker. -/
inductive ServerMove {n : Nat} (i : Fin n) (d : ServerData n) :
    ServerPc → ServerInput → ServerData n → ServerPc → LockOp Mutex → Prop
  | lockRecv : ServerMove i d .recv .tau d .loop (.acquire .recvLock)
  | choose {pc pc' : ServerPc} {inp : ServerInput} {head : Nat} (hpc : pc.choosing)
      (hpc' : pc'.Chosen d.clientFds) :
      ServerMove i d pc inp { d with recvClientHead := head } pc' .keep
  | selectError {pc : ServerPc} (hpc : pc.choosing) :
      ServerMove i d pc .selectError { d with proc := .exitedSelect } pc .keep
  | accept {pc pc' : ServerPc} {inp : ServerInput} {fd : Fd} {rest : List Fd} {head : Nat}
      (hpc : pc.choosing) (hb : d.backlog = fd :: rest) (hpc' : pc'.choosing) :
      ServerMove i d pc inp
        { d with backlog := rest, clientFds := d.clientFds ++ [fd], recvClientHead := head }
        pc' .keep
  | acceptClose {pc pc' : ServerPc} {fd : Fd} {rest : List Fd} {head : Nat}
      (hpc : pc.choosing) (hb : d.backlog = fd :: rest) (hpc' : pc'.Chosen d.clientFds) :
      ServerMove i d pc .sockoptFailed
        { d with backlog := rest, conns := Function.update d.conns fd none,
                 recvClientHead := head } pc' .keep
  | readHead {fd : Fd} {got : Bytes} {k : Nat} {c : Conn} (hc : d.conns fd = some c)
      (hk : 1 ≤ k) (hk' : k ≤ c.unread.length) (hlen : got.length + k < requestHeaderLen) :
      ServerMove i d (.header fd got) (.got k)
        (d.modifyConn fd fun c => { c with rx := c.rx + k })
        (.header fd (got ++ c.unread.take k)) .keep
  /-- The header is complete and announces data. -/
  | headOk {fd : Fd} {got : Bytes} {k : Nat} {c : Conn} (hc : d.conns fd = some c)
      (hk : 1 ≤ k) (hk' : k ≤ c.unread.length) (hlen : got.length + k = requestHeaderLen)
      (hpos : 0 < cInt (Request.ofHeader (got ++ c.unread.take k)).len.toNat)
      (hmax : (cInt (Request.ofHeader (got ++ c.unread.take k)).len.toNat).toNat
        ≤ MAX_REQ_BYTES) :
      ServerMove i d (.header fd got) (.got k)
        (d.modifyConn fd fun c => { c with rx := c.rx + k })
        (.payload fd (got ++ c.unread.take k) []) .keep
  /-- The header is complete and announces none: `recvfull` returns `0`. -/
  | headEmpty {fd : Fd} {got : Bytes} {k : Nat} {c : Conn} (hc : d.conns fd = some c)
      (hk : 1 ≤ k) (hk' : k ≤ c.unread.length) (hlen : got.length + k = requestHeaderLen)
      (hpos : cInt (Request.ofHeader (got ++ c.unread.take k)).len.toNat ≤ 0) :
      ServerMove i d (.header fd got) (.got k)
        ((d.modifyConn fd fun c => { c with rx := c.rx + k }).removeClient fd) .loop .keep
  | overrun {fd : Fd} {got : Bytes} {k : Nat} {c : Conn} (hc : d.conns fd = some c)
      (hk : 1 ≤ k) (hk' : k ≤ c.unread.length) (hlen : got.length + k = requestHeaderLen)
      (hmax : MAX_REQ_BYTES
        < (cInt (Request.ofHeader (got ++ c.unread.take k)).len.toNat).toNat) :
      ServerMove i d (.header fd got) (.got k)
        { d.modifyConn fd fun c => { c with rx := c.rx + k } with proc := .overrun }
        (.payload fd (got ++ c.unread.take k) []) .keep
  | readData {fd : Fd} {head got : Bytes} {k : Nat} {c : Conn} (hc : d.conns fd = some c)
      (hk : 1 ≤ k) (hk' : k ≤ c.unread.length)
      (hlen : got.length + k < (cInt (Request.ofHeader head).len.toNat).toNat) :
      ServerMove i d (.payload fd head got) (.got k)
        (d.modifyConn fd fun c => { c with rx := c.rx + k })
        (.payload fd head (got ++ c.unread.take k)) .keep
  | dataDone {fd : Fd} {head got : Bytes} {k : Nat} {c : Conn} (hc : d.conns fd = some c)
      (hk : 1 ≤ k) (hk' : k ≤ c.unread.length)
      (hlen : got.length + k = (cInt (Request.ofHeader head).len.toNat).toNat) :
      ServerMove i d (.payload fd head got) (.got k)
        { d.modifyConn fd fun c => { c with rx := c.rx + k } with
          reqbuf := Function.update d.reqbuf i (requestOf (head ++ (got ++ c.unread.take k))) }
        (.stamp fd (head ++ (got ++ c.unread.take k))) .keep
  /-- The stream ended before the first byte of a `recvfull`. -/
  | leave {pc : ServerPc} {inp : ServerInput} {fd : Fd} {c : Conn}
      (hpc : pc.reading = some (fd, [])) (hc : d.conns fd = some c) (hend : c.ended = true)
      (hinp : inp = .eof ∧ c.unread = [] ∨ inp = .recvError) :
      ServerMove i d pc inp (d.removeClient fd) .loop .keep
  /-- The stream ended later. -/
  | cut {pc : ServerPc} {inp : ServerInput} {fd : Fd} {got : Bytes} {c : Conn}
      (hpc : pc.reading = some (fd, got)) (hgot : got ≠ []) (hc : d.conns fd = some c)
      (hend : c.ended = true) (hinp : inp = .eof ∧ c.unread = [] ∨ inp = .recvError) :
      ServerMove i d pc inp { d with proc := .exitedRecv } pc .keep
  /-- Nothing was missing; a `recvfull` that has stored everything has returned before. -/
  | full {pc : ServerPc} {inp : ServerInput} {fd : Fd} {got : Bytes}
      (hpc : pc.reading = some (fd, got)) (hfull : (got.length : Int) = pc.expected) :
      ServerMove i d pc inp d pc .keep
  | stamp {fd : Fd} {raw : Bytes} (ns : UInt64) :
      ServerMove i d (.stamp fd raw) (.clock ns)
        { d with
          reqInfo := Function.update d.reqInfo i ⟨(d.reqbuf i).id, ns⟩
          activeFds := Function.update d.activeFds i fd
          log := d.log ++ [.delivered i fd raw] } .unlockRecv .keep
  | unlockRecv : ServerMove i d .unlockRecv .tau d .serving (.release .recvLock)
  | lockSend : ServerMove i d .serving .tau d .sendLocked (.acquire .sendLock)
  | respond (ns : UInt64) (data : Payload MAX_RESP_BYTES) (hns : (d.reqInfo i).startNs < ns) :
      ServerMove i d .sendLocked (.respond ns data)
        { d with log := d.log ++ [.responded i (d.activeFds i)
            (mkResponse (d.reqInfo i).id (ns - (d.reqInfo i).startNs) data)] }
        (.sending (d.activeFds i)
          (mkResponse (d.reqInfo i).id (ns - (d.reqInfo i).startNs) data).frame) .keep
  | assertFails (ns : UInt64) (data : Payload MAX_RESP_BYTES)
      (hns : ns ≤ (d.reqInfo i).startNs) :
      ServerMove i d .sendLocked (.respond ns data) { d with proc := .abortedStartNs }
        .sendLocked .keep
  | write {fd : Fd} {rest : Bytes} {k : Nat} (hk : 1 ≤ k) (hlt : k < rest.length) :
      ServerMove i d (.sending fd rest) (.wrote k)
        (d.modifyConn fd fun c => { c with out := c.out ++ rest.take k })
        (.sending fd (rest.drop k)) .keep
  | writeLast {fd : Fd} {rest : Bytes} (hpos : 1 ≤ rest.length) :
      ServerMove i d (.sending fd rest) (.wrote rest.length)
        (d.modifyConn fd fun c => { c with out := c.out ++ rest }) .afterSend .keep
  | writeError {fd : Fd} {rest : Bytes} :
      ServerMove i d (.sending fd rest) .sendError
        (d.modifyConn fd fun c => { c with failed := true }) .afterSend .keep
  | sigpipe {fd : Fd} {rest : Bytes} :
      ServerMove i d (.sending fd rest) .sigpipe { d with proc := .killed } (.sending fd rest)
        .keep
  | count :
      ServerMove i d .afterSend .tau { d with finishedReqs := d.finishedReqs + 1 } .recv
        (.release .sendLock)

/-- The end of a stream inside a `recvfull`. -/
theorem checkStep_move {n : Nat} {i : Fin n} {d d' : ServerData n} {pc pc' : ServerPc}
    {inp : ServerInput} {op : LockOp Mutex} {fd : Fd} {got : Bytes} {c : Conn}
    (hpc : pc.reading = some (fd, got)) (hc : d.conns fd = some c) (hend : c.ended = true)
    (hinp : inp = .eof ∧ c.unread = [] ∨ inp = .recvError)
    (h : d.checkStep fd got.length pc.expected pc = (d', pc', op)) :
    ServerMove i d pc inp d' pc' op := by
  unfold ServerData.checkStep checkRecv at h
  by_cases h0 : (got.length : Int) = 0
  -- nothing was read: the client is removed
  · obtain rfl : got = [] := List.length_eq_zero_iff.mp (by omega)
    rw [if_pos h0] at h
    cases h
    exact .leave hpc hc hend hinp
  · have hne : got ≠ [] := fun hg => h0 (by simp [hg])
    rw [if_neg h0, if_neg (by omega)] at h
    -- a part was read: `checkRecv` reports an error, unless all of it is there
    by_cases hfull : (got.length : Int) = pc.expected
    · rw [if_neg (by simpa using hfull)] at h
      cases h
      exact .full hpc hfull
    · rw [if_pos hfull] at h
      cases h
      exact .cut hpc hne hc hend hinp

theorem atEof_some {n : Nat} {d : ServerData n} {fd : Fd} (h : d.atEof fd = true) :
    ∃ c, d.conns fd = some c ∧ c.ended = true ∧ c.unread = [] := by
  unfold ServerData.atEof at h
  rw [Option.any_eq_true] at h
  obtain ⟨c, hc, hp⟩ := h
  simp only [decide_eq_true_eq] at hp
  exact ⟨c, hc, hp.1, hp.2⟩

theorem mayFail_some {n : Nat} {d : ServerData n} {fd : Fd} (h : d.mayFail fd = true) :
    ∃ c, d.conns fd = some c ∧ c.ended = true := by
  unfold ServerData.mayFail at h
  rw [Option.any_eq_true] at h
  exact h

/-- The complete header. -/
theorem headDone_move {n : Nat} {i : Fin n} {d d' : ServerData n} {pc' : ServerPc}
    {op : LockOp Mutex} {fd : Fd} {got : Bytes} {k : Nat} {c : Conn}
    (hc : d.conns fd = some c) (hk : 1 ≤ k) (hk' : k ≤ c.unread.length)
    (hlen : got.length + k = requestHeaderLen)
    (h : (d.modifyConn fd fun c => { c with rx := c.rx + k }).headDone fd
      (got ++ c.unread.take k) = (d', pc', op)) :
    ServerMove i d (.header fd got) (.got k) d' pc' op := by
  simp only [ServerData.headDone] at h
  split at h
  · next hpos =>
      simp only [ServerData.checkStep, checkRecv, if_true] at h
      cases h
      exact .headEmpty hc hk hk' hlen hpos
  · next hpos =>
      split at h
      · next hmax =>
          cases h
          exact .overrun hc hk hk' hlen hmax
      · next hmax =>
          cases h
          exact .headOk hc hk hk' hlen (not_le.mp hpos) (not_lt.mp hmax)

/-- The choice of a client, as a step. -/
theorem scanStep_eq {n : Nat} {d d' : ServerData n} {rs : List Fd} {pc' : ServerPc}
    {op : LockOp Mutex} (h : d.scanStep rs = (d', pc', op)) :
    ∃ head, pc'.Chosen d.clientFds ∧ d' = { d with recvClientHead := head } ∧ op = .keep := by
  obtain ⟨head, pc, hch, he⟩ := scanStep_chosen d rs
  rw [he] at h
  cases h
  exact ⟨head, hch, rfl, rfl⟩

/-- The steps at a `select` or an `accept`, each with the guards of its branch. -/
inductive ChoosingMove {n : Nat} (listenFd : Fd) (d : ServerData n) :
    ServerPc → ServerInput → ServerData n → ServerPc → LockOp Mutex → Prop
  | watchFirst {rs : List Fd} (hnil : d.clientFds = [])
      (hsel : d.selects listenFd [listenFd] rs = true) :
      ChoosingMove listenFd d .loop (.ready rs) d .acceptFirst .keep
  | watchMore {rs : List Fd} (hne : d.clientFds ≠ [])
      (hsel : d.selects listenFd (listenFd :: d.clientFds) rs = true) (hlisten : listenFd ∈ rs) :
      ChoosingMove listenFd d .loop (.ready rs) d (.acceptMore rs) .keep
  | scan {rs : List Fd} {d' : ServerData n} {pc' : ServerPc} {op : LockOp Mutex}
      (hne : d.clientFds ≠ []) (hsel : d.selects listenFd (listenFd :: d.clientFds) rs = true)
      (hlisten : listenFd ∉ rs) (hscan : d.scanStep rs = (d', pc', op)) :
      ChoosingMove listenFd d .loop (.ready rs) d' pc' op
  | loopError :
      ChoosingMove listenFd d .loop .selectError { d with proc := .exitedSelect } .loop .keep
  | acceptFirst {fd : Fd} {rest : List Fd} (hb : d.backlog = fd :: rest) :
      ChoosingMove listenFd d .acceptFirst .accepted
        { d with backlog := rest, clientFds := d.clientFds ++ [fd], recvClientHead := 0 }
        .loop .keep
  | failFirst : ChoosingMove listenFd d .acceptFirst .acceptFailed d .loop .keep
  | closeFirst {fd : Fd} {rest : List Fd} (hb : d.backlog = fd :: rest) :
      ChoosingMove listenFd d .acceptFirst .sockoptFailed
        { d with backlog := rest, conns := Function.update d.conns fd none } .loop .keep
  | acceptMore {rs : List Fd} {fd : Fd} {rest : List Fd} (hb : d.backlog = fd :: rest) :
      ChoosingMove listenFd d (.acceptMore rs) .accepted
        { d with backlog := rest, clientFds := d.clientFds ++ [fd] } .reselect .keep
  -- without a new client, one of those that `select` reported is chosen
  | failMore {rs : List Fd} {d' : ServerData n} {pc' : ServerPc} {op : LockOp Mutex}
      (hscan : d.scanStep rs = (d', pc', op)) :
      ChoosingMove listenFd d (.acceptMore rs) .acceptFailed d' pc' op
  | closeMore {rs : List Fd} {fd : Fd} {rest : List Fd} {d' : ServerData n} {pc' : ServerPc}
      {op : LockOp Mutex} (hb : d.backlog = fd :: rest)
      (hscan : ({ d with backlog := rest, conns := Function.update d.conns fd none } :
        ServerData n).scanStep rs = (d', pc', op)) :
      ChoosingMove listenFd d (.acceptMore rs) .sockoptFailed d' pc' op
  | rescan {rs : List Fd} {d' : ServerData n} {pc' : ServerPc} {op : LockOp Mutex}
      (hsel : d.selects listenFd d.clientFds rs = true) (hscan : d.scanStep rs = (d', pc', op)) :
      ChoosingMove listenFd d .reselect (.ready rs) d' pc' op
  | reselectError :
      ChoosingMove listenFd d .reselect .selectError { d with proc := .exitedSelect }
        .reselect .keep

/-- **A step from a `choosing` place.** -/
theorem serverStep_choosing {n : Nat} {listenFd : Fd} {i : Fin n} {d d' : ServerData n}
    {pc pc' : ServerPc} {inp : ServerInput} {op : LockOp Mutex} (hpc : pc.choosing)
    (h : serverStep listenFd i d pc inp = some (d', pc', op)) :
    ChoosingMove listenFd d pc inp d' pc' op := by
  cases pc with
  | loop =>
      cases inp with
      | ready rs =>
          simp only [serverStep] at h
          -- the listener alone, or together with the clients
          split at h
          · next hnil =>
              split at h
              · next hsel =>
                  cases h
                  exact .watchFirst hnil hsel
              · cases h
          · next hne =>
              split at h
              · next hsel =>
                  split at h
                  · next hlisten =>
                      cases h
                      exact .watchMore hne hsel hlisten
                  · next hlisten => exact .scan hne hsel hlisten (Option.some.inj h)
              · cases h
      | selectError =>
          cases h
          exact .loopError
      | _ => cases h
  | acceptFirst =>
      cases inp with
      | accepted =>
          obtain ⟨d₁, hd₁, h⟩ := Option.map_eq_some_iff.mp h
          obtain ⟨fd, rest, hb, rfl⟩ := accept_some hd₁
          cases h
          exact .acceptFirst hb
      | acceptFailed =>
          cases h
          exact .failFirst
      | sockoptFailed =>
          obtain ⟨d₁, hd₁, h⟩ := Option.map_eq_some_iff.mp h
          obtain ⟨fd, rest, hb, rfl⟩ := acceptClose_some hd₁
          cases h
          exact .closeFirst hb
      | _ => cases h
  | acceptMore rs =>
      cases inp with
      | accepted =>
          obtain ⟨d₁, hd₁, h⟩ := Option.map_eq_some_iff.mp h
          obtain ⟨fd, rest, hb, rfl⟩ := accept_some hd₁
          cases h
          exact .acceptMore hb
      | acceptFailed => exact .failMore (Option.some.inj h)
      | sockoptFailed =>
          obtain ⟨d₁, hd₁, h⟩ := Option.map_eq_some_iff.mp h
          obtain ⟨fd, rest, hb, rfl⟩ := acceptClose_some hd₁
          exact .closeMore hb h
      | _ => cases h
  | reselect =>
      cases inp with
      | ready rs =>
          simp only [serverStep] at h
          split at h
          · next hsel => exact .rescan hsel (Option.some.inj h)
          · cases h
      | selectError =>
          cases h
          exact .reselectError
      | _ => cases h
  | _ => exact hpc.elim

/-- What it does to the list of clients and to the place. -/
theorem ChoosingMove.move {n : Nat} {listenFd : Fd} {i : Fin n} {d d' : ServerData n}
    {pc pc' : ServerPc} {inp : ServerInput} {op : LockOp Mutex} (hpc : pc.choosing)
    (h : ChoosingMove listenFd d pc inp d' pc' op) : ServerMove i d pc inp d' pc' op := by
  cases h with
  | watchFirst | watchMore | failFirst => exact .choose hpc (.inl trivial)
  | loopError | reselectError => exact .selectError hpc
  | acceptFirst hb | acceptMore hb => exact .accept hpc hb trivial
  | closeFirst hb => exact .acceptClose hpc hb (.inl trivial)
  | scan _ _ _ hscan | failMore hscan | rescan _ hscan =>
      obtain ⟨head, hch, rfl, rfl⟩ := scanStep_eq hscan
      exact .choose hpc hch
  | closeMore hb hscan =>
      obtain ⟨head, hch, rfl, rfl⟩ := scanStep_eq hscan
      exact .acceptClose hpc hb hch

/-- A step inside a `recvfull`. -/
theorem serverStep_reading {n : Nat} {listenFd : Fd} {i : Fin n} {d d' : ServerData n}
    {pc pc' : ServerPc} {inp : ServerInput} {op : LockOp Mutex} {x : Fd × Bytes}
    (hpc : pc.reading = some x) (h : serverStep listenFd i d pc inp = some (d', pc', op)) :
    ServerMove i d pc inp d' pc' op := by
  -- an end of the stream and an error of `recv` are the same in the two parts of a request
  have hends : ∀ {fd : Fd} {got : Bytes}, pc.reading = some (fd, got) →
      (inp = .eof ∧ d.atEof fd = true ∨ inp = .recvError ∧ d.mayFail fd = true) →
      d.checkStep fd got.length pc.expected pc = (d', pc', op) →
      ServerMove i d pc inp d' pc' op := by
    rintro fd got hpc (⟨rfl, heof⟩ | ⟨rfl, hfail⟩) h
    · obtain ⟨c, hc, hend, hun⟩ := atEof_some heof
      exact checkStep_move hpc hc hend (.inl ⟨rfl, hun⟩) h
    · obtain ⟨c, hc, hend⟩ := mayFail_some hfail
      exact checkStep_move hpc hc hend (.inr rfl) h
  cases pc with
  | header fd got =>
      cases inp with
      | got k =>
          obtain ⟨⟨bs, d₁⟩, hr, h⟩ := Option.map_eq_some_iff.mp h
          obtain ⟨c, hc, hk, hmax, hk', rfl, rfl⟩ := recv_some hr
          simp only at h
          split at h
          · next hlen => exact headDone_move hc hk hk' hlen h
          · next hlen =>
              cases h
              exact .readHead hc hk hk' (by omega)
      | eof =>
          simp only [serverStep] at h
          split at h
          · next heof => exact hends rfl (.inl ⟨rfl, heof⟩) (Option.some.inj h)
          · cases h
      | recvError =>
          simp only [serverStep] at h
          split at h
          · next hfail => exact hends rfl (.inr ⟨rfl, hfail⟩) (Option.some.inj h)
          · cases h
      | _ => cases h
  | payload fd head got =>
      cases inp with
      | got k =>
          obtain ⟨⟨bs, d₁⟩, hr, h⟩ := Option.map_eq_some_iff.mp h
          obtain ⟨c, hc, hk, hmax, hk', rfl, rfl⟩ := recv_some hr
          simp only at h
          split at h
          · next hlen =>
              cases h
              exact .dataDone hc hk hk' hlen
          · next hlen =>
              cases h
              exact .readData hc hk hk' (by omega)
      | eof =>
          simp only [serverStep] at h
          split at h
          · next heof => exact hends rfl (.inl ⟨rfl, heof⟩) (Option.some.inj h)
          · cases h
      | recvError =>
          simp only [serverStep] at h
          split at h
          · next hfail => exact hends rfl (.inr ⟨rfl, hfail⟩) (Option.some.inj h)
          · cases h
      | _ => cases h
  | _ => cases hpc

/-- **A step of a worker.** -/
theorem serverStep_move {n : Nat} {listenFd : Fd} {i : Fin n} {d d' : ServerData n}
    {pc pc' : ServerPc} {inp : ServerInput} {op : LockOp Mutex}
    (h : serverStep listenFd i d pc inp = some (d', pc', op)) :
    ServerMove i d pc inp d' pc' op := by
  by_cases hch : pc.choosing
  · exact (serverStep_choosing hch h).move hch
  by_cases hrd : ∃ x, pc.reading = some x
  · exact serverStep_reading hrd.choose_spec h
  cases pc with
  | recv =>
      cases inp with
      | tau =>
          cases h
          exact .lockRecv
      | _ => cases h
  | stamp fd raw =>
      cases inp with
      | clock ns =>
          cases h
          exact .stamp ns
      | _ => cases h
  | unlockRecv =>
      cases inp with
      | tau =>
          cases h
          exact .unlockRecv
      | _ => cases h
  | serving =>
      cases inp with
      | tau =>
          cases h
          exact .lockSend
      | _ => cases h
  | sendLocked =>
      cases inp with
      | respond ns data =>
          simp only [serverStep] at h
          split at h
          · next hns =>
              cases h
              exact .respond ns data hns
          · next hns =>
              cases h
              exact .assertFails ns data (UInt64.not_lt.mp hns)
      | _ => cases h
  | sending fd rest =>
      cases inp with
      | wrote k =>
          simp only [serverStep] at h
          split at h
          · next hk =>
              cases h
              split
              · next hl =>
                  subst hl
                  rw [List.take_length]
                  exact .writeLast hk.1
              · next hl => exact .write hk.1 (lt_of_le_of_ne hk.2 hl)
          · cases h
      | sendError =>
          cases h
          exact .writeError
      | sigpipe =>
          cases h
          exact .sigpipe
      | _ => cases h
  | afterSend =>
      cases inp with
      | tau =>
          cases h
          exact .count
      | _ => cases h
  | loop | acceptFirst | acceptMore rs | reselect => exact absurd trivial hch
  | header fd got | payload fd head got => exact absurd ⟨_, rfl⟩ hrd

/-- A step of a worker changes what it holds by its lock operation. -/
theorem ServerMove.holds {n : Nat} {i : Fin n} {d d' : ServerData n} {pc pc' : ServerPc}
    {inp : ServerInput} {op : LockOp Mutex} (h : ServerMove i d pc inp d' pc' op) :
    op.Fits pc.holds ∧ ∀ k, pc'.holds k ↔ op.after pc.holds k := by
  -- between `lockRecv` and `unlockRecv` every place holds `recvLock` and nothing else
  have hchoosing : ∀ {pc : ServerPc}, pc.choosing → ∀ k, pc.holds k ↔ k = .recvLock := by
    intro pc hpc k
    cases pc with
    | loop | acceptFirst | acceptMore rs | reselect => exact Iff.rfl
    | _ => exact hpc.elim
  have hchosen : ∀ {pc : ServerPc} {fds : List Fd}, pc.Chosen fds →
      ∀ k, pc.holds k ↔ k = .recvLock := by
    rintro pc fds (hpc | ⟨fd, -, rfl⟩) k
    · exact hchoosing hpc k
    · exact Iff.rfl
  have hreading : ∀ {pc : ServerPc} {x : Fd × Bytes}, pc.reading = some x →
      ∀ k, pc.holds k ↔ k = .recvLock := by
    intro pc x hpc k
    cases pc with
    | header fd got | payload fd head got => exact Iff.rfl
    | _ => cases hpc
  cases h with
  | choose hpc hpc' => exact ⟨trivial, fun k => (hchosen hpc' k).trans (hchoosing hpc k).symm⟩
  | selectError hpc => exact ⟨trivial, fun k => Iff.rfl⟩
  | accept hpc hb hpc' =>
      exact ⟨trivial, fun k => (hchoosing hpc' k).trans (hchoosing hpc k).symm⟩
  | acceptClose hpc hb hpc' =>
      exact ⟨trivial, fun k => (hchosen hpc' k).trans (hchoosing hpc k).symm⟩
  | leave hpc hc hend hinp => exact ⟨trivial, fun k => (hreading hpc k).symm⟩
  | cut hpc hgot hc hend hinp => exact ⟨trivial, fun k => Iff.rfl⟩
  | full hpc hfull => exact ⟨trivial, fun k => Iff.rfl⟩
  | _ => simp [LockOp.Fits, LockOp.after, ServerPc.holds]

/-! ## `finish` -/

/-- The steps of `finish`. -/
inductive FinishMove {n : Nat} (d : ServerData n) :
    FinishPc → ServerInput → ServerData n → FinishPc → LockOp Mutex → Prop
  | lockSend : FinishMove d .idle .tau d .locked (.acquire .sendLock)
  | clients : FinishMove d .locked .tau d (.clients d.clientFds) .keep
  | unlock : FinishMove d (.clients []) .tau d .idle (.release .sendLock)
  | send {fd : Fd} {todo : List Fd} :
      FinishMove d (.clients (fd :: todo)) .tau { d with log := d.log ++ [.finish fd] }
        (.sending fd finishFrame.frame todo) .keep
  | write {fd : Fd} {rest : Bytes} {todo : List Fd} {k : Nat} (hk : 1 ≤ k)
      (hlt : k < rest.length) :
      FinishMove d (.sending fd rest todo) (.wrote k)
        (d.modifyConn fd fun c => { c with out := c.out ++ rest.take k })
        (.sending fd (rest.drop k) todo) .keep
  | writeLast {fd : Fd} {rest : Bytes} {todo : List Fd} (hpos : 1 ≤ rest.length) :
      FinishMove d (.sending fd rest todo) (.wrote rest.length)
        (d.modifyConn fd fun c => { c with out := c.out ++ rest }) (.clients todo) .keep
  | writeError {fd : Fd} {rest : Bytes} {todo : List Fd} :
      FinishMove d (.sending fd rest todo) .sendError
        { d.modifyConn fd fun c => { c with failed := true } with proc := .abortedFinish }
        (.sending fd rest todo) .keep
  | sigpipe {fd : Fd} {rest : Bytes} {todo : List Fd} :
      FinishMove d (.sending fd rest todo) .sigpipe { d with proc := .killed }
        (.sending fd rest todo) .keep

theorem finishStep_move {n : Nat} {d d' : ServerData n} {pc pc' : FinishPc}
    {inp : ServerInput} {op : LockOp Mutex} (h : finishStep d pc inp = some (d', pc', op)) :
    FinishMove d pc inp d' pc' op := by
  cases pc with
  | idle =>
      cases inp with
      | tau =>
          cases h
          exact .lockSend
      | _ => cases h
  | locked =>
      cases inp with
      | tau =>
          cases h
          exact .clients
      | _ => cases h
  | clients todo =>
      cases inp with
      | tau =>
          cases todo with
          | nil =>
              cases h
              exact .unlock
          | cons fd todo =>
              cases h
              exact .send
      | _ => cases todo <;> cases h
  | sending fd rest todo =>
      cases inp with
      | wrote k =>
          simp only [finishStep] at h
          split at h
          · next hk =>
              cases h
              split
              · next hl =>
                  subst hl
                  rw [List.take_length]
                  exact .writeLast hk.1
              · next hl => exact .write hk.1 (lt_of_le_of_ne hk.2 hl)
          · cases h
      | sendError =>
          cases h
          exact .writeError
      | sigpipe =>
          cases h
          exact .sigpipe
      | _ => cases h

theorem FinishMove.holds {n : Nat} {d d' : ServerData n} {pc pc' : FinishPc}
    {inp : ServerInput} {op : LockOp Mutex} (h : FinishMove d pc inp d' pc' op) :
    op.Fits pc.holds ∧ ∀ k, pc'.holds k ↔ op.after pc.holds k := by
  cases h <;> simp [LockOp.Fits, LockOp.after, FinishPc.holds]

/-! ## The process -/

namespace NetServer

variable {n : Nat}

/-- What a thread of the process holds. -/
def held (s : NetServer n) : ServerTid n → Mutex → Prop
  | .worker i, m => (s.workers i).holds m
  | .finisher, m => s.finisher.holds m

/-- The state after a step of worker `i`. -/
def afterWorker (s : NetServer n) (i : Fin n) (d : ServerData n) (pc : ServerPc)
    (locks : Mutex → Option (ServerTid n)) : NetServer n :=
  { s with data := d, locks := locks, workers := Function.update s.workers i pc }

/-- The state after a step of `finish`. -/
def afterFinisher (s : NetServer n) (d : ServerData n) (pc : FinishPc)
    (locks : Mutex → Option (ServerTid n)) : NetServer n :=
  { s with data := d, locks := locks, finisher := pc }

/-- The state after a step of the network. -/
def withData (s : NetServer n) (d : ServerData n) : NetServer n := { s with data := d }

/-- The steps of the process and of the network around it. -/
inductive Move (listenFd : Fd) (s : NetServer n) : ServerAction n → NetServer n → Prop
  | worker {i : Fin n} {inp : ServerInput} {d : ServerData n} {pc : ServerPc}
      {op : LockOp Mutex} {locks : Mutex → Option (ServerTid n)}
      (hm : ServerMove i s.data (s.workers i) inp d pc op)
      (hop : op.apply (.worker i) s.locks = some locks)
      (hstep : serverStep listenFd i s.data (s.workers i) inp = some (d, pc, op)) :
      Move listenFd s (.worker i inp) (s.afterWorker i d pc locks)
  | finisher {inp : ServerInput} {d : ServerData n} {pc : FinishPc} {op : LockOp Mutex}
      {locks : Mutex → Option (ServerTid n)} (hm : FinishMove s.data s.finisher inp d pc op)
      (hop : op.apply .finisher s.locks = some locks) :
      Move listenFd s (.finisher inp) (s.afterFinisher d pc locks)
  | connect {fd : Fd} (hl : fd ≠ listenFd) (hfd : s.data.conns fd = none) :
      Move listenFd s (.connect fd)
        (s.withData { s.data with
          conns := Function.update s.data.conns fd (some {})
          backlog := s.data.backlog ++ [fd] })
  | arrive {fd : Fd} {bs : Bytes} {c : Conn} (hc : s.data.conns fd = some c)
      (hopen : c.ended = false) :
      Move listenFd s (.arrive fd bs)
        (s.withData (s.data.modifyConn fd fun c => { c with inp := c.inp ++ bs }))
  | hangup {fd : Fd} :
      Move listenFd s (.hangup fd)
        (s.withData (s.data.modifyConn fd fun c => { c with ended := true }))

/-- **A step of the process**, which runs. -/
theorem next_move {listenFd : Fd} {a : ServerAction n} {s s' : NetServer n}
    (h : s.next listenFd a = some s') : s.data.proc = .running ∧ Move listenFd s a s' := by
  unfold next at h
  split at h
  · cases h
  · next hrun =>
      refine ⟨not_not.mp hrun, ?_⟩
      cases a with
      | worker i inp =>
          simp only at h
          split at h
          · cases h
          · next d pc op hstep =>
              obtain ⟨locks, hop, rfl⟩ := Option.map_eq_some_iff.mp h
              exact .worker (serverStep_move hstep) hop hstep
      | finisher inp =>
          simp only at h
          split at h
          · cases h
          · next d pc op hstep =>
              obtain ⟨locks, hop, rfl⟩ := Option.map_eq_some_iff.mp h
              exact .finisher (finishStep_move hstep) hop
      | connect fd =>
          simp only at h
          split at h
          · next hfd =>
              cases h
              exact .connect hfd.1 hfd.2
          · cases h
      | arrive fd bs =>
          simp only at h
          split at h
          · next hopen =>
              cases h
              rw [Option.any_eq_true] at hopen
              obtain ⟨c, hc, hopen⟩ := hopen
              exact .arrive hc (by simpa using hopen)
          · cases h
      | hangup fd =>
          cases h
          exact .hangup

theorem Move.owned {listenFd : Fd} {a : ServerAction n} {s s' : NetServer n}
    (h : Move listenFd s a s') (ho : Owned s.locks s.held) : Owned s'.locks s'.held := by
  cases h with
  | @worker i inp d pc op locks hm hop =>
      refine ho.apply hop hm.holds.1 (fun k => ?_) fun u hu k => ?_
      · have hpc : (Function.update s.workers i pc) i = pc := by simp
        show ((Function.update s.workers i pc) i).holds k ↔ _
        rw [hpc]
        exact hm.holds.2 k
      · cases u with
        | worker j =>
            have hj : j ≠ i := fun hji => hu (by rw [hji])
            simp [held, afterWorker, hj]
        | finisher => exact Iff.rfl
  | finisher hm hop =>
      refine ho.apply hop hm.holds.1 (fun k => hm.holds.2 k) fun u hu k => ?_
      cases u with
      | worker j => exact Iff.rfl
      | finisher => exact absurd rfl hu
  | connect | arrive | hangup => exact ho

end NetServer

/-- In every run the mutexes are held by the threads whose places say so. -/
theorem netServer_owned {n : Nat} {listenFd : Fd} {s : NetServer n}
    (h : (netServer listenFd n).Reachable s) : Owned s.locks s.held := by
  refine Machine.Reachable.invariant (P := fun s : NetServer n => Owned s.locks s.held) ?_ ?_ h
  · rintro s rfl m t
    cases t <;> simp [NetServer.start, NetServer.held, ServerPc.holds, FinishPc.holds]
  · intro s a s' _ hs hn
    obtain ⟨-, hmove⟩ := NetServer.next_move hn
    exact hmove.owned hs

end TailBench
