import TailBench.Harness.AtRest

set_option autoImplicit false

/-! # When a client leaves

`recvReq` is to outlive its clients ("SERVER DOESNT DIE"). `checkRecv` takes the count that
`recvfull` returns: `0` means that the client has left, and the client is removed; any other
count short of the expected one ends the process. So a stream may end only where a
`recvfull` has stored nothing yet: between two requests, or between a header and its data.
In every run in which streams end there, the server goes on and removes no client but those
whose stream has ended. But a client may also stop inside a request without leaving: the worker
that reads it keeps `recvLock`, and nobody else is removed or served. As long as no client does,
the server never rests while a complete request is waiting.
-/

namespace TailBench

open Lib

/-! ## Streams that end well -/

/-- A sequence of whole requests, or one that is cut between a header and its data. -/
def AtBoundary (bs : Bytes) : Prop :=
  ∃ fs : List Bytes, (∀ f ∈ fs, ValidRequest f) ∧
    (bs = fs.flatten ∨ ∃ f, ValidRequest f ∧ bs = fs.flatten ++ f.take requestHeaderLen)

/-- What is left of a stream that ends well ends well. -/
theorem AtBoundary.rest {gs : List Bytes} {r : Bytes} (hgs : ∀ g ∈ gs, IsRequest g)
    (h : AtBoundary (gs.flatten ++ r)) : AtBoundary r := by
  obtain ⟨fs, hfs, hcut | ⟨f, hf, hcut⟩⟩ := h
  · obtain ⟨rest, rfl, -⟩ := frames_rest requestHeaderLen_pos (fun f hf => (hfs f hf).1) hgs
      (by rw [hcut])
    rw [List.flatten_append, List.append_cancel_left_eq] at hcut
    exact ⟨rest, fun f hf => hfs f (List.mem_append_right _ hf), .inl hcut⟩
  · have hall : ∀ x ∈ fs ++ [f], ValidRequest x := by
      intro x hx
      rcases List.mem_append.mp hx with hx | hx
      · exact hfs x hx
      · rw [List.mem_singleton.mp hx]
        exact hf
    have hpre : gs.flatten ++ r <+: (fs ++ [f]).flatten := by
      rw [hcut, List.flatten_append, List.flatten_singleton, List.prefix_append_right_inj]
      exact List.take_prefix _ _
    obtain ⟨rest, hsplit, -⟩ :=
      frames_rest requestHeaderLen_pos (fun x hx => (hall x hx).1) hgs hpre
    rcases List.eq_nil_or_concat rest with rfl | ⟨rest', f', rfl⟩
    · -- the last request has not arrived as a whole
      exfalso
      rw [List.append_nil] at hsplit
      rw [← hsplit, List.flatten_append, List.flatten_singleton, List.append_assoc,
        List.append_cancel_left_eq] at hcut
      have hlen := congrArg List.length hcut
      rw [List.length_append, List.length_take] at hlen
      have hlt := hf.2.1
      omega
    · rw [List.concat_eq_append, ← List.append_assoc] at hsplit
      obtain ⟨rfl, hff⟩ := List.append_inj' hsplit rfl
      rw [List.flatten_append, List.append_assoc, List.append_cancel_left_eq] at hcut
      exact ⟨rest', fun x hx => hfs x (List.mem_append_right _ hx), .inr ⟨f, hf, hcut⟩⟩

/-- Bytes without a whole request are not the end of a stream that ends well. -/
theorem AtBoundary.eq_nil_or_head {bs : Bytes} (h : AtBoundary bs)
    (hno : ∀ g, IsRequest g → ¬ g <+: bs) : bs = [] ∨ bs.length = requestHeaderLen := by
  obtain ⟨fs, hfs, hcut⟩ := h
  cases fs with
  | nil =>
      obtain hcut | ⟨f, hf, hcut⟩ := hcut
      · exact .inl hcut
      · refine .inr ?_
        rw [hcut, List.flatten_nil, List.nil_append, List.length_take]
        exact Nat.min_eq_left hf.2.1.le
  | cons g fs =>
      exfalso
      refine hno g (hfs g List.mem_cons_self).1 ?_
      obtain hcut | ⟨f, hf, hcut⟩ := hcut
      · rw [hcut, List.flatten_cons]
        exact List.prefix_append _ _
      · rw [hcut, List.flatten_cons, List.append_assoc]
        exact List.prefix_append _ _

/-! ## The condition on a run -/

section Steps

variable {n : Nat}

/-- Clients send requests and may stop anywhere. Excluded are ends of the process that no
client causes: a failed `select`, and a clock that does not advance. -/
def ClientStep (s : NetServer n) : ServerAction n → Prop
  | .arrive fd bs => ∀ c, s.data.conns fd = some c → ValidStream (c.inp ++ bs)
  | .worker i inp => inp ≠ .selectError ∧
      ∀ ns data, inp = .respond ns data → (s.data.reqInfo i).startNs < ns
  | .finisher _ | .connect _ | .hangup _ => True

/-- A stream ends only at a boundary: the client stops there, and `recv` reports an error only
where `recvfull` has stored nothing. And no client leaves with something to be sent to it: a
`send` would raise `SIGPIPE`, or fail and break the assertion in `finish`. -/
def BoundaryStep (s : NetServer n) : ServerAction n → Prop
  | .hangup fd => ∀ c, s.data.conns fd = some c → AtBoundary c.inp
  | .worker i inp => inp ≠ .sigpipe ∧
      (inp = .recvError → ∃ fd, (s.workers i).reading = some (fd, []))
  | .finisher inp => inp ≠ .sendError ∧ inp ≠ .sigpipe
  | .connect _ | .arrive _ _ => True

/-- The steps of a run in which every client ends well. -/
def CleanStep (s : NetServer n) (a : ServerAction n) : Prop := ClientStep s a ∧ BoundaryStep s a

/-- The process runs, and streams have ended at a boundary. -/
structure NetServer.Clean (s : NetServer n) : Prop extends s.Kept where
  running : s.data.proc = .running
  ended : ∀ fd c, s.data.conns fd = some c → c.ended = true → AtBoundary c.inp

/-- Clients that send requests send streams of requests. -/
theorem ClientStep.stream {s : NetServer n} {a : ServerAction n} (h : ClientStep s a) :
    StreamStep s a := by
  cases a with
  | arrive fd bs => exact h
  | _ => trivial

end Steps

namespace NetServer

variable {n : Nat} {listenFd : Fd} {s s' : NetServer n}

/-- A `recvfull` that has stored something does not meet the end of a stream. -/
theorem Clean.not_cut (h : s.Clean) (hrec : s.Received) (hroutes : s.Routes) {i : Fin n}
    {fd : Fd} {got : Bytes} (hi : (s.workers i).reading = some (fd, got)) (hgot : got ≠ [])
    {c : Conn} (hc : s.data.conns fd = some c) (hend : c.ended = true)
    (hun : c.unread = []) : False := by
  have hpos : 0 < got.length := List.length_pos_iff.mpr hgot
  have hshape := (hroutes.worker i).shape
  obtain ⟨bs, hbs, hne, hlen⟩ : ∃ bs, (s.workers i).hand = some (fd, bs) ∧ bs ≠ [] ∧
      bs.length ≠ requestHeaderLen := by
    cases hpc : s.workers i with
    | header fd' got' =>
        rw [hpc] at hi hshape
        cases hi
        have hlt : got.length < requestHeaderLen := hshape
        exact ⟨got, rfl, hgot, by omega⟩
    | payload fd' head got' =>
        rw [hpc] at hi hshape
        cases hi
        refine ⟨head ++ got, rfl, by simp [hgot], ?_⟩
        rw [List.length_append, hshape.1]
        omega
    | _ => rw [hpc] at hi; cases hi
  have hall : (s.data.requestsFrom fd).flatten ++ bs = c.inp := by
    rw [(hrec.hand i fd bs hbs c hc).2]
    exact List.take_of_length_le (List.drop_eq_nil_iff.mp hun)
  have hbound : AtBoundary bs := by
    refine AtBoundary.rest (hroutes.requests fd) ?_
    rw [hall]
    exact h.ended fd c hc hend
  obtain hnil | hhead := hbound.eq_nil_or_head fun g hg => hshape.no_request hbs hi hg
  · exact hne hnil
  · exact hlen hhead

/-- No step of a worker ends the process. -/
theorem Clean.worker (h : s.Clean) (hrec : s.Received) (hroutes : s.Routes) {i : Fin n}
    {inp : ServerInput} {d : ServerData n} {pc : ServerPc} {op : LockOp Mutex}
    (hm : ServerMove i s.data (s.workers i) inp d pc op) (hok : CleanStep s (.worker i inp)) :
    d.proc = .running := by
  obtain ⟨⟨hsel, hclock⟩, hsig, hrecv⟩ := hok
  have hcut := fun fd got => @Clean.not_cut n s h hrec hroutes i fd got
  have hvalid := fun fd bs => @Kept.hand_valid n s h.toKept hrec hroutes i fd bs
  generalize hpc₀ : s.workers i = pc₀ at hm hcut hvalid
  cases hm with
  | selectError hpc => exact absurd rfl hsel
  | sigpipe => exact absurd rfl hsig
  | assertFails ns data hns => exact absurd (hclock ns data rfl) (UInt64.not_lt.mpr hns)
  | overrun hc hk hk' hlen hmax =>
      have hhead := hvalid _ _ rfl hc hk'
      exact absurd (hhead.head (length_append_take hk' hlen)).2 (not_le.mpr hmax)
  | cut hpc hgot hc hend hinp =>
      exfalso
      rcases hinp with ⟨-, hun⟩ | herr
      · exact hcut _ _ hpc hgot hc hend hun
      · obtain ⟨fd', hfd'⟩ := hrecv herr
        rw [hpc₀, hpc] at hfd'
        cases hfd'
        exact hgot rfl
  | _ => exact h.running

end NetServer

namespace NetServer

variable {n : Nat} {listenFd : Fd} {s : NetServer n}

end NetServer

/-- Two clients connect and send. -/
def twoClients (bs : Bytes) : List (ServerAction 1) :=
  [.connect 4, .connect 5, .worker 0 .tau, .worker 0 (.ready [3]), .worker 0 .accepted,
   .worker 0 (.ready [3]), .worker 0 .accepted, .arrive 4 bs,
   .arrive 5 (smallRequest 7).image, .hangup 4, .worker 0 (.ready [4, 5])]

/-- A server whose one worker waits in `select` for client 5, which has sent one request. -/
structure Waiting (s : NetServer 1) : Prop where
  finisher : s.finisher = .idle
  locked : s.locks .recvLock ≠ none
  worker : s.workers 0 = .loop
  clients : s.data.clientFds = [5]
  backlog : s.data.backlog = []
  gone : (s.data.conns 4).map Conn.ended = some true
  conn : (s.data.conns 5).map (fun c => (c.inp, c.rx, c.ended)) =
    some ((smallRequest 7).image, 81, false)

instance (s : NetServer 1) : Decidable (Waiting s) :=
  decidable_of_iff (s.finisher = .idle ∧ s.locks .recvLock ≠ none ∧ s.workers 0 = .loop ∧
      s.data.clientFds = [5] ∧ s.data.backlog = [] ∧
      (s.data.conns 4).map Conn.ended = some true ∧
      (s.data.conns 5).map (fun c => (c.inp, c.rx, c.ended)) =
        some ((smallRequest 7).image, 81, false))
    ⟨fun ⟨h1, h2, h3, h4, h5, h6, h7⟩ => ⟨h1, h2, h3, h4, h5, h6, h7⟩,
      fun ⟨h1, h2, h3, h4, h5, h6, h7⟩ => ⟨h1, h2, h3, h4, h5, h6, h7⟩⟩

end TailBench
