import TailBench.Harness.ServerBytes

set_option autoImplicit false

/-! # Responses go where their requests came from

A worker keeps what it needs for the response in its own slots of `reqbuf`, `reqInfo` and
`activeFds`, filled under `recvLock` and read under `sendLock`. In every run, whatever the
other threads do in between, its deliveries and responses alternate, and each response has
the connection and the id of the delivery before it.
-/

namespace TailBench

open Lib

/-! ## The history of a thread -/

/-- What one worker did. -/
inductive ThreadEvent where
  | delivered (fd : Fd) (raw : Bytes)
  | responded (fd : Fd) (resp : Response)
  deriving DecidableEq, Repr

/-- The part of an event that belongs to worker `i`. -/
def ServerEvent.ofThread {n : Nat} (i : Fin n) : ServerEvent n → Option ThreadEvent
  | .delivered j fd raw => if j = i then some (.delivered fd raw) else none
  | .responded j fd resp => if j = i then some (.responded fd resp) else none
  | .finish _ => none

/-- The deliveries and responses of worker `i`, in order. -/
def ServerData.history {n : Nat} (d : ServerData n) (i : Fin n) : List ThreadEvent :=
  d.log.filterMap (ServerEvent.ofThread i)

/-- A history in which each delivery is followed by exactly one response, on the same
connection and with the same id; the last delivery may still be `pending`. -/
inductive Routed : List ThreadEvent → Option (Fd × Bytes) → Prop
  | nil : Routed [] none
  | delivered {xs : List ThreadEvent} (fd : Fd) (raw : Bytes) (h : Routed xs none) :
      Routed (xs ++ [.delivered fd raw]) (some (fd, raw))
  | responded {xs : List ThreadEvent} {fd : Fd} {raw : Bytes} (resp : Response)
      (h : Routed xs (some (fd, raw))) (hid : resp.id = (requestOf raw).id) :
      Routed (xs ++ [.responded fd resp]) none

/-! ## The slots of a worker -/

/-- The length of a request, by its header. -/
def requestSize (head : Bytes) : Nat :=
  requestHeaderLen + (cInt (Request.ofHeader head).len.toNat).toNat

/-- The bytes of one whole request. -/
def IsRequest (raw : Bytes) : Prop := IsFrame requestHeaderLen requestSize raw

/-- What is known about the bytes at a place. -/
def ServerPc.Shape {n : Nat} (d : ServerData n) (i : Fin n) : ServerPc → Prop
  | .header _ got => got.length < requestHeaderLen
  | .payload _ head got =>
      head.length = requestHeaderLen ∧
        got.length < (cInt (Request.ofHeader head).len.toNat).toNat
  | .stamp _ raw => IsRequest raw ∧ d.reqbuf i = requestOf raw
  | _ => True

/-- The worker has bytes in hand as its place says, its history is routed, and while a
request is pending its slots hold that request. -/
structure NetServer.RoutedAt {n : Nat} (d : ServerData n) (i : Fin n) (pc : ServerPc) :
    Prop where
  shape : pc.Shape d i
  idle : ¬ pc.answering → Routed (d.history i) none
  pending : pc.answering → ∃ raw, Routed (d.history i) (some (d.activeFds i, raw)) ∧
    (d.reqInfo i).id = (requestOf raw).id

section Routing

variable {n : Nat} {d d' : ServerData n} {i j : Fin n}

theorem ServerPc.choosing.shape {pc : ServerPc} (h : pc.choosing) : pc.Shape d i := by
  cases pc with
  | loop | acceptFirst | acceptMore rs | reselect => trivial
  | _ => exact h.elim

theorem ServerPc.Chosen.shape {pc : ServerPc} {fds : List Fd} (h : pc.Chosen fds) :
    pc.Shape d i := by
  obtain h | ⟨fd, -, rfl⟩ := h
  · exact h.shape
  · exact Nat.lt_of_lt_of_eq (by decide) requestHeaderLen_eq.symm

/-- A complete header and the data it announces are one request. -/
theorem isRequest_append {head data : Bytes} (hh : head.length = requestHeaderLen)
    (hd : data.length = (cInt (Request.ofHeader head).len.toNat).toNat) :
    IsRequest (head ++ data) := by
  refine ⟨by rw [List.length_append]; omega, ?_⟩
  have htake : (head ++ data).take requestHeaderLen = head := by
    rw [← hh, List.take_left]
  rw [htake, List.length_append, hh, hd, requestSize]

/-- A step of another worker, or of no worker. -/
theorem NetServer.RoutedAt.frame {pc : ServerPc} (h : RoutedAt d i pc)
    (hbuf : d'.reqbuf i = d.reqbuf i) (hact : d'.activeFds i = d.activeFds i)
    (hinfo : d'.reqInfo i = d.reqInfo i) (hhist : d'.history i = d.history i) :
    RoutedAt d' i pc where
  shape := by
    have hs := h.shape
    cases pc with
    | stamp fd raw => exact ⟨hs.1, by rw [hbuf]; exact hs.2⟩
    | _ => exact hs
  idle := fun ha => by rw [hhist]; exact h.idle ha
  pending := fun ha => by rw [hhist, hact, hinfo]; exact h.pending ha

/-- A worker leaves the slots and the history of the others alone. -/
theorem ServerMove.others {pc pc' : ServerPc} {inp : ServerInput} {op : LockOp Mutex}
    (h : ServerMove i d pc inp d' pc' op) (hj : j ≠ i) :
    d'.reqbuf j = d.reqbuf j ∧ d'.activeFds j = d.activeFds j ∧
      d'.reqInfo j = d.reqInfo j ∧ d'.history j = d.history j := by
  cases h with
  | dataDone hc hk hk' hlen => exact ⟨by simp [hj], rfl, rfl, rfl⟩
  | stamp ns =>
      refine ⟨rfl, by simp [hj], by simp [hj], ?_⟩
      simp [ServerData.history, ServerEvent.ofThread, hj.symm]
  | respond ns data hns =>
      refine ⟨rfl, rfl, rfl, ?_⟩
      simp [ServerData.history, ServerEvent.ofThread, hj.symm]
  | _ => exact ⟨rfl, rfl, rfl, rfl⟩

/-- `finish` leaves them all alone. -/
theorem FinishMove.others {pc pc' : FinishPc} {inp : ServerInput} {op : LockOp Mutex}
    (h : FinishMove d pc inp d' pc' op) (j : Fin n) :
    d'.reqbuf j = d.reqbuf j ∧ d'.activeFds j = d.activeFds j ∧
      d'.reqInfo j = d.reqInfo j ∧ d'.history j = d.history j := by
  cases h with
  | send => exact ⟨rfl, rfl, rfl, by simp [ServerData.history, ServerEvent.ofThread]⟩
  | _ => exact ⟨rfl, rfl, rfl, rfl⟩

/-- A step between two places without a pending request. -/
theorem NetServer.RoutedAt.quiet {pc pc' : ServerPc} (h : RoutedAt d i pc)
    (ha : ¬ pc.answering) (ha' : ¬ pc'.answering) (hs : pc'.Shape d' i)
    (hhist : d'.history i = d.history i) : RoutedAt d' i pc' where
  shape := hs
  idle := fun _ => by rw [hhist]; exact h.idle ha
  pending := fun hp => absurd hp ha'

/-- **One step of a worker.** -/
theorem ServerMove.routed {pc pc' : ServerPc} {inp : ServerInput} {op : LockOp Mutex}
    (h : ServerMove i d pc inp d' pc' op) (hr : NetServer.RoutedAt d i pc) :
    NetServer.RoutedAt d' i pc' := by
  cases h with
  | lockRecv => exact hr.quiet id id trivial rfl
  | choose hpc hpc' => exact hr.quiet hpc.idle.2.1 hpc'.idle.2.1 hpc'.shape rfl
  | selectError hpc => exact hr.frame rfl rfl rfl rfl
  | accept hpc hb hpc' => exact hr.quiet hpc.idle.2.1 hpc'.idle.2.1 hpc'.shape rfl
  | acceptClose hpc hb hpc' => exact hr.quiet hpc.idle.2.1 hpc'.idle.2.1 hpc'.shape rfl
  | @readHead fd got k c hc hk hk' hlen =>
      refine hr.quiet id id ?_ rfl
      show (got ++ c.unread.take k).length < requestHeaderLen
      rw [List.length_append, List.length_take]
      omega
  | @headOk fd got k c hc hk hk' hlen hpos hmax =>
      refine hr.quiet id id ⟨?_, ?_⟩ rfl
      · rw [List.length_append, List.length_take]
        omega
      · rw [List.length_nil]
        omega
  | headEmpty hc hk hk' hlen hpos => exact hr.quiet id id trivial rfl
  | @overrun fd got k c hc hk hk' hlen hmax =>
      refine hr.quiet id id ⟨?_, ?_⟩ rfl
      · rw [List.length_append, List.length_take]
        omega
      · exact Nat.lt_of_le_of_lt (Nat.zero_le _) hmax
  | @readData fd head got k c hc hk hk' hlen =>
      refine hr.quiet id id ⟨hr.shape.1, ?_⟩ rfl
      rw [List.length_append, List.length_take]
      omega
  | @dataDone fd head got k c hc hk hk' hlen =>
      refine hr.quiet id id ⟨isRequest_append hr.shape.1 ?_, by simp⟩ rfl
      rw [List.length_append, List.length_take]
      omega
  | leave hpc hc hend hinp => exact hr.quiet (ServerPc.reading_idle hpc).1 id trivial rfl
  | cut hpc hgot hc hend hinp => exact hr.frame rfl rfl rfl rfl
  | full hpc hfull => exact hr
  | @stamp fd raw ns =>
      refine ⟨trivial, fun ha => absurd trivial ha, fun _ => ⟨raw, ?_, ?_⟩⟩
      -- the request that is delivered becomes the pending one
      · have hstep := Routed.delivered fd raw (hr.idle id)
        simpa [ServerData.history, ServerEvent.ofThread] using hstep
      · simp [hr.shape.2]
  | unlockRecv =>
      exact ⟨trivial, fun ha => absurd trivial ha, fun _ => hr.pending trivial⟩
  | lockSend =>
      exact ⟨trivial, fun ha => absurd trivial ha, fun _ => hr.pending trivial⟩
  | respond ns data hns =>
      -- the response carries the id in `reqInfo`, which is that of the pending request
      obtain ⟨raw, hrouted, hid⟩ := hr.pending trivial
      refine ⟨trivial, fun _ => ?_, fun ha => ha.elim⟩
      have hstep := Routed.responded
        (mkResponse (d.reqInfo i).id (ns - (d.reqInfo i).startNs) data) hrouted hid
      simpa [ServerData.history, ServerEvent.ofThread] using hstep
  | assertFails ns data hns => exact hr.frame rfl rfl rfl rfl
  | write hk hlt => exact hr.quiet id id trivial rfl
  | writeLast hpos => exact hr.quiet id id trivial rfl
  | writeError => exact hr.quiet id id trivial rfl
  | sigpipe => exact hr.frame rfl rfl rfl rfl
  | count => exact hr.quiet id id trivial rfl

end Routing

/-! ## What a step adds -/

theorem finishFrame_fits : finishFrame.Fits := by
  refine ⟨rfl, ?_⟩
  rw [finishFrame, UInt64.toNat_zero]
  exact Nat.zero_le _

section Logged

variable {n : Nat} {d d' : ServerData n} {fd : Fd}

/-- An event adds its own request. -/
theorem ServerData.mem_requestsFrom_logged {e : ServerEvent n} (hlog : d'.log = d.log ++ [e])
    {raw : Bytes} (h : raw ∈ d'.requestsFrom fd) :
    raw ∈ d.requestsFrom fd ∨ e.request fd = some raw := by
  rw [ServerData.requestsFrom, hlog, List.filterMap_append, List.mem_append] at h
  rcases h with h | h
  · exact .inl h
  · exact .inr (by simpa [List.mem_filterMap] using h)

/-- An event adds its own response. -/
theorem ServerData.mem_responsesTo_logged {e : ServerEvent n} (hlog : d'.log = d.log ++ [e])
    {r : Response} (h : r ∈ d'.responsesTo fd) :
    r ∈ d.responsesTo fd ∨ e.response fd = some r := by
  rw [ServerData.responsesTo, hlog, List.filterMap_append, List.mem_append] at h
  rcases h with h | h
  · exact .inl h
  · exact .inr (by simpa [List.mem_filterMap] using h)

/-- A worker delivers whole requests only. -/
theorem ServerMove.requests {i : Fin n} {pc pc' : ServerPc} {inp : ServerInput}
    {op : LockOp Mutex} (h : ServerMove i d pc inp d' pc' op) (hs : pc.Shape d i) {raw : Bytes}
    (hraw : raw ∈ d'.requestsFrom fd) : raw ∈ d.requestsFrom fd ∨ IsRequest raw := by
  cases h with
  | @stamp fd' raw' ns =>
      refine (ServerData.mem_requestsFrom_logged rfl hraw).imp id fun he => ?_
      obtain ⟨-, rfl⟩ : fd' = fd ∧ raw' = raw := by simpa [ServerEvent.request] using he
      exact hs.1
  | respond ns data hns =>
      refine (ServerData.mem_requestsFrom_logged rfl hraw).imp id fun he => ?_
      cases he
  | _ => exact .inl hraw

/-- A worker sends responses that fit only. -/
theorem ServerMove.responses {i : Fin n} {pc pc' : ServerPc} {inp : ServerInput}
    {op : LockOp Mutex} (h : ServerMove i d pc inp d' pc' op) {r : Response}
    (hr : r ∈ d'.responsesTo fd) : r ∈ d.responsesTo fd ∨ r.Fits := by
  cases h with
  | stamp ns =>
      refine (ServerData.mem_responsesTo_logged rfl hr).imp id fun he => ?_
      cases he
  | respond ns data hns =>
      refine (ServerData.mem_responsesTo_logged rfl hr).imp id fun he => ?_
      obtain ⟨-, rfl⟩ : d.activeFds i = fd ∧
          mkResponse (d.reqInfo i).id (ns - (d.reqInfo i).startNs) data = r := by
        simpa [ServerEvent.response] using he
      exact mkResponse_fits _ _ _
  | _ => exact .inl hr

theorem FinishMove.requests {pc pc' : FinishPc} {inp : ServerInput} {op : LockOp Mutex}
    (h : FinishMove d pc inp d' pc' op) {raw : Bytes} (hraw : raw ∈ d'.requestsFrom fd) :
    raw ∈ d.requestsFrom fd := by
  cases h with
  | send => exact (ServerData.mem_requestsFrom_logged rfl hraw).resolve_right nofun
  | _ => exact hraw

/-- `finish` sends its frame only. -/
theorem FinishMove.responses {pc pc' : FinishPc} {inp : ServerInput} {op : LockOp Mutex}
    (h : FinishMove d pc inp d' pc' op) {r : Response} (hr : r ∈ d'.responsesTo fd) :
    r ∈ d.responsesTo fd ∨ r.Fits := by
  cases h with
  | @send fd' todo =>
      refine (ServerData.mem_responsesTo_logged rfl hr).imp id fun he => ?_
      obtain ⟨-, rfl⟩ : fd' = fd ∧ finishFrame = r := by simpa [ServerEvent.response] using he
      exact finishFrame_fits
  | _ => exact .inl hr

end Logged

/-! ## Every run -/

/-- A response that fits is sent whole. -/
theorem Response.frame_eq {r : Response} (h : r.Fits) : r.frame = r.image := by
  rw [Response.frame, responseLen_eq h, Int.toNat_natCast, List.take_of_length_le]
  rw [Response.length_image h, responseHeaderLen_eq]

/-- Every worker is routed, every delivery was a whole request and every response fits. -/
structure NetServer.Routes {n : Nat} (s : NetServer n) : Prop where
  worker : ∀ i, RoutedAt s.data i (s.workers i)
  requests : ∀ fd, ∀ raw ∈ s.data.requestsFrom fd, IsRequest raw
  responses : ∀ fd, ∀ r ∈ s.data.responsesTo fd, r.Fits

/-- The bytes of whole responses. -/
theorem NetServer.Routes.flatMap_frame {n : Nat} {s : NetServer n} (h : s.Routes) (fd : Fd) :
    (s.data.responsesTo fd).flatMap Response.frame
      = (s.data.responsesTo fd).flatMap Response.image := by
  rw [List.flatMap_def, List.flatMap_def]
  congr 1
  exact List.map_congr_left fun r hr => Response.frame_eq (h.responses fd r hr)

/-- One step of the process or the network. -/
theorem NetServer.Move.routes {n : Nat} {listenFd : Fd} {a : ServerAction n}
    {s s' : NetServer n} (h : Move listenFd s a s') (hr : s.Routes) : s'.Routes := by
  cases h with
  | @worker i inp d pc op locks hm hop =>
      constructor
      · intro j
        by_cases hj : j = i
        · subst hj
          simpa [afterWorker] using hm.routed (hr.worker j)
        · obtain ⟨hbuf, hact, hinfo, hhist⟩ := hm.others hj
          simpa [afterWorker, hj] using (hr.worker j).frame hbuf hact hinfo hhist
      · intro fd raw hraw
        exact (hm.requests (hr.worker i).shape hraw).elim (hr.requests fd raw) id
      · intro fd r hresp
        exact (hm.responses hresp).elim (hr.responses fd r) id
  | @finisher inp d pc op locks hm hop =>
      constructor
      · intro j
        obtain ⟨hbuf, hact, hinfo, hhist⟩ := hm.others j
        exact (hr.worker j).frame hbuf hact hinfo hhist
      · exact fun fd raw hraw => hr.requests fd raw (hm.requests hraw)
      · intro fd r hresp
        exact (hm.responses hresp).elim (hr.responses fd r) id
  | connect hl hfd =>
      exact ⟨fun j => (hr.worker j).frame rfl rfl rfl rfl, hr.requests, hr.responses⟩
  | arrive hc hopen =>
      exact ⟨fun j => (hr.worker j).frame rfl rfl rfl rfl, hr.requests, hr.responses⟩
  | hangup => exact ⟨fun j => (hr.worker j).frame rfl rfl rfl rfl, hr.requests, hr.responses⟩

theorem netServer_routes {n : Nat} {listenFd : Fd} {s : NetServer n}
    (h : (netServer listenFd n).Reachable s) : s.Routes := by
  refine Machine.Reachable.invariant ?_ ?_ h
  · rintro s rfl
    exact ⟨fun i => ⟨trivial, fun _ => .nil, fun ha => ha.elim⟩, nofun, nofun⟩
  · intro s a s' _ hs hn
    obtain ⟨-, hmove⟩ := NetServer.next_move hn
    exact hmove.routes hs

/-- **Routing.** In every run of the server, with any number of threads and clients: the
deliveries and responses of each thread alternate, each response on the connection and with
the id of the request before it; the requests delivered from a connection are, one after the
other, the bytes read from it, so that none is delivered twice; and as long as no `send` on a
connection has failed, the bytes written to it are whole responses, up to what a thread in
`sendfull` still has to write. -/
theorem responses_routed {n : Nat} {listenFd : Fd} {s : NetServer n}
    (h : (netServer listenFd n).Reachable s) :
    (∀ i, ∃ pending, Routed (s.data.history i) pending) ∧
    (∀ fd c, s.data.conns fd = some c →
      (s.data.requestsFrom fd).flatten <+: c.inp.take c.rx ∧
      ∀ raw ∈ s.data.requestsFrom fd, IsRequest raw) ∧
    (∀ fd c, s.data.conns fd = some c → c.failed = false →
      (∀ t rest, s.outgoing t = some (fd, rest) →
        c.out ++ rest = (s.data.responsesTo fd).flatMap Response.image) ∧
      ((∀ t rest, s.outgoing t ≠ some (fd, rest)) →
        c.out = (s.data.responsesTo fd).flatMap Response.image)) := by
  have hroutes := netServer_routes h
  have hreceived := netServer_received h
  have hwritten := netServer_written h
  refine ⟨fun i => ?_, fun fd c hc => ⟨?_, hroutes.requests fd⟩, fun fd c hc hfail => ⟨?_, ?_⟩⟩
  · by_cases ha : (s.workers i).answering
    · obtain ⟨raw, hr, -⟩ := (hroutes.worker i).pending ha
      exact ⟨_, hr⟩
    · exact ⟨_, (hroutes.worker i).idle ha⟩
  · obtain ⟨part, hpart⟩ := hreceived.conn fd c hc
    rw [← hpart.2]
    exact List.prefix_append _ _
  · intro t rest ht
    rw [← hroutes.flatMap_frame]
    exact hwritten.sending t fd rest ht c hc hfail
  · intro hno
    rw [← hroutes.flatMap_frame]
    exact hwritten.idle fd c hc hfail hno

/-! ### Two clients, two threads

The answers leave in the other order than the requests came, each to its own client. -/

/-- A request of one byte. -/
def smallRequest (id : UInt64) : Request := { id := id, len := 1, data := [1] }

/-- Client 4 sends request 7 and client 5 request 9; thread 0 receives the one, thread 1 the
other and answers first. -/
def routingRun : List (ServerAction 2) :=
  [.connect 4, .connect 5, .worker 0 .tau, .worker 0 (.ready [3]), .worker 0 .accepted,
   .worker 0 (.ready [3]), .worker 0 .accepted, .arrive 4 (smallRequest 7).image,
   .arrive 5 (smallRequest 9).image, .worker 0 (.ready [5, 4]), .worker 0 (.got 80),
   .worker 0 (.got 1), .worker 0 (.clock 10), .worker 0 .tau, .worker 1 .tau,
   .worker 1 (.ready [5]), .worker 1 (.got 50), .worker 1 (.got 30), .worker 1 (.got 1),
   .worker 1 (.clock 11), .worker 1 .tau, .worker 1 .tau,
   .worker 1 (.respond 12 ⟨[2], by decide⟩), .worker 1 (.wrote 40), .worker 1 (.wrote 1),
   .worker 1 .tau, .worker 0 .tau, .worker 0 (.respond 13 ⟨[], Nat.zero_le _⟩),
   .worker 0 (.wrote 40), .worker 0 .tau]

theorem responses_routed_routingRun :
    ∃ s, (netServer 3 2).Reachable s ∧
      s.data.log = [.delivered 0 4 (smallRequest 7).image, .delivered 1 5 (smallRequest 9).image,
        .responded 1 5 (mkResponse 9 1 ⟨[2], by decide⟩),
        .responded 0 4 (mkResponse 7 3 ⟨[], Nat.zero_le _⟩)] ∧
      ∀ i, ∃ pending, Routed (s.data.history i) pending := by
  obtain ⟨s, hs, hlog⟩ := Machine.Reachable.exists_of_exec
    (P := fun s : NetServer 2 => s.data.log =
      [.delivered 0 4 (smallRequest 7).image, .delivered 1 5 (smallRequest 9).image,
        .responded 1 5 (mkResponse 9 1 ⟨[2], by decide⟩),
        .responded 0 4 (mkResponse 7 3 ⟨[], Nat.zero_le _⟩)]) routingRun
    (show (netServer 3 2).init NetServer.start from rfl) (by decide +kernel)
  exact ⟨s, hs, hlog, (responses_routed hs).1⟩

end TailBench
