import TailBench.Harness.Routing
import TailBench.Harness.ClientObjects

set_option autoImplicit false

/-! # The message buffers

The length of a payload comes from the wire, as 64 bits, and is passed to `recvfull` as an `int`.
What becomes of a frame depends on its header alone: `Request.InRange` and `Response.InRange` are
the headers with which no delivery of bytes overruns the buffer, and no frame passes that was not
read with exactly `len` bytes (`Request.readsWell_iff`, `Response.readsWell_iff`). In runs that see
only such headers both processes stay within their buffers.
-/

namespace TailBench

open Lib

/-! ## One frame -/

/-- A peer can make `recvfull` store as many bytes as it was called for. -/
theorem exists_recvfull_length (n : Nat) :
    ∃ os stream, (recvfull os stream n).1.length = n := by
  refine ⟨fun _ => .got n, List.replicate n 0, ?_⟩
  rw [recvfull_all (fun _ => ⟨n, rfl⟩) _ n (by simp)]
  simp

namespace Request

/-- The second read of `recvReq` stays within `data`, and a frame that passes `checkRecv` was read
with `len` bytes. -/
def ReadsWell (req : Request) (osData : Nat → RecvRet) (stream : Bytes) : Prop :=
  (recvfull osData stream (cInt req.len.toNat)).1.length ≤ MAX_REQ_BYTES ∧
    ∀ r rest, recvRequestData osData req stream = .ok (r, rest) →
      r.data.length = req.len.toNat ∧ stream = r.data ++ rest

/-- `len` fits the buffer, or is not positive as an `int`. -/
def InRange (req : Request) : Prop := cInt req.len.toNat ≤ 0 ∨ req.len.toNat ≤ MAX_REQ_BYTES

instance (req : Request) : Decidable req.InRange := inferInstanceAs (Decidable (_ ∨ _))

/-- In the range a length that is positive as an `int` is the same number. -/
theorem InRange.cInt_eq {req : Request} (h : req.InRange) (hpos : 0 < cInt req.len.toNat) :
    req.len.toNat ≤ MAX_REQ_BYTES ∧ cInt req.len.toNat = req.len.toNat := by
  have hle : req.len.toNat ≤ 2 ^ 20 := h.resolve_left (not_le.mpr hpos)
  exact ⟨hle, cInt_of_lt (by omega)⟩

/-- A transfer that passes the check is complete, and not empty. -/
theorem checkRecv_success {recvd expected : Int} (h : checkRecv recvd expected = .success) :
    recvd = expected ∧ recvd ≠ 0 := by
  unfold checkRecv at h
  split at h
  · cases h
  · next hne =>
      split at h
      · cases h
      · split at h
        · cases h
        · next heq => exact ⟨not_not.mp heq, hne⟩

/-- **The requests that are read well**, however their bytes are delivered. -/
theorem readsWell_iff (req : Request) :
    (∀ osData stream, req.ReadsWell osData stream) ↔ req.InRange := by
  constructor
  · intro hwell
    by_contra hrange
    obtain ⟨hpos, hbig⟩ := not_or.mp hrange
    obtain ⟨n, hn⟩ : ∃ n : Nat, cInt req.len.toNat = n := Int.eq_ofNat_of_zero_le (by omega)
    rw [hn] at hpos
    -- the peer delivers as many bytes as the `int` says
    have hread : recvfull (fun _ => .got n) (List.replicate n 0) n =
        (List.replicate n 0, [], (n : Int)) := by
      rw [recvfull_all (fun _ => ⟨n, rfl⟩) _ n (by simp)]
      simp
    obtain ⟨hstored, hexact⟩ := hwell (fun _ => .got n) (List.replicate n 0)
    rw [hn, hread, List.length_replicate] at hstored
    have hok : recvRequestData (fun _ => .got n) req (List.replicate n 0) =
        .ok ({ req with data := List.replicate n 0 }, []) := by
      simp only [recvRequestData, hn, hread, checkRecv_self (show 0 < n by omega)]
    have hlen := (hexact _ _ hok).1
    rw [List.length_replicate] at hlen
    omega
  · intro hrange osData stream
    obtain ⟨n, hn, hle, hread⟩ := recvfull_split osData stream (cInt req.len.toNat)
    by_cases hpos : 0 < cInt req.len.toNat
    · obtain ⟨hmax, heq⟩ := hrange.cInt_eq hpos
      rw [heq] at hle
      refine ⟨?_, fun r rest hok => ?_⟩
      · rw [hread, List.length_take]
        omega
      · unfold recvRequestData at hok
        dsimp only at hok
        rw [hread] at hok
        split at hok
        · next hcheck =>
            have hall : (n : Int) = req.len.toNat := heq ▸ (checkRecv_success hcheck).1
            obtain ⟨rfl, rfl⟩ := Prod.mk.inj (Except.ok.inj hok)
            rw [List.length_take, List.take_append_drop]
            exact ⟨by omega, rfl⟩
        · cases hok
    -- nothing is read, and the check takes it for the end of the connection
    · obtain rfl : n = 0 := by omega
      refine ⟨by rw [hread]; simp, fun r rest hok => ?_⟩
      unfold recvRequestData at hok
      dsimp only at hok
      rw [hread] at hok
      split at hok
      · next hcheck => exact absurd rfl (checkRecv_success hcheck).2
      · cases hok

end Request

namespace Response

/-- `recv` stays within `data`, and a frame for which it returns true was read with `len` bytes. -/
def ReadsWell (resp : Response) (osData : Nat → RecvRet) (stream : Bytes) : Prop :=
  (resp.type = ResponseType.RESPONSE.code →
    (recvfull osData stream (cInt resp.len.toNat)).1.length ≤ MAX_RESP_BYTES) ∧
    ∀ recvNs r rest, recvResponseData osData recvNs resp stream = some (r, rest) →
      r.data.length = resp.len.toNat ∧ stream = r.data ++ rest

/-- The `int` that `len` becomes fits the buffer; no data is announced that is not read. -/
def InRange (resp : Response) : Prop :=
  if resp.type = ResponseType.RESPONSE.code then cInt resp.len.toNat ≤ MAX_RESP_BYTES
  else resp.len = 0

instance (resp : Response) : Decidable resp.InRange := by
  unfold InRange
  infer_instance

/-- `static_cast<size_t>(recvd)` for a number that `int` holds. -/
theorem toNat_ofInt_natCast {n : Nat} (h : n < 2 ^ 64) : (UInt64.ofInt n).toNat = n := by
  have hmod : ((n : Int) % 2 ^ 64).toNat = n := by omega
  rw [UInt64.ofInt, hmod, UInt64.toNat_ofNat']
  exact Nat.mod_eq_of_lt h

/-- **The responses that are read well**, however their bytes are delivered. -/
theorem readsWell_iff {resp : Response} (hdata : resp.data = []) :
    (∀ osData stream, resp.ReadsWell osData stream) ↔ resp.InRange := by
  by_cases htype : resp.type = ResponseType.RESPONSE.code
  · rw [InRange, if_pos htype]
    constructor
    · intro hwell
      by_contra hbig
      obtain ⟨n, hn⟩ : ∃ n : Nat, cInt resp.len.toNat = n := Int.eq_ofNat_of_zero_le (by omega)
      obtain ⟨os, stream, hlen⟩ := exists_recvfull_length n
      have hstored := (hwell os stream).1 htype
      rw [hn, hlen] at hstored
      omega
    · intro hrange osData stream
      obtain ⟨n, hn, hle, hread⟩ := recvfull_split osData stream (cInt resp.len.toNat)
      have hmax : MAX_RESP_BYTES = 2 ^ 20 := rfl
      refine ⟨fun _ => ?_, fun recvNs r rest hok => ?_⟩
      · rw [hread, List.length_take]
        omega
      · unfold recvResponseData at hok
        dsimp only at hok
        rw [if_pos htype, hread] at hok
        split at hok
        · cases hok
        · next hall =>
            obtain ⟨rfl, rfl⟩ := Prod.mk.inj (Option.some.inj hok)
            rw [← not_not.mp hall, toNat_ofInt_natCast (by omega), List.length_take,
              List.take_append_drop]
            exact ⟨by omega, rfl⟩
  -- the data of other types is not read
  · rw [InRange, if_neg htype]
    have hskip : ∀ osData recvNs stream, recvResponseData osData recvNs resp stream =
        some ({ resp with recvNs := recvNs }, stream) := by
      intro osData recvNs stream
      rw [recvResponseData, if_neg htype]
    constructor
    · intro hwell
      have hlen := ((hwell (fun _ => .eof) []).2 0 _ _ (hskip _ _ _)).1
      rw [show ({ resp with recvNs := 0 } : Response).data = [] from hdata] at hlen
      exact UInt64.toNat_inj.mp hlen.symm
    · intro hzero osData stream
      refine ⟨fun h => absurd h htype, fun recvNs r rest hok => ?_⟩
      rw [hskip] at hok
      obtain ⟨rfl, rfl⟩ := Prod.mk.inj (Option.some.inj hok)
      rw [show ({ resp with recvNs := recvNs } : Response).data = [] from hdata, hzero]
      exact ⟨rfl, rfl⟩

end Response

/-! ## Runs of the server -/

/-- A whole frame that fits its buffer: a header and as many bytes as it says. -/
def WholeFrame (raw : Bytes) : Prop := requestHeaderLen ≤ raw.length ∧ (requestOf raw).Fits

theorem requestOf_append {head got : Bytes} (hlen : head.length = requestHeaderLen) :
    requestOf (head ++ got) = { Request.ofHeader head with data := got } := by
  rw [requestOf, List.take_left' hlen, List.drop_left' hlen]

/-- What is stored at a place is within its buffer. -/
def ServerPc.InBounds : ServerPc → Prop
  | .payload _ head got => head.length = requestHeaderLen ∧ (Request.ofHeader head).InRange ∧
      got.length ≤ MAX_REQ_BYTES
  | .stamp _ raw => WholeFrame raw
  | _ => True

theorem ServerPc.choosing.inBounds {pc : ServerPc} (h : pc.choosing) : pc.InBounds := by
  cases pc with
  | payload fd head got | stamp fd raw => exact h.elim
  | _ => trivial

theorem ServerPc.Chosen.inBounds {pc : ServerPc} {fds : List Fd} (h : pc.Chosen fds) :
    pc.InBounds := by
  obtain h | ⟨fd, _, rfl⟩ := h
  · exact h.inBounds
  · trivial

namespace NetServer

variable {n : Nat} {listenFd : Fd} {s s' : NetServer n}

/-- The header that a step completes. -/
def completes (s : NetServer n) : ServerAction n → Option Request
  | .worker i (.got k) =>
      match s.workers i with
      | .header fd got =>
          if got.length + k = requestHeaderLen then
            (s.data.conns fd).map fun c => Request.ofHeader (got ++ c.unread.take k)
          else none
      | _ => none
  | _ => none

/-- A header that a step completes is in the range. -/
def HeadersOk (s : NetServer n) (a : ServerAction n) : Prop :=
  ∀ req, s.completes a = some req → req.InRange

/-- The server is within its buffers, and what it has delivered are whole frames. -/
structure InBounds (s : NetServer n) : Prop where
  proc : s.data.proc ≠ .overrun
  reqbuf : ∀ i, (s.data.reqbuf i).data.length ≤ MAX_REQ_BYTES
  place : ∀ i, (s.workers i).InBounds
  delivered : ∀ i fd raw, .delivered i fd raw ∈ s.data.log → WholeFrame raw

theorem completes_eq {i : Fin n} {fd : Fd} {got : Bytes} {k : Nat} {c : Conn}
    (hpc : s.workers i = .header fd got) (hc : s.data.conns fd = some c)
    (hlen : got.length + k = requestHeaderLen) :
    s.completes (.worker i (.got k)) = some (Request.ofHeader (got ++ c.unread.take k)) := by
  simp [completes, hpc, hc, hlen]

/-- A step of a worker. -/
theorem InBounds.worker (h : s.InBounds) {i : Fin n} {inp : ServerInput} {d : ServerData n}
    {pc : ServerPc} {op : LockOp Mutex} (hok : s.HeadersOk (.worker i inp))
    (hm : ServerMove i s.data (s.workers i) inp d pc op) :
    pc.InBounds ∧ d.proc ≠ .overrun ∧ (∀ j, (d.reqbuf j).data.length ≤ MAX_REQ_BYTES) ∧
      ∀ j fd raw, .delivered j fd raw ∈ d.log → WholeFrame raw := by
  have hplace := h.place i
  generalize hpc : s.workers i = pc₀ at hm hplace
  have hlength : ∀ {got : Bytes} {k : Nat} {c : Conn}, k ≤ c.unread.length →
      got.length + k = requestHeaderLen →
      (got ++ c.unread.take k).length = requestHeaderLen := by
    intro got k c hk hlen
    rw [List.length_append, List.length_take, Nat.min_eq_left hk, hlen]
  cases hm with
  | headOk hc hk hk' hlen hpos hmax =>
      exact ⟨⟨hlength hk' hlen, hok _ (completes_eq hpc hc hlen), Nat.zero_le _⟩, h.proc,
        h.reqbuf, h.delivered⟩
  -- a header in the range does not announce more than fits
  | @overrun fd got k c hc hk hk' hlen hmax =>
      have hcast := cInt_toNat_le (Request.ofHeader (got ++ c.unread.take k)).len.toNat
      rcases hok _ (completes_eq hpc hc hlen) with hneg | hle
      · omega
      · omega
  | readData hc hk hk' hlen =>
      obtain ⟨hhead, hrange, _⟩ := hplace
      obtain ⟨hmax, heq⟩ := hrange.cInt_eq (by omega)
      rw [heq, Int.toNat_natCast] at hlen
      refine ⟨⟨hhead, hrange, ?_⟩, h.proc, h.reqbuf, h.delivered⟩
      rw [List.length_append, List.length_take, Nat.min_eq_left hk']
      omega
  | @dataDone fd head got k c hc hk hk' hlen =>
      obtain ⟨hhead, hrange, _⟩ := hplace
      obtain ⟨hmax, heq⟩ := hrange.cInt_eq (by omega)
      rw [heq, Int.toNat_natCast] at hlen
      have hdata : (got ++ c.unread.take k).length = (Request.ofHeader head).len.toNat := by
        rw [List.length_append, List.length_take, Nat.min_eq_left hk', hlen]
      have hwhole : WholeFrame (head ++ (got ++ c.unread.take k)) := by
        refine ⟨by rw [List.length_append, hhead]; omega, ?_⟩
        rw [requestOf_append hhead]
        exact ⟨hdata, hmax⟩
      refine ⟨hwhole, h.proc, fun j => ?_, h.delivered⟩
      by_cases hj : j = i
      · subst hj
        simp only [Function.update_self]
        rw [hwhole.2.1]
        exact hwhole.2.2
      · simp only [Function.update_of_ne hj]
        exact h.reqbuf j
  | stamp ns =>
      refine ⟨trivial, h.proc, h.reqbuf, fun j fd raw hmem => ?_⟩
      rcases List.mem_append.mp hmem with hmem | hmem
      · exact h.delivered j fd raw hmem
      · cases List.mem_singleton.mp hmem
        exact hplace
  | respond ns data hns =>
      refine ⟨trivial, h.proc, h.reqbuf, fun j fd raw hmem => ?_⟩
      rcases List.mem_append.mp hmem with hmem | hmem
      · exact h.delivered j fd raw hmem
      · cases List.mem_singleton.mp hmem
  | choose _ hpc' | acceptClose _ _ hpc' =>
      exact ⟨hpc'.inBounds, h.proc, h.reqbuf, h.delivered⟩
  | accept _ _ hpc' => exact ⟨hpc'.inBounds, h.proc, h.reqbuf, h.delivered⟩
  | selectError | cut | assertFails | sigpipe =>
      exact ⟨hplace, nofun, h.reqbuf, h.delivered⟩
  | full => exact ⟨hplace, h.proc, h.reqbuf, h.delivered⟩
  | _ => exact ⟨trivial, h.proc, h.reqbuf, h.delivered⟩

/-- **One step** of the process or the network. -/
theorem Move.inBounds {a : ServerAction n} (hm : Move listenFd s a s') (h : s.InBounds)
    (hok : s.HeadersOk a) : s'.InBounds := by
  cases hm with
  | @worker i inp d pc op locks hm hop hstep =>
      obtain ⟨hpc, hproc, hreqbuf, hlog⟩ := h.worker hok hm
      refine ⟨hproc, hreqbuf, fun j => ?_, hlog⟩
      by_cases hj : j = i
      · rw [hj]
        simpa [afterWorker] using hpc
      · simpa [afterWorker, hj] using h.place j
  | @finisher inp d pc op locks hm hop =>
      generalize s.finisher = pc₀ at hm
      cases hm with
      | send =>
          refine ⟨h.proc, h.reqbuf, h.place, fun i fd raw hmem => ?_⟩
          rcases List.mem_append.mp hmem with hmem | hmem
          · exact h.delivered i fd raw hmem
          · cases List.mem_singleton.mp hmem
      | writeError | sigpipe => exact ⟨(by intro heq; cases heq), h.reqbuf, h.place, h.delivered⟩
      | _ => exact ⟨h.proc, h.reqbuf, h.place, h.delivered⟩
  | _ => exact ⟨h.proc, h.reqbuf, h.place, h.delivered⟩

end NetServer

/-- The server, in every run that sees only headers in the range. -/
theorem netServer_inBounds {n : Nat} {listenFd : Fd} {s : NetServer n}
    (h : (netServer listenFd n).ReachableBy NetServer.HeadersOk s) : s.InBounds := by
  refine h.invariant ?_ ?_
  · rintro s rfl
    refine ⟨nofun, fun i => Nat.zero_le _, fun i => trivial, fun i fd raw hmem => ?_⟩
    cases hmem
  · intro s a s' _ hs hok hn
    exact (NetServer.next_move hn).2.inBounds hs hok

/-! ## Runs of the client -/

/-- What is stored at a place is within its buffer. -/
def ReceiverPc.InBounds : ReceiverPc → Prop
  | .payload _ head got =>
      (Response.ofHeader head).type = ResponseType.RESPONSE.code ∧
        (Response.ofHeader head).InRange ∧ got.length ≤ MAX_RESP_BYTES
  | .received _ resp | .unlockRecv resp | .dispatch resp | .lockFini resp | .fini resp => resp.Fits
  | _ => True

namespace NetClient

variable {cfg : Config} {nS nR : Nat} {s s' : NetClient nS nR}

/-- The header that a step completes. -/
def completes (s : NetClient nS nR) (a : ClientAction nS nR) : Option Response :=
  match a with
  | ⟨.receiver j, .got bs⟩ =>
      match s.receivers j with
      | .header _ got =>
          if got.length + bs.length = responseHeaderLen then
            some (Response.ofHeader (got ++ bs))
          else none
      | _ => none
  | _ => none

/-- A header that a step completes is in the range. -/
def HeadersOk (s : NetClient nS nR) (a : ClientAction nS nR) : Prop :=
  ∀ resp, s.completes a = some resp → resp.InRange

end NetClient

/-- A step of a receiver. -/
theorem ReceiverMove.inBounds {cfg : Config} {d d' : NetData} {pc pc' : ReceiverPc} {inp : Input}
    {op : LockOp Mutex} (hm : ReceiverMove cfg d pc inp d' pc' op) (h : pc.InBounds)
    (hok : ∀ s1 got bs, pc = .header s1 got → inp = .got bs →
      got.length + bs.length = responseHeaderLen → (Response.ofHeader (got ++ bs)).InRange) :
    pc'.InBounds := by
  have hmax : MAX_RESP_BYTES = 2 ^ 20 := rfl
  cases hm with
  | headerData bs hl ht hn => exact ⟨ht, hok _ _ bs rfl rfl hl, Nat.zero_le _⟩
  | headerEmpty bs hl ht hn => exact ⟨by simp [hn], by simp [hn]⟩
  | headerOther bs hl ht =>
      have hzero := hok _ _ bs rfl rfl hl
      rw [Response.InRange, if_neg ht] at hzero
      refine ⟨?_, ?_⟩
      · rw [hzero]
        rfl
      · simp [hzero]
  | payload bs hl =>
      obtain ⟨ht, hrange, _⟩ := h
      refine ⟨ht, hrange, ?_⟩
      rw [Response.InRange, if_pos ht] at hrange
      rw [List.length_append]
      omega
  | @payloadDone s1 head got bs hl hn =>
      obtain ⟨ht, hrange, _⟩ := h
      rw [Response.InRange, if_pos ht] at hrange
      have hlen : got.length + bs.length = (Response.ofHeader head).len.toNat := by
        rw [← hn, UInt64.toNat_ofNat']
        exact (Nat.mod_eq_of_lt (by omega)).symm
      refine ⟨?_, ?_⟩
      · rw [List.length_append]
        exact hlen
      · show (Response.ofHeader head).len.toNat ≤ MAX_RESP_BYTES
        omega
  | stamp | unlock | response | lockFini | fault => exact h
  | _ => trivial

/-- The client, in every run that sees only headers in the range. -/
theorem netClient_inBounds {cfg : Config} {nS nR : Nat} {s : NetClient nS nR}
    (h : (netClient cfg nS nR).ReachableBy NetClient.HeadersOk s) (j : Fin nR) :
    (s.receivers j).InBounds := by
  suffices hall : ∀ j, (s.receivers j).InBounds from hall j
  refine h.invariant (P := fun s => ∀ j, (s.receivers j).InBounds) ?_ ?_
  · rintro s rfl j
    trivial
  · intro s a s' _ hs hok hn j
    obtain ⟨_, ⟨i, d, pc, op, locks, _, _, _, rfl⟩ |
      ⟨k, d, pc, op, locks, htid, hstep, _, rfl⟩⟩ := NetClient.next_cases hn
    · exact hs j
    · by_cases hj : j = k
      · subst hj
        simp only [Function.update_self]
        refine (receiverStep_move hstep).inBounds (hs j) fun s1 got bs hpc hinp hlen => hok _ ?_
        obtain ⟨tid, inp⟩ := a
        obtain rfl : tid = .receiver j := htid
        obtain rfl : inp = .got bs := hinp
        simp [NetClient.completes, hpc, hlen]
      · simp only [Function.update_of_ne hj]
        exact hs j

/-! ## Both ends -/

/-- **The buffers.** A frame is read well in every delivery of bytes if and only if its header is in
the range. Every run that completes only such headers, in any interleaving and with any bytes on the
connections, stays within the buffers; what the server delivers and the client returns are whole
frames, and the bytes the server has read are those of its frames. -/
theorem buffers_iff (head : Bytes) (listenFd : Fd) (n : Nat) (cfg : Config) (nS nR : Nat) :
    ((∀ osData stream, (Request.ofHeader head).ReadsWell osData stream) ↔
      (Request.ofHeader head).InRange) ∧
    ((∀ osData stream, (Response.ofHeader head).ReadsWell osData stream) ↔
      (Response.ofHeader head).InRange) ∧
    (∀ s, (netServer listenFd n).ReachableBy NetServer.HeadersOk s → s.InBounds ∧ s.Received) ∧
    ∀ s, (netClient cfg nS nR).ReachableBy NetClient.HeadersOk s →
      ∀ j, (s.receivers j).InBounds := by
  refine ⟨(Request.ofHeader head).readsWell_iff, Response.readsWell_iff rfl, fun s h => ?_,
    fun s h => ?_⟩
  · exact ⟨netServer_inBounds h, netServer_received h.reachable⟩
  · exact netClient_inBounds h

/-- A test for `HeadersOk`. -/
def NetServer.headersOk {n : Nat} (s : NetServer n) (a : ServerAction n) : Bool :=
  (s.completes a).all fun req => decide req.InRange

theorem NetServer.headersOk_iff {n : Nat} (s : NetServer n) (a : ServerAction n)
    (h : s.headersOk a = true) : s.HeadersOk a := by
  intro req hreq
  simpa [headersOk, hreq] using h

/-- The run with two clients, whose requests have one byte each. -/
theorem buffers_iff_routingRun : ∃ s, (netServer 3 2).ReachableBy NetServer.HeadersOk s ∧
    s.data.requestsFrom 4 = [(smallRequest 7).image] ∧ s.InBounds ∧
      ∀ osData stream, (Request.ofHeader (smallRequest 7).header).ReadsWell osData stream := by
  obtain ⟨s, hs, hreqs⟩ := Machine.Reachable.exists_of_exec
    (M := (netServer 3 2).guard NetServer.headersOk)
    (P := fun s => s.data.requestsFrom 4 = [(smallRequest 7).image]) routingRun
    (show ((netServer 3 2).guard NetServer.headersOk).init NetServer.start from rfl)
    (by decide +kernel)
  have hby := Machine.Reachable.of_guard NetServer.headersOk_iff hs
  obtain ⟨hrequest, _, hserver, _⟩ := buffers_iff (smallRequest 7).header 3 2 smallConfig 1 1
  exact ⟨s, hby, hreqs, (hserver s hby).1, hrequest.mpr (by decide +kernel)⟩

/-- One byte more than there is room for. -/
def longRequest : Request := { len := 1048577 }

def longResponse : Response := { len := 1048577 }

/-- `2 ^ 32 + 5`, which is 5 as an `int`. -/
def wrappedRequest : Request := { len := 4294967301 }

/-- Both buffers overrun, and a frame passes with 5 bytes instead of `2 ^ 32 + 5`. -/
theorem buffers_overrun :
    (∃ os stream, MAX_REQ_BYTES < (recvfull os stream (cInt longRequest.len.toNat)).1.length) ∧
    (∃ s, (netServer 3 1).Reachable s ∧ s.data.proc = .overrun) ∧
    recvRequest (fun _ => .got 80) (fun _ => .got 5) (wrappedRequest.header ++ [1, 2, 3, 4, 5]) =
      .ok ({ wrappedRequest with data := [1, 2, 3, 4, 5] }, []) ∧
    ∃ os stream, MAX_RESP_BYTES < (recvfull os stream (cInt longResponse.len.toNat)).1.length := by
  have hlong : ∃ os stream, MAX_REQ_BYTES < (recvfull os stream (cInt 1048577)).1.length := by
    obtain ⟨os, stream, hlen⟩ := exists_recvfull_length 1048577
    refine ⟨os, stream, ?_⟩
    rw [cInt_of_lt (by omega), hlen]
    decide
  refine ⟨hlong, ?_, by decide +kernel, hlong⟩
  exact Machine.Reachable.exists_of_exec (M := netServer 3 1) (P := fun s => s.data.proc = .overrun)
    [.connect 4, .worker 0 .tau, .worker 0 (.ready [3]), .worker 0 .accepted,
      .arrive 4 longRequest.header, .worker 0 (.ready [4]), .worker 0 (.got 80)] rfl
    (by decide +kernel)

end TailBench
