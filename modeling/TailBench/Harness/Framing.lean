import TailBench.Harness.Helpers

set_option autoImplicit false

/-! # Sending and reading one message

The parts of `NetworkedClient::send`, `NetworkedServer::recvReq`, `NetworkedServer::sendResp`
and `NetworkedClient::recv` that move one message over one connection, as functions of what
the system calls return. Both ends compute the size of a frame on their own, from
`sizeof(struct)` minus the size of the buffer, and the reader takes the length of the
payload from the header it has just read.
-/

namespace TailBench

open Lib

/-! ## Requests -/

/-- `len` in `NetworkedClient::send`. -/
def requestLen (r : Request) : Int := cInt (requestHeaderLen + r.len.toNat)

/-- The transfer in `NetworkedClient::send`: the bytes put on the connection, and
`sent == len`. -/
def sendRequest (os : Nat → SendRet) (r : Request) : Bytes × Bool :=
  let sent := sendfull os r.image (requestLen r)
  (sent.1, sent.2 == requestLen r)

/-- What `NetworkedServer::checkRecv` decides about a transfer. -/
inductive CheckRecv where
  /-- The client is removed and the loop goes on. -/
  | removed
  /-- `exit(-1)`. -/
  | exit
  | success
  deriving DecidableEq, Repr

/-- `NetworkedServer::checkRecv`. -/
def checkRecv (recvd expected : Int) : CheckRecv :=
  if recvd = 0 then .removed
  else if recvd = -1 then .exit
  else if recvd ≠ expected then .exit
  else .success

/-- The second read of `NetworkedServer::recvReq`: as many bytes as the header says. -/
def recvRequestData (osData : Nat → RecvRet) (req : Request) (stream : Bytes) :
    Except CheckRecv (Request × Bytes) :=
  let len := cInt req.len.toNat
  let body := recvfull osData stream len
  match checkRecv body.2.2 len with
  | .success => .ok ({ req with data := body.1 }, body.2.1)
  | c => .error c

/-- The reads of one request in `NetworkedServer::recvReq`: the header, then the data. The
request and the rest of the stream, unless a check fails. -/
def recvRequest (osHead osData : Nat → RecvRet) (stream : Bytes) :
    Except CheckRecv (Request × Bytes) :=
  let len := cInt requestHeaderLen
  let head := recvfull osHead stream len
  match checkRecv head.2.2 len with
  | .success => recvRequestData osData (Request.ofHeader head.1) head.2.1
  | c => .error c

/-! ## Responses -/

/-- The response `NetworkedServer::sendResp` builds. -/
def mkResponse (id svcNs : UInt64) (data : Payload MAX_RESP_BYTES) : Response where
  type := ResponseType.RESPONSE.code
  id := id
  svcNs := svcNs
  len := UInt64.ofNat data.1.length
  data := data.1

/-- The response `NetworkedServer::finish` builds. -/
def finishFrame : Response := { type := ResponseType.FINISH.code }

/-- `totalLen` in `NetworkedServer::sendResp`. -/
def responseLen (r : Response) : Int := cInt (responseHeaderLen + r.len.toNat)

/-- The transfer in `NetworkedServer::sendResp`: the bytes put on the connection and the
value of `sent`. -/
def sendResponse (os : Nat → SendRet) (r : Response) : Bytes × Int :=
  sendfull os r.image (responseLen r)

/-- `NetworkedClient::recv` after the header: the data of a `RESPONSE`, and `recvNs`
overwritten. -/
def recvResponseData (osData : Nat → RecvRet) (recvNs : UInt64) (resp : Response)
    (stream : Bytes) : Option (Response × Bytes) :=
  if resp.type = ResponseType.RESPONSE.code then
    let body := recvfull osData stream (cInt resp.len.toNat)
    if UInt64.ofInt body.2.2 ≠ resp.len then none
    else some ({ resp with data := body.1, recvNs := recvNs }, body.2.1)
  else some ({ resp with recvNs := recvNs }, stream)

/-- `NetworkedClient::recv`: the response and the rest of the stream; `none` when a transfer
comes up short. -/
def recvResponse (osHead osData : Nat → RecvRet) (recvNs : UInt64) (stream : Bytes) :
    Option (Response × Bytes) :=
  let len := cInt responseHeaderLen
  let head := recvfull osHead stream len
  if head.2.2 ≠ len then none
  else recvResponseData osData recvNs (Response.ofHeader head.1) head.2.1

/-! ## One message -/

theorem requestLen_eq {r : Request} (h : r.Fits) :
    requestLen r = ((80 + r.len.toNat : Nat) : Int) := by
  have hle : r.len.toNat ≤ 2 ^ 20 := h.2
  rw [requestLen, requestHeaderLen_eq, cInt_of_lt (by omega)]

theorem responseLen_eq {r : Response} (h : r.Fits) :
    responseLen r = ((40 + r.len.toNat : Nat) : Int) := by
  have hle : r.len.toNat ≤ 2 ^ 20 := h.2
  rw [responseLen, responseHeaderLen_eq, cInt_of_lt (by omega)]

/-- A response that `sendResp` builds fits. -/
theorem mkResponse_fits (id svcNs : UInt64) (data : Payload MAX_RESP_BYTES) :
    (mkResponse id svcNs data).Fits := by
  have hle : data.1.length ≤ 2 ^ 20 := data.2
  have hnat : (UInt64.ofNat data.1.length).toNat = data.1.length := by
    rw [UInt64.toNat_ofNat']
    exact Nat.mod_eq_of_lt (by omega)
  exact ⟨hnat.symm, by rw [mkResponse, hnat]; exact data.2⟩

/-- A request that fits is sent whole. -/
theorem sendRequest_all {os : Nat → SendRet} (hos : SendsAll os) {r : Request} (h : r.Fits) :
    sendRequest os r = (r.image, true) := by
  have hlen : r.image.length = 80 + r.len.toNat := by
    rw [Request.length_image h, requestHeaderLen_eq]
  rw [sendRequest, requestLen_eq h, sendfull_all hos _ _ hlen.ge,
    List.take_of_length_le hlen.le]
  simp

/-- A response that fits is sent whole. -/
theorem sendResponse_all {os : Nat → SendRet} (hos : SendsAll os) {r : Response}
    (h : r.Fits) : sendResponse os r = (r.image, responseLen r) := by
  have hlen : r.image.length = 40 + r.len.toNat := by
    rw [Response.length_image h, responseHeaderLen_eq]
  rw [sendResponse, responseLen_eq h, sendfull_all hos _ _ hlen.ge,
    List.take_of_length_le hlen.le]

/-- A transfer of exactly `n > 0` bytes passes the check. -/
theorem checkRecv_self {n : Nat} (h : 0 < n) : checkRecv n n = .success := by
  unfold checkRecv
  rw [if_neg (by omega), if_neg (by omega), if_neg (by simp)]

theorem recvRequestData_append {osData : Nat → RecvRet} (hd : RecvsAll osData)
    {r req : Request} (h : r.Fits) (hpos : 1 ≤ r.len.toNat) (hreq : req = { r with data := [] })
    (rest : Bytes) : recvRequestData osData req (r.data ++ rest) = .ok (r, rest) := by
  subst hreq
  have hmax : r.len.toNat ≤ 2 ^ 20 := h.2
  have hbody : recvfull osData (r.data ++ rest) (r.len.toNat : Int)
      = (r.data, rest, (r.len.toNat : Int)) := by
    rw [recvfull_all hd _ _ (by simp [h.1]), List.take_left' h.1, List.drop_left' h.1]
  simp only [recvRequestData, cInt_of_lt (show r.len.toNat < 2 ^ 31 by omega), hbody,
    checkRecv_self (show 0 < r.len.toNat by omega)]

/-- **A request is read back**, whatever follows it in the stream. -/
theorem recvRequest_image {osHead osData : Nat → RecvRet} (hh : RecvsAll osHead)
    (hd : RecvsAll osData) {r : Request} (h : r.Fits) (hpos : 1 ≤ r.len.toNat)
    (rest : Bytes) : recvRequest osHead osData (r.image ++ rest) = .ok (r, rest) := by
  have hlen : cInt requestHeaderLen = ((80 : Nat) : Int) := by
    rw [requestHeaderLen_eq, cInt_of_lt (by omega)]
  have hhead : recvfull osHead (r.image ++ rest) ((80 : Nat) : Int)
      = (r.header, r.data ++ rest, ((80 : Nat) : Int)) := by
    rw [recvfull_all hh _ 80 (by simp [Request.image]), Request.image, List.append_assoc,
      List.take_left' (by simp), List.drop_left' (by simp)]
  simp only [recvRequest, hlen, hhead, checkRecv_self (show 0 < 80 by omega)]
  exact recvRequestData_append hd h hpos r.ofHeader_header rest

theorem recvResponseData_append {osData : Nat → RecvRet} (hd : RecvsAll osData)
    (recvNs : UInt64) {r resp : Response} (h : r.Fits)
    (htype : r.type = ResponseType.RESPONSE.code) (hresp : resp = { r with data := [] })
    (rest : Bytes) :
    recvResponseData osData recvNs resp (r.data ++ rest)
      = some ({ r with recvNs := recvNs }, rest) := by
  subst hresp
  have hmax : r.len.toNat ≤ 2 ^ 20 := h.2
  have hbody : recvfull osData (r.data ++ rest) (r.len.toNat : Int)
      = (r.data, rest, (r.len.toNat : Int)) := by
    rw [recvfull_all hd _ _ (by simp [h.1]), List.take_left' h.1, List.drop_left' h.1]
  have hcast : UInt64.ofInt (r.len.toNat : Int) = r.len := by
    have hlt : r.len.toNat < 2 ^ 64 := r.len.toNat_lt
    have hmod : ((r.len.toNat : Int) % 2 ^ 64).toNat = r.len.toNat := by omega
    rw [UInt64.ofInt, hmod, UInt64.ofNat_toNat]
  simp only [recvResponseData, cInt_of_lt (show r.len.toNat < 2 ^ 31 by omega), hbody, hcast,
    htype, ne_eq, not_true_eq_false, if_false, if_true]

/-- **A response is read back**, whatever follows it in the stream. -/
theorem recvResponse_image {osHead osData : Nat → RecvRet} (hh : RecvsAll osHead)
    (hd : RecvsAll osData) (recvNs : UInt64) {r : Response} (h : r.Fits)
    (htype : r.type = ResponseType.RESPONSE.code) (rest : Bytes) :
    recvResponse osHead osData recvNs (r.image ++ rest)
      = some ({ r with recvNs := recvNs }, rest) := by
  have hlen : cInt responseHeaderLen = ((40 : Nat) : Int) := by
    rw [responseHeaderLen_eq, cInt_of_lt (by omega)]
  have hhead : recvfull osHead (r.image ++ rest) ((40 : Nat) : Int)
      = (r.header, r.data ++ rest, ((40 : Nat) : Int)) := by
    rw [recvfull_all hh _ 40 (by simp [Response.image]), Response.image, List.append_assoc,
      List.take_left' (by simp), List.drop_left' (by simp)]
  simp only [recvResponse, hlen, hhead, ne_eq, not_true_eq_false, if_false]
  exact recvResponseData_append hd recvNs h htype r.ofHeader_header rest

/-! ## Sequences of messages on one connection -/

/-- The bytes a sequence of requests puts on the connection, each sent with its own
oracle. -/
def sendRequests (reqs : List (Request × (Nat → SendRet))) : Bytes :=
  (reqs.map fun r => (sendRequest r.2 r.1).1).flatten

/-- Successive reads of one connection by `recvReq`, each with its own oracles. -/
def recvRequests : List ((Nat → RecvRet) × (Nat → RecvRet)) → Bytes →
    Except CheckRecv (List Request × Bytes)
  | [], stream => .ok ([], stream)
  | os :: reads, stream => do
      let (r, rest) ← recvRequest os.1 os.2 stream
      let (rs, rest') ← recvRequests reads rest
      pure (r :: rs, rest')

/-- The bytes a sequence of calls of `sendResp` puts on the connection. -/
def sendResponses (resps : List (Response × (Nat → SendRet))) : Bytes :=
  (resps.map fun r => (sendResponse r.2 r.1).1).flatten

/-- Successive calls of `NetworkedClient::recv`, each with its oracles and the duration it
stores in `recvNs`. -/
def recvResponses : List ((Nat → RecvRet) × (Nat → RecvRet) × UInt64) → Bytes →
    Option (List Response × Bytes)
  | [], stream => some ([], stream)
  | os :: reads, stream => do
      let (r, rest) ← recvResponse os.1 os.2.1 os.2.2 stream
      let (rs, rest') ← recvResponses reads rest
      pure (r :: rs, rest')

theorem recvRequests_sendRequests {reqs : List (Request × (Nat → SendRet))}
    {reads : List ((Nat → RecvRet) × (Nat → RecvRet))}
    (hreqs : ∀ r ∈ reqs, (r.1.Fits ∧ 1 ≤ r.1.len.toNat) ∧ SendsAll r.2)
    (hreads : ∀ os ∈ reads, RecvsAll os.1 ∧ RecvsAll os.2)
    (hle : reads.length ≤ reqs.length) (tail : Bytes) :
    recvRequests reads (sendRequests reqs ++ tail)
      = .ok ((reqs.take reads.length).map Prod.fst,
          sendRequests (reqs.drop reads.length) ++ tail) := by
  induction reads generalizing reqs with
  | nil => simp [recvRequests]
  | cons os reads ih =>
      cases reqs with
      | nil => simp at hle
      | cons r reqs =>
          obtain ⟨⟨hfit, hpos⟩, hsend⟩ := hreqs r (by simp)
          obtain ⟨hh, hd⟩ := hreads os (by simp)
          have hstream : sendRequests (r :: reqs) ++ tail
              = r.1.image ++ (sendRequests reqs ++ tail) := by
            simp [sendRequests, sendRequest_all hsend hfit]
          have hrest := @ih reqs (fun x hx => hreqs x (by simp [hx]))
            (fun x hx => hreads x (by simp [hx])) (by simpa using hle)
          rw [hstream, recvRequests, recvRequest_image hh hd hfit hpos]
          simp only [bind, Except.bind, hrest, pure, Except.pure, List.length_cons,
            List.take_succ_cons, List.drop_succ_cons, List.map_cons]

theorem recvResponses_sendResponses {resps : List (Response × (Nat → SendRet))}
    {reads : List ((Nat → RecvRet) × (Nat → RecvRet) × UInt64)}
    (hresps : ∀ r ∈ resps, (r.1.Fits ∧ r.1.type = ResponseType.RESPONSE.code) ∧ SendsAll r.2)
    (hreads : ∀ os ∈ reads, RecvsAll os.1 ∧ RecvsAll os.2.1)
    (hle : reads.length ≤ resps.length) (tail : Bytes) :
    recvResponses reads (sendResponses resps ++ tail)
      = some (List.zipWith (fun r os => { r.1 with recvNs := os.2.2 }) resps reads,
          sendResponses (resps.drop reads.length) ++ tail) := by
  induction reads generalizing resps with
  | nil => simp [recvResponses]
  | cons os reads ih =>
      cases resps with
      | nil => simp at hle
      | cons r resps =>
          obtain ⟨⟨hfit, htype⟩, hsend⟩ := hresps r (by simp)
          obtain ⟨hh, hd⟩ := hreads os (by simp)
          have hstream : sendResponses (r :: resps) ++ tail
              = r.1.image ++ (sendResponses resps ++ tail) := by
            simp [sendResponses, sendResponse_all hsend hfit]
          have hrest := @ih resps (fun x hx => hresps x (by simp [hx]))
            (fun x hx => hreads x (by simp [hx])) (by simpa using hle)
          rw [hstream, recvResponses, recvResponse_image hh hd os.2.2 hfit htype]
          simp only [bind, Option.bind, hrest, pure, List.length_cons, List.drop_succ_cons,
            List.zipWith_cons_cons]

/-- **The wire format round trip.** Any sequence of requests with non-empty data that fits,
written to one connection by `send`, comes back from the successive reads of `recvReq` as
the same sequence, with the unread suffix of the stream left. Any sequence of calls of
`sendResp` comes back from `recv` as responses of type `RESPONSE` with the id, the service
time and the data of the calls, `len` the number of bytes of the data, and `recvNs` the time
the receiver measured. The oracles split the writes and the reads in any way. -/
theorem wire_round_trip {reqs : List (Request × (Nat → SendRet))}
    {reads : List ((Nat → RecvRet) × (Nat → RecvRet))}
    (hreqs : ∀ r ∈ reqs, (r.1.Fits ∧ 1 ≤ r.1.len.toNat) ∧ SendsAll r.2)
    (hreads : ∀ os ∈ reads, RecvsAll os.1 ∧ RecvsAll os.2)
    (hle : reads.length ≤ reqs.length) (tail : Bytes)
    {resps : List ((UInt64 × UInt64 × Payload MAX_RESP_BYTES) × (Nat → SendRet))}
    {gets : List ((Nat → RecvRet) × (Nat → RecvRet) × UInt64)}
    (hresps : ∀ r ∈ resps, SendsAll r.2)
    (hgets : ∀ os ∈ gets, RecvsAll os.1 ∧ RecvsAll os.2.1)
    (hle' : gets.length ≤ resps.length) (tail' : Bytes) :
    recvRequests reads (sendRequests reqs ++ tail)
      = .ok ((reqs.take reads.length).map Prod.fst,
          sendRequests (reqs.drop reads.length) ++ tail) ∧
    (let built := resps.map fun r => (mkResponse r.1.1 r.1.2.1 r.1.2.2, r.2)
     recvResponses gets (sendResponses built ++ tail')
      = some (List.zipWith (fun call os =>
            { type := ResponseType.RESPONSE.code, id := call.1.1, svcNs := call.1.2.1,
              len := UInt64.ofNat call.1.2.2.1.length, recvNs := os.2.2,
              data := call.1.2.2.1 }) resps gets,
          sendResponses (built.drop gets.length) ++ tail')) := by
  refine ⟨recvRequests_sendRequests hreqs hreads hle tail, ?_⟩
  have hbuilt : ∀ r ∈ resps.map fun r => (mkResponse r.1.1 r.1.2.1 r.1.2.2, r.2),
      (r.1.Fits ∧ r.1.type = ResponseType.RESPONSE.code) ∧ SendsAll r.2 := by
    intro r hr
    obtain ⟨x, hx, rfl⟩ := List.mem_map.mp hr
    exact ⟨⟨mkResponse_fits _ _ _, rfl⟩, hresps x hx⟩
  have hgot := recvResponses_sendResponses hbuilt hgets (by simpa using hle') tail'
  rw [List.zipWith_map_left] at hgot
  exact hgot

/-- Two of three requests read and two of three responses, with data and without, written
two bytes at a time and read one and three at a time. -/
theorem wire_round_trip_two :
    let one : Nat → RecvRet := fun _ => .got 1
    let three : Nat → RecvRet := fun _ => .got 3
    let two : Nat → SendRet := fun _ => .wrote 2
    let r₁ : Request := { id := 3, len := 2, data := [7, 8] }
    let r₂ : Request := { id := 4, len := 1, late := true, data := [9] }
    let r₃ : Request := { id := 5, len := 3, data := [1, 2, 3] }
    let d₁ : Payload MAX_RESP_BYTES := ⟨[10, 11, 12], by decide⟩
    let d₂ : Payload MAX_RESP_BYTES := ⟨[], by decide⟩
    let d₃ : Payload MAX_RESP_BYTES := ⟨[13], by decide⟩
    recvRequests [(one, three), (three, one)]
        (sendRequests [(r₁, two), (r₂, two), (r₃, two)] ++ [9])
      = .ok ([r₁, r₂], sendRequests [(r₃, two)] ++ [9]) ∧
    recvResponses [(three, one, 50), (one, three, 60)]
        (sendResponses [(mkResponse 3 100 d₁, two), (mkResponse 4 200 d₂, two),
          (mkResponse 5 300 d₃, two)] ++ [])
      = some ([{ id := 3, svcNs := 100, len := 3, recvNs := 50, data := [10, 11, 12] },
          { id := 4, svcNs := 200, len := 0, recvNs := 60, data := [] }],
          sendResponses [(mkResponse 5 300 d₃, two)] ++ []) := by
  intro one three two r₁ r₂ r₃ d₁ d₂ d₃
  have hone : RecvsAll one := fun _ => ⟨1, rfl⟩
  have hthree : RecvsAll three := fun _ => ⟨3, rfl⟩
  have htwo : SendsAll two := fun _ => ⟨2, rfl⟩
  exact @wire_round_trip
    [(r₁, two), (r₂, two), (r₃, two)] [(one, three), (three, one)]
    (by simp only [List.forall_mem_cons, List.not_mem_nil, false_imp_iff, implies_true, and_true]
        exact ⟨⟨by decide, htwo⟩, ⟨by decide, htwo⟩, ⟨by decide, htwo⟩⟩)
    (by simp [hone, hthree]) (by decide) [9]
    [((3, 100, d₁), two), ((4, 200, d₂), two), ((5, 300, d₃), two)]
    [(three, one, 50), (one, three, 60)]
    (by simp [htwo]) (by simp [hone, hthree]) (by decide) []

end TailBench
