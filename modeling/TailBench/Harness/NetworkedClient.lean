import TailBench.Harness.StartReq
import TailBench.Harness.Framing

set_option autoImplicit false

/-! # The networked client process

The threads of `harness/tbench_client_networked.cpp` and the methods `send` and `recv` of
`NetworkedClient` (`harness/client.cpp`). `nS` threads run the loop `send`, `nR` threads the
loop `recv`; they share the object, three mutexes and one connection. The state after a
step is a function of the thread that moves and of what the step takes from outside
(`Input`), so every interleaving is a list of actions.

`sendfull` and `recvfull` are interleaved with other threads, one system call a step. The
bytes still to be sent or already stored are part of the thread's place.

The connection is seen from the client: `wire` is every byte handed to it, `rx` the number
of bytes read from it. Where the bytes that are read come from is left open here.
-/

namespace TailBench

open Lib

/-- Whether the process still runs. -/
inductive Proc where
  | running
  /-- Ended by `exit_group`. -/
  | exited
  /-- Ended by a failed assertion. -/
  | aborted (f : ClientFault)
  deriving DecidableEq, Repr

/-- The data of the process. -/
structure NetData where
  core : ClientCore
  proc : Proc
  /-- The bytes handed to the connection. -/
  wire : Bytes
  /-- How many bytes have been read from the connection. -/
  rx : Nat
  /-- History: the messages read completely. -/
  framesRead : Nat
  /-- History: the requests whose whole frame was handed to the connection. -/
  sent : List (Nat × Request)
  /-- History: the requests whose transfer failed. -/
  failed : List Nat
  /-- History: the requests that `send` did not transfer because the budget was spent. -/
  skipped : List Nat

namespace NetData

abbrev obj (d : NetData) : Client := d.core.obj

def setObj (d : NetData) (c : Client) : NetData := { d with core := { d.core with obj := c } }

end NetData

/-! ## Sender threads -/

/-- The place of a thread in the loop `send`. -/
inductive SenderPc where
  | top
  | start (pc : StartPc)
  | sendEntry (p : Nat)
  | lockSend (p : Nat)
  | sendLocked (p : Nat)
  /-- In `sendfull` of a request, with the bytes that are left. -/
  | sending (p : Nat) (req : Request) (rest : Bytes)
  | afterSend (ok : Bool)
  | unlockSend (ok : Bool)
  /-- Left the loop because the budget was spent. -/
  | exited
  /-- Left the loop because `send` failed. -/
  | stopped
  deriving DecidableEq, Repr

/-- The bytes `send` transfers: the first `len` of the object. -/
def Request.frame (r : Request) : Bytes := r.image.take (requestLen r).toNat

/-- One step of a sender. -/
def senderStep (cfg : Config) (nthreads : Nat) (d : NetData) :
    SenderPc → Input → Option (NetData × SenderPc × LockOp Mutex)
  | .top, .tau =>
      some (d, if d.obj.numReqsSent ≥ cfg.budget then .exited else .start .enter, .keep)
  | .start pc, inp =>
      match startReqStep cfg nthreads d.core pc inp with
      | none => none
      | some (.goes core pc op) => some ({ d with core := core }, .start pc, op)
      | some (.returns core p) => some ({ d with core := core }, .sendEntry p, .keep)
      | some (.faults f) => some ({ d with proc := .aborted f }, .start pc, .keep)
  | .sendEntry p, .clock ns =>
      match d.obj.heap p with
      | none => some ({ d with proc := .aborted .badPointer }, .sendEntry p, .keep)
      | some _ =>
          some (d.setObj (d.obj.modifyReq p fun r => { r with sentNs := ns }), .lockSend p,
            .keep)
  | .lockSend p, .tau => some (d, .sendLocked p, .acquire .sendLock)
  | .sendLocked p, .clock ns =>
      match d.obj.heap p with
      | none => some ({ d with proc := .aborted .badPointer }, .sendLocked p, .keep)
      | some req =>
          let req := { req with sentNs_lock_ad := ns }
          let d' := d.setObj (d.obj.modifyReq p fun r => { r with sentNs_lock_ad := ns })
          -- at the budget nothing is sent, and `send` returns true all the same
          if d.obj.numReqsSent ≠ cfg.budget then some (d', .sending p req req.frame, .keep)
          else some ({ d' with skipped := d.skipped ++ [p] }, .unlockSend true, .keep)
  | .sending p req rest, .wrote k =>
      if 1 ≤ k ∧ k ≤ rest.length then
        let d' := { d with wire := d.wire ++ rest.take k }
        if k = rest.length then
          some ({ d' with sent := d.sent ++ [(p, req)] }, .afterSend true, .keep)
        else some (d', .sending p req (rest.drop k), .keep)
      else none
  | .sending p _ _, .sendError =>
      some ({ d with failed := d.failed ++ [p] }, .afterSend false, .keep)
  -- counted whether `sendfull` got through or not
  | .afterSend ok, .tau =>
      some (d.setObj
        { d.obj with
          numReqsSent := d.obj.numReqsSent + 1
          sent_requests := d.obj.sent_requests + 1 }, .unlockSend ok, .keep)
  | .unlockSend ok, .tau => some (d, if ok then .top else .stopped, .release .sendLock)
  | _, _ => none

/-! ## Receiver threads -/

/-- The place of a thread in the loop `recv`. -/
inductive ReceiverPc where
  | top
  | recvLocked
  /-- In the `recvfull` of the header, with the bytes stored. -/
  | header (s1 : UInt64) (got : Bytes)
  /-- In the `recvfull` of the data. -/
  | payload (s1 : UInt64) (head got : Bytes)
  | received (s1 : UInt64) (resp : Response)
  | unlockRecv (resp : Response)
  | dispatch (resp : Response)
  | lockFini (resp : Response)
  | fini (resp : Response)
  /-- After `dumpStats`, before `exit_group`. -/
  | exiting
  /-- Left the loop because `recv` returned false. -/
  | recvFailed
  /-- Left the loop because of the type of a response. -/
  | unknownType
  deriving DecidableEq, Repr

/-- After the last byte of the data: `recv` returns false unless there are `len` of them. -/
def recvDone (d : NetData) (s1 : UInt64) (head got : Bytes) :
    NetData × ReceiverPc × LockOp Mutex :=
  let resp := Response.ofHeader head
  if UInt64.ofNat got.length ≠ resp.len then (d, .recvFailed, .keep)
  else ({ d with framesRead := d.framesRead + 1 }, .received s1 { resp with data := got }, .keep)

/-- After the last byte of the header. -/
def recvHeadDone (d : NetData) (s1 : UInt64) (head : Bytes) :
    NetData × ReceiverPc × LockOp Mutex :=
  let resp := Response.ofHeader head
  if resp.type = ResponseType.RESPONSE.code then
    if (cInt resp.len.toNat).toNat = 0 then recvDone d s1 head []
    else (d, .payload s1 head [], .keep)
  else ({ d with framesRead := d.framesRead + 1 }, .received s1 resp, .keep)

/-- One step inside `NetworkedClient::recv`. -/
def recvStep (d : NetData) :
    ReceiverPc → Input → Option (NetData × ReceiverPc × LockOp Mutex)
  | .top, .tau => some (d, .recvLocked, .acquire .recvLock)
  | .recvLocked, .clock ns => some (d, .header ns [], .keep)
  | .header s1 got, .got bs =>
      if 1 ≤ bs.length ∧ got.length + bs.length ≤ responseHeaderLen then
        let d' := { d with rx := d.rx + bs.length }
        if got.length + bs.length = responseHeaderLen then some (recvHeadDone d' s1 (got ++ bs))
        else some (d', .header s1 (got ++ bs), .keep)
      else none
  -- a failed `recv` returns without releasing `recvLock`
  | .header _ _, .eof => some (d, .recvFailed, .keep)
  | .header _ _, .recvError => some (d, .recvFailed, .keep)
  | .payload s1 head got, .got bs =>
      let len := (cInt (Response.ofHeader head).len.toNat).toNat
      if 1 ≤ bs.length ∧ got.length + bs.length ≤ len then
        let d' := { d with rx := d.rx + bs.length }
        if got.length + bs.length = len then some (recvDone d' s1 head (got ++ bs))
        else some (d', .payload s1 head (got ++ bs), .keep)
      else none
  | .payload _ _ _, .eof => some (d, .recvFailed, .keep)
  | .payload _ _ _, .recvError => some (d, .recvFailed, .keep)
  | .received s1 resp, .clock ns => some (d, .unlockRecv { resp with recvNs := ns - s1 }, .keep)
  | .unlockRecv resp, .tau => some (d, .dispatch resp, .release .recvLock)
  | _, _ => none

/-- One step of a receiver. -/
def receiverStep (cfg : Config) (d : NetData) :
    ReceiverPc → Input → Option (NetData × ReceiverPc × LockOp Mutex)
  | .dispatch resp, .tau =>
      some (d, if resp.type = ResponseType.RESPONSE.code then .lockFini resp else .unknownType,
        .keep)
  | .lockFini resp, .tau => some (d, .fini resp, .acquire .lock)
  | .fini resp, .fini curNs laterNs =>
      match d.obj.finiReq cfg curNs laterNs resp with
      -- an assertion fails with `lock` held, which nobody can observe any more
      | .fault f => some ({ d with proc := .aborted f }, .fini resp, .keep)
      | .returns c => some (d.setObj c, .top, .release .lock)
      | .exits c => some (d.setObj c, .exiting, .release .lock)
  | .exiting, .tau => some ({ d with proc := .exited }, .exiting, .keep)
  | pc, inp => recvStep d pc inp

/-! ## The process -/

/-- The threads of the process. -/
inductive Tid (nS nR : Nat) where
  | sender (i : Fin nS)
  | receiver (j : Fin nR)
  deriving DecidableEq, Repr

structure NetClient (nS nR : Nat) where
  data : NetData
  locks : Mutex → Option (Tid nS nR)
  senders : Fin nS → SenderPc
  receivers : Fin nR → ReceiverPc

/-- A thread takes a step. -/
structure ClientAction (nS nR : Nat) where
  tid : Tid nS nR
  inp : Input
  deriving DecidableEq, Repr

namespace NetClient

variable {nS nR : Nat}

/-- The process after `main` has created its threads. -/
def start (cfg : Config) : NetClient nS nR where
  data :=
    { core := ⟨Client.new cfg, {}⟩
      proc := .running
      wire := []
      rx := 0
      framesRead := 0
      sent := []
      failed := []
      skipped := [] }
  locks := fun _ => none
  senders := fun _ => .top
  receivers := fun _ => .top

/-- One step of one thread, while the process runs. -/
def next (cfg : Config) (a : ClientAction nS nR) (s : NetClient nS nR) :
    Option (NetClient nS nR) :=
  if s.data.proc ≠ .running then none
  else
    match a.tid with
    | .sender i =>
        match senderStep cfg nS s.data (s.senders i) a.inp with
        | none => none
        | some (d, pc, op) =>
            (op.apply (.sender i) s.locks).map fun locks =>
              { s with data := d, locks := locks, senders := Function.update s.senders i pc }
    | .receiver j =>
        match receiverStep cfg s.data (s.receivers j) a.inp with
        | none => none
        | some (d, pc, op) =>
            (op.apply (.receiver j) s.locks).map fun locks =>
              { s with data := d, locks := locks, receivers := Function.update s.receivers j pc }

/-! ### Two whole passages

The actions with which a thread that never has to wait passes once through its loop, one
reading of the clock after the other from `t` on. -/

/-- One passage of sender `i`; the `first` one also passes the two barriers of `startReq`. -/
def sendOne (i : Fin nS) (first : Bool) (t : UInt64) (data : Payload MAX_REQ_BYTES) :
    List (ClientAction nS nR) :=
  let inps : List Input :=
    [.tau, .clock t, .tau] ++ (if first then [.tau, .tau, .clock (t + 1), .tau] else []) ++
    [.tau, .tau, .gen (t + 2) data, .clock (t + 3), .clock (t + 4), .clock (t + 5), .tau,
     .clock (t + 6), .wrote (requestHeaderLen + data.1.length), .tau, .tau]
  inps.map fun inp => ⟨.sender i, inp⟩

/-- One passage of receiver `j`, for a frame that arrives at once. -/
def recvOne (j : Fin nR) (t : UInt64) (resp : Response) : List (ClientAction nS nR) :=
  let inps : List Input :=
    [.tau, .clock t, .got resp.header] ++ (if resp.data = [] then [] else [.got resp.data]) ++
    [.clock (t + 1), .tau, .tau, .tau, .fini (t + 2) (t + 3)]
  inps.map fun inp => ⟨.receiver j, inp⟩

end NetClient

/-- A client with one request to warm up and one to measure. -/
def smallConfig : Config where
  rng := ⟨fun _ _ => 0, fun _ _ => 0⟩
  warmupreqs := 1
  maxreqs := 1

end TailBench
