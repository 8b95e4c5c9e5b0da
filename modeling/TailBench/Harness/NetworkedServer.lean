import TailBench.Harness.StartReq
import TailBench.Harness.Framing
import TailBench.Lib.Machine

set_option autoImplicit false

/-! # The networked server process

`NetworkedServer` (`harness/server.h`, `harness/tbench_server_networked.cpp`). `n` worker
threads alternate `recvReq` and `sendResp`; one more thread may call `finish` at any time.
`recvReq` runs under `recvLock` from its first line to its last, `sendResp` and `finish` under
`sendLock`, one system call a step.

The connections belong to the state, seen from the server: the bytes that have arrived and
how many of them were read, whether the stream has ended (`recv` returns `0` or `-1` only
then), and the bytes handed to the connection. A connection is named by the descriptor that
`accept` will return for it, which is not the name of an open one. `removeClient` does not
close the descriptor, so it stays open.

`select` returns some of the descriptors that are ready. `finish` reads `clientFds` without
`recvLock`; it is modelled as reading it at once.
-/

namespace TailBench

open Lib

/-- A file descriptor. -/
abbrev Fd := Nat

/-! ## Connections -/

structure Conn where
  /-- The bytes that have arrived. -/
  inp : Bytes := []
  /-- How many of them have been read. -/
  rx : Nat := 0
  /-- The peer has closed or reset the connection. -/
  ended : Bool := false
  /-- The bytes handed to the connection. -/
  out : Bytes := []
  /-- A `send` on it has failed. -/
  failed : Bool := false
  deriving DecidableEq, Repr

namespace Conn

def unread (c : Conn) : Bytes := c.inp.drop c.rx

/-- `recv` would not block. -/
def readable (c : Conn) : Bool := c.unread ≠ [] ∨ c.ended = true

end Conn

/-! ## The data of the process -/

/-- Whether the process still runs. -/
inductive ServerProc where
  | running
  /-- `exit(-1)` after a failed `select`. -/
  | exitedSelect
  /-- `exit(-1)` in `checkRecv`. -/
  | exitedRecv
  /-- `assert(curNs > reqInfo[id].startNs)` in `sendResp` failed. -/
  | abortedStartNs
  /-- `assert(sent == len)` in `finish` failed. -/
  | abortedFinish
  /-- Killed by `SIGPIPE`. -/
  | killed
  /-- A header announced more data than `reqbuf` has room for: undefined behaviour. -/
  | overrun
  deriving DecidableEq, Repr

/-- What happened, in order. -/
inductive ServerEvent (n : Nat) where
  /-- `recvReq` of thread `i` returns the request whose bytes were read from `fd`. -/
  | delivered (i : Fin n) (fd : Fd) (raw : Bytes)
  /-- `sendResp` of thread `i` starts to send a response to `fd`. -/
  | responded (i : Fin n) (fd : Fd) (resp : Response)
  /-- `finish` starts to send its response to `fd`. -/
  | finish (fd : Fd)
  deriving DecidableEq, Repr

structure ServerData (n : Nat) where
  clientFds : List Fd
  recvClientHead : Nat
  reqbuf : Fin n → Request
  reqInfo : Fin n → ReqInfo
  activeFds : Fin n → Fd
  finishedReqs : UInt64
  proc : ServerProc
  conns : Fd → Option Conn
  /-- The connections that wait for `accept`. -/
  backlog : List Fd
  log : List (ServerEvent n)

/-- The request a run of bytes holds: a header and the data behind it. -/
def requestOf (raw : Bytes) : Request :=
  { Request.ofHeader (raw.take requestHeaderLen) with data := raw.drop requestHeaderLen }

/-- The bytes `sendResp` transfers: the first `totalLen` of the object. -/
def Response.frame (r : Response) : Bytes := r.image.take (responseLen r).toNat

namespace ServerData

variable {n : Nat}

def modifyConn (d : ServerData n) (fd : Fd) (f : Conn → Conn) : ServerData n :=
  { d with conns := Function.update d.conns fd ((d.conns fd).map f) }

/-- A descriptor is ready for `select`. -/
def ready (listenFd : Fd) (d : ServerData n) (fd : Fd) : Bool :=
  if fd = listenFd then d.backlog ≠ [] else (d.conns fd).any Conn.readable

/-- A result of `select` on the descriptors `watch`. -/
def selects (listenFd : Fd) (d : ServerData n) (watch rs : List Fd) : Bool :=
  rs ≠ [] ∧ ∀ fd ∈ rs, fd ∈ watch ∧ d.ready listenFd fd = true

/-- The next client of the round that is ready. -/
def nextClient (fds : List Fd) (head : Nat) (rs : List Fd) : Option Fd :=
  ((List.range fds.length).map fun i => fds.getD ((head + i) % fds.length) 0).find? (· ∈ rs)

/-- The end of the first part of the loop: choose a client, move the head of the round. -/
def scan (d : ServerData n) (rs : List Fd) : ServerData n × Option Fd :=
  ({ d with recvClientHead := (d.recvClientHead + 1) % d.clientFds.length },
    nextClient d.clientFds d.recvClientHead rs)

/-- `accept`, with the connection added to `clientFds`. -/
def accept (d : ServerData n) : Option (ServerData n) :=
  match d.backlog with
  | [] => none
  | fd :: rest => some { d with backlog := rest, clientFds := d.clientFds ++ [fd] }

/-- `accept`, with `setsockopt` failing: the descriptor is closed again. -/
def acceptClose (d : ServerData n) : Option (ServerData n) :=
  match d.backlog with
  | [] => none
  | fd :: rest => some { d with backlog := rest, conns := Function.update d.conns fd none }

/-- `removeClient`. -/
def removeClient (d : ServerData n) (fd : Fd) : ServerData n :=
  { d with clientFds := d.clientFds.erase fd }

/-- `recv` returns the next `k` bytes of a connection, when it has asked for `max`. -/
def recv (d : ServerData n) (fd : Fd) (max k : Nat) : Option (Bytes × ServerData n) :=
  (d.conns fd).bind fun c =>
    if 1 ≤ k ∧ k ≤ max ∧ k ≤ c.unread.length then
      some (c.unread.take k, d.modifyConn fd fun c => { c with rx := c.rx + k })
    else none

/-- `recv` may return `0`. -/
def atEof (d : ServerData n) (fd : Fd) : Bool :=
  (d.conns fd).any fun c => c.ended = true ∧ c.unread = []

/-- `recv` may return `-1`. -/
def mayFail (d : ServerData n) (fd : Fd) : Bool := (d.conns fd).any fun c => c.ended

end ServerData

/-! ## Worker threads -/

/-- The place of a worker. -/
inductive ServerPc where
  /-- Before `recvReq`. -/
  | recv
  /-- At the head of the loop of `recvReq`. -/
  | loop
  /-- In `checkNewClient`, with no client yet. -/
  | acceptFirst
  /-- In `checkNewClient`, with the result of `select`. -/
  | acceptMore (rs : List Fd)
  /-- At the `select` after a new client. -/
  | reselect
  /-- In the `recvfull` of the header, with the bytes stored. -/
  | header (fd : Fd) (got : Bytes)
  /-- In the `recvfull` of the data. -/
  | payload (fd : Fd) (head got : Bytes)
  | stamp (fd : Fd) (raw : Bytes)
  | unlockRecv
  /-- Between `recvReq` and `sendResp`. -/
  | serving
  | sendLocked
  /-- In `sendfull`, with the bytes that are left. -/
  | sending (fd : Fd) (rest : Bytes)
  | afterSend
  deriving DecidableEq, Repr

/-- What a step of the server takes from outside. -/
inductive ServerInput where
  | tau
  | clock (ns : UInt64)
  | ready (rs : List Fd)
  | selectError
  | accepted
  | acceptFailed
  | sockoptFailed
  | got (k : Nat)
  | eof
  | recvError
  /-- What the application answers, and the clock reading of `sendResp`. -/
  | respond (ns : UInt64) (data : Payload MAX_RESP_BYTES)
  | wrote (k : Nat)
  | sendError
  | sigpipe
  deriving DecidableEq, Repr

/-- The result of a step: the data, the place, and what happens to the mutexes. -/
abbrev ServerStep (n : Nat) := ServerData n × ServerPc × LockOp Mutex

namespace ServerData

variable {n : Nat}

/-- From the result of `select` to the header of a request, or back to the loop. -/
def scanStep (d : ServerData n) (rs : List Fd) : ServerStep n :=
  match d.scan rs with
  | (d, none) => (d, .loop, .keep)
  | (d, some fd) => (d, .header fd [], .keep)

/-- `checkRecv` after a `recvfull` that stored `recvd` of `expected` bytes and was called at
`pc`. -/
def checkStep (d : ServerData n) (fd : Fd) (recvd expected : Int) (pc : ServerPc) :
    ServerStep n :=
  match checkRecv recvd expected with
  | .removed => (d.removeClient fd, .loop, .keep)
  | .exit => ({ d with proc := .exitedRecv }, pc, .keep)
  | .success => (d, pc, .keep)

/-- The header is complete: `recvfull` is called with the length it holds. -/
def headDone (d : ServerData n) (fd : Fd) (head : Bytes) : ServerStep n :=
  let len := cInt (Request.ofHeader head).len.toNat
  if len ≤ 0 then d.checkStep fd 0 len (.payload fd head [])
  else if MAX_REQ_BYTES < len.toNat then
    ({ d with proc := .overrun }, .payload fd head [], .keep)
  else (d, .payload fd head [], .keep)

/-- The data is complete. -/
def dataDone (d : ServerData n) (i : Fin n) (fd : Fd) (head got : Bytes) : ServerStep n :=
  ({ d with reqbuf := Function.update d.reqbuf i (requestOf (head ++ got)) },
    .stamp fd (head ++ got), .keep)

end ServerData

/-- One step of worker `i`. -/
def serverStep {n : Nat} (listenFd : Fd) (i : Fin n) (d : ServerData n) :
    ServerPc → ServerInput → Option (ServerStep n)
  | .recv, .tau => some (d, .loop, .acquire .recvLock)
  | .loop, .ready rs =>
      -- with no client, `select` waits for the listening socket alone
      if d.clientFds = [] then
        if d.selects listenFd [listenFd] rs then some (d, .acceptFirst, .keep) else none
      else if d.selects listenFd (listenFd :: d.clientFds) rs then
        some (if listenFd ∈ rs then (d, .acceptMore rs, .keep) else d.scanStep rs)
      else none
  | .loop, .selectError => some ({ d with proc := .exitedSelect }, .loop, .keep)
  | .acceptFirst, .accepted => d.accept.map fun d => ({ d with recvClientHead := 0 }, .loop, .keep)
  | .acceptFirst, .acceptFailed => some (d, .loop, .keep)
  | .acceptFirst, .sockoptFailed => d.acceptClose.map fun d => (d, .loop, .keep)
  -- after a new client the result of the first `select` is thrown away
  | .acceptMore _, .accepted => d.accept.map fun d => (d, .reselect, .keep)
  | .acceptMore rs, .acceptFailed => some (d.scanStep rs)
  | .acceptMore rs, .sockoptFailed => d.acceptClose.map fun d => d.scanStep rs
  -- the second `select` does not watch the listening socket
  | .reselect, .ready rs =>
      if d.selects listenFd d.clientFds rs then some (d.scanStep rs) else none
  | .reselect, .selectError => some ({ d with proc := .exitedSelect }, .reselect, .keep)
  | .header fd got, .got k =>
      (d.recv fd (requestHeaderLen - got.length) k).map fun (bs, d) =>
        if got.length + k = requestHeaderLen then d.headDone fd (got ++ bs)
        else (d, .header fd (got ++ bs), .keep)
  -- `checkRecv` sees what `recvfull` has stored, whether `recv` returned `0` or `-1`
  | .header fd got, .eof =>
      if d.atEof fd then some (d.checkStep fd got.length requestHeaderLen (.header fd got))
      else none
  | .header fd got, .recvError =>
      if d.mayFail fd then some (d.checkStep fd got.length requestHeaderLen (.header fd got))
      else none
  | .payload fd head got, .got k =>
      let len := (cInt (Request.ofHeader head).len.toNat).toNat
      (d.recv fd (len - got.length) k).map fun (bs, d) =>
        if got.length + k = len then d.dataDone i fd head (got ++ bs)
        else (d, .payload fd head (got ++ bs), .keep)
  | .payload fd head got, .eof =>
      if d.atEof fd then
        some (d.checkStep fd got.length (cInt (Request.ofHeader head).len.toNat)
          (.payload fd head got))
      else none
  | .payload fd head got, .recvError =>
      if d.mayFail fd then
        some (d.checkStep fd got.length (cInt (Request.ofHeader head).len.toNat)
          (.payload fd head got))
      else none
  | .stamp fd raw, .clock ns =>
      some
        ({ d with
           reqInfo := Function.update d.reqInfo i ⟨(d.reqbuf i).id, ns⟩
           activeFds := Function.update d.activeFds i fd
           log := d.log ++ [.delivered i fd raw] }, .unlockRecv, .keep)
  | .unlockRecv, .tau => some (d, .serving, .release .recvLock)
  | .serving, .tau => some (d, .sendLocked, .acquire .sendLock)
  | .sendLocked, .respond ns data =>
      -- `assert(curNs > reqInfo[id].startNs)`
      if ns > (d.reqInfo i).startNs then
        let resp := mkResponse (d.reqInfo i).id (ns - (d.reqInfo i).startNs) data
        some ({ d with log := d.log ++ [.responded i (d.activeFds i) resp] },
          .sending (d.activeFds i) resp.frame, .keep)
      else some ({ d with proc := .abortedStartNs }, .sendLocked, .keep)
  | .sending fd rest, .wrote k =>
      if 1 ≤ k ∧ k ≤ rest.length then
        some (d.modifyConn fd fun c => { c with out := c.out ++ rest.take k },
          if k = rest.length then .afterSend else .sending fd (rest.drop k), .keep)
      else none
  -- nobody looks at what `sendfull` returned: the response counts as sent
  | .sending fd _, .sendError =>
      some (d.modifyConn fd fun c => { c with failed := true }, .afterSend, .keep)
  | .sending fd rest, .sigpipe => some ({ d with proc := .killed }, .sending fd rest, .keep)
  | .afterSend, .tau =>
      some ({ d with finishedReqs := d.finishedReqs + 1 }, .recv, .release .sendLock)
  | _, _ => none

/-! ## `finish` -/

/-- The place of the thread that calls `finish`. -/
inductive FinishPc where
  | idle
  | locked
  /-- In the loop, with the clients that are left. -/
  | clients (todo : List Fd)
  | sending (fd : Fd) (rest : Bytes) (todo : List Fd)
  deriving DecidableEq, Repr

/-- One step of `finish`. -/
def finishStep {n : Nat} (d : ServerData n) :
    FinishPc → ServerInput → Option (ServerData n × FinishPc × LockOp Mutex)
  | .idle, .tau => some (d, .locked, .acquire .sendLock)
  | .locked, .tau => some (d, .clients d.clientFds, .keep)
  | .clients [], .tau => some (d, .idle, .release .sendLock)
  | .clients (fd :: todo), .tau =>
      some ({ d with log := d.log ++ [.finish fd] }, .sending fd finishFrame.frame todo, .keep)
  | .sending fd rest todo, .wrote k =>
      if 1 ≤ k ∧ k ≤ rest.length then
        some (d.modifyConn fd fun c => { c with out := c.out ++ rest.take k },
          if k = rest.length then .clients todo else .sending fd (rest.drop k) todo, .keep)
      else none
  -- here the number of bytes is asserted
  | .sending fd rest todo, .sendError =>
      some ({ d.modifyConn fd fun c => { c with failed := true } with proc := .abortedFinish },
        .sending fd rest todo, .keep)
  | .sending fd rest todo, .sigpipe =>
      some ({ d with proc := .killed }, .sending fd rest todo, .keep)
  | _, _ => none

/-! ## The process -/

/-- The threads of the process. -/
inductive ServerTid (n : Nat) where
  | worker (i : Fin n)
  | finisher
  deriving DecidableEq, Repr

structure NetServer (n : Nat) where
  data : ServerData n
  locks : Mutex → Option (ServerTid n)
  workers : Fin n → ServerPc
  finisher : FinishPc

inductive ServerAction (n : Nat) where
  | worker (i : Fin n) (inp : ServerInput)
  | finisher (inp : ServerInput)
  /-- A client connects; `accept` will return `fd` for it. -/
  | connect (fd : Fd)
  /-- Bytes arrive. -/
  | arrive (fd : Fd) (bs : Bytes)
  /-- A client closes or resets its connection. -/
  | hangup (fd : Fd)
  deriving DecidableEq, Repr

/-- The action of a thread of the server. -/
def ServerTid.action {n : Nat} (t : ServerTid n) (inp : ServerInput) : ServerAction n :=
  match t with
  | .worker i => .worker i inp
  | .finisher => .finisher inp

namespace NetServer

variable {n : Nat}

/-- The process after the constructor. -/
def start : NetServer n where
  data :=
    { clientFds := []
      recvClientHead := 0
      reqbuf := fun _ => {}
      reqInfo := fun _ => {}
      activeFds := fun _ => 0
      finishedReqs := 0
      proc := .running
      conns := fun _ => none
      backlog := []
      log := [] }
  locks := fun _ => none
  workers := fun _ => .recv
  finisher := .idle

/-- One step of a thread or of the network, while the process runs. -/
def next (listenFd : Fd) (a : ServerAction n) (s : NetServer n) : Option (NetServer n) :=
  if s.data.proc ≠ .running then none
  else
    match a with
    | .worker i inp =>
        match serverStep listenFd i s.data (s.workers i) inp with
        | none => none
        | some (d, pc, op) =>
            (op.apply (.worker i) s.locks).map fun locks =>
              { s with data := d, locks := locks, workers := Function.update s.workers i pc }
    | .finisher inp =>
        match finishStep s.data s.finisher inp with
        | none => none
        | some (d, pc, op) =>
            (op.apply .finisher s.locks).map fun locks =>
              { s with data := d, locks := locks, finisher := pc }
    | .connect fd =>
        if fd ≠ listenFd ∧ s.data.conns fd = none then
          some { s with
            data := { s.data with
              conns := Function.update s.data.conns fd (some {})
              backlog := s.data.backlog ++ [fd] } }
        else none
    | .arrive fd bs =>
        if (s.data.conns fd).any (fun c => c.ended = false) then
          some { s with data := s.data.modifyConn fd fun c => { c with inp := c.inp ++ bs } }
        else none
    | .hangup fd =>
        some { s with data := s.data.modifyConn fd fun c => { c with ended := true } }

end NetServer

/-- The networked server with `n` worker threads. -/
def netServer (listenFd : Fd) (n : Nat) : Machine (NetServer n) (ServerAction n) where
  init := fun s => s = NetServer.start
  next := NetServer.next listenFd

end TailBench
