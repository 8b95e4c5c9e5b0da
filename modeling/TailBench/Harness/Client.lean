import TailBench.Harness.Helpers
import TailBench.Harness.Dist
import Mathlib.Logic.Function.Basic
import Mathlib.Algebra.Order.Floor.Div
import Mathlib.Data.Rat.Floor

set_option autoImplicit false

/-! # The client object

The state of class `Client` (`harness/client.h`) and the pieces of its methods that run
under `lock` (`harness/client.cpp`). The threads that call them are in `StartReq.lean`,
`NetworkedClient.lean` and `IntegratedServer.lean`.

`Request` objects are shared by pointer between the thread that started a request, the
table `inFlightReqs` and `finiReq`. A pointer is a number, given out in order of
allocation; `heap` maps it to the object until `delete`.

Rates (`double` in the source) are exact rationals.
-/

namespace TailBench

open Lib

inductive ClientStatus where
  | INIT
  | WARMUP
  | ROI
  | FINISHED
  deriving DecidableEq, Repr

/-- The environment variables and arguments the constructor reads. -/
structure Config where
  rng : Rng
  client_id : Int := 0
  warmupreqs : UInt64
  maxreqs : UInt64
  minSleepNs : UInt64 := 0
  randSeed : Int := 0
  qps : ℚ := 1000
  qpsVar : Int := 0
  iniQPS : ℚ := 1000
  intervalQPS : Int := 0
  stepQPS : ℚ := 1000
  qps1 : ℚ := 1000
  qps2 : ℚ := 1000
  qps3 : ℚ := 1000
  qps4 : ℚ := 1000
  /-- What the constructor leaves in `qpsCounter`, which it does not set. -/
  qpsCounter : Int := 0

namespace Config

def seed (cfg : Config) : UInt64 := UInt64.ofInt (cfg.randSeed + cfg.client_id)

def lambda (cfg : Config) : ℚ := cfg.qps / 1000000000

def qpsStep (cfg : Config) : ℚ := cfg.stepQPS / 1000000000

/-- The rates of the second kind of schedule. -/
def listQPS (cfg : Config) : List ℚ :=
  [cfg.iniQPS, cfg.qps1, cfg.qps2, cfg.qps3, cfg.qps4].map (· / 1000000000)

/-- The budget: `warmupreqs + maxreqs`. -/
def budget (cfg : Config) : UInt64 := cfg.warmupreqs + cfg.maxreqs

end Config

/-- One latency sample, as `finiReq` computes it. -/
structure Sample where
  queueTime : UInt64
  svcTime : UInt64
  sjrnTime : UInt64
  requestDate : UInt64
  nicSjrnTime : UInt64
  deriving DecidableEq, Repr

/-- A response that `finiReq` has processed. -/
structure Completion where
  req : Request
  resp : Response
  curNs : UInt64
  /-- The phase it was processed in. -/
  status : ClientStatus
  sample : Sample
  deriving DecidableEq, Repr

/-- What one run of `dumpStats` writes and prints. -/
structure Dump where
  file : String
  records : List Sample
  gen_requests : UInt64
  timely_gen_requests : UInt64
  sent_requests : UInt64
  roi_start_ns : UInt64
  fiNs : UInt64
  deriving DecidableEq, Repr

structure Client where
  status : ClientStatus
  numReqsSent : UInt64
  numReqsCompleted : UInt64
  qpsIni : ℚ
  qpsInterval : Int
  qpsCounter : Int
  idxListQPS : Nat
  dist : Option ExpDist
  startedReqs : UInt64
  /-- The objects that are alive, by pointer. -/
  heap : Nat → Option Request
  /-- The pointers given out so far. -/
  allocated : Nat
  inFlightReqs : UInt64 → Option Nat
  svcTimes : List UInt64
  queueTimes : List UInt64
  sjrnTimes : List UInt64
  requestDate : List UInt64
  nicSjrnTimes : List UInt64
  gen_requests : UInt64
  timely_gen_requests : UInt64
  sent_requests : UInt64
  gen_req_ns : UInt64
  total_sleep_ns : UInt64
  roi_start_ns : UInt64
  /-- History: every response `finiReq` processed, in order. -/
  completed : List Completion
  /-- History: every run of `dumpStats`. -/
  dumps : List Dump

/-- The constructor. -/
def Client.new (cfg : Config) : Client where
  status := .INIT
  numReqsSent := 0
  numReqsCompleted := 0
  qpsIni := cfg.iniQPS / 1000000000
  qpsInterval := cfg.intervalQPS
  qpsCounter := cfg.qpsCounter
  idxListQPS := 1
  dist := none
  startedReqs := 0
  heap := fun _ => none
  allocated := 0
  inFlightReqs := fun _ => none
  svcTimes := []
  queueTimes := []
  sjrnTimes := []
  requestDate := []
  nicSjrnTimes := []
  gen_requests := 0
  timely_gen_requests := 0
  sent_requests := 0
  gen_req_ns := 0
  total_sleep_ns := 0
  roi_start_ns := 0
  completed := []
  dumps := []

/-- The assertions of the client, and the errors in their place. -/
inductive ClientFault where
  /-- `assert(it != inFlightReqs.end())` in `finiReq`. -/
  | lookup
  /-- `assert(curNs > req->genNs)` in `finiReq`. -/
  | genNs
  /-- `assert(status == WARMUP)` in `_startRoi`. -/
  | startRoi
  /-- `dist` is null, or an object is used after `delete`. -/
  | badPointer
  /-- `assert(curNs > reqInfo[id].startNs)` in `IntegratedServer::sendResp`. -/
  | startNs
  deriving DecidableEq, Repr

namespace Client

/-- Change a live object. -/
def modifyReq (c : Client) (p : Nat) (f : Request → Request) : Client :=
  { c with heap := Function.update c.heap p ((c.heap p).map f) }

/-! ## `startReq` -/

/-- The first critical section: the first thread creates the distribution and ends `INIT`.
The flag says that the barrier is destroyed and initialised again. -/
def startReqInit (cfg : Config) (curNs : UInt64) (c : Client) : Client × Bool :=
  match c.dist with
  | some _ => (c, false)
  | none =>
      let rate := if cfg.qpsVar = 0 then cfg.lambda else c.qpsIni
      ({ c with dist := some (ExpDist.new rate cfg.seed curNs), status := .WARMUP }, true)

/-- The interval after a change to the rate `newqps`: `int` arithmetic truncates. -/
def nextInterval (qpsIni newqps : ℚ) (interval : Int) : Int :=
  let scaled : ℚ := interval * (newqps / qpsIni)
  let trunc : Int := if 0 ≤ scaled then ⌊scaled⌋ else ⌈scaled⌉
  if newqps < qpsIni then trunc + 1 else trunc

/-- The second critical section, in the region of interest with a variable rate. -/
def startReqRate (cfg : Config) (curNs : UInt64) (c : Client) : Client :=
  if c.qpsCounter = c.qpsInterval then
    let c := { c with qpsCounter := 0 }
    let c :=
      if cfg.qpsVar = 1 then { c with qpsIni := c.qpsIni + cfg.qpsStep }
      else if cfg.qpsVar = 2 then
        -- the rates come round, and the interval is scaled with them
        let newqps := cfg.listQPS.getD (c.idxListQPS % cfg.listQPS.length) 0
        { c with
          qpsInterval := nextInterval c.qpsIni newqps c.qpsInterval
          qpsIni := newqps
          idxListQPS := c.idxListQPS + 1 }
      else c
    -- with any other `qpsVar` at the old rate
    { c with dist := some (ExpDist.new c.qpsIni cfg.seed curNs) }
  else { c with qpsCounter := c.qpsCounter + 1 }

/-- The third critical section up to its last clock reading: a new request with its id, its
arrival time and the data the application generates. Its pointer is `c.allocated`. -/
def startReqGen (cfg : Config) (startNs lockNs : UInt64) (data : Payload MAX_REQ_BYTES)
    (c : Client) : Option Client :=
  match c.dist with
  | none => none
  | some dist =>
      let (genNs, dist) := dist.nextArrivalNs cfg.rng
      let req : Request :=
        { id := c.startedReqs, genNs := genNs, len := UInt64.ofNat data.1.length,
          startNs := startNs, startNs_lock_ad := lockNs, data := data.1 }
      some
        { c with
          dist := some dist
          startedReqs := c.startedReqs + 1
          heap := Function.update c.heap c.allocated (some req)
          allocated := c.allocated + 1
          inFlightReqs := Function.update c.inFlightReqs c.startedReqs (some c.allocated)
          gen_requests := c.gen_requests + 1
          timely_gen_requests :=
            -- the request is due after `startReq` began
            if genNs > startNs then c.timely_gen_requests + 1 else c.timely_gen_requests }

/-- The end of the third critical section. -/
def startReqGenEnd (p : Nat) (lockNs : UInt64) (c : Client) : Option Client :=
  (c.heap p).map fun req =>
    { c.modifyReq p (fun r => { r with startNs_lock_re := lockNs }) with
      gen_req_ns := c.gen_req_ns + (lockNs - req.startNs_lock_ad) }

/-! ## `finiReq` -/

/-- `sjrn`: a late request counts from the start of `startReq`. -/
def sojourn (req : Request) (curNs : UInt64) : UInt64 :=
  if !req.late then curNs - req.genNs else curNs - req.startNs

/-- The branch that prints `WARNING: next assert would have failed`. -/
def warns (req : Request) (resp : Response) (curNs : UInt64) : Bool :=
  resp.svcNs > sojourn req curNs

/-- The sample of a response. -/
def sample (req : Request) (resp : Response) (curNs : UInt64) : Sample where
  queueTime := if warns req resp curNs then 0 else sojourn req curNs - resp.svcNs
  svcTime := resp.svcNs
  sjrnTime := sojourn req curNs
  requestDate := if !req.late then req.genNs else req.startNs
  nicSjrnTime := curNs - req.sentNs_lock_ad

/-- The `SendingTime` that `finiReq` prints in the region of interest. -/
def sendingTime (req : Request) : UInt64 := req.sentNs_lock_re - req.sentNs_lock_ad

/-- The `push_back`s of `finiReq`. -/
def record (x : Sample) (c : Client) : Client :=
  { c with
    requestDate := c.requestDate ++ [x.requestDate]
    queueTimes := c.queueTimes ++ [x.queueTime]
    svcTimes := c.svcTimes ++ [x.svcTime]
    sjrnTimes := c.sjrnTimes ++ [x.sjrnTime]
    nicSjrnTimes := c.nicSjrnTimes ++ [x.nicSjrnTime] }

/-- `_startRoi`; `none` when its assertion fails. -/
def _startRoi (curNs : UInt64) (c : Client) : Option Client :=
  if c.status = .WARMUP then
    some
      { c with
        status := .ROI
        qpsCounter := 0
        requestDate := []
        queueTimes := []
        svcTimes := []
        sjrnTimes := []
        nicSjrnTimes := []
        gen_requests := 0
        timely_gen_requests := 0
        sent_requests := 0
        gen_req_ns := 0
        total_sleep_ns := 0
        roi_start_ns := curNs }
  else none

/-- The loop of `dumpStats`: one record for each index below `(int) sjrnTimes.size()`. -/
def dumpRecords (c : Client) : List Sample :=
  -- the loop variable is an `int`, and so is the bound
  (List.range (cInt c.sjrnTimes.length).toNat).map fun r =>
    { queueTime := c.queueTimes.getD r 0
      svcTime := c.svcTimes.getD r 0
      sjrnTime := c.sjrnTimes.getD r 0
      requestDate := c.requestDate.getD r 0
      nicSjrnTime := c.nicSjrnTimes.getD r 0 }

def dumpStats (cfg : Config) (fiNs : UInt64) (c : Client) : Client :=
  let gen := c.numReqsCompleted - cfg.warmupreqs
  { c with
    gen_requests := gen
    dumps := c.dumps ++
      [{ file := "lats_" ++ toString cfg.client_id ++ ".bin"
         records := c.dumpRecords
         gen_requests := gen
         timely_gen_requests := c.timely_gen_requests
         sent_requests := c.sent_requests
         roi_start_ns := c.roi_start_ns
         fiNs := fiNs }] }

/-- How a call of `finiReq` ends. -/
inductive Fini where
  | fault (f : ClientFault)
  | returns (c : Client)
  /-- It ran `dumpStats` and goes on to `exit_group`. -/
  | exits (c : Client)

/-- The end of `finiReq`: count, switch the phase, dump. `laterNs` is the clock reading of
`_startRoi` or `dumpStats`. -/
def finiCount (cfg : Config) (laterNs : UInt64) (c : Client) : Fini :=
  let c := { c with numReqsCompleted := c.numReqsCompleted + 1 }
  -- without a warm-up this branch is taken each time, and the second time the assertion fails
  if c.numReqsCompleted = cfg.warmupreqs ∨ cfg.warmupreqs = 0 then
    match c._startRoi laterNs with
    | none => .fault .startRoi
    | some c => .returns c
  else if c.numReqsCompleted ≥ cfg.budget then .exits (c.dumpStats cfg laterNs)
  else .returns c

/-- The middle of `finiReq`: measure, record in the region of interest, drop the request. -/
def finiRecord (p : Nat) (req : Request) (resp : Response) (curNs : UInt64) (c : Client) :
    Client :=
  let x := sample req resp curNs
  let c' := if c.status = .ROI then c.record x else c
  { c' with
    heap := Function.update c.heap p none
    inFlightReqs := Function.update c.inFlightReqs resp.id none
    completed := c.completed ++ [⟨req, resp, curNs, c.status, x⟩] }

/-- `finiReq` between taking and releasing `lock`. -/
def finiReq (cfg : Config) (curNs laterNs : UInt64) (resp : Response) (c : Client) : Fini :=
  match c.inFlightReqs resp.id with
  | none => .fault .lookup
  | some p =>
      match c.heap p with
      | none => .fault .badPointer
      | some req =>
          if curNs > req.genNs then
            (c.finiRecord p req resp curNs).finiCount cfg laterNs
          else .fault .genNs

end Client

end TailBench
