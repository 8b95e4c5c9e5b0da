import TailBench.Harness.ClientObjects
import TailBench.Harness.Routing

set_option autoImplicit false

/-! # Who holds a mutex when an operation returns

The operations are `Client::startReq`, `Client::finiReq`, `NetworkedClient::send`,
`NetworkedClient::recv`, `NetworkedServer::recvReq`, `NetworkedServer::sendResp` and
`NetworkedServer::finish`. Every way out of one of them releases the mutexes it took, but
for one: when a transfer of `NetworkedClient::recv` comes up short, it returns false between
`pthread_mutex_lock(&recvLock)` and `pthread_mutex_unlock(&recvLock)`.
-/

namespace TailBench

open Lib

/-! ## Inside and outside of the operations -/

/-- A sender between two operations: its last one has returned. -/
def SenderPc.outside : SenderPc → Prop
  | .top | .sendEntry _ | .exited | .stopped => True
  | _ => False

/-- The mutex a thread in `startReq` waits for. -/
def StartPc.wants : StartPc → Option Mutex
  | .lockInit _ | .lockRate _ | .lockGen _ => some .lock
  | _ => none

def SenderPc.wants : SenderPc → Option Mutex
  | .start pc => pc.wants
  | .lockSend _ => some .sendLock
  | _ => none

/-- A receiver between two operations. -/
def ReceiverPc.outside : ReceiverPc → Prop
  | .top | .dispatch _ | .recvFailed | .unknownType => True
  | _ => False

def ReceiverPc.wants : ReceiverPc → Option Mutex
  | .top => some .recvLock
  | .lockFini _ => some .lock
  | _ => none

/-- A worker between two operations. -/
def ServerPc.outside : ServerPc → Prop
  | .recv | .serving => True
  | _ => False

def ServerPc.wants : ServerPc → Option Mutex
  | .recv => some .recvLock
  | .serving => some .sendLock
  | _ => none

def FinishPc.outside : FinishPc → Prop
  | .idle => True
  | _ => False

def FinishPc.wants : FinishPc → Option Mutex
  | .idle => some .sendLock
  | _ => none

section Process

variable {τ : Type*}

/-- **The discipline.** A thread whose operation has returned holds no mutex, and nobody waits
for a mutex whose holder has returned. -/
structure Disciplined (locks : Mutex → Option τ) (outside : τ → Prop)
    (wants : τ → Option Mutex) : Prop where
  released : ∀ t m, outside t → locks m ≠ some t
  waiting : ∀ t u m, wants t = some m → locks m = some u → ¬ outside u

theorem Disciplined.of_released {locks : Mutex → Option τ} {outside : τ → Prop}
    {wants : τ → Option Mutex} (h : ∀ t m, outside t → locks m ≠ some t) :
    Disciplined locks outside wants :=
  ⟨h, fun _ u m _ hm hu => h u m hu hm⟩

end Process

namespace NetClient

variable {nS nR : Nat}

def outside (s : NetClient nS nR) : Tid nS nR → Prop
  | .sender i => (s.senders i).outside
  | .receiver j => (s.receivers j).outside

def wants (s : NetClient nS nR) : Tid nS nR → Option Mutex
  | .sender i => (s.senders i).wants
  | .receiver j => (s.receivers j).wants

end NetClient

namespace NetServer

variable {n : Nat}

def outside (s : NetServer n) : ServerTid n → Prop
  | .worker i => (s.workers i).outside
  | .finisher => s.finisher.outside

def wants (s : NetServer n) : ServerTid n → Option Mutex
  | .worker i => (s.workers i).wants
  | .finisher => s.finisher.wants

end NetServer

/-! ## The client -/

/-- The transfers of `NetworkedClient::recv` do not come up short in this step: no end of the
stream and no error inside `recvfull`, and a response announces no more bytes than an `int`
can count. -/
def RecvSucceeds {nS nR : Nat} (s : NetClient nS nR) (a : ClientAction nS nR) : Prop :=
  ∀ j, a.tid = .receiver j → a.inp ≠ .eof ∧ a.inp ≠ .recvError ∧
    ∀ bs s1 got, a.inp = .got bs → s.receivers j = .header s1 got →
      got.length + bs.length = responseHeaderLen →
      (Response.ofHeader (got ++ bs)).type = ResponseType.RESPONSE.code →
      (Response.ofHeader (got ++ bs)).len.toNat < 2 ^ 31

/-- No receiver has failed or is about to. -/
def ReceiverPc.Unfailed : ReceiverPc → Prop
  | .payload _ head _ => (Response.ofHeader head).len.toNat < 2 ^ 31
  | .recvFailed => False
  | _ => True

variable {cfg : Config} {nS nR : Nat}

/-- A step of a receiver in which the transfers do not come up short. -/
theorem ReceiverMove.unfailed {d d' : NetData} {pc pc' : ReceiverPc} {inp : Input}
    {op : LockOp Mutex} (h : ReceiverMove cfg d pc inp d' pc' op) (hu : pc.Unfailed)
    (heof : inp ≠ .eof) (herr : inp ≠ .recvError)
    (hlen : ∀ bs s1 got, inp = .got bs → pc = .header s1 got →
      got.length + bs.length = responseHeaderLen →
      (Response.ofHeader (got ++ bs)).type = ResponseType.RESPONSE.code →
      (Response.ofHeader (got ++ bs)).len.toNat < 2 ^ 31) : pc'.Unfailed := by
  cases h with
  | headerData bs hl ht hn => exact hlen _ _ _ rfl rfl hl ht
  | payload bs hl => exact hu
  -- the two ways into `recvFailed`: `recvfull` comes up short, or is asked for a negative number
  | ends hpc hinp => exact absurd hinp (by simp [heof, herr])
  | tooLong bs hpc hhead hbig =>
      cases pc with
      | header s1 got =>
          obtain ⟨hl, ht⟩ := hhead s1 got rfl
          exact absurd (hlen bs s1 got rfl rfl hl ht) (not_lt.mpr hbig)
      | payload s1 head got => exact absurd hu (not_lt.mpr hbig)
      | _ => exact hpc.elim
  | fault curNs laterNs hf => exact hu
  | _ => trivial

theorem netClient_unfailed {s : NetClient nS nR}
    (h : (netClient cfg nS nR).ReachableBy RecvSucceeds s) (j : Fin nR) :
    (s.receivers j).Unfailed := by
  revert j
  refine Machine.ReachableBy.invariant (P := fun s : NetClient nS nR =>
    ∀ j, (s.receivers j).Unfailed) ?_ ?_ h
  · rintro s rfl j
    trivial
  · intro s a s' _ hs hok hn j
    obtain ⟨-, ⟨i, d, pc, op, locks, -, -, -, rfl⟩ |
      ⟨k, d, pc, op, locks, htid, hstep, -, rfl⟩⟩ := NetClient.next_cases hn
    · exact hs j
    · by_cases hj : j = k
      · subst hj
        obtain ⟨heof, herr, hlen⟩ := hok j htid
        show (Function.update s.receivers j pc j).Unfailed
        rw [Function.update_self]
        exact (receiverStep_move hstep).unfailed (hs j) heof herr hlen
      · show (Function.update s.receivers k pc j).Unfailed
        rw [Function.update_of_ne hj]
        exact hs j

/-- A sender outside of its operations holds nothing. -/
theorem SenderPc.outside.holds {pc : SenderPc} (h : pc.outside) (m : Mutex) : ¬ pc.holds m := by
  cases pc with
  | top | sendEntry p | exited | stopped => exact id
  | _ => exact h.elim

/-- A receiver that has not failed holds nothing outside of its operations. -/
theorem ReceiverPc.outside.holds {pc : ReceiverPc} (h : pc.outside) (hu : pc.Unfailed)
    (m : Mutex) : ¬ pc.holds m := by
  cases pc with
  | top | dispatch resp | unknownType => exact id
  -- the one place outside of `recv` that still holds `recvLock`
  | recvFailed => exact hu.elim
  | _ => exact h.elim

/-! ## The server -/

theorem ServerPc.outside.holds {pc : ServerPc} (h : pc.outside) (m : Mutex) : ¬ pc.holds m := by
  cases pc with
  | recv | serving => exact id
  | _ => exact h.elim

theorem FinishPc.outside.holds {pc : FinishPc} (h : pc.outside) (m : Mutex) : ¬ pc.holds m := by
  cases pc with
  | idle => exact id
  | _ => exact h.elim

/-- A receiver whose `recv` has failed holds `recvLock`. -/
theorem not_disciplined_of_recvFailed {s : NetClient nS nR}
    (ho : Owned s.locks s.held) {j : Fin nR} (hj : s.receivers j = .recvFailed) :
    ¬ Disciplined s.locks s.outside s.wants := by
  intro hd
  have hheld : s.held (.receiver j) .recvLock := by
    show (s.receivers j).holds .recvLock
    rw [hj]
    rfl
  have hout : s.outside (.receiver j) := by
    show (s.receivers j).outside
    rw [hj]
    trivial
  exact hd.released _ _ hout ((ho _ _).mpr hheld)

/-- The end of the stream or an error, for a receiver, is the end of its `recv`. -/
theorem next_recvFailed {s s' : NetClient nS nR} {j : Fin nR} {inp : Input}
    (hn : s.next cfg ⟨.receiver j, inp⟩ = some s') (hinp : inp = .eof ∨ inp = .recvError) :
    s'.receivers j = .recvFailed := by
  obtain ⟨-, ⟨i, d, pc, op, locks, htid, -⟩ |
    ⟨k, d, pc, op, locks, htid, hstep, -, rfl⟩⟩ := NetClient.next_cases hn
  · cases htid
  · cases htid
    have hmove := receiverStep_move hstep
    show Function.update s.receivers j pc j = .recvFailed
    rw [Function.update_self]
    generalize s.receivers j = pc₀ at hmove
    cases hmove with
    | ends hpc _ => rfl
    | _ => simp at hinp

/-- **Every run.** The server keeps the discipline whatever its system calls return; the client
keeps it in every run in which no transfer of `NetworkedClient::recv` comes up short, and
loses it as soon as one meets the end of the stream or an error. -/
theorem locks_disciplined (cfg : Config) (listenFd : Fd) (nS nR n : Nat) :
    (∀ s : NetClient nS nR, (netClient cfg nS nR).ReachableBy RecvSucceeds s →
      Disciplined s.locks s.outside s.wants) ∧
    (∀ s : NetServer n, (netServer listenFd n).Reachable s →
      Disciplined s.locks s.outside s.wants) ∧
    (∀ (s s' : NetClient nS nR) (j : Fin nR) (inp : Input),
      (netClient cfg nS nR).Reachable s → s.next cfg ⟨.receiver j, inp⟩ = some s' →
      inp = .eof ∨ inp = .recvError → ¬ Disciplined s'.locks s'.outside s'.wants) := by
  refine ⟨?_, ?_, ?_⟩
  · intro s h
    refine .of_released fun t m hout hlock => ?_
    have hheld := (netClient_owned h.reachable m t).mp hlock
    cases t with
    | sender i => exact SenderPc.outside.holds hout m hheld
    | receiver j => exact ReceiverPc.outside.holds hout (netClient_unfailed h j) m hheld
  · intro s h
    refine .of_released fun t m hout hlock => ?_
    have hheld := (netServer_owned h m t).mp hlock
    cases t with
    | worker i => exact ServerPc.outside.holds hout m hheld
    | finisher => exact FinishPc.outside.holds hout m hheld
  · intro s s' j inp h hn hinp
    have hreach : (netClient cfg nS nR).Reachable s' := h.step ⟨.receiver j, inp⟩ hn
    exact not_disciplined_of_recvFailed (netClient_owned hreach) (next_recvFailed hn hinp)

/-! ### Exchanges that succeed, and one that does not -/

/-- A test for `RecvSucceeds`. -/
def smallRecv (s : NetClient 1 2) (a : ClientAction 1 2) : Bool :=
  match a.tid, a.inp with
  | .receiver _, .eof | .receiver _, .recvError => false
  | .receiver j, .got bs =>
      match s.receivers j with
      | .header _ got => decide ((Response.ofHeader (got ++ bs)).len.toNat < 2 ^ 31)
      | _ => true
  | _, _ => true

theorem recvSucceeds_of_smallRecv (s : NetClient 1 2) (a : ClientAction 1 2)
    (h : smallRecv s a = true) : RecvSucceeds s a := by
  obtain ⟨tid, inp⟩ := a
  rintro j rfl
  cases inp with
  | eof | recvError => cases h
  | got bs =>
      refine ⟨by simp, by simp, ?_⟩
      rintro bs' s1 got ⟨⟩ hpc - -
      simpa [smallRecv, hpc] using h
  | _ => exact ⟨by simp, by simp, nofun⟩

/-- A client that has sent its request and received the response to it, and a server after two
requests and their responses. -/
theorem locks_disciplined_exchange :
    (∃ s, (netClient smallConfig 1 2).ReachableBy RecvSucceeds s ∧ s.data.sent.length = 1 ∧
      s.data.framesRead = 1 ∧ s.data.obj.numReqsCompleted = 1 ∧
      Disciplined s.locks s.outside s.wants) ∧
    ∃ s, (netServer 3 2).Reachable s ∧ s.data.log.length = 4 ∧
      Disciplined s.locks s.outside s.wants := by
  obtain ⟨hclient, hserver, -⟩ := locks_disciplined smallConfig 3 1 2 2
  obtain ⟨s, hs, hsent, hread, hfin⟩ := Machine.Reachable.exists_of_exec
    (P := fun s : NetClient 1 2 => s.data.sent.length = 1 ∧ s.data.framesRead = 1 ∧
      s.data.obj.numReqsCompleted = 1)
    (NetClient.sendOne 0 true 10 ⟨[1], by decide⟩ ++
      NetClient.recvOne 1 20 (mkResponse 0 1 ⟨[2, 3], by decide⟩))
    (show ((netClient smallConfig 1 2).guard smallRecv).init (NetClient.start smallConfig)
      from rfl) (by decide +kernel)
  obtain ⟨t, ht, hlog⟩ := Machine.Reachable.exists_of_exec
    (P := fun s : NetServer 2 => s.data.log.length = 4) routingRun
    (show (netServer 3 2).init NetServer.start from rfl) (by decide +kernel)
  have hby := Machine.Reachable.of_guard recvSucceeds_of_smallRecv hs
  exact ⟨⟨s, hby, hsent, hread, hfin, hclient s hby⟩, t, ht, hlog, hserver t ht⟩

/-- The server closes the connection while one receiver waits for the next response: it leaves
with `recvLock`, for which the other one waits from then on. -/
def closedRun : List (ClientAction 1 2) :=
  [⟨.receiver 0, .tau⟩, ⟨.receiver 0, .clock 1⟩, ⟨.receiver 0, .eof⟩]

theorem recvLock_leaked :
    ∃ s, (netClient smallConfig 1 2).Reachable s ∧ s.data.proc = .running ∧
      s.outside (.receiver 0) ∧ s.locks .recvLock = some (.receiver 0) ∧
      s.wants (.receiver 1) = some .recvLock ∧
      ¬ Disciplined s.locks s.outside s.wants := by
  obtain ⟨s, hs, hrun, hpc, hlock, hwants⟩ := Machine.Reachable.exists_of_exec
    (P := fun s : NetClient 1 2 => s.data.proc = .running ∧ s.receivers 0 = .recvFailed ∧
      s.locks .recvLock = some (.receiver 0) ∧ s.wants (.receiver 1) = some .recvLock)
    closedRun (show (netClient smallConfig 1 2).init (NetClient.start smallConfig) from rfl)
    (by decide +kernel)
  have hout : s.outside (.receiver 0) := by
    show (s.receivers 0).outside
    rw [hpc]
    trivial
  exact ⟨s, hs, hrun, hout, hlock, hwants, fun hd => hd.released _ _ hout hlock⟩

end TailBench
