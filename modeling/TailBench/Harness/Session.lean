import TailBench.Harness.ClientObjects

set_option autoImplicit false

/-! # A client and the server at the other end

The client process together with what it relies on of its peer: the bytes it reads are, in
order, the frames the server has written to the connection, and the server answers a
request only after its whole frame was sent, and no request twice. When, in which order and
with what it answers is open; it may also write the frame of `finish` at any time.

`strict` adds a clock: every reading is later than all readings before it, and a server
that reports a service time of `svcNs` has measured it between two readings made after the
request was sent. Without it, readings are arbitrary.
-/

namespace TailBench

open Lib

/-- The clock after a step; under a strict clock a reading has to be later than `now`. -/
def Input.tick (strict : Bool) (now : UInt64) (inp : Input) : Option UInt64 :=
  match inp.reading with
  | none => some now
  | some ns => if strict = true ∧ ¬ now < ns then none else some ns

/-- The bytes that a `recv` returns are the next ones of the stream. -/
def Input.arrives (stream : Bytes) (rx : Nat) : Input → Prop
  | .got bs => bs <+: stream.drop rx
  | _ => True

instance (stream : Bytes) (rx : Nat) (inp : Input) : Decidable (inp.arrives stream rx) :=
  match inp with
  | .got bs => inferInstanceAs (Decidable (bs <+: stream.drop rx))
  | .tau | .clock _ | .gen _ _ | .wrote _ | .sendError | .eof | .recvError | .fini _ _ =>
      inferInstanceAs (Decidable True)

/-- The ids a list of frames answers. -/
def respIds (rs : List Response) : List UInt64 :=
  (rs.filter fun r => r.type = ResponseType.RESPONSE.code).map Response.id

structure Session (nS nR : Nat) where
  client : NetClient nS nR
  /-- The frames the server has written to the connection. -/
  inbound : List Response
  /-- The last clock reading. -/
  now : UInt64

inductive SessionAction (nS nR : Nat) where
  | client (a : ClientAction nS nR)
  | answer (id svcNs : UInt64) (data : Payload MAX_RESP_BYTES)
  | finish
  /-- Someone else reads the clock. -/
  | tick (ns : UInt64)
  deriving DecidableEq, Repr

namespace Session

variable {nS nR : Nat}

/-- The bytes the server has written. -/
def stream (s : Session nS nR) : Bytes := s.inbound.flatMap Response.image

/-- The ids of the requests whose frames were sent. -/
def sentIds (s : Session nS nR) : List UInt64 := s.client.data.sent.map fun x => x.2.id

/-- A service time fits between the sending of the request and now. -/
def timed (s : Session nS nR) (id svcNs : UInt64) : Bool :=
  s.client.data.sent.any fun x =>
    x.2.id = id ∧ x.2.sentNs_lock_ad.toNat + svcNs.toNat ≤ s.now.toNat

def next (cfg : Config) (strict : Bool) : SessionAction nS nR → Session nS nR →
    Option (Session nS nR)
  | .client a, s =>
      if a.inp.arrives s.stream s.client.data.rx then
        (a.inp.tick strict s.now).bind fun now =>
          (s.client.next cfg a).map fun c => { s with client := c, now := now }
      else none
  | .answer id svcNs data, s =>
      if (respIds s.inbound).count id < s.sentIds.count id ∧
          (strict = true → s.timed id svcNs = true) then
        some { s with inbound := s.inbound ++ [mkResponse id svcNs data] }
      else none
  | .finish, s => some { s with inbound := s.inbound ++ [finishFrame] }
  | .tick ns, s => (Input.tick strict s.now (.clock ns)).map fun now => { s with now := now }

/-- The steps of a session. -/
inductive Move (cfg : Config) (strict : Bool) (s : Session nS nR) : Session nS nR → Prop
  | client {inp : Input} {c : NetClient nS nR} {now : UInt64}
      (hm : NetClient.Move cfg s.client inp c) (harr : inp.arrives s.stream s.client.data.rx)
      (htick : inp.tick strict s.now = some now) :
      Move cfg strict s { s with client := c, now := now }
  | answer (id svcNs : UInt64) (data : Payload MAX_RESP_BYTES)
      (hid : (respIds s.inbound).count id < s.sentIds.count id)
      (ht : strict = true → s.timed id svcNs = true) :
      Move cfg strict s { s with inbound := s.inbound ++ [mkResponse id svcNs data] }
  | finish : Move cfg strict s { s with inbound := s.inbound ++ [finishFrame] }
  | tick {ns now : UInt64} (htick : Input.tick strict s.now (.clock ns) = some now) :
      Move cfg strict s { s with now := now }

/-- A step of the client is a step of its process. -/
theorem next_client {cfg : Config} {strict : Bool} {a : ClientAction nS nR}
    {s s' : Session nS nR} (h : next cfg strict (.client a) s = some s') :
    s.client.next cfg a = some s'.client := by
  simp only [next] at h
  split at h
  · simp only [Option.bind_eq_some_iff, Option.map_eq_some_iff] at h
    obtain ⟨now, -, c, hc, rfl⟩ := h
    exact hc
  · cases h

/-- The other steps leave the client alone. -/
theorem next_env {cfg : Config} {strict : Bool} {a : SessionAction nS nR}
    {s s' : Session nS nR} (h : next cfg strict a s = some s') (ha : ∀ c, a ≠ .client c) :
    s'.client = s.client := by
  cases a with
  | client c => exact absurd rfl (ha c)
  | answer id svcNs data =>
      simp only [next] at h
      split at h
      · obtain rfl := Option.some.inj h
        rfl
      · cases h
  | finish =>
      obtain rfl := Option.some.inj h
      rfl
  | tick ns =>
      simp only [next, Option.map_eq_some_iff] at h
      obtain ⟨now, -, rfl⟩ := h
      rfl

theorem next_move {cfg : Config} {strict : Bool} {a : SessionAction nS nR}
    {s s' : Session nS nR} (h : next cfg strict a s = some s') : Move cfg strict s s' := by
  cases a with
  | client a =>
      simp only [next] at h
      split at h
      · next harr =>
          simp only [Option.bind_eq_some_iff, Option.map_eq_some_iff] at h
          obtain ⟨now, htick, c, hc, rfl⟩ := h
          exact .client (NetClient.next_move hc) harr htick
      · cases h
  | answer id svcNs data =>
      simp only [next] at h
      split at h
      · next hg =>
          obtain rfl := Option.some.inj h
          exact .answer id svcNs data hg.1 hg.2
      · cases h
  | finish =>
      obtain rfl := Option.some.inj h
      exact .finish
  | tick ns =>
      simp only [next, Option.map_eq_some_iff] at h
      obtain ⟨now, htick, rfl⟩ := h
      exact .tick htick

end Session

/-- The client with its peer, as a machine. -/
def session (cfg : Config) (strict : Bool) (nS nR : Nat) :
    Machine (Session nS nR) (SessionAction nS nR) where
  init s := ∃ t, s = ⟨NetClient.start cfg, [], t⟩
  next := Session.next cfg strict

end TailBench
