import TailBench.Harness.ServerStreams
import TailBench.Harness.Session

set_option autoImplicit false

/-! # A server and its clients

One server process and `m` client processes, each as in its own module, with the network
between them: a client connects, the bytes it hands to its connection arrive in order and
without loss, and it reads the bytes the server has handed to the connection. A connection on
which a `send` has failed carries nothing more in that direction. Connections may break at
any time.

All processes read one clock (`now`); it is strict or arbitrary, as in `Session.lean`.
-/

namespace TailBench

open Lib

/-- The clock reading a step of the server is made with. -/
def ServerInput.reading : ServerInput → Option UInt64
  | .clock ns => some ns
  | .respond ns _ => some ns
  | _ => none

/-- The clock after a step of the server. -/
def ServerInput.tick (strict : Bool) (now : UInt64) (inp : ServerInput) : Option UInt64 :=
  match inp.reading with
  | none => some now
  | some ns => Input.tick strict now (.clock ns)

/-- The client may still hand bytes to its connection. -/
def NetData.carries (d : NetData) : Input → Bool
  | .wrote _ => d.failed.isEmpty
  | _ => true

/-- A thread of the server may still hand bytes to the connection it writes to. -/
def NetServer.carries {n : Nat} (s : NetServer n) (t : ServerTid n) : ServerInput → Bool
  | .wrote _ => (s.outgoing t).all fun x => (s.data.conns x.1).all fun c => !c.failed
  | _ => true

/-- The connection of a client. -/
inductive Link where
  | unconnected
  /-- The server knows it by this descriptor. -/
  | via (fd : Fd)
  /-- The server has closed it in `checkNewClient`. -/
  | dropped
  deriving DecidableEq, Repr

/-- After a step of the server. -/
def Link.refresh {n : Nat} (d : ServerData n) : Link → Link
  | .via fd => if (d.conns fd).isSome then .via fd else .dropped
  | l => l

structure System (n : Nat) {m : Nat} (nS nR : Fin m → Nat) where
  server : NetServer n
  clients : (c : Fin m) → NetClient (nS c) (nR c)
  links : Fin m → Link
  /-- The last clock reading. -/
  now : UInt64

inductive SystemAction (n : Nat) {m : Nat} (nS nR : Fin m → Nat) where
  | client (c : Fin m) (a : ClientAction (nS c) (nR c))
  | server (t : ServerTid n) (inp : ServerInput)
  | connect (c : Fin m) (fd : Fd)
  /-- The next `k` bytes of a client arrive. -/
  | deliver (c : Fin m) (k : Nat)
  /-- The connection of a client breaks. -/
  | hangup (c : Fin m)

namespace System

variable {n m : Nat} {nS nR : Fin m → Nat}

/-- The bytes the server has handed to the connection of a client. -/
def bytesTo (s : System n nS nR) (c : Fin m) : Bytes :=
  match s.links c with
  | .via fd => ((s.server.data.conns fd).map Conn.out).getD []
  | _ => []

/-- The responses the server has sent to a client. -/
def responsesTo (s : System n nS nR) (c : Fin m) : List Response :=
  match s.links c with
  | .via fd => s.server.data.responsesTo fd
  | _ => []

/-- The system after a step of a client. -/
def afterClient (s : System n nS nR) (c : Fin m) (cl : NetClient (nS c) (nR c)) (now : UInt64) :
    System n nS nR :=
  { s with clients := Function.update s.clients c cl, now := now }

/-- The system after a step of the server. -/
def afterServer (s : System n nS nR) (sv : NetServer n) (now : UInt64) : System n nS nR :=
  { s with server := sv, links := fun c => (s.links c).refresh sv.data, now := now }

def next (listenFd : Fd) (cfg : Fin m → Config) (strict : Bool) :
    SystemAction n nS nR → System n nS nR → Option (System n nS nR)
  | .client c a, s =>
      if s.links c ≠ .unconnected ∧ a.inp.arrives (s.bytesTo c) (s.clients c).data.rx ∧
          (s.clients c).data.carries a.inp = true then
        (a.inp.tick strict s.now).bind fun now =>
          ((s.clients c).next (cfg c) a).map fun cl => s.afterClient c cl now
      else none
  | .server t inp, s =>
      if s.server.carries t inp = true then
        (inp.tick strict s.now).bind fun now =>
          (s.server.next listenFd (t.action inp)).map fun sv => s.afterServer sv now
      else none
  | .connect c fd, s =>
      if s.links c = .unconnected then
        (s.server.next listenFd (.connect fd)).map fun sv =>
          { s with server := sv, links := Function.update s.links c (.via fd) }
      else none
  | .deliver c k, s =>
      match s.links c with
      | .via fd =>
          (s.server.data.conns fd).bind fun conn =>
            (s.server.next listenFd
              (.arrive fd (((s.clients c).data.wire.drop conn.inp.length).take k))).map fun sv =>
                { s with server := sv }
      | _ => none
  | .hangup c, s =>
      match s.links c with
      | .via fd => (s.server.next listenFd (.hangup fd)).map fun sv => { s with server := sv }
      | _ => none

/-- The system before the clients connect. -/
def start (cfg : Fin m → Config) (t : UInt64) : System n nS nR where
  server := NetServer.start
  clients c := NetClient.start (cfg c)
  links _ := .unconnected
  now := t

/-! ## Steps -/

/-- The steps of the system. -/
inductive Move (listenFd : Fd) (cfg : Fin m → Config) (strict : Bool) (s : System n nS nR) :
    System n nS nR → Prop
  | client {c : Fin m} {a : ClientAction (nS c) (nR c)} {cl : NetClient (nS c) (nR c)}
      {now : UInt64} (hlink : s.links c ≠ .unconnected)
      (harr : a.inp.arrives (s.bytesTo c) (s.clients c).data.rx)
      (hcarry : (s.clients c).data.carries a.inp = true)
      (htick : a.inp.tick strict s.now = some now)
      (hn : (s.clients c).next (cfg c) a = some cl) :
      Move listenFd cfg strict s (s.afterClient c cl now)
  | server {t : ServerTid n} {inp : ServerInput} {sv : NetServer n} {now : UInt64}
      (hcarry : s.server.carries t inp = true) (htick : inp.tick strict s.now = some now)
      (hn : s.server.next listenFd (t.action inp) = some sv) :
      Move listenFd cfg strict s (s.afterServer sv now)
  | connect {c : Fin m} {fd : Fd} {sv : NetServer n} (hlink : s.links c = .unconnected)
      (hn : s.server.next listenFd (.connect fd) = some sv) :
      Move listenFd cfg strict s
        { s with server := sv, links := Function.update s.links c (.via fd) }
  | deliver {c : Fin m} {fd : Fd} {bs : Bytes} {sv : NetServer n} {conn : Conn}
      (hlink : s.links c = .via fd) (hconn : s.server.data.conns fd = some conn)
      (hbs : bs <+: (s.clients c).data.wire.drop conn.inp.length)
      (hn : s.server.next listenFd (.arrive fd bs) = some sv) :
      Move listenFd cfg strict s { s with server := sv }
  | hangup {c : Fin m} {fd : Fd} {sv : NetServer n} (hlink : s.links c = .via fd)
      (hn : s.server.next listenFd (.hangup fd) = some sv) :
      Move listenFd cfg strict s { s with server := sv }

theorem next_move {listenFd : Fd} {cfg : Fin m → Config} {strict : Bool}
    {a : SystemAction n nS nR} {s s' : System n nS nR}
    (h : next listenFd cfg strict a s = some s') : Move listenFd cfg strict s s' := by
  cases a with
  | client c a =>
      simp only [next] at h
      split at h
      · next hg =>
          simp only [Option.bind_eq_some_iff, Option.map_eq_some_iff] at h
          obtain ⟨now, htick, cl, hcl, rfl⟩ := h
          exact .client hg.1 hg.2.1 hg.2.2 htick hcl
      · cases h
  | server t inp =>
      simp only [next] at h
      split at h
      · next hg =>
          simp only [Option.bind_eq_some_iff, Option.map_eq_some_iff] at h
          obtain ⟨now, htick, sv, hsv, rfl⟩ := h
          exact .server hg htick hsv
      · cases h
  | connect c fd =>
      simp only [next] at h
      split at h
      · next hg =>
          obtain ⟨sv, hsv, rfl⟩ := Option.map_eq_some_iff.mp h
          exact .connect hg hsv
      · cases h
  | deliver c k =>
      simp only [next] at h
      split at h
      · next fd hlink =>
          rw [Option.bind_eq_some_iff] at h
          obtain ⟨conn, hconn, h⟩ := h
          obtain ⟨sv, hsv, rfl⟩ := Option.map_eq_some_iff.mp h
          exact .deliver hlink hconn (List.take_prefix _ _) hsv
      · cases h
  | hangup c =>
      simp only [next] at h
      split at h
      · next fd hlink =>
          obtain ⟨sv, hsv, rfl⟩ := Option.map_eq_some_iff.mp h
          exact .hangup hlink hsv
      · cases h

theorem next_client {listenFd : Fd} {cfg : Fin m → Config} {strict : Bool} {c : Fin m}
    {a : ClientAction (nS c) (nR c)} {s s' : System n nS nR}
    (h : next listenFd cfg strict (.client c a) s = some s') :
    a.inp.arrives (s.bytesTo c) (s.clients c).data.rx ∧
      ∃ now, a.inp.tick strict s.now = some now ∧
      ∃ cl, (s.clients c).next (cfg c) a = some cl ∧ s' = s.afterClient c cl now := by
  simp only [next] at h
  split at h
  · next hg =>
      simp only [Option.bind_eq_some_iff, Option.map_eq_some_iff] at h
      obtain ⟨now, htick, cl, hcl, rfl⟩ := h
      exact ⟨hg.2.1, now, htick, cl, hcl, rfl⟩
  · cases h

theorem next_server {listenFd : Fd} {cfg : Fin m → Config} {strict : Bool} {t : ServerTid n}
    {inp : ServerInput} {s s' : System n nS nR}
    (h : next listenFd cfg strict (.server t inp) s = some s') :
    s.server.carries t inp = true ∧ ∃ now, inp.tick strict s.now = some now ∧
      ∃ sv, s.server.next listenFd (t.action inp) = some sv ∧ s' = s.afterServer sv now := by
  simp only [next] at h
  split at h
  · next hg =>
      simp only [Option.bind_eq_some_iff, Option.map_eq_some_iff] at h
      obtain ⟨now, htick, sv, hsv, rfl⟩ := h
      exact ⟨hg, now, htick, sv, hsv, rfl⟩
  · cases h

/-- Only its own steps change a client. -/
theorem next_clients {listenFd : Fd} {cfg : Fin m → Config} {strict : Bool}
    {a : SystemAction n nS nR} {s s' : System n nS nR}
    (h : next listenFd cfg strict a s = some s') (ha : ∀ c a', a ≠ .client c a') :
    s'.clients = s.clients := by
  cases a with
  | client c a => exact absurd rfl (ha c a)
  | server t inp =>
      obtain ⟨-, now, -, sv, -, rfl⟩ := next_server h
      rfl
  | connect c fd =>
      simp only [next] at h
      split at h
      · obtain ⟨sv, -, rfl⟩ := Option.map_eq_some_iff.mp h
        rfl
      · cases h
  | deliver c k =>
      simp only [next] at h
      split at h
      · obtain ⟨conn, -, h⟩ := Option.bind_eq_some_iff.mp h
        obtain ⟨sv, -, rfl⟩ := Option.map_eq_some_iff.mp h
        rfl
      · cases h
  | hangup c =>
      simp only [next] at h
      split at h
      · obtain ⟨sv, -, rfl⟩ := Option.map_eq_some_iff.mp h
        rfl
      · cases h

end System

/-- The system as a machine. -/
def system (listenFd : Fd) (n : Nat) {m : Nat} (cfg : Fin m → Config) (strict : Bool)
    (nS nR : Fin m → Nat) : Machine (System n nS nR) (SystemAction n nS nR) where
  init s := ∃ t, s = System.start cfg t
  next := System.next listenFd cfg strict

section Reachable

variable {n m : Nat} {listenFd : Fd} {cfg : Fin m → Config} {strict : Bool}
  {nS nR : Fin m → Nat} {s : System n nS nR}

/-- The server of the system is a server process. -/
theorem system_server (h : (system listenFd n cfg strict nS nR).Reachable s) :
    (netServer listenFd n).Reachable s.server := by
  refine Machine.Reachable.simulate System.server ?_ ?_ h
  · rintro s ⟨t, rfl⟩
    rfl
  · intro s a s' _ hn
    have hstep : ∀ {a : ServerAction n} {sv : NetServer n},
        s.server.next listenFd a = some sv → (netServer listenFd n).Leads s.server sv :=
      fun hsv => .single hsv
    cases System.next_move hn with
    | client hlink harr hcarry htick hcl => exact .refl _
    | server hcarry htick hsv => exact hstep hsv
    | connect hlink hsv => exact hstep hsv
    | deliver hlink hconn hbs hsv => exact hstep hsv
    | hangup hlink hsv => exact hstep hsv

/-- The clients of the system are client processes. -/
theorem system_client (h : (system listenFd n cfg strict nS nR).Reachable s) (c : Fin m) :
    (netClient (cfg c) (nS c) (nR c)).Reachable (s.clients c) := by
  refine Machine.Reachable.simulate (fun s : System n nS nR => s.clients c) ?_ ?_ h
  · rintro s ⟨t, rfl⟩
    rfl
  · intro s a s' _ hn
    cases System.next_move hn with
    | @client c' a cl now hlink harr hcarry htick hcl =>
        by_cases hc : c = c'
        · subst hc
          refine .single (a := a) ?_
          show (s.clients c).next (cfg c) a = some (Function.update s.clients c cl c)
          rw [Function.update_self]
          exact hcl
        · have hsame : Function.update s.clients c' cl c = s.clients c :=
            Function.update_of_ne hc ..
          show Machine.Leads _ _ (Function.update s.clients c' cl c)
          rw [hsame]
          exact .refl _
    | _ => exact .refl _

end Reachable

/-! ## Links -/

/-- A link that lasts was there before, and its connection is open. -/
theorem Link.refresh_via {n : Nat} {d : ServerData n} {l : Link} {fd : Fd}
    (h : l.refresh d = .via fd) : l = .via fd ∧ d.conns fd ≠ none := by
  cases l with
  | via fd' =>
      simp only [Link.refresh] at h
      split at h
      · next hsome =>
          cases h
          exact ⟨rfl, Option.isSome_iff_ne_none.mp hsome⟩
      · cases h
  | _ => cases h

namespace System

variable {n m : Nat} {listenFd : Fd} {cfg : Fin m → Config} {strict : Bool}
  {nS nR : Fin m → Nat} {s s' : System n nS nR}

/-- Linked clients have open connections, each its own. -/
structure Linked (s : System n nS nR) : Prop where
  isOpen : ∀ c fd, s.links c = .via fd → s.server.data.conns fd ≠ none
  unique : ∀ c c' fd, s.links c = .via fd → s.links c' = .via fd → c = c'

theorem Move.linked (hm : Move listenFd cfg strict s s') (h : s.Linked) : s'.Linked := by
  cases hm with
  | client hlink harr hcarry htick hcl => exact ⟨h.isOpen, h.unique⟩
  | server hcarry htick hsv =>
      refine ⟨fun c fd hc => (Link.refresh_via hc).2, fun c c' fd hc hc' => ?_⟩
      exact h.unique c c' fd (Link.refresh_via hc).1 (Link.refresh_via hc').1
  | @connect c fd sv hlink hsv =>
      obtain ⟨-, hmove⟩ := NetServer.next_move hsv
      cases hmove with
      | connect hl hfd =>
          -- nobody was linked to the new descriptor, which was not open
          have hother : ∀ c' fd', Function.update s.links c (.via fd) c' = .via fd' →
              c' = c ∧ fd' = fd ∨ c' ≠ c ∧ fd' ≠ fd ∧ s.links c' = .via fd' := by
            intro c' fd' hc'
            by_cases hcc : c' = c
            · subst hcc
              rw [Function.update_self] at hc'
              exact .inl ⟨rfl, (Link.via.inj hc').symm⟩
            · rw [Function.update_of_ne hcc] at hc'
              refine .inr ⟨hcc, ?_, hc'⟩
              rintro rfl
              exact h.isOpen c' fd' hc' hfd
          constructor
          · intro c' fd' hc'
            obtain ⟨-, rfl⟩ | ⟨-, hne, hold⟩ := hother c' fd' hc'
            · simp [NetServer.withData]
            · simpa [NetServer.withData, hne] using h.isOpen c' fd' hold
          · intro c₁ c₂ fd' h₁ h₂
            obtain ⟨rfl, rfl⟩ | ⟨-, hne, hold₁⟩ := hother c₁ fd' h₁
            · obtain ⟨rfl, -⟩ | ⟨-, hne, -⟩ := hother c₂ fd' h₂
              · rfl
              · exact absurd rfl hne
            · obtain ⟨-, rfl⟩ | ⟨-, -, hold₂⟩ := hother c₂ fd' h₂
              · exact absurd rfl hne
              · exact h.unique c₁ c₂ fd' hold₁ hold₂
  | deliver hlink hconn hbs hsv =>
      obtain ⟨-, hmove⟩ := NetServer.next_move hsv
      cases hmove with
      | arrive hc hopen =>
          refine ⟨fun c fd hc => ?_, h.unique⟩
          exact (ServerData.modifyConn_conns_none ..).not.mpr (h.isOpen c fd hc)
  | hangup hlink hsv =>
      obtain ⟨-, hmove⟩ := NetServer.next_move hsv
      cases hmove with
      | hangup =>
          refine ⟨fun c fd hc => ?_, h.unique⟩
          exact (ServerData.modifyConn_conns_none ..).not.mpr (h.isOpen c fd hc)

end System

theorem system_linked {n m : Nat} {listenFd : Fd} {cfg : Fin m → Config} {strict : Bool}
    {nS nR : Fin m → Nat} {s : System n nS nR}
    (h : (system listenFd n cfg strict nS nR).Reachable s) : s.Linked := by
  refine Machine.Reachable.invariant ?_ ?_ h
  · rintro s ⟨t, rfl⟩
    exact ⟨nofun, nofun⟩
  · intro s a s' _ hs hn
    exact (System.next_move hn).linked hs

end TailBench
