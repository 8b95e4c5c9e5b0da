import TailBench.Harness.System
import TailBench.Harness.Table

set_option autoImplicit false

/-! # The bytes between a client and the server

In every run of the system, for every client that is linked to the server:

* what arrived at the server is the beginning of what the client has handed to its connection,
  and the requests delivered from it are the first ones the client has sent;
* what the server has handed to the connection is the beginning of the responses it has sent.
-/

namespace TailBench

open Lib

/-! ## What a client sends -/

theorem Request.image_isRequest {r : Request} (h : r.Fits) : IsRequest r.image := by
  refine isRequest_append (by rw [Request.length_header, requestHeaderLen_eq]) ?_
  have hle : r.len.toNat ≤ 2 ^ 20 := h.2
  rw [Request.ofHeader_header, cInt_of_lt (by show r.len.toNat < _; omega), Int.toNat_natCast]
  exact h.1

theorem requestOf_image (r : Request) : requestOf r.image = r := by
  have hlen : r.header.length = requestHeaderLen := by
    rw [Request.length_header, requestHeaderLen_eq]
  rw [requestOf, Request.image, ← hlen, List.take_left, List.drop_left, Request.ofHeader_header]

/-- A sender in `sendfull` has something left to send. -/
def SenderPc.Unsent : SenderPc → Prop
  | .sending _ req rest => rest ≠ [] ∧ rest.length ≤ req.frame.length
  | _ => True

theorem SenderMove.unsent {cfg : Config} {d d' : NetData} {pc pc' : SenderPc} {inp : Input}
    {op : LockOp Mutex} (hm : SenderMove cfg d pc inp d' pc' op) (h : pc.Unsent)
    (hheap : ∀ p r, d.obj.heap p = some r → r.Fits) : pc'.Unsent := by
  cases hm with
  | @send p r ns hh hb =>
      have hfits : Request.Fits { r with sentNs_lock_ad := ns } := hheap p r hh
      refine ⟨?_, Nat.le_refl _⟩
      rw [Request.frame_eq hfits, ← List.length_pos_iff, Request.length_image hfits]
      exact Nat.add_pos_left requestHeaderLen_pos _
  | @write p req rest k hk hlt =>
      obtain ⟨-, hle⟩ := h
      refine ⟨?_, ?_⟩
      · rw [← List.length_pos_iff, List.length_drop]
        omega
      · rw [List.length_drop]
        omega
  | fault hbad => exact h
  | _ => trivial

theorem netClient_unsent {cfg : Config} {nS nR : Nat} {s : NetClient nS nR}
    (h : (netClient cfg nS nR).Reachable s) (i : Fin nS) : (s.senders i).Unsent := by
  revert i
  refine Machine.Reachable.invariant (P := fun s : NetClient nS nR =>
    ∀ i, (s.senders i).Unsent) ?_ ?_ h
  · rintro s rfl i
    trivial
  · intro s a s' hr hs hn k
    have hobj := netClient_objects hr
    cases NetClient.next_move hn with
    | @sender i inp d pc op locks hrun hm hop =>
        by_cases hki : k = i
        · subst hki
          simpa [NetClient.afterSender] using
            hm.unsent (hs k) fun p r hp => (hobj.heap p r hp).2.2
        · simpa [NetClient.afterSender, hki] using hs k
    | receiver j hrun hm hop => exact hs k

/-- What was handed to a connection: the requests that were sent, and a part of one more. -/
def NetData.Streams (d : NetData) : Prop :=
  ∃ part, d.wire = (d.sent.map fun x => x.2.image).flatten ++ part ∧
    (part = [] ∨ ∃ f, IsRequest f ∧ part <+: f ∧ part ≠ f)

/-- The whole requests in the stream are those that were sent. -/
theorem NetData.Streams.requests {d : NetData} (h : d.Streams) (hfits : ∀ x ∈ d.sent, x.2.Fits)
    {gs : List Bytes} (hgs : ∀ g ∈ gs, IsRequest g) (hpre : gs.flatten <+: d.wire) :
    gs <+: d.sent.map fun x => x.2.image := by
  obtain ⟨part, hwire, hpart⟩ := h
  have hfs : ∀ f ∈ d.sent.map fun x => x.2.image, IsRequest f := by
    intro f hf
    obtain ⟨x, hx, rfl⟩ := List.mem_map.mp hf
    exact Request.image_isRequest (hfits x hx)
  rw [hwire] at hpre
  obtain rfl | ⟨f, hf, hsub, hne⟩ := hpart
  · obtain ⟨rest, hrest, -⟩ := frames_rest (r := []) requestHeaderLen_pos hfs hgs
      (by simpa using hpre)
    exact ⟨rest, hrest.symm⟩
  · have hcut : gs.flatten ++ [] <+: ((d.sent.map fun x => x.2.image) ++ [f]).flatten := by
      rw [List.append_nil, List.flatten_append, List.flatten_singleton]
      exact hpre.trans ((List.prefix_append_right_inj _).mpr hsub)
    obtain ⟨rest, hrest, -⟩ := frames_rest requestHeaderLen_pos
      (fun g hg => (List.mem_append.mp hg).elim (hfs g) fun hg => by
        rw [List.mem_singleton.mp hg]
        exact hf) hgs hcut
    rcases List.eq_nil_or_concat rest with rfl | ⟨rest', f', rfl⟩
    · -- the part would be a whole request
      exfalso
      rw [List.append_nil] at hrest
      rw [← hrest, List.flatten_append, List.flatten_singleton,
        List.prefix_append_right_inj] at hpre
      exact hne (hsub.eq_of_length (le_antisymm hsub.length_le hpre.length_le))
    · rw [List.concat_eq_append, ← List.append_assoc] at hrest
      obtain ⟨hsent, -⟩ := List.append_inj' hrest rfl
      exact ⟨rest', hsent.symm⟩

/-- As long as no transfer has failed. -/
theorem NetClient.WireOk.streams {nS nR : Nat} {s : NetClient nS nR} (h : s.WireOk)
    (hobj : s.Objects) (hun : ∀ i, (s.senders i).Unsent) (hfail : s.data.failed = []) :
    s.data.Streams := by
  have hframes : s.data.frames = (s.data.sent.map fun x => x.2.image).flatten := by
    rw [NetData.frames]
    congr 1
    exact List.map_congr_left fun x hx => Request.frame_eq (hobj.sent x hx).2
  by_cases hex : ∃ i p req rest, s.senders i = .sending p req rest
  · obtain ⟨i, p, req, rest, hi⟩ := hex
    obtain ⟨hne, hle⟩ : rest ≠ [] ∧ rest.length ≤ req.frame.length := by
      have hi' := hun i
      rw [hi] at hi'
      exact hi'
    have hwire := h.sending hfail i p req rest hi
    have hfits := (hobj.sending i p req rest hi).2
    rw [hframes] at hwire
    obtain ⟨part, hframes', hrest⟩ | ⟨part, hwire', hframe⟩ := List.append_eq_append_iff.mp hwire
    · -- then the rest is the whole frame
      have hlen := congrArg List.length hrest
      rw [List.length_append] at hlen
      obtain rfl : part = [] := List.length_eq_zero_iff.mp (by omega)
      exact ⟨[], by rw [hframes']; simp, .inl rfl⟩
    · refine ⟨part, hwire', .inr ⟨req.image, Request.image_isRequest hfits, ?_, ?_⟩⟩
      · rw [← Request.frame_eq hfits, hframe]
        exact List.prefix_append _ _
      · rintro rfl
        rw [Request.frame_eq hfits] at hframe
        exact hne (List.self_eq_append_right.mp hframe)
  · refine ⟨[], ?_, .inl rfl⟩
    rw [h.idle hfail fun i p req rest hi => hex ⟨i, p, req, rest, hi⟩, hframes, List.append_nil]

/-- Bytes are handed to the connection by `send` only. -/
theorem SenderMove.stream {cfg : Config} {d d' : NetData} {pc pc' : SenderPc} {inp : Input}
    {op : LockOp Mutex} (hm : SenderMove cfg d pc inp d' pc' op) :
    (∃ k, inp = .wrote k) ∧ d'.failed = d.failed ∧ d.wire <+: d'.wire ∨
      d'.wire = d.wire ∧ d'.sent = d.sent := by
  cases hm with
  | write hk hlt => exact .inl ⟨⟨_, rfl⟩, rfl, List.prefix_append _ _⟩
  | writeLast hpos => exact .inl ⟨⟨_, rfl⟩, rfl, List.prefix_append _ _⟩
  | _ => exact .inr ⟨rfl, rfl⟩

/-- The stream of a client after a step that its connection carries. -/
theorem NetClient.Move.stream {cfg : Config} {nS nR : Nat} {inp : Input} {s s' : NetClient nS nR}
    (hm : Move cfg s inp s') (hcarry : s.data.carries inp = true) (h : s.data.Streams)
    (hok : s'.data.failed = [] → s'.data.Streams) :
    s.data.wire <+: s'.data.wire ∧ s'.data.Streams := by
  have hsame : s'.data.wire = s.data.wire → s'.data.sent = s.data.sent →
      s.data.wire <+: s'.data.wire ∧ s'.data.Streams := by
    intro hwire hsent
    refine ⟨by rw [hwire], ?_⟩
    unfold NetData.Streams
    rw [hwire, hsent]
    exact h
  cases hm with
  | sender i hrun hm hop =>
      obtain ⟨⟨k, rfl⟩, hfail, hwire⟩ | ⟨hwire, hsent⟩ := hm.stream
      · refine ⟨hwire, hok (hfail.trans ?_)⟩
        exact List.isEmpty_iff.mp hcarry
      · exact hsame hwire hsent
  | receiver j hrun hm hop => exact hsame hm.frame.wire hm.frame.sent

/-! ## What the server sends -/

/-- What a step adds to the log of the server. -/
inductive NetServer.Logs {n : Nat} (s : NetServer n) :
    ServerAction n → List (ServerEvent n) → Prop
  | none {a : ServerAction n} : Logs s a []
  | delivered {i : Fin n} {fd : Fd} {raw : Bytes} {ns : UInt64}
      (hw : s.workers i = .stamp fd raw) : Logs s (.worker i (.clock ns)) [.delivered i fd raw]
  | responded {i : Fin n} {ns : UInt64} {data : Payload MAX_RESP_BYTES}
      (hw : s.workers i = .sendLocked) (hns : (s.data.reqInfo i).startNs < ns) :
      Logs s (.worker i (.respond ns data)) [.responded i (s.data.activeFds i)
        (mkResponse (s.data.reqInfo i).id (ns - (s.data.reqInfo i).startNs) data)]
  | finish {fd : Fd} {todo : List Fd} (hf : s.finisher = .clients (fd :: todo)) :
      Logs s (.finisher .tau) [.finish fd]

theorem NetServer.Move.logs {n : Nat} {listenFd : Fd} {a : ServerAction n} {s s' : NetServer n}
    (h : Move listenFd s a s') : ∃ es, s.Logs a es ∧ s'.data.log = s.data.log ++ es := by
  have hnil : ∀ {d : ServerData n}, d.log = s.data.log →
      ∃ es, s.Logs a es ∧ d.log = s.data.log ++ es :=
    fun hlog => ⟨[], .none, by rw [hlog, List.append_nil]⟩
  cases h with
  | @worker i inp d pc op locks hm hop hstep =>
      generalize hw : s.workers i = pc₀ at hm
      cases hm with
      | stamp ns => exact ⟨_, .delivered hw, rfl⟩
      | respond ns data hns => exact ⟨_, .responded hw hns, rfl⟩
      | _ => exact hnil rfl
  | finisher hm hop =>
      generalize hf : s.finisher = pc₀ at hm
      cases hm with
      | send => exact ⟨_, .finish hf, rfl⟩
      | _ => exact hnil rfl
  | connect | arrive | hangup => exact hnil rfl

/-! ## Every run -/

namespace System

variable {n m : Nat} {listenFd : Fd} {cfg : Fin m → Config} {strict : Bool}
  {nS nR : Fin m → Nat} {s s' : System n nS nR}

/-- What is on the way between the server and its clients. -/
structure Wired (s : System n nS nR) : Prop where
  streams : ∀ c, (s.clients c).data.Streams
  arrived : ∀ c fd conn, s.links c = .via fd → s.server.data.conns fd = some conn →
    conn.inp <+: (s.clients c).data.wire
  written : ∀ fd conn, s.server.data.conns fd = some conn →
    conn.out <+: (s.server.data.responsesTo fd).flatMap Response.image

/-- A step of the server: what it has written. -/
theorem Wired.written_server (h : s.Wired) {a : ServerAction n} {sv : NetServer n}
    (hn : s.server.next listenFd a = some sv) (hroutes : sv.Routes) (hwritten : sv.Written)
    (hcarry : ∀ t k fd rest c, a = ServerTid.action t (.wrote k) →
      s.server.outgoing t = some (fd, rest) → s.server.data.conns fd = some c →
      c.failed = false)
    {fd : Fd} {c' : Conn} (hc' : sv.data.conns fd = some c') :
    c'.out <+: (sv.data.responsesTo fd).flatMap Response.image := by
  obtain ⟨-, hmove⟩ := NetServer.next_move hn
  by_cases hfail : c'.failed = false
  · rw [← hroutes.flatMap_frame]
    by_cases hex : ∃ t rest, sv.outgoing t = some (fd, rest)
    · obtain ⟨t, rest, ht⟩ := hex
      exact ⟨rest, hwritten.sending t fd rest ht c' hc' hfail⟩
    · rw [hwritten.idle fd c' hc' hfail fun t rest ht => hex ⟨t, rest, ht⟩]
  · obtain ⟨rfl, -⟩ | ⟨c, hc, hstep⟩ := hmove.conns hc'
    · exact List.nil_prefix
    · obtain hout | ⟨hf, t, k, rest, ha, ht⟩ := hstep.out
      · obtain ⟨es, -, hlog⟩ := hmove.logs
        rw [hout, ServerData.responsesTo, hlog, List.filterMap_append, List.flatMap_append]
        exact (h.written fd c hc).trans (List.prefix_append _ _)
      · rw [hf] at hfail
        exact absurd (hcarry t k fd rest c ha ht hc) hfail

/-- Every step. -/
theorem Move.wired (hm : Move listenFd cfg strict s s') (h : s.Wired) (hl : s.Linked)
    (hclients : ∀ c, (netClient (cfg c) (nS c) (nR c)).Reachable (s'.clients c))
    (hserver : (netServer listenFd n).Reachable s'.server) : s'.Wired := by
  -- only a thread of the server writes to its connections
  have hnet : ∀ {a : ServerAction n} {sv : NetServer n}, s.server.next listenFd a = some sv →
      (netServer listenFd n).Reachable sv → (∀ t k, a ≠ ServerTid.action t (.wrote k)) →
      ∀ fd c', sv.data.conns fd = some c' →
        c'.out <+: (sv.data.responsesTo fd).flatMap Response.image :=
    fun hn hsv hne fd c' => h.written_server hn (netServer_routes hsv) (netServer_written hsv)
      fun t k _ _ _ ha => absurd ha (hne t k)
  cases hm with
  | @client c a cl now hlink harr hcarry htick hcl =>
      have hcl' := hclients c
      have hupd : (s.afterClient c cl now).clients c = cl := Function.update_self ..
      rw [hupd] at hcl'
      obtain ⟨hwire, hstreams⟩ := (NetClient.next_move hcl).stream hcarry (h.streams c)
        ((netClient_wireOk hcl').streams (netClient_objects hcl') (netClient_unsent hcl'))
      have hother : ∀ c', c' ≠ c → (s.afterClient c cl now).clients c' = s.clients c' :=
        fun c' hc => Function.update_of_ne hc ..
      refine ⟨fun c' => ?_, fun c' fd conn hc' hconn => ?_, h.written⟩
      · by_cases hc : c' = c
        · subst hc
          rw [hupd]
          exact hstreams
        · rw [hother c' hc]
          exact h.streams c'
      · by_cases hc : c' = c
        · subst hc
          rw [hupd]
          exact (h.arrived c' fd conn hc' hconn).trans hwire
        · rw [hother c' hc]
          exact h.arrived c' fd conn hc' hconn
  | @server t inp sv now hcarry htick hsv =>
      obtain ⟨-, hmove⟩ := NetServer.next_move hsv
      refine ⟨h.streams, fun c fd conn hc hconn => ?_, fun fd conn hconn => ?_⟩
      · obtain ⟨hc, -⟩ := Link.refresh_via hc
        obtain ⟨rfl, -⟩ | ⟨c₀, hc₀, hstep⟩ := hmove.conns hconn
        · exact List.nil_prefix
        · obtain hinp | ⟨bs, ha, -⟩ := hstep.inp
          · rw [hinp]
            exact h.arrived c fd c₀ hc hc₀
          · cases t <;> cases ha
      · refine h.written_server hsv (netServer_routes hserver) (netServer_written hserver)
          (fun t' k fd rest c ha hout hc => ?_) hconn
        obtain ⟨rfl, rfl⟩ : t = t' ∧ inp = .wrote k := by
          cases t <;> cases t' <;> simp_all [ServerTid.action]
        rw [NetServer.carries, hout, Option.all_some, hc, Option.all_some] at hcarry
        simpa using hcarry
  | @connect c fd sv hlink hsv =>
      have hmove := (NetServer.next_move hsv).2
      refine ⟨h.streams, fun c' fd' conn hc' hconn => ?_,
        hnet hsv hserver fun t k ha => by cases t <;> cases ha⟩
      obtain ⟨rfl, -⟩ | ⟨c₀, hc₀, hstep⟩ := hmove.conns hconn
      · exact List.nil_prefix
      · obtain hinp | ⟨bs, ha, -⟩ := hstep.inp
        · rw [hinp]
          refine h.arrived c' fd' c₀ ?_ hc₀
          by_cases hcc : c' = c
          · subst hcc
            -- the new connection was not open before
            simp only [Function.update_self, Link.via.injEq] at hc'
            subst hc'
            cases hmove with
            | connect hl hfd =>
                rw [hfd] at hc₀
                cases hc₀
          · simpa only [Function.update_of_ne hcc] using hc'
        · cases ha
  | @deliver c fd bs sv conn hlink hconn hbs hsv =>
      have hmove := (NetServer.next_move hsv).2
      refine ⟨h.streams, fun c' fd' conn' hc' hconn' => ?_,
        hnet hsv hserver fun t k ha => by cases t <;> cases ha⟩
      obtain ⟨rfl, -⟩ | ⟨c₀, hc₀, hstep⟩ := hmove.conns hconn'
      · exact List.nil_prefix
      · have hold := h.arrived c' fd' c₀ hc' hc₀
        obtain hinp | ⟨bs', ha, -, hinp⟩ := hstep.inp
        · rw [hinp]
          exact hold
        · cases ha
          obtain rfl := hl.unique c c' fd hlink hc'
          rw [hconn] at hc₀
          cases hc₀
          obtain ⟨rest, hrest⟩ := hold
          rw [hinp, ← hrest, List.prefix_append_right_inj]
          rw [← hrest, List.drop_left] at hbs
          exact hbs
  | @hangup c fd sv hlink hsv =>
      have hmove := (NetServer.next_move hsv).2
      refine ⟨h.streams, fun c' fd' conn' hc' hconn' => ?_,
        hnet hsv hserver fun t k ha => by cases t <;> cases ha⟩
      obtain ⟨rfl, -⟩ | ⟨c₀, hc₀, hstep⟩ := hmove.conns hconn'
      · exact List.nil_prefix
      · obtain hinp | ⟨bs', ha, -⟩ := hstep.inp
        · rw [hinp]
          exact h.arrived c' fd' c₀ hc' hc₀
        · cases ha

/-- The requests delivered from a client are the first ones it sent. -/
theorem Wired.delivered (h : s.Wired) {c : Fin m} {fd : Fd} {conn : Conn}
    (hc : s.links c = .via fd) (hconn : s.server.data.conns fd = some conn)
    (hobj : (s.clients c).Objects) {gs : List Bytes} (hgs : ∀ g ∈ gs, IsRequest g)
    (hread : gs.flatten <+: conn.inp) : gs <+: (s.clients c).data.sent.map fun x => x.2.image :=
  (h.streams c).requests (fun x hx => (hobj.sent x hx).2) hgs
    (hread.trans (h.arrived c fd conn hc hconn))

end System

/-- **In every run** the bytes between the server and its clients are in order. -/
theorem system_wired {n m : Nat} {listenFd : Fd} {cfg : Fin m → Config} {strict : Bool}
    {nS nR : Fin m → Nat} {s : System n nS nR}
    (h : (system listenFd n cfg strict nS nR).Reachable s) : s.Wired := by
  refine Machine.Reachable.invariant ?_ ?_ h
  · rintro s ⟨t, rfl⟩
    exact ⟨fun c => ⟨[], rfl, .inl rfl⟩, nofun, nofun⟩
  · intro s a s' hr hs hn
    have hr' := hr.step a hn
    exact (System.next_move hn).wired hs (system_linked hr) (system_client hr')
      (system_server hr')

end TailBench
