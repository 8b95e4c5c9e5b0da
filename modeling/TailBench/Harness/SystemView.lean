import TailBench.Harness.SystemBytes
import TailBench.Harness.Clock

set_option autoImplicit false

/-! # Each client sees a session

What one client sees of the system is a session (`Session.lean`): the server answers a request
of the client only after it was sent, and no request twice; and under a strict clock the
service time it reports was measured after the request was sent. So everything proved about
sessions holds for every client of the system.
-/

namespace TailBench

open Lib

/-! ## What the server owes -/

/-- A worker, the connection of its request, and the id. -/
def NetServer.slot {n : Nat} (s : NetServer n) (i : Fin n) : ServerPc × Fd × UInt64 :=
  (s.workers i, s.data.activeFds i, (s.data.reqInfo i).id)

/-- Whether a worker has a request with this id, from this connection, to answer. -/
def owes (fd : Fd) (id : UInt64) : ServerPc × Fd × UInt64 → Nat
  | (.unlockRecv, fd', id') | (.serving, fd', id') | (.sendLocked, fd', id') =>
      if fd' = fd ∧ id' = id then 1 else 0
  | _ => 0

/-- The ids of the requests delivered from a connection. -/
def ServerData.deliveredIds {n : Nat} (d : ServerData n) (fd : Fd) : List UInt64 :=
  (d.requestsFrom fd).map fun raw => (requestOf raw).id

theorem owes_of_not_answering {fd : Fd} {id : UInt64} {pc : ServerPc} (h : ¬ pc.answering)
    (x : Fd × UInt64) : owes fd id (pc, x) = 0 := by
  cases pc with
  | unlockRecv | serving | sendLocked => exact absurd trivial h
  | _ => rfl

/-- A worker that goes on with its request, or gets a new one. -/
theorem ServerMove.answering {n : Nat} {i : Fin n} {d d' : ServerData n} {pc pc' : ServerPc}
    {inp : ServerInput} {op : LockOp Mutex} (h : ServerMove i d pc inp d' pc' op)
    (ha : pc'.answering) :
    (pc.answering ∧ d'.reqInfo i = d.reqInfo i ∧ d'.activeFds i = d.activeFds i) ∨
    ∃ fd raw ns, pc = .stamp fd raw ∧ inp = .clock ns ∧
      d'.reqInfo i = ⟨(d.reqbuf i).id, ns⟩ ∧ d'.activeFds i = fd := by
  cases h with
  | @stamp fd raw ns => exact .inr ⟨fd, raw, ns, rfl, rfl, by simp, by simp⟩
  | choose hpc hpc' => exact absurd ha hpc'.idle.2.1
  | accept hpc hb hpc' => exact absurd ha hpc'.idle.2.1
  | acceptClose hpc hb hpc' => exact absurd ha hpc'.idle.2.1
  | unlockRecv | lockSend => exact .inl ⟨trivial, rfl, rfl⟩
  | assertFails | full | cut | selectError => exact .inl ⟨ha, rfl, rfl⟩
  | _ => exact ha.elim

theorem ServerData.responsesTo_of_log {n : Nat} {d d' : ServerData n} {es : List (ServerEvent n)}
    (h : d'.log = d.log ++ es) (fd : Fd) :
    d'.responsesTo fd = d.responsesTo fd ++ es.filterMap (ServerEvent.response fd) := by
  rw [responsesTo, h, List.filterMap_append]
  rfl

theorem ServerData.requestsFrom_of_log {n : Nat} {d d' : ServerData n} {es : List (ServerEvent n)}
    (h : d'.log = d.log ++ es) (fd : Fd) :
    d'.requestsFrom fd = d.requestsFrom fd ++ es.filterMap (ServerEvent.request fd) := by
  rw [requestsFrom, h, List.filterMap_append]
  rfl

namespace NetServer

variable {n : Nat} {listenFd : Fd} {s s' : NetServer n}

/-- Every request that was delivered is answered or owed, once. -/
def Balanced (s : NetServer n) : Prop :=
  ∀ fd id, (respIds (s.data.responsesTo fd)).count id + ∑ i, owes fd id (s.slot i) =
    (s.data.deliveredIds fd).count id

/-- The slots after a step of a worker. -/
theorem slot_afterWorker {i : Fin n} {d : ServerData n} {pc : ServerPc} {inp : ServerInput}
    {op : LockOp Mutex} (locks : Mutex → Option (ServerTid n))
    (hm : ServerMove i s.data (s.workers i) inp d pc op) :
    (s.afterWorker i d pc locks).slot =
      Function.update s.slot i (pc, d.activeFds i, (d.reqInfo i).id) := by
  funext j
  by_cases hj : j = i
  · subst hj
    simp [slot, afterWorker]
  · obtain ⟨-, hact, hinfo, -⟩ := hm.others hj
    simp [slot, afterWorker, hj, hact, hinfo]

/-- A step that adds `es` to the log and changes what a worker owes as they say. -/
theorem Balanced.add (hb : s.Balanced) (es : List (ServerEvent n))
    (hlog : s'.data.log = s.data.log ++ es)
    (hslot : ∀ fd id, (∑ i, owes fd id (s'.slot i)) +
        (respIds (es.filterMap (ServerEvent.response fd))).count id =
      (∑ i, owes fd id (s.slot i)) +
        ((es.filterMap (ServerEvent.request fd)).map fun raw => (requestOf raw).id).count id) :
    s'.Balanced := by
  intro fd id
  have hold := hb fd id
  have hs := hslot fd id
  rw [ServerData.deliveredIds] at hold ⊢
  rw [ServerData.responsesTo_of_log hlog, ServerData.requestsFrom_of_log hlog, respIds_append,
    List.count_append, List.map_append, List.count_append]
  omega

/-- A worker moves. -/
theorem Balanced.worker (hb : s.Balanced) {i : Fin n} {d : ServerData n} {pc : ServerPc}
    {inp : ServerInput} {op : LockOp Mutex} {locks : Mutex → Option (ServerTid n)}
    (hm : ServerMove i s.data (s.workers i) inp d pc op)
    (hshape : (s.workers i).Shape s.data i) : (s.afterWorker i d pc locks).Balanced := by
  have hadd : ∀ es, d.log = s.data.log ++ es →
      (∀ fd id, owes fd id (pc, d.activeFds i, (d.reqInfo i).id) +
          (respIds (es.filterMap (ServerEvent.response fd))).count id =
        owes fd id (s.workers i, s.data.activeFds i, (s.data.reqInfo i).id) +
          ((es.filterMap (ServerEvent.request fd)).map fun raw => (requestOf raw).id).count id) →
      (s.afterWorker i d pc locks).Balanced := by
    intro es hlog howes
    refine hb.add es hlog fun fd id => ?_
    have hsum := sum_update (owes fd id) s.slot i (pc, d.activeFds i, (d.reqInfo i).id)
    rw [← slot_afterWorker locks hm] at hsum
    have hslot : s.slot i = (s.workers i, s.data.activeFds i, (s.data.reqInfo i).id) := rfl
    rw [hslot] at hsum
    have ho := howes fd id
    omega
  -- nothing is added, and the worker owes what it owed
  have hkeep : d.log = s.data.log → (∀ fd id, owes fd id (pc, d.activeFds i, (d.reqInfo i).id) =
      owes fd id (s.workers i, s.data.activeFds i, (s.data.reqInfo i).id)) →
      (s.afterWorker i d pc locks).Balanced := fun hlog howes =>
    hadd [] (by rw [hlog, List.append_nil]) fun fd id => by rw [howes]; rfl
  have hquiet : d.log = s.data.log → ¬ (s.workers i).answering → ¬ pc.answering →
      (s.afterWorker i d pc locks).Balanced := fun hlog ha ha' =>
    hkeep hlog fun fd id => by rw [owes_of_not_answering ha, owes_of_not_answering ha']
  generalize s.workers i = pc₀ at hm hshape hkeep hquiet hadd
  cases hm with
  | @stamp fd' raw ns =>
      refine hadd _ rfl fun fd id => ?_
      have hid : (s.data.reqbuf i).id = (requestOf raw).id := by rw [hshape.2]
      by_cases hfd : fd' = fd
      · simp [owes, List.filterMap_cons, ServerEvent.response, ServerEvent.request, hfd, hid,
          respIds, List.count_singleton]
      · simp [owes, List.filterMap_cons, ServerEvent.response, ServerEvent.request, hfd, respIds]
  | respond ns data hns =>
      refine hadd _ rfl fun fd id => ?_
      by_cases hfd : s.data.activeFds i = fd
      · simp [owes, List.filterMap_cons, ServerEvent.response, ServerEvent.request, hfd, respIds,
          mkResponse, List.count_singleton]
      · simp [owes, List.filterMap_cons, ServerEvent.response, ServerEvent.request, hfd, respIds]
  | choose hpc hpc' => exact hquiet rfl hpc.idle.2.1 hpc'.idle.2.1
  | accept hpc hb hpc' => exact hquiet rfl hpc.idle.2.1 hpc'.idle.2.1
  | acceptClose hpc hb hpc' => exact hquiet rfl hpc.idle.2.1 hpc'.idle.2.1
  | leave hpc hc hend hinp => exact hquiet rfl (ServerPc.reading_idle hpc).1 id
  | selectError | cut | full | assertFails | sigpipe => exact hkeep rfl fun _ _ => rfl
  | unlockRecv | lockSend => exact hkeep rfl fun _ _ => rfl
  | _ => exact hquiet rfl id id

end NetServer

theorem netServer_balanced {n : Nat} {listenFd : Fd} {s : NetServer n}
    (h : (netServer listenFd n).Reachable s) : s.Balanced := by
  refine Machine.Reachable.invariant ?_ ?_ h
  · rintro s rfl fd id
    simp [NetServer.start, NetServer.slot, owes, ServerData.responsesTo, ServerData.deliveredIds,
      ServerData.requestsFrom, respIds]
  · intro s a s' hr hs hn
    obtain ⟨-, hmove⟩ := NetServer.next_move hn
    cases hmove with
    | @worker i inp d pc op locks hm hop hstep =>
        exact hs.worker hm ((netServer_routes hr).worker i).shape
    | finisher hm hop =>
        generalize s.finisher = pc₀ at hm
        cases hm with
        | @send fd' todo =>
            refine hs.add [.finish fd'] rfl fun fd id => ?_
            by_cases hfd : fd' = fd
            · simp [List.filterMap_cons, ServerEvent.response, ServerEvent.request, hfd, respIds,
                finishFrame]
              rfl
            · simp [List.filterMap_cons, ServerEvent.response, ServerEvent.request, hfd, respIds]
              rfl
        | _ => exact hs
    | connect | arrive | hangup => exact hs

/-! ## What a client sees -/

/-- More may have been written. -/
theorem Input.arrives.mono {stream stream' : Bytes} {rx : Nat} {inp : Input}
    (h : inp.arrives stream rx) (hpre : stream <+: stream') : inp.arrives stream' rx := by
  cases inp with
  | got bs => exact List.IsPrefix.trans h (hpre.drop rx)
  | _ => trivial

/-- Someone else reads the clock. -/
theorem Session.leads_tick {cfg : Config} {strict : Bool} {nS nR : Nat} {v : Session nS nR}
    {inp : Input} {now : UInt64} (h : inp.tick strict v.now = some now) :
    (session cfg strict nS nR).Leads v { v with now := now } := by
  cases hr : inp.reading with
  | none =>
      simp only [Input.tick, hr, Option.some.injEq] at h
      subst h
      exact .refl v
  | some ns =>
      have htick : Input.tick strict v.now (.clock ns) = some now := by
        simp only [Input.tick, hr] at h
        exact h
      refine .single (a := .tick ns) ?_
      show (Input.tick strict v.now (.clock ns)).map _ = _
      rw [htick]
      rfl

theorem Session.leads_serverTick {cfg : Config} {strict : Bool} {nS nR : Nat}
    {v : Session nS nR} {inp : ServerInput} {now : UInt64}
    (h : inp.tick strict v.now = some now) :
    (session cfg strict nS nR).Leads v { v with now := now } := by
  cases hr : inp.reading with
  | none =>
      simp only [ServerInput.tick, hr, Option.some.injEq] at h
      subst h
      exact .refl v
  | some ns =>
      simp only [ServerInput.tick, hr] at h
      exact Session.leads_tick h

theorem ServerInput.tick_le {now now' : UInt64} {inp : ServerInput}
    (h : inp.tick true now = some now') : now ≤ now' := by
  cases hr : inp.reading with
  | none =>
      simp only [ServerInput.tick, hr, Option.some.injEq] at h
      rw [h]
      exact UInt64.le_refl now'
  | some ns =>
      simp only [ServerInput.tick, hr] at h
      exact Input.tick_le h

namespace System

variable {n m : Nat} {listenFd : Fd} {cfg : Fin m → Config} {strict : Bool}
  {nS nR : Fin m → Nat} {s s' : System n nS nR}

/-- The session of a client. -/
def view (s : System n nS nR) (c : Fin m) : Session (nS c) (nR c) :=
  ⟨s.clients c, s.responsesTo c, s.now⟩

/-- What the server has written to a client is the beginning of what it has sent. -/
theorem Wired.bytesTo (h : s.Wired) (c : Fin m) : s.bytesTo c <+: (s.view c).stream := by
  unfold System.bytesTo Session.stream System.view System.responsesTo
  cases s.links c with
  | via fd =>
      cases hc : s.server.data.conns fd with
      | none => simp [hc]
      | some conn => simpa [hc] using h.written fd conn hc
  | _ => exact List.nil_prefix

/-- A step of the client is a step of its session. -/
theorem view_client (h : s.Wired) {c : Fin m} {a : ClientAction (nS c) (nR c)}
    {cl : NetClient (nS c) (nR c)} {now : UInt64}
    (harr : a.inp.arrives (s.bytesTo c) (s.clients c).data.rx)
    (htick : a.inp.tick strict s.now = some now)
    (hcl : (s.clients c).next (cfg c) a = some cl) :
    Session.next (cfg c) strict (.client a) (s.view c) =
      some ((s.afterClient c cl now).view c) := by
  have harr' : a.inp.arrives (s.view c).stream (s.view c).client.data.rx :=
    harr.mono (h.bytesTo c)
  have hupd : Function.update s.clients c cl c = cl := Function.update_self ..
  simp only [Session.next, harr', if_true]
  show (a.inp.tick strict s.now).bind _ = _
  rw [htick, Option.bind_some]
  show ((s.clients c).next (cfg c) a).map _ = _
  rw [hcl]
  simp only [Option.map_some, view, afterClient, hupd]
  rfl

/-- The ids of the requests delivered from a client are ids it has sent. -/
theorem Wired.count_delivered (h : s.Wired) {c : Fin m} {fd : Fd} (hl : s.Linked)
    (hc : s.links c = .via fd) (hobj : (s.clients c).Objects) (hroutes : s.server.Routes)
    (hrec : s.server.Received) (id : UInt64) :
    (s.server.data.deliveredIds fd).count id ≤ (s.view c).sentIds.count id := by
  obtain ⟨conn, hconn⟩ := Option.ne_none_iff_exists'.mp (hl.isOpen c fd hc)
  obtain ⟨part, hpart⟩ := hrec.conn fd conn hconn
  have hread : (s.server.data.requestsFrom fd).flatten <+: conn.inp := by
    refine List.IsPrefix.trans ?_ (List.take_prefix conn.rx conn.inp)
    rw [← hpart.2]
    exact List.prefix_append _ _
  have hpre := (h.delivered hc hconn hobj (hroutes.requests fd) hread).map
    fun raw => (requestOf raw).id
  have hids : (s.view c).sentIds = ((s.clients c).data.sent.map fun x => x.2.image).map
      fun raw => (requestOf raw).id := by
    rw [List.map_map]
    refine List.map_congr_left fun x _ => ?_
    show x.2.id = (requestOf x.2.image).id
    rw [requestOf_image]
  rw [hids]
  exact hpre.sublist.count_le id

/-- The request a worker is about to deliver was sent. -/
theorem Wired.delivers (h : s.Wired) {c : Fin m} {fd : Fd} (hl : s.Linked)
    (hc : s.links c = .via fd) (hobj : (s.clients c).Objects) (hroutes : s.server.Routes)
    (hrec : s.server.Received) {i : Fin n} {raw : Bytes}
    (hi : s.server.workers i = .stamp fd raw) :
    ∃ x ∈ (s.clients c).data.sent, x.2.image = raw := by
  obtain ⟨conn, hconn⟩ := Option.ne_none_iff_exists'.mp (hl.isOpen c fd hc)
  have hhand := hrec.hand i fd raw (by rw [hi]; rfl) conn hconn
  have hread : (s.server.data.requestsFrom fd ++ [raw]).flatten <+: conn.inp := by
    rw [List.flatten_append, List.flatten_singleton, hhand.2]
    exact List.take_prefix _ _
  have hall : ∀ g ∈ s.server.data.requestsFrom fd ++ [raw], IsRequest g := by
    intro g hg
    obtain hg | hg := List.mem_append.mp hg
    · exact hroutes.requests fd g hg
    · rw [List.mem_singleton.mp hg]
      have hshape := (hroutes.worker i).shape
      rw [hi] at hshape
      exact hshape.1
  have hmem := (h.delivered hc hconn hobj hall hread).subset
    (List.mem_append_right _ (List.mem_singleton_self raw))
  exact List.mem_map.mp hmem

/-- The request a worker answers was sent before the worker began to measure. -/
def Dated (s : System n nS nR) : Prop :=
  ∀ i, (s.server.workers i).answering →
    (s.server.data.reqInfo i).startNs ≤ s.now ∧
    ∀ c, s.links c = .via (s.server.data.activeFds i) →
      ∃ x ∈ (s.clients c).data.sent, x.2.id = (s.server.data.reqInfo i).id ∧
        x.2.sentNs_lock_ad ≤ (s.server.data.reqInfo i).startNs

/-- A response of the server is an answer in the session of its client. -/
theorem view_answer (cfg : Fin m → Config) (hw : s.Wired) (hl : s.Linked) {c : Fin m} {i : Fin n}
    (hc : s.links c = .via (s.server.data.activeFds i)) (hobj : (s.clients c).Objects)
    (hroutes : s.server.Routes) (hrec : s.server.Received) (hb : s.server.Balanced)
    (hi : s.server.workers i = .sendLocked) (hd : strict = true → s.Dated) {ns : UInt64}
    (hns : (s.server.data.reqInfo i).startNs < ns) (data : Payload MAX_RESP_BYTES) :
    Session.next (cfg c) strict (.answer (s.server.data.reqInfo i).id
        (ns - (s.server.data.reqInfo i).startNs) data) { s.view c with now := ns } =
      some { s.view c with
        now := ns
        inbound := s.server.data.responsesTo (s.server.data.activeFds i) ++
          [mkResponse (s.server.data.reqInfo i).id (ns - (s.server.data.reqInfo i).startNs)
            data] } := by
  have hinb : (s.view c).inbound =
      s.server.data.responsesTo (s.server.data.activeFds i) := by
    simp only [view, System.responsesTo, hc]
  -- the worker owes this answer
  have hcount : (respIds (s.view c).inbound).count (s.server.data.reqInfo i).id <
      (s.view c).sentIds.count (s.server.data.reqInfo i).id := by
    have hbal := hb (s.server.data.activeFds i) (s.server.data.reqInfo i).id
    have hmine : owes (s.server.data.activeFds i) (s.server.data.reqInfo i).id
        (s.server.slot i) = 1 := by
      simp [NetServer.slot, hi, owes]
    have hle := le_sum (owes (s.server.data.activeFds i) (s.server.data.reqInfo i).id)
      s.server.slot i
    simp only [hmine] at hle
    have hdel := hw.count_delivered hl hc hobj hroutes hrec (s.server.data.reqInfo i).id
    rw [hinb]
    omega
  have htimed : strict = true → Session.timed { s.view c with now := ns }
      (s.server.data.reqInfo i).id (ns - (s.server.data.reqInfo i).startNs) = true := by
    intro hstrict
    obtain ⟨-, hsent⟩ := hd hstrict i (by rw [hi]; trivial)
    obtain ⟨x, hx, hid, hle⟩ := hsent c hc
    rw [Session.timed, List.any_eq_true]
    refine ⟨x, hx, decide_eq_true ⟨hid, ?_⟩⟩
    have hsub := UInt64.toNat_sub_of_le _ _ (UInt64.le_of_lt hns)
    have hlt := UInt64.lt_iff_toNat_lt.mp hns
    have hle' := UInt64.le_iff_toNat_le.mp hle
    show x.2.sentNs_lock_ad.toNat + (ns - (s.server.data.reqInfo i).startNs).toNat ≤ ns.toNat
    omega
  rw [Session.next, if_pos ⟨hcount, htimed⟩]
  simp only [hinb]

/-- What a step of the server adds to the responses of a client. -/
theorem responsesTo_afterServer (hreach : (netServer listenFd n).Reachable s.server)
    {a : ServerAction n} {sv : NetServer n} (hsv : s.server.next listenFd a = some sv)
    {es : List (ServerEvent n)} (hlog : sv.data.log = s.server.data.log ++ es) (now : UInt64)
    (c : Fin m) :
    (s.afterServer sv now).responsesTo c = s.responsesTo c ∨
      ∃ fd, s.links c = .via fd ∧ (s.afterServer sv now).responsesTo c =
        s.server.data.responsesTo fd ++ es.filterMap (ServerEvent.response fd) := by
  obtain ⟨-, hmove⟩ := NetServer.next_move hsv
  cases hc : s.links c with
  | unconnected | dropped =>
      refine .inl ?_
      simp only [System.responsesTo, afterServer, hc, Link.refresh]
  | via fd =>
      by_cases hnone : sv.data.conns fd = none
      · -- a connection that was closed had not been accepted
        refine .inl ?_
        have hnil := (netServer_fds hreach).responsesTo_nil
          fun ha => (hmove.accepted ha).1 hnone
        simp only [System.responsesTo, afterServer, hc, Link.refresh, hnone, Option.isSome_none]
        exact hnil.symm
      · refine .inr ⟨fd, rfl, ?_⟩
        have hsome : (sv.data.conns fd).isSome = true := Option.isSome_iff_ne_none.mpr hnone
        simp only [System.responsesTo, afterServer, hc, Link.refresh, hsome, if_true]
        exact ServerData.responsesTo_of_log hlog fd

/-- A step of the server is a run of the session of each client: a reading of the clock, an
answer after it, the frame of `finish`, or nothing. -/
theorem view_server (hw : s.Wired) (hl : s.Linked) (hobj : ∀ c, (s.clients c).Objects)
    (hreach : (netServer listenFd n).Reachable s.server) (hd : strict = true → s.Dated)
    {t : ServerTid n} {inp : ServerInput} {sv : NetServer n} {now : UInt64}
    (htick : inp.tick strict s.now = some now)
    (hsv : s.server.next listenFd (t.action inp) = some sv) (c : Fin m) :
    (session (cfg c) strict (nS c) (nR c)).Leads (s.view c) ((s.afterServer sv now).view c) := by
  -- the clock, if no response goes to the client
  have hquiet : (s.afterServer sv now).responsesTo c = s.responsesTo c →
      (session (cfg c) strict (nS c) (nR c)).Leads (s.view c) ((s.afterServer sv now).view c) := by
    intro hsame
    have hview : (s.afterServer sv now).view c = { s.view c with now := now } := by
      simp only [view, hsame]
      rfl
    rw [hview]
    exact Session.leads_serverTick htick
  obtain ⟨es, hlogs, hlog⟩ := (NetServer.next_move hsv).2.logs
  obtain hsame | ⟨fd, hc, hnew⟩ := responsesTo_afterServer hreach hsv hlog now c
  · exact hquiet hsame
  have hold : s.responsesTo c = s.server.data.responsesTo fd := by
    simp only [System.responsesTo, hc]
  generalize ha : t.action inp = a at hlogs
  cases hlogs with
  | none => exact hquiet (by rw [hnew, hold]; simp)
  | delivered hi =>
      refine hquiet ?_
      rw [hnew, hold]
      simp [List.filterMap_cons, ServerEvent.response]
  | @responded i ns data hi hns =>
      by_cases hfd : s.server.data.activeFds i = fd
      · subst hfd
        obtain rfl : inp = .respond ns data := by
          cases t with
          | worker j => exact (ServerAction.worker.inj ha).2
          | finisher => cases ha
        have hnow : now = ns := by
          simp only [ServerInput.tick, ServerInput.reading, Input.tick, Input.reading] at htick
          split at htick
          · cases htick
          · exact (Option.some.inj htick).symm
        have hfirst : (session (cfg c) strict (nS c) (nR c)).Leads (s.view c)
            { s.view c with now := now } := Session.leads_serverTick htick
        refine hfirst.trans (.single (a := .answer (s.server.data.reqInfo i).id
          (ns - (s.server.data.reqInfo i).startNs) data) ?_)
        have hans := view_answer cfg hw hl hc (hobj c) (netServer_routes hreach)
          (netServer_received hreach) (netServer_balanced hreach) hi hd hns data
        subst hnow
        refine hans.trans ?_
        simp only [view, hnew, List.filterMap_cons, List.filterMap_nil, ServerEvent.response,
          if_true]
        rfl
      · refine hquiet ?_
        rw [hnew, hold]
        simp [ServerEvent.response, hfd]
  | @finish fd' todo hf =>
      by_cases hfd : fd' = fd
      · subst hfd
        obtain rfl : inp = .tau := by
          cases t with
          | worker j => cases ha
          | finisher => exact ServerAction.finisher.inj ha
        obtain rfl : s.now = now := Option.some.inj htick
        refine .single (a := .finish) ?_
        show some _ = some _
        simp only [view, hnew, hold, List.filterMap_cons, List.filterMap_nil,
          ServerEvent.response, if_true]
        rfl
      · refine hquiet ?_
        rw [hnew, hold]
        simp [ServerEvent.response, hfd]

/-- A worker of the server moves, under a strict clock. -/
theorem Dated.worker (hd : s.Dated) (hw : s.Wired) (hl : s.Linked)
    (hobj : ∀ c, (s.clients c).Objects) (hroutes : s.server.Routes) (hrec : s.server.Received)
    (htime : ∀ c, (s.view c).Timeline) {i : Fin n} {inp : ServerInput}
    {d : ServerData n} {pc : ServerPc} {op : LockOp Mutex}
    {locks : Mutex → Option (ServerTid n)} {now : UInt64}
    (hm : ServerMove i s.server.data (s.server.workers i) inp d pc op)
    (htick : inp.tick true s.now = some now) :
    (s.afterServer (s.server.afterWorker i d pc locks) now).Dated := by
  have hle := ServerInput.tick_le htick
  have hold : ∀ j, (s.server.workers j).answering → d.reqInfo j = s.server.data.reqInfo j →
      d.activeFds j = s.server.data.activeFds j →
      (d.reqInfo j).startNs ≤ now ∧
      ∀ c, (s.afterServer (s.server.afterWorker i d pc locks) now).links c =
          .via (d.activeFds j) →
        ∃ x ∈ (s.clients c).data.sent, x.2.id = (d.reqInfo j).id ∧
          x.2.sentNs_lock_ad ≤ (d.reqInfo j).startNs := by
    intro j ha hinfo hact
    rw [hinfo, hact]
    exact ⟨UInt64.le_trans (hd j ha).1 hle, fun c hc => (hd j ha).2 c (Link.refresh_via hc).1⟩
  intro j ha
  by_cases hj : j = i
  · subst hj
    have ha' : pc.answering := by simpa [afterServer, NetServer.afterWorker] using ha
    obtain ⟨ha₀, hinfo, hact⟩ | ⟨fd, raw, ns, hpc, rfl, hinfo, hact⟩ := hm.answering ha'
    · exact hold j ha₀ hinfo hact
    · -- a request is delivered: it was sent, so its time stamp is in the past
      have htick' : Input.tick true s.now (.clock ns) = some now := htick
      obtain ⟨hlt, rfl⟩ := Input.tick_reading htick' rfl
      show (d.reqInfo j).startNs ≤ now ∧ ∀ c, _ = Link.via (d.activeFds j) →
        ∃ x ∈ (s.clients c).data.sent, x.2.id = (d.reqInfo j).id ∧
          x.2.sentNs_lock_ad ≤ (d.reqInfo j).startNs
      rw [hinfo, hact]
      refine ⟨UInt64.le_refl now, fun c hc => ?_⟩
      obtain ⟨hc, -⟩ := Link.refresh_via hc
      obtain ⟨x, hx, himage⟩ := hw.delivers hl hc (hobj c) hroutes hrec hpc
      have hshape := (hroutes.worker j).shape
      rw [hpc] at hshape
      refine ⟨x, hx, ?_, UInt64.le_trans ((htime c).sent x hx).1.sent (UInt64.le_of_lt hlt)⟩
      show x.2.id = (s.server.data.reqbuf j).id
      rw [hshape.2, ← himage, requestOf_image]
  · obtain ⟨-, hact, hinfo, -⟩ := hm.others hj
    have ha' : (s.server.workers j).answering := by
      simpa [afterServer, NetServer.afterWorker, hj] using ha
    exact hold j ha' hinfo hact

/-- Every step, under a strict clock. -/
theorem Move.dated (hm : Move listenFd cfg true s s') (hd : s.Dated) (hw : s.Wired)
    (hl : s.Linked) (hobj : ∀ c, (s.clients c).Objects)
    (hreach : (netServer listenFd n).Reachable s.server) (htime : ∀ c, (s.view c).Timeline) :
    s'.Dated := by
  cases hm with
  | @client c a cl now hlink harr hcarry htick hcl =>
      intro i ha
      refine ⟨UInt64.le_trans (hd i ha).1 (Input.tick_le htick), fun c' hc' => ?_⟩
      obtain ⟨x, hx, hid, hle⟩ := (hd i ha).2 c' hc'
      refine ⟨x, ?_, hid, hle⟩
      by_cases hcc : c' = c
      · subst hcc
        have hupd : (s.afterClient c' cl now).clients c' = cl := Function.update_self ..
        rw [hupd]
        cases NetClient.next_move hcl with
        | sender i hrun hm hop => exact hm.frame.sent.subset hx
        | @receiver j inp d pc op locks hrun hm hop =>
            show x ∈ d.sent
            rw [hm.frame.sent]
            exact hx
      · have hupd : (s.afterClient c cl now).clients c' = s.clients c' :=
          Function.update_of_ne hcc ..
        rw [hupd]
        exact hx
  | @server t inp sv now hcarry htick hsv =>
      obtain ⟨-, hmove⟩ := NetServer.next_move hsv
      cases t with
      | worker i =>
          cases hmove with
          | worker hm hop hstep =>
              exact hd.worker hw hl hobj (netServer_routes hreach) (netServer_received hreach)
                htime hm htick
      | finisher =>
          cases hmove with
          | @finisher inp d pc op locks hm hop =>
              intro i ha
              obtain ⟨-, hact, hinfo, -⟩ := hm.others i
              show (d.reqInfo i).startNs ≤ now ∧ ∀ c, _ = Link.via (d.activeFds i) →
                ∃ x ∈ (s.clients c).data.sent, x.2.id = (d.reqInfo i).id ∧
                  x.2.sentNs_lock_ad ≤ (d.reqInfo i).startNs
              rw [hinfo, hact]
              exact ⟨UInt64.le_trans (hd i ha).1 (ServerInput.tick_le htick),
                fun c hc => (hd i ha).2 c (Link.refresh_via hc).1⟩
  | @connect c fd sv hlink hsv =>
      obtain ⟨-, hmove⟩ := NetServer.next_move hsv
      cases hmove with
      | connect hl' hfd =>
          intro i ha
          refine ⟨(hd i ha).1, fun c' hc' => (hd i ha).2 c' ?_⟩
          by_cases hcc : c' = c
          · subst hcc
            -- the connection of a request in progress is open, the new one was not
            simp only [Function.update_self, Link.via.injEq] at hc'
            have hacc := (netServer_fds hreach).workers i |>.active ha
            exact absurd (hc' ▸ hfd) hacc.1
          · simp only [Function.update_of_ne hcc] at hc'
            exact hc'
  | deliver hlink hconn hbs hsv =>
      obtain ⟨-, hmove⟩ := NetServer.next_move hsv
      cases hmove with
      | arrive hc hopen => exact hd
  | hangup hlink hsv =>
      obtain ⟨-, hmove⟩ := NetServer.next_move hsv
      cases hmove with
      | hangup => exact hd

/-- **One step of the system** is a run of the session of each client. -/
theorem Move.view (hm : Move listenFd cfg strict s s') (hw : s.Wired) (hl : s.Linked)
    (hobj : ∀ c, (s.clients c).Objects) (hreach : (netServer listenFd n).Reachable s.server)
    (hd : strict = true → s.Dated) (c : Fin m) :
    (session (cfg c) strict (nS c) (nR c)).Leads (s.view c) (s'.view c) := by
  have hsame : s'.clients c = s.clients c → s'.responsesTo c = s.responsesTo c →
      s'.now = s.now →
      (session (cfg c) strict (nS c) (nR c)).Leads (s.view c) (s'.view c) := by
    intro hcl hresp hnow
    have hview : s'.view c = s.view c := by
      simp only [System.view, hcl, hresp, hnow]
    rw [hview]
    exact .refl _
  cases hm with
  | @client c' a cl now hlink harr hcarry htick hcl =>
      by_cases hcc : c = c'
      · subst hcc
        refine .single (a := .client a) ?_
        exact view_client hw harr htick hcl
      · have hview : (s.afterClient c' cl now).view c = { s.view c with now := now } := by
          simp only [System.view, afterClient, Function.update_of_ne hcc]
          rfl
        rw [hview]
        exact Session.leads_tick htick
  | server hcarry htick hsv => exact view_server hw hl hobj hreach hd htick hsv c
  | @connect c' fd sv hlink hsv =>
      obtain ⟨-, hmove⟩ := NetServer.next_move hsv
      cases hmove with
      | connect hl' hfd =>
          refine hsame rfl ?_ rfl
          by_cases hcc : c = c'
          · subst hcc
            -- nothing was sent on a connection that was not open
            have hnil := (netServer_fds hreach).responsesTo_nil fun ha => ha.1 hfd
            simp only [System.responsesTo, Function.update_self, hlink]
            exact hnil
          · simp only [System.responsesTo, Function.update_of_ne hcc]
            rfl
  | deliver hlink hconn hbs hsv =>
      obtain ⟨-, hmove⟩ := NetServer.next_move hsv
      cases hmove with
      | arrive hc hopen => exact hsame rfl rfl rfl
  | hangup hlink hsv =>
      obtain ⟨-, hmove⟩ := NetServer.next_move hsv
      cases hmove with
      | hangup => exact hsame rfl rfl rfl

end System

section Reachable

variable {n m : Nat} {listenFd : Fd} {cfg : Fin m → Config} {strict : Bool}
  {nS nR : Fin m → Nat} {s : System n nS nR}

/-- The view of every client is a session, and under a strict clock requests are answered after
they were sent. -/
theorem system_view_dated (h : (system listenFd n cfg strict nS nR).Reachable s) :
    (∀ c, (session (cfg c) strict (nS c) (nR c)).Reachable (s.view c)) ∧
      (strict = true → s.Dated) := by
  refine Machine.Reachable.invariant (P := fun s : System n nS nR =>
    (∀ c, (session (cfg c) strict (nS c) (nR c)).Reachable (s.view c)) ∧
      (strict = true → s.Dated)) ?_ ?_ h
  · rintro s ⟨t, rfl⟩
    exact ⟨fun c => .init ⟨t, rfl⟩, fun _ i ha => ha.elim⟩
  · rintro s a s' hr ⟨hview, hdated⟩ hn
    have hmove := System.next_move hn
    have hobj := fun c => netClient_objects (system_client hr c)
    refine ⟨fun c => ?_, ?_⟩
    · exact (hview c).leads
        (hmove.view (system_wired hr) (system_linked hr) hobj (system_server hr) hdated c)
    · rintro rfl
      exact hmove.dated (hdated rfl) (system_wired hr) (system_linked hr) hobj
        (system_server hr) fun c => session_timeline (hview c)

/-- **Each client sees a session.** -/
theorem system_view (h : (system listenFd n cfg strict nS nR).Reachable s) (c : Fin m) :
    (session (cfg c) strict (nS c) (nR c)).Reachable (s.view c) :=
  (system_view_dated h).1 c

end Reachable

end TailBench
