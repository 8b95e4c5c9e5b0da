import TailBench.Harness.SystemView

set_option autoImplicit false

/-! # Latency samples

`finiReq` computes a sample from the time stamps of the request, the service time in the
response and a reading of the clock. Under a strict clock, in every run of a server and its
clients, no assertion about time fails, the branches that warn are not taken, and the samples
are what their names say. The one difference that wraps around is `SendingTime`, which
`finiReq` prints in the region of interest: nothing sets `sentNs_lock_re`.
-/

namespace TailBench

open Lib

/-! ## One sample -/

/-- The sample of a response is measured right: the assertion holds, no warning is printed, no
difference wraps around, and the times add up. -/
structure Completion.Accurate (x : Completion) : Prop where
  generated : x.req.genNs < x.curNs
  noWarning : Client.warns x.req x.resp x.curNs = false
  lock : x.req.startNs_lock_ad ≤ x.req.startNs_lock_re
  date : x.sample.requestDate ≤ x.curNs
  sojourn : x.sample.sjrnTime.toNat = x.curNs.toNat - x.sample.requestDate.toNat
  service : x.sample.svcTime ≤ x.sample.sjrnTime
  sum : x.sample.queueTime.toNat + x.sample.svcTime.toNat = x.sample.sjrnTime.toNat
  sending : x.req.sentNs_lock_ad ≤ x.curNs
  nic : x.sample.nicSjrnTime.toNat = x.curNs.toNat - x.req.sentNs_lock_ad.toNat
  service_le_nic : x.sample.svcTime ≤ x.sample.nicSjrnTime
  nic_le_sojourn : x.sample.nicSjrnTime ≤ x.sample.sjrnTime

/-- Everything `finiReq` computes from a response is right, with what it prints in the region of
interest: there it also takes `sentNs_lock_re - sentNs_lock_ad`. -/
def Completion.Sound (x : Completion) : Prop :=
  x.Accurate ∧ (x.status = .ROI → x.req.sentNs_lock_ad ≤ x.req.sentNs_lock_re)

/-- **A response to a request that was sent**, with a service time that was measured between its
sending and now. -/
theorem Request.Sent.accurate {now curNs : UInt64} {r : Request} (h : r.Sent now)
    {resp : Response} (hsvc : r.sentNs_lock_ad.toNat + resp.svcNs.toNat ≤ now.toNat)
    (hcur : now < curNs) (status : ClientStatus) :
    Completion.Accurate ⟨r, resp, curNs, status, Client.sample r resp curNs⟩ := by
  have hstart : r.startNs.toNat < r.sentNs_lock_ad.toNat := by
    have h1 := UInt64.lt_iff_toNat_lt.mp h.start
    have h2 := UInt64.lt_iff_toNat_lt.mp h.lock
    have h3 := UInt64.lt_iff_toNat_lt.mp h.stamp
    have h4 := UInt64.lt_iff_toNat_lt.mp h.send
    omega
  have hgen : r.genNs.toNat < r.sentNs_lock_ad.toNat := by
    have h1 := UInt64.lt_iff_toNat_lt.mp h.due
    have h2 := UInt64.lt_iff_toNat_lt.mp h.send
    omega
  have hnow : now.toNat < curNs.toNat := UInt64.lt_iff_toNat_lt.mp hcur
  -- the time the sojourn is counted from, late or not
  obtain ⟨date, hdate, hsjrn, hlt⟩ : ∃ date, (Client.sample r resp curNs).requestDate = date ∧
      Client.sojourn r curNs = curNs - date ∧ date.toNat < r.sentNs_lock_ad.toNat := by
    cases hl : r.late with
    | false => exact ⟨r.genNs, by simp [Client.sample, hl], by simp [Client.sojourn, hl], hgen⟩
    | true => exact ⟨r.startNs, by simp [Client.sample, hl], by simp [Client.sojourn, hl], hstart⟩
  have hle : date ≤ curNs := UInt64.le_iff_toNat_le.mpr (by omega)
  have hsojourn : (Client.sojourn r curNs).toNat = curNs.toNat - date.toNat := by
    rw [hsjrn, UInt64.toNat_sub_of_le _ _ hle]
  have hsend : r.sentNs_lock_ad ≤ curNs := UInt64.le_iff_toNat_le.mpr (by omega)
  have hnic : (curNs - r.sentNs_lock_ad).toNat = curNs.toNat - r.sentNs_lock_ad.toNat :=
    UInt64.toNat_sub_of_le _ _ hsend
  have hservice : resp.svcNs ≤ Client.sojourn r curNs :=
    UInt64.le_iff_toNat_le.mpr (by omega)
  have hwarn : Client.warns r resp curNs = false := by
    rw [Client.warns, decide_eq_false_iff_not]
    exact UInt64.not_lt.mpr hservice
  have hqueue : (Client.sample r resp curNs).queueTime.toNat =
      (Client.sojourn r curNs).toNat - resp.svcNs.toNat := by
    simp only [Client.sample, hwarn, Bool.false_eq_true, if_false]
    exact UInt64.toNat_sub_of_le _ _ hservice
  have hservice' := UInt64.le_iff_toNat_le.mp hservice
  constructor
  case generated => exact UInt64.lt_iff_toNat_lt.mpr (by show r.genNs.toNat < curNs.toNat; omega)
  case noWarning => exact hwarn
  case lock => exact UInt64.le_of_lt h.lock
  case date => rw [hdate]; exact hle
  case sojourn => rw [hdate]; exact hsojourn
  case service => exact hservice
  case sum =>
    show (Client.sample r resp curNs).queueTime.toNat + resp.svcNs.toNat =
      (Client.sojourn r curNs).toNat
    omega
  case sending => exact hsend
  case nic => exact hnic
  case service_le_nic =>
    refine UInt64.le_iff_toNat_le.mpr ?_
    show resp.svcNs.toNat ≤ (curNs - r.sentNs_lock_ad).toNat
    omega
  case nic_le_sojourn =>
    refine UInt64.le_iff_toNat_le.mpr ?_
    show (curNs - r.sentNs_lock_ad).toNat ≤ (Client.sojourn r curNs).toNat
    omega

/-- Nothing sets `sentNs_lock_re`. -/
theorem Request.Sent.lock_re_lt {now : UInt64} {r : Request} (h : r.Sent now) :
    r.sentNs_lock_re < r.sentNs_lock_ad := by
  rw [h.unset]
  exact UInt64.lt_of_le_of_lt UInt64.zero_le h.send

/-! ## One session -/

/-- A receiver processes responses of type `RESPONSE` only. -/
def ReceiverPc.Typed : ReceiverPc → Prop
  | .lockFini resp | .fini resp => resp.type = ResponseType.RESPONSE.code
  | _ => True

theorem ReceiverMove.typed {cfg : Config} {d d' : NetData} {pc pc' : ReceiverPc} {inp : Input}
    {op : LockOp Mutex} (hm : ReceiverMove cfg d pc inp d' pc' op) (h : pc.Typed) : pc'.Typed := by
  cases hm with
  | response ht => exact ht
  | lockFini => exact h
  | fault curNs laterNs hf => exact h
  | _ => trivial

theorem netClient_typed {cfg : Config} {nS nR : Nat} {s : NetClient nS nR}
    (h : (netClient cfg nS nR).Reachable s) (j : Fin nR) : (s.receivers j).Typed := by
  revert j
  refine Machine.Reachable.invariant (P := fun s : NetClient nS nR =>
    ∀ j, (s.receivers j).Typed) ?_ ?_ h
  · rintro s rfl j
    trivial
  · intro s a s' _ hs hn k
    cases NetClient.next_move hn with
    | sender i hrun hm hop => exact hs k
    | @receiver j inp d pc op locks hrun hm hop =>
        by_cases hkj : k = j
        · subst hkj
          simpa [NetClient.afterReceiver] using hm.typed (hs k)
        · simpa [NetClient.afterReceiver, hkj] using hs k

/-- When a receiver began to receive a response. -/
def ReceiverPc.began : ReceiverPc → Option UInt64
  | .header s1 _ | .payload s1 _ _ | .received s1 _ => some s1
  | _ => none

theorem ReceiverMove.began {cfg : Config} {d d' : NetData} {pc pc' : ReceiverPc} {inp : Input}
    {op : LockOp Mutex} (hm : ReceiverMove cfg d pc inp d' pc' op) {s1 : UInt64}
    (h : pc'.began = some s1) : pc.began = some s1 ∨ inp = .clock s1 := by
  cases hm with
  | begin s1' =>
      cases h
      exact .inr rfl
  | header | headerData | headerEmpty | headerOther | payload | payloadDone => exact .inl h
  | _ => cases h

namespace Session

variable {cfg : Config} {nS nR : Nat} {s s' : Session nS nR}

/-- The service times the server reports were measured after the request was sent. -/
def Measured (s : Session nS nR) : Prop :=
  ∀ r ∈ s.inbound, r.type = ResponseType.RESPONSE.code → s.timed r.id r.svcNs = true

theorem timed_iff {id svcNs : UInt64} : s.timed id svcNs = true ↔
    ∃ x ∈ s.client.data.sent, x.2.id = id ∧
      x.2.sentNs_lock_ad.toNat + svcNs.toNat ≤ s.now.toNat := by
  simp [timed, List.any_eq_true]

/-- Requests that were sent stay sent, and time goes on. -/
theorem Measured.mono (h : s.Measured) (hinb : s'.inbound = s.inbound)
    (hsent : s.client.data.sent ⊆ s'.client.data.sent) (hle : s.now ≤ s'.now) : s'.Measured := by
  intro r hr ht
  rw [hinb] at hr
  obtain ⟨x, hx, hid, hns⟩ := timed_iff.mp (h r hr ht)
  exact timed_iff.mpr ⟨x, hsent hx, hid, hns.trans hle⟩

theorem Move.measured (hm : Move cfg true s s') (h : s.Measured) : s'.Measured := by
  cases hm with
  | client hm harr htick =>
      refine h.mono rfl ?_ (Input.tick_le htick)
      cases hm with
      | sender i hrun hm hop => exact hm.frame.sent.subset
      | @receiver j inp d pc op locks hrun hm hop =>
          intro x hx
          show x ∈ d.sent
          rw [hm.frame.sent]
          exact hx
  | answer id svcNs data hid ht =>
      intro r hr htype
      obtain hr | hr := List.mem_append.mp hr
      · exact h r hr htype
      · rw [List.mem_singleton.mp hr]
        exact ht rfl
  | finish =>
      intro r hr htype
      obtain hr | hr := List.mem_append.mp hr
      · exact h r hr htype
      · rw [List.mem_singleton.mp hr] at htype
        exact absurd htype (by decide)
  | tick htick => exact h.mono rfl (List.Subset.refl _) (Input.tick_le htick)

/-- The request that `finiReq` finds for a response is the one that was sent, as it was sent. -/
theorem sent_of_matches (htl : s.Timeline) (hms : s.Measured) (htab : s.Table) (hr : s.Reads)
    (ho : s.client.Objects) (hle : s.client.data.obj.allocated ≤ 2 ^ 64) {j : Fin nR}
    {resp : Response} (hj : s.client.receivers j = .fini resp)
    (htype : resp.type = ResponseType.RESPONSE.code) {p : Nat} {req : Request}
    (hentry : s.client.data.obj.inFlightReqs resp.id = some p)
    (hlive : s.client.data.obj.heap p = some req) :
    req.Sent s.now ∧ req.sentNs_lock_ad.toNat + resp.svcNs.toNat ≤ s.now.toNat := by
  obtain ⟨x, hx, hid, hp⟩ := htab.entry hr ho hle hj
  rw [hentry, Option.some.injEq] at hp
  subst hp
  obtain ⟨hsent, heq⟩ := htl.sent x hx
  obtain rfl := heq req hlive
  refine ⟨hsent, ?_⟩
  -- the response is one the server has sent, so its service time fits some request; ids tell
  -- that it is this one
  obtain ⟨r, hrin, ns, hrecv⟩ := hr.held j resp (by rw [hj]; rfl)
  have hmeas := hms r hrin (by rw [hrecv] at htype; exact htype)
  obtain ⟨y, hy, hyid, hyns⟩ := timed_iff.mp hmeas
  have hresp : resp.id = r.id ∧ resp.svcNs = r.svcNs := by rw [hrecv]; exact ⟨rfl, rfl⟩
  have hxid : x.2.id = y.2.id := by rw [(ho.sent x hx).1, ← hid, hresp.1, hyid]
  obtain rfl := List.inj_on_of_nodup_map (sentIds_nodup ho hle) hx hy hxid
  rw [hresp.2]
  exact hyns

/-- What is known of the responses that `finiReq` has processed: the request was sent before. -/
structure Accurate (s : Session nS nR) : Prop where
  completed : ∀ x ∈ s.client.data.obj.completed,
    x.Accurate ∧ ∃ now, x.req.Sent now ∧ now < x.curNs
  noAbort : s.client.data.proc ≠ .aborted .genNs

theorem Move.accurate (hm : Move cfg true s s') (h : s.Accurate) (htl : s.Timeline)
    (hms : s.Measured) (htab : s.Table) (hr : s.Reads) (ho : s.client.Objects)
    (hle : s.client.data.obj.allocated ≤ 2 ^ 64)
    (htyped : ∀ j, (s.client.receivers j).Typed) : s'.Accurate := by
  cases hm with
  | @client inp c now hm harr htick =>
      cases hm with
      | @sender i _ d pc op locks hrun hm hop =>
          refine ⟨fun x hx => h.completed x ?_, ?_⟩
          · rw [← hm.frame.window.completed]
            exact hx
          · show d.proc ≠ _
            obtain hp | hp := hm.proc
            · rw [hp]
              exact h.noAbort
            · rw [hp]
              simp
      | @receiver j _ d pc op locks hrun hm hop =>
          generalize hpc : s.client.receivers j = pc₀ at hm
          -- what `finiReq` finds, and when it is called
          have hfound : ∀ {resp : Response} {curNs laterNs : UInt64} {p : Nat} {req : Request},
              pc₀ = .fini resp → inp = .fini curNs laterNs →
              s.client.data.obj.inFlightReqs resp.id = some p →
              s.client.data.obj.heap p = some req →
              s.now < curNs ∧ req.Sent s.now ∧
                req.sentNs_lock_ad.toNat + resp.svcNs.toNat ≤ s.now.toNat := by
            rintro resp curNs laterNs p req rfl rfl hentry hlive
            have htype := htyped j
            rw [hpc] at htype
            exact ⟨(Input.tick_reading htick rfl).1,
              sent_of_matches htl hms htab hr ho hle hpc htype hentry hlive⟩
          have hdone : ∀ {resp : Response} {curNs laterNs : UInt64} {p : Nat} {req : Request}
              {c : Client} {ex : Bool}, pc₀ = .fini resp → inp = .fini curNs laterNs →
              s.client.data.obj.Matches resp curNs p req →
              Client.FiniEnd cfg laterNs (s.client.data.obj.finiRecord p req resp curNs) c ex →
              ∀ x ∈ c.completed, x.Accurate ∧ ∃ now, x.req.Sent now ∧ now < x.curNs := by
            intro resp curNs laterNs p req c ex hres hinp hmt he x hx
            rw [he.same.completed, Client.finiRecord_completed] at hx
            obtain hx | hx := List.mem_append.mp hx
            · exact h.completed x hx
            · obtain ⟨hcur, hsent, hsvc⟩ := hfound hres hinp hmt.entry hmt.live
              rw [List.mem_singleton.mp hx]
              exact ⟨hsent.accurate hsvc hcur _, s.now, hsent, hcur⟩
          cases hm with
          | @fault resp f curNs laterNs hf =>
              refine ⟨h.completed, ?_⟩
              show Proc.aborted f ≠ .aborted .genNs
              rintro ⟨⟩
              obtain ⟨p, req, -, ⟨x, -, hx⟩ | ⟨x, -, hx⟩ | ⟨-, -, hx⟩⟩ | ⟨-, hx⟩ | ⟨p, -, -, hx⟩ |
                ⟨p, req, hentry, hlive, hlt, -⟩ :=
                Client.finiReq_cases cfg curNs laterNs resp s.client.data.obj
              all_goals try (rw [hf] at hx; cases hx)
              obtain ⟨hcur, hsent, -⟩ := hfound rfl rfl hentry hlive
              refine hlt (UInt64.lt_trans (UInt64.lt_trans hsent.due hsent.send) ?_)
              exact UInt64.lt_of_le_of_lt hsent.sent hcur
          | returns curNs laterNs hmt he => exact ⟨hdone rfl rfl hmt he, h.noAbort⟩
          | exits curNs laterNs hmt he => exact ⟨hdone rfl rfl hmt he, h.noAbort⟩
          | exitGroup => exact ⟨h.completed, nofun⟩
          | _ => exact ⟨h.completed, h.noAbort⟩
  | answer id svcNs data hid ht => exact ⟨h.completed, h.noAbort⟩
  | finish => exact ⟨h.completed, h.noAbort⟩
  | tick htick => exact ⟨h.completed, h.noAbort⟩

/-- The receivers began to receive in the past, so `recvNs` does not wrap around either. -/
def Begun (s : Session nS nR) : Prop :=
  ∀ j s1, (s.client.receivers j).began = some s1 → s1 ≤ s.now

theorem Move.begun (hm : Move cfg true s s') (h : s.Begun) : s'.Begun := by
  cases hm with
  | @client inp c now hm harr htick =>
      have hle := Input.tick_le htick
      cases hm with
      | sender i hrun hm hop => exact fun j s1 hj => UInt64.le_trans (h j s1 hj) hle
      | @receiver j _ d pc op locks hrun hm hop =>
          intro k s1 hk
          by_cases hkj : k = j
          · subst hkj
            have hk' : pc.began = some s1 := by simpa [NetClient.afterReceiver] using hk
            obtain hold | rfl := hm.began hk'
            · exact UInt64.le_trans (h k s1 hold) hle
            · obtain ⟨-, rfl⟩ := Input.tick_reading htick rfl
              exact UInt64.le_refl _
          · exact UInt64.le_trans (h k s1 (by simpa [NetClient.afterReceiver, hkj] using hk)) hle
  | answer id svcNs data hid ht => exact h
  | finish => exact h
  | tick htick => exact fun j s1 hj => UInt64.le_trans (h j s1 hj) (Input.tick_le htick)

end Session

section Reachable

variable {cfg : Config} {nS nR : Nat} {s : Session nS nR}

theorem session_measured (h : (session cfg true nS nR).Reachable s) : s.Measured := by
  refine Machine.Reachable.invariant ?_ ?_ h
  · rintro s ⟨t, rfl⟩
    exact nofun
  · intro s a s' _ hs hn
    exact (Session.next_move hn).measured hs

theorem session_begun (h : (session cfg true nS nR).Reachable s) : s.Begun := by
  refine Machine.Reachable.invariant ?_ ?_ h
  · rintro s ⟨t, rfl⟩
    exact nofun
  · intro s a s' _ hs hn
    exact (Session.next_move hn).begun hs

/-- **Every response that `finiReq` processes is measured right.** -/
theorem session_accurate (h : (session cfg true nS nR).Reachable s) : s.Accurate := by
  refine Machine.Reachable.invariant ?_ ?_ h
  · rintro s ⟨t, rfl⟩
    exact ⟨nofun, nofun⟩
  · intro s a s' hr hs hn
    have hclient := session_client hr
    exact (Session.next_move hn).accurate hs (session_timeline hr) (session_measured hr)
      (session_strict_table hr) (session_reads hr) (netClient_objects hclient)
      (session_allocated hr) (netClient_typed hclient)

end Reachable

/-! ## The system -/

/-- The assertion of `sendResp` holds: a worker began to measure before it reads the clock. -/
theorem system_startNs {n m : Nat} {listenFd : Fd} {cfg : Fin m → Config}
    {nS nR : Fin m → Nat} {s : System n nS nR}
    (h : (system listenFd n cfg true nS nR).Reachable s) :
    s.server.data.proc ≠ .abortedStartNs := by
  refine Machine.Reachable.invariant (P := fun s : System n nS nR =>
    s.server.data.proc ≠ .abortedStartNs) ?_ ?_ h
  · rintro s ⟨t, rfl⟩
    exact nofun
  · intro s a s' hr hs hn
    cases System.next_move hn with
    | client hlink harr hcarry htick hcl => exact hs
    | @server t inp sv now hcarry htick hsv =>
        obtain ⟨-, hmove⟩ := NetServer.next_move hsv
        cases t with
        | worker i =>
            cases hmove with
            | worker hm hop hstep =>
                have hdated := (system_view_dated hr).2 rfl i
                show _ ≠ _
                generalize hw : s.server.workers i = pc₀ at hm hdated
                cases hm with
                -- a strict clock reads more than `startNs`
                | assertFails ns data hns =>
                    have htick' : Input.tick true s.now (.clock ns) = some now := htick
                    obtain ⟨hlt, -⟩ := Input.tick_reading htick' rfl
                    have hstart := (hdated trivial).1
                    exact absurd (UInt64.le_trans hns hstart) (UInt64.not_le.mpr hlt)
                | overrun | cut | sigpipe | selectError => exact nofun
                | _ => exact hs
        | finisher =>
            cases hmove with
            | finisher hm hop =>
                show _ ≠ _
                generalize s.server.finisher = pc₀ at hm
                cases hm with
                | writeError | sigpipe => exact nofun
                | _ => exact hs
    | connect hlink hsv =>
        obtain ⟨-, hmove⟩ := NetServer.next_move hsv
        cases hmove with
        | connect => exact hs
    | deliver hlink hconn hbs hsv =>
        obtain ⟨-, hmove⟩ := NetServer.next_move hsv
        cases hmove with
        | arrive => exact hs
    | hangup hlink hsv =>
        obtain ⟨-, hmove⟩ := NetServer.next_move hsv
        cases hmove with
        | hangup => exact hs

/-- **Latency samples.** In every run of a server and any number of clients under a strict
clock: no assertion about time fails; every response that a client has processed has an
accurate sample; and everything `finiReq` computes from a response is right if and only if it
is processed outside the region of interest, where no `SendingTime` is printed. -/
theorem latency_samples {n m : Nat} {listenFd : Fd} {cfg : Fin m → Config}
    {nS nR : Fin m → Nat} {s : System n nS nR}
    (h : (system listenFd n cfg true nS nR).Reachable s) :
    s.server.data.proc ≠ .abortedStartNs ∧
    ∀ c, (s.clients c).data.proc ≠ .aborted .genNs ∧
      (∀ j s1, ((s.clients c).receivers j).began = some s1 → s1 ≤ s.now) ∧
      ∀ x ∈ (s.clients c).data.obj.completed, x.Accurate ∧ (x.Sound ↔ x.status ≠ .ROI) := by
  refine ⟨system_startNs h, fun c => ?_⟩
  have hview := system_view h c
  have hacc := session_accurate hview
  refine ⟨hacc.noAbort, session_begun hview, fun x hx => ?_⟩
  obtain ⟨hx, now, hsent, -⟩ := hacc.completed x hx
  refine ⟨hx, fun hsound hroi => ?_, fun hroi => ⟨hx, fun hroi' => absurd hroi' hroi⟩⟩
  exact absurd (hsound.2 hroi) (UInt64.not_le.mpr hsent.lock_re_lt)

/-! ### One server thread and one client

The client of `smallConfig` connects as descriptor 4; each of its two requests is served and
processed before the next one. The second is processed in the region of interest. -/

/-- The actions of a server with one worker and a client with one sender and one receiver. -/
abbrev SmallAction := SystemAction 1 (fun _ : Fin 1 => 1) (fun _ : Fin 1 => 1)

/-- Steps of the worker. -/
def workerSteps (inps : List ServerInput) : List SmallAction :=
  inps.map fun inp => .server (.worker 0) inp

/-- The client connects and is accepted. -/
def connectOne : List SmallAction :=
  .connect 0 4 :: workerSteps [.tau, .ready [3], .accepted]

/-- A request arrives and is answered, with two readings of the clock from `t` on. -/
def serveOne (t : UInt64) : List SmallAction :=
  .deliver 0 81 :: workerSteps
    [.ready [4], .got 80, .got 1, .clock t, .tau, .tau, .respond (t + 1) ⟨[], Nat.zero_le _⟩,
     .wrote 40, .tau, .tau]

def smallSystemRun : List SmallAction :=
  connectOne ++
  (NetClient.sendOne 0 true 10 ⟨[1], by decide⟩).map (.client 0) ++ serveOne 20 ++
  (NetClient.recvOne 0 30 (mkResponse 0 1 ⟨[], Nat.zero_le _⟩)).map (.client 0) ++
  (NetClient.sendOne 0 false 40 ⟨[1], by decide⟩).map (.client 0) ++ serveOne 50 ++
  (NetClient.recvOne 0 60 (mkResponse 1 1 ⟨[], Nat.zero_le _⟩)).map (.client 0)

/-- The second response is measured right, and its `SendingTime` is not. -/
theorem latency_samples_smallSystemRun :
    ∃ s, (system 3 1 (fun _ : Fin 1 => smallConfig) true (fun _ => 1) (fun _ => 1)).Reachable s ∧
      ∃ x ∈ (s.clients 0).data.obj.completed, x.status = .ROI ∧ x.Accurate ∧ ¬ x.Sound := by
  obtain ⟨s, hs, hroi⟩ := Machine.Reachable.exists_of_exec
    (P := fun s : System 1 (fun _ : Fin 1 => 1) (fun _ => 1) =>
      ∃ x ∈ (s.clients 0).data.obj.completed, x.status = .ROI) smallSystemRun
    (show (system 3 1 (fun _ : Fin 1 => smallConfig) true (fun _ => 1) (fun _ => 1)).init
      (System.start _ 0) from ⟨0, rfl⟩) (by decide +kernel)
  obtain ⟨x, hx, hstatus⟩ := hroi
  obtain ⟨hacc, hsound⟩ := ((latency_samples hs).2 0).2.2 x hx
  exact ⟨s, hs, x, hx, hstatus, hacc, fun h => hsound.mp h hstatus⟩

/-- The difference that wraps around. -/
theorem sendingTime_wraps :
    ∃ s, (system 3 1 (fun _ : Fin 1 => smallConfig) true (fun _ => 1) (fun _ => 1)).Reachable s ∧
      ∃ x ∈ (s.clients 0).data.obj.completed, x.status = .ROI ∧
        x.req.sentNs_lock_ad = 46 ∧ x.req.sentNs_lock_re = 0 ∧
        Client.sendingTime x.req = 18446744073709551570 ∧ ¬ x.Sound := by
  obtain ⟨s, hs, x, hx, hstatus, had, hre, htime⟩ := Machine.Reachable.exists_of_exec
    (P := fun s : System 1 (fun _ : Fin 1 => 1) (fun _ => 1) =>
      ∃ x ∈ (s.clients 0).data.obj.completed, x.status = .ROI ∧ x.req.sentNs_lock_ad = 46 ∧
        x.req.sentNs_lock_re = 0 ∧ Client.sendingTime x.req = 18446744073709551570)
    smallSystemRun
    (show (system 3 1 (fun _ : Fin 1 => smallConfig) true (fun _ => 1) (fun _ => 1)).init
      (System.start _ 0) from ⟨0, rfl⟩) (by decide +kernel)
  refine ⟨s, hs, x, hx, hstatus, had, hre, htime, fun h => ?_⟩
  have hle := h.2 hstatus
  rw [had, hre] at hle
  exact absurd hle (by decide)

/-! ## The order of the time stamps -/

/-- The life cycle of a request, as the comments of `struct Request` have it, up to the reading
of the clock in `finiReq`. -/
structure Completion.Ordered (x : Completion) : Prop where
  start : x.req.startNs ≤ x.req.startNs_lock_ad
  startLock : x.req.startNs_lock_ad ≤ x.req.startNs_lock_re
  send : x.req.startNs_lock_re ≤ x.req.sentNs
  sendLock : x.req.sentNs ≤ x.req.sentNs_lock_ad
  sending : x.req.sentNs_lock_ad ≤ x.req.sentNs_lock_re
  received : x.req.sentNs_lock_re ≤ x.curNs

/-- What `finiReq` prints as `SendingTime` is more than the whole time since the sending began:
it is the time from then to the end of the clock. -/
theorem Request.Sent.nic_lt_sendingTime {now curNs : UInt64} {r : Request} (h : r.Sent now)
    (hcur : now < curNs) : curNs - r.sentNs_lock_ad < Client.sendingTime r := by
  have hpos : 0 < r.sentNs_lock_ad.toNat := by
    have hlt := UInt64.lt_iff_toNat_lt.mp h.lock_re_lt
    omega
  have hle : r.sentNs_lock_ad ≤ curNs := UInt64.le_trans h.sent (UInt64.le_of_lt hcur)
  have hnic : (curNs - r.sentNs_lock_ad).toNat = curNs.toNat - r.sentNs_lock_ad.toNat :=
    UInt64.toNat_sub_of_le _ _ hle
  have hsend : (Client.sendingTime r).toNat = 2 ^ 64 - r.sentNs_lock_ad.toNat := by
    rw [Client.sendingTime, h.unset, UInt64.toNat_sub]
    have hsize := r.sentNs_lock_ad.toNat_lt
    simp only [UInt64.toNat_zero]
    omega
  have hsize := curNs.toNat_lt
  have hle' := UInt64.le_iff_toNat_le.mp hle
  rw [UInt64.lt_iff_toNat_lt, hnic, hsend]
  omega

/-- **The order of the time stamps.** In every run of a server and any number of clients under a
strict clock, for every response that a client has processed: the stamps up to `sentNs_lock_ad`
are in order and before the reading of `finiReq`, but `sentNs_lock_re` is still zero, so the
documented order fails; and the `SendingTime` exceeds the `NicSojournTime`. -/
theorem stamps_never_ordered {n m : Nat} {listenFd : Fd} {cfg : Fin m → Config}
    {nS nR : Fin m → Nat} {s : System n nS nR}
    (h : (system listenFd n cfg true nS nR).Reachable s) (c : Fin m) {x : Completion}
    (hx : x ∈ (s.clients c).data.obj.completed) :
    (x.req.startNs ≤ x.req.startNs_lock_ad ∧ x.req.startNs_lock_ad ≤ x.req.startNs_lock_re ∧
      x.req.startNs_lock_re ≤ x.req.sentNs ∧ x.req.sentNs ≤ x.req.sentNs_lock_ad ∧
      x.req.sentNs_lock_ad ≤ x.curNs) ∧
    x.req.sentNs_lock_re = 0 ∧ ¬ x.Ordered ∧
    x.curNs - x.req.sentNs_lock_ad < Client.sendingTime x.req := by
  obtain ⟨-, now, hsent, hcur⟩ := (session_accurate (system_view h c)).completed x hx
  refine ⟨⟨UInt64.le_of_lt hsent.start, UInt64.le_of_lt hsent.lock, UInt64.le_of_lt hsent.stamp,
    UInt64.le_of_lt hsent.send, UInt64.le_trans hsent.sent (UInt64.le_of_lt hcur)⟩, hsent.unset,
    fun ho => ?_, hsent.nic_lt_sendingTime hcur⟩
  exact absurd ho.sending (UInt64.not_le.mpr hsent.lock_re_lt)

/-- The small run, with a response that was processed in the region of interest. -/
theorem stamps_never_ordered_smallSystemRun :
    ∃ s, (system 3 1 (fun _ : Fin 1 => smallConfig) true (fun _ => 1) (fun _ => 1)).Reachable s ∧
      ∃ x ∈ (s.clients 0).data.obj.completed, x.status = .ROI ∧ ¬ x.Ordered := by
  obtain ⟨s, hs, x, hx, hroi⟩ := Machine.Reachable.exists_of_exec
    (P := fun s : System 1 (fun _ : Fin 1 => 1) (fun _ => 1) =>
      ∃ x ∈ (s.clients 0).data.obj.completed, x.status = .ROI) smallSystemRun
    (show (system 3 1 (fun _ : Fin 1 => smallConfig) true (fun _ => 1) (fun _ => 1)).init
      (System.start _ 0) from ⟨0, rfl⟩) (by decide +kernel)
  exact ⟨s, hs, x, hx, hroi, (stamps_never_ordered hs 0 hx).2.2.1⟩

/-- Its stamps: sent at 46, the lock never marked as released, processed at 62. -/
theorem stamps_out_of_order :
    ∃ s, (system 3 1 (fun _ : Fin 1 => smallConfig) true (fun _ => 1) (fun _ => 1)).Reachable s ∧
      ∃ x ∈ (s.clients 0).data.obj.completed, x.status = .ROI ∧ x.req.sentNs_lock_ad = 46 ∧
        x.req.sentNs_lock_re = 0 ∧ x.curNs = 62 ∧ ¬ x.Ordered := by
  obtain ⟨s, hs, x, hx, hroi, had, hre, hcur⟩ := Machine.Reachable.exists_of_exec
    (P := fun s : System 1 (fun _ : Fin 1 => 1) (fun _ => 1) =>
      ∃ x ∈ (s.clients 0).data.obj.completed, x.status = .ROI ∧ x.req.sentNs_lock_ad = 46 ∧
        x.req.sentNs_lock_re = 0 ∧ x.curNs = 62)
    smallSystemRun
    (show (system 3 1 (fun _ : Fin 1 => smallConfig) true (fun _ => 1) (fun _ => 1)).init
      (System.start _ 0) from ⟨0, rfl⟩) (by decide +kernel)
  refine ⟨s, hs, x, hx, hroi, had, hre, hcur, fun ho => ?_⟩
  have hle := ho.sending
  rw [had, hre] at hle
  exact absurd hle (by decide)

end TailBench
