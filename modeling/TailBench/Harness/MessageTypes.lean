import TailBench.Harness.Latency

set_option autoImplicit false

/-! # The types of messages

A receiver leaves its loop on a response whose type is not `RESPONSE`. The server sends such a
response in `finish` only, at a time of its own choice. A client that `finish` reaches before it
has dumped its statistics loses a receiver, and no error is reported; a client that has dumped
them does not care.
-/

namespace TailBench

open Lib

/-! ## One client -/

theorem Client.FiniEnd.dumps {cfg : Config} {laterNs : UInt64} {c c' : Client} {ex : Bool}
    (h : FiniEnd cfg laterNs c c' ex) (hd : c.dumps ≠ []) : c'.dumps ≠ [] := by
  cases h with
  | roi hw hs =>
      unfold _startRoi at hs
      split at hs
      · obtain rfl := Option.some.inj hs
        exact hd
      · cases hs
  | count hw hb => exact hd
  | dump hw hb => simp [dumpStats]

/-- What was dumped stays dumped. -/
theorem NetClient.Move.dumps {cfg : Config} {nS nR : Nat} {inp : Input} {s s' : NetClient nS nR}
    (hm : Move cfg s inp s') (hd : s.data.obj.dumps ≠ []) : s'.data.obj.dumps ≠ [] := by
  cases hm with
  | @sender i _ d pc op locks hrun hm hop =>
      show d.obj.dumps ≠ []
      rw [hm.frame.window.dumps]
      exact hd
  | @receiver j _ d pc op locks hrun hm hop =>
      show d.obj.dumps ≠ []
      generalize s.receivers j = pc₀ at hm
      cases hm with
      | returns curNs laterNs hmt he => exact he.dumps (by rwa [Client.finiRecord_dumps])
      | exits curNs laterNs hmt he => exact he.dumps (by rwa [Client.finiRecord_dumps])
      | _ => exact hd

/-- The assertion of the integrated server is none of the client's. -/
theorem netClient_faults {cfg : Config} {nS nR : Nat} {s : NetClient nS nR}
    (h : (netClient cfg nS nR).Reachable s) : s.data.proc ≠ .aborted .startNs := by
  refine Machine.Reachable.invariant (P := fun s : NetClient nS nR =>
    s.data.proc ≠ .aborted .startNs) ?_ ?_ h
  · rintro s rfl
    exact nofun
  · intro s a s' _ hs hn
    have hmove := NetClient.next_move hn
    generalize a.inp = inp at hmove
    cases hmove with
    | @sender i inp d pc op locks hrun hm hop =>
        show d.proc ≠ _
        obtain hp | hp := hm.proc
        · rw [hp]
          exact hs
        · rw [hp]
          exact nofun
    | @receiver j inp d pc op locks hrun hm hop =>
        show d.proc ≠ _
        generalize s.receivers j = pc₀ at hm
        cases hm with
        | @fault resp f curNs laterNs hf =>
            show Proc.aborted f ≠ .aborted .startNs
            rintro ⟨⟩
            obtain ⟨p, req, -, ⟨x, -, hx⟩ | ⟨x, -, hx⟩ | ⟨-, -, hx⟩⟩ | ⟨-, hx⟩ | ⟨p, -, -, hx⟩ |
              ⟨p, req, -, -, -, hx⟩ := Client.finiReq_cases cfg curNs laterNs resp s.data.obj
            all_goals rw [hf] at hx
            all_goals cases hx
        | exitGroup => exact nofun
        | _ => exact hs

/-! ## One session -/

section Session

variable {cfg : Config} {strict : Bool} {nS nR : Nat} {s : Session nS nR}

/-- A receiver that left its loop because of a type has read a frame with another type than
`RESPONSE`. -/
theorem session_unknownType (h : (session cfg strict nS nR).Reachable s) {j : Fin nR}
    (hj : s.client.receivers j = .unknownType) :
    ∃ r ∈ s.inbound, r.type ≠ ResponseType.RESPONSE.code := by
  revert j
  refine Machine.Reachable.invariant (P := fun s : Session nS nR => ∀ {j : Fin nR},
    s.client.receivers j = .unknownType →
      ∃ r ∈ s.inbound, r.type ≠ ResponseType.RESPONSE.code) ?_ ?_ h
  · rintro s ⟨t, rfl⟩ j hj
    cases hj
  · intro s a s' hr hs hn k hk
    cases Session.next_move hn with
    | client hm harr htick =>
        cases hm with
        | sender i hrun hm hop => exact hs hk
        | @receiver j _ d pc op locks hrun hm hop =>
            by_cases hkj : k = j
            · subst hkj
              obtain rfl : pc = .unknownType := by simpa [NetClient.afterReceiver] using hk
              generalize hpc : s.client.receivers k = pc₀ at hm
              cases hm with
              | @unknown resp ht =>
                  -- the type is that of the frame, which only the time of receipt was added to
                  obtain ⟨r, hrin, ns, rfl⟩ :=
                    (session_reads hr).held k resp (by rw [hpc]; rfl)
                  exact ⟨r, hrin, ht⟩
            · exact hs (by simpa [NetClient.afterReceiver, hkj] using hk)
    | answer id svcNs data hid ht =>
        obtain ⟨r, hrin, ht⟩ := hs hk
        exact ⟨r, List.mem_append_left _ hrin, ht⟩
    | finish =>
        obtain ⟨r, hrin, ht⟩ := hs hk
        exact ⟨r, List.mem_append_left _ hrin, ht⟩
    | tick htick => exact hs hk

/-- The announced length of a frame the server wrote fits an `int`. -/
theorem Session.Reads.len_lt (hr : s.Reads) {n rx : Nat} {head got : Bytes}
    (hc : Cursor (s.inbound.map Response.image) n (head ++ got) rx)
    (hl : head.length = responseHeaderLen) : (Response.ofHeader head).len.toNat < 2 ^ 31 := by
  obtain ⟨r, rest, -, hmem, -, hof, -⟩ := Response.current hc hl
  have hmax : r.len.toNat ≤ 2 ^ 20 := (hr.sound r hmem).1.2
  rw [hof]
  simp only
  omega

/-- `recv` returns false only when the connection has ended or failed. -/
theorem Session.Reads.recvFailed (hr : s.Reads) {j : Fin nR} {inp : Input} {d : NetData}
    {op : LockOp Mutex} (harr : inp.arrives s.stream s.client.data.rx)
    (hm : ReceiverMove cfg s.client.data (s.client.receivers j) inp d .recvFailed op) :
    inp = .eof ∨ inp = .recvError := by
  have hreads := hr.reading j
  have hheads := hr.heads j
  generalize s.client.receivers j = pc₀ at hm hreads hheads
  cases hm with
  | ends hpc hinp => exact hinp
  | tooLong bs hpc hhead hbig =>
      -- a frame never announces so much
      have harr' : bs <+: (s.inbound.map Response.image).flatten.drop s.client.data.rx := by
        rw [← List.flatMap_def]
        exact harr
      cases pc₀ with
      | header s1 got =>
          have hc := (hreads got rfl).read harr'
          rw [← List.append_nil (got ++ bs)] at hc
          have hlt := hr.len_lt hc (by rw [List.length_append]; exact (hhead s1 got rfl).1)
          exact absurd hbig (Nat.not_le.mpr hlt)
      | payload s1 head got =>
          have hlt := hr.len_lt (hreads (head ++ got) rfl) hheads.1
          exact absurd hbig (Nat.not_le.mpr hlt)
      | _ => exact hpc.elim

end Session

/-! ## The system -/

section System

variable {n m : Nat} {listenFd : Fd} {cfg : Fin m → Config} {strict : Bool}
  {nS nR : Fin m → Nat} {s : System n nS nR}

/-- `finish` begins to send to a client only after the client has dumped its statistics. -/
def FinishesAfterDump (s : System n nS nR) : SystemAction n nS nR → Prop
  | .server .finisher _ => ∀ fd todo, s.server.finisher = .clients (fd :: todo) →
      ∀ c, s.links c = .via fd → (s.clients c).data.obj.dumps ≠ []
  | _ => True

/-- A client that has not dumped its statistics was sent nothing but responses. -/
def System.OnlyResponses (s : System n nS nR) : Prop :=
  ∀ c, (s.clients c).data.obj.dumps = [] →
    ∀ r ∈ s.responsesTo c, r.type = ResponseType.RESPONSE.code

/-- A step of the server. -/
theorem System.OnlyResponses.afterServer (h : s.OnlyResponses)
    (hreach : (netServer listenFd n).Reachable s.server) {t : ServerTid n} {inp : ServerInput}
    (hok : FinishesAfterDump s (.server t inp)) {sv : NetServer n} {now : UInt64}
    (hsv : s.server.next listenFd (t.action inp) = some sv) :
    (s.afterServer sv now).OnlyResponses := by
  intro c hd r hr
  have hd' : (s.clients c).data.obj.dumps = [] := hd
  obtain ⟨es, hlogs, hlog⟩ := (NetServer.next_move hsv).2.logs
  obtain hsame | ⟨fd, hc, hnew⟩ := responsesTo_afterServer hreach hsv hlog now c
  · rw [hsame] at hr
    exact h c hd' r hr
  · have hold : s.responsesTo c = s.server.data.responsesTo fd := by
      simp only [System.responsesTo, hc]
    rw [hnew, ← hold, List.mem_append] at hr
    obtain hr | hr := hr
    · exact h c hd' r hr
    · generalize ha : t.action inp = a at hlogs
      cases hlogs with
      | none => simp at hr
      | delivered hi => simp [List.filterMap_cons, ServerEvent.response] at hr
      | responded hi hns =>
          simp only [List.filterMap_cons, List.filterMap_nil, ServerEvent.response] at hr
          split at hr
          · cases hr
          · next heq =>
              split at heq
              · obtain rfl := Option.some.inj heq
                rw [List.mem_singleton.mp hr]
                rfl
              · cases heq
      | @finish fd' todo hf =>
          -- the client has dumped, by the condition
          obtain rfl : t = .finisher := by
            cases t with
            | worker i => cases ha
            | finisher => rfl
          by_cases hfd : fd' = fd
          · subst hfd
            exact absurd hd' (hok fd' todo hf c hc)
          · simp [ServerEvent.response, hfd] at hr

/-- Every other step sends nothing. -/
theorem System.OnlyResponses.of_same {s' : System n nS nR} (h : s.OnlyResponses)
    (hdumps : ∀ c, (s.clients c).data.obj.dumps ≠ [] → (s'.clients c).data.obj.dumps ≠ [])
    (hresp : ∀ c, s'.responsesTo c = s.responsesTo c) : s'.OnlyResponses := by
  intro c hd r hr
  rw [hresp] at hr
  refine h c ?_ r hr
  by_contra hne
  exact hdumps c hne hd

/-- **In every run that meets the condition**, clients that have not dumped were sent responses
only. -/
theorem system_onlyResponses
    (h : (system listenFd n cfg strict nS nR).ReachableBy FinishesAfterDump s) :
    s.OnlyResponses := by
  refine Machine.ReachableBy.invariant ?_ ?_ h
  · rintro s ⟨t, rfl⟩ c - r hr
    cases hr
  · intro s a s' hr hs hok hn
    have hreach := system_server hr.reachable
    change System.next listenFd cfg strict a s = some s' at hn
    cases a with
    | client c a =>
        obtain ⟨-, now, -, cl, hcl, rfl⟩ := System.next_client hn
        refine hs.of_same (fun c' hd => ?_) fun c' => rfl
        by_cases hcc : c' = c
        · subst hcc
          have hupd : (s.afterClient c' cl now).clients c' = cl := Function.update_self ..
          rw [hupd]
          exact (NetClient.next_move hcl).dumps hd
        · have hupd : (s.afterClient c cl now).clients c' = s.clients c' :=
            Function.update_of_ne hcc ..
          rw [hupd]
          exact hd
    | server t inp =>
        obtain ⟨-, now, -, sv, hsv, rfl⟩ := System.next_server hn
        exact hs.afterServer hreach hok hsv
    | connect c fd =>
        simp only [System.next] at hn
        split at hn
        · next hlink =>
            obtain ⟨sv, hsv, rfl⟩ := Option.map_eq_some_iff.mp hn
            obtain ⟨-, hmove⟩ := NetServer.next_move hsv
            cases hmove with
            | connect hl hfd =>
                refine hs.of_same (fun c' hd => hd) fun c' => ?_
                by_cases hcc : c' = c
                · subst hcc
                  -- nothing was sent on a connection that was not open
                  have hnil := (netServer_fds hreach).responsesTo_nil fun ha => ha.1 hfd
                  simp only [System.responsesTo, Function.update_self, hlink]
                  exact hnil
                · simp only [System.responsesTo, Function.update_of_ne hcc]
                  rfl
        · cases hn
    | deliver c k =>
        simp only [System.next] at hn
        split at hn
        · rw [Option.bind_eq_some_iff] at hn
          obtain ⟨conn, -, hn⟩ := hn
          obtain ⟨sv, hsv, rfl⟩ := Option.map_eq_some_iff.mp hn
          obtain ⟨-, hmove⟩ := NetServer.next_move hsv
          cases hmove with
          | arrive hc hopen => exact hs.of_same (fun c' hd => hd) fun c' => rfl
        · cases hn
    | hangup c =>
        simp only [System.next] at hn
        split at hn
        · obtain ⟨sv, hsv, rfl⟩ := Option.map_eq_some_iff.mp hn
          obtain ⟨-, hmove⟩ := NetServer.next_move hsv
          cases hmove with
          | hangup => exact hs.of_same (fun c' hd => hd) fun c' => rfl
        · cases hn

/-- A receiver of a client that leaves its loop after `recv` has met the end or the failure of
its connection. -/
theorem system_recvFailed (h : (system listenFd n cfg strict nS nR).Reachable s)
    {a : SystemAction n nS nR} {s' : System n nS nR}
    (hn : System.next listenFd cfg strict a s = some s') {c : Fin m} {j : Fin (nR c)}
    (hj : (s.clients c).receivers j ≠ .recvFailed)
    (hj' : (s'.clients c).receivers j = .recvFailed) :
    ∃ inp, a = .client c ⟨.receiver j, inp⟩ ∧ (inp = .eof ∨ inp = .recvError) := by
  by_cases ha : ∀ c a', a ≠ .client c a'
  · rw [System.next_clients hn ha] at hj'
    exact absurd hj' hj
  · push Not at ha
    obtain ⟨c', ⟨tid, inp⟩, rfl⟩ := ha
    obtain ⟨harr, now, -, cl, hcl, rfl⟩ := System.next_client hn
    by_cases hcc : c = c'
    · subst hcc
      have hupd : (s.afterClient c cl now).clients c = cl := Function.update_self ..
      rw [hupd] at hj'
      obtain ⟨-, ⟨i, d, pc, op, locks, -, -, -, rfl⟩ |
        ⟨k, d, pc, op, locks, htid, hstep, -, rfl⟩⟩ := NetClient.next_cases hcl
      · exact absurd hj' hj
      · by_cases hjk : j = k
        · subst hjk
          obtain rfl : pc = .recvFailed := by simpa using hj'
          obtain rfl : tid = .receiver j := htid
          have hview := session_reads (system_view h c)
          exact ⟨inp, rfl, hview.recvFailed (harr.mono ((system_wired h).bytesTo c))
            (receiverStep_move hstep)⟩
        · rw [show ({ s.clients c with
              data := d, locks := locks,
              receivers := Function.update (s.clients c).receivers k pc } :
              NetClient (nS c) (nR c)).receivers j = (s.clients c).receivers j from
            Function.update_of_ne hjk ..] at hj'
          exact absurd hj' hj
    · have hupd : (s.afterClient c' cl now).clients c = s.clients c :=
        Function.update_of_ne hcc ..
      rw [hupd] at hj'
      exact absurd hj' hj

/-- **Receive loops outlast the dump.** In every run in which `finish` sends to a client only
after the client has dumped its statistics: a receiver that has left its loop because of the
type of a response has done so after the dump; one that leaves it because `recv` returns false
has met the end or the failure of its connection; and under a strict clock, with at least one
request to warm up and one to measure, no assertion ends the process. -/
theorem receive_loop_outlasts_dump
    (h : (system listenFd n cfg strict nS nR).ReachableBy FinishesAfterDump s) (c : Fin m) :
    (∀ j, (s.clients c).receivers j = .unknownType → (s.clients c).data.obj.dumps ≠ []) ∧
    (∀ j a s', (system listenFd n cfg strict nS nR).next a s = some s' →
      (s.clients c).receivers j ≠ .recvFailed → (s'.clients c).receivers j = .recvFailed →
      ∃ inp, a = .client c ⟨.receiver j, inp⟩ ∧ (inp = .eof ∨ inp = .recvError)) ∧
    (strict = true → 1 ≤ (cfg c).warmupreqs → 1 ≤ (cfg c).maxreqs →
      (cfg c).warmupreqs.toNat + (cfg c).maxreqs.toNat < 2 ^ 64 →
      (cfg c).maxreqs.toNat < 2 ^ 31 → ∀ f, (s.clients c).data.proc ≠ .aborted f) := by
  have hreach := h.reachable
  refine ⟨fun j hj hd => ?_, fun j a s' hn hj hj' => system_recvFailed hreach hn hj hj', ?_⟩
  · obtain ⟨r, hr, ht⟩ := session_unknownType (system_view hreach c) hj
    exact ht (system_onlyResponses h c hd r hr)
  · rintro rfl hW hM hsum hint f
    have hview := system_view hreach c
    have hbudget : (cfg c).budget.toNat = (cfg c).warmupreqs.toNat + (cfg c).maxreqs.toNat := by
      rw [Config.budget, UInt64.toNat_add, Nat.mod_eq_of_lt hsum]
    have htable := session_strict_table hview
    cases f with
    | lookup => exact htable.noLookup
    | genNs => exact (session_accurate hview).noAbort
    | startRoi =>
        exact (session_windowed (UInt64.le_iff_toNat_le.mp hW) (UInt64.le_iff_toNat_le.mp hM)
          hint hbudget hview).noAbort
    | badPointer => exact htable.noBadPointer
    | startNs => exact netClient_faults (system_client hreach c)

end System

/-! ### `finish` after and before the dump -/

/-- Steps of the thread that calls `finish`. -/
def finisherSteps (inps : List ServerInput) : List SmallAction :=
  inps.map fun inp => .server .finisher inp

/-- The client has dumped whenever `finish` moves. -/
def dumpedFirst (s : System 1 (fun _ : Fin 1 => 1) (fun _ => 1)) : SmallAction → Bool
  | .server .finisher _ => !(s.clients 0).data.obj.dumps.isEmpty
  | _ => true

/-- `finish` after the run to the dump: its frame is on the way, and the receiver has not left
its loop because of it. -/
theorem receive_loop_outlasts_dump_smallSystemRun :
    ∃ s, (system 3 1 (fun _ : Fin 1 => smallConfig) true (fun _ => 1) (fun _ => 1)).ReachableBy
        FinishesAfterDump s ∧ finishFrame ∈ s.responsesTo 0 ∧
      (∀ j, (s.clients 0).receivers j = .unknownType → (s.clients 0).data.obj.dumps ≠ []) ∧
      ∀ f, (s.clients 0).data.proc ≠ .aborted f := by
  obtain ⟨s, hs, hframe⟩ := Machine.Reachable.exists_of_exec
    (M := (system 3 1 (fun _ : Fin 1 => smallConfig) true (fun _ => 1) (fun _ => 1)).guard
      dumpedFirst)
    (P := fun s : System 1 (fun _ : Fin 1 => 1) (fun _ => 1) => finishFrame ∈ s.responsesTo 0)
    (smallSystemRun ++ finisherSteps [.tau, .tau, .tau])
    (show (system 3 1 (fun _ : Fin 1 => smallConfig) true (fun _ => 1) (fun _ => 1)).init
      (System.start _ 0) from ⟨0, rfl⟩) (by decide +kernel)
  have hby : (system 3 1 (fun _ : Fin 1 => smallConfig) true (fun _ => 1) (fun _ => 1)).ReachableBy
      FinishesAfterDump s := by
    refine Machine.Reachable.of_guard (fun s a ha => ?_) hs
    cases a with
    | server t inp =>
        cases t with
        | worker i => trivial
        | finisher =>
            intro fd todo _ c _
            obtain rfl : c = 0 := Subsingleton.elim _ _
            simpa [dumpedFirst] using ha
    | _ => trivial
  obtain ⟨htype, -, hproc⟩ := receive_loop_outlasts_dump hby 0
  exact ⟨s, hby, hframe, htype, hproc rfl (by decide) (by decide) (by decide) (by decide)⟩

/-- `finish` reaches a client that has only connected: its one receiver leaves its loop, and
nothing was dumped. -/
theorem finish_stops_receiver :
    ∃ s, (system 3 1 (fun _ : Fin 1 => smallConfig) true (fun _ => 1) (fun _ => 1)).Reachable s ∧
      (s.clients 0).receivers 0 = .unknownType ∧ (s.clients 0).data.obj.dumps = [] ∧
      (s.clients 0).data.proc = .running := by
  have hrun := Machine.Reachable.exists_of_exec
    (P := fun s : System 1 (fun _ : Fin 1 => 1) (fun _ => 1) =>
      (s.clients 0).receivers 0 = .unknownType ∧ (s.clients 0).data.obj.dumps = [] ∧
        (s.clients 0).data.proc = .running)
    (connectOne ++ finisherSteps [.tau, .tau, .tau, .wrote 40, .tau] ++
      ([.tau, .clock 1, .got finishFrame.header, .clock 2, .tau, .tau] : List Input).map
        fun inp => SystemAction.client 0 ⟨.receiver 0, inp⟩)
    (show (system 3 1 (fun _ : Fin 1 => smallConfig) true (fun _ => 1) (fun _ => 1)).init
      (System.start _ 0) from ⟨0, rfl⟩) (by decide +kernel)
  exact hrun

end TailBench
