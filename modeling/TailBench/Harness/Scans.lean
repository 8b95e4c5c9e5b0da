import TailBench.Harness.Routing
import TailBench.Lib.RoundRobin

set_option autoImplicit false

/-! # The scans of `clientFds`

Each iteration of the loop of `recvReq` that has clients scans them from `recvClientHead` on and
moves the head by one, whether it has found a client or not. A removal comes after the scan of its
iteration, so the head is at most the size of the list; a scan takes it modulo that size. `Turn`
says what a step of a worker does to the list and the head; that a client has its turn follows from
the general facts about round robin.
-/

namespace TailBench

open Lib

/-- The clients in the order of a scan. -/
theorem nextClient_eq_pick (fds : List Fd) (head : Nat) (rs : List Fd) :
    ServerData.nextClient fds head rs = pick fds head (· ∈ rs) := by
  unfold ServerData.nextClient pick
  congr 1
  refine List.ext_getElem (by simp) fun i hi hi' => ?_
  have hlt : i < fds.length := by simpa using hi
  have hmod : (head + i) % fds.length < fds.length := Nat.mod_lt _ (by omega)
  simp [List.getElem_rotate, Nat.add_comm i head, hmod]

/-! ## One step -/

/-- One scan: what `select` has reported, and the client that is chosen. -/
structure Scan where
  ready : List Fd
  chosen : Option Fd
  deriving DecidableEq, Repr

namespace ServerPc

/-- The result of `select` that a step scans. -/
def scans {n : Nat} (listenFd : Fd) (d : ServerData n) :
    ServerPc → ServerInput → Option (List Fd)
  | .loop, .ready rs => if d.clientFds = [] ∨ listenFd ∈ rs then none else some rs
  | .acceptMore rs, .acceptFailed | .acceptMore rs, .sockoptFailed => some rs
  | .reselect, .ready rs => some rs
  | _, _ => none

/-- Past the test that there is a client, before the scan. -/
def toScan : ServerPc → Prop
  | .acceptMore _ | .reselect => True
  | _ => False

theorem scans_of_not_choosing {n : Nat} (listenFd : Fd) (d : ServerData n) {pc : ServerPc}
    (h : ¬ pc.choosing) (inp : ServerInput) : pc.scans listenFd d inp = none := by
  cases pc with
  | loop | acceptFirst | acceptMore rs | reselect => exact absurd trivial h
  | _ => rfl

theorem holds_of_toScan {pc : ServerPc} (h : pc.toScan) : pc.holds .recvLock := by
  cases pc with
  | acceptMore rs | reselect => rfl
  | _ => exact h.elim

theorem holds_of_reading {pc : ServerPc} (h : pc.reading ≠ none) : pc.holds .recvLock := by
  cases pc with
  | header fd got | payload fd head got => rfl
  | _ => exact absurd rfl h

end ServerPc

/-- What a step of a worker does to the clients and the head. -/
inductive Turn {n : Nat} (listenFd : Fd) (d : ServerData n) (pc : ServerPc) (inp : ServerInput)
    (d' : ServerData n) (pc' : ServerPc) : Prop
  | scan (rs : List Fd) (hscan : pc.scans listenFd d inp = some rs)
      (hpc : pc.toScan ∨ d.clientFds ≠ []) (hfds : d'.clientFds = d.clientFds)
      (hhead : d'.recvClientHead = (d.recvClientHead + 1) % d.clientFds.length)
      (hchosen : pc'.reading.map Prod.fst =
        ServerData.nextClient d.clientFds d.recvClientHead rs)
      (hpc' : ¬ pc'.toScan)
  | accept (fd : Fd) (hscan : pc.scans listenFd d inp = none)
      (hfds : d'.clientFds = d.clientFds ++ [fd])
      (hhead : d'.recvClientHead = d.recvClientHead ∨ d'.recvClientHead = 0)
      (hpc' : pc'.reading = none)
  | remove (fd : Fd) (hscan : pc.scans listenFd d inp = none) (hpc : pc.reading ≠ none)
      (hfds : d'.clientFds = d.clientFds.erase fd)
      (hhead : d'.recvClientHead = d.recvClientHead) (hpc' : pc' = .loop)
  | other (hscan : pc.scans listenFd d inp = none) (hfds : d'.clientFds = d.clientFds)
      (hhead : d'.recvClientHead = d.recvClientHead)
      (hread : pc'.reading ≠ none → pc.reading ≠ none)
      (hpc' : pc'.toScan → pc.toScan ∨ d.clientFds ≠ [])

section Turn

variable {n : Nat} {listenFd : Fd} {i : Fin n} {d d' : ServerData n} {pc pc' : ServerPc}
  {inp : ServerInput} {op : LockOp Mutex}

/-- The scan itself, from data with the same clients. -/
theorem scanStep_turn {d₁ : ServerData n} {rs : List Fd} (h : d₁.scanStep rs = (d', pc', op))
    (hfds : d₁.clientFds = d.clientFds) (hhead : d₁.recvClientHead = d.recvClientHead)
    (hscan : pc.scans listenFd d inp = some rs) (hpc : pc.toScan ∨ d.clientFds ≠ []) :
    Turn listenFd d pc inp d' pc' := by
  unfold ServerData.scanStep ServerData.scan at h
  rw [hfds, hhead] at h
  cases hnext : ServerData.nextClient d.clientFds d.recvClientHead rs with
  | none =>
      rw [hnext] at h
      cases h
      exact .scan rs hscan hpc rfl rfl hnext.symm id
  | some fd =>
      rw [hnext] at h
      cases h
      exact .scan rs hscan hpc rfl rfl hnext.symm id

/-- A step at a `select` or an `accept`. -/
theorem serverStep_choosing_turn (hpc : pc.choosing)
    (h : serverStep listenFd i d pc inp = some (d', pc', op)) : Turn listenFd d pc inp d' pc' := by
  cases serverStep_choosing hpc h with
  | watchFirst hnil => exact .other (by simp [ServerPc.scans, hnil]) rfl rfl id False.elim
  | watchMore hne _ hlisten =>
      exact .other (by simp [ServerPc.scans, hlisten]) rfl rfl id fun _ => .inr hne
  | scan hne _ hlisten hscan =>
      exact scanStep_turn hscan rfl rfl (by simp [ServerPc.scans, hne, hlisten]) (.inr hne)
  | loopError | reselectError => exact .other rfl rfl rfl id .inl
  | acceptFirst => exact .accept _ rfl rfl (.inr rfl) rfl
  | failFirst | closeFirst => exact .other rfl rfl rfl id False.elim
  | acceptMore => exact .accept _ rfl rfl (.inl rfl) rfl
  | failMore hscan | rescan _ hscan => exact scanStep_turn hscan rfl rfl rfl (.inl trivial)
  | closeMore _ hscan => exact scanStep_turn hscan rfl rfl rfl (.inl trivial)

/-- **A step of a worker.** -/
theorem serverStep_turn (h : serverStep listenFd i d pc inp = some (d', pc', op)) :
    Turn listenFd d pc inp d' pc' := by
  by_cases hch : pc.choosing
  · exact serverStep_choosing_turn hch h
  · have hscan := ServerPc.scans_of_not_choosing listenFd d hch inp
    cases serverStep_move h with
    | choose hpc | selectError hpc | accept hpc | acceptClose hpc => exact absurd hpc hch
    | headEmpty => exact .remove _ hscan nofun rfl rfl rfl
    | leave hpc => exact .remove _ hscan (by rw [hpc]; nofun) rfl rfl rfl
    | cut | full => exact .other hscan rfl rfl id .inl
    | readHead | headOk | overrun | readData => exact .other hscan rfl rfl (fun _ => nofun) nofun
    | _ => exact .other hscan rfl rfl (fun hread => absurd rfl hread) nofun

end Turn

/-! ## The head -/

namespace NetServer

variable {n : Nat} {listenFd : Fd} {s s' : NetServer n}

/-- The scan that a step makes. -/
def scanned (listenFd : Fd) (s : NetServer n) (a : ServerAction n) (s' : NetServer n) :
    Option Scan :=
  match a with
  | .worker i inp =>
      ((s.workers i).scans listenFd s.data inp).map fun rs =>
        ⟨rs, (s'.workers i).reading.map Prod.fst⟩
  | _ => none

/-- The head is at most the size of the list, and below it while a request is read. -/
structure Rounds (s : NetServer n) : Prop where
  head : s.data.recvClientHead ≤ s.data.clientFds.length
  reading : ∀ i, (s.workers i).reading ≠ none → s.data.recvClientHead < s.data.clientFds.length
  toScan : ∀ i, (s.workers i).toScan → s.data.clientFds ≠ []

/-- While a worker holds `recvLock`, no other one is on its way to a scan or reads. -/
theorem others_away (ho : Owned s.locks s.held) {i j : Fin n}
    (hi : (s.workers i).holds .recvLock) (hj : j ≠ i) :
    (s.workers j).reading = none ∧ ¬ (s.workers j).toScan := by
  have hnot : ¬ (s.workers j).holds .recvLock := by
    intro hheld
    have he := ho.unique (show s.held (.worker j) .recvLock from hheld)
      (show s.held (.worker i) .recvLock from hi)
    exact hj (ServerTid.worker.inj he)
  refine ⟨?_, fun hscan => hnot (ServerPc.holds_of_toScan hscan)⟩
  by_contra hread
  exact hnot (ServerPc.holds_of_reading hread)

/-- A step of a worker. -/
theorem Rounds.worker (h : s.Rounds) (ho : Owned s.locks s.held) {i : Fin n}
    {inp : ServerInput} {d : ServerData n} {pc : ServerPc} {locks : Mutex → Option (ServerTid n)}
    (ht : Turn listenFd s.data (s.workers i) inp d pc) : (s.afterWorker i d pc locks).Rounds := by
  have hself : (s.afterWorker i d pc locks).workers i = pc := by simp [afterWorker]
  have hother : ∀ j, j ≠ i → (s.afterWorker i d pc locks).workers j = s.workers j := by
    intro j hj
    simp [afterWorker, hj]
  have hdata : (s.afterWorker i d pc locks).data = d := rfl
  cases ht with
  | scan rs hscan hpc hfds hhead hchosen hpc' =>
      have hne : s.data.clientFds ≠ [] := hpc.elim (h.toScan i) id
      have hlt : d.recvClientHead < d.clientFds.length := by
        rw [hhead, hfds]
        exact Nat.mod_lt _ (List.length_pos_of_ne_nil hne)
      rw [← hfds] at hne
      exact ⟨hlt.le, fun _ _ => hlt, fun _ _ => hne⟩
  | accept fd hscan hfds hhead hpc' =>
      have hlength : d.clientFds.length = s.data.clientFds.length + 1 := by
        rw [hfds, List.length_append, List.length_singleton]
      have hle := h.head
      refine ⟨?_, fun j hj => ?_, fun j hj => ?_⟩
      · rw [hdata]
        omega
      · rw [hdata]
        omega
      · rw [hdata, hfds]
        simp
  | remove fd hscan hpc hfds hhead hpc' =>
      -- the scan of this iteration has left the head below the size
      have hlt := h.reading i hpc
      have hlength : s.data.clientFds.length - 1 ≤ (s.data.clientFds.erase fd).length :=
        List.le_length_erase
      have haway : ∀ j, ((s.afterWorker i d pc locks).workers j).reading = none ∧
          ¬ ((s.afterWorker i d pc locks).workers j).toScan := by
        intro j
        by_cases hj : j = i
        · rw [hj, hself, hpc']
          exact ⟨rfl, id⟩
        · rw [hother j hj]
          exact others_away ho (ServerPc.holds_of_reading hpc) hj
      refine ⟨?_, fun j hj => absurd (haway j).1 hj, fun j hj => absurd hj (haway j).2⟩
      rw [hdata, hhead, hfds]
      omega
  | other hscan hfds hhead hread hpc' =>
      refine ⟨?_, fun j hj => ?_, fun j hj => ?_⟩
      · rw [hdata, hhead, hfds]
        exact h.head
      · rw [hdata, hhead, hfds]
        by_cases he : j = i
        · rw [he, hself] at hj
          exact h.reading i (hread hj)
        · rw [hother j he] at hj
          exact h.reading j hj
      · rw [hdata, hfds]
        by_cases he : j = i
        · rw [he, hself] at hj
          exact (hpc' hj).elim (h.toScan i) id
        · rw [hother j he] at hj
          exact h.toScan j hj

/-- **One step** of the process or the network. -/
theorem next_rounds {a : ServerAction n} (hn : s.next listenFd a = some s') (h : s.Rounds)
    (ho : Owned s.locks s.held) : s'.Rounds := by
  cases (next_move hn).2 with
  | worker hm hop hstep => exact h.worker ho (serverStep_turn hstep)
  | @finisher inp d pc op locks hm hop =>
      have hsame : d.clientFds = s.data.clientFds ∧ d.recvClientHead = s.data.recvClientHead := by
        generalize s.finisher = pc₀ at hm
        cases hm <;> exact ⟨rfl, rfl⟩
      have hdata : (s.afterFinisher d pc locks).data = d := rfl
      refine ⟨?_, fun j hj => ?_, fun j hj => ?_⟩
      · rw [hdata, hsame.1, hsame.2]
        exact h.head
      · rw [hdata, hsame.1, hsame.2]
        exact h.reading j hj
      · rw [hdata, hsame.1]
        exact h.toScan j hj
  | _ => exact ⟨h.head, h.reading, h.toScan⟩

end NetServer

section Reachable

variable {n : Nat} {listenFd : Fd} {s : NetServer n}

/-- In every reachable state, whatever was accepted and removed. -/
theorem netServer_rounds (h : (netServer listenFd n).Reachable s) : s.Rounds := by
  refine h.invariant ?_ ?_
  · rintro s rfl
    refine ⟨le_rfl, fun i hi => absurd rfl hi, fun i hi => hi.elim⟩
  · intro s a s' hr hs hn
    exact NetServer.next_rounds hn hs (netServer_owned hr)

/-! ## Rounds -/

/-- A step leaves the list of clients alone. -/
def SameClients (listenFd : Fd) (x : NetServer n × List Scan) (a : ServerAction n) : Prop :=
  ∀ s', x.1.next listenFd a = some s' → s'.data.clientFds = x.1.data.clientFds

/-- The tests of the scans: which descriptors are ready. -/
def readiness (l : List Scan) : List (Fd → Bool) := l.map fun x fd => decide (fd ∈ x.ready)

/-- A scan moves the head by one and chooses the next client. -/
theorem next_scan {s s' : NetServer n} {a : ServerAction n} {x : Scan}
    (hn : s.next listenFd a = some s') (hx : s.scanned listenFd a s' = some x) :
    ((∃ i, (s.workers i).toScan) ∨ s.data.clientFds ≠ []) ∧
      s'.data.recvClientHead = (s.data.recvClientHead + 1) % s.data.clientFds.length ∧
      x.chosen = ServerData.nextClient s.data.clientFds s.data.recvClientHead x.ready := by
  cases (NetServer.next_move hn).2 with
  | @worker i inp d pc op locks hm hop hstep =>
      have hself : (s.afterWorker i d pc locks).workers i = pc := by simp [NetServer.afterWorker]
      obtain ⟨rs, hrs, rfl⟩ := Option.map_eq_some_iff.mp hx
      cases serverStep_turn hstep with
      | scan rs' hscan hpc hfds hhead hchosen hpc' =>
          obtain rfl : rs = rs' := Option.some.inj (hrs.symm.trans hscan)
          refine ⟨hpc.imp_left fun hto => ⟨i, hto⟩, hhead, ?_⟩
          rw [hself]
          exact hchosen
      | accept fd hscan | remove fd hscan | other hscan =>
          rw [hscan] at hrs
          cases hrs
  | _ => cases hx

/-- A step that does not scan and leaves the list alone leaves the head alone. -/
theorem next_no_scan {s s' : NetServer n} {a : ServerAction n}
    (hn : s.next listenFd a = some s') (hx : s.scanned listenFd a s' = none)
    (hsame : s'.data.clientFds = s.data.clientFds) :
    s'.data.recvClientHead = s.data.recvClientHead := by
  cases (NetServer.next_move hn).2 with
  | @worker i inp d pc op locks hm hop hstep =>
      have hrs := Option.map_eq_none_iff.mp hx
      cases serverStep_turn hstep with
      | scan rs hscan =>
          rw [hscan] at hrs
          cases hrs
      | accept fd hscan hfds =>
          have hlength := congrArg List.length (hfds.symm.trans hsame)
          simp at hlength
      | remove fd hscan hpc hfds hhead | other hscan hfds hhead => exact hhead
  | @finisher inp d pc op locks hm hop =>
      show d.recvClientHead = s.data.recvClientHead
      generalize s.finisher = pc₀ at hm
      cases hm <;> rfl
  | _ => rfl

/-- **The scans of a run** in which the list does not change are a series of scans, each beginning
one position further. -/
theorem scans_eq_turns {s s' : NetServer n} {l : List Scan}
    (h : (((netServer listenFd n).since s).logged (NetServer.scanned listenFd)).ReachableBy
      (SameClients listenFd) (s', l)) :
    s'.data.clientFds = s.data.clientFds ∧
    s'.data.recvClientHead % s.data.clientFds.length =
      (s.data.recvClientHead + l.length) % s.data.clientFds.length ∧
    l.map Scan.chosen = turns s.data.clientFds s.data.recvClientHead (readiness l) := by
  refine h.invariant (P := fun x : NetServer n × List Scan =>
    x.1.data.clientFds = s.data.clientFds ∧
    x.1.data.recvClientHead % s.data.clientFds.length =
      (s.data.recvClientHead + x.2.length) % s.data.clientFds.length ∧
    x.2.map Scan.chosen = turns s.data.clientFds s.data.recvClientHead (readiness x.2)) ?_ ?_
  · rintro ⟨t, l⟩ ⟨rfl, rfl⟩
    exact ⟨rfl, rfl, rfl⟩
  · intro x a y _ ih hsame hn
    obtain ⟨hfds, hhead, hturns⟩ := ih
    obtain ⟨hn, hlog⟩ := Machine.logged_next.mp hn
    have hkeep := hsame y.1 hn
    rw [hlog]
    cases hscan : x.1.scanned listenFd a y.1 with
    | none =>
        rw [Option.toList_none, List.append_nil, hkeep, next_no_scan hn hscan hkeep]
        exact ⟨hfds, hhead, hturns⟩
    | some scan =>
        obtain ⟨_, hmove, hchosen⟩ := next_scan hn hscan
        rw [Option.toList_some]
        refine ⟨hkeep.trans hfds, ?_, ?_⟩
        · rw [hmove, hfds, List.length_append, List.length_singleton, Nat.mod_mod,
            ← Nat.mod_add_mod, hhead, Nat.mod_add_mod, Nat.add_assoc]
        · have hpick : scan.chosen = pick s.data.clientFds (s.data.recvClientHead + x.2.length)
              fun fd => decide (fd ∈ scan.ready) := by
            rw [hchosen, hfds, nextClient_eq_pick, ← pick_mod, hhead, pick_mod]
          rw [readiness, List.map_append, List.map_append, List.map_singleton,
            List.map_singleton, turns_concat, List.length_map, hpick, hturns, readiness]

/-- A scan from a head on visits every index once, in cyclic order, up to the first client that is
ready. -/
structure ScansInOrder (fds : List Fd) (head : Nat) : Prop where
  distinct : (visits fds.length head).Nodup
  cyclic : (visits fds.length head).IsRotated (List.range fds.length)
  succ : ∀ i, i + 1 < fds.length →
    (visits fds.length head)[i + 1]? = (visits fds.length head)[i]?.map fun k => (k + 1) % fds.length
  none : ∀ rs, ServerData.nextClient fds head rs = none ↔ ∀ fd ∈ fds, fd ∉ rs
  first : ∀ rs fd, ServerData.nextClient fds head rs = some fd ↔ fd ∈ rs ∧
    ∃ k, k < fds.length ∧ fds[(head + k) % fds.length]? = some fd ∧
      ∀ j < k, ∀ fd', fds[(head + j) % fds.length]? = some fd' → fd' ∉ rs

theorem scansInOrder (fds : List Fd) (head : Nat) : ScansInOrder fds head where
  distinct := (visits_spec _ _).1
  cyclic := (visits_spec _ _).2.1
  succ := (visits_spec _ _).2.2
  none rs := by
    rw [nextClient_eq_pick, pick_eq_none]
    simp
  first rs fd := by
    rw [nextClient_eq_pick, pick_eq_some]
    simp

/-- **Round robin.** In every reachable state the head is at most the number of clients, and no
scan is made without a client. A scan visits every index once, in cyclic order, and chooses the
first client that is ready; it chooses none only if none is ready. In as many scans as there are
clients, while the list does not change, a client that is ready in all of them is chosen, and if
all clients are, each is chosen exactly once. -/
theorem round_robin (h : (netServer listenFd n).Reachable s) :
    s.data.recvClientHead ≤ s.data.clientFds.length ∧
    (∀ a s' x, s.next listenFd a = some s' → s.scanned listenFd a s' = some x →
      0 < s.data.clientFds.length ∧
      x.chosen = ServerData.nextClient s.data.clientFds s.data.recvClientHead x.ready) ∧
    ScansInOrder s.data.clientFds s.data.recvClientHead ∧
    ∀ s' l, (((netServer listenFd n).since s).logged (NetServer.scanned listenFd)).ReachableBy
        (SameClients listenFd) (s', l) → l.length = s.data.clientFds.length →
      (∀ fd ∈ s.data.clientFds, (∀ x ∈ l, fd ∈ x.ready) → some fd ∈ l.map Scan.chosen) ∧
      ((∀ x ∈ l, ∀ fd ∈ s.data.clientFds, fd ∈ x.ready) →
        ∀ fd ∈ s.data.clientFds, (l.map Scan.chosen).count (some fd) = 1) := by
  have hrounds := netServer_rounds h
  have hnodup := (netServer_fds h).data.clients_nodup
  refine ⟨hrounds.head, fun a s' x hn hscan => ?_, scansInOrder _ _, fun s' l hl hlen => ?_⟩
  · obtain ⟨hto, _, hchosen⟩ := next_scan hn hscan
    exact ⟨List.length_pos_of_ne_nil (hto.elim (fun ⟨i, hi⟩ => hrounds.toScan i hi) id), hchosen⟩
  · obtain ⟨_, _, hturns⟩ := scans_eq_turns hl
    have hlength : (readiness l).length = s.data.clientFds.length := by
      rw [readiness, List.length_map, hlen]
    rw [hturns]
    refine ⟨fun fd hfd hready => mem_turns hlength hfd fun p hp => ?_, fun hready fd hfd => ?_⟩
    · obtain ⟨x, hx, rfl⟩ := List.mem_map.mp hp
      simpa using hready x hx
    · have hperm : (turns s.data.clientFds s.data.recvClientHead (readiness l)).Perm
          (s.data.clientFds.map some) := by
        refine turns_perm hlength fun p hp fd hfd => ?_
        obtain ⟨x, hx, rfl⟩ := List.mem_map.mp hp
        simpa using hready x hx fd hfd
      rw [hperm.count_eq]
      exact List.count_eq_one_of_mem (hnodup.map (Option.some_injective _))
        (List.mem_map_of_mem hfd)

end Reachable

/-! ### Two clients -/

/-- A test for `SameClients`. -/
def sameClients {n : Nat} (listenFd : Fd) (x : NetServer n × List Scan) (a : ServerAction n) :
    Bool :=
  (x.1.next listenFd a).all fun s' => decide (s'.data.clientFds = x.1.data.clientFds)

theorem sameClients_iff {n : Nat} {listenFd : Fd} (x : NetServer n × List Scan)
    (a : ServerAction n) (h : sameClients listenFd x a = true) : SameClients listenFd x a := by
  intro s' hn
  simpa [sameClients, hn] using h

/-- Clients 4 and 5 are accepted. -/
def acceptTwo : List (ServerAction 1) :=
  [.connect 4, .connect 5, .worker 0 .tau, .worker 0 (.ready [3]), .worker 0 .accepted,
   .worker 0 (.ready [3]), .worker 0 .accepted]

/-- Client 4 sends two requests and client 5 one, so both are ready in two scans. -/
def scanTwice : List (ServerAction 1) :=
  [.arrive 4 ((smallRequest 7).image ++ (smallRequest 8).image), .arrive 5 (smallRequest 9).image,
   .worker 0 (.ready [4, 5]), .worker 0 (.got 80), .worker 0 (.got 1), .worker 0 (.clock 10),
   .worker 0 .tau, .worker 0 .tau, .worker 0 (.respond 12 ⟨[], Nat.zero_le _⟩),
   .worker 0 (.wrote 40), .worker 0 .tau, .worker 0 .tau, .worker 0 (.ready [4, 5])]

theorem round_robin_acceptTwo : ∃ s s' l, (netServer 3 1).Reachable s ∧
    s.data.clientFds = [4, 5] ∧
    (((netServer 3 1).since s).logged (NetServer.scanned 3)).ReachableBy (SameClients 3) (s', l) ∧
    ∀ fd ∈ s.data.clientFds, (l.map Scan.chosen).count (some fd) = 1 := by
  obtain ⟨s, hs, hclients, hrun⟩ := Machine.Reachable.exists_of_exec (M := netServer 3 1)
    (P := fun s => s.data.clientFds = [4, 5] ∧
      (((((netServer 3 1).since s).logged (NetServer.scanned 3)).guard (sameClients 3)).exec
        scanTwice (s, [])).any (fun y => decide (y.2.length = 2 ∧
          ∀ x ∈ y.2, x.ready = [4, 5])) = true) acceptTwo rfl (by decide +kernel)
  obtain ⟨⟨s', l⟩, hl, hlen, hready⟩ := Machine.Reachable.exists_of_exec
    (M := (((netServer 3 1).since s).logged (NetServer.scanned 3)).guard (sameClients 3))
    (P := fun y => y.2.length = 2 ∧ ∀ x ∈ y.2, x.ready = [4, 5]) (s := (s, [])) scanTwice
    ⟨rfl, rfl⟩ hrun
  have hby := Machine.Reachable.of_guard sameClients_iff hl
  refine ⟨s, s', l, hs, hclients, hby, ?_⟩
  refine ((round_robin hs).2.2.2 s' l hby (by rw [hlen, hclients]; rfl)).2 fun x hx fd hfd => ?_
  rw [hready x hx]
  rwa [hclients] at hfd

end TailBench
