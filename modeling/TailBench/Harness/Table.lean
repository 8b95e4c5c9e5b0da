import TailBench.Harness.Budget
import TailBench.Harness.Window

set_option autoImplicit false

/-! # The in-flight table

`inFlightReqs` maps the id of every started request to its object until `finiReq` has
processed the response. Ids are a 64-bit counter, so this is right as long as fewer than
`2^64 + 1` requests are started, which is what the lemmas below ask for; whether it is so is
decided by the budget (`request_budget`) or by the clock.
-/

namespace TailBench

open Lib

variable {cfg : Config} {strict : Bool} {nS nR : Nat}

/-- Pointers below `2^64` have different ids. -/
theorem ofNat_inj {p q : Nat} (hp : p < 2 ^ 64) (hq : q < 2 ^ 64)
    (h : UInt64.ofNat p = UInt64.ofNat q) : p = q := by
  have hnat := congrArg UInt64.toNat h
  rwa [UInt64.toNat_ofNat', UInt64.toNat_ofNat', Nat.mod_eq_of_lt hp, Nat.mod_eq_of_lt hq]
    at hnat

namespace Session

/-- The id of a request that was sent, as its pointer. -/
theorem sentIds_eq {s : Session nS nR} (h : s.client.Objects) :
    s.sentIds = (s.client.data.sent.map Prod.fst).map UInt64.ofNat := by
  rw [Session.sentIds, List.map_map]
  exact List.map_congr_left fun x hx => (h.sent x hx).1

theorem mem_sent_of_id {s : Session nS nR} (h : s.client.Objects)
    (hle : s.client.data.obj.allocated ≤ 2 ^ 64) {p : Nat} (hp : p < 2 ^ 64)
    (hid : UInt64.ofNat p ∈ s.sentIds) : p ∈ s.client.data.sent.map Prod.fst := by
  rw [sentIds_eq h, List.mem_map] at hid
  obtain ⟨q, hq, heq⟩ := hid
  obtain ⟨x, hx, rfl⟩ := List.mem_map.mp hq
  have hlt := h.sent_lt hx
  rw [← ofNat_inj (by omega) hp heq]
  exact hq

/-- Every request is sent at most once, and under its own id. -/
theorem sentIds_nodup {s : Session nS nR} (h : s.client.Objects)
    (hle : s.client.data.obj.allocated ≤ 2 ^ 64) : s.sentIds.Nodup := by
  have hptr : (s.client.data.sent.map Prod.fst).Nodup := by
    rw [List.nodup_iff_count_le_one]
    intro p
    have hplace := h.place p
    have hsub : (s.client.data.sent.map Prod.fst).count p ≤ s.client.data.settled.count p := by
      rw [NetData.settled, List.count_append, List.count_append]
      omega
    split at hplace <;> omega
  rw [sentIds_eq h]
  refine hptr.map_on fun p hp q hq heq => ?_
  obtain ⟨x, hx, rfl⟩ := List.mem_map.mp hp
  obtain ⟨y, hy, rfl⟩ := List.mem_map.mp hq
  have hx' := h.sent_lt hx
  have hy' := h.sent_lt hy
  exact ofNat_inj (by omega) (by omega) heq

/-- What was processed was sent. -/
theorem Reads.completed_subset {s : Session nS nR} (h : s.Reads) {id : UInt64}
    (hid : id ∈ s.client.data.obj.completedIds) : id ∈ s.sentIds := by
  have hpos := List.count_pos_iff.mpr hid
  have hpart : (respIds (s.inbound.take s.client.data.framesRead)).count id
      ≤ (respIds s.inbound).count id :=
    (((List.take_sublist _ _).filter _).map _).count_le id
  have hbal := h.balance id
  have hle := h.answered id
  exact List.count_pos_iff.mp (by omega)

/-- The table holds the started requests whose response has not been processed, their
objects are alive, and no lookup has failed. -/
structure Table (s : Session nS nR) : Prop where
  entries : ∀ id p, s.client.data.obj.inFlightReqs id = some p ↔
    p < s.client.data.obj.allocated ∧ id = UInt64.ofNat p ∧
      id ∉ s.client.data.obj.completedIds
  live : ∀ p, p < s.client.data.obj.allocated →
    UInt64.ofNat p ∉ s.client.data.obj.completedIds → s.client.data.obj.heap p ≠ none
  noLookup : s.client.data.proc ≠ .aborted .lookup
  noBadPointer : s.client.data.proc ≠ .aborted .badPointer

/-- A request in the hands of a sender is alive. -/
theorem Table.live_of_ptr {s : Session nS nR} (h : s.Table) (hr : s.Reads)
    (ho : s.client.Objects) (hle : s.client.data.obj.allocated ≤ 2 ^ 64) {i : Fin nS} {p : Nat}
    (hp : (s.client.senders i).ptr = some p) : s.client.data.obj.heap p ≠ none := by
  obtain ⟨hlt, -, -⟩ := ho.of_ptr hp
  refine h.live p hlt fun hid => ?_
  have hmem := mem_sent_of_id ho hle (by omega) (hr.completed_subset hid)
  obtain ⟨x, hx, rfl⟩ := List.mem_map.mp hmem
  exact ho.ptr_ne_sent hx i hp

/-- The response in the hands of `finiReq` has an entry in the table. -/
theorem Table.entry {s : Session nS nR} (h : s.Table) (hr : s.Reads) (ho : s.client.Objects)
    (hle : s.client.data.obj.allocated ≤ 2 ^ 64) {j : Fin nR} {resp : Response}
    (hj : s.client.receivers j = .fini resp) :
    ∃ x ∈ s.client.data.sent, resp.id = UInt64.ofNat x.1 ∧
      s.client.data.obj.inFlightReqs resp.id = some x.1 := by
  obtain ⟨l, hperm, hsub⟩ := hr.subperm hj
  have hmem : resp.id ∈ s.sentIds := hsub.subset (hperm.mem_iff.mpr (List.mem_cons_self ..))
  have hnew : resp.id ∉ s.client.data.obj.completedIds :=
    (List.nodup_cons.mp (hperm.nodup_iff.mp (hsub.nodup (sentIds_nodup ho hle)))).1
  rw [sentIds_eq ho, List.mem_map] at hmem
  obtain ⟨p, hp, hid⟩ := hmem
  obtain ⟨x, hx, rfl⟩ := List.mem_map.mp hp
  exact ⟨x, hx, hid.symm, (h.entries _ _).mpr ⟨ho.sent_lt hx, hid.symm, hnew⟩⟩

/-- The table after a step of a sender. -/
theorem Table.requests {s : Session nS nR} (h : s.Table) (hr : s.Reads) (ho : s.client.Objects)
    {c : Client} (hc : Client.Requests s.client.data.obj c)
    (hw : Client.SameWindow s.client.data.obj c) (hle : c.allocated ≤ 2 ^ 64) :
    (∀ id p, c.inFlightReqs id = some p ↔
      p < c.allocated ∧ id = UInt64.ofNat p ∧ id ∉ c.completedIds) ∧
    ∀ p, p < c.allocated → UInt64.ofNat p ∉ c.completedIds → c.heap p ≠ none := by
  have hcompl : c.completedIds = s.client.data.obj.completedIds := by
    simp only [Client.completedIds, hw.completed]
  rw [hcompl]
  cases hc with
  | same ha hs ht hh hl =>
      rw [ha, ht]
      exact ⟨h.entries, fun p hp hid => hl p (h.live p hp hid)⟩
  | new r hn hd hs ht hh =>
      have ha := hn.allocated
      -- the new id is not among the processed ones: those belong to older pointers
      have hnew : UInt64.ofNat s.client.data.obj.allocated
          ∉ s.client.data.obj.completedIds := by
        intro hid
        have hmem := mem_sent_of_id ho (by omega) (by omega) (hr.completed_subset hid)
        obtain ⟨x, hx, heq⟩ := List.mem_map.mp hmem
        have hlt := ho.sent_lt hx
        omega
      rw [ha, ht, hh, ho.started]
      constructor
      · intro id p
        by_cases hid : id = UInt64.ofNat s.client.data.obj.allocated
        · subst hid
          rw [Function.update_self]
          constructor
          · intro heq
            obtain rfl := Option.some.inj heq
            exact ⟨by omega, rfl, hnew⟩
          · rintro ⟨hp, heq, -⟩
            rw [ofNat_inj (by omega) (by omega) heq]
        · rw [Function.update_of_ne hid, h.entries]
          constructor
          · rintro ⟨hp, hrest⟩
            exact ⟨by omega, hrest⟩
          · rintro ⟨hp, heq, hrest⟩
            refine ⟨?_, heq, hrest⟩
            have hne : p ≠ s.client.data.obj.allocated := fun hpa => hid (by rw [heq, hpa])
            omega
      · intro p hp hid
        by_cases hpa : p = s.client.data.obj.allocated
        · subst hpa; simp
        · rw [Function.update_of_ne hpa]
          exact h.live p (by omega) hid

/-- The table after `finiReq`. -/
theorem Table.finiEnd {s : Session nS nR} (h : s.Table) {c : Client} {laterNs curNs : UInt64}
    {p : Nat} {req : Request} {resp : Response} {ex : Bool}
    (hm : s.client.data.obj.Matches resp curNs p req)
    (he : Client.FiniEnd cfg laterNs (s.client.data.obj.finiRecord p req resp curNs) c ex) :
    (∀ id p, c.inFlightReqs id = some p ↔
      p < c.allocated ∧ id = UInt64.ofNat p ∧ id ∉ c.completedIds) ∧
    ∀ p, p < c.allocated → UInt64.ofNat p ∉ c.completedIds → c.heap p ≠ none := by
  have hs := he.same
  rw [he.completedIds, hs.inFlightReqs, hs.heap, hs.allocated, Client.finiRecord_inFlightReqs,
    Client.finiRecord_heap, Client.finiRecord_allocated]
  obtain ⟨hlt, hid, -⟩ := (h.entries resp.id p).mp hm.entry
  constructor
  · intro id q
    by_cases hq : id = resp.id
    · subst hq
      simp
    · rw [Function.update_of_ne hq, h.entries]
      simp [hq]
  · intro q hq hnew
    simp only [List.mem_append, List.mem_singleton, not_or] at hnew
    have hqp : q ≠ p := by
      rintro rfl
      exact hnew.2 hid.symm
    rw [Function.update_of_ne hqp]
    exact h.live q hq hnew.1

/-- No sender stops the process: the requests in its hands are alive. -/
theorem Table.proc_sender {s : Session nS nR} (h : s.Table) (hr : s.Reads) (ho : s.client.Objects)
    (hle : s.client.data.obj.allocated ≤ 2 ^ 64) {i : Fin nS} {inp : Input} {d : NetData}
    {pc : SenderPc} {op : LockOp Mutex}
    (hm : SenderMove cfg s.client.data (s.client.senders i) inp d pc op) :
    d.proc = s.client.data.proc := by
  generalize hpc : s.client.senders i = pc₀ at hm
  cases hm with
  | fault hbad =>
      obtain ⟨t, hgen, hd⟩ | ⟨p, hp, hheap⟩ := hbad
      · exact absurd hd (ho.ready i (.gen t) (by rw [hpc, hgen]) trivial)
      · exact absurd hheap (h.live_of_ptr hr ho hle (by rw [hpc]; exact hp))
  | _ => rfl

/-- A receiver finds the request of its response in the table, and the request is alive. -/
theorem Table.proc_receiver {s : Session nS nR} (h : s.Table) (hr : s.Reads)
    (ho : s.client.Objects) (hle : s.client.data.obj.allocated ≤ 2 ^ 64) {j : Fin nR}
    {inp : Input} {d : NetData} {pc : ReceiverPc} {op : LockOp Mutex}
    (hm : ReceiverMove cfg s.client.data (s.client.receivers j) inp d pc op) :
    d.proc ≠ .aborted .lookup ∧ d.proc ≠ .aborted .badPointer := by
  generalize hpc : s.client.receivers j = pc₀ at hm
  cases hm with
  | @fault resp f curNs laterNs hf =>
      obtain ⟨x, hx, hid, hentry⟩ := h.entry hr ho hle hpc
      have hheap : s.client.data.obj.heap x.1 ≠ none := by
        obtain ⟨hlt, hid', hnew⟩ := (h.entries _ _).mp hentry
        exact h.live x.1 hlt (by rw [← hid']; exact hnew)
      -- the lookup succeeds, so another assertion fails
      have hcases := Client.finiReq_cases cfg curNs laterNs resp s.client.data.obj
      rw [hf, hentry] at hcases
      constructor
      · rintro hab
        obtain rfl : f = .lookup := by simpa using hab
        simp at hcases
      · rintro hab
        obtain rfl : f = .badPointer := by simpa using hab
        simp at hcases
        exact hheap hcases
  | exitGroup => exact ⟨by simp, by simp⟩
  | _ => exact ⟨h.noLookup, h.noBadPointer⟩

/-- **Every step keeps the table**, as long as the ids last. -/
theorem Move.table {s s' : Session nS nR} (hm : Move cfg strict s s') (h : s.Table)
    (hr : s.Reads) (ho : s.client.Objects) (hle : s'.client.data.obj.allocated ≤ 2 ^ 64)
    (hle₀ : s.client.data.obj.allocated ≤ 2 ^ 64) : s'.Table := by
  cases hm with
  | answer id svcNs data hid ht => exact ⟨h.entries, h.live, h.noLookup, h.noBadPointer⟩
  | finish => exact ⟨h.entries, h.live, h.noLookup, h.noBadPointer⟩
  | tick htick => exact ⟨h.entries, h.live, h.noLookup, h.noBadPointer⟩
  | client hm harr htick =>
      cases hm with
      | @sender i inp d pc op locks hrun hm hop =>
          obtain ⟨hent, hlive⟩ := h.requests hr ho hm.requests hm.frame.window hle
          have hproc := h.proc_sender hr ho hle₀ hm
          exact ⟨hent, hlive, by show d.proc ≠ _; rw [hproc]; exact h.noLookup,
            by show d.proc ≠ _; rw [hproc]; exact h.noBadPointer⟩
      | @receiver j inp d pc op locks hrun hm hop =>
          have htab : (∀ id p, d.obj.inFlightReqs id = some p ↔
              p < d.obj.allocated ∧ id = UInt64.ofNat p ∧ id ∉ d.obj.completedIds) ∧
              ∀ p, p < d.obj.allocated → UInt64.ofNat p ∉ d.obj.completedIds →
                d.obj.heap p ≠ none := by
            obtain heq | ⟨resp, p, req, curNs, laterNs, ex, -, -, hmatch, he⟩ := hm.obj
            · rw [heq]
              exact ⟨h.entries, h.live⟩
            · exact h.finiEnd hmatch he
          have hproc := h.proc_receiver hr ho hle₀ hm
          exact ⟨htab.1, htab.2, hproc.1, hproc.2⟩

end Session

/-- The table in every reachable state of a session that never runs out of ids. -/
theorem session_table {s : Session nS nR}
    (hids : ∀ t, (session cfg strict nS nR).Reachable t →
      t.client.data.obj.allocated ≤ 2 ^ 64)
    (h : (session cfg strict nS nR).Reachable s) : s.Table := by
  refine Machine.Reachable.invariant ?_ ?_ h
  · rintro s ⟨t, rfl⟩
    constructor <;> simp [NetClient.start, Client.new]
  · intro s a s' hr hs hn
    exact (Session.next_move hn).table hs (session_reads hr)
      (netClient_objects (session_client hr)) (hids s' (hr.step a hn)) (hids s hr)

/-! ## The budget and the table together -/

/-- A request that fits is sent whole. -/
theorem Request.frame_eq {r : Request} (h : r.Fits) : r.frame = r.image := by
  rw [Request.frame, requestLen_eq h, Int.toNat_natCast]
  exact List.take_of_length_le (by rw [Request.length_image h, requestHeaderLen_eq])

/-- **The request budget and the in-flight table.** A client with at least one request to
warm up and one to measure, started with `nS` senders such that at most `2^64` requests are
started, and no transfer of which has failed: different requests have different ids;
`numReqsSent` never exceeds the budget, and when all senders have left their loop it equals
the budget and the wire holds exactly that many frames; when the budget is spent, fewer
requests than there are senders are started and not sent; `inFlightReqs` holds the started
ids whose response has not been processed; and the lookup in `finiReq` has not failed. -/
theorem request_budget {s : Session nS nR} (hW : 1 ≤ cfg.warmupreqs) (_hM : 1 ≤ cfg.maxreqs)
    (hsum : cfg.warmupreqs.toNat + cfg.maxreqs.toNat < 2 ^ 64)
    (hids : cfg.warmupreqs.toNat + cfg.maxreqs.toNat + nS ≤ 2 ^ 64 + 1)
    (h : (session cfg strict nS nR).Reachable s) (hfail : s.client.data.failed = []) :
    let d := s.client.data
    ((∀ p r, d.obj.heap p = some r → p < d.obj.allocated ∧ r.id = UInt64.ofNat p) ∧
      (∀ x ∈ d.sent, x.1 < d.obj.allocated ∧ x.2.id = UInt64.ofNat x.1) ∧
      (∀ p q, p < d.obj.allocated → q < d.obj.allocated →
        UInt64.ofNat p = UInt64.ofNat q → p = q) ∧ s.sentIds.Nodup) ∧
    (d.obj.numReqsSent.toNat ≤ cfg.warmupreqs.toNat + cfg.maxreqs.toNat ∧
      (1 ≤ nS → (∀ i, s.client.senders i = .exited) →
        d.obj.numReqsSent.toNat = cfg.warmupreqs.toNat + cfg.maxreqs.toNat ∧
        d.sent.length = cfg.warmupreqs.toNat + cfg.maxreqs.toNat ∧
        d.wire = (d.sent.map fun x => x.2.image).flatten)) ∧
    (d.skipped.length ≤ nS - 1 ∧
      (d.obj.numReqsSent.toNat = cfg.warmupreqs.toNat + cfg.maxreqs.toNat →
        d.obj.allocated - d.sent.length ≤ nS - 1)) ∧
    (∀ id p, d.obj.inFlightReqs id = some p ↔
      p < d.obj.allocated ∧ id = UInt64.ofNat p ∧ id ∉ d.obj.completedIds) ∧
    d.proc ≠ .aborted .lookup := by
  have hbudget : cfg.budget.toNat = cfg.warmupreqs.toNat + cfg.maxreqs.toNat := by
    rw [Config.budget, UInt64.toNat_add, Nat.mod_eq_of_lt hsum]
  have hW' : 1 ≤ cfg.warmupreqs.toNat := UInt64.le_iff_toNat_le.mp hW
  have hall : ∀ t, (session cfg strict nS nR).Reachable t →
      t.client.data.obj.allocated ≤ 2 ^ 64 := by
    intro t ht
    have hc := netClient_counts (session_client ht)
    have hle := (netClient_skips (by omega) (session_client ht)).allocated_le hc
    omega
  have hc := session_client h
  have hobj := netClient_objects hc
  have hcounts := netClient_counts hc
  have hskips := netClient_skips (by omega) hc
  have hle := hall s h
  have htable := session_table hall h
  have hroom := hcounts.room
  refine ⟨⟨fun p r hp => ⟨(hobj.heap p r hp).1, (hobj.heap p r hp).2.1⟩,
    fun x hx => ⟨hobj.sent_lt hx, (hobj.sent x hx).1⟩,
    fun p q hp hq heq => ofNat_inj (by omega) (by omega) heq,
    Session.sentIds_nodup hobj hle⟩, ⟨by omega, ?_⟩, ⟨?_, ?_⟩, htable.entries,
    htable.noLookup⟩
  -- all senders have left: nothing is between the counter and the wire
  · intro hpos hexit
    have heq := netClient_exited hc ⟨0, by omega⟩ (hexit _)
    have hcounted := hcounts.counted
    rw [Finset.sum_eq_zero fun i _ => by rw [hexit i]; rfl] at hcounted
    simp only [NetData.transfers, hfail, List.length_nil] at hcounted
    have hwire := (netClient_wireOk hc).idle hfail fun i p req rest hi => by
      rw [hexit i] at hi
      simp at hi
    refine ⟨by omega, by omega, ?_⟩
    rw [hwire, NetData.frames]
    congr 1
    exact List.map_congr_left fun x hx => Request.frame_eq (hobj.sent x hx).2
  -- nothing is skipped before the budget is spent
  · by_cases hlt : s.client.data.obj.numReqsSent.toNat < cfg.budget.toNat
    · rw [hskips.before hlt]
      simp
    · have hafter := hskips.after (by omega)
      omega
  · intro heq
    have hafter := hskips.after (by omega)
    have htotal := hskips.total
    have hcounted := hcounts.counted
    -- nobody spends from the budget any more
    have hwork : ∑ i, (s.client.senders i).working ≤ ∑ i, (s.client.senders i).committed := by
      refine Finset.sum_le_sum fun i _ => ?_
      have hw := (s.client.senders i).working_le.1
      have hz : (s.client.senders i).spending ≤ ∑ k, (s.client.senders k).spending :=
        le_sum SenderPc.spending s.client.senders i
      omega
    simp only [NetData.settled, List.length_append, List.length_map, hfail,
      List.length_nil] at htotal
    omega

/-- The small run to the point where the sender has left its loop: two frames of eighty
bytes are on the wire. -/
theorem request_budget_smallRun :
    ∃ s : Session 1 1, (session smallConfig true 1 1).Reachable s ∧
      s.client.data.obj.numReqsSent.toNat = 2 ∧ s.client.data.sent.length = 2 ∧
      s.client.data.wire = (s.client.data.sent.map fun x => x.2.image).flatten := by
  obtain ⟨s, hs, hfail, hexit⟩ := Machine.Reachable.exists_of_exec
    (P := fun s : Session 1 1 => s.client.data.failed = [] ∧ ∀ i, s.client.senders i = .exited)
    (smallRun ++ [.client ⟨.sender 0, .tau⟩])
    (show (session smallConfig true 1 1).init ⟨NetClient.start smallConfig, [], 0⟩ from ⟨0, rfl⟩)
    (by decide +kernel)
  obtain ⟨-, ⟨-, hall⟩, -⟩ :=
    request_budget (by decide) (by decide) (by decide) (by decide) hs hfail
  exact ⟨s, hs, hall le_rfl hexit⟩

end TailBench
