import TailBench.Harness.ClientSteps
import TailBench.Lib.Machine

set_option autoImplicit false

/-! # The requests of a client

The client process on its own, as a machine whose system calls may return anything, and the
invariants of its requests that need nothing from the peer:

* a request has the id of its pointer (modulo `2^64`), in the heap and on the wire;
* every pointer given out is in one place: with the sender that works on it, or among the
  requests that were sent, failed or were skipped;
* the budget: `numReqsSent` counts the transfers that ended, and never passes the budget.
-/

namespace TailBench

open Lib

/-- The client process as a machine. -/
def netClient (cfg : Config) (nS nR : Nat) :
    Machine (NetClient nS nR) (ClientAction nS nR) where
  init s := s = NetClient.start cfg
  next := NetClient.next cfg

/-! ## What a sender does to the object -/

/-- The part of a request that is fixed when it is generated. -/
structure Request.SameBody (r r' : Request) : Prop where
  id : r'.id = r.id
  len : r'.len = r.len
  data : r'.data = r.data

theorem Request.SameBody.fits {r r' : Request} (h : SameBody r r') (hf : r.Fits) : r'.Fits := by
  unfold Request.Fits
  rw [h.len, h.data]
  exact hf

/-- A new request: its pointer, its id, and that it fits. -/
structure Client.NewRequest (c c' : Client) (p : Nat) (r : Request) : Prop where
  ptr : p = c.allocated
  allocated : c'.allocated = c.allocated + 1
  id : r.id = c.startedReqs
  fits : r.Fits

theorem startReqGen_spec {cfg : Config} {c c' : Client} {t ns : UInt64}
    {data : Payload MAX_REQ_BYTES} (h : c.startReqGen cfg t ns data = some c') :
    ∃ dist req, c.dist ≠ none ∧ c.NewRequest c' c.allocated req ∧
      req.startNs = t ∧ req.startNs_lock_ad = ns ∧ req.sentNs_lock_re = 0 ∧
      c' = { c with
        dist := some dist
        startedReqs := c.startedReqs + 1
        heap := Function.update c.heap c.allocated (some req)
        allocated := c.allocated + 1
        inFlightReqs := Function.update c.inFlightReqs c.startedReqs (some c.allocated)
        gen_requests := c.gen_requests + 1
        timely_gen_requests := c'.timely_gen_requests } := by
  unfold Client.startReqGen at h
  cases hd : c.dist with
  | none => simp [hd] at h
  | some dist =>
      simp only [hd, Option.some.injEq] at h
      subst h
      refine ⟨_, _, by simp, ⟨rfl, rfl, rfl, ?_⟩, rfl, rfl, rfl, rfl⟩
      -- the application's data fit, so `len` is their length
      have hle : data.1.length ≤ 2 ^ 20 := data.2
      have hnat : (UInt64.ofNat data.1.length).toNat = data.1.length := by
        rw [UInt64.toNat_ofNat']
        exact Nat.mod_eq_of_lt (by omega)
      exact ⟨hnat.symm, by rw [hnat]; exact data.2⟩

/-- An update of one live object keeps the bodies. -/
theorem Client.modifyReq_heap {c : Client} {p q : Nat} {f : Request → Request} {r : Request}
    (hf : ∀ r : Request, r.SameBody (f r)) (h : (c.modifyReq p f).heap q = some r) :
    ∃ r₀, c.heap q = some r₀ ∧ r₀.SameBody r := by
  by_cases hq : q = p
  · subst hq
    simp only [Client.modifyReq, Function.update_self, Option.map_eq_some_iff] at h
    obtain ⟨r₀, hr₀, rfl⟩ := h
    exact ⟨r₀, hr₀, hf r₀⟩
  · simp only [Client.modifyReq, Function.update_of_ne hq] at h
    exact ⟨r, h, ⟨rfl, rfl, rfl⟩⟩

theorem startReqRate_frame (cfg : Config) (ns : UInt64) (c : Client) :
    (c.startReqRate cfg ns).heap = c.heap ∧
    (c.startReqRate cfg ns).allocated = c.allocated ∧
    (c.startReqRate cfg ns).startedReqs = c.startedReqs ∧
    (c.startReqRate cfg ns).inFlightReqs = c.inFlightReqs ∧
    (c.startReqRate cfg ns).status = c.status ∧
    (c.startReqRate cfg ns).numReqsSent = c.numReqsSent ∧
    (c.dist ≠ none → (c.startReqRate cfg ns).dist ≠ none) := by
  unfold Client.startReqRate
  split
  · split
    · exact ⟨rfl, rfl, rfl, rfl, rfl, rfl, fun _ => by simp⟩
    · split
      · exact ⟨rfl, rfl, rfl, rfl, rfl, rfl, fun _ => by simp⟩
      · exact ⟨rfl, rfl, rfl, rfl, rfl, rfl, fun _ => by simp⟩
  · exact ⟨rfl, rfl, rfl, rfl, rfl, rfl, fun h => h⟩

/-- The effect of a step on the table of requests: no new request, or one. -/
inductive Client.Requests (c c' : Client) : Prop
  | same (ha : c'.allocated = c.allocated) (hs : c'.startedReqs = c.startedReqs)
      (ht : c'.inFlightReqs = c.inFlightReqs)
      (hh : ∀ p r, c'.heap p = some r → ∃ r₀, c.heap p = some r₀ ∧ r₀.SameBody r)
      (hl : ∀ p, c.heap p ≠ none → c'.heap p ≠ none)
  | new (r : Request) (hn : c.NewRequest c' c.allocated r) (hd : c.dist ≠ none)
      (hs : c'.startedReqs = c.startedReqs + 1)
      (ht : c'.inFlightReqs
        = Function.update c.inFlightReqs c.startedReqs (some c.allocated))
      (hh : c'.heap = Function.update c.heap c.allocated (some r))

theorem Client.Requests.refl (c : Client) : Requests c c :=
  .same rfl rfl rfl (fun _ r h => ⟨r, h, ⟨rfl, rfl, rfl⟩⟩) (fun _ h => h)

theorem Client.Requests.modify {c c' : Client} {p : Nat} {f : Request → Request}
    (hh : c'.heap = (c.modifyReq p f).heap) (ha : c'.allocated = c.allocated)
    (hs : c'.startedReqs = c.startedReqs) (ht : c'.inFlightReqs = c.inFlightReqs)
    (hf : ∀ r : Request, r.SameBody (f r)) : Requests c c' := by
  refine .same ha hs ht (fun q r h => modifyReq_heap hf (by rwa [hh] at h)) (fun q h => ?_)
  rw [hh]
  by_cases hq : q = p
  · subst hq
    simpa [Client.modifyReq] using h
  · simpa [Client.modifyReq, hq] using h

theorem StartEffect.requests {cfg : Config} {c c' : Client} {pc pc' : StartPc} {inp : Input}
    (h : StartEffect cfg c pc inp c' pc') : Client.Requests c c' := by
  cases h with
  | same hp hs ht hr => exact .refl c
  | init ns hd =>
      simp only [Client.startReqInit, hd]
      exact .same rfl rfl rfl (fun _ r h => ⟨r, h, ⟨rfl, rfl, rfl⟩⟩) (fun _ h => h)
  | rate ns =>
      obtain ⟨hh, ha, hs, ht, -⟩ := startReqRate_frame cfg ns c
      exact .same ha hs ht (fun p r h => ⟨r, by rwa [hh] at h, ⟨rfl, rfl, rfl⟩⟩)
        (fun p h => by rwa [hh])
  | gen ns data hg =>
      obtain ⟨dist, req, hd, hn, -, -, -, heq⟩ := startReqGen_spec hg
      exact .new req hn hd (by rw [heq]) (by rw [heq]) (by rw [heq])
  | @genEnd p ns c' hg =>
      obtain ⟨r, hr, rfl⟩ := Option.map_eq_some_iff.mp hg
      exact .modify rfl rfl rfl rfl fun r => ⟨rfl, rfl, rfl⟩
  | late ns target slept hh hr => exact .modify rfl rfl rfl rfl fun r => ⟨rfl, rfl, rfl⟩

/-- **A sender and the table of requests.** -/
theorem SenderMove.requests {cfg : Config} {d d' : NetData} {pc pc' : SenderPc} {inp : Input}
    {op : LockOp Mutex} (h : SenderMove cfg d pc inp d' pc' op) :
    Client.Requests d.obj d'.obj := by
  cases h with
  | start he hfits hholds => exact he.requests
  | startReturn hr =>
      cases hr with
      | late ns hh hr => exact .modify rfl rfl rfl rfl fun r => ⟨rfl, rfl, rfl⟩
      | slept ns target slept ht =>
          exact .same rfl rfl rfl (fun _ r h => ⟨r, h, ⟨rfl, rfl, rfl⟩⟩) (fun _ h => h)
  | stamp ns hh => exact .modify rfl rfl rfl rfl fun r => ⟨rfl, rfl, rfl⟩
  | send ns hh hb => exact .modify rfl rfl rfl rfl fun r => ⟨rfl, rfl, rfl⟩
  | skip ns hh hb => exact .modify rfl rfl rfl rfl fun r => ⟨rfl, rfl, rfl⟩
  | count => exact .same rfl rfl rfl (fun _ r h => ⟨r, h, ⟨rfl, rfl, rfl⟩⟩) (fun _ h => h)
  | _ => exact .refl _

/-- **A sender and the distribution.** The first thread creates it and ends `INIT`. -/
theorem SenderMove.dist {cfg : Config} {d d' : NetData} {pc pc' : SenderPc} {inp : Input}
    {op : LockOp Mutex} (h : SenderMove cfg d pc inp d' pc' op)
    (hready : ∀ pc₀, pc = .start pc₀ → pc₀.ready → d.obj.dist ≠ none) :
    (d'.obj.status = d.obj.status ∧ (d'.obj.dist = none ↔ d.obj.dist = none)) ∨
    (d.obj.dist = none ∧ d'.obj.dist ≠ none ∧ d'.obj.status = .WARMUP) := by
  cases h with
  | start he hfits hholds =>
      cases he with
      | same hp hs ht hr => exact .inl ⟨rfl, Iff.rfl⟩
      | init ns hd =>
          refine .inr ⟨hd, ?_, ?_⟩
          · simp [NetData.obj, Client.startReqInit, hd]
          · simp [NetData.obj, Client.startReqInit, hd]
      | @rate t inp ns =>
          obtain ⟨-, -, -, -, hst, -, hdist⟩ := startReqRate_frame cfg ns d.obj
          have hne := hready _ rfl trivial
          exact .inl ⟨hst, iff_of_false (hdist hne) hne⟩
      | gen ns data hg =>
          obtain ⟨dist, req, hd, -, -, -, -, heq⟩ := startReqGen_spec hg
          refine .inl ⟨?_, iff_of_false ?_ hd⟩
          · rw [heq]
          · rw [heq]; simp
      | genEnd ns hg =>
          obtain ⟨r, hr, rfl⟩ := Option.map_eq_some_iff.mp hg
          exact .inl ⟨rfl, Iff.rfl⟩
      | late ns target slept hh hr => exact .inl ⟨rfl, Iff.rfl⟩
  | startReturn hr => cases hr <;> exact .inl ⟨rfl, Iff.rfl⟩
  | _ => exact .inl ⟨rfl, Iff.rfl⟩

/-- A sender that moves on inside `startReq` past the creation of `dist` finds it there. -/
theorem SenderMove.ready {cfg : Config} {d d' : NetData} {pc pc' : SenderPc} {inp : Input}
    {op : LockOp Mutex} (h : SenderMove cfg d pc inp d' pc' op)
    (hready : ∀ pc₀, pc = .start pc₀ → pc₀.ready → d.obj.dist ≠ none)
    (hstatus : d.obj.dist = none → d.obj.status = .INIT)
    (pc₀ : StartPc) (hpc : pc' = .start pc₀) (hr : pc₀.ready) : d'.obj.dist ≠ none := by
  cases h with
  | begin hb =>
      obtain rfl := SenderPc.start.inj hpc
      exact absurd hr (by simp [StartPc.ready])
  | start he hfits hholds =>
      obtain rfl := SenderPc.start.inj hpc
      cases he with
      | same hp hs ht hr' =>
          -- it was past the creation, or read a status other than `INIT`, or saw `dist` itself
          obtain h1 | h1 | h1 := hr' hr
          · exact hready _ rfl h1
          · exact fun hnone => h1 (hstatus hnone)
          · exact h1
      | init ns hd => simp [NetData.obj, Client.startReqInit, hd]
      | rate ns => exact (startReqRate_frame cfg ns d.obj).2.2.2.2.2.2 (hready _ rfl trivial)
      | gen ns data hg => exact absurd hr (by simp [StartPc.ready])
      | genEnd ns hg => exact absurd hr (by simp [StartPc.ready])
      | late ns target slept hh hr' => exact absurd hr (by simp [StartPc.ready])
  | fault hbad => exact hready _ hpc hr
  | _ => cases hpc

/-! ## Where the pointers are -/

/-- The requests that no sender works on any more. -/
def NetData.settled (d : NetData) : List Nat := d.sent.map Prod.fst ++ d.failed ++ d.skipped

/-- Whether a sender works on the request `p`. -/
def SenderPc.worksOn (p : Nat) (pc : SenderPc) : Nat := if pc.ptr = some p then 1 else 0

/-- What a step of a sender does to the places of the requests. -/
inductive Placement (d d' : NetData) (pc pc' : SenderPc) : Prop
  | keep (hp : pc'.ptr = pc.ptr) (ha : d'.obj.allocated = d.obj.allocated)
      (hs : d'.settled = d.settled)
  | alloc (hp : pc.ptr = none) (hp' : pc'.ptr = some d.obj.allocated)
      (ha : d'.obj.allocated = d.obj.allocated + 1) (hs : d'.settled = d.settled)
  | settle (p : Nat) (hp : pc.ptr = some p) (hp' : pc'.ptr = none)
      (ha : d'.obj.allocated = d.obj.allocated) (hs : d'.settled.Perm (p :: d.settled))

theorem SenderMove.placement {cfg : Config} {d d' : NetData} {pc pc' : SenderPc} {inp : Input}
    {op : LockOp Mutex} (h : SenderMove cfg d pc inp d' pc' op) : Placement d d' pc pc' := by
  cases h with
  | start he hfits hholds =>
      cases he with
      | same hp hs ht hr => exact .keep hp rfl rfl
      | init ns hd =>
          refine .keep rfl ?_ rfl
          simp [NetData.obj, Client.startReqInit, hd]
      | rate ns => exact .keep rfl (startReqRate_frame cfg ns d.obj).2.1 rfl
      | gen ns data hg =>
          obtain ⟨dist, req, hd, hn, -⟩ := startReqGen_spec hg
          exact .alloc rfl rfl hn.allocated rfl
      | genEnd ns hg =>
          obtain ⟨r, hr, rfl⟩ := Option.map_eq_some_iff.mp hg
          exact .keep rfl rfl rfl
      | late ns target slept hh hr => exact .keep rfl rfl rfl
  | startReturn hr => cases hr <;> exact .keep rfl rfl rfl
  | @skip p r ns hh hb =>
      refine .settle p rfl rfl rfl ?_
      simp only [NetData.settled, NetData.setObj]
      rw [← List.append_assoc]
      exact List.perm_append_singleton p _
  | @writeLast p req rest hpos =>
      refine .settle p rfl rfl rfl ?_
      simp only [NetData.settled, List.map_append, List.map_cons, List.map_nil,
        List.append_assoc]
      exact List.perm_middle
  | @writeError p req rest =>
      refine .settle p rfl rfl rfl ?_
      simpa only [NetData.settled, List.append_assoc, List.singleton_append] using
        @List.perm_middle _ p (d.sent.map Prod.fst ++ d.failed) d.skipped
  | _ => exact .keep rfl rfl rfl

/-- The frames after a step of a sender. -/
theorem SenderMove.frames {cfg : Config} {d d' : NetData} {pc pc' : SenderPc} {inp : Input}
    {op : LockOp Mutex} (h : SenderMove cfg d pc inp d' pc' op) {P : Nat → Request → Prop}
    (hheap : ∀ p r ns, d.obj.heap p = some r → P p { r with sentNs_lock_ad := ns })
    (hsending : ∀ p req rest, pc = .sending p req rest → P p req)
    (hsent : ∀ x ∈ d.sent, P x.1 x.2) :
    (∀ p req rest, pc' = .sending p req rest → P p req) ∧ ∀ x ∈ d'.sent, P x.1 x.2 := by
  cases h with
  | @send p r ns hh hb =>
      refine ⟨fun q req rest hq => ?_, hsent⟩
      obtain ⟨rfl, rfl, -⟩ := SenderPc.sending.inj hq
      exact hheap p r ns hh
  | @write p req rest k hk hlt =>
      refine ⟨fun q req' rest' hq => ?_, hsent⟩
      obtain ⟨rfl, rfl, -⟩ := SenderPc.sending.inj hq
      exact hsending p req rest rfl
  | @writeLast p req rest hpos =>
      refine ⟨fun q req' rest' hq => (by cases hq), fun x hx => ?_⟩
      obtain hx | hx := List.mem_append.mp hx
      · exact hsent x hx
      · rw [List.mem_singleton.mp hx]
        exact hsending p req rest rfl
  | fault hbad => exact ⟨hsending, hsent⟩
  | _ => exact ⟨fun q req rest hq => (by cases hq), hsent⟩

/-! ## The invariant of the requests -/

namespace NetClient

variable {nS nR : Nat}

/-- The requests of a client. -/
structure Objects (s : NetClient nS nR) : Prop where
  started : s.data.obj.startedReqs = UInt64.ofNat s.data.obj.allocated
  heap : ∀ p r, s.data.obj.heap p = some r →
    p < s.data.obj.allocated ∧ r.id = UInt64.ofNat p ∧ r.Fits
  sending : ∀ i p req rest, s.senders i = .sending p req rest →
    req.id = UInt64.ofNat p ∧ req.Fits
  sent : ∀ x ∈ s.data.sent, x.2.id = UInt64.ofNat x.1 ∧ x.2.Fits
  /-- Every pointer that was given out is in one place, the others in none. -/
  place : ∀ p, (∑ i, (s.senders i).worksOn p) + s.data.settled.count p =
    if p < s.data.obj.allocated then 1 else 0
  ready : ∀ i pc, s.senders i = .start pc → pc.ready → s.data.obj.dist ≠ none
  status : s.data.obj.dist = none ↔ s.data.obj.status = .INIT
  fresh : s.data.obj.dist = none → s.data.obj.allocated = 0

/-- A request that was sent has a pointer that was given out. -/
theorem Objects.sent_lt {s : NetClient nS nR} (h : s.Objects) {x : Nat × Request}
    (hx : x ∈ s.data.sent) : x.1 < s.data.obj.allocated := by
  have hplace := h.place x.1
  have hcount : 0 < s.data.settled.count x.1 := by
    rw [List.count_pos_iff, NetData.settled]
    simp only [List.mem_append]
    exact .inl (.inl (List.mem_map_of_mem hx))
  split at hplace
  · assumption
  · omega

/-- A sender works on a request that was given out and is not settled. -/
theorem Objects.of_ptr {s : NetClient nS nR} (h : s.Objects) {i : Fin nS} {p : Nat}
    (hp : (s.senders i).ptr = some p) :
    p < s.data.obj.allocated ∧ s.data.settled.count p = 0 ∧
      ∀ k, (s.senders k).ptr = some p → k = i := by
  have hplace := h.place p
  have hone : (s.senders i).worksOn p = 1 := by simp [SenderPc.worksOn, hp]
  have hsum := Finset.add_sum_erase Finset.univ (fun k => (s.senders k).worksOn p)
    (Finset.mem_univ i)
  simp only [hone] at hsum
  have hlt : p < s.data.obj.allocated := by
    by_contra hge
    rw [if_neg hge] at hplace
    omega
  rw [if_pos hlt] at hplace
  refine ⟨hlt, by omega, fun k hk => ?_⟩
  by_contra hki
  have hmine : (s.senders k).worksOn p ≤
      ∑ l ∈ Finset.univ.erase i, (s.senders l).worksOn p :=
    Finset.single_le_sum (f := fun l => (s.senders l).worksOn p) (fun l _ => Nat.zero_le _)
      (Finset.mem_erase.mpr ⟨hki, Finset.mem_univ k⟩)
  have hone' : (s.senders k).worksOn p = 1 := by simp [SenderPc.worksOn, hk]
  omega

/-- Nobody works on a request that was sent. -/
theorem Objects.ptr_ne_sent {s : NetClient nS nR} (h : s.Objects) {x : Nat × Request}
    (hx : x ∈ s.data.sent) (i : Fin nS) : (s.senders i).ptr ≠ some x.1 := by
  intro hp
  refine List.not_mem_of_count_eq_zero (h.of_ptr hp).2.1 ?_
  rw [NetData.settled]
  simp only [List.mem_append]
  exact .inl (.inl (List.mem_map_of_mem hx))

/-- The heap after a step of a sender. -/
theorem Objects.heap_sender {s : NetClient nS nR} (h : s.Objects) {c : Client}
    (hr : Client.Requests s.data.obj c) (p : Nat) (r : Request) (hp : c.heap p = some r) :
    p < c.allocated ∧ r.id = UInt64.ofNat p ∧ r.Fits := by
  cases hr with
  | same ha hs ht hh hl =>
      obtain ⟨r₀, hr₀, hbody⟩ := hh p r hp
      obtain ⟨hlt, hid, hfit⟩ := h.heap p r₀ hr₀
      exact ⟨by rw [ha]; exact hlt, by rw [hbody.id, hid], hbody.fits hfit⟩
  | new r' hn hd hs ht hh =>
      by_cases hpa : p = s.data.obj.allocated
      · subst hpa
        rw [hh, Function.update_self] at hp
        obtain rfl := Option.some.inj hp
        exact ⟨by rw [hn.allocated]; omega, by rw [hn.id, h.started], hn.fits⟩
      · rw [hh, Function.update_of_ne hpa] at hp
        obtain ⟨hlt, hid, hfit⟩ := h.heap p r hp
        exact ⟨by rw [hn.allocated]; omega, hid, hfit⟩

/-- The places after a step of a sender. -/
theorem Objects.place_sender {s : NetClient nS nR} (h : s.Objects) {i : Fin nS} {d : NetData}
    {pc : SenderPc} (hp : Placement s.data d (s.senders i) pc) (p : Nat) :
    (∑ k, (Function.update s.senders i pc k).worksOn p) + d.settled.count p =
      if p < d.obj.allocated then 1 else 0 := by
  have hsum := sum_update (SenderPc.worksOn p) s.senders i pc
  have hold := h.place p
  cases hp with
  | keep hp ha hs =>
      have hw : pc.worksOn p = (s.senders i).worksOn p := by
        simp only [SenderPc.worksOn, hp]
      rw [hs, ha]
      omega
  | alloc hp hp' ha hs =>
      -- the new pointer is the first that no place had
      have hw : (s.senders i).worksOn p = 0 := by simp [SenderPc.worksOn, hp]
      have hw' : pc.worksOn p = if s.data.obj.allocated = p then 1 else 0 := by
        simp [SenderPc.worksOn, hp']
      rw [hs, ha]
      change _ = if p < s.data.obj.allocated + 1 then 1 else 0
      split at hold <;> split at hw' <;> split <;> omega
  | settle q hp hp' ha hs =>
      have hw : (s.senders i).worksOn p = if q = p then 1 else 0 := by
        simp [SenderPc.worksOn, hp]
      have hw' : pc.worksOn p = 0 := by simp [SenderPc.worksOn, hp']
      -- the pointer goes from the sender to those that are settled
      have hc : d.settled.count p = s.data.settled.count p + if q = p then 1 else 0 := by
        rw [hs.count_eq, List.count_cons]
        simp
      rw [ha]
      omega

/-- A sender moves. -/
theorem Objects.afterSender {cfg : Config} {s : NetClient nS nR} (h : s.Objects) {i : Fin nS}
    {d : NetData} {locks : Mutex → Option (Tid nS nR)} {pc : SenderPc} {inp : Input}
    {op : LockOp Mutex} (hm : SenderMove cfg s.data (s.senders i) inp d pc op) :
    (s.afterSender i d locks pc).Objects := by
  have hreq := hm.requests
  obtain ⟨hsending, hsent⟩ := hm.frames (P := fun p r => r.id = UInt64.ofNat p ∧ r.Fits)
    (fun p r ns hp => (h.heap p r hp).2) (h.sending i) h.sent
  have hdist := hm.dist (h.ready i)
  constructor
  case started =>
    show d.obj.startedReqs = UInt64.ofNat d.obj.allocated
    cases hreq with
    | same ha hs ht hh hl => rw [ha, hs]; exact h.started
    | new r hn hd hs ht hh =>
        rw [hs, hn.allocated, h.started]
        exact (UInt64.ofNat_add _ 1).symm
  case heap => exact h.heap_sender hreq
  case sending =>
    intro k p req rest hk
    by_cases hki : k = i
    · subst hki
      exact hsending p req rest (by simpa [NetClient.afterSender] using hk)
    · exact h.sending k p req rest (by simpa [NetClient.afterSender, hki] using hk)
  case sent => exact hsent
  case place => exact fun p => h.place_sender hm.placement p
  case ready =>
    intro k pc₀ hk hr
    by_cases hki : k = i
    · subst hki
      exact hm.ready (h.ready k) h.status.mp pc₀ (by simpa [NetClient.afterSender] using hk) hr
    · have hold := h.ready k pc₀ (by simpa [NetClient.afterSender, hki] using hk) hr
      obtain ⟨-, hd⟩ | ⟨hd, -⟩ := hdist
      · exact fun hnone => hold (hd.mp hnone)
      · exact absurd hd hold
  case status =>
    show d.obj.dist = none ↔ d.obj.status = .INIT
    obtain ⟨hst, hd⟩ | ⟨-, hd, hst⟩ := hdist
    · rw [hd, hst]; exact h.status
    · exact iff_of_false hd (by rw [hst]; simp)
  case fresh =>
    intro hnone
    change d.obj.dist = none at hnone
    show d.obj.allocated = 0
    obtain ⟨-, hd⟩ | ⟨-, hd, -⟩ := hdist
    · have hz := h.fresh (hd.mp hnone)
      cases hreq with
      | same ha hs ht hh hl => rw [ha]; exact hz
      | new r hn hd' hs ht hh => exact absurd (hd.mp hnone) hd'
    · exact absurd hnone hd

/-- A receiver moves. -/
theorem Objects.afterReceiver {cfg : Config} {s : NetClient nS nR} (h : s.Objects)
    {j : Fin nR} {d : NetData} {locks : Mutex → Option (Tid nS nR)} {pc : ReceiverPc}
    {inp : Input} {op : LockOp Mutex}
    (hm : ReceiverMove cfg s.data (s.receivers j) inp d pc op) :
    (s.afterReceiver j d locks pc).Objects := by
  have hf := hm.frame
  have hsettled : d.settled = s.data.settled := by
    simp only [NetData.settled, hf.sent, hf.failed, hf.skipped]
  -- only `heap` and `status` of the object change in a way that matters here
  have hobj : d.obj.startedReqs = s.data.obj.startedReqs ∧
      d.obj.allocated = s.data.obj.allocated ∧ d.obj.dist = s.data.obj.dist ∧
      (d.obj.status = .INIT ↔ s.data.obj.status = .INIT) ∧
      ∀ p r, d.obj.heap p = some r → s.data.obj.heap p = some r := by
    obtain heq | ⟨resp, p, req, curNs, laterNs, ex, -, -, -, he⟩ := hm.obj
    · rw [heq]
      exact ⟨rfl, rfl, rfl, Iff.rfl, fun _ _ h => h⟩
    · have hs := he.same
      refine ⟨by simp [hs.startedReqs], by simp [hs.allocated], by simp [hs.dist], ?_, ?_⟩
      · obtain hst | ⟨hst, hst'⟩ := he.status
        · simp [hst]
        · rw [Client.finiRecord_status] at hst
          simp [hst, hst']
      · intro q r hq
        rw [hs.heap, Client.finiRecord_heap] at hq
        by_cases hqp : q = p
        · subst hqp; simp at hq
        · rwa [Function.update_of_ne hqp] at hq
  obtain ⟨hstarted, hallocated, hdist, hstatus, hheap⟩ := hobj
  constructor
  case started =>
    show d.obj.startedReqs = UInt64.ofNat d.obj.allocated
    rw [hstarted, hallocated]
    exact h.started
  case heap =>
    intro p r hp
    obtain ⟨hlt, hbody⟩ := h.heap p r (hheap p r hp)
    exact ⟨by rw [← hallocated] at hlt; exact hlt, hbody⟩
  case sending => exact h.sending
  case sent =>
    show ∀ x ∈ d.sent, _
    rw [hf.sent]
    exact h.sent
  case place =>
    intro p
    show _ + d.settled.count p = if p < d.obj.allocated then 1 else 0
    rw [hsettled, hallocated]
    exact h.place p
  case ready =>
    intro i pc₀ hi hr
    show d.obj.dist ≠ none
    rw [hdist]
    exact h.ready i pc₀ hi hr
  case status =>
    show d.obj.dist = none ↔ d.obj.status = .INIT
    rw [hdist, hstatus]
    exact h.status
  case fresh =>
    show d.obj.dist = none → d.obj.allocated = 0
    rw [hdist, hallocated]
    exact h.fresh

theorem Move.objects {cfg : Config} {s s' : NetClient nS nR} {inp : Input}
    (hm : Move cfg s inp s') (h : s.Objects) : s'.Objects := by
  cases hm with
  | sender i hrun hm hop => exact h.afterSender hm
  | receiver j hrun hm hop => exact h.afterReceiver hm

theorem start_objects (cfg : Config) : (start cfg : NetClient nS nR).Objects := by
  constructor <;> simp [start, Client.new, NetData.settled, SenderPc.worksOn, SenderPc.ptr]

end NetClient

/-! ## The budget -/

/-- A sender is between the check of the budget and its count (as a number). -/
def SenderPc.spending : SenderPc → Nat
  | .sending _ _ _ | .afterSend _ => 1
  | _ => 0

/-- A sender has ended a transfer it has not counted. -/
def SenderPc.uncounted : SenderPc → Nat
  | .afterSend _ => 1
  | _ => 0

theorem SenderPc.uncounted_le (pc : SenderPc) : pc.uncounted ≤ pc.spending := by
  cases pc <;> simp [SenderPc.uncounted, SenderPc.spending]

theorem SenderPc.holds_of_spending {pc : SenderPc} (h : pc.spending ≠ 0) :
    pc.holds .sendLock := by
  cases pc <;> simp_all [SenderPc.spending, SenderPc.holds]

/-- The transfers that have ended. -/
def NetData.transfers (d : NetData) : Nat := d.sent.length + d.failed.length

/-- What a step of a sender does to the budget: nothing, it commits to a transfer, or it
counts one. -/
inductive Spending (cfg : Config) (d d' : NetData) (pc pc' : SenderPc) : Prop
  | keep (hn : d'.obj.numReqsSent = d.obj.numReqsSent) (hs : pc'.spending = pc.spending)
      (hu : d'.transfers + pc.uncounted = d.transfers + pc'.uncounted)
  | commit (hb : d.obj.numReqsSent ≠ cfg.budget) (hl : pc.holds .sendLock)
      (hn : d'.obj.numReqsSent = d.obj.numReqsSent) (hs : pc.spending = 0)
      (hs' : pc'.spending = 1) (hu : pc.uncounted = 0) (hu' : pc'.uncounted = 0)
      (ht : d'.transfers = d.transfers)
  | count (hn : d'.obj.numReqsSent = d.obj.numReqsSent + 1) (hs : pc.spending = 1)
      (hs' : pc'.spending = 0) (hu : pc.uncounted = 1) (hu' : pc'.uncounted = 0)
      (ht : d'.transfers = d.transfers)

theorem StartEffect.numReqsSent {cfg : Config} {c c' : Client} {pc pc' : StartPc} {inp : Input}
    (h : StartEffect cfg c pc inp c' pc') : c'.numReqsSent = c.numReqsSent := by
  cases h with
  | same hp hs ht hr => rfl
  | init ns hd => simp [Client.startReqInit, hd]
  | rate ns => exact (startReqRate_frame cfg ns c).2.2.2.2.2.1
  | gen ns data hg =>
      obtain ⟨dist, req, -, -, -, -, -, heq⟩ := startReqGen_spec hg
      rw [heq]
  | genEnd ns hg =>
      obtain ⟨r, hr, rfl⟩ := Option.map_eq_some_iff.mp hg
      rfl
  | late ns target slept hh hr => rfl

theorem SenderMove.spending {cfg : Config} {d d' : NetData} {pc pc' : SenderPc} {inp : Input}
    {op : LockOp Mutex} (h : SenderMove cfg d pc inp d' pc' op) : Spending cfg d d' pc pc' := by
  cases h with
  | start he hfits hholds => exact .keep he.numReqsSent rfl rfl
  | startReturn hr => cases hr <;> exact .keep rfl rfl rfl
  | send ns hh hb => exact .commit hb rfl rfl rfl rfl rfl rfl rfl
  | writeLast hpos =>
      refine .keep rfl rfl ?_
      simp only [NetData.transfers, List.length_append, List.length_singleton,
        SenderPc.uncounted]
      omega
  | writeError =>
      refine .keep rfl rfl ?_
      simp only [NetData.transfers, List.length_append, List.length_singleton,
        SenderPc.uncounted]
      omega
  | count => exact .count rfl rfl rfl rfl rfl rfl
  | _ => exact .keep rfl rfl rfl

namespace NetClient

variable {nS nR : Nat}

/-- `numReqsSent` counts the transfers, and there is room for those under way. -/
structure Counts (cfg : Config) (s : NetClient nS nR) : Prop where
  counted : s.data.transfers =
    s.data.obj.numReqsSent.toNat + ∑ i, (s.senders i).uncounted
  room : s.data.obj.numReqsSent.toNat + ∑ i, (s.senders i).spending ≤ cfg.budget.toNat

/-- The thread that holds `sendLock` is the only one that may be spending. -/
theorem sum_spending_eq {s : NetClient nS nR} (ho : Owned s.locks s.held) {i : Fin nS}
    (hi : (s.senders i).holds .sendLock) :
    ∑ k, (s.senders k).spending = (s.senders i).spending := by
  refine Finset.sum_eq_single i (fun k _ hki => ?_) (fun h => absurd (Finset.mem_univ i) h)
  by_contra hk
  have hk' : s.held (.sender k) .sendLock := SenderPc.holds_of_spending hk
  have heq := ho.unique hk' (show s.held (.sender i) .sendLock from hi)
  exact hki (by simpa using heq)

theorem Counts.afterSender {cfg : Config} {s : NetClient nS nR} (h : s.Counts cfg)
    (ho : Owned s.locks s.held) {i : Fin nS} {d : NetData}
    {locks : Mutex → Option (Tid nS nR)} {pc : SenderPc} {inp : Input} {op : LockOp Mutex}
    (hm : SenderMove cfg s.data (s.senders i) inp d pc op) :
    (s.afterSender i d locks pc).Counts cfg := by
  have hsp := sum_update SenderPc.spending s.senders i pc
  have hun := sum_update SenderPc.uncounted s.senders i pc
  have hc := h.counted
  have hr := h.room
  suffices hgoal : d.transfers = d.obj.numReqsSent.toNat
        + ∑ k, (Function.update s.senders i pc k).uncounted ∧
      d.obj.numReqsSent.toNat + ∑ k, (Function.update s.senders i pc k).spending
        ≤ cfg.budget.toNat from ⟨hgoal.1, hgoal.2⟩
  cases hm.spending with
  | keep hn hs hu =>
      rw [hn]
      constructor <;> omega
  | commit hb hl hn hs hs' hu hu' ht =>
      -- under `sendLock` nobody else is about to be counted
      have hzero := sum_spending_eq ho hl
      have hlt : s.data.obj.numReqsSent.toNat ≠ cfg.budget.toNat := fun heq =>
        hb (UInt64.toNat_inj.mp heq)
      rw [hn, ht]
      constructor <;> omega
  | count hn hs hs' hu hu' ht =>
      have hle : 1 ≤ ∑ k, (s.senders k).spending := by
        rw [← hs]
        exact le_sum SenderPc.spending s.senders i
      have hmax := cfg.budget.toNat_lt
      -- below the budget the counter does not wrap
      have hinc : (s.data.obj.numReqsSent + 1).toNat = s.data.obj.numReqsSent.toNat + 1 := by
        rw [UInt64.toNat_add]
        exact Nat.mod_eq_of_lt (by simp only [UInt64.toNat_one]; omega)
      rw [hn, hinc, ht]
      constructor <;> omega

theorem Counts.afterReceiver {cfg : Config} {s : NetClient nS nR} (h : s.Counts cfg)
    {j : Fin nR} {d : NetData} {locks : Mutex → Option (Tid nS nR)} {pc : ReceiverPc}
    {inp : Input} {op : LockOp Mutex}
    (hm : ReceiverMove cfg s.data (s.receivers j) inp d pc op) :
    (s.afterReceiver j d locks pc).Counts cfg := by
  have hn : d.obj.numReqsSent = s.data.obj.numReqsSent := by
    obtain heq | ⟨resp, p, req, curNs, laterNs, ex, -, -, -, he⟩ := hm.obj
    · rw [heq]
    · simp [he.same.numReqsSent]
  have ht : d.transfers = s.data.transfers := by
    simp only [NetData.transfers, hm.frame.sent, hm.frame.failed]
  constructor
  · show d.transfers = d.obj.numReqsSent.toNat + _
    rw [ht, hn]
    exact h.counted
  · show d.obj.numReqsSent.toNat + _ ≤ _
    rw [hn]
    exact h.room

theorem Move.counts {cfg : Config} {s s' : NetClient nS nR} {inp : Input}
    (hm : Move cfg s inp s') (ho : Owned s.locks s.held) (h : s.Counts cfg) :
    s'.Counts cfg := by
  cases hm with
  | sender i hrun hm hop => exact h.afterSender ho hm
  | receiver j hrun hm hop => exact h.afterReceiver hm

theorem start_counts (cfg : Config) : (start cfg : NetClient nS nR).Counts cfg := by
  constructor <;> simp [start, Client.new, NetData.transfers, SenderPc.uncounted,
    SenderPc.spending]

/-- **The budget is never exceeded.** -/
theorem Counts.transfers_le {cfg : Config} {s : NetClient nS nR} (h : s.Counts cfg) :
    s.data.transfers ≤ cfg.budget.toNat := by
  have hle : ∑ i, (s.senders i).uncounted ≤ ∑ i, (s.senders i).spending :=
    Finset.sum_le_sum fun i _ => (s.senders i).uncounted_le
  have hc := h.counted
  have hr := h.room
  omega

end NetClient

/-! ## Reachable states -/

section Reachable

variable {cfg : Config} {nS nR : Nat} {s : NetClient nS nR}

theorem netClient_owned (h : (netClient cfg nS nR).Reachable s) : Owned s.locks s.held := by
  refine Machine.Reachable.invariant (P := fun s => Owned s.locks s.held) ?_ ?_ h
  · rintro s rfl
    exact NetClient.start_owned
  · intro s a s' _ ho hn
    exact (NetClient.next_move hn).owned ho

theorem netClient_objects (h : (netClient cfg nS nR).Reachable s) : s.Objects := by
  refine Machine.Reachable.invariant ?_ ?_ h
  · rintro s rfl
    exact NetClient.start_objects cfg
  · intro s a s' _ hs hn
    exact (NetClient.next_move hn).objects hs

theorem netClient_counts (h : (netClient cfg nS nR).Reachable s) : s.Counts cfg := by
  refine Machine.Reachable.invariant ?_ ?_ h
  · rintro s rfl
    exact NetClient.start_counts cfg
  · intro s a s' hr hs hn
    exact (NetClient.next_move hn).counts (netClient_owned hr) hs

end Reachable

end TailBench
