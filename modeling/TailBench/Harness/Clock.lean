import TailBench.Harness.Table

set_option autoImplicit false

/-! # The time stamps of a request

Under a strict clock the stamps of a request are ordered as `struct Request` documents them
(`harness/msgs.h`), up to `sentNs_lock_ad`: `sentNs_lock_re` is never set. A sender brings its
request from stage to stage; each stage is a predicate on the request and the last reading of
the clock. When a request is sent, its arrival time `genNs` is over, whether it was late or the
thread has slept until then.
-/

namespace TailBench

open Lib

/-! ## Stages -/

/-- In `startReq`, with `lock` held. -/
structure Request.Locked (now : UInt64) (r : Request) : Prop where
  start : r.startNs < r.startNs_lock_ad
  locked : r.startNs_lock_ad ≤ now
  unset : r.sentNs_lock_re = 0

/-- In `startReq`, after `lock` was released. -/
structure Request.Released (now : UInt64) (r : Request) : Prop where
  start : r.startNs < r.startNs_lock_ad
  lock : r.startNs_lock_ad < r.startNs_lock_re
  released : r.startNs_lock_re ≤ now
  unset : r.sentNs_lock_re = 0

/-- In `startReq`, while the thread sleeps until `target`. -/
structure Request.Waiting (now target : UInt64) (r : Request) : Prop extends
    Request.Released now r where
  late : r.late = decide (r.genNs < r.startNs)
  target : r.genNs ≤ target

/-- At the entry of `send`: the arrival time is over. -/
structure Request.Due (now : UInt64) (r : Request) : Prop extends Request.Released now r where
  late : r.late = decide (r.genNs < r.startNs)
  due : r.genNs ≤ now

/-- In `send`, before `sendLock` is held. -/
structure Request.Stamped (now : UInt64) (r : Request) : Prop where
  start : r.startNs < r.startNs_lock_ad
  lock : r.startNs_lock_ad < r.startNs_lock_re
  stamp : r.startNs_lock_re < r.sentNs
  due : r.genNs < r.sentNs
  late : r.late = decide (r.genNs < r.startNs)
  stamped : r.sentNs ≤ now
  unset : r.sentNs_lock_re = 0

/-- Being sent, or sent. -/
structure Request.Sent (now : UInt64) (r : Request) : Prop where
  start : r.startNs < r.startNs_lock_ad
  lock : r.startNs_lock_ad < r.startNs_lock_re
  stamp : r.startNs_lock_re < r.sentNs
  due : r.genNs < r.sentNs
  late : r.late = decide (r.genNs < r.startNs)
  send : r.sentNs < r.sentNs_lock_ad
  sent : r.sentNs_lock_ad ≤ now
  unset : r.sentNs_lock_re = 0

section Stages

variable {now now' ns target : UInt64} {r : Request}

theorem Request.Locked.mono (h : r.Locked now) (hle : now ≤ now') : r.Locked now' :=
  { h with locked := UInt64.le_trans h.locked hle }

theorem Request.Released.mono (h : r.Released now) (hle : now ≤ now') : r.Released now' :=
  { h with released := UInt64.le_trans h.released hle }

theorem Request.Waiting.mono (h : r.Waiting now target) (hle : now ≤ now') :
    r.Waiting now' target :=
  { h with released := UInt64.le_trans h.released hle }

theorem Request.Due.mono (h : r.Due now) (hle : now ≤ now') : r.Due now' :=
  { h with released := UInt64.le_trans h.released hle, due := UInt64.le_trans h.due hle }

theorem Request.Stamped.mono (h : r.Stamped now) (hle : now ≤ now') : r.Stamped now' :=
  { h with stamped := UInt64.le_trans h.stamped hle }

theorem Request.Sent.mono (h : r.Sent now) (hle : now ≤ now') : r.Sent now' :=
  { h with sent := UInt64.le_trans h.sent hle }

/-- The clock is read under `lock`, before it is released. -/
theorem Request.Locked.release (h : r.Locked now) (hns : now < ns) :
    Request.Released ns { r with startNs_lock_re := ns } :=
  ⟨h.start, UInt64.lt_of_le_of_lt h.locked hns, UInt64.le_refl ns, h.unset⟩

/-- The thread decides to sleep. -/
theorem Request.Released.wait (h : r.Released now) (hns : now ≤ ns) (ht : r.genNs ≤ target) :
    Request.Waiting ns target { r with late := decide (r.genNs < r.startNs) } :=
  ⟨⟨h.start, h.lock, UInt64.le_trans h.released hns, h.unset⟩, rfl, ht⟩

/-- The arrival time is over already. -/
theorem Request.Released.due (h : r.Released now) (hns : now ≤ ns) (ht : r.genNs ≤ ns) :
    Request.Due ns { r with late := decide (r.genNs < r.startNs) } :=
  ⟨⟨h.start, h.lock, UInt64.le_trans h.released hns, h.unset⟩, rfl, ht⟩

/-- The thread has slept. -/
theorem Request.Waiting.due (h : r.Waiting now target) (hns : now ≤ ns) (ht : target ≤ ns) :
    r.Due ns :=
  ⟨h.toReleased.mono hns, h.late, UInt64.le_trans h.target ht⟩

theorem Request.Due.stamp (h : r.Due now) (hns : now < ns) :
    Request.Stamped ns { r with sentNs := ns } :=
  ⟨h.start, h.lock, UInt64.lt_of_le_of_lt h.released hns, UInt64.lt_of_le_of_lt h.due hns,
    h.late, UInt64.le_refl ns, h.unset⟩

theorem Request.Stamped.sending (h : r.Stamped now) (hns : now < ns) :
    Request.Sent ns { r with sentNs_lock_ad := ns } :=
  ⟨h.start, h.lock, h.stamp, h.due, h.late, UInt64.lt_of_le_of_lt h.stamped hns,
    UInt64.le_refl ns, h.unset⟩

end Stages

/-! ## Senders -/

/-- The stage of the request a sender works on. -/
def SenderPc.Timed (now : UInt64) (heap : Nat → Option Request) : SenderPc → Prop
  | .start (.genEnd p) => ∀ r, heap p = some r → r.Locked now
  | .start (.generated p) => ∀ r, heap p = some r → r.Released now
  | .start (.sleep p target _) => ∀ r, heap p = some r → r.Waiting now target
  | .start pc => ∀ t, pc.startNs = some t → t ≤ now
  | .sendEntry p => ∀ r, heap p = some r → r.Due now
  | .lockSend p | .sendLocked p => ∀ r, heap p = some r → r.Stamped now
  | .sending p req _ => req.Sent now ∧ ∀ r, heap p = some r → r = req
  | _ => True

/-- Time goes on, and of the heap only the request of the sender matters. -/
theorem SenderPc.Timed.mono {now now' : UInt64} {heap heap' : Nat → Option Request}
    {pc : SenderPc} (h : pc.Timed now heap) (hle : now ≤ now')
    (hheap : ∀ p r, pc.ptr = some p → heap' p = some r → heap p = some r) :
    pc.Timed now' heap' := by
  cases pc with
  | start pc =>
      cases pc with
      | genEnd p => exact fun r hr => (h r (hheap p r rfl hr)).mono hle
      | generated p => exact fun r hr => (h r (hheap p r rfl hr)).mono hle
      | sleep p target slept => exact fun r hr => (h r (hheap p r rfl hr)).mono hle
      | _ => exact fun t ht => UInt64.le_trans (h t ht) hle
  | sendEntry p => exact fun r hr => (h r (hheap p r rfl hr)).mono hle
  | lockSend p => exact fun r hr => (h r (hheap p r rfl hr)).mono hle
  | sendLocked p => exact fun r hr => (h r (hheap p r rfl hr)).mono hle
  | sending p req rest => exact ⟨h.1.mono hle, fun r hr => h.2 r (hheap p r rfl hr)⟩
  | _ => trivial

/-- A reading of a strict clock. -/
theorem Input.tick_reading {now now' ns : UInt64} {inp : Input}
    (h : inp.tick true now = some now') (hns : inp.reading = some ns) : now < ns ∧ now' = ns := by
  simp only [Input.tick, hns, true_and] at h
  split at h
  · cases h
  · next hlt => exact ⟨not_not.mp hlt, (Option.some.inj h).symm⟩

theorem Input.tick_le {now now' : UInt64} {inp : Input} (h : inp.tick true now = some now') :
    now ≤ now' := by
  cases hr : inp.reading with
  | none =>
      simp only [Input.tick, hr, Option.some.injEq] at h
      rw [h]
      exact UInt64.le_refl now'
  | some ns =>
      obtain ⟨hlt, rfl⟩ := Input.tick_reading h hr
      exact UInt64.le_of_lt hlt

/-- The one object that `modifyReq` changes. -/
theorem Client.modifyReq_self {c : Client} {p : Nat} {f : Request → Request} {r : Request}
    (h : (c.modifyReq p f).heap p = some r) : ∃ r₀, c.heap p = some r₀ ∧ r = f r₀ := by
  simp only [Client.modifyReq, Function.update_self, Option.map_eq_some_iff] at h
  obtain ⟨r₀, hr₀, rfl⟩ := h
  exact ⟨r₀, hr₀, rfl⟩

/-- **One step inside `startReq`** brings the request to its next stage. -/
theorem StartEffect.timed {cfg : Config} {c c' : Client} {pc pc' : StartPc} {inp : Input}
    (he : StartEffect cfg c pc inp c' pc') {now now' : UInt64}
    (h : (SenderPc.start pc).Timed now c.heap) (htick : inp.tick true now = some now') :
    (SenderPc.start pc').Timed now' c'.heap := by
  have hle := Input.tick_le htick
  cases he with
  | same hp hs ht hr =>
      -- before there is a request, the start of `startReq` is all there is
      by_cases hpc : pc.ptr = none
      · have hstart : ∀ t, pc'.startNs = some t → t ≤ now' := by
          intro t hpt
          obtain hold | rfl := hs t hpt
          · cases pc with
            | genEnd p | generated p | sleep p target slept => cases hold
            | _ => exact UInt64.le_trans (h t hold) hle
          · obtain ⟨-, rfl⟩ := Input.tick_reading htick rfl
            exact UInt64.le_refl now'
        rw [hpc] at hp
        cases pc' with
        | genEnd p | generated p | sleep p target slept => cases hp
        | _ => exact hstart
      · rw [ht hpc]
        exact h.mono hle fun _ _ _ hr => hr
  | init ns hd => exact fun t ht => UInt64.le_trans (h t ht) hle
  | rate ns => exact fun t ht => UInt64.le_trans (h t ht) hle
  | @gen t ns data c' hg =>
      obtain ⟨hlt, rfl⟩ := Input.tick_reading htick rfl
      -- the lock is taken after `startReq` was entered, one reading later at least
      obtain ⟨dist, req, -, -, hstart, hlock, hunset, heq⟩ := startReqGen_spec hg
      intro r hr
      rw [heq] at hr
      simp only [Function.update_self, Option.some.injEq] at hr
      subst hr
      refine ⟨?_, by rw [hlock]; exact UInt64.le_refl _, hunset⟩
      rw [hstart, hlock]
      exact UInt64.lt_of_le_of_lt (h t rfl) hlt
  | @genEnd p ns c' hg =>
      obtain ⟨hlt, rfl⟩ := Input.tick_reading htick rfl
      obtain ⟨r₀, hr₀, rfl⟩ := Option.map_eq_some_iff.mp hg
      intro r hr
      obtain ⟨r₁, hr₁, rfl⟩ := Client.modifyReq_self hr
      exact (h r₁ hr₁).release hlt
  | @late p r ns target slept hh ht =>
      obtain ⟨hlt, rfl⟩ := Input.tick_reading htick rfl
      intro r₁ hr₁
      obtain ⟨r₀, hr₀, rfl⟩ := Client.modifyReq_self hr₁
      rw [hh] at hr₀
      cases hr₀
      exact (h r hh).wait hle ht

/-- **One step of a sender** brings its request to the next stage. -/
theorem SenderMove.timed {cfg : Config} {d d' : NetData} {pc pc' : SenderPc} {inp : Input}
    {op : LockOp Mutex} (hm : SenderMove cfg d pc inp d' pc' op) {now now' : UInt64}
    (h : pc.Timed now d.obj.heap) (htick : inp.tick true now = some now') :
    pc'.Timed now' d'.obj.heap := by
  have hle := Input.tick_le htick
  cases hm with
  | begin hb => exact fun t ht => nomatch ht
  | start he hfits hholds => exact he.timed h htick
  | startReturn hr =>
      cases hr with
      | @late p r ns hh hr =>
          obtain ⟨-, rfl⟩ := Input.tick_reading htick rfl
          intro r₁ hr₁
          obtain ⟨r₀, hr₀, rfl⟩ := Client.modifyReq_self hr₁
          rw [hh] at hr₀
          cases hr₀
          exact (h r hh).due hle hr
      | slept ns target slept ht =>
          obtain ⟨-, rfl⟩ := Input.tick_reading htick rfl
          exact fun r hr => (h r hr).due hle ht
  | fault hbad => exact h.mono hle fun _ _ _ hr => hr
  | @stamp p r ns hh =>
      obtain ⟨hlt, rfl⟩ := Input.tick_reading htick rfl
      intro r₁ hr₁
      obtain ⟨r₀, hr₀, rfl⟩ := Client.modifyReq_self hr₁
      exact (h r₀ hr₀).stamp hlt
  | lockSend => exact fun r hr => (h r hr).mono hle
  | @send p r ns hh hb =>
      obtain ⟨hlt, rfl⟩ := Input.tick_reading htick rfl
      refine ⟨(h r hh).sending hlt, fun r₁ hr₁ => ?_⟩
      obtain ⟨r₀, hr₀, rfl⟩ := Client.modifyReq_self hr₁
      rw [hh] at hr₀
      cases hr₀
      rfl
  | write hk hlt => exact ⟨h.1.mono hle, h.2⟩
  | _ => trivial

/-- A sender changes its own request only. -/
theorem SenderMove.heap_other {cfg : Config} {d d' : NetData} {pc pc' : SenderPc} {inp : Input}
    {op : LockOp Mutex} (hm : SenderMove cfg d pc inp d' pc' op) {q : Nat}
    (hq : q < d.obj.allocated) (hne : pc.ptr ≠ some q) : d'.obj.heap q = d.obj.heap q := by
  -- the object it changes is not `q`
  have hmod : ∀ {p : Nat} {f : Request → Request}, pc.ptr = some p →
      (d.obj.modifyReq p f).heap q = d.obj.heap q := by
    intro p f hp
    have hqp : q ≠ p := fun he => hne (by rw [hp, he])
    simp [Client.modifyReq, hqp]
  cases hm with
  | start he hfits hholds =>
      cases he with
      | same => rfl
      | init ns hd => simp [NetData.obj, Client.startReqInit, hd]
      | rate ns => exact congrFun (startReqRate_frame cfg ns d.obj).1 q
      | gen ns data hg =>
          obtain ⟨dist, req, -, -, -, -, -, heq⟩ := startReqGen_spec hg
          have hqa : q ≠ d.obj.allocated := by omega
          rw [heq]
          simp [hqa]
      | genEnd ns hg =>
          obtain ⟨r, hr, rfl⟩ := Option.map_eq_some_iff.mp hg
          exact hmod rfl
      | late ns target slept hh hr => exact hmod rfl
  | startReturn hr =>
      cases hr with
      | late ns hh hr => exact hmod rfl
      | slept ns target slept ht => rfl
  | stamp ns hh => exact hmod rfl
  | send ns hh hb => exact hmod rfl
  | skip ns hh hb => exact hmod rfl
  | _ => rfl

/-- A new request comes with a reading of the clock. -/
theorem SenderMove.allocated {cfg : Config} {d d' : NetData} {pc pc' : SenderPc} {inp : Input}
    {op : LockOp Mutex} (hm : SenderMove cfg d pc inp d' pc' op) :
    d'.obj.allocated = d.obj.allocated ∨
      d'.obj.allocated = d.obj.allocated + 1 ∧ ∃ ns data, inp = .gen ns data := by
  cases hm with
  | start he hfits hholds =>
      cases he with
      | init ns hd => exact .inl (by simp [NetData.obj, Client.startReqInit, hd])
      | rate ns => exact .inl (startReqRate_frame cfg ns d.obj).2.1
      | gen ns data hg =>
          obtain ⟨dist, req, -, hn, -⟩ := startReqGen_spec hg
          exact .inr ⟨hn.allocated, ns, data, rfl⟩
      | genEnd ns hg =>
          obtain ⟨r, hr, rfl⟩ := Option.map_eq_some_iff.mp hg
          exact .inl rfl
      | _ => exact .inl rfl
  | startReturn hr => cases hr <;> exact .inl rfl
  | _ => exact .inl rfl

/-- A receiver changes no request; it may delete one. -/
theorem ReceiverMove.heap {cfg : Config} {d d' : NetData} {pc pc' : ReceiverPc} {inp : Input}
    {op : LockOp Mutex} (hm : ReceiverMove cfg d pc inp d' pc' op) {q : Nat} {r : Request}
    (hr : d'.obj.heap q = some r) : d.obj.heap q = some r := by
  obtain hobj | ⟨resp, p, req, curNs, laterNs, ex, -, -, hm, he⟩ := hm.obj
  · rwa [hobj] at hr
  · rw [he.same.heap, Client.finiRecord_heap] at hr
    by_cases hqp : q = p
    · subst hqp
      rw [Function.update_self] at hr
      cases hr
    · rwa [Function.update_of_ne hqp] at hr

/-! ## The client in time -/

namespace Session

variable {cfg : Config} {nS nR : Nat} {s s' : Session nS nR}

/-- Where the requests of a client are in time: those of the senders at the stage of their
place, those that were sent as they were sent, and no more of them than clock readings. -/
structure Timeline (s : Session nS nR) : Prop where
  senders : ∀ i, (s.client.senders i).Timed s.now s.client.data.obj.heap
  sent : ∀ x ∈ s.client.data.sent,
    x.2.Sent s.now ∧ ∀ r, s.client.data.obj.heap x.1 = some r → r = x.2
  count : s.client.data.obj.allocated ≤ s.now.toNat

/-- Time goes on, and of the heap nothing changes but that requests are deleted. -/
theorem Timeline.frame (h : s.Timeline) (hle : s.now ≤ s'.now)
    (hs : s'.client.senders = s.client.senders)
    (hheap : ∀ p r, s'.client.data.obj.heap p = some r → s.client.data.obj.heap p = some r)
    (hsent : s'.client.data.sent = s.client.data.sent)
    (hall : s'.client.data.obj.allocated = s.client.data.obj.allocated) : s'.Timeline where
  senders i := by
    rw [hs]
    exact (h.senders i).mono hle fun p r _ hr => hheap p r hr
  sent x hx := by
    rw [hsent] at hx
    exact ⟨(h.sent x hx).1.mono hle, fun r hr => (h.sent x hx).2 r (hheap x.1 r hr)⟩
  count := by
    rw [hall]
    exact h.count.trans hle

/-- A sender moves. -/
theorem Timeline.afterSender (h : s.Timeline) (ho : s.client.Objects) {i : Fin nS}
    {d : NetData} {locks : Mutex → Option (Tid nS nR)} {pc : SenderPc} {inp : Input}
    {op : LockOp Mutex} {now : UInt64}
    (hm : SenderMove cfg s.client.data (s.client.senders i) inp d pc op)
    (htick : inp.tick true s.now = some now) :
    Timeline { s with client := s.client.afterSender i d locks pc, now := now } := by
  have hle := Input.tick_le htick
  have htimed := hm.timed (h.senders i) htick
  constructor
  case senders =>
    intro k
    by_cases hki : k = i
    · subst hki
      simpa [NetClient.afterSender] using htimed
    · have hk : (s.client.afterSender i d locks pc).senders k = s.client.senders k := by
        simp [NetClient.afterSender, hki]
      show ((s.client.afterSender i d locks pc).senders k).Timed now d.obj.heap
      rw [hk]
      refine (h.senders k).mono hle fun p r hp hr => ?_
      obtain ⟨hlt, -, huniq⟩ := ho.of_ptr hp
      rwa [hm.heap_other hlt fun hi => hki (huniq i hi).symm] at hr
  case sent =>
    -- the request that is being sent is added as it is
    have hold : ∀ x ∈ s.client.data.sent,
        x.2.Sent now ∧ ∀ r, d.obj.heap x.1 = some r → r = x.2 := by
      intro x hx
      refine ⟨(h.sent x hx).1.mono hle, fun r hr => (h.sent x hx).2 r ?_⟩
      rwa [hm.heap_other (ho.sent_lt hx) (ho.ptr_ne_sent hx i)] at hr
    intro x hx
    change x ∈ d.sent at hx
    have hsending := h.senders i
    generalize s.client.senders i = pc₀ at hm hsending
    cases hm with
    | @writeLast p req rest hpos =>
        obtain hx | hx := List.mem_append.mp hx
        · exact hold x hx
        · rw [List.mem_singleton.mp hx]
          exact ⟨hsending.1.mono hle, hsending.2⟩
    | _ => exact hold x hx
  case count =>
    show d.obj.allocated ≤ now.toNat
    obtain hall | ⟨hall, ns, data, rfl⟩ := hm.allocated
    · rw [hall]
      exact h.count.trans hle
    · obtain ⟨hlt, rfl⟩ := Input.tick_reading htick rfl
      have hcount := h.count
      have hlt' := UInt64.lt_iff_toNat_lt.mp hlt
      omega

/-- Every step. -/
theorem Move.timeline (hm : Move cfg true s s') (h : s.Timeline) (ho : s.client.Objects) :
    s'.Timeline := by
  cases hm with
  | client hm harr htick =>
      cases hm with
      | sender i hrun hm hop => exact h.afterSender ho hm htick
      | receiver j hrun hm hop =>
          refine h.frame (Input.tick_le htick) rfl (fun p r hr => hm.heap hr) hm.frame.sent ?_
          obtain hobj | ⟨resp, p, req, curNs, laterNs, ex, -, -, -, he⟩ := hm.obj
          · exact congrArg Client.allocated hobj
          · exact he.same.allocated.trans (Client.finiRecord_allocated ..)
  | answer id svcNs data hid ht => exact ⟨h.senders, h.sent, h.count⟩
  | finish => exact ⟨h.senders, h.sent, h.count⟩
  | tick htick => exact h.frame (Input.tick_le htick) rfl (fun _ _ hr => hr) rfl rfl

end Session

section Reachable

variable {cfg : Config} {nS nR : Nat} {s : Session nS nR}

/-- **Under a strict clock** the requests are in order in every reachable state. -/
theorem session_timeline (h : (session cfg true nS nR).Reachable s) : s.Timeline := by
  refine Machine.Reachable.invariant ?_ ?_ h
  · rintro s ⟨t, rfl⟩
    exact ⟨fun _ => trivial, nofun, Nat.zero_le _⟩
  · intro s a s' hr hs hn
    exact (Session.next_move hn).timeline hs (netClient_objects (session_client hr))

/-- There are not as many requests as would make their ids repeat. -/
theorem session_allocated (h : (session cfg true nS nR).Reachable s) :
    s.client.data.obj.allocated ≤ 2 ^ 64 :=
  (session_timeline h).count.trans s.now.toNat_lt.le

theorem session_strict_table (h : (session cfg true nS nR).Reachable s) : s.Table :=
  session_table (fun _ ht => session_allocated ht) h

end Reachable

end TailBench
