import TailBench.Harness.Session

set_option autoImplicit false

/-! # What the receivers read

The receivers take turns under `recvLock`, and one of them may be in the middle of a frame.
Whoever holds the lock stands at a frame of the stream (`Session.Reads.reading`), so what it
hands to `finiReq` is a frame the server wrote, and every answer is handed over once:

    processed answers + answers in the hands of receivers = answers among the frames read
-/

namespace TailBench

open Lib

/-! ## Frames of responses -/

/-- What the server writes. -/
def Response.Sound (r : Response) : Prop :=
  r.Fits ∧ (r.type ≠ ResponseType.RESPONSE.code → r.data = [])

theorem mkResponse_sound (id svcNs : UInt64) (data : Payload MAX_RESP_BYTES) :
    (mkResponse id svcNs data).Sound :=
  ⟨mkResponse_fits id svcNs data, fun h => absurd rfl h⟩

theorem finishFrame_sound : finishFrame.Sound := ⟨by decide, fun _ => rfl⟩

/-- Forty bytes at the start of a frame are its header. -/
theorem Response.split_header {r : Response} {head got rest : Bytes}
    (h : head ++ got <+: r.image ++ rest) (hl : head.length = responseHeaderLen) :
    head = r.header ∧ got <+: r.data ++ rest := by
  obtain ⟨t, ht⟩ := h
  rw [Response.image, List.append_assoc, List.append_assoc] at ht
  obtain ⟨hhead, hrest⟩ := List.append_inj ht (by rw [hl]; simp)
  exact ⟨hhead, ⟨t, hrest⟩⟩

/-- The frame a reader is in, once it has the header. -/
theorem Response.current {inb : List Response} {n rx : Nat} {head got : Bytes}
    (hc : Cursor (inb.map Response.image) n (head ++ got) rx)
    (hl : head.length = responseHeaderLen) :
    ∃ r rest, inb[n]? = some r ∧ r ∈ inb ∧ head = r.header ∧
      Response.ofHeader head = { r with data := [] } ∧ got <+: r.data ++ rest := by
  obtain ⟨f, hf, hpre⟩ := hc.current (by rw [List.length_append, hl]; simp)
  rw [List.getElem?_map, Option.map_eq_some_iff] at hf
  obtain ⟨r, hr, rfl⟩ := hf
  obtain ⟨hhead, hgot⟩ := Response.split_header hpre hl
  exact ⟨r, _, hr, List.mem_of_getElem? hr, hhead, by rw [hhead, r.ofHeader_header], hgot⟩

/-- The data of a frame are complete when there are `len` bytes of them. -/
theorem Response.data_eq {r : Response} {got rest : Bytes} (hfit : r.Fits)
    (hpre : got <+: r.data ++ rest) (hl : got.length = r.len.toNat) : got = r.data := by
  have hdata : r.data <+: r.data ++ rest := List.prefix_append _ _
  have hlen : got.length = r.data.length := by rw [hl, hfit.1]
  exact (List.prefix_of_prefix_length_le hpre hdata hlen.le).eq_of_length hlen

/-- A frame whose data have come is the next of the stream, and the cursor goes on behind it. -/
theorem Response.complete {inb : List Response} {n rx : Nat} {head got : Bytes}
    (hc : Cursor (inb.map Response.image) n (head ++ got) rx)
    (hl : head.length = responseHeaderLen)
    (hall : ∀ r ∈ inb, ∀ rest, Response.ofHeader head = { r with data := [] } →
      got <+: r.data ++ rest → got = r.data) :
    ∃ r, inb[n]? = some r ∧ { Response.ofHeader head with data := got } = r ∧
      Cursor (inb.map Response.image) (n + 1) [] rx := by
  obtain ⟨r, rest, hr, hmem, hh, hof, hpre⟩ := Response.current hc hl
  have hdata : got = r.data := hall r hmem rest hof hpre
  refine ⟨r, hr, by rw [hof]; simp only [hdata], hc.done ?_⟩
  rw [List.getElem?_map, hr, hh, hdata]
  rfl

/-! ## The place of a receiver -/

/-- What a receiver under `recvLock` has of the frame it reads. -/
def ReceiverPc.part : ReceiverPc → Option Bytes
  | .recvLocked | .received _ _ | .unlockRecv _ => some []
  | .header _ got => some got
  | .payload _ head got => some (head ++ got)
  | _ => none

/-- The response a receiver has read and not yet processed. -/
def ReceiverPc.resp : ReceiverPc → Option Response
  | .received _ resp | .unlockRecv resp | .dispatch resp | .lockFini resp | .fini resp =>
      some resp
  | _ => none

/-- A receiver in the data of a frame has its header. -/
def ReceiverPc.HeadOk : ReceiverPc → Prop
  | .payload _ head _ =>
      head.length = responseHeaderLen ∧
        (Response.ofHeader head).type = ResponseType.RESPONSE.code
  | _ => True

/-- Whether a receiver holds an answer to `id` (as a number, to be summed). -/
def ReceiverPc.answers (id : UInt64) : ReceiverPc → Nat
  | .received _ resp | .unlockRecv resp | .dispatch resp =>
      if resp.type = ResponseType.RESPONSE.code ∧ resp.id = id then 1 else 0
  | .lockFini resp | .fini resp => if resp.id = id then 1 else 0
  | _ => 0

/-- A receiver that has bytes of a frame holds `recvLock`. -/
theorem ReceiverPc.holds_of_part {pc : ReceiverPc} {part : Bytes} (h : pc.part = some part) :
    pc.holds .recvLock := by
  cases pc <;> simp_all [ReceiverPc.part, ReceiverPc.holds]

/-- How a step of a receiver moves the cursor: the reader goes on in the same frame, or it
completes the frame and holds it. -/
inductive Reading (inb : List Response) (d d' : NetData) (pc pc' : ReceiverPc) : Prop
  | inside (hn : d'.framesRead = d.framesRead)
      (hresp : ∀ resp', pc'.resp = some resp' →
        ∃ resp ns, pc.resp = some resp ∧ resp' = { resp with recvNs := ns })
  | done (s1 : UInt64) (r : Response) (hn : d'.framesRead = d.framesRead + 1)
      (hr : inb[d.framesRead]? = some r) (hpc : pc.resp = none) (hpc' : pc' = .received s1 r)

/-- After a step of a receiver the cursor is right: in the hands of the receiver, or of nobody
when neither it nor another one reads (`Others`). -/
structure ReadsOn (inb : List Response) (Others : Prop) (d d' : NetData) (pc pc' : ReceiverPc) :
    Prop where
  head : pc'.HeadOk
  reading : ∀ part, pc'.part = some part →
    Cursor (inb.map Response.image) d'.framesRead part d'.rx
  free : ¬ pc'.holds .recvLock → Others →
    Cursor (inb.map Response.image) d'.framesRead [] d'.rx
  moves : Reading inb d d' pc pc'

/-- The receiver has completed a frame. -/
theorem ReadsOn.complete {inb : List Response} {Others : Prop} {d d' : NetData} {pc : ReceiverPc}
    {s1 : UInt64} {r : Response} (hr : inb[d.framesRead]? = some r)
    (hnext : Cursor (inb.map Response.image) (d.framesRead + 1) [] d'.rx)
    (hn : d'.framesRead = d.framesRead + 1) (hpc : pc.resp = none) :
    ReadsOn inb Others d d' pc (.received s1 r) := by
  refine ⟨trivial, fun part hpart => ?_, fun hn => absurd rfl hn, .done s1 r hn hr hpc rfl⟩
  obtain rfl : [] = part := by simpa [ReceiverPc.part] using hpart
  rw [hn]
  exact hnext

/-- **One step of a receiver on a stream of sound frames.** -/
theorem ReceiverMove.reads {cfg : Config} {d d' : NetData} {pc pc' : ReceiverPc} {inp : Input}
    {op : LockOp Mutex} (hm : ReceiverMove cfg d pc inp d' pc' op) {inb : List Response}
    (hsound : ∀ r ∈ inb, r.Sound) (harr : inp.arrives (inb.flatMap Response.image) d.rx)
    (hhead : pc.HeadOk)
    (hcur : ∀ part, pc.part = some part →
      Cursor (inb.map Response.image) d.framesRead part d.rx)
    {Others : Prop} (hothers : op = .acquire .recvLock → Others)
    (hfree : ¬ pc.holds .recvLock → Others →
      Cursor (inb.map Response.image) d.framesRead [] d.rx) :
    ReadsOn inb Others d d' pc pc' := by
  have hread : ∀ {part bs : Bytes}, pc.part = some part → inp = .got bs →
      Cursor (inb.map Response.image) d.framesRead (part ++ bs) (d.rx + bs.length) := by
    intro part bs hpart hinp
    subst hinp
    rw [List.flatMap_def] at harr
    exact (hcur part hpart).read harr
  cases hm with
  | lock =>
      refine ⟨trivial, fun part hpart => ?_, fun hn => absurd rfl hn,
        .inside rfl (by simp [ReceiverPc.resp])⟩
      obtain rfl : [] = part := by simpa [ReceiverPc.part] using hpart
      exact hfree (by simp [ReceiverPc.holds]) (hothers rfl)
  | begin s1 =>
      refine ⟨trivial, fun part hpart => ?_, fun hn => absurd rfl hn,
        .inside rfl (by simp [ReceiverPc.resp])⟩
      obtain rfl : [] = part := by simpa [ReceiverPc.part] using hpart
      exact hcur [] rfl
  | header bs hl =>
      refine ⟨trivial, fun part hpart => ?_, fun hn => absurd rfl hn,
        .inside rfl (by simp [ReceiverPc.resp])⟩
      obtain rfl := Option.some.inj hpart
      exact hread rfl rfl
  | headerData bs hl ht hn =>
      refine ⟨⟨by rw [List.length_append]; exact hl, ht⟩, fun part hpart => ?_,
        fun hn => absurd rfl hn, .inside rfl (by simp [ReceiverPc.resp])⟩
      obtain rfl := Option.some.inj hpart
      rw [List.append_nil]
      exact hread rfl rfl
  -- the three cases in which a frame is complete
  | @headerEmpty s1 got bs hl ht hn =>
      have hc := hread rfl rfl
      rw [← List.append_nil (got ++ bs)] at hc
      obtain ⟨r, hr, hresp, hnext⟩ := Response.complete hc
        (by rw [List.length_append]; exact hl) fun r hmem rest hof _ => by
          have hlen : r.len = 0 := by rw [hof] at hn; exact hn
          have hz : r.data.length = 0 := by rw [(hsound r hmem).1.1, hlen]; rfl
          exact (List.eq_nil_of_length_eq_zero hz).symm
      rw [hresp]
      exact .complete hr hnext rfl rfl
  | @headerOther s1 got bs hl ht =>
      have hc := hread rfl rfl
      rw [← List.append_nil (got ++ bs)] at hc
      obtain ⟨r, hr, hresp, hnext⟩ := Response.complete hc
        (by rw [List.length_append]; exact hl) fun r hmem rest hof _ => by
          rw [hof] at ht
          exact ((hsound r hmem).2 ht).symm
      rw [show Response.ofHeader (got ++ bs) = r from hresp]
      exact .complete hr hnext rfl rfl
  | payload bs hl =>
      refine ⟨hhead, fun part hpart => ?_, fun hn => absurd rfl hn,
        .inside rfl (by simp [ReceiverPc.resp])⟩
      obtain rfl := Option.some.inj hpart
      rw [← List.append_assoc]
      exact hread rfl rfl
  | @payloadDone s1 head got bs hl hn =>
      have hc := hread rfl rfl
      rw [List.append_assoc] at hc
      obtain ⟨r, hr, hresp, hnext⟩ := Response.complete hc hhead.1 fun r hmem rest hof hpre => by
        have hmax : r.len.toNat ≤ 2 ^ 20 := (hsound r hmem).1.2
        refine Response.data_eq (hsound r hmem).1 hpre ?_
        rw [hof] at hl
        rw [List.length_append, hl, cInt_of_lt (by simp only; omega), Int.toNat_natCast]
      rw [hresp]
      exact .complete hr hnext rfl rfl
  | ends hpc hinp =>
      exact ⟨trivial, by simp [ReceiverPc.part], fun hn => absurd rfl hn,
        .inside rfl (by simp [ReceiverPc.resp])⟩
  | tooLong bs hpc hhead hbig =>
      exact ⟨trivial, by simp [ReceiverPc.part], fun hn => absurd rfl hn,
        .inside rfl (by simp [ReceiverPc.resp])⟩
  | @stamp s1 resp ns =>
      refine ⟨trivial, fun part hpart => ?_, fun hn => absurd rfl hn,
        .inside rfl fun resp' h => ?_⟩
      · obtain rfl : [] = part := by simpa [ReceiverPc.part] using hpart
        exact hcur [] rfl
      · exact ⟨resp, ns - s1, rfl, by simpa [ReceiverPc.resp] using h.symm⟩
  | @unlock resp =>
      refine ⟨trivial, by simp [ReceiverPc.part], fun _ _ => hcur [] rfl,
        .inside rfl fun resp' h => ?_⟩
      exact ⟨resp, resp.recvNs, rfl, by simpa [ReceiverPc.resp] using h.symm⟩
  | @response resp ht =>
      refine ⟨trivial, by simp [ReceiverPc.part], fun _ => hfree (by simp [ReceiverPc.holds]),
        .inside rfl fun resp' h => ?_⟩
      exact ⟨resp, resp.recvNs, rfl, by simpa [ReceiverPc.resp] using h.symm⟩
  | unknown ht =>
      exact ⟨trivial, by simp [ReceiverPc.part], fun _ => hfree (by simp [ReceiverPc.holds]),
        .inside rfl (by simp [ReceiverPc.resp])⟩
  | @lockFini resp =>
      refine ⟨trivial, by simp [ReceiverPc.part], fun _ => hfree (by simp [ReceiverPc.holds]),
        .inside rfl fun resp' h => ?_⟩
      exact ⟨resp, resp.recvNs, rfl, by simpa [ReceiverPc.resp] using h.symm⟩
  | @fault resp f curNs laterNs hf =>
      refine ⟨trivial, by simp [ReceiverPc.part], fun _ => hfree (by simp [ReceiverPc.holds]),
        .inside rfl fun resp' h => ?_⟩
      exact ⟨resp, resp.recvNs, rfl, by simpa [ReceiverPc.resp] using h.symm⟩
  | returns curNs laterNs hm he =>
      exact ⟨trivial, by simp [ReceiverPc.part], fun _ => hfree (by simp [ReceiverPc.holds]),
        .inside rfl (by simp [ReceiverPc.resp])⟩
  | exits curNs laterNs hm he =>
      exact ⟨trivial, by simp [ReceiverPc.part], fun _ => hfree (by simp [ReceiverPc.holds]),
        .inside rfl (by simp [ReceiverPc.resp])⟩
  | exitGroup =>
      exact ⟨trivial, by simp [ReceiverPc.part], fun _ => hfree (by simp [ReceiverPc.holds]),
        .inside rfl (by simp [ReceiverPc.resp])⟩

/-! ## Answers are handed over once -/

theorem respIds_append (as bs : List Response) :
    respIds (as ++ bs) = respIds as ++ respIds bs := by
  simp [respIds]

/-- The answers among the frames read, after one more. -/
theorem count_respIds_succ {inb : List Response} {n : Nat} {r : Response}
    (hr : inb[n]? = some r) (id : UInt64) :
    (respIds (inb.take (n + 1))).count id = (respIds (inb.take n)).count id +
      if r.type = ResponseType.RESPONSE.code ∧ r.id = id then 1 else 0 := by
  rw [List.take_add_one, hr, respIds_append, List.count_append]
  by_cases ht : r.type = ResponseType.RESPONSE.code
  · by_cases hid : r.id = id <;> simp [respIds, ht, hid]
  · simp [respIds, ht]

/-- The ids of the responses that were processed. -/
def Client.completedIds (c : Client) : List UInt64 := c.completed.map fun x => x.resp.id

theorem Client.FiniEnd.completedIds {cfg : Config} {laterNs curNs : UInt64} {c c' : Client}
    {p : Nat} {req : Request} {resp : Response} {ex : Bool}
    (h : FiniEnd cfg laterNs (c.finiRecord p req resp curNs) c' ex) :
    c'.completedIds = c.completedIds ++ [resp.id] := by
  simp [Client.completedIds, h.same.completed]

/-- **One step of a receiver** keeps the balance of answers. -/
theorem ReceiverMove.balance {cfg : Config} {d d' : NetData} {pc pc' : ReceiverPc}
    {inp : Input} {op : LockOp Mutex} (hm : ReceiverMove cfg d pc inp d' pc' op)
    {inb : List Response} (hr : Reading inb d d' pc pc') (id : UInt64) :
    d'.obj.completedIds.count id + pc'.answers id
        + (respIds (inb.take d.framesRead)).count id =
      d.obj.completedIds.count id + pc.answers id
        + (respIds (inb.take d'.framesRead)).count id := by
  cases hr with
  | done s1 r hn hr hpc hpc' =>
      subst hpc'
      have hpc0 : pc.answers id = 0 := by
        cases pc <;> simp_all [ReceiverPc.resp, ReceiverPc.answers]
      have hobj : d'.obj = d.obj := by cases hm <;> rfl
      rw [hn, hobj, count_respIds_succ hr, hpc0]
      simp only [ReceiverPc.answers]
      omega
  | inside hn hresp =>
      rw [hn]
      cases hm with
      | headerEmpty bs hl ht hz => simp at hn
      | headerOther bs hl ht => simp at hn
      | payloadDone bs hl hz => simp at hn
      | ends hpc hinp => cases pc <;> simp_all [ReceiverPc.inRecvfull, ReceiverPc.answers]
      | tooLong bs hpc hhead hbig =>
          cases pc <;> simp_all [ReceiverPc.inRecvfull, ReceiverPc.answers]
      | response ht => simp [ReceiverPc.answers, ht]
      | unknown ht => simp [ReceiverPc.answers, ht]
      | @returns resp c p req curNs laterNs hmatch he =>
          simp only [NetData.setObj, ReceiverPc.answers, he.completedIds, List.count_append,
            List.count_singleton, beq_iff_eq]
          omega
      | @exits resp c p req curNs laterNs hmatch he =>
          simp only [NetData.setObj, ReceiverPc.answers, he.completedIds, List.count_append,
            List.count_singleton, beq_iff_eq]
          omega
      | _ => simp [ReceiverPc.answers]

/-! ## The invariant of the session -/

namespace Session

variable {nS nR : Nat}

/-- The receivers stand at the frame they should, and every answer is accounted for. -/
structure Reads (s : Session nS nR) : Prop where
  sound : ∀ r ∈ s.inbound, r.Sound
  heads : ∀ j, (s.client.receivers j).HeadOk
  reading : ∀ j part, (s.client.receivers j).part = some part →
    Cursor (s.inbound.map Response.image) s.client.data.framesRead part s.client.data.rx
  free : (∀ j, ¬ (s.client.receivers j).holds .recvLock) →
    Cursor (s.inbound.map Response.image) s.client.data.framesRead [] s.client.data.rx
  le : s.client.data.framesRead ≤ s.inbound.length
  held : ∀ j resp, (s.client.receivers j).resp = some resp →
    ∃ r ∈ s.inbound, ∃ ns, resp = { r with recvNs := ns }
  balance : ∀ id, s.client.data.obj.completedIds.count id + ∑ j, (s.client.receivers j).answers id =
    (respIds (s.inbound.take s.client.data.framesRead)).count id
  answered : ∀ id, (respIds s.inbound).count id ≤ s.sentIds.count id

/-- **A response in the hands of `finiReq`** and those processed before it answer different
requests that were sent. -/
theorem Reads.subperm {s : Session nS nR} (h : s.Reads) {j : Fin nR} {resp : Response}
    (hj : s.client.receivers j = .fini resp) :
    List.Subperm (resp.id :: s.client.data.obj.completedIds) s.sentIds := by
  rw [List.subperm_ext_iff]
  intro id _
  have hpart : (respIds (s.inbound.take s.client.data.framesRead)).count id
      ≤ (respIds s.inbound).count id :=
    (((List.take_sublist _ _).filter _).map _).count_le id
  have hmine : (s.client.receivers j).answers id ≤ ∑ k, (s.client.receivers k).answers id :=
    le_sum (ReceiverPc.answers id) s.client.receivers j
  have hans : (s.client.receivers j).answers id = if resp.id = id then 1 else 0 := by
    rw [hj]
    rfl
  have hbal := h.balance id
  have hle := h.answered id
  rw [List.count_cons]
  simp only [beq_iff_eq]
  omega

/-- The server writes one more frame. -/
theorem Reads.append {s : Session nS nR} (h : s.Reads) {r : Response} (hr : r.Sound)
    (hans : ∀ id, (respIds (s.inbound ++ [r])).count id ≤ s.sentIds.count id) :
    Reads { s with inbound := s.inbound ++ [r] } where
  sound x hx := by
    obtain hx | hx := List.mem_append.mp hx
    · exact h.sound x hx
    · rw [List.mem_singleton.mp hx]; exact hr
  heads := h.heads
  reading j part hpart := by
    rw [List.map_append]
    exact (h.reading j part hpart).append _
  free hfree := by
    rw [List.map_append]
    exact (h.free hfree).append _
  le := by
    rw [List.length_append]
    exact Nat.le_add_right_of_le h.le
  held j resp hresp := by
    obtain ⟨x, hx, hns⟩ := h.held j resp hresp
    exact ⟨x, List.mem_append_left _ hx, hns⟩
  balance id := by
    rw [List.take_append_of_le_length h.le]
    exact h.balance id
  answered := hans

/-- A sender moves. -/
theorem Reads.afterSender {s : Session nS nR} (h : s.Reads) {i : Fin nS} {d : NetData}
    {locks : Mutex → Option (Tid nS nR)} {pc : SenderPc} {now : UInt64}
    (hf : SenderFrame s.client.data d) :
    Reads { s with client := s.client.afterSender i d locks pc, now := now } where
  sound := h.sound
  heads := h.heads
  reading j part hpart := by
    show Cursor _ d.framesRead part d.rx
    rw [hf.framesRead, hf.rx]
    exact h.reading j part hpart
  free hfree := by
    show Cursor _ d.framesRead [] d.rx
    rw [hf.framesRead, hf.rx]
    exact h.free hfree
  le := by
    show d.framesRead ≤ s.inbound.length
    rw [hf.framesRead]
    exact h.le
  held := h.held
  balance id := by
    show d.obj.completedIds.count id + _ = (respIds (s.inbound.take d.framesRead)).count id
    rw [hf.framesRead, Client.completedIds, hf.window.completed]
    exact h.balance id
  answered id := by
    have hpre : s.sentIds <+: d.sent.map fun x => x.2.id := hf.sent.map _
    exact (h.answered id).trans (hpre.sublist.count_le id)

/-- While another receiver is in a frame, this one does not move the cursor. -/
theorem cursor_of_other {cfg : Config} {s : Session nS nR} {j k : Fin nR} {d : NetData}
    {pc : ReceiverPc} {inp : Input} {op : LockOp Mutex} {part : Bytes}
    (ho : Owned s.client.locks s.client.held)
    (hm : ReceiverMove cfg s.client.data (s.client.receivers j) inp d pc op) (hkj : k ≠ j)
    (hpart : (s.client.receivers k).part = some part) :
    d.framesRead = s.client.data.framesRead ∧ d.rx = s.client.data.rx := by
  have hj : ¬ (s.client.receivers j).holds .recvLock := by
    intro hj
    have hk : s.client.held (.receiver k) .recvLock := ReceiverPc.holds_of_part hpart
    have hjk := ho.unique (show s.client.held (.receiver j) .recvLock from hj) hk
    exact hkj (by simpa using hjk.symm)
  generalize s.client.receivers j = pc₀ at hm hj
  cases hm with
  | tooLong bs hpc hhead hbig => cases pc₀ <;> simp_all [ReceiverPc.inRecvfull, ReceiverPc.holds]
  | header bs hl => exact absurd rfl hj
  | headerData bs hl ht hn => exact absurd rfl hj
  | headerEmpty bs hl ht hn => exact absurd rfl hj
  | headerOther bs hl ht => exact absurd rfl hj
  | payload bs hl => exact absurd rfl hj
  | payloadDone bs hl hn => exact absurd rfl hj
  | _ => exact ⟨rfl, rfl⟩

/-- A receiver moves. -/
theorem Reads.afterReceiver {cfg : Config} {s : Session nS nR} (h : s.Reads) {j : Fin nR}
    {d : NetData} {locks : Mutex → Option (Tid nS nR)} {pc : ReceiverPc} {now : UInt64}
    {inp : Input} {op : LockOp Mutex} (ho : Owned s.client.locks s.client.held)
    (hm : ReceiverMove cfg s.client.data (s.client.receivers j) inp d pc op)
    (hop : op.apply (.receiver j) s.client.locks = some locks)
    (harr : inp.arrives s.stream s.client.data.rx) :
    Reads { s with client := s.client.afterReceiver j d locks pc, now := now } := by
  have hothers : op = .acquire .recvLock →
      ∀ k, k ≠ j → ¬ (s.client.receivers k).holds .recvLock := by
    rintro rfl k - hk
    have hlock : s.client.locks .recvLock = some (.receiver k) := (ho _ (.receiver k)).mpr hk
    simp [LockOp.apply, hlock] at hop
  -- what the receiver itself reads; the others keep their place, since it holds `recvLock`
  obtain ⟨hhead, hcur, hfree, hreading⟩ := hm.reads h.sound harr (h.heads j) (h.reading j) hothers
    (fun hj hk => h.free fun k => by
      by_cases hkj : k = j
      · rw [hkj]; exact hj
      · exact hk k hkj)
  have hbal := hm.balance hreading
  constructor
  case sound => exact h.sound
  case heads =>
    intro k
    by_cases hkj : k = j
    · subst hkj; simpa [NetClient.afterReceiver] using hhead
    · simpa [NetClient.afterReceiver, hkj] using h.heads k
  case reading =>
    intro k part hpart
    by_cases hkj : k = j
    · subst hkj
      exact hcur part (by simpa [NetClient.afterReceiver] using hpart)
    · have hpart' : (s.client.receivers k).part = some part := by
        simpa [NetClient.afterReceiver, hkj] using hpart
      obtain ⟨hn, hrx⟩ := cursor_of_other ho hm hkj hpart'
      show Cursor _ d.framesRead part d.rx
      rw [hn, hrx]
      exact h.reading k part hpart'
  case free =>
    intro hnone
    refine hfree (by simpa [NetClient.afterReceiver] using hnone j) fun k hkj => ?_
    simpa [NetClient.afterReceiver, hkj] using hnone k
  case le =>
    show d.framesRead ≤ s.inbound.length
    cases hreading with
    | inside hn hresp => rw [hn]; exact h.le
    | done s1 r hn hr hpc hpc' =>
        rw [hn]
        exact (List.getElem?_eq_some_iff.mp hr).1
  case held =>
    intro k resp hresp
    by_cases hkj : k = j
    · subst hkj
      have hresp' : pc.resp = some resp := by simpa [NetClient.afterReceiver] using hresp
      cases hreading with
      | inside hn hold =>
          obtain ⟨resp₀, ns, hresp₀, rfl⟩ := hold resp hresp'
          obtain ⟨r, hr, ns₀, rfl⟩ := h.held k resp₀ hresp₀
          exact ⟨r, hr, ns, rfl⟩
      | done s1 r hn hr hpc hpc' =>
          rw [hpc'] at hresp'
          obtain rfl := Option.some.inj hresp'
          exact ⟨r, List.mem_of_getElem? hr, r.recvNs, rfl⟩
    · exact h.held k resp (by simpa [NetClient.afterReceiver, hkj] using hresp)
  case balance =>
    intro id
    -- every response is completed, in the hands of a receiver, or still in the stream
    have hsum := sum_update (ReceiverPc.answers id) s.client.receivers j pc
    have hold := h.balance id
    have hnew := hbal id
    change _ = s.client.data.obj.completedIds.count id + _ + _ at hnew
    show d.obj.completedIds.count id + ∑ k, (Function.update s.client.receivers j pc k).answers id =
      (respIds (s.inbound.take d.framesRead)).count id
    omega
  case answered =>
    intro id
    show _ ≤ (d.sent.map fun x => x.2.id).count id
    rw [hm.frame.sent]
    exact h.answered id

/-- **Every step keeps the receivers in place.** -/
theorem Move.reads {cfg : Config} {strict : Bool} {s s' : Session nS nR}
    (hm : Move cfg strict s s') (ho : Owned s.client.locks s.client.held) (h : s.Reads) :
    s'.Reads := by
  cases hm with
  | client hm harr htick =>
      cases hm with
      | sender i hrun hm hop => exact h.afterSender hm.frame
      | receiver j hrun hm hop => exact h.afterReceiver ho hm hop harr
  | answer id svcNs data hid ht =>
      refine h.append (mkResponse_sound id svcNs data) fun id' => ?_
      rw [respIds_append, List.count_append]
      have hnew : respIds [mkResponse id svcNs data] = [id] := rfl
      rw [hnew, List.count_singleton]
      by_cases he : id = id'
      · subst he; simpa [Nat.succ_le_iff] using hid
      · simpa [he] using h.answered id'
  | finish =>
      refine h.append finishFrame_sound fun id => ?_
      have hnone : respIds [finishFrame] = [] := rfl
      rw [respIds_append, hnone, List.append_nil]
      exact h.answered id
  | tick htick => exact ⟨h.sound, h.heads, h.reading, h.free, h.le, h.held, h.balance, h.answered⟩

end Session

section Reachable

variable {cfg : Config} {strict : Bool} {nS nR : Nat}

/-- The client of a session is a client process. -/
theorem session_client {s : Session nS nR} (h : (session cfg strict nS nR).Reachable s) :
    (netClient cfg nS nR).Reachable s.client := by
  refine Machine.Reachable.simulate Session.client ?_ ?_ h
  · rintro s ⟨t, rfl⟩
    rfl
  · intro s a s' _ hn
    change Session.next cfg strict a s = some s' at hn
    cases a with
    | client a => exact .single (Session.next_client hn)
    | answer id svcNs data => rw [Session.next_env hn (by simp)]; exact .refl _
    | finish => rw [Session.next_env hn (by simp)]; exact .refl _
    | tick ns => rw [Session.next_env hn (by simp)]; exact .refl _

/-- **In every reachable state** the receivers stand at the frame they should. -/
theorem session_reads {s : Session nS nR} (h : (session cfg strict nS nR).Reachable s) :
    s.Reads := by
  refine Machine.Reachable.invariant ?_ ?_ h
  · rintro s ⟨t, rfl⟩
    constructor
    case free => exact fun _ => Cursor.start _
    all_goals
      simp [NetClient.start, ReceiverPc.HeadOk, ReceiverPc.part, ReceiverPc.resp, respIds,
        Client.new, Client.completedIds, ReceiverPc.answers]
  · intro s a s' hr hs hn
    exact (Session.next_move hn).reads (netClient_owned (session_client hr)) hs

end Reachable

end TailBench
