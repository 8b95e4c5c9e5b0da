import TailBench.Harness.Window

set_option autoImplicit false

/-! # After a failed `send`

`client.h` says of `numReqsSent` that it "increments 1 in each successful send", and the
thread whose `send` failed prints "Not sending further request". The counting in
`NetworkedClient::send` does not look at the result of the transfer, and the other senders
are not told.
-/

namespace TailBench

open Lib

variable {cfg : Config} {nS nR : Nat}

/-- The failed `send` of sender `i` has no further effect: whatever happens from `s` on, the
thread leaves the two counters alone, and nobody writes to the connection. -/
def FailedSendInert (cfg : Config) (i : Fin nS) (s : NetClient nS nR) : Prop :=
  ∀ t, (netClient cfg nS nR).Leads s t →
    t.data.wire = s.data.wire ∧
    ∀ inp t', t.next cfg ⟨.sender i, inp⟩ = some t' →
      t'.data.obj.numReqsSent = t.data.obj.numReqsSent ∧
      t'.data.obj.sent_requests = t.data.obj.sent_requests

/-- The step in which a transfer fails. -/
theorem next_sendError {s s' : NetClient nS nR} {i : Fin nS} {p : Nat} {req : Request}
    {rest : Bytes} (hi : s.senders i = .sending p req rest)
    (h : s.next cfg ⟨.sender i, .sendError⟩ = some s') :
    s'.data.proc = .running ∧ s'.senders i = .afterSend false ∧ p ∈ s'.data.failed := by
  obtain ⟨hrun, ⟨i', d, pc, op, locks, htid, hstep, hop, rfl⟩ |
    ⟨j, d, pc, op, locks, htid, -⟩⟩ := NetClient.next_cases h
  · obtain rfl : i = i' := by simpa using htid
    rw [hi] at hstep
    simp only [senderStep, Option.some.injEq, Prod.mk.injEq] at hstep
    obtain ⟨rfl, rfl, -⟩ := hstep
    exact ⟨hrun, by simp, by simp⟩
  · simp at htid

/-- The step after it counts the request as sent. -/
theorem next_afterSend (cfg : Config) {s : NetClient nS nR} {i : Fin nS} {ok : Bool}
    (hrun : s.data.proc = .running) (hi : s.senders i = .afterSend ok) :
    ∃ s', s.next cfg ⟨.sender i, .tau⟩ = some s' ∧
      s'.data.obj.numReqsSent = s.data.obj.numReqsSent + 1 ∧
      s'.data.obj.sent_requests = s.data.obj.sent_requests + 1 := by
  have hstep : s.next cfg ⟨.sender i, .tau⟩ = some
      { s with
        data := s.data.setObj
          { s.data.obj with
            numReqsSent := s.data.obj.numReqsSent + 1
            sent_requests := s.data.obj.sent_requests + 1 }
        senders := Function.update s.senders i (.unlockSend ok) } := by
    simp [NetClient.next, hrun, hi, senderStep, LockOp.apply]
  exact ⟨_, hstep, rfl, rfl⟩

/-- A failed request stays on record. -/
theorem NetClient.Move.failed {s s' : NetClient nS nR} {inp : Input} (h : Move cfg s inp s')
    {p : Nat} (hp : p ∈ s.data.failed) : p ∈ s'.data.failed := by
  cases h with
  | receiver j hrun hm hop =>
      show p ∈ _
      simpa [NetClient.afterReceiver, hm.frame.failed] using hp
  | @sender i inp d pc op locks hrun hm hop =>
      show p ∈ d.failed
      generalize s.senders i = pc₀ at hm
      cases hm with
      | writeError => exact List.mem_append_left _ hp
      | _ => exact hp

/-- **No failed `send` is without effect.** In every run, for every number of threads, when
the transfer of a request fails, the thread goes on to count it in both counters, and
`numReqsSent` stays larger than the number of successful transfers. -/
theorem failed_send_never_inert {s s' : NetClient nS nR}
    (h : (netClient cfg nS nR).Reachable s) {i : Fin nS} {p : Nat} {req : Request}
    {rest : Bytes} (hi : s.senders i = .sending p req rest)
    (hfail : s.next cfg ⟨.sender i, .sendError⟩ = some s') :
    ¬ FailedSendInert cfg i s' ∧
    ∀ t, (netClient cfg nS nR).Leads s' t → (∀ k, (t.senders k).uncounted = 0) →
      t.data.sent.length < t.data.obj.numReqsSent.toNat := by
  obtain ⟨hrun, hi', hp⟩ := next_sendError hi hfail
  constructor
  · intro hinert
    -- the very next step of the thread counts
    obtain ⟨s'', hnext, hcount, -⟩ := next_afterSend cfg hrun hi'
    have hsame := ((hinert s' (.refl s')).2 .tau s'' hnext).1
    rw [hcount] at hsame
    have hnat := congrArg UInt64.toNat hsame
    rw [UInt64.toNat_add, UInt64.toNat_one] at hnat
    have hlt := s'.data.obj.numReqsSent.toNat_lt
    omega
  · intro t ht hidle
    have hreach : (netClient cfg nS nR).Reachable t :=
      (Machine.Reachable.step h ⟨.sender i, .sendError⟩ hfail).leads ht
    -- the failure is never forgotten, and it is no successful transfer
    have hmem : p ∈ t.data.failed :=
      ht.invariant (P := fun t => p ∈ t.data.failed)
        (fun s a s' hs hn => (NetClient.next_move hn).failed hs) hp
    have hpos := List.length_pos_of_mem hmem
    have hcounted := (netClient_counts hreach).counted
    rw [Finset.sum_eq_zero fun k _ => hidle k] at hcounted
    simp only [NetData.transfers] at hcounted
    omega

/-- Two senders pass the barriers of `startReq`, and the first is in the middle of a
transfer, five bytes of its frame written. -/
def twoSendersRun : List (ClientAction 2 2) :=
  let s0 := fun inp : Input => (⟨.sender 0, inp⟩ : ClientAction 2 2)
  let s1 := fun inp : Input => (⟨.sender 1, inp⟩ : ClientAction 2 2)
  [s0 .tau, s0 (.clock 1), s0 .tau, s0 .tau, s1 .tau, s1 (.clock 2), s1 .tau, s1 .tau,
   s0 .tau, s0 .tau, s0 (.clock 3), s0 .tau, s1 .tau, s1 .tau, s1 .tau, s0 .tau, s0 .tau,
   s0 .tau, s0 (.gen 4 ⟨[], Nat.zero_le _⟩), s0 (.clock 5), s0 (.clock 6), s0 (.clock 7),
   s0 .tau, s0 (.clock 8), s0 (.wrote 5)]

/-- What the second sender does when the first one's transfer has failed. -/
def afterFailureRun : List (ClientAction 2 2) :=
  let s0 := fun inp : Input => (⟨.sender 0, inp⟩ : ClientAction 2 2)
  let s1 := fun inp : Input => (⟨.sender 1, inp⟩ : ClientAction 2 2)
  [s0 .tau, s0 .tau, s1 .tau, s1 .tau, s1 (.gen 9 ⟨[], Nat.zero_le _⟩), s1 (.clock 10),
   s1 (.clock 11), s1 (.clock 12), s1 .tau, s1 (.clock 13), s1 (.wrote 80)]

/-- The first sender is in a transfer. -/
theorem sending_of_spending {pc : SenderPc} (h : pc.spending = 1) (h' : pc.uncounted = 0) :
    ∃ p req rest, pc = .sending p req rest := by
  cases pc with
  | sending p req rest => exact ⟨p, req, rest, rfl⟩
  | _ => simp_all [SenderPc.spending, SenderPc.uncounted]

/-- The first sender has written five bytes when its transfer fails. -/
theorem failed_send_never_inert_twoSenders :
    ∃ s s', (netClient smallConfig 2 2).Reachable s ∧
      s.next smallConfig ⟨.sender 0, .sendError⟩ = some s' ∧
      ¬ FailedSendInert smallConfig 0 s' := by
  obtain ⟨s, hs, hsp, hun, hnext⟩ := Machine.Reachable.exists_of_exec
    (P := fun s : NetClient 2 2 => (s.senders 0).spending = 1 ∧ (s.senders 0).uncounted = 0 ∧
      (s.next smallConfig ⟨.sender 0, .sendError⟩).isSome = true) twoSendersRun
    (show (netClient smallConfig 2 2).init (NetClient.start smallConfig) from rfl)
    (by decide +kernel)
  obtain ⟨p, req, rest, hi⟩ := sending_of_spending hsp hun
  obtain ⟨s', hs'⟩ := Option.isSome_iff_exists.mp hnext
  exact ⟨s, s', hs, hs', (failed_send_never_inert hs hi hs').1⟩

/-- A run in which both go wrong: after five bytes of a frame the transfer fails; the
request is counted, and the other sender writes a whole frame behind the five bytes. -/
theorem failed_send_has_effect :
    ∃ s s' t, (netClient smallConfig 2 2).Reachable s ∧
      s.next smallConfig ⟨.sender 0, .sendError⟩ = some s' ∧
      (netClient smallConfig 2 2).Leads s' t ∧
      s'.data.wire.length = 5 ∧ t.data.wire.length = 85 ∧
      s'.data.obj.numReqsSent = 0 ∧ t.data.obj.numReqsSent = 1 ∧
      s'.data.obj.sent_requests = 0 ∧ t.data.obj.sent_requests = 1 ∧
      ¬ FailedSendInert smallConfig 0 s' := by
  obtain ⟨s, hs, hany⟩ := Machine.Reachable.exists_of_exec
    (P := fun s : NetClient 2 2 => (s.next smallConfig ⟨.sender 0, .sendError⟩).any
      (fun s' => s'.data.wire.length = 5 ∧ s'.data.obj.numReqsSent = 0 ∧
        s'.data.obj.sent_requests = 0 ∧
        ((netClient smallConfig 2 2).exec afterFailureRun s').any fun t =>
          decide (t.data.wire.length = 85 ∧ t.data.obj.numReqsSent = 1 ∧
            t.data.obj.sent_requests = 1)) = true) twoSendersRun
    (show (netClient smallConfig 2 2).init (NetClient.start smallConfig) from rfl)
    (by decide +kernel)
  rw [Option.any_eq_true] at hany
  obtain ⟨s', hs', hprop⟩ := hany
  simp only [decide_eq_true_eq] at hprop
  obtain ⟨hw, hn, hr, hafter⟩ := hprop
  obtain ⟨t, ht, hw', hn', hr'⟩ := Machine.Leads.exists_of_exec _ hafter
  refine ⟨s, s', t, hs, hs', ht, hw, hw', hn, hn', hr, hr', fun hinert => ?_⟩
  have hsame := congrArg List.length (hinert t ht).1
  rw [hw, hw'] at hsame
  omega

end TailBench
