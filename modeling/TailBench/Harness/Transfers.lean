import TailBench.Harness.Helpers
import TailBench.Lib.Memory

set_option autoImplicit false

/-! # The loops of `sendfull` and `recvfull`, with their pointers

`sendfull` and `recvfull` as the code has them: a pointer `cur` into the message or the buffer
that moves along with `remaining`. The log of the system calls says what each was asked for and
what it moved. `sendfull` and `recvfull` of `Helpers` are the same loops without the pointers
(`sendSteps_eq`, `recvSteps_eq`).
-/

namespace TailBench

open Lib

/-! ## The calls of a loop -/

/-- A `send` or `recv`: the count it was given, and how many bytes it moved, or `none` when it
returned `-1`, or `0` for `recv`. -/
structure Call where
  asked : Nat
  moved : Option Nat
  deriving DecidableEq, Repr

/-- The calls of a loop with `r` bytes to go: each asks for what remains and moves some of it,
and nothing is called after a failure. -/
inductive Calls : Nat → List Call → Prop
  | nil (r : Nat) : Calls r []
  | fail {r : Nat} (hr : 0 < r) : Calls r [⟨r, none⟩]
  | move {r k : Nat} {cs : List Call} (hk : 1 ≤ k) (hle : k ≤ r) (hcs : Calls (r - k) cs) :
      Calls r (⟨r, some k⟩ :: cs)

/-- The position of the first failure: the bytes that were moved before it. -/
def failedAt : List Call → Option Nat
  | [] => none
  | ⟨_, none⟩ :: _ => some 0
  | ⟨_, some k⟩ :: cs => (failedAt cs).map (k + ·)

/-- A failure comes before everything is moved. -/
theorem Calls.failedAt_lt {r p : Nat} {cs : List Call} (h : Calls r cs)
    (hp : failedAt cs = some p) : p < r := by
  induction h generalizing p with
  | nil r => cases hp
  | fail hr =>
      cases hp
      exact hr
  | move hk hle hcs ih =>
      obtain ⟨q, hq, rfl⟩ := Option.map_eq_some_iff.mp hp
      have := ih hq
      omega

/-- What a loop over `len` bytes does: it moves `n` of them, as many as there are before the first
failure. -/
structure Transfer (len n : Nat) (cs : List Call) : Prop where
  calls : Calls len cs
  count : n = (failedAt cs).getD len

theorem Transfer.le {len n : Nat} {cs : List Call} (h : Transfer len n cs) : n ≤ len := by
  rw [h.count]
  cases hp : failedAt cs with
  | none => exact le_rfl
  | some p => exact (h.calls.failedAt_lt hp).le

/-- Everything is moved if and only if no call fails. -/
theorem Transfer.complete {len n : Nat} {cs : List Call} (h : Transfer len n cs) :
    n = len ↔ failedAt cs = none := by
  rw [h.count]
  cases hp : failedAt cs with
  | none => simp
  | some p =>
      have hlt := h.calls.failedAt_lt hp
      simp
      omega

theorem Transfer.nil : Transfer 0 0 [] := ⟨.nil 0, rfl⟩

theorem Transfer.fail {r : Nat} (hr : 0 < r) : Transfer r 0 [⟨r, none⟩] := ⟨.fail hr, rfl⟩

theorem Transfer.move {r k n : Nat} {cs : List Call} (hk : 1 ≤ k) (hle : k ≤ r)
    (h : Transfer (r - k) n cs) : Transfer r (k + n) (⟨r, some k⟩ :: cs) := by
  refine ⟨.move hk hle h.calls, ?_⟩
  rw [failedAt, h.count]
  cases failedAt cs with
  | none => simp; omega
  | some p => rfl

/-! ## `sendfull` -/

/-- The variables of the loop, the bytes handed over and the calls made. -/
structure SendState where
  cur : Nat := 0
  remaining : Int
  sent : Bytes := []
  calls : List Call := []

/-- The loop; `none` when the fuel runs out. -/
def sendSteps (os : Nat → SendRet) (msg : Memory) : Nat → SendState → Option SendState
  | 0, _ => none
  | fuel + 1, s =>
      if s.remaining > 0 then
        match os s.calls.length with
        | .error => some { s with calls := s.calls ++ [⟨s.remaining.toNat, none⟩] }
        | .wrote k =>
            let sent := clip k s.remaining.toNat
            sendSteps os msg fuel
              { cur := s.cur + sent
                remaining := s.remaining - sent
                sent := s.sent ++ msg.load s.cur sent
                calls := s.calls ++ [⟨s.remaining.toNat, some sent⟩] }
      else some s

/-- **The loop of `sendfull`** ends, with a first part of what was left handed over. -/
theorem sendSteps_spec (os : Nat → SendRet) (msg : Memory) (r cur : Nat) (sent : Bytes)
    (calls : List Call) :
    ∃ n cs, Transfer r n cs ∧ ∀ fuel, r < fuel → sendSteps os msg fuel ⟨cur, r, sent, calls⟩ =
      some ⟨cur + n, r - n, sent ++ msg.load cur n, calls ++ cs⟩ := by
  -- every call that moves something leaves less to go
  induction r using Nat.strong_induction_on generalizing cur sent calls with
  | _ r ih =>
      by_cases hr : 0 < r
      · cases hos : os calls.length with
        | error =>
            refine ⟨0, _, .fail hr, fun fuel hfuel => ?_⟩
            obtain ⟨fuel, rfl⟩ := Nat.exists_eq_succ_of_ne_zero (Nat.ne_zero_of_lt hfuel)
            simp [sendSteps, hr, hos]
        | wrote k =>
            have hpos := clip_pos k r
            have hle : clip k r ≤ r := clip_le hr
            obtain ⟨n, cs, htransfer, hloop⟩ := ih (r - clip k r) (by omega) (cur + clip k r)
              (sent ++ msg.load cur (clip k r)) (calls ++ [⟨r, some (clip k r)⟩])
            refine ⟨clip k r + n, _, .move hpos hle htransfer, fun fuel hfuel => ?_⟩
            obtain ⟨fuel, rfl⟩ := Nat.exists_eq_succ_of_ne_zero (Nat.ne_zero_of_lt hfuel)
            have hrem : (r : Int) - (clip k r : Nat) = ((r - clip k r : Nat) : Int) := by omega
            rw [sendSteps, if_pos (by show (r : Int) > 0; omega)]
            simp only [hos, Int.toNat_natCast]
            rw [hrem, hloop fuel (by omega), Memory.load_add, Nat.add_assoc, List.append_assoc,
              List.append_assoc, List.singleton_append]
            congr 2
            omega
      · obtain rfl : r = 0 := by omega
        refine ⟨0, [], .nil, fun fuel hfuel => ?_⟩
        obtain ⟨fuel, rfl⟩ := Nat.exists_eq_succ_of_ne_zero (Nat.ne_zero_of_lt hfuel)
        simp [sendSteps]

/-- The loop without pointers does the same. -/
theorem sendSteps_eq {os : Nat → SendRet} {msg : Memory} {fuel : Nat} {s s' : SendState}
    (h : sendSteps os msg fuel s = some s') (f : Nat) (hf : s.remaining.toNat ≤ f) :
    sendLoop os f s.calls.length (msg.load s.cur s.remaining.toNat) s.sent s.remaining =
      (s'.sent, s'.remaining) := by
  induction fuel generalizing s f with
  | zero => cases h
  | succ fuel ih =>
      rw [sendSteps] at h
      by_cases hr : s.remaining > 0
      · rw [if_pos hr] at h
        obtain ⟨f, rfl⟩ : ∃ g, f = g + 1 := Nat.exists_eq_succ_of_ne_zero (by omega)
        rw [sendLoop, if_pos hr]
        cases hos : os s.calls.length with
        | error =>
            rw [hos] at h
            cases h
            rfl
        | wrote k =>
            rw [hos] at h
            have hpos := clip_pos k s.remaining.toNat
            have hle : clip k s.remaining.toNat ≤ s.remaining.toNat := clip_le (by omega)
            have hrem : (s.remaining - (clip k s.remaining.toNat : Nat)).toNat =
                s.remaining.toNat - clip k s.remaining.toNat := by omega
            have hnext := ih h f (by rw [hrem]; omega)
            rw [hrem, List.length_append, List.length_singleton] at hnext
            dsimp only at hnext ⊢
            rw [Memory.take_load hle, Memory.drop_load]
            exact hnext
      · rw [if_neg hr] at h
        cases h
        cases f with
        | zero => rfl
        | succ f => rw [sendLoop, if_neg hr]

/-! ## `recvfull` -/

/-- The variables of the loop, the buffer, the rest of the stream and the calls made. -/
structure RecvState where
  cur : Nat := 0
  remaining : Int
  buf : Memory
  stream : Bytes
  calls : List Call := []

/-- The loop; `none` when the fuel runs out. -/
def recvSteps (os : Nat → RecvRet) : Nat → RecvState → Option RecvState
  | 0, _ => none
  | fuel + 1, s =>
      if s.remaining > 0 then
        let failed := { s with calls := s.calls ++ [⟨s.remaining.toNat, none⟩] }
        match os s.calls.length with
        | .eof => some failed
        | .error => some failed
        | .got k =>
            -- `recv` returns no more than has arrived, and `0` at the end of the stream
            let recvd := min (clip k s.remaining.toNat) s.stream.length
            if recvd = 0 then some failed
            else
              recvSteps os fuel
                { cur := s.cur + recvd
                  remaining := s.remaining - recvd
                  buf := s.buf.store s.cur (s.stream.take recvd)
                  stream := s.stream.drop recvd
                  calls := s.calls ++ [⟨s.remaining.toNat, some recvd⟩] }
      else some s

/-- **The loop of `recvfull`** ends, with a first part of the stream stored at the pointer. -/
theorem recvSteps_spec (os : Nat → RecvRet) (r cur : Nat) (buf : Memory) (stream : Bytes)
    (calls : List Call) :
    ∃ n cs, Transfer r n cs ∧ n ≤ stream.length ∧
      ∀ fuel, r < fuel → recvSteps os fuel ⟨cur, r, buf, stream, calls⟩ =
        some ⟨cur + n, r - n, buf.store cur (stream.take n), stream.drop n, calls ++ cs⟩ := by
  induction r using Nat.strong_induction_on generalizing cur buf stream calls with
  | _ r ih =>
      by_cases hr : 0 < r
      · cases hos : os calls.length with
        | eof | error =>
            refine ⟨0, _, .fail hr, Nat.zero_le _, fun fuel hfuel => ?_⟩
            obtain ⟨fuel, rfl⟩ := Nat.exists_eq_succ_of_ne_zero (Nat.ne_zero_of_lt hfuel)
            simp [recvSteps, hr, hos]
        | got k =>
            have hle : clip k r ≤ r := clip_le hr
            by_cases hzero : min (clip k r) stream.length = 0
            -- nothing is left in the stream
            · refine ⟨0, _, .fail hr, Nat.zero_le _, fun fuel hfuel => ?_⟩
              obtain ⟨fuel, rfl⟩ := Nat.exists_eq_succ_of_ne_zero (Nat.ne_zero_of_lt hfuel)
              simp only [recvSteps, hos, Int.toNat_natCast, hzero]
              simp [hr]
            · generalize hk : min (clip k r) stream.length = recvd at hzero
              have hlen : (stream.take recvd).length = recvd := by
                rw [List.length_take]
                omega
              obtain ⟨n, cs, htransfer, hn, hloop⟩ := ih (r - recvd) (by omega) (cur + recvd)
                (buf.store cur (stream.take recvd)) (stream.drop recvd)
                (calls ++ [⟨r, some recvd⟩])
              rw [List.length_drop] at hn
              refine ⟨recvd + n, _, .move (by omega) (by omega) htransfer, by omega,
                fun fuel hfuel => ?_⟩
              obtain ⟨fuel, rfl⟩ := Nat.exists_eq_succ_of_ne_zero (Nat.ne_zero_of_lt hfuel)
              have hrem : (r : Int) - (recvd : Nat) = ((r - recvd : Nat) : Int) := by omega
              rw [recvSteps, if_pos (by show (r : Int) > 0; omega)]
              simp only [hos, Int.toNat_natCast, hk, if_neg hzero]
              rw [hrem, hloop fuel (by omega), List.take_add, Memory.store_append, hlen,
                List.drop_drop, Nat.add_assoc, List.append_assoc, List.singleton_append]
              congr 2
              omega
      · obtain rfl : r = 0 := by omega
        refine ⟨0, [], .nil, Nat.zero_le _, fun fuel hfuel => ?_⟩
        obtain ⟨fuel, rfl⟩ := Nat.exists_eq_succ_of_ne_zero (Nat.ne_zero_of_lt hfuel)
        simp [recvSteps]

/-- The loop without pointers does the same. -/
theorem recvSteps_eq {os : Nat → RecvRet} {fuel : Nat} {s s' : RecvState}
    (h : recvSteps os fuel s = some s') (f : Nat) (hf : s.remaining.toNat ≤ f) :
    recvLoop os f s.calls.length s.stream (s.buf.load 0 s.cur) s.remaining =
      (s'.buf.load 0 s'.cur, s'.stream, s'.remaining) := by
  induction fuel generalizing s f with
  | zero => cases h
  | succ fuel ih =>
      rw [recvSteps] at h
      by_cases hr : s.remaining > 0
      · rw [if_pos hr] at h
        obtain ⟨f, rfl⟩ : ∃ g, f = g + 1 := Nat.exists_eq_succ_of_ne_zero (by omega)
        rw [recvLoop, if_pos hr]
        cases hos : os s.calls.length with
        | eof | error =>
            rw [hos] at h
            cases h
            rfl
        | got k =>
            rw [hos] at h
            dsimp only at h ⊢
            generalize hk : min (clip k s.remaining.toNat) s.stream.length = recvd at h ⊢
            have hle : clip k s.remaining.toNat ≤ s.remaining.toNat := clip_le (by omega)
            split
            · next hzero =>
                rw [if_pos hzero] at h
                cases h
                rfl
            · next hne =>
                rw [if_neg hne] at h
                have hlen : (s.stream.take recvd).length = recvd := by
                  rw [List.length_take]
                  omega
                have hload : (s.buf.store s.cur (s.stream.take recvd)).load 0 (s.cur + recvd) =
                    s.buf.load 0 s.cur ++ s.stream.take recvd := by
                  have hstored := Memory.load_store s.buf s.cur (s.stream.take recvd)
                  rw [hlen] at hstored
                  rw [Memory.load_add, Memory.load_store_outside (.inl (by omega)), Nat.zero_add,
                    hstored]
                have hnext := ih h f (by dsimp only; omega)
                dsimp only at hnext
                rw [hload, List.length_append, List.length_singleton] at hnext
                exact hnext
      · rw [if_neg hr] at h
        cases h
        cases f with
        | zero => rfl
        | succ f => rw [recvLoop, if_neg hr]

/-! ## Whole transfers -/

/-- **`sendfull` and `recvfull`**, for every length and whatever the system calls return. Both
loops end. They return the number `n` of bytes before the first failure, or `len` when there is
none; these are the first `n` bytes of the message, or the next `n` bytes of the stream, stored at
the start of the buffer. -/
theorem full_transfers (len : Nat) :
    (∀ os msg, ∃ s n, (∀ fuel, len < fuel → sendSteps os msg fuel { remaining := len } = some s) ∧
      Transfer len n s.calls ∧ (n = len ↔ failedAt s.calls = none) ∧ n ≤ len ∧
      s.sent = msg.load 0 n ∧ sendfull os (msg.load 0 len) len = (s.sent, (n : Int)) ∧
      len - s.remaining = n) ∧
    ∀ os stream buf, ∃ s n, (∀ fuel, len < fuel →
        recvSteps os fuel { remaining := len, buf := buf, stream := stream } = some s) ∧
      Transfer len n s.calls ∧ (n = len ↔ failedAt s.calls = none) ∧ n ≤ len ∧
      n ≤ stream.length ∧ s.buf.load 0 n = stream.take n ∧ (∀ i, n ≤ i → s.buf i = buf i) ∧
      recvfull os stream len = (s.buf.load 0 n, s.stream, (n : Int)) ∧ s.stream = stream.drop n ∧
      len - s.remaining = n := by
  constructor
  · intro os msg
    obtain ⟨n, cs, htransfer, hloop⟩ := sendSteps_spec os msg len 0 [] []
    refine ⟨_, n, hloop, htransfer, htransfer.complete, htransfer.le, rfl, ?_, ?_⟩
    · have hsame := sendSteps_eq (hloop (len + 1) (by omega)) len (by simp)
      simp only [Int.toNat_natCast, List.length_nil] at hsame
      rw [sendfull, Int.toNat_natCast, hsame]
      simp
    · simp
  · intro os stream buf
    obtain ⟨n, cs, htransfer, hn, hloop⟩ := recvSteps_spec os len 0 buf stream []
    have hlen : (stream.take n).length = n := by
      rw [List.length_take]
      omega
    refine ⟨_, n, hloop, htransfer, htransfer.complete, htransfer.le, hn, ?_, fun i hi => ?_, ?_,
      rfl, ?_⟩
    · have hstored := Memory.load_store buf 0 (stream.take n)
      rw [hlen] at hstored
      exact hstored
    · show buf.store 0 (stream.take n) i = buf i
      exact Memory.store_outside (.inr (by omega))
    · have hsame := recvSteps_eq (hloop (len + 1) (by omega)) len (by simp)
      simp only [List.length_nil, Memory.load_zero] at hsame
      rw [recvfull, Int.toNat_natCast, hsame]
      simp
    · simp

end TailBench
