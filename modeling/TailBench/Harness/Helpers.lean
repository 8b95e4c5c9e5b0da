import TailBench.Harness.Msgs
import Mathlib.Tactic.Basic

set_option autoImplicit false

/-! # `sendfull` and `recvfull`

The loops of `harness/helpers.h` that move a whole message over a socket. What the system
calls return is an oracle `os : Nat → SendRet` (or `RecvRet`), one answer for each call of
one loop. A call that asked for `r > 0` bytes moves between one and `r` of them, so the
oracle's number is clipped to that range: every oracle is a possible behaviour, and every
possible behaviour is an oracle.
-/

namespace TailBench

open Lib

/-- A `size_t` value converted to `int`: the low 32 bits, read in two's complement. -/
def cInt (n : Nat) : Int :=
  if n % 2 ^ 32 < 2 ^ 31 then (n % 2 ^ 32 : Nat) else (n % 2 ^ 32 : Nat) - 2 ^ 32

theorem cInt_of_lt {n : Nat} (h : n < 2 ^ 31) : cInt n = n := by
  rw [cInt, Nat.mod_eq_of_lt (by omega), if_pos h]

theorem cInt_toNat_le (n : Nat) : (cInt n).toNat ≤ n := by
  have hmod := Nat.mod_le n (2 ^ 32)
  unfold cInt
  split <;> omega

/-- A number that `int` cannot hold is changed. -/
theorem cInt_toNat_lt {n : Nat} (h : 2 ^ 31 ≤ n) : (cInt n).toNat < n := by
  have hmod := Nat.mod_le n (2 ^ 32)
  unfold cInt
  split <;> omega

/-- What `send` returns: it took some bytes, or `-1`. -/
inductive SendRet where
  | wrote (k : Nat)
  | error
  deriving DecidableEq, Repr

/-- What `recv` returns: some bytes, `0` at the end of the stream, or `-1`. -/
inductive RecvRet where
  | got (k : Nat)
  | eof
  | error
  deriving DecidableEq, Repr

/-- The bytes moved by a call that asked for `r > 0`. -/
def clip (k r : Nat) : Nat := max 1 (min k r)

theorem clip_pos (k r : Nat) : 0 < clip k r := by unfold clip; omega

theorem clip_le {k r : Nat} (h : 0 < r) : clip k r ≤ r := by unfold clip; omega

/-! ## `sendfull` -/

/-- The loop: `cur` is the message from the current pointer on, `out` what has been handed
over; the result is `out` and `remaining` at the end. Every call that does not fail moves
at least one byte, so `remaining` is enough fuel. -/
def sendLoop (os : Nat → SendRet) : (fuel call : Nat) → (cur out : Bytes) →
    (remaining : Int) → Bytes × Int
  | 0, _, _, out, remaining => (out, remaining)
  | fuel + 1, call, cur, out, remaining =>
      if remaining > 0 then
        match os call with
        | .error => (out, remaining)
        | .wrote k =>
            -- a successful `send` takes at least one byte and at most `remaining`
            let sent := clip k remaining.toNat
            sendLoop os fuel (call + 1) (cur.drop sent) (out ++ cur.take sent)
              (remaining - sent)
      else (out, remaining)

/-- `sendfull(fd, msg, len, 0)`: the bytes put on the connection, and the value returned. -/
def sendfull (os : Nat → SendRet) (msg : Bytes) (len : Int) : Bytes × Int :=
  let r := sendLoop os len.toNat 0 msg [] len
  (r.1, len - r.2)

/-- No call of the oracle fails. -/
def SendsAll (os : Nat → SendRet) : Prop := ∀ i, ∃ k, os i = .wrote k

theorem sendLoop_all {os : Nat → SendRet} (hos : SendsAll os) (fuel call : Nat)
    (cur out : Bytes) (n : Nat) (hfuel : n ≤ fuel) (hn : n ≤ cur.length) :
    sendLoop os fuel call cur out n = (out ++ cur.take n, 0) := by
  induction fuel generalizing call cur out n with
  | zero =>
      obtain rfl : n = 0 := by omega
      simp [sendLoop]
  | succ fuel ih =>
      rw [sendLoop]
      by_cases h0 : n = 0
      · subst h0; simp
      · obtain ⟨k, hk⟩ := hos call
        have hpos := clip_pos k n
        have hle : clip k n ≤ n := clip_le (by omega)
        have hrem : (n : Int) - (clip k n : Nat) = ((n - clip k n : Nat) : Int) := by omega
        have hsum : clip k n + (n - clip k n) = n := by omega
        rw [if_pos (by omega), hk]
        simp only [Int.toNat_natCast]
        rw [hrem, ih _ _ _ (n - clip k n) (by omega) (by rw [List.length_drop]; omega),
          List.append_assoc, ← List.take_add, hsum]

/-- When no call fails, the first `len` bytes of the message are handed over. -/
theorem sendfull_all {os : Nat → SendRet} (hos : SendsAll os) (msg : Bytes) (n : Nat)
    (hn : n ≤ msg.length) : sendfull os msg n = (msg.take n, (n : Int)) := by
  simp [sendfull, sendLoop_all hos n 0 msg [] n le_rfl hn]

/-! ## `recvfull` -/

/-- The loop: `stream` is what the connection still holds, `buf` what has been stored; the
result is `buf`, the rest of the stream and `remaining` at the end. A stream with nothing
left is at its end. -/
def recvLoop (os : Nat → RecvRet) : (fuel call : Nat) → (stream buf : Bytes) →
    (remaining : Int) → Bytes × Bytes × Int
  | 0, _, stream, buf, remaining => (buf, stream, remaining)
  | fuel + 1, call, stream, buf, remaining =>
      if remaining > 0 then
        match os call with
        | .eof => (buf, stream, remaining)
        | .error => (buf, stream, remaining)
        | .got k =>
            -- `recv` returns no more than has arrived
            let recvd := min (clip k remaining.toNat) stream.length
            if recvd = 0 then (buf, stream, remaining)
            else recvLoop os fuel (call + 1) (stream.drop recvd) (buf ++ stream.take recvd)
              (remaining - recvd)
      else (buf, stream, remaining)

/-- `recvfull(fd, msg, len, 0)`: the bytes stored, the rest of the stream, and the value
returned. -/
def recvfull (os : Nat → RecvRet) (stream : Bytes) (len : Int) : Bytes × Bytes × Int :=
  let r := recvLoop os len.toNat 0 stream [] len
  (r.1, r.2.1, len - r.2.2)

/-- However the calls end, a first part of the stream is stored, of at most `remaining` bytes. -/
theorem recvLoop_split (os : Nat → RecvRet) (fuel call : Nat) (stream buf : Bytes)
    (remaining : Int) :
    ∃ n, n ≤ stream.length ∧ n ≤ remaining.toNat ∧
      recvLoop os fuel call stream buf remaining =
        (buf ++ stream.take n, stream.drop n, remaining - (n : Nat)) := by
  induction fuel generalizing call stream buf remaining with
  | zero => exact ⟨0, Nat.zero_le _, Nat.zero_le _, by simp [recvLoop]⟩
  | succ fuel ih =>
      rw [recvLoop]
      by_cases hpos : remaining > 0
      · rw [if_pos hpos]
        cases os call with
        | eof | error => exact ⟨0, Nat.zero_le _, Nat.zero_le _, by simp⟩
        | got k =>
            have hclip : clip k remaining.toNat ≤ remaining.toNat := clip_le (by omega)
            dsimp only
            split
            · exact ⟨0, Nat.zero_le _, Nat.zero_le _, by simp⟩
            · obtain ⟨n, hn, hrem, hloop⟩ := ih (call + 1)
                (stream.drop (min (clip k remaining.toNat) stream.length))
                (buf ++ stream.take (min (clip k remaining.toNat) stream.length))
                (remaining - (min (clip k remaining.toNat) stream.length : Nat))
              rw [List.length_drop] at hn
              refine ⟨min (clip k remaining.toNat) stream.length + n, by omega, by omega, ?_⟩
              rw [hloop, List.append_assoc, ← List.take_add, List.drop_drop]
              push_cast
              rw [Int.sub_sub]
      · exact ⟨0, Nat.zero_le _, Nat.zero_le _, by simp [hpos]⟩

/-- `recvfull` stores a first part of the stream and returns its length. -/
theorem recvfull_split (os : Nat → RecvRet) (stream : Bytes) (len : Int) :
    ∃ n, n ≤ stream.length ∧ n ≤ len.toNat ∧
      recvfull os stream len = (stream.take n, stream.drop n, (n : Int)) := by
  obtain ⟨n, hn, hlen, hloop⟩ := recvLoop_split os len.toNat 0 stream [] len
  refine ⟨n, hn, hlen, ?_⟩
  rw [recvfull, hloop]
  simp

/-- No call of the oracle fails or meets the end of the stream. -/
def RecvsAll (os : Nat → RecvRet) : Prop := ∀ i, ∃ k, os i = .got k

theorem recvLoop_all {os : Nat → RecvRet} (hos : RecvsAll os) (fuel call : Nat)
    (stream buf : Bytes) (n : Nat) (hfuel : n ≤ fuel) (hn : n ≤ stream.length) :
    recvLoop os fuel call stream buf n = (buf ++ stream.take n, stream.drop n, 0) := by
  induction fuel generalizing call stream buf n with
  | zero =>
      obtain rfl : n = 0 := by omega
      simp [recvLoop]
  | succ fuel ih =>
      rw [recvLoop]
      by_cases h0 : n = 0
      · subst h0; simp
      · obtain ⟨k, hk⟩ := hos call
        have hpos := clip_pos k n
        have hle : clip k n ≤ n := clip_le (by omega)
        have hmin : min (clip k n) stream.length = clip k n := by omega
        have hrem : (n : Int) - (clip k n : Nat) = ((n - clip k n : Nat) : Int) := by omega
        have hsum : clip k n + (n - clip k n) = n := by omega
        rw [if_pos (by omega), hk]
        simp only [Int.toNat_natCast, hmin]
        rw [if_neg (by omega), hrem,
          ih _ _ _ (n - clip k n) (by omega) (by rw [List.length_drop]; omega),
          List.append_assoc, ← List.take_add, List.drop_drop, hsum]

/-- When no call fails and the stream holds `len` bytes, exactly these are stored. -/
theorem recvfull_all {os : Nat → RecvRet} (hos : RecvsAll os) (stream : Bytes) (n : Nat)
    (hn : n ≤ stream.length) :
    recvfull os stream n = (stream.take n, stream.drop n, (n : Int)) := by
  simp [recvfull, recvLoop_all hos n 0 stream [] n le_rfl hn]

end TailBench
