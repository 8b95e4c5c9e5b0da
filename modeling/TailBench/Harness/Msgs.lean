import TailBench.Lib.Bytes

set_option autoImplicit false

/-! # Messages

The structures of `harness/msgs.h` and their images on the wire. A message is sent as the
first bytes of the structure itself, so its layout is that of the compiler on a 64-bit
little-endian machine: fields in order, each aligned to its size, the gaps zero (both ends
allocate with `new T()`, which zeroes the object).

    Request   id 0   genNs 8   len 16   late 24   startNs 32   startNs_lock_ad 40
              startNs_lock_re 48   sentNs 56   sentNs_lock_ad 64   sentNs_lock_re 72   data 80
    Response  type 0   id 8   svcNs 16   len 24   recvNs 32   data 40

Of `data` only the first `len` bytes ever travel; the model keeps those.
-/

namespace TailBench

open Lib

def MAX_REQ_BYTES : Nat := 2 ^ 20
def MAX_RESP_BYTES : Nat := 2 ^ 20

/-- `sizeof(Request)`. -/
def sizeofRequest : Nat := 80 + MAX_REQ_BYTES

/-- `sizeof(Response)`. -/
def sizeofResponse : Nat := 40 + MAX_RESP_BYTES

/-- The bytes of a request before `data`: `sizeof(Request) - MAX_REQ_BYTES`. -/
def requestHeaderLen : Nat := sizeofRequest - MAX_REQ_BYTES

/-- The bytes of a response before `data`: `sizeof(Response) - MAX_RESP_BYTES`. -/
def responseHeaderLen : Nat := sizeofResponse - MAX_RESP_BYTES

@[simp] theorem requestHeaderLen_eq : requestHeaderLen = 80 := by
  simp [requestHeaderLen, sizeofRequest]

theorem requestHeaderLen_pos : 0 < requestHeaderLen := by
  rw [requestHeaderLen_eq]
  decide

@[simp] theorem responseHeaderLen_eq : responseHeaderLen = 40 := by
  simp [responseHeaderLen, sizeofResponse]

/-- What an application puts into a buffer of `max` bytes. -/
abbrev Payload (max : Nat) := {bs : Bytes // bs.length ≤ max}

/-! ## Requests -/

structure Request where
  id : UInt64 := 0
  genNs : UInt64 := 0
  len : UInt64 := 0
  late : Bool := false
  /-- Start of `startReq`. -/
  startNs : UInt64 := 0
  startNs_lock_ad : UInt64 := 0
  startNs_lock_re : UInt64 := 0
  /-- Start of `send`. -/
  sentNs : UInt64 := 0
  /-- The time the request is sent. -/
  sentNs_lock_ad : UInt64 := 0
  sentNs_lock_re : UInt64 := 0
  data : Bytes := []
  deriving DecidableEq, Repr

/-- The image of everything before `data`. -/
def Request.header (r : Request) : Bytes :=
  u64Bytes r.id ++ (u64Bytes r.genNs ++ (u64Bytes r.len ++
  (leBytes 8 (if r.late then 1 else 0) ++
  (u64Bytes r.startNs ++ (u64Bytes r.startNs_lock_ad ++ (u64Bytes r.startNs_lock_re ++
  (u64Bytes r.sentNs ++ (u64Bytes r.sentNs_lock_ad ++ u64Bytes r.sentNs_lock_re))))))))

/-- The image of the request in memory, up to the last byte of `data` in use. -/
def Request.image (r : Request) : Bytes := r.header ++ r.data

/-- The structure whose first bytes are given, with no data yet. -/
def Request.ofHeader (bs : Bytes) : Request where
  id := u64At bs
  genNs := u64At (bs.drop 8)
  len := u64At (bs.drop 16)
  late := decide (ofLe ((bs.drop 24).take 1) ≠ 0)
  startNs := u64At (bs.drop 32)
  startNs_lock_ad := u64At (bs.drop 40)
  startNs_lock_re := u64At (bs.drop 48)
  sentNs := u64At (bs.drop 56)
  sentNs_lock_ad := u64At (bs.drop 64)
  sentNs_lock_re := u64At (bs.drop 72)

/-- `len` is the length of `data`, and `data` fits its buffer. -/
def Request.Fits (r : Request) : Prop :=
  r.data.length = r.len.toNat ∧ r.len.toNat ≤ MAX_REQ_BYTES

instance (r : Request) : Decidable r.Fits := inferInstanceAs (Decidable (_ ∧ _))

@[simp] theorem Request.length_header (r : Request) : r.header.length = 80 := by
  simp [Request.header]

/-- The eight bytes that hold `late` and its padding. -/
theorem late_byte (b : Bool) (bs : Bytes) :
    decide (ofLe ((leBytes 8 (if b then 1 else 0) ++ bs).take 1) ≠ 0) = b := by
  cases b <;> simp [leBytes, ofLe]

/-- **Reading a header back.** Every field before `data` survives. -/
theorem Request.ofHeader_header (r : Request) :
    Request.ofHeader r.header = { r with data := [] } := by
  have hend : ∀ x : UInt64, u64At (u64Bytes x) = x := fun x => by
    simpa using u64At_append x []
  have hlate := late_byte r.late
  simp only [Request.ofHeader, Request.header, List.drop_append, length_u64Bytes,
    length_leBytes, List.drop_of_length_le, Nat.reduceSub, Nat.reduceLeDiff, List.nil_append,
    List.drop_zero, u64At_append, hend, hlate]

/-- The bytes `send` puts on the connection for a request that fits are its whole image. -/
theorem Request.length_image {r : Request} (h : r.Fits) :
    r.image.length = requestHeaderLen + r.len.toNat := by
  simp [Request.image, h.1]

/-! ## Responses -/

inductive ResponseType where
  | RESPONSE
  | ROI_BEGIN
  | FINISH
  deriving DecidableEq, Repr

/-- The value of an enumerator. -/
def ResponseType.code : ResponseType → UInt32
  | .RESPONSE => 0
  | .ROI_BEGIN => 1
  | .FINISH => 2

structure Response where
  /-- The four bytes of the enumeration, as they arrived. -/
  type : UInt32 := ResponseType.RESPONSE.code
  id : UInt64 := 0
  svcNs : UInt64 := 0
  len : UInt64 := 0
  /-- Time to receive the response. -/
  recvNs : UInt64 := 0
  data : Bytes := []
  deriving DecidableEq, Repr

/-- The image of everything before `data`. -/
def Response.header (r : Response) : Bytes :=
  u32Bytes r.type ++ (leBytes 4 0 ++ (u64Bytes r.id ++ (u64Bytes r.svcNs ++
  (u64Bytes r.len ++ u64Bytes r.recvNs))))

/-- The image of the response in memory, up to the last byte of `data` in use. -/
def Response.image (r : Response) : Bytes := r.header ++ r.data

/-- The structure whose first bytes are given, with no data yet. -/
def Response.ofHeader (bs : Bytes) : Response where
  type := u32At bs
  id := u64At (bs.drop 8)
  svcNs := u64At (bs.drop 16)
  len := u64At (bs.drop 24)
  recvNs := u64At (bs.drop 32)

/-- `len` is the length of `data`, and `data` fits its buffer. -/
def Response.Fits (r : Response) : Prop :=
  r.data.length = r.len.toNat ∧ r.len.toNat ≤ MAX_RESP_BYTES

instance (r : Response) : Decidable r.Fits := inferInstanceAs (Decidable (_ ∧ _))

@[simp] theorem Response.length_header (r : Response) : r.header.length = 40 := by
  simp [Response.header]

/-- **Reading a header back.** Every field before `data` survives. -/
theorem Response.ofHeader_header (r : Response) :
    Response.ofHeader r.header = { r with data := [] } := by
  have hend : ∀ x : UInt64, u64At (u64Bytes x) = x := fun x => by
    simpa using u64At_append x []
  simp only [Response.ofHeader, Response.header, List.drop_append, length_u64Bytes,
    length_u32Bytes, length_leBytes, List.drop_of_length_le, Nat.reduceSub, Nat.reduceLeDiff,
    List.nil_append, List.drop_zero, u64At_append, u32At_append, hend]

theorem Response.length_image {r : Response} (h : r.Fits) :
    r.image.length = responseHeaderLen + r.len.toNat := by
  simp [Response.image, h.1]

/-! ## What a server keeps of a request -/

/-- The slot of a server thread (`harness/server.h`): the request it is working on. -/
structure ReqInfo where
  id : UInt64 := 0
  startNs : UInt64 := 0
  deriving DecidableEq, Repr

end TailBench
