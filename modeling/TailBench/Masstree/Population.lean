import TailBench.Lib.Decimal
import TailBench.Lib.Memory
import TailBench.Harness.Helpers

set_option autoImplicit false

/-! # The entries of masstree

The generator of `kvrandom.hh`, `genKeyVal` of `mttest.hh`, the client of `kvclient.cc`, and
`kvtest_mycsba` of `kvtest.hh`, which fills the table with a copy of the code of `genKeyVal`. The
arrays `key` and `val` hold anything before the first entry. The server is seen through the keys
and values it passes to `put` and `get_sync`.

A key takes 18 numbers of the generator and a value one, so entry `n` begins after `19 n` numbers
on both sides.
-/

namespace TailBench.Masstree

open Lib

def mycsbaAggrFactor : Nat := 256

def mycsbaSeed : UInt32 := 3242323423

def mycsbaDbSize : Nat := 1000000

def mycsbaKeySize : Nat := 4 + 18 + 1

def mycsbaValSize : Nat := 12

/-! ## The generator -/

/-- `kvrandom_lcg_nr` -/
structure KvrandomLcgNr where
  seed_ : UInt32 := 819234718
  deriving DecidableEq, Repr

namespace KvrandomLcgNr

def reset (_ : KvrandomLcgNr) (seed : UInt32) : KvrandomLcgNr := { seed_ := seed }

/-- `kvrandom_lcg_nr_simple::next` -/
def simpleNext (r : KvrandomLcgNr) : UInt32 × KvrandomLcgNr :=
  let seed_ := r.seed_ * 1664525 + 1013904223
  (seed_, { seed_ := seed_ })

/-- `next`, whose result is an `int32_t`. -/
def next (r : KvrandomLcgNr) : Int × KvrandomLcgNr :=
  let (x0, r) := r.simpleNext
  let (x1, r) := r.simpleNext
  (cInt ((x0 >>> 15) ||| ((x1 &&& 0x7FFE) <<< 16)).toNat, r)

end KvrandomLcgNr

/-! ## `genKeyVal` -/

/-- The arrays of an entry. -/
structure Buffers where
  key : Memory
  val : Memory

/-- `"user"` -/
def user : Bytes := [117, 115, 101, 114]

/-- `'0' + (v % 10)` -/
def digit (v : Int) : UInt8 := UInt8.ofInt (48 + v.tmod 10)

/-- The loop of `genKeyVal`, with `p`. -/
def keyLoop : (todo : Nat) → (p : Nat) → KvrandomLcgNr → Memory → KvrandomLcgNr × Nat × Memory
  | 0, p, rand, key => (rand, p, key)
  | todo + 1, p, rand, key =>
      let (v, rand) := rand.next
      keyLoop todo (p + 1) rand (key.store p [digit v])

def genKeyVal (rand : KvrandomLcgNr) (b : Buffers) : KvrandomLcgNr × Buffers :=
  let key := b.key.store 0 (user ++ [0])
  let (rand, p, key) := keyLoop 18 4 rand key
  let key := key.store p [0]
  let (value, rand) := rand.next
  (rand, { key := key, val := b.val.store 0 (signedDecimal value ++ [0]) })

/-! ## The client -/

inductive ReqType where
  | GET
  | PUT
  deriving DecidableEq, Repr

structure Request where
  type : ReqType
  key : Bytes
  val : Bytes

/-- The key and the value of a request, as C strings. -/
def Request.strings (req : Request) : Bytes × Bytes := (cString req.key, cString req.val)

/-- The loop of the constructor: what is pushed back from the `n`-th entry on. -/
def clientLoop : (todo n : Nat) → KvrandomLcgNr → Buffers → List Request
  | 0, _, _, _ => []
  | todo + 1, n, rand, b =>
      let (rand, b) := genKeyVal rand b
      { type := if n % 2 = 0 then .GET else .PUT
        key := b.key.load 0 mycsbaKeySize
        val := b.val.load 0 mycsbaValSize } :: clientLoop todo (n + 1) rand b

theorem length_clientLoop (todo n : Nat) (rand : KvrandomLcgNr) (b : Buffers) :
    (clientLoop todo n rand b).length = todo := by
  induction todo generalizing n rand b with
  | zero => rfl
  | succ todo ih => simp [clientLoop, ih]

/-- The requests, with the iterator as an index. -/
structure Client where
  reqs : List Request
  cur : Nat
  valid : cur < reqs.length

namespace Client

/-- `Client::Client`, on the arrays of its `req`. -/
def new (b : Buffers) : Client where
  reqs := clientLoop mycsbaDbSize 0 (KvrandomLcgNr.reset {} mycsbaSeed) b
  cur := 0
  valid := by
    rw [length_clientLoop]
    decide

def getReq (c : Client) : Request × Client :=
  (c.reqs.get ⟨c.cur, c.valid⟩,
    if h : c.cur + 1 = c.reqs.length then
      { c with cur := 0, valid := by omega }
    else { c with cur := c.cur + 1, valid := by have := c.valid; omega })

/-- `k` calls of `getReq`. -/
def getReqs : (k : Nat) → Client → List Request × Client
  | 0, c => ([], c)
  | k + 1, c =>
      let (req, c) := c.getReq
      let (reqs, c) := getReqs k c
      (req :: reqs, c)

end Client

/-- `tBenchClientGenReq`: the requests it writes, and `Client::singleton` afterwards. -/
def tBenchClientGenReq (b : Buffers) (singleton : Option Client) : List Request × Option Client :=
  let client := singleton.getD (Client.new b)
  let (data, client) := client.getReqs mycsbaAggrFactor
  (data, some client)

/-- What is sent in `m` requests of the harness. -/
def sends (b : Buffers) : (m : Nat) → (singleton : Option Client) → List Request
  | 0, _ => []
  | m + 1, singleton =>
      let (data, singleton) := tBenchClientGenReq b singleton
      data ++ sends b m singleton

/-! ## The server -/

/-- The loop of `kvtest_mycsba` over the digits. -/
def mycsbaKeyLoop : (todo : Nat) → (p : Nat) → KvrandomLcgNr → Memory →
    KvrandomLcgNr × Nat × Memory
  | 0, p, rand, key => (rand, p, key)
  | todo + 1, p, rand, key =>
      let (v, rand) := rand.next
      mycsbaKeyLoop todo (p + 1) rand (key.store p [digit v])

/-- The body of the loop that fills the table, up to `put`. -/
def mycsbaEntry (rand : KvrandomLcgNr) (b : Buffers) : KvrandomLcgNr × Buffers :=
  let key := b.key.store 0 (user ++ [0])
  let (rand, p, key) := mycsbaKeyLoop 18 4 rand key
  let key := key.store p [0]
  let (v, rand) := rand.next
  (rand, { key := key, val := b.val.store 0 (signedDecimal v ++ [0]) })

/-- The keys and values that are put into the table. -/
def populate : (todo : Nat) → KvrandomLcgNr → Buffers → List (Bytes × Bytes)
  | 0, _, _ => []
  | todo + 1, rand, b =>
      let (rand, b) := mycsbaEntry rand b
      (cString (b.key.load 0 mycsbaKeySize), cString (b.val.load 0 mycsbaValSize)) ::
        populate todo rand b

/-- What the server does with the table for a request. -/
inductive Op where
  | get_sync (key : Bytes)
  | put (key val : Bytes)
  deriving DecidableEq

def Request.op (cur : Request) : Op :=
  match cur.type with
  | .GET => .get_sync (cString cur.key)
  | .PUT => .put (cString cur.key) (cString cur.val)

/-! ## What the generator draws -/

/-- A number of the generator is not negative. -/
theorem KvrandomLcgNr.next_spec (r : KvrandomLcgNr) : ∃ v : Nat, v < 2 ^ 31 ∧ r.next.1 = v := by
  let x0 := r.simpleNext.1
  let x1 := r.simpleNext.2.simpleNext.1
  have hlow : (x0 >>> 15).toNat < 2 ^ 31 := by
    have hx := x0.toNat_lt
    rw [UInt32.toNat_shiftRight]
    show x0.toNat >>> 15 < 2 ^ 31
    rw [Nat.shiftRight_eq_div_pow]
    omega
  have hhigh : ((x1 &&& 0x7FFE) <<< 16).toNat < 2 ^ 31 := by
    have hand : (x1 &&& 0x7FFE).toNat ≤ 0x7FFE := by
      rw [UInt32.toNat_and]
      exact Nat.and_le_right
    rw [UInt32.toNat_shiftLeft]
    show (x1 &&& 0x7FFE).toNat <<< 16 % 2 ^ 32 < 2 ^ 31
    rw [Nat.shiftLeft_eq]
    omega
  have hlt : ((x0 >>> 15) ||| ((x1 &&& 0x7FFE) <<< 16)).toNat < 2 ^ 31 := by
    rw [UInt32.toNat_or]
    exact Nat.or_lt_two_pow hlow hhigh
  exact ⟨_, hlt, cInt_of_lt hlt⟩

/-- So the character of a key is a digit. -/
theorem isDigit_digit (r : KvrandomLcgNr) : isDigit (digit r.next.1) = true := by
  obtain ⟨v, -, hv⟩ := r.next_spec
  have hmod : (48 + (v : Int).tmod 10) = ((48 + v % 10 : Nat) : Int) := by
    push_cast
    rfl
  have hbyte : (digit r.next.1).toNat = 48 + v % 10 := by
    rw [digit, hv, hmod, UInt8.ofInt, UInt8.toNat_ofNat']
    omega
  rw [isDigit_iff]
  omega

/-- The digits of the next `k` numbers. -/
def drawn : (k : Nat) → KvrandomLcgNr → Bytes
  | 0, _ => []
  | k + 1, rand => digit rand.next.1 :: drawn k rand.next.2

/-- The generator after `k` numbers. -/
def skip (k : Nat) (rand : KvrandomLcgNr) : KvrandomLcgNr := (fun r => r.next.2)^[k] rand

@[simp] theorem length_drawn (k : Nat) (rand : KvrandomLcgNr) : (drawn k rand).length = k := by
  induction k generalizing rand with
  | zero => rfl
  | succ k ih => simp [drawn, ih]

theorem isDigit_of_mem_drawn {k : Nat} {rand : KvrandomLcgNr} {b : UInt8} (h : b ∈ drawn k rand) :
    isDigit b = true := by
  induction k generalizing rand with
  | zero => cases h
  | succ k ih =>
      rcases List.mem_cons.mp h with rfl | h
      · exact isDigit_digit rand
      · exact ih h

/-- The entry that begins at a state of the generator. -/
def entry (rand : KvrandomLcgNr) : Bytes × Bytes :=
  (user ++ drawn 18 rand, signedDecimal (skip 18 rand).next.1)

/-- The arrays with an entry. -/
def Buffers.write (b : Buffers) (e : Bytes × Bytes) : Buffers where
  key := b.key.store 0 (e.1 ++ [0])
  val := b.val.store 0 (e.2 ++ [0])

/-! ## The two copies of the code -/

/-- The loop of `genKeyVal` stores the digits of as many numbers. -/
theorem keyLoop_spec (todo p : Nat) (rand : KvrandomLcgNr) (key : Memory) :
    keyLoop todo p rand key = (skip todo rand, p + todo, key.store p (drawn todo rand)) := by
  induction todo generalizing p rand key with
  | zero => simp [keyLoop, skip, drawn]
  | succ todo ih =>
      have hstore : (key.store p [digit rand.next.1]).store (p + 1) (drawn todo rand.next.2) =
          key.store p (drawn (todo + 1) rand) :=
        (Memory.store_append key p [digit rand.next.1] _).symm
      have hskip : skip (todo + 1) rand = skip todo rand.next.2 := Function.iterate_succ_apply ..
      show keyLoop todo (p + 1) rand.next.2 (key.store p [digit rand.next.1]) = _
      rw [ih, hstore, hskip, Nat.add_right_comm, Nat.add_assoc]

/-- The loop of the server is the same. -/
theorem mycsbaKeyLoop_eq (todo p : Nat) (rand : KvrandomLcgNr) (key : Memory) :
    mycsbaKeyLoop todo p rand key = keyLoop todo p rand key := by
  induction todo generalizing p rand key with
  | zero => rfl
  | succ todo ih => simp only [mycsbaKeyLoop, keyLoop, ih]

theorem mycsbaEntry_eq (rand : KvrandomLcgNr) (b : Buffers) :
    mycsbaEntry rand b = genKeyVal rand b := by
  simp only [mycsbaEntry, genKeyVal, mycsbaKeyLoop_eq]

/-- The three parts of a key are stored as one string. -/
theorem store_key (rand : KvrandomLcgNr) (key : Memory) :
    ((key.store 0 (user ++ [0])).store 4 (drawn 18 rand)).store 22 [0] =
      key.store 0 ((entry rand).1 ++ [0]) := by
  have hlen : (user ++ drawn 18 rand).length = 22 := by
    rw [List.length_append, length_drawn]
    rfl
  calc ((key.store 0 (user ++ [0])).store 4 (drawn 18 rand)).store 22 [0]
      = (key.store 0 (user ++ drawn 18 rand)).store 22 [0] := by
        -- the first digit is stored over the zero of the string
        exact congrArg (Memory.store · 22 [0])
          (Memory.store_string_append key 0 user (digit rand.next.1) (drawn 17 rand.next.2))
    _ = (key.store 0 (user ++ drawn 18 rand)).store (0 + (user ++ drawn 18 rand).length) [0] := by
        rw [hlen]
    _ = key.store 0 ((user ++ drawn 18 rand) ++ [0]) := (Memory.store_append key 0 _ [0]).symm

/-- **One entry**: it takes 19 numbers. -/
theorem genKeyVal_spec (rand : KvrandomLcgNr) (b : Buffers) :
    genKeyVal rand b = (skip 19 rand, b.write (entry rand)) := by
  have hskip : skip 19 rand = (skip 18 rand).next.2 := Function.iterate_succ_apply' ..
  simp only [genKeyVal, keyLoop_spec, Nat.reduceAdd, store_key, hskip]
  rfl

theorem length_entry_fst (rand : KvrandomLcgNr) : (entry rand).1.length = 22 := by
  rw [entry, List.length_append, length_drawn]
  rfl

theorem zero_notMem_of_digits {bs : Bytes} (h : ∀ b ∈ bs, isDigit b = true) : 0 ∉ bs :=
  fun hz => absurd (h 0 hz) (by decide)

/-- The value of an entry is a number that is printed. -/
theorem entry_snd (rand : KvrandomLcgNr) :
    ∃ v : Nat, v < 2 ^ 31 ∧ (entry rand).2 = decimal v := by
  obtain ⟨v, hv, hnext⟩ := (skip 18 rand).next_spec
  refine ⟨v, hv, ?_⟩
  rw [entry, hnext]
  rfl

theorem length_entry_snd (rand : KvrandomLcgNr) : (entry rand).2.length ≤ 10 := by
  obtain ⟨v, hv, hval⟩ := entry_snd rand
  rw [hval, length_decimal_le (by decide)]
  omega

/-- An entry is read back from the arrays. -/
theorem strings_write (rand : KvrandomLcgNr) (b : Buffers) :
    (cString ((b.write (entry rand)).key.load 0 mycsbaKeySize),
      cString ((b.write (entry rand)).val.load 0 mycsbaValSize)) = entry rand := by
  have hkey : 0 ∉ (entry rand).1 := by
    rw [entry, List.mem_append, not_or]
    exact ⟨by decide, zero_notMem_of_digits fun _ => isDigit_of_mem_drawn⟩
  have hval : 0 ∉ (entry rand).2 := by
    obtain ⟨v, -, hv⟩ := entry_snd rand
    rw [hv]
    exact zero_notMem_of_digits fun _ => isDigit_of_mem_decimal
  have hkeyLen : ((entry rand).1 ++ [0]).length ≤ mycsbaKeySize := by
    rw [List.length_append, length_entry_fst]
    decide
  have hvalLen : ((entry rand).2 ++ [0]).length ≤ mycsbaValSize := by
    have hlen := length_entry_snd rand
    rw [List.length_append, List.length_singleton, mycsbaValSize]
    omega
  generalize entry rand = e at hkey hval hkeyLen hvalLen ⊢
  obtain ⟨k, v⟩ := e
  rw [Buffers.write, Memory.load_store_le _ _ hkeyLen, Memory.load_store_le _ _ hvalLen,
    List.append_assoc, List.append_assoc, List.singleton_append, List.singleton_append,
    cString_append hkey, cString_append hval]

/-! ## The lists of the two sides -/

/-- The entries that begin at a state of the generator. -/
def entries : (todo : Nat) → KvrandomLcgNr → List (Bytes × Bytes)
  | 0, _ => []
  | todo + 1, rand => entry rand :: entries todo (skip 19 rand)

theorem clientLoop_succ (todo n : Nat) (rand : KvrandomLcgNr) (b : Buffers) :
    clientLoop (todo + 1) n rand b =
      { type := if n % 2 = 0 then .GET else .PUT
        key := (b.write (entry rand)).key.load 0 mycsbaKeySize
        val := (b.write (entry rand)).val.load 0 mycsbaValSize } ::
        clientLoop todo (n + 1) (skip 19 rand) (b.write (entry rand)) := by
  rw [clientLoop, genKeyVal_spec]

theorem populate_succ (todo : Nat) (rand : KvrandomLcgNr) (b : Buffers) :
    populate (todo + 1) rand b =
      (cString ((b.write (entry rand)).key.load 0 mycsbaKeySize),
        cString ((b.write (entry rand)).val.load 0 mycsbaValSize)) ::
        populate todo (skip 19 rand) (b.write (entry rand)) := by
  rw [populate, mycsbaEntry_eq, genKeyVal_spec]

/-- **The client has the entries.** -/
theorem strings_clientLoop (todo n : Nat) (rand : KvrandomLcgNr) (b : Buffers) :
    (clientLoop todo n rand b).map Request.strings = entries todo rand := by
  induction todo generalizing n rand b with
  | zero => rfl
  | succ todo ih =>
      rw [clientLoop_succ, List.map_cons, ih, Request.strings, strings_write, entries]

/-- **The server puts the entries.** -/
theorem populate_eq (todo : Nat) (rand : KvrandomLcgNr) (b : Buffers) :
    populate todo rand b = entries todo rand := by
  induction todo generalizing rand b with
  | zero => rfl
  | succ todo ih =>
      rw [populate_succ, ih, strings_write, entries]

/-- Every second request is a `GET`. -/
theorem type_clientLoop {todo n i : Nat} {rand : KvrandomLcgNr} {b : Buffers} {req : Request}
    (h : (clientLoop todo n rand b)[i]? = some req) :
    req.type = if (n + i) % 2 = 0 then .GET else .PUT := by
  induction todo generalizing n i rand b with
  | zero => cases h
  | succ todo ih =>
      rw [clientLoop_succ] at h
      cases i with
      | zero =>
          rw [List.getElem?_cons_zero] at h
          obtain rfl := Option.some.inj h
          rfl
      | succ i =>
          rw [List.getElem?_cons_succ] at h
          rw [ih h, Nat.add_right_comm, Nat.add_assoc]

/-- A request of the client is an entry. -/
theorem exists_request {size i : Nat} (h : i < size) (rand : KvrandomLcgNr) (b : Buffers) :
    ∃ req, (clientLoop size 0 rand b)[i]? = some req ∧
      (entries size rand)[i]? = some req.strings ∧
      req.type = if i % 2 = 0 then .GET else .PUT := by
  obtain ⟨req, hreq⟩ : ∃ req, (clientLoop size 0 rand b)[i]? = some req :=
    ⟨_, List.getElem?_eq_getElem (by rw [length_clientLoop]; exact h)⟩
  refine ⟨req, hreq, ?_, ?_⟩
  · rw [← strings_clientLoop size 0 rand b, List.getElem?_map, hreq]
    rfl
  · have htype := type_clientLoop hreq
    rwa [Nat.zero_add] at htype

/-! ## The iterator -/

namespace Client

/-- The iterator goes on, and from the end to the beginning. -/
theorem getReq_spec (c : Client) : c.reqs[c.cur]? = some c.getReq.1 ∧
    c.getReq.2.reqs = c.reqs ∧ c.getReq.2.cur = (c.cur + 1) % c.reqs.length := by
  have hvalid := c.valid
  refine ⟨List.getElem?_eq_getElem hvalid, ?_⟩
  unfold getReq
  split
  · next hend =>
      refine ⟨rfl, ?_⟩
      rw [hend, Nat.mod_self]
  · refine ⟨rfl, ?_⟩
    rw [Nat.mod_eq_of_lt (by omega)]

/-- **What the iterator gives** in `k` calls. -/
theorem getReqs_spec (k : Nat) (c : Client) : (c.getReqs k).1.length = k ∧
    (∀ i < k, (c.getReqs k).1[i]? = c.reqs[(c.cur + i) % c.reqs.length]?) ∧
      (c.getReqs k).2.reqs = c.reqs ∧
        (c.getReqs k).2.cur = (c.cur + k) % c.reqs.length := by
  induction k generalizing c with
  | zero => exact ⟨rfl, by omega, rfl, (Nat.mod_eq_of_lt c.valid).symm⟩
  | succ k ih =>
      obtain ⟨hreq, hreqs, hcur⟩ := c.getReq_spec
      obtain ⟨hlen, hget, hreqs', hcur'⟩ := ih c.getReq.2
      rw [hreqs, hcur] at hget hcur'
      refine ⟨congrArg (· + 1) hlen, fun i hi => ?_, hreqs'.trans hreqs, ?_⟩
      · cases i with
        | zero =>
            show some c.getReq.1 = c.reqs[c.cur % c.reqs.length]?
            rw [Nat.mod_eq_of_lt c.valid]
            exact hreq.symm
        | succ i =>
            have hnext := hget i (by omega)
            rw [Nat.mod_add_mod, Nat.add_right_comm] at hnext
            exact hnext
      · rw [Nat.mod_add_mod, Nat.add_right_comm] at hcur'
        exact hcur'

end Client

/-- **What is sent**: the requests in order, again from the beginning after the last. -/
theorem sends_spec (b : Buffers) (m : Nat) (c : Client) :
    (sends b m (some c)).length = mycsbaAggrFactor * m ∧
      ∀ k < mycsbaAggrFactor * m,
        (sends b m (some c))[k]? = c.reqs[(c.cur + k) % c.reqs.length]? := by
  induction m generalizing c with
  | zero => exact ⟨rfl, by omega⟩
  | succ m ih =>
      obtain ⟨hlen, hget, hreqs, hcur⟩ := c.getReqs_spec mycsbaAggrFactor
      obtain ⟨hrest, hrestGet⟩ := ih (c.getReqs mycsbaAggrFactor).2
      rw [hreqs, hcur] at hrestGet
      have hsends : sends b (m + 1) (some c) = (c.getReqs mycsbaAggrFactor).1 ++
          sends b m (some (c.getReqs mycsbaAggrFactor).2) := by
        simp only [sends, tBenchClientGenReq, Option.getD_some]
      rw [hsends, Nat.mul_succ]
      refine ⟨by rw [List.length_append, hlen, hrest, Nat.add_comm], fun k hk => ?_⟩
      by_cases hbatch : k < mycsbaAggrFactor
      · rw [List.getElem?_append_left (by omega)]
        exact hget k hbatch
      · obtain ⟨j, rfl⟩ := Nat.exists_eq_add_of_le (not_lt.mp hbatch)
        rw [List.getElem?_append_right (by omega), hlen, Nat.add_sub_cancel_left,
          hrestGet j (by omega), Nat.mod_add_mod, Nat.add_assoc]

/-- The first request makes the client. -/
theorem sends_none (b : Buffers) (m : Nat) : sends b m none = sends b m (some (Client.new b)) := by
  cases m with
  | zero => rfl
  | succ m => simp only [sends, tBenchClientGenReq, Option.getD_none, Option.getD_some]

/-! ## Client and server -/

/-- An entry in the arrays: the texts fit, and nothing is written behind them. -/
structure Fits (b b' : Buffers) : Prop where
  key : ∃ ds, ds.length = 18 ∧ (∀ d ∈ ds, isDigit d = true) ∧
    b'.key.load 0 mycsbaKeySize = user ++ ds ++ [0]
  val : ∃ v rest, v < 2 ^ 31 ∧ b'.val.load 0 mycsbaValSize = decimal v ++ 0 :: rest
  keyOutside : ∀ i, mycsbaKeySize ≤ i → b'.key i = b.key i
  valOutside : ∀ i, mycsbaValSize ≤ i → b'.val i = b.val i

theorem fits_write (rand : KvrandomLcgNr) (b : Buffers) : Fits b (b.write (entry rand)) := by
  obtain ⟨v, hv, hval⟩ := entry_snd rand
  have hlen := length_entry_snd rand
  have hkeyLen : ((entry rand).1 ++ [0]).length = mycsbaKeySize := by
    rw [List.length_append, length_entry_fst]
    rfl
  have hvalLen : ((entry rand).2 ++ [0]).length ≤ mycsbaValSize := by
    rw [List.length_append, List.length_singleton, mycsbaValSize]
    omega
  constructor
  · refine ⟨drawn 18 rand, length_drawn 18 rand, fun _ => isDigit_of_mem_drawn, ?_⟩
    show (b.key.store 0 ((entry rand).1 ++ [0])).load 0 mycsbaKeySize = _
    rw [← hkeyLen, Memory.load_store, entry]
  · have hload := Memory.load_store_le b.val 0 hvalLen
    rw [List.append_assoc, List.singleton_append] at hload
    exact ⟨v, _, hv, hload.trans (by rw [hval])⟩
  · intro i hi
    have hout : 0 + ((entry rand).1 ++ [0]).length ≤ i := by omega
    exact Memory.store_outside (.inr hout)
  · intro i hi
    have hout : 0 + ((entry rand).2 ++ [0]).length ≤ i := by omega
    exact Memory.store_outside (.inr hout)

/-- Every entry that is written fits, on both sides. -/
theorem entries_fit (rand : KvrandomLcgNr) (b : Buffers) :
    Fits b (genKeyVal rand b).2 ∧ Fits b (mycsbaEntry rand b).2 := by
  rw [mycsbaEntry_eq, genKeyVal_spec]
  exact ⟨fits_write rand b, fits_write rand b⟩

/-- **The client and the server agree.** For every seed and every number of entries, and whatever
the arrays hold: the client has the keys and values that the server puts. Every entry fits its
arrays. In any number of requests of the harness, the `k`-th operation is the entry
`k % mycsbaDbSize`, a `GET` if that is even: every key that is asked for was put. -/
theorem operations_agree :
    (∀ (seed : UInt32) (size : Nat) (r r' : KvrandomLcgNr) (b b' : Buffers),
      (clientLoop size 0 (r.reset seed) b).map Request.strings =
        populate size (r'.reset seed) b') ∧
    (∀ rand b, Fits b (genKeyVal rand b).2 ∧ Fits b (mycsbaEntry rand b).2) ∧
    ∀ (b b' : Buffers) (r' : KvrandomLcgNr) (m k : Nat), k < mycsbaAggrFactor * m →
      ∃ req e, (sends b m none)[k]? = some req ∧
        (populate mycsbaDbSize (r'.reset mycsbaSeed) b')[k % mycsbaDbSize]? = some e ∧
        req.strings = e ∧ (req.type = .GET ↔ k % mycsbaDbSize % 2 = 0) ∧
        req.op = if k % mycsbaDbSize % 2 = 0 then .get_sync e.1 else .put e.1 e.2 := by
  refine ⟨fun seed size r r' b b' => ?_, entries_fit, fun b b' r' m k hk => ?_⟩
  · rw [strings_clientLoop, populate_eq]
    rfl
  · have hlen := length_clientLoop mycsbaDbSize 0 (KvrandomLcgNr.reset {} mycsbaSeed) b
    have hlt : k % mycsbaDbSize < mycsbaDbSize := Nat.mod_lt _ (by decide)
    have hget := (sends_spec b m (Client.new b)).2 k hk
    rw [← sends_none, Client.new, hlen, Nat.zero_add] at hget
    obtain ⟨req, hreq, hentry, htype⟩ :=
      exists_request hlt (KvrandomLcgNr.reset {} mycsbaSeed) b
    refine ⟨req, req.strings, hget.trans hreq, ?_, rfl, ?_, ?_⟩
    · rw [populate_eq]
      exact hentry
    · rw [htype]
      split
      · next heven => simp [heven]
      · next hodd => simp [hodd]
    · by_cases heven : k % mycsbaDbSize % 2 = 0
      · rw [if_pos heven] at htype ⊢
        rw [Request.op, htype]
        rfl
      · rw [if_neg heven] at htype ⊢
        rw [Request.op, htype]
        rfl

end TailBench.Masstree
