import TailBench.Lib.Memory

set_option autoImplicit false

/-! # Answering a query

`Server::processRequest` of `xapian/server.cpp`. The query parser, the match set and the
descriptions of the documents are a parameter `search`, from the text of the query to the
descriptions in order. `term` and `res` are arrays on the stack, so they hold anything when the
function is entered. What `res` has no room for is written behind it; a request that `term` has no
room for ends the model.

Each description is copied to the offset after it is advanced. The first byte of `res` is never
written, and the last copy begins where the answer ends.
-/

namespace TailBench.Xapian

open Lib

/-- The room in `term`. -/
def MAX_TERM_LEN : Nat := 256

def MAX_RES_LEN : Nat := 2 ^ 20

/-- Up to 25 results per page. -/
def MAX_DOC_COUNT : Nat := 25

/-- The variables of the loop over the match set. -/
structure Page where
  res : Memory
  resLen : UInt32 := 0
  doccount : Nat := 0

/-- The loop over the match set; `none` when the assertion fails. -/
def docLoop : List Bytes → Page → Option Page
  | [], page => some page
  | desc :: it, page =>
      let resLen := UInt32.ofNat (page.resLen.toNat + desc.length)
      if resLen.toNat ≤ MAX_RES_LEN then
        -- `memcpy(&res[resLen], desc.c_str(), desc.size())`
        let page : Page :=
          { res := page.res.store resLen.toNat desc
            resLen := resLen
            doccount := page.doccount + 1 }
        if page.doccount = MAX_DOC_COUNT then some page else docLoop it page
      else none

/-- The arrays of the function. -/
structure Stack where
  term : Memory
  res : Memory

/-- What is passed to `tBenchSendResp`, and `res` at that time. -/
structure Answer where
  sent : Bytes
  res : Memory

/-- `processRequest`, with the data of the request; `none` when the assertion fails, and when `term`
has no room for the request and a zero: undefined behaviour. -/
def processRequest (search : Bytes → List Bytes) (stack : Stack) (req : Bytes) : Option Answer :=
  if req.length < MAX_TERM_LEN then
    let term := (stack.term.store 0 req).store req.length [0]
    let mset := search (cString (term.load 0 (req.length + 1)))
    (docLoop mset { res := stack.res }).map fun page =>
      { sent := page.res.load 0 page.resLen.toNat, res := page.res }
  else none

/-- The descriptions for a request: the query is its data up to the first zero. -/
def matchSet (search : Bytes → List Bytes) (req : Bytes) : List Bytes := search (cString (req ++ [0]))

/-- The answer has the descriptions of one page, and nothing is written behind `res`. -/
structure ReturnsFound (mset : List Bytes) (stack : Stack) (a : Answer) : Prop where
  found : a.sent = (mset.take MAX_DOC_COUNT).flatten
  inside : ∀ i, MAX_RES_LEN ≤ i → a.res i = stack.res i

/-- `term` holds the request as a C string. -/
theorem load_term (m : Memory) (req : Bytes) :
    ((m.store 0 req).store req.length [0]).load 0 (req.length + 1) = req ++ [0] := by
  have happend := Memory.store_append m 0 req [0]
  rw [Nat.zero_add] at happend
  rw [← happend]
  have hload := Memory.load_store m 0 (req ++ [0])
  rwa [List.length_append, List.length_singleton] at hload

/-- **The loop**, when the page fits: the length is that of the page, the first byte of `res` is
what it was. -/
theorem docLoop_spec (mset : List Bytes) (page : Page) (hcount : page.doccount < MAX_DOC_COUNT)
    (hfits : page.resLen.toNat + (mset.take (MAX_DOC_COUNT - page.doccount)).flatten.length ≤
      MAX_RES_LEN) :
    ∃ page', docLoop mset page = some page' ∧ page'.resLen.toNat =
        page.resLen.toNat + (mset.take (MAX_DOC_COUNT - page.doccount)).flatten.length ∧
      page'.res 0 = page.res 0 := by
  induction mset generalizing page with
  | nil => exact ⟨page, rfl, by simp, rfl⟩
  | cons desc it ih =>
      obtain ⟨k, hk⟩ : ∃ k, MAX_DOC_COUNT - page.doccount = k + 1 :=
        Nat.exists_eq_succ_of_ne_zero (by omega)
      have hmax : MAX_RES_LEN = 2 ^ 20 := rfl
      rw [hk, List.take_succ_cons, List.flatten_cons, List.length_append] at hfits ⊢
      have hlen : (UInt32.ofNat (page.resLen.toNat + desc.length)).toNat =
          page.resLen.toNat + desc.length := by
        rw [UInt32.toNat_ofNat']
        exact Nat.mod_eq_of_lt (by omega)
      -- a description that is not empty is copied behind the first byte
      have hfirst : page.res.store (page.resLen.toNat + desc.length) desc 0 = page.res 0 :=
        Memory.store_outside (by omega)
      rw [docLoop]
      simp only [hlen]
      rw [if_pos (by omega)]
      split
      · next hlast =>
          obtain rfl : k = 0 := by omega
          refine ⟨_, rfl, ?_, hfirst⟩
          show (UInt32.ofNat (page.resLen.toNat + desc.length)).toNat = _
          rw [hlen]
          simp
      · next hmore =>
          have hrest : MAX_DOC_COUNT - (page.doccount + 1) = k := by omega
          obtain ⟨page', hloop, hres, hzero⟩ := ih
            ⟨page.res.store (page.resLen.toNat + desc.length) desc,
              UInt32.ofNat (page.resLen.toNat + desc.length), page.doccount + 1⟩
            (by show page.doccount + 1 < MAX_DOC_COUNT; omega)
            (by simp only [hlen, hrest]; omega)
          refine ⟨page', hloop, ?_, hzero.trans hfirst⟩
          simp only [hlen, hrest] at hres
          omega

/-- A page of empty descriptions leaves `res` alone. -/
theorem docLoop_empty (mset : List Bytes) (page : Page) (hcount : page.doccount < MAX_DOC_COUNT)
    (hempty : ∀ d ∈ mset.take (MAX_DOC_COUNT - page.doccount), d = [])
    (hlen : page.resLen.toNat ≤ MAX_RES_LEN) {page' : Page} (h : docLoop mset page = some page') :
    page'.res = page.res := by
  induction mset generalizing page with
  | nil =>
      cases h
      rfl
  | cons desc it ih =>
      obtain ⟨k, hk⟩ : ∃ k, MAX_DOC_COUNT - page.doccount = k + 1 :=
        Nat.exists_eq_succ_of_ne_zero (by omega)
      rw [hk, List.take_succ_cons] at hempty
      obtain rfl : desc = [] := hempty _ List.mem_cons_self
      rw [docLoop] at h
      simp only [List.length_nil, Nat.add_zero, UInt32.ofNat_toNat, Memory.store_nil, if_pos hlen]
        at h
      split at h
      · cases h
        rfl
      · have hrest : MAX_DOC_COUNT - (page.doccount + 1) = k := by omega
        exact ih ⟨page.res, page.resLen, page.doccount + 1⟩
          (by show page.doccount + 1 < MAX_DOC_COUNT; omega)
          (by rw [hrest]; exact fun d hd => hempty d (List.mem_cons_of_mem _ hd)) hlen h

/-- When the request and the page fit, the assertion holds, and the first byte of `res` is what it
was. -/
theorem processRequest_spec {search : Bytes → List Bytes} {req : Bytes}
    (hterm : req.length < MAX_TERM_LEN)
    (hfits : ((matchSet search req).take MAX_DOC_COUNT).flatten.length ≤ MAX_RES_LEN)
    (stack : Stack) :
    ∃ page, docLoop (matchSet search req) { res := stack.res } = some page ∧
      processRequest search stack req = some ⟨page.res.load 0 page.resLen.toNat, page.res⟩ ∧
      page.resLen.toNat = ((matchSet search req).take MAX_DOC_COUNT).flatten.length ∧
      page.res 0 = stack.res 0 := by
  obtain ⟨page, hloop, hlen, hzero⟩ := docLoop_spec (matchSet search req) { res := stack.res }
    (by show 0 < MAX_DOC_COUNT; decide) (by simpa using hfits)
  refine ⟨page, hloop, ?_, by simpa using hlen, hzero⟩
  rw [matchSet] at hloop
  simp only [processRequest, if_pos hterm, load_term, hloop, Option.map_some]

/-- **What is returned.** For every query whose first page fits `res`: the server returns the page,
whatever was on the stack, if and only if the query fits `term` and the descriptions on the page are
empty. -/
theorem returns_found_iff (search : Bytes → List Bytes) (req : Bytes)
    (hfits : ((matchSet search req).take MAX_DOC_COUNT).flatten.length ≤ MAX_RES_LEN) :
    (∀ stack, ∃ a, processRequest search stack req = some a ∧
      ReturnsFound (matchSet search req) stack a) ↔
    req.length < MAX_TERM_LEN ∧ ∀ d ∈ (matchSet search req).take MAX_DOC_COUNT, d = [] := by
  by_cases hterm : req.length < MAX_TERM_LEN
  swap
  · -- `term` overflows
    refine iff_of_false (fun hfound => ?_) fun h => hterm h.1
    obtain ⟨a, ha, -⟩ := hfound ⟨fun _ => 0, fun _ => 0⟩
    rw [processRequest, if_neg hterm] at ha
    cases ha
  rw [and_iff_right hterm]
  have hrun := processRequest_spec hterm hfits
  generalize matchSet search req = mset at hfits hrun ⊢
  constructor
  · intro hfound
    by_contra hsome
    push Not at hsome
    have hne : (mset.take MAX_DOC_COUNT).flatten ≠ [] := by
      rw [Ne, List.flatten_eq_nil_iff]
      push Not
      exact hsome
    obtain ⟨b, rest, hb⟩ := List.exists_cons_of_ne_nil hne
    -- a stack whose first byte is another one
    obtain ⟨a, ha, hreturns⟩ := hfound ⟨fun _ => 0, fun _ => b + 1⟩
    obtain ⟨page, -, hpage, hlen, hzero⟩ := hrun ⟨fun _ => 0, fun _ => b + 1⟩
    obtain rfl := Option.some.inj (hpage.symm.trans ha)
    have hsent : page.res.load 0 page.resLen.toNat = _ := hreturns.found
    have hfirst : (page.res.load 0 page.resLen.toNat)[0]? = some (page.res 0) :=
      Memory.getElem?_load (by rw [hlen, hb]; simp)
    rw [hsent, hb, hzero] at hfirst
    simp at hfirst
  · intro hempty stack
    obtain ⟨page, hloop, hpage, hlen, -⟩ := hrun stack
    have hnil : (mset.take MAX_DOC_COUNT).flatten = [] := List.flatten_eq_nil_iff.mpr hempty
    have hsame := docLoop_empty mset _ (by show 0 < MAX_DOC_COUNT; decide) (by simpa using hempty)
      (by simp) hloop
    refine ⟨_, hpage, ?_, fun i _ => congrFun hsame i⟩
    rw [hlen, hnil]
    rfl

/-- A query that finds two documents without a description. -/
theorem returns_found_iff_empty : ∃ a, processRequest (fun _ => [[], []])
    ⟨fun _ => 0, fun _ => 7⟩ [113, 0] = some a ∧
      ReturnsFound [[], []] ⟨fun _ => 0, fun _ => 7⟩ a :=
  (returns_found_iff (fun _ => [[], []]) [113, 0] (by decide)).mpr ⟨by decide, by decide⟩ _

/-- With one result, its description is copied behind the answer. -/
theorem processRequest_single {search : Bytes → List Bytes} {req desc : Bytes}
    (hterm : req.length < MAX_TERM_LEN) (hone : matchSet search req = [desc])
    (hfits : desc.length ≤ MAX_RES_LEN) (stack : Stack) :
    processRequest search stack req = some
      { sent := stack.res.load 0 desc.length, res := stack.res.store desc.length desc } := by
  have hmax : MAX_RES_LEN = 2 ^ 20 := rfl
  have hlen : (UInt32.ofNat desc.length).toNat = desc.length := by
    rw [UInt32.toNat_ofNat']
    exact Nat.mod_eq_of_lt (by omega)
  have hbefore : (stack.res.store desc.length desc).load 0 desc.length =
      stack.res.load 0 desc.length := Memory.load_store_outside (.inl (by omega))
  rw [matchSet] at hone
  simp [processRequest, hterm, load_term, hone, docLoop, hlen, hfits, hbefore]

/-- When it fills `res`, it is copied behind `res`. -/
theorem processRequest_overruns {search : Bytes → List Bytes} {req rest : Bytes} {b : UInt8}
    (hterm : req.length < MAX_TERM_LEN) (hone : matchSet search req = [b :: rest])
    (hlen : (b :: rest).length = MAX_RES_LEN)
    (stack : Stack) :
    ∃ a, processRequest search stack req = some a ∧ a.res MAX_RES_LEN = b := by
  refine ⟨_, processRequest_single hterm hone hlen.le stack, ?_⟩
  show stack.res.store (b :: rest).length (b :: rest) MAX_RES_LEN = b
  rw [hlen, Memory.store_cons_self]

/-- Two documents are found, and the answer has what was on the stack, then the first description.
A description that fills `res` is copied behind it. -/
theorem page_shifted :
    (∃ a, processRequest (fun _ => [[97, 98], [99, 100]]) ⟨fun _ => 0, fun _ => 7⟩ [113, 0] =
        some a ∧ a.sent = [7, 7, 97, 98] ∧
      ¬ ReturnsFound [[97, 98], [99, 100]] ⟨fun _ => 0, fun _ => 7⟩ a) ∧
    ∃ desc a, desc.length = MAX_RES_LEN ∧
      processRequest (fun _ => [desc]) ⟨fun _ => 0, fun _ => 7⟩ [113, 0] = some a ∧
      ¬ ReturnsFound [desc] ⟨fun _ => 0, fun _ => 7⟩ a := by
  constructor
  · refine ⟨_, rfl, by decide, fun h => ?_⟩
    exact absurd h.found (by decide)
  · have hlen : (97 :: List.replicate (MAX_RES_LEN - 1) 97 : Bytes).length = MAX_RES_LEN := by
      rw [List.length_cons, List.length_replicate]
      decide
    generalize List.replicate (MAX_RES_LEN - 1) (97 : UInt8) = rest at hlen
    have hone : matchSet (fun _ => [97 :: rest]) [113, 0] = [97 :: rest] := rfl
    obtain ⟨a, ha, hwritten⟩ :=
      processRequest_overruns (by decide) hone hlen ⟨fun _ => 0, fun _ => 7⟩
    refine ⟨97 :: rest, a, hlen, ha, fun h => ?_⟩
    exact absurd (hwritten.symm.trans (h.inside MAX_RES_LEN le_rfl)) (by decide)

end TailBench.Xapian
