import Mathlib.Data.List.Induction
import Mathlib.Logic.Function.Basic
import TailBench.Lib.Machine

set_option autoImplicit false

/-! # Serial histories and certification

A transaction is known by what it has read and what it writes. A list of transactions is `Serial`
over a store when each of them reads what the transactions before it have left.

A ledger has the transactions of concurrent owners in the order in which they were claimed. A claim
is pending until its owner commits or aborts it; in between its reads are certified, one by one or
together. The rules (`Admissible`) ask for what a scheduler can see at the time of the event alone:

* a claim writes no key that a pending claim writes;
* a read is certified when no other pending claim writes its key and the transactions committed
  before its own claim leave the value read;
* a commit has all its reads certified.

Whatever the order of the events, the committed transactions are then serial in the order of their
claims (`serial_of_log`), although a claim may commit after later ones have.
-/

namespace TailBench.Lib

structure Txn (κ ν : Type*) where
  reads : List (κ × ν)
  writes : List (κ × ν)
  deriving DecidableEq, Repr

namespace Txn

variable {κ ν : Type*} [DecidableEq κ]

/-- The keys a transaction writes. -/
def keys (t : Txn κ ν) : List κ := t.writes.map Prod.fst

/-- A list of writes, the later ones over the earlier ones. -/
def store (m : κ → ν) (ws : List (κ × ν)) : κ → ν :=
  ws.foldl (fun m w => Function.update m w.1 w.2) m

def apply (t : Txn κ ν) (m : κ → ν) : κ → ν := store m t.writes

/-- Each transaction reads what the ones before it have left. -/
def Serial (m : κ → ν) : List (Txn κ ν) → Prop
  | [] => True
  | t :: ts => (∀ r ∈ t.reads, m r.1 = r.2) ∧ Serial (t.apply m) ts

/-- The store after a list of transactions. -/
def replay (m : κ → ν) (ts : List (Txn κ ν)) : κ → ν := ts.foldl (fun m t => t.apply m) m

section Store

variable {m m' : κ → ν} {k : κ} {ws : List (κ × ν)}

theorem store_cons (m : κ → ν) (w : κ × ν) (ws : List (κ × ν)) :
    store m (w :: ws) = store (Function.update m w.1 w.2) ws := rfl

theorem store_append (m : κ → ν) (ws ws' : List (κ × ν)) :
    store m (ws ++ ws') = store (store m ws) ws' :=
  List.foldl_append

/-- One key depends on what was at this key only. -/
theorem store_congr (h : m k = m' k) : store m ws k = store m' ws k := by
  induction ws generalizing m m' with
  | nil => exact h
  | cons w ws ih =>
      rw [store_cons, store_cons]
      refine ih ?_
      by_cases hk : k = w.1
      · subst hk
        simp
      · rw [Function.update_of_ne hk, Function.update_of_ne hk]
        exact h

theorem store_of_notMem (h : k ∉ ws.map Prod.fst) : store m ws k = m k := by
  induction ws generalizing m with
  | nil => rfl
  | cons w ws ih =>
      rw [List.map_cons, List.mem_cons, not_or] at h
      rw [store_cons, ih h.2, Function.update_of_ne h.1]

/-- A written key does not depend on what was there. -/
theorem store_of_mem (h : k ∈ ws.map Prod.fst) : store m ws k = store m' ws k := by
  induction ws generalizing m m' with
  | nil => simp at h
  | cons w ws ih =>
      rw [store_cons, store_cons]
      by_cases hk : k ∈ ws.map Prod.fst
      · exact ih hk
      · rw [List.map_cons, List.mem_cons] at h
        obtain rfl : k = w.1 := h.resolve_right hk
        exact store_congr (by simp)

end Store

theorem apply_congr {t : Txn κ ν} {m m' : κ → ν} {k : κ} (h : m k = m' k) :
    t.apply m k = t.apply m' k :=
  store_congr h

theorem apply_of_notMem {t : Txn κ ν} {m : κ → ν} {k : κ} (h : k ∉ t.keys) : t.apply m k = m k :=
  store_of_notMem h

end Txn

/-! ## The ledger -/

/-- A claimed transaction. -/
structure Entry (ι κ ν : Type*) where
  owner : ι
  txn : Txn κ ν
  certified : List (κ × ν) := []
  committed : Bool := false
  deriving DecidableEq, Repr

namespace Ledger

variable {ι κ ν : Type*}

inductive Event (ι κ ν : Type*) where
  | claim (i : ι) (t : Txn κ ν)
  | certify (i : ι) (rs : List (κ × ν))
  | commit (i : ι)
  | abort (i : ι)

/-- The transactions that have committed, in the order of the claims. -/
def committed (s : List (Entry ι κ ν)) : List (Txn κ ν) := (s.filter (·.committed)).map (·.txn)

section Events

variable [DecidableEq ι]

/-- The entry is the pending claim of `i`. -/
def pendingOf (i : ι) (e : Entry ι κ ν) : Bool := e.owner = i && !e.committed

/-- The ledger after an event. -/
def record (s : List (Entry ι κ ν)) : Event ι κ ν → List (Entry ι κ ν)
  | .claim i t => s ++ [{ owner := i, txn := t }]
  | .certify i rs =>
      s.map fun e => if pendingOf i e then { e with certified := rs ++ e.certified } else e
  | .commit i => s.map fun e => if pendingOf i e then { e with committed := true } else e
  | .abort i => s.filter fun e => !pendingOf i e

/-- The ledger of a log. -/
def ofLog (log : List (Event ι κ ν)) : List (Entry ι κ ν) := log.foldl record []

theorem ofLog_concat (log : List (Event ι κ ν)) (ev : Event ι κ ν) :
    ofLog (log ++ [ev]) = record (ofLog log) ev := by
  rw [ofLog, List.foldl_append, List.foldl_cons, List.foldl_nil, ofLog]

end Events

section Values

variable [DecidableEq κ]

/-- What an entry does to the store of the committed transactions. -/
def effect (e : Entry ι κ ν) (m : κ → ν) : κ → ν := if e.committed then e.txn.apply m else m

/-- The store after all committed transactions. -/
def value (m : κ → ν) : List (Entry ι κ ν) → κ → ν
  | [] => m
  | e :: s => value (effect e m) s

/-- The store at the pending claim of `i`: after the committed transactions before it. -/
def view [DecidableEq ι] (m : κ → ν) (i : ι) : List (Entry ι κ ν) → κ → ν
  | [] => m
  | e :: s => if pendingOf i e then m else view (effect e m) i s

/-- What an event may rely on. -/
def Admissible [DecidableEq ι] (m : κ → ν) (s : List (Entry ι κ ν)) : Event ι κ ν → Prop
  | .claim i t => ∀ e ∈ s, e.committed = false → e.owner ≠ i ∧ ∀ k ∈ e.txn.keys, k ∉ t.keys
  | .certify i rs => ∀ r ∈ rs,
      (∀ e ∈ s, e.committed = false → e.owner = i ∨ r.1 ∉ e.txn.keys) ∧ view m i s r.1 = r.2
  | .commit i => ∀ e ∈ s, pendingOf i e = true → ∀ r ∈ e.txn.reads, r ∈ e.certified
  | .abort _ => True

end Values

/-! ## What stays true -/

/-- The certified reads of the entries: none at a key that an earlier pending claim writes, all at
the value the committed transactions before them leave. `opn` are the keys of the pending claims
before the list, `m` is the store there. -/
def Checked [DecidableEq κ] (m : κ → ν) (opn : κ → Prop) : List (Entry ι κ ν) → Prop
  | [] => True
  | e :: s =>
      (∀ r ∈ e.certified, ¬ opn r.1 ∧ m r.1 = r.2)
        ∧ Checked (effect e m) (fun k => opn k ∨ (e.committed = false ∧ k ∈ e.txn.keys)) s

structure Sound [DecidableEq κ] (m : κ → ν) (s : List (Entry ι κ ν)) : Prop where
  /-- An owner has one pending claim. -/
  owners : s.Pairwise fun e e' => e.committed = false → e'.committed = false → e.owner ≠ e'.owner
  /-- No later claim writes what a pending one writes. -/
  disjoint : s.Pairwise fun e e' => e.committed = false → ∀ k ∈ e.txn.keys, k ∉ e'.txn.keys
  checked : Checked m (fun _ => False) s
  /-- What has committed is certified. -/
  complete : ∀ e ∈ s, e.committed = true → ∀ r ∈ e.txn.reads, r ∈ e.certified

section Entries

variable {s : List (Entry ι κ ν)}

theorem pairwise_map {R : Entry ι κ ν → Entry ι κ ν → Prop} {f : Entry ι κ ν → Entry ι κ ν}
    (hf : ∀ e e', R e e' → R (f e) (f e')) (h : s.Pairwise R) : (s.map f).Pairwise R :=
  List.pairwise_map.mpr (h.imp (hf _ _))

variable [DecidableEq ι] {i : ι}

theorem pendingOf_iff {e : Entry ι κ ν} :
    pendingOf i e = true ↔ e.owner = i ∧ e.committed = false := by
  simp [pendingOf]

/-- Behind the pending claim of an owner there is no other. -/
theorem notPending_of_owners {e : Entry ι κ ν}
    (h : (e :: s).Pairwise fun e e' =>
      e.committed = false → e'.committed = false → e.owner ≠ e'.owner)
    (he : pendingOf i e = true) : ∀ e' ∈ s, pendingOf i e' = false := by
  intro e' he'
  rw [Bool.eq_false_iff]
  intro hp
  rw [pendingOf_iff] at he hp
  exact (List.pairwise_cons.mp h).1 e' he' he.2 hp.2 (he.1.trans hp.1.symm)

/-- A change of the pending claim of `i` changes one entry. -/
theorem map_eq_self {f : Entry ι κ ν → Entry ι κ ν} (h : ∀ e ∈ s, pendingOf i e = false) :
    (s.map fun e => if pendingOf i e then f e else e) = s := by
  conv_rhs => rw [← List.map_id s]
  refine List.map_congr_left fun e he => ?_
  rw [h e he]
  rfl

end Entries

section Keep

variable [DecidableEq κ] {m m' : κ → ν} {opn opn' : κ → Prop} {s s' : List (Entry ι κ ν)}

theorem effect_congr {e : Entry ι κ ν} {k : κ} (h : m k = m' k) : effect e m k = effect e m' k := by
  rw [effect, effect]
  split
  · exact Txn.apply_congr h
  · exact h

theorem effect_of_notMem {e : Entry ι κ ν} {k : κ} (h : k ∉ e.txn.keys) : effect e m k = m k := by
  rw [effect]
  split
  · exact Txn.apply_of_notMem h
  · rfl

theorem value_congr {k : κ} (h : m k = m' k) : value m s k = value m' s k := by
  induction s generalizing m m' with
  | nil => exact h
  | cons e s ih => exact ih (effect_congr h)

theorem value_of_notMem {k : κ} (h : ∀ e ∈ s, k ∉ e.txn.keys) : value m s k = m k := by
  induction s generalizing m with
  | nil => rfl
  | cons e s ih =>
      rw [value, ih fun e' he' => h e' (List.mem_cons_of_mem _ he')]
      exact effect_of_notMem (h e (by simp))

theorem value_concat {e : Entry ι κ ν} (he : e.committed = false) :
    value m (s ++ [e]) = value m s := by
  induction s generalizing m with
  | nil => simp [value, effect, he]
  | cons e' s ih => exact ih

/-- The pending claims do nothing to the store. -/
theorem value_eq_replay (m : κ → ν) (s : List (Entry ι κ ν)) :
    value m s = Txn.replay m (committed s) := by
  induction s generalizing m with
  | nil => rfl
  | cons e s ih =>
      rw [value, ih]
      cases hc : e.committed with
      | false => rw [effect, hc, committed, committed, List.filter_cons_of_neg (by simp [hc])]; rfl
      | true => rw [effect, hc, committed, committed, List.filter_cons_of_pos hc]; rfl

/-- Only the keys that are not open matter. -/
theorem Checked.mono (h : ∀ k, ¬ opn k → m k = m' k ∧ ¬ opn' k) (hs : Checked m opn s) :
    Checked m' opn' s := by
  induction s generalizing m m' opn opn' with
  | nil => trivial
  | cons e s ih =>
      refine ⟨?_, ?_⟩
      · intro r hr
        obtain ⟨hopen, hval⟩ := hs.1 r hr
        obtain ⟨heq, hopen'⟩ := h _ hopen
        exact ⟨hopen', by rw [← heq, hval]⟩
      · refine ih ?_ hs.2
        intro k hk
        rw [not_or] at hk ⊢
        obtain ⟨heq, hopen'⟩ := h k hk.1
        exact ⟨effect_congr heq, hopen', hk.2⟩

theorem Checked.concat {e : Entry ι κ ν} (he : e.certified = []) (hs : Checked m opn s) :
    Checked m opn (s ++ [e]) := by
  induction s generalizing m opn with
  | nil => simp [Checked, he]
  | cons e' s ih => exact ⟨hs.1, ih hs.2⟩

/-- The reads that stand in the committed transactions make them serial. -/
theorem Checked.serial (hs : Checked m opn s)
    (hcomplete : ∀ e ∈ s, e.committed = true → ∀ r ∈ e.txn.reads, r ∈ e.certified) :
    Txn.Serial m (committed s) := by
  induction s generalizing m opn with
  | nil => trivial
  | cons e s ih =>
      have htail := ih hs.2 fun e' he' => hcomplete e' (List.mem_cons_of_mem _ he')
      cases hc : e.committed with
      | false =>
          rw [effect, hc] at htail
          rw [committed, List.filter_cons_of_neg (by simp [hc])]
          exact htail
      | true =>
          rw [effect, hc] at htail
          rw [committed, List.filter_cons_of_pos (by simp [hc])]
          refine ⟨?_, htail⟩
          intro r hr
          exact (hs.1 r (hcomplete e (by simp) hc r hr)).2

theorem Sound.nil : Sound m ([] : List (Entry ι κ ν)) :=
  ⟨List.Pairwise.nil, List.Pairwise.nil, trivial, by simp⟩

theorem Sound.serial (hs : Sound m s) : Txn.Serial m (committed s) :=
  hs.checked.serial hs.complete

variable [DecidableEq ι] {i : ι}

section Claim

variable {t : Txn κ ν}

theorem Sound.claim (hs : Sound m s) (h : Admissible m s (.claim i t)) :
    Sound m (record s (.claim i t)) := by
  refine ⟨?_, ?_, hs.checked.concat rfl, ?_⟩
  · refine List.pairwise_append.mpr ⟨hs.owners, List.pairwise_singleton _ _, ?_⟩
    intro e he e' he' hc _
    obtain rfl := List.mem_singleton.mp he'
    exact (h e he hc).1
  · refine List.pairwise_append.mpr ⟨hs.disjoint, List.pairwise_singleton _ _, ?_⟩
    intro e he e' he' hc
    obtain rfl := List.mem_singleton.mp he'
    exact (h e he hc).2
  · intro e he hc
    rcases List.mem_append.mp he with he | he
    · exact hs.complete e he hc
    · obtain rfl := List.mem_singleton.mp he
      cases hc

end Claim

section Certify

variable {rs : List (κ × ν)}

/-- The certified reads of `i` are checked where its claim stands. -/
theorem Checked.certify (hs : Checked m opn s)
    (howners : s.Pairwise fun e e' =>
      e.committed = false → e'.committed = false → e.owner ≠ e'.owner)
    (hopen : ∀ r ∈ rs, ¬ opn r.1)
    (h : ∀ r ∈ rs, (∀ e ∈ s, e.committed = false → e.owner = i ∨ r.1 ∉ e.txn.keys)
      ∧ view m i s r.1 = r.2) :
    Checked m opn (record s (.certify i rs)) := by
  induction s generalizing m opn with
  | nil => trivial
  | cons e s ih =>
      by_cases he : pendingOf i e = true
      · rw [record, List.map_cons, if_pos he, map_eq_self (notPending_of_owners howners he)]
        refine ⟨?_, hs.2⟩
        intro r hr
        rcases List.mem_append.mp hr with hr | hr
        · refine ⟨hopen r hr, ?_⟩
          have hview := (h r hr).2
          rw [view, if_pos he] at hview
          exact hview
        · exact hs.1 r hr
      · rw [record, List.map_cons, if_neg he]
        refine ⟨hs.1, ih hs.2 howners.of_cons ?_ ?_⟩
        · intro r hr
          rintro (hr' | ⟨hc, hk⟩)
          · exact hopen r hr hr'
          · rcases (h r hr).1 e (by simp) hc with hi | hk'
            · exact he (pendingOf_iff.mpr ⟨hi, hc⟩)
            · exact hk' hk
        · intro r hr
          refine ⟨fun e' he' => (h r hr).1 e' (List.mem_cons_of_mem _ he'), ?_⟩
          have hview := (h r hr).2
          rw [view, if_neg he] at hview
          exact hview

end Certify

theorem Sound.certify {rs : List (κ × ν)} (hs : Sound m s) (h : Admissible m s (.certify i rs)) :
    Sound m (record s (.certify i rs)) := by
  refine ⟨?_, ?_, hs.checked.certify hs.owners (fun _ _ h => h) h, ?_⟩
  · refine pairwise_map ?_ hs.owners
    intro e e' hee'
    split <;> split <;> exact hee'
  · refine pairwise_map ?_ hs.disjoint
    intro e e' hee'
    split <;> split <;> exact hee'
  · intro e' he' hc r hr
    obtain ⟨e, he, rfl⟩ := List.mem_map.mp he'
    by_cases hp : pendingOf i e = true
    · rw [if_pos hp] at hc
      exact absurd hc (by simp [(pendingOf_iff.mp hp).2])
    · rw [if_neg hp] at hc hr ⊢
      exact hs.complete e he hc r hr

/-- A commit takes the keys of its claim from the open ones; nothing certified behind it is at one
of them. -/
theorem Checked.commit (hs : Checked m opn s) : Checked m opn (record s (.commit i)) := by
  induction s generalizing m opn with
  | nil => trivial
  | cons e s ih =>
      rw [record, List.map_cons]
      by_cases he : pendingOf i e = true
      · rw [if_pos he]
        refine ⟨hs.1, ih (hs.2.mono ?_)⟩
        intro k hk
        rw [pendingOf_iff] at he
        simp only [he.2, true_and, not_or] at hk
        refine ⟨?_, ?_⟩
        · simp only [effect, he.2, if_true]
          exact (Txn.apply_of_notMem hk.2).symm
        · simpa using hk.1
      · rw [if_neg he]
        exact ⟨hs.1, ih hs.2⟩

theorem Checked.abort (hs : Checked m opn s) : Checked m opn (record s (.abort i)) := by
  induction s generalizing m opn with
  | nil => trivial
  | cons e s ih =>
      by_cases he : pendingOf i e = true
      · rw [record, List.filter_cons_of_neg (by simp [he])]
        refine ih (hs.2.mono ?_)
        intro k hk
        rw [not_or] at hk
        rw [pendingOf_iff] at he
        exact ⟨by simp [effect, he.2], hk.1⟩
      · rw [record, List.filter_cons_of_pos (by simp [he])]
        exact ⟨hs.1, ih hs.2⟩

theorem Sound.commit (hs : Sound m s) (h : Admissible m s (.commit i)) :
    Sound m (record s (.commit i)) := by
  refine ⟨?_, ?_, hs.checked.commit, ?_⟩
  · refine pairwise_map ?_ hs.owners
    intro e e' hee'
    split <;> split <;> simp_all
  · refine pairwise_map ?_ hs.disjoint
    intro e e' hee'
    split <;> split <;> simp_all
  · intro e' he' hc r hr
    obtain ⟨e, he, rfl⟩ := List.mem_map.mp he'
    by_cases hp : pendingOf i e = true
    · rw [if_pos hp] at hr ⊢
      exact h e he hp r hr
    · rw [if_neg hp] at hc hr ⊢
      exact hs.complete e he hc r hr

theorem Sound.abort (hs : Sound m s) : Sound m (record s (.abort i)) := by
  refine ⟨hs.owners.filter _, hs.disjoint.filter _, hs.checked.abort, ?_⟩
  intro e he
  exact hs.complete e (List.mem_filter.mp he).1

/-- **Every admissible event keeps the ledger sound.** -/
theorem Sound.next (hs : Sound m s) {ev : Event ι κ ν} (h : Admissible m s ev) :
    Sound m (record s ev) := by
  cases ev with
  | claim i t => exact hs.claim h
  | certify i rs => exact hs.certify h
  | commit i => exact hs.commit h
  | abort i => exact hs.abort

/-! ### The stores after an event -/

theorem value_certify (rs : List (κ × ν)) :
    value m (record s (.certify i rs)) = value m s := by
  induction s generalizing m with
  | nil => rfl
  | cons e s ih =>
      rw [record, List.map_cons]
      by_cases he : pendingOf i e = true
      · rw [if_pos he]
        exact ih
      · rw [if_neg he]
        exact ih

theorem value_abort : value m (record s (.abort i)) = value m s := by
  induction s generalizing m with
  | nil => rfl
  | cons e s ih =>
      by_cases he : pendingOf i e = true
      · rw [record, List.filter_cons_of_neg (by simp [he]), value]
        simp only [effect, (pendingOf_iff.mp he).2]
        exact ih
      · rw [record, List.filter_cons_of_pos (by simp [he])]
        exact ih

/-- **A commit writes over all that is there**, also over what later claims have committed: they
write other keys. -/
theorem Sound.value_commit (hs : Sound m s) {e : Entry ι κ ν} (he : e ∈ s)
    (hp : pendingOf i e = true) :
    value m (record s (.commit i)) = e.txn.apply (value m s) := by
  obtain ⟨howners, hdisjoint, -, -⟩ := hs
  induction s generalizing m with
  | nil => simp at he
  | cons e' s ih =>
      rw [record, List.map_cons]
      by_cases he' : pendingOf i e' = true
      · have hnone := notPending_of_owners howners he'
        obtain rfl : e = e' := by
          rcases List.mem_cons.mp he with rfl | hmem
          · rfl
          · rw [hnone e hmem] at hp
            cases hp
        obtain ⟨hkeys, -⟩ := List.pairwise_cons.mp hdisjoint
        have hc := (pendingOf_iff.mp hp).2
        rw [if_pos hp, map_eq_self hnone]
        funext k
        rw [value, value]
        simp only [effect, hc, if_true]
        by_cases hk : k ∈ e.txn.keys
        · rw [value_of_notMem fun e' he' => hkeys e' he' hc k hk]
          exact Txn.store_of_mem hk
        · rw [Txn.apply_of_notMem hk]
          exact value_congr (Txn.apply_of_notMem hk)
      · rw [if_neg he']
        have hmem : e ∈ s := by
          rcases List.mem_cons.mp he with rfl | hmem
          · exact absurd hp he'
          · exact hmem
        exact ih hmem howners.of_cons hdisjoint.of_cons

theorem view_eq_value (h : ∀ e ∈ s, pendingOf i e = false) : view m i s = value m s := by
  induction s generalizing m with
  | nil => rfl
  | cons e s ih =>
      rw [view, if_neg (by simp [h e]), value]
      exact ih fun e' he' => h e' (List.mem_cons_of_mem _ he')

theorem view_concat {e : Entry ι κ ν} (he : e.committed = false) :
    view m i (s ++ [e]) = view m i s := by
  induction s generalizing m with
  | nil =>
      simp only [List.nil_append, view, effect, he]
      simp
  | cons e' s ih =>
      simp only [List.cons_append, view]
      split
      · rfl
      · exact ih

theorem view_congr {k : κ} (h : m k = m' k) : view m i s k = view m' i s k := by
  induction s generalizing m m' with
  | nil => exact h
  | cons e s ih =>
      simp only [view]
      split
      · exact h
      · exact ih (effect_congr h)

/-- **The store at a claim changes only where another claim commits.** -/
theorem view_record {ev : Event ι κ ν} {k : κ}
    (hcommit : ∀ j, ev = .commit j → j ≠ i ∧ ∀ e ∈ s, pendingOf j e = true → k ∉ e.txn.keys)
    (habort : ∀ j, ev = .abort j → j ≠ i) : view m i (record s ev) k = view m i s k := by
  cases ev with
  | claim j t => exact congrFun (view_concat rfl) k
  | certify j rs =>
      induction s generalizing m with
      | nil => rfl
      | cons e s ih =>
          rw [record, List.map_cons]
          have htail : ∀ m, view m i (record s (.certify j rs)) k = view m i s k := fun m =>
            ih (by simp)
          by_cases hj : pendingOf j e = true
          · rw [if_pos hj]
            have hsame : pendingOf i { e with certified := rs ++ e.certified } = pendingOf i e := rfl
            by_cases hi : pendingOf i e = true
            · rw [view, view, if_pos (hsame.trans hi), if_pos hi]
            · rw [view, view, if_neg (by rw [hsame]; exact hi), if_neg hi]
              exact htail _
          · rw [if_neg hj]
            simp only [view]
            split
            · rfl
            · exact htail _
  | commit j =>
      obtain ⟨hne, hkeys⟩ := hcommit j rfl
      clear hcommit habort
      induction s generalizing m with
      | nil => rfl
      | cons e s ih =>
          rw [record, List.map_cons]
          have htail : ∀ m, view m i (record s (.commit j)) k = view m i s k := fun m =>
            ih fun e' he' => hkeys e' (List.mem_cons_of_mem _ he')
          by_cases hj : pendingOf j e = true
          · have hi : pendingOf i e = false := by
              rw [pendingOf_iff] at hj
              simp [pendingOf, hj.1, hne]
            rw [if_pos hj]
            simp only [view, hi]
            rw [if_neg (by simp [pendingOf]), if_neg (by simp)]
            refine (htail _).trans (view_congr ?_)
            rw [effect_of_notMem (hkeys e (by simp) hj)]
            exact effect_of_notMem (hkeys e (by simp) hj)
          · rw [if_neg hj]
            simp only [view]
            split
            · rfl
            · exact htail _
  | abort j =>
      have hne := habort j rfl
      clear hcommit habort
      induction s generalizing m with
      | nil => rfl
      | cons e s ih =>
          have htail : ∀ m, view m i (record s (.abort j)) k = view m i s k := fun m => ih
          by_cases hj : pendingOf j e = true
          · rw [pendingOf_iff] at hj
            rw [record, List.filter_cons_of_neg (by simp [pendingOf, hj]), view,
              if_neg (by simp [pendingOf, hj.1, hne])]
            simp only [effect, hj.2]
            exact htail m
          · rw [record, List.filter_cons_of_pos (by simp [hj])]
            simp only [view]
            split
            · rfl
            · exact htail _

/-- **Certified histories are serial.** -/
theorem serial_of_log {log : List (Event ι κ ν)}
    (h : Machine.EachAfter (fun l ev => Admissible m (ofLog l) ev) log) :
    Sound m (ofLog log) ∧ Txn.Serial m (committed (ofLog log)) := by
  have hsound : Sound m (ofLog log) := by
    induction log using List.reverseRecOn with
    | nil => exact Sound.nil
    | append_singleton l ev ih =>
        obtain ⟨hl, hev⟩ := Machine.eachAfter_concat.mp h
        rw [ofLog_concat]
        exact (ih hl).next hev
  exact ⟨hsound, hsound.serial⟩

end Keep

end Ledger

end TailBench.Lib
