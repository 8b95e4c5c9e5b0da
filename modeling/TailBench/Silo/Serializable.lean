import TailBench.Silo.ReadSets

set_option autoImplicit false

/-! # Silo is serializable

The events of a run keep the rules of the ledger, so that the transactions that have committed are
serial in the order in which they have got their ids: each has read what the ones before it have
left. What the ledger says is in the database at a key is its record in the tree, as soon as no
thread has still to write it (`Ledgered`, `silo_serializable`). This is about runs of the commit
protocol without garbage collection, snapshot transactions and range scans, with at most 512
threads.
-/

namespace TailBench.Silo.Proto2

open Lib Lib.Ledger

variable {n : Nat} {κ : Type*}

/-- Claimed and not decided. -/
def Pc.claimed : Pc κ → Bool
  | .validating _ _ _ | .nodes _ _ _ => true
  | _ => false

/-- What of a transaction is certified where its thread is. -/
def Certified (t : Transaction κ) (certified : List (κ × Option Bytes)) : Pc κ → Prop
  | .validating _ _ rest =>
      ∃ done, t.readSet = done ++ rest ∧ ∀ r ∈ done, (r.key, r.value) ∈ certified
  | .nodes _ _ rest =>
      (∀ r ∈ t.readSet, (r.key, r.value) ∈ certified)
        ∧ ∃ done, t.absentSet = done ++ rest
          ∧ ∀ e ∈ done, ∀ a ∈ t.absent, a.2 = e.1 → (a.1, none) ∈ certified
  | _ => False

/-- A pending entry is what its owner is doing. -/
structure Claim (s : State n κ) (e : Entry (Fin n) κ (Option Bytes)) : Prop where
  txn_eq : e.txn = (s.txn e.owner).claimed
  certified : Certified (s.txn e.owner) e.certified (s.pc e.owner)

/-- The empty database. -/
def blank : κ → Option Bytes := fun _ => none

/-- What a step is for the ledger. -/
inductive LedgerStep (s : State n κ) (i : Fin n) (s' : State n κ) :
    Option (Ledger.Event (Fin n) κ (Option Bytes)) → Prop
  | none (hpc : (s.pc i).claimed = false) (hpc' : (s'.pc i).claimed = false) : LedgerStep s i s' none
  | claim {tid : Option Nat} {infos : List (WriteInfo κ)} (hpc : (s.pc i).claimed = false)
      (hpc' : s'.pc i = .validating tid infos (s.txn i).readSet) (htxn : s'.txn = s.txn) :
      LedgerStep s i s' (some (.claim i (s.txn i).claimed))
  | turn {tid : Option Nat} {infos : List (WriteInfo κ)} (hpc : s.pc i = .validating tid infos [])
      (hpc' : s'.pc i = .nodes tid infos (s.txn i).absentSet) (htxn : s'.txn = s.txn) :
      LedgerStep s i s' none
  | read {tid : Option Nat} {infos : List (WriteInfo κ)} {r : ReadRecord κ}
      {rest : List (ReadRecord κ)} {x : Tuple (Fin n) κ}
      (hpc : s.pc i = .validating tid infos (r :: rest)) (hx : s.heap r.tuple = some x)
      (hlock : x.lockOwner = none ∨ ∃ w ∈ infos, w.tuple = r.tuple) (hlatest : x.latest = true)
      (hle : x.version ≤ r.tid) (hpc' : s'.pc i = .validating tid infos rest)
      (htxn : s'.txn = s.txn) : LedgerStep s i s' (some (.certify i [(r.key, r.value)]))
  | node {tid : Option Nat} {infos : List (WriteInfo κ)} {m : Node} {v : Nat}
      {rest : List (Node × Nat)} (hpc : s.pc i = .nodes tid infos ((m, v) :: rest))
      (hv : s.nodeVersion m = v) (hpc' : s'.pc i = .nodes tid infos rest) (htxn : s'.txn = s.txn) :
      LedgerStep s i s'
        (some (.certify i (((s.txn i).absent.filter (·.2 = m)).map fun e => (e.1, none))))
  | commitRead {infos : List (WriteInfo κ)} (hpc : s.pc i = .nodes none infos [])
      (hpc' : s'.pc i = .idle) : LedgerStep s i s' (some (.commit i))
  | commitWrite {tid : Nat} {infos : List (WriteInfo κ)} (hpc : s.pc i = .nodes (some tid) infos [])
      (hpc' : s'.pc i = .writing tid infos (s.txn i).writeSet) (htxn : s'.txn = s.txn) :
      LedgerStep s i s' (some (.commit i))
  | abort {infos : List (WriteInfo κ)} (hpc : (s.pc i).claimed = true)
      (hpc' : s'.pc i = .aborting infos) : LedgerStep s i s' (some (.abort i))

section Claims

variable {s : State n κ} {i j : Fin n}

/-- Who has claimed a key holds its tuple. -/
theorem Wf.claimed_held (hwf : Wf s) (hpc : (s.pc i).claimed = true) {k : κ}
    (hk : k ∈ (s.txn i).claimed.keys) :
    ∃ a x, s.index k = some a ∧ s.heap a = some x ∧ x.lockOwner = some i := by
  rw [Txn.keys, Transaction.claimed, writes_eq, map_fst_stores, List.mem_map] at hk
  obtain ⟨w, hw, rfl⟩ := hk
  have hth := hwf.thread i
  have hheld : ∃ tid infos, Whole (s.txn i) infos ∧ Locks s.heap i infos
      ∧ Claimed s.heap i (s.txn i) tid := by
    cases hp : s.pc i with
    | validating tid infos rest =>
        rw [hp] at hth
        exact ⟨tid, infos, hth.place.1, hth.locks, hth.place.2.2⟩
    | nodes tid infos rest =>
        rw [hp] at hth
        exact ⟨tid, infos, hth.place.1, hth.locks, hth.place.2.2⟩
    | _ =>
        rw [hp] at hpc
        cases hpc
  obtain ⟨tid, infos, hwhole, hlocks, hclaimed⟩ := hheld
  obtain ⟨x, hx, hown, hlatest⟩ := hclaimed.held w hw
  obtain ⟨y, hy, hkey⟩ := hwhole.key hlocks hw
  obtain rfl : y = x := Option.some.inj (hy.symm.trans hx)
  exact ⟨w.tuple, y, hkey ▸ hwf.indexed.index_eq _ y hx hlatest, hx, hown⟩

/-- Two threads have not claimed the same key. -/
theorem Wf.claimed_eq (hwf : Wf s) (hi : (s.pc i).claimed = true) (hj : (s.pc j).claimed = true)
    {k : κ} (hik : k ∈ (s.txn i).claimed.keys) (hjk : k ∈ (s.txn j).claimed.keys) : j = i := by
  obtain ⟨a, x, ha, hx, hown⟩ := hwf.claimed_held hi hik
  obtain ⟨b, y, hb, hy, hown'⟩ := hwf.claimed_held hj hjk
  obtain rfl : a = b := Option.some.inj (ha.symm.trans hb)
  obtain rfl : x = y := Option.some.inj (hx.symm.trans hy)
  exact Option.some.inj (hown'.symm.trans hown)

theorem Claim.claimed {e : Entry (Fin n) κ (Option Bytes)} (h : Claim s e) :
    (s.pc e.owner).claimed = true := by
  have hcert := h.certified
  cases hp : s.pc e.owner with
  | validating => rfl
  | nodes => rfl
  | _ =>
      rw [hp] at hcert
      exact hcert.elim

/-- The write set when all locks are held. -/
theorem Wf.nodes_writeSet (hwf : Wf s) {tid : Option Nat} {infos : List (WriteInfo κ)}
    {rest : List (Node × Nat)} (hpc : s.pc i = .nodes tid infos rest) :
    Marked (s.txn i).writeSet
      ∧ (∀ u ∈ (s.txn i).writeSet, ∀ w ∈ (s.txn i).writeSet, u.tuple = w.tuple → u.key = w.key)
      ∧ (tid = none → (s.txn i).writeSet = []) := by
  have hth := hwf.thread i
  rw [hpc] at hth
  obtain ⟨hwhole, -, hclaimed⟩ := hth.place
  refine ⟨hclaimed.marked, ?_, hclaimed.readOnly⟩
  intro u hu w hw heq
  obtain ⟨x, hx, hkey⟩ := hwhole.key hth.locks hu
  obtain ⟨y, hy, hkey'⟩ := hwhole.key hth.locks hw
  rw [← heq, hx] at hy
  obtain rfl := Option.some.inj hy
  exact hkey.symm.trans hkey'

end Claims

variable [DecidableEq κ]

/-- The tree has the values `V`, except for what is still to be written. -/
structure Stored (s : State n κ) (V : κ → Option Bytes) : Prop where
  done : ∀ k, s.Installed k → V k = s.record k
  todo : ∀ j k, k ∈ (s.pc j).todo.map Prod.fst → V k = Txn.store blank (s.pc j).todo k

/-- The ledger of a run agrees with its state. -/
structure Ledgered (s : State n κ) (l : List (Entry (Fin n) κ (Option Bytes))) : Prop where
  stored : Stored s (value blank l)
  entry : ∀ e ∈ l, e.committed = false → Claim s e
  pending : ∀ i, (s.pc i).claimed = true → ∃ e ∈ l, pendingOf i e = true
  reads : ∀ i, (s.pc i).undecided = true → ∀ r ∈ (s.txn i).readSet, Current s (view blank i l) r
  absences : ∀ i, (s.pc i).undecided = true → Absences s i (view blank i l)

/-! ## The events -/

section Events

variable {cfg : Config} {s s' : State n κ} {i j : Fin n} {act : Action n κ}

theorem TxnStep.ledger (h : TxnStep cfg s i act s') : LedgerStep s i s' (event s act s') := by
  cases h with
  | commitRead hpc hw =>
      rw [event, if_pos hw]
      exact .claim (by rw [hpc]; rfl) (Function.update_self ..) rfl
  | commitWrite hpc hw =>
      rw [event, if_neg hw]
      exact .none (by rw [hpc]; rfl) (by simp [Pc.claimed])
  | genCommitTid hpc htid => exact .claim (by rw [hpc]; rfl) (Function.update_self ..) rfl
  | validated hpc =>
      simp only [event, hpc, State.setPc_pc, Function.update_self]
      exact .turn hpc (Function.update_self ..) rfl
  | validateRead hpc hx hlock hlatest hle =>
      simp only [event, hpc, State.setPc_pc, Function.update_self]
      exact .read hpc hx hlock hlatest hle (Function.update_self ..) rfl
  | validateFailed hpc =>
      simp only [event, hpc, State.setPc_pc, Function.update_self]
      exact .abort (by rw [hpc]; rfl) (Function.update_self ..)
  | nodesRead hpc =>
      simp only [event, hpc]
      exact .commitRead hpc (Function.update_self ..)
  | nodesWrite hpc =>
      simp only [event, hpc]
      exact .commitWrite hpc (Function.update_self ..) rfl
  | nodeSame hpc hv =>
      simp only [event, hpc, State.setPc_pc, Function.update_self]
      exact .node hpc hv (Function.update_self ..) rfl
  | nodeChanged hpc =>
      simp only [event, hpc, State.setPc_pc, Function.update_self]
      exact .abort (by rw [hpc]; rfl) (Function.update_self ..)
  | absentNew hpc hk hm => exact .none (by rw [hpc]; rfl) (by simp [hpc, Pc.claimed])
  | absentSame hpc hk he => exact .none (by rw [hpc]; rfl) (by simp [hpc, Pc.claimed])
  | _ => exact .none (by simp [Pc.claimed, *]) (by simp [State.abortImpl, Pc.claimed])

variable {l : List (Entry (Fin n) κ (Option Bytes))}

/-- Of the pending claims at a key whose tuple is not another thread's there is at most the own. -/
theorem Ledgered.pending_owner (hl : Ledgered s l) (hwf : Wf s) {k : κ}
    (hk : ∀ a x, s.index k = some a → s.heap a = some x → ∀ j, x.lockOwner = some j → j = i) :
    ∀ e ∈ l, e.committed = false → e.owner = i ∨ k ∉ e.txn.keys := by
  intro e he hc
  have hclaim := hl.entry e he hc
  by_cases hmem : k ∈ e.txn.keys
  · rw [hclaim.txn_eq] at hmem
    obtain ⟨a, x, ha, hx, hown⟩ := hwf.claimed_held hclaim.claimed hmem
    exact .inl (hk a x ha hx _ hown)
  · exact .inr hmem

/-- At the end of the loops all reads are certified. -/
theorem Ledgered.complete (hl : Ledgered s l) {tid : Option Nat} {infos : List (WriteInfo κ)}
    (hpc : s.pc i = .nodes tid infos []) : Admissible blank l (.commit i) := by
  intro e he hp r hr
  rw [pendingOf_iff] at hp
  obtain ⟨rfl, hc⟩ := hp
  obtain ⟨htxn, hcert⟩ := hl.entry e he hc
  rw [hpc] at hcert
  obtain ⟨hreads, done, hdone, hnodes⟩ := hcert
  rw [htxn] at hr
  rcases List.mem_append.mp hr with hr | hr
  · obtain ⟨r', hr', rfl⟩ := List.mem_map.mp hr
    exact hreads r' hr'
  · obtain ⟨a, ha, rfl⟩ := List.mem_map.mp hr
    have hund : (s.pc e.owner).undecided = true := by rw [hpc]; rfl
    obtain ⟨e', he', heq⟩ := (hl.absences _ hund).covered a ha
    rw [hdone, List.append_nil] at he'
    exact hnodes e' he' a ha heq.symm

/-- **Every event of a step is admissible.** -/
theorem Ledgered.admissible (hl : Ledgered s l) (hwf : Wf s) (hwf' : Wf s') (hseen : SeenWf s)
    (h : TxnStep cfg s i act s') {ev : Ledger.Event (Fin n) κ (Option Bytes)}
    (hev : event s act s' = some ev) : Admissible blank l ev := by
  have hstep := h.ledger
  rw [hev] at hstep
  have hth := hwf.thread i
  cases hstep with
  | @claim tid infos hpc hpc' htxn =>
      intro e he hc
      have hclaim := hl.entry e he hc
      have hne : e.owner ≠ i := by
        intro heq
        rw [← heq, hclaim.claimed] at hpc
        cases hpc
      refine ⟨hne, fun k hk hk' => hne ?_⟩
      have hcl : (s'.pc e.owner).claimed = true := by
        rw [(h.others hne).1]
        exact hclaim.claimed
      rw [hclaim.txn_eq, ← htxn] at hk
      rw [← htxn] at hk'
      exact hwf'.claimed_eq (by rw [hpc']; rfl) hcl hk' hk
  | @read tid infos r rest x hpc hx hlock hlatest hle hpc' htxn =>
      rw [hpc] at hth
      obtain ⟨hwhole, -, hclaimed⟩ := hth.place
      have hund : (s.pc i).undecided = true := by rw [hpc]; rfl
      have hr : r ∈ (s.txn i).readSet := by
        obtain ⟨e, he, hp⟩ := hl.pending i (by rw [hpc]; rfl)
        rw [pendingOf_iff] at hp
        have hcert := (hl.entry e he hp.2).certified
        rw [hp.1, hpc] at hcert
        obtain ⟨done, hdone, -⟩ := hcert
        simp [hdone]
      obtain ⟨y, hy, hkey, -⟩ := (hseen i r hr).tuple
      obtain rfl : y = x := Option.some.inj (hy.symm.trans hx)
      -- the tuple read is the tuple of the key, and nobody else has it
      have hmine : ∀ a z, s.index r.key = some a → s.heap a = some z → ∀ j, z.lockOwner = some j →
          j = i := by
        intro a z ha hz j hown
        rw [← hkey, hwf.indexed.index_eq _ y hx hlatest] at ha
        obtain rfl := Option.some.inj ha
        obtain rfl : z = y := Option.some.inj (hz.symm.trans hx)
        rcases hlock with hnone | ⟨w, hw, hwt⟩
        · rw [hnone] at hown
          cases hown
        · obtain ⟨u, hu, hut, -⟩ := hwhole.infosOf.mem w hw
          obtain ⟨z', hz', hown', -⟩ := hclaimed.held u (List.mem_of_getElem? hu)
          rw [hut, hwt, hx] at hz'
          obtain rfl := Option.some.inj hz'
          exact Option.some.inj (hown.symm.trans hown')
      intro r' hr'
      obtain rfl := List.mem_singleton.mp hr'
      refine ⟨hl.pending_owner hwf hmine, ?_⟩
      refine hl.reads i hund r hr y hx hlatest hle (hwf.installed fun a z ha hz j hown => ?_)
      rw [hmine a z ha hz j hown]
      exact todo_of_undecided hund
  | @node tid infos m v rest hpc hv hpc' htxn =>
      have hund : (s.pc i).undecided = true := by rw [hpc]; rfl
      have hmem : (m, s.nodeVersion m) ∈ (s.txn i).absentSet := by
        obtain ⟨e, he, hp⟩ := hl.pending i (by rw [hpc]; rfl)
        rw [pendingOf_iff] at hp
        have hcert := (hl.entry e he hp.2).certified
        rw [hp.1, hpc] at hcert
        obtain ⟨-, done, hdone, -⟩ := hcert
        simp [hdone, hv]
      have habs := hl.absences i hund
      intro r hr
      obtain ⟨a, ha, rfl⟩ := List.mem_map.mp hr
      rw [List.mem_filter, decide_eq_true_eq] at ha
      obtain ⟨ha, rfl⟩ := ha
      refine ⟨hl.pending_owner hwf fun b x hb hx j hown => ?_, habs.current a ha hmem⟩
      obtain ⟨y, hy, hown', -⟩ := habs.absent a ha hmem b hb
      obtain rfl : y = x := Option.some.inj (hy.symm.trans hx)
      exact Option.some.inj (hown.symm.trans hown')
  | commitRead hpc hpc' => exact hl.complete hpc
  | commitWrite hpc hpc' htxn => exact hl.complete hpc
  | abort hpc hpc' => trivial

end Events

/-! ## The values -/

section Values

variable {cfg : Config} {s s' : State n κ} {i j : Fin n} {act : Action n κ} {V : κ → Option Bytes}

theorem Stored.same (hst : Stored s V) (hrecord : s'.record = s.record)
    (htodo : ∀ j, (s'.pc j).todo = (s.pc j).todo) : Stored s' V := by
  refine ⟨fun k hk => ?_, fun j k hk => ?_⟩
  · rw [hrecord]
    exact hst.done k fun j => htodo j ▸ hk j
  · rw [htodo] at hk ⊢
    exact hst.todo j k hk

/-- An entry is written. -/
theorem Stored.write (hst : Stored s V) (h : TxnStep cfg s i act s') {tid : Nat}
    {w : WriteRecord κ} {rest : List (WriteRecord κ)} (hw : WriteStep s i s' tid w rest) :
    Stored s' V := by
  obtain ⟨infos, hpc, hpc'⟩ := hw.place
  have htodo : (s.pc i).todo = (w.key, w.value) :: (s'.pc i).todo := by
    rw [hpc, hpc', Pc.todo, Pc.todo, List.filter_cons_of_pos hw.doWrite]
    rfl
  refine ⟨fun k hk => ?_, fun j k hk => ?_⟩
  · rw [hw.record_eq]
    by_cases hkey : k = w.key
    · subst hkey
      rw [hst.todo i w.key (by simp [htodo]), htodo, Txn.store_cons, Txn.store_of_notMem (hk i),
        Function.update_self, Function.update_self]
    · rw [Function.update_of_ne hkey]
      refine hst.done k fun j => ?_
      by_cases hj : j = i
      · subst hj
        rw [htodo, List.map_cons, List.mem_cons, not_or]
        exact ⟨hkey, hk j⟩
      · rw [← (h.others hj).1]
        exact hk j
  · by_cases hj : j = i
    · subst hj
      rw [hst.todo j k (by simp [htodo, hk]), htodo, Txn.store_cons]
      exact Txn.store_of_mem hk
    · rw [(h.others hj).1] at hk ⊢
      exact hst.todo j k hk

/-- A thread decides. -/
theorem Stored.commit (hst : Stored s V) (h : TxnStep cfg s i act s') (hwf' : Wf s')
    {ws : List (WriteRecord κ)} (hrecord : s'.record = s.record) (hnone : (s.pc i).todo = [])
    (htodo : (s'.pc i).todo = stores (ws.filter (·.doWrite)))
    (hmarked : ∀ m, Txn.store m (stores (ws.filter (·.doWrite))) = Txn.store m (stores ws)) :
    Stored s' (Txn.store V (stores ws)) := by
  rw [← hmarked, ← htodo]
  refine ⟨fun k hk => ?_, fun j k hk => ?_⟩
  · rw [Txn.store_of_notMem (hk i), hrecord]
    refine hst.done k fun j => ?_
    by_cases hj : j = i
    · subst hj
      simp [hnone]
    · rw [← (h.others hj).1]
      exact hk j
  · by_cases hj : j = i
    · subst hj
      exact Txn.store_of_mem hk
    · have hother : k ∉ (s'.pc i).todo.map Prod.fst := by
        intro hk'
        obtain ⟨a, x, ha, hx, hown⟩ := hwf'.todo_held hk
        obtain ⟨b, y, hb, hy, hown'⟩ := hwf'.todo_held hk'
        obtain rfl : a = b := Option.some.inj (ha.symm.trans hb)
        obtain rfl : x = y := Option.some.inj (hx.symm.trans hy)
        exact hj (Option.some.inj (hown.symm.trans hown'))
      rw [Txn.store_of_notMem hother]
      rw [(h.others hj).1] at hk ⊢
      exact hst.todo j k hk

end Values

/-! ## The ledger after a step -/

section Next

variable {cfg : Config} {s s' : State n κ} {i j : Fin n} {act : Action n κ}
  {l : List (Entry (Fin n) κ (Option Bytes))} {ev : Option (Ledger.Event (Fin n) κ (Option Bytes))}

theorem Claim.other {e : Entry (Fin n) κ (Option Bytes)} (hc : Claim s e) (hne : e.owner ≠ i)
    (h : TxnStep cfg s i act s') : Claim s' e := by
  obtain ⟨hpc, htxn⟩ := h.others hne
  refine ⟨?_, ?_⟩
  · rw [htxn]
    exact hc.txn_eq
  · rw [htxn, hpc]
    exact hc.certified

/-- The claim of the thread itself, with more certified. -/
theorem Ledgered.entry_certify (hl : Ledgered s l) (h : TxnStep cfg s i act s')
    (htxn : s'.txn = s.txn) (rs : List (κ × Option Bytes))
    (hcert : ∀ cs, Certified (s.txn i) cs (s.pc i) → Certified (s.txn i) (rs ++ cs) (s'.pc i)) :
    ∀ e ∈ record l (.certify i rs), e.committed = false → Claim s' e := by
  intro e' he' hc
  obtain ⟨e, he, rfl⟩ := List.mem_map.mp he'
  by_cases hp : pendingOf i e = true
  · rw [if_pos hp]
    rw [pendingOf_iff] at hp
    obtain ⟨rfl, hpend⟩ := hp
    obtain ⟨htxn', hcert'⟩ := hl.entry e he hpend
    refine ⟨?_, ?_⟩
    · rw [htxn]
      exact htxn'
    · rw [htxn]
      exact hcert _ hcert'
  · rw [if_neg hp] at hc ⊢
    refine (hl.entry e he hc).other (fun heq => hp ?_) h
    exact pendingOf_iff.mpr ⟨heq, hc⟩

/-- A commit closes the claim of the thread. -/
theorem Ledgered.entry_commit (hl : Ledgered s l) (h : TxnStep cfg s i act s') :
    ∀ e ∈ record l (.commit i), e.committed = false → Claim s' e := by
  intro e' he' hc
  obtain ⟨e, he, rfl⟩ := List.mem_map.mp he'
  by_cases hp : pendingOf i e = true
  · rw [if_pos hp] at hc
    cases hc
  · rw [if_neg hp] at hc ⊢
    refine (hl.entry e he hc).other (fun heq => hp ?_) h
    exact pendingOf_iff.mpr ⟨heq, hc⟩

theorem Ledgered.entry_step (hl : Ledgered s l) (h : TxnStep cfg s i act s')
    (hstep : LedgerStep s i s' ev) :
    ∀ e ∈ ev.toList.foldl record l, e.committed = false → Claim s' e := by
  have hother : (s.pc i).claimed = false → ∀ e ∈ l, e.committed = false → Claim s' e := by
    intro hpc e he hc
    have hclaim := hl.entry e he hc
    refine hclaim.other (fun heq => ?_) h
    rw [← heq, hclaim.claimed] at hpc
    cases hpc
  cases hstep with
  | none hpc hpc' => exact hother hpc
  | claim hpc hpc' htxn =>
      intro e he hc
      rcases List.mem_append.mp he with he | he
      · exact hother hpc e he hc
      · obtain rfl := List.mem_singleton.mp he
        refine ⟨by rw [htxn], ?_⟩
        rw [hpc', htxn]
        exact ⟨[], rfl, by simp⟩
  | turn hpc hpc' htxn =>
      intro e he hc
      by_cases hne : e.owner = i
      · obtain ⟨htxn', hcert⟩ := hl.entry e he hc
        rw [hne, hpc] at hcert
        obtain ⟨done, hdone, hreads⟩ := hcert
        rw [List.append_nil] at hdone
        refine ⟨by rw [htxn]; exact htxn', ?_⟩
        rw [hne, hpc', htxn]
        exact ⟨hdone ▸ hreads, [], rfl, by simp⟩
      · exact (hl.entry e he hc).other hne h
  | @read tid infos r rest x hpc hx hlock hlatest hle hpc' htxn =>
      refine hl.entry_certify h htxn _ fun cs hcert => ?_
      rw [hpc] at hcert
      rw [hpc']
      obtain ⟨done, hdone, hreads⟩ := hcert
      refine ⟨done ++ [r], by simp [hdone], ?_⟩
      intro r' hr'
      rcases List.mem_append.mp hr' with hr' | hr'
      · exact List.mem_append_right _ (hreads r' hr')
      · obtain rfl := List.mem_singleton.mp hr'
        simp
  | @node tid infos m v rest hpc hv hpc' htxn =>
      refine hl.entry_certify h htxn _ fun cs hcert => ?_
      rw [hpc] at hcert
      rw [hpc']
      obtain ⟨hreads, done, hdone, hnodes⟩ := hcert
      refine ⟨fun r hr => List.mem_append_right _ (hreads r hr), done ++ [(m, v)], by simp [hdone],
        ?_⟩
      intro e' he' a ha heq
      rcases List.mem_append.mp he' with he' | he'
      · exact List.mem_append_right _ (hnodes e' he' a ha heq)
      · obtain rfl := List.mem_singleton.mp he'
        refine List.mem_append_left _ (List.mem_map.mpr ⟨a, List.mem_filter.mpr ⟨ha, ?_⟩, rfl⟩)
        simpa using heq
  | commitRead hpc hpc' => exact hl.entry_commit h
  | commitWrite hpc hpc' htxn => exact hl.entry_commit h
  | abort hpc hpc' =>
      intro e he hc
      obtain ⟨he, hp⟩ := List.mem_filter.mp he
      refine (hl.entry e he hc).other (fun heq => ?_) h
      rw [pendingOf_iff.mpr ⟨heq, hc⟩] at hp
      cases hp

/-- The claims of other threads stay pending. -/
theorem Ledgered.pending_other (hl : Ledgered s l) (h : TxnStep cfg s i act s') (hj : j ≠ i)
    (hpc : (s'.pc j).claimed = true) : ∃ e ∈ l, pendingOf j e = true ∧ pendingOf i e = false := by
  rw [(h.others hj).1] at hpc
  obtain ⟨e, he, hp⟩ := hl.pending j hpc
  refine ⟨e, he, hp, ?_⟩
  rw [pendingOf_iff] at hp
  rw [pendingOf, hp.1, hp.2]
  simp [hj]

theorem Ledgered.pending_step (hl : Ledgered s l) (h : TxnStep cfg s i act s')
    (hstep : LedgerStep s i s' ev) (hpc : (s'.pc j).claimed = true) :
    ∃ e ∈ ev.toList.foldl record l, pendingOf j e = true := by
  have hcertify : ∀ rs, (∃ e ∈ l, pendingOf j e = true) →
      ∃ e ∈ record l (.certify i rs), pendingOf j e = true := by
    rintro rs ⟨e, he, hp⟩
    refine ⟨_, List.mem_map_of_mem he, ?_⟩
    split <;> exact hp
  by_cases hj : j = i
  · subst hj
    cases hstep with
    | none hpc₀ hpc' =>
        rw [hpc'] at hpc
        cases hpc
    | claim hpc₀ hpc' htxn =>
        exact ⟨⟨j, (s.txn j).claimed, [], false⟩, List.mem_append_right _ (by simp),
          by simp [pendingOf]⟩
    | turn hpc₀ hpc' htxn => exact hl.pending j (by rw [hpc₀]; rfl)
    | read hpc₀ hx hlock hlatest hle hpc' htxn =>
        exact hcertify _ (hl.pending j (by rw [hpc₀]; rfl))
    | node hpc₀ hv hpc' htxn => exact hcertify _ (hl.pending j (by rw [hpc₀]; rfl))
    | commitRead hpc₀ hpc' =>
        rw [hpc'] at hpc
        cases hpc
    | commitWrite hpc₀ hpc' htxn =>
        rw [hpc'] at hpc
        cases hpc
    | abort hpc₀ hpc' =>
        rw [hpc'] at hpc
        cases hpc
  · obtain ⟨e, he, hp, hnot⟩ := hl.pending_other h hj hpc
    cases hstep with
    | none => exact ⟨e, he, hp⟩
    | claim => exact ⟨e, List.mem_append_left _ he, hp⟩
    | turn => exact ⟨e, he, hp⟩
    | read => exact hcertify _ ⟨e, he, hp⟩
    | node => exact hcertify _ ⟨e, he, hp⟩
    | commitRead => exact ⟨e, List.mem_map.mpr ⟨e, he, by simp [hnot]⟩, hp⟩
    | commitWrite => exact ⟨e, List.mem_map.mpr ⟨e, he, by simp [hnot]⟩, hp⟩
    | abort => exact ⟨e, List.mem_filter.mpr ⟨he, by simp [hnot]⟩, hp⟩

/-- The keys of a claim that commits. -/
theorem Ledgered.keys_of_pending (hl : Ledgered s l) {e : Entry (Fin n) κ (Option Bytes)}
    (he : e ∈ l) (hp : pendingOf i e = true) : e.txn = (s.txn i).claimed := by
  rw [pendingOf_iff] at hp
  obtain ⟨rfl, hc⟩ := hp
  exact (hl.entry e he hc).txn_eq

/-- **The store at a claim changes only at keys that are to be written.** -/
theorem Ledgered.view_step (hl : Ledgered s l) (hwf : Wf s) (hstep : LedgerStep s i s' ev)
    (hj : (s'.pc j).undecided = true) {k : κ} (hk : s'.Installed k) :
    view blank j (ev.toList.foldl record l) k = view blank j l k := by
  have hne : ∀ {p : Pc κ}, s'.pc i = p → p.undecided = false → i ≠ j := by
    rintro p hp hund rfl
    rw [hp, hund] at hj
    cases hj
  cases hstep with
  | none => rfl
  | turn => rfl
  | claim =>
      change view blank j (record l (.claim _ _)) k = _
      exact view_record (by simp) (by simp)
  | read =>
      change view blank j (record l (.certify _ _)) k = _
      exact view_record (by simp) (by simp)
  | node =>
      change view blank j (record l (.certify _ _)) k = _
      exact view_record (by simp) (by simp)
  | commitRead hpc hpc' =>
      change view blank j (record l (.commit i)) k = _
      refine view_record ?_ (by simp)
      rintro _ ⟨⟩
      refine ⟨hne hpc' rfl, fun e he hp => ?_⟩
      rw [hl.keys_of_pending he hp, Txn.keys, Transaction.claimed, writes_eq,
        (hwf.nodes_writeSet hpc).2.2 rfl]
      simp [stores]
  | commitWrite hpc hpc' htxn =>
      change view blank j (record l (.commit i)) k = _
      refine view_record ?_ (by simp)
      rintro _ ⟨⟩
      refine ⟨hne hpc' rfl, fun e he hp hmem => hk i ?_⟩
      rw [hl.keys_of_pending he hp, Txn.keys, Transaction.claimed, writes_eq] at hmem
      obtain ⟨hmarked, hkeys, -⟩ := hwf.nodes_writeSet hpc
      rw [hpc']
      exact mem_filter_doWrite hmarked hkeys hmem
  | abort hpc hpc' =>
      change view blank j (record l (.abort i)) k = _
      refine view_record (by simp) ?_
      rintro _ ⟨⟩
      exact hne hpc' rfl

theorem Ledgered.value_commit (hl : Ledgered s l) (hs : Sound blank l) {tid : Option Nat}
    {infos : List (WriteInfo κ)} (hpc : s.pc i = .nodes tid infos []) :
    value blank (record l (.commit i))
      = Txn.store (value blank l) (stores (s.txn i).writeSet) := by
  obtain ⟨e, he, hp⟩ := hl.pending i (by rw [hpc]; rfl)
  rw [hs.value_commit he hp, hl.keys_of_pending he hp]
  rfl

theorem Ledgered.stored_step (hl : Ledgered s l) (hs : Sound blank l) (hwf : Wf s) (hwf' : Wf s')
    (htids : TidsWf s) (hvalues : ValuesWf s) (h : TxnStep cfg s i act s')
    (hstep : LedgerStep s i s' ev) : Stored s' (value blank (ev.toList.foldl record l)) := by
  have hst := hl.stored
  have htodo : (s'.pc i).todo = (s.pc i).todo → ∀ j, (s'.pc j).todo = (s.pc j).todo := by
    intro hi j
    by_cases hj : j = i
    · rw [hj, hi]
    · rw [(h.others hj).1]
  have hwrites := h.writes hwf htids hvalues
  have hkeep : (∀ tid infos, s.pc i = .nodes (some tid) infos [] →
      s'.pc i = .writing tid infos (s.txn i).writeSet → False) → Stored s' (value blank l) := by
    intro hno
    rcases hwrites with ⟨tid, w, rest, hw⟩ | ⟨hrecord, hsame | ⟨tid, infos, hpc, hpc'⟩⟩
    · exact hst.write h hw
    · exact hst.same hrecord (htodo hsame)
    · exact (hno tid infos hpc hpc').elim
  cases hstep with
  | none hpc hpc' =>
      refine hkeep fun tid infos hpc₁ _ => ?_
      rw [hpc₁] at hpc
      cases hpc
  | claim hpc hpc' htxn =>
      change Stored s' (value blank (record l (.claim _ _)))
      rw [record, value_concat rfl]
      refine hkeep fun tid infos hpc₁ _ => ?_
      rw [hpc₁] at hpc
      cases hpc
  | turn hpc hpc' htxn =>
      refine hkeep fun tid infos hpc₁ _ => ?_
      rw [hpc₁] at hpc
      cases hpc
  | read hpc hx hlock hlatest hle hpc' htxn =>
      change Stored s' (value blank (record l (.certify _ _)))
      rw [value_certify]
      refine hkeep fun tid infos hpc₁ _ => ?_
      rw [hpc₁] at hpc
      cases hpc
  | node hpc hv hpc' htxn =>
      change Stored s' (value blank (record l (.certify _ _)))
      rw [value_certify]
      refine hkeep fun tid infos hpc₁ _ => ?_
      rw [hpc₁] at hpc
      cases hpc
  | commitRead hpc hpc' =>
      change Stored s' (value blank (record l (.commit i)))
      rw [hl.value_commit hs hpc, (hwf.nodes_writeSet hpc).2.2 rfl]
      refine hkeep fun tid infos hpc₁ _ => ?_
      rw [hpc₁] at hpc
      cases hpc
  | commitWrite hpc hpc' htxn =>
      change Stored s' (value blank (record l (.commit i)))
      rw [hl.value_commit hs hpc]
      obtain ⟨hmarked, hkeys, -⟩ := hwf.nodes_writeSet hpc
      refine hst.commit h hwf' ?_ (by rw [hpc]; rfl) (by rw [hpc']; rfl)
        (store_filter_doWrite hmarked hkeys)
      rcases hwrites with ⟨tid, w, rest, hw⟩ | ⟨hrecord, -⟩
      · obtain ⟨infos, hpc₁, -⟩ := hw.place
        rw [hpc] at hpc₁
        cases hpc₁
      · exact hrecord
  | abort hpc hpc' =>
      change Stored s' (value blank (record l (.abort i)))
      rw [value_abort]
      refine hkeep fun tid infos _ hpc₁ => ?_
      rw [hpc₁] at hpc'
      cases hpc'

theorem TxnStep.undecided (h : TxnStep cfg s i act s') (hpc : (s'.pc i).undecided = true) :
    (s.pc i).undecided = true ∨ (s'.txn i).readSet = [] := by
  cases h with
  | begin => exact .inr (by simp)
  | absentNew hpc₀ => exact .inl (by rw [hpc₀]; rfl)
  | absentSame hpc₀ => exact .inl (by rw [hpc₀]; rfl)
  | _ => first
    | (simp [State.abortImpl, Pc.undecided] at hpc; done)
    | (left; simp [Pc.undecided, *])

/-- A thread that has claimed nothing sees all that has committed. -/
theorem Ledgered.view_eq (hl : Ledgered s l) (hpc : (s.pc i).claimed = false) :
    view blank i l = value blank l := by
  refine view_eq_value fun e he => ?_
  by_contra hp
  rw [Bool.not_eq_false, pendingOf_iff] at hp
  have hclaim := hl.entry e he hp.2
  rw [← hp.1, hclaim.claimed] at hpc
  cases hpc

theorem Ledgered.step (hl : Ledgered s l) (hs : Sound blank l) (hwf : Wf s) (hwf' : Wf s')
    (htids : TidsWf s) (hvalues : ValuesWf s) (hseen : SeenWf s) (h : TxnStep cfg s i act s') :
    Ledgered s' ((event s act s').toList.foldl record l) := by
  have hstep := h.ledger
  have hview := fun {j} (hj : (s'.pc j).undecided = true) {k : κ} (hk : s'.Installed k) =>
    hl.view_step hwf hstep hj hk
  refine ⟨hl.stored_step hs hwf hwf' htids hvalues h hstep, hl.entry_step h hstep,
    fun j hj => hl.pending_step h hstep hj, ?_, ?_⟩
  · intro j hj r hr
    by_cases hji : j = i
    · subst hji
      have hr₀ := hr
      rcases h.readSet hr with hr | ⟨hnew, -, -⟩
      · rcases h.undecided hj with hund | hnil
        · exact (hl.reads j hund r hr).step (hseen j r hr) hwf htids hvalues h (hview hj)
        · rw [hnil] at hr₀
          cases hr₀
      · have hpc : (s.pc j).claimed = false := by
          cases hnew with
          | marker hpc => rw [hpc]; rfl
          | tuple hpc => rw [hpc]; rfl
        refine Current.step (Current.of_newRead hwf hnew fun k hk => ?_)
          (Seen.of_newRead hwf htids hnew) hwf htids hvalues h (hview hj)
        rw [hl.view_eq hpc]
        exact hl.stored.done k hk
    · obtain ⟨hpc, htxn⟩ := h.others hji
      rw [htxn] at hr
      exact (hl.reads j (hpc ▸ hj) r hr).step (hseen j r hr) hwf htids hvalues h (hview hj)
  · intro j hj
    by_cases hji : j = i
    · subst hji
      refine Absences.own (hl.absences j) hwf hwf' h hj ?_ fun k hk => hview hj hk
      intro hpc k hk
      rw [hl.view_eq (by rw [hpc]; rfl)]
      exact hl.stored.done k hk
    · exact (hl.absences j ((h.others hji).1 ▸ hj)).other hji hwf hwf' ((h.others hji).1 ▸ hj) h
        fun k hk => hview hj hk

theorem Ledgered.next (hl : Ledgered s l) (hs : Sound blank l) (hwf : Wf s) (hwf' : Wf s')
    (htids : TidsWf s) (hvalues : ValuesWf s) (hseen : SeenWf s) (hok : Allowed s act)
    (h : State.next cfg act s = some s') :
    Ledgered s' ((event s act s').toList.foldl record l)
      ∧ ∀ ev, event s act s' = some ev → Admissible blank l ev := by
  cases hi : act.thread with
  | some i =>
      have hstep := TxnStep.of_next h hi
      exact ⟨hl.step hs hwf hwf' htids hvalues hseen hstep,
        fun ev hev => hl.admissible hwf hwf' hseen hstep hev⟩
  | none =>
      cases act with
      | tick =>
          obtain rfl := Option.some.inj h
          exact ⟨⟨hl.stored.same rfl fun _ => rfl,
            fun e he hc => ⟨(hl.entry e he hc).txn_eq, (hl.entry e he hc).certified⟩, hl.pending,
            hl.reads, fun j hj => ⟨(hl.absences j hj).covered, (hl.absences j hj).le,
              (hl.absences j hj).leaf, (hl.absences j hj).absent, (hl.absences j hj).current⟩⟩,
            by simp [event]⟩
      | reshape leaf nodeVersion =>
          obtain rfl := Option.some.inj h
          exact ⟨⟨hl.stored.same rfl fun _ => rfl,
            fun e he hc => ⟨(hl.entry e he hc).txn_eq, (hl.entry e he hc).certified⟩, hl.pending,
            hl.reads, fun j hj => (hl.absences j hj).reshape hwf hj hok⟩, by simp [event]⟩
      | _ => cases hi

end Next

/-! ## Every run -/

section Runs

variable {cfg : Config}

theorem Ledgered.init {s : State n κ} (h : (silo n κ cfg).init s) : Ledgered s [] := by
  obtain ⟨hheap, hindex, -, hpc, htxn, -⟩ := h
  refine ⟨⟨?_, ?_⟩, by simp, ?_, ?_, ?_⟩
  · intro k _
    rw [State.record, hindex]
    exact (records_of_none rfl).symm
  · intro j k hk
    rw [hpc] at hk
    simp [Pc.todo] at hk
  · intro i hi
    rw [hpc] at hi
    cases hi
  · intro i hi
    rw [hpc] at hi
    cases hi
  · intro i hi
    rw [hpc] at hi
    cases hi

/-- The ledger of every run agrees with its state, and its events are admissible. -/
theorem silo_ledgered (hn : n ≤ 2 ^ Tid.coreBits)
    {x : State n κ × List (Ledger.Event (Fin n) κ (Option Bytes))}
    (h : ((silo n κ cfg).logged event).ReachableBy (fun x => Allowed x.1) x) :
    Ledgered x.1 (ofLog x.2) ∧ Machine.EachAfter (fun l ev => Admissible blank (ofLog l) ev) x.2 := by
  refine h.invariant (P := fun x => Ledgered x.1 (ofLog x.2)
    ∧ Machine.EachAfter (fun l ev => Admissible blank (ofLog l) ev) x.2) ?_ ?_
  · rintro ⟨s, log⟩ ⟨hi, rfl⟩
    exact ⟨Ledgered.init hi, .nil⟩
  · intro x act y hr hP hok hnext
    obtain ⟨hl, hlog⟩ := hP
    obtain ⟨hnext, hy⟩ := Machine.logged_next.mp hnext
    have hreach := hr.of_logged
    have hwf := silo_wf hreach.reachable
    obtain ⟨hl', hadm⟩ := hl.next (serial_of_log hlog).1 hwf (hwf.next hnext) (silo_tids hn hreach)
      (silo_values hreach.reachable) (silo_seen hn hreach) hok hnext
    rw [hy]
    refine ⟨?_, hlog.append_toList hadm⟩
    rw [ofLog, List.foldl_append]
    exact hl'

/-- **Every run that is `Allowed` is serializable**: each transaction that has committed has read
what the ones before it in the ledger have left, and the tree has what they have all left together,
except for keys that a thread has still to write. -/
theorem silo_serializable (hn : n ≤ 2 ^ Tid.coreBits)
    {x : State n κ × List (Ledger.Event (Fin n) κ (Option Bytes))}
    (h : ((silo n κ cfg).logged event).ReachableBy (fun x => Allowed x.1) x) :
    Txn.Serial blank (committed (ofLog x.2))
      ∧ ∀ k, x.1.Installed k → Txn.replay blank (committed (ofLog x.2)) k = x.1.record k := by
  obtain ⟨hl, hlog⟩ := silo_ledgered hn h
  refine ⟨(serial_of_log hlog).2, fun k hk => ?_⟩
  rw [← value_eq_replay]
  exact hl.stored.done k hk

/-- One thread inserts a key, another one begins before it is done, reads the key with the new
value and one that is absent, and writes it. -/
theorem silo_serializable_run :
    ∃ x : State 2 Nat × List (Ledger.Event (Fin 2) Nat (Option Bytes)),
      committed (ofLog x.2) = [⟨[], [(7, some [1])]⟩,
        ⟨[(7, some [1]), (9, none)], [(7, some [2])]⟩]
      ∧ Txn.Serial blank (committed (ofLog x.2))
      ∧ ∀ k, x.1.Installed k → Txn.replay blank (committed (ofLog x.2)) k = x.1.record k := by
  obtain ⟨x, hx, hlog⟩ := Machine.Reachable.exists_of_exec
    (M := ((silo 2 Nat {}).logged event).guard fun x => plain x.1)
    (P := fun x => committed (ofLog x.2) = [⟨[], [(7, some [1])]⟩,
      ⟨[(7, some [1]), (9, none)], [(7, some [2])]⟩])
    (s := (start 2 Nat, []))
    (insertSteps 0 7 [1] 100 ++ [.begin 1, .get 1 7, .validate 0 false, .validateNode 0,
      .write 0 0, .write 0 0, .unlock 0, .read 1, .unlock 0, .get 1 9, .put 1 7 (some [2]) false,
      .search 1, .commit 1, .lock 1, .genCommitTid 1, .validate 1 false, .validate 1 false,
      .validateNode 1, .validateNode 1, .write 1 101, .write 1 101, .unlock 1, .unlock 1])
    ⟨⟨rfl, rfl, rfl, rfl, rfl, by decide⟩, rfl⟩ (by decide +kernel)
  exact ⟨x, hlog, silo_serializable (by decide)
    (Machine.Reachable.of_guard (fun _ _ h => allowed_of_plain h) hx)⟩

end Runs

end TailBench.Silo.Proto2
