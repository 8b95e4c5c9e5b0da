import TailBench.Silo.TupleMachine

set_option autoImplicit false

/-! # What an access to a tuple can do

The steps of the tuple machine read backwards: the stores of a writer (`WriteMove`, `KeepMove`),
the loads of a reader (`ReadMove`, `CheckMove`) and the steps that are more than that (`Step`).
`Step.of_apply` is the only place where the transition function is opened.
-/

namespace TailBench.Silo.Dbtuple

open Lib Hdr

variable {n : Nat}

/-- The thread has the lock. -/
def Pc.holds : Pc → Bool
  | .inserting | .holding | .linking _ _ _ | .storing _ _ _ | .stamping _ _ | .sizing _
  | .dropping | .keeping _ _ => true
  | .idle | .reading _ _ _ | .checking _ _ => false

/-- The thread is in `write_record_at`. -/
def Pc.writes : Pc → Bool
  | .linking _ _ _ | .storing _ _ _ | .stamping _ _ | .sizing _ | .dropping => true
  | _ => false

/-- The thread is in `on_logical_delete`. -/
def Pc.keeps : Pc → Bool
  | .keeping _ _ => true
  | _ => false

/-- The id that is still to be written. -/
def Pc.stamp : Pc → Option Nat
  | .linking t _ _ | .storing t _ _ | .stamping t _ => some t
  | _ => none

/-! ## What a step can do -/

/-- The steps of `write_record_at`. -/
inductive WriteMove (c : Cell) : Pc → Cell → Pc → Prop
  | link {t : Nat} {v : Option Bytes} {spill : Option Addr} :
      WriteMove c (.linking t v spill) { c with next := spill.or c.next } (.storing t v 0)
  | store {t : Nat} {v : Option Bytes} {j : Nat} {b : UInt8} :
      WriteMove c (.storing t v j) { c with value := Function.update c.value j b }
        (.storing t v (j + 1))
  | stored {t : Nat} {v : Option Bytes} {j : Nat} : WriteMove c (.storing t v j) c (.stamping t v)
  | stamp {t : Nat} {v : Option Bytes} :
      WriteMove c (.stamping t v) { c with version := t } (.sizing v)
  | size {v : Option Bytes} : WriteMove c (.sizing v) { c with size := (v.getD []).length }
      (if v.getD [] = [] then .dropping else .holding)
  | drop : WriteMove c .dropping { c with hdr := markDeleting c.hdr } .holding

/-- The stores of `on_logical_delete`. -/
inductive KeepMove (c : Cell) : Pc → Cell → Pc → Prop
  | store {key : Bytes} {j : Nat} {b : UInt8} :
      KeepMove c (.keeping key j) { c with value := Function.update c.value j b }
        (.keeping key (j + 1))
  | size {key : Bytes} {j : Nat} :
      KeepMove c (.keeping key j) { c with size := key.length } .holding

/-- The steps of `record_at` but for the load of the header. -/
inductive ReadMove (c : Cell) (t : Nat) : ReadPc → ReadPc → Prop
  | tentative (h : c.version = maxTid) : ReadMove c t .enter (.done (.found minTid none))
  | enter (h : c.version ≠ maxTid) : ReadMove c t .enter .stable
  | behind {v : VersionT} (h : c.version ≤ t) : ReadMove c t (.compare v) (.start v)
  | ahead {v : VersionT} (h : t < c.version) : ReadMove c t (.compare v) (.next v)
  | start {v : VersionT} : ReadMove c t (.start v) (.size v c.version)
  | size {v : VersionT} {start : Nat} :
      ReadMove c t (.size v start) (.copy v start (if isDeleting v then 0 else c.size) [])
  | byte {v : VersionT} {start sz : Nat} {buf : Bytes} (h : buf.length < sz) :
      ReadMove c t (.copy v start sz buf) (.copy v start sz (buf ++ [c.value buf.length]))
  | copied {v : VersionT} {start sz : Nat} {buf : Bytes} (h : ¬ buf.length < sz) :
      ReadMove c t (.copy v start sz buf)
        (.check v (.found start (if sz = 0 then none else some buf)))
  | next {v : VersionT} : ReadMove c t (.next v) (.check v (.older c.next))
  | valid {v : VersionT} {res : ReadRet} (h : readerCheckVersion c.hdr v = true) :
      ReadMove c t (.check v res) (.done res)
  | retry {v : VersionT} {res : ReadRet} : ReadMove c t (.check v res) .stable

inductive CheckMove (c : Cell) (t : Nat) : CheckPc → CheckPc → Prop
  | spin {spins : Nat} : CheckMove c t (.spin (spins + 1)) (.spin spins)
  | give : CheckMove c t (.spin 0) (.done false)
  | compare {v : VersionT} (hlatest : isLatest v = true) (h : c.version ≤ t) :
      CheckMove c t (.compare v) (.check v)
  | stale {v : VersionT} : CheckMove c t (.compare v) (.done false)
  | check {v : VersionT} : CheckMove c t (.check v) (.done (writerCheckVersion c.hdr v))

inductive Step (s : State n) (i : Fin n) : Action n → State n → Prop
  | lock {b : Bool} (hpc : s.pc i = .idle) (hfree : isLocked s.cell.hdr = false) :
      Step s i (.lock i b)
        ((s.setCell { s.cell with hdr := Hdr.lock b s.cell.hdr }).publish.setPc i .holding)
  | unlock (hpc : s.pc i = .holding ∨ s.pc i = .inserting) :
      Step s i (.unlock i)
        { (s.setCell { s.cell with hdr := Hdr.unlock s.cell.hdr }).publish.setPc i .idle with
          unlocks := s.unlocks + if isNumbered s.cell.hdr then 1 else 0 }
  | clearLatest (hpc : s.pc i = .holding ∨ s.pc i = .inserting) :
      Step s i (.clearLatest i) (s.setCell { s.cell with hdr := Hdr.clearLatest s.cell.hdr }).publish
  | setVersion {t : Nat} (hpc : s.pc i = .inserting) (ht : t ≠ maxTid) :
      Step s i (.setVersion i t) ((s.setCell { s.cell with version := t }).publish.setPc i .holding)
  | writeRecord {t : Nat} {v : Option Bytes} {spill : Option Addr} (hpc : s.pc i = .holding)
      (ht : t ≠ maxTid) (hintent : isWriteIntent s.cell.hdr = true) :
      Step s i (.writeRecord i t v spill)
        ((s.setCell { s.cell with hdr := markModifying s.cell.hdr }).setPc i (.linking t v spill))
  | onLogicalDelete {key : Bytes} (hpc : s.pc i = .holding) (hdel : isDeleting s.cell.hdr = true) :
      Step s i (.onLogicalDelete i key) (s.setPc i (.keeping key 0))
  | write {c : Cell} {p : Pc} (hmove : WriteMove s.cell (s.pc i) c p) :
      Step s i (.step i) ((s.setCell c).setPc i p)
  | keep {c : Cell} {p : Pc} (hmove : KeepMove s.cell (s.pc i) c p) :
      Step s i (.step i) ((s.setCell c).setPc i p)
  | callRead {t : Nat} {allow : Bool} (hpc : s.pc i = .idle) :
      Step s i (.stableRead i t allow) (s.setPc i (.reading t allow .enter))
  | callCheck {t : Nat} (hpc : s.pc i = .idle) :
      Step s i (.stableIsLatestVersion i t) (s.setPc i (.checking t (.spin 16)))
  | read {t : Nat} {allow : Bool} {p p' : ReadPc} (hpc : s.pc i = .reading t allow p)
      (hmove : ReadMove s.cell t p p') : Step s i (.step i) (s.setPc i (.reading t allow p'))
  | load {t : Nat} {allow : Bool} (hpc : s.pc i = .reading t allow .stable)
      (hmod : isModifying s.cell.hdr = false)
      (hintent : allow = true ∨ isWriteIntent s.cell.hdr = false) :
      Step s i (.step i) ((s.load i).setPc i (.reading t allow (.compare s.cell.hdr)))
  | check {t : Nat} {p p' : CheckPc} (hpc : s.pc i = .checking t p)
      (hmove : CheckMove s.cell t p p') : Step s i (.step i) (s.setPc i (.checking t p'))
  | loadCheck {t spins : Nat} (hpc : s.pc i = .checking t (.spin spins))
      (hintent : isWriteIntent s.cell.hdr = false) :
      Step s i (.step i) ((s.load i).setPc i (.checking t (.compare s.cell.hdr)))
  | retRead {t : Nat} {allow : Bool} {res : ReadRet} (hpc : s.pc i = .reading t allow (.done res)) :
      Step s i (.ret i) (s.setPc i .idle)
  | retCheck {t : Nat} {b : Bool} (hpc : s.pc i = .checking t (.done b)) :
      Step s i (.ret i) (s.setPc i .idle)

section OfApply

variable {s s' : State n} {i : Fin n}

theorem Step.of_readStep {t : Nat} {allow : Bool} {p : ReadPc} (hpc : s.pc i = .reading t allow p)
    (h : s.readStep i t allow p = some s') : Step s i (.step i) s' := by
  cases p with
  | enter =>
      simp only [State.readStep] at h
      split at h <;> obtain rfl := Option.some.inj h
      · next hv => exact .read hpc (.tentative hv)
      · next hv => exact .read hpc (.enter hv)
  | stable =>
      simp only [State.readStep] at h
      split at h
      · cases h
      · next hv =>
          obtain rfl := Option.some.inj h
          rw [Bool.or_eq_true, not_or, Bool.not_eq_true, Bool.not_eq_true] at hv
          exact .load hpc hv.1 (by simpa [Decidable.imp_iff_not_or] using hv.2)
  | compare v =>
      obtain rfl := Option.some.inj h
      by_cases hv : s.cell.version ≤ t
      · rw [if_pos hv]
        exact .read hpc (.behind hv)
      · rw [if_neg hv]
        exact .read hpc (.ahead (Nat.lt_of_not_le hv))
  | start v =>
      obtain rfl := Option.some.inj h
      exact .read hpc .start
  | size v start =>
      obtain rfl := Option.some.inj h
      exact .read hpc .size
  | copy v start sz buf =>
      simp only [State.readStep] at h
      split at h <;> obtain rfl := Option.some.inj h
      · next hlt => exact .read hpc (.byte hlt)
      · next hlt => exact .read hpc (.copied hlt)
  | next v =>
      obtain rfl := Option.some.inj h
      exact .read hpc .next
  | check v res =>
      obtain rfl := Option.some.inj h
      by_cases hv : readerCheckVersion s.cell.hdr v = true
      · rw [if_pos hv]
        exact .read hpc (.valid hv)
      · rw [if_neg hv]
        exact .read hpc .retry
  | done res => cases h

theorem Step.of_checkStep {t : Nat} {p : CheckPc} (hpc : s.pc i = .checking t p)
    (h : s.checkStep i t p = some s') : Step s i (.step i) s' := by
  cases p with
  | spin spins =>
      simp only [State.checkStep] at h
      split at h
      · split at h <;> obtain rfl := Option.some.inj h
        · exact .check hpc .give
        · exact .check hpc .spin
      · next hv =>
          obtain rfl := Option.some.inj h
          exact .loadCheck hpc (by simpa using hv)
  | compare v =>
      obtain rfl := Option.some.inj h
      by_cases hv : (isLatest v && decide (s.cell.version ≤ t)) = true
      · rw [if_pos hv]
        rw [Bool.and_eq_true, decide_eq_true_eq] at hv
        exact .check hpc (.compare hv.1 hv.2)
      · rw [if_neg hv]
        exact .check hpc .stale
  | check v =>
      obtain rfl := Option.some.inj h
      exact .check hpc .check
  | done b => cases h

theorem Step.of_step (h : s.step i = some s') : Step s i (.step i) s' := by
  rw [State.step] at h
  split at h
  · next hpc =>
      obtain rfl := Option.some.inj h
      exact .write (hpc ▸ .link)
  · next hpc =>
      split at h <;> obtain rfl := Option.some.inj h
      · exact .write (hpc ▸ .store)
      · exact .write (c := s.cell) (hpc ▸ .stored)
  · next hpc =>
      obtain rfl := Option.some.inj h
      exact .write (hpc ▸ .stamp)
  · next hpc =>
      obtain rfl := Option.some.inj h
      exact .write (hpc ▸ .size)
  · next hpc =>
      obtain rfl := Option.some.inj h
      exact .write (hpc ▸ .drop)
  · next hpc =>
      split at h <;> obtain rfl := Option.some.inj h
      · exact .keep (hpc ▸ .store)
      · exact .keep (hpc ▸ .size)
  · next hpc => exact .of_readStep hpc h
  · next hpc => exact .of_checkStep hpc h
  · cases h

/-- The thread that takes an action. -/
def Action.thread : Action n → Fin n
  | .lock i _ | .unlock i | .clearLatest i | .setVersion i _ | .writeRecord i _ _ _
  | .onLogicalDelete i _ | .stableRead i _ _ | .stableIsLatestVersion i _ | .step i | .ret i => i

theorem Step.of_apply {allocSize : Nat} {act : Action n} (h : s.apply allocSize act = some s') :
    Step s act.thread act s' := by
  cases act with
  | lock i b =>
      simp only [State.apply, State.lock] at h
      split at h
      · next hpc =>
          split at h
          · cases h
          · next hfree =>
              obtain rfl := Option.some.inj h
              exact .lock hpc (by simpa using hfree)
      · cases h
  | unlock i =>
      simp only [State.apply, State.unlock] at h
      split at h
      · next hpc =>
          obtain rfl := Option.some.inj h
          exact .unlock (.inl hpc)
      · next hpc =>
          obtain rfl := Option.some.inj h
          exact .unlock (.inr hpc)
      · cases h
  | clearLatest i =>
      simp only [State.apply, State.clearLatest] at h
      split at h
      · next hpc =>
          split at h
          · obtain rfl := Option.some.inj h
            exact .clearLatest (.inl hpc)
          · cases h
      · next hpc =>
          split at h
          · obtain rfl := Option.some.inj h
            exact .clearLatest (.inr hpc)
          · cases h
      · cases h
  | setVersion i t =>
      simp only [State.apply, State.setVersion] at h
      split at h
      · next hpc =>
          split at h
          · cases h
          · next ht =>
              obtain rfl := Option.some.inj h
              exact .setVersion hpc ht
      · cases h
  | writeRecord i t v spill =>
      simp only [State.apply, State.writeRecord] at h
      split at h
      · next hpc =>
          split at h
          · next ht =>
              obtain rfl := Option.some.inj h
              exact .writeRecord hpc ht.1 ht.2.2.1
          · cases h
      · cases h
  | onLogicalDelete i key =>
      simp only [State.apply, State.onLogicalDelete] at h
      split at h
      · next hpc =>
          split at h
          · next hdel =>
              obtain rfl := Option.some.inj h
              exact .onLogicalDelete hpc hdel.2.2.1
          · cases h
      · cases h
  | stableRead i t allow =>
      simp only [State.apply, State.call] at h
      split at h
      · next hpc =>
          obtain rfl := Option.some.inj h
          exact .callRead hpc
      · cases h
  | stableIsLatestVersion i t =>
      simp only [State.apply, State.call] at h
      split at h
      · next hpc =>
          obtain rfl := Option.some.inj h
          exact .callCheck hpc
      · cases h
  | step i => exact .of_step h
  | ret i =>
      simp only [State.apply, State.ret] at h
      split at h
      · next hpc =>
          obtain rfl := Option.some.inj h
          exact .retRead hpc
      · next hpc =>
          obtain rfl := Option.some.inj h
          exact .retCheck hpc
      · cases h

end OfApply

end TailBench.Silo.Dbtuple
