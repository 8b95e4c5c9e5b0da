import TailBench.Silo.TupleSteps

set_option autoImplicit false

/-! # What a reader without a lock reads

What a reader has loaded is from the tuple as it was at the load of the header, if nobody has written
since (`ReadWf`). If the header has the same number and no `modifying` at the end, nobody has
(`Sampled.untouched_of_check`), because every write is behind `mark_modifying` and ends with a new
number.
-/

namespace TailBench.Silo.Dbtuple

open Lib Hdr

variable {n : Nat}

/-! ## The invariant -/

/-- The two have the same record; only flags of the header may differ, and the bytes of a deleted
record. -/
structure Same (c c' : Cell) : Prop where
  version : c.version = c'.version
  bytes : isDeleting c'.hdr = false → c.size = c'.size ∧ c.value = c'.value
  next : c.next = c'.next
  deleting : isDeleting c.hdr = isDeleting c'.hdr

/-- Nobody has written since there were `b` unlocks. -/
def State.Untouched (s : State n) (b : Nat) : Prop :=
  s.unlocks = b ∧ isModifying s.cell.hdr = false

/-- The header `v` was loaded from the memory `c` after `b` unlocks, and nobody was modifying the
tuple. -/
structure Sampled (s : State n) (v : VersionT) (c : Cell) (b : Nat) : Prop where
  hdr_eq : c.hdr = v
  modifying : isModifying v = false
  number : (header v).version = b % 2 ^ 27
  le : b ≤ s.unlocks
  created : ∀ j, s.pc j ≠ .inserting
  untouched : s.Untouched b → Same s.cell c

/-- For a reader, the tuple was not tentative, and nobody had it to write it, unless the reader does
not mind. -/
structure Looked (s : State n) (allow : Bool) (v : VersionT) (c : Cell) (b : Nat) : Prop
    extends Sampled s v c b where
  intent : allow = true ∨ isWriteIntent v = false
  version : s.cell.version ≠ maxTid
  version' : c.version ≠ maxTid

/-- What a reader has loaded is from `c` if nobody has written since. -/
def ReadWf (s : State n) (t : Nat) (allow : Bool) (c : Cell) (b : Nat) : ReadPc → Prop
  | .enter | .done _ => True
  | .stable => s.cell.version ≠ maxTid
  | .compare v => Looked s allow v c b
  | .start v => Looked s allow v c b ∧ (s.Untouched b → c.version ≤ t)
  | .size v start => Looked s allow v c b ∧ (s.Untouched b → c.version ≤ t ∧ start = c.version)
  | .copy v start sz buf => Looked s allow v c b ∧ buf.length ≤ sz
      ∧ (s.Untouched b → c.version ≤ t ∧ start = c.version
        ∧ sz = (if isDeleting v then 0 else c.size)
        ∧ buf = (List.range buf.length).map c.value)
  | .next v => Looked s allow v c b ∧ (s.Untouched b → t < c.version)
  | .check v res => Looked s allow v c b ∧ (s.Untouched b → res = c.content.read t)

def CheckWf (s : State n) (t : Nat) (c : Cell) (b : Nat) : CheckPc → Prop
  | .spin _ | .done _ => True
  | .compare v => Sampled s v c b ∧ isWriteIntent v = false
  | .check v => Sampled s v c b ∧ isWriteIntent v = false
      ∧ (s.Untouched b → isLatest v = true ∧ c.version ≤ t)

def PcWf (s : State n) (since : Cell × Nat) : Pc → Prop
  | .reading t allow p => ReadWf s t allow since.1 since.2 p
  | .checking t p => CheckWf s t since.1 since.2 p
  | _ => True

/-- What holds in every state. -/
structure Wf (s : State n) : Prop where
  one : ∀ i j, (s.pc i).holds = true → (s.pc j).holds = true → i = j
  locked : isLocked s.cell.hdr = true ↔ ∃ i, (s.pc i).holds = true
  intent : isWriteIntent s.cell.hdr = true → isLocked s.cell.hdr = true
  unmodified : isWriteIntent s.cell.hdr = false → isModifying s.cell.hdr = false
  writing : ∀ i, (s.pc i).writes = true → isModifying s.cell.hdr = true
  inserting : ∀ i, s.pc i = .inserting →
    isWriteIntent s.cell.hdr = true ∧ s.cell.version = maxTid
  keeping : ∀ i, (s.pc i).keeps = true → isDeleting s.cell.hdr = true
  number : (header s.cell.hdr).version = s.unlocks % 2 ^ 27
  stamp : ∀ i t, (s.pc i).stamp = some t → t ≠ maxTid
  published : isModifying s.cell.hdr = false → s.cell.content = s.published
  tentative : s.cell.version = maxTid → s.published.version = maxTid
  thread : ∀ i, PcWf s (s.since i) (s.pc i)

/-! ## What readers rely on -/

/-- What a step leaves of an earlier look. -/
structure Later (s s' : State n) : Prop where
  le : s.unlocks ≤ s'.unlocks
  created : (∀ j, s.pc j ≠ .inserting) → ∀ j, s'.pc j ≠ .inserting
  version : s.cell.version ≠ maxTid → s'.cell.version ≠ maxTid
  untouched : (∀ j, s.pc j ≠ .inserting) → ∀ b, b ≤ s.unlocks → s'.Untouched b →
    s.Untouched b ∧ Same s'.cell s.cell

section Later

variable {s s' : State n} {i j : Fin n} {t b : Nat} {allow : Bool} {c c' : Cell} {v : VersionT}

theorem Same.refl (c : Cell) : Same c c := ⟨rfl, fun _ => ⟨rfl, rfl⟩, rfl, rfl⟩

theorem Same.trans {c'' : Cell} (h : Same c c') (h' : Same c' c'') : Same c c'' := by
  refine ⟨h.version.trans h'.version, fun hdel => ?_, h.next.trans h'.next,
    h.deleting.trans h'.deleting⟩
  obtain ⟨hsize, hvalue⟩ := h.bytes (h'.deleting.trans hdel)
  obtain ⟨hsize', hvalue'⟩ := h'.bytes hdel
  exact ⟨hsize.trans hsize', hvalue.trans hvalue'⟩

/-- Only flags of the header change. -/
theorem Same.of_hdr {v : VersionT} (hdel : isDeleting v = isDeleting c.hdr) :
    Same { c with hdr := v } c :=
  ⟨rfl, fun _ => ⟨rfl, rfl⟩, rfl, hdel⟩

theorem Sampled.later (hs : Sampled s v c b) (h : Later s s') : Sampled s' v c b := by
  refine ⟨hs.hdr_eq, hs.modifying, hs.number, hs.le.trans h.le, h.created hs.created, fun hu => ?_⟩
  obtain ⟨hu', hsame⟩ := h.untouched hs.created b hs.le hu
  exact hsame.trans (hs.untouched hu')

theorem Looked.later (hs : Looked s allow v c b) (h : Later s s') : Looked s' allow v c b :=
  ⟨hs.toSampled.later h, hs.intent, h.version hs.version, hs.version'⟩

theorem ReadWf.later {p : ReadPc} (hp : ReadWf s t allow c b p) (h : Later s s') :
    ReadWf s' t allow c b p := by
  have hback : ∀ {v : VersionT} {P : Prop}, Looked s allow v c b → (s.Untouched b → P) →
      s'.Untouched b → P :=
    fun hl hP hu => hP (h.untouched hl.created b hl.le hu).1
  cases p with
  | enter => trivial
  | done => trivial
  | stable => exact h.version hp
  | compare v => exact Looked.later hp h
  | start v => exact ⟨hp.1.later h, hback hp.1 hp.2⟩
  | size v start => exact ⟨hp.1.later h, hback hp.1 hp.2⟩
  | copy v start sz buf => exact ⟨hp.1.later h, hp.2.1, hback hp.1 hp.2.2⟩
  | next v => exact ⟨hp.1.later h, hback hp.1 hp.2⟩
  | check v res => exact ⟨hp.1.later h, hback hp.1 hp.2⟩

theorem CheckWf.later {p : CheckPc} (hp : CheckWf s t c b p) (h : Later s s') :
    CheckWf s' t c b p := by
  cases p with
  | spin => trivial
  | done => trivial
  | compare v => exact ⟨hp.1.later h, hp.2⟩
  | check v =>
      exact ⟨hp.1.later h, hp.2.1, fun hu => hp.2.2 (h.untouched hp.1.created b hp.1.le hu).1⟩

theorem PcWf.later {since : Cell × Nat} {p : Pc} (hp : PcWf s since p) (h : Later s s') :
    PcWf s' since p := by
  cases p with
  | reading t allow p => exact ReadWf.later hp h
  | checking t p => exact CheckWf.later hp h
  | _ => trivial

/-- The memory stays as it is. -/
theorem Later.of_cell (hcell : s'.cell = s.cell) (hunlocks : s'.unlocks = s.unlocks)
    (hcreated : ∀ j, s'.pc j = .inserting → s.pc j = .inserting) : Later s s' := by
  refine ⟨hunlocks.ge, fun h j hj => h j (hcreated j hj), by rw [hcell]; exact id, ?_⟩
  intro _ b _ hu
  rw [State.Untouched, hcell, hunlocks] at hu
  exact ⟨hu, hcell ▸ Same.refl _⟩

theorem WriteMove.writes {p p' : Pc} (h : WriteMove c p c' p') : p.writes = true := by
  cases h <;> rfl

theorem WriteMove.holds {p p' : Pc} (h : WriteMove c p c' p') :
    p'.holds = true ∧ p' ≠ .inserting := by
  cases h with
  | size => split <;> exact ⟨rfl, by simp⟩
  | _ => exact ⟨rfl, by simp⟩

/-- A store of a writer changes no flag but `deleting`. -/
theorem WriteMove.header_eq {p p' : Pc} (h : WriteMove c p c' p') :
    (header c'.hdr) = { header c.hdr with deleting := (header c'.hdr).deleting } := by
  cases h with
  | drop => rw [header_markDeleting]
  | _ => rfl

theorem WriteMove.keeps_eq {p p' : Pc} (h : WriteMove c p c' p') : p'.keeps = false := by
  cases h with
  | size => split <;> rfl
  | _ => rfl

theorem WriteMove.stamp_eq {p p' : Pc} (h : WriteMove c p c' p') {t : Nat}
    (ht : p'.stamp = some t) : p.stamp = some t := by
  cases h with
  | size => split at ht <;> cases ht
  | stamp => cases ht
  | drop => cases ht
  | _ => exact ht

theorem WriteMove.version_cases {p p' : Pc} (h : WriteMove c p c' p') :
    c'.version = c.version ∨ p.stamp = some c'.version := by
  cases h with
  | stamp => exact .inr rfl
  | _ => exact .inl rfl

theorem KeepMove.keeps {p p' : Pc} (h : KeepMove c p c' p') : p.keeps = true := by
  cases h <;> rfl

theorem KeepMove.holds {p p' : Pc} (h : KeepMove c p c' p') :
    p'.holds = true ∧ p' ≠ .inserting := by
  cases h <;> exact ⟨rfl, by simp⟩

theorem KeepMove.no_write {p p' : Pc} (h : KeepMove c p c' p') :
    p'.writes = false ∧ p'.stamp = none := by
  cases h <;> exact ⟨rfl, rfl⟩

/-- The key is put where the record was. -/
theorem KeepMove.frame {p p' : Pc} (h : KeepMove c p c' p') :
    c'.hdr = c.hdr ∧ c'.version = c.version ∧ c'.next = c.next := by
  cases h <;> exact ⟨rfl, rfl, rfl⟩

/-- The bytes of a deleted record are not part of what the tuple is. -/
theorem KeepMove.content_eq {p p' : Pc} (h : KeepMove c p c' p') (hdel : isDeleting c.hdr = true) :
    c'.content = c.content := by
  obtain ⟨hhdr, hversion, hnext⟩ := h.frame
  have hdata : ∀ d : Cell, d.hdr = c.hdr → d.data = none := by
    intro d hd
    rw [Cell.data, hd, if_pos (.inl hdel)]
  rw [Cell.content, Cell.content, hdata c' hhdr, hdata c rfl, hhdr, hversion, hnext]

theorem keeps_holds {p : Pc} (h : p.keeps = true) : p.holds = true := by
  cases p <;> first | rfl | cases h

theorem PcWf.of_holds {since : Cell × Nat} {p : Pc} (h : p.holds = true) : PcWf s since p := by
  cases p with
  | reading => cases h
  | checking => cases h
  | _ => trivial

theorem writes_holds {p : Pc} (h : p.writes = true) : p.holds = true := by
  cases p <;> first | rfl | cases h

/-- Only the unlock and the writes of the owner change the memory. -/
theorem Step.later {act : Action n} (h : Step s i act s') (hwf : Wf s) : Later s s' := by
  have hcreated : ∀ {p : Pc}, p ≠ .inserting → ∀ j, Function.update s.pc i p j = .inserting →
      s.pc j = .inserting := by
    intro p hp j hj
    by_cases hji : j = i
    · subst hji
      rw [Function.update_self] at hj
      exact absurd hj hp
    · rwa [Function.update_of_ne hji] at hj
  cases h with
  | @lock b hpc hfree =>
      refine ⟨le_rfl, fun hc j hj => hc j (hcreated (by simp) j hj), id, fun _ _ _ hu => ?_⟩
      obtain ⟨hb, hm⟩ := hu
      have hl := header_lock b s.cell.hdr
      refine ⟨⟨hb, ?_⟩, .of_hdr (congrArg Header.deleting hl)⟩
      exact (congrArg Header.modifying hl).symm.trans hm
  | unlock hpc =>
      refine ⟨Nat.le_add_right _ _, fun hc j hj => hc j (hcreated (by simp) j hj), id, ?_⟩
      rintro _ b hle ⟨hb, -⟩
      have hb' : s.unlocks + (if isNumbered s.cell.hdr then 1 else 0) = b := hb
      have hl := header_unlock s.cell.hdr
      -- without a new number there was nothing to modify
      have hnum : isNumbered s.cell.hdr = false := by
        by_contra hnum
        rw [if_pos (by simpa using hnum)] at hb'
        omega
      rw [hnum, if_neg (by simp), Nat.add_zero] at hb'
      rw [isNumbered, Bool.or_eq_false_iff] at hnum
      exact ⟨⟨hb', hnum.1⟩, .of_hdr (congrArg Header.deleting hl)⟩
  | clearLatest hpc =>
      refine ⟨le_rfl, fun hc => hc, id, fun _ b _ hu => ?_⟩
      obtain ⟨hb, hm⟩ := hu
      have hl := header_clearLatest s.cell.hdr
      refine ⟨⟨hb, ?_⟩, .of_hdr (congrArg Header.deleting hl)⟩
      exact (congrArg Header.modifying hl).symm.trans hm
  | setVersion hpc ht =>
      exact ⟨le_rfl, fun hc => absurd hpc (hc i), fun _ => ht, fun hc => absurd hpc (hc i)⟩
  | writeRecord hpc ht hintent =>
      refine ⟨le_rfl, fun hc j hj => hc j (hcreated (by simp) j hj), id, fun _ b _ hu => ?_⟩
      have hm := congrArg Header.modifying (header_markModifying s.cell.hdr)
      exact absurd (hm.symm.trans hu.2) (by simp)
  | onLogicalDelete hpc hdel => exact .of_cell rfl rfl (hcreated (by simp))
  | write hmove =>
      refine ⟨le_rfl, fun hc j hj => hc j (hcreated hmove.holds.2 j hj), fun hv => ?_,
        fun _ b _ hu => ?_⟩
      · rcases hmove.version_cases with heq | hstamp
        · exact fun hmax => hv (heq.symm.trans hmax)
        · exact hwf.stamp i _ hstamp
      · have hm := congrArg Header.modifying hmove.header_eq
        have hu' := hm.symm.trans hu.2
        rw [show (header s.cell.hdr).modifying = true from hwf.writing i hmove.writes] at hu'
        cases hu'
  -- only bytes of a deleted record change
  | @keep c p hmove =>
      obtain ⟨hhdr, hversion, hnext⟩ := hmove.frame
      have hdel := hwf.keeping i hmove.keeps
      refine ⟨le_rfl, fun hc j hj => hc j (hcreated hmove.holds.2 j hj),
        fun hv hmax => hv (hversion.symm.trans hmax), fun _ b _ hu => ⟨⟨hu.1, ?_⟩, hversion, ?_, hnext,
          congrArg isDeleting hhdr⟩⟩
      · exact (congrArg isModifying hhdr).symm.trans hu.2
      · intro hlive
        cases hdel.symm.trans hlive
  | callRead hpc => exact .of_cell rfl rfl (hcreated (by simp))
  | callCheck hpc => exact .of_cell rfl rfl (hcreated (by simp))
  | read hpc hmove => exact .of_cell rfl rfl (hcreated (by simp))
  | load hpc hmod hintent => exact .of_cell rfl rfl (hcreated (by simp))
  | check hpc hmove => exact .of_cell rfl rfl (hcreated (by simp))
  | loadCheck hpc hintent => exact .of_cell rfl rfl (hcreated (by simp))
  | retRead hpc => exact .of_cell rfl rfl (hcreated (by simp))
  | retCheck hpc => exact .of_cell rfl rfl (hcreated (by simp))

theorem stamp_holds {p : Pc} {t : Nat} (h : p.stamp = some t) : p.holds = true := by
  cases p <;> first | rfl | cases h

end Later

/-! ## The steps of a reader -/

section Readers

variable {s s' : State n} {i j : Fin n} {t b : Nat} {allow : Bool} {c : Cell} {v : VersionT}

/-- The load of the header. -/
theorem Wf.sampled (hwf : Wf s) (hmod : isModifying s.cell.hdr = false)
    (hcreated : isWriteIntent s.cell.hdr = false ∨ s.cell.version ≠ maxTid) :
    Sampled s s.cell.hdr s.cell s.unlocks := by
  refine ⟨rfl, hmod, hwf.number, le_rfl, fun j hj => ?_, fun _ => Same.refl _⟩
  obtain ⟨hintent, hmax⟩ := hwf.inserting j hj
  rcases hcreated with hfree | hversion
  · cases hintent.symm.trans hfree
  · exact hversion hmax

/-- The second look finds the header that was loaded only if nobody has written. -/
theorem Sampled.untouched_of_check (hs : Sampled s v c b) (hwf : Wf s)
    (hwrap : s.unlocks - b < 2 ^ 27) (hmod : isModifying s.cell.hdr = isModifying v)
    (hnum : (header s.cell.hdr).version = (header v).version) : s.Untouched b := by
  have hle := hs.le
  rw [hwf.number, hs.number] at hnum
  refine ⟨by omega, hmod.trans hs.modifying⟩

/-- The bytes that are copied from an untouched tuple are its record. -/
theorem data_of_copy {buf : Bytes} {sz : Nat} (hdel : isDeleting c.hdr = isDeleting v)
    (hsz : sz = if isDeleting v then 0 else c.size) (hlen : ¬ buf.length < sz)
    (hle : buf.length ≤ sz) (hbuf : buf = (List.range buf.length).map c.value) :
    (if sz = 0 then none else some buf) = c.data := by
  have heq : buf.length = sz := by omega
  rw [Cell.data, hdel]
  by_cases hd : isDeleting v = true
  · rw [if_pos hd] at hsz
    rw [if_pos hsz, if_pos (.inl hd)]
  · rw [if_neg hd] at hsz
    by_cases hzero : sz = 0
    · rw [if_pos hzero, if_pos (.inr (hsz ▸ hzero))]
    · rw [if_neg hzero, if_neg (by simp [hd, ← hsz, hzero]), hbuf, heq, hsz]

theorem Content.read_found {c : Content} (hv : c.version ≠ maxTid) (h : c.version ≤ t) :
    c.read t = .found c.version c.data := by
  rw [Content.read, if_neg hv, if_pos h]

theorem Content.read_older {c : Content} (hv : c.version ≠ maxTid) (h : t < c.version) :
    c.read t = .older c.next := by
  rw [Content.read, if_neg hv, if_neg (Nat.not_le_of_lt h)]

/-- **A load keeps what the reader knows**; what it loads is from the sample if nobody has written. -/
theorem ReadMove.wf {p p' : ReadPc} (hmove : ReadMove s.cell t p p')
    (hp : ReadWf s t allow c b p) : ReadWf s t allow c b p' := by
  cases hmove with
  | tentative h => trivial
  | enter h => exact h
  | behind h => exact ⟨hp, fun hu => (hp.untouched hu).version ▸ h⟩
  | ahead h => exact ⟨hp, fun hu => (hp.untouched hu).version ▸ h⟩
  | start =>
      obtain ⟨hl, hle⟩ := hp
      exact ⟨hl, fun hu => ⟨hle hu, (hl.untouched hu).version⟩⟩
  | @size v start =>
      obtain ⟨hl, hle⟩ := hp
      refine ⟨hl, Nat.zero_le _, fun hu => ⟨(hle hu).1, (hle hu).2, ?_, rfl⟩⟩
      by_cases hdel : isDeleting v = true
      · rw [if_pos hdel, if_pos hdel]
      · have hlive : isDeleting c.hdr = false := by simpa [hl.hdr_eq] using hdel
        rw [if_neg hdel, if_neg hdel, ((hl.untouched hu).bytes hlive).1]
  | @byte v start sz buf h =>
      obtain ⟨hl, -, hle⟩ := hp
      refine ⟨hl, by rw [List.length_append]; exact h, fun hu => ?_⟩
      obtain ⟨hver, hstart, hsz, hbuf⟩ := hle hu
      refine ⟨hver, hstart, hsz, ?_⟩
      -- a byte is copied, so the record is not deleted
      have hlive : isDeleting c.hdr = false := by
        rw [hl.hdr_eq]
        by_contra hdel
        rw [if_pos (by simpa using hdel)] at hsz
        omega
      rw [List.length_append, List.length_singleton, List.range_succ, List.map_append, ← hbuf,
        ((hl.untouched hu).bytes hlive).2]
      rfl
  | copied h =>
      obtain ⟨hl, hlen, hle⟩ := hp
      refine ⟨hl, fun hu => ?_⟩
      obtain ⟨hver, hstart, hsz, hbuf⟩ := hle hu
      rw [data_of_copy (by rw [hl.hdr_eq]) hsz h hlen hbuf, hstart]
      exact (Content.read_found (c := c.content) hl.version' hver).symm
  | next =>
      obtain ⟨hl, hlt⟩ := hp
      refine ⟨hl, fun hu => ?_⟩
      rw [(hl.untouched hu).next]
      exact (Content.read_older (c := c.content) hl.version' (hlt hu)).symm
  | valid h => trivial
  | retry => exact hp.1.version

theorem CheckMove.wf {p p' : CheckPc} (hmove : CheckMove s.cell t p p') (hp : CheckWf s t c b p) :
    CheckWf s t c b p' := by
  cases hmove with
  | compare hlatest h =>
      exact ⟨hp.1, hp.2, fun hu => ⟨hlatest, (hp.1.untouched hu).version ▸ h⟩⟩
  | _ => trivial

end Readers

/-! ## Every run -/

section Runs

variable {s s' : State n} {i j : Fin n} {act : Action n}

/-- The thread that takes the step. -/
theorem Step.pcWf (h : Step s i act s') (hwf : Wf s) : PcWf s' (s'.since i) (s'.pc i) := by
  have hlater := h.later hwf
  have hp := hwf.thread i
  cases h with
  | lock hpc hfree => rw [State.setPc_pc, Function.update_self]; trivial
  | unlock hpc => rw [State.setPc_pc, Function.update_self]; trivial
  | clearLatest hpc => exact hp.later hlater
  | setVersion hpc ht => rw [State.setPc_pc, Function.update_self]; trivial
  | writeRecord hpc ht hintent => rw [State.setPc_pc, Function.update_self]; trivial
  | onLogicalDelete hpc hdel => rw [State.setPc_pc, Function.update_self]; trivial
  | write hmove =>
      rw [State.setPc_pc, Function.update_self]
      exact PcWf.of_holds hmove.holds.1
  | keep hmove =>
      rw [State.setPc_pc, Function.update_self]
      exact PcWf.of_holds hmove.holds.1
  | callRead hpc => rw [State.setPc_pc, Function.update_self]; trivial
  | callCheck hpc => rw [State.setPc_pc, Function.update_self]; trivial
  | read hpc hmove =>
      rw [hpc] at hp
      rw [State.setPc_pc, Function.update_self]
      exact (hmove.wf hp).later hlater
  | load hpc hmod hintent =>
      rw [hpc] at hp
      rw [State.setPc_pc, State.setPc_since, State.load_since, Function.update_self,
        Function.update_self]
      exact Looked.later ⟨hwf.sampled hmod (.inr hp), hintent, hp, hp⟩ hlater
  | check hpc hmove =>
      rw [hpc] at hp
      rw [State.setPc_pc, Function.update_self]
      exact (hmove.wf hp).later hlater
  | loadCheck hpc hintent =>
      rw [State.setPc_pc, State.setPc_since, State.load_since, Function.update_self,
        Function.update_self]
      have hsampled := hwf.sampled (hwf.unmodified hintent) (.inl hintent)
      exact ⟨hsampled.later hlater, hintent⟩
  | retRead hpc => rw [State.setPc_pc, Function.update_self]; trivial
  | retCheck hpc => rw [State.setPc_pc, Function.update_self]; trivial

/-- The other threads. -/
theorem Step.others (h : Step s i act s') (hj : j ≠ i) :
    s'.pc j = s.pc j ∧ s'.since j = s.since j := by
  cases h <;> simp [hj]

/-- Nothing of the tuple changes. -/
theorem Wf.of_same (hwf : Wf s) (hcell : s'.cell = s.cell) (hunlocks : s'.unlocks = s.unlocks)
    (hpublished : s'.published = s.published) (hpc : (s.pc i).holds = false)
    (hpc' : (s'.pc i).holds = false) (hothers : ∀ j, j ≠ i → s'.pc j = s.pc j)
    (hthread : ∀ j, PcWf s' (s'.since j) (s'.pc j)) : Wf s' := by
  have hholds : ∀ j, (s'.pc j).holds = (s.pc j).holds := by
    intro j
    by_cases hj : j = i
    · rw [hj, hpc, hpc']
    · rw [hothers j hj]
  have hholder : ∀ j, (s'.pc j).holds = true → s'.pc j = s.pc j := by
    intro j hj
    refine hothers j fun hji => ?_
    rw [hji, hpc'] at hj
    cases hj
  refine ⟨?_, ?_, ?_, ?_, ?_, ?_, ?_, ?_, ?_, ?_, ?_, hthread⟩
  · intro j k hj hk
    exact hwf.one j k (hholds j ▸ hj) (hholds k ▸ hk)
  · rw [hcell, hwf.locked]
    exact exists_congr fun j => by rw [hholds]
  · rw [hcell]
    exact hwf.intent
  · rw [hcell]
    exact hwf.unmodified
  · intro j hj
    rw [hcell]
    exact hwf.writing j (hholder j (writes_holds hj) ▸ hj)
  · intro j hj
    rw [hcell]
    exact hwf.inserting j (hholder j (by rw [hj]; rfl) ▸ hj)
  · intro j hj
    rw [hcell]
    exact hwf.keeping j (hholder j (keeps_holds hj) ▸ hj)
  · rw [hcell, hunlocks]
    exact hwf.number
  · intro j t ht
    exact hwf.stamp j t (hholder j (stamp_holds ht) ▸ ht)
  · rw [hcell, hpublished]
    exact hwf.published
  · rw [hcell, hpublished]
    exact hwf.tentative

/-- The places of the owner of the lock, and what the header is then. -/
structure OwnerWf (s : State n) (i : Fin n) : Prop where
  holds : (s.pc i).holds = true
  locked : isLocked s.cell.hdr = true
  unmodified : isWriteIntent s.cell.hdr = false → isModifying s.cell.hdr = false
  writing : (s.pc i).writes = true → isModifying s.cell.hdr = true
  inserting : s.pc i = .inserting → isWriteIntent s.cell.hdr = true ∧ s.cell.version = maxTid
  keeping : (s.pc i).keeps = true → isDeleting s.cell.hdr = true
  stamp : ∀ t, (s.pc i).stamp = some t → t ≠ maxTid

theorem Wf.owner (hwf : Wf s) (hpc : (s.pc i).holds = true) : OwnerWf s i :=
  ⟨hpc, hwf.locked.mpr ⟨i, hpc⟩, hwf.unmodified, hwf.writing i, hwf.inserting i, hwf.keeping i,
    hwf.stamp i⟩

/-- The owner of the lock goes on, or somebody takes the lock. -/
theorem OwnerWf.wf (ho : OwnerWf s' i) (honly : ∀ j, (s'.pc j).holds = true → j = i)
    (hnumber : (header s'.cell.hdr).version = s'.unlocks % 2 ^ 27)
    (hpublished : isModifying s'.cell.hdr = false → s'.cell.content = s'.published)
    (htentative : s'.cell.version = maxTid → s'.published.version = maxTid)
    (hthread : ∀ j, PcWf s' (s'.since j) (s'.pc j)) : Wf s' := by
  refine ⟨?_, iff_of_true ho.locked ⟨i, ho.holds⟩, fun _ => ho.locked, ho.unmodified, ?_, ?_, ?_,
    hnumber, ?_, hpublished, htentative, hthread⟩
  · intro j k hj hk
    rw [honly j hj, honly k hk]
  · intro j hj
    obtain rfl := honly j (writes_holds hj)
    exact ho.writing hj
  · intro j hj
    obtain rfl := honly j (by rw [hj]; rfl)
    exact ho.inserting hj
  · intro j hj
    obtain rfl := honly j (keeps_holds hj)
    exact ho.keeping hj
  · intro j t ht
    obtain rfl := honly j (stamp_holds ht)
    exact ho.stamp t ht

/-- Nobody else holds the lock while its owner goes on. -/
theorem Wf.only (hwf : Wf s) (hpc : (s.pc i).holds = true)
    (hothers : ∀ j, j ≠ i → s'.pc j = s.pc j) : ∀ j, (s'.pc j).holds = true → j = i := by
  intro j hj
  by_contra hne
  rw [hothers j hne] at hj
  exact hne (hwf.one j i hj hpc)

theorem publish_content (s : State n) (hmod : isModifying s.publish.cell.hdr = false) :
    s.publish.cell.content = s.publish.published := by
  have hmod' : isModifying s.cell.hdr = false := hmod
  rw [State.publish_published, hmod', if_neg (by simp)]
  rfl

theorem publish_tentative (s : State n) (h : s.cell.version = maxTid → s.published.version = maxTid)
    (hmax : s.publish.cell.version = maxTid) : s.publish.published.version = maxTid := by
  rw [State.publish_published]
  split
  · exact h hmax
  · exact hmax

/-- Nobody holds the lock when it is taken. -/
theorem Wf.lock (hwf : Wf s) {b : Bool} (hfree : isLocked s.cell.hdr = false)
    (hs : s' = (s.setCell { s.cell with hdr := Hdr.lock b s.cell.hdr }).publish.setPc i .holding)
    (hthread : ∀ j, PcWf s' (s'.since j) (s'.pc j)) : Wf s' := by
  have hl := header_lock b s.cell.hdr
  have hself : s'.pc i = .holding := by rw [hs]; exact Function.update_self ..
  have hcell : s'.cell.hdr = Hdr.lock b s.cell.hdr := by rw [hs]; rfl
  have hintent : isWriteIntent s.cell.hdr = false := by
    by_contra hi
    rw [hwf.intent (by simpa using hi)] at hfree
    cases hfree
  have hmod : isModifying s'.cell.hdr = false := by
    rw [hcell]
    exact (congrArg Header.modifying hl).trans (hwf.unmodified hintent)
  have ho : OwnerWf s' i := by
    refine ⟨by rw [hself]; rfl, ?_, fun _ => hmod, ?_, ?_, ?_, ?_⟩
    · rw [hcell]
      exact congrArg Header.locked hl
    · rw [hself]
      simp [Pc.writes]
    · rw [hself]
      simp
    · rw [hself]
      simp [Pc.keeps]
    · rw [hself]
      simp [Pc.stamp]
  have honly : ∀ j, (s'.pc j).holds = true → j = i := by
    intro j hj
    by_contra hne
    have hpcj : s'.pc j = s.pc j := by rw [hs]; exact Function.update_of_ne hne ..
    rw [hpcj] at hj
    rw [hwf.locked.mpr ⟨j, hj⟩] at hfree
    cases hfree
  subst hs
  exact ho.wf honly ((congrArg Header.version hl).trans hwf.number)
    (publish_content (s.setCell { s.cell with hdr := Hdr.lock b s.cell.hdr }))
    (publish_tentative (s.setCell { s.cell with hdr := Hdr.lock b s.cell.hdr }) hwf.tentative)
    hthread

/-- Nobody holds the lock when it is given back, and the number of the header counts. -/
theorem Wf.unlock (hwf : Wf s) (hholds : (s.pc i).holds = true)
    (hs : s' = { (s.setCell { s.cell with hdr := Hdr.unlock s.cell.hdr }).publish.setPc i .idle with
      unlocks := s.unlocks + if isNumbered s.cell.hdr then 1 else 0 })
    (hthread : ∀ j, PcWf s' (s'.since j) (s'.pc j)) : Wf s' := by
  subst hs
  have hl := header_unlock s.cell.hdr
  have hnone : ∀ j, (Function.update s.pc i Pc.idle j).holds = false := by
    intro j
    by_cases hj : j = i
    · subst hj
      rw [Function.update_self]
      rfl
    · rw [Function.update_of_ne hj]
      by_contra hjh
      exact hj (hwf.one j i (by simpa using hjh) hholds)
  have hlocked := congrArg Header.locked hl
  have hintent := congrArg Header.writeIntent hl
  refine ⟨?_, ?_, ?_, fun _ => congrArg Header.modifying hl, ?_, ?_, ?_, ?_, ?_,
    publish_content (s.setCell { s.cell with hdr := Hdr.unlock s.cell.hdr }),
    publish_tentative (s.setCell { s.cell with hdr := Hdr.unlock s.cell.hdr }) hwf.tentative,
    hthread⟩
  · intro j k hj
    cases (hnone j).symm.trans hj
  · refine iff_of_false (fun h => ?_) ?_
    · cases hlocked.symm.trans h
    · rintro ⟨j, hj⟩
      cases (hnone j).symm.trans hj
  · intro h
    cases hintent.symm.trans h
  · intro j hj
    cases (hnone j).symm.trans (writes_holds hj)
  · intro j hj
    have hj' := hnone j
    rw [show Function.update s.pc i Pc.idle j = .inserting from hj] at hj'
    cases hj'
  · intro j hj
    cases (hnone j).symm.trans (keeps_holds hj)
  · have hnumber := hwf.number
    refine (congrArg Header.version hl).trans ?_
    simp only [hnumber]
    omega
  · intro j t ht
    cases (hnone j).symm.trans (stamp_holds ht)

theorem Step.wf (h : Step s i act s') (hwf : Wf s) : Wf s' := by
  have hthread : ∀ j, PcWf s' (s'.since j) (s'.pc j) := by
    intro j
    by_cases hj : j = i
    · rw [hj]
      exact h.pcWf hwf
    · obtain ⟨hpc, hsince⟩ := h.others hj
      rw [hpc, hsince]
      exact (hwf.thread j).later (h.later hwf)
  have hothers : ∀ j, j ≠ i → s'.pc j = s.pc j := fun j hj => (h.others hj).1
  cases h with
  | lock hpc hfree => exact hwf.lock hfree rfl hthread
  | unlock hpc =>
      have hholds : (s.pc i).holds = true := by
        rcases hpc with hpc | hpc <;> rw [hpc] <;> rfl
      exact hwf.unlock hholds rfl hthread
  | clearLatest hpc =>
      have hholds : (s.pc i).holds = true := by
        rcases hpc with hpc | hpc <;> rw [hpc] <;> rfl
      have ho := hwf.owner hholds
      have hl := header_clearLatest s.cell.hdr
      have hlocked := congrArg Header.locked hl
      have hintent := congrArg Header.writeIntent hl
      have hmod := congrArg Header.modifying hl
      have hdel := congrArg Header.deleting hl
      have ho' : OwnerWf
          (s.setCell { s.cell with hdr := Hdr.clearLatest s.cell.hdr }).publish i :=
        ⟨ho.holds, hlocked.trans ho.locked, fun h => hmod.trans (ho.unmodified (hintent.symm.trans h)),
          fun h => hmod.trans (ho.writing h), fun h => ⟨hintent.trans (ho.inserting h).1,
            (ho.inserting h).2⟩, fun h => hdel.trans (ho.keeping h), ho.stamp⟩
      exact ho'.wf (hwf.only hholds hothers) ((congrArg Header.version hl).trans hwf.number)
        (publish_content _) (publish_tentative _ hwf.tentative) hthread
  | @setVersion t hpc ht =>
      have hholds : (s.pc i).holds = true := by rw [hpc]; rfl
      have ho := hwf.owner hholds
      have ho' : OwnerWf ((s.setCell { s.cell with version := t }).publish.setPc i .holding) i :=
        ⟨by simp [Pc.holds], ho.locked, ho.unmodified, by simp [Pc.writes], by simp,
          by simp [Pc.keeps], by simp [Pc.stamp]⟩
      exact ho'.wf (hwf.only hholds hothers) hwf.number
        (publish_content (s.setCell { s.cell with version := t })) (fun h => absurd h ht) hthread
  | @writeRecord t v spill hpc ht hintent =>
      have hholds : (s.pc i).holds = true := by rw [hpc]; rfl
      have ho := hwf.owner hholds
      have hl := header_markModifying s.cell.hdr
      have hintent' := (congrArg Header.writeIntent hl).trans hintent
      have hmod := congrArg Header.modifying hl
      have ho' : OwnerWf ((s.setCell { s.cell with hdr := markModifying s.cell.hdr }).setPc i
          (.linking t v spill)) i := by
        refine ⟨by simp [Pc.holds], (congrArg Header.locked hl).trans ho.locked, fun h => ?_,
          fun _ => hmod, by simp, by simp [Pc.keeps], fun u hu => ?_⟩
        · cases hintent'.symm.trans h
        · obtain rfl : t = u := by simpa [Pc.stamp] using hu
          exact ht
      refine ho'.wf (hwf.only hholds hothers) ((congrArg Header.version hl).trans hwf.number)
        (fun h => ?_) hwf.tentative hthread
      cases hmod.symm.trans h
  | @onLogicalDelete key hpc hdel =>
      have hholds : (s.pc i).holds = true := by rw [hpc]; rfl
      have ho := hwf.owner hholds
      have ho' : OwnerWf (s.setPc i (.keeping key 0)) i :=
        ⟨by simp [Pc.holds], ho.locked, ho.unmodified, by simp [Pc.writes], by simp, fun _ => hdel,
          by simp [Pc.stamp]⟩
      exact ho'.wf (hwf.only hholds hothers) hwf.number hwf.published hwf.tentative hthread
  | @write c p hmove =>
      have hholds := writes_holds hmove.writes
      have ho := hwf.owner hholds
      have hl := hmove.header_eq
      have hmod := (congrArg Header.modifying hl).trans (hwf.writing i hmove.writes)
      have hself : ((s.setCell c).setPc i p).pc i = p := Function.update_self ..
      have ho' : OwnerWf ((s.setCell c).setPc i p) i := by
        refine ⟨hself.symm ▸ hmove.holds.1, (congrArg Header.locked hl).trans ho.locked, fun h => ?_,
          fun _ => hmod, fun h => absurd (hself.symm.trans h) hmove.holds.2, fun h => ?_,
          fun u hu => ?_⟩
        · have hunmod := ho.unmodified ((congrArg Header.writeIntent hl).symm.trans h)
          cases (ho.writing hmove.writes).symm.trans hunmod
        · rw [hself, hmove.keeps_eq] at h
          cases h
        · rw [hself] at hu
          exact hwf.stamp i u (hmove.stamp_eq hu)
      refine ho'.wf (hwf.only hholds hothers) ((congrArg Header.version hl).trans hwf.number)
        (fun h => ?_) (fun h => ?_) hthread
      · cases hmod.symm.trans h
      · rcases hmove.version_cases with heq | hstamp
        · exact hwf.tentative (heq.symm.trans h)
        · exact absurd h (hwf.stamp i _ hstamp)
  | @keep c p hmove =>
      have hholds := keeps_holds hmove.keeps
      have ho := hwf.owner hholds
      obtain ⟨hhdr, hversion, -⟩ := hmove.frame
      have hdel := ho.keeping hmove.keeps
      have hself : ((s.setCell c).setPc i p).pc i = p := Function.update_self ..
      have ho' : OwnerWf ((s.setCell c).setPc i p) i := by
        refine ⟨hself.symm ▸ hmove.holds.1, ?_, ?_, fun h => ?_,
          fun h => absurd (hself.symm.trans h) hmove.holds.2, fun _ => ?_, fun u hu => ?_⟩
        · exact (congrArg isLocked hhdr).trans ho.locked
        · rw [State.setPc_cell, State.setCell_cell, hhdr]
          exact ho.unmodified
        · rw [hself, hmove.no_write.1] at h
          cases h
        · exact (congrArg isDeleting hhdr).trans hdel
        · rw [hself, hmove.no_write.2] at hu
          cases hu
      refine ho'.wf (hwf.only hholds hothers) ?_ (fun h => ?_) (fun h => ?_) hthread
      · exact (congrArg (fun v => (header v).version) hhdr).trans hwf.number
      · exact (hmove.content_eq hdel).trans (hwf.published ((congrArg isModifying hhdr).symm.trans h))
      · exact hwf.tentative (hversion.symm.trans h)
  | callRead hpc =>
      exact hwf.of_same rfl rfl rfl (by rw [hpc]; rfl) (by simp [Pc.holds]) hothers hthread
  | callCheck hpc =>
      exact hwf.of_same rfl rfl rfl (by rw [hpc]; rfl) (by simp [Pc.holds]) hothers hthread
  | read hpc hmove =>
      exact hwf.of_same rfl rfl rfl (by rw [hpc]; rfl) (by simp [Pc.holds]) hothers hthread
  | load hpc hmod hintent =>
      exact hwf.of_same rfl rfl rfl (by rw [hpc]; rfl) (by simp [Pc.holds]) hothers hthread
  | check hpc hmove =>
      exact hwf.of_same rfl rfl rfl (by rw [hpc]; rfl) (by simp [Pc.holds]) hothers hthread
  | loadCheck hpc hintent =>
      exact hwf.of_same rfl rfl rfl (by rw [hpc]; rfl) (by simp [Pc.holds]) hothers hthread
  | retRead hpc =>
      exact hwf.of_same rfl rfl rfl (by rw [hpc]; rfl) (by simp [Pc.holds]) hothers hthread
  | retCheck hpc =>
      exact hwf.of_same rfl rfl rfl (by rw [hpc]; rfl) (by simp [Pc.holds]) hothers hthread

/-- The thread that has created the tuple has its lock. -/
theorem Inserted.wf (h : Inserted s i) (hunlocks : s.unlocks = 0)
    (hpub : s.published = s.cell.content) : Wf s := by
  have hheader := header_first s.cell.size
  rw [← h.hdr_eq] at hheader
  have hself : s.pc i = .inserting := by rw [h.pc_eq, Function.update_self]
  have hidle : ∀ j, j ≠ i → s.pc j = .idle := by
    intro j hj
    rw [h.pc_eq, Function.update_of_ne hj]
  have ho : OwnerWf s i := by
    refine ⟨by rw [hself]; rfl, congrArg Header.locked hheader,
      fun _ => congrArg Header.modifying hheader, ?_,
      fun _ => ⟨congrArg Header.writeIntent hheader, h.version_eq⟩, ?_, ?_⟩
    · rw [hself]
      simp [Pc.writes]
    · rw [hself]
      simp [Pc.keeps]
    · rw [hself]
      simp [Pc.stamp]
  refine ho.wf (fun j hj => ?_) ?_ (fun _ => hpub.symm) (fun hmax => hpub ▸ hmax) (fun j => ?_)
  · by_contra hne
    rw [hidle j hne] at hj
    cases hj
  · rw [hunlocks]
    exact congrArg Header.version hheader
  · by_cases hj : j = i
    · rw [hj, hself]
      trivial
    · rw [hidle j hj]
      trivial

/-- A tuple that takes the place of another one belongs to nobody. -/
theorem Replacing.wf (h : Replacing s) (hunlocks : s.unlocks = 0)
    (hpub : s.published = s.cell.content) : Wf s := by
  have hheader : header s.cell.hdr = ⟨false, decide (s.cell.size = 0), false, false, true, 0⟩ := by
    rw [h.hdr_eq]
    split <;> simp [*] <;> decide
  have hlocked : isLocked s.cell.hdr = false := congrArg Header.locked hheader
  have hintent : isWriteIntent s.cell.hdr = false := congrArg Header.writeIntent hheader
  have hidle : ∀ j, s.pc j = .idle := fun j => by rw [h.pc_eq]
  refine ⟨?_, ?_, ?_, fun _ => congrArg Header.modifying hheader, ?_, ?_, ?_, ?_, ?_,
    fun _ => hpub.symm, fun hmax => absurd hmax h.version_ne, ?_⟩
  · intro j k hj
    rw [hidle j] at hj
    cases hj
  · refine iff_of_false (by rw [hlocked]; simp) ?_
    rintro ⟨j, hj⟩
    rw [hidle j] at hj
    cases hj
  · intro hi
    cases hintent.symm.trans hi
  · intro j hj
    rw [hidle j] at hj
    cases hj
  · intro j hj
    cases (hidle j).symm.trans hj
  · intro j hj
    rw [hidle j] at hj
    cases hj
  · rw [hunlocks]
    exact congrArg Header.version hheader
  · intro j t ht
    rw [hidle j] at ht
    cases ht
  · intro j
    rw [hidle j]
    trivial

theorem Wf.init {allocSize : Nat} (h : (dbtuple n allocSize).init s) : Wf s := by
  obtain ⟨hunlocks, hpub, ⟨i, hins⟩ | hrep⟩ := h
  · exact hins.wf hunlocks hpub
  · exact hrep.wf hunlocks hpub

theorem dbtuple_wf {allocSize : Nat} (h : (dbtuple n allocSize).Reachable s) : Wf s :=
  h.invariant (fun _ hi => Wf.init hi) fun _ _ _ _ hwf hn => (Step.of_apply hn).wf hwf

end Runs

end TailBench.Silo.Dbtuple
