import TailBench.Lib.Threads
import TailBench.Silo.TupleReads

set_option autoImplicit false

/-! # A tuple is a register

Whatever the order of the steps, a tuple with its readers behaves like a register with the content
that the tuple had when nobody was modifying it (`dbtuple_refines`). So a `stable_read` returns what
the tuple was, as a whole, at one moment of the call: a moment when nobody held it with write intent,
or for a reader that allows write intent, one when nobody was modifying it.
`stable_is_latest_version` is true only if the tuple was the latest and not newer at a moment when
nobody held it with write intent (`dbtuple_answers`).
-/

namespace TailBench.Silo.Dbtuple

open Lib Hdr

variable {n : Nat}

/-- What the access has seen; `c` is the content at its last load of the header. -/
def Pc.abs (c : Content) : Pc → Asking Content Query Reply
  | .reading t allow .enter | .reading t allow .stable => .asking (.stableRead t allow) none
  | .reading _ _ (.done res) => .answered (.stableRead res)
  | .reading t allow _ => .asking (.stableRead t allow) (some c)
  | .checking t (.spin _) => .asking (.stableIsLatestVersion t) none
  | .checking _ (.done b) => .answered (.stableIsLatestVersion b)
  | .checking t _ => .asking (.stableIsLatestVersion t) (some c)
  | _ => .idle

def State.abs (s : State n) : Register (Fin n) Content Query Reply :=
  ⟨s.published, fun i => (s.pc i).abs (s.since i).1.content⟩

theorem State.abs_pc (s : State n) (i : Fin n) :
    s.abs.pc i = (s.pc i).abs (s.since i).1.content := rfl

/-- The register that begins with the content of the tuple. -/
def State.register (s₀ : State n) :
    Machine (Register (Fin n) Content Query Reply) (RegisterAction (Fin n) Content Query Reply) :=
  Lib.register (Fin n) Content.allows s₀.cell.content

/-- The step of the tuple is a run of the register with the same event. -/
def Follows (s₀ s : State n) (act : Action n) (s' : State n) : Prop :=
  ∀ l, (s₀.register.logged Register.event).Leads (s.abs, l)
    (s'.abs, l ++ (event s act s').toList)

section Refinement

variable {s₀ s s' : State n} {i : Fin n} {act : Action n} {t b : Nat} {allow : Bool} {c : Content}

theorem Pc.abs_of_holds {p : Pc} (h : p.holds = true) : p.abs c = .idle := by
  cases p with
  | reading => cases h
  | checking => cases h
  | _ => rfl

/-- Only one thread of the register changes. -/
theorem State.abs_eq (hothers : ∀ j, j ≠ i → s'.pc j = s.pc j ∧ s'.since j = s.since j)
    (hpub : s'.published = s.published) :
    s'.abs = s.abs.setPc i ((s'.pc i).abs (s'.since i).1.content) := by
  rw [State.abs, hpub]
  refine congrArg (Register.mk _) (funext fun j => ?_)
  by_cases hj : j = i
  · rw [hj, Function.update_self]
  · rw [Function.update_of_ne hj, (hothers j hj).1, (hothers j hj).2]
    rfl

/-- A step that does not move the thread of the register. -/
theorem Follows.of_same (hothers : ∀ j, j ≠ i → s'.pc j = s.pc j ∧ s'.since j = s.since j)
    (hpub : s'.published = s.published) (hevent : event s act s' = none)
    (hsame : (s'.pc i).abs (s'.since i).1.content = (s.pc i).abs (s.since i).1.content) :
    Follows s₀ s act s' := by
  intro l
  have hpc : Function.update s.abs.pc i ((s.pc i).abs (s.since i).1.content) = s.abs.pc :=
    Function.update_eq_self ..
  rw [State.abs_eq hothers hpub, hsame, hevent, Register.setPc, hpc, Option.toList_none,
    List.append_nil]
  exact .refl _

/-- A step that is one of the register. -/
theorem Follows.of_next {a : RegisterAction (Fin n) Content Query Reply}
    {p : Asking Content Query Reply}
    (hothers : ∀ j, j ≠ i → s'.pc j = s.pc j ∧ s'.since j = s.since j)
    (hpub : s'.published = s.published) (hp : (s'.pc i).abs (s'.since i).1.content = p)
    (hnext : s.abs.next Content.allows a = some (s.abs.setPc i p))
    (hevent : event s act s' = s.abs.event a (s.abs.setPc i p)) : Follows s₀ s act s' := by
  intro l
  rw [State.abs_eq hothers hpub, hp, hevent]
  exact .single (Machine.logged_next.mpr ⟨hnext, rfl⟩)

/-- A step that shows what the tuple is from now on, if nobody is modifying it. -/
theorem Follows.of_publish (hothers : ∀ j, j ≠ i → s'.pc j = s.pc j ∧ s'.since j = s.since j)
    (hsame : (s'.pc i).abs (s'.since i).1.content = (s.pc i).abs (s.since i).1.content)
    (hpub : isModifying s'.cell.hdr = true → s'.published = s.published)
    (hevent : event s act s'
      = if isModifying s'.cell.hdr then none else some (.publish s'.published)) :
    Follows s₀ s act s' := by
  by_cases hmod : isModifying s'.cell.hdr = true
  · exact .of_same hothers (hpub hmod) (by rw [hevent, if_pos hmod]) hsame
  · intro l
    rw [hevent, if_neg hmod]
    refine .single (a := .publish s'.published) (Machine.logged_next.mpr ⟨?_, rfl⟩)
    refine congrArg some (congrArg (Register.mk _) (funext fun j => ?_))
    by_cases hj : j = i
    · rw [hj, State.abs_pc, hsame]
    · rw [(hothers j hj).1, (hothers j hj).2]
      rfl

theorem publish_of_modifying (s : State n) (h : isModifying s.publish.cell.hdr = true) :
    s.publish.published = s.published := if_pos h

/-- A step of a reader. -/
theorem setPc_others (s : State n) (i : Fin n) (p : Pc) (j : Fin n) (hj : j ≠ i) :
    (s.setPc i p).pc j = s.pc j ∧ (s.setPc i p).since j = s.since j :=
  ⟨Function.update_of_ne hj .., rfl⟩

theorem setPc_self (s : State n) (i : Fin n) (p : Pc) : (s.setPc i p).pc i = p :=
  Function.update_self ..

/-- A reader goes on with what it has seen, or begins again. -/
theorem ReadMove.follows {p p' : ReadPc} (hmove : ReadMove s.cell t p p') (hwf : Wf s)
    (hpc : s.pc i = .reading t allow p)
    (hwrap : ∀ v res, p = .check v res → s.unlocks - (s.since i).2 < 2 ^ 27) :
    Follows s₀ s (.step i) (s.setPc i (.reading t allow p')) := by
  have hself := setPc_self s i (.reading t allow p')
  have hothers := setPc_others s i (.reading t allow p')
  have hold : s.abs.pc i = (Pc.reading t allow p).abs (s.since i).1.content := by
    rw [State.abs_pc, hpc]
  have hp := hwf.thread i
  rw [hpc] at hp
  cases hmove with
  -- the reader looks at the tentative tuple and returns
  | tentative hv =>
      have hmax : s.abs.content.version = maxTid := hwf.tentative hv
      have hread : Content.allows (.stableRead t allow) s.abs.content
          (.stableRead (.found minTid none)) = true := by
        simp [Content.allows, Content.readable, Content.read, hmax]
      intro l
      rw [State.abs_eq hothers rfl, hself, show event s (.step i) _ = none from rfl,
        Option.toList_none, List.append_nil]
      exact Register.leads_decide hold hread l
  | @valid v res hv =>
      obtain ⟨hl, hres⟩ := hp
      rw [readerCheckVersion_iff] at hv
      have hu := hl.untouched_of_check hwf (hwrap _ _ rfl) hv.2.1 hv.2.2
      have hintent : allow = true ∨ (s.since i).1.content.writeIntent = false := by
        rw [Cell.content, hl.hdr_eq]
        exact hl.intent
      have hread : Content.allows (.stableRead t allow) (s.since i).1.content (.stableRead res)
          = true := by
        rcases hintent with hallow | hfree
        · simp [Content.allows, Content.readable, hres hu, hallow]
        · simp [Content.allows, Content.readable, hres hu, hfree]
      refine .of_next (a := .decide i (.stableRead res)) (p := .answered (.stableRead res)) hothers
        rfl (by rw [hself]; rfl) ?_ rfl
      simp only [Register.next, hold, Pc.abs, hread, if_true]
  | retry =>
      refine .of_next (a := .forget i) (p := .asking (.stableRead t allow) none) hothers rfl
        (by rw [hself]; rfl) ?_ rfl
      simp only [Register.next, hold, Pc.abs]
  | _ =>
      refine .of_same hothers rfl rfl ?_
      rw [hself, hpc]
      rfl

/-- A check that is not sure fails. -/
theorem Follows.of_fail {p : CheckPc} (hpc : s.pc i = .checking t p) (hdone : ∀ b, p ≠ .done b) :
    Follows s₀ s (.step i) (s.setPc i (.checking t (.done false))) := by
  have hself := setPc_self s i (.checking t (.done false))
  have hold : ∃ seen, s.abs.pc i = .asking (.stableIsLatestVersion t) seen := by
    rw [State.abs_pc, hpc]
    cases p with
    | done b => exact absurd rfl (hdone b)
    | _ => exact ⟨_, rfl⟩
  obtain ⟨seen, hold⟩ := hold
  intro l
  rw [State.abs_eq (setPc_others s i _) rfl, hself, show event s (.step i) _ = none from rfl,
    Option.toList_none, List.append_nil]
  exact Register.leads_decide hold rfl l

theorem CheckMove.follows {p p' : CheckPc} (hmove : CheckMove s.cell t p p') (hwf : Wf s)
    (hpc : s.pc i = .checking t p)
    (hwrap : ∀ v, p = .check v → s.unlocks - (s.since i).2 < 2 ^ 27) :
    Follows s₀ s (.step i) (s.setPc i (.checking t p')) := by
  have hself := setPc_self s i (.checking t p')
  have hothers := setPc_others s i (.checking t p')
  have hold : s.abs.pc i = (Pc.checking t p).abs (s.since i).1.content := by
    rw [State.abs_pc, hpc]
  have hp := hwf.thread i
  rw [hpc] at hp
  cases hmove with
  | give => exact .of_fail hpc (by simp)
  | stale => exact .of_fail hpc (by simp)
  | @check v =>
      obtain ⟨hs, hfree, hknown⟩ := hp
      by_cases hv : writerCheckVersion s.cell.hdr v = true
      · have hheader := (writerCheckVersion_iff _ _).mp hv
        have hu := hs.untouched_of_check hwf (hwrap _ rfl) (congrArg Header.modifying hheader)
          (congrArg Header.version hheader)
        obtain ⟨hlatest, hle⟩ := hknown hu
        have hallows : Content.allows (.stableIsLatestVersion t) (s.since i).1.content
            (.stableIsLatestVersion true) = true := by
          have hlatest' : (s.since i).1.content.latest = true := by
            rw [Cell.content, hs.hdr_eq]
            exact hlatest
          have hle' : (s.since i).1.content.version ≤ t := hle
          have hfree' : (s.since i).1.content.writeIntent = false := by
            rw [Cell.content, hs.hdr_eq]
            exact hfree
          simp [Content.allows, hlatest', hle', hfree']
        refine .of_next (a := .decide i (.stableIsLatestVersion true))
          (p := .answered (.stableIsLatestVersion true)) hothers rfl (by rw [hself, hv]; rfl) ?_ rfl
        simp only [Register.next, hold, Pc.abs, hallows, if_true]
      · rw [Bool.eq_false_of_not_eq_true hv]
        exact .of_fail hpc (by simp)
  | _ =>
      refine .of_same hothers rfl rfl ?_
      rw [hself, hpc]
      rfl

/-- A call, for `Pc` and register alike. -/
theorem Follows.of_call {p : Pc} {q : Query} (hpc : s.pc i = .idle)
    (habs : ∀ c, p.abs c = .asking q none) (hevent : event s act (s.setPc i p) = some (.ask i q)) :
    Follows s₀ s act (s.setPc i p) := by
  have hold : s.abs.pc i = .idle := by
    rw [State.abs_pc, hpc]
    rfl
  refine .of_next (a := .ask i q) (p := .asking q none) (setPc_others s i p) rfl
    (by rw [setPc_self, habs]) ?_ hevent
  simp only [Register.next, hold]

theorem Follows.of_ret {p : Pc} {r : Reply} (hpc : s.pc i = p) (habs : ∀ c, p.abs c = .answered r)
    (hevent : event s (.ret i) (s.setPc i .idle) = some (.answer i r)) :
    Follows s₀ s (.ret i) (s.setPc i .idle) := by
  have hold : s.abs.pc i = .answered r := by
    rw [State.abs_pc, hpc, habs]
  refine .of_next (a := .answer i) (p := .idle) (setPc_others s i .idle) rfl
    (by rw [setPc_self]; rfl) ?_ ?_
  · simp only [Register.next, hold]
  · rw [hevent]
    simp only [Register.event, hold]

/-- The load of the header is the moment at which the register is looked at. -/
theorem Follows.of_load {p : Pc} {q : Query} {seen : Option Content} (hwf : Wf s)
    (hmod : isModifying s.cell.hdr = false) (hold : s.abs.pc i = .asking q seen)
    (habs : ∀ c, p.abs c = .asking q (some c)) :
    Follows s₀ s (.step i) ((s.load i).setPc i p) := by
  have hpub : s.cell.content = s.published := hwf.published hmod
  have hothers : ∀ j, j ≠ i → ((s.load i).setPc i p).pc j = s.pc j
      ∧ ((s.load i).setPc i p).since j = s.since j := fun j hj => by simp [hj]
  refine .of_next (a := .look i) (p := .asking q (some s.published)) hothers rfl ?_ ?_ rfl
  · rw [setPc_self, habs, State.setPc_since, State.load_since, Function.update_self, ← hpub]
  · simp only [Register.next, hold]
    rfl

/-- **A step of the tuple is a run of the register.** -/
theorem Step.follows (h : Step s i act s') (hwf : Wf s) (hok : NoWrap s act) :
    Follows s₀ s act s' := by
  have hothers : ∀ j, j ≠ i → s'.pc j = s.pc j ∧ s'.since j = s.since j := fun j hj => h.others hj
  have howner : event s act s' = none → s'.published = s.published → (s.pc i).holds = true →
      (s'.pc i).holds = true → Follows s₀ s act s' := by
    intro hevent hpub hpc hpc'
    exact .of_same hothers hpub hevent (by rw [Pc.abs_of_holds hpc, Pc.abs_of_holds hpc'])
  cases h with
  | @lock b hpc hfree =>
      exact .of_publish hothers (by simp [hpc, Pc.abs])
        (publish_of_modifying (s.setCell { s.cell with hdr := Hdr.lock b s.cell.hdr })) rfl
  | unlock hpc =>
      have hholds : (s.pc i).holds = true := by
        rcases hpc with hpc | hpc <;> rw [hpc] <;> rfl
      refine .of_publish hothers ?_
        (publish_of_modifying (s.setCell { s.cell with hdr := Hdr.unlock s.cell.hdr })) rfl
      rw [Pc.abs_of_holds hholds]
      simp [Pc.abs]
  | clearLatest hpc => exact .of_publish hothers rfl (publish_of_modifying _) rfl
  | @setVersion t hpc ht =>
      exact .of_publish hothers (by simp [hpc, Pc.abs])
        (publish_of_modifying (s.setCell { s.cell with version := t })) rfl
  | writeRecord hpc ht hintent => exact howner rfl rfl (by rw [hpc]; rfl) (by simp [Pc.holds])
  | onLogicalDelete hpc hdel => exact howner rfl rfl (by rw [hpc]; rfl) (by simp [Pc.holds])
  | @write c p hmove =>
      have hself : ((s.setCell c).setPc i p).pc i = p := Function.update_self ..
      exact howner rfl rfl (writes_holds hmove.writes) (hself.symm ▸ hmove.holds.1)
  | @keep c p hmove =>
      have hself : ((s.setCell c).setPc i p).pc i = p := Function.update_self ..
      exact howner rfl rfl (keeps_holds hmove.keeps) (hself.symm ▸ hmove.holds.1)
  | callRead hpc => exact .of_call hpc (fun c => rfl) rfl
  | callCheck hpc => exact .of_call hpc (fun c => rfl) rfl
  | read hpc hmove =>
      refine hmove.follows hwf hpc ?_
      rintro v res rfl
      simpa [NoWrap, hpc] using hok
  | load hpc hmod hintent =>
      exact .of_load hwf hmod (by rw [State.abs_pc, hpc]; rfl) fun c => rfl
  | check hpc hmove =>
      refine hmove.follows hwf hpc ?_
      rintro v rfl
      simpa [NoWrap, hpc] using hok
  | loadCheck hpc hintent =>
      exact .of_load hwf (hwf.unmodified hintent) (by rw [State.abs_pc, hpc]; rfl) fun c => rfl
  | retRead hpc => exact .of_ret hpc (fun c => rfl) (by simp [event, hpc])
  | retCheck hpc => exact .of_ret hpc (fun c => rfl) (by simp [event, hpc])

theorem init_abs {allocSize : Nat} (h : (dbtuple n allocSize).init s₀) :
    s₀.register.init s₀.abs := by
  obtain ⟨-, hpub, hpc⟩ := h
  refine ⟨hpub, fun j => ?_⟩
  rw [State.abs_pc]
  rcases hpc with ⟨i, -, -, hpc⟩ | ⟨-, -, hpc⟩
  · rw [hpc]
    by_cases hj : j = i
    · rw [hj, Function.update_self]
      rfl
    · rw [Function.update_of_ne hj]
      rfl
  · rw [hpc]
    rfl

/-- **A tuple refines a register**: a log of the tuple is one of the register. -/
theorem dbtuple_refines {allocSize : Nat} (hinit : (dbtuple n allocSize).init s₀)
    {x : State n × List (RegisterEvent (Fin n) Content Query Reply)}
    (h : (((dbtuple n allocSize).since s₀).logged event).ReachableBy (fun x => NoWrap x.1) x) :
    (s₀.register.logged Register.event).Reachable (x.1.abs, x.2) := by
  refine h.simulate_logged State.abs ?_ ?_
  · rintro s rfl
    exact init_abs hinit
  · intro s act s' hr hok hn
    have hreach : (dbtuple n allocSize).Reachable s := by
      refine hr.invariant (fun t ht => ?_) fun t a t' _ ht _ hn' => ht.step a hn'
      obtain rfl : t = s₀ := ht
      exact .init hinit
    exact (Step.of_apply hn).follows (dbtuple_wf hreach) hok

/-- **What readers without a lock return** is what the tuple was, as a whole, at one moment of the
call: when nobody had it to write it, or, if the reader allows that, when nobody was modifying it. A
check is true only if the tuple was the latest and not newer when nobody had it to write it. -/
theorem dbtuple_answers {allocSize : Nat} {s₀ : State n} (hinit : (dbtuple n allocSize).init s₀)
    {x : State n × List (RegisterEvent (Fin n) Content Query Reply)}
    (h : (((dbtuple n allocSize).since s₀).logged event).ReachableBy (fun x => NoWrap x.1) x) :
    Machine.EachAfter (AnswerFits Content.allows s₀.cell.content) x.2 :=
  register_answers (dbtuple_refines hinit h)

/-- A tuple with two bytes. -/
def twoBytes : State 3 where
  cell := ⟨latestMask, 1, 2, fun j => if j = 0 then 10 else 20, none⟩
  pc := fun _ => .idle
  unlocks := 0
  since := fun _ => (⟨latestMask, 1, 2, fun j => if j = 0 then 10 else 20, none⟩, 0)
  published := ⟨1, some [10, 20], none, true, false⟩

theorem noWrap_of_lt {s : State n} (h : s.unlocks < 2 ^ 27) (act : Action n) : NoWrap s act := by
  cases act with
  | step i =>
      rw [NoWrap]
      split
      · omega
      · omega
      · trivial
  | _ => trivial

/-- A reader copies the first byte, a writer takes the lock, and a reader on a snapshot reads both
bytes before they are changed; the first reader then copies the second byte and has to begin again.
Then the cleaner takes the lock, and a check does not mind. -/
def readersRun : List (Action 3) :=
  List.flatten [[.stableRead 1 5 false], List.replicate 6 (.step 1),
    [.lock 0 true, .stableRead 2 5 true], List.replicate 9 (.step 2),
    [.ret 2, .writeRecord 0 3 (some [30, 40]) (some 7)], List.replicate 6 (.step 0),
    [.step 1, .unlock 0], List.replicate 10 (.step 1),
    [.ret 1, .lock 0 false, .stableIsLatestVersion 1 3, .step 1, .step 1, .step 1, .ret 1,
      .clearLatest 0, .unlock 0]]

def readersLog : List (RegisterEvent (Fin 3) Content Query Reply) :=
  [.ask 1 (.stableRead 5 false), .publish ⟨1, some [10, 20], none, true, true⟩,
    .ask 2 (.stableRead 5 true), .answer 2 (.stableRead (.found 1 (some [10, 20]))),
    .publish ⟨3, some [30, 40], some 7, true, false⟩,
    .answer 1 (.stableRead (.found 3 (some [30, 40]))),
    .publish ⟨3, some [30, 40], some 7, true, false⟩, .ask 1 (.stableIsLatestVersion 3),
    .answer 1 (.stableIsLatestVersion true), .publish ⟨3, some [30, 40], some 7, false, false⟩,
    .publish ⟨3, some [30, 40], some 7, false, false⟩]

theorem dbtuple_answers_run :
    ∃ x : State 3 × List (RegisterEvent (Fin 3) Content Query Reply), x.2 = readersLog
      ∧ Machine.EachAfter (AnswerFits Content.allows twoBytes.cell.content) x.2 := by
  obtain ⟨x, hx, hlog⟩ := Machine.Reachable.exists_of_exec
    (M := (((dbtuple 3 8).since twoBytes).logged event).guard fun x _ =>
      decide (x.1.unlocks < 2 ^ 27)) (P := fun x => x.2 = readersLog) (s := (twoBytes, []))
    readersRun ⟨rfl, rfl⟩ (by decide +kernel)
  refine ⟨x, hlog, dbtuple_answers ⟨rfl, by decide, .inr ⟨by decide, by decide, rfl⟩⟩
    (Machine.Reachable.of_guard (fun y act h => ?_) hx)⟩
  exact noWrap_of_lt (by simpa using h) act

end Refinement

end TailBench.Silo.Dbtuple
