import Mathlib.Data.List.Infix
import Mathlib.Logic.Function.Basic
import TailBench.Lib.Machine

set_option autoImplicit false

/-! # A register and its readers

A value that is replaced as a whole (`publish`), and threads that ask about it. A thread looks at the
value in one step, may do so again, and answers with what fits one value that it has seen; `ok q c r`
says that `r` is an answer to `q` for the value `c`.

`register_answers`: every answer in the log of a run fits a value that the register had at a moment
between the question and the answer.
-/

namespace TailBench.Lib

/-- Where a thread is with its question. -/
inductive Asking (κ Q R : Type*) where
  | idle
  | asking (q : Q) (seen : Option κ)
  | answered (r : R)

structure Register (ι κ Q R : Type*) where
  content : κ
  pc : ι → Asking κ Q R

inductive RegisterAction (ι κ Q R : Type*) where
  | publish (c : κ)
  | ask (i : ι) (q : Q)
  | look (i : ι)
  | forget (i : ι)
  | decide (i : ι) (r : R)
  | answer (i : ι)

inductive RegisterEvent (ι κ Q R : Type*) where
  | publish (c : κ)
  | ask (i : ι) (q : Q)
  | answer (i : ι) (r : R)
  deriving DecidableEq, Repr

namespace Register

variable {ι κ Q R : Type*} [DecidableEq ι]

def setPc (r : Register ι κ Q R) (i : ι) (p : Asking κ Q R) : Register ι κ Q R :=
  { r with pc := Function.update r.pc i p }

def next (ok : Q → κ → R → Bool) (r : Register ι κ Q R) :
    RegisterAction ι κ Q R → Option (Register ι κ Q R)
  | .publish c => some { r with content := c }
  | .ask i q =>
      match r.pc i with
      | .idle => some (r.setPc i (.asking q none))
      | _ => none
  | .look i =>
      match r.pc i with
      | .asking q _ => some (r.setPc i (.asking q (some r.content)))
      | _ => none
  | .forget i =>
      match r.pc i with
      | .asking q _ => some (r.setPc i (.asking q none))
      | _ => none
  | .decide i a =>
      match r.pc i with
      | .asking q (some c) => if ok q c a then some (r.setPc i (.answered a)) else none
      | _ => none
  | .answer i =>
      match r.pc i with
      | .answered _ => some (r.setPc i .idle)
      | _ => none

/-- What can be seen of a step from outside. -/
def event (r : Register ι κ Q R) :
    RegisterAction ι κ Q R → Register ι κ Q R → Option (RegisterEvent ι κ Q R)
  | .publish c, _ => some (.publish c)
  | .ask i q, _ => some (.ask i q)
  | .answer i, _ =>
      match r.pc i with
      | .answered a => some (.answer i a)
      | _ => none
  | _, _ => none

end Register

/-- The register that begins with `c₀`. -/
def register (ι : Type*) {κ Q R : Type*} [DecidableEq ι] (ok : Q → κ → R → Bool) (c₀ : κ) :
    Machine (Register ι κ Q R) (RegisterAction ι κ Q R) where
  init r := r.content = c₀ ∧ ∀ i, r.pc i = .idle
  next a r := r.next ok a

/-- A thread looks and answers at once. -/
theorem Register.leads_decide {ι κ Q R : Type*} [DecidableEq ι] {ok : Q → κ → R → Bool} {c₀ : κ}
    {r : Register ι κ Q R} {i : ι} {q : Q} {seen : Option κ} {a : R} (h : r.pc i = .asking q seen)
    (hok : ok q r.content a = true) (l : List (RegisterEvent ι κ Q R)) :
    ((register ι ok c₀).logged Register.event).Leads (r, l) (r.setPc i (.answered a), l) := by
  refine .trans (t := (r.setPc i (.asking q (some r.content)), l)) ?_ ?_
  · refine .single (a := .look i) (Machine.logged_next.mpr ⟨?_, ?_⟩)
    · simp only [register, next, h]
    · exact (List.append_nil l).symm
  · refine .single (a := .decide i a) (Machine.logged_next.mpr ⟨?_, ?_⟩)
    · have hpc : (r.setPc i (.asking q (some r.content))).pc i = .asking q (some r.content) :=
        Function.update_self ..
      simp only [register, next, hpc, hok, if_true]
      rw [setPc, setPc, setPc, Function.update_idem]
    · exact (List.append_nil l).symm

/-! ## What the log says -/

section Log

variable {ι κ Q R : Type*}

/-- The thread asks or answers. -/
def RegisterEvent.by : RegisterEvent ι κ Q R → Option ι
  | .publish _ => none
  | .ask i _ | .answer i _ => some i

/-- The value after a log. -/
def current (c₀ : κ) (l : List (RegisterEvent ι κ Q R)) : κ :=
  l.foldl (fun c e => match e with | .publish c' => c' | _ => c) c₀

/-- The log ends with `l₂` after the last question of the thread, `q`. -/
structure Asked (i : ι) (q : Q) (l l₁ l₂ : List (RegisterEvent ι κ Q R)) : Prop where
  split : l = l₁ ++ .ask i q :: l₂
  quiet : ∀ e ∈ l₂, e.by ≠ some i

/-- The register had the value at a moment of `l₂`, after `l₁`. -/
def Had (c₀ : κ) (l₁ l₂ : List (RegisterEvent ι κ Q R)) (c : κ) : Prop :=
  ∃ m, m <+: l₂ ∧ c = current c₀ (l₁ ++ m)

/-- An answer fits a value that the register had since the question. -/
def AnswerFits (ok : Q → κ → R → Bool) (c₀ : κ) (l : List (RegisterEvent ι κ Q R)) :
    RegisterEvent ι κ Q R → Prop
  | .answer i r => ∃ q l₁ l₂ c, Asked i q l l₁ l₂ ∧ Had c₀ l₁ l₂ c ∧ ok q c r = true
  | _ => True

variable {i : ι} {q : Q} {c₀ c : κ} {l l₁ l₂ : List (RegisterEvent ι κ Q R)}
  {e : RegisterEvent ι κ Q R}

theorem current_concat (c₀ : κ) (l : List (RegisterEvent ι κ Q R)) (e : RegisterEvent ι κ Q R) :
    current c₀ (l ++ [e]) = match e with | .publish c => c | _ => current c₀ l := by
  rw [current, List.foldl_append]
  rfl

theorem current_ask (c₀ : κ) (l₁ l₂ : List (RegisterEvent ι κ Q R)) (i : ι) (q : Q) :
    current c₀ (l₁ ++ .ask i q :: l₂) = current c₀ (l₁ ++ l₂) := by
  rw [current, current, List.foldl_append, List.foldl_append]
  rfl

theorem Asked.now (l : List (RegisterEvent ι κ Q R)) : Asked i q (l ++ [.ask i q]) l [] :=
  ⟨rfl, by simp⟩

theorem Asked.concat (h : Asked i q l l₁ l₂) (he : e.by ≠ some i) :
    Asked i q (l ++ [e]) l₁ (l₂ ++ [e]) := by
  refine ⟨by rw [h.split, List.append_assoc, List.cons_append], fun x hx => ?_⟩
  rcases List.mem_append.mp hx with hx | hx
  · exact h.quiet x hx
  · rw [List.mem_singleton.mp hx]
    exact he

theorem Had.concat (h : Had c₀ l₁ l₂ c) (e : RegisterEvent ι κ Q R) :
    Had c₀ l₁ (l₂ ++ [e]) c := by
  obtain ⟨m, hm, hc⟩ := h
  exact ⟨m, hm.trans (List.prefix_append l₂ [e]), hc⟩

/-- What a thread knows is from the log. -/
def Asking.Known (ok : Q → κ → R → Bool) (c₀ : κ) (l : List (RegisterEvent ι κ Q R)) (i : ι) :
    Asking κ Q R → Prop
  | .idle => True
  | .asking q seen => ∃ l₁ l₂, Asked i q l l₁ l₂ ∧ ∀ c, seen = some c → Had c₀ l₁ l₂ c
  | .answered r => AnswerFits ok c₀ l (.answer i r)

variable {ok : Q → κ → R → Bool} {p : Asking κ Q R}

theorem Asking.Known.concat (h : p.Known ok c₀ l i) (he : e.by ≠ some i) :
    p.Known ok c₀ (l ++ [e]) i := by
  cases p with
  | idle => trivial
  | asking q seen =>
      obtain ⟨l₁, l₂, hasked, hseen⟩ := h
      exact ⟨l₁, l₂ ++ [e], hasked.concat he, fun c hc => (hseen c hc).concat e⟩
  | answered r =>
      obtain ⟨q, l₁, l₂, c, hasked, hhad, hok⟩ := h
      exact ⟨q, l₁, l₂ ++ [e], c, hasked.concat he, hhad.concat e, hok⟩

end Log

/-! ## Every run -/

section Runs

variable {ι κ Q R : Type*} [DecidableEq ι] {ok : Q → κ → R → Bool} {c₀ : κ}

/-- The register has the last value of the log, and the threads know what is in it. -/
structure Register.Wf (ok : Q → κ → R → Bool) (c₀ : κ)
    (x : Register ι κ Q R × List (RegisterEvent ι κ Q R)) : Prop where
  content : x.1.content = current c₀ x.2
  known : ∀ i, (x.1.pc i).Known ok c₀ x.2 i

variable {r : Register ι κ Q R} {l : List (RegisterEvent ι κ Q R)} {i : ι} {p : Asking κ Q R}

/-- A step of a thread that cannot be seen from outside. -/
theorem Register.Wf.quiet (h : Register.Wf ok c₀ (r, l)) (hp : p.Known ok c₀ l i) :
    Register.Wf ok c₀ (r.setPc i p, l) := by
  refine ⟨h.content, fun j => ?_⟩
  by_cases hj : j = i
  · subst hj
    change (Function.update r.pc j p j).Known ok c₀ l j
    rwa [Function.update_self]
  · change (Function.update r.pc i p j).Known ok c₀ l j
    rw [Function.update_of_ne hj]
    exact h.known j

/-- A step of a thread that can. -/
theorem Register.Wf.visible {e : RegisterEvent ι κ Q R} (h : Register.Wf ok c₀ (r, l))
    (he : e.by = some i) (hp : p.Known ok c₀ (l ++ [e]) i) :
    Register.Wf ok c₀ (r.setPc i p, l ++ [e]) := by
  refine ⟨?_, fun j => ?_⟩
  · rw [current_concat]
    cases e with
    | publish => cases he
    | _ => exact h.content
  · by_cases hj : j = i
    · subst hj
      change (Function.update r.pc j p j).Known ok c₀ (l ++ [e]) j
      rwa [Function.update_self]
    · change (Function.update r.pc i p j).Known ok c₀ (l ++ [e]) j
      rw [Function.update_of_ne hj]
      refine (h.known j).concat ?_
      rw [he]
      exact fun hij => hj (Option.some.inj hij).symm

theorem register_wf {x : Register ι κ Q R × List (RegisterEvent ι κ Q R)}
    (h : ((register ι ok c₀).logged Register.event).Reachable x) : Register.Wf ok c₀ x := by
  refine h.invariant ?_ ?_
  · rintro ⟨r, l⟩ ⟨⟨hc, hidle⟩, hl⟩
    obtain rfl : l = [] := hl
    exact ⟨hc, fun i => by rw [hidle i]; trivial⟩
  · rintro ⟨r, l⟩ a ⟨r', l'⟩ - hwf hn
    obtain ⟨hn, hl⟩ := Machine.logged_next.mp hn
    obtain rfl : l' = l ++ (Register.event r a r').toList := hl
    change r.next ok a = some r' at hn
    cases a with
    | publish c =>
        obtain rfl := Option.some.inj hn
        exact ⟨(current_concat c₀ l (.publish c)).symm,
          fun i => (hwf.known i).concat (by simp [RegisterEvent.by])⟩
    | ask i q =>
        simp only [Register.next] at hn
        split at hn
        · obtain rfl := Option.some.inj hn
          exact hwf.visible rfl ⟨l, [], .now l, by simp⟩
        · cases hn
    | look i =>
        simp only [Register.next] at hn
        split at hn
        · next q seen hpc =>
            obtain rfl := Option.some.inj hn
            have hknown := hwf.known i
            rw [hpc] at hknown
            obtain ⟨l₁, l₂, hasked, -⟩ := hknown
            refine (List.append_nil l).symm ▸ hwf.quiet ⟨l₁, l₂, hasked, fun c hc => ?_⟩
            obtain rfl := Option.some.inj hc
            refine ⟨l₂, List.prefix_refl l₂, ?_⟩
            rw [hwf.content, hasked.split, current_ask]
        · cases hn
    | forget i =>
        simp only [Register.next] at hn
        split at hn
        · next q seen hpc =>
            obtain rfl := Option.some.inj hn
            have hknown := hwf.known i
            rw [hpc] at hknown
            obtain ⟨l₁, l₂, hasked, -⟩ := hknown
            exact (List.append_nil l).symm ▸ hwf.quiet ⟨l₁, l₂, hasked, by simp⟩
        · cases hn
    | decide i a =>
        simp only [Register.next] at hn
        split at hn
        · next q c hpc =>
            split at hn
            · next hok =>
                obtain rfl := Option.some.inj hn
                have hknown := hwf.known i
                rw [hpc] at hknown
                obtain ⟨l₁, l₂, hasked, hseen⟩ := hknown
                exact (List.append_nil l).symm ▸
                  hwf.quiet ⟨q, l₁, l₂, c, hasked, hseen c rfl, hok⟩
            · cases hn
        · cases hn
    | answer i =>
        simp only [Register.next] at hn
        split at hn
        · next a hpc =>
            obtain rfl := Option.some.inj hn
            have hevent : (Register.event r (.answer i) (r.setPc i .idle)).toList
                = [.answer i a] := by
              simp [Register.event, hpc]
            rw [hevent]
            exact hwf.visible rfl trivial
        · cases hn

/-- **Every answer fits a value that the register had between the question and the answer.** -/
theorem register_answers {x : Register ι κ Q R × List (RegisterEvent ι κ Q R)}
    (h : ((register ι ok c₀).logged Register.event).Reachable x) :
    Machine.EachAfter (AnswerFits ok c₀) x.2 := by
  refine h.eachAfter fun y a r' e hr _ hn he => ?_
  cases e with
  | publish => trivial
  | ask => trivial
  | answer i a' =>
      have hknown := (register_wf hr).known i
      cases a with
      | answer j =>
          simp only [Register.event] at he
          split at he
          · next a hpc =>
              obtain ⟨rfl, rfl⟩ : j = i ∧ a = a' := by simpa using he
              rwa [hpc] at hknown
          · cases he
      | _ => cases he

end Runs

end TailBench.Lib
