import Mathlib.Tactic.Basic

set_option autoImplicit false

/-! # Counting loops

`for (i = 0; i < n; ++i)` with a body that may fail, and two of them nested. An invariant may speak
of the number of iterations that are done; in nested loops that is `r * cols + c`, the position in
row-major order.
-/

namespace TailBench.Lib

variable {σ : Type*}

/-- The body `f` for `i` from 0 to `n - 1`; `none` when it fails. -/
def forRange : (n : Nat) → (f : Nat → σ → Option σ) → σ → Option σ
  | 0, _, s => some s
  | n + 1, f, s => (forRange n f s).bind (f n)

/-- The body for every row and column, row by row. -/
def forGrid (rows cols : Nat) (f : Nat → Nat → σ → Option σ) : σ → Option σ :=
  forRange rows fun r => forRange cols (f r)

/-- **The loop rule**: the body does not fail, and what it keeps holds afterwards. -/
theorem forRange_spec {n : Nat} {f : Nat → σ → Option σ} {s : σ} (I : Nat → σ → Prop)
    (hinit : I 0 s)
    (hstep : ∀ i < n, ∀ s, I i s → ∃ s', f i s = some s' ∧ I (i + 1) s') :
    ∃ s', forRange n f s = some s' ∧ I n s' := by
  induction n with
  | zero => exact ⟨s, rfl, hinit⟩
  | succ n ih =>
      obtain ⟨s₁, hrun, hI⟩ := ih fun i hi => hstep i (by omega)
      obtain ⟨s₂, hbody, hI'⟩ := hstep n (by omega) s₁ hI
      exact ⟨s₂, by rw [forRange, hrun, Option.bind_some, hbody], hI'⟩

/-- The rule for nested loops. -/
theorem forGrid_spec (rows cols : Nat) {f : Nat → Nat → σ → Option σ} {s : σ} (I : Nat → σ → Prop)
    (hinit : I 0 s)
    (hstep : ∀ r < rows, ∀ c < cols, ∀ s, I (r * cols + c) s →
      ∃ s', f r c s = some s' ∧ I (r * cols + c + 1) s') :
    ∃ s', forGrid rows cols f s = some s' ∧ I (rows * cols) s' := by
  refine forRange_spec (fun r => I (r * cols)) (by rwa [Nat.zero_mul]) fun r hr s hI => ?_
  rw [Nat.succ_mul]
  exact forRange_spec (fun c => I (r * cols + c)) hI (hstep r hr)

end TailBench.Lib
