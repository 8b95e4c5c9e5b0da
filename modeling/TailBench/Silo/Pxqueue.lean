import Mathlib.Data.List.Basic
import Mathlib.Order.Basic

set_option autoImplicit false

/-! # The queue of a cleaner

`basic_px_queue` (`silo/pxqueue.h`): groups of at most `N` elements of one epoch. What is put in is
taken out in the same order (`stamped_enqueue`, `stamped_acceptFrom`), and a cleaner that accepts an
epoch takes all of it (`lt_of_mem_rest`), because the epochs in a queue never go down.
-/

namespace TailBench.Silo

structure PxGroup (α : Type*) where
  tick : Nat
  pxs : List α
  deriving DecidableEq, Repr

/-- The groups between `head_` and `tail_`. -/
abbrev PxQueue (α : Type*) := List (PxGroup α)

namespace PxQueue

variable {α : Type*}

/-- A group is added when the last one is full or of another epoch. -/
def enqueue (N : Nat) (q : PxQueue α) (t : α) (tick : Nat) : PxQueue α :=
  match q.getLast? with
  | none => [⟨tick, [t]⟩]
  | some g =>
      if g.pxs.length = N ∨ g.tick ≠ tick then q ++ [⟨tick, [t]⟩]
      else q.dropLast ++ [⟨tick, g.pxs ++ [t]⟩]

/-- What an empty queue accepts from `q`, and what stays there. -/
def emptyAcceptFrom (tick : Nat) : PxQueue α → PxQueue α × PxQueue α
  | [] => ([], [])
  | g :: q =>
      if g.tick ≤ tick then
        let (accepted, rest) := emptyAcceptFrom tick q
        (g :: accepted, rest)
      else ([], g :: q)

/-- The elements with their epochs. -/
def stamped (q : PxQueue α) : List (Nat × α) := q.flatMap fun g => g.pxs.map fun t => (g.tick, t)

/-- `sanity_check`: no group is empty or too long, and the epochs do not go down. -/
structure Sane (N : Nat) (q : PxQueue α) : Prop where
  size : ∀ g ∈ q, 0 < g.pxs.length ∧ g.pxs.length ≤ N
  sorted : q.Pairwise fun g g' => g.tick ≤ g'.tick

variable {N tick : Nat} {q : PxQueue α} {t : α}

theorem stamped_append (q q' : PxQueue α) : stamped (q ++ q') = stamped q ++ stamped q' :=
  List.flatMap_append

theorem enqueue_concat (q : PxQueue α) (g : PxGroup α) : enqueue N (q ++ [g]) t tick =
    if g.pxs.length = N ∨ g.tick ≠ tick then q ++ [g] ++ [⟨tick, [t]⟩]
    else q ++ [⟨tick, g.pxs ++ [t]⟩] := by
  rw [enqueue, List.getLast?_append_cons, List.getLast?_singleton, List.dropLast_concat]

theorem stamped_enqueue (q : PxQueue α) (t : α) (tick : Nat) :
    stamped (enqueue N q t tick) = stamped q ++ [(tick, t)] := by
  rcases List.eq_nil_or_concat q with rfl | ⟨q, g, rfl⟩
  · rfl
  · rw [List.concat_eq_append, enqueue_concat]
    split
    · rw [stamped_append (q ++ [g])]
      rfl
    · next h =>
        rw [not_or, not_not] at h
        rw [stamped_append, stamped_append, List.append_assoc]
        simp [stamped, h.2]

theorem map_snd_stamped (q : PxQueue α) : (stamped q).map Prod.snd = q.flatMap (·.pxs) := by
  rw [stamped, List.map_flatMap]
  simp [Function.comp_def]

/-- The elements without their epochs. -/
theorem flatMap_enqueue (q : PxQueue α) (t : α) (tick : Nat) :
    (enqueue N q t tick).flatMap (·.pxs) = q.flatMap (·.pxs) ++ [t] := by
  rw [← map_snd_stamped, stamped_enqueue, List.map_append, map_snd_stamped]
  rfl

theorem tick_of_mem_enqueue {g : PxGroup α} (hg : g ∈ enqueue N q t tick) :
    g.tick = tick ∨ ∃ g' ∈ q, g'.tick = g.tick := by
  rcases List.eq_nil_or_concat q with rfl | ⟨q, g', rfl⟩
  · exact .inl (congrArg PxGroup.tick (List.mem_singleton.mp hg))
  · rw [List.concat_eq_append] at hg ⊢
    rw [enqueue_concat] at hg
    split at hg
    · rcases List.mem_append.mp hg with hg | hg
      · exact .inr ⟨g, hg, rfl⟩
      · exact .inl (congrArg PxGroup.tick (List.mem_singleton.mp hg))
    · rcases List.mem_append.mp hg with hg | hg
      · exact .inr ⟨g, List.mem_append_left _ hg, rfl⟩
      · exact .inl (congrArg PxGroup.tick (List.mem_singleton.mp hg))

theorem Sane.enqueue (h : Sane N q) (hN : 0 < N) (htick : ∀ g ∈ q, g.tick ≤ tick) :
    Sane N (enqueue N q t tick) := by
  rcases List.eq_nil_or_concat q with rfl | ⟨q, g, rfl⟩
  · refine ⟨fun g hg => ?_, List.pairwise_singleton _ _⟩
    obtain rfl := List.mem_singleton.mp hg
    exact ⟨Nat.one_pos, hN⟩
  · rw [List.concat_eq_append] at h htick ⊢
    rw [enqueue_concat]
    obtain ⟨hsize, hsorted⟩ := h
    split
    · refine ⟨fun g' hg' => ?_, ?_⟩
      · rcases List.mem_append.mp hg' with hg' | hg'
        · exact hsize g' hg'
        · obtain rfl := List.mem_singleton.mp hg'
          exact ⟨Nat.one_pos, hN⟩
      · refine List.pairwise_append.mpr ⟨hsorted, List.pairwise_singleton _ _, ?_⟩
        intro g' hg' x hx
        obtain rfl := List.mem_singleton.mp hx
        exact htick g' hg'
    · next hsame =>
        rw [not_or, not_not] at hsame
        have hg := hsize g (List.mem_append_right q (List.mem_singleton_self g))
        refine ⟨fun g' hg' => ?_, ?_⟩
        · rcases List.mem_append.mp hg' with hg' | hg'
          · exact hsize g' (List.mem_append_left _ hg')
          · obtain rfl := List.mem_singleton.mp hg'
            rw [List.length_append, List.length_singleton]
            omega
        · rw [List.pairwise_append] at hsorted ⊢
          refine ⟨hsorted.1, List.pairwise_singleton _ _, fun g' hg' x hx => ?_⟩
          obtain rfl := List.mem_singleton.mp hx
          exact htick g' (List.mem_append_left _ hg')

/-- Nothing is lost or put in another order. -/
theorem acceptFrom_append (tick : Nat) (q : PxQueue α) :
    (emptyAcceptFrom tick q).1 ++ (emptyAcceptFrom tick q).2 = q := by
  induction q with
  | nil => rfl
  | cons g q ih =>
      rw [emptyAcceptFrom]
      split
      · rw [List.cons_append, ih]
      · rfl

theorem stamped_acceptFrom (tick : Nat) (q : PxQueue α) :
    stamped (emptyAcceptFrom tick q).1 ++ stamped (emptyAcceptFrom tick q).2 = stamped q := by
  rw [← stamped_append, acceptFrom_append]

theorem le_of_mem_accepted {g : PxGroup α} (hg : g ∈ (emptyAcceptFrom tick q).1) :
    g.tick ≤ tick := by
  induction q with
  | nil => cases hg
  | cons g' q ih =>
      rw [emptyAcceptFrom] at hg
      split at hg
      · next hle =>
          rcases List.mem_cons.mp hg with rfl | hg
          · exact hle
          · exact ih hg
      · cases hg

/-- Everything of the accepted epochs is taken. -/
theorem lt_of_mem_rest (h : q.Pairwise fun g g' => g.tick ≤ g'.tick) {g : PxGroup α}
    (hg : g ∈ (emptyAcceptFrom tick q).2) : tick < g.tick := by
  induction q with
  | nil => cases hg
  | cons g' q ih =>
      rw [emptyAcceptFrom] at hg
      rw [List.pairwise_cons] at h
      split at hg
      · exact ih h.2 hg
      · next hlt =>
          rcases List.mem_cons.mp hg with rfl | hg
          · exact Nat.lt_of_not_le hlt
          · exact Nat.lt_of_lt_of_le (Nat.lt_of_not_le hlt) (h.1 g hg)

theorem Sane.accepted (h : Sane N q) (tick : Nat) :
    Sane N (emptyAcceptFrom tick q).1 ∧ Sane N (emptyAcceptFrom tick q).2 := by
  obtain ⟨hsize, hsorted⟩ := h
  rw [← acceptFrom_append tick q] at hsize hsorted
  rw [List.pairwise_append] at hsorted
  exact ⟨⟨fun g hg => hsize g (List.mem_append_left _ hg), hsorted.1⟩,
    ⟨fun g hg => hsize g (List.mem_append_right _ hg), hsorted.2.1⟩⟩

end PxQueue

end TailBench.Silo
