import Mathlib.Logic.Function.Iterate
import Mathlib.Order.WellFounded

/-!
# Recurrence

What a deterministic step function reaches, once or again and again.
-/

namespace Libcn.Lib

variable {α : Type} (f : α → α) (P : α → Prop)

/-- Some state on the way from `x` satisfies `P`. -/
def LeadsTo (x : α) : Prop := ∃ m, P (f^[m] x)

/-- From every state on the way from `x`, `P` is reached. -/
def Recurs (x : α) : Prop := ∀ t, LeadsTo f P (f^[t] x)

variable {f P}

lemma LeadsTo.now {x : α} (h : P x) : LeadsTo f P x := ⟨0, h⟩

lemma LeadsTo.later {x : α} (h : LeadsTo f P (f x)) : LeadsTo f P x := by
  obtain ⟨m, hm⟩ := h
  exact ⟨m + 1, hm⟩

lemma iterate_invariant {I : α → Prop} (hstep : ∀ x, I x → I (f x)) {x : α} (h : I x) (t : ℕ) :
    I (f^[t] x) := by
  induction t with
  | zero => exact h
  | succ t ih =>
    rw [Function.iterate_succ_apply']
    exact hstep _ ih

/-- A rank that goes down until `P` holds. -/
theorem leadsTo_of_rank {β : Type} {r : β → β → Prop} (hr : WellFounded r) (rank : α → β)
    {I : α → Prop} (hstep : ∀ x, I x → ¬P x → I (f x) ∧ r (rank (f x)) (rank x)) {x : α} (h : I x) :
    LeadsTo f P x := by
  induction hx : rank x using hr.induction generalizing x with
  | _ b ih =>
    by_cases hP : P x
    · exact .now hP
    · obtain ⟨hI, hlt⟩ := hstep x h hP
      exact .later (ih _ (hx ▸ hlt) hI rfl)

/-- An invariant from which `P` is always reached makes it recur. -/
theorem recurs_of_leadsTo {I : α → Prop} (hstep : ∀ x, I x → I (f x))
    (hlead : ∀ x, I x → LeadsTo f P x) {x : α} (h : I x) : Recurs f P x :=
  fun t => hlead _ (iterate_invariant hstep h t)

/-- `P` does not recur where an invariant excludes it. -/
theorem not_recurs {I : α → Prop} (hstep : ∀ x, I x → I (f x)) (hP : ∀ x, I x → ¬P x) {x : α}
    (h : I x) : ¬Recurs f P x := by
  intro hrec
  obtain ⟨m, hm⟩ := hrec 0
  exact hP _ (iterate_invariant hstep h m) hm

end Libcn.Lib
