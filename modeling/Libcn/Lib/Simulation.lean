import Libcn.Lib.Machine
import Mathlib.Algebra.Order.Group.Nat
import Mathlib.Logic.Relation

/-!
# Forward simulation

A relation that a step of one machine carries along, while the other machine makes any number of
allowed steps, also zero, is carried along every run. So what holds of the states of the runs of
the second machine can be used of the first. Steps that lower a rank can be made to their end.
-/

namespace Libcn.Lib

namespace Machine

variable {σ α τ β : Type} {M : Machine σ α} {N : Machine τ β} {ok : σ → α → Prop}
  {ok' : τ → β → Prop}

/-- Any number of allowed steps. -/
def Steps (N : Machine τ β) (ok' : τ → β → Prop) : τ → τ → Prop :=
  Relation.ReflTransGen fun t t' => ∃ b, ok' t b ∧ N.step t b = some t'

theorem Steps.refl (t : τ) : N.Steps ok' t t := Relation.ReflTransGen.refl

theorem Steps.cons {t t₁ t' : τ} {b : β} (hok : ok' t b) (hs : N.step t b = some t₁)
    (h : N.Steps ok' t₁ t') : N.Steps ok' t t' := Relation.ReflTransGen.head ⟨b, hok, hs⟩ h

theorem Steps.snoc {t t₁ t' : τ} {b : β} (h : N.Steps ok' t t₁) (hok : ok' t₁ b)
    (hs : N.step t₁ b = some t') : N.Steps ok' t t' := Relation.ReflTransGen.tail h ⟨b, hok, hs⟩

/-- If a state that is not done yet can always make a step that lowers the rank, then there is a
run to one that is done. -/
theorem Steps.drain (rank : τ → ℕ) (I done : τ → Prop)
    (hstep : ∀ t, I t → ¬ done t →
      ∃ b t', ok' t b ∧ N.step t b = some t' ∧ I t' ∧ rank t' < rank t) {t : τ} (ht : I t) :
    ∃ t', N.Steps ok' t t' ∧ I t' ∧ done t' := by
  induction hr : rank t using Nat.strong_induction_on generalizing t with
  | h r ih =>
    by_cases hdone : done t
    · exact ⟨t, .refl t, ht, hdone⟩
    obtain ⟨b, t₁, hok, hs, ht₁, hlt⟩ := hstep t ht hdone
    obtain ⟨t', hsteps, ht', hdone'⟩ := ih (rank t₁) (hr ▸ hlt) ht₁ rfl
    exact ⟨t', .cons hok hs hsteps, ht', hdone'⟩

theorem Reach.steps {t t' : τ} (h : N.Reach ok' t) (hs : N.Steps ok' t t') : N.Reach ok' t' := by
  induction hs with
  | refl => exact h
  | tail _ hs ih =>
    obtain ⟨b, hok, hs⟩ := hs
    exact .step ih hok hs

/-- Forward simulation: every state of the allowed runs of the first machine is related to one of
the allowed runs of the second. -/
theorem Reach.simulates {R : σ → τ → Prop} (hinit : ∀ s, M.init s → ∃ t, N.init t ∧ R s t)
    (hstep : ∀ s a s' t, R s t → ok s a → M.step s a = some s' →
      ∃ t', N.Steps ok' t t' ∧ R s' t') {s : σ} (h : M.Reach ok s) :
    ∃ t, N.Reach ok' t ∧ R s t := by
  induction h with
  | init h =>
    obtain ⟨t, ht, hR⟩ := hinit _ h
    exact ⟨t, .init ht, hR⟩
  | step _ hok hs ih =>
    obtain ⟨t, ht, hR⟩ := ih
    obtain ⟨t', hsteps, hR'⟩ := hstep _ _ _ t hR hok hs
    exact ⟨t', ht.steps hsteps, hR'⟩

end Machine

end Libcn.Lib
