import Libcn.Lib.Machine
import Mathlib.Algebra.BigOperators.Group.List.Basic
import Mathlib.Algebra.GroupWithZero.Nat
import Mathlib.Data.Fintype.Card

/-!
# Budgets

A rank that every step lowers, up to what its label grants, bounds the length of runs.
-/

namespace Libcn.Lib

namespace Machine

variable {σ α : Type} {M : Machine σ α} {ok : σ → α → Prop} [∀ s a, Decidable (ok s a)]

/-- The first step of a run. -/
lemma run_cons {s s' : σ} {a : α} {as : List α} (h : M.run ok s (a :: as) = some s') :
    ∃ s₁, ok s a ∧ M.step s a = some s₁ ∧ M.run ok s₁ as = some s' := by
  rw [run, List.foldlM_cons] at h
  obtain ⟨s₁, hs₁, h⟩ := Option.bind_eq_some_iff.mp h
  by_cases hok : ok s a
  · rw [if_pos hok] at hs₁
    exact ⟨s₁, hok, hs₁, h⟩
  · rw [if_neg hok] at hs₁
    cases hs₁

/-- A run is no longer than its budget: the rank at its start and what its labels grant. -/
theorem run_length_le (rank : σ → ℕ) (grant : α → ℕ) {I : σ → Prop} {P : α → Prop}
    (hstep : ∀ s a s', I s → P a → ok s a → M.step s a = some s' →
      I s' ∧ rank s' + 1 ≤ rank s + grant a) {s s' : σ} {as : List α} (h : I s)
    (hP : ∀ a ∈ as, P a) (hrun : M.run ok s as = some s') :
    rank s' + as.length ≤ rank s + (as.map grant).sum := by
  induction as generalizing s with
  | nil =>
    obtain rfl := Option.some.inj hrun
    simp
  | cons a as ih =>
    obtain ⟨s₁, hok, hs₁, hrun⟩ := run_cons hrun
    obtain ⟨h₁, hle⟩ := hstep s a s₁ h (hP a (.head _)) hok hs₁
    have := ih h₁ (fun a ha => hP a (.tail _ ha)) hrun
    rw [List.length_cons, List.map_cons, List.sum_cons]
    omega

end Machine

/-! ## Bits that are set -/

section

variable {α : Type} [Fintype α]

/-- How many bits are set. -/
def countSet (f : α → Bool) : ℕ := (Finset.univ.filter fun a => f a = true).card

lemma countSet_le (f : α → Bool) : countSet f ≤ Fintype.card α := Finset.card_le_univ _

/-- Only the bit `a` may be set anew. -/
lemma countSet_le_add_one [DecidableEq α] {f g : α → Bool} (a : α)
    (h : ∀ b, g b = true → f b = true ∨ b = a) : countSet g ≤ countSet f + 1 := by
  have hsub : (Finset.univ.filter fun b => g b = true) ⊆
      insert a (Finset.univ.filter fun b => f b = true) := by
    intro b hb
    have := h b (Finset.mem_filter.mp hb).2
    simp only [Finset.mem_insert, Finset.mem_filter, Finset.mem_univ, true_and]
    tauto
  exact (Finset.card_le_card hsub).trans (Finset.card_insert_le _ _)

/-- No bit is set anew. -/
lemma countSet_mono {f g : α → Bool} (h : ∀ b, g b = true → f b = true) :
    countSet g ≤ countSet f :=
  Finset.card_le_card fun b hb => by
    simpa using h b (Finset.mem_filter.mp hb).2

/-- No bit is set anew, and one is cleared. -/
lemma countSet_lt {f g : α → Bool} (h : ∀ b, g b = true → f b = true) {a : α}
    (hf : f a = true) (hg : g a = false) : countSet g < countSet f := by
  refine Finset.card_lt_card ⟨fun b hb => ?_, fun hsub => ?_⟩
  · simpa using h b (Finset.mem_filter.mp hb).2
  · have : a ∈ Finset.univ.filter fun b => g b = true := hsub (by simpa using hf)
    rw [(Finset.mem_filter.mp this).2] at hg
    cases hg

end

end Libcn.Lib
