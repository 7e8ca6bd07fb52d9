import Mathlib.Logic.Basic

/-!
# State machines

A partial step function over labels. `Reach ok` are the states of the runs all of whose steps
satisfy `ok`; with no condition on the steps they are the reachable states.
-/

namespace Libcn.Lib

/-- A machine: its initial states, and the step a label makes, if it can be made. -/
structure Machine (σ α : Type) where
  init : σ → Prop
  step : σ → α → Option σ

namespace Machine

variable {σ α : Type} (M : Machine σ α)

/-- The states of the runs whose steps all satisfy `ok`. -/
inductive Reach (ok : σ → α → Prop) : σ → Prop
  | init {s : σ} (h : M.init s) : Reach ok s
  | step {s s' : σ} {a : α} (h : Reach ok s) (hok : ok s a) (hs : M.step s a = some s') :
      Reach ok s'

/-- The states of all runs. -/
def Reachable (s : σ) : Prop := M.Reach (fun _ _ => True) s

variable {M}

/-- What holds at the start and is kept by every allowed step holds in every state of the
allowed runs. -/
theorem Reach.invariant {ok : σ → α → Prop} {I : σ → Prop} (hinit : ∀ s, M.init s → I s)
    (hstep : ∀ s a s', I s → ok s a → M.step s a = some s' → I s') {s : σ} (h : M.Reach ok s) :
    I s := by
  induction h with
  | init h => exact hinit _ h
  | step _ hok hs ih => exact hstep _ _ _ ih hok hs

/-- The state after a list of labels, if each step is allowed and can be made. -/
def run (M : Machine σ α) (ok : σ → α → Prop) [∀ s a, Decidable (ok s a)] (s : σ) (as : List α) :
    Option σ :=
  as.foldlM (fun s a => if ok s a then M.step s a else none) s

/-- A list of labels leads from a state of the allowed runs to another. -/
theorem Reach.run {ok : σ → α → Prop} [∀ s a, Decidable (ok s a)] {s s' : σ} (h : M.Reach ok s)
    {as : List α} (hrun : M.run ok s as = some s') : M.Reach ok s' := by
  induction as generalizing s with
  | nil =>
    cases hrun
    exact h
  | cons a as ih =>
    rw [Machine.run, List.foldlM_cons] at hrun
    obtain ⟨s₁, hs₁, hrun⟩ := Option.bind_eq_some_iff.mp hrun
    by_cases hok : ok s a
    · rw [if_pos hok] at hs₁
      exact ih (.step h hok hs₁) hrun
    · rw [if_neg hok] at hs₁
      cases hs₁

/-! ## Runs from a given state -/

/-- The states of the runs from `s₀`. -/
def After (M : Machine σ α) (s₀ : σ) : σ → Prop :=
  ({ M with init := fun s => s = s₀ } : Machine σ α).Reachable

theorem After.refl (s₀ : σ) : M.After s₀ s₀ := Reach.init rfl

theorem After.step {s₀ s s' : σ} {a : α} (h : M.After s₀ s) (hs : M.step s a = some s') :
    M.After s₀ s' := Reach.step (M := { M with init := fun s => s = s₀ }) h trivial hs

/-- What every step keeps is kept by a run. -/
theorem After.invariant {I : σ → Prop} {s₀ s : σ} (h : M.After s₀ s)
    (hstep : ∀ s a s', I s → M.step s a = some s' → I s') (h₀ : I s₀) : I s := by
  refine Reach.invariant (M := { M with init := fun s => s = s₀ }) (fun s hs => ?_)
    (fun s a s' hi _ => hstep s a s' hi) h
  rw [show s = s₀ from hs]
  exact h₀

theorem After.reachable {s₀ s : σ} (h : M.After s₀ s) (h₀ : M.Reachable s₀) : M.Reachable s :=
  h.invariant (fun _ _ _ hi hs => Reach.step hi trivial hs) h₀

theorem After.trans {s₀ s₁ s₂ : σ} (h : M.After s₀ s₁) (h' : M.After s₁ s₂) : M.After s₀ s₂ :=
  h'.invariant (fun _ _ _ hi hs => hi.step hs) h

end Machine

end Libcn.Lib
