import Mathlib.Logic.Basic

/-!
# Partial results

A program in `Option` with more faults than another one: where it ends, the other one ends with the
same result. A program with assertions is within the program without them.
-/

namespace Libcn.Lib

variable {α β : Type}

/-- Where `x` has a result, `y` has the same. -/
def Within (x y : Option α) : Prop := ∀ a, x = some a → y = some a

namespace Within

lemma refl (x : Option α) : Within x x := fun _ => id

lemma none (y : Option α) : Within Option.none y := fun _ h => nomatch h

theorem bind {x y : Option α} {f g : α → Option β} (h : Within x y) (hf : ∀ a, Within (f a) (g a)) :
    Within (x >>= f) (y >>= g) := by
  intro b hb
  obtain ⟨a, ha, hb⟩ := Option.bind_eq_some_iff.mp hb
  exact Option.bind_eq_some_iff.mpr ⟨a, h a ha, hf a b hb⟩

/-- An assertion before a program. -/
theorem after_check {γ : Type} {c : Option γ} {f : γ → Option α} {y : Option α}
    (h : ∀ u, Within (f u) y) : Within (c >>= f) y := by
  intro a ha
  obtain ⟨u, -, ha⟩ := Option.bind_eq_some_iff.mp ha
  exact h u a ha

theorem ite {p : Prop} [Decidable p] {x x' y y' : Option α} (hx : Within x y)
    (hx' : Within x' y') : Within (if p then x else x') (if p then y else y') := by
  split
  · exact hx
  · exact hx'

end Within

end Libcn.Lib
