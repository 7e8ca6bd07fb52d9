import Mathlib.Data.List.Nodup
import Mathlib.Data.List.Pairwise
import Mathlib.Order.Nat

/-!
# Regions of memory

Half-open intervals of addresses, and lists of pairwise disjoint ones.
-/

namespace Libcn.Lib

/-- The addresses from `start` up to `start + size`. -/
structure Region where
  start : ℕ
  size : ℕ
  deriving DecidableEq, Repr

namespace Region

/-- The first address after the region. -/
def stop (r : Region) : ℕ := r.start + r.size

/-- The regions share no address. -/
def Apart (r r' : Region) : Prop :=
  r.size = 0 ∨ r'.size = 0 ∨ r.stop ≤ r'.start ∨ r'.stop ≤ r.start

/-- The regions share no address even when each is counted as one address long at least, so
that they start at different addresses. -/
def Clear (r r' : Region) : Prop :=
  r.start + max r.size 1 ≤ r'.start ∨ r'.start + max r'.size 1 ≤ r.start

instance (r r' : Region) : Decidable (r.Apart r') := inferInstanceAs (Decidable (_ ∨ _))
instance (r r' : Region) : Decidable (r.Clear r') := inferInstanceAs (Decidable (_ ∨ _))

/-- The region lies in the other one. -/
def Within (r o : Region) : Prop := o.start ≤ r.start ∧ r.stop ≤ o.stop

lemma Within.refl (r : Region) : r.Within r := ⟨Nat.le_refl _, Nat.le_refl _⟩

lemma Apart.symm {r r' : Region} (h : r.Apart r') : r'.Apart r := by
  unfold Apart at *
  omega

lemma Clear.symm {r r' : Region} (h : r.Clear r') : r'.Clear r := by
  unfold Clear at *
  omega

lemma Clear.apart {r r' : Region} (h : r.Clear r') : r.Apart r' := by
  unfold Clear at h
  unfold Apart stop
  omega

lemma Clear.start_ne {r r' : Region} (h : r.Clear r') : r.start ≠ r'.start := by
  unfold Clear at h
  omega

/-- Parts of disjoint regions are disjoint. -/
lemma Apart.within {r r' o o' : Region} (h : o.Apart o') (hr : r.Within o) (hr' : r'.Within o') :
    r.Apart r' := by
  unfold Apart Within stop at *
  omega

instance : Std.Symm Apart := ⟨fun _ _ h => h.symm⟩
instance : Std.Symm Clear := ⟨fun _ _ h => h.symm⟩

/-- Members of a list of clear regions that start at different addresses are clear. -/
lemma clear_of_mem {l : List Region} (h : l.Pairwise Clear) {r r' : Region} (hr : r ∈ l)
    (hr' : r' ∈ l) (hne : r.start ≠ r'.start) : r.Clear r' := by
  refine h.forall hr hr' ?_
  rintro rfl
  exact hne rfl

end Region

end Libcn.Lib
