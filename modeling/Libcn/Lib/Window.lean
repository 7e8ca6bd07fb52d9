import Mathlib.Data.BitVec
import Mathlib.Tactic.Ring

/-!
# Signed difference inside a window

Comparing two wrapping counters by the sign of their difference orders them only while they
stay close. `offset base k` is the distance from `base` up to `k`; inside a window of half
the range above `base` the comparison is the order of offsets.
-/

namespace Libcn.Lib

variable {w : ℕ}

/-- The distance from `base` up to `k`, around the wrap. -/
def offset (base k : BitVec w) : ℕ := (k - base).toNat

/-- The signed difference of two counters of one half-range window has the sign of the
difference of their offsets. -/
lemma sub_toInt_neg_iff {base a b : BitVec w} (ha : 2 * offset base a < 2 ^ w)
    (hb : 2 * offset base b < 2 ^ w) : (a - b).toInt < 0 ↔ offset base a < offset base b := by
  have hab : a - b = (a - base) - (b - base) := by ring
  have hd := BitVec.toNat_sub (a - base) (b - base)
  rw [← hab] at hd
  unfold offset at *
  rw [BitVec.toInt_neg_iff, hd]
  by_cases h : (a - base).toNat < (b - base).toNat
  · rw [Nat.mod_eq_of_lt (by omega)]
    omega
  · have : 2 ^ w - (b - base).toNat + (a - base).toNat =
        (a - base).toNat - (b - base).toNat + 2 ^ w := by omega
    rw [this, Nat.add_mod_right, Nat.mod_eq_of_lt (by omega)]
    omega

/-- The keys lie among fewer than `2 ^ (w - 1)` consecutive values. -/
def InWindow (keys : List (BitVec w)) : Prop :=
  ∃ base : BitVec w, ∃ size : ℕ, 2 * size < 2 ^ w ∧ ∀ k ∈ keys, offset base k < size

/-- A comparison that orders `keys` as some rank does. -/
def Ranks (less : BitVec w → BitVec w → Bool) (keys : List (BitVec w)) : Prop :=
  ∃ f : BitVec w → ℕ, ∀ a ∈ keys, ∀ b ∈ keys, less a b = true ↔ f a < f b

/-- Within half the range above `base` the sign of the difference is an order. -/
lemma ranks_of_offset (base : BitVec w) {keys : List (BitVec w)}
    (h : ∀ k ∈ keys, 2 * offset base k < 2 ^ w) :
    Ranks (fun a b => decide ((a - b).toInt < 0)) keys := by
  refine ⟨offset base, fun a ha b hb => ?_⟩
  rw [decide_eq_true_iff]
  exact sub_toInt_neg_iff (h a ha) (h b hb)

/-- In a window the sign of the difference is an order. -/
lemma InWindow.ranks {keys : List (BitVec w)} (h : InWindow keys) :
    Ranks (fun a b => decide ((a - b).toInt < 0)) keys := by
  obtain ⟨base, size, hs, hk⟩ := h
  refine ranks_of_offset base fun k hk' => ?_
  have := hk k hk'
  omega

/-- Unsigned comparison is an order on any keys. -/
lemma ranks_lt (keys : List (BitVec w)) : Ranks (fun a b => decide (a < b)) keys :=
  ⟨BitVec.toNat, fun _ _ _ _ => by simp [BitVec.lt_def]⟩

lemma Ranks.mono {less : BitVec w → BitVec w → Bool} {keys keys' : List (BitVec w)}
    (h : Ranks less keys) (hs : keys' ⊆ keys) : Ranks less keys' := by
  obtain ⟨f, hf⟩ := h
  exact ⟨f, fun a ha b hb => hf a (hs ha) b (hs hb)⟩

end Libcn.Lib
