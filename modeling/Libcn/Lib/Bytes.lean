import Libcn.Lib.Region
import Mathlib.Algebra.Order.Group.Nat

/-!
# Numbers in memory

A memory gives the byte at each address. A number is stored in some bytes, the lowest first; what is
loaded from there is that number, and what is loaded from a disjoint place has not changed.
-/

namespace Libcn.Lib

/-- The number in `k` bytes from an address on. -/
def load (b : ℕ → UInt8) : ℕ → ℕ → ℕ
  | _, 0 => 0
  | a, k + 1 => (b a).toNat + 256 * load b (a + 1) k

/-- The memory with a number stored in the `k` bytes from `a` on. -/
def store (b : ℕ → UInt8) (a k v : ℕ) : ℕ → UInt8 := fun x =>
  if a ≤ x ∧ x < a + k then UInt8.ofNat (v / 256 ^ (x - a)) else b x

/-- The memory with the `n` bytes from `a` on set to one value. -/
def fill (b : ℕ → UInt8) (a n : ℕ) (v : UInt8) : ℕ → UInt8 := fun x =>
  if a ≤ x ∧ x < a + n then v else b x

/-- Two memories agree on a region. -/
def Agree (b b' : ℕ → UInt8) (r : Region) : Prop := ∀ x, r.start ≤ x → x < r.stop → b' x = b x

variable {b b' b'' : ℕ → UInt8} {a k v : ℕ} {r r' : Region}

lemma Agree.refl (b : ℕ → UInt8) (r : Region) : Agree b b r := fun _ _ _ => rfl

lemma Agree.trans (h : Agree b b' r) (h' : Agree b' b'' r) : Agree b b'' r := fun x hlo hhi =>
  (h' x hlo hhi).trans (h x hlo hhi)

lemma Agree.within (h : Agree b b' r) (hr : r'.Within r) : Agree b b' r' := fun x hlo hhi =>
  h x (hr.1.trans hlo) (hhi.trans_le hr.2)

/-- A write to a disjoint region. -/
lemma agree_store (v : ℕ) (h : Region.Apart ⟨a, k⟩ r) : Agree b (store b a k v) r := by
  intro x hlo hhi
  unfold Region.Apart Region.stop at h
  unfold Region.stop at hhi
  exact if_neg (by simp only at h; omega)

lemma agree_fill (v : UInt8) (h : Region.Apart ⟨a, k⟩ r) : Agree b (fill b a k v) r := by
  intro x hlo hhi
  unfold Region.Apart Region.stop at h
  unfold Region.stop at hhi
  exact if_neg (by simp only at h; omega)

/-- A number is read from its bytes only. -/
lemma Agree.load (h : Agree b b' ⟨a, k⟩) : load b' a k = load b a k := by
  induction k generalizing a with
  | zero => rfl
  | succ k ih =>
    have hrest : Agree b b' ⟨a + 1, k⟩ := h.within ⟨Nat.le_succ a, by simp [Region.stop]; omega⟩
    rw [Lib.load, Lib.load, ih hrest, h a (Nat.le_refl a) (by simp [Region.stop])]

/-- The digits of a number give it back. -/
lemma load_of_digits (h : ∀ i < k, b (a + i) = UInt8.ofNat (v / 256 ^ i)) :
    load b a k = v % 256 ^ k := by
  induction k generalizing a v with
  | zero => rw [load, pow_zero, Nat.mod_one]
  | succ k ih =>
    have hrest : ∀ i < k, b (a + 1 + i) = UInt8.ofNat (v / 256 / 256 ^ i) := by
      intro i hi
      rw [Nat.add_assoc, Nat.add_comm 1 i, h (i + 1) (by omega), Nat.div_div_eq_div_mul, pow_succ']
    have hfirst := h 0 (Nat.succ_pos k)
    rw [Nat.add_zero, pow_zero, Nat.div_one] at hfirst
    have hbyte : (UInt8.ofNat v).toNat = v % 256 := UInt8.toNat_ofNat'
    rw [load, ih hrest, hfirst, hbyte, pow_succ', Nat.mod_mul]

/-- A number is loaded as it was stored. -/
lemma load_store_self (b : ℕ → UInt8) (a k v : ℕ) : load (store b a k v) a k = v % 256 ^ k := by
  refine load_of_digits fun i hi => ?_
  rw [store, if_pos (by omega), Nat.add_sub_cancel_left]

lemma load_store_apart {a' k' : ℕ} (v : ℕ) (h : Region.Apart ⟨a, k⟩ ⟨a', k'⟩) :
    load (store b a k v) a' k' = load b a' k' := (agree_store v h).load

end Libcn.Lib
