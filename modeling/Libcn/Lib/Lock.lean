import Mathlib.Tactic.ByContra

/-!
# One-word locks

A word that is `free` while nobody is inside, and otherwise the key of the one that is. A thread
enters by swapping its key for `free`, and leaves by putting `free` back.
-/

namespace Libcn.Lib

/-- The word of a lock with at most one thread inside. -/
inductive Held {T W : Type} (key : T → W) (free : W) (inside : T → Prop) : W → Prop
  | free (hnone : ∀ t, ¬inside t) : Held key free inside free
  | held (t : T) (ht : inside t) (hone : ∀ u, inside u → u = t) : Held key free inside (key t)

namespace Held

variable {T W : Type} {key : T → W} {free w : W} {inside inside' : T → Prop}

/-- Nobody is inside while the word is `free`. -/
theorem outside (h : Held key free inside w) (hkey : ∀ t, key t ≠ free) (hw : w = free) :
    ∀ t, ¬inside t := by
  cases h with
  | free hnone => exact hnone
  | held t => exact absurd hw (hkey t)

/-- The word is the key of the thread inside. -/
theorem word_eq (h : Held key free inside w) {t : T} (ht : inside t) : w = key t := by
  cases h with
  | free hnone => exact absurd ht (hnone t)
  | held u hu hone => rw [hone t ht]

/-- The thread whose key the word is, is inside. -/
theorem inside_of_eq (h : Held key free inside w) (hinj : ∀ t u, key t = key u → t = u) {t : T}
    (hkey : key t ≠ free) (hw : w = key t) : inside t := by
  cases h with
  | free => exact absurd hw.symm hkey
  | held u hu => exact hinj u t hw ▸ hu

/-- At most one thread is inside. -/
theorem unique (h : Held key free inside w) {t u : T} (ht : inside t) (hu : inside u) : u = t := by
  cases h with
  | free hnone => exact absurd ht (hnone t)
  | held v hv hone => rw [hone t ht, hone u hu]

/-- The word is `free` once nobody is inside. -/
theorem eq_free (h : Held key free inside w) (hnone : ∀ t, ¬inside t) : w = free := by
  cases h with
  | free => rfl
  | held t ht => exact absurd ht (hnone t)

/-- A thread enters. -/
theorem acquire (hnone : ∀ t, ¬inside t) {t : T} (ht : inside' t)
    (hother : ∀ u, u ≠ t → (inside' u ↔ inside u)) : Held key free inside' (key t) := by
  refine .held t ht fun u hu => ?_
  by_contra hne
  exact hnone u ((hother u hne).mp hu)

/-- The thread inside leaves. -/
theorem release (h : Held key free inside w) {t : T} (ht : inside t) (ht' : ¬inside' t)
    (hother : ∀ u, u ≠ t → (inside' u ↔ inside u)) : Held key free inside' free := by
  refine .free fun u hu => ?_
  by_cases hne : u = t
  · exact ht' (hne ▸ hu)
  · exact hne (h.unique ht ((hother u hne).mp hu))

/-- Nobody enters or leaves. -/
theorem congr (h : Held key free inside w) (heq : ∀ u, inside' u ↔ inside u) :
    Held key free inside' w := by
  cases h with
  | free hnone => exact .free fun u hu => hnone u ((heq u).mp hu)
  | held t ht hone => exact .held t ((heq t).mpr ht) fun u hu => hone u ((heq u).mp hu)

end Held

end Libcn.Lib
