import Mathlib.Data.List.DropRight

/-!
# Insertion sort from the back

Each element goes behind the last of the elements before it that are not above it. The result is
a permutation, and for a total transitive relation it is sorted and stable.
-/

namespace Libcn.Lib

variable {α : Type} (r : α → α → Prop) [DecidableRel r]

/-- `x` is put behind the last element of `s` that is `r`-below it. -/
def insertLast (s : List α) (x : α) : List α :=
  s.rdropWhile (fun y => ¬ r y x) ++ x :: s.rtakeWhile (fun y => ¬ r y x)

/-- The elements are inserted one after the other. -/
def insertionSort (l : List α) : List α := l.foldl (insertLast r) []

omit [DecidableRel r] in
/-- `l'` is in order, and what is below each other both ways stands in `l'` as it does in `l`. -/
def StablySorted (l l' : List α) : Prop :=
  l'.Pairwise fun a b => r a b ∧ (r b a → List.Sublist [a, b] l)

variable {r} {l l' s : List α} {x : α}

/-! ## Permutation -/

lemma insertLast_perm : (insertLast r s x).Perm (s ++ [x]) := by
  have hsplit := List.rdropWhile_append_rtakeWhile (l := s) (p := fun y => ¬ r y x)
  calc (insertLast r s x).Perm (x :: (s.rdropWhile (fun y => ¬ r y x) ++
        s.rtakeWhile (fun y => ¬ r y x))) := List.perm_middle
    _ = x :: s := by rw [hsplit]
    List.Perm _ (s ++ [x]) := (List.perm_append_singleton x s).symm

lemma foldl_insertLast_perm : (l.foldl (insertLast r) s).Perm (s ++ l) := by
  induction l generalizing s with
  | nil => simp
  | cons x l ih =>
    have hx : (insertLast r s x ++ l).Perm (s ++ [x] ++ l) := insertLast_perm.append_right l
    simpa using ih.trans hx

theorem insertionSort_perm (l : List α) : (insertionSort r l).Perm l := foldl_insertLast_perm

/-! ## Order and stability -/

omit [DecidableRel r] in
/-- A total preorder on the elements of a list. -/
structure TotalOn (r : α → α → Prop) (l : List α) : Prop where
  trans : ∀ a ∈ l, ∀ b ∈ l, ∀ c ∈ l, r a b → r b c → r a c
  total : ∀ a ∈ l, ∀ b ∈ l, r a b ∨ r b a

/-- One insertion: `x` stands in `l` behind all of `s`. -/
lemma StablySorted.insertLast (hr : TotalOn r l) (hs : StablySorted r l s)
    (hx : ∀ a ∈ s, List.Sublist [a, x] l) (hxl : x ∈ l) :
    StablySorted r l (insertLast r s x) := by
  have hsplit := List.rdropWhile_append_rtakeWhile (l := s) (p := fun y => ¬ r y x)
  have habove : ∀ y ∈ s.rtakeWhile (fun y => ¬ r y x), ¬ r y x := by
    intro y hy
    simpa using List.mem_rtakeWhile_imp hy
  have hlast := List.rdropWhile_last_not (fun y => decide ¬ r y x) s
  have hmem : ∀ a ∈ s, a ∈ l := fun a ha => (hx a ha).subset (.head _)
  unfold StablySorted Libcn.Lib.insertLast at *
  generalize s.rdropWhile (fun y => ¬ r y x) = s₁ at *
  generalize s.rtakeWhile (fun y => ¬ r y x) = s₂ at *
  subst hsplit
  obtain ⟨h₁, h₂, h₁₂⟩ := List.pairwise_append.mp hs
  have hmem₁ : ∀ a ∈ s₁, a ∈ l := fun a ha => hmem a (List.mem_append_left _ ha)
  -- what is below the last element of `s₁` is below `x`
  have hbelow : ∀ a ∈ s₁, r a x := by
    intro a ha
    have hne := List.ne_nil_of_mem ha
    have hz : r (s₁.getLast hne) x := by simpa using hlast hne
    obtain ⟨t, z, rfl⟩ := (List.eq_nil_or_concat' s₁).resolve_left hne
    rw [List.getLast_append_singleton] at hz
    rcases List.mem_append.mp ha with hat | haz
    · have haz := ((List.pairwise_append.mp h₁).2.2 a hat z (.head _)).1
      exact hr.trans a (hmem₁ a ha) z (hmem₁ z (by simp)) x hxl haz hz
    · exact List.mem_singleton.mp haz ▸ hz
  refine List.pairwise_append.mpr ⟨h₁, List.pairwise_cons.mpr ⟨fun b hb => ?_, h₂⟩, ?_⟩
  · have hbl := hmem b (List.mem_append_right _ hb)
    have hxb := (hr.total x hxl b hbl).resolve_right (habove b hb)
    exact ⟨hxb, fun h => absurd h (habove b hb)⟩
  · intro a ha b hb
    rcases List.mem_cons.mp hb with rfl | hb
    · exact ⟨hbelow a ha, fun _ => hx a (List.mem_append_left _ ha)⟩
    · exact h₁₂ a ha b hb

/-- All insertions: `s` holds what stands before `k` in the list. -/
lemma StablySorted.foldl {k t : List α} (hr : TotalOn r (t ++ k)) (hs : StablySorted r (t ++ k) s)
    (hperm : s.Perm t) : StablySorted r (t ++ k) (k.foldl (Libcn.Lib.insertLast r) s) := by
  induction k generalizing s t with
  | nil => exact hs
  | cons x k ih =>
    have hstep : StablySorted r (t ++ x :: k) (Libcn.Lib.insertLast r s x) := by
      refine hs.insertLast hr (fun a ha => ?_) (by simp)
      exact (List.singleton_sublist.mpr (hperm.mem_iff.mp ha)).append
        (List.singleton_sublist.mpr (.head _))
    have hsame : t ++ x :: k = (t ++ [x]) ++ k := by simp
    rw [hsame] at hr hstep ⊢
    exact ih hr hstep (insertLast_perm.trans (hperm.append_right [x]))

theorem insertionSort_stablySorted (hr : TotalOn r l) : StablySorted r l (insertionSort r l) :=
  StablySorted.foldl (t := []) hr List.Pairwise.nil (.refl _)

omit [DecidableRel r] in
lemma StablySorted.sorted (hs : StablySorted r l l') : l'.Pairwise r := hs.imp fun h => h.1

/-- Two elements of a list stand in it one way or the other. -/
lemma pair_sublist_or {a b : α} (ha : a ∈ l) (hb : b ∈ l) (hne : a ≠ b) :
    List.Sublist [a, b] l ∨ List.Sublist [b, a] l := by
  obtain ⟨l₁, l₂, rfl⟩ := List.append_of_mem ha
  rcases List.mem_append.mp hb with hb | hb
  · exact .inr ((List.singleton_sublist.mpr hb).append (List.singleton_sublist.mpr (.head _)))
  · rcases List.mem_cons.mp hb with rfl | hb
    · exact absurd rfl hne
    · have htail : List.Sublist [a, b] (a :: l₂) := (List.singleton_sublist.mpr hb).cons_cons a
      exact .inl (htail.trans (List.sublist_append_right l₁ _))

/-- Without repetitions not both ways. -/
lemma pair_sublist_asymm {a b : α} (hnodup : l.Nodup) (hab : List.Sublist [a, b] l) :
    ¬ List.Sublist [b, a] l := by
  intro hba
  induction l with
  | nil => simp at hab
  | cons x l ih =>
    obtain ⟨hx, hn⟩ := List.nodup_cons.mp hnodup
    rcases List.sublist_cons_iff.mp hab with hab' | ⟨k, hk, hbl⟩
    · rcases List.sublist_cons_iff.mp hba with hba' | ⟨k, hk, -⟩
      · exact ih hn hab' hba'
      · obtain ⟨rfl, -⟩ := List.cons.inj hk
        exact hx (hab'.subset (.tail _ (.head _)))
    · obtain ⟨rfl, rfl⟩ := List.cons.inj hk
      rcases List.sublist_cons_iff.mp hba with hba' | ⟨k, hk, -⟩
      · exact hx (hba'.subset (.tail _ (.head _)))
      · obtain ⟨rfl, -⟩ := List.cons.inj hk
        exact hx (List.singleton_sublist.mp hbl)

omit [DecidableRel r] in
/-- What is below each other both ways keeps its order. -/
lemma StablySorted.stable {a b : α} (hs : StablySorted r l l') (hnodup : l.Nodup)
    (hperm : l'.Perm l) (hab : r a b) (hl : List.Sublist [a, b] l) : List.Sublist [a, b] l' := by
  have ha := hperm.mem_iff.mpr (hl.subset (.head _))
  have hb := hperm.mem_iff.mpr (hl.subset (.tail _ (.head _)))
  have hne : a ≠ b := by
    rintro rfl
    simpa using hnodup.sublist hl
  refine (pair_sublist_or ha hb hne).resolve_right fun hl' => ?_
  have hrev := (List.pairwise_iff_forall_sublist.mp hs hl').2 hab
  exact pair_sublist_asymm hnodup hl hrev

end Libcn.Lib
