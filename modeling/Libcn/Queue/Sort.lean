import Libcn.Lib.StableSort
import Libcn.Queue.Basic

/-!
# `queue_sort`

The nodes are taken out of the ring and put back in one after the other. The ring then holds what
an insertion sort of its node sequence gives.
-/

namespace Libcn.Queue

open Libcn.Lib Libcn.Lib.Links

variable {α : Type} [DecidableEq α]

/-! ## The function -/

/-- The inner loop: from `prev` backwards to a node that is not above `q`, or to the sentinel. -/
def sortBack (cmp : α → α → ℤ) (m : Links α) (queue q : α) : ℕ → α → Option α
  | 0, _ => none
  | fuel + 1, prev => do
    if cmp prev q ≤ 0 then
      return prev
    let prev ← m.prev prev
    if prev ≠ queue then
      sortBack cmp m queue q fuel prev
    else
      return prev

/-- The outer loop at the node `q`; the inner loop gets `inner` turns each time. -/
def sortLoop (cmp : α → α → ℤ) (queue : α) (inner : ℕ) : ℕ → Links α → α → Option (Links α)
  | 0, _, _ => none
  | fuel + 1, m, q => do
    if q = queue then
      return m
    let prev ← m.prev q
    let next ← m.next q
    let m ← queueRemove m q
    let prev ← sortBack cmp m queue q inner prev
    let m ← queueInsertAfter m prev q
    sortLoop cmp queue inner fuel m next

/-- `queue_sort`, with `fuel` turns for each loop. -/
def queueSort (cmp : α → α → ℤ) (fuel : ℕ) (m : Links α) (queue : α) : Option (Links α) := do
  let q ← queueHead m queue
  let last ← queueLast m queue
  if q = last then
    return m
  let q ← m.next q
  sortLoop cmp queue fuel fuel m q

/-! ## The inner loop -/

variable (cmp : α → α → ℤ) {m m' : Links α} {h q x : α} {l r s : List α}

/-- The order of a comparison function. -/
def NotAbove (cmp : α → α → ℤ) (a b : α) : Prop := cmp a b ≤ 0

instance : DecidableRel (NotAbove cmp) := fun a b => inferInstanceAs (Decidable (cmp a b ≤ 0))

/-- The nodes the inner loop goes back over. -/
abbrev above (cmp : α → α → ℤ) (q y : α) : Bool := decide ¬ cmp y q ≤ 0

omit [DecidableEq α] in
/-- The node before `x` in a ring. -/
lemma prev_of_seg (hs : m.Seg h (s ++ x :: r) h) : m.prev x = some (s.getLastD h) := by
  have hx := (seg_append.mp hs).1
  rcases List.eq_nil_or_concat' s with rfl | ⟨s, y, rfl⟩
  · exact hx.2
  · rw [(seg_append.mp hx).2.2]
    simp

lemma sortBack_eq (hs : m.Seg h (s ++ [x] ++ r) h) (hnodup : (h :: (s ++ [x] ++ r)).Nodup)
    (fuel : ℕ) (hfuel : s.length < fuel) :
    sortBack cmp m h q fuel x = some (((s ++ [x]).rdropWhile (above cmp q)).getLastD h) := by
  induction fuel generalizing s x r with
  | zero => exact absurd hfuel (Nat.not_lt_zero _)
  | succ fuel ih =>
    by_cases hx : cmp x q ≤ 0
    · rw [List.rdropWhile_concat_neg _ _ _ (by simpa using hx)]
      simp [sortBack, hx]
    · rw [List.rdropWhile_concat_pos _ _ _ (by simpa using hx)]
      have hprev : m.prev x = some (s.getLastD h) := prev_of_seg (by simpa using hs)
      rcases List.eq_nil_or_concat' s with rfl | ⟨s, y, rfl⟩
      · have hprev : m.prev x = some h := hprev
        simp [sortBack, hx, hprev]
      · have hprev : m.prev x = some y := by simpa using hprev
        have hyh : y ≠ h := by
          rintro rfl
          simp at hnodup
        have hstep : sortBack cmp m h q (fuel + 1) x = sortBack cmp m h q fuel y := by
          simp [sortBack, hx, hprev, hyh]
        rw [hstep]
        refine ih (r := x :: r) (by simpa using hs) (by simpa using hnodup) ?_
        simp only [List.length_append, List.length_singleton] at hfuel
        omega

/-! ## The outer loop -/

/-- A node is put behind the last node of the first part of a ring. -/
lemma queueInsertAfter_getLastD (hs : m.Seg h (s ++ r) h) (hnodup : (h :: (s ++ r)).Nodup)
    (hx : x ∉ h :: (s ++ r)) :
    ∃ m', queueInsertAfter m (s.getLastD h) x = some m' ∧ m'.Seg h (s ++ x :: r) h ∧
      SameOutside (x :: h :: (s ++ r)) m m' := by
  rcases List.eq_nil_or_concat' s with rfl | ⟨s, y, rfl⟩
  · exact queueInsertHead_seg hs hnodup hx
  · have hs' : m.Seg h (s ++ y :: r) h := by simpa using hs
    have hins := queueInsertAfter_seg (x := x) hs' (by simpa using hnodup) (by simpa using hx)
    simpa using hins

/-- One turn of the outer loop. -/
lemma sortStep_eq (hs : m.Seg h (s ++ q :: r) h) (hnodup : (h :: (s ++ q :: r)).Nodup)
    (hne : s ≠ []) (inner : ℕ) (hinner : s.length ≤ inner) :
    ∃ m', (∀ fuel, sortLoop cmp h inner (fuel + 1) m q =
        sortLoop cmp h inner fuel m' (r.headD h)) ∧
      m'.Seg h (insertLast (NotAbove cmp) s q ++ r) h ∧ SameOutside (h :: (s ++ q :: r)) m m' := by
  have hqh : q ≠ h := by
    rintro rfl
    simp at hnodup
  obtain ⟨s, x, rfl⟩ := (List.eq_nil_or_concat' s).resolve_left hne
  have hprev : m.prev q = some x := by simpa using prev_of_seg hs
  have hnext : m.next q = some (r.headD h) := by
    have hq := (seg_append.mp hs).2
    cases r with
    | nil => exact hq.1
    | cons y r => exact hq.1.1
  have hqs : q ∉ s ++ [x] := fun e =>
    (List.nodup_append.mp (List.nodup_cons.mp hnodup).2).2.2 q e q (.head _) rfl
  obtain ⟨m₁, hrem, hs₁, hsame₁⟩ := queueRemove_seg (x := q) hs hnodup (by simp)
  rw [List.erase_append_right _ hqs, List.erase_cons_head] at hs₁
  have hsub : (h :: (s ++ [x] ++ r)).Sublist (h :: (s ++ [x] ++ q :: r)) :=
    ((List.sublist_cons_self q r).append_left _).cons_cons h
  have hnodup₁ := hnodup.sublist hsub
  have hq₁ : q ∉ h :: (s ++ [x] ++ r) := by
    have hmid : (h :: (s ++ [x]) ++ q :: r).Nodup := hnodup
    exact (List.nodup_cons.mp (List.nodup_middle.mp hmid)).1
  have hlen : s.length < inner := by
    rw [List.length_append, List.length_singleton] at hinner
    omega
  have hback := sortBack_eq cmp (q := q) hs₁ hnodup₁ inner hlen
  have hsplit := List.rdropWhile_append_rtakeWhile (l := s ++ [x]) (p := above cmp q)
  rw [← hsplit, List.append_assoc] at hs₁ hnodup₁ hq₁
  obtain ⟨m₂, hins, hs₂, hsame₂⟩ := queueInsertAfter_getLastD hs₁ hnodup₁ hq₁
  refine ⟨m₂, fun fuel => ?_, ?_, fun y hy => ?_⟩
  · simp only [sortLoop, hqh, ↓reduceIte, hprev, hnext, hrem, hback, hins, Option.bind_eq_bind,
      Option.bind_some]
  · rw [insertLast, List.append_assoc]
    exact hs₂
  · have h₁ := hsame₁ y hy
    have h₂ := hsame₂ y fun e => hy ?_
    · exact ⟨h₂.1.trans h₁.1, h₂.2.trans h₁.2⟩
    · rcases List.mem_cons.mp e with rfl | e
      · simp
      · rw [← List.append_assoc, hsplit] at e
        exact hsub.subset e

/-- The outer loop, with the part `s` sorted and the part `r` to come. -/
lemma sortLoop_eq (hs : m.Seg h (s ++ r) h) (hnodup : (h :: (s ++ r)).Nodup) (hne : s ≠ [])
    (inner fuel : ℕ) (hinner : (s ++ r).length ≤ inner) (hfuel : r.length < fuel) :
    ∃ m', sortLoop cmp h inner fuel m (r.headD h) = some m' ∧
      m'.Seg h (r.foldl (insertLast (NotAbove cmp)) s) h ∧ SameOutside (h :: (s ++ r)) m m' := by
  induction r generalizing s m fuel with
  | nil =>
    obtain ⟨fuel, rfl⟩ := Nat.exists_eq_add_of_lt hfuel
    refine ⟨m, by simp [sortLoop], by simpa using hs, fun y _ => ⟨rfl, rfl⟩⟩
  | cons q r ih =>
    obtain ⟨fuel, rfl⟩ := Nat.exists_eq_add_of_lt hfuel
    have hperm : (insertLast (NotAbove cmp) s q ++ r).Perm (s ++ q :: r) := by
      simpa using insertLast_perm.append_right r
    obtain ⟨m₁, hstep, hs₁, hsame₁⟩ := sortStep_eq cmp hs hnodup hne inner (by
      simp only [List.length_append] at hinner
      omega)
    obtain ⟨m₂, hrun, hs₂, hsame₂⟩ := ih hs₁ ((hperm.cons h).nodup_iff.mpr hnodup)
      (by simp [insertLast]) (r.length + 1 + fuel) (hperm.length_eq ▸ hinner) (by omega)
    refine ⟨m₂, ?_, hs₂, fun y hy => ?_⟩
    · have hlen : (q :: r).length + fuel + 1 = (r.length + 1 + fuel) + 1 := rfl
      rw [hlen, List.headD_cons, hstep]
      exact hrun
    · have h₁ := hsame₁ y hy
      have h₂ := hsame₂ y fun e => hy ((hperm.cons h).mem_iff.mp e)
      exact ⟨h₂.1.trans h₁.1, h₂.2.trans h₁.2⟩

/-! ## The result -/

/-- The ring holds what insertion sort makes of its nodes. -/
lemma queueSort_eq (hs : m.Seg h l h) (hnodup : (h :: l).Nodup) (fuel : ℕ)
    (hfuel : l.length ≤ fuel) :
    ∃ m', queueSort cmp fuel m h = some m' ∧ m'.Seg h (insertionSort (NotAbove cmp) l) h ∧
      SameOutside (h :: l) m m' := by
  cases l with
  | nil =>
    refine ⟨m, ?_, hs, fun y _ => ⟨rfl, rfl⟩⟩
    simp [queueSort, queueHead, queueLast, hs.1, hs.2]
  | cons x r =>
    obtain ⟨p, hp, hlast⟩ := hs.2.prev_end
    have hnext : m.next x = some (r.headD h) := by
      cases r with
      | nil => exact hs.2.1
      | cons y r => exact hs.2.1.1
    by_cases hxp : x = p
    · -- the only node
      cases r with
      | nil =>
        refine ⟨m, ?_, hs, fun y _ => ⟨rfl, rfl⟩⟩
        simp [queueSort, queueHead, queueLast, hs.1.1, hlast, hxp]
      | cons y r =>
        obtain ⟨p', hp', hlast'⟩ := hs.2.2.prev_end
        obtain rfl : p' = p := Option.some.inj (hlast'.symm.trans hlast)
        exact absurd (hxp ▸ hp') (List.nodup_cons.mp (List.nodup_cons.mp hnodup).2).1
    · obtain ⟨m', hrun, hs', hsame⟩ := sortLoop_eq cmp (s := [x]) hs hnodup (by simp)
        fuel fuel hfuel hfuel
      refine ⟨m', ?_, hs', hsame⟩
      simp only [queueSort, queueHead, queueLast, hs.1.1, hlast, hxp, ↓reduceIte, hnext,
        Option.bind_eq_bind, Option.bind_some]
      exact hrun

/-- `queue_sort` ends with a well-formed queue of the same nodes, and it is a stable sort. -/
theorem queueSort_stable (cmp : α → α → ℤ) (m : Links α) (queue : α) (l : List α)
    (hs : m.Seg queue l queue) (hnodup : (queue :: l).Nodup) (fuel : ℕ) (hfuel : l.length ≤ fuel) :
    ∃ m' l', queueSort cmp fuel m queue = some m' ∧ m'.Seg queue l' queue ∧
      (queue :: l').Nodup ∧ l'.Perm l ∧ SameOutside (queue :: l) m m' ∧
      ((∀ a ∈ l, ∀ b ∈ l, ∀ c ∈ l, cmp a b ≤ 0 → cmp b c ≤ 0 → cmp a c ≤ 0) →
        (∀ a ∈ l, ∀ b ∈ l, cmp a b ≤ 0 ∨ cmp b a ≤ 0) →
        l'.Pairwise (fun a b => cmp a b ≤ 0) ∧
        ∀ a b, cmp a b ≤ 0 → cmp b a ≤ 0 → List.Sublist [a, b] l → List.Sublist [a, b] l') := by
  obtain ⟨m', hrun, hs', hsame⟩ := queueSort_eq cmp hs hnodup fuel hfuel
  have hperm := insertionSort_perm (r := NotAbove cmp) l
  refine ⟨m', _, hrun, hs', (hperm.cons queue).nodup_iff.mpr hnodup, hperm, hsame, ?_⟩
  intro htrans htotal
  have hsorted := insertionSort_stablySorted (r := NotAbove cmp) ⟨htrans, htotal⟩
  refine ⟨hsorted.sorted, fun a b hab _ hl => ?_⟩
  exact hsorted.stable (List.nodup_cons.mp hnodup).2 hperm hab hl

/-- The ring of `Fin n` with the sentinel `0`. -/
def countingRing (n : ℕ) : Links (Fin (n + 1)) where
  prev x := some (x - 1)
  next x := some (x + 1)

theorem queueSort_stable_countingRing :
    ∃ m' l', queueSort (fun a b : Fin 4 => (b.val / 2 : ℤ) - a.val / 2) 3 (countingRing 3) 0 =
        some m' ∧ m'.Seg 0 l' 0 ∧ l'.Perm [1, 2, 3] ∧
      l'.Pairwise (fun a b => (b.val / 2 : ℤ) - a.val / 2 ≤ 0) ∧ List.Sublist [2, 3] l' := by
  obtain ⟨m', l', hrun, hs, -, hperm, -, hsort⟩ :=
    queueSort_stable (fun a b : Fin 4 => (b.val / 2 : ℤ) - a.val / 2) (countingRing 3) 0 [1, 2, 3]
      ⟨⟨rfl, rfl⟩, ⟨rfl, rfl⟩, ⟨rfl, rfl⟩, rfl, rfl⟩ (by decide) 3 (by decide)
  obtain ⟨hsorted, hstable⟩ := hsort (by decide) (by decide)
  exact ⟨m', l', hrun, hs, hperm, hsorted, hstable 2 3 (by decide) (by decide) (by decide)⟩

end Libcn.Queue
