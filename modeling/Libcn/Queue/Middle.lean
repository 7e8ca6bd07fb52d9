import Libcn.Queue.Sort

/-!
# `queue_middle`

Two pointers walk down the ring, one of them twice as fast.
-/

namespace Libcn.Queue

open Libcn.Lib Libcn.Lib.Links

variable {α : Type} [DecidableEq α]

/-! ## The function -/

/-- The loop of `queue_middle`: the node it returns, and the nodes `middle` and `next` step onto
in turn. -/
def middleLoop (m : Links α) (queue : α) : ℕ → α → α → Option (α × List α)
  | 0, _, _ => none
  | fuel + 1, middle, next => do
    let middle ← m.next middle
    let next ← m.next next
    if some next = queueLast m queue then
      return (middle, [middle, next])
    let next' ← m.next next
    if some next' = queueLast m queue then
      return (middle, [middle, next, next'])
    let (found, steps) ← middleLoop m queue fuel middle next'
    return (found, middle :: next :: next' :: steps)

/-- `queue_middle`, with `fuel` turns for the loop. It writes nothing. -/
def queueMiddle (fuel : ℕ) (m : Links α) (queue : α) : Option (α × List α) := do
  let middle ← queueHead m queue
  if some middle = queueLast m queue then
    return (middle, [middle])
  let next ← queueHead m queue
  let (found, steps) ← middleLoop m queue fuel middle next
  return (found, middle :: next :: steps)

/-! ## The walk -/

variable {m : Links α} {h : α} {l : List α}

omit [DecidableEq α] in
/-- `queue_last` is the last node of the ring, and no other one. -/
lemma queueLast_iff (hs : m.Seg h l h) (hnodup : (h :: l).Nodup) {i : ℕ} (hi : i < l.length) :
    some l[i] = queueLast m h ↔ i + 1 = l.length := by
  obtain ⟨l, x, rfl⟩ := (List.eq_nil_or_concat' l).resolve_left (List.ne_nil_of_length_pos
    (Nat.zero_lt_of_lt hi))
  have hlast : queueLast m h = some x := hs.last
  have hx : (l ++ [x])[l.length]? = some x := by simp
  have hl := (List.nodup_cons.mp hnodup).2
  rw [hlast, ← hx, ← List.getElem?_eq_getElem hi, List.getElem?_inj hi hl, List.length_append,
    List.length_singleton]
  omega

/-- The loop with `middle` at position `k` and `next` at position `2 * k`, not the last one. -/
lemma middleLoop_eq (hs : m.Seg h l h) (hnodup : (h :: l).Nodup) {k : ℕ}
    (hk : 2 * k + 1 < l.length) (fuel : ℕ) (hfuel : l.length ≤ 2 * (k + fuel) + 1) {x y : α}
    (hx : l[k]? = some x) (hy : l[2 * k]? = some y) :
    ∃ z steps, middleLoop m h fuel x y = some (z, steps) ∧ l[l.length / 2]? = some z ∧
      ∀ q ∈ steps, q ∈ l := by
  induction fuel generalizing k x y with
  | zero => omega
  | succ fuel ih =>
    have hk₁ : k + 1 < l.length := by omega
    have hmiddle : m.next x = some l[k + 1] :=
      (hs.linked_getElem? hx (List.getElem?_eq_getElem hk₁)).1
    have hnext : m.next y = some l[2 * k + 1] :=
      (hs.linked_getElem? hy (List.getElem?_eq_getElem hk)).1
    have hlast := queueLast_iff hs hnodup hk
    by_cases heven : 2 * k + 1 + 1 = l.length
    · -- the length is even: the first test stops the loop
      have hhalf : l.length / 2 = k + 1 := by omega
      refine ⟨l[k + 1], [l[k + 1], l[2 * k + 1]], ?_, ?_, ?_⟩
      · simp only [middleLoop, hmiddle, hnext, if_pos (hlast.mpr heven), Option.bind_eq_bind,
          Option.bind_some, Option.pure_def]
      · rw [hhalf, List.getElem?_eq_getElem hk₁]
      · simp
    · have hk₂ : 2 * k + 2 < l.length := by omega
      have hnext' : m.next l[2 * k + 1] = some l[2 * k + 2] :=
        (hs.linked_getElem? (List.getElem?_eq_getElem hk) (List.getElem?_eq_getElem hk₂)).1
      have hlast' := queueLast_iff hs hnodup hk₂
      have hne : ¬ some l[2 * k + 1] = queueLast m h := fun e => heven (hlast.mp e)
      by_cases hodd : 2 * k + 2 + 1 = l.length
      · have hhalf : l.length / 2 = k + 1 := by omega
        refine ⟨l[k + 1], [l[k + 1], l[2 * k + 1], l[2 * k + 2]], ?_, ?_, ?_⟩
        · simp only [middleLoop, hmiddle, hnext, if_neg hne, hnext', if_pos (hlast'.mpr hodd),
            Option.bind_eq_bind, Option.bind_some, Option.pure_def]
        · rw [hhalf, List.getElem?_eq_getElem hk₁]
        · simp
      · have hne' := fun e => hodd (hlast'.mp e)
        obtain ⟨z, steps, hrun, hz, hsteps⟩ := ih (k := k + 1) (by omega) (by omega)
          (List.getElem?_eq_getElem hk₁) (List.getElem?_eq_getElem hk₂)
        refine ⟨z, l[k + 1] :: l[2 * k + 1] :: l[2 * k + 2] :: steps, ?_, hz, ?_⟩
        · simp only [middleLoop, hmiddle, hnext, if_neg hne, hnext', if_neg hne', hrun,
            Option.bind_eq_bind, Option.bind_some, Option.pure_def]
        · simpa using hsteps

/-- `queue_middle` ends at the middle of a queue that is not empty: at its middle node, or at the
first one of the second half. Each of its steps is onto a node of the queue, none onto the
sentinel. -/
theorem queueMiddle_middle (m : Links α) (queue : α) (l : List α) (hs : m.Seg queue l queue)
    (hnodup : (queue :: l).Nodup) (hne : l ≠ []) (fuel : ℕ) (hfuel : l.length ≤ fuel) :
    ∃ x steps, queueMiddle fuel m queue = some (x, steps) ∧ l[l.length / 2]? = some x ∧
      ∀ y ∈ steps, y ∈ l ∧ y ≠ queue := by
  have hpos : 0 < l.length := List.length_pos_iff.mpr hne
  have hhead : queueHead m queue = some l[0] := by
    cases l with
    | nil => exact absurd rfl hne
    | cons x l => exact hs.1.1
  have hlast := queueLast_iff hs hnodup hpos
  have hqueue : ∀ y ∈ l, y ∈ l ∧ y ≠ queue := fun y hy =>
    ⟨hy, fun e => (List.nodup_cons.mp hnodup).1 (e ▸ hy)⟩
  by_cases hone : 0 + 1 = l.length
  · have hhalf : l.length / 2 = 0 := by omega
    refine ⟨l[0], [l[0]], ?_, ?_, ?_⟩
    · simp only [queueMiddle, hhead, if_pos (hlast.mpr hone), Option.bind_eq_bind, Option.bind_some,
        Option.pure_def]
    · rw [hhalf, List.getElem?_eq_getElem hpos]
    · simpa using (hqueue l[0] (List.getElem_mem hpos)).2
  · obtain ⟨x, steps, hrun, hx, hsteps⟩ := middleLoop_eq hs hnodup (k := 0) (by omega) fuel
      (by omega) (List.getElem?_eq_getElem hpos) (List.getElem?_eq_getElem hpos)
    have hne' : ¬ some l[0] = queueLast m queue := fun e => hone (hlast.mp e)
    refine ⟨x, l[0] :: l[0] :: steps, ?_, hx, ?_⟩
    · simp only [queueMiddle, hhead, if_neg hne', hrun, Option.bind_eq_bind, Option.bind_some,
        Option.pure_def]
    · have h₀ := hqueue l[0] (List.getElem_mem hpos)
      have hall : ∀ y ∈ steps, y ∈ l ∧ y ≠ queue := fun y hy => hqueue y (hsteps y hy)
      simpa [h₀] using hall

theorem queueMiddle_middle_countingRing :
    ∃ steps, queueMiddle 4 (countingRing 4) 0 = some (3, steps) ∧ ∀ y ∈ steps, y ≠ 0 := by
  obtain ⟨x, steps, hrun, hx, hsteps⟩ := queueMiddle_middle (countingRing 4) 0 [1, 2, 3, 4]
    ⟨⟨rfl, rfl⟩, ⟨rfl, rfl⟩, ⟨rfl, rfl⟩, ⟨rfl, rfl⟩, rfl, rfl⟩ (by decide) (by decide) 4 (by decide)
  obtain rfl : 3 = x := Option.some.inj hx
  exact ⟨steps, hrun, fun y hy => (hsteps y hy).2⟩

end Libcn.Queue
