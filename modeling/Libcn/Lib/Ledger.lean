import Mathlib.Data.List.Perm.Basic
import Mathlib.Data.List.Range

/-!
# A queue whose entries can be cancelled

The account of a queue: what was posted to it, numbered in the order of posting, and of each
posting whether it waits, was taken from the front, or was cancelled.
-/

namespace Libcn.Lib

variable {α : Type}

/-- The postings to a queue. `count` is how many there were. -/
structure Ledger (α : Type) where
  pending : List (ℕ × α)
  taken : List (ℕ × α)
  dropped : List (ℕ × α)
  count : ℕ

namespace Ledger

/-- The account of a new queue. -/
def empty : Ledger α := ⟨[], [], [], 0⟩

/-- An item is posted. -/
def post (L : Ledger α) (a : α) : Ledger α :=
  { L with pending := L.pending ++ [(L.count, a)], count := L.count + 1 }

/-- The item at the front is taken, if it is `a`. -/
def take [DecidableEq α] (L : Ledger α) (a : α) : Option (Ledger α) :=
  match L.pending with
  | [] => none
  | (i, b) :: l => if b = a then some { L with pending := l, taken := L.taken ++ [(i, b)] } else none

/-- The waiting items with the property `p` are cancelled. -/
def drop (L : Ledger α) (p : α → Bool) : Ledger α :=
  { L with
    pending := L.pending.filter fun x => !p x.2
    dropped := L.dropped ++ L.pending.filter fun x => p x.2 }

/-- Every posting is accounted for once, and what was taken and what waits stands in the order of
posting: what was taken was posted before what still waits. -/
structure Balanced (L : Ledger α) : Prop where
  order : ((L.taken ++ L.pending).map Prod.fst).Pairwise (· < ·)
  once : ((L.taken ++ L.pending ++ L.dropped).map Prod.fst).Perm (List.range L.count)

variable {L L' : Ledger α}

lemma Balanced.lt_count (h : L.Balanced) {x : ℕ × α} (hx : x ∈ L.taken ++ L.pending) :
    x.1 < L.count := by
  rw [← List.mem_range, ← h.once.mem_iff]
  exact List.mem_map_of_mem (List.mem_append_left _ hx)

lemma balanced_empty : (empty : Ledger α).Balanced := ⟨.nil, .nil⟩

lemma Balanced.post (h : L.Balanced) (a : α) : (L.post a).Balanced where
  order := by
    show ((L.taken ++ (L.pending ++ [(L.count, a)])).map Prod.fst).Pairwise (· < ·)
    rw [← List.append_assoc, List.map_append, List.pairwise_append]
    refine ⟨h.order, List.pairwise_singleton _ _, fun i hi j hj => ?_⟩
    obtain ⟨x, hx, rfl⟩ := List.mem_map.mp hi
    obtain rfl : j = L.count := by simpa using hj
    exact h.lt_count hx
  once := by
    show ((L.taken ++ (L.pending ++ [(L.count, a)]) ++ L.dropped).map Prod.fst).Perm
      (List.range (L.count + 1))
    have hmove : (L.taken ++ (L.pending ++ [(L.count, a)]) ++ L.dropped).Perm
        ((L.taken ++ L.pending ++ L.dropped) ++ [(L.count, a)]) := by
      rw [← List.append_assoc, List.append_assoc, List.append_assoc (L.taken ++ L.pending)]
      exact List.perm_append_comm.append_left _
    rw [List.range_succ]
    refine (hmove.map Prod.fst).trans ?_
    rw [List.map_append]
    exact h.once.append_right [L.count]

lemma Balanced.take [DecidableEq α] {a : α} (h : L.Balanced) (hL : L.take a = some L') :
    L'.Balanced := by
  unfold Ledger.take at hL
  split at hL
  · cases hL
  · next i b l hp =>
    split_ifs at hL
    obtain rfl := Option.some.inj hL
    -- the front of the waiting items becomes the end of the taken ones
    have hmove : L.taken ++ [(i, b)] ++ l = L.taken ++ L.pending := by
      rw [hp, List.append_assoc, List.singleton_append]
    exact ⟨by rw [hmove]; exact h.order, by rw [hmove]; exact h.once⟩

lemma Balanced.drop (h : L.Balanced) (p : α → Bool) : (L.drop p).Balanced where
  order := by
    refine h.order.sublist (List.Sublist.map _ ?_)
    exact List.filter_sublist.append_left _
  once := by
    refine (List.Perm.map _ ?_).trans h.once
    show (L.taken ++ L.pending.filter (fun x => !p x.2) ++
      (L.dropped ++ L.pending.filter fun x => p x.2)).Perm _
    have hsplit : (L.pending.filter (fun x => !p x.2) ++ L.pending.filter fun x => p x.2).Perm
        L.pending := List.perm_append_comm.trans (List.filter_append_perm (fun x => p x.2) L.pending)
    rw [List.append_assoc, List.append_assoc]
    refine .append_left _ ?_
    refine (List.perm_append_comm.append_left _).trans ?_
    rw [← List.append_assoc]
    exact hsplit.append_right _

/-- No more items can be taken than were posted. -/
lemma Balanced.length_le (h : L.Balanced) : L.taken.length + L.pending.length ≤ L.count := by
  have := h.once.length_eq
  simp only [List.length_map, List.length_append, List.length_range] at this
  omega

end Ledger

end Libcn.Lib
