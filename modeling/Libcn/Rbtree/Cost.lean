import Libcn.Rbtree.Next

/-!
# How long the calls take

The loops of `rbtree_insert`, `rbtree_delete`, `rbtree_min` and `rbtree_next` go along one path of
the tree each. So the fuel they need is logarithmic in the largest number of nodes the tree has had,
however long the run is.
-/

namespace Libcn.Rbtree

open Libcn.Lib

variable {ι : Type} [DecidableEq ι] {m : Mem ι} {t : ColorTree ι} {N fuel : ℕ}

/-- A tree that obeys the red-black law is not high. -/
lemma Holds.height_lt (h : Holds m t) (hN : t.toList.toFinset.card ≤ N)
    (hf : 2 * Nat.log 2 (N + 1) < fuel) : t.height < fuel := by
  obtain ⟨n, hn⟩ := h.rb
  have hlog := hn.height_le_log h.black
  have hmono : Nat.log 2 (t.toList.length + 1) ≤ Nat.log 2 (N + 1) := by
    refine Nat.log_mono_right ?_
    rw [h.length_eq]
    omega
  omega

/-- The tree has at most `N` nodes before each call of a run and after the last one. -/
def SizeWithin (N : ℕ) (S : Finset ι) : List (TreeOp ι) → Prop
  | [] => S.card ≤ N
  | op :: ops => S.card ≤ N ∧ SizeWithin N (op.nodes S) ops

instance (N : ℕ) (S : Finset ι) : (ops : List (TreeOp ι)) → Decidable (SizeWithin N S ops)
  | [] => inferInstanceAs (Decidable (S.card ≤ N))
  | op :: ops => @instDecidableAnd _ _ _ (instDecidableSizeWithin N (op.nodes S) ops)

lemma SizeWithin.card_le {S : Finset ι} {ops : List (TreeOp ι)} (h : SizeWithin N S ops) :
    S.card ≤ N := by
  cases ops with
  | nil => exact h
  | cons op ops => exact h.1

/-- A run of allowed calls with little fuel. -/
lemma runOps_height {ops : List (TreeOp ι)} (h : Holds m t)
    (hops : AllowedRun t.toList.toFinset ops) (hsize : SizeWithin N t.toList.toFinset ops)
    (hf : 2 * Nat.log 2 (N + 1) < fuel) :
    ∃ m' t', runOps fuel m ops = some m' ∧ Holds m' t' ∧ t'.height < fuel ∧
      t'.toList.toFinset = nodesAfter t.toList.toFinset ops := by
  have hheight := h.height_lt hsize.card_le hf
  induction ops generalizing m t with
  | nil => exact ⟨m, t, rfl, h, hheight, rfl⟩
  | cons op ops ih =>
    obtain ⟨hop, hops⟩ := hops
    obtain ⟨m₁, t₁, hrun, hh, hn⟩ := TreeOp.run_height h hop hheight
    have hsize₁ : SizeWithin N t₁.toList.toFinset ops := hn ▸ hsize.2
    obtain ⟨m', t', hrun', hh', hlow, hn'⟩ :=
      ih hh (hn ▸ hops) hsize₁ (hh.height_lt hsize₁.card_le hf)
    refine ⟨m', t', ?_, hh', hlow, by rw [hn', hn]; rfl⟩
    rw [runOps, List.foldlM_cons, hrun]
    exact hrun'

/-- From `rbtree_init`, in every run of allowed calls on at most `N` nodes at a time, each loop of
each call ends after at most `2 * log₂ (N + 1) + 1` rounds, and so do those of `rbtree_min` and of
`rbtree_next` for each node afterwards. -/
theorem rbtree_rounds (m : Mem ι) (i : InsertPt) (ops : List (TreeOp ι)) (N : ℕ)
    (hops : AllowedRun ∅ ops) (hsize : SizeWithin N ∅ ops) :
    ∃ m', runOps (2 * Nat.log 2 (N + 1) + 1) (rbtreeInit m i) ops = some m' ∧
      (nodesAfter ∅ ops ≠ ∅ → (rbtreeMin m' (2 * Nat.log 2 (N + 1) + 1) m'.root).isSome = true) ∧
      ∀ j ∈ nodesAfter ∅ ops,
        (rbtreeNext m' (2 * Nat.log 2 (N + 1) + 1) (.node j)).isSome = true := by
  obtain ⟨m', t, hrun, hh, hlow, hn⟩ := runOps_height (holds_rbtreeInit m i) hops hsize
    (Nat.lt_succ_self (2 * Nat.log 2 (N + 1)))
  refine ⟨m', hrun, fun hne => ?_, fun j hj => ?_⟩
  · obtain ⟨p₀, hfoc⟩ := hh.focus
    have ht : t ≠ .nil := by
      rintro rfl
      exact hne hn.symm
    have hroot : m'.root = rootPtr t := hfoc.isCtx
    rw [hroot, rbtreeMin_head hfoc ht hlow.le]
    rfl
  · have hmem : j ∈ t.toList := by
      rw [← List.mem_toFinset, hn]
      exact hj
    obtain ⟨pre, l, hl⟩ := List.append_of_mem hmem
    rw [rbtreeNextChecked_within m' _ (.node j) _ (hh.next hl hlow)]
    rfl

/-- Six calls on at most three nodes at a time: five rounds are enough. -/
theorem rbtree_rounds_three :
    ∃ m', runOps (2 * Nat.log 2 (3 + 1) + 1) (rbtreeInit Mem.zeroed .value) [.insert 0 5,
        .insert 1 4, .insert 2 3, .delete 0, .delete 1, .insert 0 2] = some m' ∧
      ∀ j ∈ ({0, 2} : Finset ℕ), (rbtreeNext m' (2 * Nat.log 2 (3 + 1) + 1) (.node j)).isSome =
        true := by
  obtain ⟨m', hrun, -, hnext⟩ := rbtree_rounds Mem.zeroed .value [.insert 0 5, .insert 1 4,
    .insert 2 3, .delete 0, .delete 1, .insert 0 2] 3
    (by simp [AllowedRun, TreeOp.Allowed, TreeOp.nodes]) (by decide)
  have hnodes : nodesAfter ∅ [.insert 0 5, .insert 1 4, .insert 2 3, .delete 0, .delete 1,
      .insert (0 : ℕ) 2] = {0, 2} := by decide
  rw [hnodes] at hnext
  exact ⟨m', hrun, hnext⟩

end Libcn.Rbtree
