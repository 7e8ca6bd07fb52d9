import Libcn.Rbtree.Run

/-!
# The rebalancing loops are safe

Every call on a tree that `rbtree_insert` and `rbtree_delete` have made runs with its assertions:
no parent link of the root is followed, the links to a grandparent, a sibling and the pivot of a
rotation lead to nodes, and the loops end because they get closer to the root.

The parent fields of the root and of the sentinel may hold anything when a call begins.
-/

namespace Libcn.Rbtree

open Libcn.Lib

variable {ι : Type} [DecidableEq ι]

/-- The memory with other values left in the parent fields of the root and of the sentinel. -/
def Mem.stale (m : Mem ι) (v w : Ptr ι) : Mem ι := (m.setParent m.root w).setParent .sentinel v

/-- A call on the tree, with the assertions. -/
def TreeOp.runChecked (fuel : ℕ) (m : Mem ι) : TreeOp ι → Option (Mem ι)
  | .insert x key => rbtreeInsertChecked fuel (m.setKey (.node x) key) (.node x)
  | .delete x => rbtreeDeleteChecked fuel m (.node x)

/-- Where a call with the assertions ends, the call ends in the same memory. -/
lemma TreeOp.runChecked_within (fuel : ℕ) (m : Mem ι) (op : TreeOp ι) :
    Within (op.runChecked fuel m) (op.run fuel m) := by
  cases op with
  | insert x key => exact rbtreeInsertChecked_within fuel (m.setKey (.node x) key) (.node x)
  | delete x => exact rbtreeDeleteChecked_within fuel m (.node x)

/-- What the root and the sentinel keep as their parent is no part of the tree. -/
lemma Holds.stale {m : Mem ι} {t : ColorTree ι} (h : Holds m t) (v w : Ptr ι) :
    Holds (m.stale v w) t := by
  obtain ⟨⟨p₀, hf⟩, hrb, hc⟩ := h
  have hroot : m.root = rootPtr t := hf.isCtx
  obtain ⟨-, htree⟩ := hf.setParent_root w
  rw [← hroot] at htree
  refine ⟨⟨w, hroot, htree.frame fun i _ => ?_, hf.nodup, by simpa [Mem.stale] using hf.sentinel⟩,
    hrb, hc⟩
  simp [SameAt, Mem.stale]

/-- An allowed call on a tree runs with its assertions. -/
lemma Holds.runChecked {fuel : ℕ} {m : Mem ι} {t : ColorTree ι} {op : TreeOp ι} (h : Holds m t)
    (hop : op.Allowed t.toList.toFinset) (hf : t.toList.length < fuel) :
    ∃ m', op.runChecked fuel m = some m' := by
  cases op with
  | insert x key =>
    have hx : x ∉ t.toList := fun hx => hop (List.mem_toFinset.mpr hx)
    obtain ⟨m', -, -, hrun, -⟩ := rbtreeInsertChecked_spec (h.setKey (.node x) key) hx hf
    exact ⟨m', hrun⟩
  | delete x =>
    obtain ⟨m', -, hrun, -⟩ := rbtreeDeleteChecked_spec h (List.mem_toFinset.mp hop) hf
    exact ⟨m', hrun⟩

/-- After every run of allowed calls from `rbtree_init`, every allowed call runs with its
assertions, whatever the root and the sentinel keep as their parent, and ends as it does without
them. -/
theorem rbtree_asserted (m : Mem ι) (i : InsertPt) (ops : List (TreeOp ι)) (fuel : ℕ)
    (hops : AllowedRun ∅ ops) (hf : ops.length < fuel) :
    ∃ m', runOps fuel (rbtreeInit m i) ops = some m' ∧
      ∀ op : TreeOp ι, op.Allowed (nodesAfter ∅ ops) → ∀ v w, ∃ m'',
        op.runChecked fuel (m'.stale v w) = some m'' ∧ op.run fuel (m'.stale v w) = some m'' := by
  have hf' : (ColorTree.nil : ColorTree ι).toList.length + ops.length < fuel := by simpa using hf
  obtain ⟨m', t, hrun, hh, hn⟩ := runOps_spec (holds_rbtreeInit m i) hops hf'
  refine ⟨m', hrun, fun op hop v w => ?_⟩
  have hlen : t.toList.length ≤ ops.length := by
    rw [hh.length_eq, hn]
    exact card_nodesAfter_le ops
  have hop' : op.Allowed t.toList.toFinset := by rwa [hn]
  obtain ⟨m'', hchecked⟩ := (hh.stale v w).runChecked hop' (by omega : _ < fuel)
  exact ⟨m'', hchecked, op.runChecked_within fuel (m'.stale v w) m'' hchecked⟩

/-- A run of five insertions and a deletion. -/
theorem rbtree_asserted_five :
    ∃ m', runOps 7 (rbtreeInit Mem.zeroed .value) [.insert 0 10, .insert 1 20, .insert 2 30,
      .insert 3 40, .insert 4 50, .delete 0] = some m' ∧
      ∀ op : TreeOp ℕ, op.Allowed {1, 2, 3, 4} → ∀ v w, ∃ m'',
        op.runChecked 7 (m'.stale v w) = some m'' ∧ op.run 7 (m'.stale v w) = some m'' := by
  have h := rbtree_asserted Mem.zeroed .value [.insert 0 10, .insert 1 20, .insert 2 30,
    .insert 3 40, .insert 4 50, .delete 0] 7
    (by simp [AllowedRun, TreeOp.Allowed, TreeOp.nodes]) (by simp)
  rwa [show nodesAfter ∅ _ = ({1, 2, 3, 4} : Finset ℕ) from by decide] at h

end Libcn.Rbtree
