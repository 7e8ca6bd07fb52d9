import Libcn.Rbtree.Insert
import Libcn.Rbtree.Delete
import Mathlib.Data.Finset.Card
import Mathlib.Data.List.Dedup

/-!
# Runs of insertions and deletions

The red-black law stated on pointers, and that every run of `rbtree_insert` and
`rbtree_delete` from `rbtree_init` keeps it.
-/

namespace Libcn.Rbtree

open Libcn.Lib

variable {ι : Type} [DecidableEq ι]

/-! ## Runs -/

/-- One call on the tree. The caller of `rbtree_insert` has set the key. -/
inductive TreeOp (ι : Type)
  | insert (x : ι) (key : BitVec 64)
  | delete (x : ι)
  deriving DecidableEq, Repr

/-- The effect of a call on the memory. -/
def TreeOp.run (fuel : ℕ) (m : Mem ι) : TreeOp ι → Option (Mem ι)
  | .insert x key => rbtreeInsert fuel (m.setKey (.node x) key) (.node x)
  | .delete x => rbtreeDelete fuel m (.node x)

/-- The nodes in the tree after a call. -/
def TreeOp.nodes (S : Finset ι) : TreeOp ι → Finset ι
  | .insert x _ => Insert.insert x S
  | .delete x => S.erase x

/-- Only absent nodes are inserted, and only present nodes are deleted. -/
def TreeOp.Allowed (S : Finset ι) : TreeOp ι → Prop
  | .insert x _ => x ∉ S
  | .delete x => x ∈ S

instance (S : Finset ι) : (op : TreeOp ι) → Decidable (op.Allowed S)
  | .insert x _ => inferInstanceAs (Decidable (x ∉ S))
  | .delete x => inferInstanceAs (Decidable (x ∈ S))

/-- A sequence of allowed calls on a tree with the nodes `S`. -/
def AllowedRun (S : Finset ι) : List (TreeOp ι) → Prop
  | [] => True
  | op :: ops => op.Allowed S ∧ AllowedRun (op.nodes S) ops

/-- The memory after a sequence of calls. -/
def runOps (fuel : ℕ) (m : Mem ι) (ops : List (TreeOp ι)) : Option (Mem ι) :=
  ops.foldlM (TreeOp.run fuel) m

/-- The nodes in the tree after a sequence of calls. -/
def nodesAfter (S : Finset ι) (ops : List (TreeOp ι)) : Finset ι := ops.foldl TreeOp.nodes S

/-! ## The law on pointers -/

omit [DecidableEq ι] in
/-- `Path m p l`: following child pointers from `p` to the sentinel visits the nodes `l`. -/
inductive Path (m : Mem ι) : Ptr ι → List ι → Prop
  | sentinel : Path m .sentinel []
  | child (d : Dir) {i : ι} {l : List ι} (h : Path m (m.child d (.node i)) l) :
      Path m (.node i) (i :: l)

/-- The red-black law of a tree with the nodes `S`. -/
structure RedBlackLaw (m : Mem ι) (S : Finset ι) : Prop where
  rootBlack : m.color m.root = .black
  sentinelBlack : m.color .sentinel = .black
  noRedRed : ∀ i ∈ S, m.color (.node i) = .red → ∀ d, m.color (m.child d (.node i)) = .black
  sameBlack : ∃ n, ∀ l, Path m m.root l → l.countP (fun i => m.color (.node i) = .black) = n
  parent : ∀ j ∈ S, .node j ≠ m.root →
    ∃ i ∈ S, m.parent (.node j) = .node i ∧ ∃ d, m.child d (.node i) = .node j
  parentOfChild : ∀ i ∈ S, ∀ d j, m.child d (.node i) = .node j →
    j ∈ S ∧ m.parent (.node j) = .node i
  onPath : ∀ j, j ∈ S ↔ ∃ l, Path m m.root l ∧ j ∈ l
  pathLength : ∀ l, Path m m.root l → l.length ≤ 2 * Nat.log 2 (S.card + 1)

section Paths

omit [DecidableEq ι]

variable {m : Mem ι} {t : ColorTree ι} {par : Ptr ι}

/-- Every path of a linked tree is one of the tree. -/
lemma Path.of_isTree {l : List ι} (h : IsTree m t par) (hp : Path m (rootPtr t) l) :
    l.length ≤ t.height ∧ (∀ j ∈ l, j ∈ t.toList) ∧
      ∀ n, t.RB n → l.countP (fun i => m.color (.node i) = .black) = n := by
  induction t generalizing l par with
  | nil =>
    cases hp
    exact ⟨Nat.zero_le _, by simp, fun n hn => (ColorTree.rb_nil.mp hn).symm⟩
  | node c x a y ihx ihy =>
    obtain ⟨hc, -, hl, hr, hx, hy⟩ := h
    cases hp with
    | child d hp =>
      rename_i l
      -- one side of the node
      have side : ∀ s : ColorTree ι, (l.length ≤ s.height ∧ (∀ j ∈ l, j ∈ s.toList) ∧
          ∀ n, s.RB n → l.countP (fun i => m.color (.node i) = .black) = n) →
          s.height ≤ max x.height y.height → (∀ j ∈ s.toList, j ∈ x.toList ∨ j ∈ y.toList) →
          (∀ n, (ColorTree.node c x a y).RB n → ∃ k, s.RB k ∧ n = k + c.weight) →
          (a :: l).length ≤ (ColorTree.node c x a y).height ∧
          (∀ j ∈ a :: l, j ∈ (ColorTree.node c x a y).toList) ∧
          ∀ n, (ColorTree.node c x a y).RB n →
            (a :: l).countP (fun i => m.color (.node i) = .black) = n := by
        rintro s ⟨hlen, hmem, hcount⟩ hh hs hrb
        refine ⟨by simp only [List.length_cons, ColorTree.height]; omega, ?_, fun n hn => ?_⟩
        · intro j hj
          rcases List.mem_cons.mp hj with rfl | hj
          · simp
          · rcases hs j (hmem j hj) with h | h <;> simp [h]
        · obtain ⟨k, hk, rfl⟩ := hrb n hn
          rw [List.countP_cons, hcount k hk, hc]
          cases c <;> simp [Color.weight]
      have split : ∀ n, (ColorTree.node c x a y).RB n →
          ∃ k, (x.RB k ∧ y.RB k) ∧ n = k + c.weight := by
        intro n hn
        cases c with
        | red => exact ⟨n, ⟨hn.1, hn.2.1⟩, rfl⟩
        | black =>
          cases n with
          | zero => exact absurd hn id
          | succ n => exact ⟨n, hn, rfl⟩
      cases d with
      | left =>
        rw [hl] at hp
        refine side x (ihx hx hp) (le_max_left _ _) (fun j hj => .inl hj) fun n hn => ?_
        obtain ⟨k, hk, rfl⟩ := split n hn
        exact ⟨k, hk.1, rfl⟩
      | right =>
        rw [hr] at hp
        refine side y (ihy hy hp) (le_max_right _ _) (fun j hj => .inr hj) fun n hn => ?_
        obtain ⟨k, hk, rfl⟩ := split n hn
        exact ⟨k, hk.2, rfl⟩

/-- A linked tree has a path. -/
lemma IsTree.exists_path (h : IsTree m t par) : ∃ l, Path m (rootPtr t) l := by
  induction t generalizing par with
  | nil => exact ⟨[], .sentinel⟩
  | node c x a y ihx ihy =>
    obtain ⟨-, -, hl, -, hx, -⟩ := h
    obtain ⟨l, hp⟩ := ihx hx
    exact ⟨a :: l, .child .left (by rwa [hl])⟩

/-- Every node of a linked tree lies on a path. -/
lemma IsTree.exists_path_mem {j : ι} (h : IsTree m t par) (hj : j ∈ t.toList) :
    ∃ l, Path m (rootPtr t) l ∧ j ∈ l := by
  induction t generalizing par with
  | nil => simp at hj
  | node c x a y ihx ihy =>
    obtain ⟨-, -, hl, hr, hx, hy⟩ := h
    simp only [ColorTree.toList_node, List.mem_append, List.mem_cons] at hj
    rcases hj with hj | rfl | hj
    · obtain ⟨l, hp, hjl⟩ := ihx hx hj
      exact ⟨a :: l, .child .left (by rwa [hl]), .tail _ hjl⟩
    · obtain ⟨l, hp⟩ := hx.exists_path
      exact ⟨j :: l, .child .left (by rwa [hl]), .head _⟩
    · obtain ⟨l, hp, hjl⟩ := ihy hy hj
      exact ⟨a :: l, .child .right (by rwa [hr]), .tail _ hjl⟩

end Paths

/-- A memory that holds a red-black tree obeys the law on pointers. -/
lemma Holds.law {m : Mem ι} {t : ColorTree ι} (h : Holds m t) :
    RedBlackLaw m t.toList.toFinset := by
  obtain ⟨⟨p₀, hf⟩, ⟨N, hN⟩, hc⟩ := h
  have hroot : m.root = rootPtr t := hf.isCtx
  have focus : ∀ i ∈ t.toList, ∃ ctx c l r n, t = Ctx.plug ctx (.node c l i r) ∧
      Focus m p₀ ctx (.node c l i r) ∧ (ColorTree.node c l i r).RB n := by
    intro i hi
    obtain ⟨ctx, c, l, r, rfl⟩ := Ctx.exists_plug hi
    obtain ⟨n, -, hn⟩ := Ctx.fits_of_plug hN hc
    exact ⟨ctx, c, l, r, n, rfl, focus_plug.mpr hf, hn⟩
  have children : ∀ i ∈ t.toList, ∀ d, ∃ s, m.child d (.node i) = rootPtr s ∧
      m.color (rootPtr s) = s.color ∧ (∀ j ∈ s.toList, j ∈ t.toList) ∧ IsTree m s (.node i) ∧
      (m.color (.node i) = .red → s.color = .black) := by
    intro i hi d
    obtain ⟨ctx, c, l, r, n, rfl, hfi, hn⟩ := focus i hi
    obtain ⟨x, y, hxy⟩ := ColorTree.node_eq_join d c l i r
    rw [hxy] at hfi hn ⊢
    obtain ⟨hcol, -, hch, -⟩ := hfi.reads
    have hx : Focus m p₀ (⟨d, c, i, y⟩ :: ctx) x := focus_cons.mpr hfi
    refine ⟨x, hch, hx.color_root, fun j hj => ?_, hx.isTree, fun hred => ?_⟩
    · exact Ctx.mem_plug.mpr (.inl (ColorTree.mem_join.mpr (.inr (.inl hj))))
    · obtain rfl : c = .red := hcol.symm.trans hred
      exact (ColorTree.rb_join_red.mp hn).2.2.1
  constructor
  · rw [hroot, hf.color_root, hc]
  · exact hf.sentinel
  · intro i hi hred d
    obtain ⟨s, hch, hcol, -, -, hb⟩ := children i (List.mem_toFinset.mp hi) d
    rw [hch, hcol, hb hred]
  · exact ⟨N, fun l hl => (Path.of_isTree hf.isTree (hroot ▸ hl)).2.2 N hN⟩
  · intro j hj hne
    obtain ⟨ctx, c, l, r, n, rfl, hfj, -⟩ := focus j (List.mem_toFinset.mp hj)
    cases ctx with
    | nil => exact absurd hroot.symm hne
    | cons k up =>
      refine ⟨k.elem, List.mem_toFinset.mpr ?_, hfj.parent_root (by simp), k.dir,
        hfj.reads_parent.2.2.1⟩
      exact Ctx.mem_plug.mpr (.inr (Ctx.mem_labels_cons.mpr (.inl rfl)))
  · intro i hi d j hij
    obtain ⟨s, hch, -, hs, ht, -⟩ := children i (List.mem_toFinset.mp hi) d
    have hj : rootPtr s = .node j := hch.symm.trans hij
    refine ⟨List.mem_toFinset.mpr (hs j (mem_of_rootPtr hj)), ?_⟩
    cases s with
    | nil => simp at hj
    | node c l a r =>
      obtain rfl : a = j := by simpa using hj
      exact ht.2.1
  · intro j
    rw [List.mem_toFinset, hroot]
    exact ⟨hf.isTree.exists_path_mem, fun ⟨l, hl, hj⟩ => (Path.of_isTree hf.isTree hl).2.1 j hj⟩
  · intro l hl
    have hlen := (Path.of_isTree hf.isTree (hroot ▸ hl)).1
    rw [List.toFinset_card_of_nodup hf.nodup_tree]
    exact hlen.trans (hN.height_le_log hc)

/-! ## Every run keeps the law -/

omit [DecidableEq ι] in
lemma Holds.nodup {m : Mem ι} {t : ColorTree ι} (h : Holds m t) : t.toList.Nodup := by
  obtain ⟨⟨p₀, hf⟩, -, -⟩ := h
  exact hf.nodup

lemma Holds.length_eq {m : Mem ι} {t : ColorTree ι} (h : Holds m t) :
    t.toList.length = t.toList.toFinset.card := (List.toFinset_card_of_nodup h.nodup).symm

lemma TreeOp.card_nodes_le (op : TreeOp ι) (S : Finset ι) : (op.nodes S).card ≤ S.card + 1 := by
  cases op with
  | insert x key => exact Finset.card_insert_le _ _
  | delete x => exact (Finset.card_erase_le).trans (Nat.le_succ _)

lemma card_nodesAfter_le (ops : List (TreeOp ι)) : (nodesAfter ∅ ops).card ≤ ops.length := by
  have grows : ∀ S : Finset ι, (nodesAfter S ops).card ≤ S.card + ops.length := by
    induction ops with
    | nil => exact fun S => le_rfl
    | cons op ops ih =>
      intro S
      have h₁ := op.card_nodes_le S
      have h₂ := ih (op.nodes S)
      simp only [nodesAfter, List.foldl_cons, List.length_cons] at h₂ ⊢
      omega
  simpa using grows ∅

/-- What one allowed call does to the tree a memory holds. -/
lemma TreeOp.run_height {fuel : ℕ} {m : Mem ι} {t : ColorTree ι} {op : TreeOp ι} (h : Holds m t)
    (hop : op.Allowed t.toList.toFinset) (hf : t.height < fuel) :
    ∃ m' t', op.run fuel m = some m' ∧ Holds m' t' ∧
      t'.toList.toFinset = op.nodes t.toList.toFinset := by
  cases op with
  | insert x key =>
    have h' : Holds (m.setKey (.node x) key) t := h.setKey _ _
    obtain ⟨m', t', ctx, hrun, hh, hl, hplug, -⟩ := rbtreeInsert_height h'
      (fun hx => hop (List.mem_toFinset.mpr hx)) hf
    refine ⟨m', t', hrun, hh, ?_⟩
    ext j
    simp only [TreeOp.nodes, hl, ← hplug, Ctx.toList_plug, List.mem_toFinset, Finset.mem_insert,
      List.mem_append, List.mem_cons, ColorTree.toList_nil, List.append_nil]
    tauto
  | delete x =>
    obtain ⟨m', t', hrun, hh, hl, -⟩ := rbtreeDelete_height h (List.mem_toFinset.mp hop) hf
    refine ⟨m', t', hrun, hh, ?_⟩
    ext j
    rw [TreeOp.nodes, hl, List.mem_toFinset, Finset.mem_erase, List.mem_toFinset,
      h.nodup.mem_erase_iff]

lemma TreeOp.run_spec {fuel : ℕ} {m : Mem ι} {t : ColorTree ι} {op : TreeOp ι} (h : Holds m t)
    (hop : op.Allowed t.toList.toFinset) (hf : t.toList.length < fuel) :
    ∃ m' t', op.run fuel m = some m' ∧ Holds m' t' ∧
      t'.toList.toFinset = op.nodes t.toList.toFinset :=
  TreeOp.run_height h hop (t.height_le_length.trans_lt hf)

/-- What a run of allowed calls does. -/
lemma runOps_spec {fuel : ℕ} {m : Mem ι} {t : ColorTree ι} {ops : List (TreeOp ι)} (h : Holds m t)
    (hops : AllowedRun t.toList.toFinset ops) (hf : t.toList.length + ops.length < fuel) :
    ∃ m' t', runOps fuel m ops = some m' ∧ Holds m' t' ∧
      t'.toList.toFinset = nodesAfter t.toList.toFinset ops := by
  induction ops generalizing m t with
  | nil => exact ⟨m, t, rfl, h, rfl⟩
  | cons op ops ih =>
    obtain ⟨hop, hops⟩ := hops
    simp only [List.length_cons] at hf
    obtain ⟨m₁, t₁, hrun, hh, hn⟩ := TreeOp.run_spec h hop (by omega : _ < fuel)
    have hlen : t₁.toList.length ≤ t.toList.length + 1 := by
      rw [hh.length_eq, h.length_eq, hn]
      exact op.card_nodes_le _
    obtain ⟨m', t', hrun', hh', hn'⟩ := ih hh (by rwa [hn]) (by omega)
    refine ⟨m', t', ?_, hh', by rw [hn', hn]; rfl⟩
    rw [runOps, List.foldlM_cons, hrun]
    exact hrun'

/-- `rbtree_init` makes an empty tree, whatever the memory held. -/
lemma holds_rbtreeInit (m : Mem ι) (i : InsertPt) : Holds (rbtreeInit m i) .nil :=
  ⟨⟨.null, rfl, trivial, List.nodup_nil, by simp [rbtreeInit]⟩, ⟨0, rfl⟩, rfl⟩

/-- Every run of allowed calls from `rbtree_init` ends without a fault and leaves a tree that
obeys the red-black law. -/
theorem rbtree_redBlackLaw (m : Mem ι) (i : InsertPt) (ops : List (TreeOp ι)) (fuel : ℕ)
    (hops : AllowedRun ∅ ops) (hf : ops.length < fuel) :
    ∃ m', runOps fuel (rbtreeInit m i) ops = some m' ∧ RedBlackLaw m' (nodesAfter ∅ ops) := by
  have hf' : (ColorTree.nil : ColorTree ι).toList.length + ops.length < fuel := by simpa using hf
  obtain ⟨m', t', hrun, hh, hn⟩ := runOps_spec (holds_rbtreeInit m i) hops hf'
  refine ⟨m', hrun, ?_⟩
  have := hh.law
  rwa [hn] at this

/-- A run over three nodes, the comparison of whose keys goes round in a circle. -/
theorem rbtree_redBlackLaw_circle :
    ∃ m', runOps 6 (rbtreeInit Mem.zeroed .timerValue) [.insert 0 0, .insert 1 (2 ^ 62 + 2 ^ 61),
      .insert 2 (2 ^ 63 + 2 ^ 62), .delete 0, .insert 0 0] = some m' ∧
      RedBlackLaw m' {0, 1, 2} := by
  have h := rbtree_redBlackLaw Mem.zeroed .timerValue [.insert 0 0, .insert 1 (2 ^ 62 + 2 ^ 61),
    .insert 2 (2 ^ 63 + 2 ^ 62), .delete 0, .insert 0 0] 6
    (by simp [AllowedRun, TreeOp.Allowed, TreeOp.nodes]) (by simp)
  rwa [show nodesAfter ∅ _ = ({0, 1, 2} : Finset ℕ) from by decide] at h

end Libcn.Rbtree
