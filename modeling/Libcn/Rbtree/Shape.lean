import Libcn.Rbtree.Checked

/-!
# The tree a memory holds

`IsTree m t par` says that the nodes of `t` are linked in `m` as `t` is, below the parent
`par`. `Focus m p₀ ctx t` says it of a whole tree seen from the subtree `t` in the context
`ctx`: this is the shape the loops of `rbtree.c` keep while `node` or `temp` walks up.

The parent of the root is whatever value `p₀` it was left with.
-/

namespace Libcn.Rbtree

open Libcn.Lib

variable {ι : Type}

/-- The pointer a parent keeps to a subtree. -/
def rootPtr : ColorTree ι → Ptr ι
  | .nil => .sentinel
  | .node _ _ a _ => .node a

@[simp] lemma rootPtr_nil : rootPtr (.nil : ColorTree ι) = .sentinel := rfl

@[simp] lemma rootPtr_node (c : Color) (l : ColorTree ι) (a : ι) (r : ColorTree ι) :
    rootPtr (.node c l a r) = .node a := rfl

@[simp] lemma rootPtr_join (d : Dir) (c : Color) (x : ColorTree ι) (a : ι) (y : ColorTree ι) :
    rootPtr (ColorTree.join d c x a y) = .node a := by cases d <;> rfl

@[simp] lemma rootPtr_paint (c : Color) (t : ColorTree ι) : rootPtr (t.paint c) = rootPtr t := by
  cases t <;> rfl

lemma rootPtr_eq_sentinel {t : ColorTree ι} : rootPtr t = .sentinel ↔ t = .nil := by
  cases t <;> simp [rootPtr]

lemma rootPtr_ne_null (t : ColorTree ι) : rootPtr t ≠ .null := by
  cases t <;> simp [rootPtr]

lemma mem_of_rootPtr {t : ColorTree ι} {i : ι} (h : rootPtr t = .node i) : i ∈ t.toList := by
  cases t with
  | nil => simp at h
  | node c l a r =>
    obtain rfl : a = i := by simpa [rootPtr] using h
    simp

/-- The subtree `t` is linked in memory below `par`. -/
def IsTree (m : Mem ι) : ColorTree ι → Ptr ι → Prop
  | .nil, _ => True
  | .node c l a r, par =>
    m.color (.node a) = c ∧ m.parent (.node a) = par ∧
      m.child .left (.node a) = rootPtr l ∧ m.child .right (.node a) = rootPtr r ∧
      IsTree m l (.node a) ∧ IsTree m r (.node a)

@[simp] lemma isTree_nil {m : Mem ι} {par : Ptr ι} : IsTree m .nil par := trivial

lemma isTree_join {m : Mem ι} {d : Dir} {c : Color} {x : ColorTree ι} {a : ι} {y : ColorTree ι}
    {par : Ptr ι} :
    IsTree m (.join d c x a y) par ↔
      m.color (.node a) = c ∧ m.parent (.node a) = par ∧
        m.child d (.node a) = rootPtr x ∧ m.child d.flip (.node a) = rootPtr y ∧
        IsTree m x (.node a) ∧ IsTree m y (.node a) := by
  cases d <;> simp only [ColorTree.join, IsTree, Dir.flip]
  tauto

/-- The parent of the hole. -/
def holeParent (p₀ : Ptr ι) : Ctx ι → Ptr ι
  | [] => p₀
  | k :: _ => .node k.elem

@[simp] lemma holeParent_nil (p₀ : Ptr ι) : holeParent p₀ [] = p₀ := rfl
@[simp] lemma holeParent_cons (p₀ : Ptr ι) (k : Crumb ι) (up : Ctx ι) :
    holeParent p₀ (k :: up) = .node k.elem := rfl

/-- The context is linked in memory around the pointer `hole`. -/
def IsCtx (m : Mem ι) (p₀ : Ptr ι) : Ctx ι → Ptr ι → Prop
  | [], hole => m.root = hole
  | k :: up, hole =>
    m.color (.node k.elem) = k.color ∧ m.parent (.node k.elem) = holeParent p₀ up ∧
      m.child k.dir (.node k.elem) = hole ∧ m.child k.dir.flip (.node k.elem) = rootPtr k.sib ∧
      IsTree m k.sib (.node k.elem) ∧ IsCtx m p₀ up (.node k.elem)

/-- The memory holds the tree `ctx.plug t`, seen from the subtree `t`. -/
structure Focus (m : Mem ι) (p₀ : Ptr ι) (ctx : Ctx ι) (t : ColorTree ι) : Prop where
  isCtx : IsCtx m p₀ ctx (rootPtr t)
  isTree : IsTree m t (holeParent p₀ ctx)
  nodup : (ctx.plug t).toList.Nodup
  sentinel : m.color .sentinel = .black

/-- The focus may move one step up or down. -/
lemma focus_cons {m : Mem ι} {p₀ : Ptr ι} {k : Crumb ι} {up : Ctx ι} {t : ColorTree ι} :
    Focus m p₀ (k :: up) t ↔ Focus m p₀ up (k.plug t) := by
  constructor
  · rintro ⟨⟨hc, hp, hd, hf, hs, hup⟩, ht, hn, hb⟩
    refine ⟨?_, ?_, hn, hb⟩
    · simpa [Crumb.plug] using hup
    · exact isTree_join.mpr ⟨hc, hp, hd, hf, ht, hs⟩
  · rintro ⟨hup, ht, hn, hb⟩
    obtain ⟨hc, hp, hd, hf, ht, hs⟩ := isTree_join.mp ht
    exact ⟨⟨hc, hp, hd, hf, hs, by simpa [Crumb.plug] using hup⟩, ht, hn, hb⟩

/-- The focus may move anywhere. -/
lemma focus_plug {m : Mem ι} {p₀ : Ptr ι} {ctx : Ctx ι} {t : ColorTree ι} :
    Focus m p₀ ctx t ↔ Focus m p₀ [] (ctx.plug t) := by
  induction ctx generalizing t with
  | nil => rfl
  | cons k up ih => rw [focus_cons, ih]; rfl

/-- The focus may move to the other child of the parent. -/
lemma focus_sibling {m : Mem ι} {p₀ : Ptr ι} {d : Dir} {c : Color} {a : ι} {s t : ColorTree ι}
    {up : Ctx ι} :
    Focus m p₀ (⟨d, c, a, s⟩ :: up) t ↔ Focus m p₀ (⟨d.flip, c, a, t⟩ :: up) s := by
  rw [focus_cons, focus_cons, Crumb.plug, Crumb.plug, ColorTree.join_flip]

/-- Two contexts of one tree. -/
lemma focus_append {m : Mem ι} {p₀ : Ptr ι} {ctx up : Ctx ι} {t : ColorTree ι} :
    Focus m p₀ (ctx ++ up) t ↔ Focus m p₀ up (ctx.plug t) := by
  induction ctx generalizing t with
  | nil => rfl
  | cons k ctx ih => rw [List.cons_append, focus_cons, ih]; rfl

/-! ## Frame lemmas -/

/-- `m'` agrees with `m` on the links and the colour of the node `i`. -/
def SameAt (m m' : Mem ι) (i : ι) : Prop :=
  m'.color (.node i) = m.color (.node i) ∧ m'.parent (.node i) = m.parent (.node i) ∧
    ∀ d, m'.child d (.node i) = m.child d (.node i)

lemma IsTree.frame {m m' : Mem ι} {t : ColorTree ι} {par : Ptr ι} (h : IsTree m t par)
    (hs : ∀ i ∈ t.toList, SameAt m m' i) : IsTree m' t par := by
  induction t generalizing par with
  | nil => trivial
  | node c l a r ihl ihr =>
    obtain ⟨hc, hp, hl, hr, htl, htr⟩ := h
    obtain ⟨sc, sp, sd⟩ := hs a (by simp)
    exact ⟨sc.trans hc, sp.trans hp, (sd _).trans hl, (sd _).trans hr,
      ihl htl fun i hi => hs i (by simp [hi]), ihr htr fun i hi => hs i (by simp [hi])⟩

/-- A subtree whose root alone got a new parent. -/
lemma IsTree.reparent {m m' : Mem ι} {t : ColorTree ι} {par par' : Ptr ι} (h : IsTree m t par)
    (hn : t.toList.Nodup)
    (hs : ∀ i ∈ t.toList, rootPtr t ≠ .node i → SameAt m m' i)
    (hc : ∀ i, rootPtr t = .node i → m'.color (.node i) = m.color (.node i) ∧
      m'.parent (.node i) = par' ∧ ∀ d, m'.child d (.node i) = m.child d (.node i)) :
    IsTree m' t par' := by
  cases t with
  | nil => trivial
  | node c l a r =>
    obtain ⟨hcol, -, hl, hr, htl, htr⟩ := h
    obtain ⟨sc, sp, sd⟩ := hc a rfl
    have hal : a ∉ l.toList ∧ a ∉ r.toList := by
      simp only [ColorTree.toList_node, List.nodup_append, List.nodup_cons] at hn
      grind
    refine ⟨sc.trans hcol, sp, (sd _).trans hl, (sd _).trans hr, htl.frame ?_, htr.frame ?_⟩
    · intro i hi
      refine hs i (by simp [hi]) ?_
      simp only [rootPtr, ne_eq, Ptr.node.injEq]
      rintro rfl; exact hal.1 hi
    · intro i hi
      refine hs i (by simp [hi]) ?_
      simp only [rootPtr, ne_eq, Ptr.node.injEq]
      rintro rfl; exact hal.2 hi

lemma IsCtx.frame {m m' : Mem ι} {p₀ : Ptr ι} {ctx : Ctx ι} {hole : Ptr ι}
    (h : IsCtx m p₀ ctx hole) (hs : ∀ i ∈ ctx.labels, SameAt m m' i)
    (hr : m'.root = m.root) : IsCtx m' p₀ ctx hole := by
  induction ctx generalizing hole with
  | nil => exact hr.trans h
  | cons k up ih =>
    obtain ⟨hc, hp, hd, hf, ht, hup⟩ := h
    obtain ⟨sc, sp, sd⟩ := hs k.elem (Ctx.mem_labels_cons.mpr (.inl rfl))
    exact ⟨sc.trans hc, sp.trans hp, (sd _).trans hd, (sd _).trans hf,
      ht.frame fun i hi => hs i (Ctx.mem_labels_cons.mpr (.inr (.inl hi))),
      ih hup fun i hi => hs i (Ctx.mem_labels_cons.mpr (.inr (.inr hi)))⟩

/-- The link that points to the hole. -/
def IsLink (ctx : Ctx ι) (d : Dir) (q : Ptr ι) : Prop :=
  match ctx with
  | [] => False
  | k :: _ => d = k.dir ∧ q = .node k.elem

instance (ctx : Ctx ι) [DecidableEq ι] (d : Dir) (q : Ptr ι) : Decidable (IsLink ctx d q) :=
  match ctx with
  | [] => .isFalse id
  | _ :: _ => inferInstanceAs (Decidable (_ ∧ _))

/-- A context whose hole alone was refilled. -/
lemma IsCtx.refill {m m' : Mem ι} {p₀ : Ptr ι} {ctx : Ctx ι} {hole hole' : Ptr ι}
    (h : IsCtx m p₀ ctx hole) (hn : ctx.labels.Nodup)
    (hs : ∀ i ∈ ctx.labels, m'.color (.node i) = m.color (.node i) ∧
      m'.parent (.node i) = m.parent (.node i) ∧
      ∀ d, ¬ IsLink ctx d (.node i) → m'.child d (.node i) = m.child d (.node i))
    (hl : ∀ d q, IsLink ctx d q → m'.child d q = hole')
    (hr : m'.root = if ctx = [] then hole' else m.root) : IsCtx m' p₀ ctx hole' := by
  cases ctx with
  | nil => exact hr
  | cons k up =>
    obtain ⟨hc, hp, hd, hf, ht, hup⟩ := h
    obtain ⟨-, -, hks, hku, -⟩ := Ctx.nodup_labels_cons.mp hn
    have other : ∀ i, i ≠ k.elem → i ∈ Ctx.labels (k :: up) → SameAt m m' i := by
      intro i hi hmem
      obtain ⟨sc, sp, sd⟩ := hs i hmem
      exact ⟨sc, sp, fun d => sd d (by simp [IsLink, hi])⟩
    obtain ⟨sc, sp, sd⟩ := hs k.elem (Ctx.mem_labels_cons.mpr (.inl rfl))
    refine ⟨sc.trans hc, sp.trans hp, hl _ _ ⟨rfl, rfl⟩, ?_, ht.frame ?_, hup.frame ?_ ?_⟩
    · rw [sd _ (by simp [IsLink]), hf]
    · exact fun i hi => other i (fun e => hks (e ▸ hi)) (Ctx.mem_labels_cons.mpr (.inr (.inl hi)))
    · exact fun i hi => other i (fun e => hku (e ▸ hi)) (Ctx.mem_labels_cons.mpr (.inr (.inr hi)))
    · simpa using hr

/-- The root of a tree with a non-empty context lies in the context. -/
lemma IsCtx.root_mem {m : Mem ι} {p₀ : Ptr ι} {ctx : Ctx ι} {hole : Ptr ι}
    (h : IsCtx m p₀ ctx hole) (hne : ctx ≠ []) : ∃ i ∈ ctx.labels, m.root = .node i := by
  induction ctx generalizing hole with
  | nil => exact absurd rfl hne
  | cons k up ih =>
    obtain ⟨-, -, -, -, -, hup⟩ := h
    cases up with
    | nil => exact ⟨k.elem, Ctx.mem_labels_cons.mpr (.inl rfl), hup⟩
    | cons k' up' =>
      obtain ⟨i, hi, hr⟩ := ih hup (by simp)
      exact ⟨i, Ctx.mem_labels_cons.mpr (.inr (.inr hi)), hr⟩

namespace Focus

variable {m : Mem ι} {p₀ : Ptr ι} {ctx : Ctx ι} {t : ColorTree ι}

lemma not_mem_labels (h : Focus m p₀ ctx t) {i : ι} (hi : i ∈ t.toList) : i ∉ ctx.labels :=
  (Ctx.nodup_plug.mp h.nodup).2.2 i hi

lemma nodup_labels (h : Focus m p₀ ctx t) : ctx.labels.Nodup := (Ctx.nodup_plug.mp h.nodup).1

lemma nodup_tree (h : Focus m p₀ ctx t) : t.toList.Nodup := (Ctx.nodup_plug.mp h.nodup).2.1

/-- What the code reads at the focus. -/
lemma reads {d : Dir} {c : Color} {x : ColorTree ι} {a : ι} {y : ColorTree ι}
    (h : Focus m p₀ ctx (.join d c x a y)) :
    m.color (.node a) = c ∧ m.parent (.node a) = holeParent p₀ ctx ∧
      m.child d (.node a) = rootPtr x ∧ m.child d.flip (.node a) = rootPtr y := by
  obtain ⟨hc, hp, hd, hf, -, -⟩ := isTree_join.mp h.isTree
  exact ⟨hc, hp, hd, hf⟩

lemma color_root (h : Focus m p₀ ctx t) : m.color (rootPtr t) = t.color := by
  cases t with
  | nil => exact h.sentinel
  | node c l a r => exact h.isTree.1

lemma parent_root (h : Focus m p₀ ctx t) (ht : t ≠ .nil) :
    m.parent (rootPtr t) = holeParent p₀ ctx := by
  cases t with
  | nil => exact absurd rfl ht
  | node c l a r => exact h.isTree.2.1

/-- What the code reads at the parent of the focus. -/
lemma reads_parent {k : Crumb ι} (h : Focus m p₀ (k :: ctx) t) :
    m.color (.node k.elem) = k.color ∧ m.parent (.node k.elem) = holeParent p₀ ctx ∧
      m.child k.dir (.node k.elem) = rootPtr t ∧
      m.child k.dir.flip (.node k.elem) = rootPtr k.sib :=
  (focus_cons.mp h).reads

/-- The focus and its sibling are different nodes. -/
lemma ne_sibling {k : Crumb ι} (h : Focus m p₀ (k :: ctx) t) (ht : t ≠ .nil ∨ k.sib ≠ .nil) :
    rootPtr t ≠ rootPtr k.sib := by
  intro e
  cases t with
  | nil => exact ht.elim (absurd rfl) fun hs => hs (rootPtr_eq_sentinel.mp e.symm)
  | node c l a r =>
    exact h.not_mem_labels (i := a) (by simp)
      (Ctx.mem_labels_cons.mpr (.inr (.inl (mem_of_rootPtr e.symm))))

/-- The test `p == p->parent->left` finds the side of the focus. -/
lemma side_eq {k : Crumb ι} [DecidableEq ι] (h : Focus m p₀ (k :: ctx) t)
    (ht : t ≠ .nil ∨ k.sib ≠ .nil) :
    (if rootPtr t = m.child .left (.node k.elem) then Dir.left else Dir.right) = k.dir := by
  obtain ⟨-, -, hd, hf⟩ := h.reads_parent
  rcases k with ⟨d, c, a, s⟩
  cases d
  · simp [hd]
  · have hl : m.child .left (.node a) = rootPtr s := hf
    simp [hl, h.ne_sibling ht]

/-- The focus is the root exactly when the context is empty. -/
lemma eq_root_iff (h : Focus m p₀ ctx t) : rootPtr t = m.root ↔ ctx = [] := by
  constructor
  · intro hr
    by_contra hc
    obtain ⟨i, hi, hroot⟩ := h.isCtx.root_mem hc
    exact h.not_mem_labels (mem_of_rootPtr (hr.trans hroot)) hi
  · rintro rfl
    exact h.isCtx.symm

section Asserted

variable [DecidableEq ι]

/-- The parent link of a focus below the root leads to a node, where the focus knows its parent. -/
lemma up_eq {k : Crumb ι} (h : Focus m p₀ (k :: ctx) t)
    (hp : m.parent (rootPtr t) = .node k.elem) : m.up? (rootPtr t) = some (.node k.elem) := by
  have hroot : rootPtr t ≠ m.root := fun e => by simpa using h.eq_root_iff.mp e
  simp [Mem.up?, hroot, Mem.parent?_of_ne _ (rootPtr_ne_null t), hp]

lemma up {k : Crumb ι} (h : Focus m p₀ (k :: ctx) t) (ht : t ≠ .nil) :
    m.up? (rootPtr t) = some (.node k.elem) := h.up_eq (h.parent_root ht)

/-- The focus is as far from the root as its context is long. -/
lemma depth_eq {fuel : ℕ} (h : Focus m p₀ ctx t) (hp : m.parent (rootPtr t) = holeParent p₀ ctx)
    (hf : ctx.length < fuel) : m.depth? fuel (rootPtr t) = some ctx.length := by
  induction ctx generalizing t fuel with
  | nil =>
    obtain ⟨fuel, rfl⟩ : ∃ f, fuel = f + 1 := ⟨fuel - 1, by omega⟩
    simp [Mem.depth?, h.eq_root_iff.mpr rfl]
  | cons k up ih =>
    simp only [List.length_cons] at hf
    obtain ⟨fuel, rfl⟩ : ∃ f, fuel = f + 1 := ⟨fuel - 1, by omega⟩
    have hroot : rootPtr t ≠ m.root := fun e => by simpa using h.eq_root_iff.mp e
    have hk := focus_cons.mp h
    have hd := ih hk (hk.parent_root (by simp [Crumb.plug])) (by omega : _ < fuel)
    rw [Crumb.plug, rootPtr_join] at hd
    simp [Mem.depth?, hroot, h.up_eq hp, hd]

/-- The assertion between two iterations holds where the context got shorter. -/
lemma closer_eq {fuel : ℕ} {last : Option ℕ} (h : Focus m p₀ ctx t)
    (hp : m.parent (rootPtr t) = holeParent p₀ ctx) (hf : ctx.length < fuel)
    (hl : ∀ l ∈ last, ctx.length < l) :
    m.closer? fuel last (rootPtr t) = some ctx.length := by
  rw [Mem.closer?, h.depth_eq hp hf, Option.bind_eq_bind, Option.bind_some, if_pos hl]
  rfl

end Asserted

end Focus

/-- The memory holds the red-black tree `t`. -/
structure Holds (m : Mem ι) (t : ColorTree ι) : Prop where
  focus : ∃ p₀, Focus m p₀ [] t
  rb : ∃ N, t.RB N
  black : t.color = .black

/-- A fitting focus makes the memory hold a red-black tree. -/
lemma Focus.holds {m : Mem ι} {p₀ : Ptr ι} {ctx : Ctx ι} {t : ColorTree ι} {n : ℕ}
    (h : Focus m p₀ ctx t) (hfit : Ctx.Fits ctx t.color n) (ht : t.RB n) :
    Holds m (ctx.plug t) := by
  obtain ⟨N, hN, hc⟩ := hfit.plug ht
  exact ⟨⟨p₀, focus_plug.mp h⟩, ⟨N, hN⟩, hc⟩

/-- Keys play no part in the shape. -/
lemma Holds.setKey [DecidableEq ι] {m : Mem ι} {t : ColorTree ι} (h : Holds m t) (p : Ptr ι)
    (k : BitVec 64) : Holds (m.setKey p k) t := by
  obtain ⟨⟨p₀, hctx, ht, hn, hb⟩, hrb, hc⟩ := h
  have same : ∀ i, SameAt m (m.setKey p k) i := fun i => ⟨rfl, rfl, fun _ => rfl⟩
  exact ⟨⟨p₀, hctx.frame (fun i _ => same i) rfl, ht.frame fun i _ => same i, hn, hb⟩, hrb, hc⟩

/-- A node that is not in the tree may be cleared. -/
lemma Holds.zeroNode [DecidableEq ι] {m : Mem ι} {t : ColorTree ι} (h : Holds m t) {i : ι}
    (hi : i ∉ t.toList) : Holds (m.zeroNode i) t := by
  obtain ⟨⟨p₀, hfoc⟩, hrb, hblack⟩ := h
  have same : ∀ j ∈ t.toList, SameAt m (m.zeroNode i) j := by
    intro j hj
    have hne : j ≠ i := fun e => hi (e ▸ hj)
    simp [SameAt, Mem.zeroNode, hne]
  refine ⟨⟨p₀, ⟨hfoc.isCtx, hfoc.isTree.frame same, hfoc.nodup, ?_⟩⟩, hrb, hblack⟩
  simpa [Mem.zeroNode] using hfoc.sentinel

/-! ## Filling the hole -/

section FillHole

variable [DecidableEq ι]

/-- The memory with `v` stored in the link that points to the hole. -/
def Mem.fillHole (m : Mem ι) (ctx : Ctx ι) (v : Ptr ι) : Mem ι :=
  match ctx with
  | [] => { m with root := v }
  | k :: _ => m.setChild k.dir (.node k.elem) v

@[simp] lemma Mem.child_fillHole (m : Mem ι) (ctx : Ctx ι) (v : Ptr ι) (d : Dir) (q : Ptr ι) :
    (m.fillHole ctx v).child d q = if IsLink ctx d q then v else m.child d q := by
  cases ctx with
  | nil => simp [Mem.fillHole, IsLink]
  | cons k up => rw [Mem.fillHole, Mem.child_setChild]; rfl
@[simp] lemma Mem.parent_fillHole (m : Mem ι) (ctx : Ctx ι) (v : Ptr ι) :
    (m.fillHole ctx v).parent = m.parent := by cases ctx <;> rfl
@[simp] lemma Mem.color_fillHole (m : Mem ι) (ctx : Ctx ι) (v : Ptr ι) :
    (m.fillHole ctx v).color = m.color := by cases ctx <;> rfl
@[simp] lemma Mem.key_fillHole (m : Mem ι) (ctx : Ctx ι) (v : Ptr ι) :
    (m.fillHole ctx v).key = m.key := by cases ctx <;> rfl
@[simp] lemma Mem.insert_fillHole (m : Mem ι) (ctx : Ctx ι) (v : Ptr ι) :
    (m.fillHole ctx v).insert = m.insert := by cases ctx <;> rfl
@[simp] lemma Mem.root_fillHole (m : Mem ι) (ctx : Ctx ι) (v : Ptr ι) :
    (m.fillHole ctx v).root = if ctx = [] then v else m.root := by cases ctx <;> rfl

omit [DecidableEq ι] in
lemma IsLink.mem_labels {ctx : Ctx ι} {d : Dir} {i : ι} (h : IsLink ctx d (.node i)) :
    i ∈ ctx.labels := by
  cases ctx with
  | nil => exact h.elim
  | cons k up =>
    obtain ⟨-, hi⟩ := h
    exact Ctx.mem_labels_cons.mpr (.inl (Ptr.node.inj hi))

/-- `relinkChecked` stores `temp` in the link that points to the node `x`. -/
lemma relinkChecked_eq (m₁ : Mem ι) {m : Mem ι} {p₀ : Ptr ι} {ctx : Ctx ι} {x : ι}
    (h : IsCtx m p₀ ctx (.node x)) (hx : x ∉ ctx.labels)
    (hr : m₁.root = m.root)
    (hs : ∀ i ∈ ctx.labels, ∀ e, m₁.child e (.node i) = m.child e (.node i))
    (hp : m₁.parent (.node x) = holeParent p₀ ctx) (d : Dir) (temp : Ptr ι) :
    relinkChecked d m₁ (.node x) temp = some (m₁.fillHole ctx temp) := by
  cases ctx with
  | nil =>
    have hroot : m₁.root = .node x := hr.trans h
    simp [relinkChecked, hroot, Mem.fillHole]
  | cons k up =>
    have hroot : m₁.root ≠ .node x := by
      obtain ⟨i, hi, hi'⟩ := h.root_mem (by simp)
      rw [hr, hi']
      simp only [ne_eq, Ptr.node.injEq]
      rintro rfl; exact hx hi
    obtain ⟨-, -, hd, hf, -, -⟩ := h
    have hk := hs k.elem (Ctx.mem_labels_cons.mpr (.inl rfl))
    have hsib : rootPtr k.sib ≠ .node x := fun e =>
      hx (Ctx.mem_labels_cons.mpr (.inr (.inl (mem_of_rootPtr e))))
    simp only [holeParent] at hp
    rcases Dir.eq_or_eq_flip d k.dir with hkd | hkd
    · have : m₁.child d (.node k.elem) = .node x := by rw [hk, ← hkd, hd]
      simp [relinkChecked, Mem.up?, hroot.symm, hp, this, Mem.fillHole, hkd]
    · have : m₁.child d (.node k.elem) = rootPtr k.sib := by
        rw [hk, ← hf, hkd, Dir.flip_flip]
      simp [relinkChecked, Mem.up?, hroot.symm, hp, this, hsib.symm, Mem.fillHole, hkd]

end FillHole

end Libcn.Rbtree
