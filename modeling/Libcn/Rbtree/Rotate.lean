import Libcn.Rbtree.Shape

/-!
# Rotations and recolouring

What one rotation and one colour assignment do to the tree a memory holds.
-/

namespace Libcn.Rbtree

open Libcn.Lib

variable {ι : Type}

/-- What the rebalancing steps leave alone. -/
structure SameOutside (m m' : Mem ι) : Prop where
  key : m'.key = m.key
  insert : m'.insert = m.insert
  sentinelParent : m'.parent .sentinel = m.parent .sentinel

namespace SameOutside

lemma refl (m : Mem ι) : SameOutside m m := ⟨rfl, rfl, rfl⟩

lemma trans {m₁ m₂ m₃ : Mem ι} (h : SameOutside m₁ m₂) (h' : SameOutside m₂ m₃) :
    SameOutside m₁ m₃ :=
  ⟨h'.key.trans h.key, h'.insert.trans h.insert, h'.sentinelParent.trans h.sentinelParent⟩

end SameOutside

variable [DecidableEq ι]

variable {m : Mem ι} {p₀ : Ptr ι} {ctx : Ctx ι}

/-- Painting the node at the focus. -/
lemma Focus.setColor {d : Dir} {c : Color} {x : ColorTree ι} {a : ι} {y : ColorTree ι}
    (h : Focus m p₀ ctx (.join d c x a y)) (c' : Color) :
    Focus (m.setColor (.node a) c') p₀ ctx (.join d c' x a y) := by
  obtain ⟨hctx, ht, hn, hb⟩ := h
  obtain ⟨hc, hp, hd, hf, hx, hy⟩ := isTree_join.mp ht
  obtain ⟨hnl, hnt, hdis⟩ := Ctx.nodup_plug.mp hn
  obtain ⟨-, -, hax, hay, -⟩ := ColorTree.nodup_join.mp hnt
  have frame : ∀ i, i ≠ a → SameAt m (m.setColor (.node a) c') i := by
    intro i hi
    simp [SameAt, hi]
  refine ⟨?_, isTree_join.mpr ⟨by simp, by simpa using hp, by simpa using hd,
    by simpa using hf, hx.frame ?_, hy.frame ?_⟩, ?_, by simpa using hb⟩
  · rw [rootPtr_join] at hctx ⊢
    refine hctx.frame (fun i hi => frame i ?_) rfl
    rintro rfl
    exact hdis i (ColorTree.mem_join.mpr (.inl rfl)) hi
  · exact fun i hi => frame i (fun e => hax (e ▸ hi))
  · exact fun i hi => frame i (fun e => hay (e ▸ hi))
  · rw [Ctx.nodup_plug]
    exact ⟨hnl, ColorTree.nodup_join.mpr (ColorTree.nodup_join.mp hnt),
      fun b hb' => hdis b (ColorTree.mem_join.mpr (ColorTree.mem_join.mp hb'))⟩

/-- The memory a rotation of `x` with child `y` and inner grandchild `b` leaves. -/
def Mem.rotated (m : Mem ι) (d : Dir) (ctx : Ctx ι) (x y : ι) (b : ColorTree ι) : Mem ι :=
  let m₁ := m.setChild d.flip (.node x) (rootPtr b)
  let m₂ := if rootPtr b = .sentinel then m₁ else m₁.setParent (rootPtr b) (.node x)
  let m₃ := (m₂.setParent (.node y) (m.parent (.node x))).fillHole ctx (.node y)
  (m₃.setChild d (.node y) (.node x)).setParent (.node x) (.node y)

section Rotated

variable (m : Mem ι) (d : Dir) (ctx : Ctx ι) (x y : ι) (b : ColorTree ι)

@[simp] lemma color_rotated : (m.rotated d ctx x y b).color = m.color := by
  simp only [Mem.rotated]; split_ifs <;> simp

@[simp] lemma key_rotated : (m.rotated d ctx x y b).key = m.key := by
  simp only [Mem.rotated]; split_ifs <;> simp

@[simp] lemma insert_rotated : (m.rotated d ctx x y b).insert = m.insert := by
  simp only [Mem.rotated]; split_ifs <;> simp

@[simp] lemma root_rotated :
    (m.rotated d ctx x y b).root = if ctx = [] then .node y else m.root := by
  simp only [Mem.rotated]; split_ifs <;> simp_all

lemma child_rotated (e : Dir) (q : Ptr ι) :
    (m.rotated d ctx x y b).child e q =
      if e = d ∧ q = .node y then .node x
      else if IsLink ctx e q then .node y
      else if e = d.flip ∧ q = .node x then rootPtr b
      else m.child e q := by
  simp only [Mem.rotated]
  split <;> simp

lemma parent_rotated (q : Ptr ι) :
    (m.rotated d ctx x y b).parent q =
      if q = .node x then .node y
      else if q = .node y then m.parent (.node x)
      else if q = rootPtr b ∧ q ≠ .sentinel then .node x
      else m.parent q := by
  simp only [Mem.rotated]
  split <;> simp <;> grind

end Rotated

/-- A rotation at the focus: `x` goes below its child `y`. No assertion fails. -/
lemma Focus.rotate_spec {d : Dir} {cx cy : Color} {a b c : ColorTree ι} {x y : ι}
    (h : Focus m p₀ ctx (.join d cx a x (.join d cy b y c))) :
    ∃ m', rotateChecked d m (.node x) = some m' ∧
      Focus m' p₀ ctx (.join d cy (.join d cx a x b) y c) ∧
      SameOutside m m' ∧ m'.color = m.color := by
  obtain ⟨hctx, ht, hn, hb⟩ := h
  obtain ⟨hxc, hxp, hxd, hxf, ha, hyt⟩ := isTree_join.mp ht
  obtain ⟨hyc, hyp, hyd, hyf, hbt, hct⟩ := isTree_join.mp hyt
  obtain ⟨hnl, hnt, hdis⟩ := Ctx.nodup_plug.mp hn
  obtain ⟨hna, hny, hxa, hxy, hay⟩ := ColorTree.nodup_join.mp hnt
  obtain ⟨hnb, hnc, hyb, hyc', hbc⟩ := ColorTree.nodup_join.mp hny
  simp only [ColorTree.mem_join, not_or] at hxy hay hdis
  rw [rootPtr_join] at hctx hxf
  have hxl : x ∉ ctx.labels := hdis x (.inl rfl)
  have hxb : rootPtr b ≠ .node x := fun e => hxy.2.1 (mem_of_rootPtr e)
  have hyb' : rootPtr b ≠ .node y := fun e => hyb (mem_of_rootPtr e)
  -- a node that is neither `x`, `y` nor the root of `b` keeps its links, the hole apart
  have frame : ∀ i, i ≠ x → i ≠ y → rootPtr b ≠ .node i → i ∉ ctx.labels →
      SameAt m (m.rotated d ctx x y b) i := by
    intro i hix hiy hib hil
    have hl : ∀ e, ¬ IsLink ctx e (.node i) := fun e h => hil h.mem_labels
    refine ⟨by simp, ?_, fun e => ?_⟩
    · simp [parent_rotated, hix, hiy, Ne.symm hib]
    · simp [child_rotated, hix, hiy, hl]
  have hne : y ≠ x := fun e => hxy.1 e.symm
  have hyl : y ∉ ctx.labels := hdis y (.inr (.inr (.inl rfl)))
  have hlx : ∀ e, ¬ IsLink ctx e (.node x) := fun e h => hxl h.mem_labels
  have hly : ∀ e, ¬ IsLink ctx e (.node y) := fun e h => hyl h.mem_labels
  have hlink : ∀ i ∈ ctx.labels, i ≠ x ∧ i ≠ y ∧ rootPtr b ≠ .node i := fun i hi =>
    ⟨fun e => hxl (e ▸ hi), fun e => hyl (e ▸ hi),
      fun e => hdis i (.inr (.inr (.inr (.inl (mem_of_rootPtr e))))) hi⟩
  refine ⟨m.rotated d ctx x y b, ?_, ⟨?_, ?_, ?_, ?_⟩, ⟨?_, ?_, ?_⟩, ?_⟩
  · -- the code runs without a fault
    unfold rotateChecked
    have hpiv := Mem.childNode?_of_eq hxf
    by_cases hbn : rootPtr b = .sentinel
    · have hrel := relinkChecked_eq ((m.setChild d.flip (.node x) .sentinel).setParent (.node y)
          (m.parent (.node x))) hctx hxl rfl
        (fun i hi e => by simp [(hlink i hi).1]) (by simp [hne.symm, hxp]) d (.node y)
      simp [hpiv, hyd, hne, hrel, hbn, Mem.rotated]
    · have hrel := relinkChecked_eq (((m.setChild d.flip (.node x) (rootPtr b)).setParent
          (rootPtr b) (.node x)).setParent (.node y) (m.parent (.node x))) hctx hxl rfl
        (fun i hi e => by simp [(hlink i hi).1]) (by simp [hne.symm, hxp, hxb.symm]) d (.node y)
      simp [hpiv, hyd, hne, hrel, hbn, Mem.rotated, Mem.setParent?_of_ne _ (rootPtr_ne_null b),
        hxb.symm]
  · -- the context
    rw [rootPtr_join]
    refine hctx.refill hnl (fun i hi => ?_) (fun e q hl => ?_) (by simp)
    · obtain ⟨hix, hiy, hib⟩ := hlink i hi
      refine ⟨by simp, by simp [parent_rotated, hix, hiy, Ne.symm hib], fun e he => ?_⟩
      simp [child_rotated, hix, hiy, he]
    · have hq : q ≠ .node y := fun e => hly _ (e ▸ hl)
      simp [child_rotated, hl, hq]
  · -- the subtrees
    refine isTree_join.mpr ⟨by simpa using hyc, ?_, ?_, ?_, isTree_join.mpr
      ⟨by simpa using hxc, ?_, ?_, ?_, ha.frame ?_, hbt.reparent hnb ?_ ?_⟩, hct.frame ?_⟩
    · simp [parent_rotated, hne, hxp]
    · simp [child_rotated]
    · simp [child_rotated, hne, hly, hyf]
    · simp [parent_rotated]
    · simp [child_rotated, hne.symm, hlx, hxd]
    · simp [child_rotated, hne.symm, hlx]
    · intro i hi
      exact frame i (fun e => hxa (e ▸ hi)) (hay i hi).1
        (fun e => (hay i hi).2.1 (mem_of_rootPtr e)) (hdis i (.inr (.inl hi)))
    · intro i hi hib
      exact frame i (fun e => hxy.2.1 (e ▸ hi)) (fun e => hyb (e ▸ hi)) hib
        (hdis i (.inr (.inr (.inr (.inl hi)))))
    · intro i hib
      have hi := mem_of_rootPtr hib
      have hix : i ≠ x := fun e => hxy.2.1 (e ▸ hi)
      have hiy : i ≠ y := fun e => hyb (e ▸ hi)
      have hil := hdis i (.inr (.inr (.inr (.inl hi))))
      have hl : ∀ e, ¬ IsLink ctx e (.node i) := fun e h => hil h.mem_labels
      simp [parent_rotated, child_rotated, hix, hiy, hib, hl]
    · intro i hi
      exact frame i (fun e => hxy.2.2 (e ▸ hi)) (fun e => hyc' (e ▸ hi))
        (fun e => hbc i (mem_of_rootPtr e) hi) (hdis i (.inr (.inr (.inr (.inr hi)))))
  · rw [Ctx.nodup_plug, ColorTree.toList_rotate]
    exact Ctx.nodup_plug.mp hn
  · simpa using hb
  · simp
  · simp
  · simp [parent_rotated]
  · simp

end Libcn.Rbtree
