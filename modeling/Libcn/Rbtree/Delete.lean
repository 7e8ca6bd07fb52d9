import Libcn.Rbtree.DeleteFixup

/-!
# Deletion

`rbtree_delete` takes out the node itself, or its in-order successor, which then stands in
for it. Either way one subtree moves up, and the fix-up loop starts there.
-/

namespace Libcn.Rbtree

open Libcn.Lib

variable {ι : Type} [DecidableEq ι] {m : Mem ι} {p₀ : Ptr ι}

/-! ## Moving a subtree up -/

/-- Storing into the parent field of the focus disturbs nothing around it. -/
lemma Focus.setParent_root {ctx : Ctx ι} {t : ColorTree ι} (h : Focus m p₀ ctx t) (q : Ptr ι) :
    IsCtx (m.setParent (rootPtr t) q) p₀ ctx (rootPtr t) ∧
      IsTree (m.setParent (rootPtr t) q) t q := by
  refine ⟨h.isCtx.frame (fun i hi => ?_) rfl, h.isTree.reparent h.nodup_tree (fun i _ hi => ?_)
    fun i hi => ?_⟩
  · have : Ptr.node i ≠ rootPtr t := fun e => h.not_mem_labels (mem_of_rootPtr e.symm) hi
    simp [SameAt, this]
  · simp [SameAt, hi.symm]
  · simp [hi]

/-- The memory in which `temp` is linked below the parent of the hole. -/
def Mem.splice (m : Mem ι) (p₀ : Ptr ι) (ctx : Ctx ι) (temp : Ptr ι) : Mem ι :=
  (m.fillHole ctx temp).setParent temp (holeParent p₀ ctx)

lemma Mem.setParent_splice (m : Mem ι) (p₀ : Ptr ι) (ctx : Ctx ι) (temp q : Ptr ι) :
    (m.splice p₀ ctx temp).setParent temp q = (m.fillHole ctx temp).setParent temp q := by
  simp [Mem.splice, Mem.setParent]

/-- The only child `s` of the focus takes its place. -/
lemma Focus.splice {ctx : Ctx ι} {d : Dir} {c : Color} {x : ι} {s : ColorTree ι}
    (h : Focus m p₀ ctx (.join d c .nil x s)) :
    TempFocus (m.splice p₀ ctx (rootPtr s)) p₀ ctx s := by
  obtain ⟨hctx, ht, hn, hb⟩ := h
  obtain ⟨-, -, -, -, -, hs⟩ := isTree_join.mp ht
  obtain ⟨hnl, hnt, hdis⟩ := Ctx.nodup_plug.mp hn
  obtain ⟨-, hns, -, -, -⟩ := ColorTree.nodup_join.mp hnt
  have hsl : ∀ i ∈ s.toList, i ∉ ctx.labels := fun i hi =>
    hdis i (ColorTree.mem_join.mpr (.inr (.inr hi)))
  have hll : ∀ i ∈ s.toList, ∀ e, ¬ IsLink ctx e (.node i) := fun i hi e hl =>
    hsl i hi hl.mem_labels
  refine ⟨⟨?_, ?_, ?_, by simpa [Mem.splice] using hb⟩, by simp [Mem.splice]⟩
  · refine hctx.refill hnl (fun i hi => ⟨by simp [Mem.splice], ?_, fun d hd => ?_⟩)
      (fun d q hq => ?_) (by simp [Mem.splice])
    · have : Ptr.node i ≠ rootPtr s := fun e => hsl i (mem_of_rootPtr e.symm) hi
      simp [Mem.splice, this]
    · simp [Mem.splice, hd]
    · simp [Mem.splice, hq]
  · refine hs.reparent hns (fun i hi hne => ?_) fun i hi => ?_
    · simp [SameAt, Mem.splice, hll i hi, hne.symm]
    · simp [Mem.splice, hi, hll i (mem_of_rootPtr hi)]
  · exact Ctx.nodup_plug.mpr ⟨hnl, hns, hsl⟩

/-- The first step of `deleteUnlink` stores `temp` where the node `x` was linked. -/
lemma Focus.unlink_eq {k : Crumb ι} {up : Ctx ι} {d : Dir} {c : Color} {x : ι} {l r : ColorTree ι}
    (h : Focus m p₀ (k :: up) (.join d c l x r)) (temp : Ptr ι) :
    m.parent (.node x) = .node k.elem ∧ m.up? (.node x) = some (.node k.elem) ∧
    (if Ptr.node x = m.child .left (.node k.elem) then m.setChild .left (.node k.elem) temp
      else m.setChild .right (.node k.elem) temp) = m.fillHole (k :: up) temp := by
  have hside := h.side_eq (.inl (by simp))
  have hup := h.up (by simp)
  rw [rootPtr_join] at hside hup
  refine ⟨h.reads.2.1, hup, ?_⟩
  split_ifs at hside ⊢ <;> simp [Mem.fillHole, ← hside]

/-- Unlinking a node with at most one child. -/
lemma deleteUnlinkChecked_self {k : Crumb ι} {up : Ctx ι} {d : Dir} {c : Color} {x : ι}
    {s : ColorTree ι} (h : Focus m p₀ (k :: up) (.join d c .nil x s)) :
    ∃ m', deleteUnlinkChecked m (.node x) (rootPtr s) (.node x) = some m' ∧
      TempFocus m' p₀ (k :: up) s ∧ m'.key = m.key ∧ m'.insert = m.insert := by
  obtain ⟨hpar, hup, hif⟩ := h.unlink_eq (rootPtr s)
  refine ⟨_, ?_, h.splice, by simp [Mem.splice], by simp [Mem.splice]⟩
  have hf : ∀ q, (m.fillHole (k :: up) (rootPtr s)).setParent? (rootPtr s) q =
      some ((m.fillHole (k :: up) (rootPtr s)).setParent (rootPtr s) q) := fun q =>
    Mem.setParent?_of_ne _ (rootPtr_ne_null s) q
  split_ifs at hif with hl
  · simp [deleteUnlinkChecked, hpar, hup, ← hl, hif, hf, Mem.splice]
  · simp [deleteUnlinkChecked, hpar, hup, hl, hif, hf, Mem.splice]

/-! ## The successor stands in for the node -/

/-- The memory in which `s` has the place, the links and the colour of `x`. -/
def Mem.replaced (m : Mem ι) (ctx : Ctx ι) (c : Color) (x s : ι) (l r : ColorTree ι) : Mem ι :=
  let m₁ := (((m.setChild .left (.node s) (rootPtr l)).setChild .right (.node s)
    (rootPtr r)).setParent (.node s) (m.parent (.node x))).setColor (.node s) c
  let m₂ := m₁.fillHole ctx (.node s)
  let m₃ := if rootPtr l = .sentinel then m₂ else m₂.setParent (rootPtr l) (.node s)
  if rootPtr r = .sentinel then m₃ else m₃.setParent (rootPtr r) (.node s)

section Replaced

variable (m : Mem ι) (ctx : Ctx ι) (c : Color) (x s : ι) (l r : ColorTree ι)

@[simp] lemma key_replaced : (m.replaced ctx c x s l r).key = m.key := by
  simp only [Mem.replaced]; split_ifs <;> simp

@[simp] lemma insert_replaced : (m.replaced ctx c x s l r).insert = m.insert := by
  simp only [Mem.replaced]; split_ifs <;> simp

@[simp] lemma root_replaced :
    (m.replaced ctx c x s l r).root = if ctx = [] then .node s else m.root := by
  simp only [Mem.replaced]; split_ifs <;> simp_all

lemma color_replaced (q : Ptr ι) :
    (m.replaced ctx c x s l r).color q = if q = .node s then c else m.color q := by
  simp only [Mem.replaced]; split_ifs <;> simp_all

lemma child_replaced (e : Dir) (q : Ptr ι) :
    (m.replaced ctx c x s l r).child e q =
      if IsLink ctx e q then .node s
      else if q = .node s then (match e with | .left => rootPtr l | .right => rootPtr r)
      else m.child e q := by
  cases e <;> simp only [Mem.replaced] <;> split <;> split <;> simp

lemma parent_replaced (q : Ptr ι) :
    (m.replaced ctx c x s l r).parent q =
      if (q = rootPtr r ∨ q = rootPtr l) ∧ q ≠ .sentinel then .node s
      else if q = .node s then m.parent (.node x)
      else m.parent q := by
  simp only [Mem.replaced]
  split <;> split <;> simp <;> grind

end Replaced

/-- `deleteReplace` puts the loose node `s` in the place of `x`. The right child of `x` may
have any parent before. -/
lemma deleteReplaceChecked_spec {ctx : Ctx ι} {c : Color} {x s : ι} {l r : ColorTree ι} {q : Ptr ι}
    (hctx : IsCtx m p₀ (⟨.right, c, x, l⟩ :: ctx) (rootPtr r)) (hr : IsTree m r q)
    (hn : (Ctx.plug (⟨.right, c, x, l⟩ :: ctx) r).toList.Nodup)
    (hs : s ∉ (Ctx.plug (⟨.right, c, x, l⟩ :: ctx) r).toList) (hb : m.color .sentinel = .black) :
    ∃ m', deleteReplaceChecked m (.node x) (.node s) = some m' ∧
      Focus m' p₀ (⟨.right, c, s, l⟩ :: ctx) r ∧ SameOutside m m' := by
  obtain ⟨hxc, hxp, hxr, hxl, hl, hctx⟩ := hctx
  change (ctx.plug (.join .left c l x r)).toList.Nodup at hn
  change s ∉ (ctx.plug (.join .left c l x r)).toList at hs
  simp only [Dir.flip] at hxr hxl
  obtain ⟨hnl, hnt, hdis⟩ := Ctx.nodup_plug.mp hn
  obtain ⟨hnl', hnr', hal, har, hlr⟩ := ColorTree.nodup_join.mp hnt
  simp only [ColorTree.mem_join] at hdis
  simp only [Ctx.mem_plug, ColorTree.mem_join, not_or] at hs
  obtain ⟨⟨hsx, hsl, hsr⟩, hsc⟩ := hs
  have hxl' : x ∉ ctx.labels := hdis x (.inl rfl)
  have hlx : ∀ e, ¬ IsLink ctx e (.node x) := fun e h => hxl' h.mem_labels
  have hls : ∀ e, ¬ IsLink ctx e (.node s) := fun e h => hsc h.mem_labels
  have hlabels : ∀ i ∈ ctx.labels, i ≠ s ∧ rootPtr l ≠ .node i ∧ rootPtr r ≠ .node i :=
    fun i hi => ⟨fun e => hsc (e ▸ hi), fun e => hdis i (.inr (.inl (mem_of_rootPtr e))) hi,
      fun e => hdis i (.inr (.inr (mem_of_rootPtr e))) hi⟩
  have hls' : rootPtr l ≠ .node s := fun e => hsl (mem_of_rootPtr e)
  have hrs' : rootPtr r ≠ .node s := fun e => hsr (mem_of_rootPtr e)
  -- a node of a subtree keeps its links, the root's parent apart
  have frame : ∀ i, i ≠ s → i ∉ ctx.labels → rootPtr l ≠ .node i → rootPtr r ≠ .node i →
      SameAt m (m.replaced ctx c x s l r) i := by
    intro i his hil hli hri
    have : ∀ e, ¬ IsLink ctx e (.node i) := fun e h => hil h.mem_labels
    refine ⟨by simp [color_replaced, his], ?_, fun e => by simp [child_replaced, his, this]⟩
    simp [parent_replaced, his, hli.symm, hri.symm]
  have reparented : ∀ t : ColorTree ι, t = l ∨ t = r → ∀ i, rootPtr t = .node i →
      (m.replaced ctx c x s l r).color (.node i) = m.color (.node i) ∧
      (m.replaced ctx c x s l r).parent (.node i) = .node s ∧
      ∀ d, (m.replaced ctx c x s l r).child d (.node i) = m.child d (.node i) := by
    intro t ht i hi
    have hit : i ∈ l.toList ∨ i ∈ r.toList := by
      rcases ht with rfl | rfl
      · exact .inl (mem_of_rootPtr hi)
      · exact .inr (mem_of_rootPtr hi)
    have his : i ≠ s := by rintro rfl; exact hit.elim hsl hsr
    have hil : i ∉ ctx.labels := fun h => hdis i (.inr hit) h
    have : ∀ e, ¬ IsLink ctx e (.node i) := fun e h => hil h.mem_labels
    refine ⟨by simp [color_replaced, his], ?_, fun e => by simp [child_replaced, his, this]⟩
    rcases ht with rfl | rfl <;> simp [parent_replaced, hi]
  refine ⟨m.replaced ctx c x s l r, ?_, focus_cons.mpr ⟨?_, ?_, ?_, ?_⟩, by simp, by simp, ?_⟩
  · -- the code runs without a fault
    have hrel := relinkChecked_eq ((((m.setChild .left (.node s) (rootPtr l)).setChild .right
      (.node s) (rootPtr r)).setParent (.node s) (m.parent (.node x))).setColor (.node s) c)
      hctx hxl' rfl (fun i hi e => by simp [(hlabels i hi).1]) (by simp [Ne.symm hsx, hxp]) .left
      (.node s)
    have hcol : (if m.color (.node x) = .red then Color.red else .black) = c := by
      rw [hxc]; cases c <;> rfl
    simp only [Mem.replaced]
    split <;> split <;>
      simp_all [deleteReplaceChecked, Ne.symm hsx, Mem.setParent?_of_ne _ (rootPtr_ne_null _)]
  · rw [Crumb.plug, rootPtr_join]
    refine hctx.refill hnl (fun i hi => ?_) (fun d p hp => by simp [child_replaced, hp]) (by simp)
    obtain ⟨his, hil, hir⟩ := hlabels i hi
    exact ⟨by simp [color_replaced, his], by simp [parent_replaced, his, hil.symm, hir.symm],
      fun d hd => by simp [child_replaced, hd, his]⟩
  · refine isTree_join.mpr ⟨by simp [color_replaced], ?_, ?_, ?_,
      hr.reparent hnr' (fun i hi hne => ?_) (reparented r (.inr rfl)),
      hl.reparent hnl' (fun i hi hne => ?_) (reparented l (.inl rfl))⟩
    · simp [parent_replaced, hls'.symm, hrs'.symm, hxp]
    · simp [child_replaced, hls]
    · simp [child_replaced, hls, Dir.flip]
    · exact frame i (fun e => hsr (e ▸ hi)) (fun h => hdis i (.inr (.inr hi)) h)
        (fun e => hlr i (mem_of_rootPtr e) hi) hne
    · exact frame i (fun e => hsl (e ▸ hi)) (fun h => hdis i (.inr (.inl hi)) h) hne
        fun e => hlr i hi (mem_of_rootPtr e)
  · refine Ctx.nodup_plug.mpr ⟨hnl, ColorTree.nodup_join.mpr ⟨hnr', hnl', hsr, hsl,
      fun b hb hb' => hlr b hb' hb⟩, ?_⟩
    intro b hb'
    rcases ColorTree.mem_join.mp hb' with rfl | hb'
    · exact hsc
    · exact hdis b (.inr hb'.symm)
  · simpa [color_replaced] using hb
  · simp [parent_replaced]

/-- Unlinking a node `x` with two children: its successor `s` at the end of the path `ctx'`
takes its place, and the right child `r` of `s` the place of `s`. -/
lemma deleteUnlinkChecked_subst {ctx ctx' : Ctx ι} {d : Dir} {c cs : Color} {x s : ι}
    {l r : ColorTree ι} (h : Focus m p₀ (ctx' ++ ⟨.right, c, x, l⟩ :: ctx) (.join d cs .nil s r)) :
    ∃ m', deleteUnlinkChecked m (.node x) (rootPtr r) (.node s) = some m' ∧
      TempFocus m' p₀ (ctx' ++ ⟨.right, c, s, l⟩ :: ctx) r ∧ m'.key = m.key ∧
      m'.insert = m.insert := by
  have hsp := h.splice
  have hlab := h.not_mem_labels (i := s) (ColorTree.mem_join.mpr (.inl rfl))
  have hsr : s ∉ r.toList := (ColorTree.nodup_join.mp h.nodup_tree).2.2.2.1
  have hs : s ∉ (Ctx.plug (ctx' ++ ⟨.right, c, x, l⟩ :: ctx) r).toList := fun hm =>
    (Ctx.mem_plug.mp hm).elim hsr hlab
  have hsx : s ≠ x := fun e => hlab (by simp [Ctx.mem_labels_append, Ctx.mem_labels_cons, e])
  have hn := hsp.focus.nodup
  have hf : ∀ (m : Mem ι) q, m.setParent? (rootPtr r) q = some (m.setParent (rootPtr r) q) :=
    fun m q => m.setParent?_of_ne (rootPtr_ne_null r) q
  cases ctx' with
  | nil =>
    -- the successor is the right child of `x`, and `temp->parent` becomes the successor
    obtain ⟨hpar, hup, hif⟩ := Focus.unlink_eq h (rootPtr r)
    obtain ⟨hctx, htree⟩ := hsp.focus.setParent_root (.node s)
    obtain ⟨m', hrun, hfoc, hsame⟩ := deleteReplaceChecked_spec hctx htree hn hs
      (by simpa using hsp.focus.sentinel)
    refine ⟨m', ?_, ⟨hfoc, ?_⟩, by simp [hsame.key, Mem.splice],
      by simp [hsame.insert, Mem.splice]⟩
    · rw [Mem.setParent_splice, List.nil_append] at hrun
      split_ifs at hif with hl
      · simp [deleteUnlinkChecked, hpar, hup, ← hl, hif, hf, hrun, hsx]
      · simp [deleteUnlinkChecked, hpar, hup, hl, hif, hf, hrun, hsx]
    · by_cases hr : r = .nil
      · subst hr
        exact hsame.sentinelParent.trans (by simp)
      · exact hfoc.parent_root hr
  | cons k up =>
    obtain ⟨hpar, hup, hif⟩ := Focus.unlink_eq h (rootPtr r)
    have hfoc := focus_append.mp hsp.focus
    rw [Ctx.plug_append] at hn hs
    obtain ⟨m', hrun, hfoc, hsame⟩ := deleteReplaceChecked_spec hfoc.isCtx hfoc.isTree hn hs
      hfoc.sentinel
    have hfoc := focus_append.mpr hfoc
    refine ⟨m', ?_, ⟨hfoc, ?_⟩, by simp [hsame.key, Mem.splice],
      by simp [hsame.insert, Mem.splice]⟩
    · have hkx : k.elem ≠ x := by
        rintro rfl
        exact (Ctx.nodup_labels_cons.mp h.nodup_labels).2.2.2.1
          (by simp [Ctx.mem_labels_append, Ctx.mem_labels_cons])
      rw [Mem.splice, List.cons_append, holeParent_cons] at hrun
      split_ifs at hif with hl
      · simp [deleteUnlinkChecked, hpar, hup, ← hl, hif, hf, hrun, hsx, hkx]
      · simp [deleteUnlinkChecked, hpar, hup, hl, hif, hf, hrun, hsx, hkx]
    · by_cases hr : r = .nil
      · subst hr
        exact hsame.sentinelParent.trans hsp.parent
      · exact hfoc.parent_root hr

/-! ## The other steps -/

/-- The assignments under `DEBUG stuff` touch only the node that left the tree. -/
lemma deleteClear_spec {ctx : Ctx ι} {t : ColorTree ι} {x : ι} (h : Focus m p₀ ctx t)
    (hx : x ∉ (ctx.plug t).toList) :
    ∃ m', deleteClear m (.node x) = some m' ∧ Focus m' p₀ ctx t ∧
      (m.parent (rootPtr t) = holeParent p₀ ctx → TempFocus m' p₀ ctx t) ∧
      m'.key = Function.update m.key (.node x) 0 ∧ m'.insert = m.insert := by
  rw [Ctx.mem_plug, not_or] at hx
  have hx' : ∀ i, i ≠ x → SameAt m ((((m.setChild .left (.node x) .null).setChild .right
      (.node x) .null).setParent (.node x) .null).setKey (.node x) 0) i := fun i hi => by
    simp [SameAt, Mem.setKey, hi]
  have hf : Focus ((((m.setChild .left (.node x) .null).setChild .right
      (.node x) .null).setParent (.node x) .null).setKey (.node x) 0) p₀ ctx t :=
    ⟨h.isCtx.frame (fun i hi => hx' i fun e => hx.2 (e ▸ hi)) rfl,
      h.isTree.frame fun i hi => hx' i fun e => hx.1 (e ▸ hi), h.nodup, h.sentinel⟩
  refine ⟨_, by simp [deleteClear], hf, fun hp => ⟨hf, ?_⟩, rfl, rfl⟩
  have : rootPtr t ≠ .node x := fun e => hx.1 (mem_of_rootPtr e)
  simpa [Mem.setKey, this] using hp

/-- `rbtree_min` finds the end of the leftmost path. -/
lemma rbtreeMin_spec {fuel : ℕ} {ctx : Ctx ι} {t : ColorTree ι} (h : Focus m p₀ ctx t)
    (ht : t ≠ .nil) (hf : t.height ≤ fuel) :
    ∃ ctx' c s r, rbtreeMin m fuel (rootPtr t) = some (.node s) ∧
      t = Ctx.plug ctx' (.join .left c .nil s r) ∧ Ctx.before ctx' = [] := by
  induction fuel generalizing ctx t with
  | zero => cases t <;> simp_all [ColorTree.height]
  | succ fuel ih =>
    rcases t with _ | ⟨c, l, a, r⟩
    · exact absurd rfl ht
    have hl := (Focus.reads (d := .left) h).2.2.1
    by_cases hnil : l = .nil
    · subst hnil
      rw [rootPtr_nil] at hl
      exact ⟨[], c, a, r, by simp [rbtreeMin, hl], rfl, rfl⟩
    · have hlf : Focus m p₀ (⟨.left, c, a, r⟩ :: ctx) l := focus_cons.mpr h
      have hh : l.height ≤ fuel := by
        simp only [ColorTree.height] at hf
        omega
      obtain ⟨ctx', c', s, r', hrun, hplug, hbef⟩ := ih hlf hnil hh
      have hne : rootPtr l ≠ .sentinel := fun e => hnil (rootPtr_eq_sentinel.mp e)
      refine ⟨ctx' ++ [⟨.left, c, a, r⟩], c', s, r', ?_, ?_, ?_⟩
      · simpa [rbtreeMin, hl, hne] using hrun
      · rw [Ctx.plug_append, ← hplug]
        rfl
      · simp [Ctx.before_append, hbef, Ctx.before]

/-- A node with an empty side leaves the tree itself. -/
lemma deletePick_self {ctx : Ctx ι} {d : Dir} {c : Color} {x : ι} {s : ColorTree ι}
    (h : Focus m p₀ ctx (.join d c .nil x s)) (fuel : ℕ) :
    deletePick fuel m (.node x) = some (rootPtr s, .node x) := by
  obtain ⟨-, -, hd, hf⟩ := h.reads
  cases d <;> simp only [Dir.flip, rootPtr_nil] at hd hf
  · simp [deletePick, hd, hf]
  · by_cases hs : rootPtr s = .sentinel <;> simp [deletePick, hd, hf, hs]

/-- A node with two children lets its successor leave. -/
lemma deletePick_subst {fuel : ℕ} {ctx : Ctx ι} {c : Color} {x : ι} {l r : ColorTree ι}
    (h : Focus m p₀ ctx (.join .left c l x r)) (hl : l ≠ .nil) (hr : r ≠ .nil)
    (hf : r.height ≤ fuel) :
    ∃ ctx' cs s r', r = Ctx.plug ctx' (.join .left cs .nil s r') ∧ Ctx.before ctx' = [] ∧
      deletePick fuel m (.node x) = some (rootPtr r', .node s) := by
  have hrf : Focus m p₀ (⟨.right, c, x, l⟩ :: ctx) r := focus_cons.mpr h
  obtain ⟨ctx', cs, s, r', hmin, rfl, hbef⟩ := rbtreeMin_spec hrf hr hf
  refine ⟨ctx', cs, s, r', rfl, hbef, ?_⟩
  obtain ⟨-, -, hxl, hxr⟩ := h.reads
  obtain ⟨-, -, hsl, hsr⟩ := (focus_append.mpr hrf).reads
  have hl' : rootPtr l ≠ .sentinel := fun e => hl (rootPtr_eq_sentinel.mp e)
  have hr' : rootPtr (Ctx.plug ctx' (.join .left cs .nil s r')) ≠ .sentinel :=
    fun e => hr (rootPtr_eq_sentinel.mp e)
  simp only [Dir.flip, rootPtr_nil] at hxr hsl hsr
  simp [deletePick, hxl, hxr, hl', hr', hmin, hsl, hsr]

/-! ## The whole deletion -/

/-- Once the subtree `s` stands where a node of colour `c` with one empty side stood, the rest
of `rbtree_delete` restores the red-black law. -/
lemma rebalance {fuel : ℕ} {ctx : Ctx ι} {d : Dir} {c : Color} {x : ι} {s : ColorTree ι} {n : ℕ}
    (h : TempFocus m p₀ ctx s) (hfit : Ctx.Fits ctx c n) (hrb : (ColorTree.join d c .nil x s).RB n)
    (hf : ctx.length < fuel) :
    ∃ m' t', (if c = .red then some m else deleteLoopChecked fuel none m (rootPtr s)) = some m' ∧
      Holds m' t' ∧ t'.toList = (ctx.plug s).toList ∧ SameOutside m m' := by
  cases c with
  | red =>
    obtain ⟨-, hs, -, hsc⟩ := ColorTree.rb_join_red.mp hrb
    exact ⟨m, _, rfl, h.focus.holds (by rw [hsc]; exact hfit.black) hs, rfl, .refl m⟩
  | black =>
    obtain ⟨n, rfl⟩ : ∃ k, n = k + 1 := by
      cases n with
      | zero => exact absurd hrb ColorTree.not_rb_join_black_zero
      | succ n => exact ⟨n, rfl⟩
    obtain ⟨-, hs⟩ := ColorTree.rb_join_black.mp hrb
    have hd : Deficient m p₀ ctx s n := by
      refine ⟨h, ?_, hfit⟩
      cases hsc : s.color with
      | red => exact .inr ⟨rfl, hs.paint_black hsc⟩
      | black => exact .inl ⟨rfl, hs⟩
    simpa using deleteLoopChecked_spec hd hf
      (by simp : ∀ l ∈ (none : Option ℕ), ctx.length < l)

/-- Deleting a node with an empty side. -/
lemma rbtreeDeleteChecked_self {fuel : ℕ} {ctx : Ctx ι} {d : Dir} {c : Color} {x : ι}
    {s : ColorTree ι} {n : ℕ} (h : Focus m p₀ ctx (.join d c .nil x s)) (hfit : Ctx.Fits ctx c n)
    (hrb : (ColorTree.join d c .nil x s).RB n) (hf : ctx.length < fuel) :
    ∃ m' t', rbtreeDeleteChecked fuel m (.node x) = some m' ∧ Holds m' t' ∧
      t'.toList = (ctx.plug s).toList ∧ m'.key = Function.update m.key (.node x) 0 ∧
      m'.insert = m.insert := by
  have hpick := deletePick_self h fuel
  have hroot := h.eq_root_iff
  rw [rootPtr_join] at hroot
  have hx : x ∉ (ctx.plug s).toList := fun hm => (Ctx.mem_plug.mp hm).elim
    (ColorTree.nodup_join.mp h.nodup_tree).2.2.2.1
    (h.not_mem_labels (ColorTree.mem_join.mpr (.inl rfl)))
  cases ctx with
  | nil =>
    -- the root leaves, and what takes its place is painted black
    obtain rfl : c = .black := hfit
    have hs : Focus { m with root := rootPtr s } (.node x) [] s :=
      ⟨rfl, (isTree_join.mp h.isTree).2.2.2.2.2.frame fun i _ => ⟨rfl, rfl, fun _ => rfl⟩,
        (ColorTree.nodup_join.mp h.nodup_tree).2.1, h.sentinel⟩
    obtain ⟨m₁, hpaint, h₁, hs₁⟩ := hs.setColor_black
    obtain ⟨m₂, hrun, h₂, -, hk, hi⟩ := deleteClear_spec h₁
      (by rwa [Ctx.toList_plug_congr [] (ColorTree.toList_paint _ _)])
    obtain ⟨k, rfl⟩ : ∃ k, n = k + 1 := by
      cases n with
      | zero => exact absurd hrb ColorTree.not_rb_join_black_zero
      | succ n => exact ⟨n, rfl⟩
    have hsb : ∃ N, (s.paint .black).RB N := by
      obtain ⟨-, hsk⟩ := ColorTree.rb_join_black.mp hrb
      cases hsc : s.color with
      | red => exact ⟨_, hsk.paint_black hsc⟩
      | black => exact ⟨k, by rwa [ColorTree.paint_of_color hsc]⟩
    refine ⟨m₂, s.paint .black, ?_, ⟨⟨_, h₂⟩, hsb, by cases s <;> rfl⟩, ColorTree.toList_paint _ _,
      by rw [hk, hs₁.key], by rw [hi, hs₁.insert]⟩
    simp [rbtreeDeleteChecked, hpick, ← hroot.mpr rfl, hpaint, hrun]
  | cons k up =>
    have hne : Ptr.node x ≠ m.root := fun e => by simpa using hroot.mp e
    obtain ⟨m₁, hrun₁, h₁, hk₁, hi₁⟩ := deleteUnlinkChecked_self h
    obtain ⟨m₂, hrun₂, -, h₂, hk₂, hi₂⟩ := deleteClear_spec h₁.focus hx
    obtain ⟨m₃, t', hrun₃, hh, hl, hs₃⟩ := rebalance (h₂ h₁.parent) hfit hrb hf
    refine ⟨m₃, t', ?_, hh, hl, by rw [hs₃.key, hk₂, hk₁], by rw [hs₃.insert, hi₂, hi₁]⟩
    simp [rbtreeDeleteChecked, hpick, hne, hrun₁, hrun₂, h.reads.1, hrun₃]

/-- Deleting a node with two children. -/
lemma rbtreeDeleteChecked_subst {fuel : ℕ} {ctx : Ctx ι} {c : Color} {x : ι} {l r : ColorTree ι}
    (h : Focus m p₀ ctx (.join .left c l x r)) (hl : l ≠ .nil) (hr : r ≠ .nil)
    (hh : Holds m (ctx.plug (.join .left c l x r)))
    (hf : (ctx.plug (.join .left c l x r)).height < fuel) :
    ∃ m' t', rbtreeDeleteChecked fuel m (.node x) = some m' ∧ Holds m' t' ∧
      t'.toList = ctx.before ++ l.toList ++ r.toList ++ ctx.after ∧
      m'.key = Function.update m.key (.node x) 0 ∧ m'.insert = m.insert := by
  have hlen := (Ctx.length_add_height_le ctx _).trans_lt hf
  simp only [ColorTree.join, ColorTree.height] at hlen
  obtain ⟨ctx', cs, s, r', rfl, hbef, hpick⟩ := deletePick_subst h hl hr (by omega : _ ≤ fuel)
  have hs : Focus m p₀ (ctx' ++ ⟨.right, c, x, l⟩ :: ctx) (.join .left cs .nil s r') :=
    focus_append.mpr (focus_cons.mpr h)
  obtain ⟨N, hN⟩ := hh.rb
  have hplug : Ctx.plug (ctx' ++ ⟨.right, c, x, l⟩ :: ctx) (.join .left cs .nil s r') =
      ctx.plug (.join .left c l x (Ctx.plug ctx' (.join .left cs .nil s r'))) :=
    Ctx.plug_append _ _ _
  obtain ⟨n, hfit, hrb⟩ :=
    Ctx.fits_of_plug (by rw [hplug]; exact hN) (by rw [hplug]; exact hh.black)
  rw [ColorTree.color_join] at hfit
  have hne : Ptr.node s ≠ m.root := by
    have := hs.eq_root_iff
    simpa using this
  obtain ⟨m₁, hrun₁, h₁, hk₁, hi₁⟩ := deleteUnlinkChecked_subst hs
  have hx : x ∉ (Ctx.plug (ctx' ++ ⟨.right, c, s, l⟩ :: ctx) r').toList := by
    obtain ⟨-, -, hxl, hxr, -⟩ := ColorTree.nodup_join.mp h.nodup_tree
    have hxc := h.not_mem_labels (ColorTree.mem_join.mpr (.inl rfl))
    simp only [Ctx.mem_plug, ColorTree.mem_join, Ctx.mem_labels_append, Ctx.mem_labels_cons]
      at hxr ⊢
    tauto
  obtain ⟨m₂, hrun₂, -, h₂, hk₂, hi₂⟩ := deleteClear_spec h₁.focus hx
  have hK : (ctx' ++ ⟨.right, c, s, l⟩ :: ctx).length < fuel := by
    have := Ctx.length_add_height_le ctx' (.join .left cs .nil s r')
    simp only [ColorTree.join, List.length_append, List.length_cons] at this hlen ⊢
    omega
  obtain ⟨m₃, t', hrun₃, hh₃, hl₃, hs₃⟩ :=
    rebalance (h₂ h₁.parent) (Ctx.fits_relabel.mp hfit) hrb hK
  refine ⟨m₃, t', ?_, hh₃, ?_, by rw [hs₃.key, hk₂, hk₁], by rw [hs₃.insert, hi₂, hi₁]⟩
  · simp [rbtreeDeleteChecked, hpick, hne, hrun₁, hrun₂, hs.reads.1, hrun₃]
  · simp [hl₃, Ctx.toList_plug, Ctx.before_append, Ctx.after_append, Ctx.before, Ctx.after, hbef,
      ColorTree.join]

/-- `rbtree_delete` of a node of the tree ends without a fault and with no assertion failing, after
no more rounds of its loops than the tree is high, keeps the red-black law and the order of the
other nodes, and clears the key of the deleted one. -/
theorem rbtreeDeleteChecked_height {fuel : ℕ} {t : ColorTree ι} {x : ι} (h : Holds m t)
    (hx : x ∈ t.toList) (hf : t.height < fuel) :
    ∃ m' t', rbtreeDeleteChecked fuel m (.node x) = some m' ∧ Holds m' t' ∧
      t'.toList = t.toList.erase x ∧ m'.key = Function.update m.key (.node x) 0 ∧
      m'.insert = m.insert := by
  obtain ⟨ctx, c, l, r, rfl⟩ := Ctx.exists_plug hx
  obtain ⟨p₀, hfoc⟩ := h.focus
  obtain ⟨N, hN⟩ := h.rb
  have hfx : Focus m p₀ ctx (.node c l x r) := focus_plug.mpr hfoc
  obtain ⟨n, hfit, hrb⟩ := Ctx.fits_of_plug hN h.black
  have hlen := Ctx.length_add_height_le ctx (.node c l x r)
  have herase : (ctx.plug (.node c l x r)).toList.erase x =
      ctx.before ++ l.toList ++ r.toList ++ ctx.after := by
    have hn := hfx.nodup
    rw [Ctx.toList_plug, ColorTree.toList_node] at hn ⊢
    have hx₁ : x ∉ ctx.before ++ l.toList := by
      simp only [List.nodup_append, List.nodup_cons, List.mem_append, List.mem_cons] at hn ⊢
      grind
    rw [List.append_assoc, List.append_assoc, ← List.append_assoc, List.cons_append,
      List.erase_append_right _ hx₁, List.erase_cons_head, List.append_assoc, List.append_assoc]
    simp
  rw [herase]
  by_cases hl : l = .nil
  · subst hl
    obtain ⟨m', t', hrun, hh, hlist, hk, hi⟩ := rbtreeDeleteChecked_self (d := .left) hfx hfit hrb
      (by omega : _ < fuel)
    exact ⟨m', t', hrun, hh, by simpa [Ctx.toList_plug] using hlist, hk, hi⟩
  by_cases hr : r = .nil
  · subst hr
    obtain ⟨m', t', hrun, hh, hlist, hk, hi⟩ := rbtreeDeleteChecked_self (d := .right) hfx hfit hrb
      (by omega : _ < fuel)
    exact ⟨m', t', hrun, hh, by simpa [Ctx.toList_plug] using hlist, hk, hi⟩
  · exact rbtreeDeleteChecked_subst hfx hl hr h hf

theorem rbtreeDeleteChecked_spec {fuel : ℕ} {t : ColorTree ι} {x : ι} (h : Holds m t)
    (hx : x ∈ t.toList) (hf : t.toList.length < fuel) :
    ∃ m' t', rbtreeDeleteChecked fuel m (.node x) = some m' ∧ Holds m' t' ∧
      t'.toList = t.toList.erase x ∧ m'.key = Function.update m.key (.node x) 0 ∧
      m'.insert = m.insert :=
  rbtreeDeleteChecked_height h hx (t.height_le_length.trans_lt hf)

/-- `rbtree_delete` of a node of the tree ends without a fault, keeps the red-black law and
the order of the other nodes, and clears the key of the deleted one. -/
theorem rbtreeDelete_height {fuel : ℕ} {t : ColorTree ι} {x : ι} (h : Holds m t)
    (hx : x ∈ t.toList) (hf : t.height < fuel) :
    ∃ m' t', rbtreeDelete fuel m (.node x) = some m' ∧ Holds m' t' ∧
      t'.toList = t.toList.erase x ∧ m'.key = Function.update m.key (.node x) 0 ∧
      m'.insert = m.insert := by
  obtain ⟨m', t', hrun, hspec⟩ := rbtreeDeleteChecked_height h hx hf
  exact ⟨m', t', rbtreeDeleteChecked_within _ _ _ m' hrun, hspec⟩

theorem rbtreeDelete_spec {fuel : ℕ} {t : ColorTree ι} {x : ι} (h : Holds m t) (hx : x ∈ t.toList)
    (hf : t.toList.length < fuel) :
    ∃ m' t', rbtreeDelete fuel m (.node x) = some m' ∧ Holds m' t' ∧
      t'.toList = t.toList.erase x ∧ m'.key = Function.update m.key (.node x) 0 ∧
      m'.insert = m.insert :=
  rbtreeDelete_height h hx (t.height_le_length.trans_lt hf)

end Libcn.Rbtree
