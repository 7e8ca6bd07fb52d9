import Libcn.Rbtree.Rotate

/-!
# Insertion

`rbtree_insert` hangs the node below a leaf position the key comparisons lead to, then
repairs the colours on the way up. The loop keeps a red-black subtree with a red root in a
context that would fit a black one.
-/

namespace Libcn.Rbtree

open Libcn.Lib

variable {ι : Type} [DecidableEq ι] {m : Mem ι} {p₀ : Ptr ι}

/-! ## One iteration of the rebalancing loop -/

/-- Red uncle: recolour, and go on from the grandparent. -/
lemma insertFixupChecked_red {d e : Dir} {l r s u v : ColorTree ι} {a p g b : ι} {up : Ctx ι}
    (h : Focus m p₀ (⟨e, .red, p, s⟩ :: ⟨d, .black, g, .join .left .red u b v⟩ :: up)
      (.join .left .red l a r)) :
    ∃ m', insertFixupChecked d m (.node a) = some (m', .node g) ∧
      Focus m' p₀ up (.join d .red (.join e .black (.join .left .red l a r) p s) g
        (.join .left .black u b v)) ∧ SameOutside m m' := by
  have hp := focus_cons.mp h
  have hap := h.up (by simp)
  have hpg := hp.up (by simp [Crumb.plug])
  obtain ⟨-, -, -, hgu⟩ := hp.reads_parent
  have h₁ := focus_sibling.mp (Focus.setColor hp .black)
  have h₂ := focus_cons.mp (focus_sibling.mpr (h₁.setColor .black))
  have h₃ := Focus.setColor h₂ .red
  have hub : m.color (.node b) = .red := (focus_sibling.mp hp).reads.1
  refine ⟨_, ?_, h₃, ⟨rfl, rfl, rfl⟩⟩
  simp only [Crumb.plug, rootPtr_join] at hap hpg hgu
  simp [insertFixupChecked, hap, hpg, hgu, hub]

/-- Black uncle: the final recolouring and rotation at the grandparent `g`. -/
lemma insertFixupChecked_rotate {d : Dir} {t s u : ColorTree ι} {p g : ι} {up : Ctx ι}
    (h : Focus m p₀ up (.join d .black (.join d .red t p s) g u)) :
    ∃ m', rotateChecked d.flip ((m.setColor (.node p) .black).setColor (.node g) .red) (.node g) =
        some m' ∧
      Focus m' p₀ up (.join d .black t p (.join d .red s g u)) ∧ SameOutside m m' := by
  have h₁ : Focus m p₀ (⟨d, .black, g, u⟩ :: up) (.join d .red t p s) := focus_cons.mpr h
  have h₂ : Focus ((m.setColor (.node p) .black).setColor (.node g) .red) p₀ up
      (.join d .red (.join d .black t p s) g u) :=
    Focus.setColor (focus_cons.mp (Focus.setColor h₁ .black)) .red
  rw [← ColorTree.join_flip d .red u, ← ColorTree.join_flip d .black s] at h₂
  obtain ⟨m', hr, hf, hs, -⟩ := h₂.rotate_spec
  rw [ColorTree.join_flip, ColorTree.join_flip] at hf
  exact ⟨m', hr, hf, hs.key, hs.insert, hs.sentinelParent⟩

/-- Black uncle, `node` on the outer side: one rotation. -/
lemma insertFixupChecked_outer {d : Dir} {l r s u : ColorTree ι} {a p g : ι} {up : Ctx ι}
    (h : Focus m p₀ (⟨d, .red, p, s⟩ :: ⟨d, .black, g, u⟩ :: up) (.join d .red l a r))
    (hu : u.color = .black) :
    ∃ m', insertFixupChecked d m (.node a) = some (m', .node a) ∧
      Focus m' p₀ up (.join d .black (.join d .red l a r) p (.join d .red s g u)) ∧
      SameOutside m m' := by
  have hp := focus_cons.mp h
  have hap := h.up (by simp)
  have hpg := hp.up (by simp [Crumb.plug])
  obtain ⟨-, -, -, hps⟩ := h.reads_parent
  obtain ⟨-, -, -, hgu⟩ := hp.reads_parent
  have hne : rootPtr s ≠ .node a := by
    have := h.ne_sibling (.inl (by simp))
    simpa using this.symm
  have hub : m.color (rootPtr u) = .black := (focus_sibling.mp hp).color_root.trans hu
  obtain ⟨m', hrot, hf, hsame⟩ := insertFixupChecked_rotate (focus_cons.mp hp)
  refine ⟨m', ?_, hf, hsame⟩
  simp only [Crumb.plug, rootPtr_join] at hap hpg hgu hps
  simp [insertFixupChecked, hap, hpg, hgu, hps, hub, hne.symm, hrot,
    Mem.isRed?_of_ne _ (rootPtr_ne_null u)]

/-- Black uncle, `node` on the inner side: two rotations. -/
lemma insertFixupChecked_inner {d : Dir} {l r s u : ColorTree ι} {a p g : ι} {up : Ctx ι}
    (h : Focus m p₀ (⟨d.flip, .red, p, s⟩ :: ⟨d, .black, g, u⟩ :: up) (.join d .red l a r))
    (hu : u.color = .black) :
    ∃ m', insertFixupChecked d m (.node a) = some (m', .node p) ∧
      Focus m' p₀ up (.join d .black (.join d .red s p l) a (.join d .red r g u)) ∧
      SameOutside m m' := by
  have hp : Focus m p₀ (⟨d, .black, g, u⟩ :: up) (.join d .red s p (.join d .red l a r)) := by
    have := focus_cons.mp h
    rwa [Crumb.plug, ColorTree.join_flip] at this
  have hap := h.up (by simp)
  have hpg := hp.up (by simp)
  obtain ⟨-, -, hpa, -⟩ := h.reads_parent
  obtain ⟨-, -, -, hgu⟩ := hp.reads_parent
  have hub : m.color (rootPtr u) = .black := (focus_sibling.mp hp).color_root.trans hu
  -- the inner rotation brings `a` above `p`
  obtain ⟨m₁, hr₁, hf₁, hs₁, hc₁⟩ := hp.rotate_spec
  have hpa₁ := (focus_cons.mpr hf₁ : Focus m₁ p₀ (⟨d, .red, a, r⟩ :: _) _).up (by simp)
  have hag₁ := hf₁.up (by simp)
  -- the outer one brings it above `g`
  obtain ⟨m₂, hr₂, hf₂, hs₂⟩ := insertFixupChecked_rotate (focus_cons.mp hf₁)
  refine ⟨m₂, ?_, hf₂, hs₁.trans hs₂⟩
  simp only [rootPtr_join] at hap hpg hpa hgu hpa₁ hag₁
  simp [insertFixupChecked, hap, hpg, hgu, hpa, hub, hr₁, hr₂, hpa₁, hag₁,
    Mem.isRed?_of_ne _ (rootPtr_ne_null u)]

/-! ## The rebalancing loop -/

/-- The loop stops below a black parent. -/
lemma insertLoopChecked_black {c : Color} {d : Dir} {l r s : ColorTree ι} {x y : ι} {up : Ctx ι}
    (h : Focus m p₀ up (.join d .black (.join d c l x r) y s)) (fuel : ℕ) (last : Option ℕ) :
    insertLoopChecked (fuel + 1) last m (.node x) = some m := by
  have hx : Focus m p₀ (⟨d, .black, y, s⟩ :: up) (.join d c l x r) := focus_cons.mpr h
  have hroot := hx.eq_root_iff
  have hp := hx.up (by simp)
  have hc := h.reads.1
  simp only [rootPtr_join, reduceCtorEq, iff_false] at hroot hp
  simp [insertLoopChecked, hroot, hp, hc]

/-- What the loop reaches: a tree that is red-black once its root is painted black. -/
structure Rebalanced (m : Mem ι) (p₀ : Ptr ι) (m' : Mem ι) (l : List ι) (t : ColorTree ι) :
    Prop where
  focus : Focus m' p₀ [] t
  toList : t.toList = l
  rb : ∃ N, (t.paint .black).RB N
  same : SameOutside m m'

omit [DecidableEq ι] in
lemma Focus.rebalanced {ctx : Ctx ι} {t : ColorTree ι} {n : ℕ} (h : Focus m p₀ ctx t)
    (hfit : Ctx.Fits ctx t.color n) (ht : t.RB n) :
    Rebalanced m p₀ m (ctx.plug t).toList (ctx.plug t) := by
  obtain ⟨N, hN, hc⟩ := hfit.plug ht
  exact ⟨focus_plug.mp h, rfl, ⟨N, by rwa [ColorTree.paint_of_color hc]⟩, .refl m⟩

omit [DecidableEq ι] in
lemma Rebalanced.of_step {m₁ m' : Mem ι} {l : List ι} {t : ColorTree ι} (hs : SameOutside m m₁)
    (h : Rebalanced m₁ p₀ m' l t) : Rebalanced m p₀ m' l t :=
  ⟨h.focus, h.toList, h.rb, hs.trans h.same⟩

omit [DecidableEq ι] in
lemma Rebalanced.congr {m' : Mem ι} {l l' : List ι} {t : ColorTree ι}
    (h : Rebalanced m p₀ m' l t) (e : l = l') : Rebalanced m p₀ m' l' t := e ▸ h

/-- The loop of `rbtree_insert` ends, and repairs a red root in a context that fits black. No
assertion fails: the grandparent is there, and each iteration is closer to the root. -/
lemma insertLoopChecked_spec {fuel : ℕ} {last : Option ℕ} {ctx : Ctx ι} {t : ColorTree ι} {n : ℕ}
    (h : Focus m p₀ ctx t) (hc : t.color = .red) (ht : t.RB n) (hfit : Ctx.Fits ctx .black n)
    (hf : ctx.length < fuel) (hl : ∀ l ∈ last, ctx.length < l) :
    ∃ m' t', insertLoopChecked fuel last m (rootPtr t) = some m' ∧
      Rebalanced m p₀ m' (ctx.plug t).toList t' := by
  induction fuel generalizing last m ctx t n with
  | zero => omega
  | succ fuel ih =>
    match ctx, hfit with
    | [], _ =>
      have hroot := h.eq_root_iff.mpr rfl
      refine ⟨m, t, by simp [insertLoopChecked, hroot], focus_plug.mp h, rfl,
        ⟨n + 1, ht.paint_black hc⟩, .refl m⟩
    | ⟨d, .black, y, s⟩ :: up, hfit =>
      obtain ⟨l, a, r, rfl, -⟩ := ht.exists_red d hc
      rw [rootPtr_join]
      exact ⟨m, _, insertLoopChecked_black (focus_cons.mp h) fuel last, h.rebalanced hfit ht⟩
    | [⟨_, .red, _, _⟩], hfit => exact absurd hfit.2.2.2 (by simp [Ctx.Fits])
    | ⟨_, .red, _, _⟩ :: ⟨_, .red, _, _⟩ :: _, hfit =>
      exact absurd hfit.2.2.2.1 (by simp)
    | ⟨e, .red, p, s⟩ :: ⟨d, .black, g, u⟩ :: up, hfit =>
      obtain ⟨-, hs, hsc, hu, hup⟩ := hfit
      have hp := focus_cons.mp h
      -- the tests before the fix-up
      have hnil := ColorTree.ne_nil_of_red hc
      have hroot : rootPtr t ≠ m.root := fun e => by simpa using h.eq_root_iff.mp e
      have hside := hp.side_eq (.inl (by simp [Crumb.plug]))
      have hpar := h.up hnil
      have hpg := hp.up (by simp [Crumb.plug])
      have hpc := h.reads_parent.1
      have hdepth := h.closer_eq (h.parent_root hnil) hf hl
      have step : insertLoopChecked (fuel + 1) last m (rootPtr t) =
          (insertFixupChecked d m (rootPtr t)).bind fun q =>
            insertLoopChecked fuel (some (up.length + 2)) q.1 q.2 := by
        simp only [List.length_cons, Crumb.plug, rootPtr_join] at hpar hpc hpg hside hdepth
        simp [insertLoopChecked, hroot, hpar, hpc, hpg, hside, hdepth]
      rw [step]
      simp only [List.length_cons] at hf
      obtain ⟨fuel, rfl⟩ : ∃ f, fuel = f + 1 := ⟨fuel - 1, by omega⟩
      cases huc : u.color with
      | red =>
        obtain ⟨v, b, v', rfl, hv, hv', hvc, hvc'⟩ := hu.exists_red .left huc
        obtain ⟨l, a, r, rfl, -⟩ := ht.exists_red .left hc
        obtain ⟨m₁, hfix, hfoc, hsame⟩ := insertFixupChecked_red (d := d) h
        have hlast : ∀ l ∈ some (up.length + 2), up.length < l := by simp
        obtain ⟨m', t', hloop, hreb⟩ := ih (n := n + 1) hfoc (by simp) (by simp_all) hup
          (by omega) hlast
        rw [rootPtr_join] at hloop ⊢
        refine ⟨m', t', by simpa [hfix] using hloop, (hreb.of_step hsame).congr ?_⟩
        refine Ctx.toList_plug_congr up ?_
        cases d <;> cases e <;> simp [Crumb.plug, ColorTree.join]
      | black =>
        obtain ⟨l, a, r, rfl, hl, hr, hlc, hrc⟩ := ht.exists_red d hc
        rw [rootPtr_join]
        rcases Dir.eq_or_eq_flip d e with rfl | rfl
        · obtain ⟨m₁, hfix, hfoc, hsame⟩ := insertFixupChecked_outer h huc
          have hreb := hfoc.rebalanced (n := n + 1) (by simpa using hup) (by simp_all)
          refine ⟨m₁, _, by simp [hfix, insertLoopChecked_black hfoc],
            (hreb.of_step hsame).congr ?_⟩
          refine Ctx.toList_plug_congr up ?_
          cases e <;> simp [Crumb.plug, ColorTree.join]
        · obtain ⟨m₁, hfix, hfoc, hsame⟩ := insertFixupChecked_inner h huc
          have hreb := hfoc.rebalanced (n := n + 1) (by simpa using hup) (by simp_all)
          refine ⟨m₁, _, by simp [hfix, insertLoopChecked_black hfoc],
            (hreb.of_step hsame).congr ?_⟩
          refine Ctx.toList_plug_congr up ?_
          cases d <;> simp [Crumb.plug, ColorTree.join, Dir.flip]

/-! ## The descent -/

/-- Hanging the new red node `x` into an empty hole. -/
lemma Focus.attach {k : Crumb ι} {up : Ctx ι} {x : ι} (h : Focus m p₀ (k :: up) .nil)
    (hx : x ∉ Ctx.labels (k :: up)) :
    Focus (((((m.setChild k.dir (.node k.elem) (.node x)).setParent (.node x)
      (.node k.elem)).setChild .left (.node x) .sentinel).setChild .right (.node x)
      .sentinel).setColor (.node x) .red) p₀ (k :: up) (.join .left .red .nil x .nil) := by
  have hne : ∀ i ∈ Ctx.labels (k :: up), i ≠ x := fun i hi e => hx (e ▸ hi)
  have hk : k.elem ≠ x := hne _ (Ctx.mem_labels_cons.mpr (.inl rfl))
  refine ⟨?_, ?_, ?_, by simpa using h.sentinel⟩
  · rw [rootPtr_join]
    refine h.isCtx.refill h.nodup_labels (fun i hi => ?_) ?_ (by simp)
    · refine ⟨by simp [hne i hi], by simp [hne i hi], fun d hd => ?_⟩
      simp only [IsLink, Ptr.node.injEq, not_and] at hd
      simp only [Mem.child_setColor, Mem.child_setChild, Ptr.node.injEq, hne i hi, and_false,
        if_false, Mem.child_setParent, ite_eq_right_iff, and_imp]
      exact fun e hik => absurd hik (hd e)
    · rintro d q ⟨rfl, rfl⟩
      simp [hk]
  · exact isTree_join.mpr ⟨by simp, by simp, by simp, by simp [Dir.flip], trivial, trivial⟩
  · rw [Ctx.nodup_plug]
    refine ⟨h.nodup_labels, by simp [ColorTree.join], ?_⟩
    rintro b hb
    obtain rfl : b = x := by simpa [ColorTree.join] using hb
    exact hx

/-- `ctx` is the path the key of `x` takes. -/
def Follows (less : BitVec 64 → BitVec 64 → Bool) (m : Mem ι) (x : ι) (ctx : Ctx ι) : Prop :=
  ∀ k ∈ ctx, k.dir = if less (m.key (.node x)) (m.key (.node k.elem)) then .left else .right

/-- The insertion functions end, at the empty hole the keys lead to. -/
lemma descend_spec (less : BitVec 64 → BitVec 64 → Bool) {fuel : ℕ} {ctx : Ctx ι} {t : ColorTree ι}
    {x : ι} (h : Focus m p₀ ctx t) (ht : t ≠ .nil) (hx : x ∉ (ctx.plug t).toList)
    (hf : t.height ≤ fuel) :
    ∃ m' ctx', descend less fuel m (rootPtr t) (.node x) = some m' ∧
      Focus m' p₀ (ctx' ++ ctx) (.join .left .red .nil x .nil) ∧
      Ctx.plug ctx' .nil = t ∧ Follows less m x ctx' ∧ SameOutside m m' := by
  induction fuel generalizing ctx t with
  | zero => cases t <;> simp_all [ColorTree.height]
  | succ fuel ih =>
    rcases t with _ | ⟨c, l, a, r⟩
    · exact absurd rfl ht
    obtain ⟨d, hd⟩ : ∃ d, d = if less (m.key (.node x)) (m.key (.node a))
      then Dir.left else Dir.right := ⟨_, rfl⟩
    obtain ⟨u, v, huv⟩ := ColorTree.node_eq_join d c l a r
    rw [huv] at h hx hf ⊢
    obtain ⟨-, -, hch, -⟩ := h.reads
    have hu : Focus m p₀ (⟨d, c, a, v⟩ :: ctx) u := focus_cons.mpr h
    have hhu : u.height ≤ fuel := by
      cases d <;> simp only [ColorTree.join, ColorTree.height] at hf <;> omega
    have step : descend less (fuel + 1) m (.node a) (.node x) =
        if rootPtr u = .sentinel
        then some (((((m.setChild d (.node a) (.node x)).setParent (.node x)
          (.node a)).setChild .left (.node x) .sentinel).setChild .right (.node x)
          .sentinel).setColor (.node x) .red)
        else descend less fuel m (rootPtr u) (.node x) := by
      simp [descend, ← hd, hch]
    rw [rootPtr_join, step]
    by_cases hnil : u = .nil
    · subst hnil
      have hxl : x ∉ Ctx.labels (⟨d, c, a, v⟩ :: ctx) := fun hm =>
        hx (Ctx.mem_plug.mpr (.inr hm) : x ∈ (Ctx.plug (⟨d, c, a, v⟩ :: ctx) .nil).toList)
      exact ⟨_, [⟨d, c, a, v⟩], by simp, hu.attach hxl, rfl, by simp [Follows, hd], rfl, rfl,
        by simp⟩
    · have hnil' : rootPtr u ≠ .sentinel := fun e => hnil (rootPtr_eq_sentinel.mp e)
      obtain ⟨m', ctx', hrun, hfoc, hplug, hfol, hsame⟩ := ih hu hnil hx hhu
      refine ⟨m', ctx' ++ [⟨d, c, a, v⟩], by simpa [hnil'] using hrun, by simpa using hfoc, ?_, ?_,
        hsame⟩
      · rw [Ctx.plug_append, hplug]
        rfl
      · intro k hk
        rcases List.mem_append.mp hk with hk | hk
        · exact hfol k hk
        · obtain rfl : k = ⟨d, c, a, v⟩ := by simpa using hk
          exact hd

/-! ## The whole insertion -/

lemma callInsert_eq (fuel : ℕ) (m : Mem ι) (temp node : Ptr ι) :
    m.callInsert fuel temp node = descend m.insert.less fuel m temp node := by
  cases hi : m.insert <;> simp [Mem.callInsert, hi, rbtreeInsertValue, rbtreeInsertTimerValue]

/-- The insertion into an empty tree. -/
lemma rbtreeInsertChecked_nil {x : ι} (h : Focus m p₀ [] (.nil : ColorTree ι)) (fuel : ℕ) :
    ∃ m', rbtreeInsertChecked fuel m (.node x) = some m' ∧
      Holds m' (.join .left .black .nil x .nil) ∧ m'.key = m.key ∧ m'.insert = m.insert := by
  have hroot : m.root = .sentinel := h.isCtx
  refine ⟨{ ((((m.setParent (.node x) .null).setChild .left (.node x) .sentinel).setChild .right
    (.node x) .sentinel).setColor (.node x) .black) with root := .node x },
    by simp [rbtreeInsertChecked, hroot], ⟨⟨.null, ?_, ?_, ?_, ?_⟩, ⟨1, by simp⟩, rfl⟩, rfl, rfl⟩
  · rfl
  · exact isTree_join.mpr ⟨by simp, by simp, by simp, by simp [Dir.flip], trivial, trivial⟩
  · simp [Ctx.plug, ColorTree.join]
  · simpa using h.sentinel

/-- `rbtree_insert` of an absent node ends without a fault and with no assertion failing, after no
more rounds of its loops than the tree is high, keeps the red-black law, and puts the node at the
empty hole `ctx` its key leads to. -/
theorem rbtreeInsertChecked_height {fuel : ℕ} {t : ColorTree ι} {x : ι} (h : Holds m t)
    (hx : x ∉ t.toList) (hf : t.height < fuel) :
    ∃ m' t' ctx, rbtreeInsertChecked fuel m (.node x) = some m' ∧ Holds m' t' ∧
      t'.toList = ctx.before ++ x :: ctx.after ∧ Ctx.plug ctx .nil = t ∧
      Follows m.insert.less m x ctx ∧ m'.key = m.key ∧ m'.insert = m.insert := by
  obtain ⟨⟨p₀, hfoc⟩, ⟨N, hrb⟩, hblack⟩ := h
  by_cases ht : t = .nil
  · subst ht
    obtain ⟨m', hrun, hh, hk, hi⟩ := rbtreeInsertChecked_nil (x := x) hfoc fuel
    exact ⟨m', _, [], hrun, hh, rfl, rfl, by simp [Follows], hk, hi⟩
  · have hroot : m.root = rootPtr t := hfoc.isCtx
    have hne : rootPtr t ≠ .sentinel := fun e => ht (rootPtr_eq_sentinel.mp e)
    obtain ⟨m₁, ctx, hdesc, hleaf, hplug, hfol, hsame⟩ :=
      descend_spec m.insert.less hfoc ht hx hf.le
    rw [List.append_nil] at hleaf
    -- the hole fits the empty tree, so it fits a black tree of black height 0
    have hrb' : (ctx.plug .nil).RB N := by rwa [hplug]
    obtain ⟨n, hfit, hn⟩ := Ctx.fits_of_plug hrb' (by rwa [hplug])
    obtain rfl := ColorTree.rb_nil.mp hn
    have hlen : ctx.length < fuel := by
      have := Ctx.length_add_height_le ctx (.nil : ColorTree ι)
      rw [hplug] at this
      omega
    obtain ⟨m₂, t₂, hloop, hreb⟩ :=
      insertLoopChecked_spec hleaf (by simp) (n := 0) (by simp) hfit hlen
        (by simp : ∀ l ∈ (none : Option ℕ), ctx.length < l)
    have ht₂ : t₂ ≠ .nil := by
      rintro rfl
      have := hreb.toList
      simp [Ctx.toList_plug, ColorTree.join] at this
    obtain ⟨M, hM⟩ := hreb.rb
    rcases t₂ with _ | ⟨c, l, a, r⟩
    · exact absurd rfl ht₂
    have hroot₂ : m₂.root = .node a := hreb.focus.isCtx
    have hfin := Focus.setColor (d := .left) (x := l) (a := a) (y := r) hreb.focus .black
    refine ⟨_, _, ctx, ?_, ⟨⟨p₀, hfin⟩, ⟨M, hM⟩, rfl⟩, ?_, hplug, hfol, ?_, ?_⟩
    · rw [rootPtr_join] at hloop
      simp [rbtreeInsertChecked, hne, callInsert_eq, hroot, hdesc, hloop, hroot₂]
    · have := hreb.toList
      simpa [Ctx.toList_plug, ColorTree.join] using this
    · simp [hreb.same.key, hsame.key]
    · simp [hreb.same.insert, hsame.insert]

theorem rbtreeInsertChecked_spec {fuel : ℕ} {t : ColorTree ι} {x : ι} (h : Holds m t)
    (hx : x ∉ t.toList) (hf : t.toList.length < fuel) :
    ∃ m' t' ctx, rbtreeInsertChecked fuel m (.node x) = some m' ∧ Holds m' t' ∧
      t'.toList = ctx.before ++ x :: ctx.after ∧ Ctx.plug ctx .nil = t ∧
      Follows m.insert.less m x ctx ∧ m'.key = m.key ∧ m'.insert = m.insert :=
  rbtreeInsertChecked_height h hx (t.height_le_length.trans_lt hf)

/-- `rbtree_insert` of an absent node ends without a fault, keeps the red-black law, and puts
the node at the empty hole `ctx` its key leads to. -/
theorem rbtreeInsert_height {fuel : ℕ} {t : ColorTree ι} {x : ι} (h : Holds m t) (hx : x ∉ t.toList)
    (hf : t.height < fuel) :
    ∃ m' t' ctx, rbtreeInsert fuel m (.node x) = some m' ∧ Holds m' t' ∧
      t'.toList = ctx.before ++ x :: ctx.after ∧ Ctx.plug ctx .nil = t ∧
      Follows m.insert.less m x ctx ∧ m'.key = m.key ∧ m'.insert = m.insert := by
  obtain ⟨m', t', ctx, hrun, hspec⟩ := rbtreeInsertChecked_height h hx hf
  exact ⟨m', t', ctx, rbtreeInsertChecked_within _ _ _ m' hrun, hspec⟩

theorem rbtreeInsert_spec {fuel : ℕ} {t : ColorTree ι} {x : ι} (h : Holds m t) (hx : x ∉ t.toList)
    (hf : t.toList.length < fuel) :
    ∃ m' t' ctx, rbtreeInsert fuel m (.node x) = some m' ∧ Holds m' t' ∧
      t'.toList = ctx.before ++ x :: ctx.after ∧ Ctx.plug ctx .nil = t ∧
      Follows m.insert.less m x ctx ∧ m'.key = m.key ∧ m'.insert = m.insert :=
  rbtreeInsert_height h hx (t.height_le_length.trans_lt hf)

end Libcn.Rbtree
