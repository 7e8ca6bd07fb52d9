import Libcn.Rbtree.Rotate

/-!
# The fix-up loop of deletion

`rbtree_delete` unlinks the node or its successor and then repairs the black height on the
way up. The loop keeps a subtree that is one black node short of what its context expects;
the subtree may be empty, and then the sentinel carries its parent.
-/

namespace Libcn.Rbtree

open Libcn.Lib

variable {ι : Type} [DecidableEq ι] {m : Mem ι} {p₀ : Ptr ι}

/-! ## One iteration of the fix-up loop -/

/-- A focus whose pointer knows its parent, also when it is the sentinel. -/
structure TempFocus (m : Mem ι) (p₀ : Ptr ι) (ctx : Ctx ι) (t : ColorTree ι) : Prop where
  focus : Focus m p₀ ctx t
  parent : m.parent (rootPtr t) = holeParent p₀ ctx

omit [DecidableEq ι] in
lemma Focus.temp {ctx : Ctx ι} {t : ColorTree ι} (h : Focus m p₀ ctx t) (ht : t ≠ .nil) :
    TempFocus m p₀ ctx t := ⟨h, h.parent_root ht⟩

/-- The parent link of `temp` below the root leads to a node, also when `temp` is the sentinel. -/
lemma TempFocus.up {k : Crumb ι} {ctx : Ctx ι} {t : ColorTree ι} (h : TempFocus m p₀ (k :: ctx) t) :
    m.up? (rootPtr t) = some (.node k.elem) := h.focus.up_eq h.parent

omit [DecidableEq ι] in
/-- A step that keeps the parent of the focus keeps what `temp->parent` reads. -/
lemma TempFocus.of_same {m' : Mem ι} {k k' : Crumb ι} {up up' : Ctx ι} {t : ColorTree ι}
    (h : TempFocus m p₀ (k :: up) t) (h' : Focus m' p₀ (k' :: up') t) (hk : k'.elem = k.elem)
    (hs : SameOutside m m') : TempFocus m' p₀ (k' :: up') t := by
  by_cases ht : t = .nil
  · subst ht
    refine ⟨h', ?_⟩
    rw [rootPtr_nil, hs.sentinelParent, holeParent_cons, hk]
    exact h.parent
  · exact h'.temp ht

/-- Red sibling: after one rotation the sibling is a black node. -/
lemma deleteFixupSiblingChecked_red {d : Dir} {t u v b : ColorTree ι} {p w x : ι} {up : Ctx ι}
    (h : TempFocus m p₀ (⟨d, .black, p, .join d .red (.join d .black u x v) w b⟩ :: up) t) :
    ∃ m', deleteFixupSiblingChecked d m (rootPtr t) (.node w) = some (m', .node x) ∧
      TempFocus m' p₀ (⟨d, .red, p, .join d .black u x v⟩ :: ⟨d, .black, w, b⟩ :: up) t ∧
      SameOutside m m' := by
  have hw := focus_sibling.mp h.focus
  have hwc := hw.reads.1
  have h₁ := focus_cons.mp (focus_sibling.mpr (Focus.setColor hw .black))
  have h₂ : Focus ((m.setColor (.node w) .black).setColor (.node p) .red) p₀ up
      (.join d .red t p (.join d .black (.join d .black u x v) w b)) := Focus.setColor h₁ .red
  obtain ⟨m', hrot, hf, hs, -⟩ := h₂.rotate_spec
  have hf' : Focus m' p₀ (⟨d, .red, p, .join d .black u x v⟩ :: ⟨d, .black, w, b⟩ :: up) t :=
    focus_cons.mpr (focus_cons.mpr hf)
  have hs' : SameOutside m m' := ⟨hs.key, hs.insert, hs.sentinelParent⟩
  have ht' := h.of_same hf' rfl hs'
  refine ⟨m', ?_, ht', hs'⟩
  have hch := Mem.childNode?_of_eq (hf'.reads_parent.2.2.2.trans (rootPtr_join ..))
  simp [deleteFixupSiblingChecked, hwc, h.up, ht'.up, hrot, hch]

/-- Black outer nephew `b`: after one rotation the outer nephew is red. -/
lemma deleteFixupInnerChecked_black {d : Dir} {c : Color} {t u v b : ColorTree ι} {p w x : ι}
    {up : Ctx ι}
    (h : TempFocus m p₀ (⟨d, c, p, .join d .black (.join d .red u x v) w b⟩ :: up) t)
    (hb : b.color = .black) :
    ∃ m', deleteFixupInnerChecked d m (rootPtr t) (.node w) = some (m', .node x) ∧
      TempFocus m' p₀ (⟨d, c, p, .join d .black u x (.join d .red v w b)⟩ :: up) t ∧
      SameOutside m m' := by
  have hw := focus_sibling.mp h.focus
  obtain ⟨-, -, hwx, hwb⟩ := hw.reads
  have hbc : m.color (rootPtr b) = .black :=
    (focus_sibling.mp (focus_cons.mpr hw : Focus m p₀ (⟨d, _, w, b⟩ :: _) _)).color_root.trans hb
  have hx : Focus m p₀ (⟨d, .black, w, b⟩ :: ⟨d.flip, c, p, t⟩ :: up) (.join d .red u x v) :=
    focus_cons.mpr hw
  have h₂ : Focus ((m.setColor (.node x) .black).setColor (.node w) .red) p₀
      (⟨d.flip, c, p, t⟩ :: up) (.join d .red (.join d .black u x v) w b) :=
    Focus.setColor (focus_cons.mp (hx.setColor .black)) .red
  rw [← ColorTree.join_flip d .red b, ← ColorTree.join_flip d .black v] at h₂
  obtain ⟨m', hrot, hf, hs, -⟩ := h₂.rotate_spec
  rw [ColorTree.join_flip, ColorTree.join_flip] at hf
  have hf' := focus_sibling.mpr hf
  have hs' : SameOutside m m' := ⟨hs.key, hs.insert, hs.sentinelParent⟩
  have ht' := h.of_same hf' rfl hs'
  refine ⟨m', ?_, ht', hs'⟩
  have hch := Mem.childNode?_of_eq (hf'.reads_parent.2.2.2.trans (rootPtr_join ..))
  simp only [rootPtr_join] at hwx
  simp [deleteFixupInnerChecked, hwx, hwb, hbc, Mem.isRed?_of_ne _ (rootPtr_ne_null b), hrot,
    ht'.up, hch]

/-- Red outer nephew: one rotation ends the loop. -/
lemma deleteFixupOuterChecked_red {d : Dir} {c : Color} {t a u v : ColorTree ι} {p w y : ι}
    {up : Ctx ι}
    (h : TempFocus m p₀ (⟨d, c, p, .join d .black a w (.join d .red u y v)⟩ :: up) t) :
    ∃ m', deleteFixupOuterChecked d m (rootPtr t) (.node w) = some m' ∧
      Focus m' p₀ up (.join d c (.join d .black t p a) w (.join d .black u y v)) ∧
      SameOutside m m' := by
  have hpc := h.focus.reads_parent.1
  have hw := focus_sibling.mp h.focus
  have hwy := hw.reads.2.2.2
  have h₁ : Focus ((m.setColor (.node w) c).setColor (.node p) .black) p₀ up
      (.join d .black t p (.join d c a w (.join d .red u y v))) :=
    Focus.setColor (focus_cons.mp (focus_sibling.mpr (Focus.setColor hw c))) .black
  have h₂ : Focus (((m.setColor (.node w) c).setColor (.node p) .black).setColor (.node y) .black)
      p₀ up (.join d .black t p (.join d c a w (.join d .black u y v))) := by
    have hy := focus_sibling.mp (focus_cons.mpr (focus_sibling.mp (focus_cons.mpr h₁ :
      Focus _ p₀ (⟨d, .black, p, _⟩ :: up) t)) : Focus _ p₀ (⟨d, c, w, _⟩ :: _) a)
    exact focus_cons.mp (focus_sibling.mpr (focus_cons.mp (focus_sibling.mpr (hy.setColor .black))))
  obtain ⟨m', hrot, hf, hs, -⟩ := h₂.rotate_spec
  refine ⟨m', ?_, hf, hs.key, hs.insert, hs.sentinelParent⟩
  simp only [rootPtr_join] at hpc hwy
  have hcol : (if m.color (.node p) = .red then Color.red else .black) = c := by
    rw [hpc]; cases c <;> rfl
  simp [deleteFixupOuterChecked, h.up, hwy, hcol, hrot]

/-! ## The loop invariant -/

/-- The subtree `t` at the pointer `temp` is one black node short of what `ctx` expects. -/
structure Deficient (m : Mem ι) (p₀ : Ptr ι) (ctx : Ctx ι) (t : ColorTree ι) (n : ℕ) : Prop where
  temp : TempFocus m p₀ ctx t
  short : (t.color = .black ∧ t.RB n) ∨ (t.color = .red ∧ (t.paint .black).RB (n + 1))
  fits : Ctx.Fits ctx .black (n + 1)

/-- What one iteration reaches: the end of the loop, or a state closer to it. -/
def Advances (m' : Mem ι) (temp' : Ptr ι) (p₀ : Ptr ι) (l : List ι) (len : ℕ) : Prop :=
  (temp' = m'.root ∧ ∃ t, Holds m' t ∧ t.toList = l) ∨
  ∃ up t n, temp' = rootPtr t ∧ Deficient m' p₀ up t n ∧ (Ctx.plug up t).toList = l ∧
    (t.color = .red ∨ up.length < len)

omit [DecidableEq ι] in
lemma Advances.mono {m' : Mem ι} {temp' : Ptr ι} {l l' : List ι} {len len' : ℕ}
    (h : Advances m' temp' p₀ l len) (hl : l = l') (hlen : len ≤ len') :
    Advances m' temp' p₀ l' len' := by
  subst hl
  rcases h with h | ⟨up, t, n, ht, hd, hp, hc | hup⟩
  · exact .inl h
  · exact .inr ⟨up, t, n, ht, hd, hp, .inl hc⟩
  · exact .inr ⟨up, t, n, ht, hd, hp, .inr (by omega)⟩

/-- A red outer nephew ends the loop. -/
lemma deleteFixupOuterChecked_holds {d : Dir} {c : Color} {t a b : ColorTree ι} {p w : ι}
    {up : Ctx ι} {n : ℕ}
    (h : TempFocus m p₀ (⟨d, c, p, .join d .black a w b⟩ :: up) t)
    (ht : t.RB n) (ha : a.RB n) (hb : b.RB n) (hbc : b.color = .red)
    (hup : Ctx.Fits up c (n + 1 + c.weight)) :
    ∃ m', deleteFixupOuterChecked d m (rootPtr t) (.node w) = some m' ∧ SameOutside m m' ∧
      ∃ t', Holds m' t' ∧
        t'.toList = (Ctx.plug up (.join d c t p (.join d .black a w b))).toList := by
  obtain ⟨u, y, v, rfl, hu, hv, -, -⟩ := hb.exists_red d hbc
  obtain ⟨m', hrun, hf, hs⟩ := deleteFixupOuterChecked_red h
  refine ⟨m', hrun, hs, _, hf.holds (n := n + 1 + c.weight) (by simpa using hup) ?_, ?_⟩
  · exact ColorTree.rb_join.mpr ⟨by simp [ht, ha], by simp [hu, hv], by simp⟩
  · refine Ctx.toList_plug_congr up ?_
    cases d <;> simp [ColorTree.join]

/-- One iteration with a black sibling. -/
lemma deleteFixupTailChecked_spec {d : Dir} {c : Color} {t a b : ColorTree ι} {p w : ι}
    {up : Ctx ι} {n : ℕ}
    (h : TempFocus m p₀ (⟨d, c, p, .join d .black a w b⟩ :: up) t)
    (ht : t.RB n) (ha : a.RB n) (hb : b.RB n) (hup : Ctx.Fits up c (n + 1 + c.weight)) :
    ∃ m' temp', deleteFixupTailChecked d m (rootPtr t) (.node w) = some (m', temp') ∧
      SameOutside m m' ∧
      Advances m' temp' p₀ (Ctx.plug up (.join d c t p (.join d .black a w b))).toList
        (up.length + c.weight) := by
  have hw := focus_sibling.mp h.focus
  obtain ⟨-, -, hwa, hwb⟩ := hw.reads
  have hwa' : Focus m p₀ (⟨d, .black, w, b⟩ :: _) a := focus_cons.mpr hw
  have hac := hwa'.color_root
  have hbc := (focus_sibling.mp hwa').color_root
  have hup' := h.up
  -- the test on both nephews
  have htest : deleteFixupTailChecked d m (rootPtr t) (.node w) =
      if a.color = .black ∧ b.color = .black
      then some (m.setColor (.node w) .red, .node p)
      else (deleteFixupInnerChecked d m (rootPtr t) (.node w)).bind fun q =>
        (deleteFixupOuterChecked d q.1 (rootPtr t) q.2).bind fun m' => some (m', m'.root) := by
    cases d <;> simp only [Dir.flip] at hwb <;>
      cases hca : a.color <;> cases hcb : b.color <;> simp only [hca, hcb] at hac hbc <;>
      simp [deleteFixupTailChecked, hwa, hwb, Mem.isRed?_of_ne _ (rootPtr_ne_null _), hac, hbc,
        hup']
  rw [htest]
  by_cases hab : a.color = .black ∧ b.color = .black
  · -- both nephews are black: the parent becomes `temp`
    have h₁ := focus_cons.mp (focus_sibling.mpr (Focus.setColor hw .red))
    refine ⟨m.setColor (.node w) .red, .node p, if_pos hab, ⟨rfl, rfl, rfl⟩, .inr
      ⟨up, .join d c t p (.join d .red a w b), n + c.weight, by simp,
        ⟨h₁.temp (by simp [Crumb.plug]), ?_, ?_⟩, ?_, by cases c <;> simp [Color.weight]⟩⟩
    · cases c
      · exact .inr ⟨by simp, by simp [Color.weight, ht, ha, hb, hab]⟩
      · exact .inl ⟨by simp, by simp [Color.weight, ht, ha, hb, hab]⟩
    · have := hup.black
      rwa [Nat.add_right_comm] at this
    · refine Ctx.toList_plug_congr up ?_
      cases d <;> simp [ColorTree.join]
  · rw [if_neg hab]
    cases hbc' : b.color with
    | red =>
      have hinner : deleteFixupInnerChecked d m (rootPtr t) (.node w) = some (m, .node w) := by
        rw [hbc'] at hbc
        simp [deleteFixupInnerChecked, hwb, Mem.isRed?_of_ne _ (rootPtr_ne_null b), hbc]
      obtain ⟨m', hrun, hs, hdone⟩ := deleteFixupOuterChecked_holds h ht ha hb hbc' hup
      exact ⟨m', m'.root, by simp [hinner, hrun], hs, .inl ⟨rfl, hdone⟩⟩
    | black =>
      have har : a.color = .red := by
        cases hca : a.color
        · rfl
        · exact absurd ⟨hca, hbc'⟩ hab
      obtain ⟨u, x, v, rfl, hu, hv, huc, hvc⟩ := ha.exists_red d har
      obtain ⟨m₁, hinner, h₁, hs₁⟩ := deleteFixupInnerChecked_black h hbc'
      obtain ⟨m', hrun, hs, t', hh, hl⟩ := deleteFixupOuterChecked_holds h₁ ht hu
        (by simp [hv, hb, hvc, hbc'] : (ColorTree.join d .red v w b).RB n) (by simp) hup
      refine ⟨m', m'.root, by simp [hinner, hrun], hs₁.trans hs, .inl ⟨rfl, t', hh, hl.trans ?_⟩⟩
      refine Ctx.toList_plug_congr up ?_
      cases d <;> simp [ColorTree.join]

/-- One iteration of the fix-up loop: its sibling is a node, and it ends the loop or moves
the shortage up. -/
lemma deleteFixupChecked_spec {k : Crumb ι} {t : ColorTree ι} {up : Ctx ι} {n : ℕ}
    (h : Deficient m p₀ (k :: up) t n) (hc : t.color = .black) :
    ∃ m' temp', deleteFixupChecked k.dir m (rootPtr t) = some (m', temp') ∧ SameOutside m m' ∧
      Advances m' temp' p₀ (Ctx.plug (k :: up) t).toList (up.length + 1) := by
  obtain ⟨htemp, hshort, hfits⟩ := h
  have ht : t.RB n := by
    rcases hshort with ⟨-, ht⟩ | ⟨hr, -⟩
    · exact ht
    · simp [hr] at hc
  obtain ⟨d, c, p, s⟩ := k
  obtain ⟨hs, hsc, hup⟩ := Ctx.fits_cons.mp hfits
  have hps := htemp.focus.reads_parent.2.2.2
  have step : ∀ w, rootPtr s = .node w → deleteFixupChecked d m (rootPtr t) =
      (deleteFixupSiblingChecked d m (rootPtr t) (.node w)).bind fun q =>
        deleteFixupTailChecked d q.1 (rootPtr t) q.2 := by
    intro w hw
    simp [deleteFixupChecked, htemp.up, Mem.childNode?_of_eq (hps.trans hw)]
  cases hcol : s.color with
  | black =>
    obtain ⟨a, w, b, rfl, ha, hb⟩ := hs.exists_black d hcol
    have hw := (focus_sibling.mp htemp.focus).reads.1
    obtain ⟨m', temp', hrun, hsame, hadv⟩ := deleteFixupTailChecked_spec htemp ht ha hb hup
    refine ⟨m', temp', ?_, hsame, hadv.mono rfl (by cases c <;> simp [Color.weight])⟩
    rw [step w (by simp)]
    simp [deleteFixupSiblingChecked, hw, hrun]
  | red =>
    have hcb : c = .black := by
      cases c
      · simp [hsc rfl] at hcol
      · rfl
    subst hcb
    obtain ⟨a, w, b, rfl, ha, hb, hac, hbc⟩ := hs.exists_red d hcol
    obtain ⟨u, x, v, rfl, hu, hv⟩ := ha.exists_black d hac
    obtain ⟨m₁, hsib, ht₁, hs₁⟩ := deleteFixupSiblingChecked_red htemp
    have hup₁ : Ctx.Fits (⟨d, .black, w, b⟩ :: up) .red (n + 1 + Color.red.weight) :=
      Ctx.fits_black_cons.mpr ⟨hb, hup⟩
    obtain ⟨m', temp', hrun, hsame, hadv⟩ := deleteFixupTailChecked_spec ht₁ ht hu hv hup₁
    refine ⟨m', temp', ?_, hs₁.trans hsame, hadv.mono ?_ (by simp [Color.weight])⟩
    · rw [step w (by simp)]
      simpa [hsib] using hrun
    · refine Ctx.toList_plug_congr up ?_
      cases d <;> simp [Crumb.plug, ColorTree.join]

/-! ## The loop -/

/-- Painting the node `temp` points to, which may be the sentinel, black. -/
lemma Focus.setColor_black {ctx : Ctx ι} {t : ColorTree ι} (h : Focus m p₀ ctx t) :
    ∃ m', m.setColor? (rootPtr t) .black = some m' ∧ Focus m' p₀ ctx (t.paint .black) ∧
      SameOutside m m' := by
  rcases t with _ | ⟨c, l, a, r⟩
  · refine ⟨m.setColor .sentinel .black, rfl, ?_, rfl, rfl, rfl⟩
    have : m.setColor .sentinel .black = m := by
      rw [Mem.setColor, ← h.sentinel, Function.update_eq_self]
    rwa [this]
  · exact ⟨_, rfl, Focus.setColor (d := .left) h .black, rfl, rfl, rfl⟩

/-- The loop stops at the root and at a red node, and paints it black. -/
lemma deleteLoopChecked_stop {ctx : Ctx ι} {t : ColorTree ι} (h : Focus m p₀ ctx t)
    (hs : ctx = [] ∨ t.color = .red) (fuel : ℕ) (last : Option ℕ) :
    ∃ m', deleteLoopChecked (fuel + 1) last m (rootPtr t) = some m' ∧
      Focus m' p₀ ctx (t.paint .black) ∧ SameOutside m m' := by
  obtain ⟨m', hpaint, hf, hsame⟩ := h.setColor_black
  refine ⟨m', ?_, hf, hsame⟩
  have hcol := h.color_root
  by_cases hr : rootPtr t = m.root
  · rw [hr] at hpaint
    simp [deleteLoopChecked, hr, hpaint]
  · have hred := hs.resolve_left fun e => hr (h.eq_root_iff.mpr e)
    simp [deleteLoopChecked, hr, hpaint, Mem.isRed?_of_ne _ (rootPtr_ne_null t), hcol, hred]

/-- The loop started at the root of a finished tree. -/
lemma deleteLoopChecked_root {t : ColorTree ι} (h : Holds m t) (fuel : ℕ) (last : Option ℕ) :
    ∃ m', deleteLoopChecked (fuel + 1) last m m.root = some m' ∧ Holds m' t ∧ SameOutside m m' := by
  obtain ⟨⟨p₀, hf⟩, hrb, hc⟩ := h
  obtain ⟨m', hrun, hf', hsame⟩ := deleteLoopChecked_stop hf (.inl rfl) fuel last
  rw [ColorTree.paint_of_color hc] at hf'
  have hroot : m.root = rootPtr t := hf.isCtx
  exact ⟨m', hroot ▸ hrun, ⟨⟨p₀, hf'⟩, hrb, hc⟩, hsame⟩

/-- The loop started at a red node, which makes up for the missing black one. -/
lemma deleteLoopChecked_red {ctx : Ctx ι} {t : ColorTree ι} {n : ℕ} (h : Deficient m p₀ ctx t n)
    (hc : t.color = .red) (fuel : ℕ) (last : Option ℕ) :
    ∃ m' t', deleteLoopChecked (fuel + 1) last m (rootPtr t) = some m' ∧ Holds m' t' ∧
      t'.toList = (ctx.plug t).toList ∧ SameOutside m m' := by
  obtain ⟨m', hrun, hf, hsame⟩ := deleteLoopChecked_stop h.temp.focus (.inr hc) fuel last
  rcases h.short with ⟨hb, -⟩ | ⟨-, ht⟩
  · simp [hc] at hb
  · have hpc : (t.paint .black).color = .black := by cases t <;> rfl
    exact ⟨m', _, hrun, hf.holds (by rw [hpc]; exact h.fits) ht,
      Ctx.toList_plug_congr ctx (ColorTree.toList_paint _ _), hsame⟩

/-- What the loop does away from the root and from a red node. -/
lemma deleteLoopChecked_step {fuel : ℕ} {last : Option ℕ} {k : Crumb ι} {up : Ctx ι}
    {t : ColorTree ι} (h : TempFocus m p₀ (k :: up) t) (hs : k.sib ≠ .nil) (hc : t.color = .black)
    (hf : (k :: up).length < fuel + 1) (hl : ∀ l ∈ last, (k :: up).length < l) :
    deleteLoopChecked (fuel + 1) last m (rootPtr t) =
      (deleteFixupChecked k.dir m (rootPtr t)).bind fun q =>
        deleteLoopChecked fuel (some (up.length + 1)) q.1 q.2 := by
  have hroot := h.focus.eq_root_iff
  have hside := h.focus.side_eq (.inr hs)
  have hcol := h.focus.color_root
  have hdepth := h.focus.closer_eq h.parent hf hl
  simp only [reduceCtorEq, iff_false, List.length_cons] at hroot hdepth
  simp [deleteLoopChecked, hroot, Mem.isRed?_of_ne _ (rootPtr_ne_null t), hcol, hc, h.up, hside,
    hdepth]

/-- The fix-up loop of `rbtree_delete` ends and restores the red-black law. No assertion fails:
the sibling is a node, and each iteration is closer to the root. -/
lemma deleteLoopChecked_spec {fuel : ℕ} {last : Option ℕ} {ctx : Ctx ι} {t : ColorTree ι} {n : ℕ}
    (h : Deficient m p₀ ctx t n) (hf : ctx.length < fuel) (hl : ∀ l ∈ last, ctx.length < l) :
    ∃ m' t', deleteLoopChecked fuel last m (rootPtr t) = some m' ∧ Holds m' t' ∧
      t'.toList = (ctx.plug t).toList ∧ SameOutside m m' := by
  induction fuel generalizing last m ctx t n with
  | zero => omega
  | succ fuel ih =>
    cases hc : t.color with
    | red => exact deleteLoopChecked_red h hc fuel last
    | black =>
      have ht : t.RB n := by
        rcases h.short with ⟨-, ht⟩ | ⟨hr, -⟩
        · exact ht
        · simp [hr] at hc
      cases ctx with
      | nil =>
        obtain ⟨m', hrun, hfoc, hsame⟩ := deleteLoopChecked_stop h.temp.focus (.inl rfl) fuel last
        rw [ColorTree.paint_of_color hc] at hfoc
        exact ⟨m', t, hrun, ⟨⟨p₀, hfoc⟩, ⟨n, ht⟩, hc⟩, rfl, hsame⟩
      | cons k up =>
        have hsib : k.sib ≠ .nil := by
          intro e
          have := (Ctx.fits_cons.mp h.fits).1
          simp [e] at this
        obtain ⟨m₂, temp', hfix, hsame, hadv⟩ := deleteFixupChecked_spec h hc
        rw [deleteLoopChecked_step h.temp hsib hc hf hl, hfix, Option.bind_some]
        simp only [List.length_cons] at hf
        obtain ⟨fuel, rfl⟩ : ∃ f, fuel = f + 1 := ⟨fuel - 1, by omega⟩
        rcases hadv with ⟨rfl, t₂, hh, hl⟩ | ⟨up₂, t₂, n₂, rfl, hd, hl, hred | hlen⟩
        · -- a rotation ended the repair
          obtain ⟨m₃, hrun, hh₃, hs₃⟩ := deleteLoopChecked_root hh fuel (some (up.length + 1))
          exact ⟨m₃, t₂, hrun, hh₃, hl, hsame.trans hs₃⟩
        · obtain ⟨m₃, t₃, hrun, hh, hl₃, hs₃⟩ := deleteLoopChecked_red hd hred fuel
            (some (up.length + 1))
          exact ⟨m₃, t₃, hrun, hh, hl₃.trans hl, hsame.trans hs₃⟩
        · have hlast : ∀ l ∈ some (up.length + 1), up₂.length < l := by simpa using hlen
          obtain ⟨m₃, t₃, hrun, hh, hl₃, hs₃⟩ := ih hd (by omega) hlast
          exact ⟨m₃, t₃, hrun, hh, hl₃.trans hl, hsame.trans hs₃⟩

end Libcn.Rbtree
