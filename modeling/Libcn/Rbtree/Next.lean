import Libcn.Rbtree.Safe

/-!
# In-order traversal

`rbtree_next` goes to the leftmost node on the right, or climbs to the first ancestor it comes to
from the left. From `rbtree_min` of the root on, it visits the nodes of the tree in order.
-/

namespace Libcn.Rbtree

open Libcn.Lib

variable {ι : Type} [DecidableEq ι]

/-- The loop of `rbtree_next`. -/
def nextClimb (m : Mem ι) : ℕ → Ptr ι → Option (Ptr ι)
  | 0, _ => none
  | fuel + 1, node => do
    let parent ← m.parent? node
    if node = m.root then pure .null
    else if node = (← m.child? .left parent) then pure parent
    else nextClimb m fuel parent

/-- `rbtree_next`. -/
def rbtreeNext (m : Mem ι) (fuel : ℕ) (node : Ptr ι) : Option (Ptr ι) := do
  if (← m.child? .right node) ≠ .sentinel then rbtreeMin m fuel (← m.child? .right node)
  else nextClimb m fuel node

/-- `nextClimb` with the assertion that a parent that is used is a node, and not that of the
root. -/
def nextClimbChecked (m : Mem ι) : ℕ → Ptr ι → Option (Ptr ι)
  | 0, _ => none
  | fuel + 1, node => do
    let _ ← m.parent? node
    if node = m.root then pure .null
    else do
      let parent ← m.up? node
      if node = (← m.child? .left parent) then pure parent
      else nextClimbChecked m fuel parent

/-- `rbtreeNext` with the assertion. -/
def rbtreeNextChecked (m : Mem ι) (fuel : ℕ) (node : Ptr ι) : Option (Ptr ι) := do
  if (← m.child? .right node) ≠ .sentinel then rbtreeMin m fuel (← m.child? .right node)
  else nextClimbChecked m fuel node

/-- The nodes a loop visits from a pointer on, until it comes to NULL. -/
def walk (next : Ptr ι → Option (Ptr ι)) : ℕ → Ptr ι → Option (List ι)
  | 0, _ => none
  | _ + 1, .null => some []
  | _ + 1, .sentinel => none
  | rounds + 1, .node i => do
    let rest ← walk next rounds (← next (.node i))
    pure (i :: rest)

/-- The nodes visited from `rbtree_min` of the root on. All callers of `rbtree_min` test for the
empty tree first: the links of the sentinel are not initialised. -/
def traversal (next : Ptr ι → Option (Ptr ι)) (fuel : ℕ) (m : Mem ι) : Option (List ι) := do
  if m.root = .sentinel then pure []
  else walk next fuel (← rbtreeMin m fuel m.root)

/-! ## The assertions erased -/

lemma nextClimbChecked_within (m : Mem ι) (fuel : ℕ) (node : Ptr ι) :
    Within (nextClimbChecked m fuel node) (nextClimb m fuel node) := by
  induction fuel generalizing node with
  | zero => exact .none _
  | succ fuel ih =>
    intro q hq
    cases hp : m.parent? node with
    | none => simp [nextClimbChecked, hp] at hq
    | some p =>
      by_cases hroot : node = m.root
      · simpa [nextClimbChecked, nextClimb, hp, hroot] using hq
      · have hup : ∀ parent, m.up? node = some parent → p = parent := fun parent h =>
          Option.some.inj (hp.symm.trans (Mem.up?_within m node parent h))
        simp only [nextClimbChecked, hp, hroot, if_false, Option.bind_eq_bind,
          Option.bind_some] at hq
        obtain ⟨parent, hparent, hq⟩ := Option.bind_eq_some_iff.mp hq
        obtain rfl := hup parent hparent
        obtain ⟨l, hl, hq⟩ := Option.bind_eq_some_iff.mp hq
        simp only [nextClimb, hp, hroot, if_false, Option.bind_eq_bind, Option.bind_some, hl]
        split_ifs at hq ⊢
        · exact hq
        · exact ih p q hq

lemma rbtreeNextChecked_within (m : Mem ι) (fuel : ℕ) (node : Ptr ι) :
    Within (rbtreeNextChecked m fuel node) (rbtreeNext m fuel node) :=
  .bind (.refl _) fun _ => .ite (.refl _) (nextClimbChecked_within m fuel node)

omit [DecidableEq ι] in
lemma walk_within {f g : Ptr ι → Option (Ptr ι)} (h : ∀ p, Within (f p) (g p)) (rounds : ℕ)
    (p : Ptr ι) : Within (walk f rounds p) (walk g rounds p) := by
  induction rounds generalizing p with
  | zero => exact .refl _
  | succ rounds ih =>
    cases p with
    | null => exact .refl _
    | sentinel => exact .refl _
    | node i => exact .bind (h _) fun q => .bind (ih q) fun _ => .refl _

lemma traversal_within {f g : Ptr ι → Option (Ptr ι)} (h : ∀ p, Within (f p) (g p)) (fuel : ℕ)
    (m : Mem ι) : Within (traversal f fuel m) (traversal g fuel m) :=
  .ite (.refl _) (.bind (.refl _) fun p => walk_within h fuel p)

/-! ## One step -/

/-- The pointer to the first of the nodes still to visit. -/
def headPtr : List ι → Ptr ι
  | [] => .null
  | i :: _ => .node i

variable {m : Mem ι} {p₀ : Ptr ι}

/-- The climb stops at the first node after the subtree it came from. -/
lemma nextClimbChecked_spec {fuel : ℕ} {ctx : Ctx ι} {t : ColorTree ι} (h : Focus m p₀ ctx t)
    (ht : t ≠ .nil) (hf : ctx.length < fuel) :
    nextClimbChecked m fuel (rootPtr t) = some (headPtr ctx.after) := by
  induction fuel generalizing ctx t with
  | zero => omega
  | succ fuel ih =>
    have hroot := h.eq_root_iff
    have hread := m.parent?_of_ne (rootPtr_ne_null t)
    cases ctx with
    | nil =>
      simp only [iff_true] at hroot
      rw [hroot] at hread ⊢
      simp [nextClimbChecked, hread, Ctx.after, headPtr]
    | cons k up =>
      simp only [List.length_cons, reduceCtorEq, iff_false] at hf hroot
      have hup := h.up ht
      have hrest := ih (focus_cons.mp h) (by simp [Crumb.plug]) (by omega)
      obtain ⟨-, -, hnear, hfar⟩ := h.reads_parent
      have hsib := h.ne_sibling (.inl ht)
      rcases k with ⟨d, c, a, s⟩
      cases d with
      | left =>
        simp [nextClimbChecked, hread, hroot, hup, hnear, Ctx.after, headPtr]
      | right =>
        simp only [Crumb.plug, rootPtr_join, Dir.flip] at hrest hfar hsib
        simp [nextClimbChecked, hread, hroot, hup, hfar, hsib, hrest, Ctx.after]

/-- `rbtree_min` finds the first node of a subtree. -/
lemma rbtreeMin_head {fuel : ℕ} {ctx : Ctx ι} {t : ColorTree ι}
    (h : Focus m p₀ ctx t) (ht : t ≠ .nil) (hf : t.height ≤ fuel) :
    rbtreeMin m fuel (rootPtr t) = some (headPtr t.toList) := by
  obtain ⟨ctx', c, s, r, hrun, rfl, hbefore⟩ := rbtreeMin_spec h ht hf
  rw [hrun, Ctx.toList_plug, hbefore]
  rfl

/-- `rbtree_next` finds the first node after the node at the focus. -/
lemma rbtreeNextChecked_spec {fuel : ℕ} {ctx : Ctx ι} {c : Color} {l r : ColorTree ι} {i : ι}
    (h : Focus m p₀ ctx (.node c l i r)) (hr : r.height ≤ fuel) (hf : ctx.length < fuel) :
    rbtreeNextChecked m fuel (.node i) = some (headPtr (r.toList ++ ctx.after)) := by
  have hright : m.child .right (.node i) = rootPtr r := (Focus.reads (d := .left) h).2.2.2
  by_cases hnil : r = .nil
  · subst hnil
    have hclimb := nextClimbChecked_spec h (by simp) hf
    rw [rootPtr_node] at hclimb
    simp [rbtreeNextChecked, hright, hclimb]
  · have hne : rootPtr r ≠ .sentinel := fun e => hnil (rootPtr_eq_sentinel.mp e)
    have hmin := rbtreeMin_head (focus_cons.mpr h : Focus m p₀ (⟨.right, c, i, l⟩ :: ctx) r)
      hnil hr
    obtain ⟨s, rest, hlist⟩ := List.exists_cons_of_ne_nil
      (fun e => hnil (ColorTree.toList_eq_nil.mp e) : r.toList ≠ [])
    simp [rbtreeNextChecked, hright, hne, hmin, hlist, headPtr]

/-! ## Whole traversals -/

/-- `rbtree_next` goes on in the in-order list. -/
lemma Holds.next {t : ColorTree ι} {fuel : ℕ} {pre l : List ι} {i : ι} (h : Holds m t)
    (hl : t.toList = pre ++ i :: l) (hf : t.height < fuel) :
    rbtreeNextChecked m fuel (.node i) = some (headPtr l) := by
  have hn := h.nodup
  obtain ⟨⟨p₀, hfoc⟩, -, -⟩ := h
  obtain ⟨ctx, c, s, r, rfl⟩ := Ctx.exists_plug (by simp [hl] : i ∈ t.toList)
  have hi : Focus m p₀ ctx (.node c s i r) := focus_plug.mpr hfoc
  have hlist := Ctx.toList_plug ctx (.node c s i r)
  have hheight := (Ctx.length_add_height_le ctx (.node c s i r)).trans_lt hf
  -- the node stands once in the list, so what follows it is one list
  have hafter : pre ++ i :: l = (ctx.before ++ s.toList) ++ i :: (r.toList ++ ctx.after) := by
    rw [← hl, hlist]
    simp
  rw [hl, List.nodup_middle, List.nodup_cons, List.mem_append, not_or] at hn
  obtain ⟨-, -, hrest⟩ := (List.append_cons_inj_of_notMem hn.1.1 hn.1.2).mp hafter
  rw [ColorTree.height] at hheight
  rw [hrest]
  exact rbtreeNextChecked_spec hi (by omega) (by omega)

/-- From any node on, the walk visits the rest of the in-order list. -/
lemma Holds.walk {t : ColorTree ι} {fuel rounds : ℕ} {pre l : List ι} (h : Holds m t)
    (hl : t.toList = pre ++ l) (hf : t.toList.length < fuel) (hr : l.length < rounds) :
    walk (rbtreeNextChecked m fuel) rounds (headPtr l) = some l := by
  induction l generalizing pre rounds with
  | nil =>
    obtain ⟨rounds, rfl⟩ : ∃ r, rounds = r + 1 := ⟨rounds - 1, by omega⟩
    rfl
  | cons i l ih =>
    simp only [List.length_cons] at hr
    obtain ⟨rounds, rfl⟩ : ∃ r, rounds = r + 1 := ⟨rounds - 1, by omega⟩
    have hsplit : t.toList = (pre ++ [i]) ++ l := by simpa using hl
    have hrest := ih hsplit (by omega : _ < rounds)
    rw [headPtr, Rbtree.walk, h.next hl (t.height_le_length.trans_lt hf),
      Option.bind_eq_bind, Option.bind_some, hrest]
    rfl

/-- The traversal visits the nodes of the tree in order. -/
lemma Holds.traversal {t : ColorTree ι} {fuel : ℕ} (h : Holds m t) (hf : t.toList.length < fuel) :
    traversal (rbtreeNextChecked m fuel) fuel m = some t.toList := by
  obtain ⟨p₀, hfoc⟩ := h.focus
  have hroot : m.root = rootPtr t := hfoc.isCtx
  by_cases ht : t = .nil
  · subst ht
    simp [Rbtree.traversal, hroot]
  · have hne : rootPtr t ≠ .sentinel := fun e => ht (rootPtr_eq_sentinel.mp e)
    have hmin := rbtreeMin_head hfoc ht (t.height_le_length.trans hf.le)
    have hwalk := h.walk (List.nil_append _).symm hf hf
    simp [Rbtree.traversal, hroot, hne, hmin, hwalk]

/-- The traversal of a tree that a run of allowed calls has made: it visits every node exactly
once, in order, over valid parent links only, whatever the root and the sentinel keep as their
parent. -/
lemma runOps_traversal (m : Mem ι) (i : InsertPt) (ops : List (TreeOp ι)) (fuel : ℕ)
    (hops : AllowedRun ∅ ops) (hf : ops.length < fuel) :
    ∃ m' t, runOps fuel (rbtreeInit m i) ops = some m' ∧ Holds m' t ∧ t.toList.Nodup ∧
      t.toList.toFinset = nodesAfter ∅ ops ∧ ∀ v w,
        traversal (rbtreeNextChecked (m'.stale v w) fuel) fuel (m'.stale v w) = some t.toList ∧
        traversal (rbtreeNext (m'.stale v w) fuel) fuel (m'.stale v w) = some t.toList := by
  have hf' : (ColorTree.nil : ColorTree ι).toList.length + ops.length < fuel := by simpa using hf
  obtain ⟨m', t, hrun, hh, hn⟩ := runOps_spec (holds_rbtreeInit m i) hops hf'
  refine ⟨m', t, hrun, hh, hh.nodup, hn, fun v w => ?_⟩
  have hlen : t.toList.length ≤ ops.length := by
    rw [hh.length_eq, hn]
    exact card_nodesAfter_le ops
  have hchecked := (hh.stale v w).traversal (by omega : _ < fuel)
  exact ⟨hchecked, traversal_within (rbtreeNextChecked_within (m'.stale v w) fuel) fuel _ _ hchecked⟩

end Libcn.Rbtree
