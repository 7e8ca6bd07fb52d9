import Mathlib.Data.List.Nodup
import Mathlib.Data.Nat.Log
import Mathlib.Tactic.Ring

/-!
# Red-black trees seen from a focus

Binary trees with coloured nodes, the red-black law on them, and the same law on a
*context* (a tree with one hole), so that a rebalancing loop that walks towards the
root can be verified one step at a time.

Every definition is symmetric in `Dir`: a fact about one side is a fact about both.
-/

namespace Libcn.Lib

inductive Color
  | red
  | black
  deriving DecidableEq, Repr

inductive Dir
  | left
  | right
  deriving DecidableEq, Repr

/-- What a node of this colour adds to a black height. -/
def Color.weight : Color → ℕ
  | .red => 0
  | .black => 1

/-- The other side. -/
def Dir.flip : Dir → Dir
  | .left => .right
  | .right => .left

@[simp] lemma Dir.flip_flip (d : Dir) : d.flip.flip = d := by cases d <;> rfl

@[simp] lemma Dir.flip_ne (d : Dir) : d.flip ≠ d := by cases d <;> decide

@[simp] lemma Dir.ne_flip (d : Dir) : d ≠ d.flip := by cases d <;> decide

lemma Dir.eq_or_eq_flip (d e : Dir) : e = d ∨ e = d.flip := by
  cases d <;> cases e <;> simp [Dir.flip]

/-- A binary tree whose nodes carry a colour and a label. -/
inductive ColorTree (α : Type)
  | nil
  | node (c : Color) (l : ColorTree α) (a : α) (r : ColorTree α)

namespace ColorTree

variable {α : Type}

/-- The node with `near` on side `d` and `far` on the other side. -/
def join : Dir → Color → ColorTree α → α → ColorTree α → ColorTree α
  | .left, c, near, a, far => .node c near a far
  | .right, c, near, a, far => .node c far a near

/-- The colour of the root; an empty tree counts as black. -/
def color : ColorTree α → Color
  | nil => .black
  | node c _ _ _ => c

/-- The tree with its root painted. -/
def paint (c : Color) : ColorTree α → ColorTree α
  | nil => nil
  | node _ l a r => node c l a r

/-- In-order labels. -/
def toList : ColorTree α → List α
  | nil => []
  | node _ l a r => l.toList ++ a :: r.toList

def height : ColorTree α → ℕ
  | nil => 0
  | node _ l _ r => max l.height r.height + 1

@[simp] lemma color_nil : (nil : ColorTree α).color = .black := rfl
@[simp] lemma color_node (c : Color) (l : ColorTree α) (a : α) (r : ColorTree α) :
    (node c l a r).color = c := rfl
@[simp] lemma toList_nil : (nil : ColorTree α).toList = [] := rfl
@[simp] lemma toList_node (c : Color) (l : ColorTree α) (a : α) (r : ColorTree α) :
    (node c l a r).toList = l.toList ++ a :: r.toList := rfl

@[simp] lemma color_join (d : Dir) (c : Color) (x : ColorTree α) (a : α) (y : ColorTree α) :
    (join d c x a y).color = c := by cases d <;> rfl

@[simp] lemma paint_join (d : Dir) (c c' : Color) (x : ColorTree α) (a : α) (y : ColorTree α) :
    (join d c x a y).paint c' = join d c' x a y := by cases d <;> rfl

@[simp] lemma toList_paint (c : Color) (t : ColorTree α) : (t.paint c).toList = t.toList := by
  cases t <;> rfl

lemma toList_eq_nil {t : ColorTree α} : t.toList = [] ↔ t = nil := by
  cases t <;> simp

lemma mem_join {d : Dir} {c : Color} {x : ColorTree α} {a : α} {y : ColorTree α} {b : α} :
    b ∈ (join d c x a y).toList ↔ b = a ∨ b ∈ x.toList ∨ b ∈ y.toList := by
  cases d <;> simp [join] <;> tauto

lemma join_flip (d : Dir) (c : Color) (x : ColorTree α) (a : α) (y : ColorTree α) :
    join d.flip c x a y = join d c y a x := by cases d <;> rfl

@[simp] lemma join_ne_nil (d : Dir) (c : Color) (x : ColorTree α) (a : α) (y : ColorTree α) :
    join d c x a y ≠ nil := by cases d <;> simp [join]

lemma ne_nil_of_red {t : ColorTree α} (h : t.color = .red) : t ≠ nil := by
  rintro rfl; simp at h

/-- A node is a join on either side. -/
lemma node_eq_join (d : Dir) (c : Color) (l : ColorTree α) (a : α) (r : ColorTree α) :
    ∃ x y, node c l a r = join d c x a y := by
  cases d
  · exact ⟨l, r, rfl⟩
  · exact ⟨r, l, rfl⟩

lemma nodup_join {d : Dir} {c : Color} {x : ColorTree α} {a : α} {y : ColorTree α} :
    (join d c x a y).toList.Nodup ↔
      x.toList.Nodup ∧ y.toList.Nodup ∧ a ∉ x.toList ∧ a ∉ y.toList ∧
        ∀ b ∈ x.toList, b ∉ y.toList := by
  cases d <;> simp only [join, toList_node, List.nodup_append, List.nodup_cons] <;> grind

lemma height_le_length (t : ColorTree α) : t.height ≤ t.toList.length := by
  induction t with
  | nil => simp [height]
  | node c l a r ihl ihr =>
    simp only [height, toList_node, List.length_append, List.length_cons]
    omega

/-- Rotating the far child of the root up does not change the in-order list. -/
lemma toList_rotate (d : Dir) (c₁ c₂ : Color) (x : ColorTree α) (a : α) (y : ColorTree α) (b : α)
    (z : ColorTree α) :
    (join d c₁ (join d c₂ x a y) b z).toList = (join d c₂ x a (join d c₁ y b z)).toList := by
  cases d <;> simp [join]

/-! ## The red-black law -/

/-- `t` has `n` black nodes on every path to a leaf, and no red node has a red child. -/
def RB : ColorTree α → ℕ → Prop
  | nil, n => n = 0
  | node .red l _ r, n => RB l n ∧ RB r n ∧ l.color = .black ∧ r.color = .black
  | node .black _ _ _, 0 => False
  | node .black l _ r, n + 1 => RB l n ∧ RB r n

@[simp] lemma rb_nil {n : ℕ} : RB (nil : ColorTree α) n ↔ n = 0 := Iff.rfl

@[simp] lemma rb_join_red {d : Dir} {x : ColorTree α} {a : α} {y : ColorTree α} {n : ℕ} :
    RB (join d .red x a y) n ↔
      RB x n ∧ RB y n ∧ x.color = .black ∧ y.color = .black := by
  cases d <;> simp only [join, RB]
  tauto

@[simp] lemma rb_join_black {d : Dir} {x : ColorTree α} {a : α} {y : ColorTree α} {n : ℕ} :
    RB (join d .black x a y) (n + 1) ↔ RB x n ∧ RB y n := by
  cases d <;> simp only [join, RB]
  tauto

@[simp] lemma not_rb_join_black_zero {d : Dir} {x : ColorTree α} {a : α} {y : ColorTree α} :
    ¬ RB (join d .black x a y) 0 := by
  cases d <;> simp [join, RB]

/-- The law at a node, for either colour. -/
lemma rb_join {d : Dir} {c : Color} {x : ColorTree α} {a : α} {y : ColorTree α} {n : ℕ} :
    RB (join d c x a y) (n + c.weight) ↔
      RB x n ∧ RB y n ∧ (c = .red → x.color = .black ∧ y.color = .black) := by
  cases c
  · simp [Color.weight]
  · simp [Color.weight]

/-- A black tree of positive black height has a black node at its root. -/
lemma RB.exists_black (d : Dir) {t : ColorTree α} {n : ℕ} (h : RB t (n + 1))
    (hc : t.color = .black) : ∃ x a y, t = join d .black x a y ∧ RB x n ∧ RB y n := by
  cases t with
  | nil => simp at h
  | node c l a r =>
    obtain rfl : c = .black := hc
    cases d
    · exact ⟨l, a, r, rfl, h⟩
    · exact ⟨r, a, l, rfl, h.symm⟩

/-- A red tree has a red node at its root, with black subtrees. -/
lemma RB.exists_red (d : Dir) {t : ColorTree α} {n : ℕ} (h : RB t n) (hc : t.color = .red) :
    ∃ x a y, t = join d .red x a y ∧ RB x n ∧ RB y n ∧
      x.color = .black ∧ y.color = .black := by
  cases t with
  | nil => simp at hc
  | node c l a r =>
    obtain rfl : c = .red := hc
    obtain ⟨hl, hr, hlc, hrc⟩ := h
    cases d
    · exact ⟨l, a, r, rfl, hl, hr, hlc, hrc⟩
    · exact ⟨r, a, l, rfl, hr, hl, hrc, hlc⟩

/-- Painting a red root black adds one to the black height. -/
lemma RB.paint_black {t : ColorTree α} {n : ℕ} (h : RB t n) (hc : t.color = .red) :
    RB (t.paint .black) (n + 1) := by
  obtain ⟨x, a, y, rfl, hx, hy, -, -⟩ := h.exists_red .left hc
  simp [hx, hy]

lemma paint_of_color {t : ColorTree α} {c : Color} (h : t.color = c) : t.paint c = t := by
  cases t with
  | nil => rfl
  | node => subst h; rfl

/-- Black height bounds the number of nodes from below. -/
lemma RB.two_pow_le {t : ColorTree α} {n : ℕ} (h : RB t n) : 2 ^ n ≤ t.toList.length + 1 := by
  induction t generalizing n with
  | nil => obtain rfl := rb_nil.mp h; simp
  | node c l a r ihl ihr =>
    cases c with
    | red =>
      have := ihl h.1
      simp only [toList_node, List.length_append, List.length_cons]
      omega
    | black =>
      cases n with
      | zero => exact absurd h id
      | succ n =>
        have hl := ihl h.1
        have hr := ihr h.2
        simp only [toList_node, List.length_append, List.length_cons, pow_succ]
        omega

/-- At most every second node of a path is red. -/
lemma RB.height_le {t : ColorTree α} {n : ℕ} (h : RB t n) :
    t.height ≤ 2 * n + (if t.color = .red then 1 else 0) := by
  induction t generalizing n with
  | nil => simp [height]
  | node c l a r ihl ihr =>
    cases c with
    | red =>
      obtain ⟨hl, hr, hlc, hrc⟩ := h
      have h₁ := ihl hl
      have h₂ := ihr hr
      simp only [hlc, hrc, reduceCtorEq, if_false] at h₁ h₂
      simp only [height, color_node, if_true]
      omega
    | black =>
      cases n with
      | zero => exact absurd h id
      | succ n =>
        have h₁ := ihl h.1
        have h₂ := ihr h.2
        simp only [height, color_node, reduceCtorEq, if_false]
        split_ifs at h₁ h₂ <;> omega

/-- A red-black tree of `k` nodes with a black root has height at most `2 * log₂ (k + 1)`. -/
theorem RB.height_le_log {t : ColorTree α} {n : ℕ} (h : RB t n) (hc : t.color = .black) :
    t.height ≤ 2 * Nat.log 2 (t.toList.length + 1) := by
  have hn : n ≤ Nat.log 2 (t.toList.length + 1) :=
    Nat.le_log_of_pow_le (by norm_num) h.two_pow_le
  have hh := h.height_le
  simp only [hc, reduceCtorEq, if_false] at hh
  omega

end ColorTree

/-! ## Contexts -/

open ColorTree

/-- One step of a path to the root: the side the hole is on, the parent and its other
subtree. -/
structure Crumb (α : Type) where
  dir : Dir
  color : Color
  elem : α
  sib : ColorTree α

/-- The parent of the hole with `t` in the hole. -/
def Crumb.plug {α : Type} (k : Crumb α) (t : ColorTree α) : ColorTree α :=
  join k.dir k.color t k.elem k.sib

/-- A tree with a hole, innermost crumb first. -/
abbrev Ctx (α : Type) := List (Crumb α)

namespace Ctx

variable {α : Type}

/-- The whole tree with `t` in the hole. -/
def plug : Ctx α → ColorTree α → ColorTree α
  | [], t => t
  | k :: up, t => plug up (k.plug t)

/-- In-order labels before the hole. -/
def before : Ctx α → List α
  | [] => []
  | ⟨.left, _, _, _⟩ :: up => before up
  | ⟨.right, _, a, s⟩ :: up => before up ++ s.toList ++ [a]

/-- In-order labels after the hole. -/
def after : Ctx α → List α
  | [] => []
  | ⟨.left, _, a, s⟩ :: up => a :: s.toList ++ after up
  | ⟨.right, _, _, _⟩ :: up => after up

/-- The labels of the context. -/
def labels (ctx : Ctx α) : List α := ctx.before ++ ctx.after

lemma toList_plug (ctx : Ctx α) (t : ColorTree α) :
    (ctx.plug t).toList = ctx.before ++ t.toList ++ ctx.after := by
  induction ctx generalizing t with
  | nil => simp [plug, before, after]
  | cons k up ih =>
    obtain ⟨d, c, a, s⟩ := k
    cases d <;> simp [plug, Crumb.plug, ih, before, after, join]

lemma plug_append (ctx up : Ctx α) (t : ColorTree α) : plug (ctx ++ up) t = plug up (plug ctx t) := by
  induction ctx generalizing t with
  | nil => rfl
  | cons k ctx ih => exact ih _

/-- A hole is no deeper than the tree is high. -/
lemma length_add_height_le (ctx : Ctx α) (t : ColorTree α) :
    ctx.length + t.height ≤ (plug ctx t).height := by
  induction ctx generalizing t with
  | nil => simp [plug]
  | cons k up ih =>
    have hle := ih (k.plug t)
    have hk : t.height + 1 ≤ (k.plug t).height := by
      obtain ⟨d, c, a, s⟩ := k
      cases d <;> simp only [Crumb.plug, join, height] <;> omega
    simp only [List.length_cons, plug]
    omega

lemma mem_plug {ctx : Ctx α} {t : ColorTree α} {b : α} :
    b ∈ (ctx.plug t).toList ↔ b ∈ t.toList ∨ b ∈ labels ctx := by
  simp only [toList_plug, labels, List.mem_append]
  tauto

/-- Replacing the subtree in the hole by one with the same in-order list. -/
lemma toList_plug_congr (ctx : Ctx α) {t t' : ColorTree α} (h : t.toList = t'.toList) :
    (ctx.plug t).toList = (ctx.plug t').toList := by
  rw [toList_plug, toList_plug, h]

lemma mem_labels_cons {k : Crumb α} {up : Ctx α} {b : α} :
    b ∈ labels (k :: up) ↔ b = k.elem ∨ b ∈ k.sib.toList ∨ b ∈ labels up := by
  obtain ⟨d, c, a, s⟩ := k
  cases d <;> simp [labels, before, after] <;> tauto

/-- Every label of a tree is the root of a subtree. -/
lemma exists_plug {t : ColorTree α} {a : α} (h : a ∈ t.toList) :
    ∃ ctx c l r, t = plug ctx (.node c l a r) := by
  induction t with
  | nil => simp at h
  | node c l b r ihl ihr =>
    rcases List.mem_append.mp h with hl | hr
    · obtain ⟨ctx, c', l', r', rfl⟩ := ihl hl
      exact ⟨ctx ++ [⟨.left, c, b, r⟩], c', l', r', by rw [plug_append]; rfl⟩
    · rcases List.mem_cons.mp hr with rfl | hr
      · exact ⟨[], c, l, r, rfl⟩
      · obtain ⟨ctx, c', l', r', rfl⟩ := ihr hr
        exact ⟨ctx ++ [⟨.right, c, b, l⟩], c', l', r', by rw [plug_append]; rfl⟩

lemma before_append (ctx up : Ctx α) : before (ctx ++ up) = before up ++ before ctx := by
  induction ctx with
  | nil => simp [before]
  | cons k ctx ih =>
    obtain ⟨d, c, a, s⟩ := k
    cases d <;> simp [before, ih]

lemma after_append (ctx up : Ctx α) : after (ctx ++ up) = after ctx ++ after up := by
  induction ctx with
  | nil => simp [after]
  | cons k ctx ih =>
    obtain ⟨d, c, a, s⟩ := k
    cases d <;> simp [after, ih]

lemma mem_labels_append {ctx up : Ctx α} {b : α} :
    b ∈ labels (ctx ++ up) ↔ b ∈ labels ctx ∨ b ∈ labels up := by
  induction ctx with
  | nil => simp [labels, before, after]
  | cons k ctx ih => simp only [List.cons_append, mem_labels_cons, ih, or_assoc]

lemma elem_mem_labels {ctx : Ctx α} {k : Crumb α} (hk : k ∈ ctx) : k.elem ∈ labels ctx := by
  induction ctx with
  | nil => simp at hk
  | cons k' up ih =>
    rcases List.mem_cons.mp hk with rfl | hk
    · exact mem_labels_cons.mpr (.inl rfl)
    · exact mem_labels_cons.mpr (.inr (.inr (ih hk)))

/-- What a path turns right at bounds everything before the hole. -/
lemma before_le {β : Type} [Preorder β] {f : α → β} {ctx : Ctx α} {b : β}
    (hs : (before ctx).Pairwise fun a a' => f a ≤ f a')
    (hk : ∀ k ∈ ctx, k.dir = .right → f k.elem ≤ b) : ∀ a ∈ before ctx, f a ≤ b := by
  induction ctx with
  | nil => simp [before]
  | cons k up ih =>
    obtain ⟨d, c, e, s⟩ := k
    have hup : ∀ k ∈ up, k.dir = .right → f k.elem ≤ b := fun k hk' => hk k (.tail _ hk')
    cases d with
    | left => exact ih hs hup
    | right =>
      have he := hk _ (.head _) rfl
      simp only [before, List.append_assoc, List.pairwise_append] at hs
      obtain ⟨hs₁, ⟨-, -, hse⟩, -⟩ := hs
      intro a ha
      simp only [before, List.append_assoc, List.mem_append, List.mem_singleton] at ha
      rcases ha with ha | ha | rfl
      · exact ih hs₁ hup a ha
      · exact (hse a ha e (.head _)).trans he
      · exact he

/-- What a path turns left at bounds everything after the hole. -/
lemma lt_after {β : Type} [Preorder β] {f : α → β} {ctx : Ctx α} {b : β}
    (hs : (after ctx).Pairwise fun a a' => f a ≤ f a')
    (hk : ∀ k ∈ ctx, k.dir = .left → b < f k.elem) : ∀ a ∈ after ctx, b < f a := by
  induction ctx with
  | nil => simp [after]
  | cons k up ih =>
    obtain ⟨d, c, e, s⟩ := k
    have hup : ∀ k ∈ up, k.dir = .left → b < f k.elem := fun k hk' => hk k (.tail _ hk')
    cases d with
    | right => exact ih hs hup
    | left =>
      have he := hk _ (.head _) rfl
      simp only [after, List.cons_append, List.pairwise_cons, List.pairwise_append] at hs
      obtain ⟨hes, -, hs₁, -⟩ := hs
      intro a ha
      simp only [after, List.cons_append, List.mem_cons, List.mem_append] at ha
      rcases ha with rfl | ha | ha
      · exact he
      · exact he.trans_le (hes a (List.mem_append.mpr (.inl ha)))
      · exact ih hs₁ hup a ha

/-- Labels of a plugged tree are distinct when those of the parts are, and the parts are
disjoint. -/
lemma nodup_plug {ctx : Ctx α} {t : ColorTree α} :
    (ctx.plug t).toList.Nodup ↔
      (labels ctx).Nodup ∧ t.toList.Nodup ∧ ∀ b ∈ t.toList, b ∉ labels ctx := by
  simp only [toList_plug, labels, List.nodup_append, List.mem_append]
  grind

lemma nodup_labels_cons {k : Crumb α} {up : Ctx α} :
    (labels (k :: up)).Nodup ↔
      (labels up).Nodup ∧ k.sib.toList.Nodup ∧ k.elem ∉ k.sib.toList ∧
        k.elem ∉ labels up ∧ ∀ b ∈ k.sib.toList, b ∉ labels up := by
  obtain ⟨d, c, a, s⟩ := k
  cases d <;>
    simp only [labels, before, after, List.nodup_append, List.nodup_cons, List.mem_append,
      List.mem_cons] <;> grind

/-- `Fits ctx c n`: a red-black tree of black height `n` whose root has colour `c` may stand
in the hole of `ctx`. -/
def Fits : Ctx α → Color → ℕ → Prop
  | [], c, _ => c = .black
  | ⟨_, .red, _, s⟩ :: up, c, n =>
    c = .black ∧ RB s n ∧ s.color = .black ∧ Fits up .red n
  | ⟨_, .black, _, s⟩ :: up, _, n => RB s n ∧ Fits up .black (n + 1)

lemma fits_black_cons {d : Dir} {a : α} {s : ColorTree α} {up : Ctx α} {c : Color} {n : ℕ} :
    Fits (⟨d, .black, a, s⟩ :: up) c n ↔ RB s n ∧ Fits up .black (n + 1) := Iff.rfl

/-- A black subtree below a parent of either colour. -/
lemma fits_cons {d : Dir} {c : Color} {a : α} {s : ColorTree α} {up : Ctx α} {n : ℕ} :
    Fits (⟨d, c, a, s⟩ :: up) .black n ↔
      RB s n ∧ (c = .red → s.color = .black) ∧ Fits up c (n + c.weight) := by
  cases c <;> simp [Fits, Color.weight]

/-- Labels play no part in the red-black law. -/
lemma fits_relabel {ctx up : Ctx α} {d : Dir} {c c₁ : Color} {a b : α} {s : ColorTree α} {n : ℕ} :
    Fits (ctx ++ ⟨d, c, a, s⟩ :: up) c₁ n ↔ Fits (ctx ++ ⟨d, c, b, s⟩ :: up) c₁ n := by
  induction ctx generalizing c₁ n with
  | nil => cases c <;> rfl
  | cons k ctx ih =>
    obtain ⟨d', c', a', s'⟩ := k
    cases c' <;> simp only [List.cons_append, Fits, ih]

/-- Black fits wherever anything fits. -/
lemma Fits.black {ctx : Ctx α} {c : Color} {n : ℕ} (h : Fits ctx c n) :
    Fits ctx .black n := by
  match ctx with
  | [] => rfl
  | ⟨_, .red, _, _⟩ :: _ => exact ⟨rfl, h.2⟩
  | ⟨_, .black, _, _⟩ :: _ => exact h

/-- A fitting subtree makes the whole tree red-black with a black root. -/
lemma Fits.plug {ctx : Ctx α} {t : ColorTree α} {n : ℕ} (h : Fits ctx t.color n) (ht : RB t n) :
    ∃ N, RB (ctx.plug t) N ∧ (ctx.plug t).color = .black := by
  induction ctx generalizing t n with
  | nil => exact ⟨n, ht, h⟩
  | cons k up ih =>
    obtain ⟨d, c, a, s⟩ := k
    cases c with
    | red =>
      obtain ⟨hc, hs, hsc, hup⟩ := h
      exact ih (t := join d .red t a s) (n := n) (by simpa using hup)
        (rb_join_red.mpr ⟨ht, hs, hc, hsc⟩)
    | black =>
      obtain ⟨hs, hup⟩ := h
      exact ih (t := join d .black t a s) (n := n + 1) (by simpa using hup)
        (rb_join_black.mpr ⟨ht, hs⟩)

/-- Every subtree of a red-black tree with a black root fits its context. -/
lemma fits_of_plug {ctx : Ctx α} {t : ColorTree α} {N : ℕ} (h : RB (ctx.plug t) N)
    (hc : (ctx.plug t).color = .black) : ∃ n, Fits ctx t.color n ∧ RB t n := by
  induction ctx generalizing t with
  | nil => exact ⟨N, hc, h⟩
  | cons k up ih =>
    obtain ⟨d, c, a, s⟩ := k
    obtain ⟨n, hup, ht⟩ := ih (t := join d c t a s) h hc
    rw [color_join] at hup
    cases c with
    | red =>
      obtain ⟨ht, hs, htc, hsc⟩ := rb_join_red.mp ht
      exact ⟨n, ⟨htc, hs, hsc, hup⟩, ht⟩
    | black =>
      cases n with
      | zero => exact absurd ht not_rb_join_black_zero
      | succ n =>
        obtain ⟨ht, hs⟩ := rb_join_black.mp ht
        exact ⟨n, ⟨hs, hup⟩, ht⟩

end Ctx

end Libcn.Lib
