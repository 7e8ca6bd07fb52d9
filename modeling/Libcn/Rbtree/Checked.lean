import Libcn.Lib.Partial
import Libcn.Rbtree.Basic

/-!
# The tree functions with assertions

The functions of `rbtree.c` again, with what each access relies on asserted: a parent link that is
followed is not that of the root and leads to a node, and so do the links to the sibling `w` of the
fix-up loop and to the pivot of a rotation; and from one iteration of a loop to the next the current
node gets closer to the root. An assertion that fails is `none`, like the other faults.

Where these functions end, those without the assertions end in the same memory.
-/

namespace Libcn.Rbtree

open Libcn.Lib

variable {ι : Type} [DecidableEq ι]

namespace Mem

/-- `p->parent`, to be followed. -/
def up? (m : Mem ι) (p : Ptr ι) : Option (Ptr ι) :=
  if p = m.root then none
  else match m.parent? p with
    | some (.node i) => some (.node i)
    | _ => none

/-- `p->left` or `p->right`, where it has to be a node. -/
def childNode? (m : Mem ι) (d : Dir) (p : Ptr ι) : Option (Ptr ι) :=
  match m.child? d p with
  | some (.node i) => some (.node i)
  | _ => none

/-- The number of parent links from a pointer to the root. -/
def depth? (m : Mem ι) : ℕ → Ptr ι → Option ℕ
  | 0, _ => none
  | fuel + 1, p =>
    if p = m.root then some 0 else do
      let d ← depth? m fuel (← m.up? p)
      pure (d + 1)

/-- The current node of a loop is closer to the root than in the iteration before, if there was
one. Answers how close it is. -/
def closer? (m : Mem ι) (fuel : ℕ) (last : Option ℕ) (p : Ptr ι) : Option ℕ := do
  let d ← m.depth? fuel p
  if ∀ l ∈ last, d < l then pure d else none

@[simp] lemma up?_setColor (m : Mem ι) (p q : Ptr ι) (c : Color) :
    (m.setColor p c).up? q = m.up? q := by
  cases q <;> rfl

omit [DecidableEq ι] in
lemma childNode?_of_eq {m : Mem ι} {d : Dir} {i j : ι} (h : m.child d (.node i) = .node j) :
    m.childNode? d (.node i) = some (.node j) := by
  simp [childNode?, h]

lemma up?_within (m : Mem ι) (p : Ptr ι) : Within (m.up? p) (m.parent? p) := by
  unfold up?
  split
  · exact .none _
  · cases hq : m.parent? p with
    | none => exact .none _
    | some q => cases q <;> first | exact .none _ | exact .refl _

omit [DecidableEq ι] in
lemma childNode?_within (m : Mem ι) (d : Dir) (p : Ptr ι) :
    Within (m.childNode? d p) (m.child? d p) := by
  unfold childNode?
  cases hq : m.child? d p with
  | none => exact .none _
  | some q => cases q <;> first | exact .none _ | exact .refl _

end Mem

/-! ## Rotations -/

def relinkChecked (d : Dir) (m : Mem ι) (node temp : Ptr ι) : Option (Mem ι) := do
  if node = m.root then pure { m with root := temp }
  else if node = (← m.child? d (← m.up? node))
  then m.setChild? d (← m.up? node) temp
  else m.setChild? d.flip (← m.up? node) temp

def rotateChecked (d : Dir) (m : Mem ι) (node : Ptr ι) : Option (Mem ι) := do
  let temp ← m.childNode? d.flip node
  let m ← m.setChild? d.flip node (← m.child? d temp)
  let m ← if (← m.child? d temp) ≠ .sentinel
    then m.setParent? (← m.child? d temp) node
    else pure m
  let m ← m.setParent? temp (← m.parent? node)
  let m ← relinkChecked d m node temp
  let m ← m.setChild? d temp node
  m.setParent? node temp

/-! ## Insertion -/

/-- `insertFixup`. -/
def insertFixupChecked (d : Dir) (m : Mem ι) (node : Ptr ι) : Option (Mem ι × Ptr ι) := do
  let temp ← m.child? d.flip (← m.up? (← m.up? node))
  if ← m.isRed? temp then do
    let m ← m.setColor? (← m.up? node) .black
    let m ← m.setColor? temp .black
    let m ← m.setColor? (← m.up? (← m.up? node)) .red
    pure (m, ← m.up? (← m.up? node))
  else do
    let (m, node) ← if node = (← m.child? d.flip (← m.up? node))
      then do
        let node ← m.up? node
        pure (← rotateChecked d m node, node)
      else pure (m, node)
    let m ← m.setColor? (← m.up? node) .black
    let m ← m.setColor? (← m.up? (← m.up? node)) .red
    let m ← rotateChecked d.flip m (← m.up? (← m.up? node))
    pure (m, node)

/-- `insertLoop`; `last` is how close the node of the iteration before was to the root. -/
def insertLoopChecked : ℕ → Option ℕ → Mem ι → Ptr ι → Option (Mem ι)
  | 0, _, _, _ => none
  | fuel + 1, last, m, node => do
    if node = m.root then pure m
    else if ← m.isRed? (← m.up? node) then do
      let depth ← m.closer? (fuel + 1) last node
      let p ← m.up? node
      let d := if p = (← m.child? .left (← m.up? p)) then Dir.left else Dir.right
      let (m, node) ← insertFixupChecked d m node
      insertLoopChecked fuel (some depth) m node
    else pure m

/-- `rbtree_insert`. -/
def rbtreeInsertChecked (fuel : ℕ) (m : Mem ι) (node : Ptr ι) : Option (Mem ι) := do
  if m.root = .sentinel then do
    let m ← m.setParent? node .null
    let m ← m.setChild? .left node .sentinel
    let m ← m.setChild? .right node .sentinel
    let m ← m.setColor? node .black
    pure { m with root := node }
  else do
    let m ← m.callInsert fuel m.root node
    let m ← insertLoopChecked fuel none m node
    m.setColor? m.root .black

/-! ## Deletion -/

/-- `deleteReplace`. -/
def deleteReplaceChecked (m : Mem ι) (node subst : Ptr ι) : Option (Mem ι) := do
  let m ← m.setChild? .left subst (← m.child? .left node)
  let m ← m.setChild? .right subst (← m.child? .right node)
  let m ← m.setParent? subst (← m.parent? node)
  let m ← m.setColor? subst (if ← m.isRed? node then .red else .black)
  let m ← relinkChecked .left m node subst
  let m ← if (← m.child? .left subst) ≠ .sentinel
    then m.setParent? (← m.child? .left subst) subst
    else pure m
  if (← m.child? .right subst) ≠ .sentinel
    then m.setParent? (← m.child? .right subst) subst
    else pure m

/-- `deleteUnlink`. -/
def deleteUnlinkChecked (m : Mem ι) (node temp subst : Ptr ι) : Option (Mem ι) := do
  let m ← if subst = (← m.child? .left (← m.up? subst))
    then m.setChild? .left (← m.up? subst) temp
    else m.setChild? .right (← m.up? subst) temp
  if subst = node then m.setParent? temp (← m.parent? subst)
  else do
    let m ← if (← m.parent? subst) = node
      then m.setParent? temp subst
      else m.setParent? temp (← m.parent? subst)
    deleteReplaceChecked m node subst

/-- `deleteFixupSibling`: the sibling it answers is a node. -/
def deleteFixupSiblingChecked (d : Dir) (m : Mem ι) (temp w : Ptr ι) :
    Option (Mem ι × Ptr ι) := do
  if ← m.isRed? w then do
    let m ← m.setColor? w .black
    let m ← m.setColor? (← m.up? temp) .red
    let m ← rotateChecked d m (← m.up? temp)
    pure (m, ← m.childNode? d.flip (← m.up? temp))
  else pure (m, w)

/-- `deleteFixupInner`: the sibling it answers is a node. -/
def deleteFixupInnerChecked (d : Dir) (m : Mem ι) (temp w : Ptr ι) :
    Option (Mem ι × Ptr ι) := do
  if ← m.isRed? (← m.child? d.flip w) then pure (m, w)
  else do
    let m ← m.setColor? (← m.child? d w) .black
    let m ← m.setColor? w .red
    let m ← rotateChecked d.flip m w
    pure (m, ← m.childNode? d.flip (← m.up? temp))

/-- `deleteFixupOuter`. -/
def deleteFixupOuterChecked (d : Dir) (m : Mem ι) (temp w : Ptr ι) : Option (Mem ι) := do
  let m ← m.setColor? w (if ← m.isRed? (← m.up? temp) then .red else .black)
  let m ← m.setColor? (← m.up? temp) .black
  let m ← m.setColor? (← m.child? d.flip w) .black
  rotateChecked d m (← m.up? temp)

/-- `deleteFixupTail`. -/
def deleteFixupTailChecked (d : Dir) (m : Mem ι) (temp w : Ptr ι) : Option (Mem ι × Ptr ι) := do
  let red ← if ← m.isRed? (← m.child? .left w) then pure true
    else m.isRed? (← m.child? .right w)
  if !red then do
    let m ← m.setColor? w .red
    pure (m, ← m.up? temp)
  else do
    let (m, w) ← deleteFixupInnerChecked d m temp w
    let m ← deleteFixupOuterChecked d m temp w
    pure (m, m.root)

/-- `deleteFixup`: the sibling is a node from the start. -/
def deleteFixupChecked (d : Dir) (m : Mem ι) (temp : Ptr ι) : Option (Mem ι × Ptr ι) := do
  let w ← m.childNode? d.flip (← m.up? temp)
  let (m, w) ← deleteFixupSiblingChecked d m temp w
  deleteFixupTailChecked d m temp w

/-- `deleteLoop`; `last` is how close the `temp` of the iteration before was to the root. -/
def deleteLoopChecked : ℕ → Option ℕ → Mem ι → Ptr ι → Option (Mem ι)
  | 0, _, _, _ => none
  | fuel + 1, last, m, temp => do
    if temp = m.root then m.setColor? temp .black
    else if ← m.isRed? temp then m.setColor? temp .black
    else do
      let depth ← m.closer? (fuel + 1) last temp
      let d := if temp = (← m.child? .left (← m.up? temp)) then Dir.left else Dir.right
      let (m, temp) ← deleteFixupChecked d m temp
      deleteLoopChecked fuel (some depth) m temp

/-- `rbtree_delete`. -/
def rbtreeDeleteChecked (fuel : ℕ) (m : Mem ι) (node : Ptr ι) : Option (Mem ι) := do
  let (temp, subst) ← deletePick fuel m node
  if subst = m.root then do
    let m ← ({ m with root := temp } : Mem ι).setColor? temp .black
    deleteClear m node
  else do
    let red ← m.isRed? subst
    let m ← deleteUnlinkChecked m node temp subst
    let m ← deleteClear m node
    if red then pure m
    else deleteLoopChecked fuel none m temp

/-! ## The assertions erased -/

open Mem

lemma relinkChecked_within (d : Dir) (m : Mem ι) (node temp : Ptr ι) :
    Within (relinkChecked d m node temp) (relink d m node temp) := by
  unfold relinkChecked relink
  with_reducible repeat' first
    | exact .refl _
    | exact up?_within _ _
    | refine .ite ?_ ?_
    | refine .bind ?_ fun _ => ?_

lemma rotateChecked_within (d : Dir) (m : Mem ι) (node : Ptr ι) :
    Within (rotateChecked d m node) (rotate d m node) := by
  unfold rotateChecked rotate
  with_reducible repeat' first
    | exact .refl _
    | exact childNode?_within _ _ _
    | exact relinkChecked_within _ _ _ _
    | refine .ite ?_ ?_
    | refine .bind ?_ fun _ => ?_

lemma insertFixupChecked_within (d : Dir) (m : Mem ι) (node : Ptr ι) :
    Within (insertFixupChecked d m node) (insertFixup d m node) := by
  unfold insertFixupChecked insertFixup
  with_reducible repeat' first
    | exact .refl _
    | exact up?_within _ _
    | exact rotateChecked_within _ _ _
    | refine .ite ?_ ?_
    | refine .bind ?_ fun _ => ?_

lemma insertLoopChecked_within (fuel : ℕ) (last : Option ℕ) (m : Mem ι) (node : Ptr ι) :
    Within (insertLoopChecked fuel last m node) (insertLoop fuel m node) := by
  induction fuel generalizing last m node with
  | zero => exact .none _
  | succ fuel ih =>
    refine .ite (.refl _) (.bind (up?_within _ _) fun _ => .bind (.refl _) fun _ =>
      .ite (.after_check fun _ => ?_) (.refl _))
    exact .bind (up?_within _ _) fun _ => .bind (up?_within _ _) fun _ => .bind (.refl _) fun _ =>
      .bind (insertFixupChecked_within _ _ _) fun q => ih _ q.1 q.2

/-- Where the asserted insertion ends, `rbtree_insert` ends in the same memory. -/
theorem rbtreeInsertChecked_within (fuel : ℕ) (m : Mem ι) (node : Ptr ι) :
    Within (rbtreeInsertChecked fuel m node) (rbtreeInsert fuel m node) :=
  .ite (.refl _) (.bind (.refl _) fun _ => .bind (insertLoopChecked_within _ _ _ _) fun _ =>
    .refl _)

lemma deleteReplaceChecked_within (m : Mem ι) (node subst : Ptr ι) :
    Within (deleteReplaceChecked m node subst) (deleteReplace m node subst) := by
  unfold deleteReplaceChecked deleteReplace
  with_reducible repeat' first
    | exact .refl _
    | exact relinkChecked_within _ _ _ _
    | refine .ite ?_ ?_
    | refine .bind ?_ fun _ => ?_

lemma deleteUnlinkChecked_within (m : Mem ι) (node temp subst : Ptr ι) :
    Within (deleteUnlinkChecked m node temp subst) (deleteUnlink m node temp subst) := by
  unfold deleteUnlinkChecked deleteUnlink
  with_reducible repeat' first
    | exact .refl _
    | exact up?_within _ _
    | exact deleteReplaceChecked_within _ _ _
    | refine .ite ?_ ?_
    | refine .bind ?_ fun _ => ?_

lemma deleteFixupSiblingChecked_within (d : Dir) (m : Mem ι) (temp w : Ptr ι) :
    Within (deleteFixupSiblingChecked d m temp w) (deleteFixupSibling d m temp w) := by
  unfold deleteFixupSiblingChecked deleteFixupSibling
  with_reducible repeat' first
    | exact .refl _
    | exact up?_within _ _
    | exact childNode?_within _ _ _
    | exact rotateChecked_within _ _ _
    | refine .ite ?_ ?_
    | refine .bind ?_ fun _ => ?_

lemma deleteFixupInnerChecked_within (d : Dir) (m : Mem ι) (temp w : Ptr ι) :
    Within (deleteFixupInnerChecked d m temp w) (deleteFixupInner d m temp w) := by
  unfold deleteFixupInnerChecked deleteFixupInner
  with_reducible repeat' first
    | exact .refl _
    | exact up?_within _ _
    | exact childNode?_within _ _ _
    | exact rotateChecked_within _ _ _
    | refine .ite ?_ ?_
    | refine .bind ?_ fun _ => ?_

lemma deleteFixupOuterChecked_within (d : Dir) (m : Mem ι) (temp w : Ptr ι) :
    Within (deleteFixupOuterChecked d m temp w) (deleteFixupOuter d m temp w) := by
  unfold deleteFixupOuterChecked deleteFixupOuter
  with_reducible repeat' first
    | exact .refl _
    | exact up?_within _ _
    | exact rotateChecked_within _ _ _
    | refine .bind ?_ fun _ => ?_

lemma deleteFixupTailChecked_within (d : Dir) (m : Mem ι) (temp w : Ptr ι) :
    Within (deleteFixupTailChecked d m temp w) (deleteFixupTail d m temp w) := by
  unfold deleteFixupTailChecked deleteFixupTail
  with_reducible repeat' first
    | exact .refl _
    | exact up?_within _ _
    | exact deleteFixupInnerChecked_within _ _ _ _
    | exact deleteFixupOuterChecked_within _ _ _ _
    | refine .ite ?_ ?_
    | refine .bind ?_ fun _ => ?_

lemma deleteFixupChecked_within (d : Dir) (m : Mem ι) (temp : Ptr ι) :
    Within (deleteFixupChecked d m temp) (deleteFixup d m temp) :=
  .bind (up?_within _ _) fun _ => .bind (childNode?_within _ _ _) fun _ =>
    .bind (deleteFixupSiblingChecked_within _ _ _ _) fun q =>
      deleteFixupTailChecked_within d q.1 temp q.2

lemma deleteLoopChecked_within (fuel : ℕ) (last : Option ℕ) (m : Mem ι) (temp : Ptr ι) :
    Within (deleteLoopChecked fuel last m temp) (deleteLoop fuel m temp) := by
  induction fuel generalizing last m temp with
  | zero => exact .none _
  | succ fuel ih =>
    refine .ite (.refl _) (.bind (.refl _) fun _ => .ite (.refl _) (.after_check fun _ => ?_))
    exact .bind (up?_within _ _) fun _ => .bind (.refl _) fun _ =>
      .bind (deleteFixupChecked_within _ _ _) fun q => ih _ q.1 q.2

/-- Where the asserted deletion ends, `rbtree_delete` ends in the same memory. -/
theorem rbtreeDeleteChecked_within (fuel : ℕ) (m : Mem ι) (node : Ptr ι) :
    Within (rbtreeDeleteChecked fuel m node) (rbtreeDelete fuel m node) :=
  .bind (.refl _) fun _ => .ite (.refl _) (.bind (.refl _) fun _ =>
    .bind (deleteUnlinkChecked_within _ _ _ _) fun _ => .bind (.refl _) fun _ =>
      .ite (.refl _) (deleteLoopChecked_within _ _ _ _))

end Libcn.Rbtree
