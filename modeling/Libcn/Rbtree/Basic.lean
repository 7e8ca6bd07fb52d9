import Libcn.Lib.RedBlack
import Mathlib.Data.BitVec

/-!
# The red-black tree of `rbtree.c`

`rbtree_node_t` objects live in a memory indexed by pointers. A pointer is NULL, the tree's
sentinel, or a node. Reading or writing through NULL, and reading a field of the sentinel
that `rbtree_init` never sets (a child or the key), is a fault: the accessors answer `none`.

`left` and `right` are `child .left` and `child .right`: the two mirrored branches of the
source are one definition with a side as its parameter.

Loops take fuel; running out of it is `none` too.
-/

namespace Libcn.Rbtree

open Libcn.Lib

variable {ι : Type}

/-- A `rbtree_node_t *`. -/
inductive Ptr (ι : Type)
  | null
  | sentinel
  | node (i : ι)
  deriving DecidableEq, Repr

/-- The functions a tree can be initialised with. -/
inductive InsertPt
  | value
  | timerValue
  deriving DecidableEq, Repr

/-- `node->key < temp->key` as the insertion function computes it: unsigned, or by the sign
of the 64-bit difference. -/
def InsertPt.less : InsertPt → BitVec 64 → BitVec 64 → Bool
  | .value, k, t => decide (k < t)
  | .timerValue, k, t => decide ((k - t).toInt < 0)

/-- `rbtree_t` together with the fields of every node and of the sentinel. -/
structure Mem (ι : Type) where
  root : Ptr ι
  insert : InsertPt
  key : Ptr ι → BitVec 64
  child : Dir → Ptr ι → Ptr ι
  parent : Ptr ι → Ptr ι
  color : Ptr ι → Color

namespace Mem

/-- Static storage, before `rbtree_init`. -/
def zeroed : Mem ι := ⟨.null, .value, fun _ => 0, fun _ _ => .null, fun _ => .null, fun _ => .black⟩

/-! ## Memory accesses -/

/-- `p->key`. -/
def key? (m : Mem ι) : Ptr ι → Option (BitVec 64)
  | .node i => some (m.key (.node i))
  | _ => none

/-- `p->left` or `p->right`. -/
def child? (m : Mem ι) (d : Dir) : Ptr ι → Option (Ptr ι)
  | .node i => some (m.child d (.node i))
  | _ => none

/-- `p->parent`. -/
def parent? (m : Mem ι) : Ptr ι → Option (Ptr ι)
  | .null => none
  | p => some (m.parent p)

/-- `rbt_is_red(p)`. -/
def isRed? (m : Mem ι) : Ptr ι → Option Bool
  | .null => none
  | p => some (m.color p == .red)

@[simp] lemma child?_node (m : Mem ι) (d : Dir) (i : ι) :
    m.child? d (.node i) = some (m.child d (.node i)) := rfl
@[simp] lemma key?_node (m : Mem ι) (i : ι) : m.key? (.node i) = some (m.key (.node i)) := rfl
@[simp] lemma parent?_node (m : Mem ι) (i : ι) :
    m.parent? (.node i) = some (m.parent (.node i)) := rfl
@[simp] lemma isRed?_node (m : Mem ι) (i : ι) :
    m.isRed? (.node i) = some (m.color (.node i) == .red) := rfl

lemma parent?_of_ne (m : Mem ι) {p : Ptr ι} (h : p ≠ .null) : m.parent? p = some (m.parent p) := by
  cases p <;> simp_all [parent?]
lemma isRed?_of_ne (m : Mem ι) {p : Ptr ι} (h : p ≠ .null) :
    m.isRed? p = some (m.color p == .red) := by
  cases p <;> simp_all [isRed?]

variable [DecidableEq ι]

/-- `p->key = k`. -/
def setKey (m : Mem ι) (p : Ptr ι) (k : BitVec 64) : Mem ι :=
  { m with key := Function.update m.key p k }

/-- `p->left = v` or `p->right = v`, for a node `p`. -/
def setChild (m : Mem ι) (d : Dir) (p v : Ptr ι) : Mem ι :=
  { m with child := fun e q => if e = d ∧ q = p then v else m.child e q }

/-- `p->parent = v`, for a node or the sentinel. -/
def setParent (m : Mem ι) (p v : Ptr ι) : Mem ι :=
  { m with parent := Function.update m.parent p v }

/-- `rbt_red(p)` or `rbt_black(p)`. -/
def setColor (m : Mem ι) (p : Ptr ι) (c : Color) : Mem ι :=
  { m with color := Function.update m.color p c }

/-- `memset` of a node. -/
def zeroNode (m : Mem ι) (i : ι) : Mem ι where
  root := m.root
  insert := m.insert
  key := Function.update m.key (.node i) 0
  child d := Function.update (m.child d) (.node i) .null
  parent := Function.update m.parent (.node i) .null
  color := Function.update m.color (.node i) .black

/-- A checked write through a node pointer. -/
def setChild? (m : Mem ι) (d : Dir) : Ptr ι → Ptr ι → Option (Mem ι)
  | .node i, v => some (m.setChild d (.node i) v)
  | _, _ => none

def setParent? (m : Mem ι) : Ptr ι → Ptr ι → Option (Mem ι)
  | .null, _ => none
  | p, v => some (m.setParent p v)

def setColor? (m : Mem ι) : Ptr ι → Color → Option (Mem ι)
  | .null, _ => none
  | p, c => some (m.setColor p c)

/-! Reads over writes. -/

@[simp] lemma setChild?_node (m : Mem ι) (d : Dir) (i : ι) (v : Ptr ι) :
    m.setChild? d (.node i) v = some (m.setChild d (.node i) v) := rfl
@[simp] lemma setParent?_node (m : Mem ι) (i : ι) (v : Ptr ι) :
    m.setParent? (.node i) v = some (m.setParent (.node i) v) := rfl
@[simp] lemma setColor?_node (m : Mem ι) (i : ι) (c : Color) :
    m.setColor? (.node i) c = some (m.setColor (.node i) c) := rfl

lemma setParent?_of_ne (m : Mem ι) {p : Ptr ι} (h : p ≠ .null) (v : Ptr ι) :
    m.setParent? p v = some (m.setParent p v) := by
  cases p <;> simp_all [setParent?]
lemma setColor?_of_ne (m : Mem ι) {p : Ptr ι} (h : p ≠ .null) (c : Color) :
    m.setColor? p c = some (m.setColor p c) := by
  cases p <;> simp_all [setColor?]

@[simp] lemma child_setChild (m : Mem ι) (d e : Dir) (p q v : Ptr ι) :
    (m.setChild d p v).child e q = if e = d ∧ q = p then v else m.child e q := rfl
@[simp] lemma parent_setChild (m : Mem ι) (d : Dir) (p v : Ptr ι) :
    (m.setChild d p v).parent = m.parent := rfl
@[simp] lemma color_setChild (m : Mem ι) (d : Dir) (p v : Ptr ι) :
    (m.setChild d p v).color = m.color := rfl
@[simp] lemma key_setChild (m : Mem ι) (d : Dir) (p v : Ptr ι) :
    (m.setChild d p v).key = m.key := rfl
@[simp] lemma root_setChild (m : Mem ι) (d : Dir) (p v : Ptr ι) :
    (m.setChild d p v).root = m.root := rfl
@[simp] lemma insert_setChild (m : Mem ι) (d : Dir) (p v : Ptr ι) :
    (m.setChild d p v).insert = m.insert := rfl

@[simp] lemma parent_setParent (m : Mem ι) (p q v : Ptr ι) :
    (m.setParent p v).parent q = if q = p then v else m.parent q := by
  simp [setParent, Function.update_apply]
@[simp] lemma child_setParent (m : Mem ι) (p v : Ptr ι) :
    (m.setParent p v).child = m.child := rfl
@[simp] lemma color_setParent (m : Mem ι) (p v : Ptr ι) :
    (m.setParent p v).color = m.color := rfl
@[simp] lemma key_setParent (m : Mem ι) (p v : Ptr ι) : (m.setParent p v).key = m.key := rfl
@[simp] lemma root_setParent (m : Mem ι) (p v : Ptr ι) : (m.setParent p v).root = m.root := rfl
@[simp] lemma insert_setParent (m : Mem ι) (p v : Ptr ι) :
    (m.setParent p v).insert = m.insert := rfl

@[simp] lemma color_setColor (m : Mem ι) (p q : Ptr ι) (c : Color) :
    (m.setColor p c).color q = if q = p then c else m.color q := by
  simp [setColor, Function.update_apply]
@[simp] lemma child_setColor (m : Mem ι) (p : Ptr ι) (c : Color) :
    (m.setColor p c).child = m.child := rfl
@[simp] lemma parent_setColor (m : Mem ι) (p : Ptr ι) (c : Color) :
    (m.setColor p c).parent = m.parent := rfl
@[simp] lemma key_setColor (m : Mem ι) (p : Ptr ι) (c : Color) : (m.setColor p c).key = m.key := rfl
@[simp] lemma root_setColor (m : Mem ι) (p : Ptr ι) (c : Color) :
    (m.setColor p c).root = m.root := rfl
@[simp] lemma insert_setColor (m : Mem ι) (p : Ptr ι) (c : Color) :
    (m.setColor p c).insert = m.insert := rfl

end Mem

variable [DecidableEq ι]

/-- `rbtree_init`: only the sentinel's colour is set; its other fields keep what they held. -/
def rbtreeInit (m : Mem ι) (i : InsertPt) : Mem ι :=
  { m.setColor .sentinel .black with root := .sentinel, insert := i }

/-- `rbtree_min`. -/
def rbtreeMin (m : Mem ι) : ℕ → Ptr ι → Option (Ptr ι)
  | 0, _ => none
  | fuel + 1, node => do
    let l ← m.child? .left node
    if l = .sentinel then pure node
    else rbtreeMin m fuel l

/-! ## Rotations -/

/-- The branch of the rotations and of `rbtree_delete` that makes whatever points down to
`node` point to `temp`. -/
def relink (d : Dir) (m : Mem ι) (node temp : Ptr ι) : Option (Mem ι) := do
  if node = m.root then pure { m with root := temp }
  else if node = (← m.child? d (← m.parent? node))
  then m.setChild? d (← m.parent? node) temp
  else m.setChild? d.flip (← m.parent? node) temp

/-- `rbtree_left_rotate` for `d = left`, `rbtree_right_rotate` for `d = right`: the child of
`node` on the other side of `d` takes its place, and `node` becomes its child on side `d`. -/
def rotate (d : Dir) (m : Mem ι) (node : Ptr ι) : Option (Mem ι) := do
  let temp ← m.child? d.flip node
  let m ← m.setChild? d.flip node (← m.child? d temp)
  let m ← if (← m.child? d temp) ≠ .sentinel
    then m.setParent? (← m.child? d temp) node
    else pure m
  let m ← m.setParent? temp (← m.parent? node)
  let m ← relink d m node temp
  let m ← m.setChild? d temp node
  m.setParent? node temp

def rbtreeLeftRotate (m : Mem ι) (node : Ptr ι) : Option (Mem ι) := rotate .left m node

def rbtreeRightRotate (m : Mem ι) (node : Ptr ι) : Option (Mem ι) := rotate .right m node

/-! ## Insertion -/

/-- The loop of the insertion functions from `temp` down, and the link it ends with. -/
def descend (less : BitVec 64 → BitVec 64 → Bool) :
    ℕ → Mem ι → Ptr ι → Ptr ι → Option (Mem ι)
  | 0, _, _, _ => none
  | fuel + 1, m, temp, node => do
    let d := if less (← m.key? node) (← m.key? temp) then Dir.left else Dir.right
    let p ← m.child? d temp
    if p = .sentinel then do
      let m ← m.setChild? d temp node
      let m ← m.setParent? node temp
      let m ← m.setChild? .left node .sentinel
      let m ← m.setChild? .right node .sentinel
      m.setColor? node .red
    else descend less fuel m p node

def rbtreeInsertValue (fuel : ℕ) (m : Mem ι) (temp node : Ptr ι) : Option (Mem ι) :=
  descend (InsertPt.less .value) fuel m temp node

def rbtreeInsertTimerValue (fuel : ℕ) (m : Mem ι) (temp node : Ptr ι) : Option (Mem ι) :=
  descend (InsertPt.less .timerValue) fuel m temp node

/-- `tree->insert(temp, node, sentinel)`. -/
def Mem.callInsert (fuel : ℕ) (m : Mem ι) (temp node : Ptr ι) : Option (Mem ι) :=
  match m.insert with
  | .value => rbtreeInsertValue fuel m temp node
  | .timerValue => rbtreeInsertTimerValue fuel m temp node

/-- One iteration of the loop of `rbtree_insert` when the parent of `node` is the child of
its own parent on side `d`. Answers the new `node`. -/
def insertFixup (d : Dir) (m : Mem ι) (node : Ptr ι) : Option (Mem ι × Ptr ι) := do
  let temp ← m.child? d.flip (← m.parent? (← m.parent? node))
  if ← m.isRed? temp then do
    let m ← m.setColor? (← m.parent? node) .black
    let m ← m.setColor? temp .black
    let m ← m.setColor? (← m.parent? (← m.parent? node)) .red
    pure (m, ← m.parent? (← m.parent? node))
  else do
    let (m, node) ← if node = (← m.child? d.flip (← m.parent? node))
      then do
        let node ← m.parent? node
        pure (← rotate d m node, node)
      else pure (m, node)
    let m ← m.setColor? (← m.parent? node) .black
    let m ← m.setColor? (← m.parent? (← m.parent? node)) .red
    let m ← rotate d.flip m (← m.parent? (← m.parent? node))
    pure (m, node)

/-- The loop of `rbtree_insert`. -/
def insertLoop : ℕ → Mem ι → Ptr ι → Option (Mem ι)
  | 0, _, _ => none
  | fuel + 1, m, node => do
    if node = m.root then pure m
    else if ← m.isRed? (← m.parent? node) then do
      let p ← m.parent? node
      let d := if p = (← m.child? .left (← m.parent? p)) then Dir.left else Dir.right
      let (m, node) ← insertFixup d m node
      insertLoop fuel m node
    else pure m

/-- `rbtree_insert`. -/
def rbtreeInsert (fuel : ℕ) (m : Mem ι) (node : Ptr ι) : Option (Mem ι) := do
  if m.root = .sentinel then do
    let m ← m.setParent? node .null
    let m ← m.setChild? .left node .sentinel
    let m ← m.setChild? .right node .sentinel
    let m ← m.setColor? node .black
    pure { m with root := node }
  else do
    let m ← m.callInsert fuel m.root node
    let m ← insertLoop fuel m node
    m.setColor? m.root .black

/-! ## Deletion -/

/-- The node `subst` that leaves its place, and the node `temp` that takes it. -/
def deletePick (fuel : ℕ) (m : Mem ι) (node : Ptr ι) : Option (Ptr ι × Ptr ι) := do
  if (← m.child? .left node) = .sentinel then
    pure (← m.child? .right node, node)
  else if (← m.child? .right node) = .sentinel then
    pure (← m.child? .left node, node)
  else do
    let subst ← rbtreeMin m fuel (← m.child? .right node)
    if (← m.child? .left subst) ≠ .sentinel
      then pure (← m.child? .left subst, subst)
      else pure (← m.child? .right subst, subst)

/-- The assignments under `DEBUG stuff`. -/
def deleteClear (m : Mem ι) (node : Ptr ι) : Option (Mem ι) := do
  let m ← m.setChild? .left node .null
  let m ← m.setChild? .right node .null
  let m ← m.setParent? node .null
  pure (m.setKey node 0)

/-- `subst` takes the place, the links and the colour of `node`. -/
def deleteReplace (m : Mem ι) (node subst : Ptr ι) : Option (Mem ι) := do
  let m ← m.setChild? .left subst (← m.child? .left node)
  let m ← m.setChild? .right subst (← m.child? .right node)
  let m ← m.setParent? subst (← m.parent? node)
  let m ← m.setColor? subst (if ← m.isRed? node then .red else .black)
  let m ← relink .left m node subst
  let m ← if (← m.child? .left subst) ≠ .sentinel
    then m.setParent? (← m.child? .left subst) subst
    else pure m
  if (← m.child? .right subst) ≠ .sentinel
    then m.setParent? (← m.child? .right subst) subst
    else pure m

/-- `temp` takes the place of `subst`, and `subst` the place of `node`. -/
def deleteUnlink (m : Mem ι) (node temp subst : Ptr ι) : Option (Mem ι) := do
  let m ← if subst = (← m.child? .left (← m.parent? subst))
    then m.setChild? .left (← m.parent? subst) temp
    else m.setChild? .right (← m.parent? subst) temp
  if subst = node then m.setParent? temp (← m.parent? subst)
  else do
    let m ← if (← m.parent? subst) = node
      then m.setParent? temp subst
      else m.setParent? temp (← m.parent? subst)
    deleteReplace m node subst

/-- The red sibling case of the fix-up loop, and the sibling `w` after it. -/
def deleteFixupSibling (d : Dir) (m : Mem ι) (temp w : Ptr ι) : Option (Mem ι × Ptr ι) := do
  if ← m.isRed? w then do
    let m ← m.setColor? w .black
    let m ← m.setColor? (← m.parent? temp) .red
    let m ← rotate d m (← m.parent? temp)
    pure (m, ← m.child? d.flip (← m.parent? temp))
  else pure (m, w)

/-- The case of a black outer nephew, and the sibling `w` after it. -/
def deleteFixupInner (d : Dir) (m : Mem ι) (temp w : Ptr ι) : Option (Mem ι × Ptr ι) := do
  if ← m.isRed? (← m.child? d.flip w) then pure (m, w)
  else do
    let m ← m.setColor? (← m.child? d w) .black
    let m ← m.setColor? w .red
    let m ← rotate d.flip m w
    pure (m, ← m.child? d.flip (← m.parent? temp))

/-- The last case: the sibling takes the colour and the place of the parent. -/
def deleteFixupOuter (d : Dir) (m : Mem ι) (temp w : Ptr ι) : Option (Mem ι) := do
  let m ← m.setColor? w (if ← m.isRed? (← m.parent? temp) then .red else .black)
  let m ← m.setColor? (← m.parent? temp) .black
  let m ← m.setColor? (← m.child? d.flip w) .black
  rotate d m (← m.parent? temp)

/-- The rest of an iteration, with a black sibling `w`. Answers the new `temp`. -/
def deleteFixupTail (d : Dir) (m : Mem ι) (temp w : Ptr ι) : Option (Mem ι × Ptr ι) := do
  let red ← if ← m.isRed? (← m.child? .left w) then pure true
    else m.isRed? (← m.child? .right w)
  if !red then do
    let m ← m.setColor? w .red
    pure (m, ← m.parent? temp)
  else do
    let (m, w) ← deleteFixupInner d m temp w
    let m ← deleteFixupOuter d m temp w
    pure (m, m.root)

/-- One iteration of the fix-up loop of `rbtree_delete` when `temp` is the child of its
parent on side `d`. Answers the new `temp`. -/
def deleteFixup (d : Dir) (m : Mem ι) (temp : Ptr ι) : Option (Mem ι × Ptr ι) := do
  let w ← m.child? d.flip (← m.parent? temp)
  let (m, w) ← deleteFixupSibling d m temp w
  deleteFixupTail d m temp w

/-- The fix-up loop of `rbtree_delete`. -/
def deleteLoop : ℕ → Mem ι → Ptr ι → Option (Mem ι)
  | 0, _, _ => none
  | fuel + 1, m, temp => do
    if temp = m.root then m.setColor? temp .black
    else if ← m.isRed? temp then m.setColor? temp .black
    else do
      let d := if temp = (← m.child? .left (← m.parent? temp)) then Dir.left else Dir.right
      let (m, temp) ← deleteFixup d m temp
      deleteLoop fuel m temp

/-- `rbtree_delete`. -/
def rbtreeDelete (fuel : ℕ) (m : Mem ι) (node : Ptr ι) : Option (Mem ι) := do
  let (temp, subst) ← deletePick fuel m node
  if subst = m.root then do
    let m ← ({ m with root := temp } : Mem ι).setColor? temp .black
    deleteClear m node
  else do
    let red ← m.isRed? subst
    let m ← deleteUnlink m node temp subst
    let m ← deleteClear m node
    if red then pure m
    else deleteLoop fuel m temp

end Libcn.Rbtree
