import Libcn.Rbtree.Basic

/-!
# The tree operations and the keys

The links and the colours that `rbtree_insert` and `rbtree_delete` write do not depend on the keys
but for the comparisons on the way down. So a memory with other keys, under which these come out
the same, ends up with the same links and colours.
-/

namespace Libcn.Rbtree

open Libcn.Lib

variable {ι : Type}

namespace Mem

/-- The memory with other keys. -/
def withKey (m : Mem ι) (k : Ptr ι → BitVec 64) : Mem ι := { m with key := k }

variable (m : Mem ι) (k : Ptr ι → BitVec 64)

@[simp] lemma root_withKey : (m.withKey k).root = m.root := rfl
@[simp] lemma withKey_withKey (k' : Ptr ι → BitVec 64) :
    (m.withKey k).withKey k' = m.withKey k' := rfl
@[simp] lemma withRoot_withKey (p : Ptr ι) :
    ({ m.withKey k with root := p } : Mem ι) = ({ m with root := p } : Mem ι).withKey k := rfl

@[simp] lemma child?_withKey (d : Dir) (p : Ptr ι) :
    (m.withKey k).child? d p = m.child? d p := by
  cases p <;> rfl

@[simp] lemma parent?_withKey (p : Ptr ι) : (m.withKey k).parent? p = m.parent? p := by
  cases p <;> rfl

@[simp] lemma isRed?_withKey (p : Ptr ι) : (m.withKey k).isRed? p = m.isRed? p := by
  cases p <;> rfl

variable [DecidableEq ι]

@[simp] lemma setKey_withKey (p : Ptr ι) (key : BitVec 64) :
    (m.withKey k).setKey p key = (m.setKey p key).withKey (Function.update k p key) := rfl

@[simp] lemma setChild_withKey (d : Dir) (p v : Ptr ι) :
    (m.withKey k).setChild d p v = (m.setChild d p v).withKey k := rfl
@[simp] lemma setParent_withKey (p v : Ptr ι) :
    (m.withKey k).setParent p v = (m.setParent p v).withKey k := rfl
@[simp] lemma setColor_withKey (p : Ptr ι) (c : Color) :
    (m.withKey k).setColor p c = (m.setColor p c).withKey k := rfl

@[simp] lemma setChild?_withKey (d : Dir) (p v : Ptr ι) :
    (m.withKey k).setChild? d p v = (m.setChild? d p v).map (·.withKey k) := by
  cases p <;> rfl

@[simp] lemma setParent?_withKey (p v : Ptr ι) :
    (m.withKey k).setParent? p v = (m.setParent? p v).map (·.withKey k) := by
  cases p <;> rfl

@[simp] lemma setColor?_withKey (p : Ptr ι) (c : Color) :
    (m.withKey k).setColor? p c = (m.setColor? p c).map (·.withKey k) := by
  cases p <;> rfl

end Mem

lemma map_ite {α β : Type} (f : α → β) (c : Prop) [Decidable c] (x y : Option α) :
    (if c then x else y).map f = if c then x.map f else y.map f := apply_ite (Option.map f) c x y

variable [DecidableEq ι] {m : Mem ι} {k : Ptr ι → BitVec 64}

lemma rbtreeMin_withKey (fuel : ℕ) (node : Ptr ι) :
    rbtreeMin (m.withKey k) fuel node = rbtreeMin m fuel node := by
  induction fuel generalizing node with
  | zero => rfl
  | succ fuel ih => simp [rbtreeMin, ih]

/-! ## Rotations -/

lemma relink_withKey (d : Dir) (node temp : Ptr ι) :
    relink d (m.withKey k) node temp = (relink d m node temp).map (·.withKey k) := by
  simp [relink, Option.map_bind, map_ite]

lemma rotate_withKey (d : Dir) (node : Ptr ι) :
    rotate d (m.withKey k) node = (rotate d m node).map (·.withKey k) := by
  simp [rotate, Option.map_bind, Option.bind_map, map_ite, relink_withKey]

/-! ## Insertion -/

lemma insertFixup_withKey (d : Dir) (node : Ptr ι) :
    insertFixup d (m.withKey k) node = (insertFixup d m node).map (Prod.map (·.withKey k) id) := by
  simp [insertFixup, Option.map_bind, Option.bind_map, map_ite, rotate_withKey]

lemma insertLoop_withKey (fuel : ℕ) (node : Ptr ι) :
    insertLoop fuel (m.withKey k) node = (insertLoop fuel m node).map (·.withKey k) := by
  induction fuel generalizing m node with
  | zero => rfl
  | succ fuel ih =>
    simp [insertLoop, Option.map_bind, Option.bind_map, map_ite, insertFixup_withKey, ih]

/-- The way down is the same where the node compares the same with the nodes it meets. -/
lemma descend_withKey {less : BitVec 64 → BitVec 64 → Bool} {S : ι → Prop} {x : ι}
    (hS : ∀ i, S i → ∀ d j, m.child d (.node i) = .node j → S j)
    (hless : ∀ i, S i →
      less (k (.node x)) (k (.node i)) = less (m.key (.node x)) (m.key (.node i)))
    (fuel : ℕ) {temp : Ptr ι} (htemp : ∀ i, temp = .node i → S i) :
    descend less fuel (m.withKey k) temp (.node x) =
      (descend less fuel m temp (.node x)).map (·.withKey k) := by
  induction fuel generalizing temp with
  | zero => rfl
  | succ fuel ih =>
    cases temp with
    | null => rfl
    | sentinel => rfl
    | node i =>
      have hi := htemp i rfl
      have hnext := fun d => ih (hS i hi d)
      have hchild : (m.withKey k).child = m.child := rfl
      have hkey : (m.withKey k).key = k := rfl
      simp [descend, hchild, hkey, hless i hi, hnext, map_ite]

/-- `rbtree_insert` leaves the same links and colours where the new node compares the same. -/
lemma rbtreeInsert_withKey {S : ι → Prop} {x : ι} (hroot : ∀ i, m.root = .node i → S i)
    (hS : ∀ i, S i → ∀ d j, m.child d (.node i) = .node j → S j)
    (hless : ∀ i, S i → m.insert.less (k (.node x)) (k (.node i)) =
      m.insert.less (m.key (.node x)) (m.key (.node i))) (fuel : ℕ) :
    rbtreeInsert fuel (m.withKey k) (.node x) =
      (rbtreeInsert fuel m (.node x)).map (·.withKey k) := by
  have hcall : (m.withKey k).callInsert fuel m.root (.node x) =
      (m.callInsert fuel m.root (.node x)).map (·.withKey k) := by
    have hinsert : (m.withKey k).insert = m.insert := rfl
    unfold Mem.callInsert
    rw [hinsert]
    cases hi : m.insert <;> rw [hi] at hless <;> exact descend_withKey hS hless fuel hroot
  simp [rbtreeInsert, hcall, Option.map_bind, Option.bind_map, Function.comp_def, map_ite,
    insertLoop_withKey]
  rfl

/-! ## Deletion -/

lemma deletePick_withKey (fuel : ℕ) (node : Ptr ι) :
    deletePick fuel (m.withKey k) node = deletePick fuel m node := by
  simp [deletePick, rbtreeMin_withKey]

lemma deleteClear_withKey (node : Ptr ι) : deleteClear (m.withKey k) node =
    (deleteClear m node).map (·.withKey (Function.update k node 0)) := by
  simp [deleteClear, Option.map_bind, Option.bind_map, Function.comp_def]

lemma deleteReplace_withKey (node subst : Ptr ι) :
    deleteReplace (m.withKey k) node subst = (deleteReplace m node subst).map (·.withKey k) := by
  simp [deleteReplace, Option.map_bind, Option.bind_map, map_ite, relink_withKey]

lemma deleteUnlink_withKey (node temp subst : Ptr ι) :
    deleteUnlink (m.withKey k) node temp subst =
      (deleteUnlink m node temp subst).map (·.withKey k) := by
  simp [deleteUnlink, Option.map_bind, Option.bind_map, map_ite, deleteReplace_withKey]

lemma deleteFixupSibling_withKey (d : Dir) (temp w : Ptr ι) :
    deleteFixupSibling d (m.withKey k) temp w =
      (deleteFixupSibling d m temp w).map (Prod.map (·.withKey k) id) := by
  simp [deleteFixupSibling, Option.map_bind, Option.bind_map, map_ite, rotate_withKey]

lemma deleteFixupInner_withKey (d : Dir) (temp w : Ptr ι) :
    deleteFixupInner d (m.withKey k) temp w =
      (deleteFixupInner d m temp w).map (Prod.map (·.withKey k) id) := by
  simp [deleteFixupInner, Option.map_bind, Option.bind_map, map_ite, rotate_withKey]

lemma deleteFixupOuter_withKey (d : Dir) (temp w : Ptr ι) :
    deleteFixupOuter d (m.withKey k) temp w =
      (deleteFixupOuter d m temp w).map (·.withKey k) := by
  simp [deleteFixupOuter, Option.map_bind, Option.bind_map, rotate_withKey]

lemma deleteFixup_withKey (d : Dir) (temp : Ptr ι) :
    deleteFixup d (m.withKey k) temp = (deleteFixup d m temp).map (Prod.map (·.withKey k) id) := by
  simp [deleteFixup, deleteFixupTail, Option.map_bind, Option.bind_map, Function.comp_def, map_ite,
    deleteFixupSibling_withKey, deleteFixupInner_withKey, deleteFixupOuter_withKey]

lemma deleteLoop_withKey (fuel : ℕ) (temp : Ptr ι) :
    deleteLoop fuel (m.withKey k) temp = (deleteLoop fuel m temp).map (·.withKey k) := by
  induction fuel generalizing m temp with
  | zero => rfl
  | succ fuel ih =>
    simp [deleteLoop, Option.map_bind, Option.bind_map, map_ite, deleteFixup_withKey, ih]

/-- `rbtree_delete` leaves the same links and colours, whatever the keys, and clears a key. -/
lemma rbtreeDelete_withKey (fuel : ℕ) (node : Ptr ι) : rbtreeDelete fuel (m.withKey k) node =
    (rbtreeDelete fuel m node).map (·.withKey (Function.update k node 0)) := by
  unfold rbtreeDelete
  rw [deletePick_withKey]
  rcases deletePick fuel m node with _ | ⟨temp, subst⟩
  · rfl
  · by_cases hroot : subst = m.root
    · simp [hroot, Option.map_bind, Option.bind_map, deleteClear_withKey]
    · simp [hroot, Option.map_bind, Option.bind_map, map_ite, deleteClear_withKey,
        deleteUnlink_withKey, deleteLoop_withKey]

end Libcn.Rbtree
