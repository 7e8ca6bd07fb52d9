import Mathlib.Data.List.Nodup
import Mathlib.Logic.Function.Basic
import Mathlib.Logic.Relation

/-!
# Rings of links

Circular doubly linked lists with a head node each, threaded through one memory of `prev` and
`next` links, and the list of nodes each ring holds.
-/

namespace Libcn.Lib

variable {α κ : Type}

/-- The links of every node. `none` is NULL. -/
structure Links (α : Type) where
  prev : α → Option α
  next : α → Option α

namespace Links

/-- `x->prev = v`. -/
def setPrev [DecidableEq α] (m : Links α) (x : α) (v : Option α) : Links α :=
  { m with prev := Function.update m.prev x v }

/-- `x->next = v`. -/
def setNext [DecidableEq α] (m : Links α) (x : α) (v : Option α) : Links α :=
  { m with next := Function.update m.next x v }

/-! ## Segments -/

/-- `b` follows `a`. -/
def Linked (m : Links α) (a b : α) : Prop := m.next a = some b ∧ m.prev b = some a

/-- Following `next` from `a` visits `l` and then `b`, and `prev` leads back. -/
def Seg (m : Links α) : α → List α → α → Prop
  | a, [], b => m.Linked a b
  | a, x :: l, b => m.Linked a x ∧ Seg m x l b

/-- The memories have the same links outside the nodes `l`. -/
def SameOutside (l : List α) (m m' : Links α) : Prop :=
  ∀ y, y ∉ l → m'.next y = m.next y ∧ m'.prev y = m.prev y

variable {m m' : Links α} {a b h x : α} {l l₁ l₂ : List α}

lemma seg_append : m.Seg a (l₁ ++ x :: l₂) b ↔ m.Seg a l₁ x ∧ m.Seg x l₂ b := by
  induction l₁ generalizing a with
  | nil => rfl
  | cons y l₁ ih => rw [List.cons_append, Seg, Seg, ih, and_assoc]

/-- A segment depends on the `next` links of its nodes but the last, and on the `prev` links of
its nodes but the first. -/
lemma Seg.congr (hs : m.Seg a l b) (hnext : ∀ y ∈ a :: l, m'.next y = m.next y)
    (hprev : ∀ y ∈ l ++ [b], m'.prev y = m.prev y) : m'.Seg a l b := by
  induction l generalizing a with
  | nil =>
    exact ⟨(hnext a (.head _)).trans hs.1, (hprev b (.head _)).trans hs.2⟩
  | cons x l ih =>
    refine ⟨⟨(hnext a (.head _)).trans hs.1.1, (hprev x (.head _)).trans hs.1.2⟩, ?_⟩
    exact ih hs.2 (fun y hy => hnext y (.tail _ hy)) fun y hy => hprev y (.tail _ hy)

/-- A ring outside the changed nodes stays. -/
lemma Seg.outside {c : List α} (hs : m.Seg h l h) (hsame : SameOutside c m m')
    (hc : ∀ y ∈ h :: l, y ∉ c) : m'.Seg h l h := by
  refine hs.congr (fun y hy => (hsame y (hc y hy)).1) fun y hy => (hsame y (hc y ?_)).2
  rcases List.mem_append.mp hy with hy | hy
  · exact .tail _ hy
  · exact List.mem_singleton.mp hy ▸ .head _

/-- The last node of a segment before its end. -/
lemma Seg.prev_end (hs : m.Seg a l b) : ∃ p ∈ a :: l, m.prev b = some p := by
  induction l generalizing a with
  | nil => exact ⟨a, .head _, hs.2⟩
  | cons x l ih =>
    obtain ⟨p, hp, hb⟩ := ih hs.2
    exact ⟨p, .tail _ hp, hb⟩

/-- The first node of a segment after its start. -/
lemma Seg.next_start (hs : m.Seg a l b) : ∃ y ∈ l ++ [b], m.next a = some y := by
  cases l with
  | nil => exact ⟨b, .head _, hs.1⟩
  | cons x l => exact ⟨x, .head _, hs.1.1⟩

/-- The node after one of a segment. -/
lemma Seg.next_mem {y z : α} (hs : m.Seg a l b) (hy : y ∈ a :: l) (hz : m.next y = some z) :
    z ∈ l ++ [b] := by
  induction l generalizing a with
  | nil =>
    obtain rfl := List.mem_singleton.mp hy
    obtain rfl : b = z := Option.some.inj (hs.1.symm.trans hz)
    exact .head _
  | cons x l ih =>
    rcases List.mem_cons.mp hy with rfl | hy
    · obtain rfl : x = z := Option.some.inj (hs.1.1.symm.trans hz)
      exact .head _
    · exact .tail _ (ih hs.2 hy)

/-- Following `next` from the head of a ring leads to its nodes. -/
lemma Seg.reaches_iff (hs : m.Seg h l h) :
    Relation.ReflTransGen (fun a b => m.next a = some b) h x ↔ x ∈ h :: l := by
  constructor
  · intro hr
    induction hr with
    | refl => exact .head _
    | tail _ hnext ih =>
      rcases List.mem_append.mp (hs.next_mem ih hnext) with hl | hh
      · exact .tail _ hl
      · exact List.mem_singleton.mp hh ▸ .head _
  · have along : ∀ a b, m.Seg a l b → ∀ y ∈ l,
        Relation.ReflTransGen (fun a b => m.next a = some b) a y := by
      clear hs
      induction l with
      | nil => exact fun _ _ _ _ hy => absurd hy List.not_mem_nil
      | cons z l ih =>
        intro a b hseg y hy
        rcases List.mem_cons.mp hy with rfl | hy
        · exact .single hseg.1.1
        · exact .head hseg.1.1 (ih z b hseg.2 y hy)
    intro hx
    rcases List.mem_cons.mp hx with rfl | hx
    · exact .refl
    · exact along h h hs x hx

/-- The end of a segment is moved to another node. -/
lemma Seg.retarget {p q : α} (hs : m.Seg a l b) (hnodup : (a :: l).Nodup)
    (hp : m.prev b = some p) (hnext : ∀ y ∈ a :: l, y ≠ p → m'.next y = m.next y)
    (hprev : ∀ y ∈ l, m'.prev y = m.prev y) (hpq : m'.next p = some q)
    (hqp : m'.prev q = some p) : m'.Seg a l q := by
  induction l generalizing a with
  | nil =>
    obtain rfl : a = p := Option.some.inj (hs.2.symm.trans hp)
    exact ⟨hpq, hqp⟩
  | cons x l ih =>
    obtain ⟨p', hp', hb⟩ := hs.2.prev_end
    obtain rfl : p' = p := Option.some.inj (hb.symm.trans hp)
    have hne : a ≠ p' := fun e => (List.nodup_cons.mp hnodup).1 (e ▸ hp')
    refine ⟨⟨(hnext a (.head _) hne).trans hs.1.1, (hprev x (.head _)).trans hs.1.2⟩, ?_⟩
    exact ih hs.2 (List.nodup_cons.mp hnodup).2 (fun y hy => hnext y (.tail _ hy))
      fun y hy => hprev y (.tail _ hy)

/-- The links between neighbours of a segment. -/
lemma Seg.linked_getElem? {i : ℕ} {y : α} (hs : m.Seg a l b) (hx : l[i]? = some x)
    (hy : l[i + 1]? = some y) : m.Linked x y := by
  induction l generalizing a i with
  | nil => simp at hx
  | cons z l ih =>
    cases i with
    | zero =>
      obtain rfl : z = x := by simpa using hx
      cases l with
      | nil => simp at hy
      | cons w l =>
        obtain rfl : w = y := by simpa using hy
        exact hs.2.1
    | succ i => exact ih hs.2 (by simpa using hx) (by simpa using hy)

/-- The last node of a ring. -/
lemma Seg.last (hs : m.Seg h (l ++ [x]) h) : m.prev h = some x := (seg_append.mp hs).2.2

/-- A ring read from another of its nodes. -/
lemma Seg.rotate (hs : m.Seg h (l₁ ++ a :: l₂) h) : m.Seg a (l₂ ++ h :: l₁) a :=
  seg_append.mpr (seg_append.mp hs).symm

/-- A ring is read the same way back and forth. -/
lemma Seg.isEmpty_iff (hs : m.Seg h l h) (hnodup : (h :: l).Nodup) :
    m.prev h = some h ↔ l = [] := by
  obtain ⟨p, hp, hh⟩ := hs.prev_end
  rw [hh, Option.some.injEq]
  constructor
  · rintro rfl
    cases l with
    | nil => rfl
    | cons x l =>
      obtain ⟨p', hp', hh'⟩ := hs.2.prev_end
      obtain rfl : p' = p := Option.some.inj (hh'.symm.trans hh)
      exact absurd hp' (List.nodup_cons.mp hnodup).1
  · rintro rfl
    exact List.mem_singleton.mp hp

/-! ## Several rings in one memory -/

/-- The ring with the head `h` holds the nodes `l` if `Q h = some l`, and no ring is there if
`Q h = none`; the rings share no node. -/
structure Rings (m : Links α) (Q : α → Option (List α)) : Prop where
  seg : ∀ {h l}, Q h = some l → m.Seg h l h
  nodup : ∀ {h l}, Q h = some l → (h :: l).Nodup
  apart : ∀ {h h' l l'}, Q h = some l → Q h' = some l' → h ≠ h' → ∀ y ∈ h :: l, y ∉ h' :: l'

/-- The node is in no ring. -/
def Unlinked (Q : α → Option (List α)) (x : α) : Prop := ∀ {h l}, Q h = some l → x ∉ h :: l

namespace Rings

variable {Q Q' : α → Option (List α)} {c : List α}

/-- Links are changed at the nodes `c`: each ring is an old one away from them, or a new one made
of them. -/
lemma replace (hr : Rings m Q) (hsame : SameOutside c m m')
    (hrings : ∀ {h l}, Q' h = some l → (Q h = some l ∧ ∀ y ∈ h :: l, y ∉ c) ∨
      (m'.Seg h l h ∧ (h :: l).Nodup ∧ ∀ y ∈ h :: l, y ∈ c))
    (hnew : ∀ {h h' l l'}, Q' h = some l → Q' h' = some l' → h ≠ h' → h ∈ c → h' ∈ c →
      ∀ y ∈ h :: l, y ∉ h' :: l') : Rings m' Q' where
  seg hq := by
    rcases hrings hq with ⟨hold, hc⟩ | ⟨hseg, -, -⟩
    · exact (hr.seg hold).outside hsame hc
    · exact hseg
  nodup hq := by
    rcases hrings hq with ⟨hold, -⟩ | ⟨-, hnodup, -⟩
    · exact hr.nodup hold
    · exact hnodup
  apart hq hq' hne y hy hy' := by
    rcases hrings hq with ⟨hold, hc⟩ | ⟨-, -, hc⟩
    · rcases hrings hq' with ⟨hold', -⟩ | ⟨-, -, hc'⟩
      · exact hr.apart hold hold' hne y hy hy'
      · exact hc y hy (hc' y hy')
    · rcases hrings hq' with ⟨-, hc'⟩ | ⟨-, -, hc'⟩
      · exact hc' y hy' (hc y hy)
      · exact hnew hq hq' hne (hc _ (.head _)) (hc' _ (.head _)) y hy hy'

/-- Changes outside all rings keep them. -/
lemma outside (hr : Rings m Q) (hsame : SameOutside c m m') (hc : ∀ y ∈ c, Unlinked Q y) :
    Rings m' Q :=
  { hr with seg := fun hq => (hr.seg hq).outside hsame fun y hy hyc => hc y hyc hq hy }

/-- The ring of a node is unique. -/
lemma head_unique (hr : Rings m Q) (h₁ h₂ : α) (hq₁ : Q h₁ = some l₁) (hq₂ : Q h₂ = some l₂)
    (hx₁ : x ∈ h₁ :: l₁) (hx₂ : x ∈ h₂ :: l₂) : h₁ = h₂ := by
  by_contra hne
  exact hr.apart hq₁ hq₂ hne x hx₁ hx₂

/-- One ring is changed, within its own nodes and nodes of no ring. -/
lemma update [DecidableEq α] {l' : List α} (hr : Rings m Q) (hq : Q h = some l)
    (hsame : SameOutside c m m') (hc : ∀ y ∈ c, y ∈ h :: l ∨ Unlinked Q y)
    (hseg : m'.Seg h l' h) (hnodup : (h :: l').Nodup) (hsub : ∀ y ∈ h :: l', y ∈ c) :
    Rings m' (Function.update Q h (some l')) := by
  refine hr.replace hsame ?_ ?_
  · intro h' k hk
    by_cases hh : h' = h
    · subst hh
      rw [Function.update_self] at hk
      obtain rfl := Option.some.inj hk
      exact .inr ⟨hseg, hnodup, hsub⟩
    · rw [Function.update_of_ne hh] at hk
      refine .inl ⟨hk, fun y hy hyc => ?_⟩
      rcases hc y hyc with hyl | hyu
      · exact hr.apart hk hq hh y hy hyl
      · exact hyu hk hy
  · intro h₁ h₂ k₁ k₂ hk₁ hk₂ hne hc₁ hc₂
    -- a head among the changed nodes is `h` itself
    have hhead : ∀ {h' k}, Function.update Q h (some l') h' = some k → h' ∈ c → h' = h := by
      intro h' k hk hh
      by_contra hne
      rw [Function.update_of_ne hne] at hk
      rcases hc h' hh with hyl | hyu
      · exact hr.apart hk hq hne h' (.head _) hyl
      · exact hyu hk (.head _)
    exact absurd ((hhead hk₁ hc₁).trans (hhead hk₂ hc₂).symm) hne

end Rings

end Links

end Libcn.Lib
