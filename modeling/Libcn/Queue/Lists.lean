import Libcn.Queue.Basic
import Mathlib.Data.Fintype.Basic

/-!
# The queue macros refine list operations

Over a collection of disjoint queues each macro does to the links what a list operation does to
the node sequences.
-/

namespace Libcn.Queue

open Libcn.Lib Libcn.Lib.Links

variable {α : Type} [DecidableEq α]

/-! ## Runs -/

/-- One use of a macro. -/
inductive QueueOp (α : Type)
  | init (q : α)
  | insertHead (h x : α)
  | insertTail (h x : α)
  | insertAfter (a x : α)
  | remove (x : α)
  | split (h q n : α)
  | add (h n : α)
  deriving DecidableEq, Repr

/-- The effect on the links. -/
def QueueOp.run (m : Links α) : QueueOp α → Option (Links α)
  | .init q => some (queueInit m q)
  | .insertHead h x => queueInsertHead m h x
  | .insertTail h x => queueInsertTail m h x
  | .insertAfter a x => queueInsertAfter m a x
  | .remove x => queueRemove m x
  | .split h q n => queueSplit m h q n
  | .add h n => queueAdd m h n

/-- The list with `x` behind `a`. -/
def insertBehind (a x : α) (l : List α) : List α := l.flatMap fun y => if y = a then [y, x] else [y]

/-- The effect on the node sequences: `Q h` is the sequence of the queue with the sentinel `h`,
if there is one. -/
def QueueOp.lists (Q : α → Option (List α)) : QueueOp α → α → Option (List α)
  | .init q => Function.update Q q (some [])
  | .insertHead h x => Function.update Q h ((Q h).map (x :: ·))
  | .insertTail h x => Function.update Q h ((Q h).map (· ++ [x]))
  | .insertAfter a x => fun h => (Q h).map fun l => if h = a then x :: l else insertBehind a x l
  | .remove x => fun h => (Q h).map (·.erase x)
  | .split h q n => Function.update
      (Function.update Q n ((Q h).map fun l => l.dropWhile (· ≠ q))) h
      ((Q h).map fun l => l.takeWhile (· ≠ q))
  | .add h n => Function.update (Function.update Q h ((Q h).map (· ++ (Q n).getD []))) n none

/-- Sentinels and nodes that come in are unlinked, and those that are named otherwise belong to
a queue. -/
def QueueOp.Allowed (Q : α → Option (List α)) : QueueOp α → Prop
  | .init q => Unlinked Q q
  | .insertHead h x | .insertTail h x => Q h ≠ none ∧ Unlinked Q x
  | .insertAfter a x => (∃ h l, Q h = some l ∧ a ∈ h :: l) ∧ Unlinked Q x
  | .remove x => ∃ h l, Q h = some l ∧ x ∈ l
  | .split h q n => (∃ l, Q h = some l ∧ q ∈ l) ∧ Unlinked Q n
  | .add h n => Q h ≠ none ∧ Q n ≠ none ∧ h ≠ n

/-- The queues a macro names. -/
def QueueOp.Names (Q : α → Option (List α)) (g : α) : QueueOp α → Prop
  | .init q => g = q
  | .insertHead h _ | .insertTail h _ => g = h
  | .insertAfter a _ => ∃ l, Q g = some l ∧ a ∈ g :: l
  | .remove x => ∃ l, Q g = some l ∧ x ∈ l
  | .split h _ n | .add h n => g = h ∨ g = n

/-- A sequence of allowed uses. -/
def AllowedRun (Q : α → Option (List α)) : List (QueueOp α) → Prop
  | [] => True
  | op :: ops => op.Allowed Q ∧ AllowedRun (op.lists Q) ops

/-- The links after a sequence of uses. -/
def runOps (m : Links α) (ops : List (QueueOp α)) : Option (Links α) := ops.foldlM QueueOp.run m

/-- The node sequences after it. -/
def listsAfter (Q : α → Option (List α)) (ops : List (QueueOp α)) : α → Option (List α) :=
  ops.foldl QueueOp.lists Q

/-! ## One macro -/

/-- The queues the macro does not name keep their nodes and their links. -/
def Untouched (Q : α → Option (List α)) (op : QueueOp α) (m m' : Links α) : Prop :=
  ∀ g l, Q g = some l → ¬ op.Names Q g →
    op.lists Q g = some l ∧ ∀ y ∈ g :: l, m'.next y = m.next y ∧ m'.prev y = m.prev y

/-- What a macro guarantees. -/
def Refines (Q : α → Option (List α)) (m : Links α) (op : QueueOp α) : Prop :=
  ∃ m', op.run m = some m' ∧ Rings m' (op.lists Q) ∧ Untouched Q op m m'

variable {Q : α → Option (List α)} {m m' : Links α}

omit [DecidableEq α] in
/-- Nodes of a queue away from the changed ones keep their links. -/
lemma links_of_sameOutside {c : List α} {g : α} {l : List α} (hr : Rings m Q)
    (hq : Q g = some l) (hsame : SameOutside c m m')
    (hc : ∀ y ∈ c, Unlinked Q y ∨ ∃ h k, Q h = some k ∧ h ≠ g ∧ y ∈ h :: k) :
    ∀ y ∈ g :: l, m'.next y = m.next y ∧ m'.prev y = m.prev y := by
  intro y hy
  apply hsame
  intro hyc
  rcases hc y hyc with hu | ⟨h, k, hk, hne, hyk⟩
  · exact hu hq hy
  · exact hr.apart hk hq hne y hyk hy

/-- A change of one queue, within its own nodes and an unlinked node. -/
lemma refines_update {op : QueueOp α} {h x : α} {l l' : List α} (hr : Rings m Q)
    (hq : Q h = some l) (hx : Unlinked Q x ∨ x ∈ h :: l) (hrun : op.run m = some m')
    (hlists : op.lists Q = Function.update Q h (some l')) (hnames : op.Names Q h)
    (hseg : m'.Seg h l' h) (hsame : SameOutside (x :: h :: l) m m') (hnodup : (h :: l').Nodup)
    (hsub : ∀ y ∈ l', y ∈ x :: h :: l) : Refines Q m op := by
  have hc : ∀ y ∈ x :: h :: l, y ∈ h :: l ∨ Unlinked Q y := by
    intro y hy
    rcases List.mem_cons.mp hy with rfl | hy
    · exact hx.symm
    · exact .inl hy
  refine ⟨m', hrun, ?_, ?_⟩
  · rw [hlists]
    refine hr.update hq hsame hc hseg hnodup fun y hy => ?_
    rcases List.mem_cons.mp hy with rfl | hy
    · exact .tail _ (.head _)
    · exact hsub y hy
  · intro g k hk hg
    have hne : g ≠ h := by
      rintro rfl
      exact hg hnames
    refine ⟨by rw [hlists, Function.update_of_ne hne, hk], ?_⟩
    refine links_of_sameOutside hr hk hsame fun y hy => ?_
    rcases hc y hy with hy | hy
    · exact .inr ⟨h, l, hq, hne.symm, hy⟩
    · exact .inl hy

omit [DecidableEq α] in
/-- The nodes of a queue with one more. -/
lemma nodup_insert {h x : α} {l l' : List α} (hnodup : (h :: l).Nodup) (hx : x ∉ h :: l)
    (hp : l'.Perm (x :: l)) : (h :: l').Nodup := by
  have hswap : (h :: l').Perm (x :: h :: l) := (hp.cons h).trans (.swap x h l)
  exact hswap.nodup_iff.mpr (List.nodup_cons.mpr ⟨hx, hnodup⟩)

lemma insertBehind_of_notMem {a x : α} {l : List α} (ha : a ∉ l) : insertBehind a x l = l := by
  induction l with
  | nil => rfl
  | cons y l ih =>
    rw [List.mem_cons, not_or] at ha
    have ih := ih ha.2
    unfold insertBehind at ih ⊢
    rw [List.flatMap_cons, if_neg fun e => ha.1 e.symm, ih]
    rfl

lemma insertBehind_append {a x : α} {l₁ l₂ : List α} (hnodup : (l₁ ++ a :: l₂).Nodup) :
    insertBehind a x (l₁ ++ a :: l₂) = l₁ ++ a :: x :: l₂ := by
  obtain ⟨-, hn₂, hdisj⟩ := List.nodup_append.mp hnodup
  have h₁ := insertBehind_of_notMem (x := x) fun ha : a ∈ l₁ => hdisj a ha a (.head _) rfl
  have h₂ := insertBehind_of_notMem (x := x) (List.nodup_cons.mp hn₂).1
  unfold insertBehind at h₁ h₂ ⊢
  rw [List.flatMap_append, List.flatMap_cons, h₁, h₂, if_pos rfl]
  rfl

/-- A queue without the node `x` is not changed by erasing it. -/
lemma erase_update {x h : α} {l : List α} (hr : Rings m Q) (hq : Q h = some l) (hx : x ∈ l) :
    (QueueOp.remove x).lists Q = Function.update Q h (some (l.erase x)) := by
  funext g
  by_cases hg : g = h
  · subst hg
    simp [QueueOp.lists, hq]
  · rw [Function.update_of_ne hg]
    cases hk : Q g with
    | none => simp [QueueOp.lists, hk]
    | some k =>
      have hxk : x ∉ k := fun e => hr.apart hk hq hg x (.tail _ e) (.tail _ hx)
      simp [QueueOp.lists, hk, List.erase_of_not_mem hxk]

lemma insertAfter_update {a x h : α} {l l' : List α} (hr : Rings m Q) (hq : Q h = some l)
    (ha : a ∈ h :: l) (hl : (if h = a then x :: l else insertBehind a x l) = l') :
    (QueueOp.insertAfter a x).lists Q = Function.update Q h (some l') := by
  funext g
  by_cases hg : g = h
  · subst hg
    simp [QueueOp.lists, hq, hl]
  · rw [Function.update_of_ne hg]
    cases hk : Q g with
    | none => simp [QueueOp.lists, hk]
    | some k =>
      have hak : a ∉ g :: k := fun e => hr.apart hk hq hg a e ha
      rw [List.mem_cons, not_or] at hak
      simp [QueueOp.lists, hk, Ne.symm hak.1, insertBehind_of_notMem hak.2]

/-- Splitting a list in front of a node. -/
lemma takeWhile_dropWhile_of_nodup {q : α} {l₁ l₂ : List α} (hnodup : (l₁ ++ q :: l₂).Nodup) :
    (l₁ ++ q :: l₂).takeWhile (· ≠ q) = l₁ ∧ (l₁ ++ q :: l₂).dropWhile (· ≠ q) = q :: l₂ := by
  have hq : ∀ y ∈ l₁, decide (y ≠ q) = true := by
    intro y hy
    obtain ⟨-, -, hdisj⟩ := List.nodup_append.mp hnodup
    exact decide_eq_true (hdisj y hy q (.head _))
  constructor
  · rw [List.takeWhile_append_of_pos hq]
    simp
  · rw [List.dropWhile_append_of_pos hq]
    simp

/-- `queue_init` on an unlinked sentinel makes an empty queue. -/
lemma refines_init {q : α} (hr : Rings m Q) (hu : Unlinked Q q) : Refines Q m (.init q) := by
  obtain ⟨hseg, hsame⟩ := queueInit_seg m q
  have hc : ∀ y ∈ [q], Unlinked Q y := by
    intro y hy
    exact List.mem_singleton.mp hy ▸ hu
  refine ⟨_, rfl, ?_, ?_⟩
  · refine hr.replace hsame ?_ ?_
    · intro h l hl
      by_cases hh : h = q
      · subst hh
        simp only [QueueOp.lists, Function.update_self, Option.some.injEq] at hl
        subst hl
        exact .inr ⟨hseg, by simp, fun y hy => hy⟩
      · simp only [QueueOp.lists, Function.update_of_ne hh] at hl
        exact .inl ⟨hl, fun y hy hyq => hc y hyq hl hy⟩
    · intro h h' l l' _ _ hne hh hh'
      exact absurd ((List.mem_singleton.mp hh).trans (List.mem_singleton.mp hh').symm) hne
  · intro g l hl hg
    refine ⟨?_, links_of_sameOutside hr hl hsame fun y hy => .inl (hc y hy)⟩
    simp only [QueueOp.lists]
    rw [Function.update_of_ne hg, hl]

/-- `queue_split` makes two queues of one. -/
lemma refines_split {h q n : α} {l : List α} (hr : Rings m Q) (hq : Q h = some l) (hql : q ∈ l)
    (hu : Unlinked Q n) : Refines Q m (.split h q n) := by
  obtain ⟨l₁, l₂, rfl⟩ := List.append_of_mem hql
  have hnodup := hr.nodup hq
  have hnl : n ∉ h :: (l₁ ++ q :: l₂) := hu hq
  have hhn : h ≠ n := fun e => hnl (e ▸ .head _)
  obtain ⟨m', hrun, hs₁, hs₂, hsame⟩ := queueSplit_seg (hr.seg hq) hnodup hnl
  obtain ⟨htake, hdrop⟩ := takeWhile_dropWhile_of_nodup (List.nodup_cons.mp hnodup).2
  have hlists : (QueueOp.split h q n).lists Q =
      Function.update (Function.update Q n (some (q :: l₂))) h (some l₁) := by
    simp only [QueueOp.lists, hq, Option.map_some, htake, hdrop]
  have hnodup' : (h :: l₁ ++ q :: l₂).Nodup := hnodup
  obtain ⟨hn₁, hn₂, hdisj⟩ := List.nodup_append.mp hnodup'
  have hnl' : n ∉ (h :: l₁) ++ (q :: l₂) := hnl
  rw [List.mem_append, not_or] at hnl'
  have hc : ∀ y ∈ n :: h :: (l₁ ++ q :: l₂), Unlinked Q y ∨ y ∈ h :: (l₁ ++ q :: l₂) := by
    intro y hy
    rcases List.mem_cons.mp hy with rfl | hy
    · exact .inl hu
    · exact .inr hy
  -- the two queues are disjoint
  have hapart : ∀ y ∈ n :: q :: l₂, y ∉ h :: l₁ := by
    intro y hy hy'
    rcases List.mem_cons.mp hy with rfl | hy
    · exact hnl'.1 hy'
    · exact hdisj y hy' y hy rfl
  refine ⟨m', hrun, ?_, ?_⟩
  · rw [hlists]
    refine hr.replace hsame ?_ ?_
    · intro g k hk
      by_cases hgh : g = h
      · subst hgh
        rw [Function.update_self, Option.some.injEq] at hk
        subst hk
        refine .inr ⟨hs₁, hn₁, fun y hy => .tail _ ?_⟩
        exact List.mem_append_left (q :: l₂) hy
      rw [Function.update_of_ne hgh] at hk
      by_cases hgn : g = n
      · subst hgn
        rw [Function.update_self, Option.some.injEq] at hk
        subst hk
        refine .inr ⟨hs₂, List.nodup_cons.mpr ⟨hnl'.2, hn₂⟩, fun y hy => ?_⟩
        rcases List.mem_cons.mp hy with rfl | hy
        · exact .head _
        · exact .tail _ (.tail _ (List.mem_append_right _ hy))
      · rw [Function.update_of_ne hgn] at hk
        refine .inl ⟨hk, fun y hy hyc => ?_⟩
        rcases hc y hyc with hyu | hyl
        · exact hyu hk hy
        · exact hr.apart hk hq hgh y hy hyl
    · intro g g' k k' hk hk' hne hg hg'
      -- both heads are among the two sentinels
      have hhead : ∀ {g k}, Function.update (Function.update Q n (some (q :: l₂))) h (some l₁) g =
          some k → g ∈ n :: h :: (l₁ ++ q :: l₂) →
          g = h ∧ k = l₁ ∨ g = n ∧ k = q :: l₂ := by
        intro g k hk hg
        by_cases hgh : g = h
        · subst hgh
          rw [Function.update_self, Option.some.injEq] at hk
          exact .inl ⟨rfl, hk.symm⟩
        rw [Function.update_of_ne hgh] at hk
        by_cases hgn : g = n
        · subst hgn
          rw [Function.update_self, Option.some.injEq] at hk
          exact .inr ⟨rfl, hk.symm⟩
        · rw [Function.update_of_ne hgn] at hk
          rcases hc g hg with hyu | hyl
          · exact absurd (.head _) (hyu hk)
          · exact absurd hyl (hr.apart hk hq hgh g (.head _))
      rcases hhead hk hg with ⟨rfl, rfl⟩ | ⟨rfl, rfl⟩ <;>
        rcases hhead hk' hg' with ⟨rfl, rfl⟩ | ⟨rfl, rfl⟩
      · exact absurd rfl hne
      · exact fun y hy hy' => hapart y hy' hy
      · exact hapart
      · exact absurd rfl hne
  · intro g k hk hg
    obtain ⟨hgh, hgn⟩ := not_or.mp hg
    refine ⟨by rw [hlists, Function.update_of_ne hgh, Function.update_of_ne hgn, hk], ?_⟩
    refine links_of_sameOutside hr hk hsame fun y hy => ?_
    rcases hc y hy with hyu | hyl
    · exact .inl hyu
    · exact .inr ⟨h, _, hq, fun e => hgh e.symm, hyl⟩

/-- `queue_add` makes one queue of two. -/
lemma refines_add {h n : α} {l k : List α} (hr : Rings m Q) (hq : Q h = some l)
    (hk : Q n = some k) (hhn : h ≠ n) : Refines Q m (.add h n) := by
  have hdisj := hr.apart hq hk hhn
  obtain ⟨m', hrun, hs, hsame⟩ :=
    queueAdd_seg (hr.seg hq) (hr.seg hk) (hr.nodup hq) (hr.nodup hk) hdisj
  have hlists : (QueueOp.add h n).lists Q =
      Function.update (Function.update Q h (some (l ++ k))) n none := by
    simp only [QueueOp.lists, hq, hk, Option.map_some, Option.getD_some]
  have hc : ∀ y ∈ h :: l ++ n :: k, y ∈ h :: l ∨ y ∈ n :: k := fun y hy => List.mem_append.mp hy
  refine ⟨m', hrun, ?_, ?_⟩
  · rw [hlists]
    refine hr.replace hsame ?_ ?_
    · intro g j hj
      by_cases hgn : g = n
      · subst hgn
        rw [Function.update_self] at hj
        cases hj
      rw [Function.update_of_ne hgn] at hj
      by_cases hgh : g = h
      · subst hgh
        rw [Function.update_self, Option.some.injEq] at hj
        subst hj
        refine .inr ⟨hs, ?_, fun y hy => ?_⟩
        · have hn₂ := (List.nodup_cons.mp (hr.nodup hk)).2
          rw [← List.cons_append]
          refine List.nodup_append.mpr ⟨hr.nodup hq, hn₂, ?_⟩
          rintro y hy z hz rfl
          exact hdisj y hy (.tail _ hz)
        · rcases List.mem_append.mp (show y ∈ (g :: l) ++ k from hy) with hy | hy
          · exact List.mem_append_left _ hy
          · exact List.mem_append_right _ (.tail _ hy)
      · rw [Function.update_of_ne hgh] at hj
        refine .inl ⟨hj, fun y hy hyc => ?_⟩
        rcases hc y hyc with hyl | hyk
        · exact hr.apart hj hq hgh y hy hyl
        · exact hr.apart hj hk hgn y hy hyk
    · intro g g' j j' hj hj' hne hg hg'
      have hhead : ∀ {g j}, Function.update (Function.update Q h (some (l ++ k))) n none g =
          some j → g ∈ h :: l ++ n :: k → g = h := by
        intro g j hj hg
        by_cases hgn : g = n
        · subst hgn
          rw [Function.update_self] at hj
          cases hj
        rw [Function.update_of_ne hgn] at hj
        by_contra hgh
        rw [Function.update_of_ne hgh] at hj
        rcases hc g hg with hyl | hyk
        · exact hr.apart hj hq hgh g (.head _) hyl
        · exact hr.apart hj hk hgn g (.head _) hyk
      exact absurd ((hhead hj hg).trans (hhead hj' hg').symm) hne
  · intro g j hj hg
    obtain ⟨hgh, hgn⟩ := not_or.mp hg
    refine ⟨by rw [hlists, Function.update_of_ne hgn, Function.update_of_ne hgh, hj], ?_⟩
    refine links_of_sameOutside hr hj hsame fun y hy => ?_
    rcases hc y hy with hyl | hyk
    · exact .inr ⟨h, l, hq, fun e => hgh e.symm, hyl⟩
    · exact .inr ⟨n, k, hk, fun e => hgn e.symm, hyk⟩

/-- One allowed use of a macro does to the links what the list operation does to the node
sequences. -/
theorem refines_step (hr : Rings m Q) (op : QueueOp α) (hop : op.Allowed Q) :
    Refines Q m op := by
  cases op with
  | init q => exact refines_init hr hop
  | insertHead h x =>
    obtain ⟨l, hq⟩ := Option.ne_none_iff_exists'.mp hop.1
    have hx := hop.2 hq
    obtain ⟨m', hrun, hs, hsame⟩ := queueInsertHead_seg (hr.seg hq) (hr.nodup hq) hx
    refine refines_update hr hq (.inl hop.2) hrun (by simp [QueueOp.lists, hq]) rfl hs hsame
      (nodup_insert (hr.nodup hq) hx (.refl _)) fun y hy => ?_
    exact (List.mem_cons.mp hy).elim (fun e => e ▸ .head _) fun hy => .tail _ (.tail _ hy)
  | insertTail h x =>
    obtain ⟨l, hq⟩ := Option.ne_none_iff_exists'.mp hop.1
    have hx := hop.2 hq
    have hp : (l ++ [x]).Perm (x :: l) := List.perm_append_singleton x l
    obtain ⟨m', hrun, hs, hsame⟩ := queueInsertTail_seg (hr.seg hq) (hr.nodup hq) hx
    refine refines_update hr hq (.inl hop.2) hrun (by simp [QueueOp.lists, hq]) rfl hs hsame
      (nodup_insert (hr.nodup hq) hx hp) fun y hy => ?_
    exact (List.mem_cons.mp (hp.mem_iff.mp hy)).elim (fun e => e ▸ .head _)
      fun hy => .tail _ (.tail _ hy)
  | insertAfter a x =>
    obtain ⟨⟨h, l, hq, ha⟩, hu⟩ := hop
    have hx := hu hq
    have hnodup := hr.nodup hq
    have hnames : (QueueOp.insertAfter a x).Names Q h := ⟨l, hq, ha⟩
    by_cases hha : h = a
    · subst hha
      obtain ⟨m', hrun, hs, hsame⟩ := queueInsertHead_seg (hr.seg hq) hnodup hx
      refine refines_update hr hq (.inl hu) hrun (insertAfter_update hr hq ha (if_pos rfl)) hnames
        hs hsame (nodup_insert hnodup hx (.refl _)) fun y hy => ?_
      exact (List.mem_cons.mp hy).elim (fun e => e ▸ .head _) fun hy => .tail _ (.tail _ hy)
    · obtain ⟨l₁, l₂, rfl⟩ := List.append_of_mem ((List.mem_cons.mp ha).resolve_left (Ne.symm hha))
      have hp : (l₁ ++ a :: x :: l₂).Perm (x :: (l₁ ++ a :: l₂)) :=
        ((List.Perm.swap x a l₂).append_left l₁).trans List.perm_middle
      obtain ⟨m', hrun, hs, hsame⟩ := queueInsertAfter_seg (hr.seg hq) hnodup hx
      have hbehind := insertBehind_append (x := x) (List.nodup_cons.mp hnodup).2
      refine refines_update hr hq (.inl hu) hrun
        (insertAfter_update hr hq ha ((if_neg hha).trans hbehind)) hnames hs hsame
        (nodup_insert hnodup hx hp) fun y hy => ?_
      exact (List.mem_cons.mp (hp.mem_iff.mp hy)).elim (fun e => e ▸ .head _)
        fun hy => .tail _ (.tail _ hy)
  | remove x =>
    obtain ⟨h, l, hq, hx⟩ := hop
    obtain ⟨m', hrun, hs, hsame⟩ := queueRemove_seg (hr.seg hq) (hr.nodup hq) hx
    refine refines_update (x := x) hr hq (.inr (.tail _ hx)) hrun (erase_update hr hq hx)
      ⟨l, hq, hx⟩ hs (fun y hy => hsame y fun e => hy (.tail _ e))
      ((hr.nodup hq).sublist (List.erase_sublist.cons_cons _)) fun y hy => ?_
    exact .tail _ (.tail _ (List.mem_of_mem_erase hy))
  | split h q n =>
    obtain ⟨⟨l, hq, hql⟩, hu⟩ := hop
    exact refines_split hr hq hql hu
  | add h n =>
    obtain ⟨l, hq⟩ := Option.ne_none_iff_exists'.mp hop.1
    obtain ⟨k, hk⟩ := Option.ne_none_iff_exists'.mp hop.2.1
    exact refines_add hr hq hk hop.2.2

/-! ## Whole runs -/

/-- The list law of a run: after every prefix of the run the links form the queues with the
sequences of the list operations, and what the next macro does not name stays. -/
theorem refines_run (hr : Rings m Q) {ops : List (QueueOp α)} (hops : AllowedRun Q ops) :
    ∃ m', runOps m ops = some m' ∧ Rings m' (listsAfter Q ops) := by
  induction ops generalizing m Q with
  | nil => exact ⟨m, rfl, hr⟩
  | cons op ops ih =>
    obtain ⟨m₁, hrun₁, hr₁, -⟩ := refines_step hr op hops.1
    obtain ⟨m', hrun, hr'⟩ := ih hr₁ hops.2
    refine ⟨m', ?_, hr'⟩
    rw [runOps, List.foldlM_cons, hrun₁]
    exact hrun

/-- Splitting a queue and adding the part again restores the sequences. -/
lemma split_add_lists {h q n : α} {l : List α} (hq : Q h = some l)
    (hu : Unlinked Q n) : listsAfter Q [.split h q n, .add h n] = Q := by
  have hhn : h ≠ n := fun e => hu hq (e ▸ .head _)
  have hn : Q n = none := by
    cases hk : Q n with
    | none => rfl
    | some k => exact absurd (.head _) (hu hk)
  funext g
  simp only [listsAfter, List.foldl_cons, List.foldl_nil, QueueOp.lists, hq, Option.map_some]
  by_cases hgn : g = n
  · subst hgn
    simp [hn]
  · by_cases hgh : g = h
    · subst hgh
      simp [hgn, Ne.symm hgn, hq, List.takeWhile_append_dropWhile]
    · simp [hgn, hgh]

/-- Following `link` from `a` visits `l` and then `b`. -/
def Follow (link : α → Option α) : α → List α → α → Prop
  | a, [], b => link a = some b
  | a, x :: l, b => link a = some x ∧ Follow link x l b

omit [DecidableEq α] in
lemma Follow.concat {link : α → Option α} {a x b : α} {l : List α} (h : Follow link a l x)
    (hx : link x = some b) : Follow link a (l ++ [x]) b := by
  induction l generalizing a with
  | nil => exact ⟨h, hx⟩
  | cons y l ih => exact ⟨h.1, ih h.2⟩

omit [DecidableEq α] in
/-- A segment read forwards and backwards. -/
lemma follow_of_seg {a b : α} {l : List α} (hs : m.Seg a l b) :
    Follow m.next a l b ∧ Follow m.prev b l.reverse a := by
  induction l generalizing a with
  | nil => exact hs
  | cons x l ih =>
    obtain ⟨hnext, hprev⟩ := ih hs.2
    rw [List.reverse_cons]
    exact ⟨⟨hs.1.1, hnext⟩, hprev.concat hs.1.2⟩

/-- **The queue macros refine list operations.** From disjoint queues, every allowed sequence of
macros ends without a fault in disjoint queues whose nodes are those of the list operations, in
both directions of the ring; each macro leaves the queues it does not name alone; and
`queue_split` followed by `queue_add` of the same sentinels restores the sequences. -/
theorem queue_refines_lists (hr : Rings m Q) (ops : List (QueueOp α)) (hops : AllowedRun Q ops) :
    ∃ m', runOps m ops = some m' ∧ Rings m' (listsAfter Q ops) ∧
      (∀ h l, listsAfter Q ops h = some l → Follow m'.next h l h ∧ Follow m'.prev h l.reverse h) ∧
      (∀ op, op.Allowed (listsAfter Q ops) → Refines (listsAfter Q ops) m' op) ∧
      ∀ h q n l, listsAfter Q ops h = some l → q ∈ l → Unlinked (listsAfter Q ops) n →
        ∃ m'', runOps m' [.split h q n, .add h n] = some m'' ∧ Rings m'' (listsAfter Q ops) := by
  obtain ⟨m', hrun, hr'⟩ := refines_run hr hops
  refine ⟨m', hrun, hr', fun h l hq => follow_of_seg (hr'.seg hq),
    fun op hop => refines_step hr' op hop, ?_⟩
  intro h q n l hq hql hu
  have hhn : h ≠ n := fun e => hu hq (e ▸ .head _)
  have hallowed : AllowedRun (listsAfter Q ops) [.split h q n, .add h n] := by
    refine ⟨⟨⟨l, hq, hql⟩, hu⟩, ⟨?_, ?_, hhn⟩, trivial⟩
    · simp [QueueOp.lists, hq]
    · simp [QueueOp.lists, hq, Ne.symm hhn]
  obtain ⟨m'', hrun', hr''⟩ := refines_run hr' hallowed
  rw [split_add_lists hq hu] at hr''
  exact ⟨m'', hrun', hr''⟩

omit [DecidableEq α] in
/-- A memory without queues. -/
lemma rings_none (m : Links α) : Rings m (fun _ => none) := ⟨nofun, nofun, nofun⟩

section Finite

variable [Fintype α]

instance (Q : α → Option (List α)) (x : α) : Decidable (Unlinked Q x) :=
  decidable_of_iff (∀ h, ∀ l ∈ Q h, x ∉ h :: l) ⟨fun h _ _ hq => h _ _ hq, fun h _ _ hq => h hq⟩

instance decidableExistsRing (Q : α → Option (List α)) (p : α → List α → Prop)
    [∀ h l, Decidable (p h l)] : Decidable (∃ h l, Q h = some l ∧ p h l) :=
  decidable_of_iff (∃ h, ∃ l ∈ Q h, p h l) ⟨fun h => h, fun h => h⟩

instance decidableExistsList (o : Option (List α)) (p : List α → Prop) [∀ l, Decidable (p l)] :
    Decidable (∃ l, o = some l ∧ p l) :=
  decidable_of_iff (∃ l ∈ o, p l) ⟨fun h => h, fun h => h⟩

instance (Q : α → Option (List α)) : (op : QueueOp α) → Decidable (op.Allowed Q)
  | .init q => inferInstanceAs (Decidable (Unlinked Q q))
  | .insertHead _ _ | .insertTail _ _ => inferInstanceAs (Decidable (_ ∧ _))
  | .insertAfter a x =>
    inferInstanceAs (Decidable ((∃ h l, Q h = some l ∧ a ∈ h :: l) ∧ Unlinked Q x))
  | .remove x => inferInstanceAs (Decidable (∃ h l, Q h = some l ∧ x ∈ l))
  | .split h q n =>
    inferInstanceAs (Decidable ((∃ l, Q h = some l ∧ q ∈ l) ∧ Unlinked Q n))
  | .add _ _ => inferInstanceAs (Decidable (_ ∧ _ ∧ _))

instance decidableAllowedRun :
    (Q : α → Option (List α)) → (ops : List (QueueOp α)) → Decidable (AllowedRun Q ops)
  | _, [] => .isTrue trivial
  | Q, op :: ops =>
    have := decidableAllowedRun (op.lists Q) ops
    inferInstanceAs (Decidable (op.Allowed Q ∧ AllowedRun (op.lists Q) ops))

end Finite

/-- Two queues, of which the first gives its end to a third and takes it back. -/
theorem queue_refines_lists_three :
    ∃ m', runOps (⟨fun _ => none, fun _ => none⟩ : Links (Fin 6)) [.init 0, .init 1,
      .insertHead 0 2, .insertTail 0 3, .insertAfter 2 4, .split 0 3 5, .add 0 5, .remove 2] =
        some m' ∧ Follow m'.next 0 [4, 3] 0 ∧ Follow m'.next 1 [] 1 := by
  obtain ⟨m', hrun, -, hfollow, -⟩ := queue_refines_lists
    (rings_none (⟨fun _ => none, fun _ => none⟩ : Links (Fin 6)))
    [.init 0, .init 1, .insertHead 0 2, .insertTail 0 3, .insertAfter 2 4, .split 0 3 5, .add 0 5,
      .remove 2] (by decide)
  exact ⟨m', hrun, (hfollow 0 [4, 3] (by decide)).1, (hfollow 1 [] (by decide)).1⟩

end Libcn.Queue
