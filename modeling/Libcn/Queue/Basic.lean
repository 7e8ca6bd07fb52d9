import Libcn.Lib.Ring

/-!
# The queue macros of `queue.h`

Each macro is a sequence of writes to `prev` and `next` links. Following a NULL link is a fault:
the answer is `none`.
-/

namespace Libcn.Queue

open Libcn.Lib Libcn.Lib.Links

variable {α : Type} [DecidableEq α]

/-! ## The macros -/

/-- `queue_init`. -/
def queueInit (m : Links α) (q : α) : Links α := (m.setPrev q (some q)).setNext q (some q)

/-- `queue_empty`. -/
def queueEmpty (m : Links α) (h : α) : Bool := m.prev h = some h

/-- `queue_insert_head`. -/
def queueInsertHead (m : Links α) (h x : α) : Option (Links α) := do
  let m := m.setNext x (m.next h)
  let y ← m.next x
  let m := m.setPrev y (some x)
  let m := m.setPrev x (some h)
  pure (m.setNext h (some x))

/-- `queue_insert_after`. -/
def queueInsertAfter (m : Links α) (h x : α) : Option (Links α) := queueInsertHead m h x

/-- `queue_insert_tail`. -/
def queueInsertTail (m : Links α) (h x : α) : Option (Links α) := do
  let m := m.setPrev x (m.prev h)
  let y ← m.prev x
  let m := m.setNext y (some x)
  let m := m.setNext x (some h)
  pure (m.setPrev h (some x))

/-- `queue_head`. -/
def queueHead (m : Links α) (h : α) : Option α := m.next h

/-- `queue_last`. -/
def queueLast (m : Links α) (h : α) : Option α := m.prev h

/-- `queue_remove`. -/
def queueRemove (m : Links α) (x : α) : Option (Links α) := do
  let y ← m.next x
  let m := m.setPrev y (m.prev x)
  let z ← m.prev x
  pure (m.setNext z (m.next x))

/-- `queue_split`. -/
def queueSplit (m : Links α) (h q n : α) : Option (Links α) := do
  let m := m.setPrev n (m.prev h)
  let y ← m.prev n
  let m := m.setNext y (some n)
  let m := m.setNext n (some q)
  let m := m.setPrev h (m.prev q)
  let z ← m.prev h
  let m := m.setNext z (some h)
  pure (m.setPrev q (some n))

/-- `queue_add`. -/
def queueAdd (m : Links α) (h n : α) : Option (Links α) := do
  let y ← m.prev h
  let m := m.setNext y (m.next n)
  let z ← m.next n
  let m := m.setPrev z (m.prev h)
  let m := m.setPrev h (m.prev n)
  let w ← m.prev h
  pure (m.setNext w (some h))

/-! ## The links after each macro

Once the links a macro follows are known. -/

variable {m : Links α} {h x : α} {l : List α}

lemma queueInsertHead_eq {y : α} (hy : m.next h = some y) : queueInsertHead m h x = some
    { prev := Function.update (Function.update m.prev y (some x)) x (some h)
      next := Function.update (Function.update m.next x (some y)) h (some x) } := by
  simp [queueInsertHead, setNext, setPrev, hy]

lemma queueInsertTail_eq {y : α} (hy : m.prev h = some y) : queueInsertTail m h x = some
    { prev := Function.update (Function.update m.prev x (some y)) h (some x)
      next := Function.update (Function.update m.next y (some x)) x (some h) } := by
  simp [queueInsertTail, setNext, setPrev, hy]

lemma queueRemove_eq {y z : α} (hy : m.next x = some y) (hz : m.prev x = some z) (hyx : y ≠ x) :
    queueRemove m x = some
    { prev := Function.update m.prev y (some z)
      next := Function.update m.next z (some y) } := by
  simp [queueRemove, setNext, setPrev, hy, hz, hyx.symm]

lemma queueSplit_eq {q n y z : α} (hy : m.prev h = some y) (hz : m.prev q = some z)
    (hqn : q ≠ n) : queueSplit m h q n = some
    { prev := Function.update (Function.update (Function.update m.prev n (some y)) h (some z)) q
        (some n)
      next := Function.update (Function.update (Function.update m.next y (some n)) n (some q)) z
        (some h) } := by
  simp [queueSplit, setNext, setPrev, hy, hz, hqn]

lemma queueAdd_eq {n y z w : α} (hy : m.prev h = some y) (hz : m.next n = some z)
    (hw : Function.update m.prev z (some y) n = some w) (hyn : y ≠ n) :
    queueAdd m h n = some
    { prev := Function.update (Function.update m.prev z (some y)) h (some w)
      next := Function.update (Function.update m.next y (some z)) w (some h) } := by
  simp [queueAdd, setNext, setPrev, hy, hz, hw, hyn.symm]

/-! ## One queue -/

lemma queueInit_seg (m : Links α) (h : α) :
    (queueInit m h).Seg h [] h ∧ SameOutside [h] m (queueInit m h) := by
  refine ⟨by simp [queueInit, setPrev, setNext, Seg, Linked], ?_⟩
  intro y hy
  have hne : y ≠ h := by simpa using hy
  simp [queueInit, setPrev, setNext, hne]

omit [DecidableEq α] in
/-- A node among those after the head of a queue or its head. -/
lemma mem_of_mem_append_head {y : α} (hy : y ∈ l ++ [h]) : y ∈ h :: l := by
  rcases List.mem_append.mp hy with hy | hy
  · exact .tail _ hy
  · exact List.mem_singleton.mp hy ▸ .head _

lemma queueInsertHead_seg (hs : m.Seg h l h) (hnodup : (h :: l).Nodup) (hx : x ∉ h :: l) :
    ∃ m', queueInsertHead m h x = some m' ∧ m'.Seg h (x :: l) h ∧
      SameOutside (x :: h :: l) m m' := by
  obtain ⟨y, hy, hhy⟩ := hs.next_start
  have hxh : x ≠ h := fun e => hx (e ▸ .head _)
  have hxl : x ∉ l := fun e => hx (.tail _ e)
  have hhl := (List.nodup_cons.mp hnodup).1
  have hyl : y ∈ h :: l := mem_of_mem_append_head hy
  have hyx : y ≠ x := fun e => hx (e ▸ hyl)
  refine ⟨_, queueInsertHead_eq hhy, ?_, ?_⟩
  · simp only [Seg, Linked]
    refine ⟨⟨by simp, by simp⟩, ?_⟩
    cases l with
    | nil =>
      obtain rfl : y = h := List.mem_singleton.mp hy
      exact ⟨by simp [hxh], by simp [hxh.symm]⟩
    | cons z l =>
      obtain rfl : y = z := Option.some.inj (hhy.symm.trans hs.1.1)
      refine ⟨⟨by simp [hxh], by simp [hyx]⟩, hs.2.congr ?_ ?_⟩
      · intro w hw
        have h₁ : w ≠ h := fun e => hhl (e ▸ hw)
        have h₂ : w ≠ x := fun e => hxl (e ▸ hw)
        simp [h₁, h₂]
      · intro w hw
        have h₂ : w ≠ x := by
          rintro rfl
          rcases List.mem_append.mp hw with hw | hw
          · exact hxl (.tail _ hw)
          · exact hxh (List.mem_singleton.mp hw)
        have h₁ : w ≠ y := by
          rintro rfl
          rcases List.mem_append.mp hw with hw | hw
          · exact (List.nodup_cons.mp (List.nodup_cons.mp hnodup).2).1 hw
          · exact hhl (List.mem_singleton.mp hw ▸ .head _)
        simp [h₁, h₂]
  · intro w hw
    simp only [List.mem_cons, not_or] at hw
    have h₁ : w ≠ y := by
      rintro rfl
      rcases List.mem_cons.mp hyl with rfl | hyl
      · exact hw.2.1 rfl
      · exact hw.2.2 hyl
    simp [hw.1, hw.2.1, h₁]

lemma queueInsertTail_seg (hs : m.Seg h l h) (hnodup : (h :: l).Nodup) (hx : x ∉ h :: l) :
    ∃ m', queueInsertTail m h x = some m' ∧ m'.Seg h (l ++ [x]) h ∧
      SameOutside (x :: h :: l) m m' := by
  obtain ⟨p, hp, hhp⟩ := hs.prev_end
  have hxh : x ≠ h := fun e => hx (e ▸ .head _)
  have hpx : p ≠ x := fun e => hx (e ▸ hp)
  refine ⟨_, queueInsertTail_eq hhp, ?_, ?_⟩
  · rw [seg_append]
    refine ⟨hs.retarget hnodup hhp ?_ ?_ (by simp [hpx]) ?_, ?_⟩
    · intro w hw hwp
      have h₁ : w ≠ x := fun e => hx (e ▸ hw)
      simp [hwp, h₁]
    · intro w hw
      have h₁ : w ≠ x := fun e => hx (e ▸ .tail _ hw)
      have h₂ : w ≠ h := fun e => (List.nodup_cons.mp hnodup).1 (e ▸ hw)
      simp [h₁, h₂]
    · simp [hxh]
    · exact ⟨by simp, by simp⟩
  · intro w hw
    simp only [List.mem_cons, not_or] at hw
    have h₁ : w ≠ p := by
      rintro rfl
      rcases List.mem_cons.mp hp with rfl | hp
      · exact hw.2.1 rfl
      · exact hw.2.2 hp
    simp [hw.1, hw.2.1, h₁]

lemma queueRemove_seg (hs : m.Seg h l h) (hnodup : (h :: l).Nodup) (hx : x ∈ l) :
    ∃ m', queueRemove m x = some m' ∧ m'.Seg h (l.erase x) h ∧ SameOutside (h :: l) m m' := by
  obtain ⟨l₁, l₂, rfl⟩ := List.append_of_mem hx
  obtain ⟨hs₁, hs₂⟩ := seg_append.mp hs
  have hnodup' : (h :: l₁ ++ x :: l₂).Nodup := hnodup
  obtain ⟨hn₁, hn₂, hdisj⟩ := List.nodup_append.mp hnodup'
  have hx₁ : x ∉ h :: l₁ := fun e => hdisj x e x (.head _) rfl
  have herase : (l₁ ++ x :: l₂).erase x = l₁ ++ l₂ := by
    rw [List.erase_append_right _ fun e => hx₁ (.tail _ e), List.erase_cons_head]
  obtain ⟨p, hp, hxp⟩ := hs₁.prev_end
  obtain ⟨y, hy, hxy⟩ := hs₂.next_start
  have hyx : y ≠ x := by
    rintro rfl
    rcases List.mem_append.mp hy with hy | hy
    · exact (List.nodup_cons.mp hn₂).1 hy
    · exact hx₁ (List.mem_singleton.mp hy ▸ .head _)
  refine ⟨_, queueRemove_eq hxy hxp hyx, ?_, ?_⟩
  · rw [herase]
    -- the segment up to `x` now ends at the successor of `x`
    have hfirst : y ∉ l₁ → ({ prev := Function.update m.prev y (some p)
                              next := Function.update m.next p (some y) } : Links α).Seg h l₁ y := by
      intro hyl
      refine hs₁.retarget hn₁ hxp (fun w _ hw => by simp [hw]) (fun w hw => ?_) (by simp) (by simp)
      have : w ≠ y := fun e => hyl (e ▸ hw)
      simp [this]
    cases l₂ with
    | nil =>
      obtain rfl : y = h := List.mem_singleton.mp hy
      rw [List.append_nil]
      exact hfirst (List.nodup_cons.mp hn₁).1
    | cons z l₂ =>
      obtain rfl : y = z := Option.some.inj (hxy.symm.trans hs₂.1.1)
      rw [seg_append]
      refine ⟨hfirst fun e => hdisj y (.tail _ e) y (.tail _ (.head _)) rfl, ?_⟩
      refine hs₂.2.congr (fun w hw => ?_) fun w hw => ?_
      · have : w ≠ p := fun e => hdisj p hp p (.tail _ (e ▸ hw)) rfl
        simp [this]
      · have : w ≠ y := by
          rintro rfl
          rcases List.mem_append.mp hw with hw | hw
          · exact (List.nodup_cons.mp (List.nodup_cons.mp hn₂).2).1 hw
          · exact hdisj w (List.mem_singleton.mp hw ▸ .head _) w (.tail _ (.head _)) rfl
        simp [this]
  · intro w hw
    have h₁ : w ≠ p := by
      rintro rfl
      rcases List.mem_cons.mp hp with rfl | hp
      · exact hw (.head _)
      · exact hw (.tail _ (List.mem_append_left _ hp))
    have h₂ : w ≠ y := by
      rintro rfl
      rcases List.mem_append.mp hy with hy | hy
      · exact hw (.tail _ (List.mem_append_right _ (.tail _ hy)))
      · exact hw (List.mem_singleton.mp hy ▸ .head _)
    simp [h₁, h₂]

/-- Insertion behind a node: the queue is read from that node. -/
lemma queueInsertAfter_seg {a : α} {l₁ l₂ : List α} (hs : m.Seg h (l₁ ++ a :: l₂) h)
    (hnodup : (h :: (l₁ ++ a :: l₂)).Nodup) (hx : x ∉ h :: (l₁ ++ a :: l₂)) :
    ∃ m', queueInsertAfter m a x = some m' ∧ m'.Seg h (l₁ ++ a :: x :: l₂) h ∧
      SameOutside (x :: h :: (l₁ ++ a :: l₂)) m m' := by
  have hperm : (a :: (l₂ ++ h :: l₁)).Perm (h :: (l₁ ++ a :: l₂)) :=
    show (([a] ++ l₂) ++ (h :: l₁)).Perm (h :: l₁ ++ a :: l₂) from List.perm_append_comm
  obtain ⟨m', hrun, hs', hsame⟩ := queueInsertHead_seg hs.rotate (hperm.nodup_iff.mpr hnodup)
    fun e => hx (hperm.mem_iff.mp e)
  refine ⟨m', hrun, Seg.rotate (show m'.Seg a ((x :: l₂) ++ h :: l₁) a from hs'),
    fun w hw => hsame w fun e => hw ?_⟩
  rcases List.mem_cons.mp e with rfl | e
  · exact .head _
  · exact .tail _ (hperm.mem_iff.mp e)

/-! ## Two queues -/

lemma queueSplit_seg {q n : α} {l₁ l₂ : List α} (hs : m.Seg h (l₁ ++ q :: l₂) h)
    (hnodup : (h :: (l₁ ++ q :: l₂)).Nodup) (hn : n ∉ h :: (l₁ ++ q :: l₂)) :
    ∃ m', queueSplit m h q n = some m' ∧ m'.Seg h l₁ h ∧ m'.Seg n (q :: l₂) n ∧
      SameOutside (n :: h :: (l₁ ++ q :: l₂)) m m' := by
  obtain ⟨hs₁, hs₂⟩ := seg_append.mp hs
  have hnodup' : (h :: l₁ ++ q :: l₂).Nodup := hnodup
  obtain ⟨hn₁, hn₂, hdisj⟩ := List.nodup_append.mp hnodup'
  have hnl : n ∉ (h :: l₁) ++ (q :: l₂) := hn
  rw [List.mem_append, not_or] at hnl
  obtain ⟨z, hz, hqz⟩ := hs₁.prev_end
  obtain ⟨y, hy, hhy⟩ := hs₂.prev_end
  have hne : ∀ {u v}, u ∈ h :: l₁ → v ∈ q :: l₂ → u ≠ v := fun hu hv => hdisj _ hu _ hv
  have hqn : q ≠ n := fun e => hnl.2 (e ▸ .head _)
  have hhn : h ≠ n := fun e => hnl.1 (e ▸ .head _)
  have hyn : y ≠ n := fun e => hnl.2 (e ▸ hy)
  have hzn : z ≠ n := fun e => hnl.1 (e ▸ hz)
  have hhq : h ≠ q := hne (.head _) (.head _)
  have hzy : z ≠ y := hne hz hy
  refine ⟨_, queueSplit_eq hhy hqz hqn, ?_, ⟨?_, ?_⟩, ?_⟩
  · refine hs₁.retarget hn₁ hqz (fun w hw hwz => ?_) (fun w hw => ?_) (by simp) (by simp [hhq])
    · have h₁ : w ≠ n := fun e => hnl.1 (e ▸ hw)
      have h₂ : w ≠ y := hne hw hy
      simp [hwz, h₁, h₂]
    · have h₁ : w ≠ n := fun e => hnl.1 (e ▸ .tail _ hw)
      have h₂ : w ≠ q := hne (.tail _ hw) (.head _)
      have h₃ : w ≠ h := fun e => (List.nodup_cons.mp hn₁).1 (e ▸ hw)
      simp [h₁, h₂, h₃]
  · exact ⟨by simp [hzn.symm], by simp⟩
  · refine hs₂.retarget hn₂ hhy (fun w hw hwy => ?_) (fun w hw => ?_) (by simp [hzy.symm, hyn])
      (by simp [hqn.symm, hhn.symm])
    · have h₁ : w ≠ n := fun e => hnl.2 (e ▸ hw)
      have h₂ : w ≠ z := (hne hz hw).symm
      simp [hwy, h₁, h₂]
    · have h₁ : w ≠ n := fun e => hnl.2 (e ▸ .tail _ hw)
      have h₂ : w ≠ q := fun e => (List.nodup_cons.mp hn₂).1 (e ▸ hw)
      have h₃ : w ≠ h := (hne (.head _) (.tail _ hw)).symm
      simp [h₁, h₂, h₃]
  · intro w hw
    simp only [List.mem_cons, List.mem_append, not_or] at hw
    have h₁ : w ≠ z := by
      rintro rfl
      rcases List.mem_cons.mp hz with rfl | hz
      · exact hw.2.1 rfl
      · exact hw.2.2.1 hz
    have h₂ : w ≠ y := by
      rintro rfl
      rcases List.mem_cons.mp hy with rfl | hy
      · exact hw.2.2.2.1 rfl
      · exact hw.2.2.2.2 hy
    simp [hw.1, hw.2.1, hw.2.2.2.1, h₁, h₂]

lemma queueAdd_seg {n : α} {k : List α} (hs : m.Seg h l h) (hk : m.Seg n k n)
    (hnodup : (h :: l).Nodup) (hnodup' : (n :: k).Nodup) (hdisj : ∀ y ∈ h :: l, y ∉ n :: k) :
    ∃ m', queueAdd m h n = some m' ∧ m'.Seg h (l ++ k) h ∧
      SameOutside (h :: l ++ n :: k) m m' := by
  obtain ⟨y, hy, hhy⟩ := hs.prev_end
  have hne : ∀ {u v}, u ∈ h :: l → v ∈ n :: k → u ≠ v := fun hu hv e => hdisj _ hu (e ▸ hv)
  have hyn : y ≠ n := hne hy (.head _)
  have hhn : h ≠ n := hne (.head _) (.head _)
  cases k with
  | nil =>
    refine ⟨_, queueAdd_eq hhy hk.1 (w := y) (by simp) hyn, ?_, ?_⟩
    · rw [List.append_nil]
      refine hs.congr (fun w hw => ?_) fun w hw => ?_
      · by_cases hwy : w = y
        · subst hwy
          -- the last node pointed to the head before
          have hlast : m.next w = some h := by
            rcases List.eq_nil_or_concat' l with rfl | ⟨l', p, rfl⟩
            · obtain rfl := List.mem_singleton.mp hy
              exact hs.1
            · obtain rfl : p = w := Option.some.inj (hs.last.symm.trans hhy)
              exact (seg_append.mp hs).2.1
          simp [hlast]
        · simp [hwy]
      · have hwn : w ≠ n := hne (mem_of_mem_append_head hw) (.head _)
        by_cases hwh : w = h
        · subst hwh
          simp [hhy]
        · simp [hwh, hwn]
    · intro w hw
      simp only [List.mem_append, List.mem_cons, not_or] at hw
      have h₁ : w ≠ y := by
        rintro rfl
        rcases List.mem_cons.mp hy with rfl | hy
        · exact hw.1.1 rfl
        · exact hw.1.2 hy
      simp [hw.1.1, hw.2.1, h₁]
  | cons x k =>
    obtain ⟨p, hp, hnp⟩ := hk.2.prev_end
    have hxn : x ≠ n := fun e => (List.nodup_cons.mp hnodup').1 (e ▸ .head _)
    have hpn : p ≠ n := fun e => (List.nodup_cons.mp hnodup').1 (e ▸ hp)
    have hhx : h ≠ x := hne (.head _) (.tail _ (.head _))
    have hyp : y ≠ p := hne hy (.tail _ hp)
    refine ⟨_, queueAdd_eq hhy hk.1.1 (w := p) (by simp [hxn.symm, hnp]) hyn, ?_, ?_⟩
    · rw [seg_append]
      constructor
      · refine hs.retarget hnodup hhy (fun w hw hwy => ?_) (fun w hw => ?_) (by simp [hyp])
          (by simp [hhx.symm])
        · have h₁ : w ≠ p := hne hw (.tail _ hp)
          simp [hwy, h₁]
        · have h₁ : w ≠ x := hne (.tail _ hw) (.tail _ (.head _))
          have h₂ : w ≠ h := fun e => (List.nodup_cons.mp hnodup).1 (e ▸ hw)
          simp [h₁, h₂]
      · refine hk.2.retarget (List.nodup_cons.mp hnodup').2 hnp (fun w hw hwp => ?_)
          (fun w hw => ?_) (by simp) (by simp)
        · have h₁ : w ≠ y := (hne hy (.tail _ hw)).symm
          simp [hwp, h₁]
        · have h₁ : w ≠ h := (hne (.head _) (.tail _ (.tail _ hw))).symm
          have h₂ : w ≠ x := fun e =>
            (List.nodup_cons.mp (List.nodup_cons.mp hnodup').2).1 (e ▸ hw)
          simp [h₁, h₂]
    · intro w hw
      simp only [List.mem_append, List.mem_cons, not_or] at hw
      have h₁ : w ≠ y := by
        rintro rfl
        rcases List.mem_cons.mp hy with rfl | hy
        · exact hw.1.1 rfl
        · exact hw.1.2 hy
      have h₂ : w ≠ p := by
        rintro rfl
        rcases List.mem_cons.mp hp with rfl | hp
        · exact hw.2.2.1 rfl
        · exact hw.2.2.2 hp
      simp [hw.1.1, hw.2.2.1, h₁, h₂]

end Libcn.Queue
