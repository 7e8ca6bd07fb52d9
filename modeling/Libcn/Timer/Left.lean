import Libcn.Rbtree.Next
import Libcn.Timer.Find

/-!
# Timers that keep a worker alive

`event_no_timers_left` traverses the timer tree and stops at the first event that is not
cancelable. The traversal visits every node of the tree, so it misses none.
-/

namespace Libcn.Timer

open Libcn.Lib Libcn.Rbtree

variable {ι : Type} [DecidableEq ι]

/-- The loop of `event_no_timers_left`. -/
def noTimersLoop (fuel : ℕ) (m : Mem ι) (cancelable : ι → Bool) : ℕ → Ptr ι → Option ℤ
  | 0, _ => none
  | _ + 1, .null => some 0
  | _ + 1, .sentinel => none
  | rounds + 1, .node ev => do
    if !cancelable ev then pure (-2)
    else noTimersLoop fuel m cancelable rounds (← rbtreeNext m fuel (.node ev))

/-- `event_no_timers_left`, with the `cancelable` bits of the events. -/
def eventNoTimersLeft (fuel : ℕ) (T : Timers ι) (cancelable : ι → Bool) : Option ℤ := do
  if T.tree.root = .sentinel then pure 0
  else noTimersLoop fuel T.tree cancelable fuel (← rbtreeMin T.tree fuel T.tree.root)

/-- The loop answers what it sees on the way a full walk takes. -/
lemma noTimersLoop_eq {fuel rounds : ℕ} {m : Mem ι} {p : Ptr ι} {l : List ι}
    (h : walk (rbtreeNext m fuel) rounds p = some l) (cancelable : ι → Bool) :
    noTimersLoop fuel m cancelable rounds p = some (if l.all cancelable then 0 else -2) := by
  induction rounds generalizing p l with
  | zero => cases h
  | succ rounds ih =>
    cases p with
    | null =>
      obtain rfl := Option.some.inj h
      rfl
    | sentinel => cases h
    | node ev =>
      obtain ⟨q, hq, hrest⟩ := Option.bind_eq_some_iff.mp h
      obtain ⟨l, hl, hcons⟩ := Option.bind_eq_some_iff.mp hrest
      obtain rfl := Option.some.inj hcons
      have hloop := ih hl
      cases hc : cancelable ev with
      | false => simp [noTimersLoop, hc]
      | true => simp [noTimersLoop, hc, hq, hloop]

/-- What `event_no_timers_left` answers for a tree that holds the armed events. -/
lemma eventNoTimersLeft_eq {fuel : ℕ} {T : Timers ι} {t : ColorTree ι} (h : Holds T.tree t)
    (hf : t.toList.length < fuel) (cancelable : ι → Bool) :
    eventNoTimersLeft fuel T cancelable = some (if t.toList.all cancelable then 0 else -2) := by
  have htraversal := traversal_within (rbtreeNextChecked_within T.tree fuel) fuel T.tree _
    (h.traversal hf)
  by_cases hroot : T.tree.root = .sentinel
  · have hnil : t.toList = [] := by simpa [traversal, hroot] using htraversal.symm
    simp [eventNoTimersLeft, hroot, hnil]
  · rw [traversal, if_neg hroot] at htraversal
    obtain ⟨p, hp, hwalk⟩ := Option.bind_eq_some_iff.mp htraversal
    simp [eventNoTimersLeft, hroot, hp, noTimersLoop_eq hwalk]

/-- `event_no_timers_left` answers 0 when every armed event is cancelable, and else -2. -/
lemma eventNoTimersLeft_iff [Fintype ι] {fuel : ℕ} {T : Timers ι} (h : Reachable fuel T)
    (hf : Fintype.card ι < fuel) (cancelable : ι → Bool) :
    (eventNoTimersLeft fuel T cancelable = some 0 ↔
      ∀ i, T.timerSet i = true → cancelable i = true) ∧
    (eventNoTimersLeft fuel T cancelable = some (-2) ↔
      ¬ ∀ i, T.timerSet i = true → cancelable i = true) := by
  obtain ⟨t, ht, hmem⟩ := h.mirrors hf
  have hlen := length_le_card ht
  have hall : t.toList.all cancelable = true ↔ ∀ i, T.timerSet i = true → cancelable i = true := by
    simp [List.all_eq_true, hmem]
  rw [← hall, eventNoTimersLeft_eq ht (by omega) cancelable]
  split <;> simp_all

/-- The traversal of every tree that a run of insertions and deletions makes visits every node
exactly once, in order, and then returns NULL, over parent links that lead to nodes and never over
that of the root or the sentinel; so `event_no_timers_left` answers 0 exactly when every armed
event is cancelable, and -2 otherwise. -/
theorem traversal_complete (fuel : ℕ) :
    (∀ (m : Mem ι) (i : InsertPt) (ops : List (TreeOp ι)), AllowedRun ∅ ops → ops.length < fuel →
      ∃ m' t, runOps fuel (rbtreeInit m i) ops = some m' ∧ Holds m' t ∧ t.toList.Nodup ∧
        t.toList.toFinset = nodesAfter ∅ ops ∧ ∀ v w,
          traversal (rbtreeNextChecked (m'.stale v w) fuel) fuel (m'.stale v w) = some t.toList ∧
          traversal (rbtreeNext (m'.stale v w) fuel) fuel (m'.stale v w) = some t.toList) ∧
    ∀ [Fintype ι] (T : Timers ι), Reachable fuel T → Fintype.card ι < fuel → ∀ cancelable,
      (eventNoTimersLeft fuel T cancelable = some 0 ↔
        ∀ i, T.timerSet i = true → cancelable i = true) ∧
      (eventNoTimersLeft fuel T cancelable = some (-2) ↔
        ¬ ∀ i, T.timerSet i = true → cancelable i = true) :=
  ⟨fun m i ops hops hf => runOps_traversal m i ops fuel hops hf,
    fun _ h hf cancelable => eventNoTimersLeft_iff h hf cancelable⟩

/-- A tree of two nodes, and a worker that has armed one timer. -/
theorem traversal_complete_two :
    (∃ m' t, runOps 4 (rbtreeInit Mem.zeroed .timerValue) [.insert (0 : Fin 2) 5, .insert 1 3] =
        some m' ∧ Holds m' t ∧ t.toList.Nodup ∧ t.toList.toFinset = {0, 1} ∧ ∀ v w,
          traversal (rbtreeNextChecked (m'.stale v w) 4) 4 (m'.stale v w) = some t.toList ∧
          traversal (rbtreeNext (m'.stale v w) 4) 4 (m'.stale v w) = some t.toList) ∧
    ∃ T : Timers (Fin 2), eventAddTimer 4 (eventTimerInit Timers.zeroed) 0 5 = some T ∧
      ∀ cancelable, (eventNoTimersLeft 4 T cancelable = some 0 ↔
          ∀ i, T.timerSet i = true → cancelable i = true) ∧
        (eventNoTimersLeft 4 T cancelable = some (-2) ↔
          ¬ ∀ i, T.timerSet i = true → cancelable i = true) := by
  constructor
  · have h := (traversal_complete (ι := Fin 2) 4).1 Mem.zeroed .timerValue
      [.insert 0 5, .insert 1 3] (by simp [AllowedRun, TreeOp.Allowed, TreeOp.nodes]) (by decide)
    rwa [show nodesAfter ∅ _ = ({0, 1} : Finset (Fin 2)) from by decide] at h
  · have hinit : Reachable 4 (eventTimerInit (Timers.zeroed : Timers (Fin 2))) :=
      .init _ fun _ => rfl
    have hfuel : Fintype.card (Fin 2) < 4 := by decide
    obtain ⟨T, hrun, -⟩ := TimerCall.run_mirrors (c := .add 0 5) (hinit.mirrors hfuel)
      (show DelsArmed _ [_] from trivial) hfuel
    exact ⟨T, hrun, (traversal_complete 4).2 T (.call (.add 0 5) hinit trivial hrun) hfuel⟩

end Libcn.Timer
