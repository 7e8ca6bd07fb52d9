import Libcn.Timer.Basic
import Mathlib.Data.Fintype.Card

/-!
# The armed events are the nodes of the timer tree

What the timer operations do to the set of nodes of the tree, whatever the keys: even where the
comparison of keys is no order, the tree stays a red-black tree and holds the same nodes.
-/

namespace Libcn.Timer

open Libcn.Lib Libcn.Rbtree

variable {ι : Type}

/-- The memory holds a red-black tree with the nodes `S`, each once. -/
def Holding (m : Mem ι) (S : ι → Prop) : Prop := ∃ t, Holds m t ∧ ∀ i, i ∈ t.toList ↔ S i

/-- The nodes of the timer tree are the live events whose `timer_set` is 1. -/
def Mirrors (T : Timers ι) (live : ι → Prop) : Prop :=
  Holding T.tree fun i => live i ∧ T.timerSet i = true

lemma Holding.congr {m : Mem ι} {S S' : ι → Prop} (h : Holding m S) (hS : ∀ i, S i ↔ S' i) :
    Holding m S' := by
  obtain ⟨t, ht, hmem⟩ := h
  exact ⟨t, ht, fun i => (hmem i).trans (hS i)⟩

/-- The nodes of a tree are distinct, so there are at most as many as events. -/
lemma length_le_card [Fintype ι] {m : Mem ι} {t : ColorTree ι} (h : Holds m t) :
    t.toList.length ≤ Fintype.card ι := by
  obtain ⟨p₀, hfoc⟩ := h.focus
  exact List.Nodup.length_le_card hfoc.nodup

variable [DecidableEq ι]

/-- A node that is not in the tree may be cleared. -/
lemma Holding.zeroNode {m : Mem ι} {S : ι → Prop} (h : Holding m S) {i : ι} (hi : ¬ S i) :
    Holding (m.zeroNode i) S := by
  obtain ⟨t, ht, hmem⟩ := h
  exact ⟨t, ht.zeroNode fun e => hi ((hmem i).mp e), hmem⟩

lemma eventTimerInit_holding (T : Timers ι) : Holding (eventTimerInit T).tree fun _ => False :=
  ⟨.nil, holds_rbtreeInit _ _, fun i => by simp⟩

section Operations

variable [Fintype ι] {fuel : ℕ} {T : Timers ι} {live : ι → Prop} {ev : ι}

/-- `event_del_timer` on an armed event takes its node out and clears its key. -/
lemma eventDelTimer_keyed (h : Mirrors T live) (hev : live ev) (hset : T.timerSet ev = true)
    (hf : Fintype.card ι < fuel) :
    ∃ T', eventDelTimer fuel T ev = some T' ∧ Mirrors T' live ∧
      T'.timerSet = Function.update T.timerSet ev false ∧ T'.timedout = T.timedout ∧
      T'.currentMsec = T.currentMsec ∧ T'.tree.insert = T.tree.insert ∧
      T'.tree.key = Function.update T.tree.key (.node ev) 0 := by
  obtain ⟨t, ht, hmem⟩ := h
  obtain ⟨m', t', hrun, ht', hlist, hkey, hins⟩ :=
    rbtreeDelete_spec ht ((hmem ev).mpr ⟨hev, hset⟩) ((length_le_card ht).trans_lt hf)
  have hnodup : t.toList.Nodup := by
    obtain ⟨p₀, hfoc⟩ := ht.focus
    exact hfoc.nodup
  refine ⟨{ T with tree := m', timerSet := Function.update T.timerSet ev false }, ?_,
    ⟨t', ht', fun i => ?_⟩, rfl, rfl, rfl, hins, hkey⟩
  · rw [eventDelTimer, hrun]
    rfl
  · rw [hlist, hnodup.mem_erase_iff, hmem i]
    by_cases hi : i = ev
    · simp [hi]
    · simp [hi]

lemma eventDelTimer_mirrors (h : Mirrors T live) (hev : live ev) (hset : T.timerSet ev = true)
    (hf : Fintype.card ι < fuel) :
    ∃ T', eventDelTimer fuel T ev = some T' ∧ Mirrors T' live ∧
      T'.timerSet = Function.update T.timerSet ev false ∧ T'.timedout = T.timedout ∧
      T'.currentMsec = T.currentMsec := by
  obtain ⟨T', hrun, hm, hts, htm, hnow, -⟩ := eventDelTimer_keyed h hev hset hf
  exact ⟨T', hrun, hm, hts, htm, hnow⟩

/-- The second half of `event_add_timer`, for an event that is not armed. -/
lemma insertTimer_keyed (h : Mirrors T live) (hev : live ev) (hset : T.timerSet ev = false)
    (key : BitVec 64) (hf : Fintype.card ι < fuel) :
    ∃ tree, rbtreeInsert fuel (T.tree.setKey (.node ev) key) (.node ev) = some tree ∧
      Mirrors { T with tree := tree, timerSet := Function.update T.timerSet ev true } live ∧
      tree.insert = T.tree.insert ∧ tree.key = Function.update T.tree.key (.node ev) key := by
  obtain ⟨t, ht, hmem⟩ := h
  have hnot : ev ∉ t.toList := by
    intro hmem'
    have := ((hmem ev).mp hmem').2
    rw [hset] at this
    cases this
  obtain ⟨tree, t', ctx, hrun, ht', hlist, hplug, -, hkey, hins⟩ :=
    rbtreeInsert_spec (ht.setKey (.node ev) key) hnot ((length_le_card ht).trans_lt hf)
  refine ⟨tree, hrun, ⟨t', ht', fun i => ?_⟩, hins, hkey⟩
  have hi := hmem i
  rw [← hplug, Ctx.toList_plug, ColorTree.toList_nil, List.append_nil, List.mem_append] at hi
  rw [hlist, List.mem_append, List.mem_cons]
  by_cases hie : i = ev
  · simp [hie, hev]
  · simp only [hie, false_or, hi, ne_eq, not_false_eq_true, Function.update_of_ne]

/-- `event_add_timer` leaves the event armed, with its old key or the new one. -/
lemma eventAddTimer_keyed (h : Mirrors T live) (hev : live ev) (timer : BitVec 64)
    (hf : Fintype.card ι < fuel) :
    ∃ T', eventAddTimer fuel T ev timer = some T' ∧ Mirrors T' live ∧
      T'.timerSet = Function.update T.timerSet ev true ∧ T'.timedout = T.timedout ∧
      T'.currentMsec = T.currentMsec ∧ T'.tree.insert = T.tree.insert ∧
      T'.tree.key = if lazy T ev (T.currentMsec + timer) then T.tree.key
        else Function.update T.tree.key (.node ev) (T.currentMsec + timer) := by
  by_cases hlazy : lazy T ev (T.currentMsec + timer) = true
  · have hset : T.timerSet ev = true := (Bool.and_eq_true_iff.mp hlazy).1
    refine ⟨T, by simp [eventAddTimer, hlazy], h, ?_, rfl, rfl, rfl, by rw [if_pos hlazy]⟩
    rw [← hset, Function.update_eq_self]
  · rw [if_neg hlazy]
    by_cases hset : T.timerSet ev = true
    · obtain ⟨T₁, hdel, h₁, hset₁, hout₁, hnow₁, hins₁, hkey₁⟩ := eventDelTimer_keyed h hev hset hf
      obtain ⟨tree, hrun₂, h₂, hins₂, hkey₂⟩ :=
        insertTimer_keyed h₁ hev (by simp [hset₁]) (T.currentMsec + timer) hf
      refine ⟨_, ?_, h₂, ?_, hout₁, hnow₁, hins₂.trans hins₁, ?_⟩
      · simp [eventAddTimer, hlazy, hset, hdel, hrun₂]
      · simp [hset₁]
      · simp only
        rw [hkey₂, hkey₁, Function.update_idem]
    · obtain ⟨tree, hrun₂, h₂, hins₂, hkey₂⟩ :=
        insertTimer_keyed h hev (Bool.not_eq_true _ ▸ hset) (T.currentMsec + timer) hf
      exact ⟨_, by simp [eventAddTimer, hlazy, hset, hrun₂], h₂, rfl, rfl, rfl, hins₂, hkey₂⟩

lemma eventAddTimer_mirrors (h : Mirrors T live) (hev : live ev) (timer : BitVec 64)
    (hf : Fintype.card ι < fuel) :
    ∃ T', eventAddTimer fuel T ev timer = some T' ∧ Mirrors T' live ∧
      T'.timerSet = Function.update T.timerSet ev true ∧ T'.timedout = T.timedout ∧
      T'.currentMsec = T.currentMsec := by
  obtain ⟨T', hrun, hm, hts, htm, hnow, -⟩ := eventAddTimer_keyed h hev timer hf
  exact ⟨T', hrun, hm, hts, htm, hnow⟩

/-- The leftmost node of the tree is an armed event, if there is one. -/
lemma leftmost (h : Mirrors T live) (hf : Fintype.card ι < fuel) :
    (T.tree.root = .sentinel ∧ ∀ i, ¬ (live i ∧ T.timerSet i = true)) ∨
    ∃ ev, T.tree.root ≠ .sentinel ∧ rbtreeMin T.tree fuel T.tree.root = some (.node ev) ∧
      live ev ∧ T.timerSet ev = true := by
  obtain ⟨t, ht, hmem⟩ := h
  obtain ⟨p₀, hfoc⟩ := ht.focus
  have hroot : T.tree.root = rootPtr t := hfoc.isCtx
  by_cases hnil : t = .nil
  · subst hnil
    exact .inl ⟨hroot, fun i hi => by simpa using (hmem i).mpr hi⟩
  · have hlen := length_le_card ht
    obtain ⟨ctx, c, ev, r, hmin, hplug, -⟩ :=
      rbtreeMin_spec hfoc hnil (show t.height ≤ fuel from t.height_le_length.trans (by omega))
    have hmem' : ev ∈ t.toList := by simp [hplug, Ctx.toList_plug, ColorTree.join]
    refine .inr ⟨ev, ?_, hroot ▸ hmin, (hmem ev).mp hmem'⟩
    rw [hroot]
    exact fun e => hnil (rootPtr_eq_sentinel.mp e)

/-- A round of `event_expire_timers` ends the loop, or takes an armed event out of the tree. -/
lemma expireNext_mirrors (h : Mirrors T live) (hf : Fintype.card ι < fuel) :
    expireNext fuel T = some none ∨ ∃ ev key T', expireNext fuel T = some (some (ev, key, T')) ∧
      live ev ∧ T.timerSet ev = true ∧ Mirrors T' live ∧
      T'.timerSet = Function.update T.timerSet ev false ∧
      T'.timedout = Function.update T.timedout ev true ∧ T'.currentMsec = T.currentMsec := by
  rcases leftmost h hf with ⟨hroot, -⟩ | ⟨ev, hne, hmin, hev, hset⟩
  · exact .inl (by simp [expireNext, hroot])
  · by_cases hdue : 0 < (T.tree.key (.node ev) - T.currentMsec).toInt
    · exact .inl (by simp [expireNext, hne, hmin, hdue, -BitVec.toInt_sub])
    · obtain ⟨T₁, hdel, h₁, hset₁, hout₁, hnow₁⟩ := eventDelTimer_mirrors h hev hset hf
      refine .inr ⟨ev, T.tree.key (.node ev),
        { T₁ with timedout := Function.update T₁.timedout ev true }, ?_, hev, hset, h₁, hset₁, ?_,
        hnow₁⟩
      · simp only [expireNext, hne, hmin, hdue, hdel, if_false, Mem.key?_node,
          Option.bind_eq_bind, Option.bind_some, Option.pure_def]
      · rw [hout₁]

end Operations

end Libcn.Timer
