import Libcn.Program.Looping
import Libcn.Timer.Expire

/-!
# The deadlines of the armed timers

`Consistent` says which events are in the timer tree, whatever their keys. Here the tree is in
order as well, and the keys lie between a bound before the clock and the longest delay after it.
-/

namespace Libcn.Program

open Libcn.Lib Libcn.Queue Libcn.Rbtree Libcn.Timer Libcn.Cycle

variable {n : ℕ} {w w' : Worker n} {c : Fin n} {ev : EventId n} {lo : ℤ}

/-- The timer of an event of a connection in use is armed. -/
def Ticking (w : Worker n) (ev : EventId n) : Prop :=
  InUse w.connection ev.1 ∧ w.timers.timerSet ev = true

/-- How far the clock still has to go to a key. -/
def ahead (w : Worker n) (key : BitVec 64) : ℤ := (key - w.timers.currentMsec).toInt

/-- The entries of the timer tree: they are the armed timers, in the order of their keys, and no
key is further ahead than the delay of the program nor as far behind as `lo`. -/
structure Schedule (w : Worker n) (lo : ℤ) (l : List (Entry (EventId n))) : Prop where
  tracks : Tracks w.timers.tree .timerValue l
  ticking : ∀ ev, ev ∈ l.map Prod.fst ↔ Ticking w ev
  key : ∀ e ∈ l, lo < ahead w e.2 ∧ ahead w e.2 ≤ w.listening.postAcceptTimeout.toInt

/-- The delay of the program is positive and short, and the armed timers have a schedule. -/
structure Deadlines (w : Worker n) (lo : ℤ) : Prop where
  bound : -2 ^ 62 ≤ lo ∧ lo ≤ 0
  delay : 1 ≤ w.listening.postAcceptTimeout.toNat ∧
    w.listening.postAcceptTimeout.toNat < 2 ^ 62
  schedule : ∃ l, Schedule w lo l

/-- The delay as a signed number. -/
lemma Deadlines.delay_toInt (h : Deadlines w lo) :
    w.listening.postAcceptTimeout.toInt = w.listening.postAcceptTimeout.toNat := by
  have := h.delay
  rw [BitVec.toInt_eq_toNat_cond]
  split_ifs <;> omega

/-- The keys lie near the clock. -/
lemma Schedule.near {l : List (Entry (EventId n))} (h : Deadlines w lo) (hl : Schedule w lo l) :
    ∀ e ∈ l, Near w.timers.currentMsec e.2 := by
  intro e he
  have hb := h.bound
  have hd := h.delay
  have hi := h.delay_toInt
  have hk := hl.key e he
  unfold ahead at hk
  constructor <;> omega

/-- The tree has at most two nodes for each slot. -/
lemma Schedule.length_lt {l : List (Entry (EventId n))} (h : Schedule w lo l) :
    l.length < timerFuel n := by
  have := h.tracks.nodup.length_le_card
  rw [List.length_map] at this
  exact this.trans_lt card_lt_timerFuel

/-- Only the timers, the delay and the slots in use matter. -/
lemma Deadlines.congr (h : Deadlines w lo) (ht : w'.timers = w.timers)
    (hl : w'.listening.postAcceptTimeout = w.listening.postAcceptTimeout)
    (hu : ∀ c, InUse w'.connection c ↔ InUse w.connection c) : Deadlines w' lo := by
  obtain ⟨hb, hd, l, hs⟩ := h
  refine ⟨hb, by rw [hl]; exact hd, l, by rw [ht]; exact hs.tracks, fun ev => ?_, fun e he => ?_⟩
  · rw [hs.ticking ev, Ticking, Ticking, ht, hu]
  · rw [ahead, ht, hl]
    exact hs.key e he

/-- A bound further back. -/
lemma Deadlines.mono (h : Deadlines w lo) {lo' : ℤ} (hlo : -2 ^ 62 ≤ lo') (hle : lo' ≤ lo) :
    Deadlines w lo' := by
  obtain ⟨hb, hd, l, hs⟩ := h
  refine ⟨⟨hlo, by omega⟩, hd, l, hs.tracks, hs.ticking, fun e he => ?_⟩
  have := hs.key e he
  omega

/-! ## The operations on timers -/

/-- An armed timer is taken out of the tree. -/
lemma Schedule.delete {l : List (Entry (EventId n))} (h : Schedule w lo l) (hev : Ticking w ev) :
    ∃ tree, rbtreeDelete (timerFuel n) w.timers.tree (.node ev) = some tree ∧
      Schedule { w with timers := { w.timers with
        tree := tree, timerSet := Function.update w.timers.timerSet ev false } } lo
        (l.filter fun o => o.1 ≠ ev) := by
  obtain ⟨tree, hrun, ht⟩ := h.tracks.delete_step ((h.ticking ev).mpr hev) h.length_lt
  refine ⟨tree, hrun, ht, fun ev' => ?_, fun e he => h.key e (List.mem_filter.mp he).1⟩
  have hmem : ev' ∈ (l.filter fun o => o.1 ≠ ev).map Prod.fst ↔
      ev' ∈ l.map Prod.fst ∧ ev' ≠ ev := by
    simp only [List.mem_map, List.mem_filter, decide_eq_true_eq]
    constructor
    · rintro ⟨o, ⟨ho, hne⟩, rfl⟩
      exact ⟨⟨o, ho, rfl⟩, hne⟩
    · rintro ⟨⟨o, ho, rfl⟩, hne⟩
      exact ⟨o, ⟨ho, hne⟩, rfl⟩
  rw [hmem, h.ticking ev', Ticking, Ticking]
  by_cases he : ev' = ev <;> simp [he]

/-- `if (ev->timer_set) event_del_timer(ev)`. -/
lemma Deadlines.clearTimer (h : Deadlines w lo) (hc : InUse w.connection ev.1)
    (hrun : clearTimer w ev = some w') : Deadlines w' lo := by
  obtain ⟨hb, hd, l, hs⟩ := h
  rw [Cycle.clearTimer] at hrun
  split_ifs at hrun with hset
  · obtain ⟨tree, hdel, hs'⟩ := hs.delete ⟨hc, hset⟩
    rw [delTimer, eventDelTimer, hdel] at hrun
    obtain rfl := Option.some.inj hrun
    exact ⟨hb, hd, _, hs'⟩
  · obtain rfl := Option.some.inj hrun
    exact ⟨hb, hd, l, hs⟩

/-- A timer that is not armed is put into the tree with the delay of the program. -/
lemma Deadlines.insert (h : Deadlines w lo) (hc : InUse w.connection ev.1)
    (hset : w.timers.timerSet ev = false) {tree : Mem (EventId n)}
    (hrun : rbtreeInsert (timerFuel n) (w.timers.tree.setKey (.node ev)
      (w.timers.currentMsec + w.listening.postAcceptTimeout)) (.node ev) = some tree) :
    Deadlines { w with timers := { w.timers with
      tree := tree, timerSet := Function.update w.timers.timerSet ev true } } lo := by
  have hdelay := h.delay_toInt
  have hkey := near_add w.timers.currentMsec h.delay.1 h.delay.2
  have hnear := fun l hs => Schedule.near (l := l) h hs
  obtain ⟨hb, hd, l, hs⟩ := h
  have hnot : ev ∉ l.map Prod.fst := by
    intro hm
    have := ((hs.ticking ev).mp hm).2
    rw [hset] at this
    cases this
  -- all keys lie near the clock, where `rbtree_insert_timer_value` orders them by time
  have hr : Ranks InsertPt.timerValue.less
      ((w.timers.currentMsec + w.listening.postAcceptTimeout) :: l.map Prod.snd) := by
    refine ranks_of_near w.timers.currentMsec fun k hk => ?_
    rcases List.mem_cons.mp hk with rfl | hk
    · exact hkey.1
    · obtain ⟨e, he, rfl⟩ := List.mem_map.mp hk
      exact hnear l hs e he
  obtain ⟨tree', hrun', ht⟩ := hs.tracks.insert_step hnot hr hs.length_lt
  obtain rfl : tree' = tree := Option.some.inj (hrun'.symm.trans hrun)
  refine ⟨hb, hd, _, ht, fun ev' => ?_, fun e he => ?_⟩
  · have hmem : ev' ∈ ((TreeOp.insert ev (w.timers.currentMsec +
        w.listening.postAcceptTimeout)).entries InsertPt.timerValue.less l).map Prod.fst ↔
        ev' = ev ∨ ev' ∈ l.map Prod.fst := by
      simp only [TreeOp.entries, List.mem_map, mem_placeEntry]
      constructor
      · rintro ⟨o, rfl | ho, rfl⟩
        · exact .inl rfl
        · exact .inr ⟨o, ho, rfl⟩
      · rintro (rfl | ⟨o, ho, rfl⟩)
        · exact ⟨_, .inl rfl, rfl⟩
        · exact ⟨o, .inr ho, rfl⟩
    rw [hmem, hs.ticking ev', Ticking, Ticking]
    by_cases he : ev' = ev
    · subst he
      simpa using hc
    · simp [he]
  · rcases mem_placeEntry.mp he with rfl | he
    · have hk : w.timers.currentMsec + w.listening.postAcceptTimeout - w.timers.currentMsec =
          w.listening.postAcceptTimeout := by ring
      show lo < (_ - w.timers.currentMsec).toInt ∧ (_ - w.timers.currentMsec).toInt ≤ _
      simp only [hk]
      omega
    · exact hs.key e he

/-- `event_add_timer` with the delay of the program. -/
lemma Deadlines.addTimer (h : Deadlines w lo) (hc : InUse w.connection ev.1)
    (hrun : addTimer w ev w.listening.postAcceptTimeout = some w') : Deadlines w' lo := by
  rw [Cycle.addTimer] at hrun
  obtain ⟨T, hT, hrun⟩ := Option.bind_eq_some_iff.mp hrun
  obtain rfl := Option.some.inj hrun
  by_cases hlazy : lazy w.timers ev (w.timers.currentMsec + w.listening.postAcceptTimeout) = true
  · -- the old key is near enough
    simp only [eventAddTimer, hlazy, if_true] at hT
    obtain rfl := Option.some.inj hT
    exact h
  rw [Bool.not_eq_true] at hlazy
  by_cases hset : w.timers.timerSet ev = true
  · -- the timer is disarmed first
    simp only [eventAddTimer, hlazy, hset, if_true, Bool.false_eq_true, if_false] at hT
    obtain ⟨T₁, hdel, hT⟩ := Option.bind_eq_some_iff.mp hT
    obtain ⟨tree, hins, hT⟩ := Option.bind_eq_some_iff.mp hT
    obtain rfl := Option.some.inj hT
    have h₁ : Deadlines { w with timers := T₁ } lo := by
      apply h.clearTimer hc
      rw [Cycle.clearTimer, if_pos hset, delTimer, hdel]
      rfl
    obtain ⟨tree₁, -, hdel⟩ := Option.bind_eq_some_iff.mp hdel
    obtain rfl := Option.some.inj hdel
    exact h₁.insert hc (Function.update_self _ _ _) hins
  · rw [Bool.not_eq_true] at hset
    simp only [eventAddTimer, hlazy, hset, Bool.false_eq_true, if_false, Option.pure_def,
      Option.bind_eq_bind, Option.bind_some] at hT
    obtain ⟨tree, hins, hT⟩ := Option.bind_eq_some_iff.mp hT
    obtain rfl := Option.some.inj hT
    exact h.insert hc hset hins

/-! ## Slots -/

/-- A slot without armed timers is freed. -/
lemma Deadlines.release (h : Deadlines w lo) (ht : w'.timers = w.timers)
    (hl : w'.listening.postAcceptTimeout = w.listening.postAcceptTimeout)
    (hc : ∀ i, w.timers.timerSet (c, i) = false)
    (hu : ∀ d, InUse w'.connection d ↔ InUse w.connection d ∧ d ≠ c) : Deadlines w' lo := by
  obtain ⟨hb, hd, l, hs⟩ := h
  refine ⟨hb, by rw [hl]; exact hd, l, by rw [ht]; exact hs.tracks, fun ev => ?_, fun e he => ?_⟩
  · rw [hs.ticking ev, Ticking, Ticking, ht, hu]
    obtain ⟨d, i⟩ := ev
    by_cases hdc : d = c
    · subst hdc
      simp [hc]
    · simp [hdc]
  · rw [ahead, ht, hl]
    exact hs.key e he

/-- A node that is not in the tree is cleared. -/
lemma Schedule.zeroNode {l : List (Entry (EventId n))} (h : Schedule w lo l)
    (hev : ¬ Ticking w ev) :
    Schedule { w with timers := { w.timers with tree := w.timers.tree.zeroNode ev } } lo l := by
  have hnot : ev ∉ l.map Prod.fst := fun hm => hev ((h.ticking ev).mp hm)
  obtain ⟨⟨t, ht, hl⟩, hkey, hi, hsort⟩ := h.tracks
  refine ⟨⟨⟨t, ht.zeroNode (by rwa [hl]), hl⟩, fun e he => ?_, hi, hsort⟩, h.ticking, h.key⟩
  have hne : e.1 ≠ ev := fun e' => hnot (e' ▸ List.mem_map_of_mem he)
  simpa [Mem.zeroNode, hne] using hkey e he

/-- A free slot is taken. -/
lemma Deadlines.taken (h : Deadlines w lo) (hc : ¬ InUse w.connection c) (s : ℤ) :
    Deadlines (w.taken c s) lo := by
  obtain ⟨hb, hd, l, hs⟩ := h
  have hnot : ∀ i, ¬ Ticking w (c, i) := fun i ht => hc ht.1
  have hnot' : ¬ Ticking { w with timers := { w.timers with
      tree := w.timers.tree.zeroNode (c, .read) } } (c, .write) := hnot .write
  have hs' := (hs.zeroNode (hnot .read)).zeroNode hnot'
  refine ⟨hb, hd, l, hs'.tracks, fun ev => ?_, hs'.key⟩
  rw [hs.ticking ev, Ticking, Ticking]
  obtain ⟨d, i⟩ := ev
  by_cases hdc : d = c
  · subst hdc
    simp [Worker.taken, hc]
  · simp [Worker.taken, InUse, hdc]

/-! ## The clock -/

/-- The clock goes on by less than half its range. -/
lemma Deadlines.tick (h : Deadlines w 0) (now : BitVec 64)
    (hnow : (now - w.timers.currentMsec).toNat < 2 ^ 62) :
    Deadlines { w with timers := { w.timers with currentMsec := now } } (-2 ^ 62) := by
  have hdelay := h.delay_toInt
  have hd := h.delay
  obtain ⟨l, hs⟩ := h.schedule
  refine ⟨by omega, hd, l, hs.tracks, hs.ticking, fun e he => ?_⟩
  have hk := hs.key e he
  unfold ahead at hk ⊢
  show -2 ^ 62 < (e.2 - now).toInt ∧ (e.2 - now).toInt ≤ w.listening.postAcceptTimeout.toInt
  -- the time ahead shrinks by what the clock went on
  have hsub : e.2 - now = (e.2 - w.timers.currentMsec) - (now - w.timers.currentMsec) := by ring
  rw [hsub]
  generalize e.2 - w.timers.currentMsec = a at hk
  generalize now - w.timers.currentMsec = b at hnow
  rw [BitVec.toInt_eq_toNat_cond] at hk ⊢
  rw [BitVec.toNat_sub]
  have ha := a.isLt
  split_ifs at hk ⊢ <;> omega

/-- One round of `event_expire_timers`: nothing is due any more, or the first timer goes. -/
lemma Deadlines.expireNext (h : Deadlines w lo) :
    (timersNext w = some none ∧ Deadlines w 0) ∨
      ∃ ev w', timersNext w = some (some (ev, w')) ∧ Deadlines w' lo := by
  have hnear := fun l hs => Schedule.near (l := l) h hs
  obtain ⟨hb, hd, l, hs⟩ := h
  cases l with
  | nil =>
    left
    refine ⟨?_, ⟨by omega, hd, [], hs.tracks, hs.ticking, fun e he => absurd he List.not_mem_nil⟩⟩
    simp [timersNext, Timer.expireNext, hs.tracks.root_nil]
  | cons e l =>
    have hlen := hs.length_lt
    rw [List.length_cons] at hlen
    obtain ⟨hroot, hmin⟩ := hs.tracks.min_cons (by omega : _ < timerFuel n)
    have hkey : w.timers.tree.key (.node e.1) = e.2 := hs.tracks.key e (.head _)
    by_cases hdue : 0 < (e.2 - w.timers.currentMsec).toInt
    · left
      refine ⟨?_, by omega, hd, e :: l, hs.tracks, hs.ticking, fun o ho => ?_⟩
      · simp [timersNext, Timer.expireNext, hroot, hmin, hkey, hdue, -BitVec.toInt_sub]
      · -- the others are not before the first one
        refine ⟨?_, (hs.key o ho).2⟩
        rcases List.mem_cons.mp ho with rfl | ho'
        · exact hdue
        · have hsort := (List.pairwise_cons.mp hs.tracks.sorted).1 o ho'
          simp only [InsertPt.less, decide_eq_false_iff_not] at hsort
          rw [near_sub_neg_iff (hnear _ hs o ho) (hnear _ hs e (.head _))] at hsort
          unfold ahead
          omega
    · -- the first timer is due
      right
      have htick : Ticking w e.1 := (hs.ticking e.1).mp (List.mem_map_of_mem (.head _))
      obtain ⟨tree, hdel, hs'⟩ := hs.delete htick
      have hnext : timersNext w = some (some (e.1, { w with timers := {
          tree := tree
          timerSet := Function.update w.timers.timerSet e.1 false
          timedout := Function.update w.timers.timedout e.1 true
          currentMsec := w.timers.currentMsec } })) := by
        simp [timersNext, Timer.expireNext, hroot, hmin, hkey, hdue, eventDelTimer, hdel,
          -BitVec.toInt_sub]
      exact ⟨e.1, _, hnext, hb, hd, _, hs'.tracks, hs'.ticking, hs'.key⟩

end Libcn.Program
