import Libcn.Timer.Mirror

/-!
# Arming a timer again

`event_add_timer` on an armed event leaves the timer alone where the new key is close to the old
one. Closeness is tested with `c_abs` of a signed difference, which is the smaller of the two ways
around from one key to the other.
-/

namespace Libcn.Timer

open Libcn.Lib Libcn.Rbtree

variable {ι : Type}

/-- The smaller of the two ways around from one key to the other. -/
def distance (a b : BitVec 64) : ℕ := min (a - b).toNat (b - a).toNat

lemma distance_self (a : BitVec 64) : distance a a = 0 := by simp [distance]

/-- `c_abs` of a difference is the distance. -/
lemma cAbs_eq_distance (a b : BitVec 64) : cAbs (a - b) = distance b a := by
  have hneg : b - a = -(a - b) := by ring
  rw [distance, hneg]
  generalize a - b = d
  have hd := d.isLt
  have hdneg := BitVec.toNat_neg d
  have hint := BitVec.toInt_eq_toNat_cond d
  unfold cAbs
  by_cases hpos : 0 ≤ d.toInt
  · rw [if_pos hpos]
    split_ifs at hint <;> omega
  · rw [if_neg hpos]
    split_ifs at hint <;> omega

/-- When `event_add_timer` keeps an armed timer. -/
lemma lazy_iff {T : Timers ι} {ev : ι} {key : BitVec 64} :
    lazy T ev key = true ↔ T.timerSet ev = true ∧ distance (T.key ev) key < 300 := by
  rw [lazy, Bool.and_eq_true, decide_eq_true_iff, cAbs_eq_distance, timerLazyDelay]
  norm_cast

variable [DecidableEq ι]

/-- The request of a caller of `event_add_timer` is honoured: the event is in the tree once, with
the requested key if it was not armed and else with one closer than `TIMER_LAZY_DELAY`, and the
other events keep theirs. -/
structure Honours (T T' : Timers ι) (ev : ι) (timer : BitVec 64) : Prop where
  once : ∃ t, Holds T'.tree t ∧ (∀ i, i ∈ t.toList ↔ T'.timerSet i = true) ∧
    t.toList.count ev = 1
  timerSet : T'.timerSet = Function.update T.timerSet ev true
  fresh : T.timerSet ev = false → T'.key ev = T.currentMsec + timer
  near : T.timerSet ev = true → distance (T'.key ev) (T.currentMsec + timer) < 300
  others : ∀ i, i ≠ ev → T'.key i = T.key i

variable {T : Timers ι}

omit [DecidableEq ι] in
/-- The key after the call is close to the request, also when the timer was kept. -/
lemma near_of_key {T' : Timers ι} {ev : ι} {key : BitVec 64}
    (hkey : T'.key ev = if lazy T ev key then T.key ev else key) :
    distance (T'.key ev) key < 300 := by
  by_cases hlazy : lazy T ev key = true
  · rw [hkey, if_pos hlazy]
    exact (lazy_iff.mp hlazy).2
  · rw [hkey, if_neg hlazy, distance_self]
    decide

variable [Fintype ι] {fuel : ℕ}

/-- What `event_add_timer` does. -/
lemma eventAddTimer_rearms (h : Mirrors T fun _ => True) (ev : ι) (timer : BitVec 64)
    (hf : Fintype.card ι < fuel) :
    ∃ T', eventAddTimer fuel T ev timer = some T' ∧ Mirrors T' (fun _ => True) ∧
      Honours T T' ev timer ∧ distance (T'.key ev) (T.currentMsec + timer) < 300 := by
  obtain ⟨T', hrun, hm, hts, -, -, -, hkey⟩ :=
    eventAddTimer_keyed h (show (fun _ => True) ev from trivial) timer hf
  have hev : T'.key ev = if lazy T ev (T.currentMsec + timer) then T.key ev
      else T.currentMsec + timer := by
    unfold Timers.key
    by_cases hlazy : lazy T ev (T.currentMsec + timer) = true
    · rw [hkey, if_pos hlazy, if_pos hlazy]
    · rw [hkey, if_neg hlazy, if_neg hlazy, Function.update_self]
  have hothers : ∀ i, i ≠ ev → T'.key i = T.key i := by
    intro i hi
    unfold Timers.key
    rw [hkey]
    split
    · rfl
    · exact Function.update_of_ne (fun e => hi (Ptr.node.inj e)) _ _
  have hnear := near_of_key hev
  refine ⟨T', hrun, hm, ?_, hnear⟩
  obtain ⟨t, ht, hmem⟩ := id hm
  obtain ⟨p₀, hfoc⟩ := ht.focus
  refine ⟨⟨t, ht, fun i => by simpa using hmem i, ?_⟩, hts, fun hset => ?_, fun _ => hnear, hothers⟩
  · have hin : ev ∈ t.toList := (hmem ev).mpr ⟨trivial, by simp [hts]⟩
    exact List.count_eq_one_of_mem (show t.toList.Nodup from hfoc.nodup) hin
  · have hlazy : ¬ lazy T ev (T.currentMsec + timer) = true := by
      intro e
      rw [(lazy_iff.mp e).1] at hset
      cases hset
    rw [hev, if_neg hlazy]

/-- Successive calls of `event_add_timer` on one event: the clock at each, and the delay. -/
def rearm (fuel : ℕ) (T : Timers ι) (ev : ι) (calls : List (BitVec 64 × BitVec 64)) :
    Option (Timers ι) :=
  calls.foldlM (fun T c => eventAddTimer fuel { T with currentMsec := c.1 } ev c.2) T

lemma rearm_mirrors (h : Mirrors T fun _ => True) (ev : ι) (hf : Fintype.card ι < fuel)
    (calls : List (BitVec 64 × BitVec 64)) :
    ∃ T', rearm fuel T ev calls = some T' ∧ Mirrors T' fun _ => True := by
  induction calls generalizing T with
  | nil => exact ⟨T, rfl, h⟩
  | cons c calls ih =>
    obtain ⟨T₁, hrun, h₁, -⟩ :=
      eventAddTimer_rearms (T := { T with currentMsec := c.1 }) h ev c.2 hf
    obtain ⟨T', hrun', h'⟩ := ih h₁
    refine ⟨T', ?_, h'⟩
    rw [rearm, List.foldlM_cons, hrun]
    exact hrun'

/-- The latest request is honoured; so after any chain of calls the key is close to the last
requested one, however the calls before moved it. -/
theorem eventAddTimer_honours (h : Holding T.tree fun i => T.timerSet i = true) (ev : ι)
    (hf : Fintype.card ι < fuel) :
    (∀ timer, ∃ T', eventAddTimer fuel T ev timer = some T' ∧ Honours T T' ev timer) ∧
    ∀ calls now timer, ∃ T₁ T₂, rearm fuel T ev calls = some T₁ ∧
      rearm fuel T ev (calls ++ [(now, timer)]) = some T₂ ∧
      Honours { T₁ with currentMsec := now } T₂ ev timer ∧
      distance (T₂.key ev) (now + timer) < 300 := by
  have hm : Mirrors T fun _ => True := h.congr fun i => by simp
  constructor
  · intro timer
    obtain ⟨T', hrun, -, hhonours, -⟩ := eventAddTimer_rearms hm ev timer hf
    exact ⟨T', hrun, hhonours⟩
  · intro calls now timer
    obtain ⟨T₁, hrun₁, h₁⟩ := rearm_mirrors hm ev hf calls
    obtain ⟨T₂, hrun₂, -, hhonours, hnear⟩ :=
      eventAddTimer_rearms (T := { T₁ with currentMsec := now }) h₁ ev timer hf
    refine ⟨T₁, T₂, hrun₁, ?_, hhonours, hnear⟩
    have hcons : rearm fuel T₁ ev [(now, timer)] = some T₂ := by
      rw [rearm, List.foldlM_cons, hrun₂]
      rfl
    rw [rearm, List.foldlM_append]
    exact (congrArg (· >>= _) hrun₁).trans hcons

lemma eventTimerInit_armed : Holding (eventTimerInit (Timers.zeroed : Timers (Fin 1))).tree
    fun i => (eventTimerInit (Timers.zeroed : Timers (Fin 1))).timerSet i = true :=
  (eventTimerInit_holding _).congr fun i => by simp [eventTimerInit, Timers.zeroed]

/-- At time 0 a timer is armed for time 5, and then for a time half the range later. -/
theorem eventAddTimer_honours_halfRange : ∃ T₁ T₂ : Timers (Fin 1),
    rearm 2 (eventTimerInit Timers.zeroed) 0 [(0, 5)] = some T₁ ∧
      rearm 2 (eventTimerInit Timers.zeroed) 0 [(0, 5), (0, 0x8000000000000005#64)] = some T₂ ∧
      Honours { T₁ with currentMsec := 0 } T₂ 0 0x8000000000000005#64 ∧
      distance (T₂.key 0) (0 + 0x8000000000000005#64) < 300 :=
  (eventAddTimer_honours eventTimerInit_armed 0 (by decide)).2 [(0, 5)] 0 0x8000000000000005#64

end Libcn.Timer
