import Libcn.Timer.Basic
import Mathlib.Data.Fintype.Card

/-!
# The timer tree as a list of armings

`TimerTree T arms` ties the red-black tree, the `timer_set` bits and the order in which the
armed events were armed together; each operation of `event_timer.c` keeps it.
-/

namespace Libcn.Timer

open Libcn.Lib Libcn.Rbtree

variable {ι : Type}

/-! ## Keys near the clock -/

/-- The key lies within `2 ^ 62` of `now` in signed difference. -/
def Near (now key : BitVec 64) : Prop :=
  -2 ^ 62 < (key - now).toInt ∧ (key - now).toInt < 2 ^ 62

/-- Keys near the clock lie in one window. -/
lemma Near.offset {now key : BitVec 64} (h : Near now key) :
    (offset (now - 0x4000000000000000#64) key : ℤ) = (key - now).toInt + 2 ^ 62 := by
  obtain ⟨h₁, h₂⟩ := h
  have hk : key - (now - 0x4000000000000000#64) = (key - now) + 0x4000000000000000#64 := by ring
  unfold Lib.offset
  rw [hk]
  generalize key - now = d at *
  rw [BitVec.toInt_eq_toNat_cond] at *
  have h62 : (0x4000000000000000#64).toNat = 2 ^ 62 := by decide
  rw [BitVec.toNat_add, h62]
  have hd := d.isLt
  split_ifs at * <;> omega

/-- A delay short of `2 ^ 62` gives a key after the clock and near it. -/
lemma near_add (now : BitVec 64) {timer : BitVec 64} (h₁ : 1 ≤ timer.toNat) (h₂ : timer.toNat < 2 ^ 62) :
    Near now (now + timer) ∧ 0 < (now + timer - now).toInt := by
  have hk : now + timer - now = timer := by ring
  unfold Near
  rw [hk, BitVec.toInt_eq_toNat_cond]
  split_ifs <;> omega

/-- Comparison of keys near the clock. -/
lemma ranks_of_near (now : BitVec 64) {keys : List (BitVec 64)} (h : ∀ k ∈ keys, Near now k) :
    Ranks InsertPt.timerValue.less keys := by
  refine ranks_of_offset (now - 0x4000000000000000#64) fun k hk => ?_
  have h₁ := (h k hk).offset
  have h₂ := (h k hk).2
  omega

/-! ## The tree and the order of arming -/

/-- The timers hold a red-black tree sorted by key whose nodes are the events `arms`, listed in
the order they were armed; equal keys stand in that order, and `timer_set` mirrors membership. -/
structure TimerTree (T : Timers ι) (arms : List ι) : Prop where
  tracks : ∃ l, Tracks T.tree .timerValue l ∧ (l.map Prod.fst).Perm arms ∧
    l.Pairwise fun a b => a.2 = b.2 → [a.1, b.1].Sublist arms
  armed : ∀ i, T.timerSet i = true ↔ i ∈ arms

lemma TimerTree.nodup {T : Timers ι} {arms : List ι} (h : TimerTree T arms) : arms.Nodup := by
  obtain ⟨l, ht, hp, -⟩ := h.tracks
  exact hp.nodup_iff.mp ht.nodup

/-- All armed keys lie near the clock. -/
def NearKeys (T : Timers ι) : Prop := ∀ i, T.timerSet i = true → Near T.currentMsec (T.key i)

/-- The timer of `i` is armed and due. -/
def Expired (T : Timers ι) (i : ι) : Prop :=
  T.timerSet i = true ∧ (T.key i - T.currentMsec).toInt ≤ 0

variable [DecidableEq ι]

instance (T : Timers ι) (i : ι) : Decidable (Expired T i) :=
  inferInstanceAs (Decidable (_ ∧ _))

/-- What `event_del_timer` does to an armed event. -/
lemma eventDelTimer_spec {fuel : ℕ} {T : Timers ι} {arms : List ι} {ev : ι}
    (h : TimerTree T arms) (hev : ev ∈ arms) (hf : arms.length < fuel) :
    ∃ T', eventDelTimer fuel T ev = some T' ∧ TimerTree T' (arms.erase ev) ∧
      T'.timerSet = Function.update T.timerSet ev false ∧
      (∀ i ∈ arms, i ≠ ev → T'.key i = T.key i) ∧
      T'.timedout = T.timedout ∧ T'.currentMsec = T.currentMsec := by
  have hn := h.nodup
  obtain ⟨⟨l, ht, hp, htie⟩, harm⟩ := h
  obtain ⟨m', hrun, ht'⟩ := ht.delete_step (hp.mem_iff.mpr hev)
    (by rw [← List.length_map Prod.fst, hp.length_eq]; exact hf)
  have hfst : (l.filter fun o => o.1 ≠ ev).map Prod.fst = (l.map Prod.fst).erase ev := by
    rw [ht.nodup.erase_eq_filter, List.filter_map]
    congr 1
    refine List.filter_congr fun o _ => ?_
    simp [bne, Function.comp, beq_eq_decide]
  refine ⟨{ T with tree := m', timerSet := Function.update T.timerSet ev false }, ?_,
    ⟨⟨l.filter fun o => o.1 ≠ ev, ht', ?_, ?_⟩, ?_⟩, rfl, ?_, rfl, rfl⟩
  · simp only [TreeOp.run] at hrun
    simp [eventDelTimer, hrun]
  · rw [hfst]
    exact hp.erase ev
  · refine (htie.filter _).imp_of_mem fun {a b} ha hb hab heq => ?_
    have ha' : a.1 ≠ ev := by simpa using (List.mem_filter.mp ha).2
    have hb' : b.1 ≠ ev := by simpa using (List.mem_filter.mp hb).2
    have := (hab heq).erase ev
    rwa [List.erase_cons_tail (by simpa using ha'), List.erase_cons_tail (by simpa using hb'),
      List.erase_nil] at this
  · intro i
    rw [hn.mem_erase_iff, ← harm i]
    by_cases hi : i = ev <;> simp [hi]
  · intro i hi hne
    obtain ⟨e, he, rfl⟩ := List.mem_map.mp (hp.mem_iff.mpr hi)
    have h₁ := ht.key e he
    have h₂ := ht'.key e (List.mem_filter.mpr ⟨he, by simpa using hne⟩)
    exact h₂.trans h₁.symm

/-- What the second half of `event_add_timer` does to an event that is not armed. -/
lemma insertTimer_spec {fuel : ℕ} {T : Timers ι} {arms : List ι} {ev : ι} {key : BitVec 64}
    (h : TimerTree T arms) (hev : ev ∉ arms)
    (hnear : NearKeys T) (hkey : Near T.currentMsec key) (hf : arms.length < fuel) :
    ∃ tree, rbtreeInsert fuel (T.tree.setKey (.node ev) key) (.node ev) = some tree ∧
      TimerTree { T with tree := tree, timerSet := Function.update T.timerSet ev true }
        (arms ++ [ev]) ∧
      (∀ i ∈ arms, tree.key (.node i) = T.key i) ∧ tree.key (.node ev) = key := by
  obtain ⟨⟨l, ht, hp, htie⟩, harm⟩ := h
  have hmem : ∀ e ∈ l, e.1 ∈ arms := fun e he => hp.mem_iff.mp (List.mem_map_of_mem he)
  have hr : Ranks InsertPt.timerValue.less (key :: l.map Prod.snd) := by
    refine ranks_of_near T.currentMsec fun k hk => ?_
    rcases List.mem_cons.mp hk with rfl | hk
    · exact hkey
    · obtain ⟨e, he, rfl⟩ := List.mem_map.mp hk
      rw [← ht.key e he]
      exact hnear e.1 ((harm e.1).mpr (hmem e he))
  obtain ⟨tree, hrun, ht'⟩ := ht.insert_step (fun hx => hev (hp.mem_iff.mp hx)) hr
    (by rw [← List.length_map Prod.fst, hp.length_eq]; exact hf)
  have hmem' : ∀ e ∈ (ev, key) :: l, e ∈ (TreeOp.insert ev key).entries InsertPt.timerValue.less l :=
    fun e he => mem_placeEntry.mpr (List.mem_cons.mp he)
  refine ⟨tree, hrun, ⟨⟨_, ht', ?_, ?_⟩, ?_⟩, ?_, ht'.key _ (hmem' _ (.head _))⟩
  · refine ((placeEntry_perm _ _ _).map Prod.fst).trans ?_
    exact (hp.cons ev).trans (List.perm_append_singleton ev arms).symm
  · -- an equal key is armed before, so it stands before
    have hsub : ∀ a b : ι, [a, b].Sublist arms → [a, b].Sublist (arms ++ [ev]) := fun a b h =>
      h.trans (List.sublist_append_left _ _)
    refine List.pairwise_append.mpr ⟨(htie.filter _).imp fun h e => hsub _ _ (h e),
      List.pairwise_cons.mpr ⟨?_, (htie.filter _).imp fun h e => hsub _ _ (h e)⟩, ?_⟩
    · intro b hb heq
      have := (List.mem_filter.mp hb).2
      simp only [← heq] at this
      simp [InsertPt.less] at this
    · intro a ha b hb heq
      obtain ⟨ha, hless⟩ := List.mem_filter.mp ha
      rcases List.mem_cons.mp hb with rfl | hb
      · exact (List.singleton_sublist.mpr (hmem a ha)).append (List.Sublist.refl [ev])
      · have := (List.mem_filter.mp hb).2
        simp only [← heq] at this
        simp [this] at hless
  · intro i
    by_cases hi : i = ev
    · simp [hi]
    · simp [hi, ← harm i]
  · intro i hi
    obtain ⟨e, he, rfl⟩ := List.mem_map.mp (hp.mem_iff.mpr hi)
    exact (ht'.key e (hmem' e (.tail _ he))).trans (ht.key e he).symm

/-- The first half of `event_add_timer`: an armed event is taken out of the tree. -/
lemma disarm_spec {fuel : ℕ} {T : Timers ι} {arms : List ι} (h : TimerTree T arms) (ev : ι)
    (hnear : NearKeys T) (hf : arms.length < fuel) :
    ∃ T', (if T.timerSet ev then eventDelTimer fuel T ev else some T) = some T' ∧
      TimerTree T' (arms.erase ev) ∧ NearKeys T' ∧
      Function.update T'.timerSet ev true = Function.update T.timerSet ev true ∧
      (∀ i ∈ arms, i ≠ ev → T'.key i = T.key i) ∧
      T'.timedout = T.timedout ∧ T'.currentMsec = T.currentMsec := by
  by_cases hset : T.timerSet ev = true
  · obtain ⟨T', hrun, ht, hts, hk, htm, hnow⟩ := eventDelTimer_spec h ((h.armed ev).mp hset) hf
    refine ⟨T', by rw [if_pos hset, hrun], ht, ?_, by rw [hts, Function.update_idem], hk, htm, hnow⟩
    intro i hi
    rw [ht.armed] at hi
    have hne : i ≠ ev := fun e => (h.nodup.mem_erase_iff.mp hi).1 e
    have hmem := List.mem_of_mem_erase hi
    rw [hk i hmem hne, hnow]
    exact hnear i ((h.armed i).mpr hmem)
  · have hev : ev ∉ arms := fun hm => hset ((h.armed ev).mpr hm)
    refine ⟨T, by rw [if_neg hset], ?_, hnear, rfl, fun _ _ _ => rfl, rfl, rfl⟩
    rwa [List.erase_of_not_mem hev]

/-- The order of arming after `event_add_timer`. -/
def addArms (T : Timers ι) (arms : List ι) (ev : ι) (timer : BitVec 64) : List ι :=
  if lazy T ev (T.currentMsec + timer) then arms else arms.erase ev ++ [ev]

/-- What `event_add_timer` does. -/
lemma eventAddTimer_spec {fuel : ℕ} {T : Timers ι} {arms : List ι} {ev : ι} {timer : BitVec 64}
    (h : TimerTree T arms) (hnear : NearKeys T) (hkey : Near T.currentMsec (T.currentMsec + timer))
    (hf : arms.length < fuel) :
    ∃ T', eventAddTimer fuel T ev timer = some T' ∧ TimerTree T' (addArms T arms ev timer) ∧
      T'.timerSet = Function.update T.timerSet ev true ∧
      (∀ i ∈ arms, i ≠ ev → T'.key i = T.key i) ∧
      (T'.key ev = if lazy T ev (T.currentMsec + timer) then T.key ev
        else T.currentMsec + timer) ∧
      T'.timedout = T.timedout ∧ T'.currentMsec = T.currentMsec := by
  unfold addArms
  by_cases hlazy : lazy T ev (T.currentMsec + timer) = true
  · have hset : T.timerSet ev = true := by
      unfold lazy at hlazy
      exact (Bool.and_eq_true _ _ ▸ hlazy).1
    refine ⟨T, by simp [eventAddTimer, hlazy], by rwa [if_pos hlazy], ?_, fun _ _ _ => rfl,
      by rw [if_pos hlazy], rfl, rfl⟩
    rw [← hset, Function.update_eq_self]
  · obtain ⟨T₁, hrun₁, h₁, hnear₁, hts₁, hk₁, htm₁, hnow₁⟩ := disarm_spec h ev hnear hf
    have hev : ev ∉ arms.erase ev := h.nodup.not_mem_erase
    have hlen : (arms.erase ev).length < fuel := (List.length_erase_le).trans_lt hf
    obtain ⟨tree, hins, ht, hk, hkev⟩ :=
      insertTimer_spec h₁ hev hnear₁ (by rwa [hnow₁]) hlen
    refine ⟨{ T₁ with tree := tree, timerSet := Function.update T₁.timerSet ev true }, ?_,
      by rwa [if_neg hlazy], hts₁, fun i hi hne => ?_, by rwa [if_neg hlazy], htm₁, hnow₁⟩
    · split_ifs at hrun₁ with hset
      · simp [eventAddTimer, hlazy, hset, hrun₁, hins]
      · obtain rfl := Option.some.inj hrun₁
        simp [eventAddTimer, hlazy, hset, hins]
    · rw [← hk₁ i hi hne]
      exact hk i ((List.mem_erase_of_ne hne).mpr hi)

/-! ## Handler calls -/

/-- The order of arming after a handler call. -/
def TimerCall.arms (T : Timers ι) (arms : List ι) : TimerCall ι → List ι
  | .add ev timer => addArms T arms ev timer
  | .del ev => arms.erase ev

/-- A change that arms no due timer: what is due after it was due before, with the same key
and in the same order. -/
structure Keeps (T T' : Timers ι) (arms arms' : List ι) : Prop where
  expired : ∀ i, Expired T' i → Expired T i ∧ T'.key i = T.key i
  order : ∀ i j, Expired T' i → Expired T' j → [i, j].Sublist arms' → [i, j].Sublist arms
  currentMsec : T'.currentMsec = T.currentMsec

omit [DecidableEq ι] in
lemma Keeps.refl (T : Timers ι) (arms : List ι) : Keeps T T arms arms :=
  ⟨fun _ h => ⟨h, rfl⟩, fun _ _ _ _ h => h, rfl⟩

omit [DecidableEq ι] in
lemma Keeps.trans {T₁ T₂ T₃ : Timers ι} {a₁ a₂ a₃ : List ι} (h : Keeps T₁ T₂ a₁ a₂)
    (h' : Keeps T₂ T₃ a₂ a₃) : Keeps T₁ T₃ a₁ a₃ := by
  refine ⟨fun i hi => ?_, fun i j hi hj hs => ?_, h'.currentMsec.trans h.currentMsec⟩
  · obtain ⟨h₂, hk₂⟩ := h'.expired i hi
    obtain ⟨h₁, hk₁⟩ := h.expired i h₂
    exact ⟨h₁, hk₂.trans hk₁⟩
  · exact h.order i j (h'.expired i hi).1 (h'.expired j hj).1 (h'.order i j hi hj hs)

lemma sublist_of_erase_append {arms : List ι} {ev i j : ι} (hi : i ≠ ev) (hj : j ≠ ev)
    (h : [i, j].Sublist (arms.erase ev ++ [ev])) : [i, j].Sublist arms := by
  have h₁ : [i, j].Sublist ((arms.erase ev).filter fun k => decide (k ≠ ev)) := by
    simpa [hi, hj] using h.filter fun k => decide (k ≠ ev)
  exact h₁.trans (List.filter_sublist.trans List.erase_sublist)

/-- What one handler call does. -/
lemma TimerCall.run_spec {fuel : ℕ} {T : Timers ι} {arms : List ι} {call : TimerCall ι}
    {calls : List (TimerCall ι)} (h : TimerTree T arms) (hnear : NearKeys T)
    (hlegal : LegalCalls T.timerSet (call :: calls)) (hf : arms.length < fuel) :
    ∃ T', call.run fuel T = some T' ∧ TimerTree T' (call.arms T arms) ∧ NearKeys T' ∧
      LegalCalls T'.timerSet calls ∧ Keeps T T' arms (call.arms T arms) ∧
      ∀ i, Expired T' i → call ≠ .del i := by
  cases call with
  | del ev =>
    obtain ⟨hset, hlegal⟩ := hlegal
    obtain ⟨T', hrun, ht, hts, hk, -, hnow⟩ := eventDelTimer_spec h ((h.armed ev).mp hset) hf
    have hback : ∀ i, T'.timerSet i = true → i ≠ ev ∧ T.timerSet i = true ∧ T'.key i = T.key i := by
      intro i hi
      obtain ⟨hne, hmem⟩ := h.nodup.mem_erase_iff.mp ((ht.armed i).mp hi)
      exact ⟨hne, (h.armed i).mpr hmem, hk i hmem hne⟩
    refine ⟨T', hrun, ht, ?_, by rwa [hts], ⟨?_, ?_, hnow⟩, ?_⟩
    · intro i hi
      obtain ⟨-, hi', hki⟩ := hback i hi
      rw [hki, hnow]
      exact hnear i hi'
    · intro i hi
      obtain ⟨-, hi', hki⟩ := hback i hi.1
      refine ⟨⟨hi', ?_⟩, hki⟩
      rw [← hki, ← hnow]
      exact hi.2
    · intro i j _ _ hs
      exact hs.trans List.erase_sublist
    · intro i hi e
      exact (hback i hi.1).1 (TimerCall.del.inj e).symm
  | add ev timer =>
    obtain ⟨h₁, h₂, hlegal⟩ := hlegal
    obtain ⟨hkey, hpos⟩ := near_add T.currentMsec h₁ h₂
    obtain ⟨T', hrun, ht, hts, hk, hkev, -, hnow⟩ := eventAddTimer_spec h hnear hkey hf
    -- an armed event after the call: the new one, or one with its old key
    have hback : ∀ i, T'.timerSet i = true →
        (i = ev ∧ T'.key i = T.currentMsec + timer ∧ ¬ lazy T ev (T.currentMsec + timer) = true) ∨
        (T.timerSet i = true ∧ T'.key i = T.key i ∧
          (i = ev → lazy T ev (T.currentMsec + timer) = true)) := by
      intro i hi
      by_cases hie : i = ev
      · subst hie
        by_cases hlazy : lazy T i (T.currentMsec + timer) = true
        · rw [if_pos hlazy] at hkev
          have hset : T.timerSet i = true := by
            unfold lazy at hlazy
            exact (Bool.and_eq_true _ _ ▸ hlazy).1
          exact .inr ⟨hset, hkev, fun _ => hlazy⟩
        · rw [if_neg hlazy] at hkev
          exact .inl ⟨rfl, hkev, hlazy⟩
      · rw [hts, Function.update_of_ne hie] at hi
        exact .inr ⟨hi, hk i ((h.armed i).mp hi) hie, fun e => absurd e hie⟩
    refine ⟨T', hrun, ht, ?_, by rwa [hts], ⟨?_, ?_, hnow⟩, by simp⟩
    · intro i hi
      rw [hnow]
      rcases hback i hi with ⟨-, hki, -⟩ | ⟨hi', hki, -⟩
      · rwa [hki]
      · rw [hki]
        exact hnear i hi'
    · intro i hi
      rcases hback i hi.1 with ⟨-, hki, -⟩ | ⟨hi', hki, -⟩
      · have := hi.2
        rw [hki, hnow] at this
        omega
      · refine ⟨⟨hi', ?_⟩, hki⟩
        rw [← hki, ← hnow]
        exact hi.2
    · intro i j hi hj hs
      have hne : ∀ k, Expired T' k → k = ev → lazy T ev (T.currentMsec + timer) = true := by
        intro k hk' hke
        rcases hback k hk'.1 with ⟨-, hki, -⟩ | ⟨-, -, hlazy⟩
        · have := hk'.2
          rw [hki, hnow] at this
          omega
        · exact hlazy hke
      simp only [TimerCall.arms, addArms] at hs
      by_cases hlazy : lazy T ev (T.currentMsec + timer) = true
      · rwa [if_pos hlazy] at hs
      · rw [if_neg hlazy] at hs
        exact sublist_of_erase_append (fun e => hlazy (hne i hi e)) (fun e => hlazy (hne j hj e)) hs

/-- What all the calls of one handler do. -/
lemma runCalls_spec {fuel : ℕ} [Fintype ι] {T : Timers ι} {arms : List ι}
    {calls : List (TimerCall ι)} (h : TimerTree T arms) (hnear : NearKeys T)
    (hlegal : LegalCalls T.timerSet calls) (hf : Fintype.card ι < fuel) :
    ∃ T' arms', runCalls fuel T calls = some T' ∧ TimerTree T' arms' ∧ NearKeys T' ∧
      Keeps T T' arms arms' ∧ ∀ i, Expired T' i → .del i ∉ calls := by
  induction calls generalizing T arms with
  | nil => exact ⟨T, arms, rfl, h, hnear, .refl T arms, by simp⟩
  | cons call calls ih =>
    have hlen : arms.length < fuel := (h.nodup.length_le_card).trans_lt hf
    obtain ⟨T₁, hrun₁, h₁, hnear₁, hlegal₁, hkeep₁, hdel₁⟩ := call.run_spec h hnear hlegal hlen
    obtain ⟨T', arms', hrun, h', hnear', hkeep, hdel⟩ := ih h₁ hnear₁ hlegal₁
    refine ⟨T', arms', ?_, h', hnear', hkeep₁.trans hkeep, ?_⟩
    · rw [runCalls, List.foldlM_cons, hrun₁]
      exact hrun
    · intro i hi hmem
      rcases List.mem_cons.mp hmem with rfl | hmem
      · exact hdel₁ i (hkeep.expired i hi).1 rfl
      · exact hdel i hi hmem

end Libcn.Timer
