import Libcn.Timer.Tree
import Mathlib.Tactic.NormNum

/-!
# Expiry

`event_expire_timers` takes the first timer as long as it is due, and calls its handler, which
may change the tree. No handler can arm a due timer, so the due timers get fewer, and what is
due later was due before with the same key and in the same order.
-/

namespace Libcn.Timer

open Libcn.Lib Libcn.Rbtree

variable {ι : Type} [DecidableEq ι]

/-! ## One round -/

/-- Near the clock the comparison of keys is the order of their distances from the clock. -/
lemma near_sub_neg_iff {now a b : BitVec 64} (ha : Near now a) (hb : Near now b) :
    (a - b).toInt < 0 ↔ (a - now).toInt < (b - now).toInt := by
  have h₁ := ha.offset
  have h₂ := hb.offset
  have h₃ := ha.2
  have h₄ := hb.2
  rw [sub_toInt_neg_iff (by omega : 2 * offset (now - 0x4000000000000000#64) a < 2 ^ 64) (by omega)]
  omega

/-- The first timer of a non-empty tree: no armed key is smaller, and an equal one was armed
later. -/
lemma first_spec {fuel : ℕ} {T : Timers ι} {arms : List ι} (h : TimerTree T arms)
    (hnear : NearKeys T) (hne : arms ≠ []) (hf : arms.length < fuel) :
    ∃ ev ∈ arms, T.tree.root ≠ .sentinel ∧
      rbtreeMin T.tree fuel T.tree.root = some (.node ev) ∧
      ∀ j ∈ arms, j ≠ ev → (T.key ev - T.currentMsec).toInt ≤ (T.key j - T.currentMsec).toInt ∧
        (T.key ev = T.key j → [ev, j].Sublist arms) := by
  obtain ⟨⟨l, ht, hp, htie⟩, harm⟩ := h
  rcases l with _ | ⟨e, l⟩
  · exact absurd (List.nil_perm.mp hp) hne
  have hlen := hp.length_eq
  rw [List.length_map, List.length_cons] at hlen
  obtain ⟨hroot, hmin⟩ := ht.min_cons (by omega : _ < fuel)
  have hmem : ∀ o ∈ e :: l, o.1 ∈ arms := fun o ho => hp.mem_iff.mp (List.mem_map_of_mem ho)
  refine ⟨e.1, hmem e (.head _), hroot, hmin, fun j hj hje => ?_⟩
  obtain ⟨o, ho, rfl⟩ := List.mem_map.mp (hp.mem_iff.mpr hj)
  have hol : o ∈ l := (List.mem_cons.mp ho).resolve_left fun e => hje (e ▸ rfl)
  have hsort := (List.pairwise_cons.mp ht.sorted).1 o hol
  have hke : T.key e.1 = e.2 := ht.key e (.head _)
  have hko : T.key o.1 = o.2 := ht.key o ho
  have hn₁ := hnear e.1 ((harm e.1).mpr (hmem e (.head _)))
  have hn₂ := hnear o.1 ((harm o.1).mpr hj)
  refine ⟨?_, fun heq => (List.pairwise_cons.mp htie).1 o hol (by rw [← hke, ← hko, heq])⟩
  simp only [InsertPt.less, decide_eq_false_iff_not, ← hke, ← hko] at hsort
  rw [near_sub_neg_iff hn₂ hn₁] at hsort
  omega

/-- One round that calls a handler. -/
structure Fires (T T' : Timers ι) (arms : List ι) (ev : ι) : Prop where
  expired : Expired T ev
  tree : TimerTree T' (arms.erase ev)
  near : NearKeys T'
  keeps : Keeps T T' arms (arms.erase ev)
  timerSet : T'.timerSet ev = false
  timedout : T'.timedout ev = true
  first : ∀ j, T.timerSet j = true → j ≠ ev →
    (T.key ev - T.currentMsec).toInt ≤ (T.key j - T.currentMsec).toInt ∧
      (T.key ev = T.key j → [ev, j].Sublist arms)

/-- One round of the loop returns when nothing is due, and otherwise fires the first timer. -/
lemma expireNext_spec {fuel : ℕ} {T : Timers ι} {arms : List ι} (h : TimerTree T arms)
    (hnear : NearKeys T) (hf : arms.length < fuel) :
    (expireNext fuel T = some none ∧ ∀ i, ¬ Expired T i) ∨
    ∃ ev T', expireNext fuel T = some (some (ev, T.key ev, T')) ∧ Fires T T' arms ev := by
  by_cases hnil : arms = []
  · subst hnil
    obtain ⟨⟨l, ht, hp, -⟩, harm⟩ := h
    obtain rfl : l = [] := List.map_eq_nil_iff.mp (List.perm_nil.mp hp)
    refine .inl ⟨by simp [expireNext, ht.root_nil], fun i hi => ?_⟩
    have := (harm i).mp hi.1
    simp at this
  · obtain ⟨ev, hev, hroot, hmin, hfirst⟩ := first_spec h hnear hnil hf
    have hkey : T.tree.key (.node ev) = T.key ev := rfl
    by_cases hdue : 0 < (T.key ev - T.currentMsec).toInt
    · refine .inl ⟨by simp [expireNext, hroot, hmin, hkey, hdue, -BitVec.toInt_sub], fun i hi => ?_⟩
      have hle : (T.key ev - T.currentMsec).toInt ≤ (T.key i - T.currentMsec).toInt := by
        by_cases hie : i = ev
        · rw [hie]
        · exact (hfirst i ((h.armed i).mp hi.1) hie).1
      have := hi.2
      omega
    · obtain ⟨T₁, hrun, ht, hts, hk, -, hnow⟩ := eventDelTimer_spec h hev hf
      have hset : T.timerSet ev = true := (h.armed ev).mpr hev
      have hback : ∀ i, T₁.timerSet i = true → T.timerSet i = true ∧ T₁.key i = T.key i := by
        intro i hi
        obtain ⟨hne, hmem⟩ := h.nodup.mem_erase_iff.mp ((ht.armed i).mp hi)
        exact ⟨(h.armed i).mpr hmem, hk i hmem hne⟩
      refine .inr ⟨ev, { T₁ with timedout := Function.update T₁.timedout ev true }, ?_,
        ⟨hset, not_lt.mp hdue⟩, ⟨ht.tracks, ht.armed⟩, ?_, ⟨?_, ?_, hnow⟩, ?_, ?_, ?_⟩
      · simp [expireNext, hroot, hmin, hkey, hdue, hrun, -BitVec.toInt_sub]
      · intro i hi
        obtain ⟨hi', hki⟩ := hback i hi
        have := hnear i hi'
        rw [← hki, ← hnow] at this
        exact this
      · intro i hi
        obtain ⟨hi', hki⟩ := hback i hi.1
        refine ⟨⟨hi', ?_⟩, hki⟩
        rw [← hki, ← hnow]
        exact hi.2
      · intro i j _ _ hs
        exact hs.trans List.erase_sublist
      · show T₁.timerSet ev = false
        rw [hts, Function.update_self]
      · exact Function.update_self _ _ _
      · intro j hj hje
        exact hfirst j ((h.armed j).mp hj) hje

/-! ## The whole call -/

section Loop

variable [Fintype ι]

/-- The events whose timers are due. -/
def expiredSet (T : Timers ι) : Finset ι := Finset.univ.filter (Expired T)

omit [DecidableEq ι] in
lemma mem_expiredSet {T : Timers ι} {i : ι} : i ∈ expiredSet T ↔ Expired T i := by
  rw [expiredSet, Finset.mem_filter]
  simp

/-- Firing a timer and running its handler leaves fewer due timers. -/
lemma Fires.card_lt {T T₁ T₂ : Timers ι} {arms arms₂ : List ι} {ev : ι} (h : Fires T T₁ arms ev)
    (hk : Keeps T₁ T₂ (arms.erase ev) arms₂) :
    (expiredSet T₂).card < (expiredSet T).card := by
  apply Finset.card_lt_card
  rw [Finset.ssubset_iff_of_subset]
  · refine ⟨ev, mem_expiredSet.mpr h.expired, fun hev => ?_⟩
    have := (hk.expired ev (mem_expiredSet.mp hev)).1.1
    rw [h.timerSet] at this
    cases this
  · intro i hi
    exact mem_expiredSet.mpr ((h.keeps.trans hk).expired i (mem_expiredSet.mp hi)).1

/-- The handler call is for an event that was due, with the key it was armed with. -/
def FiredDue (T : Timers ι) (f : Fired ι) : Prop :=
  T.timerSet f.ev = true ∧ T.key f.ev = f.key ∧ (f.key - T.currentMsec).toInt ≤ 0 ∧
    f.state.timerSet f.ev = false ∧ f.state.timedout f.ev = true

/-- The handler call `f` comes rightly before `g`: another event, no smaller key, an equal key
only when armed later, and no arming that `f` deleted. -/
def FiredBefore (now : BitVec 64) (arms : List ι) (f g : Fired ι) : Prop :=
  f.ev ≠ g.ev ∧ (f.key - now).toInt ≤ (g.key - now).toInt ∧
    (f.key = g.key → [f.ev, g.ev].Sublist arms) ∧ .del g.ev ∉ f.calls

/-- The loop of `event_expire_timers`, with a handler that may call anything legal. -/
lemma eventExpireTimers_spec {fuel rounds n : ℕ} {T : Timers ι} {arms : List ι}
    (handler : ℕ → Timers ι → ι → List (TimerCall ι)) (h : TimerTree T arms) (hnear : NearKeys T)
    (hlegal : ∀ n T ev, LegalCalls T.timerSet (handler n T ev)) (hf : Fintype.card ι < fuel)
    (hr : (expiredSet T).card < rounds) :
    ∃ T' log, eventExpireTimers fuel handler rounds n T = some (T', log) ∧
      (∀ f ∈ log, FiredDue T f) ∧ log.Pairwise (FiredBefore T.currentMsec arms) ∧
      T'.currentMsec = T.currentMsec ∧ ∀ i, ¬ Expired T' i := by
  induction rounds generalizing n T arms with
  | zero => omega
  | succ rounds ih =>
    have hlen : arms.length < fuel := h.nodup.length_le_card.trans_lt hf
    rcases expireNext_spec h hnear hlen with ⟨hnext, hnone⟩ | ⟨ev, T₁, hnext, hfire⟩
    · exact ⟨T, [], by simp [eventExpireTimers, hnext], by simp, .nil, rfl, hnone⟩
    · obtain ⟨T₂, arms₂, hcalls, h₂, hnear₂, hkeep, hdel⟩ :=
        runCalls_spec hfire.tree hfire.near (hlegal n T₁ ev) hf
      have hlt := hfire.card_lt hkeep
      obtain ⟨T', log, hrun, hdue, hord, hnow, hnone⟩ :=
        ih (n := n + 1) h₂ hnear₂ (by omega)
      have hkeeps := hfire.keeps.trans hkeep
      -- a later call is for an event that is due in `T₂`, hence was due in `T`
      have hlater : ∀ f ∈ log, Expired T₂ f.ev ∧ T₂.key f.ev = f.key ∧ FiredDue T f ∧
          f.ev ≠ ev := by
        intro f hfl
        obtain ⟨hset, hkey, hd, hstate⟩ := hdue f hfl
        have hexp : Expired T₂ f.ev := ⟨hset, by rw [hkey]; exact hd⟩
        obtain ⟨hexp₁, hkey₁⟩ := hkeeps.expired f.ev hexp
        refine ⟨hexp, hkey, ⟨hexp₁.1, by rw [← hkey₁, hkey], ?_, hstate⟩, fun e => ?_⟩
        · rw [← hkeeps.currentMsec]
          exact hd
        · have := (hkeep.expired f.ev hexp).1.1
          rw [e, hfire.timerSet] at this
          cases this
      refine ⟨T', ⟨ev, T.key ev, T₁, handler n T₁ ev⟩ :: log, ?_, ?_, ?_,
        hnow.trans hkeeps.currentMsec, hnone⟩
      · simp [eventExpireTimers, hnext, hcalls, hrun]
      · intro f hfl
        rcases List.mem_cons.mp hfl with rfl | hfl
        · exact ⟨hfire.expired.1, rfl, hfire.expired.2, hfire.timerSet, hfire.timedout⟩
        · exact (hlater f hfl).2.2.1
      · refine List.pairwise_cons.mpr ⟨fun f hfl => ?_, ?_⟩
        · obtain ⟨hexp, -, ⟨hset, hkey, -, -⟩, hne⟩ := hlater f hfl
          obtain ⟨hle, htie⟩ := hfire.first f.ev hset hne
          rw [hkey] at hle htie
          exact ⟨hne.symm, hle, htie, hdel f.ev hexp⟩
        · refine hord.imp_of_mem fun {f g} hfl hgl hfg => ?_
          obtain ⟨h₁, h₂, h₃, h₄⟩ := hfg
          rw [hkeeps.currentMsec] at h₂
          exact ⟨h₁, h₂, fun e => hkeeps.order _ _ (hlater f hfl).1 (hlater g hgl).1 (h₃ e), h₄⟩

/-! ## Reachable timers -/

/-- The timers a worker reaches, and the events armed there in the order they were armed. The
keys are near the clock whenever a call is made. -/
inductive Armed (fuel : ℕ) : Timers ι → List ι → Prop
  | init (T : Timers ι) (h : ∀ i, T.timerSet i = false) : Armed fuel (eventTimerInit T) []
  | clock {T : Timers ι} {arms : List ι} (now : BitVec 64) (h : Armed fuel T arms) :
      Armed fuel { T with currentMsec := now } arms
  | call {T T' : Timers ι} {arms : List ι} (c : TimerCall ι) (h : Armed fuel T arms)
      (hnear : NearKeys T) (hlegal : LegalCalls T.timerSet [c])
      (hrun : c.run fuel T = some T') : Armed fuel T' (c.arms T arms)
  | fire {T T' : Timers ι} {arms : List ι} {ev : ι} {key : BitVec 64} (h : Armed fuel T arms)
      (hnear : NearKeys T) (hrun : expireNext fuel T = some (some (ev, key, T'))) :
      Armed fuel T' (arms.erase ev)

/-- Every reachable timer tree is one for its order of arming. -/
theorem Armed.timerTree {fuel : ℕ} {T : Timers ι} {arms : List ι}
    (hf : Fintype.card ι < fuel) (h : Armed fuel T arms) : TimerTree T arms := by
  induction h with
  | init T hT =>
    refine ⟨⟨[], ⟨⟨.nil, holds_rbtreeInit _ _, rfl⟩, by simp, rfl, .nil⟩, .nil, .nil⟩, fun i => ?_⟩
    simp [eventTimerInit, hT i]
  | clock now h ih => exact ⟨ih.tracks, ih.armed⟩
  | call c h hnear hlegal hrun ih =>
    obtain ⟨T₁, hrun₁, h₁, -⟩ :=
      c.run_spec ih hnear hlegal (ih.nodup.length_le_card.trans_lt hf)
    obtain rfl := Option.some.inj (hrun₁.symm.trans hrun)
    exact h₁
  | fire h hnear hrun ih =>
    rcases expireNext_spec ih hnear (ih.nodup.length_le_card.trans_lt hf) with
      ⟨hnext, -⟩ | ⟨ev, T₁, hnext, hfire⟩
    · rw [hnext] at hrun
      cases hrun
    · rw [hnext] at hrun
      cases hrun
      exact hfire.tree

/-! ## The deadlines -/

/-- A call of `event_expire_timers` ends; it calls the handlers of events that were due, each
at most once and with its flags set, in the order of their keys and of their arming, none whose
arming an earlier handler deleted; and afterwards nothing is due. -/
theorem eventExpireTimers_deadlines (fuel : ℕ) (T : Timers ι) (arms : List ι)
    (handler : ℕ → Timers ι → ι → List (TimerCall ι)) (h : TimerTree T arms) (hnear : NearKeys T)
    (hlegal : ∀ n T ev, LegalCalls T.timerSet (handler n T ev)) (hf : Fintype.card ι < fuel) :
    ∃ T' log, eventExpireTimers fuel handler fuel 0 T = some (T', log) ∧
      (∀ f ∈ log, FiredDue T f) ∧ (log.map Fired.ev).Nodup ∧
      log.Pairwise (FiredBefore T.currentMsec arms) ∧ ∀ i, ¬ Expired T' i := by
  have hr : (expiredSet T).card < fuel := (Finset.card_le_univ _).trans_lt hf
  obtain ⟨T', log, hrun, hdue, hord, -, hnone⟩ :=
    eventExpireTimers_spec (n := 0) handler h hnear hlegal hf hr
  refine ⟨T', log, hrun, hdue, ?_, hord, hnone⟩
  rw [List.Nodup, List.pairwise_map]
  exact hord.imp fun hfg => hfg.1

/-- Two events armed at time 0, the one that is due later first. -/
lemma armed_pair : ∃ T : Timers (Fin 2),
    runCalls 4 (eventTimerInit Timers.zeroed) [.add 0 9, .add 1 5] = some T ∧ Armed 4 T [0, 1] ∧
      T.currentMsec = 0 ∧ ∀ i, T.key i = 9 ∨ T.key i = 5 := by
  have h₀ : Armed 4 (eventTimerInit (Timers.zeroed : Timers (Fin 2))) [] := .init _ fun _ => rfl
  -- the two states, and what is read off them
  obtain ⟨T₁, T₂, hrun₁, hrun₂, hkey₁, hnow₂, hkey₂, harms₁, harms₂⟩ :
      ∃ T₁ T₂, (TimerCall.add (0 : Fin 2) 9).run 4 (eventTimerInit Timers.zeroed) = some T₁ ∧
        (TimerCall.add (1 : Fin 2) 5).run 4 T₁ = some T₂ ∧
        (∀ i, T₁.timerSet i = true → (T₁.key i - T₁.currentMsec).toInt = 9) ∧
        T₂.currentMsec = 0 ∧ (∀ i, T₂.key i = 9 ∨ T₂.key i = 5) ∧
        (TimerCall.add (0 : Fin 2) 9).arms (eventTimerInit Timers.zeroed) [] = [0] ∧
        (TimerCall.add (1 : Fin 2) 5).arms T₁ [0] = [0, 1] := by
    refine ⟨Option.get _ (?_ : Option.isSome _), Option.get _ (?_ : Option.isSome _),
      (Option.some_get _).symm, (Option.some_get _).symm, ?_, ?_, ?_, ?_, ?_⟩ <;> decide
  have h₁ : Armed 4 T₁ [0] := harms₁ ▸ .call (.add 0 9) h₀
    (fun i hi => by simp [eventTimerInit, Timers.zeroed] at hi) ⟨by decide, by decide, trivial⟩ hrun₁
  have hnear₁ : NearKeys T₁ := by
    intro i hi
    rw [Near, hkey₁ i hi]
    norm_num
  refine ⟨T₂, ?_, harms₂ ▸ .call (.add 1 5) h₁ hnear₁ ⟨by decide, by decide, trivial⟩ hrun₂, hnow₂,
    hkey₂⟩
  rw [runCalls, List.foldlM_cons, hrun₁]
  exact (bind_pure _).trans hrun₂

/-- The two events, seen at time 6, when one of them is due and arms itself anew. -/
theorem eventExpireTimers_deadlines_pair :
    ∃ T : Timers (Fin 2), runCalls 4 (eventTimerInit Timers.zeroed) [.add 0 9, .add 1 5] = some T ∧
      ∃ T' log, eventExpireTimers 4 (fun _ _ ev => [.add ev 3]) 4 0
        { T with currentMsec := 6 } = some (T', log) ∧
        (∀ f ∈ log, FiredDue { T with currentMsec := 6 } f) ∧ (log.map Fired.ev).Nodup ∧
        log.Pairwise (FiredBefore 6 [0, 1]) ∧ ∀ i, ¬ Expired T' i := by
  obtain ⟨T, hrun, harmed, -, hkey⟩ := armed_pair
  have hnear : NearKeys { T with currentMsec := 6 } := by
    intro i hi
    show Near 6 (T.key i)
    rcases hkey i with h | h <;> rw [Near, h] <;> decide
  exact ⟨T, hrun, eventExpireTimers_deadlines 4 { T with currentMsec := 6 } [0, 1] _
    ((Armed.clock 6 harmed).timerTree (by decide)) hnear
    (fun _ _ _ => ⟨by decide, by decide, trivial⟩) (by decide)⟩

end Loop

end Libcn.Timer
