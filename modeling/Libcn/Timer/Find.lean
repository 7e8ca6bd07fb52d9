import Libcn.Timer.Mirror

/-!
# The time to the first timer

`event_find_timer` and `event_expire_timers` read the same node, the leftmost one, and both test
the sign of its distance from the clock. So the one announces what the other does, whatever the
keys are.
-/

namespace Libcn.Timer

open Libcn.Lib Libcn.Rbtree

variable {ι : Type}

/-- `TIMER_INFINITE`. -/
def timerInfinite : BitVec 64 := -1

variable [DecidableEq ι]

/-- `event_find_timer`. -/
def eventFindTimer (fuel : ℕ) (T : Timers ι) : Option (BitVec 64) := do
  if T.tree.root = .sentinel then pure timerInfinite
  else do
    let node ← rbtreeMin T.tree fuel T.tree.root
    let key ← T.tree.key? node
    let timer := key - T.currentMsec
    pure (if 0 < timer.toInt then timer else 0)

/-- A distance that is ahead stays ahead until it has passed. -/
lemma toInt_sub_pos {d e : BitVec 64} (hd : 0 < d.toInt) (he : e < d) : 0 < (d - e).toInt := by
  have hlt : e.toNat < d.toNat := he
  have hd' := BitVec.toInt_eq_toNat_cond d
  have hsub : (d - e).toNat = d.toNat - e.toNat := BitVec.toNat_sub_of_le hlt.le
  rw [BitVec.toInt_eq_toNat_cond, hsub]
  split_ifs at hd' ⊢ <;> omega

/-! ## Reachable timers -/

/-- The calls of a handler delete only events that are armed. -/
def DelsArmed (armed : ι → Bool) : List (TimerCall ι) → Prop
  | [] => True
  | .add ev _ :: calls => DelsArmed (Function.update armed ev true) calls
  | .del ev :: calls => armed ev = true ∧ DelsArmed (Function.update armed ev false) calls

/-- The timers a worker reaches, by calls between two rounds of `event_expire_timers` and by
these rounds. -/
inductive Reachable (fuel : ℕ) : Timers ι → Prop
  | init (T : Timers ι) (h : ∀ i, T.timerSet i = false) : Reachable fuel (eventTimerInit T)
  | clock {T : Timers ι} (now : BitVec 64) (h : Reachable fuel T) :
      Reachable fuel { T with currentMsec := now }
  | call {T T' : Timers ι} (c : TimerCall ι) (h : Reachable fuel T)
      (hlegal : DelsArmed T.timerSet [c]) (hrun : c.run fuel T = some T') : Reachable fuel T'
  | fire {T T' : Timers ι} {ev : ι} {key : BitVec 64} (h : Reachable fuel T)
      (hrun : expireNext fuel T = some (some (ev, key, T'))) : Reachable fuel T'

section Calls

variable [Fintype ι] {fuel : ℕ} {T : Timers ι}

/-- A call that deletes only an armed event leaves the rest of a handler legal. -/
lemma TimerCall.run_mirrors {c : TimerCall ι} {calls : List (TimerCall ι)}
    (h : Mirrors T fun _ => True) (hlegal : DelsArmed T.timerSet (c :: calls))
    (hf : Fintype.card ι < fuel) :
    ∃ T', c.run fuel T = some T' ∧ Mirrors T' (fun _ => True) ∧ DelsArmed T'.timerSet calls := by
  cases c with
  | add ev timer =>
    obtain ⟨T', hrun, h', hset, -⟩ :=
      eventAddTimer_mirrors h (show (fun _ => True) ev from trivial) timer hf
    exact ⟨T', hrun, h', hset ▸ hlegal⟩
  | del ev =>
    obtain ⟨T', hrun, h', hset, -⟩ := eventDelTimer_mirrors h trivial hlegal.1 hf
    exact ⟨T', hrun, h', hset ▸ hlegal.2⟩

/-- The nodes of a reachable timer tree are the armed events. -/
lemma Reachable.mirrors (hf : Fintype.card ι < fuel) (h : Reachable fuel T) :
    Mirrors T fun _ => True := by
  induction h with
  | init T hT => exact (eventTimerInit_holding T).congr fun i => by simp [eventTimerInit, hT i]
  | clock now h ih => exact ih
  | call c h hlegal hrun ih =>
    obtain ⟨T₁, hrun₁, h₁, -⟩ := TimerCall.run_mirrors ih hlegal hf
    obtain rfl := Option.some.inj (hrun₁.symm.trans hrun)
    exact h₁
  | fire h hrun ih =>
    rcases expireNext_mirrors ih hf with hnext | ⟨ev, key, T₁, hnext, -, -, h₁, -⟩
    · rw [hnext] at hrun
      cases hrun
    · rw [hnext] at hrun
      cases hrun
      exact h₁

lemma Reachable.runCalls {T' : Timers ι} {calls : List (TimerCall ι)}
    (hf : Fintype.card ι < fuel) (h : Reachable fuel T) (hlegal : DelsArmed T.timerSet calls)
    (hrun : runCalls fuel T calls = some T') : Reachable fuel T' := by
  induction calls generalizing T with
  | nil => exact Option.some.inj hrun ▸ h
  | cons c calls ih =>
    obtain ⟨T₁, hrun₁, -, hlegal₁⟩ := TimerCall.run_mirrors (h.mirrors hf) hlegal hf
    have hone : DelsArmed T.timerSet [c] := by
      cases c with
      | add ev timer => trivial
      | del ev => exact ⟨hlegal.1, trivial⟩
    rw [Timer.runCalls, List.foldlM_cons, hrun₁] at hrun
    exact ih (.call c h hone hrun₁) hlegal₁ hrun

/-- A whole call of `event_expire_timers` leads to reachable timers. -/
lemma Reachable.expire {T' : Timers ι} {log : List (Fired ι)} {rounds n : ℕ}
    {handler : ℕ → Timers ι → ι → List (TimerCall ι)} (hf : Fintype.card ι < fuel)
    (h : Reachable fuel T) (hlegal : ∀ n T ev, DelsArmed T.timerSet (handler n T ev))
    (hrun : eventExpireTimers fuel handler rounds n T = some (T', log)) : Reachable fuel T' := by
  induction rounds generalizing n T log with
  | zero => cases hrun
  | succ rounds ih =>
    rcases expireNext_mirrors (h.mirrors hf) hf with hnext | ⟨ev, key, T₁, hnext, -⟩
    · obtain ⟨rfl, -⟩ : T = T' ∧ [] = log := by simpa [eventExpireTimers, hnext] using hrun
      exact h
    · simp only [eventExpireTimers, hnext, Option.bind_eq_bind, Option.bind_some,
        Option.bind_eq_some_iff, Prod.exists] at hrun
      obtain ⟨T₂, hcalls, T₃, log', hrest, hout⟩ := hrun
      obtain ⟨rfl, -⟩ := Prod.mk.inj (Option.some.inj hout)
      exact ih ((Reachable.fire h hnext).runCalls hf (hlegal n T₁ ev) hcalls) hrest

/-! ## What is announced -/

/-- `event_expire_timers` returns without calling a handler. -/
def FiresNothing (fuel : ℕ) (T : Timers ι) : Prop :=
  ∀ handler rounds n, eventExpireTimers fuel handler (rounds + 1) n T = some (T, [])

/-- `event_expire_timers` takes an armed event and calls its handler first, whatever the handlers
do. -/
def FiresSome (fuel : ℕ) (T : Timers ι) : Prop :=
  ∃ ev key T₁, expireNext fuel T = some (some (ev, key, T₁)) ∧ T.timerSet ev = true ∧
    ∀ handler rounds n T' log, eventExpireTimers fuel handler (rounds + 1) n T = some (T', log) →
      log.head? = some ⟨ev, key, T₁, handler n T₁ ev⟩

omit [Fintype ι] in
lemma firesNothing_of_next (h : expireNext fuel T = some none) : FiresNothing fuel T := by
  intro handler rounds n
  simp [eventExpireTimers, h]

omit [Fintype ι] in
lemma not_firesSome_of_next (h : expireNext fuel T = some none) : ¬ FiresSome fuel T := by
  rintro ⟨ev, key, T₁, hnext, -⟩
  rw [h] at hnext
  cases hnext

omit [Fintype ι] in
lemma firesSome_of_next {ev : ι} {key : BitVec 64} {T₁ : Timers ι}
    (h : expireNext fuel T = some (some (ev, key, T₁))) (hset : T.timerSet ev = true) :
    FiresSome fuel T := by
  refine ⟨ev, key, T₁, h, hset, fun handler rounds n T' log hrun => ?_⟩
  simp only [eventExpireTimers, h, Option.bind_eq_bind, Option.bind_some,
    Option.bind_eq_some_iff, Prod.exists] at hrun
  obtain ⟨T₂, -, T₃, log', -, hout⟩ := hrun
  rw [← (Prod.mk.inj (Option.some.inj hout)).2]
  rfl

/-- The two functions at the leftmost node, at any time. -/
lemma leftmost_due {ev : ι} (h : Mirrors T fun _ => True) (hf : Fintype.card ι < fuel)
    (hne : T.tree.root ≠ .sentinel) (hmin : rbtreeMin T.tree fuel T.tree.root = some (.node ev))
    (hset : T.timerSet ev = true) (now : BitVec 64) :
    (0 < (T.key ev - now).toInt → FiresNothing fuel { T with currentMsec := now } ∧
      ¬ FiresSome fuel { T with currentMsec := now }) ∧
    (¬ 0 < (T.key ev - now).toInt → FiresSome fuel { T with currentMsec := now }) := by
  have hkey : T.tree.key (.node ev) = T.key ev := rfl
  constructor
  · intro hdue
    have hnext : expireNext fuel { T with currentMsec := now } = some none := by
      simp [expireNext, hne, hmin, hkey, hdue, -BitVec.toInt_sub]
    exact ⟨firesNothing_of_next hnext, not_firesSome_of_next hnext⟩
  · intro hdue
    obtain ⟨T₁, hdel, -⟩ :=
      eventDelTimer_mirrors (T := { T with currentMsec := now }) h trivial hset hf
    have hnext : expireNext fuel { T with currentMsec := now } = some (some (ev, T.key ev,
        { T₁ with timedout := Function.update T₁.timedout ev true })) := by
      simp only [expireNext, hne, hmin, hkey, hdue, hdel, if_false, Mem.key?_node,
        Option.bind_eq_bind, Option.bind_some, Option.pure_def]
    exact firesSome_of_next hnext hset

/-- `event_find_timer` answers `TIMER_INFINITE` when no timer is armed, 0 when
`event_expire_timers` would call a handler at once, and else the time it takes until it would. -/
theorem eventFindTimer_announces (h : Reachable fuel T) (hf : Fintype.card ι < fuel) :
    ∃ d, eventFindTimer fuel T = some d ∧
      (d = timerInfinite ↔ ∀ i, T.timerSet i = false) ∧ (d = 0 ↔ FiresSome fuel T) ∧
      (d ≠ 0 → d ≠ timerInfinite →
        (∀ e < d, FiresNothing fuel { T with currentMsec := T.currentMsec + e }) ∧
          FiresSome fuel { T with currentMsec := T.currentMsec + d }) := by
  have hm := h.mirrors hf
  rcases leftmost hm hf with ⟨hroot, hnone⟩ | ⟨ev, hne, hmin, -, hset⟩
  · have hnext : expireNext fuel T = some none := by simp [expireNext, hroot]
    refine ⟨timerInfinite, by simp [eventFindTimer, hroot], ⟨fun _ i => ?_, fun _ => rfl⟩,
      ⟨fun e => ?_, fun hs => absurd hs (not_firesSome_of_next hnext)⟩, fun _ hinf => absurd rfl hinf⟩
    · simpa using hnone i
    · cases e
  · have hkey : T.tree.key (.node ev) = T.key ev := rfl
    have hdue := leftmost_due hm hf hne hmin hset
    have harmed : ¬ ∀ i, T.timerSet i = false := fun hall => by
      rw [hall ev] at hset
      cases hset
    by_cases hpos : 0 < (T.key ev - T.currentMsec).toInt
    · refine ⟨T.key ev - T.currentMsec, ?_, ⟨fun e => ?_, fun hall => absurd hall harmed⟩,
        ⟨fun e => ?_, fun hs => absurd hs ((hdue T.currentMsec).1 hpos).2⟩,
        fun _ _ => ⟨fun e he => ?_, ?_⟩⟩
      · simp [eventFindTimer, hne, hmin, hkey, hpos, -BitVec.toInt_sub]
      · rw [e] at hpos
        exact absurd hpos (by decide)
      · rw [e] at hpos
        exact absurd hpos (by decide)
      · refine ((hdue _).1 ?_).1
        rw [← sub_sub]
        exact toInt_sub_pos hpos he
      · refine (hdue _).2 ?_
        rw [add_sub_cancel, sub_self]
        decide
    · refine ⟨0, ?_, ⟨fun e => (by cases e), fun hall => absurd hall harmed⟩,
        ⟨fun _ => (hdue T.currentMsec).2 hpos, fun _ => rfl⟩, fun hzero => absurd rfl hzero⟩
      simp [eventFindTimer, hne, hmin, hkey, hpos, -BitVec.toInt_sub]

/-- A worker that has armed three timers, of which the second is due first. -/
theorem eventFindTimer_announces_three : ∃ T : Timers (Fin 3),
    runCalls 4 (eventTimerInit Timers.zeroed) [.add 0 9, .add 1 5, .add 2 7] = some T ∧
      ∃ d, eventFindTimer 4 T = some d ∧
        (d = timerInfinite ↔ ∀ i, T.timerSet i = false) ∧ (d = 0 ↔ FiresSome 4 T) ∧
        (d ≠ 0 → d ≠ timerInfinite →
          (∀ e < d, FiresNothing 4 { T with currentMsec := T.currentMsec + e }) ∧
            FiresSome 4 { T with currentMsec := T.currentMsec + d }) := by
  have hinit : Reachable 4 (eventTimerInit (Timers.zeroed : Timers (Fin 3))) := .init _ fun _ => rfl
  have hfuel : Fintype.card (Fin 3) < 4 := by decide
  have hsome : (runCalls 4 (eventTimerInit (Timers.zeroed : Timers (Fin 3)))
      [.add 0 9, .add 1 5, .add 2 7]).isSome := by decide +kernel
  obtain ⟨T, hrun⟩ := Option.isSome_iff_exists.mp hsome
  have hlegal : DelsArmed (eventTimerInit (Timers.zeroed : Timers (Fin 3))).timerSet
      [.add 0 9, .add 1 5, .add 2 7] := trivial
  exact ⟨T, hrun, eventFindTimer_announces (hinit.runCalls hfuel hlegal hrun) hfuel⟩

end Calls

end Libcn.Timer
