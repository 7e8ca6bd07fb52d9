import Libcn.Accept.Exclusive

/-!
# The mutex is given back

Every run of `process_events_and_timers` ends without the mutex word, a worker that does not hold
the word never changes it, and `accept_mutex_held` stands exactly as long as the listening event
is registered. All runs count here, those that skip the lock attempt included.
-/

namespace Libcn.Accept

open Libcn.Lib

/-! ## The word -/

/-- Where a worker may and must hold the word: past the attempt only with `accept_mutex_held`
set, so that it is given back after the accept events. -/
def Local.Returns (own : Prop) (l : Local) : Prop :=
  match l.pc with
  | .top | .tryRead | .tryCas | .tryFailed | .rest => ¬ own
  | .enable | .enableFailed => own
  | .events | .posted | .unlock | .accept _ | .acceptFull _ => own → l.held = true

variable {connectionN pid word word' : ℕ} {l l' : Local} {o : Outcome}

lemma workerStep_returns (hpid : pid ≠ 0) (hi : l.Returns (word = pid))
    (h : workerStep connectionN pid word l l.pc o = some (word', l')) :
    l'.Returns (word' = pid) := by
  unfold Local.Returns at hi
  have hmoves := workerStep_moves h
  clear h
  generalize hpc : l.pc = pc at hi hmoves
  cases hmoves with
  | enableFailed => exact unlockHeld_ne true hpid fun _ => rfl
  | unlock => exact unlockHeld_ne _ hpid hi
  | acceptDone direct => cases direct <;> exact hi
  | full direct => cases direct <;> exact fun hown => absurd hown (unlockHeld_ne _ hpid hi)
  | fullFails direct => cases direct <;> exact hi
  | _ => simp_all [Local.Returns, Local.tryDone]

variable {W : Type} [DecidableEq W]

lemma System.step_returns {P : Workers W} {s s' : System W} {a : W × Outcome}
    (hi : ∀ w, (s.worker w).Returns (s.word = P.pid w)) (h : s.step P a = some s') (w : W) :
    (s'.worker w).Returns (s'.word = P.pid w) := by
  by_cases hw : w = a.1
  · subst hw
    obtain ⟨⟨word', l'⟩, hstep, rfl⟩ := Option.map_eq_some_iff.mp h
    show Local.Returns (word' = P.pid a.1) (Function.update s.worker a.1 l' a.1)
    rw [Function.update_self]
    exact workerStep_returns (P.pid_ne_zero a.1) (hi a.1) hstep
  · obtain ⟨hl, hown⟩ := System.step_own hw h
    rw [hl, propext hown]
    exact hi w

/-- **The accept mutex is never leaked.** In every run, a worker outside
`process_events_and_timers` does not hold the word, whichever way it returned, and a step changes
the word only when it is free or the worker's own. -/
theorem acceptMutex_returned (P : Workers W) (s : System W) (h : (acceptMachine P).Reachable s) :
    (∀ w, (s.worker w).pc = .top → s.word ≠ P.pid w) ∧
      ∀ a s', s.step P a = some s' → s'.word ≠ s.word → s.word = 0 ∨ s.word = P.pid a.1 := by
  have hinv : ∀ w, (s.worker w).Returns (s.word = P.pid w) := by
    refine h.invariant (I := fun s => ∀ w, (s.worker w).Returns (s.word = P.pid w))
      (fun s hs w => ?_) fun s a s' hi _ hs => System.step_returns hi hs
    rw [hs.1, hs.2 w]
    exact (P.pid_ne_zero w).symm
  constructor
  · intro w hw
    have := hinv w
    simpa only [Local.Returns, hw] using this
  · intro a s' hs hne
    obtain ⟨⟨word', l'⟩, hstep, rfl⟩ := Option.map_eq_some_iff.mp hs
    rcases workerStep_word hstep with h | ⟨h, -⟩ | ⟨h, -⟩
    · exact absurd h hne
    · exact .inl h
    · exact .inr h

/-- A worker whose `epoll_ctl` fails after it got the lock gives it back and returns early. -/
theorem acceptMutex_returned_early :
    ∃ s, (acceptMachine twoWorkers).Reachable s ∧ (s.worker false).pc = .top ∧ s.word = 0 ∧
      s.word ≠ twoWorkers.pid false := by
  have h₀ : (acceptMachine twoWorkers).Reachable (.init twoWorkers) := .init ⟨rfl, fun _ => rfl⟩
  have hrun : ((acceptMachine twoWorkers).run (fun _ _ => True) (.init twoWorkers)
      [(false, .next), (false, .next), (false, .next), (false, .fail), (false, .next)]).map
      (fun s => ((s.worker false).pc, s.word)) = some (.top, 0) := by decide
  obtain ⟨s, hs, hpc⟩ := Option.map_eq_some_iff.mp hrun
  obtain ⟨hpc, hword⟩ := Prod.mk.inj hpc
  have h := Machine.Reach.run h₀ hs
  exact ⟨s, h, hpc, hword, (acceptMutex_returned twoWorkers s h).1 false hpc⟩

/-! ## The flag -/

/-- One worker, with any word at each of its steps. -/
def workerMachine (connectionN pid : ℕ) : Machine Local (ℕ × Outcome) where
  init l := l = Local.init connectionN
  step l a := (workerStep connectionN pid a.1 l l.pc a.2).map Prod.snd

lemma workerStep_held
    (hi : l.held = l.active) (h : workerStep connectionN pid word l l.pc o = some (word', l')) :
    l'.held = l'.active := by
  have hmoves := workerStep_moves h
  clear h
  generalize l.pc = pc at hmoves
  cases hmoves <;> simp_all [Local.tryDone]

/-- **`accept_mutex_held` mirrors registration.** In every state of every run, so after each call
of `trylock_accept_mutex` and `event_accept`, the flag is set exactly when the listening event is
active; and when `trylock_accept_mutex` has the lock and skips the registration, the event is
active already. -/
theorem acceptMutexHeld_iff_active (connectionN pid : ℕ) (l : Local)
    (h : (workerMachine connectionN pid).Reachable l) :
    (l.held = true ↔ l.active = true) ∧
      ∀ word l', l.pc = .enable → l.held = true → l.acceptEvents = 0 →
        workerStep connectionN pid word l l.pc .next = some (word, l') → l'.active = true := by
  have hinv : l.held = l.active := by
    refine h.invariant (I := fun l => l.held = l.active) (fun l hl => by rw [hl]; rfl)
      fun l a l' hi _ hs => ?_
    obtain ⟨⟨word', l₁⟩, hstep, rfl⟩ := Option.map_eq_some_iff.mp hs
    exact workerStep_held hi hstep
  refine ⟨by rw [hinv], ?_⟩
  intro word l' hpc hheld hevents hs
  have hactive : l.active = true := hinv ▸ hheld
  rw [hpc] at hs
  simp only [workerStep, hheld, hevents, Bool.true_and, beq_self_eq_true, if_true,
    Option.some.injEq, Prod.mk.injEq, true_and] at hs
  rw [← hs]
  exact hactive

/-- A worker gets the lock, loses it to a shortage of descriptors and gets it again. -/
theorem acceptMutexHeld_iff_active_full :
    ∃ l, (workerMachine 512 10).Reachable l ∧ l.held = true ∧ l.active = true := by
  have h₀ : (workerMachine 512 10).Reachable (.init 512) := .init rfl
  have hrun : ((workerMachine 512 10).run (fun _ _ => True) (.init 512)
      [(0, .next), (0, .next), (0, .next), (10, .ok), (10, .listening), (10, .done), (10, .next),
        (10, .full), (10, .ok), (0, .next), (0, .next), (0, .done), (0, .next), (0, .done),
        (0, .next), (0, .next), (0, .done), (0, .next), (0, .next), (0, .next), (10, .ok)]).map Local.held = some true := by decide
  obtain ⟨l, hl, hheld⟩ := Option.map_eq_some_iff.mp hrun
  have h := Machine.Reach.run h₀ hl
  exact ⟨l, h, hheld, (acceptMutexHeld_iff_active 512 10 l h).1.mp hheld⟩

end Libcn.Accept
