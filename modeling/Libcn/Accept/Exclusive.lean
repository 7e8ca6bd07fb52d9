import Libcn.Accept.Mutex

/-!
# Who may accept

A worker in `event_accept` holds the mutex word, in every run in which no worker skips the
lock attempt while its listening event is registered. The code does not rule such a skip out:
with `accept_disabled > 0` it goes on to `epoll_wait` without the lock and without disabling
accept events, and accepts all the same.
-/

namespace Libcn.Accept

open Libcn.Lib

/-! ## What the code is to guarantee -/

/-- The worker runs `event_accept` and has not met a shortage of descriptors yet. -/
def Local.Accepting (l : Local) : Prop :=
  match l.pc with
  | .accept _ | .acceptFull _ => True
  | _ => False

/-- Every worker in `event_accept` holds the mutex, so no two workers are in it. -/
def Exclusive {W : Type} (P : Workers W) (s : System W) : Prop :=
  (∀ w, (s.worker w).Accepting → s.word = P.pid w) ∧
    ∀ w w', (s.worker w).Accepting → (s.worker w').Accepting → w = w'

/-- The worker is about to skip the lock attempt although its listening event is active. -/
def Local.Skips (l : Local) : Prop := l.pc = .top ∧ 0 < l.disabled.toInt ∧ l.active = true

instance (l : Local) : Decidable l.Skips := inferInstanceAs (Decidable (_ ∧ _))

/-- The condition on a step: its worker does not skip the lock attempt so. -/
def Attempts {W : Type} (s : System W) (a : W × Outcome) : Prop := ¬ (s.worker a.1).Skips

instance {W : Type} (s : System W) (a : W × Outcome) : Decidable (Attempts s a) :=
  inferInstanceAs (Decidable (¬ _))

/-! ## The invariant -/

/-- How the place of a worker, its bits and its hold on the word (`own`) go together. -/
def Local.Inv (own : Prop) (l : Local) : Prop :=
  l.held = l.active ∧
  match l.pc with
  | .top | .tryRead | .tryCas | .tryFailed | .rest => ¬ own ∧ l.posted = false
  | .enable | .enableFailed => own ∧ l.posted = false
  | .events => (own ∧ l.held = true ∧ l.postEvents = true) ∨
      (¬ own ∧ l.held = false ∧ l.posted = false)
  | .posted => (own ∧ l.held = true) ∨ (¬ own ∧ l.held = false ∧ l.posted = false)
  | .unlock => (own ∧ l.held = true ∨ ¬ own ∧ l.held = false) ∧ l.posted = false
  | .accept direct | .acceptFull direct =>
    direct = false ∧ own ∧ l.held = true ∧ l.posted = false

variable {connectionN pid word word' : ℕ} {l l' : Local} {pc : Pc} {o : Outcome}

/-- A step takes a free word, gives an owned one back, or leaves it alone. -/
lemma workerStep_word
    (h : workerStep connectionN pid word l pc o = some (word', l')) :
    word' = word ∨ (word = 0 ∧ word' = pid) ∨ (word = pid ∧ word' = 0) := by
  have hunlock : shmtxUnlock pid word = word ∨ (word = pid ∧ shmtxUnlock pid word = 0) := by
    unfold shmtxUnlock
    split_ifs with hw
    · exact .inr ⟨hw, rfl⟩
    · exact .inl rfl
  have hrelease : (if l.held then shmtxUnlock pid word else word) = word ∨
      (word = pid ∧ (if l.held then shmtxUnlock pid word else word) = 0) := by
    split
    · exact hunlock
    · exact .inl rfl
  cases workerStep_moves h with
  | cas hfree => exact .inr (.inl ⟨hfree, rfl⟩)
  | enableFailed => exact hunlock.imp_right .inr
  | unlock => exact hrelease.imp_right .inr
  | full => exact hrelease.imp_right .inr
  | _ => exact .inl rfl

/-- A worker that holds the word only with `accept_mutex_held` set is without it afterwards. -/
lemma unlockHeld_ne (held : Bool) (hpid : pid ≠ 0) (hown : word = pid → held = true) :
    (if held then shmtxUnlock pid word else word) ≠ pid := by
  unfold shmtxUnlock
  by_cases hw : word = pid
  · rw [if_pos (hown hw), if_pos hw]
    exact hpid.symm
  · rw [if_neg hw, ite_self]
    exact hw

/-- A worker's own step keeps its invariant, unless it skips the lock attempt with an active
listening event. -/
lemma workerStep_inv (hpid : pid ≠ 0) (hi : l.Inv (word = pid)) (hskip : ¬ l.Skips)
    (h : workerStep connectionN pid word l l.pc o = some (word', l')) : l'.Inv (word' = pid) := by
  obtain ⟨hheld, hi⟩ := hi
  unfold Local.Skips at hskip
  have hmoves := workerStep_moves h
  clear h
  generalize hpc : l.pc = pc at hi hskip hmoves
  cases hmoves with
  | enableFailed =>
    refine ⟨hheld, ?_, hi.2⟩
    exact unlockHeld_ne true hpid fun _ => rfl
  | polled =>
    refine ⟨hheld, ?_⟩
    rcases hi with ⟨hown, hheld, -⟩ | hi
    · exact .inl ⟨hown, hheld⟩
    · exact .inr hi
  | unlock =>
    refine ⟨hheld, unlockHeld_ne _ hpid fun hown => ?_, hi.2⟩
    exact (hi.1.resolve_right fun hno => hno.1 hown).2
  | full direct active hactive =>
    obtain ⟨rfl, hown, hheld, hposted⟩ := hi
    refine ⟨hactive.symm, .inr ⟨unlockHeld_ne _ hpid fun _ => hheld, rfl, hposted⟩⟩
  | _ => simp_all [Local.Inv, Local.tryDone, Pc.acceptReturn]

/-- Every worker's invariant. -/
def System.Inv {W : Type} (P : Workers W) (s : System W) : Prop :=
  ∀ w, (s.worker w).Inv (s.word = P.pid w)

variable {W : Type} [DecidableEq W]

/-- Another worker's step does not change whether a worker holds the word. -/
lemma System.step_own {P : Workers W} {s s' : System W} {a : W × Outcome} {w : W} (hw : w ≠ a.1)
    (h : s.step P a = some s') :
    s'.worker w = s.worker w ∧ (s'.word = P.pid w ↔ s.word = P.pid w) := by
  obtain ⟨⟨word', l'⟩, hstep, rfl⟩ := Option.map_eq_some_iff.mp h
  refine ⟨Function.update_of_ne hw _ _, ?_⟩
  have hne : P.pid a.1 ≠ P.pid w := fun e => hw (P.pid_injective _ _ e).symm
  have hpos := P.pid_ne_zero w
  show word' = P.pid w ↔ s.word = P.pid w
  rcases workerStep_word hstep with h | ⟨h, h'⟩ | ⟨h, h'⟩
  · rw [h]
  · rw [h, h']
    exact ⟨fun e => absurd e hne, fun e => absurd e.symm hpos⟩
  · rw [h, h']
    exact ⟨fun e => absurd e.symm hpos, fun e => absurd e hne⟩

/-- A step of one worker keeps the invariant of all. -/
lemma System.step_inv {P : Workers W} {s s' : System W} {a : W × Outcome} (hi : s.Inv P)
    (hok : Attempts s a) (h : s.step P a = some s') : s'.Inv P := by
  intro w
  by_cases hw : w = a.1
  · subst hw
    obtain ⟨⟨word', l'⟩, hstep, rfl⟩ := Option.map_eq_some_iff.mp h
    show Local.Inv (word' = P.pid a.1) (Function.update s.worker a.1 l' a.1)
    rw [Function.update_self]
    exact workerStep_inv (P.pid_ne_zero a.1) (hi a.1) hok hstep
  · obtain ⟨hl, hown⟩ := System.step_own hw h
    rw [hl, propext hown]
    exact hi w

lemma Local.Inv.own {own : Prop} {l : Local} (h : l.Inv own) (ha : l.Accepting) : own := by
  obtain ⟨-, h⟩ := h
  unfold Local.Accepting at ha
  cases hpc : l.pc <;> rw [hpc] at h ha <;> first | exact ha.elim | exact h.2.1

/-- In every run in which no worker skips the lock attempt while its listening event is active,
every worker in `event_accept` holds the mutex. -/
theorem accept_exclusive (P : Workers W) (s : System W)
    (h : (acceptMachine P).Reach Attempts s) : Exclusive P s := by
  have hinv : s.Inv P := by
    refine h.invariant (fun s hs w => ?_) fun s a s' hi hok hs => System.step_inv hi hok hs
    rw [hs.1, hs.2 w]
    exact ⟨rfl, (P.pid_ne_zero w).symm, rfl⟩
  have hown : ∀ w, (s.worker w).Accepting → s.word = P.pid w := fun w hw => (hinv w).own hw
  exact ⟨hown, fun w w' hw hw' => P.pid_injective w w' ((hown w hw).symm.trans (hown w' hw'))⟩

/-! ## Two workers -/

/-- Two workers with the program's table of 512 slots. -/
def twoWorkers : Workers Bool where
  connectionN := 512
  pid w := if w then 11 else 10
  pid_ne_zero := by decide
  pid_injective := by decide

/-- The workers at the start. -/
def System.init {W : Type} (P : Workers W) : System W := ⟨0, fun _ => Local.init P.connectionN⟩

/-- One worker gets the lock and accepts, the other one fails to get it. -/
theorem accept_exclusive_twoWorkers :
    ∃ s, (acceptMachine twoWorkers).Reach Attempts s ∧ (s.worker false).Accepting ∧
      Exclusive twoWorkers s := by
  have h₀ : (acceptMachine twoWorkers).Reach Attempts (.init twoWorkers) := .init ⟨rfl, fun _ => rfl⟩
  have hrun : ((acceptMachine twoWorkers).run Attempts (.init twoWorkers) [(false, .next),
      (true, .next), (false, .next), (true, .next), (false, .next), (true, .next), (false, .ok),
      (true, .next), (false, .listening), (false, .done), (false, .next)]).map
      (fun s => (s.worker false).pc) = some (.accept false) := by decide
  obtain ⟨s, hs, hpc⟩ := Option.map_eq_some_iff.mp hrun
  have h := h₀.run hs
  exact ⟨s, h, by simp [Local.Accepting, hpc], accept_exclusive twoWorkers s h⟩

/-- A worker that accepts until 62 slots are left lets the lock go, skips the next attempt and
accepts along with the worker that has the lock by then. -/
theorem not_accept_exclusive :
    ¬ ∀ s, (acceptMachine twoWorkers).Reachable s → Exclusive twoWorkers s := by
  intro hall
  have h₀ : (acceptMachine twoWorkers).Reachable (.init twoWorkers) := .init ⟨rfl, fun _ => rfl⟩
  have hrun : ((acceptMachine twoWorkers).run (fun _ _ => True) (.init twoWorkers)
      ([(false, .next), (false, .next), (false, .next), (false, .ok), (false, .listening),
        (false, .done), (false, .next)] ++ List.replicate 449 (false, .handled 0) ++
        [(false, .again), (false, .next), (false, .next), (false, .done), (false, .next),
        (true, .next), (true, .next), (true, .next), (true, .ok), (true, .listening),
        (true, .done), (true, .next), (false, .listening)])).map
      (fun s => ((s.worker false).pc, s.word)) = some (.accept true, 11) := by decide +kernel
  obtain ⟨s, hs, hpc⟩ := Option.map_eq_some_iff.mp hrun
  obtain ⟨hpc, hword⟩ := Prod.mk.inj hpc
  have hown := (hall s (Machine.Reach.run h₀ hs)).1 false (by simp [Local.Accepting, hpc])
  rw [hword] at hown
  simp [twoWorkers] at hown

end Libcn.Accept
