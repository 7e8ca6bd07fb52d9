import Libcn.Program.Progress
import Libcn.Program.Sharing
import Libcn.Program.Work

/-!
# The mutex is held for one iteration

A process that gets the accept mutex is through with it after one iteration of bounded length,
whatever the others do meanwhile. It needs none of them for that, so whoever tries for the lock can
still get it.
-/

namespace Libcn.Program

open Libcn.Lib Libcn.Queue Libcn.Rbtree Libcn.Timer Libcn.Cycle

variable {n : ℕ} {s : State n} {lc : Fin n} {W : Type} [DecidableEq W] {P : Accept.Workers W}
  {f f' : Fleet P.connectionN W} {p q : W}

/-! ## What holds of all processes -/

lemma FleetRuns.next (h : FleetRuns P (fun _ _ => True) f) {a : W × Act P.connectionN}
    (ha : (f.process a.1).Allowed a.2) (hstep : f.step P a = some f') :
    FleetRuns P (fun _ _ => True) f' := Machine.Reach.step h ⟨ha, trivial⟩ hstep

lemma FleetRuns.sound (h : FleetRuns P (fun _ _ => True) f) (p : W) :
    ∃ lc, (f.process p).state.Sound lc := by
  obtain ⟨lc, l, ht, -⟩ := h.returns p
  exact ⟨lc, ht.sound⟩

/-- What a step does to the word. -/
lemma processStep_word {pid word word' : ℕ} {p p' : WorkerProcess n} {a : Act n}
    (h : processStep pid word p a = some (word', p')) :
    word' = word ∨ (word = 0 ∧ word' = pid) ∨ (word = pid ∧ word' = 0) := by
  cases a with
  | trylock =>
    obtain ⟨rfl, -⟩ := Prod.mk.inj (Option.some.inj h)
    by_cases hword : word = 0
    · exact .inr (.inl ⟨hword, if_pos hword⟩)
    · exact .inl (if_neg hword)
  | run a =>
    obtain ⟨s, -, hpair⟩ := Option.map_eq_some_iff.mp h
    obtain ⟨rfl, -⟩ := Prod.mk.inj hpair
    rw [Accept.shmtxUnlock]
    split_ifs with hunlocks hword
    · exact .inr (.inr ⟨hword, rfl⟩)
    · exact .inl rfl
    · exact .inl rfl

/-- The step of a process, as the others see it. -/
lemma Fleet.step_other {a : W × Act P.connectionN} (hstep : f.step P a = some f') (hp : p ≠ a.1) :
    f'.process p = f.process p := by
  obtain ⟨r, -, rfl⟩ := Option.map_eq_some_iff.mp hstep
  exact Function.update_of_ne hp _ _

/-- The step of a process that is not `shmtx_trylock`. -/
lemma Fleet.step_run {a : Label P.connectionN} (hstep : f.step P (p, .run a) = some f') :
    ∃ s, (f.process p).state.step a = some s ∧ f'.process p = ⟨s, none⟩ := by
  obtain ⟨r, hrun, rfl⟩ := Option.map_eq_some_iff.mp hstep
  obtain ⟨s, hs, rfl⟩ := Option.map_eq_some_iff.mp hrun
  exact ⟨s, hs, Function.update_self _ _ _⟩

/-- Between the attempt and the iteration nothing is done. -/
lemma FleetRuns.attempted (h : FleetRuns P (fun _ _ => True) f) (p : W)
    (hp : (f.process p).attempt ≠ none) :
    (f.process p).state.tasks = [] ∧ Tries (f.process p).state.worker := by
  have hinv : ∀ q, (f.process q).attempt ≠ none →
      (f.process q).state.tasks = [] ∧ Tries (f.process q).state.worker := by
    refine Machine.Reach.invariant (M := fleetMachine P)
      (I := fun f => ∀ q, (f.process q).attempt ≠ none →
        (f.process q).state.tasks = [] ∧ Tries (f.process q).state.worker)
      (fun f hf q hq => absurd (hf.2 q).1 hq) (fun f a f' hi hok hstep q hq => ?_) h
    by_cases hqa : q = a.1
    · obtain ⟨r, act⟩ := a
      obtain rfl : q = r := hqa
      cases act with
      | trylock =>
        obtain ⟨htasks, -, htries⟩ := hok.1
        obtain rfl := Option.some.inj hstep
        simp only [Function.update_self]
        exact ⟨htasks, htries⟩
      | run a =>
        obtain ⟨s, -, hs⟩ := Fleet.step_run hstep
        rw [hs] at hq
        exact absurd rfl hq
    · rw [Fleet.step_other hstep hqa] at hq ⊢
      exact hi q hq
  exact hinv p hp

/-- The word is free, or one of the processes has it. -/
lemma FleetRuns.owner (h : FleetRuns P (fun _ _ => True) f) :
    f.word = 0 ∨ ∃ p, f.word = P.pid p := by
  refine Machine.Reach.invariant (M := fleetMachine P)
    (I := fun f => f.word = 0 ∨ ∃ p, f.word = P.pid p)
    (fun f hf => .inl hf.1) (fun f a f' hi hok hstep => ?_) h
  obtain ⟨⟨word', p'⟩, hrun, rfl⟩ := Option.map_eq_some_iff.mp hstep
  show word' = 0 ∨ ∃ p, word' = P.pid p
  rcases processStep_word hrun with hword | ⟨-, hword⟩ | ⟨-, hword⟩
  · rw [hword]
    exact hi
  · exact .inr ⟨_, hword⟩
  · exact .inl hword

/-! ## How long the mutex is held -/

/-- The steps of a process among those of all. -/
def ownActs (p : W) (as : List (W × Act n)) : List (Act n) :=
  as.filterMap fun a => if a.1 = p then some a.2 else none

lemma ownActs_self (p : W) (a : Act n) (as : List (W × Act n)) :
    ownActs p ((p, a) :: as) = a :: ownActs p as := by
  simp [ownActs]

lemma ownActs_other {a : W × Act n} (ha : p ≠ a.1) (as : List (W × Act n)) :
    ownActs p (a :: as) = ownActs p as := by
  simp [ownActs, Ne.symm ha]

/-- While it has the word, a process makes the steps of one iteration. -/
lemma FleetRuns.own_inner (h : FleetRuns P (fun _ _ => True) f)
    (hp : (f.process p).attempt = none) {as : List (W × Act P.connectionN)}
    (hrun : (fleetMachine P).run
      (fun f a => (f.process a.1).Allowed a.2 ∧ f.word = P.pid p) f as = some f') :
    ∃ bs : List (Label P.connectionN), ownActs p as = bs.map .run ∧
      bs.length ≤ (f.process p).state.work + (bs.map Label.grant).sum := by
  -- the steps of the others leave the process as it is, and its own are paid for by its work
  induction as generalizing f with
  | nil => exact ⟨[], rfl, Nat.zero_le _⟩
  | cons a as ih =>
    obtain ⟨f₁, ⟨ha, hword⟩, hstep, hrest⟩ := Machine.run_cons hrun
    have h₁ : FleetRuns P (fun _ _ => True) f₁ := h.next ha hstep
    by_cases hpa : p = a.1
    swap
    · have hsame := Fleet.step_other hstep hpa
      rw [ownActs_other hpa, ← hsame]
      exact ih h₁ (hsame ▸ hp) hrest
    obtain ⟨r, act⟩ := a
    obtain rfl : p = r := hpa
    -- the process is not between two iterations
    have htasks : (f.process p).state.tasks ≠ [] := fun he => h.outside ⟨he, hp⟩ hword
    cases act with
    | trylock => exact absurd ha.1 htasks
    | run b =>
      have hinner : b.Inner := by
        cases b with
        | iterate free ok reports now => exact absurd ha.1 htasks
        | _ => trivial
      obtain ⟨s, hs, hs₁⟩ := Fleet.step_run hstep
      obtain ⟨lc, hsound⟩ := h.sound p
      obtain ⟨-, hle⟩ := hsound.inner ha.1 hinner hs
      obtain ⟨bs, hown, hlen⟩ := ih h₁ (by rw [hs₁]) hrest
      rw [hs₁] at hlen
      refine ⟨b :: bs, by rw [ownActs_self, hown, List.map_cons], ?_⟩
      rw [List.length_cons, List.map_cons, List.sum_cons]
      dsimp only at hlen
      omega

/-- **The mutex is held for one iteration.** A process that has got the lock starts an iteration
and, as long as the word is its own, makes the steps of this iteration only, of which there are no
more than the loops allow for. The other processes make any number of steps in between. -/
theorem fleet_lets_go (P : Accept.Workers W) (f f' : Fleet P.connectionN W)
    (h : FleetRuns P (fun _ _ => True) f) {p : W} (hgot : (f.process p).attempt = some true)
    (as : List (W × Act P.connectionN))
    (hrun : (fleetMachine P).run
      (fun f a => (f.process a.1).Allowed a.2 ∧ f.word = P.pid p) f as = some f') :
    ownActs p as = [] ∨ ∃ ok reports now, ∃ bs : List (Label P.connectionN),
      ownActs p as = .run (.iterate true ok reports now) :: bs.map .run ∧
        bs.length ≤ 4 + 5 * reports.length + 12 * P.connectionN + (bs.map Label.grant).sum := by
  induction as generalizing f with
  | nil => exact .inl rfl
  | cons a as ih =>
    obtain ⟨f₁, ⟨ha, hword⟩, hstep, hrest⟩ := Machine.run_cons hrun
    have h₁ : FleetRuns P (fun _ _ => True) f₁ := h.next ha hstep
    by_cases hpa : p = a.1
    swap
    · rw [ownActs_other hpa]
      exact ih f₁ h₁ ((Fleet.step_other hstep hpa).symm ▸ hgot) hrest
    obtain ⟨r, act⟩ := a
    obtain rfl : p = r := hpa
    obtain ⟨htasks, htries⟩ := h.attempted p (by rw [hgot]; exact Option.some_ne_none _)
    -- its first own step is the iteration
    cases act with
    | trylock =>
      have hno := ha.2.1
      rw [hgot] at hno
      cases hno
    | run b =>
      obtain ⟨s, hs, hs₁⟩ := Fleet.step_run hstep
      cases b with
      | iterate free ok reports now =>
        -- `trylock_accept_mutex` sees what `shmtx_trylock` has answered
        obtain rfl : free = true := by
          have hfree := ha.2
          simp only [hgot, if_pos htries] at hfree
          exact (Option.some.inj hfree).symm
        have hwork := State.Sound.iterate_work htasks hs
        obtain ⟨bs, hown, hlen⟩ := h₁.own_inner (by rw [hs₁]) hrest
        rw [hs₁] at hlen
        refine .inr ⟨ok, reports, now, bs, by rw [ownActs_self, hown], ?_⟩
        dsimp only at hlen
        omega
      | next => simp [State.step, htasks] at hs
      | call memory recvs ok => simp [State.step, htasks] at hs
      | accept answers => simp [State.step, htasks] at hs
      | write sends ok => simp [State.step, htasks] at hs

/-- The process that gets the lock comes to `event_accept` while another one goes on. -/
theorem fleet_lets_go_alone :
    ∃ f f' : Fleet twoProcesses.connectionN Bool, (f.process false).attempt = some true ∧
      (fleetMachine twoProcesses).run (fun f a => (f.process a.1).Allowed a.2 ∧
        f.word = twoProcesses.pid false) f acceptAlone.tail = some f' ∧
      ∃ ok reports now, ∃ bs : List (Label 2), ownActs false acceptAlone.tail =
        .run (.iterate true ok reports now) :: bs.map .run ∧
        bs.length ≤ 4 + 5 * reports.length + 12 * 2 + (bs.map Label.grant).sum := by
  have hlaunch : ((Fleet.launch (fun _ _ => True) [(false, .trylock)]).bind fun f =>
      if (f.process false).attempt = some true then (fleetMachine twoProcesses).run (fun f a =>
        (f.process a.1).Allowed a.2 ∧ f.word = twoProcesses.pid false) f acceptAlone.tail
      else none).isSome = true := by decide +kernel
  obtain ⟨f', hf'⟩ := Option.isSome_iff_exists.mp hlaunch
  obtain ⟨f, hf, hrun⟩ := Option.bind_eq_some_iff.mp hf'
  have hgot : (f.process false).attempt = some true := by
    by_contra hno
    rw [if_neg hno] at hrun
    cases hrun
  rw [if_pos hgot] at hrun
  have hown := fleet_lets_go twoProcesses f f' (fleetRuns_of_launch hf) hgot _ hrun
  refine ⟨f, f', hgot, hrun, hown.resolve_left ?_⟩
  exact List.cons_ne_nil _ _

/-! ## How the mutex gets free -/

/-- The step that a task waits for, when the kernel has nothing. -/
def Task.idle : Task n → Label n
  | .call _ => .call none [[.again]] true
  | .accept _ => .accept ⟨.again, ⟨none, [], [], true⟩, none, true, true⟩
  | .write _ => .write [[.again]] true
  | .expire => .next
  | .posted _ => .next
  | .batch _ _ => .next
  | .batchWrite _ _ _ => .next

/-- With something to do a worker can always go on, and has less to do then. -/
lemma State.Sound.idle (h : s.Sound lc) (htasks : s.tasks ≠ []) :
    ∃ a s', s.Allowed a ∧ a.Inner ∧ s.step a = some s' ∧ s'.work < s.work := by
  obtain ⟨t, st, htasks⟩ := List.exists_cons_of_ne_nil htasks
  have hawait : s.Awaits t.idle := by
    rw [State.Awaits, htasks]
    cases t <;> trivial
  obtain ⟨hinner, hallowed, hgrant⟩ : t.idle.Inner ∧ s.Allowed t.idle ∧ t.idle.grant = 0 := by
    cases t with
    | accept ev =>
      refine ⟨trivial, ?_, rfl⟩
      intro fd hfd
      cases hfd
    | _ => exact ⟨trivial, trivial, rfl⟩
  have hans : t.idle.Answered := by
    cases t with
    | call ev => exact ⟨by simp [recvAnswer], by simp⟩
    | write ev => exact ⟨by simp [sendAnswer], by simp⟩
    | _ => trivial
  obtain ⟨s', hstep⟩ := h.progress hallowed hawait hans
  obtain ⟨-, hle⟩ := h.inner hallowed hinner hstep
  rw [hgrant] at hle
  exact ⟨t.idle, s', hallowed, hinner, hstep, hle⟩

/-- What a process has still to do until it is between two iterations. -/
def WorkerProcess.rank (p : WorkerProcess n) : ℕ :=
  if p.attempt = none then p.state.work else 5 + 12 * n

/-- A process that has the word can go on, and has less to do then. -/
lemma FleetRuns.goes (h : FleetRuns P (fun _ _ => True) f) (hword : f.word = P.pid p) :
    ∃ a f', (f.process p).Allowed a ∧ f.step P (p, a) = some f' ∧
      (f'.process p).rank < (f.process p).rank := by
  obtain ⟨lc, hsound⟩ := h.sound p
  -- a step of the worker is one of the processes
  have hlift : ∀ {a s'}, (f.process p).state.step a = some s' →
      ∃ f', f.step P (p, .run a) = some f' ∧ f'.process p = ⟨s', none⟩ := by
    intro a s' hstep
    have hrun : ∃ r, f.step P (p, .run a) = some r := by
      rw [Fleet.step, processStep, hstep]
      exact ⟨_, rfl⟩
    obtain ⟨f', hf'⟩ := hrun
    obtain ⟨s₁, hs₁, hp⟩ := Fleet.step_run hf'
    obtain rfl := Option.some.inj (hstep.symm.trans hs₁)
    exact ⟨f', hf', hp⟩
  by_cases hattempt : (f.process p).attempt = none
  · -- it is within an iteration
    have htasks : (f.process p).state.tasks ≠ [] := fun he => h.outside ⟨he, hattempt⟩ hword
    obtain ⟨a, s', hallowed, hinner, hstep, hlt⟩ := hsound.idle htasks
    obtain ⟨f', hf', hp⟩ := hlift hstep
    have ha : (f.process p).Allowed (.run a) := by
      refine ⟨hallowed, ?_⟩
      cases a with
      | iterate free ok reports now => exact hinner.elim
      | _ => exact hattempt
    refine ⟨.run a, f', ha, hf', ?_⟩
    rw [WorkerProcess.rank, WorkerProcess.rank, hp, if_pos rfl, if_pos hattempt]
    exact hlt
  · -- it has tried for the lock, and `epoll_wait` reports nothing
    obtain ⟨htasks, htries⟩ := h.attempted p hattempt
    obtain ⟨free, hfree⟩ := Option.ne_none_iff_exists'.mp hattempt
    have hawait : (f.process p).state.Awaits (.iterate free true [] 0) := by
      rw [State.Awaits, htasks]
      exact ⟨free, true, [], 0, rfl⟩
    have hallowed : (f.process p).state.Allowed (.iterate free true [] 0) := htasks
    obtain ⟨s', hstep⟩ := hsound.progress hallowed hawait trivial
    have hwork := State.Sound.iterate_work htasks hstep
    obtain ⟨f', hf', hp⟩ := hlift hstep
    have ha : (f.process p).Allowed (.run (.iterate free true [] 0)) := by
      refine ⟨hallowed, ?_⟩
      simp only [hfree, if_pos htries]
    refine ⟨.run (.iterate free true [] 0), f', ha, hf', ?_⟩
    rw [WorkerProcess.rank, WorkerProcess.rank, hp, if_pos rfl, if_neg hattempt]
    show s'.work < 5 + 12 * P.connectionN
    rw [List.length_nil] at hwork
    omega

/-- What holds while the process `p`, which had the word in `f`, goes on alone. -/
structure Alone (P : Accept.Workers W) (p : W) (f g : Fleet P.connectionN W) : Prop where
  runs : FleetRuns P (fun _ _ => True) g
  others : ∀ q, q ≠ p → g.process q = f.process q
  word : g.word = P.pid p ∨ g.word = 0

lemma Alone.next {g g' : Fleet P.connectionN W} (h : Alone P p f g) {a : Act P.connectionN}
    (ha : (g.process p).Allowed a) (hstep : g.step P (p, a) = some g') (hword : g.word = P.pid p) :
    Alone P p f g' where
  runs := h.runs.next ha hstep
  others q hq := by rw [Fleet.step_other hstep hq, h.others q hq]
  word := by
    obtain ⟨⟨word', p'⟩, hrun, rfl⟩ := Option.map_eq_some_iff.mp hstep
    show word' = P.pid p ∨ word' = 0
    rcases processStep_word hrun with hsame | ⟨-, hpid⟩ | ⟨-, hzero⟩
    · rw [hsame]
      exact .inl hword
    · exact .inl hpid
    · exact .inr hzero

/-- Steps of the process that has the word, and the attempt of `q`. -/
def Turn (P : Accept.Workers W) (q : W) (f : Fleet P.connectionN W) (a : W × Act P.connectionN) :
    Prop :=
  (f.process a.1).Allowed a.2 ∧ (f.word = P.pid a.1 ∨ a = (q, .trylock))

/-- The holder comes to the end of its iteration without the others. -/
lemma FleetRuns.frees (h : FleetRuns P (fun _ _ => True) f) (hword : f.word = P.pid p) (q : W) :
    ∃ f', (fleetMachine P).Steps (Turn P q) f f' ∧ Alone P p f f' ∧ f'.word = 0 := by
  have hgoes : ∀ g, Alone P p f g → ¬ g.word = 0 → ∃ a g', Turn P q g a ∧
      g.step P a = some g' ∧ Alone P p f g' ∧ (g'.process p).rank < (g.process p).rank := by
    intro g hg hne
    have hheld := hg.word.resolve_right hne
    obtain ⟨a, g', ha, hstep, hlt⟩ := hg.runs.goes hheld
    exact ⟨(p, a), g', ⟨ha, .inl hheld⟩, hstep, hg.next ha hstep hheld, hlt⟩
  exact Machine.Steps.drain (N := fleetMachine P) (fun g => (g.process p).rank) (Alone P p f) _
    hgoes ⟨h, fun _ _ => rfl, .inl hword⟩

/-- **The mutex can always be had.** From every state of every run, a process that is about to try
for the lock can get it after some steps of the process that has it, if any: with the right answers
of the kernel the holder comes to the end of its iteration, and needs no other process for that. -/
theorem fleet_available (P : Accept.Workers W) (f : Fleet P.connectionN W)
    (h : FleetRuns P (fun _ _ => True) f) {q : W} (hq : (f.process q).Outside)
    (htries : Tries (f.process q).state.worker) :
    ∃ f', (fleetMachine P).Steps (Turn P q) f f' ∧ f'.word = P.pid q := by
  obtain ⟨f₁, hsteps, hsame, hword⟩ : ∃ f₁, (fleetMachine P).Steps (Turn P q) f f₁ ∧
      f₁.process q = f.process q ∧ f₁.word = 0 := by
    rcases h.owner with hword | ⟨p, hword⟩
    · exact ⟨f, .refl f, rfl, hword⟩
    · -- between two iterations a process does not have the word
      have hqp : q ≠ p := by
        rintro rfl
        exact h.outside hq hword
      obtain ⟨f₁, hsteps, halone, hzero⟩ := h.frees hword q
      exact ⟨f₁, hsteps, halone.others q hqp, hzero⟩
  -- now the word is free, and the process is where it was
  have ha : (f₁.process q).Allowed .trylock := by
    rw [hsame]
    exact ⟨hq.1, hq.2, htries⟩
  refine ⟨_, hsteps.snoc (b := (q, .trylock)) ⟨ha, .inr rfl⟩ rfl, ?_⟩
  show (if f₁.word = 0 then P.pid q else f₁.word) = P.pid q
  rw [if_pos hword]

/-- One process has the lock and waits for events, and the other one gets it next. -/
theorem fleet_available_second :
    ∃ f f' : Fleet twoProcesses.connectionN Bool, f.word = 10 ∧
      (fleetMachine twoProcesses).Steps (Turn twoProcesses true) f f' ∧ f'.word = 11 := by
  have hrun : (Fleet.launch (fun _ _ => True) [(false, .trylock),
      (false, .run (.iterate true true [] 1))]).map (fun f => (f.word,
        (f.process true).state.tasks.isEmpty, (f.process true).attempt,
        decide (Tries (f.process true).state.worker))) = some (10, true, none, true) := by
    decide +kernel
  obtain ⟨f, hf, heq⟩ := Option.map_eq_some_iff.mp hrun
  obtain ⟨hword, htasks, hattempt, htries⟩ : f.word = 10 ∧
      (f.process true).state.tasks.isEmpty = true ∧ (f.process true).attempt = none ∧
      decide (Tries (f.process true).state.worker) = true := by simpa using heq
  obtain ⟨f', hsteps, hword'⟩ := fleet_available twoProcesses f (fleetRuns_of_launch hf)
    ⟨List.isEmpty_iff.mp htasks, hattempt⟩ (of_decide_eq_true htries)
  exact ⟨f, f', hword, hsteps, hword'⟩

end Libcn.Program
