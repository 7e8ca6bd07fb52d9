import Libcn.Accept.Release
import Libcn.Program.Tracking

/-!
# Processes that share the accept mutex keep to its protocol

The processes with all they do are simulated by the protocol of the accept mutex. So what the
protocol guarantees is guaranteed by the processes: with the same proviso, a process in
`event_accept` holds the mutex; and in every run the mutex is given back, before the event loop
handles an event of a client.
-/

namespace Libcn.Program

open Libcn.Lib Libcn.Queue Libcn.Rbtree Libcn.Timer Libcn.Cycle

variable {n : ℕ} {W : Type} {P : Accept.Workers W}
  {ok : WorkerProcess P.connectionN → Act P.connectionN → Prop} {ok' : Accept.Local → Prop}
  {f f' : Fleet P.connectionN W} {s : Accept.System W} {lc : Fin n} {p : WorkerProcess n}
  {l : Accept.Local}

/-! ## What the places tell -/

/-- Between two iterations. -/
lemma Shadows.outside (h : Shadows lc p l) (hp : p.Outside) : l.pc = .top := by
  have hst := h.stands
  rw [hp.1, hp.2] at hst
  exact hst.of_nil

lemma Shadows.listens (h : Shadows lc p l) : listens p.state.worker = l.active := by
  obtain ⟨free, lists, hcons⟩ := h.guarded.steady.consistent
  rw [h.agrees, Program.listens, h.guarded.steady.listening]
  simp only [hcons.slots.read]
  rfl

lemma Shadows.held (h : Shadows lc p l) : p.state.worker.acceptMutexHeld = l.held := by
  rw [h.agrees]
  rfl

/-- In `event_accept` the protocol has the worker there too. -/
lemma Shadows.accepting (h : Shadows lc p l) (hp : p.Accepting) : l.Accepting := by
  have hst := h.stands
  have hdue := h.sound.tasks
  obtain ⟨direct, hpc⟩ : ∃ direct, l.pc = .accept direct := by
    rw [WorkerProcess.Accepting] at hp
    generalize p.attempt = attempt at hst
    generalize l.pc = pc at hst ⊢
    generalize l.postEvents = b at hst
    cases htasks : p.state.tasks with
    | nil =>
      rw [htasks] at hp
      exact hp.elim
    | cons t st =>
      rw [htasks] at hp hst hdue
      cases hst with
      | loops hloops =>
        -- the tasks on top are loops
        cases t with
        | call ev => exact hloops.head.elim
        | accept ev => exact hloops.head.elim
        | write ev => exact hp.elim
        | expire => exact hp.elim
        | posted q => exact hp.elim
        | batch rs b => exact hp.elim
        | batchWrite r rs b => exact hp.elim
      | @client _ _ _ _ c hloops hpc hc ht =>
        rcases ht with rfl | rfl
        · -- the handler of a client is another one
          obtain ⟨⟨-, huse⟩, -⟩ := hdue
          have hhandler := (h.sound.steady.slot c huse).handler
          rw [readHandler, if_neg hc] at hhandler
          have hno := hhandler.symm.trans hp
          cases hno
        · exact hp.elim
      | @accept _ direct _ _ hloops ht => exact ⟨direct, rfl⟩
  rw [Accept.Local.Accepting, hpc]
  trivial

/-- What a client is served is not posted any more, or was not. -/
lemma Shadows.serves (h : Shadows lc p l) (hp : p.Serves) :
    l.pc = .rest ∨ l.pc = .events ∧ l.postEvents = false := by
  have hst := h.stands
  have hdue := h.sound.tasks
  rw [WorkerProcess.Serves] at hp
  generalize p.attempt = attempt at hst
  cases htasks : p.state.tasks with
  | nil =>
    rw [htasks] at hp
    exact hp.elim
  | cons t st =>
    rw [htasks] at hp hst hdue
    generalize l.pc = pc at hst ⊢
    generalize l.postEvents = b at hst ⊢
    cases hst with
    | loops hloops =>
      cases t with
      | call ev => exact hloops.head.elim
      | write ev => exact hloops.head.elim
      | accept ev => exact hp.elim
      | expire => exact hp.elim
      | posted q => exact hp.elim
      | batch rs b => exact hp.elim
      | batchWrite r rs b => exact hp.elim
    | client hloops hpc hc ht => exact hpc
    | accept hloops ht =>
      rcases ht with rfl | rfl
      · -- the handler of the listening event is `event_accept`
        obtain ⟨⟨-, huse⟩, -⟩ := hdue
        have hhandler := (h.sound.steady.slot lc huse).handler
        rw [readHandler, if_pos rfl] at hhandler
        exact absurd hhandler hp
      · exact hp.elim

/-! ## The provisos -/

/-- The steps of the processes that satisfy `ok` start where the workers satisfy `ok'`. Inside
`process_events_and_timers` all workers do. -/
structure Carries (P : Accept.Workers W)
    (ok : WorkerProcess P.connectionN → Act P.connectionN → Prop) (ok' : Accept.Local → Prop) :
    Prop where
  inside : ∀ l : Accept.Local, l.pc ≠ .top → ok' l
  start : ∀ (lc : Fin P.connectionN) (p : WorkerProcess P.connectionN) (a : Act P.connectionN)
    (l : Accept.Local), Shadows lc p l → p.Allowed a → ok p a →
      (∃ pid word r, processStep pid word p a = some r) → ok' l

/-- Any step. -/
lemma carries_true : Carries P (fun _ _ => True) fun _ => True :=
  ⟨fun _ _ => trivial, fun _ _ _ _ _ _ _ _ => trivial⟩

/-- No process skips the attempt to get the lock while its listening event is active. -/
lemma carries_skips : Carries P (fun p a => ¬ p.Skips a) fun l => ¬ l.Skips := by
  refine ⟨fun l hpc hskip => hpc hskip.1, fun lc p a l ht ha hok hstep hskip => ?_⟩
  obtain ⟨hpc, hdisabled, hactive⟩ := hskip
  have hst := ht.stands
  rw [hpc] at hst
  -- the worker is between two iterations
  obtain ⟨htasks, hattempt⟩ : p.state.tasks = [] ∧ p.attempt = none := by
    generalize p.state.tasks = tasks at hst
    generalize p.attempt = attempt at hst
    cases hst with
    | outside b => exact ⟨rfl, rfl⟩
    | loops h => rcases h.pc_cases with h | h | h <;> cases h
    | client h => rcases h.pc_cases with h | h | h <;> cases h
  have hpos : 0 < p.state.worker.acceptDisabled.toInt := by
    have hsame : l.disabled = p.state.worker.acceptDisabled := by
      rw [ht.agrees]
      rfl
    rwa [← hsame]
  obtain ⟨pid, word, r, hstep⟩ := hstep
  -- an attempt is not skipped, and no step but the start of an iteration can be made here
  cases a with
  | trylock => exact ha.2.2.2 hpos
  | run a =>
    obtain ⟨s', hstep, -⟩ := Option.map_eq_some_iff.mp hstep
    cases a with
    | iterate free ok reports now =>
      refine hok ⟨ht.guarded.steady.mutex, hpos, ?_⟩
      rw [ht.listens, hactive]
    | next => simp [State.step, htasks] at hstep
    | call memory recvs ok => simp [State.step, htasks] at hstep
    | accept answers => simp [State.step, htasks] at hstep
    | write sends ok => simp [State.step, htasks] at hstep

/-! ## The simulation -/

lemma WorkerProcess.Start.shadows (h : p.Start) : ∃ lc, Shadows lc p (Accept.Local.init n) := by
  obtain ⟨hattempt, hstart, hport, hevents, hdisabled⟩ := h
  obtain ⟨lc, hsound, hg, htasks, hinit⟩ := start_guarded hstart hport hevents hdisabled
  refine ⟨lc, hsound, hg, ?_, hinit.symm⟩
  rw [htasks, hattempt]
  exact .outside false

variable [DecidableEq W]

/-- The word is the same, and every process is where its worker is. -/
def Mirrors (P : Accept.Workers W) (f : Fleet P.connectionN W) (s : Accept.System W) : Prop :=
  f.word = s.word ∧ ∀ p, ∃ lc, Shadows lc (f.process p) (s.worker p)

/-- A step of one process is made by its worker, while the others stand still. -/
lemma Mirrors.step (h : Mirrors P f s) (hc : Carries P ok ok') {a : W × Act P.connectionN}
    (ha : (f.process a.1).Allowed a.2) (hok : ok (f.process a.1) a.2)
    (hstep : f.step P a = some f') :
    ∃ s', (Accept.acceptMachine P).Steps (fun s b => ok' (s.worker b.1)) s s' ∧
      Mirrors P f' s' := by
  obtain ⟨⟨word', p'⟩, hrun, rfl⟩ := Option.map_eq_some_iff.mp hstep
  obtain ⟨hword, hshadows⟩ := h
  obtain ⟨lc, ht⟩ := hshadows a.1
  have hok' : ok' (s.worker a.1) := hc.start lc _ a.2 _ ht ha hok ⟨_, _, _, hrun⟩
  rw [hword] at hrun
  obtain ⟨l', hsteps, ht'⟩ := ht.step ha hrun hok' hc.inside
  refine ⟨_, hsteps.steps s.worker rfl, rfl, fun q => ?_⟩
  show ∃ lc, Shadows lc (Function.update f.process a.1 p' q) (Function.update s.worker a.1 l' q)
  rcases eq_or_ne q a.1 with rfl | hq
  · simp only [Function.update_self]
    exact ⟨lc, ht'⟩
  · simp only [Function.update_of_ne hq]
    exact hshadows q

/-- Every state of the processes is mirrored by one of the protocol. -/
lemma FleetRuns.mirrored (h : FleetRuns P ok f) (hc : Carries P ok ok') :
    ∃ s, (Accept.acceptMachine P).Reach (fun s b => ok' (s.worker b.1)) s ∧ Mirrors P f s := by
  refine Machine.Reach.simulates (fun f hf => ?_) (fun f a f' s hR hok hs => ?_) h
  · refine ⟨⟨0, fun _ => Accept.Local.init P.connectionN⟩, ⟨rfl, fun _ => rfl⟩, hf.1, fun p => ?_⟩
    exact (hf.2 p).shadows
  · exact hR.step hc hok.1 hok.2 hs

/-! ## What the protocol guarantees -/

/-- **The processes refine the protocol of the accept mutex.** In every run of any number of
processes, whatever each of them serves meanwhile, the word and the variables are those of a run
of the protocol, and every process is where its worker is. -/
theorem fleet_refines (P : Accept.Workers W) (f : Fleet P.connectionN W)
    (h : FleetRuns P (fun _ _ => True) f) :
    ∃ s, (Accept.acceptMachine P).Reachable s ∧ Mirrors P f s := h.mirrored carries_true

/-- One of two processes has the lock and is in `event_accept`. -/
theorem fleet_refines_alone :
    ∃ f : Fleet twoProcesses.connectionN Bool, f.word = 10 ∧
      ∃ s, (Accept.acceptMachine twoProcesses).Reachable s ∧ Mirrors twoProcesses f s := by
  have hrun : (Fleet.launch (fun _ _ => True) acceptAlone).map Fleet.word = some 10 := by
    decide +kernel
  obtain ⟨f, hf, hword⟩ := Option.map_eq_some_iff.mp hrun
  exact ⟨f, hword, fleet_refines twoProcesses f (fleetRuns_of_launch hf)⟩

/-- **Processes do not accept together.** If no process skips the attempt to get the lock while
its listening event is active, then a process in `event_accept`, before it leaves for lack of
descriptors, has the word, and it is the only one there. -/
theorem fleet_exclusive (P : Accept.Workers W) (f : Fleet P.connectionN W)
    (h : FleetRuns P (fun p a => ¬ p.Skips a) f) :
    (∀ p, (f.process p).Accepting → f.word = P.pid p) ∧
      ∀ p q, (f.process p).Accepting → (f.process q).Accepting → p = q := by
  obtain ⟨s, hreach, hword, hshadows⟩ := h.mirrored carries_skips
  have hinv : s.Inv P := by
    refine hreach.invariant (fun s hs p => ?_) fun s a s' hi hok hs =>
      Accept.System.step_inv hi hok hs
    rw [hs.1, hs.2 p]
    exact ⟨rfl, (P.pid_ne_zero p).symm, rfl⟩
  have hown : ∀ p, (f.process p).Accepting → f.word = P.pid p := by
    intro p hp
    obtain ⟨lc, ht⟩ := hshadows p
    rw [hword]
    exact (hinv p).own (ht.accepting hp)
  refine ⟨hown, fun p q hp hq => ?_⟩
  have hpid : P.pid p = P.pid q := (hown p hp).symm.trans (hown q hq)
  exact P.pid_injective p q hpid

/-- The process that has the lock accepts, and the other one does not. -/
theorem fleet_exclusive_alone :
    ∃ f : Fleet twoProcesses.connectionN Bool, (f.process false).Accepting ∧
      f.word = twoProcesses.pid false ∧ ¬ (f.process true).Accepting := by
  have hrun : (Fleet.launch (fun p a => ¬ p.Skips a) acceptAlone).map (fun f =>
      decide (f.process false).Accepting) = some true := by decide +kernel
  obtain ⟨f, hf, haccepting⟩ := Option.map_eq_some_iff.mp hrun
  obtain ⟨hown, hone⟩ := fleet_exclusive twoProcesses f (fleetRuns_of_launch hf)
  have hp : (f.process false).Accepting := of_decide_eq_true haccepting
  exact ⟨f, hp, hown false hp, fun hq => Bool.noConfusion (hone true false hq hp)⟩

/-- In every run a worker of the protocol holds the word where it may and must, posts its events
with it, and `accept_mutex_held` mirrors the registration. -/
lemma FleetRuns.returns (h : FleetRuns P (fun _ _ => True) f) (p : W) :
    ∃ lc l, Shadows lc (f.process p) l ∧ l.Returns (f.word = P.pid p) ∧
      l.Posts (f.word = P.pid p) ∧ l.held = l.active := by
  obtain ⟨s, hreach, hword, hshadows⟩ := h.mirrored carries_true
  obtain ⟨lc, ht⟩ := hshadows p
  have hinv : ∀ q, (s.worker q).Returns (s.word = P.pid q) ∧
      (s.worker q).Posts (s.word = P.pid q) ∧ (s.worker q).held = (s.worker q).active := by
    refine hreach.invariant (I := fun s => ∀ q, (s.worker q).Returns (s.word = P.pid q) ∧
      (s.worker q).Posts (s.word = P.pid q) ∧ (s.worker q).held = (s.worker q).active)
      (fun s hs q => ?_) fun s a s' hi _ hs q => ?_
    · rw [hs.1, hs.2 q]
      exact ⟨(P.pid_ne_zero q).symm, trivial, rfl⟩
    · refine ⟨Accept.System.step_returns (fun q => (hi q).1) hs q, ?_⟩
      obtain ⟨hr, hposts, hheld⟩ := hi q
      rcases eq_or_ne q a.1 with rfl | hq
      · obtain ⟨⟨word', l'⟩, hrun, rfl⟩ := Option.map_eq_some_iff.mp hs
        simp only [Function.update_self]
        exact ⟨Accept.workerStep_posts (P.pid_ne_zero a.1) hr hposts hrun,
          Accept.workerStep_held hheld hrun⟩
      · -- the others neither take nor give back the word for it
        obtain ⟨hl, hown⟩ := Accept.System.step_own hq hs
        rw [hl, propext hown]
        exact ⟨hposts, hheld⟩
  rw [hword]
  exact ⟨lc, s.worker p, ht, hinv p⟩

/-- Between two iterations a process does not have the word. -/
lemma FleetRuns.outside (h : FleetRuns P (fun _ _ => True) f) {p : W}
    (hp : (f.process p).Outside) : f.word ≠ P.pid p := by
  obtain ⟨lc, l, ht, hreturns, -⟩ := h.returns p
  rwa [Accept.Local.Returns, ht.outside hp] at hreturns

/-- **No process keeps the mutex.** In every run a process between two calls of
`process_events_and_timers` does not have the word, and `accept_mutex_held` says whether the
listening event is active. -/
theorem fleet_returned (P : Accept.Workers W) (f : Fleet P.connectionN W)
    (h : FleetRuns P (fun _ _ => True) f) (p : W) :
    ((f.process p).Outside → f.word ≠ P.pid p) ∧
      (f.process p).state.worker.acceptMutexHeld = listens (f.process p).state.worker := by
  obtain ⟨lc, l, ht, -, -, hheld⟩ := h.returns p
  refine ⟨h.outside, ?_⟩
  rw [ht.held, ht.listens, hheld]

/-- A process that has accepted a connection is without the lock and still takes accept events. -/
theorem fleet_returned_acceptOne :
    ∃ f : Fleet twoProcesses.connectionN Bool, f.word ≠ twoProcesses.pid false ∧
      (f.process false).state.worker.acceptMutexHeld = true ∧
      listens (f.process false).state.worker = true := by
  have hrun : (Fleet.launch (fun _ _ => True)
      ((false, .trylock) :: acceptOne.map fun a => (false, .run a))).map (fun f =>
      ((f.process false).state.tasks.isEmpty, (f.process false).attempt,
        listens (f.process false).state.worker)) = some (true, none, true) := by decide +kernel
  obtain ⟨f, hf, heq⟩ := Option.map_eq_some_iff.mp hrun
  obtain ⟨htasks, hattempt, hlistens⟩ : (f.process false).state.tasks.isEmpty = true ∧
      (f.process false).attempt = none ∧ listens (f.process false).state.worker = true := by
    simpa using heq
  obtain ⟨hno, hheld⟩ := fleet_returned twoProcesses f (fleetRuns_of_launch hf) false
  exact ⟨f, hno ⟨List.isEmpty_iff.mp htasks, hattempt⟩, hheld.trans hlistens, hlistens⟩

/-- **No client's event is handled with the mutex.** In every run a process has given the mutex back
before its event loop calls `myread` or `mywrite`, for an event of `epoll_wait`, a timer or a posted
event. The calls that `drain_connections` makes within `event_accept` are not among these. -/
theorem fleet_defers (P : Accept.Workers W) (f : Fleet P.connectionN W)
    (h : FleetRuns P (fun _ _ => True) f) {p : W} (hp : (f.process p).Serves) :
    f.word ≠ P.pid p := by
  obtain ⟨lc, l, ht, hreturns, hposts, -⟩ := h.returns p
  rcases ht.serves hp with hpc | ⟨hpc, hdirect⟩
  · rwa [Accept.Local.Returns, hpc] at hreturns
  · -- with the word it would have posted the event
    intro hown
    rw [Accept.Local.Posts, hpc] at hposts
    have hpost := hposts hown
    rw [hdirect] at hpost
    cases hpost

/-- The input of a client is read after the lock was given back, with `accept_mutex_held` set. -/
theorem fleet_defers_input :
    ∃ f : Fleet twoProcesses.connectionN Bool, (f.process false).Serves ∧
      (f.process false).state.worker.acceptMutexHeld = true ∧ f.word ≠ twoProcesses.pid false := by
  have hrun : (Fleet.launch (fun _ _ => True)
      ((false, .trylock) :: acceptOne.map (fun a => (false, .run a)) ++
        (false, .trylock) :: inputOne.map (fun a => (false, .run a)))).map (fun f =>
      (decide (f.process false).Serves, (f.process false).state.worker.acceptMutexHeld)) =
      some (true, true) := by decide +kernel
  obtain ⟨f, hf, heq⟩ := Option.map_eq_some_iff.mp hrun
  obtain ⟨hserves, hheld⟩ := Prod.mk.inj heq
  have hp : (f.process false).Serves := of_decide_eq_true hserves
  exact ⟨f, hp, hheld, fleet_defers twoProcesses f (fleetRuns_of_launch hf) hp⟩

end Libcn.Program
