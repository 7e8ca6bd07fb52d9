import Libcn.Accept.Mutex
import Libcn.Program.Machine

/-!
# Processes that share the accept mutex

Each process runs `process_events_and_timers` over and over, with the worker of the program. The
word of the accept mutex is all they share. `shmtx_trylock` is a step of its own, since other
processes go on between it and the return of `epoll_wait`. Its read of the word and its swap are one
step: if the word is taken in between, the swap fails, as the read would have done later. The other
steps touch the word at most by `shmtx_unlock`, and what else they do is the process's own.
-/

namespace Libcn.Program

open Libcn.Lib Libcn.Queue Libcn.Rbtree Libcn.Timer Libcn.Cycle

variable {n : ℕ} {W : Type}

/-- A process: its state, and what `shmtx_trylock` has answered it since its last iteration. -/
structure WorkerProcess (n : ℕ) where
  state : State n
  attempt : Option Bool

/-- A step of a process. -/
inductive Act (n : ℕ)
  /-- `process_events_and_timers` starts with `shmtx_trylock` -/
  | trylock
  /-- any other step -/
  | run (a : Label n)

/-- `process_events_and_timers` tries to get the lock. -/
def Tries (w : Worker n) : Prop := w.useAcceptMutex = true ∧ ¬ 0 < w.acceptDisabled.toInt

instance (w : Worker n) : Decidable (Tries w) := inferInstanceAs (Decidable (_ ∧ _))

/-- `process_events_and_timers` is behind the posted accept events, with `accept_mutex_held`. -/
def Task.unlocks (w : Worker n) : Task n → Bool
  | .posted ⟨.postedAccept, _⟩ =>
    queueEmpty w.links (.head .postedAccept) && w.acceptMutexHeld
  | _ => false

/-- A step calls `shmtx_unlock`: in `trylock_accept_mutex` if the accept events could not be
enabled, behind the posted accept events, or in `event_accept` when no descriptors are left. -/
def unlocks (s : State n) (a : Label n) (s' : State n) : Bool :=
  match a, s.tasks with
  | .iterate free _ _ _, _ => decide (Tries s.worker) && free && s'.tasks.isEmpty
  | .next, t :: _ => t.unlocks s.worker
  | .accept _, _ => s.worker.acceptMutexHeld && !s'.worker.acceptMutexHeld
  | _, _ => false

/-- One step of a process: the word after it and the process. -/
def processStep (pid word : ℕ) (p : WorkerProcess n) : Act n → Option (ℕ × WorkerProcess n)
  | .trylock =>
    some (if word = 0 then pid else word, { p with attempt := some (decide (word = 0)) })
  | .run a =>
    (p.state.step a).map fun s =>
      (if unlocks p.state a s then Accept.shmtxUnlock pid word else word, ⟨s, none⟩)

/-- The steps of a process: the lock is tried for at the start of an iteration, if at all. -/
def WorkerProcess.Allowed (p : WorkerProcess n) : Act n → Prop
  | .trylock => p.state.tasks = [] ∧ p.attempt = none ∧ Tries p.state.worker
  | .run a => p.state.Allowed a ∧ match a with
    | .iterate free _ _ _ => p.attempt = if Tries p.state.worker then some free else none
    | _ => p.attempt = none

instance (p : WorkerProcess n) : (a : Act n) → Decidable (p.Allowed a)
  | .trylock =>
    decidable_of_iff (p.state.tasks.isEmpty = true ∧ p.attempt = none ∧ Tries p.state.worker)
      (by rw [List.isEmpty_iff]; rfl)
  | .run (.iterate _ _ _ _) => inferInstanceAs (Decidable (_ ∧ _))
  | .run .next => inferInstanceAs (Decidable (_ ∧ _))
  | .run (.call _ _ _) => inferInstanceAs (Decidable (_ ∧ _))
  | .run (.accept _) => inferInstanceAs (Decidable (_ ∧ _))
  | .run (.write _ _) => inferInstanceAs (Decidable (_ ∧ _))

/-- The shared word and the processes. -/
structure Fleet (n : ℕ) (W : Type) where
  word : ℕ
  process : W → WorkerProcess n

/-- One step of the process `a.1`. -/
def Fleet.step [DecidableEq W] (P : Accept.Workers W) (f : Fleet P.connectionN W)
    (a : W × Act P.connectionN) : Option (Fleet P.connectionN W) :=
  (processStep (P.pid a.1) f.word (f.process a.1) a.2).map fun r =>
    ⟨r.1, Function.update f.process a.1 r.2⟩

/-- A process when `event_process_init` returns: the counters of the accept mutex are still 0, and
`create_listening` did not ask for `reuseport`. -/
def WorkerProcess.Start (p : WorkerProcess n) : Prop :=
  p.attempt = none ∧ p.state.Start ∧ p.state.worker.listening.reuseport = false ∧
    p.state.worker.acceptEvents = 0 ∧ p.state.worker.acceptDisabled = 0

/-- The runs of the processes, which start with the word free. -/
def fleetMachine [DecidableEq W] (P : Accept.Workers W) :
    Machine (Fleet P.connectionN W) (W × Act P.connectionN) where
  init f := f.word = 0 ∧ ∀ p, (f.process p).Start
  step f a := f.step P a

/-- The states of the runs of the processes whose steps all satisfy `ok`. -/
def FleetRuns [DecidableEq W] (P : Accept.Workers W)
    (ok : WorkerProcess P.connectionN → Act P.connectionN → Prop) (f : Fleet P.connectionN W) :
    Prop :=
  (fleetMachine P).Reach (fun f a => (f.process a.1).Allowed a.2 ∧ ok (f.process a.1) a.2) f

/-! ## What is said of a process -/

/-- The process is between two calls of `process_events_and_timers`. -/
def WorkerProcess.Outside (p : WorkerProcess n) : Prop := p.state.tasks = [] ∧ p.attempt = none

/-- With these tasks a worker is in `event_accept`. -/
def AcceptsNow (w : Worker n) : List (Task n) → Prop
  | .call ev :: _ => (w.event ev).handler = .eventAccept
  | .accept _ :: _ => True
  | _ => False

instance (w : Worker n) : (st : List (Task n)) → Decidable (AcceptsNow w st)
  | [] => .isFalse id
  | .call _ :: _ => inferInstanceAs (Decidable (_ = _))
  | .accept _ :: _ => .isTrue trivial
  | .write _ :: _ => .isFalse id
  | .expire :: _ => .isFalse id
  | .posted _ :: _ => .isFalse id
  | .batch _ _ :: _ => .isFalse id
  | .batchWrite _ _ _ :: _ => .isFalse id

/-- The process is in `event_accept`. -/
def WorkerProcess.Accepting (p : WorkerProcess n) : Prop := AcceptsNow p.state.worker p.state.tasks

instance (p : WorkerProcess n) : Decidable p.Accepting :=
  inferInstanceAs (Decidable (AcceptsNow _ _))

/-- With these tasks a worker is in `myread` or `mywrite`. -/
def ServesNow (w : Worker n) : List (Task n) → Prop
  | .call ev :: _ => (w.event ev).handler ≠ .eventAccept
  | .write _ :: _ => True
  | _ => False

instance (w : Worker n) : (st : List (Task n)) → Decidable (ServesNow w st)
  | [] => .isFalse id
  | .call _ :: _ => inferInstanceAs (Decidable (_ ≠ _))
  | .accept _ :: _ => .isFalse id
  | .write _ :: _ => .isTrue trivial
  | .expire :: _ => .isFalse id
  | .posted _ :: _ => .isFalse id
  | .batch _ _ :: _ => .isFalse id
  | .batchWrite _ _ _ :: _ => .isFalse id

/-- The process serves a client. -/
def WorkerProcess.Serves (p : WorkerProcess n) : Prop := ServesNow p.state.worker p.state.tasks

instance (p : WorkerProcess n) : Decidable p.Serves :=
  inferInstanceAs (Decidable (ServesNow _ _))

/-- The listening event of a worker is active. -/
def listens (w : Worker n) : Bool :=
  match w.listening.connection with
  | none => false
  | some c => (w.event (w.connection c).read).active

/-- An iteration starts without an attempt to get the lock although the listening event is
active. -/
def WorkerProcess.Skips (p : WorkerProcess n) : Act n → Prop
  | .run (.iterate _ _ _ _) =>
    p.state.worker.useAcceptMutex = true ∧ 0 < p.state.worker.acceptDisabled.toInt ∧
      listens p.state.worker = true
  | _ => False

instance (p : WorkerProcess n) : (a : Act n) → Decidable (p.Skips a)
  | .trylock => .isFalse id
  | .run (.iterate _ _ _ _) => inferInstanceAs (Decidable (_ ∧ _))
  | .run .next => .isFalse id
  | .run (.call _ _ _) => .isFalse id
  | .run (.accept _) => .isFalse id
  | .run (.write _ _) => .isFalse id

/-! ## Runs on given steps -/

lemma pids_ne_zero (p : Bool) : (if p then 11 else 10 : ℕ) ≠ 0 := by
  cases p <;> decide

lemma pids_injective (p q : Bool) (h : (if p then 11 else 10 : ℕ) = if q then 11 else 10) :
    p = q := by
  revert p q
  decide

/-- Two processes with two slots each. -/
abbrev twoProcesses : Accept.Workers Bool where
  connectionN := 2
  pid p := if p then 11 else 10
  pid_ne_zero := pids_ne_zero
  pid_injective := pids_injective

/-- The processes after steps, if each is allowed. The listening socket is descriptor 3 of both. -/
def Fleet.launch (ok : WorkerProcess 2 → Act 2 → Prop) [∀ p a, Decidable (ok p a)]
    (as : List (Bool × Act 2)) : Option (Fleet twoProcesses.connectionN Bool) :=
  (State.launch 2 false (fun _ _ => True) []).bind fun s =>
    (fleetMachine twoProcesses).run
      (fun f a => (f.process a.1).Allowed a.2 ∧ ok (f.process a.1) a.2) ⟨0, fun _ => ⟨s, none⟩⟩ as

lemma fleetRuns_of_launch {ok : WorkerProcess 2 → Act 2 → Prop} [∀ p a, Decidable (ok p a)]
    {as : List (Bool × Act 2)} {f : Fleet twoProcesses.connectionN Bool}
    (h : Fleet.launch ok as = some f) : FleetRuns twoProcesses ok f := by
  obtain ⟨s, hlaunch, hrun⟩ := Option.bind_eq_some_iff.mp h
  have hglobals : (State.launch 2 false (fun _ _ => True) []).map (fun s =>
      (s.worker.listening.reuseport, s.worker.acceptEvents, s.worker.acceptDisabled)) =
      some (false, 0, 0) := by decide +kernel
  rw [hlaunch] at hglobals
  obtain ⟨hport, hevents, hdisabled⟩ : s.worker.listening.reuseport = false ∧
      s.worker.acceptEvents = 0 ∧ s.worker.acceptDisabled = 0 := by simpa using hglobals
  rw [State.launch] at hlaunch
  obtain ⟨⟨b, w⟩, hinit, hs⟩ := Option.bind_eq_some_iff.mp hlaunch
  obtain rfl := Option.some.inj hs
  have hstart : State.Start (⟨w, [], fun _ => [], fun _ => []⟩ : State 2) :=
    ⟨listeningWorker 2 false, w, b, true, by decide, rfl, rfl, rfl, rfl, rfl, hinit, rfl⟩
  exact Machine.Reach.run (.init ⟨rfl, fun _ => ⟨rfl, hstart, hport, hevents, hdisabled⟩⟩) hrun

/-- The first process gets the lock and comes to `event_accept`, the other one does not get it. -/
def acceptAlone : List (Bool × Act 2) :=
  [(false, .trylock), (true, .trylock),
    (false, .run (.iterate true true [⟨3, true, false, false, false⟩] 1)),
    (true, .run (.iterate false true [] 1)), (false, .run .next), (false, .run .next),
    (true, .run .next), (false, .run .next), (false, .run .next)]

end Libcn.Program
