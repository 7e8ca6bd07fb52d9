import Libcn.Cycle.Machine
import Libcn.Program.Handlers

/-!
# The worker with the handlers of the program

`process_events_and_timers` over and over, with `callback`, `myread` and `mywrite`. What the
worker has still to do before the next iteration is a stack of tasks, so that every call of a
handler is a step of its own, and so are the rounds of `event_accept` and the call of `mywrite`
at the end of `myread`. The answers of the environment are in the labels.
-/

namespace Libcn.Program

open Libcn.Lib Libcn.Queue Libcn.Rbtree Libcn.Timer Libcn.Cycle

variable {n : ℕ}

/-! ## Tasks -/

/-- What a worker has still to do. -/
inductive Task (n : ℕ)
  /-- the handler of an event is called -/
  | call (ev : EventId n)
  /-- `event_accept` before a round -/
  | accept (ev : EventId n)
  /-- `myread` before it calls `mywrite` -/
  | write (ev : EventId n)
  | expire
  | posted (q : PostedQueue)
  /-- `epoll_process_events` before a record -/
  | batch (records : List (Record n)) (postEvents : Bool)
  /-- and before the second half of a record -/
  | batchWrite (record : Record n) (records : List (Record n)) (postEvents : Bool)

/-- A worker, what it has to do, and the bytes received and sent since a slot was handed out,
which the code does not keep. -/
structure State (n : ℕ) where
  worker : Worker n
  tasks : List (Task n)
  received : Fin n → List UInt8
  sent : Fin n → List UInt8

/-- A step of a run. -/
inductive Label (n : ℕ)
  /-- An iteration of `process_events_and_timers` starts: the accept mutex is free or not, the
  kernel grants `epoll_ctl` or not, `epoll_wait` reports, and the clock shows `now` after it. -/
  | iterate (free ok : Bool) (reports : List Report) (now : BitVec 64)
  /-- The loop on top of the stack goes on. -/
  | next
  /-- The handler on top of the stack is called, `myread` up to its call of `mywrite`. -/
  | call (memory : Option (ℕ → UInt8)) (recvs : List (List RecvResult)) (ok : Bool)
  /-- A round of `event_accept`. -/
  | accept (a : AcceptAnswers)
  /-- `mywrite` is called. -/
  | write (sends : List (List SendResult)) (ok : Bool)

/-! ## Steps -/

/-- The start of an iteration up to `epoll_wait`: whether it goes on, and `POST_EVENTS`. -/
def lockAccept (w : Worker n) (free ok : Bool) : Option (Bool × Bool × Worker n) :=
  if w.useAcceptMutex then
    if 0 < w.acceptDisabled.toInt then
      some (true, false, { w with acceptDisabled := w.acceptDisabled - 1 })
    else do
      let (ok, w) ← trylockAcceptMutex w free ok
      pure (ok, w.acceptMutexHeld, w)
  else some (true, false, w)

/-- What an iteration of `process_events_and_timers` does after `epoll_wait`, which reports
registered descriptors only. -/
def iterationTasks (w : Worker n) (reports : List Report) (now : BitVec 64) (postEvents : Bool) :
    List (Task n) :=
  [.batch (reports.filterMap w.kernel.epollWait) postEvents,
      .posted .postedAccept] ++
    (if now = w.timers.currentMsec then [] else [.expire]) ++ [.posted .posted]

/-- A round of a loop, in front of the tasks `st`. -/
def loopNext (w : Worker n) (st : List (Task n)) : Task n → Option (Worker n × List (Task n))
  | .expire => do
    match ← timersNext w with
    | none => pure (w, st)
    | some (ev, w) => pure (w, .call ev :: .expire :: st)
  | .posted q => do
    match ← postedNext w q.1 with
    | none => pure (w, st)
    | some (ev, w) => pure (w, .call ev :: .posted q :: st)
  | .batch [] _ => some (w, st)
  | .batch (r :: rs) postEvents => do
    match ← recordRead w r postEvents with
    | .skip => pure (w, .batch rs postEvents :: st)
    | .idle => pure (w, .batchWrite r rs postEvents :: st)
    | .ready w none => pure (w, .batchWrite r rs postEvents :: st)
    | .ready w (some ev) => pure (w, .call ev :: .batchWrite r rs postEvents :: st)
  | .batchWrite r rs postEvents => do
    match ← recordWrite w r postEvents with
    | .skip => pure (w, .batch rs postEvents :: st)
    | .idle => pure (w, .batch rs postEvents :: st)
    | .ready w none => pure (w, .batch rs postEvents :: st)
    | .ready w (some ev) => pure (w, .call ev :: .batch rs postEvents :: st)
  | .call _ => none
  | .accept _ => none
  | .write _ => none

/-- Bytes are added to what was received or sent on a slot. -/
def append (f : Fin n → List UInt8) (c : Fin n) (l : List UInt8) : Fin n → List UInt8 :=
  Function.update f c (f c ++ l)

namespace State

/-- The handler of an event is called. `mywrite` is a task of its own. -/
def callHandler (s : State n) (ev : EventId n) (st : List (Task n)) (memory : Option (ℕ → UInt8))
    (recvs : List (List RecvResult)) (ok : Bool) : Option (State n) :=
  match (s.worker.event ev).handler with
  | .null => none
  | .eventAccept => do
    let (go, w) ← eventAcceptStart s.worker ev ok
    pure { s with worker := w, tasks := if go then .accept ev :: st else st }
  | .myread => do
    let (go, l, w) ← myreadReceive s.worker ev memory recvs
    pure { s with
      worker := w
      tasks := if go then .write ev :: st else st
      received := append s.received ev.1 l }
  | .mywrite => some { s with tasks := .write ev :: st }

/-- The slot a round of `event_accept` takes. -/
def takes (s : State n) (a : AcceptAnswers) : Option (Fin n) :=
  match a.accept with
  | .descriptor fd => (acceptDescriptor s.worker fd a.drain).bind Prod.fst
  | _ => none

/-- Nothing was received or sent on the slot that was taken. -/
def cleared (f : Fin n → List UInt8) : Option (Fin n) → Fin n → List UInt8
  | none => f
  | some c => Function.update f c []

/-- A round of `event_accept`. -/
def acceptRound (s : State n) (ev : EventId n) (st : List (Task n)) (a : AcceptAnswers) :
    Option (State n) := do
  let (r, w) ← acceptNext s.worker ev a
  let tasks := match r with
    | .ret => st
    | .more => .accept ev :: st
    | .read rev => .call rev :: if (w.event ev).available then .accept ev :: st else st
  pure {
    worker := w
    tasks := tasks
    received := cleared s.received (s.takes a)
    sent := cleared s.sent (s.takes a) }

/-- One step of a run. -/
def step (s : State n) : Label n → Option (State n)
  | .iterate free ok reports now => do
    let (go, postEvents, w) ← lockAccept s.worker free ok
    if go then
      pure { s with
        worker := { w with timers := { w.timers with currentMsec := now } }
        tasks := iterationTasks w reports now postEvents }
    else pure { s with worker := w }
  | .next =>
    match s.tasks with
    | [] => none
    | t :: st => do
      let (w, tasks) ← loopNext s.worker st t
      pure { s with worker := w, tasks := tasks }
  | .call memory recvs ok =>
    match s.tasks with
    | .call ev :: st => s.callHandler ev st memory recvs ok
    | _ => none
  | .accept a =>
    match s.tasks with
    | .accept ev :: st => s.acceptRound ev st a
    | _ => none
  | .write sends ok =>
    match s.tasks with
    | .write ev :: st => do
      let (l, w) ← mywrite s.worker ev sends ok
      pure { s with worker := w, tasks := st, sent := append s.sent ev.1 l }
    | _ => none

/-- The steps of a run: an iteration starts after the last one, and `accept` hands out descriptors
that are not open. -/
def Allowed (s : State n) : Label n → Prop
  | .iterate _ _ _ _ => s.tasks = []
  | .accept a => ∀ fd, a.accept = .descriptor fd → fd ≠ -1 ∧ s.worker.kernel.isOpen fd = false
  | _ => True

instance (s : State n) : (a : Label n) → Decidable (s.Allowed a)
  | .iterate _ _ _ _ =>
    decidable_of_iff (s.tasks.isEmpty = true) List.isEmpty_iff
  | .accept ⟨.descriptor fd, _, _, _, _⟩ =>
    decidable_of_iff (fd ≠ -1 ∧ s.worker.kernel.isOpen fd = false)
      ⟨fun h _ e => AcceptResult.descriptor.inj e ▸ h, fun h => h fd rfl⟩
  | .accept ⟨.again, _, _, _, _⟩ => .isTrue nofun
  | .accept ⟨.aborted, _, _, _, _⟩ => .isTrue nofun
  | .accept ⟨.exhausted, _, _, _, _⟩ => .isTrue nofun
  | .accept ⟨.fail, _, _, _, _⟩ => .isTrue nofun
  | .next => .isTrue trivial
  | .call _ _ _ => .isTrue trivial
  | .write _ _ => .isTrue trivial

/-- A run starts when `event_process_init` returns, with the listening socket open. -/
def Start (s : State n) : Prop :=
  ∃ (w w' : Worker n) (b ok : Bool), 0 < n ∧ w.kernel.isOpen (-1) = false ∧
    w.listening.connection = none ∧ w.kernel.isOpen w.listening.fd = true ∧ w.statActive = 0 ∧
    w.pools = [] ∧ eventProcessInit (initCycle w) ok = some (b, w') ∧
    s = ⟨w', [], fun _ => [], fun _ => []⟩

end State

/-- The runs of a worker. -/
def programMachine (n : ℕ) : Machine (State n) (Label n) := ⟨State.Start, State.step⟩

/-- The states of the runs whose steps all satisfy `ok`. -/
def Runs (ok : State n → Label n → Prop) (s : State n) : Prop :=
  (programMachine n).Reach (fun s a => s.Allowed a ∧ ok s a) s

/-! ## Runs on given labels -/

/-- A worker before `event_process_init`, whose listening socket is descriptor 3. -/
def listeningWorker (n : ℕ) (deferred : Bool) : Worker n where
  __ := Worker.zeroed n
  listening := ⟨3, none, false, false, false, deferred, 300⟩
  kernel := (Worker.zeroed n).kernel.hand 3

/-- The state after labels, from the start of that worker, if each step is allowed. -/
def State.launch (n : ℕ) (deferred : Bool) (ok : State n → Label n → Prop)
    [∀ s a, Decidable (ok s a)] (as : List (Label n)) : Option (State n) := do
  let (_, w) ← eventProcessInit (initCycle (listeningWorker n deferred)) true
  (programMachine n).run (fun s a => s.Allowed a ∧ ok s a) ⟨w, [], fun _ => [], fun _ => []⟩ as

lemma runs_of_launch {deferred : Bool} {ok : State n → Label n → Prop}
    [∀ s a, Decidable (ok s a)] {as : List (Label n)} {s : State n} (hn : 0 < n)
    (h : State.launch n deferred ok as = some s) : Runs ok s := by
  obtain ⟨⟨b, w⟩, hinit, hrun⟩ := Option.bind_eq_some_iff.mp h
  refine Machine.Reach.run (.init ?_) hrun
  exact ⟨listeningWorker n deferred, w, b, true, hn, rfl, rfl, rfl, rfl, rfl, hinit, rfl⟩

/-- An iteration that accepts a connection. -/
def acceptOne : List (Label 2) :=
  [.iterate true true [⟨3, true, false, false, false⟩] 1, .next, .next, .next, .next,
    .call none [] true, .accept ⟨.descriptor 4, ⟨none, [], [], true⟩, some 0, true, true⟩,
    .accept ⟨.again, ⟨none, [], [], true⟩, none, true, true⟩, .next, .next, .next]

/-- The next one, up to the call of `myread` for this connection. -/
def inputOne : List (Label 2) :=
  [.iterate true true [⟨4, true, false, false, false⟩] 1, .next, .next, .next, .next, .next]

end Libcn.Program
