import Libcn.Cycle.Closing
import Libcn.Lib.Ledger
import Libcn.Lib.Machine

/-!
# A worker with arbitrary handlers

The runs of a worker whose handlers perform any operations in any order. A loop that calls
handlers is a frame on a stack while it runs, so that a handler may call further loops. The trace
records what the statements about runs speak of; the code does not read it.
-/

namespace Libcn.Cycle

open Libcn.Lib Libcn.Lib.Links Libcn.Queue Libcn.Rbtree Libcn.Timer

variable {n : ℕ}

/-- `posted_accept_events` or `posted_events`. -/
abbrev PostedQueue := { q : QueueId // q ≠ .reusable }

def PostedQueue.posted : PostedQueue := ⟨.posted, by decide⟩

def PostedQueue.postedAccept : PostedQueue := ⟨.postedAccept, by decide⟩

/-! ## Traces -/

/-- What is observed of a run. -/
inductive Note (n : ℕ)
  /-- `get_connection` handed out the slot. -/
  | opened (c : Fin n)
  /-- The connection of the slot was closed. -/
  | closed (c : Fin n)
  /-- An event was put into a queue by `post_event`. -/
  | posted (q : QueueId) (ev : EventId n)
  /-- `event_process_posted` called the handler of an event. -/
  | called (q : QueueId) (ev : EventId n)
  /-- `epoll_process_events` marked the events of a slot ready for a record that was reported for
  the opening with the given number. -/
  | dispatched (c : Fin n) (opening : ℕ)
  deriving DecidableEq, Repr

/-- How often the slot was handed out. The last note of a trace comes first. -/
def openings (trace : List (Note n)) (c : Fin n) : ℕ := trace.count (.opened c)

/-- The slot was handed out and not closed since. -/
def occupied : List (Note n) → Fin n → Bool
  | [], _ => false
  | .opened d :: t, c => if d = c then true else occupied t c
  | .closed d :: t, c => if d = c then false else occupied t c
  | .posted _ _ :: t, c => occupied t c
  | .called _ _ :: t, c => occupied t c
  | .dispatched _ _ :: t, c => occupied t c

/-! ## Calls of a handler -/

/-- An operation that calls no handler. -/
inductive Call (n : ℕ)
  | addTimer (ev : EventId n) (timer : BitVec 64)
  | delTimer (ev : EventId n)
  | post (ev : EventId n) (q : PostedQueue)
  | reusable (c : Fin n) (reusable : Bool)
  | close (c : Fin n)
  | closeAccepted (c : Fin n)
  | addEvent (ev : EventId n) (edge ok : Bool)
  | delEvent (ev : EventId n) (edge ok : Bool)
  | addConnection (c : Fin n) (ok : Bool)
  | delConnection (c : Fin n) (ok : Bool)
  | handleRead (c : Fin n) (ok : Bool)
  | handleWrite (c : Fin n) (lowat : ℕ) (lowatOk ok : Bool)
  | enableAccept (ok : Bool)
  | disableAccept (all ok : Bool)
  | listen (c : Fin n) (ok : Bool)
  | writeEvent (ev : EventId n) (e : Event n)
  | writeConnection (c : Fin n) (r : Connection n)

/-- A handler may write the fields of an event that are its own. -/
def Event.written (old e : Event n) : Event n :=
  { e with
    data := old.data
    instanceBit := old.instanceBit
    active := old.active
    posted := old.posted }

/-- A handler may write the fields of a connection that are its own. -/
def Connection.written (old r : Connection n) : Connection n :=
  { r with
    read := old.read
    write := old.write
    fd := old.fd
    reusable := old.reusable
    shared := old.shared }

/-- The worker after a call. -/
def Call.run (w : Worker n) : Call n → Option (Worker n)
  | .addTimer ev timer => Cycle.addTimer w ev timer
  | .delTimer ev => Cycle.delTimer w ev
  | .post ev q => postEvent w ev q.1
  | .reusable c b => reusableConnection w c b
  | .close c => closeConnection w c
  | .closeAccepted c => some (closeAcceptedConnection w c)
  | .addEvent ev edge ok => (epollAddEvent w ev ev.2 edge ok).map Prod.snd
  | .delEvent ev edge ok => (epollDelEvent w ev ev.2 false edge ok).map Prod.snd
  | .addConnection c ok => some (epollAddConnection w c ok)
  | .delConnection c ok => some (epollDelConnection w c false ok).2
  | .handleRead c ok => (handleReadEvent w (c, .read) ok).map Prod.snd
  | .handleWrite c lowat lowatOk ok =>
    (handleWriteEvent w (c, .write) lowat lowatOk ok).map Prod.snd
  | .enableAccept ok => (enableAcceptEvents w ok).map Prod.snd
  | .disableAccept all ok => (disableAcceptEvents w all ok).map Prod.snd
  | .listen c ok => (listenOn w c ok).map Prod.snd
  | .writeEvent ev e => some (w.setEvent ev (·.written e))
  | .writeConnection c r => some (w.setConnection c (·.written r))

/-- What a call adds to the trace. -/
def Call.notes (w : Worker n) : Call n → List (Note n)
  | .post ev q => if (w.event ev).posted then [] else [.posted q.1 ev]
  | .close c => if InUse w.connection c then [.closed c] else []
  | .closeAccepted c => [.closed c]
  | _ => []

/-! ## Loops -/

/-- A record together with the number of the opening it was reported for. -/
abbrev Reported (n : ℕ) := Record n × ℕ

/-- A loop that calls handlers, with what it has still to do, or a handler it called. -/
inductive Frame (n : ℕ)
  | handler
  | expire
  | posted (q : PostedQueue)
  | drain (rounds : ℕ)
  /-- `get_connection` for a descriptor, after `drain_connections` if that was called -/
  | get (s : ℤ)
  /-- `epoll_process_events` before a record -/
  | batch (records : List (Reported n)) (postEvents : Bool)
  /-- and before the second half of a record -/
  | batchWrite (record : Reported n) (records : List (Reported n)) (postEvents : Bool)

/-- The descriptor a call of `get_connection` is for. -/
def Frame.awaits : Frame n → Option ℤ
  | .get fd => some fd
  | _ => none

/-- What `epoll_wait` reports of a registered descriptor. -/
structure Report where
  fd : ℤ
  epollin : Bool
  epollout : Bool
  epollrdhup : Bool
  errhup : Bool
  deriving DecidableEq, Repr

/-- `epoll_wait` hands back the connection and the instance bit the descriptor was registered
with. -/
def Kernel.epollWait (k : Kernel n) (r : Report) : Option (Record n) :=
  (k.interest r.fd).map fun e =>
    { slot := e.slot, instanceBit := e.instanceBit, epollin := r.epollin, epollout := r.epollout
      epollrdhup := r.epollrdhup, errhup := r.errhup }

/-- A worker, its stack, the connection `get_connection` has just answered, and the trace. -/
structure Config (n : ℕ) where
  worker : Worker n
  stack : List (Frame n)
  obtained : Option (Fin n)
  trace : List (Note n)

/-- A step of a run. -/
inductive Label (n : ℕ)
  | call (a : Call n)
  | getConnection (s : ℤ)
  | drainConnections
  | expireTimers
  | processPosted (q : PostedQueue)
  | processEvents (reports : List Report) (postEvents : Bool)
  | clock (now : BitVec 64)
  /-- The loop on top of the stack goes on. -/
  | next
  /-- The handler on top of the stack returns. -/
  | ret

namespace Config

/-- Code outside the loops runs: a handler or the caller of the first loop. -/
def AtBody (s : Config n) : Prop := s.stack = [] ∨ s.stack.head? matches some .handler

instance (s : Config n) : Decidable s.AtBody := inferInstanceAs (Decidable (_ ∨ _))

/-- The descriptors of the calls of `get_connection` on the stack. -/
def pending (s : Config n) : List ℤ := s.stack.filterMap Frame.awaits

/-- A descriptor for `get_connection`: the kernel hands it out now, so that it is not open, or it
was open before, but not registered and not that of a connection. -/
def Handed (s : Config n) (fd : ℤ) : Prop :=
  fd ≠ -1 ∧ (s.worker.kernel.isOpen fd = false ∨
    s.worker.kernel.interest fd = none ∧ (∀ c, (s.worker.connection c).fd ≠ fd) ∧ fd ∉ s.pending)

instance (s : Config n) (fd : ℤ) : Decidable (s.Handed fd) := inferInstanceAs (Decidable (_ ∧ _))

/-- The calls a handler makes: on events and connections in use, deleting armed timers only, and
closing accepted connections at once or through `close_connection`. -/
def AllowedCall (s : Config n) : Call n → Prop
  | .addTimer ev _ => InUse s.worker.connection ev.1
  | .delTimer ev => InUse s.worker.connection ev.1 ∧ s.worker.timers.timerSet ev = true
  | .post ev _ => InUse s.worker.connection ev.1
  | .reusable c _ => InUse s.worker.connection c
  | .close _ => True
  | .closeAccepted c => s.obtained = some c
  | .addEvent ev _ _ => InUse s.worker.connection ev.1
  | .delEvent ev _ _ => InUse s.worker.connection ev.1
  | .addConnection c _ => InUse s.worker.connection c
  | .delConnection c _ => InUse s.worker.connection c
  | .handleRead c _ => InUse s.worker.connection c
  | .handleWrite c _ _ _ => InUse s.worker.connection c
  | .enableAccept _ => True
  | .disableAccept _ _ => True
  | .listen c _ => s.obtained = some c
  | .writeEvent _ _ => True
  | .writeConnection c _ => InUse s.worker.connection c

instance (s : Config n) : (a : Call n) → Decidable (s.AllowedCall a)
  | .addTimer _ _ => inferInstanceAs (Decidable (InUse _ _))
  | .delTimer _ => inferInstanceAs (Decidable (_ ∧ _))
  | .post _ _ => inferInstanceAs (Decidable (InUse _ _))
  | .reusable _ _ => inferInstanceAs (Decidable (InUse _ _))
  | .close _ => .isTrue trivial
  | .closeAccepted _ => inferInstanceAs (Decidable (_ = _))
  | .addEvent _ _ _ => inferInstanceAs (Decidable (InUse _ _))
  | .delEvent _ _ _ => inferInstanceAs (Decidable (InUse _ _))
  | .addConnection _ _ => inferInstanceAs (Decidable (InUse _ _))
  | .delConnection _ _ => inferInstanceAs (Decidable (InUse _ _))
  | .handleRead _ _ => inferInstanceAs (Decidable (InUse _ _))
  | .handleWrite _ _ _ _ => inferInstanceAs (Decidable (InUse _ _))
  | .enableAccept _ => .isTrue trivial
  | .disableAccept _ _ => .isTrue trivial
  | .listen _ _ => inferInstanceAs (Decidable (_ = _))
  | .writeEvent _ _ => .isTrue trivial
  | .writeConnection _ _ => inferInstanceAs (Decidable (InUse _ _))

/-- The steps of a run. -/
def Allowed (s : Config n) : Label n → Prop
  | .call a => s.AtBody ∧ s.AllowedCall a
  | .getConnection fd => s.AtBody ∧ s.Handed fd
  | .drainConnections => s.AtBody
  | .expireTimers => s.AtBody
  | .processPosted _ => s.AtBody
  | .processEvents reports _ =>
    s.AtBody ∧ ∀ r ∈ reports, s.worker.kernel.interest r.fd ≠ none
  | .clock _ => True
  | .next => ¬ s.AtBody
  | .ret => s.AtBody ∧ s.stack ≠ []

instance (s : Config n) : (a : Label n) → Decidable (s.Allowed a)
  | .call _ => inferInstanceAs (Decidable (_ ∧ _))
  | .getConnection _ => inferInstanceAs (Decidable (_ ∧ _))
  | .drainConnections => inferInstanceAs (Decidable s.AtBody)
  | .expireTimers => inferInstanceAs (Decidable s.AtBody)
  | .processPosted _ => inferInstanceAs (Decidable s.AtBody)
  | .processEvents _ _ =>
    have : ∀ r : Report, Decidable (s.worker.kernel.interest r.fd ≠ none) := fun r => by infer_instance
    inferInstanceAs (Decidable (_ ∧ _))
  | .clock _ => .isTrue trivial
  | .next => inferInstanceAs (Decidable (¬ _))
  | .ret => inferInstanceAs (Decidable (_ ∧ _))

/-- The records of a report, each with the opening of its slot. -/
def report (s : Config n) (reports : List Report) : List (Reported n) :=
  reports.filterMap fun r =>
    (s.worker.kernel.epollWait r).map fun record => (record, openings s.trace record.slot)

/-- The state after a step that leaves the worker `w` and the stack. -/
def goOn (s : Config n) (w : Worker n) (stack : List (Frame n)) (notes : List (Note n)) :
    Config n :=
  { worker := w, stack := stack, obtained := none, trace := notes ++ s.trace }

/-- A loop calls a handler. -/
def callHandler (s : Config n) (w : Worker n) (stack : List (Frame n)) (notes : List (Note n)) :
    Config n := s.goOn w (.handler :: stack) notes

/-- What half a round of `epoll_process_events` adds to the trace. -/
def dispatchNotes (s : Config n) (r : Reported n) (ev : EventId n) (q : QueueId)
    (postEvents : Bool) : List (Note n) :=
  (if postEvents && !(s.worker.event ev).posted then [.posted q ev] else []) ++
    [.dispatched r.1.slot r.2]

/-- One round of a loop on top of the stack `st`. -/
def round (s : Config n) (st : List (Frame n)) : Frame n → Option (Config n)
  | .handler => none
  | .expire => do
    match ← timersNext s.worker with
    | none => pure (s.goOn s.worker st [])
    | some (_, w) => pure (s.callHandler w (.expire :: st) [])
  | .posted q => do
    match ← postedNext s.worker q.1 with
    | none => pure (s.goOn s.worker st [])
    | some (ev, w) => pure (s.callHandler w (.posted q :: st) [.called q.1 ev])
  | .drain 0 => some (s.goOn s.worker st [])
  | .drain (rounds + 1) => do
    match ← drainNext s.worker with
    | none => pure (s.goOn s.worker st [])
    | some (_, w) => pure (s.callHandler w (.drain rounds :: st) [])
  | .get fd =>
    match popConnection s.worker fd with
    | none => some (s.goOn s.worker st [])
    | some (c, w) =>
      some { worker := w, stack := st, obtained := some c, trace := .opened c :: s.trace }
  | .batch [] _ => some (s.goOn s.worker st [])
  | .batch (r :: rs) postEvents => do
    let rev := (s.worker.connection r.1.slot).read
    let q := if (s.worker.event rev).accept then QueueId.postedAccept else .posted
    match ← recordRead s.worker r.1 postEvents with
    | .skip => pure (s.goOn s.worker (.batch rs postEvents :: st) [])
    | .idle => pure (s.goOn s.worker (.batchWrite r rs postEvents :: st) [])
    | .ready w none => pure (s.goOn w (.batchWrite r rs postEvents :: st)
        (s.dispatchNotes r rev q postEvents))
    | .ready w (some _) => pure (s.callHandler w (.batchWrite r rs postEvents :: st)
        (s.dispatchNotes r rev q postEvents))
  | .batchWrite r rs postEvents => do
    let wev := (s.worker.connection r.1.slot).write
    match ← recordWrite s.worker r.1 postEvents with
    | .skip => pure (s.goOn s.worker (.batch rs postEvents :: st) [])
    | .idle => pure (s.goOn s.worker (.batch rs postEvents :: st) [])
    | .ready w none => pure (s.goOn w (.batch rs postEvents :: st)
        (s.dispatchNotes r wev .posted postEvents))
    | .ready w (some _) => pure (s.callHandler w (.batch rs postEvents :: st)
        (s.dispatchNotes r wev .posted postEvents))

/-- One round of the loop on top of the stack. -/
def next (s : Config n) : Option (Config n) :=
  match s.stack with
  | [] => none
  | f :: st => s.round st f

/-- One step of a run. -/
def step (s : Config n) : Label n → Option (Config n)
  | .call a => do
    let w ← a.run s.worker
    pure (s.goOn w s.stack (a.notes s.worker))
  | .getConnection fd =>
    let w := { s.worker with kernel := s.worker.kernel.hand fd }
    some (s.goOn w (if w.freeConnections = none then .drain (drainCount w) :: .get fd :: s.stack
      else .get fd :: s.stack) [])
  | .drainConnections => some (s.goOn s.worker (.drain (drainCount s.worker) :: s.stack) [])
  | .expireTimers => some (s.goOn s.worker (.expire :: s.stack) [])
  | .processPosted q => some (s.goOn s.worker (.posted q :: s.stack) [])
  | .processEvents reports postEvents =>
    some (s.goOn s.worker (.batch (s.report reports) postEvents :: s.stack) [])
  | .clock now =>
    some (s.goOn { s.worker with timers := { s.worker.timers with currentMsec := now } } s.stack [])
  | .next => s.next
  | .ret => some (s.goOn s.worker s.stack.tail [])

/-- A run starts with the table of connections just built. -/
def Start (s : Config n) : Prop :=
  ∃ w : Worker n, w.kernel.isOpen (-1) = false ∧ w.listening.connection = none ∧
    s = ⟨openTable (initCycle w), [], none, []⟩

end Config

/-- The runs of a worker. -/
def workerMachine (n : ℕ) : Machine (Config n) (Label n) := ⟨Config.Start, Config.step⟩

/-- The states of the runs of a worker. -/
def Runs (s : Config n) : Prop := (workerMachine n).Reach Config.Allowed s

end Libcn.Cycle
