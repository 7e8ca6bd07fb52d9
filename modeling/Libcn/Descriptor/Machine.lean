import Libcn.Descriptor.Spending
import Libcn.Program.Handlers

/-!
# The descriptors of a worker

The functions that open and close descriptors, in a worker whose handlers are arbitrary otherwise:
`open_listening_sockets`, `event_accept`, the three functions that close, and
`event_process_init`, which makes the listening connection.
-/

namespace Libcn.Descriptor

open Libcn.Lib Libcn.Lib.Links Libcn.Queue Libcn.Rbtree Libcn.Timer Libcn.Cycle

variable {n : ℕ}

/-! ## `open_listening_sockets` -/

/-- What the kernel answers to `open_listening_sockets`: `socket`, `setsockopt` for `SO_REUSEADDR`
and `SO_REUSEPORT`, `ioctl` for `FIONBIO`, `bind` and `listen`. -/
structure OpenAnswers where
  socket : Option ℤ
  reuseaddr : Bool
  reuseport : Bool
  nonblocking : Bool
  bind : Bool
  listen : Bool
  deriving DecidableEq, Repr

/-- `open_listening_sockets` from `socket` on. -/
def openSocket (w : Worker n) (a : OpenAnswers) : Bool × Worker n :=
  match a.socket with
  | none => (false, w)
  | some s =>
    let w := { w with kernel := w.kernel.hand s }
    if !a.reuseaddr then (false, w.close s)
    else if w.listening.reuseport && !a.reuseport then (false, w.close s)
    else if !a.nonblocking then (false, w)
    else if !a.bind then (false, w.close s)
    else if !a.listen then (false, w.close s)
    else (true, { w with listening := { w.listening with fd := s } })

/-- `open_listening_sockets`. `SO_REUSEPORT` is set on the old socket, whether it can or not. -/
def openListeningSockets (w : Worker n) (a : OpenAnswers) : Bool × Worker n :=
  if w.listening.ignore then (false, w)
  else
    let w := if w.listening.addReuseport
      then { w with listening := { w.listening with addReuseport := false } }
      else w
    if w.listening.fd ≠ -1 then (false, w) else openSocket w a

/-- The call gets as far as `ioctl`. -/
def OpenAnswers.ReachesIoctl (a : OpenAnswers) (w : Worker n) : Prop :=
  w.listening.ignore = false ∧ w.listening.fd = -1 ∧ a.socket ≠ none ∧ a.reuseaddr = true ∧
    (w.listening.reuseport = true → a.reuseport = true)

instance (a : OpenAnswers) (w : Worker n) : Decidable (a.ReachesIoctl w) :=
  inferInstanceAs (Decidable (_ ∧ _))

/-- `socket` hands out a descriptor that is not open. -/
def OpenAnswers.Fresh (a : OpenAnswers) (w : Worker n) : Prop :=
  ∀ t ∈ a.socket, t ≠ -1 ∧ w.kernel.isOpen t = false

instance (a : OpenAnswers) (w : Worker n) : Decidable (a.Fresh w) :=
  inferInstanceAs (Decidable (∀ t ∈ a.socket, _))

/-! ## `event_accept` -/

/-- `event_accept` with a new connection, up to the handler of the listening socket: whether that
is called. -/
def acceptReady (w : Worker n) (ev : EventId n) (c : Fin n) (pool : Option ℕ) (sockaddr : Bool) :
    Bool × Worker n :=
  let w := { w with statActive := w.statActive + 1 }
  match pool with
  | none => (false, closeAcceptedConnection w c)
  | some pool =>
    let w := { w with pools := pool :: w.pools }
    let w := w.setConnection c fun r => { r with pool := some pool }
    if !sockaddr then (false, closeAcceptedConnection w c) else (true, Program.markAccepted w ev c)

/-- `accept_disabled` is set when there is a new descriptor. -/
def setAcceptDisabled (w : Worker n) : Worker n :=
  { w with acceptDisabled := BitVec.ofNat 32 (n / 8) - BitVec.ofNat 32 w.freeConnectionN }

/-- `event_accept` goes on when `get_connection` has returned: it closes the descriptor `fd` if
there is no connection. -/
def acceptReturned (s : Config n) (fd : ℤ) (ev : EventId n) (pool : Option ℕ) (sockaddr : Bool) :
    Config n :=
  match s.obtained with
  | none => s.goOn (s.worker.close fd) s.stack []
  | some c =>
    let (kept, w) := acceptReady s.worker ev c pool sockaddr
    s.goOn w s.stack (if kept then [] else [.closed c])

/-! ## Runs -/

/-- A worker before `event_process_init`, one that has made no listening connection there, and
one that has. Without a listening connection nothing is accepted. -/
inductive Stage (n : ℕ)
  | starting (w : Worker n)
  | deaf (w : Worker n)
  | running (s : Config n)

/-- A step of a run. -/
inductive Act (n : ℕ)
  | openListening (a : OpenAnswers)
  | processInit (ok : Bool)
  /-- `accept` answers a descriptor to `event_accept`, which calls `get_connection`. -/
  | accept (fd : ℤ)
  /-- `get_connection` returns to `event_accept`. -/
  | accepted (ev : EventId n) (pool : Option ℕ) (sockaddr : Bool)
  | closeListening
  /-- Any other step, among them the calls of `close_connection`. -/
  | worker (a : Cycle.Label n)

namespace Stage

/-- The stage after `event_process_init`. -/
def initialised (w : Worker n) : Stage n :=
  match w.listening.connection with
  | none => .deaf w
  | some c => if w.listening.fd = -1 then .deaf w else .running ⟨w, [], none, [.opened c]⟩

/-- One step of a run. -/
def step : Stage n → Act n → Option (Stage n)
  | .starting w, .openListening a => some (.starting (openListeningSockets w a).2)
  | .starting w, .processInit ok => (eventProcessInit w ok).map fun r => initialised r.2
  | .starting w, .closeListening => (closeListeningSockets w).map .starting
  | .deaf w, .openListening a => some (.deaf (openListeningSockets w a).2)
  | .deaf w, .closeListening => (closeListeningSockets w).map .deaf
  | .running s, .openListening a =>
    some (.running (s.goOn (openListeningSockets s.worker a).2 s.stack []))
  | .running s, .accept fd =>
    (({ s with worker := setAcceptDisabled s.worker } : Config n).step (.getConnection fd)).map .running
  | .running s, .accepted ev pool sockaddr => do
    let fd ← getting s
    let s ← s.next
    pure (.running (acceptReturned s fd ev pool sockaddr))
  | .running s, .closeListening => (s.shutStep .closeListening).map .running
  | .running s, .worker a => (s.step a).map .running
  | _, _ => none

/-- The worker. -/
def worker : Stage n → Worker n
  | .starting w => w
  | .deaf w => w
  | .running s => s.worker

/-- Code outside the loops runs. -/
def AtBody : Stage n → Prop
  | .running s => s.AtBody
  | _ => True

instance : (t : Stage n) → Decidable t.AtBody
  | .starting _ => .isTrue trivial
  | .deaf _ => .isTrue trivial
  | .running s => inferInstanceAs (Decidable s.AtBody)

/-- The steps of code that is not about descriptors, and of `close_connection`. -/
def Regular : Stage n → Cycle.Label n → Prop
  | .running s, a => s.Allowed a ∧ s.Proper a ∧ Apart s a
  | _, _ => True

instance : (t : Stage n) → (a : Cycle.Label n) → Decidable (t.Regular a)
  | .starting _, _ => .isTrue trivial
  | .deaf _, _ => .isTrue trivial
  | .running s, a => inferInstanceAs (Decidable (s.Allowed a ∧ s.Proper a ∧ Apart s a))

/-- The steps of a run: `socket` and `accept` hand out descriptors that are not open. -/
def Allowed (t : Stage n) : Act n → Prop
  | .openListening a => t.AtBody ∧ a.Fresh t.worker
  | .processInit _ => True
  | .accept fd => t.AtBody ∧ fd ≠ -1 ∧ t.worker.kernel.isOpen fd = false
  | .accepted _ _ _ => True
  | .closeListening => t.AtBody
  | .worker a => t.Regular a

instance (t : Stage n) : (a : Act n) → Decidable (t.Allowed a)
  | .openListening _ => inferInstanceAs (Decidable (_ ∧ _))
  | .processInit _ => .isTrue trivial
  | .accept _ => inferInstanceAs (Decidable (_ ∧ _))
  | .accepted _ _ _ => .isTrue trivial
  | .closeListening => inferInstanceAs (Decidable t.AtBody)
  | .worker a => inferInstanceAs (Decidable (t.Regular a))

/-- The listening connection, if there is one, shares the open descriptor of the listening socket,
and its read event is neither armed nor posted. -/
def Settled : Stage n → Prop
  | .running s => ∃ c, s.worker.Listens c ∧ Cycle.Settled s.worker c
  | _ => True

instance : (t : Stage n) → Decidable t.Settled
  | .starting _ => .isTrue trivial
  | .deaf _ => .isTrue trivial
  | .running s => inferInstanceAs (Decidable (∃ c, s.worker.Listens c ∧ Cycle.Settled s.worker c))

/-- The step is none of those that lose a descriptor: `ioctl` does not fail, and the listening
socket is closed in a settled state. -/
def Careful (t : Stage n) : Act n → Prop
  | .openListening a => a.ReachesIoctl t.worker → a.nonblocking = true
  | .closeListening => t.Settled
  | _ => True

instance (t : Stage n) : (a : Act n) → Decidable (t.Careful a)
  | .openListening _ => inferInstanceAs (Decidable (_ → _))
  | .processInit _ => .isTrue trivial
  | .accept _ => .isTrue trivial
  | .accepted _ _ _ => .isTrue trivial
  | .closeListening => inferInstanceAs (Decidable t.Settled)
  | .worker _ => .isTrue trivial

/-- A run starts when the cycle was just made, before there is a descriptor. -/
def Start (t : Stage n) : Prop :=
  ∃ w : Worker n, w.listening.fd = -1 ∧ w.listening.connection = none ∧
    (∀ fd, w.kernel.isOpen fd = false) ∧ w.kernel.log = [] ∧ t = .starting (initCycle w)

end Stage

/-- The runs of a worker with the functions that open and close descriptors. -/
def descriptorMachine (n : ℕ) : Machine (Stage n) (Act n) := ⟨Stage.Start, Stage.step⟩

/-! ## The account of the descriptors -/

/-- Whether the descriptor is open, by a log whose latest entry comes first. -/
def stillOpen : List FdEvent → ℤ → Bool
  | [], _ => false
  | .handed s :: l, fd => if s = fd then true else stillOpen l fd
  | .closed s :: l, fd => if s = fd then false else stillOpen l fd

/-- Descriptors are closed once: only those that are open are closed, and only those that are not
are handed out. Closing -1 does nothing. -/
def ClosedOnce : List FdEvent → Prop
  | [] => True
  | .handed s :: l => stillOpen l s = false ∧ ClosedOnce l
  | .closed s :: l => (s = -1 ∨ stillOpen l s = true) ∧ ClosedOnce l

/-- The descriptor is recorded in `ls->fd`, where the listening connection may share it, or in
exactly one connection. -/
def Recorded (ls : Listening n) (fds : Fin n → ℤ) (fd : ℤ) : Prop :=
  if fd = ls.fd then ∀ c, fds c = fd → ls.connection = some c else ∃! c, fds c = fd

/-- Every descriptor that was handed out was closed once, or it is open and recorded, or one of
`held`; and what is recorded is open. -/
structure Accounted (kernel : Kernel n) (ls : Listening n) (fds : Fin n → ℤ) (held : List ℤ) :
    Prop where
  once : ClosedOnce kernel.log
  isOpen : ∀ fd, kernel.isOpen fd = stillOpen kernel.log fd
  recorded : ∀ fd, stillOpen kernel.log fd = true → fd ∈ held ∨ Recorded ls fds fd
  valid : ∀ fd, fd ≠ -1 → (fd = ls.fd ∨ ∃ c, fds c = fd) → kernel.isOpen fd = true

/-- The descriptors of the connections. There is no table of connections in use before
`event_process_init`, and none without a listening connection. -/
def Stage.fds : Stage n → Fin n → ℤ
  | .running s, c => (s.worker.connection c).fd
  | _, _ => -1

/-- The descriptors `event_accept` is getting a connection for. -/
def Stage.held : Stage n → List ℤ
  | .running s => s.pending
  | _ => []

/-- The account of a stage. -/
def Stage.Accounted (t : Stage n) : Prop :=
  Descriptor.Accounted t.worker.kernel t.worker.listening t.fds t.held

end Libcn.Descriptor
