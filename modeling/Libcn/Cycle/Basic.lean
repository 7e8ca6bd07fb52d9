import Libcn.Queue.Basic
import Libcn.Timer.Basic
import Mathlib.Data.Fintype.Prod

/-!
# Connections and events

The state of a worker: the table of connection slots with the two events of each, the timer
tree, the queues threaded through events and connections, the listening socket, and what the
kernel keeps for the process. The slots of a table of `connection_n` entries are `Fin n`.

Fields that no modelled function reads are left out, among them `cycle->files`, which the program
never sets, so that its branches in `get_connection` and `free_connection` are never taken.
A pointer that does not name an object of the model is `none`, and following it is a fault.
-/

namespace Libcn.Cycle

open Libcn.Lib Libcn.Lib.Links Libcn.Queue Libcn.Rbtree Libcn.Timer

/-! ## Objects -/

/-- The two events of a connection, and the two directions of `epoll`. -/
inductive Side
  | read
  | write
  deriving DecidableEq, Repr

instance : Fintype Side where
  elems := {.read, .write}
  complete s := by cases s <;> decide

/-- An `event_t *`: an entry of `cycle->read_events` or of `cycle->write_events`. -/
abbrev EventId (n : ℕ) := Fin n × Side

/-- The handlers of the program. -/
inductive Handler
  | null
  | eventAccept
  | myread
  | mywrite
  deriving DecidableEq, Repr

/-- `event_t`. Its timer node and the bits `timer_set` and `timedout` are with the timers, its
queue node with the links. `data` points to a connection. -/
structure Event (n : ℕ) where
  data : Option (Fin n)
  write : Bool
  accept : Bool
  instanceBit : Bool
  active : Bool
  ready : Bool
  eof : Bool
  error : Bool
  deferredAccept : Bool
  pendingEof : Bool
  posted : Bool
  closed : Bool
  available : Bool
  handler : Handler
  deriving DecidableEq, Repr

/-- An event after `memset`. -/
def Event.zeroed {n : ℕ} : Event n where
  data := none
  write := false
  accept := false
  instanceBit := false
  active := false
  ready := false
  eof := false
  error := false
  deferredAccept := false
  pendingEof := false
  posted := false
  closed := false
  available := false
  handler := .null

/-- `buf_t`: the memory at `start`, if it is not NULL, and offsets into it. -/
structure Buf where
  start : Option (ℕ → UInt8)
  pos : ℕ
  last : ℕ
  stop : ℕ

/-- `connection_t`. Its queue node is with the links. On the free list `data` is the link. -/
structure Connection (n : ℕ) where
  data : Option (Fin n)
  read : EventId n
  write : EventId n
  fd : ℤ
  pool : Option ℕ
  buffer : Option Buf
  sent : ℕ
  reusable : Bool
  close : Bool
  shared : Bool
  sndlowat : Bool

/-- A connection after `memset`, with its events put back. -/
def Connection.zeroed {n : ℕ} (rev wev : EventId n) : Connection n where
  data := none
  read := rev
  write := wev
  fd := 0
  pool := none
  buffer := none
  sent := 0
  reusable := false
  close := false
  shared := false
  sndlowat := false

/-- The queues of a worker. -/
inductive QueueId
  | postedAccept
  | posted
  | reusable
  deriving DecidableEq, Repr

/-- A `queue_t *`. -/
inductive Node (n : ℕ)
  | head (q : QueueId)
  | event (ev : EventId n)
  | connection (c : Fin n)
  deriving DecidableEq, Repr

/-- `listening_t`. -/
structure Listening (n : ℕ) where
  fd : ℤ
  connection : Option (Fin n)
  ignore : Bool
  addReuseport : Bool
  reuseport : Bool
  deferredAccept : Bool
  postAcceptTimeout : BitVec 64
  deriving DecidableEq, Repr

/-! ## The kernel -/

/-- An entry of the interest list: the directions asked for, whether edge-triggered, and the
connection and instance bit in `data.ptr`. -/
structure Interest (n : ℕ) where
  read : Bool
  write : Bool
  edge : Bool
  slot : Fin n
  instanceBit : Bool
  deriving DecidableEq, Repr

/-- A descriptor was handed out, or `close` was called for it. -/
inductive FdEvent
  | handed (fd : ℤ)
  | closed (fd : ℤ)
  deriving DecidableEq, Repr

/-- The open descriptors, the interest list of `epoll`, and what happened to descriptors, the
latest first. -/
structure Kernel (n : ℕ) where
  isOpen : ℤ → Bool
  interest : ℤ → Option (Interest n)
  log : List FdEvent

/-- The operations of `epoll_ctl`. -/
inductive CtlOp
  | add
  | mod
  | del
  deriving DecidableEq, Repr

namespace Kernel

variable {n : ℕ}

/-- `epoll_ctl`: `none` is -1. It fails for a descriptor that is not open, for `ADD` of a
registered one and for `MOD` and `DEL` of one that is not; with `ok` false it fails for another
reason. -/
def epollCtl (k : Kernel n) (op : CtlOp) (fd : ℤ) (entry : Option (Interest n)) (ok : Bool) :
    Option (Kernel n) :=
  if ok ∧ k.isOpen fd ∧ (op = .add ↔ k.interest fd = none) then
    some { k with interest := Function.update k.interest fd entry }
  else none

/-- `close`. A closed descriptor leaves the interest list. -/
def close (k : Kernel n) (fd : ℤ) : Kernel n where
  isOpen := Function.update k.isOpen fd false
  interest := Function.update k.interest fd none
  log := .closed fd :: k.log

/-- `socket` or `accept` hands out the descriptor `s`. -/
def hand (k : Kernel n) (s : ℤ) : Kernel n where
  isOpen := Function.update k.isOpen s true
  interest := k.interest
  log := .handed s :: k.log

@[simp] lemma isOpen_close (k : Kernel n) (fd s : ℤ) :
    (k.close fd).isOpen s = if s = fd then false else k.isOpen s := by
  simp [close, Function.update_apply]

@[simp] lemma interest_close (k : Kernel n) (fd s : ℤ) :
    (k.close fd).interest s = if s = fd then none else k.interest s := by
  simp [close, Function.update_apply]

@[simp] lemma isOpen_hand (k : Kernel n) (s t : ℤ) :
    (k.hand s).isOpen t = if t = s then true else k.isOpen t := by
  simp [hand, Function.update_apply]

@[simp] lemma interest_hand (k : Kernel n) (s : ℤ) : (k.hand s).interest = k.interest := rfl

end Kernel

/-! ## The worker -/

/-- `cycle_t`, the globals of the event code, `stat_active`, the pools `event_accept` has created
and not destroyed, and the kernel. -/
@[ext]
structure Worker (n : ℕ) where
  timers : Timers (EventId n)
  links : Links (Node n)
  event : EventId n → Event n
  connection : Fin n → Connection n
  freeConnections : Option (Fin n)
  freeConnectionN : ℕ
  reusableConnectionsN : ℕ
  listening : Listening n
  useAcceptMutex : Bool
  acceptMutexHeld : Bool
  acceptEvents : ℕ
  acceptDisabled : BitVec 32
  statActive : ℤ
  pools : List ℕ
  kernel : Kernel n

variable {n : ℕ}

namespace Worker

/-- A write to an event. -/
def setEvent (w : Worker n) (ev : EventId n) (f : Event n → Event n) : Worker n :=
  { w with event := Function.update w.event ev (f (w.event ev)) }

/-- A write to a connection. -/
def setConnection (w : Worker n) (c : Fin n) (f : Connection n → Connection n) : Worker n :=
  { w with connection := Function.update w.connection c (f (w.connection c)) }

/-- `memset` of an event, with its timer node and its queue node. -/
def zeroEvent (w : Worker n) (ev : EventId n) : Worker n where
  __ := w
  timers := { w.timers with
    tree := w.timers.tree.zeroNode ev
    timerSet := Function.update w.timers.timerSet ev false
    timedout := Function.update w.timers.timedout ev false }
  links := (w.links.setPrev (.event ev) none).setNext (.event ev) none
  event := Function.update w.event ev .zeroed

/-- `memset` of a connection, with its queue node, and the pointers to its events put back. -/
def zeroConnection (w : Worker n) (c : Fin n) : Worker n where
  __ := w
  links := (w.links.setPrev (.connection c) none).setNext (.connection c) none
  connection := Function.update w.connection c
    (.zeroed (w.connection c).read (w.connection c).write)

/-- `close`. -/
def close (w : Worker n) (fd : ℤ) : Worker n := { w with kernel := w.kernel.close fd }

end Worker

end Libcn.Cycle
