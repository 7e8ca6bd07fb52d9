import Libcn.Cycle.Operations

/-!
# The handlers of the program

`posix_recv` and `posix_send`, the handlers of `main.c`, and `event_accept`, on a worker. What the
kernel and the pools answer is an argument. A list of answers that ends too early is a fault, and
so is following a pointer that does not name an object.

A buffer is memory of its own: what is written past its end changes nothing else.
-/

namespace Libcn.Program

open Libcn.Lib Libcn.Queue Libcn.Rbtree Libcn.Timer Libcn.Cycle

variable {n : ℕ}

/-! ## Sockets -/

/-- What `recv` answers: bytes, none of them at the end of the stream, or an error: `EAGAIN`,
`EINTR` or another one. -/
inductive RecvResult
  | bytes (l : List UInt8)
  | again
  | intr
  | fail
  deriving DecidableEq, Repr

/-- What `send` answers: how many bytes it took, or an error. -/
inductive SendResult
  | count (k : ℕ)
  | again
  | intr
  | fail
  deriving DecidableEq, Repr

/-- What `posix_recv` and `posix_send` answer: -2 is `again` and -1 is `error`. -/
inductive IoResult (α : Type)
  | done (a : α)
  | again
  | error
  deriving DecidableEq, Repr

/-- `use_epoll_rdhup` of `event_accept.c`. The header declares it static, so that each file has its
own, and only that of `epoll_event.c` is ever written. -/
def useEpollRdhup : Bool := false

/-- The loop of `posix_recv`. `recv` answers at most `size` bytes. -/
def recvLoop (w : Worker n) (rev : EventId n) (size : ℕ) :
    List RecvResult → Option (IoResult (List UInt8) × Worker n)
  | [] => none
  | .bytes l :: _ =>
    let l := l.take size
    if l = [] then some (.done [], w.setEvent rev fun e => { e with ready := false, eof := true })
    else if useEpollRdhup && l.length < size then
      some (.done l, w.setEvent rev fun e =>
        { e with ready := e.ready && e.pendingEof, available := false })
    else some (.done l, w)
  | .again :: _ => some (.again, w.setEvent rev fun e => { e with ready := false })
  | .intr :: rs => recvLoop w rev size rs
  | .fail :: _ => some (.error, w.setEvent rev fun e => { e with ready := false, error := true })

/-- `posix_recv`. -/
def posixRecv (w : Worker n) (c : Fin n) (size : ℕ) (rs : List RecvResult) :
    Option (IoResult (List UInt8) × Worker n) :=
  let rev := (w.connection c).read
  if !(w.event rev).available && !(w.event rev).pendingEof then
    some (.again, w.setEvent rev fun e => { e with ready := false })
  else recvLoop w rev size rs

/-- `(ssize_t)size`. -/
def ssize (size : ℕ) : ℤ := (BitVec.ofNat 64 size).toInt

/-- `posix_send`. `send` takes at most `size` bytes. -/
def posixSend (w : Worker n) (c : Fin n) (size : ℕ) :
    List SendResult → Option (IoResult ℕ × Worker n)
  | [] => none
  | .count k :: _ =>
    let k := min k size
    let wev := (w.connection c).write
    if 0 < k then
      let w := if k < ssize size then w.setEvent wev fun e => { e with ready := false } else w
      some (.done k, w.setConnection c fun r => { r with sent := r.sent + k })
    else some (.done 0, w.setEvent wev fun e => { e with ready := false })
  | .again :: _ =>
    some (.again, w.setEvent (w.connection c).write fun e => { e with ready := false })
  | .intr :: rs =>
    posixSend (w.setEvent (w.connection c).write fun e => { e with ready := false }) c size rs
  | .fail :: _ => some (.error, w.setEvent (w.connection c).write fun e => { e with error := true })

/-! ## Buffers -/

/-- `b->last - b->pos`, which wraps. -/
def bufSize (b : Buf) : ℕ := (b.last + 2 ^ 64 - b.pos) % 2 ^ 64

/-- The `k` bytes of a buffer from `i` on. -/
def bufBytes (b : Buf) (i k : ℕ) : List UInt8 :=
  match b.start with
  | none => []
  | some mem => (List.range k).map fun j => mem (i + j)

/-- `recv` wrote `l` at `b->last`, and `b->last` is moved behind it. -/
def bufReceive (b : Buf) (l : List UInt8) : Buf :=
  { b with
    start := b.start.map fun mem i =>
      if b.last ≤ i ∧ i < b.last + l.length then l.getD (i - b.last) 0 else mem i
    last := b.last + l.length }

/-- `create_temp_buf`: the pool has memory for it, or not. -/
def createTempBuf (memory : Option (ℕ → UInt8)) (size : ℕ) : Option Buf :=
  memory.map fun mem => ⟨some mem, 0, 0, size⟩

/-- The buffer of `myread`: that of the connection, or a new one, or NULL. -/
def readBuffer (buffer : Option Buf) (memory : Option (ℕ → UInt8)) (size : ℕ) : Option Buf :=
  match buffer with
  | none => createTempBuf memory size
  | some b => if b.start.isNone then createTempBuf memory size else some b

/-- A write to the buffer of a connection. -/
def setBuffer (w : Worker n) (c : Fin n) (f : Buf → Buf) : Worker n :=
  w.setConnection c fun r => { r with buffer := r.buffer.map f }

/-! ## The handlers of a client -/

/-- What the kernel and the pool answer to a call of `myread`: the memory for a buffer, the
answers of `recv` to each call of `posix_recv`, those of `send` to each call of `posix_send`, and
whether `epoll_ctl` grants what it can. -/
structure ReadAnswers where
  memory : Option (ℕ → UInt8)
  recvs : List (List RecvResult)
  sends : List (List SendResult)
  ok : Bool

/-- The loop of `mywrite`, with what `send` took. -/
def sendLoop (w : Worker n) (wev : EventId n) (c : Fin n) (size : ℕ) (ok : Bool) :
    List (List SendResult) → Option (List UInt8 × Worker n)
  | [] => none
  | rs :: rss => do
    let b ← (w.connection c).buffer
    match ← posixSend w c size rs with
    | (.error, w) => do
      let w ← closeConnection w c
      pure ([], w)
    | (.again, w) => pure ([], w)
    | (.done k, w) =>
      let l := bufBytes b b.pos k
      if 0 < k then do
        let w ← clearTimer w wev
        if k = size then do
          let (_, w) ← handleReadEvent w wev ok
          pure (l, w)
        else do
          let w := setBuffer w c fun b => { b with pos := b.pos + k }
          if (w.event wev).ready then do
            let (l', w) ← sendLoop w wev c size ok rss
            pure (l ++ l', w)
          else pure (l, w)
      else if (w.event wev).ready then sendLoop w wev c size ok rss
      else pure ([], w)

/-- `mywrite`, with what `send` took. -/
def mywrite (w : Worker n) (wev : EventId n) (sends : List (List SendResult)) (ok : Bool) :
    Option (List UInt8 × Worker n) := do
  let c ← (w.event wev).data
  if w.timers.timedout wev then pure ([], w)
  else if (w.connection c).close then do
    let w ← closeConnection w c
    pure ([], w)
  else
    match (w.connection c).buffer with
    | none => pure ([], w)
    | some b =>
      let size := bufSize b
      if size = 0 then pure ([], w) else sendLoop w wev c size ok sends

/-- The loop of `myread`, with what `recv` answered and whether the connection is still open. -/
def readLoop (w : Worker n) (rev : EventId n) (c : Fin n) (size : ℕ) :
    List (List RecvResult) → Option (Bool × List UInt8 × Worker n)
  | [] => none
  | rs :: rss => do
    match ← posixRecv w c size rs with
    | (.again, w) => pure (true, [], w)
    | (.error, w) => do
      let w ← closeConnection w c
      pure (false, [], w)
    | (.done l, w) =>
      let w := setBuffer w c (bufReceive · l)
      if (w.event rev).ready then do
        let (go, l', w) ← readLoop w rev c size rss
        pure (go, l ++ l', w)
      else pure (true, l, w)

/-- `myread` up to its call of `mywrite`: whether it gets there, and what `recv` answered. -/
def myreadReceive (w : Worker n) (rev : EventId n) (memory : Option (ℕ → UInt8))
    (recvs : List (List RecvResult)) : Option (Bool × List UInt8 × Worker n) := do
  let c ← (w.event rev).data
  if w.timers.timedout rev then pure (false, [], w)
  else if (w.connection c).close then do
    let w ← closeConnection w c
    pure (false, [], w)
  else
    let size := 1024
    match readBuffer (w.connection c).buffer memory size with
    | none => do
      let w ← closeConnection w c
      pure (false, [], w)
    | some b => do
      let w := w.setConnection c fun r => { r with buffer := some b }
      match ← readLoop w rev c size recvs with
      | (false, l, w) => pure (false, l, w)
      | (true, l, w) => do
        let w ← reusableConnection w c false
        pure (true, l, w)

/-- `myread`. -/
def myread (w : Worker n) (rev : EventId n) (a : ReadAnswers) : Option (Worker n) := do
  match ← myreadReceive w rev a.memory a.recvs with
  | (false, _, w) => pure w
  | (true, _, w) => do
    let (_, w) ← mywrite w rev a.sends a.ok
    pure w

/-- `callback` sets the handlers of a connection. -/
def setHandlers (w : Worker n) (c : Fin n) : Worker n :=
  (w.setEvent (w.connection c).read fun e => { e with handler := .myread }).setEvent
    (w.connection c).write fun e => { e with handler := .mywrite }

/-- The end of `callback` for a connection that is not ready. -/
def awaitInput (w : Worker n) (c : Fin n) (ok : Bool) : Option (Worker n) := do
  let rev := (w.connection c).read
  let w ← addTimer w rev w.listening.postAcceptTimeout
  let w ← reusableConnection w c true
  match ← handleReadEvent w rev ok with
  | (true, w) => pure w
  | (false, w) => closeConnection w c

/-- `callback`, and whether it calls the read handler, which it has set to `myread`. -/
def callback (w : Worker n) (c : Fin n) (ok : Bool) : Option (Bool × Worker n) :=
  let w := setHandlers w c
  let rev := (w.connection c).read
  if (w.event rev).ready then
    if w.useAcceptMutex then do
      let w ← addTimer w rev w.listening.postAcceptTimeout
      let w ← postEvent w rev .posted
      pure (false, w)
    else some (true, w)
  else do
    let w ← awaitInput w c ok
    pure (false, w)

/-! ## `get_connection` -/

/-- The call of a read handler by `drain_connections`. `event_accept` is never the handler of a
reusable connection. -/
def drainHandler (w : Worker n) (ev : EventId n) (a : ReadAnswers) : Option (Worker n) :=
  match (w.event ev).handler with
  | .myread => myread w ev a
  | .mywrite => (mywrite w ev a.sends a.ok).map Prod.snd
  | .eventAccept => none
  | .null => none

/-- The loop of `drain_connections`. -/
def drainLoop (a : ReadAnswers) : ℕ → Worker n → Option (Worker n)
  | 0, w => some w
  | i + 1, w => do
    match ← drainNext w with
    | none => pure w
    | some (ev, w) => do
      let w ← drainHandler w ev a
      drainLoop a i w

/-- `drain_connections`. -/
def drainConnections (w : Worker n) (a : ReadAnswers) : Option (Worker n) :=
  drainLoop a (drainCount w) w

/-- `get_connection`: the slot, or NULL. -/
def getConnection (w : Worker n) (s : ℤ) (a : ReadAnswers) : Option (Option (Fin n) × Worker n) := do
  let w ← if w.freeConnections = none then drainConnections w a else some w
  match popConnection w s with
  | none => pure (none, w)
  | some (c, w) => pure (some c, w)

/-! ## `event_accept` -/

/-- What `accept` answers: a descriptor, or an error: `EAGAIN`, `ECONNABORTED`, `EMFILE` or
`ENFILE`, or another one. -/
inductive AcceptResult
  | descriptor (s : ℤ)
  | again
  | aborted
  | exhausted
  | fail
  deriving DecidableEq, Repr

/-- There is a new descriptor. -/
def AcceptResult.IsDescriptor : AcceptResult → Prop
  | .descriptor _ => True
  | _ => False

instance : (r : AcceptResult) → Decidable r.IsDescriptor
  | .descriptor _ => .isTrue trivial
  | .again => .isFalse id
  | .aborted => .isFalse id
  | .exhausted => .isFalse id
  | .fail => .isFalse id

/-- What the kernel and the allocator answer to a round of `event_accept`: `accept`, the handlers
`drain_connections` calls, `create_pool`, `palloc` for the address, and `epoll_ctl`. -/
structure AcceptAnswers where
  accept : AcceptResult
  drain : ReadAnswers
  pool : Option ℕ
  sockaddr : Bool
  ok : Bool

/-- What a round of `event_accept` ends with: the function returns, it goes on, or the handler of
the listening socket calls `myread` before the test at the end of the round. -/
inductive Accepted (n : ℕ)
  | ret
  | more
  | read (rev : EventId n)
  deriving DecidableEq, Repr

/-- `event_accept` first looks at the timer of the listening event: whether it goes on. -/
def resumeAccept (w : Worker n) (ev : EventId n) (ok : Bool) : Option (Bool × Worker n) :=
  if w.timers.timedout ev then do
    match ← enableAcceptEvents w ok with
    | (false, w) => pure (false, w)
    | (true, w) =>
      let timedout := Function.update w.timers.timedout ev false
      pure (true, { w with timers := { w.timers with timedout := timedout } })
  else some (true, w)

/-- The start of `event_accept`: whether its loop is reached. -/
def eventAcceptStart (w : Worker n) (ev : EventId n) (ok : Bool) : Option (Bool × Worker n) := do
  match ← resumeAccept w ev ok with
  | (false, w) => pure (false, w)
  | (true, w) => pure (true, w.setEvent ev fun e => { e with ready := false, available := true })

/-- No descriptors are left: the listening event is disabled. -/
def acceptExhausted (w : Worker n) (ev : EventId n) (ok : Bool) : Option (Worker n) := do
  match ← disableAcceptEvents w true ok with
  | (false, w) => pure w
  | (true, w) =>
    if w.useAcceptMutex then pure { w with acceptMutexHeld := false, acceptDisabled := 1 }
    else addTimer w ev 500

/-- The bits `event_accept` writes on the events of a connection with a pool and an address. -/
def markAccepted (w : Worker n) (ev : EventId n) (c : Fin n) : Worker n :=
  let w := w.setEvent (w.connection c).write fun e => { e with ready := true }
  if (w.event ev).deferredAccept then
    w.setEvent (w.connection c).read fun e => { e with ready := true, available := true }
  else w

/-- The end of a round of `event_accept`, which calls the handler of the listening socket. -/
def serveConnection (w : Worker n) (ev : EventId n) (c : Fin n) (ok : Bool) :
    Option (Accepted n × Worker n) := do
  match ← callback (markAccepted w ev c) c ok with
  | (true, w) => pure (.read (w.connection c).read, w)
  | (false, w) => pure (if (w.event ev).available then .more else .ret, w)

/-- `event_accept` with a new connection. -/
def acceptConnection (w : Worker n) (ev : EventId n) (c : Fin n) (a : AcceptAnswers) :
    Option (Accepted n × Worker n) :=
  let w := { w with statActive := w.statActive + 1 }
  match a.pool with
  | none => some (.ret, closeAcceptedConnection w c)
  | some pool =>
    let w := { w with pools := pool :: w.pools }
    let w := w.setConnection c fun r => { r with pool := some pool }
    if !a.sockaddr then some (.ret, closeAcceptedConnection w c) else serveConnection w ev c a.ok

/-- `event_accept` gets a slot for a new descriptor, or NULL. -/
def acceptDescriptor (w : Worker n) (s : ℤ) (a : ReadAnswers) :
    Option (Option (Fin n) × Worker n) :=
  getConnection
    { w with
      kernel := w.kernel.hand s
      acceptDisabled := BitVec.ofNat 32 (n / 8) - BitVec.ofNat 32 w.freeConnectionN } s a

/-- A round of `event_accept`. -/
def acceptNext (w : Worker n) (ev : EventId n) (a : AcceptAnswers) :
    Option (Accepted n × Worker n) :=
  match a.accept with
  | .again => some (.ret, w)
  | .aborted => some (if (w.event ev).available then .more else .ret, w)
  | .exhausted => (acceptExhausted w ev a.ok).map fun w => (.ret, w)
  | .fail => some (.ret, w)
  | .descriptor s => do
    match ← acceptDescriptor w s a.drain with
    | (none, w) => pure (.ret, w.close s)
    | (some c, w) => acceptConnection w ev c a

/-! ## The accept mutex -/

/-- `trylock_accept_mutex`, which finds the mutex free or not. -/
def trylockAcceptMutex (w : Worker n) (free ok : Bool) : Option (Bool × Worker n) :=
  if free then
    if w.acceptMutexHeld && w.acceptEvents = 0 then some (true, w)
    else do
      match ← enableAcceptEvents w ok with
      | (false, w) => pure (false, w)
      | (true, w) => pure (true, { w with acceptEvents := 0, acceptMutexHeld := true })
  else if w.acceptMutexHeld then do
    match ← disableAcceptEvents w false ok with
    | (false, w) => pure (false, w)
    | (true, w) => pure (true, { w with acceptMutexHeld := false })
  else some (true, w)

end Libcn.Program
