import Libcn.Cycle.Basic

/-!
# The operations of a worker

The functions of `event_timer.c`, `event_posted.h`, `epoll_event.c`, `event.c`, `event_accept.c`
and `connection.c` on a worker. A function that answers 0 or -1 answers whether it succeeded
here. Where a system call may fail, whether it does is an argument.

The loops that call handlers are given by one round each, up to the call.
-/

namespace Libcn.Cycle

open Libcn.Lib Libcn.Lib.Links Libcn.Queue Libcn.Rbtree Libcn.Timer

variable {n : ℕ}

/-! ## Timers and queues -/

/-- Fuel for the loops over the timer tree, which has at most two nodes for each slot. -/
def timerFuel (n : ℕ) : ℕ := 2 * n + 1

/-- `event_del_timer`. -/
def delTimer (w : Worker n) (ev : EventId n) : Option (Worker n) := do
  let timers ← eventDelTimer (timerFuel n) w.timers ev
  pure { w with timers := timers }

/-- `event_add_timer`. -/
def addTimer (w : Worker n) (ev : EventId n) (timer : BitVec 64) : Option (Worker n) := do
  let timers ← eventAddTimer (timerFuel n) w.timers ev timer
  pure { w with timers := timers }

/-- `post_event`. -/
def postEvent (w : Worker n) (ev : EventId n) (q : QueueId) : Option (Worker n) :=
  if (w.event ev).posted then some w
  else do
    let links ← queueInsertTail w.links (.head q) (.event ev)
    pure { w.setEvent ev (fun e => { e with posted := true }) with links := links }

/-- `delete_posted_event`. -/
def deletePostedEvent (w : Worker n) (ev : EventId n) : Option (Worker n) := do
  let links ← queueRemove w.links (.event ev)
  pure { w.setEvent ev (fun e => { e with posted := false }) with links := links }

/-- The start of `reusable_connection`: a reusable connection leaves the queue. -/
def leaveReusable (w : Worker n) (c : Fin n) : Option (Worker n) :=
  if (w.connection c).reusable then do
    let links ← queueRemove w.links (.connection c)
    pure { w with links := links, reusableConnectionsN := w.reusableConnectionsN - 1 }
  else some w

/-- `reusable_connection`. -/
def reusableConnection (w : Worker n) (c : Fin n) (reusable : Bool) : Option (Worker n) := do
  let w ← leaveReusable w c
  let w := w.setConnection c fun r => { r with reusable := reusable }
  if reusable then do
    let links ← queueInsertHead w.links (.head .reusable) (.connection c)
    pure { w with links := links, reusableConnectionsN := w.reusableConnectionsN + 1 }
  else pure w

/-! ## `epoll` -/

/-- `epoll_add_event`: whether it succeeded. The kernel may refuse (`ok`). -/
def epollAddEvent (w : Worker n) (ev : EventId n) (event : Side) (edge ok : Bool) :
    Option (Bool × Worker n) := do
  let c ← (w.event ev).data
  let e := match event with
    | .read => (w.connection c).write
    | .write => (w.connection c).read
  let prev := (w.event e).active
  let entry : Interest n :=
    { read := event = .read || prev
      write := event = .write || prev
      edge := edge
      slot := c
      instanceBit := (w.event ev).instanceBit }
  match w.kernel.epollCtl (if prev then .mod else .add) (w.connection c).fd (some entry) ok with
  | none => pure (false, w)
  | some kernel =>
    pure (true, { w.setEvent ev (fun e => { e with active := true }) with kernel := kernel })

/-- `epoll_del_event`; `closing` is `CLOSE_EVENT`. -/
def epollDelEvent (w : Worker n) (ev : EventId n) (event : Side) (closing edge ok : Bool) :
    Option (Bool × Worker n) :=
  if closing then some (true, w.setEvent ev fun e => { e with active := false })
  else do
    let c ← (w.event ev).data
    let e := match event with
      | .read => (w.connection c).write
      | .write => (w.connection c).read
    let prev := (w.event e).active
    let entry : Interest n :=
      { read := event = .write
        write := event = .read
        edge := edge
        slot := c
        instanceBit := (w.event ev).instanceBit }
    match w.kernel.epollCtl (if prev then .mod else .del) (w.connection c).fd
        (if prev then some entry else none) ok with
    | none => pure (false, w)
    | some kernel =>
      pure (true, { w.setEvent ev (fun e => { e with active := false }) with kernel := kernel })

/-- Both events of a connection become active or inactive. -/
def Worker.setActive (w : Worker n) (c : Fin n) (active : Bool) : Worker n :=
  (w.setEvent (w.connection c).read fun e => { e with active := active }).setEvent
    (w.connection c).write fun e => { e with active := active }

/-- `epoll_add_connection`, which answers 0 when it fails as well. -/
def epollAddConnection (w : Worker n) (c : Fin n) (ok : Bool) : Worker n :=
  let entry : Interest n :=
    { read := true
      write := true
      edge := true
      slot := c
      instanceBit := (w.event (w.connection c).read).instanceBit }
  match w.kernel.epollCtl .add (w.connection c).fd (some entry) ok with
  | none => w
  | some kernel => { w.setActive c true with kernel := kernel }

/-- `epoll_del_connection`. -/
def epollDelConnection (w : Worker n) (c : Fin n) (closing ok : Bool) : Bool × Worker n :=
  if closing then (true, w.setActive c false)
  else
    match w.kernel.epollCtl .del (w.connection c).fd none ok with
    | none => (false, w)
    | some kernel => (true, { w.setActive c false with kernel := kernel })

/-- `send_lowat`. -/
def sendLowat (w : Worker n) (c : Fin n) (lowat : ℕ) (ok : Bool) : Bool × Worker n :=
  if lowat = 0 ∨ (w.connection c).sndlowat then (true, w)
  else if ok then (true, w.setConnection c fun r => { r with sndlowat := true })
  else (false, w)

/-- `handle_read_event`. -/
def handleReadEvent (w : Worker n) (rev : EventId n) (ok : Bool) : Option (Bool × Worker n) :=
  if !(w.event rev).active && !(w.event rev).ready then epollAddEvent w rev .read true ok
  else some (true, w)

/-- The start of `handle_write_event`. -/
def writeLowat (w : Worker n) (wev : EventId n) (lowat : ℕ) (ok : Bool) :
    Option (Bool × Worker n) :=
  if lowat = 0 then some (true, w)
  else do
    let c ← (w.event wev).data
    pure (sendLowat w c lowat ok)

/-- `handle_write_event`. -/
def handleWriteEvent (w : Worker n) (wev : EventId n) (lowat : ℕ) (lowatOk ok : Bool) :
    Option (Bool × Worker n) := do
  match ← writeLowat w wev lowat lowatOk with
  | (false, w) => pure (false, w)
  | (true, w) =>
    if !(w.event wev).active && !(w.event wev).ready then epollAddEvent w wev .write true ok
    else pure (true, w)

/-- `enable_accept_events`. -/
def enableAcceptEvents (w : Worker n) (ok : Bool) : Option (Bool × Worker n) :=
  match w.listening.connection with
  | none => some (true, w)
  | some c =>
    if (w.event (w.connection c).read).active then some (true, w)
    else epollAddEvent w (w.connection c).read .read false ok

/-- `disable_accept_events`. -/
def disableAcceptEvents (w : Worker n) (all ok : Bool) : Option (Bool × Worker n) :=
  match w.listening.connection with
  | none => some (true, w)
  | some c =>
    if !(w.event (w.connection c).read).active then some (true, w)
    else if w.listening.reuseport && !all then some (true, w)
    else epollDelEvent w (w.connection c).read .read false false ok

/-! ## Connections -/

/-- `free_connection`. -/
def freeConnection (w : Worker n) (c : Fin n) : Worker n :=
  { w.setConnection c (fun r => { r with data := w.freeConnections }) with
    freeConnections := some c
    freeConnectionN := w.freeConnectionN + 1 }

/-- The end of the functions that close a connection: the slot is freed and the descriptor
closed. -/
def releaseConnection (w : Worker n) (c : Fin n) : Worker n :=
  let w := freeConnection w c
  let fd := (w.connection c).fd
  (w.setConnection c fun r => { r with fd := -1 }).close fd

/-- `if (ev->timer_set) event_del_timer(ev)`. -/
def clearTimer (w : Worker n) (ev : EventId n) : Option (Worker n) :=
  if w.timers.timerSet ev then delTimer w ev else some w

/-- `if (ev->posted) delete_posted_event(ev)`. -/
def clearPosted (w : Worker n) (ev : EventId n) : Option (Worker n) :=
  if (w.event ev).posted then deletePostedEvent w ev else some w

/-- `close_connection`. -/
def closeConnection (w : Worker n) (c : Fin n) : Option (Worker n) :=
  if (w.connection c).fd = -1 then some w
  else do
    let rev := (w.connection c).read
    let wev := (w.connection c).write
    let w ← clearTimer w rev
    let w ← clearTimer w wev
    let w := if (w.connection c).shared then w else (epollDelConnection w c true true).2
    let w ← clearPosted w rev
    let w ← clearPosted w wev
    let w := w.setEvent rev fun e => { e with closed := true }
    let w := w.setEvent wev fun e => { e with closed := true }
    let w ← reusableConnection w c false
    pure (releaseConnection w c)

/-- `close_accepted_connection`, with `destroy_pool`. -/
def closeAcceptedConnection (w : Worker n) (c : Fin n) : Worker n :=
  let w := releaseConnection w c
  let w := match (w.connection c).pool with
    | none => w
    | some pool => { w with pools := w.pools.erase pool }
  { w with statActive := w.statActive - 1 }

/-- `get_connection` from the second look at the free list on: `none` is NULL. -/
def popConnection (w : Worker n) (s : ℤ) : Option (Fin n × Worker n) :=
  w.freeConnections.map fun c =>
    let w := { w with
      freeConnections := (w.connection c).data
      freeConnectionN := w.freeConnectionN - 1 }
    let rev := (w.connection c).read
    let wev := (w.connection c).write
    let w := (w.zeroConnection c).setConnection c fun r => { r with fd := s }
    let instanceBit := (w.event rev).instanceBit
    let w := (w.zeroEvent rev).zeroEvent wev
    let w := w.setEvent rev fun e => { e with instanceBit := !instanceBit, data := some c }
    let w := w.setEvent wev fun e => { e with
      instanceBit := !instanceBit, data := some c, write := true }
    (c, w)

/-! ## One round of each loop that calls handlers -/

/-- `drain_connections` asks this many times. -/
def drainCount (w : Worker n) : ℕ := max (min 32 (w.reusableConnectionsN / 8)) 1

/-- One round of `drain_connections`: `some none` ends the loop, otherwise the read handler of a
connection is called. -/
def drainNext (w : Worker n) : Option (Option (EventId n × Worker n)) :=
  if queueEmpty w.links (.head .reusable) then some none
  else do
    match ← queueLast w.links (.head .reusable) with
    | .connection c =>
      let w := w.setConnection c fun r => { r with close := true }
      pure (some ((w.connection c).read, w))
    | _ => none

/-- One round of `event_process_posted`. -/
def postedNext (w : Worker n) (q : QueueId) : Option (Option (EventId n × Worker n)) :=
  if queueEmpty w.links (.head q) then some none
  else do
    match ← queueHead w.links (.head q) with
    | .event ev => do
      let w ← deletePostedEvent w ev
      pure (some (ev, w))
    | _ => none

/-- One round of `event_expire_timers`. -/
def timersNext (w : Worker n) : Option (Option (EventId n × Worker n)) := do
  match ← expireNext (timerFuel n) w.timers with
  | none => pure none
  | some (ev, _, timers) => pure (some (ev, { w with timers := timers }))

/-- A record of `epoll_wait`: the connection and instance bit in its `data.ptr`, and its
`events`. -/
structure Record (n : ℕ) where
  slot : Fin n
  instanceBit : Bool
  epollin : Bool
  epollout : Bool
  epollrdhup : Bool
  /-- `EPOLLERR` or `EPOLLHUP` -/
  errhup : Bool
  deriving DecidableEq, Repr

namespace Record

/-- `revents & EPOLLIN`, after error events were taken for both directions. -/
def wantsRead (r : Record n) : Bool := r.epollin || r.errhup

/-- `revents & EPOLLOUT`. -/
def wantsWrite (r : Record n) : Bool := r.epollout || r.errhup

/-- The test for a stale event of the connection the record names. -/
def stale (r : Record n) (w : Worker n) (ev : EventId n) : Bool :=
  (w.connection r.slot).fd = -1 || (w.event ev).instanceBit != r.instanceBit

end Record

/-- What half a round of `epoll_process_events` does with its record: it goes on to the next
record, it finds nothing to do, or it marks the event ready and calls its handler, if it is not
posted instead. -/
inductive Dispatch (n : ℕ)
  | skip
  | idle
  | ready (w : Worker n) (call : Option (EventId n))

/-- The first half of a round of `epoll_process_events`. -/
def recordRead (w : Worker n) (r : Record n) (postEvents : Bool) : Option (Dispatch n) :=
  let rev := (w.connection r.slot).read
  if r.stale w rev then some .skip
  else if r.wantsRead && (w.event rev).active then
    let w := w.setEvent rev fun e => { e with
      ready := true
      pendingEof := e.pendingEof || r.epollrdhup
      available := true }
    if postEvents then do
      let w ← postEvent w rev (if (w.event rev).accept then .postedAccept else .posted)
      pure (.ready w none)
    else some (.ready w (some rev))
  else some .idle

/-- The second half. -/
def recordWrite (w : Worker n) (r : Record n) (postEvents : Bool) : Option (Dispatch n) :=
  let wev := (w.connection r.slot).write
  if r.wantsWrite && (w.event wev).active then
    if r.stale w wev then some .skip
    else
      let w := w.setEvent wev fun e => { e with ready := true }
      if postEvents then do
        let w ← postEvent w wev .posted
        pure (.ready w none)
      else some (.ready w (some wev))
  else some .idle

/-! ## Start -/

/-- Static storage and a kernel without open descriptors. -/
def Worker.zeroed (n : ℕ) : Worker n where
  timers := .zeroed
  links := ⟨fun _ => none, fun _ => none⟩
  event _ := .zeroed
  connection c := .zeroed (c, .read) (c, .write)
  freeConnections := none
  freeConnectionN := 0
  reusableConnectionsN := 0
  listening := ⟨-1, none, false, false, false, false, 300⟩
  useAcceptMutex := false
  acceptMutexHeld := false
  acceptEvents := 0
  acceptDisabled := 0
  statActive := 0
  pools := []
  kernel := ⟨fun _ => false, fun _ => none, []⟩

/-- `init_cycle`: `cycle_t` is cleared and the queue of reusable connections made. -/
def initCycle (w : Worker n) : Worker n where
  __ := w
  links := queueInit w.links (.head .reusable)
  freeConnections := none
  freeConnectionN := 0
  reusableConnectionsN := 0

/-- The loop of `event_process_init` over the table, from its end. -/
def linkTable (connection : Fin n → Connection n) : (Fin n → Connection n) × Option (Fin n) :=
  (List.finRange n).foldr (fun i r =>
    (Function.update r.1 i
      { r.1 i with
        data := r.2
        read := (i, .read)
        write := (i, .write)
        fd := -1 }, some i)) (connection, none)

/-- `event_process_init` up to the listening socket. The tables come from `malloc`, so that only
what is written here is known about them; `epoll_init` makes an empty interest list. -/
def openTable (w : Worker n) : Worker n where
  __ := w
  useAcceptMutex := true
  acceptMutexHeld := false
  links := queueInit (queueInit w.links (.head .postedAccept)) (.head .posted)
  timers := eventTimerInit w.timers
  kernel := { w.kernel with interest := fun _ => none }
  event ev := match ev.2 with
    | .read => { w.event ev with closed := true, instanceBit := true }
    | .write => { w.event ev with closed := true }
  connection := (linkTable w.connection).1
  freeConnections := (linkTable w.connection).2
  freeConnectionN := n

/-- The end of `event_process_init`, which makes `c` the connection of the listening socket. -/
def listenOn (w : Worker n) (c : Fin n) (ok : Bool) : Option (Bool × Worker n) :=
  let w := { w with listening := { w.listening with connection := some c } }
  let rev := (w.connection c).read
  let w := w.setEvent rev fun e => { e with
    accept := true
    deferredAccept := w.listening.deferredAccept
    handler := .eventAccept }
  if w.listening.reuseport then epollAddEvent w rev .read false ok
  else if w.useAcceptMutex then some (false, w)
  else epollAddEvent w rev .read false ok

/-- `event_process_init`. -/
def eventProcessInit (w : Worker n) (ok : Bool) : Option (Bool × Worker n) :=
  let w := openTable w
  match popConnection w w.listening.fd with
  | none => some (false, w)
  | some (c, w) => listenOn w c ok

end Libcn.Cycle
