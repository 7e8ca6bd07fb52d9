import Libcn.Cycle.Interest

/-!
# Closing and opening connections

The functions that put a slot back on the free list and the one that takes a slot from it.
-/

namespace Libcn.Cycle

open Libcn.Lib Libcn.Lib.Links Libcn.Queue Libcn.Rbtree Libcn.Timer

variable {n : ℕ} {w : Worker n} {free : List (Fin n)} {lists : QueueId → List (Node n)}
  {ev : EventId n} {c : Fin n}

/-! ## `close_connection` -/

lemma clearTimer_spec (ev : EventId n) (hm : Mirrors w.timers fun ev => InUse w.connection ev.1)
    (hev : InUse w.connection ev.1) :
    ∃ T, clearTimer w ev = some { w with timers := T } ∧
      (Mirrors T fun ev => InUse w.connection ev.1) ∧
      T.timerSet = Function.update w.timers.timerSet ev false ∧
      T.timedout = w.timers.timedout ∧ T.currentMsec = w.timers.currentMsec := by
  rw [clearTimer]
  split_ifs with hset
  · obtain ⟨T, hrun, hT, hflags⟩ := eventDelTimer_mirrors hm hev hset card_lt_timerFuel
    refine ⟨T, ?_, hT, hflags⟩
    rw [delTimer, hrun]
    rfl
  · refine ⟨w.timers, rfl, hm, ?_, rfl, rfl⟩
    rw [Bool.not_eq_true] at hset
    rw [← hset, Function.update_eq_self]

lemma clearPosted_spec (ev : EventId n) (hq : Queues w.links w.connection w.event w.reusableConnectionsN lists)
    (hev : InUse w.connection ev.1) :
    ∃ links, clearPosted w ev = some (w.withPosted ev false links) ∧
      Queues links w.connection (Function.update w.event ev { w.event ev with posted := false })
        w.reusableConnectionsN (without lists (.event ev)) := by
  rw [clearPosted]
  split_ifs with hp
  · obtain ⟨q, hmem⟩ := (hq.flagged (.event ev)).mp ⟨hev, hp⟩
    have hne : q ≠ .reusable := by
      rintro rfl
      exact hq.takes _ _ hmem
    obtain ⟨links, hrun, hr⟩ := remove_rings hq.rings hmem
    refine ⟨links, ?_, ?_⟩
    · rw [deletePostedEvent, hrun]
      rfl
    · rw [← hq.update_erase hmem]
      refine hq.erase hmem hr (fun y => ?_) (by rw [if_neg hne])
      rw [flagged_setPosted hev]
      by_cases hy : y = .event ev
      · simp [hy]
      · simp [hy]
  · have hp' : (w.event ev).posted = false := by simpa using hp
    have hsame : Function.update w.event ev { w.event ev with posted := false } = w.event := by
      rw [← hp', Function.update_eq_self]
    refine ⟨w.links, ?_, ?_⟩
    · rw [Worker.withPosted, Worker.setEvent, hsame]
    · rw [hsame, hq.without_eq (x := .event ev) fun hf => hp hf.2]
      exact hq

/-- The queues without the nodes of a connection. -/
def withoutConnection (lists : QueueId → List (Node n)) (c : Fin n) : QueueId → List (Node n) :=
  without (without (without lists (.event (c, .read))) (.event (c, .write))) (.connection c)

/-- The events after those of a connection were closed. -/
def closedEvents (w : Worker n) (c : Fin n) (ev : EventId n) : Event n :=
  if ev.1 = c then { w.event ev with active := false, posted := false, closed := true }
  else w.event ev

/-- The worker after `close_connection`, up to its timers and the links. -/
def Worker.closed (w : Worker n) (c : Fin n) (T : Timers (EventId n)) (links : Links (Node n))
    (count : ℕ) : Worker n where
  __ := w
  timers := T
  links := links
  event := closedEvents w c
  connection := Function.update w.connection c
    { w.connection c with reusable := false, data := w.freeConnections, fd := -1 }
  freeConnections := some c
  freeConnectionN := w.freeConnectionN + 1
  reusableConnectionsN := count
  kernel := w.kernel.close (w.connection c).fd

/-- The timers of a worker that closed a connection. -/
def TimersClosed (T T' : Timers (EventId n)) (c : Fin n) : Prop :=
  (∀ ev : EventId n, T'.timerSet ev = if ev.1 = c then false else T.timerSet ev) ∧
    T'.timedout = T.timedout ∧ T'.currentMsec = T.currentMsec

lemma epollDelConnection_close {freeConnections : Option (Fin n)} {freeConnectionN : ℕ}
    (h : Slots w.connection w.event freeConnections freeConnectionN free) (c : Fin n) (ok : Bool) :
    (epollDelConnection w c true ok).2 = w.withBoth c false w.kernel := h.setActive_eq c false w.kernel

lemma releaseConnection_closed (T : Timers (EventId n)) (links links' : Links (Node n))
    (count : ℕ) :
    releaseConnection ({ w with timers := T, links := links, event := closedEvents w c }.withReusable
      c false links' count) c = w.closed c T links' count := by
  simp [releaseConnection, freeConnection, Worker.withReusable, Worker.setConnection,
    Worker.closed, Worker.close]

/-- `close_connection` on a connection in use takes its nodes out of all structures, frees the
slot and closes the descriptor. -/
lemma closeConnection_spec (h : Consistent w free lists) (hc : InUse w.connection c) :
    ∃ T links count, closeConnection w c = some (w.closed c T links count) ∧
      Consistent (w.closed c T links count) (c :: free) (withoutConnection lists c) ∧
      TimersClosed w.timers T c := by
  obtain ⟨T₁, hrun₁, hT₁, hset₁, hout₁, hnow₁⟩ := clearTimer_spec (c, .read) h.timers hc
  obtain ⟨T₂, hrun₂, hT₂, hset₂, hout₂, hnow₂⟩ :=
    clearTimer_spec (w := { w with timers := T₁ }) (c, .write) hT₁ hc
  -- the flags of the events after the connection left the interest list
  have hq : Queues w.links w.connection
      (fun ev => if ev.1 = c then { w.event ev with active := false } else w.event ev)
      w.reusableConnectionsN lists := by
    refine h.queues.congr fun y => ?_
    cases y with
    | head q => rfl
    | event ev => by_cases hev : ev.1 = c <;> simp [Flagged, hev]
    | connection d => rfl
  obtain ⟨links₁, hrun₃, hq₁⟩ := clearPosted_spec
    (w := { w with timers := T₂ }.withBoth c false w.kernel) (c, .read) hq hc
  obtain ⟨links₂, hrun₄, hq₂⟩ := clearPosted_spec
    (w := ({ w with timers := T₂ }.withBoth c false w.kernel).withPosted (c, .read) false links₁)
    (c, .write) hq₁ hc
  -- the event bits are all written now
  have hw : (((({ w with timers := T₂ }.withBoth c false w.kernel).withPosted (c, .read) false
      links₁).withPosted (c, .write) false links₂).setEvent (c, .read) fun e =>
        { e with closed := true }).setEvent (c, .write) (fun e => { e with closed := true }) =
      { w with timers := T₂, links := links₂, event := closedEvents w c } := by
    have hevent : ∀ w' : Worker n, w'.event = closedEvents w c →
        w' = { w' with event := closedEvents w c } := by
      intro w' hw'
      rw [← hw']
    refine hevent _ ?_
    funext ev
    obtain ⟨d, s⟩ := ev
    by_cases hd : d = c
    · subst hd
      cases s <;> simp [Worker.setEvent, Worker.withPosted, Worker.withBoth, closedEvents]
    · simp [Worker.setEvent, Worker.withPosted, Worker.withBoth, closedEvents, hd]
  have hq₃ : Queues links₂ w.connection (closedEvents w c) w.reusableConnectionsN
      (without (without lists (.event (c, .read))) (.event (c, .write))) := by
    refine hq₂.congr fun y => ?_
    cases y with
    | head q => rfl
    | event ev =>
      obtain ⟨d, s⟩ := ev
      by_cases hd : d = c
      · subst hd
        cases s <;>
          simp [Flagged, Worker.setEvent, Worker.withPosted, Worker.withBoth, closedEvents]
      · simp [Flagged, Worker.setEvent, Worker.withPosted, Worker.withBoth, closedEvents, hd]
    | connection d => rfl
  obtain ⟨links₃, count, hrun₅, hq₄⟩ := reusableConnection_queues
    (w := { w with timers := T₂, links := links₂, event := closedEvents w c }) hq₃ hc false
  have hset : TimersClosed w.timers T₂ c := by
    refine ⟨fun ev => ?_, hout₂.trans hout₁, hnow₂.trans hnow₁⟩
    obtain ⟨d, s⟩ := ev
    rw [hset₂]
    show Function.update T₁.timerSet (c, .write) false (d, s) = _
    rw [hset₁]
    by_cases hd : d = c
    · subst hd
      cases s <;> simp
    · simp [hd]
  refine ⟨T₂, links₃, count, ?_, ?_, hset⟩
  · rw [closeConnection, if_neg hc]
    simp only [h.slots.read, h.slots.write, hrun₁, Option.bind_eq_bind, Option.bind_some, hrun₂,
      h.slots.shared c hc, Bool.false_eq_true, if_false]
    rw [epollDelConnection_close (w := { w with timers := T₂ }) h.slots c true]
    simp only [hrun₃, Option.bind_some, hrun₄, hw, hrun₅, releaseConnection_closed]
    rfl
  · have hfrees : Frees w.connection (w.closed c T₂ links₃ count).connection c :=
      ⟨by simp [Worker.closed], fun d hd => by simp [Worker.closed, hd]⟩
    have hevent : ∀ ev, (closedEvents w c ev).data = (w.event ev).data ∧
        (closedEvents w c ev).instanceBit = (w.event ev).instanceBit := by
      intro ev
      by_cases hev : ev.1 = c <;> simp [closedEvents, hev]
    have hslots : Slots (Function.update w.connection c { w.connection c with reusable := false })
        w.event w.freeConnections w.freeConnectionN free :=
      h.slots.connections fun d => by by_cases hd : d = c <;> simp [hd]
    constructor
    · refine (hslots.release (c := c) (by simpa [InUse] using hc) ?_).events hevent
      simp [Worker.closed]
    · exact mirrors_release (T := T₂) hT₂ hfrees fun s => (hset.1 (c, s)).trans (if_pos rfl)
    · refine hq₄.release (c := c) ?_ ?_ ?_ (fun _ => rfl) fun d => ?_
      · exact ⟨hfrees.1, fun d hd => by simp [Worker.closed, hd]⟩
      · exact fun s => by simp [closedEvents]
      · simp
      · by_cases hd : d = c <;> simp [Worker.closed, hd]
    · exact h.interests.release h.slots.fd hc hfrees fun ev hev => by
        simp [Worker.closed, closedEvents, hev]
    · intro d hd
      obtain ⟨hdata, hact⟩ := h.accept d hd
      refine ⟨(hevent _).1.trans hdata, fun ha => ?_⟩
      by_cases hdc : d = c
      · simp [Worker.closed, closedEvents, hdc] at ha
      · refine (hfrees.inUse d).mpr ⟨hdc, hact ?_⟩
        simpa [Worker.closed, closedEvents, hdc] using ha

/-- `close_connection` on a closed connection does nothing. -/
lemma closeConnection_closed (hc : ¬ InUse w.connection c) : closeConnection w c = some w := by
  rw [closeConnection, if_pos (not_not.mp hc)]

/-! ## `close_accepted_connection` -/

/-- The events of the slot are in no structure, and neither is its connection. -/
structure Worker.Blank (w : Worker n) (c : Fin n) : Prop where
  timerSet : ∀ s, w.timers.timerSet (c, s) = false
  posted : ∀ s, (w.event (c, s)).posted = false
  active : ∀ s, (w.event (c, s)).active = false
  reusable : (w.connection c).reusable = false

/-- A connection in no structure may be freed at once. -/
lemma closeAcceptedConnection_spec (h : Consistent w free lists) (hc : InUse w.connection c)
    (hb : w.Blank c) : Consistent (closeAcceptedConnection w c) (c :: free) lists ∧
      Frees w.connection (closeAcceptedConnection w c).connection c ∧
      (closeAcceptedConnection w c).event = w.event ∧
      (closeAcceptedConnection w c).timers = w.timers ∧
      (closeAcceptedConnection w c).listening = w.listening ∧
      (closeAcceptedConnection w c).kernel = w.kernel.close (w.connection c).fd := by
  -- the pool and the counter are not part of the invariant
  have hparts : ∃ pools statActive, closeAcceptedConnection w c =
      { releaseConnection w c with pools := pools, statActive := statActive } := by
    rw [closeAcceptedConnection]
    cases ((releaseConnection w c).connection c).pool with
    | none => exact ⟨_, _, rfl⟩
    | some pool => exact ⟨_, _, rfl⟩
  have hconn : (releaseConnection w c).connection =
      Function.update w.connection c { w.connection c with data := w.freeConnections, fd := -1 } := by
    simp [releaseConnection, freeConnection, Worker.setConnection, Worker.close]
  have hkernel : (releaseConnection w c).kernel = w.kernel.close (w.connection c).fd := by
    simp [releaseConnection, freeConnection, Worker.setConnection, Worker.close]
  obtain ⟨pools, statActive, hrun⟩ := hparts
  rw [hrun]
  have hfrees : Frees w.connection (releaseConnection w c).connection c :=
    ⟨by simp [hconn], fun d hd => by simp [hconn, hd]⟩
  refine ⟨?_, hfrees, rfl, rfl, rfl, hkernel⟩
  constructor
  · exact h.slots.release hc hconn
  · exact mirrors_release h.timers hfrees hb.timerSet
  · refine h.queues.release hfrees hb.posted hb.reusable (fun _ => rfl) fun d => ?_
    by_cases hd : d = c
    · simp [hconn, hd]
    · simp [hconn, hd]
  · show Interests (releaseConnection w c).kernel _ _
    rw [hkernel]
    exact h.interests.release h.slots.fd hc hfrees fun ev _ => ⟨rfl, rfl⟩
  · intro d hd
    obtain ⟨hdata, hact⟩ := h.accept d hd
    refine ⟨hdata, fun ha => (hfrees.inUse d).mpr ⟨?_, hact ha⟩⟩
    rintro rfl
    have ha' : (w.event (d, .read)).active = true := ha
    rw [hb.active] at ha'
    cases ha'

/-! ## `get_connection` -/

/-- The worker after `get_connection` took the slot `c` for the descriptor `s`. -/
def Worker.taken (w : Worker n) (c : Fin n) (s : ℤ) : Worker n where
  __ := w
  timers :=
    { tree := (w.timers.tree.zeroNode (c, .read)).zeroNode (c, .write)
      timerSet := fun ev => if ev.1 = c then false else w.timers.timerSet ev
      timedout := fun ev => if ev.1 = c then false else w.timers.timedout ev
      currentMsec := w.timers.currentMsec }
  links := ((((((w.links.setPrev (.connection c) none).setNext (.connection c) none).setPrev
    (.event (c, .read)) none).setNext (.event (c, .read)) none).setPrev
    (.event (c, .write)) none).setNext (.event (c, .write)) none)
  event ev := if ev.1 = c then
      { (Event.zeroed : Event n) with
        instanceBit := !(w.event (c, .read)).instanceBit
        data := some c
        write := ev.2 = .write }
    else w.event ev
  connection := Function.update w.connection c
    { Connection.zeroed (c, .read) (c, .write) with fd := s }
  freeConnections := (w.connection c).data
  freeConnectionN := w.freeConnectionN - 1

lemma popConnection_eq {head : Option (Fin n)} {count : ℕ} {l : List (Fin n)}
    (h : Slots w.connection w.event head count l) (hhead : w.freeConnections = some c) (s : ℤ) :
    popConnection w s = some (c, w.taken c s) := by
  have hset : ∀ f : EventId n → Bool, Function.update (Function.update f (c, Side.read) false)
      (c, Side.write) false = fun ev => if ev.1 = c then false else f ev := by
    intro f
    funext ev
    obtain ⟨d, i⟩ := ev
    by_cases hd : d = c
    · subst hd
      cases i <;> simp
    · simp [hd]
  rw [popConnection, hhead]
  simp only [Option.map_some, h.read, h.write, Option.some.injEq, Prod.mk.injEq, true_and]
  refine Worker.ext ?_ rfl ?_ ?_ rfl rfl rfl rfl rfl rfl rfl rfl rfl rfl rfl
  · simp [Worker.setEvent, Worker.zeroEvent, Worker.zeroConnection, Worker.setConnection,
      Worker.taken, hset]
  · funext ev
    obtain ⟨d, i⟩ := ev
    by_cases hd : d = c
    · subst hd
      cases i <;> simp [Worker.setEvent, Worker.zeroEvent, Worker.zeroConnection,
        Worker.setConnection, Worker.taken, Event.zeroed]
    · simp [Worker.setEvent, Worker.zeroEvent, Worker.zeroConnection, Worker.setConnection,
        Worker.taken, hd]
  · simp [Worker.setEvent, Worker.zeroEvent, Worker.zeroConnection, Worker.setConnection,
      Worker.taken, Connection.zeroed, h.read, h.write]

/-- `get_connection` answers NULL on an empty free list; otherwise it takes the first slot, which
was not in use, for an open descriptor of its own. -/
lemma popConnection_spec (h : Consistent w free lists) {s : ℤ} (hs : s ≠ -1)
    (hfd : ∀ d, InUse w.connection d → (w.connection d).fd ≠ s)
    (hopen : w.kernel.isOpen s = true) (hnone : w.kernel.interest s = none) :
    (free = [] ∧ popConnection w s = none) ∨
    ∃ c l, free = c :: l ∧ ¬ InUse w.connection c ∧ popConnection w s = some (c, w.taken c s) ∧
      Consistent (w.taken c s) l lists ∧ (w.taken c s).Blank c ∧
      Takes w.connection (w.taken c s).connection c s := by
  cases free with
  | nil =>
    have hhead : w.freeConnections = none := h.slots.chain
    exact .inl ⟨rfl, by rw [popConnection, hhead]; rfl⟩
  | cons c l =>
    have hhead : w.freeConnections = some c := h.slots.chain.1
    have hfree : ¬ InUse w.connection c := (h.slots.mem_free c).mp (.head _)
    have htakes : Takes w.connection (w.taken c s).connection c s :=
      ⟨hs, hfree, by simp [Worker.taken], fun d hd => by simp [Worker.taken, hd]⟩
    have hother : ∀ d, d ≠ c → (w.taken c s).connection d = w.connection d :=
      fun d hd => by simp [Worker.taken, hd]
    have hevent : ∀ ev : EventId n, ev.1 ≠ c → (w.taken c s).event ev = w.event ev :=
      fun ev hev => by simp [Worker.taken, hev]
    have hself : (w.taken c s).connection c =
        { Connection.zeroed (c, .read) (c, .write) with fd := s } := by simp [Worker.taken]
    have hblank : (w.taken c s).Blank c := by
      constructor <;> simp [Worker.taken, Event.zeroed, Connection.zeroed]
    have hout : ∀ x, (∀ q, x ≠ .head q) → Flagged w.connection w.event x → x ≠ .connection c ∧
        ∀ i, x ≠ .event (c, i) := by
      rintro x - hx
      cases x with
      | head q => exact hx.elim
      | event ev =>
        refine ⟨by simp, fun i e => hfree ?_⟩
        rw [Node.event.injEq] at e
        rw [e] at hx
        exact hx.1
      | connection d =>
        refine ⟨fun e => hfree ?_, by simp⟩
        rw [Node.connection.injEq] at e
        exact e ▸ hx.1
    refine .inr ⟨c, l, rfl, hfree, popConnection_eq h.slots hhead s, ?_, hblank, htakes⟩
    constructor
    · refine h.slots.take htakes hfd hother ?_ ?_ ?_ hevent ?_ ?_
      · simp [hself, Connection.zeroed]
      · simp [hself, Connection.zeroed]
      · simp [hself, Connection.zeroed]
      · exact fun i => by simp [Worker.taken]
      · exact fun i => by simp [Worker.taken]
    · exact mirrors_take h.timers htakes rfl fun ev => rfl
    · refine h.queues.take htakes hother hblank.reusable hevent hblank.posted ?_
      have hnot : ∀ x, (∀ q, x ≠ .head q) → (x = .connection c ∨ ∃ i, x = .event (c, i)) →
          ∀ q, x ∉ lists q := by
        intro x hx hxc
        refine h.queues.notMem fun hflag => ?_
        rcases hxc with rfl | ⟨i, rfl⟩
        · exact (hout _ hx hflag).1 rfl
        · exact (hout _ hx hflag).2 i rfl
      have h₁ := zero_rings h.queues.rings (hnot (.connection c) (by simp) (.inl rfl)) (by simp)
      have h₂ := zero_rings h₁ (hnot (.event (c, .read)) (by simp) (.inr ⟨_, rfl⟩)) (by simp)
      exact zero_rings h₂ (hnot (.event (c, .write)) (by simp) (.inr ⟨_, rfl⟩)) (by simp)
    · exact h.interests.take htakes hopen hnone hevent hblank.active
    · intro d hd
      obtain ⟨hdata, hact⟩ := h.accept d hd
      by_cases hdc : d = c
      · subst hdc
        exact ⟨by simp [Worker.taken], fun _ => (htakes.inUse d).mpr (.inl rfl)⟩
      · rw [hevent (d, .read) hdc]
        exact ⟨hdata, fun ha => (htakes.inUse d).mpr (.inr (hact ha))⟩

end Libcn.Cycle
