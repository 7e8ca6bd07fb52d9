import Libcn.Cycle.Slots

/-!
# What each operation does to a consistent worker

Every operation on connections in use ends without a fault and keeps the worker consistent. Each
lemma gives the worker after the operation, up to the links of the trees and queues.
-/

namespace Libcn.Cycle

open Libcn.Lib Libcn.Lib.Links Libcn.Queue Libcn.Rbtree Libcn.Timer

variable {n : ℕ} {w : Worker n} {free : List (Fin n)} {lists : QueueId → List (Node n)}
  {ev : EventId n} {c : Fin n}

/-! ## Writes the invariant does not see -/

/-- A write to an event that keeps what the invariant is about. -/
lemma Consistent.setEvent (h : Consistent w free lists) (ev : EventId n) {f : Event n → Event n}
    (hf : ∀ e, (f e).data = e.data ∧ (f e).instanceBit = e.instanceBit ∧
      (f e).active = e.active ∧ (f e).posted = e.posted) :
    Consistent (w.setEvent ev f) free lists := by
  have hother : ∀ ev', ((w.setEvent ev f).event ev').data = (w.event ev').data ∧
      ((w.setEvent ev f).event ev').instanceBit = (w.event ev').instanceBit ∧
      ((w.setEvent ev f).event ev').active = (w.event ev').active ∧
      ((w.setEvent ev f).event ev').posted = (w.event ev').posted := by
    intro ev'
    by_cases he : ev' = ev
    · subst he
      simpa [Worker.setEvent] using hf (w.event ev')
    · simp [Worker.setEvent, he]
  refine ⟨h.slots.events fun ev' => ⟨(hother ev').1, (hother ev').2.1⟩, h.timers,
    h.queues.congr fun x => ?_, h.interests.congr (fun _ => rfl) fun ev' =>
      ⟨(hother ev').2.2.1, (hother ev').2.1⟩, fun c hc => ?_⟩
  · cases x with
    | head q => rfl
    | event ev' =>
      show _ ∧ ((w.setEvent ev f).event ev').posted = true ↔ _
      rw [(hother ev').2.2.2]
      rfl
    | connection c => rfl
  · rw [(hother _).1, (hother _).2.2.1]
    exact h.accept c hc

/-- A write to a connection that keeps what the invariant is about. -/
lemma Consistent.setConnection (h : Consistent w free lists) (c : Fin n)
    {f : Connection n → Connection n}
    (hdata : InUse w.connection c ∨ (f (w.connection c)).data = (w.connection c).data)
    (hf : ∀ r, (f r).read = r.read ∧ (f r).write = r.write ∧
      (f r).fd = r.fd ∧ (f r).shared = r.shared ∧ (f r).reusable = r.reusable) :
    Consistent (w.setConnection c f) free lists := by
  have hother : ∀ d, (InUse w.connection d ∨
        ((w.setConnection c f).connection d).data = (w.connection d).data) ∧
      ((w.setConnection c f).connection d).read = (w.connection d).read ∧
      ((w.setConnection c f).connection d).write = (w.connection d).write ∧
      ((w.setConnection c f).connection d).fd = (w.connection d).fd ∧
      ((w.setConnection c f).connection d).shared = (w.connection d).shared ∧
      ((w.setConnection c f).connection d).reusable = (w.connection d).reusable := by
    intro d
    by_cases hd : d = c
    · subst hd
      simpa [Worker.setConnection] using ⟨hdata, hf (w.connection d)⟩
    · simp [Worker.setConnection, hd]
  have huse : ∀ d, InUse (w.setConnection c f).connection d ↔ InUse w.connection d := by
    intro d
    rw [InUse, InUse, (hother d).2.2.2.1]
  refine ⟨h.slots.connections fun d => ⟨(hother d).1, (hother d).2.1, (hother d).2.2.1,
    (hother d).2.2.2.1, (hother d).2.2.2.2.1⟩, h.timers.congr fun ev => ?_,
    h.queues.congr fun x => ?_, h.interests.congr (fun d => (hother d).2.2.2.1) fun _ => ⟨rfl, rfl⟩,
    fun d hd => ⟨(h.accept d hd).1, fun ha => (huse d).mpr ((h.accept d hd).2 ha)⟩⟩
  · show _ ∧ _ ↔ InUse (w.setConnection c f).connection ev.1 ∧ _
    rw [huse]
    rfl
  · cases x with
    | head q => rfl
    | event ev =>
      rw [Flagged, Flagged, huse]
      rfl
    | connection d => rw [Flagged, Flagged, huse, (hother d).2.2.2.2.2]

/-! ## Timers -/

lemma card_lt_timerFuel : Fintype.card (EventId n) < timerFuel n := by
  have : Fintype.card Side = 2 := rfl
  rw [Fintype.card_prod, Fintype.card_fin, this, timerFuel]
  omega

/-- Other timers for a consistent worker. -/
lemma Consistent.setTimers (h : Consistent w free lists) {T : Timers (EventId n)}
    (hT : Mirrors T fun ev => InUse w.connection ev.1) :
    Consistent { w with timers := T } free lists :=
  ⟨h.slots, hT, h.queues, h.interests, h.accept⟩

lemma delTimer_spec (h : Consistent w free lists) (hev : InUse w.connection ev.1)
    (hset : w.timers.timerSet ev = true) :
    ∃ T, delTimer w ev = some { w with timers := T } ∧
      Consistent { w with timers := T } free lists ∧
      T.timerSet = Function.update w.timers.timerSet ev false ∧
      T.timedout = w.timers.timedout ∧ T.currentMsec = w.timers.currentMsec := by
  obtain ⟨T, hrun, hT, hflags⟩ := eventDelTimer_mirrors h.timers hev hset card_lt_timerFuel
  refine ⟨T, ?_, h.setTimers hT, hflags⟩
  rw [delTimer, hrun]
  rfl

lemma addTimer_spec (h : Consistent w free lists) (hev : InUse w.connection ev.1)
    (timer : BitVec 64) :
    ∃ T, addTimer w ev timer = some { w with timers := T } ∧
      Consistent { w with timers := T } free lists ∧
      T.timerSet = Function.update w.timers.timerSet ev true ∧
      T.timedout = w.timers.timedout ∧ T.currentMsec = w.timers.currentMsec := by
  obtain ⟨T, hrun, hT, hflags⟩ := eventAddTimer_mirrors h.timers hev timer card_lt_timerFuel
  refine ⟨T, ?_, h.setTimers hT, hflags⟩
  rw [addTimer, hrun]
  rfl

lemma timersNext_spec (h : Consistent w free lists) :
    timersNext w = some none ∨ ∃ ev T, timersNext w = some (some (ev, { w with timers := T })) ∧
      InUse w.connection ev.1 ∧ w.timers.timerSet ev = true ∧
      Consistent { w with timers := T } free lists ∧
      T.timerSet = Function.update w.timers.timerSet ev false ∧
      T.timedout = Function.update w.timers.timedout ev true ∧
      T.currentMsec = w.timers.currentMsec := by
  rcases expireNext_mirrors h.timers card_lt_timerFuel with
    hnone | ⟨ev, key, T, hrun, hev, hset, hT, hflags⟩
  · left
    rw [timersNext, hnone]
    rfl
  · refine .inr ⟨ev, T, ?_, hev, hset, h.setTimers hT, hflags⟩
    rw [timersNext, hrun]
    rfl

/-! ## Posted events -/

/-- The flags after `posted` of one event was written. -/
lemma flagged_setPosted {connection : Fin n → Connection n} {event : EventId n → Event n}
    (hev : InUse connection ev.1) (b : Bool) (y : Node n) :
    Flagged connection (Function.update event ev { event ev with posted := b }) y ↔
      if y = .event ev then b = true else Flagged connection event y := by
  cases y with
  | head q => simp [Flagged]
  | event ev' =>
    by_cases he : ev' = ev
    · subst he
      simp [Flagged, hev]
    · simp [Flagged, he]
  | connection c => simp [Flagged]

/-- The worker after `posted` of an event and the links were written. -/
def Worker.withPosted (w : Worker n) (ev : EventId n) (b : Bool) (links : Links (Node n)) :
    Worker n :=
  { w.setEvent ev (fun e => { e with posted := b }) with links := links }

/-- A consistent worker whose queues and posted flags are changed. -/
lemma Consistent.setPosted {lists' : QueueId → List (Node n)} (h : Consistent w free lists)
    (ev : EventId n) (b : Bool) {links : Links (Node n)}
    (hq : Queues links w.connection
      (Function.update w.event ev { w.event ev with posted := b }) w.reusableConnectionsN lists') :
    Consistent (w.withPosted ev b links) free lists' := by
  have hother : ∀ ev', ((w.setEvent ev fun e => { e with posted := b }).event ev').data =
        (w.event ev').data ∧
      ((w.setEvent ev fun e => { e with posted := b }).event ev').instanceBit =
        (w.event ev').instanceBit ∧
      ((w.setEvent ev fun e => { e with posted := b }).event ev').active =
        (w.event ev').active := by
    intro ev'
    by_cases he : ev' = ev
    · subst he
      simp [Worker.setEvent]
    · simp [Worker.setEvent, he]
  refine ⟨h.slots.events fun ev' => ⟨(hother ev').1, (hother ev').2.1⟩, h.timers, hq,
    h.interests.congr (fun _ => rfl) fun ev' => ⟨(hother ev').2.2, (hother ev').2.1⟩, fun c hc => ?_⟩
  show ((w.setEvent ev fun e => { e with posted := b }).event (c, .read)).data = _ ∧
    (((w.setEvent ev fun e => { e with posted := b }).event (c, .read)).active = true → _)
  rw [(hother _).1, (hother _).2.2]
  exact h.accept c hc

lemma postEvent_spec (h : Consistent w free lists) (hev : InUse w.connection ev.1)
    (hposted : (w.event ev).posted = false) {q : QueueId} (hq : q ≠ .reusable) :
    ∃ links, postEvent w ev q = some (w.withPosted ev true links) ∧
      Consistent (w.withPosted ev true links) free
        (Function.update lists q (lists q ++ [.event ev])) := by
  have hx : ∀ q, Node.event ev ∉ lists q :=
    h.queues.notMem fun hflag => by simp [Flagged, hposted] at hflag
  obtain ⟨links, hrun, hr⟩ := insertTail_rings h.queues.rings q hx (fun q => by simp)
  refine ⟨links, ?_, h.setPosted ev true
    (h.queues.insert (x := .event ev) hr ?_ ?_ (fun y => ?_) ?_)⟩
  · rw [postEvent, if_neg (by simp [hposted]), hrun]
    rfl
  · exact List.perm_append_singleton _ _
  · cases q with
    | reusable => exact absurd rfl hq
    | _ => trivial
  · rw [flagged_setPosted hev]
    by_cases hy : y = .event ev
    · simp [hy]
    · simp [hy]
  · rw [if_neg hq]

/-- The queue is changed by taking out an event. -/
lemma deletePostedEvent_spec (h : Consistent w free lists) (hev : InUse w.connection ev.1)
    {q : QueueId} (hmem : .event ev ∈ lists q) :
    ∃ links, deletePostedEvent w ev = some (w.withPosted ev false links) ∧
      Consistent (w.withPosted ev false links) free
        (Function.update lists q ((lists q).erase (.event ev))) := by
  have hq : q ≠ .reusable := by
    rintro rfl
    exact h.queues.takes _ _ hmem
  obtain ⟨links, hrun, hr⟩ := remove_rings h.queues.rings hmem
  refine ⟨links, ?_, h.setPosted ev false (h.queues.erase hmem hr (fun y => ?_) ?_)⟩
  · rw [deletePostedEvent, hrun]
    rfl
  · rw [flagged_setPosted hev]
    by_cases hy : y = .event ev
    · simp [hy]
    · simp [hy]
  · rw [if_neg hq]

/-- One round of `event_process_posted`: the queue is empty, or its first event is unlinked. -/
lemma postedNext_spec (h : Consistent w free lists) {q : QueueId} (hq : q ≠ .reusable) :
    (lists q = [] ∧ postedNext w q = some none) ∨
    ∃ ev l links, lists q = .event ev :: l ∧ InUse w.connection ev.1 ∧
      postedNext w q = some (some (ev, w.withPosted ev false links)) ∧
      Consistent (w.withPosted ev false links) free (Function.update lists q l) := by
  cases hl : lists q with
  | nil =>
    have hempty := (queueEmpty_rings h.queues.rings q).mpr hl
    exact .inl ⟨rfl, by rw [postedNext, if_pos hempty]⟩
  | cons x l =>
    have hempty : ¬ queueEmpty w.links (.head q) = true := by
      rw [queueEmpty_rings h.queues.rings, hl]
      simp
    have hmem : x ∈ lists q := hl ▸ .head _
    have htakes := h.queues.takes q x hmem
    cases x with
    | head q' => cases q <;> exact htakes.elim
    | connection c =>
      cases q with
      | reusable => exact absurd rfl hq
      | _ => exact htakes.elim
    | event ev =>
      have hev := ((h.queues.flagged _).mpr ⟨q, hmem⟩).1
      obtain ⟨links, hrun, hcons⟩ := deletePostedEvent_spec h hev hmem
      rw [hl, List.erase_cons_head] at hcons
      refine .inr ⟨ev, l, links, rfl, hev, ?_, hcons⟩
      rw [postedNext, if_neg hempty, queueHead_rings h.queues.rings hl]
      simp only [Option.bind_eq_bind, Option.bind_some, hrun, Option.pure_def]

/-! ## Reusable connections -/

/-- The queues without a node. -/
def without (lists : QueueId → List (Node n)) (x : Node n) (q : QueueId) : List (Node n) :=
  (lists q).erase x

/-- Taking a node out of its own queue takes it out of all. -/
lemma Queues.update_erase {links : Links (Node n)} {connection : Fin n → Connection n}
    {event : EventId n → Event n} {count : ℕ} {x : Node n} {q : QueueId}
    (h : Queues links connection event count lists) (hx : x ∈ lists q) :
    Function.update lists q ((lists q).erase x) = without lists x := by
  funext p
  by_cases hp : p = q
  · subst hp
    rw [Function.update_self, without]
  · rw [Function.update_of_ne hp, without, List.erase_of_not_mem]
    exact fun e => hp (h.unique e hx)

/-- Taking out a node whose flag is not set changes nothing. -/
lemma Queues.without_eq {links : Links (Node n)} {connection : Fin n → Connection n}
    {event : EventId n → Event n} {count : ℕ} {x : Node n}
    (h : Queues links connection event count lists) (hx : ¬ Flagged connection event x) :
    without lists x = lists := by
  funext q
  exact List.erase_of_not_mem (h.notMem hx q)

/-- The flags after `reusable` of one connection was written. -/
lemma flagged_setReusable {connection : Fin n → Connection n} (event : EventId n → Event n)
    (hc : InUse connection c) (b : Bool) (y : Node n) :
    Flagged (Function.update connection c { connection c with reusable := b }) event y ↔
      if y = .connection c then b = true else Flagged connection event y := by
  have huse : ∀ d, InUse (Function.update connection c { connection c with reusable := b }) d ↔
      InUse connection d := by
    intro d
    by_cases hd : d = c
    · subst hd
      simp [InUse]
    · simp [InUse, hd]
  cases y with
  | head q => simp [Flagged]
  | event ev => simp [Flagged, huse]
  | connection d =>
    by_cases hd : d = c
    · subst hd
      simp [Flagged, huse, hc]
    · simp [Flagged, huse, hd]

/-- The queues after `reusable_connection`. -/
def reusableLists (lists : QueueId → List (Node n)) (c : Fin n) (b : Bool) :
    QueueId → List (Node n) :=
  if b then Function.update (without lists (.connection c)) .reusable
    (.connection c :: without lists (.connection c) .reusable)
  else without lists (.connection c)

/-- The worker after `reusable` of a connection, the links and the count were written. -/
def Worker.withReusable (w : Worker n) (c : Fin n) (b : Bool) (links : Links (Node n))
    (count : ℕ) : Worker n :=
  { w.setConnection c (fun r => { r with reusable := b }) with
    links := links
    reusableConnectionsN := count }

/-- `reusable_connection` takes a connection out of its queue, and puts it to the front if asked
to. -/
lemma reusableConnection_queues
    (h : Queues w.links w.connection w.event w.reusableConnectionsN lists)
    (hc : InUse w.connection c) (b : Bool) :
    ∃ links count, reusableConnection w c b = some (w.withReusable c b links count) ∧
      Queues links (Function.update w.connection c { w.connection c with reusable := b }) w.event
        count (reusableLists lists c b) := by
  -- the connection is taken out of the queue first
  have hout : ∃ links count,
      leaveReusable w c = some { w with links := links, reusableConnectionsN := count } ∧
      Queues links (Function.update w.connection c { w.connection c with reusable := false })
        w.event count (without lists (.connection c)) := by
    by_cases hr : (w.connection c).reusable = true
    · obtain ⟨q, hmem⟩ := (h.flagged (.connection c)).mp ⟨hc, hr⟩
      obtain rfl : q = .reusable := by
        have := h.takes q _ hmem
        cases q with
        | reusable => rfl
        | _ => exact this.elim
      obtain ⟨links, hrun, hrings⟩ := remove_rings h.rings hmem
      refine ⟨links, w.reusableConnectionsN - 1, ?_, ?_⟩
      · rw [leaveReusable, if_pos hr, hrun]
        rfl
      · rw [← h.update_erase hmem]
        refine h.erase hmem hrings (fun y => ?_) (by rw [if_pos rfl])
        rw [flagged_setReusable _ hc]
        by_cases hy : y = .connection c
        · simp [hy]
        · simp [hy]
    · refine ⟨w.links, w.reusableConnectionsN, by rw [leaveReusable, if_neg hr], ?_⟩
      have hflag : ¬ Flagged w.connection w.event (.connection c) := fun hf => hr hf.2
      rw [h.without_eq hflag]
      refine h.congr fun y => ?_
      rw [flagged_setReusable _ hc]
      by_cases hy : y = .connection c
      · simp [hy, hflag]
      · simp [hy]
  obtain ⟨links, count, hrun, hq⟩ := hout
  cases b with
  | false =>
    refine ⟨links, count, ?_, hq⟩
    rw [reusableConnection, hrun]
    rfl
  | true =>
    have hflag := (flagged_setReusable w.event hc false (.connection c)).not
    obtain ⟨links', hins, hr⟩ := insertHead_rings hq.rings .reusable
      (x := .connection c) (hq.notMem (hflag.mpr (by simp))) (fun q => by simp)
    refine ⟨links', count + 1, ?_, ?_⟩
    · rw [reusableConnection, hrun]
      simp only [Option.bind_eq_bind, Option.bind_some, if_true]
      rw [show (Worker.setConnection _ c _).links = links from rfl, hins]
      rfl
    · refine hq.insert (x := .connection c) hr (.refl _) trivial (fun y => ?_) (by rw [if_pos rfl])
      rw [flagged_setReusable _ hc, flagged_setReusable _ hc]
      by_cases hy : y = .connection c
      · simp [hy]
      · simp [hy]

lemma reusableConnection_spec (h : Consistent w free lists) (hc : InUse w.connection c) (b : Bool) :
    ∃ links count, reusableConnection w c b = some (w.withReusable c b links count) ∧
      Consistent (w.withReusable c b links count) free (reusableLists lists c b) := by
  obtain ⟨links, count, hrun, hq⟩ := reusableConnection_queues h.queues hc b
  have hother : ∀ d, (InUse w.connection d ∨
        ((w.withReusable c b links count).connection d).data = (w.connection d).data) ∧
      ((w.withReusable c b links count).connection d).read = (w.connection d).read ∧
      ((w.withReusable c b links count).connection d).write = (w.connection d).write ∧
      ((w.withReusable c b links count).connection d).fd = (w.connection d).fd ∧
      ((w.withReusable c b links count).connection d).shared = (w.connection d).shared := by
    intro d
    by_cases hd : d = c
    · subst hd
      simp [Worker.withReusable, Worker.setConnection]
    · simp [Worker.withReusable, Worker.setConnection, hd]
  have huse : ∀ d, InUse (w.withReusable c b links count).connection d ↔
      InUse w.connection d := by
    intro d
    rw [InUse, InUse, (hother d).2.2.2.1]
  refine ⟨links, count, hrun, h.slots.connections hother, h.timers.congr fun ev => ?_, hq,
    h.interests.congr (fun d => (hother d).2.2.2.1) fun _ => ⟨rfl, rfl⟩,
    fun d hd => ⟨(h.accept d hd).1, fun ha => (huse d).mpr ((h.accept d hd).2 ha)⟩⟩
  show _ ∧ _ ↔ InUse (w.withReusable c b links count).connection ev.1 ∧ _
  rw [huse]
  rfl

/-- One round of `drain_connections` asks the last reusable connection, if there is one. -/
lemma drainNext_spec (h : Consistent w free lists) :
    (lists .reusable = [] ∧ drainNext w = some none) ∨
    ∃ c l, lists .reusable = l ++ [.connection c] ∧ InUse w.connection c ∧
      drainNext w = some (some
        ((c, .read), w.setConnection c fun r => { r with close := true })) ∧
      Consistent (w.setConnection c fun r => { r with close := true }) free lists := by
  rcases (lists .reusable).eq_nil_or_concat' with hl | ⟨l, x, hl⟩
  · have hempty := (queueEmpty_rings h.queues.rings .reusable).mpr hl
    exact .inl ⟨hl, by rw [drainNext, if_pos hempty]⟩
  · have hempty : ¬ queueEmpty w.links (.head .reusable) = true := by
      rw [queueEmpty_rings h.queues.rings, hl]
      simp
    have hmem : x ∈ lists .reusable := by
      rw [hl]
      simp
    have htakes := h.queues.takes _ x hmem
    cases x with
    | head q => exact htakes.elim
    | event ev => exact htakes.elim
    | connection c =>
      have hc := ((h.queues.flagged _).mpr ⟨_, hmem⟩).1
      have hcons := h.setConnection c (f := fun r => { r with close := true })
        (.inr rfl) fun r => ⟨rfl, rfl, rfl, rfl, rfl⟩
      refine .inr ⟨c, l, hl, hc, ?_, hcons⟩
      rw [drainNext, if_neg hempty, queueLast_rings h.queues.rings hl]
      simp only [Option.bind_eq_bind, Option.bind_some, hcons.slots.read c]
      rfl

end Libcn.Cycle
