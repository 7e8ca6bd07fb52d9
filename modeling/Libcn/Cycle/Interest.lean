import Libcn.Cycle.Specs

/-!
# The interest list

Each `epoll` operation either fails and changes nothing, or changes the entry of one descriptor
and the active bits of its connection alike.
-/

namespace Libcn.Cycle

open Libcn.Lib Libcn.Lib.Links Libcn.Queue Libcn.Rbtree Libcn.Timer

variable {n : ℕ} {w : Worker n} {free : List (Fin n)} {lists : QueueId → List (Node n)}
  {ev : EventId n} {c : Fin n}

/-! ## `epoll_ctl` -/

lemma epollCtl_eq (kernel : Kernel n) (op : CtlOp) (fd : ℤ) (entry : Option (Interest n)) (ok : Bool) :
    kernel.epollCtl op fd entry ok = none ∧
      (¬ (ok = true ∧ kernel.isOpen fd = true ∧ (op = .add ↔ kernel.interest fd = none))) ∨
    kernel.epollCtl op fd entry ok =
      some { kernel with interest := Function.update kernel.interest fd entry } := by
  rw [Kernel.epollCtl]
  split_ifs with h
  · exact .inr rfl
  · exact .inl ⟨rfl, h⟩

/-- The entry of a connection is changed along with its active bits. -/
lemma Interests.update {kernel : Kernel n} {connection : Fin n → Connection n}
    {event event' : EventId n → Event n} (h : Interests kernel connection event)
    (hfds : ∀ c d, InUse connection c → (connection c).fd = (connection d).fd → c = d)
    (hc : InUse connection c) {entry : Option (Interest n)}
    (hentry : Registered entry c (event' (c, .read)) (event' (c, .write)))
    (hevent : ∀ ev : EventId n, ev.1 ≠ c → event' ev = event ev) :
    Interests
      { kernel with interest := Function.update kernel.interest (connection c).fd entry }
      connection event' := by
  constructor
  · exact h.isOpen
  · intro d hd
    show Registered (Function.update kernel.interest (connection c).fd entry (connection d).fd) d _ _
    by_cases hdc : d = c
    · rw [hdc, Function.update_self]
      exact hentry
    · have hne : (connection d).fd ≠ (connection c).fd := fun e => hdc (hfds d c hd e)
      rw [Function.update_of_ne hne, hevent (d, .read) hdc, hevent (d, .write) hdc]
      exact h.registered d hd
  · intro s hs
    by_cases hsc : s = (connection c).fd
    · exact ⟨c, hc, hsc.symm⟩
    · exact h.owned s (by rwa [← Function.update_of_ne hsc entry kernel.interest])
  · exact h.invalid

/-- Events whose active bits were changed, and the kernel. -/
lemma Consistent.withActive {event' : EventId n → Event n} {kernel : Kernel n}
    (h : Consistent w free lists) (hc : InUse w.connection c)
    (hevent : ∀ ev, (event' ev).data = (w.event ev).data ∧
      (event' ev).instanceBit = (w.event ev).instanceBit ∧
      (event' ev).posted = (w.event ev).posted)
    (hother : ∀ ev : EventId n, ev.1 ≠ c → event' ev = w.event ev)
    (hi : Interests kernel w.connection event') :
    Consistent { w with event := event', kernel := kernel } free lists := by
  refine ⟨h.slots.events fun ev => ⟨(hevent ev).1, (hevent ev).2.1⟩, h.timers,
    h.queues.congr fun x => ?_, hi, fun d hd => ?_⟩
  · cases x with
    | head q => rfl
    | event ev =>
      show _ ∧ (event' ev).posted = true ↔ _
      rw [(hevent ev).2.2]
      rfl
    | connection d => rfl
  · refine ⟨(hevent _).1.trans (h.accept d hd).1, fun ha => ?_⟩
    by_cases hdc : d = c
    · rw [hdc]
      exact hc
    · have : (event' (d, .read)).active = true := ha
      rw [hother (d, .read) hdc] at this
      exact (h.accept d hd).2 this

/-! ## One event -/

/-- The other event of a connection. -/
def Side.other : Side → Side
  | .read => .write
  | .write => .read

/-- The worker after the active bit of an event and the kernel were written. -/
def Worker.withActive (w : Worker n) (ev : EventId n) (b : Bool) (kernel : Kernel n) : Worker n :=
  { w.setEvent ev (fun e => { e with active := b }) with kernel := kernel }

/-- The active bit of one event and the entry of its connection are changed. -/
lemma Consistent.setActive (h : Consistent w free lists) {s : Side} (hc : InUse w.connection c)
    {b : Bool} {entry : Option (Interest n)}
    (hentry : Registered entry c { w.event (c, .read) with
        active := if s = .read then b else (w.event (c, .read)).active }
      { w.event (c, .write) with
        active := if s = .write then b else (w.event (c, .write)).active }) :
    Consistent (w.withActive (c, s) b
      { w.kernel with
        interest := Function.update w.kernel.interest (w.connection c).fd entry }) free lists := by
  refine h.withActive (c := c) hc ?_ ?_ (h.interests.update h.slots.fd hc ?_ ?_)
  · intro ev
    by_cases he : ev = (c, s)
    · subst he
      simp [Worker.setEvent]
    · simp [Worker.setEvent, he]
  · intro ev hev
    have he : ev ≠ (c, s) := fun e => hev (e ▸ rfl)
    simp [Worker.setEvent, he]
  · cases s with
    | read => simpa [Worker.setEvent] using hentry
    | write => simpa [Worker.setEvent] using hentry
  · intro ev hev
    have he : ev ≠ (c, s) := fun e => hev (e ▸ rfl)
    simp [Worker.setEvent, he]

/-- `epoll_add_event` on a connection in use, with the operation and the entry it asks for. -/
lemma epollAddEvent_eq (h : Consistent w free lists) (s : Side) (hc : InUse w.connection c)
    (edge ok : Bool) :
    epollAddEvent w (c, s) s edge ok =
      match w.kernel.epollCtl (if (w.event (c, s.other)).active then CtlOp.mod else .add)
        (w.connection c).fd (some
          { read := s = .read || (w.event (c, s.other)).active
            write := s = .write || (w.event (c, s.other)).active
            edge := edge, slot := c, instanceBit := (w.event (c, s)).instanceBit }) ok with
      | none => some (false, w)
      | some kernel => some (true, w.withActive (c, s) true kernel) := by
  rw [epollAddEvent, h.slots.data c s hc]
  cases s <;> simp only [Option.bind_eq_bind, Option.bind_some, h.slots.read, h.slots.write] <;> rfl

/-- `epoll_add_event` on a connection in use makes the event active, or fails; if the kernel has
no other reason to refuse, it fails only where the event is active. -/
lemma epollAddEvent_spec (h : Consistent w free lists) (s : Side) (hc : InUse w.connection c)
    (edge ok : Bool) :
    (epollAddEvent w (c, s) s edge ok = some (false, w) ∧
      (ok = true → (w.event (c, s)).active = true)) ∨
    ∃ kernel, epollAddEvent w (c, s) s edge ok = some (true, w.withActive (c, s) true kernel) ∧
      Consistent (w.withActive (c, s) true kernel) free lists ∧
      kernel.isOpen = w.kernel.isOpen := by
  have hbit := h.slots.instanceBit c s hc
  have hopen := h.interests.isOpen c hc
  obtain ⟨hnone, -⟩ := h.interests.registered c hc
  -- the entry the operation asks for is right if the event gets active
  have hentry : Registered (some
      { read := s = .read || (w.event (c, s.other)).active
        write := s = .write || (w.event (c, s.other)).active
        edge := edge, slot := c, instanceBit := (w.event (c, s)).instanceBit }) c
      { w.event (c, .read) with
        active := if s = .read then true else (w.event (c, .read)).active }
      { w.event (c, .write) with
        active := if s = .write then true else (w.event (c, .write)).active } := by
    refine ⟨by cases s <;> simp, fun e he => ?_⟩
    obtain rfl := Option.some.inj he
    cases s <;> simp [Side.other, hbit]
  rw [epollAddEvent_eq h s hc edge ok]
  rcases epollCtl_eq w.kernel (if (w.event (c, s.other)).active then CtlOp.mod else .add)
    (w.connection c).fd _ ok with ⟨hctl, hwhy⟩ | hctl
  · left
    rw [hctl]
    refine ⟨rfl, fun hok => ?_⟩
    by_contra hact
    refine hwhy ⟨hok, hopen, ?_⟩
    rw [hnone]
    cases s <;> cases ho : (w.event (c, Side.other _)).active <;> simp_all [Side.other]
  · right
    rw [hctl]
    exact ⟨_, rfl, h.setActive hc hentry, rfl⟩

/-- `epoll_del_event` on a connection in use, with the operation and the entry it asks for. -/
lemma epollDelEvent_eq (h : Consistent w free lists) (s : Side) (hc : InUse w.connection c)
    (edge ok : Bool) :
    epollDelEvent w (c, s) s false edge ok =
      match w.kernel.epollCtl (if (w.event (c, s.other)).active then CtlOp.mod else .del)
        (w.connection c).fd
        (if (w.event (c, s.other)).active then some
          { read := s = .write, write := s = .read, edge := edge, slot := c
            instanceBit := (w.event (c, s)).instanceBit } else none) ok with
      | none => some (false, w)
      | some kernel => some (true, w.withActive (c, s) false kernel) := by
  rw [epollDelEvent, if_neg Bool.false_ne_true, h.slots.data c s hc]
  cases s <;> simp only [Option.bind_eq_bind, Option.bind_some, h.slots.read, h.slots.write] <;> rfl

/-- `epoll_del_event` on a connection in use makes the event inactive, or fails. -/
lemma epollDelEvent_spec (h : Consistent w free lists) (s : Side) (hc : InUse w.connection c)
    (edge ok : Bool) :
    epollDelEvent w (c, s) s false edge ok = some (false, w) ∨
    ∃ kernel, epollDelEvent w (c, s) s false edge ok =
        some (true, w.withActive (c, s) false kernel) ∧
      Consistent (w.withActive (c, s) false kernel) free lists ∧
      kernel.isOpen = w.kernel.isOpen := by
  have hbit := h.slots.instanceBit c s hc
  -- the entry the operation leaves is right if the event gets inactive
  have hentry : Registered (if (w.event (c, s.other)).active then some
      { read := s = .write, write := s = .read, edge := edge, slot := c
        instanceBit := (w.event (c, s)).instanceBit } else none) c
      { w.event (c, .read) with
        active := if s = .read then false else (w.event (c, .read)).active }
      { w.event (c, .write) with
        active := if s = .write then false else (w.event (c, .write)).active } := by
    cases s <;> cases ho : (w.event (c, Side.other _)).active <;>
      simp_all [Registered, Side.other]
  rw [epollDelEvent_eq h s hc edge ok]
  rcases epollCtl_eq w.kernel (if (w.event (c, s.other)).active then CtlOp.mod else .del)
    (w.connection c).fd _ ok with ⟨hctl, -⟩ | hctl
  · left
    rw [hctl]
  · right
    rw [hctl]
    exact ⟨_, rfl, h.setActive hc hentry, rfl⟩

/-- `handle_read_event` and `handle_write_event` once it is known that they add the event. -/
lemma addIfIdle_spec (h : Consistent w free lists) (s : Side) (hc : InUse w.connection c)
    (ok : Bool) :
    ((if !(w.event (c, s)).active && !(w.event (c, s)).ready then epollAddEvent w (c, s) s true ok
        else some (true, w)) = some (false, w) ∧ (ok = true → (w.event (c, s)).active = true)) ∨
    (if !(w.event (c, s)).active && !(w.event (c, s)).ready then epollAddEvent w (c, s) s true ok
        else some (true, w)) = some (true, w) ∧
      ((w.event (c, s)).active = true ∨ (w.event (c, s)).ready = true) ∨
    ∃ kernel, (if !(w.event (c, s)).active && !(w.event (c, s)).ready
          then epollAddEvent w (c, s) s true ok else some (true, w)) =
        some (true, w.withActive (c, s) true kernel) ∧
      Consistent (w.withActive (c, s) true kernel) free lists ∧
      kernel.isOpen = w.kernel.isOpen := by
  split_ifs with hidle
  · rcases epollAddEvent_spec h s hc true ok with hfail | hadd
    · exact .inl hfail
    · exact .inr (.inr hadd)
  · refine .inr (.inl ⟨rfl, ?_⟩)
    cases ha : (w.event (c, s)).active <;> cases hr : (w.event (c, s)).ready <;> simp_all

/-! ## Both events -/

/-- The worker after both active bits of a connection and the kernel were written. -/
def Worker.withBoth (w : Worker n) (c : Fin n) (b : Bool) (kernel : Kernel n) : Worker n :=
  { w with
    event := fun ev => if ev.1 = c then { w.event ev with active := b } else w.event ev
    kernel := kernel }

lemma Slots.setActive_eq {freeConnections : Option (Fin n)} {freeConnectionN : ℕ}
    (h : Slots w.connection w.event freeConnections freeConnectionN free) (c : Fin n) (b : Bool)
    (kernel : Kernel n) : { w.setActive c b with kernel := kernel } = w.withBoth c b kernel := by
  have hevent : (w.setActive c b).event =
      fun ev => if ev.1 = c then { w.event ev with active := b } else w.event ev := by
    funext ev
    obtain ⟨d, s⟩ := ev
    simp only [Worker.setActive, Worker.setEvent, h.read, h.write]
    by_cases hd : d = c
    · subst hd
      cases s <;> simp
    · have hne : ∀ t, (d, s) ≠ (c, t) := fun t e => hd (Prod.mk.inj e).1
      simp [hd]
  rw [Worker.withBoth, ← hevent]
  rfl

/-- Both active bits and the entry of a connection are changed. -/
lemma Consistent.setBoth (h : Consistent w free lists) (hc : InUse w.connection c) {b : Bool}
    {entry : Option (Interest n)}
    (hentry : Registered entry c { w.event (c, .read) with active := b }
      { w.event (c, .write) with active := b }) :
    Consistent (w.withBoth c b { w.kernel with
      interest := Function.update w.kernel.interest (w.connection c).fd entry }) free lists := by
  refine h.withActive (c := c) hc (fun ev => ?_) (fun ev hev => if_neg hev)
    (h.interests.update h.slots.fd hc (by simpa using hentry) fun ev hev => if_neg hev)
  by_cases hev : ev.1 = c
  · simp [hev]
  · simp [hev]

/-- `epoll_add_connection` makes both events active, or changes nothing. -/
lemma epollAddConnection_spec (h : Consistent w free lists) (hc : InUse w.connection c)
    (ok : Bool) :
    epollAddConnection w c ok = w ∨
    ∃ kernel, epollAddConnection w c ok = w.withBoth c true kernel ∧
      Consistent (w.withBoth c true kernel) free lists ∧ kernel.isOpen = w.kernel.isOpen := by
  simp only [epollAddConnection, h.slots.read]
  rcases epollCtl_eq w.kernel .add (w.connection c).fd
    (some { read := true, write := true, edge := true, slot := c
            instanceBit := (w.event (c, .read)).instanceBit }) ok with ⟨hctl, -⟩ | hctl
  · left
    rw [hctl]
  · right
    rw [hctl]
    exact ⟨_, h.slots.setActive_eq c true _, h.setBoth hc (by simp [Registered]), rfl⟩

/-- `epoll_del_connection` without `CLOSE_EVENT` makes both events inactive, or fails. -/
lemma epollDelConnection_spec (h : Consistent w free lists) (hc : InUse w.connection c)
    (ok : Bool) :
    epollDelConnection w c false ok = (false, w) ∨
    ∃ kernel, epollDelConnection w c false ok = (true, w.withBoth c false kernel) ∧
      Consistent (w.withBoth c false kernel) free lists ∧ kernel.isOpen = w.kernel.isOpen := by
  rw [epollDelConnection, if_neg Bool.false_ne_true]
  rcases epollCtl_eq w.kernel .del (w.connection c).fd none ok with ⟨hctl, -⟩ | hctl
  · left
    rw [hctl]
  · right
    rw [hctl]
    refine ⟨_, congrArg _ (h.slots.setActive_eq c false _), h.setBoth hc (by simp [Registered]), rfl⟩

/-! ## The listening socket -/

/-- `epoll_add_event` fails on a freed slot. -/
lemma epollAddEvent_free (h : Consistent w free lists) {s : Side}
    (hc : ¬ InUse w.connection c) (hdata : (w.event (c, s)).data = some c) (edge ok : Bool) :
    epollAddEvent w (c, s) s edge ok = some (false, w) := by
  have hfd : (w.connection c).fd = -1 := not_not.mp hc
  have hctl : ∀ op entry, w.kernel.epollCtl op (w.connection c).fd entry ok = none := by
    intro op entry
    rw [Kernel.epollCtl, hfd, h.interests.invalid]
    simp
  rw [epollAddEvent, hdata]
  cases s <;> simp only [Option.bind_eq_bind, Option.bind_some, h.slots.read, h.slots.write, hctl] <;>
    rfl

/-- `enable_accept_events` makes the listening event active, or changes nothing. -/
lemma enableAcceptEvents_spec (h : Consistent w free lists) (ok : Bool) :
    (∃ b, enableAcceptEvents w ok = some (b, w)) ∨
    ∃ c kernel, w.listening.connection = some c ∧ InUse w.connection c ∧
      enableAcceptEvents w ok = some (true, w.withActive (c, .read) true kernel) ∧
      Consistent (w.withActive (c, .read) true kernel) free lists ∧
      kernel.isOpen = w.kernel.isOpen := by
  rw [enableAcceptEvents]
  cases hl : w.listening.connection with
  | none => exact .inl ⟨true, rfl⟩
  | some c =>
    simp only [h.slots.read]
    split_ifs with hact
    · exact .inl ⟨true, rfl⟩
    · by_cases hc : InUse w.connection c
      · rcases epollAddEvent_spec h .read hc false ok with ⟨hfail, -⟩ | ⟨kernel, hadd⟩
        · exact .inl ⟨false, hfail⟩
        · exact .inr ⟨c, kernel, rfl, hc, hadd⟩
      · exact .inl ⟨false, epollAddEvent_free h hc (h.accept c hl).1 false ok⟩

/-- `disable_accept_events` makes the listening event inactive, or changes nothing. -/
lemma disableAcceptEvents_spec (h : Consistent w free lists) (all ok : Bool) :
    (∃ b, disableAcceptEvents w all ok = some (b, w)) ∨
    ∃ c kernel, w.listening.connection = some c ∧ InUse w.connection c ∧
      disableAcceptEvents w all ok = some (true, w.withActive (c, .read) false kernel) ∧
      Consistent (w.withActive (c, .read) false kernel) free lists ∧
      kernel.isOpen = w.kernel.isOpen := by
  rw [disableAcceptEvents]
  cases hl : w.listening.connection with
  | none => exact .inl ⟨true, rfl⟩
  | some c =>
    simp only [h.slots.read]
    split_ifs with hact hport
    · exact .inl ⟨true, rfl⟩
    · exact .inl ⟨true, rfl⟩
    · have hc : InUse w.connection c := (h.accept c hl).2 (by simpa using hact)
      rcases epollDelEvent_spec h .read hc false ok with hfail | ⟨kernel, hdel⟩
      · exact .inl ⟨false, hfail⟩
      · exact .inr ⟨c, kernel, rfl, hc, hdel⟩

end Libcn.Cycle
