import Libcn.Cycle.Machine

/-!
# What a step of a run does

Every allowed step of a worker can be made and keeps the worker consistent. `Effect` says what
the step does to the posted events, to the openings of the slots and to the records that wait in
the loops; the statements about runs are derived from it.
-/

namespace Libcn.Cycle

open Libcn.Lib Libcn.Lib.Links Libcn.Queue Libcn.Rbtree Libcn.Timer

variable {n : ℕ} {w w' w₁ : Worker n} {free : List (Fin n)} {lists lists' : QueueId → List (Node n)}
  {ev : EventId n} {c : Fin n}

/-! ## Quiet steps -/

/-- The openings of the slots stay, and no descriptor is closed. -/
structure Quiet (w w' : Worker n) : Prop where
  fd : ∀ c, (w'.connection c).fd = (w.connection c).fd
  instanceBit : ∀ c, (w'.event (c, .read)).instanceBit = (w.event (c, .read)).instanceBit
  isOpen : ∀ fd, w.kernel.isOpen fd = true → w'.kernel.isOpen fd = true

lemma Quiet.refl (w : Worker n) : Quiet w w := ⟨fun _ => rfl, fun _ => rfl, fun _ h => h⟩

lemma Quiet.trans (h : Quiet w w') (h' : Quiet w' w₁) : Quiet w w₁ where
  fd c := (h'.fd c).trans (h.fd c)
  instanceBit c := (h'.instanceBit c).trans (h.instanceBit c)
  isOpen fd ho := h'.isOpen fd (h.isOpen fd ho)

lemma Quiet.inUse (h : Quiet w w') (c : Fin n) :
    InUse w'.connection c ↔ InUse w.connection c := by
  rw [InUse, InUse, h.fd]

lemma quiet_timers (w : Worker n) (T : Timers (EventId n)) : Quiet w { w with timers := T } :=
  ⟨fun _ => rfl, fun _ => rfl, fun _ h => h⟩

/-- The instance bits after a write to an event that keeps them. -/
lemma instanceBit_setEvent (w : Worker n) (ev : EventId n) {f : Event n → Event n}
    (hf : ∀ e, (f e).instanceBit = e.instanceBit) (ev' : EventId n) :
    ((w.setEvent ev f).event ev').instanceBit = (w.event ev').instanceBit := by
  by_cases he : ev' = ev
  · subst he
    simp [Worker.setEvent, hf]
  · simp [Worker.setEvent, he]

lemma quiet_setEvent (w : Worker n) (ev : EventId n) {f : Event n → Event n}
    (hf : ∀ e, (f e).instanceBit = e.instanceBit) : Quiet w (w.setEvent ev f) :=
  ⟨fun _ => rfl, fun _ => instanceBit_setEvent w ev hf _, fun _ h => h⟩

lemma fd_setConnection (w : Worker n) (c : Fin n) {f : Connection n → Connection n}
    (hf : ∀ r, (f r).fd = r.fd) (d : Fin n) :
    ((w.setConnection c f).connection d).fd = (w.connection d).fd := by
  by_cases hd : d = c
  · subst hd
    simp [Worker.setConnection, hf]
  · simp [Worker.setConnection, hd]

lemma quiet_setConnection (w : Worker n) (c : Fin n) {f : Connection n → Connection n}
    (hf : ∀ r, (f r).fd = r.fd) : Quiet w (w.setConnection c f) :=
  ⟨fd_setConnection w c hf, fun _ => rfl, fun _ h => h⟩

lemma quiet_withPosted (w : Worker n) (ev : EventId n) (b : Bool) (links : Links (Node n)) :
    Quiet w (w.withPosted ev b links) :=
  ⟨fun _ => rfl,
    fun _ => instanceBit_setEvent w ev (f := fun e => { e with posted := b }) (fun _ => rfl) _,
    fun _ h => h⟩

lemma quiet_withReusable (w : Worker n) (c : Fin n) (b : Bool) (links : Links (Node n))
    (count : ℕ) : Quiet w (w.withReusable c b links count) :=
  ⟨fd_setConnection w c (f := fun r => { r with reusable := b }) fun _ => rfl, fun _ => rfl,
    fun _ h => h⟩

lemma quiet_withActive (w : Worker n) (ev : EventId n) (b : Bool) {kernel : Kernel n}
    (hk : kernel.isOpen = w.kernel.isOpen) : Quiet w (w.withActive ev b kernel) :=
  ⟨fun _ => rfl,
    fun _ => instanceBit_setEvent w ev (f := fun e => { e with active := b }) (fun _ => rfl) _,
    fun fd h => by rw [← h, ← hk]; rfl⟩

lemma quiet_withBoth (w : Worker n) (c : Fin n) (b : Bool) {kernel : Kernel n}
    (hk : kernel.isOpen = w.kernel.isOpen) : Quiet w (w.withBoth c b kernel) := by
  refine ⟨fun _ => rfl, fun d => ?_, fun fd h => by rw [← h, ← hk]; rfl⟩
  by_cases hd : d = c <;> simp [Worker.withBoth, hd]

/-- The queues of events are the same. -/
def SamePosted (lists lists' : QueueId → List (Node n)) : Prop :=
  ∀ q, q ≠ .reusable → lists' q = lists q

/-- An operation that ends, keeps the worker consistent and is quiet. -/
def Silent (w : Worker n) (free : List (Fin n)) (lists : QueueId → List (Node n))
    (r : Option (Worker n)) : Prop :=
  ∃ w' lists', r = some w' ∧ Consistent w' free lists' ∧ SamePosted lists lists' ∧ Quiet w w'

lemma silent_of (hc : Consistent w' free lists) (hq : Quiet w w') :
    Silent w free lists (some w') := ⟨w', lists, rfl, hc, fun _ _ => rfl, hq⟩

lemma reusableLists_posted {links : Links (Node n)} {connection : Fin n → Connection n}
    {event : EventId n → Event n} {count : ℕ}
    (h : Queues links connection event count lists) (c : Fin n) (b : Bool) :
    SamePosted lists (reusableLists lists c b) := by
  intro q hq
  have hnot : Node.connection c ∉ lists q := by
    intro hmem
    have := h.takes q _ hmem
    cases q with
    | reusable => exact hq rfl
    | _ => exact this.elim
  cases b with
  | false => exact List.erase_of_not_mem hnot
  | true =>
    rw [reusableLists, if_pos rfl, Function.update_of_ne hq]
    exact List.erase_of_not_mem hnot

/-! ## The calls of a handler -/

lemma addIfIdle_silent (h : Consistent w free lists) (s : Side) (hc : InUse w.connection c)
    (ok : Bool) :
    Silent w free lists ((if !(w.event (c, s)).active && !(w.event (c, s)).ready
      then epollAddEvent w (c, s) s true ok else some (true, w)).map Prod.snd) := by
  rcases addIfIdle_spec h s hc ok with ⟨hrun, -⟩ | ⟨hrun, -⟩ | ⟨kernel, hrun, hcons, hk⟩
  · rw [hrun]
    exact silent_of h (.refl w)
  · rw [hrun]
    exact silent_of h (.refl w)
  · rw [hrun]
    exact silent_of hcons (quiet_withActive w _ true hk)

lemma writeLowat_spec (h : Consistent w free lists) (hc : InUse w.connection c) (lowat : ℕ)
    (ok : Bool) :
    ∃ b w', writeLowat w (c, .write) lowat ok = some (b, w') ∧ Consistent w' free lists ∧
      Quiet w w' ∧ w'.event = w.event := by
  rw [writeLowat]
  split_ifs with hl
  · exact ⟨true, w, rfl, h, .refl w, rfl⟩
  · rw [h.slots.data c .write hc]
    simp only [Option.bind_eq_bind, Option.bind_some, Option.pure_def, sendLowat]
    split_ifs
    · exact ⟨true, w, rfl, h, .refl w, rfl⟩
    · exact ⟨true, _, rfl, h.setConnection c (.inr rfl) fun _ => ⟨rfl, rfl, rfl, rfl, rfl⟩,
        quiet_setConnection w c fun _ => rfl, rfl⟩
    · exact ⟨false, w, rfl, h, .refl w, rfl⟩

lemma handleWriteEvent_silent (h : Consistent w free lists) (hc : InUse w.connection c)
    (lowat : ℕ) (lowatOk ok : Bool) :
    Silent w free lists ((handleWriteEvent w (c, .write) lowat lowatOk ok).map Prod.snd) := by
  obtain ⟨b, w₁, hrun, h₁, hq₁, hev⟩ := writeLowat_spec h hc lowat lowatOk
  rw [handleWriteEvent, hrun]
  cases b with
  | false => exact silent_of h₁ hq₁
  | true =>
    obtain ⟨w₂, lists₂, hrun₂, h₂, hp₂, hq₂⟩ :=
      addIfIdle_silent h₁ .write ((hq₁.inUse c).mpr hc) ok
    exact ⟨w₂, lists₂, hrun₂, h₂, hp₂, hq₁.trans hq₂⟩

lemma listenOn_silent (h : Consistent w free lists) (hc : InUse w.connection c) (ok : Bool) :
    Silent w free lists ((listenOn w c ok).map Prod.snd) := by
  -- the assignments to the listening socket and the event
  obtain ⟨w₁, hw₁, h₁, hq₁⟩ : ∃ w₁, w₁ = ({ w with listening :=
        { w.listening with connection := some c } } : Worker n).setEvent (c, .read) (fun e =>
        { e with accept := true, deferredAccept := w.listening.deferredAccept
                 handler := .eventAccept }) ∧ Consistent w₁ free lists ∧ Quiet w w₁ := by
    refine ⟨_, rfl, ?_, fun _ => rfl, fun _ => ?_, fun _ h => h⟩
    swap
    · refine instanceBit_setEvent { w with listening := _ } (c, .read) ?_ _
      exact fun _ => rfl
    refine Consistent.setEvent (w := { w with listening := _ }) ?_ _ fun _ => ⟨rfl, rfl, rfl, rfl⟩
    refine ⟨h.slots, h.timers, h.queues, h.interests, fun d hd => ?_⟩
    obtain rfl : c = d := Option.some.inj hd
    exact ⟨h.slots.data c .read hc, fun _ => hc⟩
  have hadd : Silent w free lists ((epollAddEvent w₁ (c, .read) .read false ok).map Prod.snd) := by
    rcases epollAddEvent_spec h₁ .read ((hq₁.inUse c).mpr hc) false ok with
      ⟨hrun, -⟩ | ⟨kernel, hrun, hcons, hk⟩
    · rw [hrun]
      exact silent_of h₁ hq₁
    · rw [hrun]
      exact silent_of hcons (hq₁.trans (quiet_withActive w₁ (c, .read) true hk))
  have hcall : listenOn w c ok =
      if w.listening.reuseport then epollAddEvent w₁ (c, .read) .read false ok
      else if w.useAcceptMutex then some (false, w₁)
      else epollAddEvent w₁ (c, .read) .read false ok := by
    rw [listenOn, hw₁]
    simp only [h.slots.read]
    rfl
  rw [hcall]
  split_ifs
  · exact hadd
  · exact silent_of h₁ hq₁
  · exact hadd

/-- The calls that neither post events nor close connections. -/
lemma call_silent (s : Config n) (h : Consistent s.worker free lists)
    (hobt : ∀ c, s.obtained = some c → InUse s.worker.connection c) {a : Call n}
    (ha : s.AllowedCall a) (hpost : ∀ ev q, a ≠ .post ev q) (hclose : ∀ c, a ≠ .close c)
    (hacc : ∀ c, a ≠ .closeAccepted c) : Silent s.worker free lists (a.run s.worker) := by
  -- a call that the kernel refuses changes nothing; the others update one part, and no posted list
  cases a with
  | addTimer ev timer =>
    obtain ⟨T, hrun, hcons, -⟩ := addTimer_spec h ha timer
    exact ⟨_, lists, hrun, hcons, fun _ _ => rfl, quiet_timers _ T⟩
  | delTimer ev =>
    obtain ⟨T, hrun, hcons, -⟩ := delTimer_spec h ha.1 ha.2
    exact ⟨_, lists, hrun, hcons, fun _ _ => rfl, quiet_timers _ T⟩
  | post ev q => exact absurd rfl (hpost ev q)
  | reusable c b =>
    obtain ⟨links, count, hrun, hcons⟩ := reusableConnection_spec h ha b
    -- the one list that changes is the reusable queue
    exact ⟨_, _, hrun, hcons, reusableLists_posted h.queues c b, quiet_withReusable _ c b _ _⟩
  | close c => exact absurd rfl (hclose c)
  | closeAccepted c => exact absurd rfl (hacc c)
  | addEvent ev edge ok =>
    obtain ⟨c, s⟩ := ev
    show Silent _ _ _ ((epollAddEvent _ (c, s) s edge ok).map _)
    rcases epollAddEvent_spec h s ha edge ok with ⟨hrun, -⟩ | ⟨kernel, hrun, hcons, hk⟩
    · rw [hrun]
      exact silent_of h (.refl _)
    · rw [hrun]
      exact silent_of hcons (quiet_withActive _ _ true hk)
  | delEvent ev edge ok =>
    obtain ⟨c, s⟩ := ev
    show Silent _ _ _ ((epollDelEvent _ (c, s) s false edge ok).map _)
    rcases epollDelEvent_spec h s ha edge ok with hrun | ⟨kernel, hrun, hcons, hk⟩
    · rw [hrun]
      exact silent_of h (.refl _)
    · rw [hrun]
      exact silent_of hcons (quiet_withActive _ _ false hk)
  | addConnection c ok =>
    show Silent _ _ _ (some (epollAddConnection _ c ok))
    rcases epollAddConnection_spec h ha ok with hrun | ⟨kernel, hrun, hcons, hk⟩
    · rw [hrun]
      exact silent_of h (.refl _)
    · rw [hrun]
      exact silent_of hcons (quiet_withBoth _ c true hk)
  | delConnection c ok =>
    show Silent _ _ _ (some (epollDelConnection _ c false ok).2)
    rcases epollDelConnection_spec h ha ok with hrun | ⟨kernel, hrun, hcons, hk⟩
    · rw [hrun]
      exact silent_of h (.refl _)
    · rw [hrun]
      exact silent_of hcons (quiet_withBoth _ c false hk)
  | handleRead c ok => exact addIfIdle_silent h .read ha ok
  | handleWrite c lowat lowatOk ok => exact handleWriteEvent_silent h ha lowat lowatOk ok
  | enableAccept ok =>
    show Silent _ _ _ ((enableAcceptEvents _ ok).map _)
    rcases enableAcceptEvents_spec h ok with ⟨b, hrun⟩ | ⟨c, kernel, -, -, hrun, hcons, hk⟩
    · rw [hrun]
      exact silent_of h (.refl _)
    · rw [hrun]
      exact silent_of hcons (quiet_withActive _ _ true hk)
  | disableAccept all ok =>
    show Silent _ _ _ ((disableAcceptEvents _ all ok).map _)
    rcases disableAcceptEvents_spec h all ok with ⟨b, hrun⟩ | ⟨c, kernel, -, -, hrun, hcons, hk⟩
    · rw [hrun]
      exact silent_of h (.refl _)
    · rw [hrun]
      exact silent_of hcons (quiet_withActive _ _ false hk)
  | listen c ok => exact listenOn_silent h (hobt c ha) ok
  | writeEvent ev e =>
    exact silent_of (h.setEvent ev fun _ => ⟨rfl, rfl, rfl, rfl⟩) (quiet_setEvent _ ev fun _ => rfl)
  | writeConnection c r =>
    exact silent_of (h.setConnection c (.inl ha) fun _ => ⟨rfl, rfl, rfl, rfl, rfl⟩)
      (quiet_setConnection _ c fun _ => rfl)

end Libcn.Cycle
