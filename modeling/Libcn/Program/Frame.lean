import Libcn.Cycle.Effect
import Libcn.Program.Machine
import Libcn.Program.Service

/-!
# Steps that are about one slot

A handler works on the slot of its event and leaves the other slots as they are. `Steady` is the
invariant of a worker of the program: the listening connection is served by `event_accept`, the
other open connections by `myread`, and the write events are idle.
-/

namespace Libcn.Program

open Libcn.Lib Libcn.Lib.Links Libcn.Queue Libcn.Rbtree Libcn.Timer Libcn.Cycle

variable {n : ℕ} {w w' w₁ : Worker n} {free : List (Fin n)} {lists : QueueId → List (Node n)}
  {c lc : Fin n}

/-! ## Everything but one slot -/

/-- The other slots are as before, and so are the listening socket and the use of the mutex. -/
structure Same (w w' : Worker n) (c : Fin n) : Prop where
  connection : ∀ d, d ≠ c → w'.connection d = w.connection d
  event : ∀ d i, d ≠ c → w'.event (d, i) = w.event (d, i)
  timerSet : ∀ d i, d ≠ c → w'.timers.timerSet (d, i) = w.timers.timerSet (d, i)
  timedout : ∀ d i, d ≠ c → w'.timers.timedout (d, i) = w.timers.timedout (d, i)
  listening : w'.listening = w.listening
  mutex : w'.useAcceptMutex = w.useAcceptMutex

namespace Same

lemma refl (w : Worker n) (c : Fin n) : Same w w c :=
  ⟨fun _ _ => rfl, fun _ _ _ => rfl, fun _ _ _ => rfl, fun _ _ _ => rfl, rfl, rfl⟩

lemma trans (h : Same w w' c) (h' : Same w' w₁ c) : Same w w₁ c where
  connection d hd := (h'.connection d hd).trans (h.connection d hd)
  event d i hd := (h'.event d i hd).trans (h.event d i hd)
  timerSet d i hd := (h'.timerSet d i hd).trans (h.timerSet d i hd)
  timedout d i hd := (h'.timedout d i hd).trans (h.timedout d i hd)
  listening := h'.listening.trans h.listening
  mutex := h'.mutex.trans h.mutex

lemma setEvent (w : Worker n) (c : Fin n) (i : Side) (f : Event n → Event n) :
    Same w (w.setEvent (c, i) f) c :=
  { refl w c with event := fun d j hd => by simp [Worker.setEvent, hd] }

lemma setConnection (w : Worker n) (c : Fin n) (f : Connection n → Connection n) :
    Same w (w.setConnection c f) c :=
  { refl w c with connection := fun d hd => by simp [Worker.setConnection, hd] }

lemma withPosted (w : Worker n) (c : Fin n) (i : Side) (b : Bool) (links : Links (Node n)) :
    Same w (w.withPosted (c, i) b links) c :=
  { refl w c with event := fun d j hd => by simp [Worker.withPosted, Worker.setEvent, hd] }

lemma withActive (w : Worker n) (c : Fin n) (i : Side) (b : Bool) (kernel : Kernel n) :
    Same w (w.withActive (c, i) b kernel) c :=
  { refl w c with event := fun d j hd => by simp [Worker.withActive, Worker.setEvent, hd] }

lemma withReusable (w : Worker n) (c : Fin n) (b : Bool) (links : Links (Node n)) (count : ℕ) :
    Same w (w.withReusable c b links count) c :=
  { refl w c with
    connection := fun d hd => by simp [Worker.withReusable, Worker.setConnection, hd] }

lemma closed (w : Worker n) (c : Fin n) {T : Timers (EventId n)} (links : Links (Node n))
    (count : ℕ) (hT : TimersClosed w.timers T c) : Same w (w.closed c T links count) c where
  connection d hd := by simp [Worker.closed, hd]
  event d i hd := by simp [Worker.closed, closedEvents, hd]
  timerSet d i hd := (hT.1 (d, i)).trans (if_neg hd)
  timedout d i hd := congrFun hT.2.1 (d, i)
  listening := rfl
  mutex := rfl

lemma taken (w : Worker n) (c : Fin n) (s : ℤ) : Same w (w.taken c s) c where
  connection d hd := by simp [Worker.taken, hd]
  event d i hd := by simp [Worker.taken, hd]
  timerSet d i hd := by simp [Worker.taken, hd]
  timedout d i hd := by simp [Worker.taken, hd]
  listening := rfl
  mutex := rfl

/-- Timers that differ in the flags of one event. -/
lemma timers (w : Worker n) (c : Fin n) (i : Side) {T : Timers (EventId n)} {b : Bool}
    (hset : T.timerSet = Function.update w.timers.timerSet (c, i) b)
    (hout : ∀ d j, d ≠ c → T.timedout (d, j) = w.timers.timedout (d, j)) :
    Same w { w with timers := T } c :=
  { refl w c with
    timerSet := fun d j hd => by
      show T.timerSet (d, j) = _
      simp [hset, hd]
    timedout := hout }

end Same

/-! ## The invariant -/

/-- The handler of the read event of a slot. -/
def readHandler (lc c : Fin n) : Handler := if c = lc then .eventAccept else .myread

/-- What holds of a slot in use: its read event has its handler, its write event is idle, and the
listening connection is not reusable. -/
structure SlotSteady (w : Worker n) (lc c : Fin n) : Prop where
  handler : (w.event (c, .read)).handler = readHandler lc c
  kept : c = lc → (w.connection c).reusable = false
  active : (w.event (c, .write)).active = false
  posted : (w.event (c, .write)).posted = false
  timerSet : w.timers.timerSet (c, .write) = false

/-- The invariant of a worker of the program, whose listening connection is `lc`. -/
structure Steady (w : Worker n) (lc : Fin n) : Prop where
  consistent : ∃ free lists, Consistent w free lists
  listening : w.listening.connection = some lc
  mutex : w.useAcceptMutex = true
  inUse : InUse w.connection lc
  slot : ∀ c, InUse w.connection c → SlotSteady w lc c

lemma Same.inUse (h : Same w w' c) {d : Fin n} (hd : d ≠ c) :
    InUse w'.connection d ↔ InUse w.connection d := by
  rw [InUse, InUse, h.connection d hd]

lemma SlotSteady.same {d : Fin n} (h : SlotSteady w lc d) (hs : Same w w' c) (hd : d ≠ c) :
    SlotSteady w' lc d where
  handler := by rw [hs.event d _ hd, h.handler]
  kept e := by rw [hs.connection d hd, h.kept e]
  active := by rw [hs.event d _ hd, h.active]
  posted := by rw [hs.event d _ hd, h.posted]
  timerSet := by rw [hs.timerSet d _ hd, h.timerSet]

/-- A step about one slot keeps the invariant if it holds of this slot afterwards. -/
lemma Steady.same (h : Steady w lc) (hs : Same w w' c) (hcons : Consistent w' free lists)
    (hslot : InUse w'.connection c → SlotSteady w' lc c)
    (huse : c = lc → InUse w'.connection c) : Steady w' lc where
  consistent := ⟨free, lists, hcons⟩
  listening := by rw [hs.listening, h.listening]
  mutex := by rw [hs.mutex, h.mutex]
  inUse := by
    by_cases hc : lc = c
    · exact hc ▸ huse hc.symm
    · exact (hs.inUse hc).mpr h.inUse
  slot d hd := by
    by_cases hdc : d = c
    · subst hdc
      exact hslot hd
    · exact (h.slot d ((hs.inUse hdc).mp hd)).same hs hdc

/-! ## The clients -/

/-- The slot serves a client. -/
def Serving (w : Worker n) (c : Fin n) : Prop :=
  InUse w.connection c ∧ w.listening.connection ≠ some c

instance (w : Worker n) (c : Fin n) : Decidable (Serving w c) :=
  inferInstanceAs (Decidable (_ ∧ _))

/-- What is known of the client of a slot. -/
def clientAt (w : Worker n) (c : Fin n) : Client where
  watched := (w.event (c, .read)).active
  timed := w.timers.timerSet (c, .read)
  buffer := (w.connection c).buffer
  sent := (w.connection c).sent
  pool := (w.connection c).pool

/-- The client of a slot. -/
def clientOf (w : Worker n) (c : Fin n) : Option Client :=
  if Serving w c then some (clientAt w c) else none

/-- The abstract state of a worker. -/
def serviceOf (w : Worker n) (received sent : Fin n → List UInt8) : Service n where
  client := clientOf w
  statActive := w.statActive
  pools := w.pools
  received := received
  sent := sent

/-- The abstract state. -/
def State.service (s : State n) : Service n := serviceOf s.worker s.received s.sent

lemma Steady.serving_iff (h : Steady w lc) (c : Fin n) :
    Serving w c ↔ InUse w.connection c ∧ c ≠ lc := by
  rw [Serving, h.listening, ne_eq, Option.some.injEq]
  exact and_congr_right fun _ => not_congr eq_comm

lemma clientOf_isSome : (clientOf w c).isSome = true ↔ Serving w c := by
  rw [clientOf]
  split_ifs with hc <;> simp [hc]

lemma clientOf_of_serving (h : Serving w c) : clientOf w c = some (clientAt w c) := if_pos h

lemma clientOf_of_not (h : ¬ Serving w c) : clientOf w c = none := if_neg h

/-- A client of the abstract state is that of a slot in use. -/
lemma State.mem_client {s : State n} {r : Client} (h : r ∈ s.service.client c) :
    Serving s.worker c ∧ r = clientAt s.worker c := by
  have hc : clientOf s.worker c = some r := h
  have hserve := clientOf_isSome.mp (Option.isSome_of_mem hc)
  rw [clientOf_of_serving hserve] at hc
  exact ⟨hserve, (Option.some.inj hc).symm⟩

/-- A step about one slot changes no other client. -/
lemma Same.clientOf (h : Same w w' c) {d : Fin n} (hd : d ≠ c) :
    Program.clientOf w' d = Program.clientOf w d := by
  have hserve : Serving w' d ↔ Serving w d := by rw [Serving, Serving, h.inUse hd, h.listening]
  have hat : clientAt w' d = clientAt w d := by
    simp only [clientAt, h.event d _ hd, h.timerSet d _ hd, h.connection d hd]
  rw [Program.clientOf, Program.clientOf, hat]
  by_cases hs : Serving w d
  · rw [if_pos hs, if_pos (hserve.mpr hs)]
  · rw [if_neg hs, if_neg fun hs' => hs (hserve.mp hs')]

/-- The clients after a step about one slot. -/
lemma Same.client_eq (h : Same w w' c) {r : Option Client} (hr : Program.clientOf w' c = r) :
    Program.clientOf w' = Function.update (Program.clientOf w) c r := by
  funext d
  by_cases hd : d = c
  · subst hd
    rw [Function.update_self, hr]
  · rw [Function.update_of_ne hd, h.clientOf hd]

/-! ## A slot that goes on -/

/-- A handler worked on a slot, which stays in use. What the invariant says of the slot is as
before, and so are the counter and the pools. -/
structure Stays (w w' : Worker n) (c : Fin n) : Prop extends Same w w' c where
  fd : (w'.connection c).fd = (w.connection c).fd
  handler : (w'.event (c, .read)).handler = (w.event (c, .read)).handler
  kept : (w.connection c).reusable = false → (w'.connection c).reusable = false
  active : (w'.event (c, .write)).active = (w.event (c, .write)).active
  posted : (w'.event (c, .write)).posted = (w.event (c, .write)).posted
  idle : w'.timers.timerSet (c, .write) = w.timers.timerSet (c, .write)
  statActive : w'.statActive = w.statActive
  pools : w'.pools = w.pools

namespace Stays

lemma refl (w : Worker n) (c : Fin n) : Stays w w c :=
  ⟨.refl w c, rfl, rfl, id, rfl, rfl, rfl, rfl, rfl⟩

lemma trans (h : Stays w w' c) (h' : Stays w' w₁ c) : Stays w w₁ c where
  toSame := h.toSame.trans h'.toSame
  fd := h'.fd.trans h.fd
  handler := h'.handler.trans h.handler
  kept e := h'.kept (h.kept e)
  active := h'.active.trans h.active
  posted := h'.posted.trans h.posted
  idle := h'.idle.trans h.idle
  statActive := h'.statActive.trans h.statActive
  pools := h'.pools.trans h.pools

lemma serving_iff (h : Stays w w' c) (d : Fin n) : Serving w' d ↔ Serving w d := by
  rw [Serving, Serving, h.listening]
  by_cases hd : d = c
  · rw [hd, InUse, InUse, h.fd]
  · rw [h.toSame.inUse hd]

/-- The invariant is kept. -/
lemma steady (h : Stays w w' c) (hw : Steady w lc) (hcons : Consistent w' free lists) :
    Steady w' lc := by
  have huse : InUse w'.connection c ↔ InUse w.connection c := by rw [InUse, InUse, h.fd]
  refine hw.same h.toSame hcons (fun hc => ?_) fun e => ?_
  · have hs := hw.slot c (huse.mp hc)
    exact ⟨h.handler.trans hs.handler, fun e => h.kept (hs.kept e), h.active.trans hs.active,
      h.posted.trans hs.posted, h.idle.trans hs.timerSet⟩
  · rw [huse, e]
    exact hw.inUse

/-- The clients are as before but for that of the slot. -/
lemma client_eq (h : Stays w w' c) (hc : Serving w c) :
    clientOf w' = Function.update (clientOf w) c (some (clientAt w' c)) :=
  h.toSame.client_eq (clientOf_of_serving ((h.serving_iff c).mpr hc))

/-- A handler that changes nothing of what is known of the client. -/
lemma clientOf_eq (h : Stays w w' c) (hat : clientAt w' c = clientAt w c) :
    clientOf w' = clientOf w := by
  by_cases hc : Serving w c
  · rw [h.client_eq hc, hat, ← clientOf_of_serving hc, Function.update_eq_self]
  · rw [h.toSame.client_eq (clientOf_of_not fun hs => hc ((h.serving_iff c).mp hs)),
      ← clientOf_of_not hc, Function.update_eq_self]

lemma serviceOf_eq (h : Stays w w' c) (hat : clientAt w' c = clientAt w c)
    (received sent : Fin n → List UInt8) :
    serviceOf w' received sent = serviceOf w received sent := by
  rw [serviceOf, serviceOf, h.clientOf_eq hat, h.statActive, h.pools]

/-- A write to the read event that keeps its handler. -/
lemma setRead (w : Worker n) (c : Fin n) {f : Event n → Event n}
    (hf : ∀ e, (f e).handler = e.handler) : Stays w (w.setEvent (c, .read) f) c where
  toSame := .setEvent w c .read f
  fd := rfl
  handler := by simp [Worker.setEvent, hf]
  kept := id
  active := by simp [Worker.setEvent]
  posted := by simp [Worker.setEvent]
  idle := rfl
  statActive := rfl
  pools := rfl

/-- A write to the write event that keeps it idle. -/
lemma setWrite (w : Worker n) (c : Fin n) {f : Event n → Event n}
    (hf : ∀ e, (f e).active = e.active ∧ (f e).posted = e.posted) :
    Stays w (w.setEvent (c, .write) f) c where
  toSame := .setEvent w c .write f
  fd := rfl
  handler := by simp [Worker.setEvent]
  kept := id
  active := by simp [Worker.setEvent, hf]
  posted := by simp [Worker.setEvent, hf]
  idle := rfl
  statActive := rfl
  pools := rfl

lemma setConnection (w : Worker n) (c : Fin n) {f : Connection n → Connection n}
    (hf : ∀ r, (f r).fd = r.fd ∧ (f r).reusable = r.reusable) :
    Stays w (w.setConnection c f) c where
  toSame := .setConnection w c f
  fd := by simp [Worker.setConnection, hf]
  handler := rfl
  kept := by simp [Worker.setConnection, hf]
  active := rfl
  posted := rfl
  idle := rfl
  statActive := rfl
  pools := rfl

/-- Timers that differ in the flags of the read event. -/
lemma timers (w : Worker n) (c : Fin n) {T : Timers (EventId n)} {b : Bool}
    (hset : T.timerSet = Function.update w.timers.timerSet (c, .read) b)
    (hout : ∀ d j, d ≠ c → T.timedout (d, j) = w.timers.timedout (d, j)) :
    Stays w { w with timers := T } c :=
  { refl w c with
    toSame := .timers w c .read hset hout
    idle := by
      show T.timerSet (c, .write) = _
      simp [hset] }

lemma withPosted (w : Worker n) (c : Fin n) (b : Bool) (links : Links (Node n)) :
    Stays w (w.withPosted (c, .read) b links) c :=
  { refl w c with
    toSame := .withPosted w c .read b links
    handler := by simp [Worker.withPosted, Worker.setEvent]
    active := by simp [Worker.withPosted, Worker.setEvent]
    posted := by simp [Worker.withPosted, Worker.setEvent] }

lemma withActive (w : Worker n) (c : Fin n) (b : Bool) (kernel : Kernel n) :
    Stays w (w.withActive (c, .read) b kernel) c :=
  { refl w c with
    toSame := .withActive w c .read b kernel
    handler := by simp [Worker.withActive, Worker.setEvent]
    active := by simp [Worker.withActive, Worker.setEvent]
    posted := by simp [Worker.withActive, Worker.setEvent] }

/-- A connection that leaves the queue of reusable connections. -/
lemma withReusable (w : Worker n) (c : Fin n) (links : Links (Node n)) (count : ℕ) :
    Stays w (w.withReusable c false links count) c :=
  { refl w c with
    toSame := .withReusable w c false links count
    fd := by simp [Worker.withReusable, Worker.setConnection]
    kept := by simp [Worker.withReusable, Worker.setConnection] }

end Stays

end Libcn.Program
