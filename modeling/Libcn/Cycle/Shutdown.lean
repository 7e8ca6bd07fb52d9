import Libcn.Cycle.Partition

/-!
# Closing the listening socket

`close_listening_sockets` frees the slot of the listening connection by its own route: it looks
neither at the timer of the read event nor at whether that is posted, and it leaves the pointer to
the slot in the listening socket.
-/

namespace Libcn.Cycle

open Libcn.Lib Libcn.Lib.Links Libcn.Queue Libcn.Rbtree Libcn.Timer

variable {n : ℕ} {w w' w₁ : Worker n} {free : List (Fin n)} {lists : QueueId → List (Node n)}
  {s s' : Config n} {c : Fin n}

/-- `close_listening_sockets`. -/
def closeListeningSockets (w : Worker n) : Option (Worker n) := do
  let w := { w with acceptMutexHeld := false, useAcceptMutex := false }
  let w ← match w.listening.connection with
    | none => pure w
    | some c => do
      let rev := (w.connection c).read
      let w ← if (w.event rev).active
        then (epollDelEvent w rev .read true false true).map Prod.snd
        else pure w
      pure ((freeConnection w c).setConnection c fun r => { r with fd := -1 })
  let w := w.close w.listening.fd
  pure { w with listening := { w.listening with fd := -1 } }

/-! ## Runs -/

/-- A step of a worker, which may close its listening socket. -/
inductive ShutLabel (n : ℕ)
  | worker (a : Label n)
  | closeListening

/-- The connection the call makes the listening one. -/
def Call.listens : Call n → Option (Fin n)
  | .listen c _ => some c
  | _ => none

/-- The call leaves the connection alone but for its read event. -/
def Call.Spares (c : Fin n) : Call n → Prop
  | .addTimer ev _ => ev ≠ (c, .write)
  | .delTimer _ => True
  | .post ev _ => ev ≠ (c, .write)
  | .reusable d _ => d ≠ c
  | .close d => d ≠ c
  | .closeAccepted d => d ≠ c
  | .addEvent ev _ _ => ev ≠ (c, .write)
  | .delEvent _ _ _ => True
  | .addConnection d _ => d ≠ c
  | .delConnection _ _ => True
  | .handleRead _ _ => True
  | .handleWrite d _ _ _ => d ≠ c
  | .enableAccept _ => True
  | .disableAccept _ _ => True
  | .listen _ _ => False
  | .writeEvent _ _ => True
  | .writeConnection _ _ => True

instance (c : Fin n) : (a : Call n) → Decidable (a.Spares c)
  | .addTimer _ _ => inferInstanceAs (Decidable (_ ≠ _))
  | .delTimer _ => .isTrue trivial
  | .post _ _ => inferInstanceAs (Decidable (_ ≠ _))
  | .reusable _ _ => inferInstanceAs (Decidable (_ ≠ _))
  | .close _ => inferInstanceAs (Decidable (_ ≠ _))
  | .closeAccepted _ => inferInstanceAs (Decidable (_ ≠ _))
  | .addEvent _ _ _ => inferInstanceAs (Decidable (_ ≠ _))
  | .delEvent _ _ _ => .isTrue trivial
  | .addConnection _ _ => inferInstanceAs (Decidable (_ ≠ _))
  | .delConnection _ _ => .isTrue trivial
  | .handleRead _ _ => .isTrue trivial
  | .handleWrite _ _ _ _ => inferInstanceAs (Decidable (_ ≠ _))
  | .enableAccept _ => .isTrue trivial
  | .disableAccept _ _ => .isTrue trivial
  | .listen _ _ => .isFalse id
  | .writeEvent _ _ => .isTrue trivial
  | .writeConnection _ _ => .isTrue trivial

/-- The connection shares the descriptor of the open listening socket. -/
def Worker.Listens (w : Worker n) (c : Fin n) : Prop :=
  w.listening.connection = some c ∧ w.listening.fd ≠ -1 ∧ (w.connection c).fd = w.listening.fd

instance (w : Worker n) (c : Fin n) : Decidable (w.Listens c) :=
  inferInstanceAs (Decidable (_ ∧ _))

namespace Config

/-- The listening connection is made with the descriptor of the listening socket. Until this is
closed handlers make no other, and leave the connection alone but for its read event. -/
def Proper (s : Config n) : Label n → Prop
  | .call a => (∀ c ∈ a.listens, (s.worker.connection c).fd = s.worker.listening.fd) ∧
      ∀ c, s.worker.Listens c → a.Spares c
  | _ => True

instance (s : Config n) : (a : Label n) → Decidable (s.Proper a)
  | .call _ => inferInstanceAs (Decidable (_ ∧ _))
  | .getConnection _ => .isTrue trivial
  | .drainConnections => .isTrue trivial
  | .expireTimers => .isTrue trivial
  | .processPosted _ => .isTrue trivial
  | .processEvents _ _ => .isTrue trivial
  | .clock _ => .isTrue trivial
  | .next => .isTrue trivial
  | .ret => .isTrue trivial

def shutStep (s : Config n) : ShutLabel n → Option (Config n)
  | .worker a => s.step a
  | .closeListening => do
    let w ← closeListeningSockets s.worker
    pure (s.goOn w s.stack (s.worker.listening.connection.toList.map .closed))

/-- The steps of a run in which `close_listening_sockets` is called where `ok` says so. -/
def AllowedShut (ok : Config n → Prop) (s : Config n) : ShutLabel n → Prop
  | .worker a => s.Allowed a ∧ s.Proper a
  | .closeListening => s.AtBody ∧ ok s

instance (ok : Config n → Prop) [DecidablePred ok] (s : Config n) :
    (a : ShutLabel n) → Decidable (AllowedShut ok s a)
  | .worker _ => inferInstanceAs (Decidable (_ ∧ _))
  | .closeListening => inferInstanceAs (Decidable (_ ∧ _))

end Config

/-- The runs of a worker, from the table of connections just built. -/
def shutMachine (n : ℕ) : Machine (Config n) (ShutLabel n) := ⟨Config.Start, Config.shutStep⟩

/-! ## What is claimed of a call -/

/-- The node of the event is in the timer tree. -/
def InTree (w : Worker n) (ev : EventId n) : Prop :=
  ∃ l, Path w.timers.tree w.timers.tree.root l ∧ ev ∈ l

/-- Following the links from the head of the queue leads to the node. -/
def InQueue (w : Worker n) (q : QueueId) (x : Node n) : Prop :=
  Relation.ReflTransGen (fun a b => w.links.next a = some b) (.head q) x

/-- The read event of the slot is in no structure, and the slot is once on the free list. -/
structure Detached (w : Worker n) (c : Fin n) : Prop where
  timer : ¬ InTree w (c, .read)
  posted : ∀ q, q ≠ .reusable → ¬ InQueue w q (.event (c, .read))
  once : ∃ free, Chain w.connection w.freeConnections free ∧ free.length = w.freeConnectionN ∧
    free.count c = 1

/-- The free list and the connections in use are as before. -/
structure SameSlots (w w' : Worker n) : Prop where
  head : w'.freeConnections = w.freeConnections
  count : w'.freeConnectionN = w.freeConnectionN
  connection : ∀ c, w'.connection c = w.connection c

/-- A call of `close_listening_sockets` detaches the listening connection `c`, or, if it was made
before, leaves the slots as they are. -/
def ClosesCleanly (w : Worker n) (c : Fin n) : Prop :=
  ∃ w', closeListeningSockets w = some w' ∧
    if w.listening.fd = -1 then SameSlots w w' else Detached w' c

/-- The listening socket is open, and the read event of its connection is neither armed nor
posted. -/
structure Settled (w : Worker n) (c : Fin n) : Prop where
  fd : w.listening.fd ≠ -1
  timerSet : w.timers.timerSet (c, .read) = false
  posted : (w.event (c, .read)).posted = false

instance (w : Worker n) (c : Fin n) : Decidable (Settled w c) :=
  decidable_of_iff (w.listening.fd ≠ -1 ∧ w.timers.timerSet (c, .read) = false ∧
      (w.event (c, .read)).posted = false)
    ⟨fun h => ⟨h.1, h.2.1, h.2.2⟩, fun h => ⟨h.fd, h.timerSet, h.posted⟩⟩

/-! ## The call -/

/-- The worker after `close_listening_sockets`, with the listening connection `c`. -/
def Worker.shut (w : Worker n) (c : Fin n) : Worker n where
  __ := w
  acceptMutexHeld := false
  useAcceptMutex := false
  event := Function.update w.event (c, .read) { w.event (c, .read) with active := false }
  connection := Function.update w.connection c
    { w.connection c with data := w.freeConnections, fd := -1 }
  freeConnections := some c
  freeConnectionN := w.freeConnectionN + 1
  kernel := w.kernel.close w.listening.fd
  listening := { w.listening with fd := -1 }

lemma closeListeningSockets_eq (hread : (w.connection c).read = (c, .read))
    (hc : w.listening.connection = some c) : closeListeningSockets w = some (w.shut c) := by
  unfold closeListeningSockets
  simp only [hc, hread]
  cases hact : (w.event (c, .read)).active with
  | true => simp [epollDelEvent, freeConnection, Worker.setConnection, Worker.setEvent, Worker.shut,
      Worker.close]
  | false =>
    have hsame : Function.update w.event (c, .read) { w.event (c, .read) with active := false } =
        w.event := by
      rw [← hact, Function.update_eq_self]
    simp [freeConnection, Worker.setConnection, Worker.shut, Worker.close, hsame]

/-- The listening connection is in use with the descriptor of the listening socket, it is not
reusable, and its write event is idle. -/
structure Tied (w : Worker n) (c : Fin n) : Prop where
  inUse : InUse w.connection c
  fd : (w.connection c).fd = w.listening.fd
  reusable : (w.connection c).reusable = false
  active : (w.event (c, .write)).active = false
  posted : (w.event (c, .write)).posted = false
  timerSet : w.timers.timerSet (c, .write) = false

/-- A settled listening connection leaves no trace. -/
lemma shut_consistent (h : Consistent w free lists) (ht : Tied w c) (hs : Settled w c) :
    Consistent (w.shut c) (c :: free) lists ∧ Frees w.connection (w.shut c).connection c := by
  have hfrees : Frees w.connection (w.shut c).connection c :=
    ⟨by simp [Worker.shut], fun d hd => by simp [Worker.shut, hd]⟩
  have hevent : ∀ ev, ((w.shut c).event ev).data = (w.event ev).data ∧
      ((w.shut c).event ev).instanceBit = (w.event ev).instanceBit ∧
      ((w.shut c).event ev).posted = (w.event ev).posted := by
    intro ev
    by_cases hev : ev = (c, .read)
    · subst hev
      simp [Worker.shut]
    · simp [Worker.shut, hev]
  refine ⟨?_, hfrees⟩
  constructor
  · exact (h.slots.release ht.inUse rfl).events fun ev => ⟨(hevent ev).1, (hevent ev).2.1⟩
  · refine mirrors_release h.timers hfrees fun i => ?_
    cases i with
    | read => exact hs.timerSet
    | write => exact ht.timerSet
  · refine h.queues.release hfrees (fun i => ?_) ht.reusable (fun ev => (hevent ev).2.2) fun d => ?_
    · cases i with
      | read => exact hs.posted
      | write => exact ht.posted
    · by_cases hd : d = c
      · simp [Worker.shut, hd]
      · simp [Worker.shut, hd]
  · show Interests (w.kernel.close w.listening.fd) _ _
    rw [← ht.fd]
    refine h.interests.release h.slots.fd ht.inUse hfrees fun ev hev => ?_
    have hne : ev ≠ (c, .read) := fun e => hev (by rw [e])
    simp [Worker.shut, hne]
  · intro d hd
    obtain ⟨hdata, hact⟩ := h.accept d hd
    refine ⟨(hevent _).1.trans hdata, fun ha => ?_⟩
    by_cases hdc : d = c
    · simp [Worker.shut, hdc] at ha
    · refine (hfrees.inUse d).mpr ⟨hdc, hact ?_⟩
      simpa [Worker.shut, hdc] using ha

/-! ## Where the read event is -/

lemma inTree_iff {ev : EventId n} {live : EventId n → Prop} (h : Mirrors w.timers live) :
    InTree w ev ↔ live ev ∧ w.timers.timerSet ev = true := by
  obtain ⟨t, ht, hmem⟩ := h
  rw [InTree, ← ht.law.onPath, List.mem_toFinset, hmem]

lemma inQueue_iff {connection : Fin n → Connection n} {event : EventId n → Event n} {count : ℕ}
    (h : Queues w.links connection event count lists) {q : QueueId} {x : Node n}
    (hx : ∀ q, x ≠ .head q) : InQueue w q x ↔ x ∈ lists q := by
  have hseg : w.links.Seg (.head q) (lists q) (.head q) := h.rings.seg (h := .head q) rfl
  rw [InQueue, hseg.reaches_iff, List.mem_cons, or_iff_right (hx q)]

/-! ## What other steps do to the listening connection -/

/-- The connection keeps its descriptor; it is not made reusable and its write event stays idle. -/
structure Keeps (w w' : Worker n) (c : Fin n) : Prop where
  fd : (w'.connection c).fd = (w.connection c).fd
  reusable : (w.connection c).reusable = false → (w'.connection c).reusable = false
  active : (w.event (c, .write)).active = false → (w'.event (c, .write)).active = false
  posted : (w.event (c, .write)).posted = false → (w'.event (c, .write)).posted = false
  timerSet : w.timers.timerSet (c, .write) = false → w'.timers.timerSet (c, .write) = false

lemma Keeps.refl (w : Worker n) (c : Fin n) : Keeps w w c := ⟨rfl, id, id, id, id⟩

lemma Keeps.trans (h : Keeps w w' c) (h' : Keeps w' w₁ c) : Keeps w w₁ c where
  fd := h'.fd.trans h.fd
  reusable e := h'.reusable (h.reusable e)
  active e := h'.active (h.active e)
  posted e := h'.posted (h.posted e)
  timerSet e := h'.timerSet (h.timerSet e)

lemma Tied.keeps (h : Tied w c) (hk : Keeps w w' c) (hl : w'.listening = w.listening) :
    Tied w' c where
  inUse := by
    rw [InUse, hk.fd]
    exact h.inUse
  fd := by rw [hk.fd, h.fd, hl]
  reusable := hk.reusable h.reusable
  active := hk.active h.active
  posted := hk.posted h.posted
  timerSet := hk.timerSet h.timerSet

/-- A step leaves the listening socket alone, and the connections that satisfy `p`. -/
structure Leaves (w w' : Worker n) (p : Fin n → Prop) : Prop where
  listening : w'.listening = w.listening
  keeps : ∀ c, p c → Keeps w w' c

namespace Leaves

variable {p : Fin n → Prop}

lemma refl (w : Worker n) (p : Fin n → Prop) : Leaves w w p := ⟨rfl, fun c _ => .refl w c⟩

lemma trans (h : Leaves w w' p) (h' : Leaves w' w₁ p) : Leaves w w₁ p :=
  ⟨h'.listening.trans h.listening, fun c hc => (h.keeps c hc).trans (h'.keeps c hc)⟩

lemma mono {q : Fin n → Prop} (h : Leaves w w' p) (hq : ∀ c, q c → p c) : Leaves w w' q :=
  ⟨h.listening, fun c hc => h.keeps c (hq c hc)⟩

/-- A write to an event that keeps whether it is active and whether it is posted. -/
lemma setEvent (w : Worker n) (ev : EventId n) {f : Event n → Event n}
    (hf : ∀ e, (f e).active = e.active ∧ (f e).posted = e.posted) :
    Leaves w (w.setEvent ev f) p := by
  refine ⟨rfl, fun c _ => ⟨rfl, id, fun ha => ?_, fun hp => ?_, id⟩⟩
  · by_cases he : (c, .write) = ev
    · simpa [Worker.setEvent, he, hf] using ha
    · simpa [Worker.setEvent, he] using ha
  · by_cases he : (c, .write) = ev
    · simpa [Worker.setEvent, he, hf] using hp
    · simpa [Worker.setEvent, he] using hp

lemma withPosted (w : Worker n) (ev : EventId n) {b : Bool} (links : Links (Node n))
    (hev : (∀ c, p c → ev ≠ (c, .write)) ∨ b = false) : Leaves w (w.withPosted ev b links) p := by
  refine ⟨rfl, fun c hc => ⟨rfl, id, fun ha => ?_, fun hp => ?_, id⟩⟩
  · by_cases he : (c, .write) = ev
    · simpa [Worker.withPosted, Worker.setEvent, he] using ha
    · simpa [Worker.withPosted, Worker.setEvent, he] using ha
  · by_cases he : (c, .write) = ev
    · rcases hev with hne | rfl
      · exact absurd he.symm (hne c hc)
      · simp [Worker.withPosted, Worker.setEvent, he]
    · simpa [Worker.withPosted, Worker.setEvent, he] using hp

lemma withActive (w : Worker n) (ev : EventId n) {b : Bool} (kernel : Kernel n)
    (hev : (∀ c, p c → ev ≠ (c, .write)) ∨ b = false) : Leaves w (w.withActive ev b kernel) p := by
  refine ⟨rfl, fun c hc => ⟨rfl, id, fun ha => ?_, fun hp => ?_, id⟩⟩
  · by_cases he : (c, .write) = ev
    · rcases hev with hne | rfl
      · exact absurd he.symm (hne c hc)
      · simp [Worker.withActive, Worker.setEvent, he]
    · simpa [Worker.withActive, Worker.setEvent, he] using ha
  · by_cases he : (c, .write) = ev
    · simpa [Worker.withActive, Worker.setEvent, he] using hp
    · simpa [Worker.withActive, Worker.setEvent, he] using hp

lemma withBoth (w : Worker n) (d : Fin n) {b : Bool} (kernel : Kernel n)
    (hd : (∀ c, p c → d ≠ c) ∨ b = false) : Leaves w (w.withBoth d b kernel) p := by
  refine ⟨rfl, fun c hc => ⟨rfl, id, fun ha => ?_, fun hp => ?_, id⟩⟩
  · by_cases hcd : c = d
    · rcases hd with hne | rfl
      · exact absurd hcd.symm (hne c hc)
      · simp [Worker.withBoth, hcd]
    · simpa [Worker.withBoth, hcd] using ha
  · by_cases hcd : c = d
    · simpa [Worker.withBoth, hcd] using hp
    · simpa [Worker.withBoth, hcd] using hp

lemma withReusable (w : Worker n) (d : Fin n) (b : Bool) (links : Links (Node n)) (count : ℕ)
    (hd : ∀ c, p c → d ≠ c) : Leaves w (w.withReusable d b links count) p := by
  refine ⟨rfl, fun c hc => ⟨?_, ?_, id, id, id⟩⟩ <;>
    simp [Worker.withReusable, Worker.setConnection, (hd c hc).symm]

/-- A write to a connection that keeps its descriptor and whether it is reusable. -/
lemma setConnection (w : Worker n) (d : Fin n) {f : Connection n → Connection n}
    (hf : ∀ r, (f r).fd = r.fd ∧ (f r).reusable = r.reusable) :
    Leaves w (w.setConnection d f) p := by
  refine ⟨rfl, fun c _ => ⟨?_, ?_, id, id, id⟩⟩
  · by_cases hcd : c = d <;> simp [Worker.setConnection, hcd, hf]
  · by_cases hcd : c = d <;> simp [Worker.setConnection, hcd, hf]

lemma timers (w : Worker n) {T : Timers (EventId n)} {ev : EventId n} {b : Bool}
    (hset : T.timerSet = Function.update w.timers.timerSet ev b)
    (hev : (∀ c, p c → ev ≠ (c, .write)) ∨ b = false) : Leaves w { w with timers := T } p := by
  refine ⟨rfl, fun c hc => ⟨rfl, id, id, id, fun ht => ?_⟩⟩
  show T.timerSet (c, .write) = false
  rw [hset]
  by_cases he : (c, .write) = ev
  · rcases hev with hne | rfl
    · exact absurd he.symm (hne c hc)
    · rw [he, Function.update_self]
  · rw [Function.update_of_ne he, ht]

/-- What is done to another slot. -/
lemma others (hl : w'.listening = w.listening) (d : Fin n) (hd : ∀ c, p c → c ≠ d)
    (hconn : ∀ c, c ≠ d → w'.connection c = w.connection c)
    (hevent : ∀ ev : EventId n, ev.1 ≠ d → w'.event ev = w.event ev)
    (hset : ∀ ev : EventId n, ev.1 ≠ d → w'.timers.timerSet ev = w.timers.timerSet ev) :
    Leaves w w' p := by
  refine ⟨hl, fun c hc => ?_⟩
  have hne := hd c hc
  exact ⟨by rw [hconn c hne], by rw [hconn c hne]; exact id,
    by rw [hevent (c, .write) hne]; exact id, by rw [hevent (c, .write) hne]; exact id,
    by rw [hset (c, .write) hne]; exact id⟩

end Leaves

/-- The records that are marked ready. -/
lemma markReady_leaves {p : Fin n → Prop} {ev : EventId n} {f : Event n → Event n} {q : QueueId}
    {postEvents : Bool} {call : Option (EventId n)} (hev : ∀ c, p c → ev ≠ (c, .write))
    (hf : ∀ e, (f e).active = e.active ∧ (f e).posted = e.posted)
    (hrun : (if postEvents then do
        let w ← postEvent (w.setEvent ev f) ev q
        pure (.ready w none)
      else some (.ready (w.setEvent ev f) (some ev)) : Option (Dispatch n)) =
        some (.ready w' call)) : Leaves w w' p := by
  have hset : Leaves w (w.setEvent ev f) p := .setEvent w ev hf
  cases postEvents with
  | false =>
    obtain ⟨rfl, -⟩ := Dispatch.ready.inj (Option.some.inj hrun)
    exact hset
  | true =>
    obtain ⟨w₁, hpost, hw₁⟩ := Option.bind_eq_some_iff.mp hrun
    obtain ⟨rfl, -⟩ := Dispatch.ready.inj (Option.some.inj hw₁)
    refine hset.trans ?_
    rw [postEvent] at hpost
    split_ifs at hpost with hp
    · exact Option.some.inj hpost ▸ .refl _ p
    · obtain ⟨links, -, hlinks⟩ := Option.bind_eq_some_iff.mp hpost
      exact Option.some.inj hlinks ▸ .withPosted _ ev links (.inl hev)

lemma closeAcceptedConnection_connection (w : Worker n) (d : Fin n) :
    (closeAcceptedConnection w d).connection = (releaseConnection w d).connection := by
  unfold closeAcceptedConnection
  dsimp only
  split <;> rfl

/-- An accepted connection that is closed at once is no other connection's affair. -/
lemma closeAcceptedConnection_leaves {p : Fin n → Prop} {d : Fin n} (h : Consistent w free lists)
    (hd : InUse w.connection d) (hb : w.Blank d) (hp : ∀ c, p c → c ≠ d) :
    Leaves w (closeAcceptedConnection w d) p := by
  obtain ⟨-, -, hevent, htimers, hlistening, -⟩ := closeAcceptedConnection_spec h hd hb
  refine .others hlistening d hp (fun c hc => ?_) (fun ev _ => by rw [hevent])
    fun ev _ => by rw [htimers]
  rw [closeAcceptedConnection_connection]
  simp [releaseConnection, freeConnection, Worker.setConnection, Worker.close, hc]

lemma writeLowat_leaves {p : Fin n → Prop} {d : Fin n} {lowat : ℕ} {b ok : Bool}
    (hrun : writeLowat w (d, .write) lowat ok = some (b, w')) : Leaves w w' p := by
  rw [writeLowat] at hrun
  split_ifs at hrun
  · exact (Prod.mk.inj (Option.some.inj hrun)).2 ▸ .refl _ _
  · obtain ⟨e, -, hsend⟩ := Option.bind_eq_some_iff.mp hrun
    have hsend := Option.some.inj hsend
    unfold sendLowat at hsend
    split_ifs at hsend
    · exact (Prod.mk.inj hsend).2 ▸ .refl _ _
    · exact (Prod.mk.inj hsend).2 ▸ .setConnection _ e fun _ => ⟨rfl, rfl⟩
    · exact (Prod.mk.inj hsend).2 ▸ .refl _ _

/-- The calls of a handler leave alone what they spare. -/
lemma call_leaves {a : Call n} (h : Sound s free lists) (ha : s.AllowedCall a)
    (hlisten : ∀ c ok, a ≠ .listen c ok) (hrun : a.run s.worker = some w') :
    Leaves s.worker w' a.Spares := by
  have hcons := h.consistent
  -- each call makes one update: to something not spared (`.inl`), or one that clears a flag (`.inr`)
  cases a with
  | addTimer ev timer =>
    obtain ⟨T, hT, -, hset, -⟩ := addTimer_spec hcons ha timer
    obtain rfl := Option.some.inj (hT.symm.trans hrun)
    exact .timers _ hset (.inl fun c hc => hc)
  | delTimer ev =>
    obtain ⟨T, hT, -, hset, -⟩ := delTimer_spec hcons ha.1 ha.2
    obtain rfl := Option.some.inj (hT.symm.trans hrun)
    exact .timers _ hset (.inr rfl)
  | post ev q =>
    cases hp : (s.worker.event ev).posted with
    | true =>
      rw [Call.run, postEvent, if_pos hp] at hrun
      exact Option.some.inj hrun ▸ .refl _ _
    | false =>
      obtain ⟨links, hpost, -⟩ := postEvent_spec hcons ha hp q.2
      obtain rfl := Option.some.inj (hpost.symm.trans hrun)
      exact .withPosted _ ev links (.inl fun c hc => hc)
  | reusable d b =>
    obtain ⟨links, count, hreuse, -⟩ := reusableConnection_spec hcons ha b
    obtain rfl := Option.some.inj (hreuse.symm.trans hrun)
    exact .withReusable _ d b links count fun c hc => hc
  | close d =>
    by_cases hd : InUse s.worker.connection d
    · obtain ⟨T, links, count, hclose, -, hT⟩ := closeConnection_spec hcons hd
      obtain rfl := Option.some.inj (hclose.symm.trans hrun)
      -- only the slot that is closed changes, and that is not one of those spared
      refine .others rfl d (fun c hc => Ne.symm hc) (fun c hc => ?_) (fun ev hev => ?_) fun ev hev => ?_
      · simp [Worker.closed, hc]
      · simp [Worker.closed, closedEvents, hev]
      · exact (hT.1 ev).trans (if_neg hev)
    · obtain rfl := Option.some.inj ((closeConnection_closed hd).symm.trans hrun)
      exact .refl _ _
  | closeAccepted d =>
    obtain ⟨hd, hblank⟩ := h.obtained d ha
    exact Option.some.inj hrun ▸
      closeAcceptedConnection_leaves hcons hd hblank fun c hc => Ne.symm hc
  | addEvent ev edge ok =>
    obtain ⟨d, i⟩ := ev
    rcases epollAddEvent_spec hcons i ha edge ok with ⟨hadd, -⟩ | ⟨kernel, hadd, -⟩
    · rw [Call.run, hadd] at hrun
      exact Option.some.inj hrun ▸ .refl _ _
    · rw [Call.run, hadd] at hrun
      exact Option.some.inj hrun ▸ .withActive _ _ kernel (.inl fun c hc => hc)
  | delEvent ev edge ok =>
    obtain ⟨d, i⟩ := ev
    rcases epollDelEvent_spec hcons i ha edge ok with hdel | ⟨kernel, hdel, -⟩
    · rw [Call.run, hdel] at hrun
      exact Option.some.inj hrun ▸ .refl _ _
    · rw [Call.run, hdel] at hrun
      exact Option.some.inj hrun ▸ .withActive _ _ kernel (.inr rfl)
  | addConnection d ok =>
    obtain rfl := Option.some.inj hrun
    rcases epollAddConnection_spec hcons ha ok with hadd | ⟨kernel, hadd, -⟩
    · rw [hadd]
      exact .refl _ _
    · rw [hadd]
      exact .withBoth _ d kernel (.inl fun c hc => hc)
  | delConnection d ok =>
    obtain rfl := Option.some.inj hrun
    rcases epollDelConnection_spec hcons ha ok with hdel | ⟨kernel, hdel, -⟩
    · rw [hdel]
      exact .refl _ _
    · rw [hdel]
      exact .withBoth _ d kernel (.inr rfl)
  | handleRead d ok =>
    rw [Call.run, handleReadEvent] at hrun
    rcases addIfIdle_spec hcons .read ha ok with ⟨hadd, -⟩ | ⟨hadd, -⟩ | ⟨kernel, hadd, -⟩
    · rw [hadd] at hrun
      exact Option.some.inj hrun ▸ .refl _ _
    · rw [hadd] at hrun
      exact Option.some.inj hrun ▸ .refl _ _
    · rw [hadd] at hrun
      exact Option.some.inj hrun ▸ .withActive _ _ kernel (.inl fun c _ => by simp)
  | handleWrite d lowat lowatOk ok =>
    -- SO_SNDLOWAT is set first, and the event is added only if that went well
    obtain ⟨b, w₁, hlow, h₁, hq₁, -⟩ := writeLowat_spec hcons ha lowat lowatOk
    refine (writeLowat_leaves hlow).trans ?_
    rw [Call.run, handleWriteEvent, hlow] at hrun
    cases b with
    | false => exact Option.some.inj hrun ▸ .refl _ _
    | true =>
      simp only [Option.bind_eq_bind, Option.bind_some, Option.pure_def] at hrun
      rcases addIfIdle_spec h₁ .write ((hq₁.inUse d).mpr ha) ok with
        ⟨hadd, -⟩ | ⟨hadd, -⟩ | ⟨kernel, hadd, -⟩
      · rw [hadd] at hrun
        exact Option.some.inj hrun ▸ .refl _ _
      · rw [hadd] at hrun
        exact Option.some.inj hrun ▸ .refl _ _
      · rw [hadd] at hrun
        exact Option.some.inj hrun ▸ .withActive _ _ kernel
          (.inl fun c hc e => hc (Prod.mk.inj e).1)
  | enableAccept ok =>
    rcases enableAcceptEvents_spec hcons ok with ⟨b, hen⟩ | ⟨d, kernel, -, -, hen, -⟩
    · rw [Call.run, hen] at hrun
      exact Option.some.inj hrun ▸ .refl _ _
    · rw [Call.run, hen] at hrun
      exact Option.some.inj hrun ▸ .withActive _ _ kernel (.inl fun c _ => by simp)
  | disableAccept all ok =>
    rcases disableAcceptEvents_spec hcons all ok with ⟨b, hdis⟩ | ⟨d, kernel, -, -, hdis, -⟩
    · rw [Call.run, hdis] at hrun
      exact Option.some.inj hrun ▸ .refl _ _
    · rw [Call.run, hdis] at hrun
      exact Option.some.inj hrun ▸ .withActive _ _ kernel (.inr rfl)
  | listen d ok => exact absurd rfl (hlisten d ok)
  | writeEvent ev e =>
    obtain rfl := Option.some.inj hrun
    exact .setEvent _ ev fun _ => ⟨rfl, rfl⟩
  | writeConnection d r =>
    obtain rfl := Option.some.inj hrun
    exact .setConnection _ d fun _ => ⟨rfl, rfl⟩

lemma recordRead_leaves {p : Fin n → Prop} {r : Record n} {postEvents : Bool}
    {call : Option (EventId n)} (hread : (w.connection r.slot).read = (r.slot, .read))
    (hrun : recordRead w r postEvents = some (.ready w' call)) : Leaves w w' p := by
  rw [recordRead] at hrun
  simp only [hread] at hrun
  by_cases hstale : r.stale w (r.slot, .read) = true
  · rw [if_pos hstale] at hrun
    cases Option.some.inj hrun
  rw [if_neg hstale] at hrun
  by_cases hready : (r.wantsRead && (w.event (r.slot, .read)).active) = true
  · rw [if_pos hready] at hrun
    have hev : ∀ c, p c → (r.slot, Side.read) ≠ (c, .write) := fun c _ => by simp
    exact markReady_leaves (f := fun e => { e with
      ready := true
      pendingEof := e.pendingEof || r.epollrdhup
      available := true }) hev (fun _ => ⟨rfl, rfl⟩) hrun
  · rw [if_neg hready] at hrun
    cases Option.some.inj hrun

lemma recordWrite_leaves {r : Record n} {postEvents : Bool} {call : Option (EventId n)}
    (hwrite : (w.connection r.slot).write = (r.slot, .write))
    (hrun : recordWrite w r postEvents = some (.ready w' call)) : Leaves w w' (Tied w) := by
  rw [recordWrite] at hrun
  simp only [hwrite] at hrun
  by_cases hready : (r.wantsWrite && (w.event (r.slot, .write)).active) = true
  · rw [if_pos hready] at hrun
    by_cases hstale : r.stale w (r.slot, .write) = true
    · rw [if_pos hstale] at hrun
      cases Option.some.inj hrun
    rw [if_neg hstale] at hrun
    -- the write event of the listening connection is not active
    have hev : ∀ c, Tied w c → (r.slot, Side.write) ≠ (c, .write) := by
      intro c hc e
      rw [e, hc.active, Bool.and_false] at hready
      cases hready
    exact markReady_leaves (f := fun e => { e with ready := true }) hev (fun _ => ⟨rfl, rfl⟩) hrun
  · rw [if_neg hready] at hrun
    cases Option.some.inj hrun

/-- A round of a loop leaves the listening connection alone. -/
lemma round_leaves {f : Frame n} {st : List (Frame n)} (h : Sound s free lists)
    (hst : s.stack = f :: st) (hrun : s.round st f = some s') :
    Leaves s.worker s'.worker (Tied s.worker) := by
  have hcons := h.consistent
  cases f with
  | handler => cases hrun
  -- a loop over timers or posted events only clears the flag of the event it calls
  | expire =>
    rw [Config.round] at hrun
    rcases timersNext_spec hcons with hnext | ⟨ev, T, hnext, -, -, -, hset, -⟩
    · rw [hnext] at hrun
      exact Option.some.inj hrun ▸ .refl _ _
    · rw [hnext] at hrun
      exact Option.some.inj hrun ▸ .timers _ hset (.inr rfl)
  | posted q =>
    rw [Config.round] at hrun
    rcases postedNext_spec hcons q.2 with ⟨-, hnext⟩ | ⟨ev, l, links, -, -, hnext, -⟩
    · rw [hnext] at hrun
      exact Option.some.inj hrun ▸ .refl _ _
    · rw [hnext] at hrun
      exact Option.some.inj hrun ▸ .withPosted _ ev links (.inr rfl)
  | drain rounds =>
    cases rounds with
    | zero => exact Option.some.inj hrun ▸ .refl _ _
    | succ rounds =>
      rw [Config.round] at hrun
      rcases drainNext_spec hcons with ⟨-, hnext⟩ | ⟨d, l, -, -, hnext, -⟩
      · rw [hnext] at hrun
        exact Option.some.inj hrun ▸ .refl _ _
      · rw [hnext] at hrun
        exact Option.some.inj hrun ▸
          .setConnection _ d (f := fun r => { r with close := true }) fun _ => ⟨rfl, rfl⟩
  | get fd =>
    rw [Config.round] at hrun
    cases hpop : popConnection s.worker fd with
    | none =>
      rw [hpop] at hrun
      exact Option.some.inj hrun ▸ .refl _ _
    | some r =>
      obtain ⟨d, w₁⟩ := r
      rw [hpop] at hrun
      obtain rfl := Option.some.inj hrun
      -- the slot comes from the free list, and a listening connection is in use
      obtain ⟨hhead, hfree⟩ : s.worker.freeConnections = some d ∧ ¬ InUse s.worker.connection d := by
        rw [popConnection, Option.map_eq_some_iff] at hpop
        obtain ⟨e, he, hpop⟩ := hpop
        rw [(Prod.mk.inj hpop).1] at he
        have hchain := hcons.slots.chain
        rw [he] at hchain
        cases free with
        | nil => cases hchain
        | cons d' l =>
          obtain rfl : d = d' := Option.some.inj hchain.1
          exact ⟨he, (hcons.slots.mem_free d).mp (.head _)⟩
      rw [popConnection_eq hcons.slots hhead] at hpop
      obtain rfl := (Prod.mk.inj (Option.some.inj hpop)).2
      refine .others rfl d (fun c hc e => hfree (e ▸ hc.inUse)) (fun c hc => ?_)
        (fun ev hev => ?_) fun ev hev => ?_
      · simp [Worker.taken, hc]
      · simp [Worker.taken, hev]
      · simp [Worker.taken, hev]
  | batch rs postEvents =>
    cases rs with
    | nil => exact Option.some.inj hrun ▸ .refl _ _
    | cons r rs =>
      rw [Config.round] at hrun
      -- a record is skipped, has no read part, or sets the read event
      rcases recordRead_spec hcons r.1 postEvents with hrec | hrec | ⟨w', call, hrec, -⟩
      · rw [hrec] at hrun
        exact Option.some.inj hrun ▸ .refl _ _
      · rw [hrec] at hrun
        exact Option.some.inj hrun ▸ .refl _ _
      · have hleaves := recordRead_leaves (p := Tied s.worker) (hcons.slots.read _) hrec
        rw [hrec] at hrun
        cases call with
        | none => exact Option.some.inj hrun ▸ hleaves
        | some ev => exact Option.some.inj hrun ▸ hleaves
  | batchWrite r rs postEvents =>
    rw [Config.round] at hrun
    rcases recordWrite_spec hcons r.1 postEvents with hrec | hrec | ⟨w', call, hrec, -⟩
    · rw [hrec] at hrun
      exact Option.some.inj hrun ▸ .refl _ _
    · rw [hrec] at hrun
      exact Option.some.inj hrun ▸ .refl _ _
    · have hleaves := recordWrite_leaves (hcons.slots.write _) hrec
      rw [hrec] at hrun
      cases call with
      | none => exact Option.some.inj hrun ▸ hleaves
      | some ev => exact Option.some.inj hrun ▸ hleaves

/-- A step that makes no listening connection. -/
lemma step_leaves {a : Label n} (h : Sound s free lists) (ha : s.Allowed a)
    (hlisten : ∀ c ok, a ≠ .call (.listen c ok)) (hstep : s.step a = some s') :
    Leaves s.worker s'.worker fun c => Tied s.worker c ∧ ∀ b, a = .call b → b.Spares c := by
  cases a with
  | call b =>
    obtain ⟨w', hrun, hs'⟩ := Option.bind_eq_some_iff.mp hstep
    obtain rfl := Option.some.inj hs'
    refine (call_leaves h ha.2 (fun c ok e => hlisten c ok (e ▸ rfl)) hrun).mono fun c hc => ?_
    exact hc.2 b rfl
  | next =>
    have hnext : s.next = some s' := hstep
    rw [Config.next] at hnext
    cases hst : s.stack with
    | nil =>
      rw [hst] at hnext
      cases hnext
    | cons f st =>
      rw [hst] at hnext
      exact (round_leaves h hst hnext).mono fun c hc => hc.1
  | getConnection fd => exact Option.some.inj hstep ▸ ⟨rfl, fun c _ => ⟨rfl, id, id, id, id⟩⟩
  | clock now => exact Option.some.inj hstep ▸ ⟨rfl, fun c _ => ⟨rfl, id, id, id, id⟩⟩
  | drainConnections => exact Option.some.inj hstep ▸ .refl _ _
  | expireTimers => exact Option.some.inj hstep ▸ .refl _ _
  | processPosted q => exact Option.some.inj hstep ▸ .refl _ _
  | processEvents reports postEvents => exact Option.some.inj hstep ▸ .refl _ _
  | ret => exact Option.some.inj hstep ▸ .refl _ _

lemma epollAddEvent_leaves {p : Fin n → Prop} {ev : EventId n} {i : Side} {edge b ok : Bool}
    (hev : ∀ c, p c → ev ≠ (c, .write)) (hrun : epollAddEvent w ev i edge ok = some (b, w')) :
    Leaves w w' p := by
  obtain ⟨d, -, hrun⟩ := Option.bind_eq_some_iff.mp hrun
  dsimp only at hrun
  split at hrun
  · exact (Prod.mk.inj (Option.some.inj hrun)).2 ▸ .refl _ _
  · exact (Prod.mk.inj (Option.some.inj hrun)).2 ▸ .withActive _ _ _ (.inl hev)

/-- The new connection becomes the listening one. -/
lemma listenOn_tied {ok b : Bool} (hread : (w.connection c).read = (c, .read))
    (hc : InUse w.connection c) (hb : w.Blank c) (hfd : (w.connection c).fd = w.listening.fd)
    (hrun : listenOn w c ok = some (b, w')) :
    w'.listening.connection = some c ∧ Tied w' c := by
  have hmade : ∀ w₁, w₁ = ({ w with listening :=
      { w.listening with connection := some c } } : Worker n).setEvent (c, .read) (fun e =>
      { e with accept := true, deferredAccept := w.listening.deferredAccept
               handler := .eventAccept }) → Leaves w₁ w' (fun _ => True) →
      w'.listening.connection = some c ∧ Tied w' c := by
    intro w₁ hw₁ hleaves
    have ht : Tied w₁ c := by
      subst hw₁
      refine ⟨hc, hfd, hb.reusable, ?_, ?_, hb.timerSet .write⟩
      · simpa [Worker.setEvent] using hb.active .write
      · simpa [Worker.setEvent] using hb.posted .write
    have hconn : w₁.listening.connection = some c := by
      subst hw₁
      rfl
    exact ⟨by rw [hleaves.listening, hconn], ht.keeps (hleaves.keeps c trivial) hleaves.listening⟩
  refine hmade _ rfl ?_
  have hev : ∀ d, True → (c, Side.read) ≠ (d, .write) := fun d _ => by simp
  rw [listenOn] at hrun
  simp only [hread] at hrun
  split_ifs at hrun
  · exact epollAddEvent_leaves hev hrun
  · exact (Prod.mk.inj (Option.some.inj hrun)).2 ▸ .refl _ _
  · exact epollAddEvent_leaves hev hrun

/-! ## Runs -/

/-- The invariant of a run: the state is sound, and the listening connection is tied to the
listening socket until this is closed. -/
structure Anchored (s : Config n) : Prop where
  sound : ∃ free lists, Sound s free lists
  tied : s.worker.listening.fd ≠ -1 → ∀ c, s.worker.listening.connection = some c → Tied s.worker c

lemma Anchored.worker {a : Label n} (h : Anchored s) (ha : s.Allowed a) (hp : s.Proper a)
    (hstep : s.step a = some s') : Anchored s' := by
  obtain ⟨⟨free, lists, hs⟩, htied⟩ := h
  have hsound : ∃ free lists, Sound s' free lists := by
    obtain ⟨s₁, hrun, free', lists', hs', -⟩ := hs.step ha
    obtain rfl := Option.some.inj (hrun.symm.trans hstep)
    exact ⟨free', lists', hs'⟩
  refine ⟨hsound, fun hopen d hd => ?_⟩
  by_cases hlisten : ∃ c ok, a = .call (.listen c ok)
  · obtain ⟨c, ok, rfl⟩ := hlisten
    obtain ⟨hc, hb⟩ := hs.obtained c ha.2
    obtain ⟨w', hrun, hs'⟩ := Option.bind_eq_some_iff.mp hstep
    obtain rfl := Option.some.inj hs'
    obtain ⟨⟨b, w₁⟩, hlisten, rfl⟩ := Option.map_eq_some_iff.mp hrun
    obtain ⟨hconn, ht⟩ := listenOn_tied (hs.consistent.slots.read c) hc hb (hp.1 c rfl) hlisten
    obtain rfl := Option.some.inj (hconn.symm.trans hd)
    exact ht
  · have hleaves := step_leaves hs ha (fun c ok e => hlisten ⟨c, ok, e⟩) hstep
    have hopen' : s.worker.listening.fd ≠ -1 := hleaves.listening ▸ hopen
    have hd' : s.worker.listening.connection = some d := hleaves.listening ▸ hd
    have ht := htied hopen' d hd'
    refine ht.keeps (hleaves.keeps d ⟨ht, fun b hb => ?_⟩) hleaves.listening
    subst hb
    exact hp.2 d ⟨hd', hopen', ht.fd⟩

/-- A settled listening connection is closed. -/
lemma Sound.shut (hs : Sound s free lists) (ht : Tied s.worker c)
    (hc : s.worker.listening.connection = some c) (hset : Settled s.worker c) :
    s.shutStep .closeListening = some (s.goOn (s.worker.shut c) s.stack [.closed c]) ∧
      ∃ free lists, Sound (s.goOn (s.worker.shut c) s.stack [.closed c]) free lists := by
  obtain ⟨hcons, hfrees⟩ := shut_consistent hs.consistent ht hset
  have hlists : withoutConnection lists c = lists := by
    refine withoutConnection_of_idle hs.consistent (fun i => ?_) ht.reusable
    cases i with
    | read => exact hset.posted
    | write => exact ht.posted
  refine ⟨?_, ?_⟩
  · rw [Config.shutStep, closeListeningSockets_eq (hs.consistent.slots.read c) hc, hc]
    rfl
  · obtain ⟨free', lists', hs', -⟩ := hs.close ht.inUse hcons hfrees
      (fun d => by by_cases hd : d = c <;> simp [Config.bit, Worker.shut, hd])
      (by rw [ht.fd]; rfl) fun q _ => (congrFun hlists q).symm
    exact ⟨free', lists', hs'⟩

lemma Anchored.close (h : Anchored s) (hc : s.worker.listening.connection = some c)
    (hset : Settled s.worker c) (hstep : s.shutStep .closeListening = some s') : Anchored s' := by
  obtain ⟨⟨free, lists, hs⟩, htied⟩ := h
  obtain ⟨hrun, hsound⟩ := hs.shut (htied hset.fd c hc) hc hset
  obtain rfl := Option.some.inj (hrun.symm.trans hstep)
  exact ⟨hsound, fun hopen => absurd rfl hopen⟩

/-- The states of the runs whose calls of `close_listening_sockets` find the listening connection
settled. -/
def SettledRuns (s : Config n) : Prop :=
  (shutMachine n).Reach (Config.AllowedShut fun s =>
    ∃ c ∈ s.worker.listening.connection, Settled s.worker c) s

lemma SettledRuns.anchored (h : SettledRuns s) : Anchored s := by
  refine h.invariant (fun s hs => ?_) fun s a s' hs ha hstep => ?_
  · refine ⟨⟨_, _, start_sound hs⟩, fun _ c hc => ?_⟩
    obtain ⟨w, -, hlisten, rfl⟩ := hs
    have hc' : w.listening.connection = some c := hc
    rw [hlisten] at hc'
    cases hc'
  · cases a with
    | worker a => exact hs.worker ha.1 ha.2 hstep
    | closeListening =>
      obtain ⟨-, c, hc, hset⟩ := ha
      exact hs.close hc hset hstep

/-- In a settled call the read event is found in no structure, and the slot is free once. -/
lemma Settled.closesCleanly (hs : Settled w c) (h : Consistent w free lists) (ht : Tied w c)
    (hc : w.listening.connection = some c) : ClosesCleanly w c := by
  obtain ⟨h', -⟩ := shut_consistent h ht hs
  refine ⟨_, closeListeningSockets_eq (h.slots.read c) hc, ?_⟩
  rw [if_neg hs.fd]
  constructor
  · intro hin
    have hset := ((inTree_iff h'.timers).mp hin).2
    rw [show (w.shut c).timers = w.timers from rfl, hs.timerSet] at hset
    cases hset
  · intro q _ hin
    have hmem := (inQueue_iff h'.queues fun q => by simp).mp hin
    have hflag : Flagged (w.shut c).connection (w.shut c).event (.event (c, .read)) :=
      (h'.queues.flagged _).mpr ⟨q, hmem⟩
    have hposted := hflag.2
    simp [Worker.shut, hs.posted] at hposted
  · refine ⟨c :: free, h'.slots.chain, h'.slots.length, ?_⟩
    exact List.count_eq_one_of_mem h'.slots.nodup (.head _)

/-- A clean call was settled: a second one frees the slot again, and what was armed or posted
still is. -/
lemma ClosesCleanly.settled (hclean : ClosesCleanly w c) (h : Consistent w free lists)
    (ht : w.listening.fd ≠ -1 → Tied w c) (hc : w.listening.connection = some c) :
    Settled w c := by
  obtain ⟨w', hrun, hdone⟩ := hclean
  rw [closeListeningSockets_eq (h.slots.read c) hc] at hrun
  obtain rfl := Option.some.inj hrun
  by_cases hfd : w.listening.fd = -1
  · rw [if_pos hfd] at hdone
    have hcount : w.freeConnectionN + 1 = w.freeConnectionN := hdone.count
    omega
  rw [if_neg hfd] at hdone
  refine ⟨hfd, ?_, ?_⟩
  · by_contra harmed
    refine hdone.timer ((inTree_iff h.timers).mpr ⟨(ht hfd).inUse, ?_⟩ : InTree w (c, .read))
    simpa using harmed
  · by_contra hposted
    have hflag : Flagged w.connection w.event (.event (c, .read)) :=
      ⟨(ht hfd).inUse, by simpa using hposted⟩
    obtain ⟨q, hmem⟩ := (h.queues.flagged _).mp hflag
    have hq : q ≠ .reusable := by
      rintro rfl
      exact h.queues.takes _ _ hmem
    exact hdone.posted q hq ((inQueue_iff h.queues fun q => by simp).mpr hmem :
      InQueue w q (.event (c, .read)))

/-- In the runs that close a settled listening connection the structures stay well formed, and a
call of `close_listening_sockets` is clean where the listening connection is settled, nowhere
else. -/
theorem closeListeningSockets_cleanly (h : SettledRuns s) :
    (∃ free lists, Consistent s.worker free lists) ∧
      ∀ c, s.worker.listening.connection = some c →
        (ClosesCleanly s.worker c ↔ Settled s.worker c) := by
  have hs := h.anchored
  obtain ⟨free, lists, hsound⟩ := hs.sound
  have hcons := hsound.consistent
  refine ⟨⟨free, lists, hcons⟩, fun c hc => ⟨fun hclean => ?_, fun hset => ?_⟩⟩
  · exact hclean.settled hcons (fun hopen => hs.tied hopen c hc) hc
  · exact hset.closesCleanly hcons (hs.tied hset.fd c hc) hc

/-- A worker whose listening socket is descriptor 3. -/
def Config.listening (n : ℕ) : Config n where
  worker := openTable (initCycle { Worker.zeroed n with
    listening := ⟨3, none, false, false, false, false, 300⟩ })
  stack := []
  obtained := none
  trace := []

lemma listening_start (n : ℕ) : (Config.listening n).Start := ⟨_, rfl, rfl, rfl⟩

/-- A run that makes the listening connection and takes its accept event out and in. -/
def listenRun : List (ShutLabel 2) :=
  [.worker (.getConnection 3), .worker .next, .worker (.call (.listen slot₀ true)),
    .worker (.call (.disableAccept true true)), .worker (.call (.enableAccept true))]

theorem closeListeningSockets_cleanly_listenRun :
    ∃ s, (shutMachine 2).run (Config.AllowedShut fun s =>
        ∃ c ∈ s.worker.listening.connection, Settled s.worker c) (.listening 2) listenRun = some s ∧
      Settled s.worker 0 ∧ ClosesCleanly s.worker 0 := by
  have hrun : ((shutMachine 2).run (Config.AllowedShut fun s =>
      ∃ c ∈ s.worker.listening.connection, Settled s.worker c) (.listening 2) listenRun).any (fun s =>
        s.worker.listening.connection = some 0 ∧ Settled s.worker 0) := by
    decide +kernel
  obtain ⟨s, hs, hat⟩ := (Option.any_eq_true _ _).mp hrun
  obtain ⟨hc, hset⟩ := of_decide_eq_true hat
  have hruns : SettledRuns s := Machine.Reach.run (.init (listening_start 2)) hs
  exact ⟨s, hs, hset, ((closeListeningSockets_cleanly hruns).2 0 hc).mpr hset⟩

/-- A second call frees the slot of the listening connection again. -/
theorem closeListeningSockets_twice :
    ¬ ∀ s : Config 2, (shutMachine 2).Reach (Config.AllowedShut fun _ => True) s →
      ∀ c, s.worker.listening.connection = some c → ClosesCleanly s.worker c := by
  intro hall
  have hrun : ((shutMachine 2).run (Config.AllowedShut fun _ => True) (.listening 2)
      (listenRun ++ [.closeListening])).any (fun s => s.worker.listening.connection = some 0 ∧
        s.worker.listening.fd = -1 ∧ (closeListeningSockets s.worker).all (fun w' =>
          w'.freeConnectionN ≠ s.worker.freeConnectionN)) := by
    decide +kernel
  obtain ⟨s, hs, hat⟩ := (Option.any_eq_true _ _).mp hrun
  obtain ⟨hc, hfd, hcount⟩ := of_decide_eq_true hat
  obtain ⟨w', hclose, hdone⟩ := hall s (Machine.Reach.run (.init (listening_start 2)) hs) 0 hc
  rw [hclose] at hcount
  rw [if_pos hfd] at hdone
  exact of_decide_eq_true hcount hdone.count

end Libcn.Cycle
