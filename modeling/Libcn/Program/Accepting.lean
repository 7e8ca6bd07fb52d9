import Libcn.Program.Draining

/-!
# What `event_accept` does

A round of `event_accept` that gets a slot gives it back at once, serves a new client on it, or
closes the new connection because the kernel does not watch it.
-/

namespace Libcn.Program

open Libcn.Lib Libcn.Lib.Links Libcn.Queue Libcn.Rbtree Libcn.Timer Libcn.Cycle

variable {n : ℕ} {w₀ w w' : Worker n} {free : List (Fin n)} {lists : QueueId → List (Node n)}
  {c lc : Fin n} {s : ℤ}

/-! ## A slot that was just taken -/

/-- The slot `c` was free in `w₀`, is in use in `w`, and is in no structure yet. -/
structure Fresh (w₀ w : Worker n) (c : Fin n) : Prop extends Same w₀ w c where
  consistent : ∃ free lists, Consistent w free lists
  free : ¬ InUse w₀.connection c
  inUse : InUse w.connection c
  blank : w.Blank c
  buffer : (w.connection c).buffer = none
  sent : (w.connection c).sent = 0

/-- A slot that was free is not that of the listening connection. -/
lemma Fresh.ne (h : Fresh w₀ w c) (hw : Steady w₀ lc) : c ≠ lc := by
  rintro rfl
  exact h.free hw.inUse

/-- `get_connection` clears the slot. -/
lemma fresh_taken (hcons : Consistent (w₀.taken c s) free lists)
    (hnot : ¬ InUse w₀.connection c) (hblank : (w₀.taken c s).Blank c)
    (hc : InUse (w₀.taken c s).connection c) : Fresh w₀ (w₀.taken c s) c where
  toSame := .taken w₀ c s
  consistent := ⟨free, lists, hcons⟩
  free := hnot
  inUse := hc
  blank := hblank
  buffer := by simp [Worker.taken, Connection.zeroed]
  sent := by simp [Worker.taken, Connection.zeroed]

/-- A write to an event of the slot that keeps it out of all structures. -/
lemma Fresh.setEvent (h : Fresh w₀ w c) (i : Side) {f : Event n → Event n}
    (hf : ∀ e, (f e).data = e.data ∧ (f e).instanceBit = e.instanceBit ∧
      (f e).active = e.active ∧ (f e).posted = e.posted) :
    Fresh w₀ (w.setEvent (c, i) f) c := by
  obtain ⟨free, lists, hcons⟩ := h.consistent
  have hkeep : ∀ j, ((w.setEvent (c, i) f).event (c, j)).active = (w.event (c, j)).active ∧
      ((w.setEvent (c, i) f).event (c, j)).posted = (w.event (c, j)).posted := by
    intro j
    by_cases hj : j = i
    · subst hj
      simp [Worker.setEvent, hf]
    · simp [Worker.setEvent, hj]
  exact
    { toSame := h.toSame.trans (.setEvent w c i f)
      consistent := ⟨free, lists, hcons.setEvent _ hf⟩
      free := h.free
      inUse := h.inUse
      blank := ⟨h.blank.timerSet, fun j => (hkeep j).2.trans (h.blank.posted j),
        fun j => (hkeep j).1.trans (h.blank.active j), h.blank.reusable⟩
      buffer := h.buffer
      sent := h.sent }

/-- `close_accepted_connection` gives the slot and the pool back. -/
lemma Fresh.closeAccepted (h : Fresh w₀ w c) (hw : Steady w₀ lc) :
    Steady (closeAcceptedConnection w c) lc ∧ Same w₀ (closeAcceptedConnection w c) c ∧
      clientOf (closeAcceptedConnection w c) = clientOf w₀ ∧
      (closeAcceptedConnection w c).statActive = w.statActive - 1 ∧
      (closeAcceptedConnection w c).pools = match (w.connection c).pool with
        | none => w.pools
        | some pool => w.pools.erase pool := by
  obtain ⟨free, lists, hcons⟩ := h.consistent
  obtain ⟨hcons', hfrees, hevent, htimers, hlistening, -⟩ :=
    closeAcceptedConnection_spec hcons h.inUse h.blank
  have hpool : ((releaseConnection w c).connection c).pool = (w.connection c).pool := by
    simp [releaseConnection, freeConnection, Worker.setConnection, Worker.close]
  have hparts : (closeAcceptedConnection w c).connection = (releaseConnection w c).connection ∧
      (closeAcceptedConnection w c).useAcceptMutex = w.useAcceptMutex ∧
      (closeAcceptedConnection w c).statActive = w.statActive - 1 ∧
      (closeAcceptedConnection w c).pools = match (w.connection c).pool with
        | none => w.pools
        | some pool => w.pools.erase pool := by
    rw [closeAcceptedConnection, ← hpool]
    cases ((releaseConnection w c).connection c).pool with
    | none => exact ⟨rfl, rfl, rfl, rfl⟩
    | some pool => exact ⟨rfl, rfl, rfl, rfl⟩
  obtain ⟨hconn, hmutex, hact, hpools⟩ := hparts
  have hs : Same w (closeAcceptedConnection w c) c :=
    { connection := fun d hd => by
        rw [hconn]
        simp [releaseConnection, freeConnection, Worker.setConnection, Worker.close, hd]
      event := fun d i _ => by rw [hevent]
      timerSet := fun d i _ => by rw [htimers]
      timedout := fun d i _ => by rw [htimers]
      listening := hlistening
      mutex := hmutex }
  have hs' := h.toSame.trans hs
  have hnot : ¬ InUse (closeAcceptedConnection w c).connection c := by
    rw [InUse, hfrees.1]
    simp
  refine ⟨hw.same hs' hcons' (fun hu => absurd hu hnot) fun e => absurd e (h.ne hw), hs', ?_, hact,
    hpools⟩
  rw [hs'.client_eq (clientOf_of_not fun hu => hnot hu.1),
    ← clientOf_of_not (w := w₀) fun hu => h.free hu.1, Function.update_eq_self]

/-! ## `callback` -/

/-- A slot serves a new client. -/
structure Admitted (w₀ w w' : Worker n) (c lc : Fin n) (pool : ℕ) (deferred : Bool) : Prop where
  steady : Steady w' lc
  same : Same w₀ w' c
  serving : Serving w' c
  client : clientAt w' c = .accepted pool deferred
  statActive : w'.statActive = w.statActive
  pools : w'.pools = w.pools

lemma setHandlers_eq (h : Consistent w free lists) (c : Fin n) : setHandlers w c =
    (w.setEvent (c, .read) fun e => { e with handler := .myread }).setEvent (c, .write) fun e =>
      { e with handler := .mywrite } := by
  rw [setHandlers, h.slots.read, h.slots.write]

/-- `callback` sets the handlers of a fresh slot. -/
lemma Fresh.setHandlers (h : Fresh w₀ w c) :
    Fresh w₀ (setHandlers w c) c ∧ Same w (setHandlers w c) c ∧
      ((setHandlers w c).event (c, .read)).ready = (w.event (c, .read)).ready ∧
      ((setHandlers w c).event (c, .read)).handler = .myread := by
  obtain ⟨free, lists, hcons⟩ := h.consistent
  rw [setHandlers_eq hcons]
  refine ⟨(h.setEvent .read (f := fun e => { e with handler := .myread })
    fun _ => ⟨rfl, rfl, rfl, rfl⟩).setEvent .write (f := fun e => { e with handler := .mywrite })
    fun _ => ⟨rfl, rfl, rfl, rfl⟩, (Same.setEvent w c .read _).trans (Same.setEvent _ c .write _),
    ?_, ?_⟩
  · simp [Worker.setEvent]
  · simp [Worker.setEvent]

/-- What is known of the client of a fresh slot. -/
lemma Fresh.client (h : Fresh w₀ w c) : clientAt w c =
    { watched := false, timed := false, buffer := none, sent := 0
      pool := (w.connection c).pool } := by
  simp only [clientAt, h.blank.active, h.blank.timerSet, h.buffer, h.sent]

/-- A fresh slot that has its handler, and whose read event was put into some structures. -/
lemma Fresh.steady (h : Fresh w₀ w c) (hw : Steady w₀ lc) (hs : Same w w' c)
    (hcons : Consistent w' free lists) (hc : InUse w'.connection c)
    (hhandler : (w'.event (c, .read)).handler = .myread)
    (hactive : (w'.event (c, .write)).active = false)
    (hposted : (w'.event (c, .write)).posted = false)
    (hset : w'.timers.timerSet (c, .write) = false) : Steady w' lc ∧ Serving w' c := by
  have hst := hw.same (h.toSame.trans hs) hcons
    (fun _ => ⟨hhandler.trans (if_neg (h.ne hw)).symm, fun e => absurd e (h.ne hw), hactive,
      hposted, hset⟩) fun _ => hc
  exact ⟨hst, (hst.serving_iff c).mpr ⟨hc, h.ne hw⟩⟩

/-- `event_add_timer` on the read event of a fresh slot. -/
lemma Fresh.addTimer (h : Fresh w₀ w c) (timer : BitVec 64) :
    ∃ w₁ free lists, addTimer w (c, .read) timer = some w₁ ∧ Consistent w₁ free lists ∧
      Same w w₁ c ∧ w₁.connection = w.connection ∧ w₁.event = w.event ∧
      w₁.statActive = w.statActive ∧ w₁.pools = w.pools ∧
      w₁.timers.timerSet (c, .read) = true ∧ w₁.timers.timerSet (c, .write) = false := by
  obtain ⟨free, lists, hcons⟩ := h.consistent
  have hc : InUse w.connection (c, Side.read).1 := h.inUse
  obtain ⟨T, hrun, hcons', hset, hout, -⟩ := addTimer_spec hcons hc timer
  refine ⟨_, free, lists, hrun, hcons', .timers w c .read hset fun d j _ => congrFun hout (d, j),
    rfl, rfl, rfl, rfl, ?_, ?_⟩
  · show T.timerSet (c, .read) = true
    simp [hset]
  · show T.timerSet (c, .write) = false
    simpa [hset] using h.blank.timerSet .write

/-- `callback` for a connection that is ready: its read event is posted. -/
lemma callback_ready (h : Fresh w₀ w c) (hw : Steady w₀ lc) {pool : ℕ}
    (hpool : (w.connection c).pool = some pool) (hready : (w.event (c, .read)).ready = true)
    (ok : Bool) :
    ∃ w', callback w c ok = some (false, w') ∧ Admitted w₀ w w' c lc pool true := by
  obtain ⟨h₁, hs₁, hready₁, hhandler⟩ := h.setHandlers
  have hmutex : (setHandlers w c).useAcceptMutex = true := h₁.mutex.trans hw.mutex
  obtain ⟨free, lists, hcons₁⟩ := h₁.consistent
  obtain ⟨w₂, free₂, lists₂, htimer, hcons₂, hs₂, hconn, hevent, hact, hpools, hset, hidle⟩ :=
    h₁.addTimer (setHandlers w c).listening.postAcceptTimeout
  have hc₂ : InUse w₂.connection (c, Side.read).1 := by
    rw [hconn]
    exact h₁.inUse
  obtain ⟨links, hpost, hcons₃⟩ := postEvent_spec hcons₂ hc₂
    (by rw [hevent]; exact h₁.blank.posted .read) (q := .posted) (by simp)
  have hs₃ := hs₂.trans (.withPosted w₂ c .read true links)
  obtain ⟨hst, hserve⟩ := h₁.steady hw hs₃ hcons₃ hc₂
    (by simpa [Worker.withPosted, Worker.setEvent, hevent] using hhandler)
    (by simpa [Worker.withPosted, Worker.setEvent, hevent] using h₁.blank.active .write)
    (by simpa [Worker.withPosted, Worker.setEvent, hevent] using h₁.blank.posted .write) hidle
  refine ⟨_, ?_, hst, h.toSame.trans (hs₁.trans hs₃), hserve, ?_, hact, hpools⟩
  · rw [callback]
    simp only [hcons₁.slots.read, hready₁, hready, if_true, hmutex, htimer, Option.bind_eq_bind,
      Option.bind_some, hpost]
    rfl
  · have hclient : clientAt (w₂.withPosted (c, .read) true links) c =
        { clientAt (setHandlers w c) c with timed := true } := by
      simp [clientAt, Worker.withPosted, Worker.setEvent, hset, hconn, hevent]
    rw [hclient, h₁.client, show ((setHandlers w c).connection c).pool = some pool from hpool]
    rfl

/-- `callback` for a connection that is not ready: the kernel grants to watch it, or it is
closed. -/
lemma callback_wait (h : Fresh w₀ w c) (hw : Steady w₀ lc) {pool : ℕ}
    (hpool : (w.connection c).pool = some pool) (hready : (w.event (c, .read)).ready = false)
    (ok : Bool) :
    ∃ w', callback w c ok = some (false, w') ∧ ((ok = true ∧ Admitted w₀ w w' c lc pool false) ∨
      (ok = false ∧ Steady w' lc ∧ Same w₀ w' c ∧ clientOf w' = clientOf w₀ ∧
        w'.statActive = w.statActive ∧ w'.pools = w.pools)) := by
  obtain ⟨h₁, hs₁, hready₁, hhandler⟩ := h.setHandlers
  obtain ⟨free, lists, hcons₁⟩ := h₁.consistent
  obtain ⟨w₂, free₂, lists₂, htimer, hcons₂, hs₂, hconn, hevent, hact, hpools, hset, hidle⟩ :=
    h₁.addTimer (setHandlers w c).listening.postAcceptTimeout
  have hc₂ : InUse w₂.connection c := by
    rw [hconn]
    exact h₁.inUse
  obtain ⟨links, count, hreuse, hcons₃⟩ := reusableConnection_spec hcons₂ hc₂ true
  have hs₃ := hs₂.trans (.withReusable w₂ c true links count)
  have hc₃ : InUse (w₂.withReusable c true links count).connection c := by
    simpa [InUse, Worker.withReusable, Worker.setConnection] using hc₂
  have hev₃ : (w₂.withReusable c true links count).event = (setHandlers w c).event := hevent
  obtain ⟨h₃, hserve⟩ := h₁.steady hw hs₃ hcons₃ hc₃ (by rw [hev₃, hhandler])
    (by rw [hev₃, h₁.blank.active]) (by rw [hev₃, h₁.blank.posted]) hidle
  have hclient : clientAt (w₂.withReusable c true links count) c =
      { clientAt (setHandlers w c) c with timed := true } := by
    simp [clientAt, Worker.withReusable, Worker.setConnection, hset, hconn, hevent]
  obtain ⟨kernel, hadd, hcons₄, -⟩ := handleReadEvent_spec hcons₃ hc₃
    (by rw [hev₃, hready₁, hready]) ok
  rw [show ((w₂.withReusable c true links count).event (c, .read)).active = false by
    rw [hev₃, h₁.blank.active], Bool.false_or] at hadd hcons₄
  have hs₄ := Stays.withActive (w₂.withReusable c true links count) c ok kernel
  have hrun : callback w c ok =
      (if ok then some ((w₂.withReusable c true links count).withActive (c, .read) ok kernel)
        else closeConnection ((w₂.withReusable c true links count).withActive (c, .read) ok kernel)
          c).bind fun w => some (false, w) := by
    rw [callback, awaitInput]
    simp only [hcons₁.slots.read, hready₁, hready, htimer, Option.bind_eq_bind, Option.bind_some,
      hreuse, hadd, Bool.false_eq_true, if_false]
    cases ok <;> rfl
  rw [hrun]
  cases ok with
  | true =>
    refine ⟨_, rfl, .inl ⟨rfl, hs₄.steady h₃ hcons₄,
      h.toSame.trans ((hs₁.trans hs₃).trans hs₄.toSame), (hs₄.serving_iff c).mpr hserve, ?_, hact,
      hpools⟩⟩
    have hwatched : clientAt ((w₂.withReusable c true links count).withActive (c, .read) true
        kernel) c = { clientAt (w₂.withReusable c true links count) c with watched := true } := by
      simp [clientAt, Worker.withActive, Worker.setEvent]
    rw [hwatched, hclient, h₁.client,
      show ((setHandlers w c).connection c).pool = some pool from hpool]
    rfl
  | false =>
    obtain ⟨T, links', count', hclose, -⟩ :=
      closeConnection_spec hcons₄ ((hs₄.serving_iff c).mpr hserve).1
    obtain ⟨h₅, hs₅, -, hact₅, hpools₅, -, -, hgone⟩ :=
      h₃.closeConnection hserve hs₄ hcons₄ hclose
    have hs := h.toSame.trans ((hs₁.trans hs₃).trans hs₅)
    refine ⟨_, by rw [if_neg Bool.false_ne_true, hclose]; rfl, .inr ⟨rfl, h₅, hs, ?_, hact₅.trans hact,
      hpools₅.trans hpools⟩⟩
    rw [hs.client_eq (clientOf_of_not fun hu => hgone hu.1),
      ← clientOf_of_not (w := w₀) fun hu => h.free hu.1, Function.update_eq_self]

/-! ## `event_accept` -/

/-- The counter and the pools are not part of the invariant. -/
lemma Fresh.counters (h : Fresh w₀ w c) (statActive : ℤ) (pools : List ℕ) :
    Fresh w₀ { w with statActive := statActive, pools := pools } c := by
  obtain ⟨free, lists, hcons⟩ := h.consistent
  exact
    { toSame := ⟨h.connection, h.event, h.timerSet, h.timedout, h.listening, h.mutex⟩
      consistent := ⟨free, lists, hcons.slots, hcons.timers, hcons.queues, hcons.interests,
        hcons.accept⟩
      free := h.free
      inUse := h.inUse
      blank := ⟨h.blank.timerSet, h.blank.posted, h.blank.active, h.blank.reusable⟩
      buffer := h.buffer
      sent := h.sent }

/-- The connection gets its pool. -/
lemma Fresh.setPool (h : Fresh w₀ w c) (pool : Option ℕ) :
    Fresh w₀ (w.setConnection c fun r => { r with pool := pool }) c := by
  obtain ⟨free, lists, hcons⟩ := h.consistent
  exact
    { toSame := h.toSame.trans (.setConnection w c _)
      consistent := ⟨free, lists, hcons.setConnection c (f := fun r => { r with pool := pool })
        (.inr rfl) fun _ => ⟨rfl, rfl, rfl, rfl, rfl⟩⟩
      free := h.free
      inUse := by simpa [InUse, Worker.setConnection] using h.inUse
      blank := ⟨h.blank.timerSet, h.blank.posted, h.blank.active,
        by simpa [Worker.setConnection] using h.blank.reusable⟩
      buffer := by simpa [Worker.setConnection] using h.buffer
      sent := by simpa [Worker.setConnection] using h.sent }

/-- The kernel does not watch a connection that has everything else it needs. -/
def AcceptAnswers.Refuses (a : AcceptAnswers) (deferred : Bool) : Prop :=
  a.pool ≠ none ∧ a.sockaddr = true ∧ deferred = false ∧ a.ok = false

instance (a : AcceptAnswers) (deferred : Bool) : Decidable (a.Refuses deferred) :=
  inferInstanceAs (Decidable (_ ∧ _))

/-- What a new connection comes to: it is given back, served, or refused by the kernel. -/
def Admission (c : Fin n) (deferred : Bool) (a : AcceptAnswers) (m : Move n) : Prop :=
  m = .decline c ∨ (∃ pool, m = .accept c pool deferred) ∨
    ∃ pool, m = .refuse c pool ∧ a.Refuses deferred

/-- A slot that is given back. -/
lemma Fresh.decline (h : Fresh w₀ w c) (hw : Steady w₀ lc) (received sent : Fin n → List UInt8)
    (hact : w.statActive = w₀.statActive + 1)
    (hpools : (closeAcceptedConnection w c).pools = w₀.pools) :
    (serviceOf w₀ received sent).step (.decline c) = some (serviceOf (closeAcceptedConnection w c)
      (Function.update received c []) (Function.update sent c [])) := by
  obtain ⟨-, -, hclient, hact', -⟩ := h.closeAccepted hw
  have hnone : clientOf w₀ c = none := clientOf_of_not fun hu => h.free hu.1
  have hstat : (closeAcceptedConnection w c).statActive = w₀.statActive := by omega
  simp [Service.step, serviceOf, Service.clear, hnone, hclient, hpools, hstat]

/-- A slot that serves a new client. -/
lemma Admitted.step {pool : ℕ} {deferred : Bool} (h : Admitted w₀ w w' c lc pool deferred)
    (hfree : ¬ InUse w₀.connection c) (received sent : Fin n → List UInt8)
    (hact : w.statActive = w₀.statActive + 1) (hpools : w.pools = pool :: w₀.pools) :
    (serviceOf w₀ received sent).step (.accept c pool deferred) = some
      (serviceOf w' (Function.update received c []) (Function.update sent c [])) := by
  have hnone : clientOf w₀ c = none := clientOf_of_not fun hu => hfree hu.1
  have hclient := h.same.client_eq (clientOf_of_serving h.serving)
  rw [h.client] at hclient
  simp [Service.step, serviceOf, Service.clear, Service.setClient, hnone, hclient,
    h.statActive.trans hact, h.pools.trans hpools]

/-- The bits of a fresh slot are written: it is ready if the listening socket defers. -/
lemma Fresh.markAccepted (h : Fresh w₀ w c) (hlc : lc ≠ c)
    (hread : (w.event (c, .read)).ready = false) :
    Fresh w₀ (markAccepted w (lc, .read) c) c ∧
      (markAccepted w (lc, .read) c).statActive = w.statActive ∧
      (markAccepted w (lc, .read) c).pools = w.pools ∧
      ((markAccepted w (lc, .read) c).connection c).pool = (w.connection c).pool ∧
      ((markAccepted w (lc, .read) c).event (c, .read)).ready =
        (w₀.event (lc, .read)).deferredAccept := by
  obtain ⟨free, lists, hcons⟩ := h.consistent
  have h₁ := h.setEvent .write (f := fun e => { e with ready := true })
    fun _ => ⟨rfl, rfl, rfl, rfl⟩
  have hdef := h₁.event lc .read hlc
  obtain ⟨free₁, lists₁, hcons₁⟩ := h₁.consistent
  simp only [Program.markAccepted, hcons.slots.write, hcons₁.slots.read, hdef]
  cases (w₀.event (lc, .read)).deferredAccept with
  | true =>
    rw [if_pos rfl]
    exact ⟨h₁.setEvent .read (f := fun e => { e with ready := true, available := true })
      fun _ => ⟨rfl, rfl, rfl, rfl⟩, rfl, rfl, rfl, by simp [Worker.setEvent]⟩
  | false =>
    rw [if_neg Bool.false_ne_true]
    exact ⟨h₁, rfl, rfl, rfl, by simpa [Worker.setEvent] using hread⟩

/-- `event_accept` with a connection that has all it needs. -/
lemma serveConnection_spec (h : Fresh w₀ w c) (hw : Steady w₀ lc)
    (hact : w.statActive = w₀.statActive + 1) {pool : ℕ} (hpools : w.pools = pool :: w₀.pools)
    (hpool : (w.connection c).pool = some pool) (hread : (w.event (c, .read)).ready = false)
    (ok : Bool) :
    ∃ r w' m, serveConnection w (lc, .read) c ok = some (r, w') ∧ (∀ rev, r ≠ .read rev) ∧
      Steady w' lc ∧ (m = .accept c pool (w₀.event (lc, .read)).deferredAccept ∨
        (m = .refuse c pool ∧ (w₀.event (lc, .read)).deferredAccept = false ∧ ok = false)) ∧
      ∀ received sent, (serviceOf w₀ received sent).step m = some
        (serviceOf w' (Function.update received c []) (Function.update sent c [])) := by
  obtain ⟨h₁, hact₁, hpools₁, hpool₁, hready₁⟩ := h.markAccepted (h.ne hw).symm hread
  have hno : ∀ (w : Worker n) (rev : EventId n),
      (if (w.event (lc, .read)).available then Accepted.more else .ret) ≠ .read rev := by
    intro w rev
    split_ifs <;> simp
  rw [serveConnection]
  cases hd : (w₀.event (lc, .read)).deferredAccept with
  | true =>
    obtain ⟨w', hcall, hadm⟩ := callback_ready h₁ hw (hpool₁.trans hpool) (hready₁.trans hd) ok
    rw [hcall]
    exact ⟨_, w', .accept c pool true, rfl, hno w', hadm.steady, .inl rfl,
      fun received sent => hadm.step h.free received sent (hact₁.trans hact)
        (hpools₁.trans hpools)⟩
  | false =>
    obtain ⟨w', hcall, hcase⟩ := callback_wait h₁ hw (hpool₁.trans hpool) (hready₁.trans hd) ok
    rw [hcall]
    rcases hcase with ⟨-, hadm⟩ | ⟨hok, hst, -, hclient, hact', hpools'⟩
    · exact ⟨_, w', .accept c pool false, rfl, hno w', hadm.steady, .inl rfl,
        fun received sent => hadm.step h.free received sent (hact₁.trans hact)
          (hpools₁.trans hpools)⟩
    · refine ⟨_, w', .refuse c pool, rfl, hno w', hst, .inr ⟨rfl, rfl, hok⟩,
        fun received sent => ?_⟩
      have hnone : clientOf w₀ c = none := clientOf_of_not fun hu => h.free hu.1
      simp [Service.step, serviceOf, Service.clear, hnone, hclient,
        hact'.trans (hact₁.trans hact), hpools'.trans (hpools₁.trans hpools)]

/-- `event_accept` from the counter on. -/
lemma acceptConnection_spec (h : Fresh w₀ w c) (hw : Steady w₀ lc)
    (hact : w.statActive = w₀.statActive) (hpools : w.pools = w₀.pools)
    (hpool : (w.connection c).pool = none) (hread : (w.event (c, .read)).ready = false)
    (a : AcceptAnswers) :
    ∃ r w' m, acceptConnection w (lc, .read) c a = some (r, w') ∧ (∀ rev, r ≠ .read rev) ∧
      Steady w' lc ∧ Admission c (w₀.event (lc, .read)).deferredAccept a m ∧
      ∀ received sent, (serviceOf w₀ received sent).step m = some
        (serviceOf w' (Function.update received c []) (Function.update sent c [])) := by
  rw [acceptConnection]
  cases hp : a.pool with
  | none =>
    have h₁ := h.counters (w.statActive + 1) w.pools
    obtain ⟨hst, -, -, -, hpools'⟩ := h₁.closeAccepted hw
    refine ⟨_, _, .decline c, rfl, by simp, hst, .inl rfl, fun received sent => ?_⟩
    refine h₁.decline hw received sent (congrArg (· + 1) hact) (hpools'.trans ?_)
    show (match (w.connection c).pool with | none => w.pools | some pool => w.pools.erase pool) = _
    rw [hpool, hpools]
  | some pool =>
    have h₁ := (h.counters (w.statActive + 1) (pool :: w.pools)).setPool (some pool)
    have hpool₁ : ((Worker.setConnection
        { w with statActive := w.statActive + 1, pools := pool :: w.pools } c
        fun r => { r with pool := some pool }).connection c).pool = some pool := by
      simp [Worker.setConnection]
    cases hsock : a.sockaddr with
    | false =>
      obtain ⟨hst, -, -, -, hpools'⟩ := h₁.closeAccepted hw
      refine ⟨_, _, .decline c, rfl, by simp, hst, .inl rfl, fun received sent => ?_⟩
      refine h₁.decline hw received sent (congrArg (· + 1) hact) (hpools'.trans ?_)
      rw [hpool₁]
      show (pool :: w.pools).erase pool = w₀.pools
      rw [List.erase_cons_head, hpools]
    | true =>
      obtain ⟨r, w', m, hrun, hno, hst, hm, hstep⟩ := serveConnection_spec h₁ hw
        (congrArg (· + 1) hact) (congrArg (pool :: ·) hpools) hpool₁ hread a.ok
      refine ⟨r, w', m, hrun, hno, hst, ?_, hstep⟩
      rcases hm with rfl | ⟨rfl, hd, hok⟩
      · exact .inr (.inl ⟨pool, rfl⟩)
      · exact .inr (.inr ⟨pool, rfl, by simp [hp], hsock, hd, hok⟩)

end Libcn.Program
