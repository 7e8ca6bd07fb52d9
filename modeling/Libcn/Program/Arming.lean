import Libcn.Program.Deadlines
import Libcn.Program.Filing

/-!
# What the handlers do to the timers and the queues

`Arms` is what all the functions of the program have in common: which events they may arm or post,
that they keep the deadlines and file every event in its own queue, and when they make a connection
reusable. `Handles` is what the functions have in common that serve a client: they also leave the
accept mutex and the listening event alone.
-/

namespace Libcn.Program

open Libcn.Lib Libcn.Queue Libcn.Rbtree Libcn.Timer Libcn.Cycle

variable {n : ℕ} {w w' w₁ : Worker n} {c d lc : Fin n} {ev : EventId n} {S S' : Set (EventId n)}

/-- At most the events `S` are armed or posted anew, and the deadlines are kept. A connection
becomes reusable only if the listening event `lc` is not deferred. -/
structure Arms (w w' : Worker n) (lc : Fin n) (S : Set (EventId n)) : Prop where
  read : ∀ d, (w'.connection d).read = (w.connection d).read
  write : ∀ d, (w'.connection d).write = (w.connection d).write
  timerSet : ∀ ev, w'.timers.timerSet ev = true → w.timers.timerSet ev = true ∨ ev ∈ S
  posted : ∀ ev, (w'.event ev).posted = true → (w.event ev).posted = true ∨ ev ∈ S
  listening : w'.listening = w.listening
  clock : w'.timers.currentMsec = w.timers.currentMsec
  deferred : (w'.event (lc, .read)).deferredAccept = (w.event (lc, .read)).deferredAccept
  reusable : ∀ d, InUse w'.connection d → (w'.connection d).reusable = true →
    (InUse w.connection d ∧ (w.connection d).reusable = true) ∨
      (w.event (lc, .read)).deferredAccept = false
  deadlines : ∀ {lo}, Deadlines w lo → Deadlines w' lo
  filed : Filed w lc → Filed w' lc

namespace Arms

lemma refl (w : Worker n) (lc : Fin n) : Arms w w lc ∅ :=
  ⟨fun _ => rfl, fun _ => rfl, fun _ h => .inl h, fun _ h => .inl h, rfl, rfl, rfl,
    fun _ h h' => .inl ⟨h, h'⟩, id, id⟩

lemma trans (h : Arms w w₁ lc S) (h' : Arms w₁ w' lc S') : Arms w w' lc (S ∪ S') where
  read d := (h'.read d).trans (h.read d)
  write d := (h'.write d).trans (h.write d)
  timerSet ev hev := by
    rcases h'.timerSet ev hev with hev | hev
    · exact (h.timerSet ev hev).imp_right .inl
    · exact .inr (.inr hev)
  posted ev hev := by
    rcases h'.posted ev hev with hev | hev
    · exact (h.posted ev hev).imp_right .inl
    · exact .inr (.inr hev)
  listening := h'.listening.trans h.listening
  clock := h'.clock.trans h.clock
  deferred := h'.deferred.trans h.deferred
  reusable d hd hr := by
    rcases h'.reusable d hd hr with ⟨hd, hr⟩ | hdef
    · exact h.reusable d hd hr
    · exact .inr (h.deferred ▸ hdef)
  deadlines hw := h'.deadlines (h.deadlines hw)
  filed hw := h'.filed (h.filed hw)

/-- A step that arms nothing comes first or last. -/
lemma next (h : Arms w w₁ lc ∅) (h' : Arms w₁ w' lc S) : Arms w w' lc S := by
  simpa using h.trans h'

lemma mono (h : Arms w w' lc S) (hS : S ⊆ S') : Arms w w' lc S' :=
  { h with
    timerSet := fun ev hev => (h.timerSet ev hev).imp_right fun hS' => hS hS'
    posted := fun ev hev => (h.posted ev hev).imp_right fun hS' => hS hS' }

/-- A change of what `Arms` does not speak of. -/
lemma frame (ht : w'.timers = w.timers) (hl : w'.listening = w.listening)
    (hlinks : w'.links = w.links) (hcount : w'.reusableConnectionsN = w.reusableConnectionsN)
    (he : ∀ ev, (w'.event ev).posted = (w.event ev).posted ∧
      (w'.event ev).deferredAccept = (w.event ev).deferredAccept ∧
      (w'.event ev).accept = (w.event ev).accept)
    (hc : ∀ d, (w'.connection d).read = (w.connection d).read ∧
      (w'.connection d).write = (w.connection d).write ∧
      (w'.connection d).fd = (w.connection d).fd ∧
      (w'.connection d).reusable = (w.connection d).reusable) : Arms w w' lc ∅ where
  read d := (hc d).1
  write d := (hc d).2.1
  timerSet ev hev := .inl (ht ▸ hev)
  posted ev hev := .inl ((he ev).1 ▸ hev)
  listening := hl
  clock := by rw [ht]
  deferred := (he _).2.1
  reusable d hd hr := by
    obtain ⟨-, -, hfd, hre⟩ := hc d
    rw [InUse, hfd] at hd
    rw [hre] at hr
    exact .inl ⟨hd, hr⟩
  deadlines h := h.congr ht (by rw [hl]) fun d => by rw [InUse, InUse, (hc d).2.2.1]
  filed h := h.congr hlinks hcount (fun ev => ⟨(he ev).1, (he ev).2.2⟩) fun d => (hc d).2.2

/-- The memory, the accept mutex, the counters and the kernel. -/
lemma globals (w : Worker n) (lc : Fin n) {w' : Worker n} (ht : w'.timers = w.timers)
    (hl : w'.listening = w.listening) (hlinks : w'.links = w.links)
    (hcount : w'.reusableConnectionsN = w.reusableConnectionsN) (he : w'.event = w.event)
    (hc : w'.connection = w.connection) : Arms w w' lc ∅ :=
  frame ht hl hlinks hcount (fun ev => by rw [he]; exact ⟨rfl, rfl, rfl⟩) fun d => by
    rw [hc]
    exact ⟨rfl, rfl, rfl, rfl⟩

lemma setEvent (w : Worker n) (lc : Fin n) (ev : EventId n) {f : Event n → Event n}
    (hf : ∀ e, (f e).posted = e.posted ∧ (f e).deferredAccept = e.deferredAccept ∧
      (f e).accept = e.accept) : Arms w (w.setEvent ev f) lc ∅ := by
  refine frame rfl rfl rfl rfl (fun ev' => ?_) fun _ => ⟨rfl, rfl, rfl, rfl⟩
  by_cases hev : ev' = ev
  · subst hev
    simpa [Worker.setEvent] using hf (w.event ev')
  · simp [Worker.setEvent, hev]

lemma setConnection (w : Worker n) (lc c : Fin n) {f : Connection n → Connection n}
    (hf : ∀ r, (f r).read = r.read ∧ (f r).write = r.write ∧ (f r).fd = r.fd ∧
      (f r).reusable = r.reusable) : Arms w (w.setConnection c f) lc ∅ := by
  refine frame rfl rfl rfl rfl (fun _ => ⟨rfl, rfl, rfl⟩) fun d => ?_
  by_cases hd : d = c
  · subst hd
    simpa [Worker.setConnection] using hf (w.connection d)
  · simp [Worker.setConnection, hd]

/-- `epoll_add_event` and `epoll_del_event`. -/
lemma epollAddEvent (lc : Fin n) {side : Side} {edge ok b : Bool}
    (hrun : epollAddEvent w ev side edge ok = some (b, w')) : Arms w w' lc ∅ := by
  have hact := setEvent w lc ev (f := fun e => { e with active := true }) fun _ => ⟨rfl, rfl, rfl⟩
  rw [Cycle.epollAddEvent] at hrun
  obtain ⟨c, -, hrun⟩ := Option.bind_eq_some_iff.mp hrun
  dsimp only at hrun
  generalize w.kernel.epollCtl _ _ _ _ = k at hrun
  cases k with
  | none =>
    obtain rfl := (Prod.mk.inj (Option.some.inj hrun)).2
    exact refl w lc
  | some kernel =>
    obtain rfl := (Prod.mk.inj (Option.some.inj hrun)).2
    exact hact.next (globals _ lc rfl rfl rfl rfl rfl rfl)

lemma epollDelEvent (lc : Fin n) {side : Side} {closing edge ok b : Bool}
    (hrun : epollDelEvent w ev side closing edge ok = some (b, w')) : Arms w w' lc ∅ := by
  have hact := setEvent w lc ev (f := fun e => { e with active := false }) fun _ => ⟨rfl, rfl, rfl⟩
  rw [Cycle.epollDelEvent] at hrun
  split_ifs at hrun
  · obtain rfl := (Prod.mk.inj (Option.some.inj hrun)).2
    exact hact
  · obtain ⟨c, -, hrun⟩ := Option.bind_eq_some_iff.mp hrun
    dsimp only at hrun
    generalize w.kernel.epollCtl _ _ _ _ = k at hrun
    cases k with
    | none =>
      obtain rfl := (Prod.mk.inj (Option.some.inj hrun)).2
      exact refl w lc
    | some kernel =>
      obtain rfl := (Prod.mk.inj (Option.some.inj hrun)).2
      exact hact.next (globals _ lc rfl rfl rfl rfl rfl rfl)

/-- An event leaves its queue. -/
lemma unpost (lc : Fin n) (hev : InUse w.connection ev.1) (hposted : (w.event ev).posted = true)
    (hrun : deletePostedEvent w ev = some w') : Arms w w' lc ∅ := by
  have hfiled : Filed w lc → Filed w' lc := fun h => h.deletePosted hev hposted hrun
  rw [deletePostedEvent] at hrun
  obtain ⟨links, -, hrun⟩ := Option.bind_eq_some_iff.mp hrun
  obtain rfl := Option.some.inj hrun
  refine ⟨fun _ => rfl, fun _ => rfl, fun _ h => .inl h, fun ev' h => ?_, rfl, rfl, ?_,
    fun _ h h' => .inl ⟨h, h'⟩, fun h => h.congr rfl rfl fun _ => Iff.rfl, hfiled⟩
  · by_cases he : ev' = ev
    · subst he
      simp [Worker.setEvent] at h
    · left
      simpa [Worker.setEvent, he] using h
  · by_cases he : (lc, Side.read) = ev
    · subst he
      simp [Worker.setEvent]
    · simp [Worker.setEvent, he]

/-- An event is posted to its own queue. -/
lemma postEvent (lc : Fin n) {q : QueueId} (hev : InUse w.connection ev.1)
    (hq : Filed w lc → q = queueFor lc ev) (hrun : postEvent w ev q = some w') :
    Arms w w' lc {ev} ∧ w'.timers = w.timers := by
  have hfiled : Filed w lc → Filed w' lc := fun h => h.post hev (hq h) hrun
  rw [Cycle.postEvent] at hrun
  split_ifs at hrun
  · obtain rfl := Option.some.inj hrun
    exact ⟨(refl w lc).mono (Set.empty_subset _), rfl⟩
  · obtain ⟨links, -, hrun⟩ := Option.bind_eq_some_iff.mp hrun
    obtain rfl := Option.some.inj hrun
    refine ⟨⟨fun _ => rfl, fun _ => rfl, fun _ h => .inl h, fun ev' h => ?_, rfl, rfl, ?_,
      fun _ h h' => .inl ⟨h, h'⟩, fun h => h.congr rfl rfl fun _ => Iff.rfl, hfiled⟩, rfl⟩
    · by_cases he : ev' = ev
      · exact .inr he
      · left
        simpa [Worker.setEvent, he] using h
    · by_cases he : (lc, Side.read) = ev
      · subst he
        simp [Worker.setEvent]
      · simp [Worker.setEvent, he]

end Arms

/-! ## The functions that serve a client -/

/-- What the accept mutex leaves in a worker: `accept_mutex_held`, `accept_events` and
`accept_disabled`. -/
def acceptGlobals (w : Worker n) : Bool × ℕ × BitVec 32 :=
  (w.acceptMutexHeld, w.acceptEvents, w.acceptDisabled)

/-- A client is served: neither the accept mutex nor the listening event `lc` is concerned, and at
most the slots of the events `S` are taken. -/
structure Handles (w w' : Worker n) (lc : Fin n) (S : Set (EventId n)) : Prop
    extends Arms w w' lc S where
  mutex : acceptGlobals w' = acceptGlobals w
  event : w'.event (lc, .read) = w.event (lc, .read)
  timedout : w'.timers.timedout (lc, .read) = w.timers.timedout (lc, .read)
  inUse : ∀ d, InUse w'.connection d → InUse w.connection d ∨ (d, Side.read) ∈ S

namespace Handles

lemma refl (w : Worker n) (lc : Fin n) : Handles w w lc ∅ :=
  ⟨.refl w lc, rfl, rfl, rfl, fun _ h => .inl h⟩

lemma trans (h : Handles w w₁ lc S) (h' : Handles w₁ w' lc S') : Handles w w' lc (S ∪ S') where
  toArms := h.toArms.trans h'.toArms
  mutex := h'.mutex.trans h.mutex
  event := h'.event.trans h.event
  timedout := h'.timedout.trans h.timedout
  inUse d hd := by
    rcases h'.inUse d hd with hd | hd
    · exact (h.inUse d hd).imp_right .inl
    · exact .inr (.inr hd)

lemma next (h : Handles w w₁ lc ∅) (h' : Handles w₁ w' lc S) : Handles w w' lc S := by
  simpa using h.trans h'

lemma quiet (h : Handles w w₁ lc S) (h' : Handles w₁ w' lc ∅) : Handles w w' lc S := by
  simpa using h.trans h'

lemma mono (h : Handles w w' lc S) (hS : S ⊆ S') : Handles w w' lc S' :=
  { h with
    toArms := h.toArms.mono hS
    inUse := fun d hd => (h.inUse d hd).imp_right fun hS' => hS hS' }

/-- No slot is taken. -/
lemma inUse_of_empty (h : Handles w w' lc ∅) {d : Fin n} (hd : InUse w'.connection d) :
    InUse w.connection d := (h.inUse d hd).resolve_right (Set.notMem_empty _)

/-- The memory, the counters and the kernel. -/
lemma globals (w : Worker n) (lc : Fin n) {w' : Worker n} (ht : w'.timers = w.timers)
    (hl : w'.listening = w.listening) (hlinks : w'.links = w.links)
    (hcount : w'.reusableConnectionsN = w.reusableConnectionsN) (he : w'.event = w.event)
    (hc : w'.connection = w.connection) (hm : acceptGlobals w' = acceptGlobals w) :
    Handles w w' lc ∅ :=
  ⟨.globals w lc ht hl hlinks hcount he hc, hm, by rw [he], by rw [ht], fun d hd => .inl (hc ▸ hd)⟩

/-- An event other than the listening one is written. -/
lemma setEvent (w : Worker n) (hev : ev ≠ (lc, .read)) {f : Event n → Event n}
    (hf : ∀ e, (f e).posted = e.posted ∧ (f e).deferredAccept = e.deferredAccept ∧
      (f e).accept = e.accept) : Handles w (w.setEvent ev f) lc ∅ :=
  ⟨.setEvent w lc ev hf, rfl, Function.update_of_ne hev.symm _ _, rfl, fun _ h => .inl h⟩

lemma setConnection (w : Worker n) (lc c : Fin n) {f : Connection n → Connection n}
    (hf : ∀ r, (f r).read = r.read ∧ (f r).write = r.write ∧ (f r).fd = r.fd ∧
      (f r).reusable = r.reusable) : Handles w (w.setConnection c f) lc ∅ := by
  refine ⟨.setConnection w lc c hf, rfl, rfl, rfl, fun d hd => .inl ?_⟩
  by_cases hdc : d = c
  · subst hdc
    simpa [InUse, Worker.setConnection, hf] using hd
  · simpa [InUse, Worker.setConnection, hdc] using hd

lemma read_ne (hc : c ≠ lc) (i : Side) : (c, i) ≠ (lc, Side.read) :=
  fun he => hc (Prod.mk.inj he).1

/-! ## Operations -/

lemma clearPosted (ev : EventId n) (hev : ev ≠ (lc, .read)) (hc : InUse w.connection ev.1)
    (hrun : clearPosted w ev = some w') : Handles w w' lc ∅ ∧ w'.connection = w.connection ∧
      (w'.event ev).posted = false ∧
      ∀ ev', ev' ≠ ev → (w'.event ev').posted = (w.event ev').posted := by
  rw [Cycle.clearPosted] at hrun
  split_ifs at hrun with hposted
  · have ha := Arms.unpost lc hc hposted hrun
    rw [deletePostedEvent] at hrun
    obtain ⟨links, -, hrun⟩ := Option.bind_eq_some_iff.mp hrun
    obtain rfl := Option.some.inj hrun
    refine ⟨⟨ha, rfl, Function.update_of_ne hev.symm _ _, rfl, fun _ h => .inl h⟩, rfl, ?_, ?_⟩
    · simp [Worker.setEvent]
    · intro ev' he
      simp [Worker.setEvent, he]
  · obtain rfl := Option.some.inj hrun
    exact ⟨refl w lc, rfl, by simpa using hposted, fun _ _ => rfl⟩

lemma postEvent (hev : ev ≠ (lc, .read)) (hc : InUse w.connection ev.1)
    (hrun : postEvent w ev .posted = some w') : Handles w w' lc {ev} := by
  obtain ⟨ha, ht⟩ := Arms.postEvent lc hc (fun _ => by rw [queueFor, if_neg hev]) hrun
  rw [Cycle.postEvent] at hrun
  split_ifs at hrun
  · obtain rfl := Option.some.inj hrun
    exact (refl w lc).mono (Set.empty_subset _)
  · obtain ⟨links, -, hrun⟩ := Option.bind_eq_some_iff.mp hrun
    obtain rfl := Option.some.inj hrun
    exact ⟨ha, rfl, Function.update_of_ne hev.symm _ _, rfl, fun _ h => .inl h⟩

lemma clearTimer (lc : Fin n) (hc : InUse w.connection ev.1)
    (hrun : clearTimer w ev = some w') : Handles w w' lc ∅ ∧ w'.timers.timerSet ev = false ∧
      w'.connection = w.connection ∧ w'.event = w.event := by
  have hd := fun lo (h : Deadlines w lo) => h.clearTimer hc hrun
  rw [Cycle.clearTimer] at hrun
  split_ifs at hrun with hset
  · rw [delTimer, eventDelTimer] at hrun
    obtain ⟨T, hT, hrun⟩ := Option.bind_eq_some_iff.mp hrun
    obtain ⟨tree, -, hT⟩ := Option.bind_eq_some_iff.mp hT
    obtain rfl := Option.some.inj hT
    obtain rfl := Option.some.inj hrun
    refine ⟨⟨⟨fun _ => rfl, fun _ => rfl, fun ev' h => .inl ?_, fun _ h => .inl h, rfl, rfl, rfl,
      fun _ h h' => .inl ⟨h, h'⟩, hd _, fun h => h.congr rfl rfl (fun _ => ⟨rfl, rfl⟩)
      fun _ => ⟨rfl, rfl⟩⟩, rfl, rfl, rfl, fun _ h => .inl h⟩, Function.update_self _ _ _, rfl, rfl⟩
    by_cases hev : ev' = ev
    · subst hev
      exact hset
    · simpa [hev] using h
  · obtain rfl := Option.some.inj hrun
    exact ⟨refl w lc, Bool.not_eq_true _ ▸ hset, rfl, rfl⟩

/-- A timer is armed with the delay of the program. -/
lemma addTimer (lc : Fin n) (hc : InUse w.connection ev.1)
    (hrun : addTimer w ev w.listening.postAcceptTimeout = some w') : Handles w w' lc {ev} ∧
      w'.connection = w.connection ∧ w'.event = w.event := by
  have hd := fun lo (h : Deadlines w lo) => h.addTimer hc hrun
  have hset : ∀ {T T' : Timers (EventId n)} {fuel : ℕ} {timer : BitVec 64},
      eventAddTimer fuel T ev timer = some T' → T'.currentMsec = T.currentMsec ∧
      T'.timedout = T.timedout ∧
      ∀ ev', T'.timerSet ev' = true → T.timerSet ev' = true ∨ ev' = ev := by
    intro T T' fuel timer hT
    rw [eventAddTimer] at hT
    split_ifs at hT
    · obtain rfl := Option.some.inj hT
      exact ⟨rfl, rfl, fun _ h => .inl h⟩
    · obtain ⟨T₁, hdel, hT⟩ := Option.bind_eq_some_iff.mp hT
      obtain ⟨tree, -, hT⟩ := Option.bind_eq_some_iff.mp hT
      obtain rfl := Option.some.inj hT
      obtain ⟨tree₁, -, hdel⟩ := Option.bind_eq_some_iff.mp hdel
      obtain rfl := Option.some.inj hdel
      refine ⟨rfl, rfl, fun ev' h => ?_⟩
      by_cases hev : ev' = ev
      · exact .inr hev
      · exact .inl (by simpa [hev] using h)
    · obtain ⟨T₁, hdel, hT⟩ := Option.bind_eq_some_iff.mp hT
      obtain ⟨tree, -, hT⟩ := Option.bind_eq_some_iff.mp hT
      obtain rfl := Option.some.inj hT
      obtain rfl := Option.some.inj hdel
      refine ⟨rfl, rfl, fun ev' h => ?_⟩
      by_cases hev : ev' = ev
      · exact .inr hev
      · exact .inl (by simpa [hev] using h)
  rw [Cycle.addTimer] at hrun
  obtain ⟨T, hT, hrun⟩ := Option.bind_eq_some_iff.mp hrun
  obtain rfl := Option.some.inj hrun
  obtain ⟨hclock, hout, hset⟩ := hset hT
  exact ⟨⟨⟨fun _ => rfl, fun _ => rfl, hset, fun _ h => .inl h, rfl, hclock, rfl,
    fun _ h h' => .inl ⟨h, h'⟩, hd _, fun h => h.congr rfl rfl (fun _ => ⟨rfl, rfl⟩)
    fun _ => ⟨rfl, rfl⟩⟩, rfl, rfl, congrFun hout _, fun _ h => .inl h⟩, rfl, rfl⟩

lemma reusableConnection (lc : Fin n) (hc : InUse w.connection c) {b : Bool}
    (hrun : reusableConnection w c b = some w')
    (hb : b = true → (w.event (lc, .read)).deferredAccept = false) :
    Handles w w' lc ∅ ∧ w'.timers = w.timers ∧ w'.event = w.event ∧
      (w'.connection c).reusable = b ∧ ∀ d, (w'.connection d).fd = (w.connection d).fd := by
  have hfiled : Filed w lc → Filed w' lc := fun h => h.reusable hc hrun
  have hparts : w'.timers = w.timers ∧ w'.listening = w.listening ∧ w'.event = w.event ∧
      w'.connection = Function.update w.connection c { w.connection c with reusable := b } ∧
      acceptGlobals w' = acceptGlobals w := by
    rw [Cycle.reusableConnection] at hrun
    obtain ⟨w₁, hleave, hrun⟩ := Option.bind_eq_some_iff.mp hrun
    have h₁ : w₁.timers = w.timers ∧ w₁.listening = w.listening ∧ w₁.event = w.event ∧
        w₁.connection = w.connection ∧ acceptGlobals w₁ = acceptGlobals w := by
      rw [leaveReusable] at hleave
      split_ifs at hleave
      · obtain ⟨links, -, hleave⟩ := Option.bind_eq_some_iff.mp hleave
        obtain rfl := Option.some.inj hleave
        exact ⟨rfl, rfl, rfl, rfl, rfl⟩
      · obtain rfl := Option.some.inj hleave
        exact ⟨rfl, rfl, rfl, rfl, rfl⟩
    obtain ⟨ht, hl, he, hc, hm⟩ := h₁
    cases b with
    | true =>
      simp only [if_true] at hrun
      obtain ⟨links, -, hrun⟩ := Option.bind_eq_some_iff.mp hrun
      obtain rfl := Option.some.inj hrun
      exact ⟨ht, hl, he, by simp [Worker.setConnection, hc], hm⟩
    | false =>
      simp only [Bool.false_eq_true, if_false] at hrun
      obtain rfl := Option.some.inj hrun
      exact ⟨ht, hl, he, by simp [Worker.setConnection, hc], hm⟩
  obtain ⟨ht, hl, he, hconn, hm⟩ := hparts
  have hfd : ∀ d, (w'.connection d).fd = (w.connection d).fd := by
    intro d
    by_cases hd : d = c
    · subst hd
      simp [hconn]
    · simp [hconn, hd]
  have huse : ∀ d, InUse w'.connection d ↔ InUse w.connection d := by
    intro d
    rw [InUse, InUse, hfd]
  refine ⟨⟨⟨fun d => ?_, fun d => ?_, fun ev h => .inl (ht ▸ h), fun ev h => .inl (he ▸ h),
    hl, by rw [ht], by rw [he], fun d hd hr => ?_, fun h => h.congr ht (by rw [hl]) huse, hfiled⟩,
    hm, by rw [he], by rw [ht], fun d hd => .inl ((huse d).mp hd)⟩, ht, he, by simp [hconn], hfd⟩
  · by_cases hd : d = c
    · subst hd
      simp [hconn]
    · simp [hconn, hd]
  · by_cases hd : d = c
    · subst hd
      simp [hconn]
    · simp [hconn, hd]
  · by_cases hdc : d = c
    · subst hdc
      have : b = true := by simpa [hconn] using hr
      exact .inr (hb this)
    · left
      simpa [InUse, hconn, hdc] using And.intro hd hr

lemma handleReadEvent (hev : ev ≠ (lc, .read)) {ok b : Bool}
    (hrun : handleReadEvent w ev ok = some (b, w')) : Handles w w' lc ∅ := by
  rw [Cycle.handleReadEvent] at hrun
  split_ifs at hrun
  · have ha := Arms.epollAddEvent lc hrun
    rw [Cycle.epollAddEvent] at hrun
    obtain ⟨c, -, hrun⟩ := Option.bind_eq_some_iff.mp hrun
    dsimp only at hrun
    generalize w.kernel.epollCtl _ _ _ _ = k at hrun
    cases k with
    | none =>
      obtain rfl := (Prod.mk.inj (Option.some.inj hrun)).2
      exact refl w lc
    | some kernel =>
      obtain rfl := (Prod.mk.inj (Option.some.inj hrun)).2
      exact ⟨ha, rfl, Function.update_of_ne hev.symm _ _, rfl, fun _ h => .inl h⟩
  · obtain rfl := (Prod.mk.inj (Option.some.inj hrun)).2
    exact refl w lc

/-- A slot in no structure is freed and its descriptor closed. -/
lemma releaseConnection (w : Worker n) (lc c : Fin n)
    (hset : ∀ i, w.timers.timerSet (c, i) = false) (hposted : ∀ i, (w.event (c, i)).posted = false)
    (hreusable : (w.connection c).reusable = false) :
    Handles w (releaseConnection w c) lc ∅ := by
  have hconn : (Cycle.releaseConnection w c).connection = Function.update w.connection c
      { w.connection c with data := w.freeConnections, fd := -1 } := by
    simp [Cycle.releaseConnection, freeConnection, Worker.setConnection, Worker.close]
  have hu : ∀ d, InUse (Cycle.releaseConnection w c).connection d ↔
      InUse w.connection d ∧ d ≠ c := by
    intro d
    rw [InUse, InUse, hconn]
    by_cases hd : d = c
    · subst hd
      simp
    · simp [hd]
  refine ⟨⟨fun d => ?_, fun d => ?_, fun _ h => .inl h, fun _ h => .inl h, rfl, rfl, rfl,
    fun d hd hr => .inl ?_, fun h => h.release rfl rfl hset hu,
    fun h => h.release hposted hreusable⟩, rfl, rfl, rfl, fun d hd => .inl ((hu d).mp hd).1⟩
  · rw [hconn]
    by_cases hd : d = c
    · subst hd
      simp
    · simp [hd]
  · rw [hconn]
    by_cases hd : d = c
    · subst hd
      simp
    · simp [hd]
  · obtain ⟨hd, hdc⟩ := (hu d).mp hd
    rw [hconn] at hr
    exact ⟨hd, by simpa [hdc] using hr⟩

end Handles

end Libcn.Program
