import Libcn.Program.Accepting

/-!
# What the rest of an iteration does

The accept mutex, the start of `event_accept` and the rounds of the loops concern the service only
where a timer of a client expires.
-/

namespace Libcn.Program

open Libcn.Lib Libcn.Lib.Links Libcn.Queue Libcn.Rbtree Libcn.Timer Libcn.Cycle

variable {n : ℕ} {w w' w₁ : Worker n} {free : List (Fin n)} {lists : QueueId → List (Node n)}
  {c lc : Fin n} {s : ℤ}

/-! ## Steps without effect on the service -/

/-- The invariant holds afterwards, and the service is as before. -/
structure Keeps (w w' : Worker n) (lc : Fin n) : Prop where
  steady : Steady w' lc
  service : serviceOf w' = serviceOf w

lemma Keeps.refl (h : Steady w lc) : Keeps w w lc := ⟨h, rfl⟩

lemma Keeps.trans (h : Keeps w w' lc) (h' : Keeps w' w₁ lc) : Keeps w w₁ lc :=
  ⟨h'.steady, h'.service.trans h.service⟩

/-- The variables of the accept mutex and the clock are not part of the invariant. -/
lemma Steady.globals (h : Steady w lc) (held : Bool) (events : ℕ) (disabled : BitVec 32)
    (now : BitVec 64) :
    Keeps w
      { w with
        acceptMutexHeld := held
        acceptEvents := events
        acceptDisabled := disabled
        timers := { w.timers with currentMsec := now } } lc := by
  obtain ⟨free, lists, hcons⟩ := h.consistent
  exact ⟨⟨⟨free, lists, hcons.slots, hcons.timers, hcons.queues, hcons.interests, hcons.accept⟩,
    h.listening, h.mutex, h.inUse, fun c hc => ⟨(h.slot c hc).handler, (h.slot c hc).kept,
      (h.slot c hc).active, (h.slot c hc).posted, (h.slot c hc).timerSet⟩⟩, rfl⟩

/-- A step about one slot that changes nothing of what is known of its client. -/
lemma Stays.keeps (hs : Stays w w' c) (h : Steady w lc) (hcons : Consistent w' free lists)
    (hat : clientAt w' c = clientAt w c) : Keeps w w' lc := by
  refine ⟨hs.steady h hcons, ?_⟩
  funext received sent
  exact hs.serviceOf_eq hat received sent

/-- A step about the listening connection, which is no client. -/
lemma Stays.keeps_listener (hs : Stays w w' lc) (h : Steady w lc)
    (hcons : Consistent w' free lists) : Keeps w w' lc := by
  have hnot : ¬ Serving w lc := fun hc => ((h.serving_iff lc).mp hc).2 rfl
  refine ⟨hs.steady h hcons, ?_⟩
  funext received sent
  rw [serviceOf, serviceOf, hs.statActive, hs.pools,
    hs.toSame.client_eq (clientOf_of_not fun hc => hnot ((hs.serving_iff lc).mp hc)),
    ← clientOf_of_not hnot, Function.update_eq_self]

/-! ## The accept mutex -/

lemma enableAccept_keeps (h : Steady w lc) (ok : Bool) :
    ∃ b w', enableAcceptEvents w ok = some (b, w') ∧ Keeps w w' lc := by
  obtain ⟨free, lists, hcons⟩ := h.consistent
  rcases enableAcceptEvents_spec hcons ok with ⟨b, hrun⟩ | ⟨d, kernel, hd, -, hrun, hcons', -⟩
  · exact ⟨b, w, hrun, .refl h⟩
  · obtain rfl : lc = d := Option.some.inj (h.listening.symm.trans hd)
    exact ⟨_, _, hrun, (Stays.withActive w lc true kernel).keeps_listener h hcons'⟩

lemma disableAccept_keeps (h : Steady w lc) (all ok : Bool) :
    ∃ b w', disableAcceptEvents w all ok = some (b, w') ∧ Keeps w w' lc := by
  obtain ⟨free, lists, hcons⟩ := h.consistent
  rcases disableAcceptEvents_spec hcons all ok with ⟨b, hrun⟩ | ⟨d, kernel, hd, -, hrun, hcons', -⟩
  · exact ⟨b, w, hrun, .refl h⟩
  · obtain rfl : lc = d := Option.some.inj (h.listening.symm.trans hd)
    exact ⟨_, _, hrun, (Stays.withActive w lc false kernel).keeps_listener h hcons'⟩

lemma trylock_keeps (h : Steady w lc) (free ok : Bool) :
    ∃ b w', trylockAcceptMutex w free ok = some (b, w') ∧ Keeps w w' lc := by
  rw [trylockAcceptMutex]
  split_ifs
  · exact ⟨true, w, rfl, .refl h⟩
  · obtain ⟨b, w', hrun, hk⟩ := enableAccept_keeps h ok
    rw [hrun]
    cases b with
    | false => exact ⟨false, w', rfl, hk⟩
    | true => exact ⟨true, _, rfl, hk.trans (hk.steady.globals true 0 w'.acceptDisabled _)⟩
  · obtain ⟨b, w', hrun, hk⟩ := disableAccept_keeps h false ok
    rw [hrun]
    cases b with
    | false => exact ⟨false, w', rfl, hk⟩
    | true => exact ⟨true, _, rfl, hk.trans (hk.steady.globals false w'.acceptEvents _ _)⟩
  · exact ⟨true, w, rfl, .refl h⟩

lemma lockAccept_keeps (h : Steady w lc) (free ok : Bool) :
    ∃ go postEvents w', lockAccept w free ok = some (go, postEvents, w') ∧ Keeps w w' lc := by
  rw [lockAccept, if_pos h.mutex]
  split_ifs
  · exact ⟨true, false, _, rfl, h.globals w.acceptMutexHeld w.acceptEvents _ _⟩
  · obtain ⟨b, w', hrun, hk⟩ := trylock_keeps h free ok
    rw [hrun]
    exact ⟨b, _, w', rfl, hk⟩

/-! ## `event_accept` without a descriptor -/

lemma resumeAccept_keeps (h : Steady w lc) (ok : Bool) :
    ∃ go w', resumeAccept w (lc, .read) ok = some (go, w') ∧ Keeps w w' lc := by
  rw [resumeAccept]
  split_ifs
  · obtain ⟨b, w', hrun, hk⟩ := enableAccept_keeps h ok
    rw [hrun]
    cases b with
    | false => exact ⟨false, w', rfl, hk⟩
    | true =>
      -- the bit `timedout` is cleared if the accept events could be enabled
      obtain ⟨free, lists, hcons⟩ := hk.steady.consistent
      have hs := Stays.timers w' lc (T := { w'.timers with
        timedout := Function.update w'.timers.timedout (lc, .read) false })
        (b := w'.timers.timerSet (lc, .read)) (by simp) fun d j hd => by simp [hd]
      exact ⟨true, _, rfl, hk.trans (hs.keeps_listener hk.steady (hcons.setTimers hcons.timers))⟩
  · exact ⟨true, w, rfl, .refl h⟩

lemma eventAcceptStart_keeps (h : Steady w lc) (ok : Bool) :
    ∃ go w', eventAcceptStart w (lc, .read) ok = some (go, w') ∧ Keeps w w' lc := by
  obtain ⟨go, w₁, hrun, hk⟩ := resumeAccept_keeps h ok
  rw [eventAcceptStart, hrun]
  cases go with
  | false => exact ⟨false, w₁, rfl, hk⟩
  | true =>
    obtain ⟨free, lists, hcons⟩ := hk.steady.consistent
    have hs := Stays.setRead w₁ lc (f := fun e => { e with ready := false, available := true })
      fun _ => rfl
    exact ⟨true, _, rfl, hk.trans (hs.keeps_listener hk.steady
      (hcons.setEvent _ fun _ => ⟨rfl, rfl, rfl, rfl⟩))⟩

lemma acceptExhausted_keeps (h : Steady w lc) (ev : EventId n) (ok : Bool) :
    ∃ w', acceptExhausted w ev ok = some w' ∧ Keeps w w' lc := by
  obtain ⟨b, w', hrun, hk⟩ := disableAccept_keeps h true ok
  rw [acceptExhausted, hrun]
  cases b with
  | false => exact ⟨w', rfl, hk⟩
  | true =>
    refine ⟨_, ?_, hk.trans (hk.steady.globals false w'.acceptEvents 1 w'.timers.currentMsec)⟩
    simp only [Option.bind_eq_bind, Option.bind_some, hk.steady.mutex, if_true]
    rfl

/-- A descriptor that no connection has is closed. -/
lemma Steady.closePending (h : Steady w lc) (hp : Pending w s) : Keeps w (w.close s) lc := by
  obtain ⟨free, lists, hcons⟩ := h.consistent
  obtain ⟨hi₁, hi₂, hi₃, hi₄⟩ := hcons.interests
  refine ⟨⟨⟨free, lists, hcons.slots, hcons.timers, hcons.queues, ⟨fun d hd => ?_, fun d hd => ?_,
    fun t ht => ?_, ?_⟩, hcons.accept⟩, h.listening, h.mutex, h.inUse, fun c hc =>
    ⟨(h.slot c hc).handler, (h.slot c hc).kept, (h.slot c hc).active, (h.slot c hc).posted,
      (h.slot c hc).timerSet⟩⟩, rfl⟩
  · show (w.kernel.close s).isOpen (w.connection d).fd = true
    rw [Kernel.isOpen_close, if_neg (hp.other d)]
    exact hi₁ d hd
  · show Registered ((w.kernel.close s).interest (w.connection d).fd) d _ _
    rw [Kernel.interest_close, if_neg (hp.other d)]
    exact hi₂ d hd
  · have ht' : (w.kernel.close s).interest t ≠ none := ht
    rw [Kernel.interest_close] at ht'
    split_ifs at ht'
    · exact absurd rfl ht'
    · exact hi₃ t ht'
  · show (w.kernel.close s).isOpen (-1) = false
    rw [Kernel.isOpen_close, hi₄, ite_self]

/-! ## The rounds of the loops -/

/-- One round of `event_expire_timers`: the timer of a read event expires. -/
lemma timersNext_stays (h : Steady w lc) :
    timersNext w = some none ∨ ∃ c w', timersNext w = some (some ((c, .read), w')) ∧
      InUse w.connection c ∧ Stays w w' c ∧ Steady w' lc ∧
      clientAt w' c = { clientAt w c with timed := false } := by
  obtain ⟨free, lists, hcons⟩ := h.consistent
  rcases timersNext_spec hcons with hrun | ⟨⟨c, i⟩, T, hrun, hc, hset, hcons', hT, hout, -⟩
  · exact .inl hrun
  · -- the timers of the write events are not armed
    obtain rfl : i = .read := by
      cases i with
      | read => rfl
      | write =>
        rw [(h.slot c hc).timerSet] at hset
        cases hset
    have hs : Stays w { w with timers := T } c :=
      .timers w c hT fun d j hd => by simp [hout, hd]
    refine .inr ⟨c, _, hrun, hc, hs, hs.steady h hcons', ?_⟩
    simp [clientAt, hT]

/-- One round of `event_process_posted`: a read event is taken from the queue. -/
lemma postedNext_keeps (h : Steady w lc) (q : PostedQueue) :
    postedNext w q.1 = some none ∨ ∃ c w', postedNext w q.1 = some (some ((c, .read), w')) ∧
      InUse w'.connection c ∧ Keeps w w' lc := by
  obtain ⟨free, lists, hcons⟩ := h.consistent
  rcases postedNext_spec hcons q.2 with ⟨-, hrun⟩ | ⟨⟨c, i⟩, l, links, hl, hc, hrun, hcons'⟩
  · exact .inl hrun
  · obtain rfl : i = .read := by
      cases i with
      | read => rfl
      | write =>
        have hp := ((hcons.queues.flagged (.event (c, .write))).mpr ⟨q.1, hl ▸ .head _⟩).2
        rw [(h.slot c hc).posted] at hp
        cases hp
    refine .inr ⟨c, _, hrun, hc, (Stays.withPosted w c false links).keeps h hcons' ?_⟩
    simp [clientAt, Worker.withPosted, Worker.setEvent]

/-- The first half of a round of `epoll_process_events` marks a read event. -/
lemma recordRead_keeps (h : Steady w lc) (r : Record n) (postEvents : Bool) :
    recordRead w r postEvents = some .skip ∨ recordRead w r postEvents = some .idle ∨
    ∃ w' call, recordRead w r postEvents = some (.ready w' call) ∧ Keeps w w' lc ∧
      InUse w'.connection r.slot ∧ ∀ ev, call = some ev → ev = (r.slot, .read) := by
  obtain ⟨free, lists, hcons⟩ := h.consistent
  rw [recordRead]
  simp only [hcons.slots.read]
  by_cases hstale : r.stale w (r.slot, .read) = true
  · exact .inl (if_pos hstale)
  rw [if_neg hstale]
  by_cases hready : (r.wantsRead && (w.event (r.slot, .read)).active) = true
  · rw [if_pos hready]
    obtain ⟨hc, -⟩ := stale_spec hcons (Bool.not_eq_true _ ▸ hstale)
    obtain ⟨w₁, hw₁⟩ : ∃ w₁, w₁ = w.setEvent (r.slot, .read) fun e => { e with
      ready := true, pendingEof := e.pendingEof || r.epollrdhup, available := true } := ⟨_, rfl⟩
    have hs₁ : Stays w w₁ r.slot := by
      rw [hw₁]
      exact Stays.setRead w r.slot fun _ => rfl
    have h₁ : Consistent w₁ free lists := by
      rw [hw₁]
      exact hcons.setEvent _ fun _ => ⟨rfl, rfl, rfl, rfl⟩
    have hk₁ : Keeps w w₁ lc := hs₁.keeps h h₁ (by simp [hw₁, clientAt, Worker.setEvent])
    have hc₁ : InUse w₁.connection r.slot := by
      rw [hw₁]
      exact hc
    rw [← hw₁]
    cases postEvents with
    | false =>
      exact .inr (.inr ⟨w₁, _, rfl, hk₁, hc₁, fun ev he => (Option.some.inj he).symm⟩)
    | true =>
      right
      right
      obtain ⟨q, hq, hq'⟩ : ∃ q : QueueId, q ≠ .reusable ∧ q =
          if (w₁.event (r.slot, .read)).accept then .postedAccept else .posted := by
        refine ⟨_, ?_, rfl⟩
        split_ifs <;> simp
      simp only [if_true, ← hq']
      cases hp : (w₁.event (r.slot, .read)).posted with
      | true =>
        rw [postEvent, if_pos hp]
        exact ⟨w₁, none, rfl, hk₁, hc₁, fun ev he => (by cases he)⟩
      | false =>
        have hread : InUse w₁.connection (r.slot, Side.read).1 := hc₁
        obtain ⟨links, hpost, hcons'⟩ := postEvent_spec h₁ hread hp hq
        rw [hpost]
        refine ⟨_, none, rfl, hk₁.trans ((Stays.withPosted w₁ r.slot true links).keeps hk₁.steady
          hcons' ?_), hc₁, fun ev he => (by cases he)⟩
        simp [clientAt, Worker.withPosted, Worker.setEvent]
  · exact .inr (.inl (if_neg hready))

/-- The second half finds nothing to do, since no write event is active. -/
lemma recordWrite_keeps (h : Steady w lc) (r : Record n) (postEvents : Bool) :
    recordWrite w r postEvents = some .skip ∨ recordWrite w r postEvents = some .idle := by
  obtain ⟨free, lists, hcons⟩ := h.consistent
  rw [recordWrite]
  simp only [hcons.slots.write]
  by_cases hready : (r.wantsWrite && (w.event (r.slot, .write)).active) = true
  · rw [if_pos hready]
    by_cases hstale : r.stale w (r.slot, .write) = true
    · exact .inl (if_pos hstale)
    · obtain ⟨hc, -⟩ := stale_spec hcons (Bool.not_eq_true _ ▸ hstale)
      rw [(h.slot r.slot hc).active, Bool.and_false] at hready
      cases hready
  · exact .inr (if_neg hready)

end Libcn.Program
