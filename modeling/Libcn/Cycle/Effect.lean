import Libcn.Cycle.Runs

/-!
# The effect of a step

`Sound` is the invariant of a run, and `Effect` what one step shows: which notes it adds to the
trace, and what goes with them in the queues of posted events, the instance bits and the records
still to be examined.
-/

namespace Libcn.Cycle

open Libcn.Lib Libcn.Lib.Links Libcn.Queue Libcn.Rbtree Libcn.Timer

variable {n : ℕ} {w w' : Worker n} {free : List (Fin n)} {lists lists' : QueueId → List (Node n)}
  {s s' : Config n} {c : Fin n}

/-! ## Records -/

/-- The queues after `post_event` of an event that may be posted already. -/
def postedLists (lists : QueueId → List (Node n)) (ev : EventId n) (q : QueueId) (posts : Bool) :
    QueueId → List (Node n) :=
  if posts then Function.update lists q (lists q ++ [.event ev]) else lists

/-- An event of a connection in use is posted, unless it is already. -/
lemma postEvent_silent (h : Consistent w free lists) {ev : EventId n}
    (hev : InUse w.connection ev.1) {q : QueueId} (hq : q ≠ .reusable) :
    ∃ w', postEvent w ev q = some w' ∧
      Consistent w' free (postedLists lists ev q !(w.event ev).posted) ∧ Quiet w w' := by
  cases hp : (w.event ev).posted with
  | true => exact ⟨w, by rw [postEvent, if_pos hp], h, .refl w⟩
  | false =>
    obtain ⟨links, hrun, hcons⟩ := postEvent_spec h hev hp hq
    exact ⟨_, hrun, hcons, quiet_withPosted w ev true links⟩

/-- What happens to an event that is ready: it is marked, and posted or called. -/
lemma markReady_spec (h : Consistent w free lists) (ev : EventId n) (hev : InUse w.connection ev.1)
    {f : Event n → Event n}
    (hf : ∀ e, (f e).data = e.data ∧ (f e).instanceBit = e.instanceBit ∧
      (f e).active = e.active ∧ (f e).posted = e.posted)
    {q : QueueId} (hq : q ≠ .reusable) (postEvents : Bool) :
    ∃ w' call, (if postEvents then do
          let w ← postEvent (w.setEvent ev f) ev q
          pure (.ready w none)
        else some (.ready (w.setEvent ev f) (some ev)) : Option (Dispatch n)) =
        some (.ready w' call) ∧
      Consistent w' free (postedLists lists ev q (postEvents && !(w.event ev).posted)) ∧
      Quiet w w' := by
  have h₁ := h.setEvent ev hf
  have hq₁ : Quiet w (w.setEvent ev f) := quiet_setEvent w ev fun e => (hf e).2.1
  have hp : ((w.setEvent ev f).event ev).posted = (w.event ev).posted := by
    simp [Worker.setEvent, (hf _).2.2.2]
  cases postEvents with
  | false => exact ⟨_, some ev, rfl, h₁, hq₁⟩
  | true =>
    obtain ⟨w', hrun, hcons, hq'⟩ := postEvent_silent h₁ hev hq
    rw [hp] at hcons
    exact ⟨w', none, by rw [if_pos rfl, hrun]; rfl, hcons, hq₁.trans hq'⟩

/-- A record that is not stale is for a slot in use with the same instance bit. -/
lemma stale_spec (h : Consistent w free lists) {r : Record n} {i : Side}
    (hr : r.stale w (r.slot, i) = false) : InUse w.connection r.slot ∧
      (w.event (r.slot, .read)).instanceBit = r.instanceBit := by
  simp only [Record.stale, Bool.or_eq_false_iff, decide_eq_false_iff_not, bne_eq_false_iff_eq] at hr
  exact ⟨hr.1, by rw [← h.slots.instanceBit r.slot i hr.1, hr.2]⟩

/-- The queue `recordRead` posts to. -/
def readQueue (w : Worker n) (c : Fin n) : QueueId :=
  if (w.event (c, .read)).accept then .postedAccept else .posted

lemma recordRead_spec (h : Consistent w free lists) (r : Record n) (postEvents : Bool) :
    recordRead w r postEvents = some .skip ∨ recordRead w r postEvents = some .idle ∨
    ∃ w' call, recordRead w r postEvents = some (.ready w' call) ∧
      (r.wantsRead && (w.event (r.slot, .read)).active) = true ∧ InUse w.connection r.slot ∧
      (w.event (r.slot, .read)).instanceBit = r.instanceBit ∧ Quiet w w' ∧
      Consistent w' free (postedLists lists (r.slot, .read) (readQueue w r.slot)
        (postEvents && !(w.event (r.slot, .read)).posted)) := by
  rw [recordRead]
  simp only [h.slots.read]
  by_cases hstale : r.stale w (r.slot, .read) = true
  · exact .inl (if_pos hstale)
  rw [if_neg hstale]
  by_cases hready : (r.wantsRead && (w.event (r.slot, .read)).active) = true
  · obtain ⟨hc, hbit⟩ := stale_spec h (Bool.not_eq_true _ ▸ hstale)
    have hq : readQueue w r.slot ≠ .reusable := by
      rw [readQueue]
      split_ifs <;> simp
    obtain ⟨w', call, hrun, hcons, hquiet⟩ := markReady_spec h (r.slot, .read) hc
      (f := fun e => { e with ready := true, pendingEof := e.pendingEof || r.epollrdhup
                              available := true })
      (fun _ => ⟨rfl, rfl, rfl, rfl⟩) hq postEvents
    refine .inr (.inr ⟨w', call, ?_, hready, hc, hbit, hquiet, hcons⟩)
    rw [if_pos hready, ← hrun]
    simp [readQueue, Worker.setEvent]
  · exact .inr (.inl (if_neg hready))

lemma recordWrite_spec (h : Consistent w free lists) (r : Record n) (postEvents : Bool) :
    recordWrite w r postEvents = some .skip ∨ recordWrite w r postEvents = some .idle ∨
    ∃ w' call, recordWrite w r postEvents = some (.ready w' call) ∧
      (r.wantsWrite && (w.event (r.slot, .write)).active) = true ∧ InUse w.connection r.slot ∧
      (w.event (r.slot, .read)).instanceBit = r.instanceBit ∧ Quiet w w' ∧
      Consistent w' free (postedLists lists (r.slot, .write) .posted
        (postEvents && !(w.event (r.slot, .write)).posted)) := by
  rw [recordWrite]
  simp only [h.slots.write]
  by_cases hready : (r.wantsWrite && (w.event (r.slot, .write)).active) = true
  · rw [if_pos hready]
    by_cases hstale : r.stale w (r.slot, .write) = true
    · exact .inl (if_pos hstale)
    obtain ⟨hc, hbit⟩ := stale_spec h (Bool.not_eq_true _ ▸ hstale)
    obtain ⟨w', call, hrun, hcons, hquiet⟩ := markReady_spec h (r.slot, .write) hc
      (f := fun e => { e with ready := true }) (fun _ => ⟨rfl, rfl, rfl, rfl⟩)
      (q := .posted) (by simp) postEvents
    refine .inr (.inr ⟨w', call, ?_, hready, hc, hbit, hquiet, hcons⟩)
    rw [if_neg hstale, ← hrun]
  · exact .inr (.inl (if_neg hready))

/-! ## The invariant of a run -/

/-- The records in a loop that are still to be examined. -/
def Frame.records : Frame n → List (Reported n)
  | .batch rs _ => rs
  | .batchWrite r rs _ => r :: rs
  | _ => []

/-- The records that are still to be examined. -/
def Config.records (s : Config n) : List (Reported n) := s.stack.flatMap Frame.records

/-- The record the next round is about. -/
def Config.current (s : Config n) : Option (Reported n) :=
  match s.stack with
  | .batch (r :: _) _ :: _ => some r
  | .batchWrite r _ _ :: _ => some r
  | _ => none

/-- The next round is about one of the records. -/
lemma current_records {r : Reported n} (h : s.current = some r) : r ∈ s.records := by
  unfold Config.current at h
  unfold Config.records
  split at h
  · next hst =>
    obtain rfl := Option.some.inj h
    rw [hst]
    exact .head _
  · next hst =>
    obtain rfl := Option.some.inj h
    rw [hst]
    exact .head _
  · cases h

/-- The next round asks for an event that was reported and is active. -/
def Config.asks (s : Config n) (r : Record n) : Bool :=
  match s.stack with
  | .batch _ _ :: _ => r.wantsRead && (s.worker.event (s.worker.connection r.slot).read).active
  | .batchWrite _ _ _ :: _ =>
    r.wantsWrite && (s.worker.event (s.worker.connection r.slot).write).active
  | _ => false

/-- The invariant of a run. A descriptor that `get_connection` was called with is open and no
connection has it. -/
structure Sound (s : Config n) (free : List (Fin n)) (lists : QueueId → List (Node n)) : Prop where
  consistent : Consistent s.worker free lists
  obtained : ∀ c, s.obtained = some c → InUse s.worker.connection c ∧ s.worker.Blank c
  pending : ∀ fd ∈ s.pending, fd ≠ -1 ∧ s.worker.kernel.isOpen fd = true ∧
    ∀ c, (s.worker.connection c).fd ≠ fd
  nodup : s.pending.Nodup
  inUse : ∀ c, occupied s.trace c = true ↔ InUse s.worker.connection c

/-! ## Effects -/

/-- The instance bit of a slot. -/
def Config.bit (s : Config n) (c : Fin n) : Bool := (s.worker.event (c, .read)).instanceBit

/-- The notes of one step, and what goes with them. -/
inductive Shows (s : Config n) (lists lists' : QueueId → List (Node n)) : List (Note n) → Prop
  | quiet (h : SamePosted lists lists') : Shows s lists lists' []
  | opened (c : Fin n) (hc : ¬ InUse s.worker.connection c) (h : SamePosted lists lists') :
    Shows s lists lists' [.opened c]
  | closed (c : Fin n) (hc : InUse s.worker.connection c)
    (h : SamePosted (withoutConnection lists c) lists') : Shows s lists lists' [.closed c]
  | posted (q : QueueId) (ev : EventId n) (hq : q ≠ .reusable)
    (hev : InUse s.worker.connection ev.1)
    (h : lists' = Function.update lists q (lists q ++ [.event ev])) :
    Shows s lists lists' [.posted q ev]
  | called (q : QueueId) (ev : EventId n) (l : List (Node n)) (hq : q ≠ .reusable)
    (hl : lists q = .event ev :: l) (h : lists' = Function.update lists q l) :
    Shows s lists lists' [.called q ev]
  | dispatched (r : Reported n) (hr : s.current = some r) (hasks : s.asks r.1 = true)
    (hc : InUse s.worker.connection r.1.slot) (hbit : s.bit r.1.slot = r.1.instanceBit)
    (h : SamePosted lists lists') : Shows s lists lists' [.dispatched r.1.slot r.2]
  | dispatchedPosted (r : Reported n) (q : QueueId) (ev : EventId n) (hq : q ≠ .reusable)
    (hr : s.current = some r) (hasks : s.asks r.1 = true) (hev : ev.1 = r.1.slot)
    (hc : InUse s.worker.connection r.1.slot) (hbit : s.bit r.1.slot = r.1.instanceBit)
    (h : lists' = Function.update lists q (lists q ++ [.event ev])) :
    Shows s lists lists' [.posted q ev, .dispatched r.1.slot r.2]

/-- What a step does. -/
structure Effect (s s' : Config n) (lists lists' : QueueId → List (Node n)) : Prop where
  notes : ∃ notes, s'.trace = notes ++ s.trace ∧ Shows s lists lists' notes
  bit : ∀ c, s'.bit c = if s'.trace = .opened c :: s.trace then !s.bit c else s.bit c
  records : ∀ r ∈ s'.records, r ∈ s.records ∨
    r.2 = openings s.trace r.1.slot ∧ s.bit r.1.slot = r.1.instanceBit

/-- The state after a step is sound, and the step has an effect. -/
def Steps (s s' : Config n) (lists : QueueId → List (Node n)) : Prop :=
  ∃ free' lists', Sound s' free' lists' ∧ Effect s s' lists lists'

/-- Notes of a step that neither opens nor closes a connection. -/
def Calm (notes : List (Note n)) : Prop := ∀ x ∈ notes, ∀ c, x ≠ .opened c ∧ x ≠ .closed c

lemma Calm.occupied {notes : List (Note n)} (h : Calm notes) (t : List (Note n)) (c : Fin n) :
    occupied (notes ++ t) c = Cycle.occupied t c := by
  induction notes with
  | nil => rfl
  | cons x notes ih =>
    have ih := ih fun y hy => h y (.tail _ hy)
    have hx := h x (.head _)
    cases x with
    | opened d => exact absurd rfl (hx d).1
    | closed d => exact absurd rfl (hx d).2
    | posted q ev => exact ih
    | called q ev => exact ih
    | dispatched d g => exact ih

/-- A quiet step within the loops on the stack. -/
lemma Sound.keep {notes : List (Note n)} (h : Sound s free lists) (stack : List (Frame n))
    (hcons : Consistent w' free lists') (hq : Quiet s.worker w') (hcalm : Calm notes)
    (hshows : Shows s lists lists' notes)
    (hpend : (stack.filterMap Frame.awaits).Sublist s.pending)
    (hrec : ∀ r ∈ stack.flatMap Frame.records, r ∈ s.records) :
    Steps s (s.goOn w' stack notes) lists := by
  refine ⟨free, lists', ⟨hcons, fun c hc => (by cases hc), fun fd hfd => ?_, ?_, fun c => ?_⟩,
    ⟨notes, rfl, hshows⟩, fun c => ?_, fun r hr => .inl (hrec r hr)⟩
  · obtain ⟨hne, hopen, hfree⟩ := h.pending fd (hpend.mem hfd)
    exact ⟨hne, hq.isOpen fd hopen, fun c e => hfree c ((hq.fd c).symm.trans e)⟩
  · exact hpend.nodup h.nodup
  · show occupied (notes ++ s.trace) c = true ↔ InUse w'.connection c
    rw [hcalm.occupied, hq.inUse, h.inUse]
  · have hnot : ¬ notes ++ s.trace = .opened c :: s.trace := by
      intro e
      have : notes = [.opened c] := List.append_cancel_right (e : _ = [Note.opened c] ++ s.trace)
      exact (hcalm (.opened c) (this ▸ .head _) c).1 rfl
    rw [show (s.goOn w' stack notes).trace = notes ++ s.trace from rfl, if_neg hnot]
    exact hq.instanceBit c

/-- A silent step within the loops on the stack. -/
lemma Sound.keepSilent (h : Sound s free lists) (stack : List (Frame n))
    (hs : Silent s.worker free lists (some w'))
    (hpend : (stack.filterMap Frame.awaits).Sublist s.pending)
    (hrec : ∀ r ∈ stack.flatMap Frame.records, r ∈ s.records) :
    Steps s (s.goOn w' stack []) lists := by
  obtain ⟨w₁, lists₁, hw, hcons, hposted, hq⟩ := hs
  obtain rfl := Option.some.inj hw
  exact h.keep _ hcons hq (fun x hx => by cases hx) (.quiet hposted) hpend hrec

/-! ## Closing -/

lemma withoutConnection_of_idle {w : Worker n} (h : Consistent w free lists)
    (hposted : ∀ i, (w.event (c, i)).posted = false) (hreusable : (w.connection c).reusable = false) :
    withoutConnection lists c = lists := by
  have hnot : ∀ x, (x = .connection c ∨ ∃ i, x = .event (c, i)) → without lists x = lists := by
    rintro x (rfl | ⟨i, rfl⟩)
    · refine h.queues.without_eq fun hf => ?_
      have := hf.2
      rw [hreusable] at this
      cases this
    · refine h.queues.without_eq fun hf => ?_
      have := hf.2
      rw [hposted] at this
      cases this
  rw [withoutConnection, hnot _ (.inr ⟨_, rfl⟩), hnot _ (.inr ⟨_, rfl⟩), hnot _ (.inl rfl)]

lemma withoutConnection_of_blank {w : Worker n} (h : Consistent w free lists) (hb : w.Blank c) :
    withoutConnection lists c = lists := withoutConnection_of_idle h hb.posted hb.reusable

/-- A connection is closed by a handler. -/
lemma Sound.close {free' : List (Fin n)} (h : Sound s free lists) (hc : InUse s.worker.connection c)
    (hcons : Consistent w' free' lists') (hfrees : Frees s.worker.connection w'.connection c)
    (hbit : ∀ d, (w'.event (d, .read)).instanceBit = s.bit d)
    (hkernel : w'.kernel = s.worker.kernel.close (s.worker.connection c).fd)
    (hlists : SamePosted (withoutConnection lists c) lists') :
    Steps s (s.goOn w' s.stack [.closed c]) lists := by
  refine ⟨free', lists', ⟨hcons, fun d hd => (by cases hd), fun fd hfd => ?_, h.nodup,
    fun d => ?_⟩, ⟨_, rfl, .closed c hc hlists⟩, fun d => ?_, fun r hr => .inl hr⟩
  · obtain ⟨hne, hopen, hfree⟩ := h.pending fd hfd
    refine ⟨hne, ?_, fun d hd => ?_⟩
    · show w'.kernel.isOpen fd = true
      rw [hkernel, Kernel.isOpen_close, if_neg (hfree c).symm, hopen]
    · have hd' : (w'.connection d).fd = fd := hd
      by_cases hdc : d = c
      · rw [hdc, hfrees.1] at hd'
        exact hne hd'.symm
      · rw [hfrees.2 d hdc] at hd'
        exact hfree d hd'
  · show occupied (.closed c :: s.trace) d = true ↔ InUse w'.connection d
    rw [hfrees.inUse, ← h.inUse, occupied]
    by_cases hcd : c = d
    · simp [hcd]
    · simp [hcd, Ne.symm hcd]
  · have hnot : ¬ [Note.closed c] ++ s.trace = .opened d :: s.trace := by simp
    rw [show (s.goOn w' s.stack [.closed c]).trace = [.closed c] ++ s.trace from rfl, if_neg hnot]
    exact hbit d

/-! ## Opening -/

/-- Frames that wait for a slot are gone from the stack below. -/
lemma pending_tail {f : Frame n} {st : List (Frame n)} (hst : s.stack = f :: st) :
    (st.filterMap Frame.awaits).Sublist s.pending := by
  rw [Config.pending, hst]
  exact (List.sublist_cons_self f st).filterMap _

lemma records_tail {f : Frame n} {st : List (Frame n)} (hst : s.stack = f :: st) :
    ∀ r ∈ st.flatMap Frame.records, r ∈ s.records := by
  intro r hr
  rw [Config.records, hst, List.flatMap_cons]
  exact List.mem_append_right _ hr

/-- `get_connection` ends. -/
lemma Sound.get {fd : ℤ} {st : List (Frame n)} (h : Sound s free lists)
    (hst : s.stack = .get fd :: st) : ∃ s', s.round st (.get fd) = some s' ∧ Steps s s' lists := by
  have hmem : fd ∈ s.pending := by
    rw [Config.pending, hst]
    exact .head _
  obtain ⟨hne, hopen, hfree⟩ := h.pending fd hmem
  have hnone : s.worker.kernel.interest fd = none := by
    by_contra hsome
    obtain ⟨c, -, hc⟩ := h.consistent.interests.owned fd hsome
    exact hfree c hc
  have hnodup : (fd :: st.filterMap Frame.awaits).Nodup := by
    have := h.nodup
    rwa [Config.pending, hst] at this
  rw [Config.round]
  rcases popConnection_spec h.consistent hne (fun d _ => hfree d) hopen hnone with
    ⟨-, hpop⟩ | ⟨c, l, rfl, hc, hpop, hcons, hblank, htakes⟩
  · rw [hpop]
    refine ⟨_, rfl, ?_⟩
    exact h.keepSilent _ (silent_of h.consistent (.refl _)) (pending_tail hst) (records_tail hst)
  · rw [hpop]
    refine ⟨_, rfl, l, lists, ⟨hcons, fun d hd => ?_, fun fd' hfd' => ?_, ?_,
      fun d => ?_⟩, ⟨[.opened c], rfl, .opened c hc fun _ _ => rfl⟩, fun d => ?_, fun r hr => ?_⟩
    · obtain rfl := Option.some.inj hd
      exact ⟨(htakes.inUse c).mpr (.inl rfl), hblank⟩
    · have hfd : fd' ∈ st.filterMap Frame.awaits := hfd'
      obtain ⟨hne', hopen', hfree'⟩ := h.pending fd' ((pending_tail hst).mem hfd)
      refine ⟨hne', hopen', fun d hd => ?_⟩
      have hd' : ((s.worker.taken c fd).connection d).fd = fd' := hd
      by_cases hdc : d = c
      · rw [hdc, htakes.2.2.1] at hd'
        exact (List.nodup_cons.mp hnodup).1 (hd' ▸ hfd)
      · rw [htakes.2.2.2 d hdc] at hd'
        exact hfree' d hd'
    · exact (List.nodup_cons.mp hnodup).2
    · show occupied (.opened c :: s.trace) d = true ↔ InUse (s.worker.taken c fd).connection d
      rw [htakes.inUse, ← h.inUse, occupied]
      by_cases hcd : c = d
      · simp [hcd]
      · simp [hcd, Ne.symm hcd]
    · by_cases hcd : c = d
      · subst hcd
        simp [Config.bit, Worker.taken]
      · simp [Config.bit, Worker.taken, hcd, Ne.symm hcd]
    · exact .inl (records_tail hst r hr)

/-! ## Rounds of loops -/

/-- The stack after a frame was replaced by one that awaits and examines no more. -/
lemma pending_replace {f f' : Frame n} {st : List (Frame n)} (hst : s.stack = f :: st)
    (hf : f'.awaits = f.awaits) : ((f' :: st).filterMap Frame.awaits).Sublist s.pending := by
  rw [Config.pending, hst, List.filterMap_cons, List.filterMap_cons, hf]

lemma records_replace {f f' : Frame n} {st : List (Frame n)} (hst : s.stack = f :: st)
    (hf : ∀ r ∈ f'.records, r ∈ f.records) :
    ∀ r ∈ (f' :: st).flatMap Frame.records, r ∈ s.records := by
  intro r hr
  rw [Config.records, hst, List.flatMap_cons, List.mem_append]
  rw [List.flatMap_cons, List.mem_append] at hr
  exact hr.imp_left (hf r)

/-- A handler on the stack waits for nothing. -/
lemma pending_handler {st : List (Frame n)} (h : (st.filterMap Frame.awaits).Sublist s.pending) :
    ((.handler :: st).filterMap Frame.awaits).Sublist s.pending := h

lemma records_handler {st : List (Frame n)} (h : ∀ r ∈ st.flatMap Frame.records, r ∈ s.records) :
    ∀ r ∈ (.handler :: st : List (Frame n)).flatMap Frame.records, r ∈ s.records := h

/-- A loop that examines a record marks its event ready. -/
lemma Sound.dispatch {f : Frame n} {st : List (Frame n)} {r : Reported n} {ev : EventId n}
    {q : QueueId} {postEvents : Bool} (h : Sound s free lists) (f' : Frame n)
    (call : Option (EventId n))
    (hst : s.stack = f :: st) (haw : f'.awaits = f.awaits)
    (hrec : ∀ r ∈ f'.records, r ∈ f.records) (hcur : s.current = some r)
    (hasks : s.asks r.1 = true) (hq : q ≠ .reusable) (hev : ev.1 = r.1.slot) (hc : InUse s.worker.connection r.1.slot)
    (hbit : s.bit r.1.slot = r.1.instanceBit) (hquiet : Quiet s.worker w')
    (hcons : Consistent w' free
      (postedLists lists ev q (postEvents && !(s.worker.event ev).posted))) :
    Steps s (match call with
      | none => s.goOn w' (f' :: st) (s.dispatchNotes r ev q postEvents)
      | some _ => s.callHandler w' (f' :: st) (s.dispatchNotes r ev q postEvents)) lists := by
  have hcalm : Calm (s.dispatchNotes r ev q postEvents) := by
    intro x hx d
    rw [Config.dispatchNotes, List.mem_append] at hx
    rcases hx with hx | hx
    · split_ifs at hx
      · obtain rfl := List.mem_singleton.mp hx
        simp
      · cases hx
    · obtain rfl := List.mem_singleton.mp hx
      simp
  have hshows : Shows s lists
      (postedLists lists ev q (postEvents && !(s.worker.event ev).posted))
      (s.dispatchNotes r ev q postEvents) := by
    rw [Config.dispatchNotes, postedLists]
    split_ifs with hp
    · exact .dispatchedPosted r q ev hq hcur hasks hev hc hbit rfl
    · exact .dispatched r hcur hasks hc hbit fun _ _ => rfl
  cases call with
  | none => exact h.keep _ hcons hquiet hcalm hshows (pending_replace hst haw) (records_replace hst hrec)
  | some ev' =>
    exact h.keep (.handler :: f' :: st) hcons hquiet hcalm hshows
      (pending_handler (pending_replace hst haw)) (records_handler (records_replace hst hrec))

/-- A loop on top of the stack goes on. -/
lemma Sound.round {f : Frame n} {st : List (Frame n)} (h : Sound s free lists)
    (hst : s.stack = f :: st) (hf : f ≠ .handler) :
    ∃ s', s.round st f = some s' ∧ Steps s s' lists := by
  have htail := pending_tail hst
  have hrec := records_tail hst
  have hquiet : Silent s.worker free lists (some s.worker) := silent_of h.consistent (.refl _)
  -- a loop that ends leaves the worker as it is; one that goes on calls a handler above its frame
  cases f with
  | handler => exact absurd rfl hf
  | expire =>
    rw [Config.round]
    rcases timersNext_spec h.consistent with hrun | ⟨ev, T, hrun, -, -, hcons, -⟩
    · rw [hrun]
      exact ⟨_, rfl, h.keepSilent _ hquiet htail hrec⟩
    · rw [hrun]
      exact ⟨_, rfl, h.keepSilent (.handler :: .expire :: st)
        (silent_of hcons (quiet_timers _ T)) (pending_handler (pending_replace hst rfl))
        (records_handler (records_replace hst fun _ hr => hr))⟩
  | posted q =>
    rw [Config.round]
    rcases postedNext_spec h.consistent q.2 with
      ⟨-, hrun⟩ | ⟨ev, l, links, hl, hev, hrun, hcons⟩
    · rw [hrun]
      exact ⟨_, rfl, h.keepSilent _ hquiet htail hrec⟩
    · rw [hrun]
      -- the event leaves its list, which counts as its delivery
      exact ⟨_, rfl, h.keep (.handler :: .posted q :: st) hcons
        (quiet_withPosted _ ev false links) (by simp [Calm]) (.called q.1 ev l q.2 hl rfl)
        (pending_handler (pending_replace hst rfl))
        (records_handler (records_replace hst fun _ hr => hr))⟩
  | drain rounds =>
    cases rounds with
    | zero => exact ⟨_, rfl, h.keepSilent _ hquiet htail hrec⟩
    | succ rounds =>
      rw [Config.round]
      rcases drainNext_spec h.consistent with ⟨-, hrun⟩ | ⟨c, l, -, -, hrun, hcons⟩
      · rw [hrun]
        exact ⟨_, rfl, h.keepSilent _ hquiet htail hrec⟩
      · rw [hrun]
        exact ⟨_, rfl, h.keepSilent (.handler :: .drain rounds :: st)
          (silent_of hcons (quiet_setConnection _ c fun _ => rfl))
          (pending_handler (pending_replace hst rfl))
          (records_handler (records_replace hst fun _ hr => hr))⟩
  | get fd => exact h.get hst
  | batch rs postEvents =>
    cases rs with
    | nil => exact ⟨_, rfl, h.keepSilent _ hquiet htail hrec⟩
    | cons r rs =>
      have hcur : s.current = some r := by rw [Config.current, hst]
      have hbatch : ∀ x ∈ (Frame.batch rs postEvents).records,
          x ∈ (Frame.batch (r :: rs) postEvents).records := fun x hx => .tail _ hx
      rw [Config.round]
      rcases recordRead_spec h.consistent r.1 postEvents with
        hrun | hrun | ⟨w', call, hrun, hready, hc, hbit, hq, hcons⟩
      · rw [hrun]
        exact ⟨_, rfl, h.keepSilent _ hquiet (pending_replace hst rfl) (records_replace hst hbatch)⟩
      · rw [hrun]
        exact ⟨_, rfl, h.keepSilent (.batchWrite r rs postEvents :: st) hquiet
          (pending_replace hst rfl) (records_replace hst fun _ hr => hr)⟩
      -- the read event is ready: it is posted, or its handler is called before the write part
      · have hsteps := h.dispatch (.batchWrite r rs postEvents) call hst rfl
          (fun _ hr => hr) hcur (by rw [Config.asks, hst, h.consistent.slots.read, hready])
          (by rw [readQueue]; split_ifs <;> simp) rfl hc hbit hq hcons
        rw [hrun]
        simp only [h.consistent.slots.read]
        cases call with
        | none => exact ⟨_, rfl, hsteps⟩
        | some ev => exact ⟨_, rfl, hsteps⟩
  | batchWrite r rs postEvents =>
    have hcur : s.current = some r := by rw [Config.current, hst]
    have hbatch : ∀ x ∈ (Frame.batch rs postEvents).records,
        x ∈ (Frame.batchWrite r rs postEvents).records := fun x hx => .tail _ hx
    rw [Config.round]
    rcases recordWrite_spec h.consistent r.1 postEvents with
      hrun | hrun | ⟨w', call, hrun, hready, hc, hbit, hq, hcons⟩
    · rw [hrun]
      exact ⟨_, rfl, h.keepSilent _ hquiet (pending_replace hst rfl) (records_replace hst hbatch)⟩
    · rw [hrun]
      exact ⟨_, rfl, h.keepSilent _ hquiet (pending_replace hst rfl) (records_replace hst hbatch)⟩
    -- the write event is ready, and the record is done
    · have hsteps := h.dispatch (.batch rs postEvents) call hst rfl hbatch hcur
        (by rw [Config.asks, hst, h.consistent.slots.write, hready]) (by simp) rfl hc hbit hq hcons
      rw [hrun]
      simp only [h.consistent.slots.write]
      cases call with
      | none => exact ⟨_, rfl, hsteps⟩
      | some ev => exact ⟨_, rfl, hsteps⟩

/-! ## The step -/

/-- The calls of a handler. -/
lemma Sound.call {a : Call n} (h : Sound s free lists) (ha : s.AllowedCall a) :
    ∃ w', a.run s.worker = some w' ∧
      Steps s (s.goOn w' s.stack (a.notes s.worker)) lists := by
  have hsame : ∀ {w'}, Silent s.worker free lists (some w') →
      Steps s (s.goOn w' s.stack []) lists :=
    fun hs => h.keepSilent _ hs (.refl _) fun _ hr => hr
  by_cases hpost : ∃ ev q, a = .post ev q
  · obtain ⟨ev, q, rfl⟩ := hpost
    cases hp : (s.worker.event ev).posted with
    | true =>
      refine ⟨s.worker, by rw [Call.run, postEvent, if_pos hp], ?_⟩
      rw [Call.notes, if_pos hp]
      exact hsame (silent_of h.consistent (.refl _))
    | false =>
      obtain ⟨links, hrun, hcons⟩ := postEvent_spec h.consistent ha hp q.2
      refine ⟨_, hrun, ?_⟩
      rw [Call.notes, if_neg (by simp [hp])]
      exact h.keep _ hcons (quiet_withPosted _ ev true links) (by simp [Calm])
        (.posted q.1 ev q.2 ha rfl) (.refl _) fun _ hr => hr
  by_cases hclose : ∃ c, a = .close c
  · obtain ⟨c, rfl⟩ := hclose
    by_cases hc : InUse s.worker.connection c
    · obtain ⟨T, links, count, hrun, hcons, -⟩ := closeConnection_spec h.consistent hc
      refine ⟨_, hrun, ?_⟩
      rw [Call.notes, if_pos hc]
      refine h.close hc hcons ⟨by simp [Worker.closed], fun d hd => by simp [Worker.closed, hd]⟩
        (fun d => ?_) rfl fun _ _ => rfl
      by_cases hd : d = c <;> simp [Config.bit, Worker.closed, closedEvents, hd]
    · refine ⟨s.worker, closeConnection_closed hc, ?_⟩
      rw [Call.notes, if_neg hc]
      exact hsame (silent_of h.consistent (.refl _))
  by_cases hacc : ∃ c, a = .closeAccepted c
  · obtain ⟨c, rfl⟩ := hacc
    obtain ⟨hc, hblank⟩ := h.obtained c ha
    obtain ⟨hcons, hfrees, hevent, -, -, hkernel⟩ :=
      closeAcceptedConnection_spec h.consistent hc hblank
    refine ⟨_, rfl, h.close hc hcons hfrees (fun d => by rw [hevent]; rfl) hkernel fun _ _ => ?_⟩
    rw [withoutConnection_of_blank h.consistent hblank]
  · have hquiet := call_silent s h.consistent (fun c hc => (h.obtained c hc).1) ha
      (fun ev q e => hpost ⟨ev, q, e⟩) (fun c e => hclose ⟨c, e⟩) fun c e => hacc ⟨c, e⟩
    have hnotes : a.notes s.worker = [] := by
      cases a with
      | post ev q => exact absurd ⟨ev, q, rfl⟩ hpost
      | close c => exact absurd ⟨c, rfl⟩ hclose
      | closeAccepted c => exact absurd ⟨c, rfl⟩ hacc
      | _ => rfl
    obtain ⟨w', lists', hrun, hrest⟩ := hquiet
    rw [hnotes]
    exact ⟨w', hrun, hsame ⟨w', lists', rfl, hrest⟩⟩

/-- `get_connection` is called with a descriptor. -/
lemma Sound.callGet {fd : ℤ} (h : Sound s free lists) (hfd : s.Handed fd) (stack : List (Frame n))
    (hstack : stack.filterMap Frame.awaits = fd :: s.pending)
    (hrec : ∀ r ∈ stack.flatMap Frame.records, r ∈ s.records) :
    Steps s (s.goOn { s.worker with kernel := s.worker.kernel.hand fd } stack []) lists := by
  obtain ⟨hne, hfd⟩ := hfd
  have hfree : ∀ c, (s.worker.connection c).fd ≠ fd := by
    rcases hfd with hclosed | ⟨-, hfree, -⟩
    · intro c e
      have hc : InUse s.worker.connection c := fun e' => hne (e.symm.trans e')
      have := h.consistent.interests.isOpen c hc
      rw [e, hclosed] at this
      cases this
    · exact hfree
  have hnot : fd ∉ s.pending := by
    rcases hfd with hclosed | ⟨-, -, hnot⟩
    · intro hmem
      have := (h.pending fd hmem).2.1
      rw [hclosed] at this
      cases this
    · exact hnot
  have hopen : ∀ fd', s.worker.kernel.isOpen fd' = true →
      (s.worker.kernel.hand fd).isOpen fd' = true := by
    intro fd' ho
    simp [ho]
  have hcons : Consistent { s.worker with kernel := s.worker.kernel.hand fd } free lists := by
    obtain ⟨hi₁, hi₂, hi₃, hi₄⟩ := h.consistent.interests
    refine ⟨h.consistent.slots, h.consistent.timers, h.consistent.queues,
      ⟨fun c hc => hopen _ (hi₁ c hc), hi₂, hi₃, ?_⟩, h.consistent.accept⟩
    show (s.worker.kernel.hand fd).isOpen (-1) = false
    rw [Kernel.isOpen_hand, if_neg hne.symm, hi₄]
  refine ⟨free, lists, ⟨hcons, fun c hc => (by cases hc), fun fd' hfd' => ?_, ?_, h.inUse⟩,
    ⟨[], rfl, .quiet fun _ _ => rfl⟩, fun c => ?_, fun r hr => .inl (hrec r hr)⟩
  · have hmem : fd' ∈ stack.filterMap Frame.awaits := hfd'
    rw [hstack] at hmem
    rcases List.mem_cons.mp hmem with rfl | hmem
    · refine ⟨hne, ?_, hfree⟩
      show (s.worker.kernel.hand fd').isOpen fd' = true
      simp
    · obtain ⟨hne', hopen', hfree'⟩ := h.pending fd' hmem
      exact ⟨hne', hopen fd' hopen', hfree'⟩
  · show (stack.filterMap Frame.awaits).Nodup
    rw [hstack]
    exact List.nodup_cons.mpr ⟨hnot, h.nodup⟩
  · have : ¬ [] ++ s.trace = .opened c :: s.trace := by simp
    rw [show (s.goOn _ stack []).trace = [] ++ s.trace from rfl, if_neg this]
    rfl

/-- The records of a report are for the openings of the moment. -/
lemma report_spec (h : Sound s free lists) {reports : List Report} {r : Reported n}
    (hr : r ∈ s.report reports) :
    r.2 = openings s.trace r.1.slot ∧ s.bit r.1.slot = r.1.instanceBit := by
  obtain ⟨p, -, hp⟩ := List.mem_filterMap.mp hr
  obtain ⟨record, hrecord, rfl⟩ := Option.map_eq_some_iff.mp hp
  obtain ⟨e, he, rfl⟩ := Option.map_eq_some_iff.mp hrecord
  obtain ⟨c, hc, hfd⟩ := h.consistent.interests.owned p.fd (by rw [he]; simp)
  obtain ⟨-, -, hslot, hbit⟩ := (h.consistent.interests.registered c hc).2 e (by rw [hfd, he])
  refine ⟨rfl, ?_⟩
  show (s.worker.event (e.slot, .read)).instanceBit = e.instanceBit
  rw [hslot, hbit]

/-- Every allowed step of a run can be made and keeps the invariant. -/
theorem Sound.step {a : Label n} (h : Sound s free lists) (ha : s.Allowed a) :
    ∃ s', s.step a = some s' ∧ Steps s s' lists := by
  have hsame : Silent s.worker free lists (some s.worker) := silent_of h.consistent (.refl _)
  have hrec : ∀ r ∈ s.stack.flatMap Frame.records, r ∈ s.records := fun _ hr => hr
  cases a with
  | call a =>
    obtain ⟨w', hrun, hsteps⟩ := h.call ha.2
    refine ⟨_, ?_, hsteps⟩
    rw [Config.step, hrun]
    rfl
  | getConnection fd =>
    refine ⟨_, rfl, ?_⟩
    dsimp only
    split_ifs
    · exact h.callGet ha.2 _ rfl hrec
    · exact h.callGet ha.2 _ rfl hrec
  | drainConnections =>
    exact ⟨_, rfl, h.keepSilent (.drain _ :: s.stack) hsame (.refl _) hrec⟩
  | expireTimers =>
    exact ⟨_, rfl, h.keepSilent (.expire :: s.stack) hsame (.refl _) hrec⟩
  | processPosted q =>
    exact ⟨_, rfl, h.keepSilent (.posted q :: s.stack) hsame (.refl _) hrec⟩
  | processEvents reports postEvents =>
    refine ⟨_, rfl, free, lists, ⟨h.consistent, fun c hc => (by cases hc), h.pending, h.nodup,
      h.inUse⟩, ⟨[], rfl, .quiet fun _ _ => rfl⟩, fun c => ?_, fun r hr => ?_⟩
    · have : ¬ [] ++ s.trace = .opened c :: s.trace := by simp
      rw [show (s.goOn _ _ []).trace = [] ++ s.trace from rfl, if_neg this]
      rfl
    · have hmem : r ∈ s.report reports ++ s.records := hr
      rcases List.mem_append.mp hmem with hmem | hmem
      · exact .inr (report_spec h hmem)
      · exact .inl hmem
  | clock now =>
    refine ⟨_, rfl, h.keepSilent _ (silent_of ?_ ⟨fun _ => rfl, fun _ => rfl, fun _ h => h⟩)
      (.refl _) hrec⟩
    exact h.consistent.setTimers h.consistent.timers
  | next =>
    have hbody : ¬ s.AtBody := ha
    cases hst : s.stack with
    | nil => exact absurd (.inl hst) hbody
    | cons f st =>
      have hf : f ≠ .handler := by
        rintro rfl
        exact hbody (.inr (by rw [hst]; rfl))
      obtain ⟨s', hrun, hsteps⟩ := h.round hst hf
      refine ⟨s', ?_, hsteps⟩
      show s.next = some s'
      rw [Config.next, hst]
      exact hrun
  | ret =>
    obtain ⟨f, st, hst⟩ := List.exists_cons_of_ne_nil ha.2
    refine ⟨_, rfl, h.keepSilent _ hsame ?_ ?_⟩
    · rw [hst]
      exact pending_tail hst
    · rw [hst]
      exact records_tail hst

end Libcn.Cycle
