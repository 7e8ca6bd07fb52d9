import Libcn.Cycle.Partition

/-!
# Delivery of posted events

The trace of a run, read as the account of two queues: an event is posted by the present opening
of its slot, a connection that is closed cancels what was posted for it, and a handler is called
for the posting at the front. Every run keeps to this account, and its queues hold what waits.
-/

namespace Libcn.Cycle

open Libcn.Lib Libcn.Lib.Links Libcn.Queue Libcn.Rbtree Libcn.Timer

variable {n : ℕ} {s s' : Config n}

/-! ## The account -/

/-- A posting: the event, and the number of the opening that posted it. -/
abbrev Posting (n : ℕ) := EventId n × ℕ

/-- The accounts of the queues after a trace. There is none if a handler was called for an event
of a slot that is not occupied, or for another posting than the first that waits, which must be
one of the present opening of the slot. -/
def replay : List (Note n) → Option (QueueId → Ledger (Posting n))
  | [] => some fun _ => .empty
  | .posted q ev :: t => do
    let L ← replay t
    pure (Function.update L q ((L q).post (ev, openings t ev.1)))
  | .called q ev :: t => do
    let L ← replay t
    let l ← if occupied t ev.1 then (L q).take (ev, openings t ev.1) else none
    pure (Function.update L q l)
  | .closed c :: t => do
    let L ← replay t
    pure fun q => (L q).drop fun p => p.1.1 = c
  | .opened _ :: t => replay t
  | .dispatched _ _ :: t => replay t

/-- How often an event was posted to a queue. -/
def posts (t : List (Note n)) (q : QueueId) : ℕ :=
  t.countP fun x => match x with
    | .posted p _ => p = q
    | _ => false

/-- How often `event_process_posted` called a handler from a queue. -/
def calls (t : List (Note n)) (q : QueueId) : ℕ :=
  t.countP fun x => match x with
    | .called p _ => p = q
    | _ => false

/-! ## The accounts of a run -/

/-- The nodes of the postings that wait. -/
def Ledger.nodes (L : Ledger (Posting n)) : List (Node n) := L.pending.map fun p => .event p.2.1

/-- The trace has accounts, which balance, and the queues hold what waits; what waits was posted
by the present openings. -/
def Accounts (t : List (Note n)) (lists : QueueId → List (Node n)) : Prop :=
  ∃ L, replay t = some L ∧ (∀ q, (L q).Balanced ∧ (L q).count = posts t q ∧
      (L q).taken.length = calls t q) ∧
    ∀ q, q ≠ .reusable → lists q = Ledger.nodes (L q) ∧
      ∀ p ∈ (L q).pending, p.2.2 = openings t p.2.1.1

/-- The queues without a connection, as the account has them. -/
lemma withoutConnection_nodes {lists : QueueId → List (Node n)} {q : QueueId}
    {L : Ledger (Posting n)} (c : Fin n) (hnodup : (lists q).Nodup)
    (hL : lists q = Ledger.nodes L) :
    withoutConnection lists c q = Ledger.nodes (L.drop fun p => p.1.1 = c) := by
  have hfilter : withoutConnection lists c q = (lists q).filter fun x =>
      decide (x ≠ .event (c, .read)) && (decide (x ≠ .event (c, .write)) &&
        decide (x ≠ .connection c)) := by
    simp only [withoutConnection, without]
    rw [((hnodup.erase _).erase _).erase_eq_filter, (hnodup.erase _).erase_eq_filter,
      hnodup.erase_eq_filter, List.filter_filter, List.filter_filter]
    refine List.filter_congr fun x _ => ?_
    simp only [bne, beq_eq_decide, ne_eq]
    grind
  rw [hfilter, hL, Ledger.nodes, Ledger.nodes, Ledger.drop, List.filter_map]
  congr 1
  refine List.filter_congr fun p _ => ?_
  obtain ⟨i, ⟨d, side⟩, g⟩ := p
  by_cases hd : d = c
  · cases side <;> simp [hd]
  · simp [hd]

section Accounts

variable {t : List (Note n)} {lists lists' : QueueId → List (Node n)}

lemma Accounts.congr (h : Accounts t lists) (hlists : SamePosted lists lists') :
    Accounts t lists' := by
  obtain ⟨L, hL, hbal, hwait⟩ := h
  refine ⟨L, hL, hbal, fun q hq => ?_⟩
  rw [hlists q hq]
  exact hwait q hq

/-- A dispatched record is no posting. -/
lemma Accounts.dispatched (h : Accounts t lists) (c : Fin n) (g : ℕ) :
    Accounts (.dispatched c g :: t) lists := by
  obtain ⟨L, hL, hbal, hwait⟩ := h
  refine ⟨L, hL, fun q => ?_, fun q hq => ?_⟩
  · simpa [posts, calls] using hbal q
  · simpa [openings] using hwait q hq

/-- No posting waits for the slot that is handed out. -/
lemma Accounts.opened {c : Fin n} (h : Accounts t lists)
    (hc : ∀ q, ∀ i, .event (c, i) ∉ lists q) : Accounts (.opened c :: t) lists := by
  obtain ⟨L, hL, hbal, hwait⟩ := h
  refine ⟨L, hL, fun q => by simpa [posts, calls] using hbal q, fun q hq => ?_⟩
  obtain ⟨hlist, hpend⟩ := hwait q hq
  refine ⟨hlist, fun p hp => ?_⟩
  have hne : p.2.1.1 ≠ c := by
    rintro rfl
    refine hc q p.2.1.2 ?_
    rw [hlist]
    exact List.mem_map_of_mem (f := fun p : ℕ × Posting n => Node.event p.2.1) hp
  rw [hpend p hp, openings, openings, List.count_cons_of_ne (by simp [hne.symm])]

/-- A posting is written down with the opening that made it. -/
lemma Accounts.posted (h : Accounts t lists) (q : QueueId) (ev : EventId n) :
    Accounts (.posted q ev :: t) (Function.update lists q (lists q ++ [.event ev])) := by
  obtain ⟨L, hL, hbal, hwait⟩ := h
  refine ⟨Function.update L q ((L q).post (ev, openings t ev.1)), ?_, fun p => ?_, fun p hp => ?_⟩
  · rw [replay, hL]
    rfl
  · obtain ⟨hb, hcount, htaken⟩ := hbal p
    by_cases hpq : p = q
    · subst hpq
      rw [Function.update_self]
      refine ⟨hb.post _, ?_, ?_⟩
      · show (L p).count + 1 = _
        simp [posts, hcount]
      · show (L p).taken.length = _
        simp [calls, htaken]
    · rw [Function.update_of_ne hpq]
      exact ⟨hb, by simp [posts, hcount, Ne.symm hpq], by simp [calls, htaken]⟩
  · obtain ⟨hlist, hpend⟩ := hwait p hp
    have hopen : ∀ c, openings (.posted q ev :: t) c = openings t c :=
      fun c => List.count_cons_of_ne (by simp)
    by_cases hpq : p = q
    · subst hpq
      rw [Function.update_self, Function.update_self]
      refine ⟨by simp [hlist, Ledger.nodes, Ledger.post], fun x hx => ?_⟩
      rw [hopen]
      rcases List.mem_append.mp hx with hx | hx
      · exact hpend x hx
      · obtain rfl := List.mem_singleton.mp hx
        rfl
    · rw [Function.update_of_ne hpq, Function.update_of_ne hpq]
      exact ⟨hlist, fun x hx => by rw [hopen, hpend x hx]⟩

/-- The handler that is called is that of the first posting that waits. -/
lemma Accounts.called (h : Accounts t lists) {q : QueueId} (hq : q ≠ .reusable) {ev : EventId n}
    {l : List (Node n)} (hl : lists q = .event ev :: l) (hocc : occupied t ev.1 = true) :
    Accounts (.called q ev :: t) (Function.update lists q l) := by
  obtain ⟨L, hL, hbal, hwait⟩ := h
  obtain ⟨hlist, hpend⟩ := hwait q hq
  -- the first posting that waits
  obtain ⟨x, rest, hx, hxev, hrest⟩ : ∃ x rest, (L q).pending = x :: rest ∧ x.2.1 = ev ∧
      l = rest.map fun p => .event p.2.1 := by
    rw [hl, Ledger.nodes] at hlist
    cases hp : (L q).pending with
    | nil =>
      rw [hp] at hlist
      cases hlist
    | cons x rest =>
      rw [hp, List.map_cons] at hlist
      obtain ⟨h₁, h₂⟩ := List.cons.inj hlist
      exact ⟨x, rest, rfl, (Node.event.inj h₁).symm, h₂⟩
  have hxg : x.2 = (ev, openings t ev.1) := by
    rw [← hxev, ← hpend x (hx ▸ .head _)]
  have htake : (L q).take (ev, openings t ev.1) =
      some { L q with pending := rest, taken := (L q).taken ++ [x] } := by
    obtain ⟨i, y⟩ := x
    obtain rfl : y = _ := hxg
    rw [Ledger.take, hx]
    exact if_pos rfl
  refine ⟨Function.update L q { L q with pending := rest, taken := (L q).taken ++ [x] }, ?_,
    fun p => ?_, fun p hp => ?_⟩
  · rw [replay, hL]
    simp only [Option.bind_eq_bind, Option.bind_some, hocc, if_true, htake, Option.pure_def]
  · obtain ⟨hb, hcount, htaken⟩ := hbal p
    by_cases hpq : p = q
    · subst hpq
      rw [Function.update_self]
      refine ⟨hb.take htake, ?_, ?_⟩
      · simp [posts, hcount]
      · simp [calls, htaken]
    · rw [Function.update_of_ne hpq]
      exact ⟨hb, by simp [posts, hcount], by simp [calls, htaken, Ne.symm hpq]⟩
  · have hopen : ∀ c, openings (.called q ev :: t) c = openings t c :=
      fun c => List.count_cons_of_ne (by simp)
    by_cases hpq : p = q
    · subst hpq
      rw [Function.update_self, Function.update_self]
      refine ⟨hrest, fun y hy => ?_⟩
      rw [hopen]
      exact hpend y (hx ▸ .tail _ hy)
    · rw [Function.update_of_ne hpq, Function.update_of_ne hpq]
      obtain ⟨hlist', hpend'⟩ := hwait p hp
      exact ⟨hlist', fun y hy => by rw [hopen, hpend' y hy]⟩

/-- Closing a connection cancels what waits for it. -/
lemma Accounts.closed (h : Accounts t lists) (c : Fin n) (hnodup : ∀ q, (lists q).Nodup) :
    Accounts (.closed c :: t) (withoutConnection lists c) := by
  obtain ⟨L, hL, hbal, hwait⟩ := h
  refine ⟨fun q => (L q).drop fun p => p.1.1 = c, ?_, fun q => ?_, fun q hq => ?_⟩
  · rw [replay, hL]
    rfl
  · obtain ⟨hb, hcount, htaken⟩ := hbal q
    exact ⟨hb.drop _, by simpa [posts, Ledger.drop] using hcount,
      by simpa [calls, Ledger.drop] using htaken⟩
  · obtain ⟨hlist, hpend⟩ := hwait q hq
    refine ⟨withoutConnection_nodes c (hnodup q) hlist, fun p hp => ?_⟩
    rw [openings, List.count_cons_of_ne (by simp)]
    exact hpend p (List.mem_of_mem_filter hp)

end Accounts

/-- Each step of a run keeps the accounts. -/
lemma Shows.accounts {free : List (Fin n)} {lists lists' : QueueId → List (Node n)}
    {notes : List (Note n)} (h : Shows s lists lists' notes) (hs : Sound s free lists)
    (ha : Accounts s.trace lists) : Accounts (notes ++ s.trace) lists' := by
  have hq := hs.consistent.queues
  cases h with
  | quiet hl => exact ha.congr hl
  | opened c hc hl =>
    refine (ha.opened fun q i hi => hc ?_).congr hl
    exact ((hq.flagged (.event (c, i))).mpr ⟨q, hi⟩).1
  | closed c hc hl => exact (ha.closed c hq.nodup).congr hl
  | posted q ev hne hev hl =>
    rw [hl]
    exact ha.posted q ev
  | called q ev l hne hlq hl =>
    rw [hl]
    refine ha.called hne hlq ?_
    rw [hs.inUse]
    exact ((hq.flagged (.event ev)).mpr ⟨q, hlq ▸ .head _⟩).1
  | dispatched r hr hasks hc hbit hl => exact (ha.dispatched _ _).congr hl
  | dispatchedPosted r q ev hne hr hasks hev hc hbit hl =>
    rw [hl]
    exact (ha.dispatched _ _).posted q ev

/-! ## Runs -/

/-- What the trace of a run says of a queue: its account balances, the queue in memory holds what
waits, and a round of its loop returns when nothing waits, and otherwise takes out the first that
waits and calls its handler. -/
structure Delivers (s : Config n) (q : PostedQueue) (L : Ledger (Posting n)) : Prop where
  balanced : L.Balanced
  count : L.count = posts s.trace q
  taken : L.taken.length = calls s.trace q
  ring : s.worker.links.Seg (.head q) (Ledger.nodes L) (.head q)
  round : ∀ st, s.stack = .posted q :: st → ∃ s', s.step .next = some s' ∧
    (L.pending = [] ∧ s'.stack = st ∨
      ∃ p l, L.pending = p :: l ∧ s'.stack = .handler :: .posted q :: st ∧
        s'.trace = .called q p.2.1 :: s.trace ∧ (s'.worker.event p.2.1).posted = false)

/-- In every state of every run the trace has accounts, that is, handlers of posted events are
only called for the first posting that waits, made by the present opening of the slot; each
posting was handed over once, or cancelled by the close of its connection, or waits; and no more
handlers were called than events posted. -/
theorem posted_delivered (s : Config n) (h : Runs s) :
    ∃ L, replay s.trace = some L ∧ (∀ q, Delivers s q (L q.1)) ∧
      ∀ q : PostedQueue, calls s.trace q + (L q.1).pending.length ≤ posts s.trace q := by
  obtain ⟨free, lists, hs, L, hL, hbal, hwait⟩ :
      ∃ free lists, Sound s free lists ∧ Accounts s.trace lists := by
    refine h.invariant (I := fun s => ∃ free lists, Sound s free lists ∧ Accounts s.trace lists)
      ?_ ?_
    · intro s hs
      refine ⟨_, _, start_sound hs, ?_⟩
      obtain ⟨w, -, -, rfl⟩ := hs
      exact ⟨fun _ => .empty, rfl, fun q => ⟨Ledger.balanced_empty, rfl, rfl⟩,
        fun q _ => ⟨rfl, fun p hp => by cases hp⟩⟩
    · rintro s a s' ⟨free, lists, hs, hacc⟩ ha hstep
      obtain ⟨s₁, hrun, free', lists', hs', heff⟩ := hs.step ha
      obtain rfl : s₁ = s' := Option.some.inj (hrun.symm.trans hstep)
      obtain ⟨notes, htrace, hshows⟩ := heff.notes
      exact ⟨free', lists', hs', htrace ▸ hshows.accounts hs hacc⟩
  refine ⟨L, hL, fun q => ?_, fun q => ?_⟩
  · obtain ⟨hb, hcount, htaken⟩ := hbal q
    obtain ⟨hlist, -⟩ := hwait q q.2
    refine ⟨hb, hcount, htaken, ?_, fun st hst => ?_⟩
    · rw [← hlist]
      exact hs.consistent.queues.rings.seg (h := .head q.1) rfl
    · have hstep : s.step .next = s.round st (.posted q) := by
        show s.next = _
        rw [Config.next, hst]
      rw [hstep, Config.round]
      rcases postedNext_spec hs.consistent q.2 with
        ⟨hnil, hrun⟩ | ⟨ev, l, links, hl, hev, hrun, hcons⟩
      · rw [hrun]
        refine ⟨_, rfl, .inl ⟨?_, rfl⟩⟩
        rw [hnil, Ledger.nodes] at hlist
        exact List.map_eq_nil_iff.mp hlist.symm
      · rw [hrun]
        refine ⟨_, rfl, .inr ?_⟩
        rw [hl, Ledger.nodes] at hlist
        obtain ⟨p, rest, hp, hpev, -⟩ := List.map_eq_cons_iff.mp hlist.symm
        obtain rfl : p.2.1 = ev := Node.event.inj hpev
        refine ⟨p, rest, hp, rfl, rfl, ?_⟩
        simp [Config.callHandler, Config.goOn, Worker.withPosted, Worker.setEvent]
  · obtain ⟨hb, hcount, htaken⟩ := hbal q.1
    have := hb.length_le
    omega

/-- Slot 0 listens, slots 1 and 2 are clients'. All three are reported and posted. The handler of
the first closes slot 1, whose event waits, hands it out again and posts its event; then the other
queue is worked off. -/
def deliverRun : List (Label 3) :=
  [.getConnection 3, .next, .call (.listen 0 true), .call (.enableAccept true),
    .getConnection 4, .next, .call (.addEvent (1, .read) true true),
    .getConnection 5, .next, .call (.addEvent (2, .read) true true),
    .processEvents [⟨4, true, false, false, false⟩, ⟨5, true, false, false, false⟩,
      ⟨3, true, false, false, false⟩] true,
    .next, .next, .next, .next, .next, .next, .next,
    .processPosted .postedAccept, .next, .call (.close 1), .getConnection 6, .next,
    .call (.post (1, .read) .posted), .ret, .next,
    .processPosted .posted, .next, .ret, .next, .ret, .next]

theorem posted_delivered_reposted :
    ∃ s, (workerMachine 3).run Config.Allowed (.first 3) deliverRun = some s ∧
      ∃ L, replay s.trace = some L ∧ (∀ q, Delivers s q (L q.1)) ∧
        ∀ q : PostedQueue, calls s.trace q + (L q.1).pending.length ≤ posts s.trace q := by
  have hrun : ((workerMachine 3).run Config.Allowed (.first 3) deliverRun).isSome := by
    decide +kernel
  obtain ⟨s, hs⟩ := Option.isSome_iff_exists.mp hrun
  exact ⟨s, hs, posted_delivered s (runs_of_run hs)⟩

end Libcn.Cycle
