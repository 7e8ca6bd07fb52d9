import Libcn.Cycle.Partition
import Libcn.Program.Looping

/-!
# The program refines its service

Every step of the worker makes moves of the abstract model: most make none, a call of a handler
makes one or two about the client of its event, and a round of `event_accept` closes the clients
that were drained and takes in a new one. `Causes` says which step a move comes from.
-/

namespace Libcn.Program

open Libcn.Lib Libcn.Lib.Links Libcn.Queue Libcn.Rbtree Libcn.Timer Libcn.Cycle

variable {n : ℕ} {w w' : Worker n} {s s' : State n} {c lc : Fin n} {a : Label n}

/-! ## The invariant of a run -/

/-- A loop, which waits while a handler it called runs. -/
def Task.Loop : Task n → Prop
  | .call _ => False
  | .accept _ => False
  | .write _ => False
  | .expire => True
  | .posted _ => True
  | .batch _ _ => True
  | .batchWrite _ _ _ => True

/-- What holds when a task is the next one. -/
def Task.Due (w : Worker n) (lc : Fin n) : Task n → Prop
  | .call ev => ev.2 = .read ∧ InUse w.connection ev.1
  | .accept ev => ev = (lc, .read)
  | .write ev => ev.2 = .read ∧ Serving w ev.1 ∧ (w.event ev).ready = false
  | .expire => True
  | .posted _ => True
  | .batch _ _ => True
  | .batchWrite _ _ _ => True

lemma Task.Loop.due {t : Task n} (h : t.Loop) (w : Worker n) (lc : Fin n) : t.Due w lc := by
  cases t <;> trivial

/-- The next task is due, and the others are loops. -/
def TasksDue (w : Worker n) (lc : Fin n) : List (Task n) → Prop
  | [] => True
  | t :: st => t.Due w lc ∧ ∀ t' ∈ st, t'.Loop

lemma tasksDue_of_loops {st : List (Task n)} (h : ∀ t ∈ st, t.Loop) (w : Worker n) (lc : Fin n) :
    TasksDue w lc st := by
  cases st with
  | nil => trivial
  | cons t st => exact ⟨(h t (.head _)).due w lc, fun t' ht' => h t' (.tail _ ht')⟩

/-- The invariant of a run. -/
structure State.Sound (s : State n) (lc : Fin n) : Prop where
  steady : Steady s.worker lc
  tasks : TasksDue s.worker lc s.tasks

/-! ## Moves and their causes -/

/-- The event whose handler is called next. -/
def State.calling (s : State n) : Option (EventId n) :=
  match s.tasks with
  | .call ev :: _ => some ev
  | _ => none

/-- The event `event_accept` is running for. -/
def State.accepting (s : State n) : Option (EventId n) :=
  match s.tasks with
  | .accept ev :: _ => some ev
  | _ => none

/-- The event `mywrite` is called for next. -/
def State.writing (s : State n) : Option (EventId n) :=
  match s.tasks with
  | .write ev :: _ => some ev
  | _ => none

/-- The event whose timer expires next. -/
def State.expiring (s : State n) : Option (EventId n) :=
  match s.tasks with
  | .expire :: _ => (timersNext s.worker).join.map Prod.fst
  | _ => none

/-- A round of `event_accept` with a new descriptor closes a connection by `close_connection`: the
last reusable one if the free list is empty, or the new one if the kernel refuses it. -/
def AcceptEnds (w : Worker n) (ev : EventId n) (a : AcceptAnswers) : Prop :=
  if w.freeConnections = none then Obliging w else a.Refuses (w.event ev).deferredAccept

instance (w : Worker n) (ev : EventId n) (a : AcceptAnswers) : Decidable (AcceptEnds w ev a) :=
  inferInstanceAs (Decidable (if w.freeConnections = none then Obliging w
    else a.Refuses (w.event ev).deferredAccept))

/-- The step closes a connection by `close_connection`. -/
def State.Ends (s : State n) : Label n → Prop
  | .call memory recvs _ => ∃ ev ∈ s.calling,
    (s.worker.event ev).handler = .myread ∧ GivesUp s.worker ev.1 memory recvs
  | .write sends _ => ∃ ev ∈ s.writing, Breaks s.worker ev.1 sends
  | .accept a => ∃ ev ∈ s.accepting, a.accept.IsDescriptor ∧ AcceptEnds s.worker ev a
  | .iterate _ _ _ _ => False
  | .next => False

instance (s : State n) : (a : Label n) → Decidable (s.Ends a)
  | .call _ _ _ => inferInstanceAs (Decidable (∃ ev ∈ s.calling, _ ∧ _))
  | .write _ _ => inferInstanceAs (Decidable (∃ ev ∈ s.writing, _))
  | .accept _ => inferInstanceAs (Decidable (∃ ev ∈ s.accepting, _ ∧ _))
  | .iterate _ _ _ _ => .isFalse id
  | .next => .isFalse id

/-- The step is one that may make the move. -/
def State.Causes (s : State n) (a : Label n) : Move n → Prop
  | .close _ => s.Ends a
  | .refuse _ _ => s.Ends a
  | .expire c => a = .next ∧ s.expiring = some (c, .read)
  | .send c k granted => ∃ sends b, a = .write sends granted ∧ s.writing = some (c, .read) ∧
    (s.worker.connection c).buffer = some b ∧ k = sendTakes sends (bufSize b)
  | .receive _ _ _ => True
  | .accept _ _ _ => True
  | .decline _ => True

/-- The moves that may come together in one step. -/
def Move.Plain : Move n → Prop
  | .expire _ => False
  | .send _ _ _ => False
  | .close _ => True
  | .receive _ _ _ => True
  | .accept _ _ _ => True
  | .decline _ => True
  | .refuse _ _ => True

/-- The moves of a step, from the service before it to that after it. -/
structure Moves (s : State n) (a : Label n) (s' : State n) (ms : List (Move n)) : Prop where
  run : s.service.run ms = some s'.service
  causes : ∀ m ∈ ms, s.Causes a m
  plain : (∃ m, ms = [m]) ∨ ∀ m ∈ ms, m.Plain

/-- A step without moves. -/
lemma Moves.none (hservice : s'.service = s.service) : Moves s a s' [] :=
  ⟨by rw [hservice]; rfl, fun _ hm => absurd hm List.not_mem_nil,
    .inr fun _ hm => absurd hm List.not_mem_nil⟩

lemma Moves.one {m : Move n} (hrun : s.service.step m = some s'.service) (hm : s.Causes a m) :
    Moves s a s' [m] := by
  refine ⟨?_, fun m' hm' => ?_, .inl ⟨m, rfl⟩⟩
  · rw [Service.run, List.foldlM_cons, hrun]
    rfl
  · rw [List.mem_singleton.mp hm']
    exact hm

lemma append_nil (f : Fin n → List UInt8) (c : Fin n) : append f c [] = f := by
  rw [append, List.append_nil, Function.update_eq_self]

/-! ## The steps -/

/-- An iteration starts. -/
lemma State.Sound.iterate {free ok : Bool} {reports : List Report} {now : BitVec 64} (h : s.Sound lc)
    (htasks : s.tasks = []) (hstep : s.step (.iterate free ok reports now) = some s') :
    s'.Sound lc ∧ Moves s (.iterate free ok reports now) s' [] := by
  obtain ⟨go, postEvents, w', hrun, hk⟩ := lockAccept_keeps h.steady free ok
  rw [State.step, hrun] at hstep
  have hservice : ∀ w₁, Keeps w' w₁ lc → serviceOf w₁ s.received s.sent = s.service := by
    intro w₁ hk₁
    rw [(hk.trans hk₁).service]
    rfl
  cases go with
  | false =>
    obtain rfl := Option.some.inj hstep
    refine ⟨⟨hk.steady, ?_⟩, .none (hservice w' (.refl hk.steady))⟩
    show TasksDue w' lc s.tasks
    rw [htasks]
    trivial
  | true =>
    obtain rfl := Option.some.inj hstep
    have hk' := hk.steady.globals w'.acceptMutexHeld w'.acceptEvents w'.acceptDisabled now
    refine ⟨⟨hk'.steady, tasksDue_of_loops (fun t ht => ?_) _ lc⟩, .none (hservice _ hk')⟩
    have ht' : t ∈ iterationTasks w' reports now postEvents := ht
    rw [iterationTasks] at ht'
    split_ifs at ht' <;> simp at ht'
    · rcases ht' with rfl | rfl | rfl <;> trivial
    · rcases ht' with rfl | rfl | rfl | rfl <;> trivial

/-- A round of a loop makes no move, or the timer of a client expires. -/
lemma State.Sound.next (h : s.Sound lc) (hstep : s.step .next = some s') :
    s'.Sound lc ∧ ∃ ms, Moves s .next s' ms := by
  cases htasks : s.tasks with
  | nil => simp [State.step, htasks] at hstep
  | cons t st =>
  have hdue := h.tasks
  rw [htasks] at hdue
  obtain ⟨-, hst⟩ := hdue
  -- what is left to show of a round that keeps the service
  have hquiet : ∀ w' tasks, loopNext s.worker st t = some (w', tasks) → Keeps s.worker w' lc →
      TasksDue w' lc tasks → s'.Sound lc ∧ ∃ ms, Moves s .next s' ms := by
    intro w' tasks hrun hk hdue
    simp only [State.step, htasks, hrun, Option.bind_eq_bind, Option.bind_some] at hstep
    obtain rfl := Option.some.inj hstep
    exact ⟨⟨hk.steady, hdue⟩, [], .none (congrFun (congrFun hk.service s.received) s.sent)⟩
  have hself := Keeps.refl h.steady
  have hloops := tasksDue_of_loops hst s.worker lc
  have hcons : ∀ t' : Task n, t'.Loop → ∀ t'' ∈ t' :: st, t''.Loop := by
    intro t' ht' t'' ht''
    rcases List.mem_cons.mp ht'' with rfl | ht''
    · exact ht'
    · exact hst t'' ht''
  cases t with
  | call ev => simp [State.step, htasks, loopNext] at hstep
  | accept ev => simp [State.step, htasks, loopNext] at hstep
  | write ev => simp [State.step, htasks, loopNext] at hstep
  | posted q =>
    rcases postedNext_keeps h.steady q with hrun | ⟨c, w', hrun, hc, hk⟩
    · exact hquiet s.worker st (by rw [loopNext, hrun]; rfl) hself hloops
    · exact hquiet w' (.call (c, .read) :: .posted q :: st) (by rw [loopNext, hrun]; rfl) hk
        ⟨⟨rfl, hc⟩, hcons _ trivial⟩
  | batch rs postEvents =>
    cases rs with
    | nil => exact hquiet s.worker st rfl hself hloops
    | cons r rs =>
      rcases recordRead_keeps h.steady r postEvents with hrun | hrun | ⟨w', call, hrun, hk, hc, hev⟩
      · exact hquiet _ _ (by rw [loopNext, hrun]; rfl) hself
          (tasksDue_of_loops (hcons (.batch rs postEvents) trivial) _ _)
      · exact hquiet _ _ (by rw [loopNext, hrun]; rfl) hself
          (tasksDue_of_loops (hcons (.batchWrite r rs postEvents) trivial) _ _)
      · cases call with
        | none =>
          exact hquiet _ _ (by rw [loopNext, hrun]; rfl) hk
            (tasksDue_of_loops (hcons (.batchWrite r rs postEvents) trivial) _ _)
        | some ev =>
          obtain rfl := hev ev rfl
          exact hquiet w' (.call (r.slot, .read) :: .batchWrite r rs postEvents :: st)
            (by rw [loopNext, hrun]; rfl) hk ⟨⟨rfl, hc⟩, hcons _ trivial⟩
  | batchWrite r rs postEvents =>
    rcases recordWrite_keeps h.steady r postEvents with hrun | hrun
    · exact hquiet _ _ (by rw [loopNext, hrun]; rfl) hself
        (tasksDue_of_loops (hcons (.batch rs postEvents) trivial) _ _)
    · exact hquiet _ _ (by rw [loopNext, hrun]; rfl) hself
        (tasksDue_of_loops (hcons (.batch rs postEvents) trivial) _ _)
  | expire =>
    rcases timersNext_stays h.steady with hrun | ⟨c, w', hrun, hc, hs, hst', hat⟩
    · exact hquiet s.worker st (by rw [loopNext, hrun]; rfl) hself hloops
    · have hloop : loopNext s.worker st .expire = some (w', .call (c, .read) :: .expire :: st) := by
        rw [loopNext, hrun]
        rfl
      have hdue : TasksDue w' lc (.call (c, .read) :: .expire :: st) := by
        refine ⟨⟨rfl, ?_⟩, hcons _ trivial⟩
        rw [InUse, hs.fd]
        exact hc
      by_cases hserve : Serving s.worker c
      · simp only [State.step, htasks, hloop, Option.bind_eq_bind, Option.bind_some] at hstep
        obtain rfl := Option.some.inj hstep
        refine ⟨⟨hst', hdue⟩, [.expire c], .one ?_ ⟨rfl, ?_⟩⟩
        swap
        · rw [State.expiring, htasks, hrun]
          rfl
        simp [State.service, Service.step, serviceOf, Service.setClient,
          clientOf_of_serving hserve, hs.client_eq hserve, hat, hs.statActive, hs.pools]
      · -- the timer of the listening connection
        obtain rfl : c = lc := by
          by_contra hne
          exact hserve ((h.steady.serving_iff c).mpr ⟨hc, hne⟩)
        obtain ⟨free, lists, hcons'⟩ := hst'.consistent
        exact hquiet w' _ hloop (hs.keeps_listener h.steady hcons') hdue

/-- The state after a call of `myread`. -/
lemma callHandler_myread {memory : Option (ℕ → UInt8)} {recvs : List (List RecvResult)} {ok : Bool}
    {st : List (Task n)} (hhandler : (s.worker.event (c, .read)).handler = .myread)
    (hstep : s.callHandler (c, .read) st memory recvs ok = some s') :
    ∃ go l w', myreadReceive s.worker (c, .read) memory recvs = some (go, l, w') ∧
      s' = { s with
        worker := w'
        tasks := if go then .write (c, .read) :: st else st
        received := append s.received c l } := by
  rw [State.callHandler, hhandler] at hstep
  obtain ⟨⟨go, l, w'⟩, hrun, hstep⟩ := Option.bind_eq_some_iff.mp hstep
  exact ⟨go, l, w', hrun, (Option.some.inj hstep).symm⟩

/-- The handler of an event is called. -/
lemma State.Sound.call {memory : Option (ℕ → UInt8)} {recvs : List (List RecvResult)} {ok : Bool}
    (h : s.Sound lc) (hstep : s.step (.call memory recvs ok) = some s') :
    s'.Sound lc ∧ ∃ ms, Moves s (.call memory recvs ok) s' ms := by
  obtain ⟨ev, st, htasks⟩ : ∃ ev st, s.tasks = .call ev :: st := by
    cases htasks : s.tasks with
    | nil => simp [State.step, htasks] at hstep
    | cons t st => cases t <;> simp [State.step, htasks] at hstep ⊢
  have hdue := h.tasks
  rw [htasks] at hdue
  obtain ⟨⟨hside, hc⟩, hst⟩ := hdue
  obtain ⟨c, i⟩ := ev
  obtain rfl : i = .read := hside
  rw [State.step, htasks] at hstep
  simp only at hstep
  have hhandler := (h.steady.slot c hc).handler
  rw [readHandler] at hhandler
  by_cases hlc : c = lc
  · -- the listening event
    subst hlc
    rw [if_pos rfl] at hhandler
    obtain ⟨go, w', hrun, hk⟩ := eventAcceptStart_keeps h.steady ok
    rw [State.callHandler, hhandler] at hstep
    simp only [hrun, Option.bind_eq_bind, Option.bind_some] at hstep
    obtain rfl := Option.some.inj hstep
    refine ⟨⟨hk.steady, ?_⟩, [], .none (congrFun (congrFun hk.service s.received) s.sent)⟩
    cases go with
    | false => exact tasksDue_of_loops hst w' c
    | true => exact ⟨rfl, hst⟩
  rw [if_neg hlc] at hhandler
  have hserve : Serving s.worker c := (h.steady.serving_iff c).mpr ⟨hc, hlc⟩
  have hclient : s.service.client c = some (clientAt s.worker c) := clientOf_of_serving hserve
  obtain ⟨go, l, w', hrun, rfl⟩ := callHandler_myread hhandler hstep
  obtain ⟨free, lists, hcons⟩ := h.steady.consistent
  rcases myreadReceive_spec hcons hc hrun with ⟨-, rfl, rfl, rfl⟩ |
    ⟨hends, rfl, w₁, hs, hcons₁, hclose, hl⟩ | ⟨-, rfl, b, lists', hb, hr, hcons'⟩
  · refine ⟨⟨h.steady, tasksDue_of_loops hst _ lc⟩, [], .none ?_⟩
    rw [append_nil]
    rfl
  · -- the connection is closed, after bytes were received or not
    obtain ⟨hst', -, hgone, hact, hpools, -⟩ := h.steady.closeConnection hserve hs hcons₁ hclose
    have hends' : s.Ends (.call memory recvs ok) :=
      ⟨(c, .read), by rw [State.calling, htasks]; rfl, hhandler, hends⟩
    refine ⟨⟨hst', tasksDue_of_loops hst _ lc⟩, ?_⟩
    rcases hl with rfl | hmem
    · refine ⟨[.close c], .one ?_ hends'⟩
      rw [Service.step, hclient, append_nil]
      simp [State.service, serviceOf, Service.setClient, hgone, hact, hpools]
    · obtain ⟨b, hb⟩ := Option.ne_none_iff_exists'.mp hmem
      refine ⟨[.receive c memory l, .close c], ?_, fun m hm => ?_, .inr fun m hm => ?_⟩
      · simp only [Service.run, List.foldlM_cons, List.foldlM_nil, Service.step, hclient,
          Option.bind_eq_bind, Option.bind_some]
        rw [show (clientAt s.worker c).buffer = (s.worker.connection c).buffer from rfl, hb]
        simp [State.service, serviceOf, Service.setClient, hgone, hact, hpools, append]
      · rcases List.mem_cons.mp hm with rfl | hm
        · trivial
        · rw [List.mem_singleton.mp hm]
          exact hends'
      · rcases List.mem_cons.mp hm with rfl | hm
        · trivial
        · rw [List.mem_singleton.mp hm]
          trivial
  · have hst' := hr.toStays.steady h.steady hcons'
    refine ⟨⟨hst', ⟨rfl, (hr.serving_iff c).mpr hserve, hr.ready⟩, hst⟩, [.receive c memory l],
      .one ?_ trivial⟩
    rw [Service.step, hclient]
    simp only [Option.bind_eq_bind, Option.bind_some]
    rw [show (clientAt s.worker c).buffer = (s.worker.connection c).buffer from rfl, hb]
    simp [State.service, serviceOf, Service.setClient, hr.toStays.client_eq hserve, hr.client,
      hr.statActive, hr.pools, append]

/-- `mywrite` is called. -/
lemma State.Sound.write {sends : List (List SendResult)} {ok : Bool} (h : s.Sound lc)
    (hstep : s.step (.write sends ok) = some s') :
    s'.Sound lc ∧ ∃ ms, Moves s (.write sends ok) s' ms := by
  obtain ⟨ev, st, htasks⟩ : ∃ ev st, s.tasks = .write ev :: st := by
    cases htasks : s.tasks with
    | nil => simp [State.step, htasks] at hstep
    | cons t st => cases t <;> simp [State.step, htasks] at hstep ⊢
  have hdue := h.tasks
  rw [htasks] at hdue
  obtain ⟨⟨hside, hserve, hready⟩, hst⟩ := hdue
  obtain ⟨c, i⟩ := ev
  obtain rfl : i = .read := hside
  rw [State.step, htasks] at hstep
  obtain ⟨⟨l, w'⟩, hrun, hstep⟩ := Option.bind_eq_some_iff.mp hstep
  obtain rfl := Option.some.inj hstep
  have hclient : s.service.client c = some (clientAt s.worker c) := clientOf_of_serving hserve
  have hloops := fun w' => tasksDue_of_loops hst w' lc
  have hwriting : s.writing = some (c, .read) := by rw [State.writing, htasks]
  obtain ⟨free, lists, hcons⟩ := h.steady.consistent
  rcases mywrite_spec hcons hserve.1 hready hrun with ⟨-, rfl, rfl⟩ |
    ⟨hbreaks, rfl, w₁, hs, hcons₁, hclose⟩ | ⟨-, -, rfl, rfl⟩ | ⟨-, b, k, hb, hk, rfl, hsent, hcons'⟩
  · refine ⟨⟨h.steady, hloops _⟩, [], .none ?_⟩
    rw [append_nil]
    rfl
  · obtain ⟨hst', -, hgone, hact, hpools, -⟩ := h.steady.closeConnection hserve hs hcons₁ hclose
    refine ⟨⟨hst', hloops _⟩, [.close c], .one ?_ ⟨(c, .read), hwriting, hbreaks⟩⟩
    rw [Service.step, hclient, append_nil]
    simp [State.service, serviceOf, Service.setClient, hgone, hact, hpools]
  · refine ⟨⟨h.steady, hloops _⟩, [], .none ?_⟩
    rw [append_nil]
    rfl
  · refine ⟨⟨hsent.toStays.steady h.steady hcons', hloops _⟩, [.send c k ok],
      .one ?_ ⟨sends, b, rfl, hwriting, hb, hk⟩⟩
    have hle : k ≤ bufSize b := hk ▸ sendTakes_le sends _
    rw [Service.step, hclient]
    simp only [Option.bind_eq_bind, Option.bind_some]
    rw [show (clientAt s.worker c).buffer = some b from hb, Option.bind_some, if_pos hle]
    simp [State.service, serviceOf, Service.setClient, hsent.toStays.client_eq hserve,
      hsent.client, hsent.statActive, hsent.pools, append]

/-! ## A round of `event_accept` -/

/-- What a round of `event_accept` did: it makes the moves `ms`, and `slot` is the slot it took. -/
structure AcceptMoves (w w' : Worker n) (lc : Fin n) (slot : Option (Fin n))
    (ms : List (Move n)) : Prop where
  steady : Steady w' lc
  run : ∀ received sent, (serviceOf w received sent).run ms =
    some (serviceOf w' (State.cleared received slot) (State.cleared sent slot))
  plain : ∀ m ∈ ms, m.Plain

lemma Keeps.acceptMoves (h : Keeps w w' lc) : AcceptMoves w w' lc none [] :=
  ⟨h.steady, fun received sent => by rw [h.service]; rfl, fun _ hm => absurd hm List.not_mem_nil⟩

/-- The moves that close a connection by `close_connection`. -/
def Move.Closes : Move n → Prop
  | .close _ => True
  | .refuse _ _ => True
  | _ => False

/-- A round of `event_accept` with a new descriptor closes clients if it has to drain, and takes
the new connection in if it gets a slot. -/
lemma acceptNext_descriptor (h : Steady w lc) {fd : ℤ} (hne : fd ≠ -1)
    (hfd : w.kernel.isOpen fd = false) {answers : AcceptAnswers}
    (ha : answers.accept = .descriptor fd) :
    ∃ r w' slot ms, acceptNext w (lc, .read) answers = some (r, w') ∧
      (∀ rev, r ≠ .read rev) ∧
      (acceptDescriptor w fd answers.drain).bind Prod.fst = slot ∧ AcceptMoves w w' lc slot ms ∧
      ∀ m ∈ ms, m.Closes → AcceptEnds w (lc, .read) answers := by
  obtain ⟨h₀, hp₀⟩ := h.hand hne hfd (BitVec.ofNat 32 (n / 8) - BitVec.ofNat 32 w.freeConnectionN)
  obtain ⟨w₁, cs, hd, hiff, hget⟩ := getConnection_spec h₀ hp₀ answers.drain
  have hiff' : cs ≠ [] ↔ w.freeConnections = none ∧ Obliging w := hiff
  have hnone : cs = [] → w₁.freeConnections = w.freeConnections := hd.none
  have hrun : ∀ received sent, (serviceOf w received sent).run (cs.map .close) =
    some (serviceOf w₁ received sent) := hd.run
  have hdef : (w₁.event (lc, .read)).deferredAccept = (w.event (lc, .read)).deferredAccept := by
    rw [hd.event]
  have hplain : ∀ m ∈ cs.map Move.close, m.Plain := by
    intro m hm
    obtain ⟨c, -, rfl⟩ := List.mem_map.mp hm
    trivial
  have hclosed : ∀ m ∈ cs.map Move.close, AcceptEnds w (lc, .read) answers := by
    intro m hm
    obtain ⟨c, hc, rfl⟩ := List.mem_map.mp hm
    obtain ⟨hfree, hob⟩ := hiff'.mp (List.ne_nil_of_mem hc)
    rwa [AcceptEnds, if_pos hfree]
  rcases hget with ⟨-, hp₁, hget⟩ | ⟨c, free, lists, hhead, hget, hnot, hcons, hblank, hc⟩
  · have hget' : acceptDescriptor w fd answers.drain = some (none, w₁) := hget
    have hk := hd.steady.closePending hp₁
    refine ⟨.ret, w₁.close fd, none, cs.map .close, ?_, by simp, by rw [hget']; rfl,
      ⟨hk.steady, fun received sent => ?_, hplain⟩, fun m hm _ => hclosed m hm⟩
    · rw [acceptNext, ha]
      simp only [hget', Option.bind_eq_bind, Option.bind_some, Option.pure_def]
    · rw [hk.service]
      exact hrun received sent
  · have hget' : acceptDescriptor w fd answers.drain = some (some c, w₁.taken c fd) := hget
    obtain ⟨r, w', m, hacc, hno, hst, hm, hstep⟩ := acceptConnection_spec
      (fresh_taken hcons hnot hblank hc) hd.steady rfl rfl
      (by simp [Worker.taken, Connection.zeroed]) (by simp [Worker.taken, Event.zeroed]) answers
    rw [hdef] at hm
    refine ⟨r, w', some c, cs.map .close ++ [m], ?_, hno, by rw [hget']; rfl,
      ⟨hst, fun received sent => ?_, fun m' hm' => ?_⟩, fun m' hm' hcl => ?_⟩
    · rw [acceptNext, ha]
      simp only [hget', Option.bind_eq_bind, Option.bind_some]
      exact hacc
    · rw [Service.run_append, hrun, Option.bind_some, Service.run, List.foldlM_cons, hstep]
      rfl
    · rcases List.mem_append.mp hm' with hm' | hm'
      · exact hplain m' hm'
      · rw [List.mem_singleton.mp hm']
        rcases hm with rfl | ⟨pool, rfl⟩ | ⟨pool, rfl, -⟩ <;> trivial
    · rcases List.mem_append.mp hm' with hm' | hm'
      · exact hclosed m' hm'
      · rw [List.mem_singleton.mp hm'] at hcl
        rcases hm with rfl | ⟨pool, rfl⟩ | ⟨pool, rfl, hrefuses⟩
        · exact hcl.elim
        · exact hcl.elim
        · rw [AcceptEnds]
          split_ifs with hfree
          · -- with an empty free list the slot came from a drained connection
            by_contra hob
            have hcs : cs = [] := by
              by_contra hcs
              exact hob (hiff'.mp hcs).2
            rw [hnone hcs, hfree] at hhead
            cases hhead
          · exact hrefuses

/-- A round of `event_accept`. -/
lemma acceptNext_spec (h : Steady w lc) {answers : AcceptAnswers}
    (ha : ∀ fd, answers.accept = .descriptor fd → fd ≠ -1 ∧ w.kernel.isOpen fd = false) :
    ∃ r w' slot ms, acceptNext w (lc, .read) answers = some (r, w') ∧
      (∀ rev, r ≠ .read rev) ∧
      (match answers.accept with
        | .descriptor fd => (acceptDescriptor w fd answers.drain).bind Prod.fst
        | _ => none) = slot ∧ AcceptMoves w w' lc slot ms ∧
      ∀ m ∈ ms, m.Closes → answers.accept.IsDescriptor ∧ AcceptEnds w (lc, .read) answers := by
  have hself := (Keeps.refl h).acceptMoves
  cases hans : answers.accept with
  | descriptor fd =>
    obtain ⟨hne, hfd⟩ := ha fd hans
    obtain ⟨r, w', slot, ms, hrun, hno, hslot, hmoves, hcl⟩ := acceptNext_descriptor h hne hfd hans
    exact ⟨r, w', slot, ms, hrun, hno, hslot, hmoves, fun m hm hm' => ⟨trivial, hcl m hm hm'⟩⟩
  | again => exact ⟨_, w, none, [], by rw [acceptNext, hans], by simp, rfl, hself, by simp⟩
  | fail => exact ⟨_, w, none, [], by rw [acceptNext, hans], by simp, rfl, hself, by simp⟩
  | aborted =>
    refine ⟨_, w, none, [], by rw [acceptNext, hans], fun rev => ?_, rfl, hself, by simp⟩
    split_ifs <;> simp
  | exhausted =>
    obtain ⟨w', hrun, hk⟩ := acceptExhausted_keeps h (lc, .read) answers.ok
    exact ⟨.ret, w', none, [], by rw [acceptNext, hans, hrun]; rfl, by simp, rfl, hk.acceptMoves,
      by simp⟩

/-- A round of `event_accept`. -/
lemma State.Sound.accept {answers : AcceptAnswers} (h : s.Sound lc) (ha : s.Allowed (.accept answers))
    (hstep : s.step (.accept answers) = some s') :
    s'.Sound lc ∧ ∃ ms, Moves s (.accept answers) s' ms := by
  obtain ⟨ev, st, htasks⟩ : ∃ ev st, s.tasks = .accept ev :: st := by
    cases htasks : s.tasks with
    | nil => simp [State.step, htasks] at hstep
    | cons t st => cases t <;> simp [State.step, htasks] at hstep ⊢
  have hdue := h.tasks
  rw [htasks] at hdue
  obtain ⟨hev, hst⟩ := hdue
  obtain rfl : ev = (lc, .read) := hev
  obtain ⟨r, w', slot, ms, hrun, hno, hslot, hmoves, hcl⟩ := acceptNext_spec h.steady ha
  have htakes : s.takes answers = slot := by
    rw [← hslot]
    cases hans : answers.accept <;> simp only [State.takes, hans]
  rw [State.step, htasks] at hstep
  simp only [State.acceptRound, hrun, htakes, Option.bind_eq_bind, Option.bind_some] at hstep
  obtain rfl := Option.some.inj hstep
  have hloops := tasksDue_of_loops hst w' lc
  refine ⟨⟨hmoves.steady, ?_⟩, ms, hmoves.run s.received s.sent, fun m hm => ?_,
    .inr hmoves.plain⟩
  · cases r with
    | ret => exact hloops
    | more => exact ⟨rfl, hst⟩
    | read rev => exact absurd rfl (hno rev)
  · have hends : m.Closes → s.Ends (.accept answers) := by
      intro hm'
      exact ⟨(lc, .read), by rw [State.accepting, htasks]; rfl, hcl m hm hm'⟩
    have hplain := hmoves.plain m hm
    cases m with
    | close c => exact hends trivial
    | refuse c pool => exact hends trivial
    | expire c => exact hplain.elim
    | send c k granted => exact hplain.elim
    | receive c memory l => trivial
    | accept c pool deferred => trivial
    | decline c => trivial

/-! ## Runs -/

/-- Every allowed step keeps the invariant and makes moves of the service. -/
theorem State.Sound.step (h : s.Sound lc) (ha : s.Allowed a) (hstep : s.step a = some s') :
    s'.Sound lc ∧ ∃ ms, Moves s a s' ms := by
  cases a with
  | iterate free ok reports now =>
    obtain ⟨hs', hm⟩ := h.iterate ha hstep
    exact ⟨hs', [], hm⟩
  | next => exact h.next hstep
  | call memory recvs ok => exact h.call hstep
  | accept answers => exact h.accept ha hstep
  | write sends ok => exact h.write hstep

/-- The first slot becomes the listening connection. -/
lemma listenOn_steady {free : List (Fin n)} {lists : QueueId → List (Node n)}
    (hcons : Consistent w free lists) (hc : ∀ d, InUse w.connection d ↔ d = c) (hb : w.Blank c)
    (hmutex : w.useAcceptMutex = true) {b ok : Bool} (hrun : listenOn w c ok = some (b, w')) :
    Steady w' c ∧ w'.connection = w.connection ∧ w'.statActive = w.statActive ∧
      w'.pools = w.pools := by
  have hcc : InUse w.connection c := (hc c).mpr rfl
  obtain ⟨w₁, hw₁⟩ : ∃ w₁, w₁ = ({ w with listening :=
      { w.listening with connection := some c } } : Worker n).setEvent (c, .read) fun e =>
      { e with accept := true, deferredAccept := w.listening.deferredAccept
               handler := .eventAccept } := ⟨_, rfl⟩
  have hcons₁ : Consistent w₁ free lists := by
    rw [hw₁]
    refine Consistent.setEvent (w := { w with listening := _ }) ?_ _ fun _ => ⟨rfl, rfl, rfl, rfl⟩
    refine ⟨hcons.slots, hcons.timers, hcons.queues, hcons.interests, fun d hd => ?_⟩
    obtain rfl : c = d := Option.some.inj hd
    exact ⟨hcons.slots.data c .read hcc, fun _ => hcc⟩
  have h₁ : Steady w₁ c := by
    refine ⟨⟨free, lists, hcons₁⟩, by rw [hw₁]; rfl, by rw [hw₁]; exact hmutex, by rw [hw₁]; exact hcc,
      fun d hd => ?_⟩
    obtain rfl : d = c := by
      rw [hw₁] at hd
      exact (hc d).mp hd
    refine ⟨?_, fun _ => ?_, ?_, ?_, ?_⟩
    · simp [hw₁, Worker.setEvent, readHandler]
    · rw [hw₁]
      exact hb.reusable
    · simpa [hw₁, Worker.setEvent] using hb.active .write
    · simpa [hw₁, Worker.setEvent] using hb.posted .write
    · rw [hw₁]
      exact hb.timerSet .write
  have hparts : w₁.connection = w.connection ∧ w₁.statActive = w.statActive ∧
      w₁.pools = w.pools := by
    rw [hw₁]
    exact ⟨rfl, rfl, rfl⟩
  have hadd : ∀ {b w'}, epollAddEvent w₁ (c, .read) .read false ok = some (b, w') →
      Steady w' c ∧ w'.connection = w.connection ∧ w'.statActive = w.statActive ∧
        w'.pools = w.pools := by
    intro b w' hadd
    rcases epollAddEvent_spec hcons₁ .read h₁.inUse false ok with
      ⟨hrun, -⟩ | ⟨kernel, hrun, hcons₂, -⟩
    · rw [hrun] at hadd
      obtain rfl := (Prod.mk.inj (Option.some.inj hadd)).2
      exact ⟨h₁, hparts⟩
    · rw [hrun] at hadd
      obtain rfl := (Prod.mk.inj (Option.some.inj hadd)).2
      exact ⟨(Stays.withActive w₁ c true kernel).steady h₁ hcons₂, hparts⟩
  have hcall : listenOn w c ok =
      if w.listening.reuseport then epollAddEvent w₁ (c, .read) .read false ok
      else if w.useAcceptMutex then some (false, w₁)
      else epollAddEvent w₁ (c, .read) .read false ok := by
    rw [listenOn, hw₁]
    simp only [hcons.slots.read]
    rfl
  rw [hcall, if_pos hmutex] at hrun
  split_ifs at hrun
  · exact hadd hrun
  · obtain rfl := (Prod.mk.inj (Option.some.inj hrun)).2
    exact ⟨h₁, hparts⟩

/-- A run starts with the listening connection and no client. -/
lemma start_sound (h : s.Start) : ∃ lc, s.Sound lc ∧ s.service = .start n := by
  obtain ⟨w, w', b, ok, hn, hinvalid, hlisten, hopen, hact, hpools, hrun, rfl⟩ := h
  have hcons := openTable_consistent hinvalid hlisten
  have hfree : ∀ d, ¬ InUse (openTable (initCycle w)).connection d :=
    fun d => (hcons.slots.mem_free d).mp (List.mem_finRange d)
  have hne : w.listening.fd ≠ -1 := by
    intro e
    rw [e, hinvalid] at hopen
    cases hopen
  rcases popConnection_spec hcons hne (fun d hd => absurd hd (hfree d)) hopen rfl with
    ⟨hnil, -⟩ | ⟨c, l, -, -, hpop, hcons₁, hblank, htakes⟩
  · have := congrArg List.length hnil
    rw [List.length_finRange] at this
    exact absurd this hn.ne'
  · have hlistenOn : listenOn ((openTable (initCycle w)).taken c w.listening.fd) c ok =
        some (b, w') := by
      rw [← hrun, eventProcessInit]
      simp only [show (openTable (initCycle w)).listening.fd = w.listening.fd from rfl, hpop]
    have hc : ∀ d, InUse ((openTable (initCycle w)).taken c w.listening.fd).connection d ↔
        d = c := by
      intro d
      rw [htakes.inUse]
      simp [hfree d]
    obtain ⟨hst, hconn, hact', hpools'⟩ := listenOn_steady hcons₁ hc hblank rfl hlistenOn
    refine ⟨c, ⟨hst, trivial⟩, Service.ext (funext fun d => ?_) (hact'.trans hact)
      (hpools'.trans hpools) rfl rfl⟩
    refine clientOf_of_not fun hd => ?_
    obtain ⟨hu, hne⟩ := (hst.serving_iff d).mp hd
    rw [hconn] at hu
    exact hne ((hc d).mp hu)

/-- The runs of the program are runs of its service. A condition on the steps gives one on the
moves if it holds of the moves a step causes. -/
theorem runs_serves {ok : State n → Label n → Prop} {okMove : Service n → Move n → Prop}
    (hok : ∀ s lc a m, s.Sound lc → ok s a → s.Causes a m →
      okMove s.service m ∧ (m.Plain → ∀ A, okMove A m)) {s : State n} (h : Runs ok s) :
    (∃ lc, s.Sound lc) ∧ Serves okMove s.service := by
  refine h.invariant (I := fun s => (∃ lc, s.Sound lc) ∧ Serves okMove s.service) ?_ ?_
  · intro s hs
    obtain ⟨lc, hsound, hservice⟩ := start_sound hs
    exact ⟨⟨lc, hsound⟩, .init hservice⟩
  · rintro s a s' ⟨⟨lc, hsound⟩, hserves⟩ ⟨ha, hoka⟩ hstep
    obtain ⟨hsound', ms, hm⟩ := hsound.step ha hstep
    refine ⟨⟨lc, hsound'⟩, ?_⟩
    rcases hm.plain with ⟨m, rfl⟩ | hplain
    · have hrun := hm.run
      rw [Service.run, List.foldlM_cons] at hrun
      obtain ⟨A, hA, hnil⟩ := Option.bind_eq_some_iff.mp hrun
      obtain rfl : A = s'.service := Option.some.inj hnil
      exact .step hserves (hok s lc a m hsound hoka (hm.causes m (.head _))).1 hA
    · exact hserves.run hm.run fun m hm' A =>
        (hok s lc a m hsound hoka (hm.causes m hm')).2 (hplain m hm') A

/-- Every state of every run is sound. -/
lemma runs_sound {ok : State n → Label n → Prop} {s : State n} (h : Runs ok s) :
    ∃ lc, s.Sound lc :=
  (@runs_serves _ _ (fun _ _ => True) (fun _ _ _ _ _ _ _ => ⟨trivial, fun _ _ => trivial⟩) _ h).1

end Libcn.Program
