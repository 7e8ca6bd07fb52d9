import Libcn.Program.Calls
import Libcn.Program.Refinement

/-!
# What a step can be

One lemma for the start, one for the rounds of the loops, and one for each kind of step that calls a
handler: whom it is called for, what it does to the worker and what it leaves to do.
-/

namespace Libcn.Program

open Libcn.Lib Libcn.Queue Libcn.Rbtree Libcn.Timer Libcn.Cycle

variable {n : ℕ} {w w' : Worker n} {s s' : State n} {lc : Fin n}

/-- The listening connection has a slot. -/
lemma Steady.free_lt (h : Steady w lc) : w.freeConnectionN < n := by
  obtain ⟨free, lists, hcons⟩ := h.consistent
  have hnot : lc ∉ free := fun hmem => (hcons.slots.mem_free lc).mp hmem h.inUse
  have hlen := (List.nodup_cons.mpr ⟨hnot, hcons.slots.nodup⟩).length_le_card
  rw [Fintype.card_fin, List.length_cons, hcons.slots.length] at hlen
  omega

/-! ## The start -/

/-- The worker once `c` is the connection of the listening socket. -/
def attached (w : Worker n) (c : Fin n) : Worker n :=
  ({ w with listening := { w.listening with connection := some c } } : Worker n).setEvent
    (c, .read) fun e => { e with
      accept := true
      deferredAccept := w.listening.deferredAccept
      handler := .eventAccept }

/-- `event_process_init` takes a slot for the listening socket, and no other. With the mutex in use
it adds the listening event to `epoll` only if the socket is the worker's own. -/
lemma eventProcessInit_cases {b ok : Bool} (hn : 0 < n) (hinvalid : w.kernel.isOpen (-1) = false)
    (hlisten : w.listening.connection = none) (hopen : w.kernel.isOpen w.listening.fd = true)
    (hrun : eventProcessInit (initCycle w) ok = some (b, w')) :
    ∃ c l w₁, w₁ = (openTable (initCycle w)).taken c w.listening.fd ∧
      ¬ InUse (openTable (initCycle w)).connection c ∧ Consistent w₁ l (fun _ => []) ∧
      w₁.Blank c ∧ (∀ d, InUse w₁.connection d ↔ d = c) ∧
      if w.listening.reuseport then
        epollAddEvent (attached w₁ c) (c, .read) .read false ok = some (b, w')
      else w' = attached w₁ c := by
  have hcons := openTable_consistent hinvalid hlisten
  have hfree : ∀ d, ¬ InUse (openTable (initCycle w)).connection d :=
    fun d => (hcons.slots.mem_free d).mp (List.mem_finRange d)
  have hne : w.listening.fd ≠ -1 := by
    intro e
    rw [e, hinvalid] at hopen
    cases hopen
  rcases popConnection_spec hcons hne (fun d hd => absurd hd (hfree d)) hopen rfl with
    ⟨hnil, -⟩ | ⟨c, l, -, hc, hpop, hcons₁, hblank, htakes⟩
  · have := congrArg List.length hnil
    rw [List.length_finRange] at this
    exact absurd this hn.ne'
  refine ⟨c, l, _, rfl, hc, hcons₁, hblank, fun d => ?_, ?_⟩
  · rw [htakes.inUse]
    simp [hfree d]
  rw [eventProcessInit] at hrun
  simp only [show (openTable (initCycle w)).listening.fd = w.listening.fd from rfl, hpop,
    listenOn, hcons₁.slots.read] at hrun
  by_cases hport : w.listening.reuseport = true
  · rw [if_pos hport]
    exact (if_pos hport).symm.trans hrun
  · rw [if_neg hport]
    -- `use_accept_mutex` is 1
    have hsame := ((if_neg hport).trans (if_pos rfl)).symm.trans hrun
    exact (Prod.mk.inj (Option.some.inj hsame)).2.symm

/-! ## The rounds of the loops -/

/-- A round of a loop, in front of the tasks `st`. The second half of a record finds nothing to do:
the program never asks for output. -/
inductive LoopRound (w : Worker n) (st : List (Task n)) :
    Task n → Worker n → List (Task n) → Prop
  | expired (h : timersNext w = some none) : LoopRound w st .expire w st
  | expire {ev : EventId n} {w' : Worker n} (h : timersNext w = some (some (ev, w'))) :
      LoopRound w st .expire w' (.call ev :: .expire :: st)
  | drained {q : PostedQueue} (h : postedNext w q.1 = some none) : LoopRound w st (.posted q) w st
  | posted {q : PostedQueue} {ev : EventId n} {w' : Worker n}
      (h : postedNext w q.1 = some (some (ev, w'))) :
      LoopRound w st (.posted q) w' (.call ev :: .posted q :: st)
  | recorded (b : Bool) : LoopRound w st (.batch [] b) w st
  | skip {r : Record n} {b : Bool} (rs : List (Record n)) (h : recordRead w r b = some .skip) :
      LoopRound w st (.batch (r :: rs) b) w (.batch rs b :: st)
  | idle {r : Record n} {b : Bool} (rs : List (Record n)) (h : recordRead w r b = some .idle) :
      LoopRound w st (.batch (r :: rs) b) w (.batchWrite r rs b :: st)
  | ready {r : Record n} {b : Bool} {w' : Worker n} {call : Option (EventId n)}
      (rs : List (Record n)) (h : recordRead w r b = some (.ready w' call)) :
      LoopRound w st (.batch (r :: rs) b) w'
        ((call.map Task.call).toList ++ .batchWrite r rs b :: st)
  | write (r : Record n) (rs : List (Record n)) (b : Bool) :
      LoopRound w st (.batchWrite r rs b) w (.batch rs b :: st)

lemma loopNext_round (h : Steady w lc) {t : Task n} {st st' : List (Task n)}
    (hrun : loopNext w st t = some (w', st')) : LoopRound w st t w' st' := by
  cases t with
  | call ev => cases hrun
  | accept ev => cases hrun
  | write ev => cases hrun
  | expire =>
    obtain ⟨r, hnext, hrun⟩ := Option.bind_eq_some_iff.mp hrun
    cases r with
    | none =>
      obtain ⟨rfl, rfl⟩ := Prod.mk.inj (Option.some.inj hrun)
      exact .expired hnext
    | some p =>
      obtain ⟨rfl, rfl⟩ := Prod.mk.inj (Option.some.inj hrun)
      exact .expire hnext
  | posted q =>
    obtain ⟨r, hnext, hrun⟩ := Option.bind_eq_some_iff.mp hrun
    cases r with
    | none =>
      obtain ⟨rfl, rfl⟩ := Prod.mk.inj (Option.some.inj hrun)
      exact .drained hnext
    | some p =>
      obtain ⟨rfl, rfl⟩ := Prod.mk.inj (Option.some.inj hrun)
      exact .posted hnext
  | batch records b =>
    cases records with
    | nil =>
      obtain ⟨rfl, rfl⟩ := Prod.mk.inj (Option.some.inj hrun)
      exact .recorded b
    | cons r rs =>
      obtain ⟨d, hread, hrun⟩ := Option.bind_eq_some_iff.mp hrun
      cases d with
      | skip =>
        obtain ⟨rfl, rfl⟩ := Prod.mk.inj (Option.some.inj hrun)
        exact .skip rs hread
      | idle =>
        obtain ⟨rfl, rfl⟩ := Prod.mk.inj (Option.some.inj hrun)
        exact .idle rs hread
      | ready w₁ call =>
        cases call with
        | none =>
          obtain ⟨rfl, rfl⟩ := Prod.mk.inj (Option.some.inj hrun)
          exact .ready rs hread
        | some ev =>
          obtain ⟨rfl, rfl⟩ := Prod.mk.inj (Option.some.inj hrun)
          exact .ready rs hread
  | batchWrite r rs b =>
    have hquiet : loopNext w st (.batchWrite r rs b) = some (w, .batch rs b :: st) := by
      rcases recordWrite_keeps h r b with hwrite | hwrite <;> rw [loopNext, hwrite] <;> rfl
    rw [hquiet] at hrun
    obtain ⟨rfl, rfl⟩ := Prod.mk.inj (Option.some.inj hrun)
    exact .write r rs b

/-! ## The calls of handlers -/

/-- The handler on top of the stack is `event_accept`, or `myread` of a client. -/
lemma State.Sound.call_cases {memory : Option (ℕ → UInt8)} {recvs : List (List RecvResult)}
    {ok : Bool} (h : s.Sound lc) (hstep : s.step (.call memory recvs ok) = some s') :
    ∃ c st, s.tasks = .call (c, .read) :: st ∧
      ((c = lc ∧ ∃ go, eventAcceptStart s.worker (lc, .read) ok = some (go, s'.worker) ∧
          s'.tasks = if go then .accept (lc, .read) :: st else st) ∨
        (c ≠ lc ∧ Handles s.worker s'.worker lc ∅ ∧
          ∃ go : Bool, s'.tasks = if go then .write (c, .read) :: st else st)) := by
  obtain ⟨ev, st, htasks⟩ : ∃ ev st, s.tasks = .call ev :: st := by
    cases htasks : s.tasks with
    | nil => simp [State.step, htasks] at hstep
    | cons t st => cases t <;> simp [State.step, htasks] at hstep ⊢
  have hdue := h.tasks
  rw [htasks] at hdue
  obtain ⟨⟨hside, hc⟩, -⟩ := hdue
  obtain ⟨c, i⟩ := ev
  obtain rfl : i = .read := hside
  refine ⟨c, st, htasks, ?_⟩
  rw [State.step, htasks] at hstep
  simp only at hstep
  have hhandler := (h.steady.slot c hc).handler
  rw [readHandler] at hhandler
  by_cases hlc : c = lc
  · subst hlc
    rw [if_pos rfl] at hhandler
    rw [State.callHandler, hhandler] at hstep
    obtain ⟨⟨go, w'⟩, hrun, hstep⟩ := Option.bind_eq_some_iff.mp hstep
    obtain rfl := Option.some.inj hstep
    exact .inl ⟨rfl, go, hrun, rfl⟩
  · rw [if_neg hlc] at hhandler
    obtain ⟨go, l, w', hrun, rfl⟩ := callHandler_myread hhandler hstep
    obtain ⟨free, lists, hcons⟩ := h.steady.consistent
    have hdata := hcons.slots.data c .read hc
    have hs := Handles.myreadReceive h.steady.wired hlc hc hdata hrun
    exact .inr ⟨hlc, hs, go, rfl⟩

/-- `mywrite` is called for a client. -/
lemma State.Sound.write_cases {sends : List (List SendResult)} {ok : Bool} (h : s.Sound lc)
    (hstep : s.step (.write sends ok) = some s') :
    ∃ c st, s.tasks = .write (c, .read) :: st ∧ c ≠ lc ∧ Handles s.worker s'.worker lc ∅ ∧
      s'.tasks = st := by
  obtain ⟨ev, st, htasks⟩ : ∃ ev st, s.tasks = .write ev :: st := by
    cases htasks : s.tasks with
    | nil => simp [State.step, htasks] at hstep
    | cons t st => cases t <;> simp [State.step, htasks] at hstep ⊢
  have hdue := h.tasks
  rw [htasks] at hdue
  obtain ⟨⟨hside, hserve, hready⟩, -⟩ := hdue
  obtain ⟨c, i⟩ := ev
  obtain rfl : i = .read := hside
  rw [State.step, htasks] at hstep
  obtain ⟨⟨l, w'⟩, hrun, hstep⟩ := Option.bind_eq_some_iff.mp hstep
  obtain rfl := Option.some.inj hstep
  obtain ⟨free, lists, hcons⟩ := h.steady.consistent
  have hlc : c ≠ lc := ((h.steady.serving_iff c).mp hserve).2
  have hdata := hcons.slots.data c .read hserve.1
  have hs := Handles.mywrite h.steady.wired hlc hdata hserve.1 hready hrun
  exact ⟨c, st, htasks, hlc, hs, rfl⟩

/-- A round of `event_accept` ends it or goes on to the next one. `callback` reads nothing. -/
lemma State.Sound.accept_cases {answers : AcceptAnswers} (h : s.Sound lc)
    (ha : s.Allowed (.accept answers)) (hstep : s.step (.accept answers) = some s') :
    ∃ st r, s.tasks = .accept (lc, .read) :: st ∧
      acceptNext s.worker (lc, .read) answers = some (r, s'.worker) ∧
      ((r = .ret ∧ s'.tasks = st) ∨ (r = .more ∧ s'.tasks = .accept (lc, .read) :: st)) := by
  obtain ⟨ev, st, htasks⟩ : ∃ ev st, s.tasks = .accept ev :: st := by
    cases htasks : s.tasks with
    | nil => simp [State.step, htasks] at hstep
    | cons t st => cases t <;> simp [State.step, htasks] at hstep ⊢
  have hdue := h.tasks
  rw [htasks] at hdue
  obtain rfl : ev = (lc, .read) := hdue.1
  obtain ⟨r, w', slot, ms, hrun, hno, -, -, -⟩ := acceptNext_spec h.steady ha
  rw [State.step, htasks] at hstep
  simp only [State.acceptRound, hrun, Option.bind_eq_bind, Option.bind_some] at hstep
  cases r with
  | ret =>
    obtain rfl := Option.some.inj hstep
    exact ⟨st, .ret, htasks, hrun, .inl ⟨rfl, rfl⟩⟩
  | more =>
    obtain rfl := Option.some.inj hstep
    exact ⟨st, .more, htasks, hrun, .inr ⟨rfl, rfl⟩⟩
  | read rev => exact absurd rfl (hno rev)

end Libcn.Program
