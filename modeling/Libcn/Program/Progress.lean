import Libcn.Program.Refinement

/-!
# No step is stuck

A step of the model fails where the code would follow a pointer that does not name an object, call
a handler that is not set, or lose its way in a tree or a queue. In a run it never does, as long as
the lists of answers do not end before the loops that use them.
-/

namespace Libcn.Program

open Libcn.Lib Libcn.Lib.Links Libcn.Queue Libcn.Rbtree Libcn.Timer Libcn.Cycle

variable {n : ℕ} {w w' : Worker n} {s s' : State n} {free : List (Fin n)}
  {lists : QueueId → List (Node n)} {c lc : Fin n} {a : Label n}

/-! ## Answers -/

/-- The answers are enough for any number of calls: interrupted calls get another answer at last,
and `EAGAIN` ends the loop of `myread` or `mywrite`. -/
def Label.Answered : Label n → Prop
  | .call _ recvs _ => (∀ rs ∈ recvs, recvAnswer rs ≠ none) ∧ [.again] ∈ recvs
  | .write sends _ => (∀ rs ∈ sends, sendAnswer rs ≠ none) ∧ [.again] ∈ sends
  | .iterate _ _ _ _ => True
  | .next => True
  | .accept _ => True

/-- The step is of the kind the task waits for. -/
def Task.Awaits : Task n → Label n → Prop
  | .call _, .call _ _ _ => True
  | .accept _, .accept _ => True
  | .write _, .write _ _ => True
  | .expire, .next => True
  | .posted _, .next => True
  | .batch _ _, .next => True
  | .batchWrite _ _ _, .next => True
  | _, _ => False

/-- The step is of the kind the worker waits for. -/
def State.Awaits (s : State n) (a : Label n) : Prop :=
  match s.tasks with
  | [] => ∃ free ok reports now, a = .iterate free ok reports now
  | t :: _ => t.Awaits a

/-! ## `myread` -/

lemma posixRecv_total (w : Worker n) (c : Fin n) (size : ℕ) {rs : List RecvResult}
    (hrs : recvAnswer rs ≠ none) : ∃ r w', posixRecv w c size rs = some (r, w') := by
  rw [posixRecv]
  split_ifs
  · exact ⟨_, _, rfl⟩
  obtain ⟨x, hx⟩ := Option.ne_none_iff_exists'.mp hrs
  rw [recvLoop_eq, hx, Option.bind_some]
  cases x with
  | intr => exact absurd hx (recvAnswer_ne_intr rs)
  | again => exact ⟨_, _, rfl⟩
  | fail => exact ⟨_, _, rfl⟩
  | bytes l =>
    rw [recvLoop]
    split_ifs <;> exact ⟨_, _, rfl⟩

/-- The last answer ends the loop. -/
lemma posixRecv_again (w : Worker n) (c : Fin n) (size : ℕ) :
    ∃ w', posixRecv w c size [.again] = some (.again, w') := by
  rw [posixRecv]
  split_ifs <;> exact ⟨_, rfl⟩

lemma readLoop_total {size : ℕ} (hsize : 0 < size) {recvs : List (List RecvResult)}
    (h : Consistent w free lists) (hc : InUse w.connection c)
    (hrecvs : ∀ rs ∈ recvs, recvAnswer rs ≠ none) (hlast : [.again] ∈ recvs) :
    ∃ go l w', readLoop w (c, .read) c size recvs = some (go, l, w') := by
  induction recvs generalizing w with
  | nil => cases hlast
  | cons rs rss ih =>
    obtain ⟨r, w₁, hrecv⟩ := posixRecv_total w c size (hrecvs rs (.head _))
    rw [readLoop, hrecv]
    have hclose : ∀ ready eof error, ∃ w₂, closeConnection
        (withRead w c (w.connection c).buffer ready eof error) c = some w₂ := by
      intro ready eof error
      have hc' : InUse (withRead w c (w.connection c).buffer ready eof error).connection c := by
        simpa [InUse] using hc
      obtain ⟨T, links, count, hclose, -⟩ := closeConnection_spec
        (consistent_withRead h c (w.connection c).buffer ready eof error) hc'
      exact ⟨_, hclose⟩
    rcases posixRecv_spec (h.slots.read c) hsize hrecv with
      ⟨rfl, -, eof, error, rfl⟩ | ⟨rfl, -, eof, error, rfl⟩ |
      ⟨rfl, -, eof, error, rfl⟩ | ⟨l, rfl, hl, -, rfl⟩
    · exact ⟨_, _, _, rfl⟩
    · obtain ⟨w₂, hclose⟩ := hclose false eof error
      simp only [Option.bind_eq_bind, Option.bind_some, hclose]
      exact ⟨_, _, _, rfl⟩
    · -- the end of the stream
      refine ⟨_, _, _, if_neg ?_⟩
      simp [setBuffer, Worker.setConnection]
    · have hbuffer := h.setConnection c
        (f := fun r => { r with buffer := r.buffer.map (bufReceive · l) }) (.inr rfl)
        fun _ => ⟨rfl, rfl, rfl, rfl, rfl⟩
      have hc' : InUse (setBuffer w₁ c (bufReceive · l)).connection c := by
        simpa [InUse, setBuffer, Worker.setConnection] using hc
      have hlast' : [.again] ∈ rss := by
        rcases List.mem_cons.mp hlast with hrs | hmem
        · -- the call was answered with bytes
          obtain ⟨w₂, hagain⟩ := posixRecv_again w₁ c size
          rw [hrs, hrecv] at hagain
          cases hagain
        · exact hmem
      obtain ⟨go, l', w₂, hloop⟩ := ih hbuffer hc' (fun rs hrs => hrecvs rs (.tail _ hrs)) hlast'
      by_cases hready : ((setBuffer w₁ c (bufReceive · l)).event (c, .read)).ready = true
      · refine ⟨go, l ++ l', w₂, (if_pos hready).trans ?_⟩
        rw [show readLoop (setBuffer w₁ c (bufReceive · l)) (c, .read) c size rss = _ from hloop]
        rfl
      · exact ⟨_, _, _, if_neg hready⟩

lemma myreadReceive_total (h : Consistent w free lists) (hc : InUse w.connection c)
    (memory : Option (ℕ → UInt8)) {recvs : List (List RecvResult)}
    (hrecvs : ∀ rs ∈ recvs, recvAnswer rs ≠ none) (hlast : [.again] ∈ recvs) :
    ∃ go l w', myreadReceive w (c, .read) memory recvs = some (go, l, w') := by
  obtain ⟨T, links, count, hclose, -⟩ := closeConnection_spec h hc
  rw [myreadReceive, h.slots.data c .read hc]
  simp only [Option.bind_eq_bind, Option.bind_some, hclose]
  split_ifs
  · exact ⟨_, _, _, rfl⟩
  · exact ⟨_, _, _, rfl⟩
  cases hb : readBuffer (w.connection c).buffer memory 1024 with
  | none => exact ⟨_, _, _, rfl⟩
  | some b =>
    have h₁ := h.setConnection c (f := fun r => { r with buffer := some b }) (.inr rfl)
      fun _ => ⟨rfl, rfl, rfl, rfl, rfl⟩
    have hc₁ : InUse (w.setConnection c fun r => { r with buffer := some b }).connection c := by
      simpa [InUse, Worker.setConnection] using hc
    obtain ⟨go, l, w₁, hloop⟩ := readLoop_total (by norm_num : 0 < 1024) h₁ hc₁ hrecvs hlast
    simp only [hloop, Option.bind_some]
    cases go with
    | false => exact ⟨_, _, _, rfl⟩
    | true =>
      rcases readLoop_spec (h₁.slots.read c) (by norm_num) hloop with
        ⟨-, -, eof, error, rfl⟩ | ⟨hno, -⟩
      · have h₂ := consistent_withRead h₁ c (((w.setConnection c fun r =>
          { r with buffer := some b }).connection c).buffer.map (bufReceive · l)) false eof error
        have hc₂ : InUse (withRead (w.setConnection c fun r => { r with buffer := some b }) c
            (((w.setConnection c fun r => { r with buffer := some b }).connection c).buffer.map
              (bufReceive · l)) false eof error).connection c := by
          simpa [InUse] using hc₁
        obtain ⟨links, count, hreuse, -⟩ := reusableConnection_spec h₂ hc₂ false
        simp only [hreuse, Option.bind_some]
        exact ⟨_, _, _, rfl⟩
      · cases hno

/-! ## `mywrite` -/

lemma posixSend_total (w : Worker n) (c : Fin n) (size : ℕ) {rs : List SendResult}
    (hrs : sendAnswer rs ≠ none) : ∃ r w', posixSend w c size rs = some (r, w') := by
  induction rs generalizing w with
  | nil => exact absurd rfl hrs
  | cons x rs ih =>
    cases x with
    | again => exact ⟨_, _, rfl⟩
    | fail => exact ⟨_, _, rfl⟩
    | intr => exact ih _ (by simpa [sendAnswer] using hrs)
    | count k =>
      rw [posixSend]
      split_ifs <;> exact ⟨_, _, rfl⟩

lemma mywrite_total (h : Consistent w free lists) (hc : InUse w.connection c)
    (hready : (w.event (c, .read)).ready = false) {sends : List (List SendResult)} (ok : Bool)
    (hsends : ∀ rs ∈ sends, sendAnswer rs ≠ none) (hne : sends ≠ []) :
    ∃ l w', mywrite w (c, .read) sends ok = some (l, w') := by
  obtain ⟨T, links, count, hclose, -⟩ := closeConnection_spec h hc
  rw [mywrite, h.slots.data c .read hc]
  simp only [Option.bind_eq_bind, Option.bind_some, hclose]
  split_ifs
  · exact ⟨_, _, rfl⟩
  · exact ⟨_, _, rfl⟩
  cases hb : (w.connection c).buffer with
  | none => exact ⟨_, _, rfl⟩
  | some b =>
    by_cases hsize : bufSize b = 0
    · exact ⟨_, _, if_pos hsize⟩
    simp only [hsize, if_false]
    obtain ⟨rs, rss, rfl⟩ := List.exists_cons_of_ne_nil hne
    obtain ⟨r, w₁, hsend⟩ := posixSend_total w c (bufSize b) (hsends rs (.head _))
    obtain ⟨sent, ready, error, rfl, -⟩ := posixSend_spec (h.slots.write c) hsend
    have h₁ := consistent_withSend h c sent ready error
    have hc₁ : InUse (withSend w c sent ready error).connection c := by
      simpa [InUse] using hc
    have hready₁ : ((withSend w c sent ready error).event (c, .read)).ready = false := by
      simpa using hready
    rw [sendLoop, hb]
    simp only [Option.bind_eq_bind, Option.bind_some, hsend]
    cases r with
    | again => exact ⟨_, _, rfl⟩
    | error =>
      obtain ⟨T, links, count, hclose, -⟩ := closeConnection_spec h₁ hc₁
      simp only [hclose, Option.bind_some]
      exact ⟨_, _, rfl⟩
    | done k =>
      by_cases hk : 0 < k
      · have hc₁' : InUse (withSend w c sent ready error).connection (c, Side.read).1 := hc₁
        obtain ⟨T, hclear, hT, -⟩ := clearTimer_spec (c, .read) h₁.timers hc₁'
        have h₂ := h₁.setTimers hT
        simp only [hk, if_true, hclear, Option.bind_some]
        split_ifs with hall hmore
        · obtain ⟨kernel, hadd, -⟩ := handleReadEvent_spec h₂ hc₁ hready₁ ok
          simp only [hadd, Option.bind_some]
          exact ⟨_, _, rfl⟩
        · -- the event is not ready any more
          have hno : ((withSend w c sent ready error).event (c, .read)).ready = true := hmore
          rw [hready₁] at hno
          cases hno
        · exact ⟨_, _, rfl⟩
      · simp only [hk, if_false, hready₁, Bool.false_eq_true]
        exact ⟨_, _, rfl⟩

/-! ## Steps -/

/-- A round of a loop. -/
lemma loopNext_total (h : Steady w lc) (st : List (Task n)) {t : Task n} (ht : t.Loop) :
    ∃ r, loopNext w st t = some r := by
  cases t with
  | call ev => exact ht.elim
  | accept ev => exact ht.elim
  | write ev => exact ht.elim
  | expire =>
    rw [loopNext]
    rcases timersNext_stays h with hrun | ⟨c, w', hrun, -⟩ <;> rw [hrun] <;> exact ⟨_, rfl⟩
  | posted q =>
    rw [loopNext]
    rcases postedNext_keeps h q with hrun | ⟨c, w', hrun, -⟩ <;> rw [hrun] <;> exact ⟨_, rfl⟩
  | batch rs postEvents =>
    cases rs with
    | nil => exact ⟨_, rfl⟩
    | cons r rs =>
      rw [loopNext]
      rcases recordRead_keeps h r postEvents with hrun | hrun | ⟨w', call, hrun, -⟩
      · rw [hrun]
        exact ⟨_, rfl⟩
      · rw [hrun]
        exact ⟨_, rfl⟩
      · rw [hrun]
        cases call <;> exact ⟨_, rfl⟩
  | batchWrite r rs postEvents =>
    rw [loopNext]
    rcases recordWrite_keeps h r postEvents with hrun | hrun <;> rw [hrun] <;> exact ⟨_, rfl⟩

/-- The handler of an event that is due can be called. -/
lemma callHandler_total (h : Steady s.worker lc) (hc : InUse s.worker.connection c)
    (st : List (Task n)) (memory : Option (ℕ → UInt8)) {recvs : List (List RecvResult)} (ok : Bool)
    (hrecvs : ∀ rs ∈ recvs, recvAnswer rs ≠ none) (hlast : [.again] ∈ recvs) :
    ∃ s', s.callHandler (c, .read) st memory recvs ok = some s' := by
  have hhandler := (h.slot c hc).handler
  rw [readHandler] at hhandler
  rw [State.callHandler, hhandler]
  by_cases hlc : c = lc
  · subst hlc
    obtain ⟨go, w', hrun, -⟩ := eventAcceptStart_keeps h ok
    simp only [if_true, hrun]
    exact ⟨_, rfl⟩
  · obtain ⟨free, lists, hcons⟩ := h.consistent
    obtain ⟨go, l, w', hrun⟩ := myreadReceive_total hcons hc memory hrecvs hlast
    simp only [hlc, if_false, hrun]
    exact ⟨_, rfl⟩

/-- In a sound state the next step can be made. -/
lemma State.Sound.progress (h : s.Sound lc) (ha : s.Allowed a) (hawait : s.Awaits a)
    (hans : a.Answered) : ∃ s', s.step a = some s' := by
  have hdue := h.tasks
  unfold State.Awaits at hawait
  cases htasks : s.tasks with
  | nil =>
    rw [htasks] at hawait
    obtain ⟨free, ok, reports, now, rfl⟩ := hawait
    obtain ⟨go, postEvents, w', hrun, -⟩ := lockAccept_keeps h.steady free ok
    rw [State.step, hrun]
    cases go <;> exact ⟨_, rfl⟩
  | cons t st =>
    rw [htasks] at hawait hdue
    obtain ⟨hdue, -⟩ := hdue
    have hloop : t.Loop → ∃ s', s.step .next = some s' := by
      intro ht
      obtain ⟨r, hrun⟩ := loopNext_total h.steady st ht
      rw [State.step, htasks]
      simp only [hrun]
      exact ⟨_, rfl⟩
    cases t with
    | call ev =>
      cases a with
      | call memory recvs ok =>
        obtain ⟨hside, hc⟩ := hdue
        obtain ⟨c, i⟩ := ev
        obtain rfl : i = .read := hside
        rw [State.step, htasks]
        exact callHandler_total h.steady hc st memory ok hans.1 hans.2
      | _ => exact hawait.elim
    | accept ev =>
      cases a with
      | accept answers =>
        obtain rfl : ev = (lc, .read) := hdue
        obtain ⟨r, w', slot, ms, hrun, -⟩ := acceptNext_spec h.steady ha
        rw [State.step, htasks]
        simp only [State.acceptRound, hrun]
        exact ⟨_, rfl⟩
      | _ => exact hawait.elim
    | write ev =>
      cases a with
      | write sends ok =>
        obtain ⟨hside, hserve, hready⟩ := hdue
        obtain ⟨c, i⟩ := ev
        obtain rfl : i = .read := hside
        obtain ⟨free, lists, hcons⟩ := h.steady.consistent
        obtain ⟨l, w', hrun⟩ := mywrite_total hcons hserve.1 hready ok hans.1
          (List.ne_nil_of_mem hans.2)
        rw [State.step, htasks]
        simp only [hrun]
        exact ⟨_, rfl⟩
      | _ => exact hawait.elim
    | expire =>
      cases a with
      | next => exact hloop trivial
      | _ => exact hawait.elim
    | posted q =>
      cases a with
      | next => exact hloop trivial
      | _ => exact hawait.elim
    | batch rs postEvents =>
      cases a with
      | next => exact hloop trivial
      | _ => exact hawait.elim
    | batchWrite r rs postEvents =>
      cases a with
      | next => exact hloop trivial
      | _ => exact hawait.elim

/-- No reachable state is stuck: whatever the kernel and the pools answer, the step that the worker
waits for can be made. Whether the bytes of `recv` fit the buffer is another question. -/
theorem program_progress {allowed : State n → Label n → Prop} (h : Runs allowed s)
    (ha : s.Allowed a) (hawait : s.Awaits a) (hans : a.Answered) : ∃ s', s.step a = some s' := by
  obtain ⟨lc, hsound⟩ := runs_sound h
  exact hsound.progress ha hawait hans

/-- `myread` is called for a connection that was just accepted, and an interrupted `recv` is
called again. -/
theorem program_progress_input :
    ∃ s s' : State 2, State.launch 2 false (fun _ _ => True) (acceptOne ++ inputOne) = some s ∧
      s.step (.call (some fun _ => 0) [[.intr, .bytes [1]], [.again]] true) = some s' := by
  have hrun : (State.launch 2 false (fun _ _ => True) (acceptOne ++ inputOne)).any
      (fun s => decide (s.calling = some (1, .read))) = true := by decide +kernel
  obtain ⟨s, hs, hc⟩ := (Option.any_eq_true _ _).mp hrun
  have hcalling := of_decide_eq_true hc
  have hallowed : s.Allowed (.call (some fun _ => 0) [[.intr, .bytes [1]], [.again]] true) :=
    trivial
  have hawait : s.Awaits (.call (some fun _ => 0) [[.intr, .bytes [1]], [.again]] true) := by
    rw [State.calling] at hcalling
    rw [State.Awaits]
    cases htasks : s.tasks with
    | nil => simp [htasks] at hcalling
    | cons t st => cases t <;> simp [htasks, Task.Awaits] at hcalling ⊢
  obtain ⟨s', hs'⟩ := program_progress (runs_of_launch (by decide) hs) hallowed hawait
    ⟨by decide, by decide⟩
  exact ⟨s, s', hs, hs'⟩

end Libcn.Program
