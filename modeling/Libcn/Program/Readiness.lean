import Libcn.Program.Machine
import Libcn.Program.Send

/-!
# The ready bits after `posix_send` and `posix_recv`

With edge-triggered events a bit that is cleared too much is not set again, and one that is kept
costs a system call.
-/

namespace Libcn.Program

open Libcn.Lib Libcn.Cycle

variable {n : ℕ}

/-! ## `posix_send` -/

namespace SendResult

/-- How many of `size` bytes `send` took. -/
def taken (size : ℕ) : SendResult → ℕ
  | .count k => min k size
  | _ => 0

/-- What a call of `send` returns, seen from the caller of `posix_send`: -2 stands for
`EAGAIN`. -/
def returned (size : ℕ) : SendResult → IoResult ℕ
  | .count k => .done (min k size)
  | .again => .again
  | .intr | .fail => .error

/-- The socket is full: a short write, zero, or `EAGAIN`. -/
def Withdraws (size : ℕ) : SendResult → Prop
  | .count k => k < size
  | .again => True
  | .intr | .fail => False

end SendResult

/-- `send` is interrupted `k` times and then answers `r`. -/
def interrupted (k : ℕ) (r : SendResult) : List SendResult := List.replicate k .intr ++ [r]

/-- What `posix_send` is meant to do when the last answer of `send` is `r`. -/
def SendLaw (w : Worker n) (c : Fin n) (size : ℕ) (rs : List SendResult) (r : SendResult) : Prop :=
  ∃ w', posixSend w c size rs = some (r.returned size, w') ∧
    (w'.connection c).sent = (w.connection c).sent + r.taken size ∧
    (r ≠ .fail → ((w'.event (w.connection c).write).ready = false ↔ r.Withdraws size))

/-- What decides whether the ready bit is right after `k` interruptions: no interruption came before
a write that took everything; and a positive short write is seen as short, which takes a size that
is positive as a `ssize_t`, unless an interruption has cleared the bit. -/
def SendCondition (size k : ℕ) : SendResult → Prop
  | .count j => (size ≤ j → k = 0) ∧ (0 < j → j < size → size < 2 ^ 63 ∨ 0 < k)
  | _ => True

/-- The last answer makes `posix_send` clear the ready bit. -/
def SendResult.Clears (size : ℕ) : SendResult → Prop
  | .count k => min k size = 0 ∨ ((min k size : ℕ) : ℤ) < ssize size
  | .again => True
  | .intr | .fail => False

/-- The interruptions clear the ready bit. -/
lemma posixSend_interrupted (w : Worker n) (c : Fin n) (size k : ℕ) (r : SendResult) :
    posixSend w c size (interrupted k r) = posixSend (if k = 0 then w else
      w.setEvent (w.connection c).write fun e => { e with ready := false }) c size [r] := by
  induction k generalizing w with
  | zero => rfl
  | succ k ih =>
    rw [interrupted, List.replicate_succ, List.cons_append, posixSend]
    refine (ih _).trans ?_
    rw [if_neg (Nat.succ_ne_zero k)]
    by_cases hk : k = 0
    · rw [if_pos hk]
    · rw [if_neg hk]
      simp [Worker.setEvent]

/-- The last answer decides the result and the count. -/
lemma posixSend_last (w : Worker n) (c : Fin n) (size : ℕ) {r : SendResult} (hr : r ≠ .intr) :
    ∃ w', posixSend w c size [r] = some (r.returned size, w') ∧
      (w'.connection c).sent = (w.connection c).sent + r.taken size ∧
      ((w'.event (w.connection c).write).ready = false ↔
        (w.event (w.connection c).write).ready = false ∨ r.Clears size) := by
  cases r with
  | intr => exact absurd rfl hr
  | again => exact ⟨_, rfl, rfl, by simp [Worker.setEvent, SendResult.Clears]⟩
  | fail => exact ⟨_, rfl, rfl, by simp [Worker.setEvent, SendResult.Clears]⟩
  | count j =>
    by_cases hj : 0 < min j size
    · refine ⟨_, by rw [posixSend, if_pos hj]; rfl, ?_, ?_⟩
      · split <;> simp [Worker.setConnection, Worker.setEvent, SendResult.taken]
      · have hne : min j size ≠ 0 := by omega
        by_cases hlt : ((min j size : ℕ) : ℤ) < ssize size
        · rw [if_pos hlt]
          simp only [Worker.setConnection, Worker.setEvent, Function.update_self]
          exact iff_of_true trivial (.inr (.inr hlt))
        · rw [if_neg hlt]
          simp only [Worker.setConnection, SendResult.Clears]
          tauto
    · have hzero : min j size = 0 := by omega
      refine ⟨_, by rw [posixSend, if_neg hj, SendResult.returned, hzero], ?_, ?_⟩
      · simp [Worker.setEvent, SendResult.taken, hzero]
      · simp [Worker.setEvent, SendResult.Clears, hzero]

lemma ssize_cases {size : ℕ} (hsize : size < 2 ^ 64) :
    size < 2 ^ 63 ∧ ssize size = size ∨ 2 ^ 63 ≤ size ∧ ssize size < 0 := by
  rw [ssize, BitVec.toInt_eq_toNat_cond, BitVec.toNat_ofNat]
  omega

/-- After `k` interruptions the ready bit is right exactly under the condition. -/
lemma sendCondition_iff {size k : ℕ} (h0 : 0 < size) (hsize : size < 2 ^ 64) {r : SendResult}
    (hr : r ≠ .intr) :
    (r ≠ .fail → (0 < k ∨ r.Clears size ↔ r.Withdraws size)) ↔ SendCondition size k r := by
  have hcases := ssize_cases hsize
  cases r with
  | intr => exact absurd rfl hr
  | again => simp [SendResult.Clears, SendResult.Withdraws, SendCondition]
  | fail => simp [SendCondition]
  | count j =>
    simp only [SendResult.Clears, SendResult.Withdraws, SendCondition, ne_eq, reduceCtorEq,
      not_false_eq_true, forall_const]
    omega

/-- What a whole call does: the ready bit is cleared by an interruption or by the last answer. -/
lemma posixSend_run {w : Worker n} {c : Fin n} (size k : ℕ) {r : SendResult}
    (hready : (w.event (w.connection c).write).ready = true) (hr : r ≠ .intr) :
    ∃ w', posixSend w c size (interrupted k r) = some (r.returned size, w') ∧
      (w'.connection c).sent = (w.connection c).sent + r.taken size ∧
      ((w'.event (w.connection c).write).ready = false ↔ 0 < k ∨ r.Clears size) := by
  rw [posixSend_interrupted]
  by_cases hk : k = 0
  · rw [if_pos hk]
    obtain ⟨w', hrun, hsent, hclear⟩ := posixSend_last w c size hr
    refine ⟨w', hrun, hsent, ?_⟩
    rw [hclear, hready]
    simp [hk]
  · rw [if_neg hk]
    obtain ⟨w', hrun, hsent, hclear⟩ := posixSend_last
      (w.setEvent (w.connection c).write fun e => { e with ready := false }) c size hr
    refine ⟨w', hrun, hsent, hclear.trans ?_⟩
    simp [Worker.setEvent, Nat.pos_of_ne_zero hk]

/-- `posix_send` returns the last answer of `send`, counts the bytes sent and, unless that answer is
a fatal error, leaves the ready bit clear exactly when it says that the socket is full, if and only
if the condition holds. -/
theorem posixSend_ready_iff (w : Worker n) (c : Fin n) (size k : ℕ) (r : SendResult)
    (hready : (w.event (w.connection c).write).ready = true) (h0 : 0 < size)
    (hsize : size < 2 ^ 64) (hr : r ≠ .intr) :
    SendLaw w c size (interrupted k r) r ↔ SendCondition size k r := by
  obtain ⟨w', hrun, hsent, hclear⟩ := posixSend_run size k hready hr
  rw [← sendCondition_iff h0 hsize hr, ← hclear]
  constructor
  · rintro ⟨w₁, hrun₁, -, hbit⟩
    obtain rfl : w' = w₁ := (Prod.mk.inj (Option.some.inj (hrun.symm.trans hrun₁))).2
    exact hbit
  · exact fun hbit => ⟨w', hrun, hsent, hbit⟩

/-- A worker with one connection, that of its listening socket, ready to write and to read. -/
def readyWorker : Worker 1 where
  __ := listeningWorker 1 false
  event _ := { Event.zeroed with ready := true, available := true }
  connection _ := .zeroed (0, .read) (0, .write)

/-- A write is short after two interruptions. -/
theorem posixSend_ready_iff_short :
    SendLaw readyWorker 0 5 (interrupted 2 (.count 3)) (.count 3) ↔
      SendCondition 5 2 (.count 3) :=
  posixSend_ready_iff readyWorker 0 5 2 (.count 3) rfl (by decide) (by decide) (by decide)

/-- A write that takes everything after an interruption leaves the connection not ready. -/
theorem not_posixSend_ready :
    ¬∀ (w : Worker 1) (c : Fin 1) (size k : ℕ) (r : SendResult),
      (w.event (w.connection c).write).ready = true → 0 < size → size < 2 ^ 64 → r ≠ .intr →
      SendLaw w c size (interrupted k r) r := by
  intro hall
  obtain ⟨w', hrun, -, hbit⟩ := hall readyWorker 0 5 1 (.count 5) rfl (by decide) (by decide)
    (by decide)
  obtain ⟨w₁, hrun₁, -, hclear⟩ := posixSend_run (w := readyWorker) (c := 0) 5 1
    (r := .count 5) rfl (by decide)
  obtain rfl : w' = w₁ := (Prod.mk.inj (Option.some.inj (hrun.symm.trans hrun₁))).2
  exact absurd ((hbit (by decide)).mp (hclear.mpr (.inl Nat.one_pos))) (by
    simp [SendResult.Withdraws])

/-! ## `use_epoll_rdhup` -/

/-- The source files that include `epoll_event.h`: each has its own copy of the static variables
the header declares. -/
inductive SourceFile
  | array
  | buf
  | connection
  | cycle
  | epollEvent
  | event
  | eventAccept
  | eventPosted
  | eventTimer
  | list
  | main
  | palloc
  | queue
  | rbtree
  | shmtx
  | times
  deriving DecidableEq, Repr

/-- The variables `epoll_event.h` declares. Of `ep`, `event_list` and `nevents` only the copies of
`epoll_event.c` are used by any function; `eventList` is clear while the pointer is NULL. -/
structure EpollStatics where
  useEpollRdhup : SourceFile → BitVec 32
  ep : ℤ
  eventList : Bool
  nevents : BitVec 32

/-- The program starts. -/
def EpollStatics.init : EpollStatics := ⟨fun _ => 0, -1, false, 0⟩

/-- `EPOLLRDHUP`. -/
def epollRdhup : BitVec 32 := 0x2000

/-- What the system answers to `epoll_test_rdhup`: whether `socketpair`, `epoll_ctl` and the first
`close` succeed, what `epoll_wait` returns, and the bits of its event. -/
structure RdhupTest where
  socketpair : Bool
  add : Bool
  closed : Bool
  wait : ℤ
  events : BitVec 32
  deriving DecidableEq, Repr

/-- `epoll_test_rdhup`. -/
def epollTestRdhup (v : EpollStatics) (a : RdhupTest) : EpollStatics :=
  if !a.socketpair then v
  else if !a.add then v
  else if !a.closed then v
  else if a.wait = -1 then v
  else if a.wait ≠ 0 then
    { v with useEpollRdhup :=
        Function.update v.useEpollRdhup .epollEvent (a.events &&& epollRdhup) }
  else v

/-- `EPOLL_EVETNS`. -/
def epollEvents : BitVec 32 := 1024

/-- The end of `epoll_init`: the list of events; `memory` is whether it can be allocated. -/
def epollInitList (v : EpollStatics) (memory : Bool) : ℤ × EpollStatics :=
  if v.nevents < epollEvents then
    if memory then (0, { v with eventList := true, nevents := epollEvents })
    else (-1, { v with eventList := false })
  else (0, { v with nevents := epollEvents })

/-- `epoll_init`; `fd` is what `epoll_create` returns. -/
def epollInit (v : EpollStatics) (fd : ℤ) (a : RdhupTest) (memory : Bool) : ℤ × EpollStatics :=
  if v.ep = -1 then
    if fd = -1 then (-1, { v with ep := fd })
    else epollInitList (epollTestRdhup { v with ep := fd } a) memory
  else epollInitList v memory

/-- `epoll_done`. -/
def epollDone (v : EpollStatics) : EpollStatics :=
  { v with ep := -1, eventList := false, nevents := 0 }

/-- The loop of `posix_recv` with the value of `use_epoll_rdhup` that it sees. -/
def recvLoopRdhup (rdhup : BitVec 32) (w : Worker n) (rev : EventId n) (size : ℕ) :
    List RecvResult → Option (IoResult (List UInt8) × Worker n)
  | [] => none
  | .bytes l :: _ =>
    let l := l.take size
    if l = [] then some (.done [], w.setEvent rev fun e => { e with ready := false, eof := true })
    else if rdhup ≠ 0 ∧ l.length < size then
      some (.done l, w.setEvent rev fun e =>
        { e with ready := e.ready && e.pendingEof, available := false })
    else some (.done l, w)
  | .again :: _ => some (.again, w.setEvent rev fun e => { e with ready := false })
  | .intr :: rs => recvLoopRdhup rdhup w rev size rs
  | .fail :: _ => some (.error, w.setEvent rev fun e => { e with ready := false, error := true })

/-- `posix_recv`, compiled in `event_accept.c`. -/
def EpollStatics.posixRecv (v : EpollStatics) (w : Worker n) (c : Fin n) (size : ℕ)
    (rs : List RecvResult) : Option (IoResult (List UInt8) × Worker n) :=
  let rev := (w.connection c).read
  if !(w.event rev).available && !(w.event rev).pendingEof then
    some (.again, w.setEvent rev fun e => { e with ready := false })
  else recvLoopRdhup (v.useEpollRdhup .eventAccept) w rev size rs

/-- While its own copy is zero, `posix_recv` is that of the worker. -/
theorem EpollStatics.posixRecv_eq {v : EpollStatics} (hv : v.useEpollRdhup .eventAccept = 0)
    (w : Worker n) (c : Fin n) (size : ℕ) (rs : List RecvResult) :
    v.posixRecv w c size rs = Program.posixRecv w c size rs := by
  have hloop : ∀ rev, recvLoopRdhup 0 w rev size rs = recvLoop w rev size rs := by
    intro rev
    induction rs with
    | nil => rfl
    | cons r rs ih =>
      cases r with
      | intr => exact ih
      | bytes l => simp [recvLoopRdhup, recvLoop, Program.useEpollRdhup]
      | again => rfl
      | fail => rfl
  rw [posixRecv, Program.posixRecv, hv]
  simp only [hloop]

/-! ## Runs -/

/-- The static variables and a worker. -/
structure Process (n : ℕ) where
  statics : EpollStatics
  worker : Worker n

/-- The steps of a process: the calls that use the variables of the header, and everything else,
which leaves those alone. -/
inductive ProcessStep (n : ℕ)
  | epollInit (fd : ℤ) (a : RdhupTest) (memory : Bool)
  | epollDone
  | posixRecv (c : Fin n) (size : ℕ) (rs : List RecvResult)
  | other (w : Worker n)

def Process.step (s : Process n) : ProcessStep n → Option (Process n)
  | .epollInit fd a memory => some { s with statics := (epollInit s.statics fd a memory).2 }
  | .epollDone => some { s with statics := epollDone s.statics }
  | .posixRecv c size rs =>
    (s.statics.posixRecv s.worker c size rs).map fun (_, w) => { s with worker := w }
  | .other w => some { s with worker := w }

/-- The runs of a process. -/
def processMachine (n : ℕ) : Machine (Process n) (ProcessStep n) where
  init s := s.statics = .init
  step := Process.step

/-- What detected support for `EPOLLRDHUP` is meant to do for a call of `posix_recv` that gets bytes
from `recv`: after a short read it waits for the next report, unless the end of the stream has been
reported, and then it goes on. -/
def RecvLaw (s : Process n) (c : Fin n) (size : ℕ) (rs : List RecvResult) : Prop :=
  let rev := (s.worker.connection c).read
  ∀ l, recvAnswer rs = some (.bytes l) → 0 < l.length → l.length ≤ size →
    (s.worker.event rev).available = true ∨ (s.worker.event rev).pendingEof = true →
    ∃ r w', s.statics.posixRecv s.worker c size rs = some (r, w') ∧
      ((s.worker.event rev).pendingEof = false → l.length < size →
        (w'.event rev).ready = false ∧ (w'.event rev).available = false ∧
          ∀ size', ∃ w'', s.statics.posixRecv w' c size' [] = some (.again, w'')) ∧
      ((s.worker.event rev).pendingEof = true → (s.worker.event rev).ready = true →
        (w'.event rev).ready = true)

/-- `recv` answers with fewer bytes than asked for while no end of the stream has been reported. -/
def ShortRead (s : Process n) (c : Fin n) (size : ℕ) (rs : List RecvResult) : Prop :=
  let e := s.worker.event (s.worker.connection c).read
  e.available = true ∧ e.pendingEof = false ∧
    ∃ l, recvAnswer rs = some (.bytes l) ∧ 0 < l.length ∧ l.length < size

/-- The test writes the copy of its own file only. -/
lemma epollTestRdhup_other (v : EpollStatics) (a : RdhupTest) {f : SourceFile}
    (hf : f ≠ .epollEvent) : (epollTestRdhup v a).useEpollRdhup f = v.useEpollRdhup f := by
  unfold epollTestRdhup
  split_ifs
  all_goals first | rfl | exact Function.update_of_ne hf _ _

lemma epollInitList_rdhup (v : EpollStatics) (memory : Bool) :
    (epollInitList v memory).2.useEpollRdhup = v.useEpollRdhup := by
  unfold epollInitList
  split_ifs <;> rfl

lemma epollInit_other (v : EpollStatics) (fd : ℤ) (a : RdhupTest) (memory : Bool) {f : SourceFile}
    (hf : f ≠ .epollEvent) : (epollInit v fd a memory).2.useEpollRdhup f = v.useEpollRdhup f := by
  unfold epollInit
  split_ifs
  · rfl
  · rw [epollInitList_rdhup, epollTestRdhup_other _ _ hf]
  · rw [epollInitList_rdhup]

/-- In every run the copies of the other files stay zero. -/
theorem useEpollRdhup_other {s : Process n} (h : (processMachine n).Reachable s) {f : SourceFile}
    (hf : f ≠ .epollEvent) : s.statics.useEpollRdhup f = 0 := by
  refine h.invariant (I := fun s => s.statics.useEpollRdhup f = 0) ?_ ?_
  · intro s hs
    rw [show s.statics = .init from hs]
    rfl
  · intro s a s' hi _ hs
    cases a with
    | epollInit fd a memory =>
      cases hs
      exact (epollInit_other _ _ _ _ hf).trans hi
    | epollDone =>
      cases hs
      exact hi
    | posixRecv c size rs =>
      obtain ⟨r, -, rfl⟩ := Option.map_eq_some_iff.mp hs
      exact hi
    | other w =>
      cases hs
      exact hi

/-- With its copy zero, `posix_recv` leaves the event alone when `recv` answers with bytes. -/
lemma posixRecv_bytes {v : EpollStatics} (hv : v.useEpollRdhup .eventAccept = 0) {w : Worker n}
    {c : Fin n} {size : ℕ} {rs : List RecvResult} {l : List UInt8}
    (hl : recvAnswer rs = some (.bytes l)) (h0 : 0 < l.length) (hsize : l.length ≤ size)
    (hav : (w.event (w.connection c).read).available = true ∨
      (w.event (w.connection c).read).pendingEof = true) :
    v.posixRecv w c size rs = some (.done l, w) := by
  have hne : l ≠ [] := List.ne_nil_of_length_pos h0
  rw [EpollStatics.posixRecv_eq hv, posixRecv]
  rw [if_neg (by rcases hav with h | h <;> simp [h]), recvLoop_eq, hl, Option.bind_some, recvLoop]
  simp [List.take_of_length_le hsize, hne, useEpollRdhup]

/-- In every run, whether or not the test has found support for `EPOLLRDHUP`, a call of `posix_recv`
does what the support is meant for if and only if it is not a short read. -/
theorem posixRecv_rdhup_iff {s : Process n} (h : (processMachine n).Reachable s) (c : Fin n)
    (size : ℕ) (rs : List RecvResult) : RecvLaw s c size rs ↔ ¬ShortRead s c size rs := by
  have hv := useEpollRdhup_other h (f := .eventAccept) (by decide)
  constructor
  · rintro hlaw ⟨hav, hpend, l, hl, h0, hlt⟩
    obtain ⟨r, w', hrun, hshort, -⟩ := hlaw l hl h0 hlt.le (.inl hav)
    have hkeep := posixRecv_bytes hv hl h0 hlt.le (.inl hav)
    obtain ⟨rfl, rfl⟩ := Prod.mk.inj (Option.some.inj (hkeep.symm.trans hrun))
    obtain ⟨-, hav', -⟩ := hshort hpend hlt
    rw [hav] at hav'
    cases hav'
  · intro hshort l hl h0 hsize hav
    refine ⟨_, _, posixRecv_bytes hv hl h0 hsize hav, fun hpend hlt => ?_, fun _ hready => hready⟩
    have hav' : (s.worker.event (s.worker.connection c).read).available = true := by
      rcases hav with hav | hp
      · exact hav
      · rw [hpend] at hp
        cases hp
    exact absurd ⟨hav', hpend, l, hl, h0, hlt⟩ hshort

/-- A process whose test has found support. -/
def testedProcess : Process 1 where
  statics := (epollInit .init 4 ⟨true, true, true, 1, 0x2001⟩ true).2
  worker := readyWorker

lemma testedProcess_reachable : (processMachine 1).Reachable testedProcess := by
  have h₀ : (processMachine 1).Reachable ⟨.init, readyWorker⟩ := .init rfl
  exact h₀.step trivial (a := .epollInit 4 ⟨true, true, true, 1, 0x2001⟩ true) rfl

/-- The peer has closed its side, and the report of that is noted. -/
def closingProcess : Process 1 where
  statics := testedProcess.statics
  worker := readyWorker.setEvent (0, .read) fun e => { e with pendingEof := true }

/-- A short read before the end of the stream. -/
theorem posixRecv_rdhup_iff_closing : closingProcess.statics.useEpollRdhup .epollEvent ≠ 0 ∧
    (closingProcess.worker.event (0, .read)).pendingEof = true ∧
    RecvLaw closingProcess 0 4 [.intr, .bytes [0]] := by
  have hreach : (processMachine 1).Reachable closingProcess :=
    testedProcess_reachable.step trivial (a := .other closingProcess.worker) rfl
  refine ⟨by decide, rfl, (posixRecv_rdhup_iff hreach 0 4 [.intr, .bytes [0]]).mpr ?_⟩
  rintro ⟨-, hpending, -⟩
  cases hpending

/-- A read of one byte out of four leaves the connection ready. -/
theorem not_posixRecv_rdhup :
    ¬∀ s : Process 1, (processMachine 1).Reachable s →
      s.statics.useEpollRdhup .epollEvent ≠ 0 → ∀ c size rs, RecvLaw s c size rs := by
  intro hall
  obtain ⟨r, w', hrun, hshort, -⟩ := hall testedProcess testedProcess_reachable (by decide) 0 4
    [.bytes [0]] [0] rfl (by decide) (by decide) (.inl rfl)
  have hkeep : testedProcess.statics.posixRecv testedProcess.worker 0 4 [.bytes [0]] =
      some (.done [0], testedProcess.worker) :=
    posixRecv_bytes (useEpollRdhup_other testedProcess_reachable (by decide)) rfl (by decide)
      (by decide) (.inl rfl)
  obtain ⟨rfl, rfl⟩ := Prod.mk.inj (Option.some.inj (hkeep.symm.trans hrun))
  exact absurd (hshort rfl (by decide)).1 (by decide)

end Libcn.Program
