import Libcn.Lib.Machine
import Mathlib.Data.BitVec

/-!
# The accept mutex of `event.c` and `event_accept.c`

Workers share one word, `accept_mutex`. Each runs `process_events_and_timers` over and over;
a step of a worker is what it does between two accesses of the word, so any interleaving of
steps is a run. The choices of the kernel and of the connection handlers are labels of the
steps.

`use_accept_mutex` is 1 and `reuseport` is 0. With the mutex in use nothing arms the timer of
the listening event, so its `timedout` bit stays clear and `event_accept` starts at its loop.
-/

namespace Libcn.Accept

open Libcn.Lib

/-- Where a worker stands in its loop. -/
inductive Pc
  /-- the start of `process_events_and_timers` -/
  | top
  /-- `shmtx_trylock` reads the word -/
  | tryRead
  /-- `shmtx_trylock` compares and swaps it -/
  | tryCas
  /-- `trylock_accept_mutex` has the lock -/
  | enable
  /-- it could not enable accept events and lets the lock go -/
  | enableFailed
  /-- `trylock_accept_mutex` did not get the lock -/
  | tryFailed
  /-- the loop over the records of `epoll_process_events` -/
  | events
  /-- `event_process_posted` on `posted_accept_events` -/
  | posted
  /-- `shmtx_unlock` after the accept events, if held -/
  | unlock
  /-- timers and `posted_events` -/
  | rest
  /-- the loop of `event_accept`, called from the records or from the posted events -/
  | accept (direct : Bool)
  /-- `accept` failed for lack of descriptors -/
  | acceptFull (direct : Bool)
  deriving DecidableEq, Repr

/-- What the kernel and the connection handlers do during a step. -/
inductive Outcome
  /-- the step has no choice -/
  | next
  /-- `epoll_ctl` succeeds, or fails -/
  | ok
  | fail
  /-- a record of the listening event -/
  | listening
  /-- handlers run and close `freed` connections -/
  | handlers (freed : ℕ)
  /-- no further record, or no record at all -/
  | done
  /-- results of `accept` -/
  | again
  | aborted
  | full
  | error
  /-- `accept` succeeds and no slot can be had -/
  | noSlot
  /-- `accept` succeeds, and the connection is given up for lack of memory -/
  | noMemory (freed : ℕ)
  /-- `accept` succeeds and the connection is handled -/
  | handled (freed : ℕ)
  deriving DecidableEq, Repr

/-- The state of one worker: its place, the globals `accept_mutex_held`, `accept_events` and
`accept_disabled`, the `active` and `posted` bits of the listening event, the `POST_EVENTS` bit
of the current round, and `free_connection_n`. -/
structure Local where
  pc : Pc
  held : Bool
  acceptEvents : ℕ
  disabled : BitVec 32
  active : Bool
  posted : Bool
  postEvents : Bool
  free : ℕ
  deriving DecidableEq, Repr

/-- After `event_process_init`: the listening socket has taken one slot. -/
def Local.init (connectionN : ℕ) : Local :=
  ⟨.top, false, 0, 0, false, false, false, connectionN - 1⟩

/-- `cycle->connection_n / 8 - cycle->free_connection_n`, stored into an `int32_t`. -/
def acceptDisabled (connectionN free : ℕ) : BitVec 32 :=
  BitVec.ofNat 32 (connectionN / 8) - BitVec.ofNat 32 free

/-- Where `event_accept` returns to. -/
def Pc.acceptReturn (direct : Bool) : Pc := if direct then .events else .posted

/-- The end of `trylock_accept_mutex` without an error, and the choice of `POST_EVENTS`. -/
def Local.tryDone (l : Local) : Local := { l with pc := .events, postEvents := l.held }

/-- Connections handed back to the free list: the listening one stays in use. -/
def Local.release (connectionN freed : ℕ) (l : Local) : Option Local :=
  if l.free + freed < connectionN then some { l with free := l.free + freed } else none

/-- `shmtx_unlock` by the process `pid`. -/
def shmtxUnlock (pid word : ℕ) : ℕ := if word = pid then 0 else word

/-- One step of a worker: the new word and the new state. -/
def workerStep (connectionN pid word : ℕ) (l : Local) : Pc → Outcome → Option (ℕ × Local)
  | .top, .next =>
    if 0 < l.disabled.toInt then
      some (word, { l with pc := .events, postEvents := false, disabled := l.disabled - 1 })
    else some (word, { l with pc := .tryRead, postEvents := false })
  | .tryRead, .next =>
    some (word, { l with pc := if word = 0 then .tryCas else .tryFailed })
  | .tryCas, .next =>
    if word = 0 then some (pid, { l with pc := .enable })
    else some (word, { l with pc := .tryFailed })
  | .enable, o =>
    if l.held && l.acceptEvents == 0 then if o = .next then some (word, l.tryDone) else none
    else if l.active then
      if o = .next then some (word, { l with acceptEvents := 0, held := true }.tryDone) else none
    else match o with
      | .ok => some (word, { l with active := true, acceptEvents := 0, held := true }.tryDone)
      | .fail => some (word, { l with pc := .enableFailed })
      | _ => none
  | .enableFailed, .next => some (shmtxUnlock pid word, { l with pc := .top })
  | .tryFailed, o =>
    if !l.held then if o = .next then some (word, l.tryDone) else none
    else if !l.active then
      if o = .next then some (word, { l with held := false }.tryDone) else none
    else match o with
      | .ok => some (word, { l with active := false, held := false }.tryDone)
      | .fail => some (word, { l with pc := .top })
      | _ => none
  | .events, .listening =>
    if !l.active then none
    else if l.postEvents then some (word, { l with posted := true })
    else some (word, { l with pc := .accept true })
  | .events, .handlers freed => (l.release connectionN freed).map fun l => (word, l)
  | .events, .done => some (word, { l with pc := .posted })
  | .posted, .next =>
    if l.posted then some (word, { l with posted := false, pc := .accept false })
    else some (word, { l with pc := .unlock })
  | .unlock, .next =>
    some (if l.held then shmtxUnlock pid word else word, { l with pc := .rest })
  | .rest, .handlers freed => (l.release connectionN freed).map fun l => (word, l)
  | .rest, .done => some (word, { l with pc := .top })
  | .accept direct, .again => some (word, { l with pc := .acceptReturn direct })
  | .accept _, .aborted => some (word, l)
  | .accept direct, .full => some (word, { l with pc := .acceptFull direct })
  | .accept direct, .error => some (word, { l with pc := .acceptReturn direct })
  | .accept direct, .noSlot =>
    some (word, { l with pc := .acceptReturn direct,
                         disabled := acceptDisabled connectionN l.free })
  | .accept direct, .noMemory freed => do
    let l' ← l.release connectionN freed
    if l'.free = 0 then none
    else some (word, { l' with pc := .acceptReturn direct,
                               disabled := acceptDisabled connectionN l.free })
  | .accept _, .handled freed =>
    if 0 < l.free + freed ∧ l.free + freed ≤ connectionN then
      some (word, { l with free := l.free + freed - 1,
                           disabled := acceptDisabled connectionN l.free })
    else none
  | .acceptFull direct, o =>
    let full (l : Local) : ℕ × Local :=
      (if l.held then shmtxUnlock pid word else word,
        { l with pc := .acceptReturn direct, held := false, disabled := 1 })
    if !l.active then if o = .next then some (full l) else none
    else match o with
      | .ok => some (full { l with active := false })
      | .fail => some (word, { l with pc := .acceptReturn direct })
      | _ => none
  | _, _ => none

/-- Workers with distinct non-zero pids. -/
structure Workers (W : Type) where
  connectionN : ℕ
  pid : W → ℕ
  pid_ne_zero : ∀ w, pid w ≠ 0
  pid_injective : ∀ w w', pid w = pid w' → w = w'

/-- The shared word and the workers. -/
structure System (W : Type) where
  word : ℕ
  worker : W → Local

/-- One step of the worker `w`. -/
def System.step {W : Type} [DecidableEq W] (P : Workers W) (s : System W) (a : W × Outcome) :
    Option (System W) :=
  (workerStep P.connectionN (P.pid a.1) s.word (s.worker a.1) (s.worker a.1).pc a.2).map
    fun r => ⟨r.1, Function.update s.worker a.1 r.2⟩

/-- All workers start with the word free. -/
def acceptMachine {W : Type} [DecidableEq W] (P : Workers W) : Machine (System W) (W × Outcome) where
  init s := s.word = 0 ∧ ∀ w, s.worker w = Local.init P.connectionN
  step s a := s.step P a

/-! ## What a step can do -/

/-- The steps of a worker, by the place it is at: each with what it does to the word and to the
worker. -/
inductive WorkerMoves (connectionN pid word : ℕ) (l : Local) : Pc → ℕ → Local → Prop
  | skip (hdisabled : 0 < l.disabled.toInt) : WorkerMoves connectionN pid word l .top word
      { l with pc := .events, postEvents := false, disabled := l.disabled - 1 }
  | attempt : WorkerMoves connectionN pid word l .top word
      { l with pc := .tryRead, postEvents := false }
  | readFree (hfree : word = 0) :
      WorkerMoves connectionN pid word l .tryRead word { l with pc := .tryCas }
  | readTaken : WorkerMoves connectionN pid word l .tryRead word { l with pc := .tryFailed }
  | casTaken : WorkerMoves connectionN pid word l .tryCas word { l with pc := .tryFailed }
  | cas (hfree : word = 0) : WorkerMoves connectionN pid word l .tryCas pid { l with pc := .enable }
  | stillEnabled (hheld : l.held = true) : WorkerMoves connectionN pid word l .enable word l.tryDone
  | enabled (active : Bool) (hactive : active = true) :
      WorkerMoves connectionN pid word l .enable word
        { l with active := active, acceptEvents := 0, held := true }.tryDone
  | enableFails : WorkerMoves connectionN pid word l .enable word { l with pc := .enableFailed }
  | enableFailed : WorkerMoves connectionN pid word l .enableFailed (shmtxUnlock pid word)
      { l with pc := .top }
  | notHeld (hheld : l.held = false) :
      WorkerMoves connectionN pid word l .tryFailed word l.tryDone
  | disabled (active : Bool) (hactive : active = false) :
      WorkerMoves connectionN pid word l .tryFailed word
        { l with active := active, held := false }.tryDone
  | disableFails : WorkerMoves connectionN pid word l .tryFailed word { l with pc := .top }
  | post (hactive : l.active = true) (hpost : l.postEvents = true) :
      WorkerMoves connectionN pid word l .events word { l with posted := true }
  | direct (hactive : l.active = true) (hpost : l.postEvents = false) :
      WorkerMoves connectionN pid word l .events word { l with pc := .accept true }
  | handlers (free : ℕ) : WorkerMoves connectionN pid word l .events word { l with free := free }
  | polled : WorkerMoves connectionN pid word l .events word { l with pc := .posted }
  | takePosted (hposted : l.posted = true) : WorkerMoves connectionN pid word l .posted word
      { l with posted := false, pc := .accept false }
  | nonePosted (hposted : l.posted = false) :
      WorkerMoves connectionN pid word l .posted word { l with pc := .unlock }
  | unlock : WorkerMoves connectionN pid word l .unlock
      (if l.held then shmtxUnlock pid word else word) { l with pc := .rest }
  | restHandlers (free : ℕ) : WorkerMoves connectionN pid word l .rest word { l with free := free }
  | restDone : WorkerMoves connectionN pid word l .rest word { l with pc := .top }
  | accepted (direct : Bool) (free : ℕ) (disabled : BitVec 32) :
      WorkerMoves connectionN pid word l (.accept direct) word
        { l with free := free, disabled := disabled }
  | acceptDone (direct : Bool) (free : ℕ) (disabled : BitVec 32) :
      WorkerMoves connectionN pid word l (.accept direct) word
        { l with pc := .acceptReturn direct, free := free, disabled := disabled }
  | acceptFull (direct : Bool) : WorkerMoves connectionN pid word l (.accept direct) word
      { l with pc := .acceptFull direct }
  | full (direct active : Bool) (hactive : active = false) :
      WorkerMoves connectionN pid word l (.acceptFull direct)
        (if l.held then shmtxUnlock pid word else word)
        { l with pc := .acceptReturn direct, active := active, held := false, disabled := 1 }
  | fullFails (direct : Bool) : WorkerMoves connectionN pid word l (.acceptFull direct) word
      { l with pc := .acceptReturn direct }


variable {connectionN pid word word' : ℕ} {l l' : Local} {pc : Pc} {o : Outcome}

lemma Local.release_free {freed : ℕ} (h : l.release connectionN freed = some l') :
    ∃ n, l' = { l with free := n } := by
  unfold Local.release at h
  split at h
  · exact ⟨_, (Option.some.inj h).symm⟩
  · cases h

lemma workerStep_moves (h : workerStep connectionN pid word l pc o = some (word', l')) :
    WorkerMoves connectionN pid word l pc word' l' := by
  revert h
  fun_cases workerStep connectionN pid word l pc o <;> intro h
  -- the places where the step has no such outcome are gone after this
  any_goals cases h
  · exact .skip ‹_›
  · exact .attempt
  · split
    · exact .readFree ‹_›
    · exact .readTaken
  · exact .cas ‹_›
  · exact .casTaken
  · exact .stillEnabled (by simp_all)
  · exact .enabled _ ‹_›
  · exact .enabled _ rfl
  · exact .enableFails
  · exact .enableFailed
  · exact .notHeld (by simp_all)
  · exact .disabled _ (by simp_all)
  · exact .disabled _ rfl
  · exact .disableFails
  · exact .post (by simp_all) ‹_›
  · exact .direct (by simp_all) (by simp_all)
  · obtain ⟨l₁, hrelease, h⟩ := Option.map_eq_some_iff.mp h
    obtain ⟨n, rfl⟩ := Local.release_free hrelease
    cases h
    exact .handlers n
  · exact .polled
  · exact .takePosted ‹_›
  · exact .nonePosted (by simp_all)
  · exact .unlock
  · obtain ⟨l₁, hrelease, h⟩ := Option.map_eq_some_iff.mp h
    obtain ⟨n, rfl⟩ := Local.release_free hrelease
    cases h
    exact .restHandlers n
  · exact .restDone
  · exact .acceptDone _ _ _
  · exact .accepted _ _ _
  · exact .acceptFull _
  · exact .acceptDone _ _ _
  · exact .acceptDone _ _ _
  · obtain ⟨l₁, hrelease, h⟩ := Option.bind_eq_some_iff.mp h
    obtain ⟨n, rfl⟩ := Local.release_free hrelease
    split at h
    · cases h
    · cases h
      exact .acceptDone _ _ _
  · exact .accepted _ _ _
  · exact .full _ _ (by simp_all)
  · exact .full _ _ rfl
  · exact .fullFails _

end Libcn.Accept
