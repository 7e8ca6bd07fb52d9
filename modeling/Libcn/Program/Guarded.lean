import Libcn.Accept.Steps
import Libcn.Program.Steps

/-!
# What a worker has of the accept mutex

`localOf` is what the protocol of the accept mutex knows of a worker. Functions that serve a client
change at most the number of free slots in it. With the mutex in use the listening event never has a
timer.
-/

namespace Libcn.Program

open Libcn.Lib Libcn.Queue Libcn.Rbtree Libcn.Timer Libcn.Cycle

variable {n : ℕ} {w w' : Worker n} {c lc : Fin n} {S : Set (EventId n)} {pc : Accept.Pc} {b : Bool}

/-- The state of a worker in the protocol of the accept mutex. -/
def localOf (w : Worker n) (lc : Fin n) (pc : Accept.Pc) (postEvents : Bool) : Accept.Local where
  pc := pc
  held := w.acceptMutexHeld
  acceptEvents := w.acceptEvents
  disabled := w.acceptDisabled
  active := (w.event (lc, .read)).active
  posted := (w.event (lc, .read)).posted
  postEvents := postEvents
  free := w.freeConnectionN

/-- What holds of a worker whose listening socket is not its own. -/
structure Guarded (w : Worker n) (lc : Fin n) : Prop where
  steady : Steady w lc
  filed : Filed w lc
  reuseport : w.listening.reuseport = false
  timerSet : w.timers.timerSet (lc, .read) = false
  timedout : w.timers.timedout (lc, .read) = false

/-- The listening event gets no timer. -/
lemma Guarded.arms (h : Guarded w lc) (ha : Arms w w' lc S) (hS : (lc, .read) ∉ S)
    (hout : w'.timers.timedout (lc, .read) = w.timers.timedout (lc, .read))
    (h' : Steady w' lc) : Guarded w' lc where
  steady := h'
  filed := ha.filed h.filed
  reuseport := by rw [ha.listening, h.reuseport]
  timerSet := by
    by_contra hne
    rw [Bool.not_eq_false] at hne
    -- it would have been armed before
    have hset := (ha.timerSet _ hne).resolve_right hS
    rw [h.timerSet] at hset
    cases hset
  timedout := by rw [hout, h.timedout]

/-- A client is served. -/
lemma Guarded.served (h : Guarded w lc) (hs : Handles w w' lc S) (hS : (lc, .read) ∉ S)
    (h' : Steady w' lc) : Guarded w' lc := h.arms hs.toArms hS hs.timedout h'

lemma Handles.localOf (hs : Handles w w' lc S) (pc : Accept.Pc) (b : Bool) :
    localOf w' lc pc b = { localOf w lc pc b with free := w'.freeConnectionN } := by
  obtain ⟨hheld, hevents, hdisabled⟩ : w'.acceptMutexHeld = w.acceptMutexHeld ∧
      w'.acceptEvents = w.acceptEvents ∧ w'.acceptDisabled = w.acceptDisabled := by
    simpa [acceptGlobals] using hs.mutex
  simp [Program.localOf, hheld, hevents, hdisabled, hs.event]

/-! ## Free slots -/

/-- If no slot is taken, none of the free ones is lost. -/
lemma Handles.free_le (hs : Handles w w' lc ∅) (h : Steady w lc) (h' : Steady w' lc) :
    w.freeConnectionN ≤ w'.freeConnectionN := by
  obtain ⟨free, lists, hcons⟩ := h.consistent
  obtain ⟨free', lists', hcons'⟩ := h'.consistent
  -- a slot is in use afterwards only if it was before
  have hsub : free ⊆ free' := by
    intro d hd
    rw [hcons'.slots.mem_free]
    exact fun huse => (hcons.slots.mem_free d).mp hd (hs.inUse_of_empty huse)
  have hlen := (hcons.slots.nodup.subperm hsub).length_le
  rwa [hcons.slots.length, hcons'.slots.length] at hlen

/-- A new connection costs one slot. -/
lemma Handles.free_le_add_one (hs : Handles w w' lc {(c, .read)}) (h : Steady w lc)
    (h' : Steady w' lc) : w.freeConnectionN ≤ w'.freeConnectionN + 1 := by
  obtain ⟨free, lists, hcons⟩ := h.consistent
  obtain ⟨free', lists', hcons'⟩ := h'.consistent
  have hsub : free ⊆ c :: free' := by
    intro d hd
    by_cases hdc : d = c
    · exact hdc ▸ .head _
    refine .tail _ ((hcons'.slots.mem_free d).mpr fun huse => ?_)
    have hno := (hcons.slots.mem_free d).mp hd
    have hmem := (hs.inUse d huse).resolve_left hno
    exact hdc (Prod.mk.inj (Set.mem_singleton_iff.mp hmem)).1
  have hlen := (hcons.slots.nodup.subperm hsub).length_le
  rwa [hcons.slots.length, List.length_cons, hcons'.slots.length] at hlen

/-! ## The accept events -/

/-- The accept events were switched on or off. -/
lemma Guarded.withActive (h : Guarded w lc) (b : Bool) {kernel : Kernel n}
    (h' : Steady (w.withActive (lc, .read) b kernel) lc) :
    Guarded (w.withActive (lc, .read) b kernel) lc where
  steady := h'
  filed := h.filed.congr rfl rfl (fun ev => by
    by_cases hev : ev = (lc, .read)
    · subst hev
      simp [Worker.withActive, Worker.setEvent]
    · simp [Worker.withActive, Worker.setEvent, hev]) fun _ => ⟨rfl, rfl⟩
  reuseport := h.reuseport
  timerSet := h.timerSet
  timedout := h.timedout

lemma localOf_withActive (w : Worker n) (lc : Fin n) (active : Bool) (kernel : Kernel n)
    (pc : Accept.Pc) (b : Bool) : localOf (w.withActive (lc, .read) active kernel) lc pc b =
      { localOf w lc pc b with active := active } := by
  simp [localOf, Worker.withActive, Worker.setEvent]

/-- `enable_accept_events` finds the listening event active, or adds it, or fails to. -/
lemma Guarded.enableAccept (h : Guarded w lc) (ok : Bool) :
    ((w.event (lc, .read)).active = true ∧ enableAcceptEvents w ok = some (true, w)) ∨
    ((w.event (lc, .read)).active = false ∧ (enableAcceptEvents w ok = some (false, w) ∨
      ∃ kernel, enableAcceptEvents w ok = some (true, w.withActive (lc, .read) true kernel) ∧
        Guarded (w.withActive (lc, .read) true kernel) lc)) := by
  obtain ⟨free, lists, hcons⟩ := h.steady.consistent
  rw [enableAcceptEvents, h.steady.listening]
  simp only [hcons.slots.read]
  by_cases hact : (w.event (lc, .read)).active = true
  · exact .inl ⟨hact, if_pos hact⟩
  refine .inr ⟨by simpa using hact, ?_⟩
  rw [if_neg hact]
  rcases epollAddEvent_spec hcons .read h.steady.inUse false ok with
    ⟨hrun, -⟩ | ⟨kernel, hrun, hcons', -⟩
  · exact .inl hrun
  · exact .inr ⟨kernel, hrun, h.withActive true
      ((Stays.withActive w lc true kernel).steady h.steady hcons')⟩

/-- `disable_accept_events` finds the listening event inactive, or removes it, or fails to. -/
lemma Guarded.disableAccept (h : Guarded w lc) (all ok : Bool) :
    ((w.event (lc, .read)).active = false ∧ disableAcceptEvents w all ok = some (true, w)) ∨
    ((w.event (lc, .read)).active = true ∧ (disableAcceptEvents w all ok = some (false, w) ∨
      ∃ kernel, disableAcceptEvents w all ok =
          some (true, w.withActive (lc, .read) false kernel) ∧
        Guarded (w.withActive (lc, .read) false kernel) lc)) := by
  obtain ⟨free, lists, hcons⟩ := h.steady.consistent
  rw [disableAcceptEvents, h.steady.listening]
  simp only [hcons.slots.read, h.reuseport, Bool.false_and, Bool.false_eq_true, if_false]
  by_cases hact : (w.event (lc, .read)).active = true
  swap
  · exact .inl ⟨by simpa using hact, if_pos (by simpa using hact)⟩
  refine .inr ⟨hact, ?_⟩
  rw [if_neg (by simpa using hact)]
  rcases epollDelEvent_spec hcons .read h.steady.inUse false ok with
    hrun | ⟨kernel, hrun, hcons', -⟩
  · exact .inl hrun
  · exact .inr ⟨kernel, hrun, h.withActive false
      ((Stays.withActive w lc false kernel).steady h.steady hcons')⟩

/-- The globals of the accept mutex and the clock. -/
lemma Guarded.globals (h : Guarded w lc) (held : Bool) (events : ℕ) (disabled : BitVec 32)
    (now : BitVec 64) :
    Guarded
      { w with
        acceptMutexHeld := held
        acceptEvents := events
        acceptDisabled := disabled
        timers := { w.timers with currentMsec := now } } lc where
  steady := (h.steady.globals held events disabled now).steady
  filed := h.filed.congr rfl rfl (fun _ => ⟨rfl, rfl⟩) fun _ => ⟨rfl, rfl⟩
  reuseport := h.reuseport
  timerSet := h.timerSet
  timedout := h.timedout

/-! ## The start -/

/-- When `event_process_init` returns, nothing is known to the protocol but that one slot is
taken. -/
lemma start_guarded {s : State n} (h : s.Start) (hport : s.worker.listening.reuseport = false)
    (hevents : s.worker.acceptEvents = 0) (hdisabled : s.worker.acceptDisabled = 0) :
    ∃ lc, s.Sound lc ∧ Guarded s.worker lc ∧ s.tasks = [] ∧
      localOf s.worker lc .top false = Accept.Local.init n := by
  obtain ⟨lc, hsound, -⟩ := start_sound h
  obtain ⟨w, w', b, ok, hn, hinvalid, hlisten, hopen, -, -, hrun, rfl⟩ := h
  obtain ⟨c, l, w₁, hw₁, -, hcons, hblank, huse₁, hcall⟩ :=
    eventProcessInit_cases hn hinvalid hlisten hopen hrun
  -- with the mutex in use the listening event is not added to `epoll` yet
  have hw' : w' = attached w₁ c := by
    by_cases hp : w.listening.reuseport = true
    · rw [if_pos hp] at hcall
      have hsame : w'.listening.reuseport = w.listening.reuseport := by
        rw [(Arms.epollAddEvent c hcall).listening, hw₁]
        rfl
      rw [hsame, hp] at hport
      cases hport
    · rwa [if_neg hp] at hcall
  subst hw'
  obtain rfl : lc = c := by
    have hconn : (attached w₁ c).listening.connection = some c := rfl
    exact Option.some.inj (hsound.steady.listening.symm.trans hconn)
  have hposted : ∀ ev, ((attached w₁ lc).event ev).posted = (w₁.event ev).posted := by
    intro ev
    by_cases hev : ev = (lc, .read)
    · subst hev
      simp [attached, Worker.setEvent]
    · simp [attached, Worker.setEvent, hev]
  have huse : ∀ d, InUse (attached w₁ lc).connection d ↔ d = lc := huse₁
  have hcount : (attached w₁ lc).freeConnectionN = n - 1 := by
    rw [hw₁]
    rfl
  refine ⟨lc, hsound, ⟨hsound.steady,
    ⟨fun d hd => ?_, fun _ => [], ?_, fun q ev hev => by cases hev⟩, hport, ?_, ?_⟩, rfl, ?_⟩
  · obtain rfl := (huse d).mp hd
    simp [attached, Worker.setEvent]
  · refine hcons.queues.congr fun x => ?_
    cases x with
    | head q => rfl
    | event ev => rw [Flagged, Flagged, hposted, huse, huse₁]
    | connection d => rfl
  · exact hblank.timerSet .read
  · rw [hw₁]
    simp [attached, Worker.setEvent, Worker.taken]
  · have hactive : ((attached w₁ lc).event (lc, .read)).active = false := by
      simpa [attached, Worker.setEvent] using hblank.active .read
    have hheld : (attached w₁ lc).acceptMutexHeld = false := by
      rw [hw₁]
      rfl
    have hno : ((attached w₁ lc).event (lc, .read)).posted = false :=
      (hposted _).trans (hblank.posted .read)
    simp only [localOf, hactive, hheld, hno, hcount, Accept.Local.init]
    exact congrArg₂ (fun e d => (⟨.top, false, e, d, false, false, false, n - 1⟩ : Accept.Local))
      hevents hdisabled

end Libcn.Program
