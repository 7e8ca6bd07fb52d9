import Libcn.Descriptor.Machine
import Libcn.Program.OnTime

/-!
# How `main` starts the program

`create_listening`, `open_listening_sockets`, `configure_listening_sockets` and
`event_process_init`, in the order of `main`. The options of the socket are asked for one by one,
and what the kernel answers to them changes nothing.
-/

namespace Libcn.Program

open Libcn.Lib Libcn.Queue Libcn.Rbtree Libcn.Timer Libcn.Cycle Libcn.Descriptor

variable {n : ℕ} {w w' : Worker n} {s s' : State n}

/-! ## The listening socket -/

/-- The fields of `listening_t` that only `configure_listening_sockets` reads. -/
structure ListeningOptions where
  backlog : ℤ
  rcvbuf : ℤ
  sndbuf : ℤ
  keepidle : ℤ
  keepintvl : ℤ
  keepcnt : ℤ
  listen : Bool
  keepalive : BitVec 2
  deleteDeferred : Bool
  addDeferred : Bool
  fastopen : ℤ
  deriving DecidableEq, Repr

/-- `create_listening`, if the pool has memory for the structure and the address. -/
def createListening (structMemory addressMemory : Bool) :
    Option (Listening n × ListeningOptions) :=
  if !structMemory then none
  else if !addressMemory then none
  else some
    ({ fd := -1
       connection := none
       ignore := false
       addReuseport := false
       reuseport := false
       deferredAccept := false
       postAcceptTimeout := 300 },
     { backlog := 511
       rcvbuf := -1
       sndbuf := -1
       keepidle := 7200
       keepintvl := 75
       keepcnt := 9
       listen := false
       keepalive := 1
       deleteDeferred := false
       addDeferred := true
       fastopen := 1 })

/-- A request of `configure_listening_sockets`. -/
inductive Request
  | rcvbuf (value : ℤ)
  | sndbuf (value : ℤ)
  | keepalive (value : ℤ)
  | keepidle (value : ℤ)
  | keepintvl (value : ℤ)
  | keepcnt (value : ℤ)
  | fastopen (value : ℤ)
  | listen (backlog : ℤ)
  | deferAccept (value : ℤ)
  deriving DecidableEq, Repr

/-- `configure_listening_sockets`: what it asks the kernel for, and the structure after it. -/
def configureListeningSockets (ls : Listening n) (o : ListeningOptions) :
    List Request × Listening n :=
  ((if o.rcvbuf ≠ -1 then [Request.rcvbuf o.rcvbuf] else []) ++
    (if o.sndbuf ≠ -1 then [Request.sndbuf o.sndbuf] else []) ++
    (if o.keepalive ≠ 0 then [Request.keepalive (if o.keepalive = 1 then 1 else 0)] else []) ++
    (if o.keepidle ≠ 0 then [Request.keepidle o.keepidle] else []) ++
    (if o.keepintvl ≠ 0 then [Request.keepintvl o.keepintvl] else []) ++
    (if o.keepcnt ≠ 0 then [Request.keepcnt o.keepcnt] else []) ++
    (if o.fastopen ≠ -1 then [Request.fastopen o.fastopen] else []) ++
    (if o.listen then [Request.listen o.backlog] else []) ++
    (if o.addDeferred || o.deleteDeferred then
      [Request.deferAccept (if o.addDeferred then 1 else 0)] else []),
    if o.addDeferred then { ls with deferredAccept := true } else ls)

/-! ## `main` -/

/-- `main` up to the first call of `process_events_and_timers`, and what it asked the kernel for.
It goes on whether the socket could be opened or not. -/
def launchMain (w : Worker n) (a : OpenAnswers) (ok : Bool) : Option (List Request × State n) := do
  let (ls, o) ← createListening true true
  let (opened, w) := openListeningSockets { initCycle w with listening := ls } a
  let (requests, ls) := configureListeningSockets w.listening { o with listen := opened }
  let (_, w) ← eventProcessInit { w with listening := ls } ok
  pure (requests, ⟨w, [], fun _ => [], fun _ => []⟩)

/-- The runs of the program: `main` starts with no descriptor of its own, and could open the
listening socket. -/
def State.MainStart (s : State n) : Prop :=
  ∃ (w : Worker n) (a : OpenAnswers) (fd : ℤ) (ok : Bool) (requests : List Request), 0 < n ∧
    w.kernel.isOpen (-1) = false ∧ w.statActive = 0 ∧ w.pools = [] ∧ fd ≠ -1 ∧
    a = ⟨some fd, true, a.reuseport, true, true, true⟩ ∧ launchMain w a ok = some (requests, s)

/-- The program as `main` starts it. -/
def mainMachine (n : ℕ) : Machine (State n) (Label n) := ⟨State.MainStart, State.step⟩

/-- What `main` asks the kernel for on a socket that listens. -/
def mainRequests : List Request :=
  [.keepalive 1, .keepidle 7200, .keepintvl 75, .keepcnt 9, .fastopen 1, .listen 511,
    .deferAccept 1]

/-- The worker `main` hands to `event_process_init`. -/
def listeningOn (w : Worker n) (fd : ℤ) : Worker n :=
  { w with
    kernel := w.kernel.hand fd
    listening := ⟨fd, none, false, false, false, true, 300⟩ }

lemma launchMain_eq (w : Worker n) (fd : ℤ) (reuseport ok : Bool) :
    launchMain w ⟨some fd, true, reuseport, true, true, true⟩ ok =
      (eventProcessInit (initCycle (listeningOn w fd)) ok).bind fun p =>
        some (mainRequests, ⟨p.2, [], fun _ => [], fun _ => []⟩) := rfl

/-- `main` starts a run with a deferred listening socket and a delay that fits. -/
lemma mainStart_start (h : s.MainStart) : s.Start ∧ DelayFits s.worker ∧
    s.worker.listening.deferredAccept = true := by
  obtain ⟨w, a, fd, ok, requests, hn, hinvalid, hact, hpools, hne, ha, hlaunch⟩ := h
  rw [ha, launchMain_eq] at hlaunch
  obtain ⟨⟨b, w'⟩, hinit, hpair⟩ := Option.bind_eq_some_iff.mp hlaunch
  obtain ⟨-, hs⟩ := Prod.mk.inj (Option.some.inj hpair)
  have hinvalid' : (listeningOn w fd).kernel.isOpen (-1) = false := by
    simp [listeningOn, hinvalid, hne.symm]
  have hopen : (listeningOn w fd).kernel.isOpen fd = true := by simp [listeningOn]
  obtain ⟨c, w₁, harms, hls, -⟩ := eventProcessInit_arms hn hinvalid' rfl hopen hinit
  have hls' : s.worker.listening = { (listeningOn w fd).listening with connection := some c } := by
    rw [← hs, harms.listening, hls]
  refine ⟨⟨listeningOn w fd, w', b, ok, hn, hinvalid', rfl, hopen, hact, hpools, hinit, hs.symm⟩,
    ?_, by rw [hls']; rfl⟩
  have hdelay : s.worker.listening.postAcceptTimeout = 300 := by
    rw [hls']
    rfl
  rw [DelayFits, hdelay]
  decide

end Libcn.Program
