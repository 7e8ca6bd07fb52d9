import Libcn.Program.Orphans
import Libcn.Program.Startup

/-!
# The program that `main` starts reclaims nothing

`main` asks for deferred accepts, and with them `callback` never makes a connection reusable: it
finds each new connection ready. So `drain_connections` has nothing to ask, and when all slots are
taken every new connection is closed at once, however long the others have been silent.
-/

namespace Libcn.Program

open Libcn.Lib Libcn.Lib.Links Libcn.Queue Libcn.Rbtree Libcn.Timer Libcn.Cycle

variable {n : ℕ} {w w' : Worker n} {s s' : State n} {lc : Fin n} {a : Label n}

/-! ## No connection is reusable -/

/-- The listening event is deferred as the listening socket is, and if it is, no connection is
reusable. -/
structure State.Deferred (s : State n) (lc : Fin n) : Prop where
  event : (s.worker.event (lc, .read)).deferredAccept = s.worker.listening.deferredAccept
  reusable : s.worker.listening.deferredAccept = true →
    ∀ d, InUse s.worker.connection d → (s.worker.connection d).reusable = false

lemma State.Sound.deferred (h : s.Sound lc) (hd : s.Deferred lc) (ha : s.Allowed a)
    (hstep : s.step a = some s') : s'.Deferred lc := by
  obtain ⟨w, S, now, harms, hw⟩ := h.arms ha hstep
  constructor
  · rw [hw]
    show (w.event (lc, .read)).deferredAccept = w.listening.deferredAccept
    rw [harms.deferred, harms.listening, hd.event]
  · rw [hw]
    intro hdef d hd'
    have hdef' : s.worker.listening.deferredAccept = true := harms.listening ▸ hdef
    have huse : InUse w.connection d := hd'
    by_contra hre
    have hre' : (w.connection d).reusable = true := by simpa using hre
    rcases harms.reusable d huse hre' with ⟨hold, hno⟩ | hno
    · rw [hd.reusable hdef' d hold] at hno
      cases hno
    · rw [hd.event, hdef'] at hno
      cases hno

lemma start_deferred (h : s.Start) : ∃ lc, s.Sound lc ∧ s.Deferred lc := by
  obtain ⟨lc, w, hsound, harms, -, hreuse, hdef⟩ := start_arms h
  refine ⟨lc, hsound, ?_, fun hd d huse => ?_⟩
  · rw [harms.deferred, harms.listening, hdef]
  · by_contra hre
    have hre' : (s.worker.connection d).reusable = true := by simpa using hre
    rcases harms.reusable d huse hre' with ⟨hold, hno⟩ | hno
    · rw [hreuse d hold] at hno
      cases hno
    · rw [hdef, ← harms.listening, hd] at hno
      cases hno

/-! ## The program of `main` -/

/-- The states of the runs of the program that `main` starts. -/
def MainRuns (s : State n) : Prop := (mainMachine n).Reach (fun s a => s.Allowed a) s

lemma mainRuns_deferred (h : MainRuns s) :
    ∃ lc, s.Sound lc ∧ s.Deferred lc ∧ s.worker.listening.deferredAccept = true := by
  refine h.invariant (I := fun s => ∃ lc, s.Sound lc ∧ s.Deferred lc ∧
    s.worker.listening.deferredAccept = true) ?_ ?_
  · intro s hs
    obtain ⟨hstart, -, hdef⟩ := mainStart_start hs
    obtain ⟨lc, hsound, hd⟩ := start_deferred hstart
    exact ⟨lc, hsound, hd, hdef⟩
  · rintro s a s' ⟨lc, hsound, hd, hdef⟩ ha hstep
    refine ⟨lc, (hsound.step ha hstep).1, hsound.deferred hd ha hstep, ?_⟩
    rw [hsound.listening_eq ha hstep]
    exact hdef

/-- `drain_connections` finds no connection to ask. -/
lemma mainRuns_drain (h : MainRuns s) {w : Worker n} (hlinks : w.links = s.worker.links)
    (a : ReadAnswers) : drainConnections w a = some w := by
  obtain ⟨lc, hsound, hd, hdef⟩ := mainRuns_deferred h
  obtain ⟨free, lists, hcons⟩ := hsound.steady.consistent
  have hnil : lists .reusable = [] := by
    refine List.eq_nil_iff_forall_not_mem.mpr fun x hx => ?_
    have hkind := hcons.queues.takes .reusable x hx
    cases x with
    | head q => exact hkind
    | event ev => exact hkind
    | connection c =>
      obtain ⟨huse, hre⟩ := (hcons.queues.flagged (.connection c)).mpr ⟨_, hx⟩
      rw [hd.reusable hdef c huse] at hre
      cases hre
  have hempty : queueEmpty w.links (.head .reusable) = true := by
    rw [hlinks, queueEmpty_rings hcons.queues.rings]
    exact hnil
  obtain ⟨i, hi⟩ : ∃ i, drainCount w = i + 1 := by
    refine ⟨drainCount w - 1, ?_⟩
    have : 1 ≤ drainCount w := le_max_right _ _
    omega
  rw [drainConnections, hi, drainLoop, drainNext, if_pos hempty]
  rfl

/-- A worker without a free slot answers NULL to `get_connection`. -/
lemma mainRuns_full (h : MainRuns s) (hfull : s.worker.freeConnections = none) (fd : ℤ)
    (a : ReadAnswers) :
    acceptDescriptor s.worker fd a = some (none, { s.worker with
      kernel := s.worker.kernel.hand fd
      acceptDisabled := BitVec.ofNat 32 (n / 8) - BitVec.ofNat 32 s.worker.freeConnectionN }) := by
  obtain ⟨w, hw⟩ : ∃ w : Worker n, w = { s.worker with
    kernel := s.worker.kernel.hand fd
    acceptDisabled := BitVec.ofNat 32 (n / 8) - BitVec.ofNat 32 s.worker.freeConnectionN } :=
    ⟨_, rfl⟩
  have hdrain := mainRuns_drain h (w := w) (by rw [hw]) a
  have hfree : w.freeConnections = none := by rw [hw, hfull]
  rw [acceptDescriptor, ← hw, getConnection, if_pos hfree, hdrain]
  simp [popConnection, hfree]

/-- In every run that `main` starts, a new connection for which there is no free slot is closed at
once: nothing is drained for it, no client notices, and `event_accept` returns. -/
theorem main_declines (h : MainRuns s) (hfull : s.worker.freeConnections = none)
    {answers : AcceptAnswers} {fd : ℤ} (hans : answers.accept = .descriptor fd)
    (ha : s.Allowed (.accept answers)) (hstep : s.step (.accept answers) = some s') :
    s'.service = s.service ∧ s'.tasks = s.tasks.tail ∧
      s'.worker.kernel.isOpen = s.worker.kernel.isOpen ∧
      s'.worker.kernel.log = .closed fd :: .handed fd :: s.worker.kernel.log := by
  have hget := mainRuns_full h hfull fd answers.drain
  cases htasks : s.tasks with
  | nil => simp [State.step, htasks] at hstep
  | cons t st =>
    cases t with
    | accept ev =>
      rw [State.step, htasks] at hstep
      have htakes : s.takes answers = none := by
        rw [State.takes, hans]
        simp only [hget, Option.bind_some]
      simp only [State.acceptRound, acceptNext, hans, hget, htakes, Option.bind_eq_bind,
        Option.bind_some, Option.pure_def] at hstep
      obtain rfl := Option.some.inj hstep
      refine ⟨rfl, rfl, ?_, rfl⟩
      ext t
      have hnot := (ha fd hans).2
      show ((s.worker.kernel.hand fd).close fd).isOpen t = _
      rw [Kernel.isOpen_close, Kernel.isOpen_hand]
      split_ifs with ht
      · rw [ht, hnot]
      · rfl
    | _ => simp [State.step, htasks] at hstep

/-- The second connection for the only slot. -/
theorem main_declines_second :
    ∃ s s' : State 2, MainRuns s ∧ s.step (.accept
        ⟨.descriptor 5, ⟨none, [], [], true⟩, some 1, true, true⟩) = some s' ∧
      Serving s.worker 1 ∧ s'.service = s.service ∧
      s'.worker.kernel.isOpen = s.worker.kernel.isOpen := by
  have hlaunch : ((launchMain (Worker.zeroed 2) ⟨some 3, true, true, true, true, true⟩ true).bind
      fun p => ((mainMachine 2).run State.Allowed p.2 (acceptIdle.take 7)).bind fun s =>
        (s.step (.accept ⟨.descriptor 5, ⟨none, [], [], true⟩, some 1, true, true⟩)).map
          fun s' => (p, s, s')).any
      (fun r => decide (r.2.1.worker.freeConnections = none ∧ Serving r.2.1.worker 1 ∧
        r.2.1.worker.kernel.isOpen 5 = false)) = true := by decide +kernel
  obtain ⟨r, hr, hc⟩ := (Option.any_eq_true _ _).mp hlaunch
  obtain ⟨⟨requests, s₀⟩, hs₀, hr⟩ := Option.bind_eq_some_iff.mp hr
  obtain ⟨s, hrun, hr⟩ := Option.bind_eq_some_iff.mp hr
  obtain ⟨s', hstep, rfl⟩ := Option.map_eq_some_iff.mp hr
  obtain ⟨hfull, hserve, hfd⟩ := of_decide_eq_true hc
  have hmain : State.MainStart s₀ :=
    ⟨Worker.zeroed 2, _, 3, true, requests, by decide, rfl, rfl, rfl, by decide, rfl, hs₀⟩
  have hruns : MainRuns s := Machine.Reach.run (.init hmain) hrun
  have hallowed : s.Allowed (.accept
      ⟨.descriptor 5, ⟨none, [], [], true⟩, some 1, true, true⟩) := by
    intro fd he
    obtain rfl := AcceptResult.descriptor.inj he
    exact ⟨by decide, hfd⟩
  obtain ⟨hservice, -, hopen, -⟩ := main_declines hruns hfull rfl hallowed hstep
  exact ⟨s, s', hruns, hstep, hserve, hservice, hopen⟩

end Libcn.Program
