import Libcn.Program.Work

/-!
# Timers are on time

Between two iterations no armed timer is overdue, and none is further ahead than the delay of the
program. Within an iteration timers are overdue from `epoll_wait`, after which the clock is read,
until `event_expire_timers` has come to its end.
-/

namespace Libcn.Program

open Libcn.Lib Libcn.Queue Libcn.Rbtree Libcn.Timer Libcn.Cycle

variable {n : ℕ} {w w' : Worker n} {s s' : State n} {c lc : Fin n} {a : Label n}

/-- The delay of the program is not 0 and is short beside the range of the clock. -/
def DelayFits (w : Worker n) : Prop :=
  1 ≤ w.listening.postAcceptTimeout.toNat ∧ w.listening.postAcceptTimeout.toNat < 2 ^ 62

instance (w : Worker n) : Decidable (DelayFits w) := inferInstanceAs (Decidable (_ ∧ _))

/-! ## The start -/

/-- No timer is armed in a table that was just made. -/
lemma openTable_deadlines (hd : DelayFits w) : Deadlines (openTable (initCycle w)) 0 := by
  obtain ⟨-, hmem⟩ := linkTable_spec w.connection (List.nodup_finRange n)
  have hfree : ∀ c, ¬ InUse (openTable (initCycle w)).connection c :=
    fun c h => h (hmem c (List.mem_finRange c)).2.2
  have htracks : Tracks (rbtreeInit w.timers.tree .timerValue) .timerValue
      ([] : List (Entry (EventId n))) :=
    ⟨⟨.nil, holds_rbtreeInit w.timers.tree .timerValue, rfl⟩, by simp, rfl, .nil⟩
  refine ⟨by omega, hd, [], htracks, fun ev => ?_, by simp⟩
  simp [Ticking, hfree ev.1]

/-- The worker that `event_process_init` leaves: nothing is armed, no connection is reusable, and
the listening event is deferred if the listening socket is. -/
lemma eventProcessInit_arms {b ok : Bool} (hn : 0 < n) (hinvalid : w.kernel.isOpen (-1) = false)
    (hlisten : w.listening.connection = none) (hopen : w.kernel.isOpen w.listening.fd = true)
    (hrun : eventProcessInit (initCycle w) ok = some (b, w')) :
    ∃ c w₁, Arms w₁ w' c ∅ ∧ w₁.listening = { w.listening with connection := some c } ∧
      (DelayFits w → Deadlines w₁ 0) ∧
      (∀ d, InUse w₁.connection d → (w₁.connection d).reusable = false) ∧
      (w₁.event (c, .read)).deferredAccept = w.listening.deferredAccept := by
  obtain ⟨c, l, w₁, hw₁, hc, -, hblank, huse, hcall⟩ :=
    eventProcessInit_cases hn hinvalid hlisten hopen hrun
  have hls : w₁.listening = w.listening := by rw [hw₁]; rfl
  -- the worker just before the listening event may be added to `epoll`
  have ha : Arms (attached w₁ c) w' c ∅ := by
    split_ifs at hcall
    · exact .epollAddEvent c hcall
    · rw [hcall]
      exact .refl _ c
  refine ⟨c, attached w₁ c, ha, ?_, fun hd => ?_, fun d hd => ?_, ?_⟩
  · rw [← hls]
    rfl
  · have hd₁ := (openTable_deadlines hd).taken hc w.listening.fd
    rw [← hw₁] at hd₁
    exact hd₁.congr rfl rfl fun _ => Iff.rfl
  · obtain rfl := (huse d).mp hd
    exact hblank.reusable
  · rw [← hls]
    simp [attached, Worker.setEvent]

/-- A run starts with a worker like that. -/
lemma start_arms (h : s.Start) : ∃ lc w, s.Sound lc ∧ Arms w s.worker lc ∅ ∧
    (DelayFits w → Deadlines w 0) ∧
    (∀ d, InUse w.connection d → (w.connection d).reusable = false) ∧
    (w.event (lc, .read)).deferredAccept = w.listening.deferredAccept := by
  obtain ⟨lc, hsound, -⟩ := start_sound h
  obtain ⟨w, w', b, ok, hn, hinvalid, hlisten, hopen, -, -, hrun, rfl⟩ := h
  obtain ⟨c, w₁, ha, hls, hdead, hreuse, hdef⟩ :=
    eventProcessInit_arms hn hinvalid hlisten hopen hrun
  have hlc : lc = c := by
    have hconn : w'.listening.connection = some c := by rw [ha.listening, hls]
    exact Option.some.inj (hsound.steady.listening.symm.trans hconn)
  subst hlc
  refine ⟨lc, w₁, hsound, ha, fun hd => hdead ?_, hreuse, ?_⟩
  · rw [DelayFits, hls] at hd
    exact hd
  · rw [hdef, hls]

/-! ## The end of the expiry loop -/

/-- A round of a loop does not take `event_expire_timers` off the stack, except at its end. -/
lemma loopNext_expire (h : Steady w lc) {t : Task n} {st tasks : List (Task n)}
    (hrun : loopNext w st t = some (w', tasks)) (hno : Task.expire ∉ tasks) :
    Task.expire ∉ t :: st ∨ (w' = w ∧ timersNext w = some none) := by
  have hst : t ≠ .expire → (Task.expire ∈ st → Task.expire ∈ tasks) →
      Task.expire ∉ t :: st := by
    intro ht hst hmem
    rcases List.mem_cons.mp hmem with he | hmem
    · exact ht he.symm
    · exact hno (hst hmem)
  cases loopNext_round h hrun with
  | expired hnext => exact .inr ⟨rfl, hnext⟩
  | expire hnext => exact absurd (.tail _ (.head _)) hno
  | drained hnext => exact .inl (hst (by simp) id)
  | posted hnext => exact .inl (hst (by simp) fun hmem => .tail _ (.tail _ hmem))
  | recorded b => exact .inl (hst (by simp) id)
  | skip rs hread | idle rs hread => exact .inl (hst (by simp) fun hmem => .tail _ hmem)
  | ready rs hread =>
    exact .inl (hst (by simp) fun hmem => List.mem_append_right _ (.tail _ hmem))
  | write r rs b => exact .inl (hst (by simp) fun hmem => .tail _ hmem)

/-- When `event_expire_timers` is off the stack after a step, it was before, or it has just found
no timer that is due. -/
lemma State.Sound.step_expire (h : s.Sound lc) (ha : s.Allowed a) (hinner : a.Inner)
    (hstep : s.step a = some s') (hno : Task.expire ∉ s'.tasks) :
    Task.expire ∉ s.tasks ∨ (s'.worker = s.worker ∧ timersNext s.worker = some none) := by
  have hst : ∀ {t : Task n} {st : List (Task n)}, s.tasks = t :: st → t ≠ .expire →
      (Task.expire ∈ st → Task.expire ∈ s'.tasks) → Task.expire ∉ s.tasks := by
    intro t st htasks ht hst hmem
    rw [htasks] at hmem
    rcases List.mem_cons.mp hmem with he | hmem
    · exact ht he.symm
    · exact hno (hst hmem)
  cases a with
  | iterate free ok reports now => exact hinner.elim
  | next =>
    cases htasks : s.tasks with
    | nil => exact .inl List.not_mem_nil
    | cons t st =>
      rw [State.step, htasks] at hstep
      obtain ⟨⟨w', tasks⟩, hrun, hstep⟩ := Option.bind_eq_some_iff.mp hstep
      obtain rfl := Option.some.inj hstep
      exact loopNext_expire h.steady hrun hno
  | call memory recvs ok =>
    obtain ⟨c, st, htasks, ⟨-, go, -, htasks'⟩ | ⟨-, -, go, htasks'⟩⟩ := h.call_cases hstep
    · refine .inl (hst htasks (by simp) fun hmem => ?_)
      rw [htasks']
      cases go with
      | false => exact hmem
      | true => exact .tail _ hmem
    · refine .inl (hst htasks (by simp) fun hmem => ?_)
      rw [htasks']
      cases go with
      | false => exact hmem
      | true => exact .tail _ hmem
  | accept answers =>
    obtain ⟨st, r, htasks, -, ⟨-, htasks'⟩ | ⟨-, htasks'⟩⟩ := h.accept_cases ha hstep
    · exact .inl (hst htasks (by simp) fun hmem => by rwa [htasks'])
    · exact .inl (hst htasks (by simp) fun hmem => by rw [htasks']; exact .tail _ hmem)
  | write sends ok =>
    obtain ⟨c, st, htasks, -, -, htasks'⟩ := h.write_cases hstep
    exact .inl (hst htasks (by simp) fun hmem => by rwa [htasks'])

/-! ## Runs -/

/-- The clock goes on by less than a quarter of its range from one iteration to the next. -/
def State.Paced (s : State n) : Label n → Prop
  | .iterate _ _ _ now => (now - s.worker.timers.currentMsec).toNat < 2 ^ 62
  | .next => True
  | .call _ _ _ => True
  | .accept _ => True
  | .write _ _ => True

instance (s : State n) : (a : Label n) → Decidable (s.Paced a)
  | .iterate _ _ _ now =>
    inferInstanceAs (Decidable ((now - s.worker.timers.currentMsec).toNat < 2 ^ 62))
  | .next => .isTrue trivial
  | .call _ _ _ => .isTrue trivial
  | .accept _ => .isTrue trivial
  | .write _ _ => .isTrue trivial

/-- No timer is overdue by much, and none at all unless `event_expire_timers` is on the stack. -/
structure State.Punctual (s : State n) : Prop where
  late : Deadlines s.worker (-2 ^ 62)
  due : Task.expire ∉ s.tasks → Deadlines s.worker 0

lemma State.Sound.punctual (h : s.Sound lc) (ha : s.Allowed a) (hpace : s.Paced a)
    (hp : s.Punctual) (hstep : s.step a = some s') : s'.Punctual := by
  by_cases hinner : a.Inner
  · obtain ⟨⟨S, harms⟩, -⟩ := h.inner ha hinner hstep
    refine ⟨harms.deadlines hp.late, fun hno => ?_⟩
    rcases h.step_expire ha hinner hstep hno with hno' | ⟨hw, hdone⟩
    · exact harms.deadlines (hp.due hno')
    · rcases hp.late.expireNext with ⟨-, hd⟩ | ⟨ev, w, hnext, -⟩
      · rw [hw]
        exact hd
      · rw [hdone] at hnext
        cases hnext
  · cases a with
    | iterate free ok reports now =>
      have hempty : s.tasks = [] := ha
      have hd := hp.due (by rw [hempty]; exact List.not_mem_nil)
      rw [State.step] at hstep
      obtain ⟨⟨go, postEvents, w'⟩, hlock, hstep⟩ := Option.bind_eq_some_iff.mp hstep
      have harms := Arms.lockAccept lc hlock
      have hd' := harms.deadlines hd
      cases go with
      | false =>
        obtain rfl := Option.some.inj hstep
        exact ⟨hd'.mono (by norm_num) (by norm_num), fun _ => hd'⟩
      | true =>
        obtain rfl := Option.some.inj hstep
        have htick := hd'.tick now (by rw [harms.clock]; exact hpace)
        refine ⟨htick, fun hno => ?_⟩
        by_cases hnow : now = w'.timers.currentMsec
        · show Deadlines { w' with timers := { w'.timers with currentMsec := now } } 0
          rw [hnow]
          exact hd'
        · exact absurd (by simp [iterationTasks, hnow]) hno
    | next => exact absurd trivial hinner
    | call memory recvs ok => exact absurd trivial hinner
    | accept answers => exact absurd trivial hinner
    | write sends ok => exact absurd trivial hinner

/-- The delay is that of the start of the run. -/
lemma State.Sound.listening_eq (h : s.Sound lc) (ha : s.Allowed a) (hstep : s.step a = some s') :
    s'.worker.listening = s.worker.listening := by
  obtain ⟨w, S, now, harms, hw⟩ := h.arms ha hstep
  rw [hw]
  exact harms.listening

lemma runs_punctual (h : Runs State.Paced s) (hd : DelayFits s.worker) : s.Punctual := by
  have hinv : (∃ lc, s.Sound lc) ∧ (DelayFits s.worker → s.Punctual) := by
    refine h.invariant (I := fun s => (∃ lc, s.Sound lc) ∧ (DelayFits s.worker → s.Punctual))
      ?_ ?_
    · intro s hs
      obtain ⟨lc, w, hsound, harms, hdead, -⟩ := start_arms hs
      refine ⟨⟨lc, hsound⟩, fun hd => ?_⟩
      rw [DelayFits, harms.listening] at hd
      have hw := harms.deadlines (hdead hd)
      exact ⟨hw.mono (by norm_num) (by norm_num), fun _ => hw⟩
    · rintro s a s' ⟨⟨lc, hsound⟩, hp⟩ ⟨ha, hpace⟩ hstep
      refine ⟨⟨lc, (hsound.step ha hstep).1⟩, fun hd => ?_⟩
      rw [DelayFits, hsound.listening_eq ha hstep] at hd
      exact hsound.punctual ha hpace (hp hd) hstep
  exact hinv.2 hd

/-- In every run whose clock does not jump, with a `post_accept_timeout` from 1 to `2 ^ 62 - 1`,
whenever an iteration has come to its end, each armed timer of an open connection is still to come,
and comes after that delay at the latest. -/
theorem timers_punctual (h : Runs State.Paced s) (hd : DelayFits s.worker) (hidle : s.tasks = [])
    {ev : EventId n} (huse : InUse s.worker.connection ev.1)
    (harmed : s.worker.timers.timerSet ev = true) :
    0 < ahead s.worker (s.worker.timers.tree.key (.node ev)) ∧
      ahead s.worker (s.worker.timers.tree.key (.node ev)) ≤
        s.worker.listening.postAcceptTimeout.toInt := by
  obtain ⟨-, -, l, hs⟩ := (runs_punctual h hd).due (by rw [hidle]; exact List.not_mem_nil)
  obtain ⟨e, he, hev⟩ := List.mem_map.mp ((hs.ticking ev).mpr ⟨huse, harmed⟩)
  have hkey : s.worker.timers.tree.key (.node e.1) = e.2 := hs.tracks.key e he
  rw [← hev, hkey]
  exact hs.key e he

/-- The timer of a connection that was just accepted. -/
theorem timers_punctual_acceptOne :
    ∃ s, State.launch 2 false State.Paced acceptOne = some s ∧
      s.worker.timers.timerSet (1, .read) = true ∧
      0 < ahead s.worker (s.worker.timers.tree.key (.node (1, .read))) ∧
      ahead s.worker (s.worker.timers.tree.key (.node (1, .read))) ≤
        s.worker.listening.postAcceptTimeout.toInt := by
  have hrun : (State.launch 2 false State.Paced acceptOne).any
      (fun s => decide (DelayFits s.worker ∧ s.tasks.isEmpty = true ∧
        InUse s.worker.connection 1 ∧ s.worker.timers.timerSet (1, .read) = true)) = true := by
    decide +kernel
  obtain ⟨s, hs, hc⟩ := (Option.any_eq_true _ _).mp hrun
  obtain ⟨hd, hidle, huse, harmed⟩ := of_decide_eq_true hc
  have huse' : InUse s.worker.connection ((1, Side.read) : EventId 2).1 := huse
  exact ⟨s, hs, harmed, timers_punctual (runs_of_launch (by decide) hs) hd
    (List.isEmpty_iff.mp hidle) huse' harmed⟩

end Libcn.Program
