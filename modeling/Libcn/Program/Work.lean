import Libcn.Lib.Budget
import Libcn.Program.Steps

/-!
# An iteration comes to an end

The loops of an iteration run over records, timers and posted events. `State.work` counts what they
have still to do. Every step does some of it, and only a round of `event_accept` makes more.
-/

namespace Libcn.Program

open Libcn.Lib Libcn.Queue Libcn.Rbtree Libcn.Timer Libcn.Cycle

variable {n : ℕ} {w w' : Worker n} {s s' : State n} {lc : Fin n} {ev : EventId n} {a : Label n}
  {S : Set (EventId n)}

/-! ## What is armed and posted -/

/-- How many timers are armed. -/
def armed (w : Worker n) : ℕ := countSet w.timers.timerSet

/-- How many events are posted. -/
def queued (w : Worker n) : ℕ := countSet fun ev => (w.event ev).posted

lemma card_eventId : Fintype.card (EventId n) = 2 * n := by
  have : Fintype.card Side = 2 := rfl
  rw [Fintype.card_prod, Fintype.card_fin, this]
  ring

lemma armed_le (w : Worker n) : armed w ≤ 2 * n := (countSet_le _).trans_eq card_eventId

lemma queued_le (w : Worker n) : queued w ≤ 2 * n := (countSet_le _).trans_eq card_eventId

lemma Arms.armed_le (h : Arms w w' lc ∅) : armed w' ≤ armed w :=
  countSet_mono fun ev hev => (h.timerSet ev hev).resolve_right (Set.notMem_empty _)

lemma Arms.queued_le (h : Arms w w' lc ∅) : queued w' ≤ queued w :=
  countSet_mono fun ev hev => (h.posted ev hev).resolve_right (Set.notMem_empty _)

lemma Arms.armed_le_add_one (h : Arms w w' lc {ev}) : armed w' ≤ armed w + 1 :=
  countSet_le_add_one ev h.timerSet

lemma Arms.queued_le_add_one (h : Arms w w' lc {ev}) : queued w' ≤ queued w + 1 :=
  countSet_le_add_one ev h.posted

/-! ## The work of a state -/

/-- What there is to do in a task, apart from timers and posted events. -/
def Task.work : Task n → ℕ
  | .call _ => 2
  | .accept _ => 1
  | .write _ => 1
  | .expire => 1
  | .posted _ => 1
  | .batch records _ => 1 + 5 * records.length
  | .batchWrite _ records _ => 2 + 5 * records.length

/-- What there is to do in all tasks. -/
def tasksWork (st : List (Task n)) : ℕ := (st.map Task.work).sum

@[simp] lemma tasksWork_nil : tasksWork ([] : List (Task n)) = 0 := rfl

@[simp] lemma tasksWork_cons (t : Task n) (st : List (Task n)) :
    tasksWork (t :: st) = t.work + tasksWork st := by
  simp [tasksWork]

/-- What the worker has still to do in this iteration, if nothing is accepted. -/
def State.work (s : State n) : ℕ := tasksWork s.tasks + 3 * (armed s.worker + queued s.worker)

/-- How much a round of `event_accept` may add: the timer and the posted event of a new connection,
and the next round. -/
def AcceptResult.grant : AcceptResult → ℕ
  | .descriptor _ => 7
  | .aborted => 1
  | .again => 0
  | .exhausted => 0
  | .fail => 0

/-- How much a step may add. -/
def Label.grant : Label n → ℕ
  | .accept a => a.accept.grant
  | .iterate _ _ _ _ => 0
  | .next => 0
  | .call _ _ _ => 0
  | .write _ _ => 0

/-- The step belongs to the iteration that is going on. -/
def Label.Inner : Label n → Prop
  | .iterate _ _ _ _ => False
  | .next => True
  | .call _ _ _ => True
  | .accept _ => True
  | .write _ _ => True

instance : (a : Label n) → Decidable a.Inner
  | .iterate _ _ _ _ => .isFalse id
  | .next => .isTrue trivial
  | .call _ _ _ => .isTrue trivial
  | .accept _ => .isTrue trivial
  | .write _ _ => .isTrue trivial

/-! ## The steps -/

/-- A round of a loop. -/
lemma loopNext_work (h : Steady w lc) {t : Task n} {st tasks : List (Task n)}
    (hrun : loopNext w st t = some (w', tasks)) :
    (∃ S, Arms w w' lc S) ∧ tasksWork tasks + 3 * (armed w' + queued w') + 1 ≤
      tasksWork (t :: st) + 3 * (armed w + queued w) := by
  obtain ⟨free, lists, hcons⟩ := h.consistent
  cases loopNext_round h hrun with
  | expired | drained | recorded | write =>
    refine ⟨⟨∅, .refl w lc⟩, ?_⟩
    simp only [tasksWork_cons, Task.work]
    omega
  | skip rs hread | idle rs hread =>
    refine ⟨⟨∅, .refl w lc⟩, ?_⟩
    simp only [tasksWork_cons, Task.work, List.length_cons]
    omega
  | expire hnext =>
    obtain ⟨ha, -, -, hon, hoff⟩ := Arms.timersNext lc hcons hnext
    have hlt : armed w' < armed w := countSet_lt
      (fun ev hev => (ha.timerSet ev hev).resolve_right (Set.notMem_empty _)) hon hoff
    have hle := ha.queued_le
    refine ⟨⟨∅, ha⟩, ?_⟩
    simp only [tasksWork_cons, Task.work]
    omega
  | posted hnext =>
    obtain ⟨ha, -, -, hon, hoff⟩ := Arms.postedNext lc hcons hnext
    have hlt : queued w' < queued w := countSet_lt
      (fun ev hev => (ha.posted ev hev).resolve_right (Set.notMem_empty _)) hon hoff
    have hle := ha.armed_le
    refine ⟨⟨∅, ha⟩, ?_⟩
    simp only [tasksWork_cons, Task.work]
    omega
  | @ready r postEvents _ call rs hread =>
    have harms := Arms.recordRead lc hcons hread
    cases call with
    | none =>
      -- at most one event was posted, and no timer was armed
      have hcounts : (∃ S, Arms w w' lc S) ∧ armed w' ≤ armed w ∧ queued w' ≤ queued w + 1 := by
        rcases harms with ⟨-, ha⟩ | ⟨-, -, htimers, ha⟩
        · have hle := ha.queued_le
          exact ⟨⟨_, ha⟩, ha.armed_le, by omega⟩
        · refine ⟨⟨_, ha⟩, ?_, ha.queued_le_add_one⟩
          rw [armed, armed, htimers]
      obtain ⟨ha, hle, hle'⟩ := hcounts
      refine ⟨ha, ?_⟩
      simp only [tasksWork_cons, Task.work, List.length_cons, Option.map_none, Option.toList_none,
        List.nil_append]
      omega
    | some ev =>
      have ha : Arms w w' lc ∅ := (harms.resolve_right fun hno => by cases hno.2.1).2
      have hle := ha.armed_le
      have hle' := ha.queued_le
      refine ⟨⟨_, ha⟩, ?_⟩
      simp only [tasksWork_cons, Task.work, List.length_cons, Option.map_some, Option.toList_some,
        List.cons_append, List.nil_append]
      omega

/-- The handler on top of the stack is called. -/
lemma State.Sound.call_work {memory : Option (ℕ → UInt8)} {recvs : List (List RecvResult)}
    {ok : Bool} (h : s.Sound lc) (hstep : s.step (.call memory recvs ok) = some s') :
    Arms s.worker s'.worker lc ∅ ∧ s'.work + 1 ≤ s.work := by
  obtain ⟨c, st, htasks, hcase⟩ := h.call_cases hstep
  obtain ⟨ha, hleft⟩ : Arms s.worker s'.worker lc ∅ ∧ tasksWork s'.tasks ≤ tasksWork st + 1 := by
    rcases hcase with ⟨rfl, go, hrun, hleft⟩ | ⟨-, hs, go, hleft⟩
    · refine ⟨Arms.eventAcceptStart c hrun, ?_⟩
      rw [hleft]
      cases go <;> simp [Task.work, Nat.add_comm]
    · refine ⟨hs.toArms, ?_⟩
      rw [hleft]
      cases go <;> simp [Task.work, Nat.add_comm]
  have hle := ha.armed_le
  have hle' := ha.queued_le
  refine ⟨ha, ?_⟩
  simp only [State.work, htasks, tasksWork_cons, Task.work]
  omega

/-- `mywrite` is called. -/
lemma State.Sound.write_work {sends : List (List SendResult)} {ok : Bool} (h : s.Sound lc)
    (hstep : s.step (.write sends ok) = some s') :
    Arms s.worker s'.worker lc ∅ ∧ s'.work + 1 ≤ s.work := by
  obtain ⟨c, st, htasks, -, hs, hleft⟩ := h.write_cases hstep
  have hle := hs.toArms.armed_le
  have hle' := hs.toArms.queued_le
  refine ⟨hs.toArms, ?_⟩
  simp only [State.work, htasks, hleft, tasksWork_cons, Task.work]
  omega

/-- A round of `event_accept`. -/
lemma State.Sound.accept_work {answers : AcceptAnswers} (h : s.Sound lc)
    (ha : s.Allowed (.accept answers)) (hstep : s.step (.accept answers) = some s') :
    (∃ c, Arms s.worker s'.worker lc {(c, .read)}) ∧
      s'.work + 1 ≤ s.work + answers.accept.grant := by
  obtain ⟨st, r, htasks, hrun, hcase⟩ := h.accept_cases ha hstep
  obtain ⟨c, harms⟩ := Arms.acceptNext h.steady ha hrun
  obtain ⟨hle, hret⟩ : tasksWork s'.tasks ≤ tasksWork st + 1 ∧ (r = .ret → s'.tasks = st) := by
    rcases hcase with ⟨-, hleft⟩ | ⟨rfl, hleft⟩
    · exact ⟨by rw [hleft]; omega, fun _ => hleft⟩
    · refine ⟨?_, fun he => by cases he⟩
      rw [hleft, tasksWork_cons, Task.work]
      omega
  refine ⟨⟨c, harms⟩, ?_⟩
  simp only [State.work, htasks, tasksWork_cons, Task.work]
  by_cases hans : answers.accept.IsDescriptor
  · -- a new connection may be armed and posted, which the grant pays for
    have hgrant : answers.accept.grant = 7 := by
      cases h : answers.accept <;> simp [h, AcceptResult.IsDescriptor, AcceptResult.grant] at hans ⊢
    have harmed := harms.armed_le_add_one
    have hqueued := harms.queued_le_add_one
    omega
  · -- without one only an aborted connection lets the loop go on
    obtain ⟨hquiet, hends⟩ := Arms.acceptQuiet h.steady hans hrun
    have harmed := hquiet.armed_le
    have hqueued := hquiet.queued_le
    by_cases habort : answers.accept = .aborted
    · rw [habort, AcceptResult.grant]
      omega
    · rw [hret (hends habort)]
      omega

/-- Every step of an iteration does some of its work. -/
lemma State.Sound.inner (h : s.Sound lc) (ha : s.Allowed a) (hinner : a.Inner)
    (hstep : s.step a = some s') :
    (∃ S, Arms s.worker s'.worker lc S) ∧ s'.work + 1 ≤ s.work + a.grant := by
  cases a with
  | iterate free ok reports now => exact hinner.elim
  | next =>
    cases htasks : s.tasks with
    | nil => simp [State.step, htasks] at hstep
    | cons t st =>
      rw [State.step, htasks] at hstep
      obtain ⟨⟨w', tasks⟩, hrun, hstep⟩ := Option.bind_eq_some_iff.mp hstep
      obtain rfl := Option.some.inj hstep
      obtain ⟨harms, hle⟩ := loopNext_work h.steady hrun
      refine ⟨harms, ?_⟩
      rw [State.work, State.work, htasks]
      exact hle
  | call memory recvs ok =>
    obtain ⟨harms, hle⟩ := h.call_work hstep
    exact ⟨⟨_, harms⟩, hle⟩
  | write sends ok =>
    obtain ⟨harms, hle⟩ := h.write_work hstep
    exact ⟨⟨_, harms⟩, hle⟩
  | accept answers =>
    obtain ⟨⟨c, harms⟩, hle⟩ := h.accept_work ha hstep
    exact ⟨⟨_, harms⟩, hle⟩

/-- Every step is one of `Arms`, but for the clock. -/
lemma State.Sound.arms (h : s.Sound lc) (ha : s.Allowed a) (hstep : s.step a = some s') :
    ∃ w S now, Arms s.worker w lc S ∧
      s'.worker = { w with timers := { w.timers with currentMsec := now } } := by
  by_cases hinner : a.Inner
  · obtain ⟨⟨S, harms⟩, -⟩ := h.inner ha hinner hstep
    exact ⟨s'.worker, S, s'.worker.timers.currentMsec, harms, rfl⟩
  · cases a with
    | iterate free ok reports now =>
      rw [State.step] at hstep
      obtain ⟨⟨go, postEvents, w'⟩, hlock, hstep⟩ := Option.bind_eq_some_iff.mp hstep
      have harms := Arms.lockAccept lc hlock
      cases go with
      | false =>
        obtain rfl := Option.some.inj hstep
        exact ⟨w', ∅, w'.timers.currentMsec, harms, rfl⟩
      | true =>
        obtain rfl := Option.some.inj hstep
        exact ⟨w', ∅, now, harms, rfl⟩
    | next => exact absurd trivial hinner
    | call memory recvs ok => exact absurd trivial hinner
    | accept answers => exact absurd trivial hinner
    | write sends ok => exact absurd trivial hinner

/-- An iteration starts with the work of its records, of the armed timers and the posted events. -/
lemma State.Sound.iterate_work {free ok : Bool} {reports : List Report} {now : BitVec 64}
    (htasks : s.tasks = []) (hstep : s.step (.iterate free ok reports now) = some s') :
    s'.work ≤ 4 + 5 * reports.length + 12 * n := by
  rw [State.step] at hstep
  obtain ⟨⟨go, postEvents, w'⟩, -, hstep⟩ := Option.bind_eq_some_iff.mp hstep
  have hwork : tasksWork s'.tasks ≤ 4 + 5 * reports.length := by
    dsimp only at hstep
    split_ifs at hstep
    · obtain rfl := Option.some.inj hstep
      -- a report for a descriptor that is not registered makes no record
      have hlen : (reports.filterMap w'.kernel.epollWait).length ≤ reports.length :=
        List.length_filterMap_le _ _
      simp only [iterationTasks]
      split_ifs <;> simp only [List.cons_append, List.nil_append, tasksWork_cons, tasksWork_nil,
        Task.work] <;> omega
    · obtain rfl := Option.some.inj hstep
      show tasksWork s.tasks ≤ _
      rw [htasks, tasksWork_nil]
      omega
  have harmed := armed_le s'.worker
  have hqueued := queued_le s'.worker
  rw [State.work]
  omega

/-! ## Iterations -/

/-- In every run, an iteration in which `epoll_wait` reports `k` events has at most
`4 + 5 k + 12 n` steps, seven more for each new connection and one more for each that was aborted:
none of its loops goes on forever. -/
theorem iteration_bounded {allowed : State n → Label n → Prop} (h : Runs allowed s) {free ok : Bool}
    {reports : List Report} {now : BitVec 64} {as : List (Label n)} (has : ∀ a ∈ as, a.Inner)
    (hrun : (programMachine n).run State.Allowed s (.iterate free ok reports now :: as) =
      some s') :
    as.length ≤ 4 + 5 * reports.length + 12 * n + (as.map Label.grant).sum := by
  obtain ⟨lc, hsound⟩ := runs_sound h
  obtain ⟨s₁, hempty, hstep, hrun⟩ := Machine.run_cons hrun
  obtain ⟨hsound₁, -⟩ := hsound.step hempty hstep
  have hwork := State.Sound.iterate_work hempty hstep
  have hbound := Machine.run_length_le (M := programMachine n) State.work Label.grant
    (I := fun s => s.Sound lc) (P := Label.Inner)
    (fun s a s' hs hinner ha hstep => ⟨(hs.step ha hstep).1, (hs.inner ha hinner hstep).2⟩)
    hsound₁ has hrun
  omega

/-- An iteration that accepts a connection. -/
theorem iteration_bounded_acceptOne :
    ∃ s s' : State 2, State.launch 2 false (fun _ _ => True) [] = some s ∧
      (programMachine 2).run State.Allowed s acceptOne = some s' ∧
      acceptOne.tail.length ≤ 4 + 5 * 1 + 12 * 2 + (acceptOne.tail.map Label.grant).sum := by
  have hlaunch : ((State.launch 2 false (fun _ _ => True) []).bind fun s =>
      (programMachine 2).run State.Allowed s acceptOne).isSome = true := by decide +kernel
  obtain ⟨s', hs'⟩ := Option.isSome_iff_exists.mp hlaunch
  obtain ⟨s, hs, hrun⟩ := Option.bind_eq_some_iff.mp hs'
  refine ⟨s, s', hs, hrun, ?_⟩
  have hinner : ∀ a ∈ acceptOne.tail, a.Inner := by simp [acceptOne, Label.Inner]
  exact iteration_bounded (runs_of_launch (by decide) hs) hinner hrun

end Libcn.Program
