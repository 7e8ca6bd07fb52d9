import Libcn.Program.Work

/-!
# An overloaded worker comes back

With `accept_disabled` above 0 an iteration skips the attempt to get the accept mutex and counts it
down. Only `event_accept` sets it so, when fewer than an eighth of the slots are free or there are
no descriptors left. So a worker that is not called to accept tries again after `connection_n / 8`
iterations at the latest.
-/

namespace Libcn.Program

open Libcn.Lib Libcn.Queue Libcn.Rbtree Libcn.Timer Libcn.Cycle

variable {n : ℕ} {w w' : Worker n} {s s' : State n} {lc : Fin n} {ev : EventId n} {a : Label n}

/-! ## The number -/

/-- Sizes of a table leave the subtraction in `event_accept` exact. -/
lemma toInt_eighth {free : ℕ} (hn : n < 2 ^ 31) (hfree : free < n) :
    (BitVec.ofNat 32 (n / 8) - BitVec.ofNat 32 free).toInt = (n / 8 : ℕ) - (free : ℤ) := by
  have hle : n / 8 ≤ n := Nat.div_le_self n 8
  rw [BitVec.toInt_sub, BitVec.toInt_ofNat', BitVec.toInt_ofNat']
  have hsmall : ∀ k : ℕ, k < 2 ^ 31 → (k : ℤ).bmod (2 ^ 32) = k := by
    intro k hk
    exact Int.bmod_eq_of_le (by omega) (by omega)
  -- neither number is negative as an `int32_t`, nor is their difference out of range
  rw [hsmall _ (by omega), hsmall _ (by omega)]
  exact Int.bmod_eq_of_le (by omega) (by omega)

lemma toInt_sub_one {d : BitVec 32} (hd : 0 < d.toInt) : (d - 1).toInt = d.toInt - 1 := by
  have hlt : d.toInt < 2 ^ 31 := BitVec.toInt_lt
  rw [BitVec.toInt_sub]
  have hone : (1 : BitVec 32).toInt = 1 := by decide
  rw [hone]
  exact Int.bmod_eq_of_le (by omega) (by omega)

/-! ## The functions that leave it alone -/

lemma epollAddEvent_disabled {event : Side} {edge ok b : Bool}
    (hrun : epollAddEvent w ev event edge ok = some (b, w')) :
    w'.acceptDisabled = w.acceptDisabled := by
  rw [epollAddEvent] at hrun
  obtain ⟨c, -, hrun⟩ := Option.bind_eq_some_iff.mp hrun
  dsimp only at hrun
  generalize w.kernel.epollCtl _ _ _ _ = k at hrun
  cases k with
  | none =>
    obtain rfl := (Prod.mk.inj (Option.some.inj hrun)).2
    rfl
  | some kernel =>
    obtain rfl := (Prod.mk.inj (Option.some.inj hrun)).2
    rfl

lemma epollDelEvent_disabled {event : Side} {closing edge ok b : Bool}
    (hrun : epollDelEvent w ev event closing edge ok = some (b, w')) :
    w'.acceptDisabled = w.acceptDisabled := by
  rw [epollDelEvent] at hrun
  split_ifs at hrun
  · obtain rfl := (Prod.mk.inj (Option.some.inj hrun)).2
    rfl
  obtain ⟨c, -, hrun⟩ := Option.bind_eq_some_iff.mp hrun
  dsimp only at hrun
  generalize w.kernel.epollCtl _ _ _ _ = k at hrun
  cases k with
  | none =>
    obtain rfl := (Prod.mk.inj (Option.some.inj hrun)).2
    rfl
  | some kernel =>
    obtain rfl := (Prod.mk.inj (Option.some.inj hrun)).2
    rfl

lemma enableAcceptEvents_disabled {ok b : Bool} (hrun : enableAcceptEvents w ok = some (b, w')) :
    w'.acceptDisabled = w.acceptDisabled := by
  rw [enableAcceptEvents] at hrun
  split at hrun
  · obtain rfl := (Prod.mk.inj (Option.some.inj hrun)).2
    rfl
  · split_ifs at hrun
    · obtain rfl := (Prod.mk.inj (Option.some.inj hrun)).2
      rfl
    · exact epollAddEvent_disabled hrun

lemma disableAcceptEvents_disabled {all ok b : Bool}
    (hrun : disableAcceptEvents w all ok = some (b, w')) :
    w'.acceptDisabled = w.acceptDisabled := by
  rw [disableAcceptEvents] at hrun
  split at hrun
  · obtain rfl := (Prod.mk.inj (Option.some.inj hrun)).2
    rfl
  · split_ifs at hrun
    · obtain rfl := (Prod.mk.inj (Option.some.inj hrun)).2
      rfl
    · obtain rfl := (Prod.mk.inj (Option.some.inj hrun)).2
      rfl
    · exact epollDelEvent_disabled hrun

lemma trylockAcceptMutex_disabled {free ok b : Bool}
    (hrun : trylockAcceptMutex w free ok = some (b, w')) :
    w'.acceptDisabled = w.acceptDisabled := by
  rw [trylockAcceptMutex] at hrun
  split_ifs at hrun
  · obtain rfl := (Prod.mk.inj (Option.some.inj hrun)).2
    rfl
  · obtain ⟨⟨b₁, w₁⟩, henable, hrun⟩ := Option.bind_eq_some_iff.mp hrun
    rw [← enableAcceptEvents_disabled henable]
    cases b₁ with
    | false =>
      obtain rfl := (Prod.mk.inj (Option.some.inj hrun)).2
      rfl
    | true =>
      obtain rfl := (Prod.mk.inj (Option.some.inj hrun)).2
      rfl
  · obtain ⟨⟨b₁, w₁⟩, hdisable, hrun⟩ := Option.bind_eq_some_iff.mp hrun
    rw [← disableAcceptEvents_disabled hdisable]
    cases b₁ with
    | false =>
      obtain rfl := (Prod.mk.inj (Option.some.inj hrun)).2
      rfl
    | true =>
      obtain rfl := (Prod.mk.inj (Option.some.inj hrun)).2
      rfl
  · obtain rfl := (Prod.mk.inj (Option.some.inj hrun)).2
    rfl

lemma eventAcceptStart_disabled {ok go : Bool} (hrun : eventAcceptStart w ev ok = some (go, w')) :
    w'.acceptDisabled = w.acceptDisabled := by
  rw [eventAcceptStart] at hrun
  obtain ⟨⟨b, w₁⟩, hresume, hrun⟩ := Option.bind_eq_some_iff.mp hrun
  have hw₁ : w₁.acceptDisabled = w.acceptDisabled := by
    rw [resumeAccept] at hresume
    split_ifs at hresume
    · obtain ⟨⟨b₁, w₂⟩, henable, hresume⟩ := Option.bind_eq_some_iff.mp hresume
      rw [← enableAcceptEvents_disabled henable]
      cases b₁ with
      | false =>
        obtain rfl := (Prod.mk.inj (Option.some.inj hresume)).2
        rfl
      | true =>
        obtain rfl := (Prod.mk.inj (Option.some.inj hresume)).2
        rfl
    · obtain rfl := (Prod.mk.inj (Option.some.inj hresume)).2
      rfl
  cases b with
  | false =>
    obtain rfl := (Prod.mk.inj (Option.some.inj hrun)).2
    exact hw₁
  | true =>
    obtain rfl := (Prod.mk.inj (Option.some.inj hrun)).2
    exact hw₁

/-- The rounds of the loops. -/
lemma loopNext_disabled (h : Steady w lc) {t : Task n} {st st' : List (Task n)}
    (hrun : loopNext w st t = some (w', st')) : w'.acceptDisabled = w.acceptDisabled := by
  cases loopNext_round h hrun with
  | expired | drained | recorded | skip | idle | write => rfl
  | expire hnext =>
    rw [timersNext] at hnext
    obtain ⟨r, -, hnext⟩ := Option.bind_eq_some_iff.mp hnext
    cases r with
    | none => cases hnext
    | some p =>
      obtain ⟨rfl, rfl⟩ := Prod.mk.inj (Option.some.inj (Option.some.inj hnext))
      rfl
  | posted hnext =>
    -- only the links and the bit of the event change
    obtain ⟨-, -, hdelete⟩ := postedNext_deletes hnext
    obtain ⟨links, -, hdelete⟩ := Option.bind_eq_some_iff.mp hdelete
    obtain rfl := Option.some.inj hdelete
    rfl
  | ready rs hread =>
    obtain ⟨-, -, w₁, rfl, ⟨-, -, rfl⟩ | ⟨-, -, q, hpost⟩⟩ := recordRead_ready h hread
    · rfl
    · exact congrArg (fun g => g.2.2) (postEvent_posted hpost).1

/-- A round of `event_accept` leaves it, or sets it from the free slots, or to 1 if there are no
descriptors. -/
lemma acceptNext_disabled (h : Steady w lc) {answers : AcceptAnswers} {r : Accepted n}
    (ha : ∀ fd, answers.accept = .descriptor fd → fd ≠ -1 ∧ w.kernel.isOpen fd = false)
    (hrun : acceptNext w (lc, .read) answers = some (r, w')) :
    w'.acceptDisabled = w.acceptDisabled ∨
      (answers.accept = .exhausted ∧ w'.acceptDisabled = 1) ∨
      w'.acceptDisabled = BitVec.ofNat 32 (n / 8) - BitVec.ofNat 32 w.freeConnectionN := by
  have hrun₀ := hrun
  rw [acceptNext] at hrun
  cases hans : answers.accept with
  | again =>
    rw [hans] at hrun
    obtain rfl := (Prod.mk.inj (Option.some.inj hrun)).2
    exact .inl rfl
  | fail =>
    rw [hans] at hrun
    obtain rfl := (Prod.mk.inj (Option.some.inj hrun)).2
    exact .inl rfl
  | aborted =>
    rw [hans] at hrun
    obtain rfl := (Prod.mk.inj (Option.some.inj hrun)).2
    exact .inl rfl
  | exhausted =>
    rw [hans] at hrun
    obtain ⟨w₁, hex, hpair⟩ := Option.map_eq_some_iff.mp hrun
    obtain rfl := (Prod.mk.inj hpair).2
    rw [acceptExhausted] at hex
    obtain ⟨⟨b, w₂⟩, hdisable, hex⟩ := Option.bind_eq_some_iff.mp hex
    have hw₂ := disableAcceptEvents_disabled hdisable
    cases b with
    | false =>
      obtain rfl := Option.some.inj hex
      exact .inl hw₂
    | true =>
      change (if w₂.useAcceptMutex = true then _ else _) = _ at hex
      by_cases hmutex : w₂.useAcceptMutex = true
      · rw [if_pos hmutex] at hex
        obtain rfl := Option.some.inj hex
        exact .inr (.inl ⟨rfl, rfl⟩)
      · -- without the mutex the listening event gets a timer instead
        rw [if_neg hmutex, addTimer] at hex
        obtain ⟨T, -, hex⟩ := Option.bind_eq_some_iff.mp hex
        obtain rfl := Option.some.inj hex
        exact .inl hw₂
  | descriptor fd =>
    -- it is set before `get_connection`, and nothing after that sets it
    obtain ⟨hne, hfd⟩ := ha fd hans
    have hm : acceptGlobals w' = acceptGlobals (disabledFor w) := by
      rcases Handles.acceptDescriptor h hans hne hfd hrun₀ with hs | ⟨c, -, hs⟩
      · exact hs.mutex
      · exact hs.mutex
    exact .inr (.inr (congrArg (fun g => g.2.2) hm))

/-! ## Steps -/

/-- A handler is called. -/
lemma State.Sound.call_disabled {memory : Option (ℕ → UInt8)} {recvs : List (List RecvResult)}
    {ok : Bool} (h : s.Sound lc) (hstep : s.step (.call memory recvs ok) = some s') :
    s'.worker.acceptDisabled = s.worker.acceptDisabled := by
  obtain ⟨c, st, -, ⟨-, go, hrun, -⟩ | ⟨-, hs, -⟩⟩ := h.call_cases hstep
  · exact eventAcceptStart_disabled hrun
  · exact congrArg (fun g => g.2.2) hs.mutex

/-- `mywrite` is called. -/
lemma State.Sound.write_disabled {sends : List (List SendResult)} {ok : Bool} (h : s.Sound lc)
    (hstep : s.step (.write sends ok) = some s') :
    s'.worker.acceptDisabled = s.worker.acceptDisabled := by
  obtain ⟨c, st, -, -, hs, -⟩ := h.write_cases hstep
  exact congrArg (fun g => g.2.2) hs.mutex

/-- A step leaves it, counts it down, or is a round of `event_accept` that sets it. -/
lemma State.Sound.disabled_cases (h : s.Sound lc) (ha : s.Allowed a) (hstep : s.step a = some s') :
    (s'.worker.acceptDisabled = s.worker.acceptDisabled ∧
      (a.Inner ∨ ¬ 0 < s.worker.acceptDisabled.toInt)) ∨
    (¬ a.Inner ∧ 0 < s.worker.acceptDisabled.toInt ∧
      s'.worker.acceptDisabled = s.worker.acceptDisabled - 1) ∨
    ∃ answers, a = .accept answers ∧
      ((answers.accept = .exhausted ∧ s'.worker.acceptDisabled = 1) ∨
        s'.worker.acceptDisabled =
          BitVec.ofNat 32 (n / 8) - BitVec.ofNat 32 s.worker.freeConnectionN) := by
  cases a with
  | iterate free ok reports now =>
    obtain ⟨⟨go, postEvents, w'⟩, hlock, hstep⟩ := Option.bind_eq_some_iff.mp hstep
    have hsame : s'.worker.acceptDisabled = w'.acceptDisabled := by
      cases go with
      | true =>
        obtain rfl := Option.some.inj hstep
        rfl
      | false =>
        obtain rfl := Option.some.inj hstep
        rfl
    rw [hsame]
    rw [lockAccept, if_pos h.steady.mutex] at hlock
    -- an iteration counts down exactly when it skips the attempt
    by_cases hpos : 0 < s.worker.acceptDisabled.toInt
    · rw [if_pos hpos] at hlock
      obtain ⟨-, -, rfl⟩ : true = go ∧ false = postEvents ∧ _ = w' := by simpa using hlock
      exact .inr (.inl ⟨id, hpos, rfl⟩)
    · rw [if_neg hpos] at hlock
      obtain ⟨⟨r, w₁⟩, htry, hlock⟩ := Option.bind_eq_some_iff.mp hlock
      obtain ⟨-, -, rfl⟩ : r = go ∧ w₁.acceptMutexHeld = postEvents ∧ w₁ = w' := by
        simpa using hlock
      exact .inl ⟨trylockAcceptMutex_disabled htry, .inr hpos⟩
  | next =>
    cases htasks : s.tasks with
    | nil => simp [State.step, htasks] at hstep
    | cons t st =>
      rw [State.step, htasks] at hstep
      obtain ⟨⟨w', tasks⟩, hrun, hstep⟩ := Option.bind_eq_some_iff.mp hstep
      obtain rfl := Option.some.inj hstep
      exact .inl ⟨loopNext_disabled h.steady hrun, .inl trivial⟩
  | call memory recvs ok => exact .inl ⟨h.call_disabled hstep, .inl trivial⟩
  | write sends ok => exact .inl ⟨h.write_disabled hstep, .inl trivial⟩
  | accept answers =>
    obtain ⟨st, r, -, hrun, -⟩ := h.accept_cases ha hstep
    rcases acceptNext_disabled h.steady ha hrun with hsame | hset
    · exact .inl ⟨hsame, .inl trivial⟩
    · exact .inr (.inr ⟨answers, rfl, hset⟩)

/-- When `event_accept` sets it, it is at most an eighth of the slots, or 1 if there are no
descriptors; and it is positive only if fewer than an eighth of the slots are free then. -/
lemma State.Sound.accept_sets (h : s.Sound lc) (hn : n < 2 ^ 31) {answers : AcceptAnswers}
    (hset : (answers.accept = .exhausted ∧ s'.worker.acceptDisabled = 1) ∨
      s'.worker.acceptDisabled =
        BitVec.ofNat 32 (n / 8) - BitVec.ofNat 32 s.worker.freeConnectionN) :
    s'.worker.acceptDisabled.toInt ≤ (max 1 (n / 8) : ℕ) ∧
      (0 < s'.worker.acceptDisabled.toInt →
        answers.accept = .exhausted ∨ s.worker.freeConnectionN < n / 8) := by
  rcases hset with ⟨hexhausted, hset⟩ | hset
  · rw [hset, show (1 : BitVec 32).toInt = 1 from by decide]
    exact ⟨by omega, fun _ => .inl hexhausted⟩
  · rw [hset, toInt_eighth hn h.steady.free_lt]
    exact ⟨by omega, fun hpos => .inr (by omega)⟩

/-! ## Runs -/

/-- The runs of a worker whose `accept_disabled` is 0 at the start, as C sets a global. -/
def freshMachine (n : ℕ) : Machine (State n) (Label n) where
  init s := s.Start ∧ s.worker.acceptDisabled = 0
  step := State.step

/-- The states of those runs whose steps all satisfy `ok`. -/
def FreshRuns (ok : State n → Label n → Prop) (s : State n) : Prop :=
  (freshMachine n).Reach (fun s a => s.Allowed a ∧ ok s a) s

/-- It never exceeds an eighth of the slots, except for 1. -/
lemma FreshRuns.disabled {ok : State n → Label n → Prop} (h : FreshRuns ok s) (hn : n < 2 ^ 31) :
    (∃ lc, s.Sound lc) ∧ s.worker.acceptDisabled.toInt ≤ (max 1 (n / 8) : ℕ) := by
  refine Machine.Reach.invariant (I := fun s : State n => (∃ lc, s.Sound lc) ∧
    s.worker.acceptDisabled.toInt ≤ (max 1 (n / 8) : ℕ)) ?_ ?_ h
  · rintro s ⟨hstart, hzero⟩
    obtain ⟨lc, hsound, -⟩ := start_sound hstart
    refine ⟨⟨lc, hsound⟩, ?_⟩
    rw [hzero, show (0 : BitVec 32).toInt = 0 from by decide]
    omega
  · rintro s a s' ⟨⟨lc, hsound⟩, hle⟩ ⟨ha, -⟩ hstep
    refine ⟨⟨lc, (hsound.step ha hstep).1⟩, ?_⟩
    rcases hsound.disabled_cases ha hstep with ⟨hsame, -⟩ | ⟨-, hpos, hdown⟩ | ⟨answers, -, hset⟩
    · rw [hsame]
      exact hle
    · rw [hdown, toInt_sub_one hpos]
      omega
    · exact (hsound.accept_sets hn hset).1

/-- Without a round of `event_accept` every skipped attempt counts it down. -/
lemma State.Sound.skips_le (h : s.Sound lc) {as : List (Label n)}
    (has : ∀ a ∈ as, ∀ answers, a ≠ .accept answers)
    (hrun : (programMachine n).run
      (fun s a => s.Allowed a ∧ (a.Inner ∨ 0 < s.worker.acceptDisabled.toInt)) s as = some s') :
    (as.filter fun a => !decide a.Inner).length ≤ s.worker.acceptDisabled.toInt.toNat := by
  induction as generalizing s with
  | nil => exact Nat.zero_le _
  | cons a as ih =>
    obtain ⟨s₁, ⟨ha, hskip⟩, hstep, hrun⟩ := Machine.run_cons hrun
    have hle := ih (h.step ha hstep).1 (fun a ha => has a (.tail _ ha)) hrun
    rcases h.disabled_cases ha hstep with ⟨hsame, hinner⟩ | ⟨hinner, hpos, hdown⟩ | ⟨answers, he, -⟩
    · have hin : a.Inner := by
        rcases hinner with hinner | hno
        · exact hinner
        · exact hskip.resolve_right hno
      rw [hsame] at hle
      simpa [List.filter_cons, hin] using hle
    · rw [hdown, toInt_sub_one hpos] at hle
      simp only [List.filter_cons, hinner, decide_false, Bool.not_false, if_true, List.length_cons]
      omega
    · exact absurd he (has a (.head _) answers)

/-- **An overloaded worker comes back.** Only a round of `event_accept` turns the attempts off: for
lack of descriptors, or with fewer than an eighth of the slots free. From any state of any run, a
worker that makes no round of `event_accept` skips at most `connection_n / 8` attempts before it
tries again, or one if that is 0. The number of slots is below `2 ^ 31`. -/
theorem accept_throttled {ok : State n → Label n → Prop} (h : FreshRuns ok s) (hn : n < 2 ^ 31) :
    (∀ a s', s.Allowed a → s.step a = some s' → ¬ 0 < s.worker.acceptDisabled.toInt →
      0 < s'.worker.acceptDisabled.toInt → ∃ answers, a = .accept answers ∧
        (answers.accept = .exhausted ∨ s.worker.freeConnectionN < n / 8)) ∧
    ∀ as s', (∀ a ∈ as, ∀ answers, a ≠ .accept answers) →
      (programMachine n).run
        (fun s a => s.Allowed a ∧ (a.Inner ∨ 0 < s.worker.acceptDisabled.toInt)) s as = some s' →
      (as.filter fun a => !decide a.Inner).length ≤ max 1 (n / 8) := by
  obtain ⟨⟨lc, hsound⟩, hle⟩ := h.disabled hn
  constructor
  · intro a s' ha hstep hoff hon
    rcases hsound.disabled_cases ha hstep with ⟨hsame, -⟩ | ⟨-, hpos, -⟩ | ⟨answers, he, hset⟩
    · rw [hsame] at hon
      exact absurd hon hoff
    · exact absurd hpos hoff
    · exact ⟨answers, he, (hsound.accept_sets hn hset).2 hon⟩
  · intro as s' has hrun
    have hskips := hsound.skips_le has hrun
    omega

/-- An iteration in which no descriptors are left. -/
def exhaustOne : List (Label 2) :=
  [.iterate true true [⟨3, true, false, false, false⟩] 1, .next, .next, .next, .next,
    .call none [] true, .accept ⟨.exhausted, ⟨none, [], [], true⟩, none, true, true⟩, .next, .next,
    .next]

lemma freshRuns_of_launch {as : List (Label 2)} {s : State 2}
    (h : State.launch 2 false (fun _ _ => True) as = some s) : FreshRuns (fun _ _ => True) s := by
  rw [State.launch] at h
  obtain ⟨⟨b, w⟩, hinit, hrun⟩ := Option.bind_eq_some_iff.mp h
  have hzero : (eventProcessInit (initCycle (listeningWorker 2 false)) true).map
      (fun r => r.2.acceptDisabled) = some 0 := by decide +kernel
  rw [hinit] at hzero
  have hstart : State.Start (⟨w, [], fun _ => [], fun _ => []⟩ : State 2) :=
    ⟨listeningWorker 2 false, w, b, true, by decide, rfl, rfl, rfl, rfl, rfl, hinit, rfl⟩
  have hinit' : (freshMachine 2).init ⟨w, [], fun _ => [], fun _ => []⟩ :=
    ⟨hstart, Option.some.inj hzero⟩
  exact Machine.Reach.run (.init hinit') hrun

/-- After it the next attempt is skipped. -/
theorem accept_throttled_exhausted :
    ∃ s s' : State 2, State.launch 2 false (fun _ _ => True) exhaustOne = some s ∧
      (programMachine 2).run (fun s a => s.Allowed a ∧
        (a.Inner ∨ 0 < s.worker.acceptDisabled.toInt)) s [.iterate true true [] 2] = some s' ∧
      [(.iterate true true [] 2 : Label 2)].filter (fun a => !decide a.Inner) ≠ [] ∧
      ([(.iterate true true [] 2 : Label 2)].filter fun a => !decide a.Inner).length ≤ 1 := by
  have hlaunch : ((State.launch 2 false (fun _ _ => True) exhaustOne).bind fun s =>
      (programMachine 2).run (fun s a => s.Allowed a ∧
        (a.Inner ∨ 0 < s.worker.acceptDisabled.toInt)) s [.iterate true true [] 2]).isSome =
      true := by decide +kernel
  obtain ⟨s', hs'⟩ := Option.isSome_iff_exists.mp hlaunch
  obtain ⟨s, hs, hrun⟩ := Option.bind_eq_some_iff.mp hs'
  refine ⟨s, s', hs, hrun, by decide, ?_⟩
  refine (accept_throttled (freshRuns_of_launch hs) (by norm_num)).2 _ s' ?_ hrun
  intro a ha answers he
  rw [List.mem_singleton.mp ha] at he
  cases he

end Libcn.Program
