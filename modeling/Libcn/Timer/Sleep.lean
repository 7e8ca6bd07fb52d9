import Libcn.Timer.Expire
import Libcn.Timer.Find
import Mathlib.Order.Bounds.Basic

/-!
# How long the loop sleeps

`process_events_and_timers` turns the time to the first timer and the accept delay into the
timeout of `epoll_wait`. The times are 64 bits wide and the timeout is an `int`, so the loop
sleeps as it should when the shortest time keeps its meaning in the low 32 bits.
-/

namespace Libcn.Timer

open Libcn.Lib Libcn.Rbtree

variable {ι : Type}

/-- The globals that `process_events_and_timers` reads besides the timers. -/
structure Polling where
  timerResolution : BitVec 64
  useAcceptMutex : Bool
  acceptDisabled : BitVec 32
  acceptMutexDelay : BitVec 64

/-- How `trylock_accept_mutex` returns: with an error, or with `accept_mutex_held` set so. -/
inductive TryLock
  | error
  | done (held : Bool)
  deriving DecidableEq, Repr

/-- The call of `epoll_process_events`: `timer`, the bits of `flags`, and `accept_disabled`
there. -/
structure Poll where
  timer : BitVec 64
  updateTime : Bool
  postEvents : Bool
  acceptDisabled : BitVec 32
  deriving DecidableEq, Repr

section Code

variable [DecidableEq ι]

/-- `process_events_and_timers` up to the call of `epoll_process_events`: `some none` when it
returns before. -/
def processEventsAndTimers (fuel : ℕ) (T : Timers ι) (c : Polling) (l : TryLock) :
    Option (Option Poll) := do
  let (timer, updateTime) ←
    if c.timerResolution ≠ 0 then pure (timerInfinite, false)
    else do
      let timer ← eventFindTimer fuel T
      pure (timer, true)
  if c.useAcceptMutex then
    if 0 < c.acceptDisabled.toInt then
      pure (some ⟨timer, updateTime, false, c.acceptDisabled - 1⟩)
    else match l with
      | .error => pure none
      | .done true => pure (some ⟨timer, updateTime, true, c.acceptDisabled⟩)
      | .done false =>
        let timer := if timer = timerInfinite ∨ c.acceptMutexDelay < timer
          then c.acceptMutexDelay else timer
        pure (some ⟨timer, updateTime, false, c.acceptDisabled⟩)
  else pure (some ⟨timer, updateTime, false, c.acceptDisabled⟩)

end Code

/-- The `int` that `epoll_wait` is called with. -/
def epollTimeout (timer : BitVec 64) : ℤ := (timer.setWidth 32).toInt

/-! ## What the timeout should be -/

/-- The accept delay, where it applies. -/
def Polling.delay (c : Polling) (l : TryLock) : Option (BitVec 64) :=
  if c.useAcceptMutex = true ∧ ¬ 0 < c.acceptDisabled.toInt ∧ l = .done false
  then some c.acceptMutexDelay else none

/-- The remaining time of a timer. -/
def remaining (T : Timers ι) (i : ι) : ℕ := (T.key i - T.currentMsec).toInt.toNat

/-- What a timeout must not exceed: the remaining times of the given events and the accept
delay. -/
def bounds (S : ι → Prop) (T : Timers ι) (c : Polling) (l : TryLock) : Set ℕ :=
  {n | (∃ i, S i ∧ remaining T i = n) ∨ ∃ d, c.delay l = some d ∧ d ≠ timerInfinite ∧ d.toNat = n}

/-- The timeout is negative only if there is nothing to wait for, otherwise it is at most the
remaining time of every armed timer, and 0 only if a timer is due or the delay is 0. -/
structure Sound (T : Timers ι) (c : Polling) (l : TryLock) (timeout : ℤ) : Prop where
  negative : timeout < 0 → (∀ i, T.timerSet i = false) ∧ ∀ d, c.delay l = some d → d = timerInfinite
  le : 0 ≤ timeout → ∀ i, T.timerSet i = true → timeout ≤ remaining T i
  zero : timeout = 0 → (∃ i, T.timerSet i = true ∧ remaining T i = 0) ∨ c.delay l = some 0

/-- The time `n` is a sound timeout after its conversion to `int`. -/
def Survives (T : Timers ι) (c : Polling) (l : TryLock) (n : ℕ) : Prop :=
  n % 2 ^ 32 < 2 ^ 31 ∧ (∀ i, T.timerSet i = true → n % 2 ^ 32 ≤ remaining T i) ∧
    (n % 2 ^ 32 = 0 → (∃ i, T.timerSet i = true ∧ remaining T i = 0) ∨ c.delay l = some 0)

/-- The time `n` is 0, or its low 32 bits are a positive `int`. -/
def Narrows (n : ℕ) : Prop := n = 0 ∨ (0 < n % 2 ^ 32 ∧ n % 2 ^ 32 < 2 ^ 31)

/-- The time `n` of the leftmost node or the delay exceeds the shortest time `m`, but its low 32 bits
do not, and are 0 only if `m` is. -/
def Cancels (n m : ℕ) : Prop :=
  m < n ∧ 2 ^ 32 ≤ n ∧ n % 2 ^ 32 < 2 ^ 31 ∧ n % 2 ^ 32 ≤ m ∧ (n % 2 ^ 32 = 0 → m = 0)

/-! ## The conversion -/

lemma epollTimeout_infinite : epollTimeout timerInfinite = -1 := by decide

lemma epollTimeout_eq (timer : BitVec 64) : epollTimeout timer =
    if timer.toNat % 2 ^ 32 < 2 ^ 31 then ((timer.toNat % 2 ^ 32 : ℕ) : ℤ)
    else ((timer.toNat % 2 ^ 32 : ℕ) : ℤ) - 2 ^ 32 := by
  rw [epollTimeout, BitVec.toInt_eq_toNat_cond, BitVec.toNat_setWidth]
  have hlt : timer.toNat % 2 ^ 32 < 2 ^ 32 := Nat.mod_lt _ (by decide)
  generalize timer.toNat % 2 ^ 32 = r at *
  split_ifs <;> omega

/-- Nothing to wait for. -/
lemma sound_infinite {T : Timers ι} {c : Polling} {l : TryLock} (hnone : ∀ i, T.timerSet i = false)
    (hdelay : ∀ d, c.delay l = some d → d = timerInfinite) :
    Sound T c l (epollTimeout timerInfinite) := by
  rw [epollTimeout_infinite]
  exact ⟨fun _ => ⟨hnone, hdelay⟩, fun h => absurd h (by decide), fun h => absurd h (by decide)⟩

/-- A timeout that has something to wait for is sound when it survives the conversion. -/
lemma sound_iff {T : Timers ι} {c : Polling} {l : TryLock} {timer : BitVec 64}
    (hsome : (∃ i, T.timerSet i = true) ∨ ∃ d, c.delay l = some d ∧ d ≠ timerInfinite) :
    Sound T c l (epollTimeout timer) ↔ Survives T c l timer.toNat := by
  have hlt : timer.toNat % 2 ^ 32 < 2 ^ 32 := Nat.mod_lt _ (by decide)
  rw [epollTimeout_eq, Survives]
  generalize timer.toNat % 2 ^ 32 = r at *
  by_cases hr : r < 2 ^ 31
  · rw [if_pos hr]
    constructor
    · rintro ⟨-, hle, hzero⟩
      exact ⟨hr, fun i hi => by exact_mod_cast hle (by omega) i hi, fun h => hzero (by omega)⟩
    · rintro ⟨-, hle, hzero⟩
      exact ⟨fun h => absurd h (by omega), fun _ i hi => by exact_mod_cast hle i hi,
        fun h => hzero (by omega)⟩
  · rw [if_neg hr]
    constructor
    · rintro ⟨hneg, -, -⟩
      obtain ⟨hnone, hdelay⟩ := hneg (by omega)
      rcases hsome with ⟨i, hi⟩ | ⟨d, hd, hne⟩
      · rw [hnone i] at hi
        cases hi
      · exact absurd (hdelay d hd) hne
    · exact fun h => absurd h.1 hr

/-! ## The shortest time -/

variable [DecidableEq ι]

/-- The event is the leftmost node of the timer tree. -/
def Leftmost (fuel : ℕ) (T : Timers ι) (ev : ι) : Prop :=
  T.tree.root ≠ .sentinel ∧ rbtreeMin T.tree fuel T.tree.root = some (.node ev)

/-- `timer` is what there is to wait for: nothing, or the shortest time. -/
def Shortest (fuel : ℕ) (T : Timers ι) (c : Polling) (l : TryLock) (timer : BitVec 64) : Prop :=
  (timer = timerInfinite ∧ (∀ i, T.timerSet i = false) ∧
      ∀ d, c.delay l = some d → d = timerInfinite) ∨
    (((∃ i, T.timerSet i = true) ∨ ∃ d, c.delay l = some d ∧ d ≠ timerInfinite) ∧
      IsLeast (bounds (Leftmost fuel T) T c l) timer.toNat)

/-- A set of times that is not empty has a shortest one. -/
lemma exists_isLeast {s : Set ℕ} (h : s.Nonempty) : ∃ n, IsLeast s n := by
  classical exact ⟨Nat.find h, Nat.find_spec h, fun _ => Nat.find_min' h⟩

section Spec

variable [Fintype ι] {fuel : ℕ} {T : Timers ι} {c : Polling} {l : TryLock}

/-- `event_find_timer` answers the remaining time of the leftmost node. -/
lemma eventFindTimer_spec (h : Mirrors T fun _ => True) (hf : Fintype.card ι < fuel) :
    ∃ d, eventFindTimer fuel T = some d ∧
      ((d = timerInfinite ∧ (∀ i, T.timerSet i = false) ∧ ∀ i, ¬ Leftmost fuel T i) ∨
        ∃ ev, T.timerSet ev = true ∧ (∀ i, Leftmost fuel T i ↔ i = ev) ∧
          d.toNat = remaining T ev ∧ d ≠ timerInfinite) := by
  rcases leftmost h hf with ⟨hroot, hnone⟩ | ⟨ev, hne, hmin, -, hset⟩
  · refine ⟨timerInfinite, by simp [eventFindTimer, hroot], .inl ⟨rfl, fun i => ?_, fun i hi => ?_⟩⟩
    · simpa using hnone i
    · exact hi.1 hroot
  · have hleft : ∀ i, Leftmost fuel T i ↔ i = ev := by
      intro i
      rw [Leftmost, hmin]
      simp [hne, eq_comm]
    have hkey : T.tree.key (.node ev) = T.key ev := rfl
    have hint := BitVec.toInt_eq_toNat_cond (T.key ev - T.currentMsec)
    by_cases hpos : 0 < (T.key ev - T.currentMsec).toInt
    · refine ⟨T.key ev - T.currentMsec, ?_, .inr ⟨ev, hset, hleft, ?_, fun e => ?_⟩⟩
      · simp [eventFindTimer, hne, hmin, hkey, hpos, -BitVec.toInt_sub]
      · unfold remaining
        split_ifs at hint <;> omega
      · rw [e] at hpos
        exact absurd hpos (by decide)
    · refine ⟨0, ?_, .inr ⟨ev, hset, hleft, ?_, by decide⟩⟩
      · simp [eventFindTimer, hne, hmin, hkey, hpos, -BitVec.toInt_sub]
      · rw [remaining, Int.toNat_of_nonpos (not_lt.mp hpos)]
        rfl

/-- The time of `event_find_timer` is the shortest where no delay applies. -/
lemma shortest_find {d : BitVec 64} (h : Mirrors T fun _ => True) (hf : Fintype.card ι < fuel)
    (hd : eventFindTimer fuel T = some d) (hdelay : c.delay l = none) : Shortest fuel T c l d := by
  obtain ⟨d', hd', hcase⟩ := eventFindTimer_spec h hf
  obtain rfl := Option.some.inj (hd.symm.trans hd')
  rcases hcase with ⟨rfl, hnone, -⟩ | ⟨ev, hset, hleft, hrem, -⟩
  · exact .inl ⟨rfl, hnone, fun d e => by rw [hdelay] at e; cases e⟩
  · refine .inr ⟨.inl ⟨ev, hset⟩, .inl ⟨ev, (hleft ev).mpr rfl, hrem.symm⟩, ?_⟩
    rintro n (⟨i, hi, rfl⟩ | ⟨d, e, -⟩)
    · rw [(hleft i).mp hi, hrem]
    · rw [hdelay] at e
      cases e

/-- Where the delay applies the shorter of the two is taken. -/
lemma shortest_delay {d delay : BitVec 64} (h : Mirrors T fun _ => True)
    (hf : Fintype.card ι < fuel) (hd : eventFindTimer fuel T = some d)
    (hdelay : c.delay l = some delay) :
    Shortest fuel T c l (if d = timerInfinite ∨ delay < d then delay else d) := by
  obtain ⟨d', hd', hcase⟩ := eventFindTimer_spec h hf
  obtain rfl := Option.some.inj (hd.symm.trans hd')
  have hinf : timerInfinite.toNat = 2 ^ 64 - 1 := by decide
  have hdel : ∀ e, c.delay l = some e → e = delay := fun e he =>
    (Option.some.inj (hdelay.symm.trans he)).symm
  rcases hcase with ⟨rfl, hnone, hleft⟩ | ⟨ev, hset, hleft, hrem, hne⟩
  · rw [if_pos (.inl rfl)]
    by_cases hde : delay = timerInfinite
    · exact .inl ⟨hde, hnone, fun e he => (hdel e he).trans hde⟩
    · refine .inr ⟨.inr ⟨delay, hdelay, hde⟩, .inr ⟨delay, hdelay, hde, rfl⟩, ?_⟩
      rintro n (⟨i, hi, -⟩ | ⟨e, he, -, rfl⟩)
      · exact absurd hi (hleft i)
      · rw [hdel e he]
  · refine .inr ⟨.inl ⟨ev, hset⟩, ?_⟩
    by_cases hlt : delay < d
    · have hlt' : delay.toNat < d.toNat := hlt
      have hde : delay ≠ timerInfinite := by
        rintro rfl
        have := d.isLt
        omega
      rw [if_pos (.inr hlt)]
      refine ⟨.inr ⟨delay, hdelay, hde, rfl⟩, ?_⟩
      rintro n (⟨i, hi, rfl⟩ | ⟨e, he, -, rfl⟩)
      · rw [(hleft i).mp hi, ← hrem]
        exact hlt'.le
      · rw [hdel e he]
    · have hle : d.toNat ≤ delay.toNat := BitVec.not_lt.mp hlt
      rw [if_neg (not_or.mpr ⟨hne, hlt⟩)]
      refine ⟨.inl ⟨ev, (hleft ev).mpr rfl, hrem.symm⟩, ?_⟩
      rintro n (⟨i, hi, rfl⟩ | ⟨e, he, -, rfl⟩)
      · rw [(hleft i).mp hi, hrem]
      · rwa [hdel e he]

/-- `process_events_and_timers` asks for the shortest time, unless it returns for an error of
`trylock_accept_mutex`. -/
lemma processEventsAndTimers_spec (h : Mirrors T fun _ => True) (hf : Fintype.card ι < fuel)
    (hres : c.timerResolution = 0) :
    ∃ r, processEventsAndTimers fuel T c l = some r ∧ (r = none → l = .error) ∧
      ∀ p, r = some p → Shortest fuel T c l p.timer := by
  obtain ⟨d, hd, -⟩ := eventFindTimer_spec h hf
  have hfind : ∀ p : Poll, p.timer = d → c.delay l = none →
      ∀ q, some p = some q → Shortest fuel T c l q.timer := by
    rintro p hp hdelay q hq
    rw [← Option.some.inj hq, hp]
    exact shortest_find h hf hd hdelay
  by_cases huse : c.useAcceptMutex = true
  · by_cases hdis : 0 < c.acceptDisabled.toInt
    · refine ⟨some ⟨d, true, false, c.acceptDisabled - 1⟩, ?_, by simp, hfind _ rfl ?_⟩
      · simp [processEventsAndTimers, hres, hd, huse, hdis]
      · rw [Polling.delay, if_neg (fun e => e.2.1 hdis)]
    · rcases l with _ | _ | _
      · exact ⟨none, by simp [processEventsAndTimers, hres, hd, huse, hdis], fun _ => rfl, by simp⟩
      · refine ⟨some _, by simp [processEventsAndTimers, hres, hd, huse, hdis]; rfl, by simp, ?_⟩
        rintro p hp
        rw [← Option.some.inj hp]
        exact shortest_delay h hf hd (if_pos ⟨huse, hdis, rfl⟩)
      · refine ⟨some ⟨d, true, true, c.acceptDisabled⟩, ?_, by simp, hfind _ rfl ?_⟩
        · simp [processEventsAndTimers, hres, hd, huse, hdis]
        · rw [Polling.delay, if_neg (fun e => by cases e.2.2)]
  · refine ⟨some ⟨d, true, false, c.acceptDisabled⟩, ?_, by simp, hfind _ rfl ?_⟩
    · simp [processEventsAndTimers, hres, hd, huse]
    · rw [Polling.delay, if_neg (fun e => huse e.1)]

/-- Near the clock the leftmost node has the least remaining time. -/
lemma remaining_leftmost {arms : List ι} (h : TimerTree T arms) (hnear : NearKeys T)
    (hf : Fintype.card ι < fuel) {ev : ι} (hev : Leftmost fuel T ev) :
    T.timerSet ev = true ∧ ∀ j, T.timerSet j = true → remaining T ev ≤ remaining T j := by
  have hlen : arms.length < fuel := h.nodup.length_le_card.trans_lt hf
  have hne : arms ≠ [] := by
    rintro rfl
    obtain ⟨⟨l, ht, hp, -⟩, -⟩ := h
    obtain rfl : l = [] := List.map_eq_nil_iff.mp (List.perm_nil.mp hp)
    exact hev.1 ht.root_nil
  obtain ⟨ev', hmem, -, hmin, hfirst⟩ := first_spec h hnear hne hlen
  obtain rfl : ev = ev' := by simpa using hev.2.symm.trans hmin
  refine ⟨(h.armed ev).mpr hmem, fun j hj => ?_⟩
  by_cases hje : j = ev
  · rw [hje]
  · exact Int.toNat_le_toNat (hfirst j ((h.armed j).mp hj) hje).1

omit [Fintype ι] in
/-- The timeout is sound exactly when the shortest time survives the conversion. -/
lemma sound_shortest {timer : BitVec 64} (h : Shortest fuel T c l timer)
    (hmem : ∀ i, Leftmost fuel T i → T.timerSet i = true) :
    Sound T c l (epollTimeout timer) ↔
      ∀ n, IsLeast (bounds (Leftmost fuel T) T c l) n → Survives T c l n := by
  rcases h with ⟨rfl, hnone, hdelay⟩ | ⟨hsome, hleast⟩
  · refine ⟨fun _ n hn => ?_, fun _ => sound_infinite hnone hdelay⟩
    rcases hn.1 with ⟨i, hi, -⟩ | ⟨d, hd, hne, -⟩
    · have := hmem i hi
      rw [hnone i] at this
      cases this
    · exact absurd (hdelay d hd) hne
  · rw [sound_iff hsome]
    exact ⟨fun hs n hn => hn.unique hleast ▸ hs, fun hall => hall _ hleast⟩

omit [Fintype ι] in
/-- The leftmost node is one of those armed. -/
lemma bounds_leftmost_subset (hmem : ∀ i, Leftmost fuel T i → T.timerSet i = true) :
    bounds (Leftmost fuel T) T c l ⊆ bounds (fun i => T.timerSet i = true) T c l := by
  rintro n (⟨i, hi, rfl⟩ | hd)
  · exact .inl ⟨i, hmem i hi, rfl⟩
  · exact .inr hd

omit [DecidableEq ι] [Fintype ι] in
/-- The shortest of all times is 0 exactly if a timer is due or the delay is 0. -/
lemma least_zero_iff {m : ℕ} (hm : IsLeast (bounds (fun i => T.timerSet i = true) T c l) m) :
    m = 0 ↔ (∃ i, T.timerSet i = true ∧ remaining T i = 0) ∨ c.delay l = some 0 := by
  constructor
  · rintro rfl
    rcases hm.1 with h | ⟨d, hd, -, hd0⟩
    · exact .inl h
    · obtain rfl : d = 0 := BitVec.eq_of_toNat_eq hd0
      exact .inr hd
  · intro h
    have hzero : 0 ∈ bounds (fun i => T.timerSet i = true) T c l := by
      rcases h with h | h
      · exact .inl h
      · exact .inr ⟨0, h, by decide, rfl⟩
    exact Nat.le_zero.mp (hm.2 hzero)

omit [Fintype ι] in
/-- A time survives the conversion if it is the shortest of all and its low bits are no sign and, but
for 0 itself, not all clear, or if the conversion hides that it is too long. -/
lemma survives_iff {n m : ℕ} (hmem : ∀ i, Leftmost fuel T i → T.timerSet i = true)
    (hn : IsLeast (bounds (Leftmost fuel T) T c l) n)
    (hm : IsLeast (bounds (fun i => T.timerSet i = true) T c l) m) :
    Survives T c l n ↔ n = m ∧ Narrows n ∨ Cancels n m := by
  have hmod : n % 2 ^ 32 ≤ n := Nat.mod_le _ _
  have hmn : m ≤ n := hm.2 (bounds_leftmost_subset hmem hn.1)
  have hle : (∀ i, T.timerSet i = true → n % 2 ^ 32 ≤ remaining T i) ↔ n % 2 ^ 32 ≤ m := by
    refine ⟨fun h => ?_, fun h i hi => h.trans (hm.2 (.inl ⟨i, hi, rfl⟩))⟩
    rcases hm.1 with ⟨i, hi, rfl⟩ | hd
    · exact h i hi
    · exact hmod.trans (hn.2 (.inr hd))
  rw [Survives, hle, ← least_zero_iff hm]
  unfold Narrows Cancels
  omega

/-- Near the clock the leftmost node stands for all armed timers. -/
lemma isLeast_bounds_iff {arms : List ι} (h : TimerTree T arms) (hnear : NearKeys T)
    (hm : Mirrors T fun _ => True) (hf : Fintype.card ι < fuel) (n : ℕ) :
    IsLeast (bounds (Leftmost fuel T) T c l) n ↔
      IsLeast (bounds (fun i => T.timerSet i = true) T c l) n := by
  have hleft : ∀ j, T.timerSet j = true →
      ∃ i, Leftmost fuel T i ∧ remaining T i ≤ remaining T j := by
    intro j hj
    rcases leftmost hm hf with ⟨-, hnone⟩ | ⟨ev, hne, hmin, -, -⟩
    · exact absurd ⟨trivial, hj⟩ (hnone j)
    · exact ⟨ev, ⟨hne, hmin⟩, (remaining_leftmost h hnear hf ⟨hne, hmin⟩).2 j hj⟩
  have hsub : bounds (Leftmost fuel T) T c l ⊆ bounds (fun i => T.timerSet i = true) T c l := by
    rintro n (⟨i, hi, rfl⟩ | hd)
    · exact .inl ⟨i, (remaining_leftmost h hnear hf hi).1, rfl⟩
    · exact .inr hd
  constructor
  · rintro ⟨hmem, hle⟩
    refine ⟨hsub hmem, ?_⟩
    rintro k (⟨j, hj, rfl⟩ | hd)
    · obtain ⟨i, hi, hij⟩ := hleft j hj
      exact (hle (.inl ⟨i, hi, rfl⟩)).trans hij
    · exact hle (.inr hd)
  · rintro ⟨hmem, hle⟩
    refine ⟨?_, fun k hk => hle (hsub hk)⟩
    rcases hmem with ⟨j, hj, rfl⟩ | hd
    · obtain ⟨i, hi, hij⟩ := hleft j hj
      have hji := hle (.inl ⟨i, (remaining_leftmost h hnear hf hi).1, rfl⟩)
      exact .inl ⟨i, hi, hij.antisymm hji⟩
    · exact .inr hd

/-- The timeout of `epoll_wait` is sound exactly when the shorter of the time of the first node and
the accept delay is the shortest of all times and is still that as an `int`; a longer one may
pass only where the conversion hides it. In a run whose keys stay near the clock the first node has
the shortest time. -/
theorem epollTimeout_sound (h : Reachable fuel T) (hf : Fintype.card ι < fuel)
    (hres : c.timerResolution = 0) :
    ∃ r, processEventsAndTimers fuel T c l = some r ∧ (r = none → l = .error) ∧
      ∀ p, r = some p →
        (Sound T c l (epollTimeout p.timer) ↔ ∀ n m, IsLeast (bounds (Leftmost fuel T) T c l) n →
          IsLeast (bounds (fun i => T.timerSet i = true) T c l) m →
          n = m ∧ Narrows n ∨ Cancels n m) ∧
        ∀ arms, Armed fuel T arms → NearKeys T → (Sound T c l (epollTimeout p.timer) ↔
          ∀ m, IsLeast (bounds (fun i => T.timerSet i = true) T c l) m → Narrows m) := by
  have hm := h.mirrors hf
  obtain ⟨r, hrun, hearly, hshort⟩ := processEventsAndTimers_spec (c := c) (l := l) hm hf hres
  have hmem : ∀ i, Leftmost fuel T i → T.timerSet i = true := by
    rintro i ⟨hne, hi⟩
    rcases leftmost hm hf with ⟨hroot, -⟩ | ⟨ev, -, hmin, -, hset⟩
    · exact absurd hroot hne
    · obtain rfl : i = ev := by simpa using hi.symm.trans hmin
      exact hset
  refine ⟨r, hrun, hearly, fun p hp => ?_⟩
  have hiff : Sound T c l (epollTimeout p.timer) ↔
      ∀ n m, IsLeast (bounds (Leftmost fuel T) T c l) n →
        IsLeast (bounds (fun i => T.timerSet i = true) T c l) m →
        n = m ∧ Narrows n ∨ Cancels n m := by
    rw [sound_shortest (hshort p hp) hmem]
    refine ⟨fun hs n m hn hle => (survives_iff hmem hn hle).mp (hs n hn), fun hs n hn => ?_⟩
    obtain ⟨m, hle⟩ := exists_isLeast ⟨n, bounds_leftmost_subset hmem hn.1⟩
    exact (survives_iff hmem hn hle).mpr (hs n m hn hle)
  refine ⟨hiff, fun arms harms hnear => hiff.trans ?_⟩
  have hsame := isLeast_bounds_iff (c := c) (l := l) (harms.timerTree hf) hnear hm hf
  constructor
  · intro hs m hle
    rcases hs m m ((hsame m).mpr hle) hle with ⟨-, hnarrow⟩ | hcancel
    · exact hnarrow
    · exact absurd hcancel.1 (lt_irrefl m)
  · intro hs n m hn hle
    obtain rfl := ((hsame n).mp hn).unique hle
    exact .inl ⟨rfl, hs n hle⟩

end Spec

/-- The runs whose keys stay near the clock are among those of a worker. -/
lemma Armed.reachable {fuel : ℕ} [Fintype ι] {T : Timers ι} {arms : List ι}
    (h : Armed fuel T arms) : Reachable fuel T := by
  induction h with
  | init T hT => exact .init T hT
  | clock now h ih => exact .clock now ih
  | call c h hnear hlegal hrun ih =>
    refine .call c ih ?_ hrun
    cases c with
    | add ev timer => trivial
    | del ev => exact ⟨hlegal.1, trivial⟩
  | fire h hnear hrun ih => exact .fire ih hrun

/-- A worker that has armed two timers, the one that is due later first. -/
theorem epollTimeout_sound_two : ∃ T : Timers (Fin 2),
    runCalls 4 (eventTimerInit Timers.zeroed) [.add 0 9, .add 1 5] = some T ∧
      ∃ r, processEventsAndTimers 4 T ⟨0, true, 0, 500⟩ (.done false) = some r ∧
        (r = none → TryLock.done false = .error) ∧
        ∀ p, r = some p →
          (Sound T ⟨0, true, 0, 500⟩ (.done false) (epollTimeout p.timer) ↔
            ∀ n m, IsLeast (bounds (Leftmost 4 T) T ⟨0, true, 0, 500⟩ (.done false)) n →
              IsLeast (bounds (fun i => T.timerSet i = true) T ⟨0, true, 0, 500⟩ (.done false)) m →
              n = m ∧ Narrows n ∨ Cancels n m) ∧
          (Sound T ⟨0, true, 0, 500⟩ (.done false) (epollTimeout p.timer) ↔
            ∀ m, IsLeast (bounds (fun i => T.timerSet i = true) T ⟨0, true, 0, 500⟩
              (.done false)) m → Narrows m) := by
  obtain ⟨T, hrun, harmed, hnow, hkey⟩ := armed_pair
  have hnear : NearKeys T := by
    intro i hi
    rw [hnow]
    rcases hkey i with h | h <;> rw [Near, h] <;> decide
  obtain ⟨r, hr, hearly, hsound⟩ := epollTimeout_sound (c := ⟨0, true, 0, 500⟩)
    (l := .done false) harmed.reachable (by decide) rfl
  exact ⟨T, hrun, r, hr, hearly, fun p hp =>
    ⟨(hsound p hp).1, (hsound p hp).2 [0, 1] harmed hnear⟩⟩

/-- A timer that is `2 ^ 31` milliseconds ahead makes the loop sleep without a limit, and one that
is `2 ^ 32` ahead makes it spin. -/
theorem not_epollTimeout_sound :
    (∃ (T : Timers (Fin 1)) (p : Poll),
      eventAddTimer 2 (eventTimerInit Timers.zeroed) 0 0x80000000#64 = some T ∧
      Reachable 2 T ∧ NearKeys T ∧
      processEventsAndTimers 2 T ⟨0, false, 0, 0⟩ (.done false) = some (some p) ∧
      epollTimeout p.timer = -2 ^ 31 ∧
      ¬ Sound T ⟨0, false, 0, 0⟩ (.done false) (epollTimeout p.timer)) ∧
    ∃ (T : Timers (Fin 1)) (p : Poll),
      eventAddTimer 2 (eventTimerInit Timers.zeroed) 0 0x100000000#64 = some T ∧
      Reachable 2 T ∧ NearKeys T ∧
      processEventsAndTimers 2 T ⟨0, false, 0, 0⟩ (.done false) = some (some p) ∧
      epollTimeout p.timer = 0 ∧
      ¬ Sound T ⟨0, false, 0, 0⟩ (.done false) (epollTimeout p.timer) := by
  have hinit : Reachable 2 (eventTimerInit (Timers.zeroed : Timers (Fin 1))) := .init _ fun _ => rfl
  have hlegal : ∀ timer, DelsArmed (eventTimerInit (Timers.zeroed : Timers (Fin 1))).timerSet
      [.add 0 timer] := fun _ => trivial
  constructor
  · obtain ⟨T, hrun, hset, hkey, hpoll⟩ : ∃ T, eventAddTimer 2
        (eventTimerInit Timers.zeroed) (0 : Fin 1) 0x80000000#64 = some T ∧ T.timerSet 0 = true ∧
        (∀ i, (T.key i - T.currentMsec).toInt = 2 ^ 31) ∧
        processEventsAndTimers 2 T ⟨0, false, 0, 0⟩ (.done false) =
          some (some ⟨0x80000000#64, true, false, 0⟩) := by
      refine ⟨Option.get _ (?_ : Option.isSome _), (Option.some_get _).symm, ?_, ?_, ?_⟩ <;> decide
    refine ⟨T, _, hrun, .call _ hinit (hlegal _) hrun, fun i _ => ?_, hpoll, by decide,
      fun hs => ?_⟩
    · rw [Near, hkey i]
      norm_num
    · have := (hs.negative (by decide)).1 0
      rw [hset] at this
      cases this
  · obtain ⟨T, hrun, hkey, hpoll⟩ : ∃ T, eventAddTimer 2
        (eventTimerInit Timers.zeroed) (0 : Fin 1) 0x100000000#64 = some T ∧
        (∀ i, (T.key i - T.currentMsec).toInt = 2 ^ 32) ∧
        processEventsAndTimers 2 T ⟨0, false, 0, 0⟩ (.done false) =
          some (some ⟨0x100000000#64, true, false, 0⟩) := by
      refine ⟨Option.get _ (?_ : Option.isSome _), (Option.some_get _).symm, ?_, ?_⟩ <;> decide
    refine ⟨T, _, hrun, .call _ hinit (hlegal _) hrun, fun i _ => ?_, hpoll, by decide,
      fun hs => ?_⟩
    · rw [Near, hkey i]
      norm_num
    · rcases hs.zero (by decide) with ⟨i, -, hi⟩ | hd
      · rw [remaining, hkey i] at hi
        norm_num at hi
      · simp [Polling.delay] at hd

end Libcn.Timer
