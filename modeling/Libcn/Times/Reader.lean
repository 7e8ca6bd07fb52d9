import Libcn.Times.Cache
import Mathlib.Tactic.ByContra

/-!
# Readers of the cached time

The current slot is `cached_time` except while a new slot is filled. A reader that has loaded
`cached_time` counts how far the current slot has gone on since.
-/

namespace Libcn.Times

open Libcn.Lib

variable {T : Type} {s : System T}

/-! ## Threads inside -/

/-- The static variables as the thread inside finds them. -/
def Pc.Stands (c : Clock) : Pc → Prop
  | .start | .cas => True
  | .gettime | .monotonic _ | .compare _ | .advance _ => c.slot = c.cachedTime
  | .inPlace t tp => c.slot = c.cachedTime ∧ tp = c.slot ∧ (c.scachedTime tp).sec = t.sec
  | .fillSec _ tp => c.slot = tp ∧ tp = nextSlot c.cachedTime
  | .fillMsec t tp => c.slot = tp ∧ tp = nextSlot c.cachedTime ∧ (c.scachedTime tp).sec = t.sec
  | .publish t tp => c.slot = tp ∧ tp = nextSlot c.cachedTime ∧ c.scachedTime tp = t
  | .unlock t => c.slot = c.cachedTime ∧ c.scachedTime c.cachedTime = t

lemma Pc.stands_of_not_inside {c : Clock} {p : Pc} (hp : ¬p.Inside) : p.Stands c := by
  cases p <;> first | trivial | exact absurd trivial hp

/-- The state between two steps. -/
structure System.Inv (s : System T) : Prop where
  lock : Held (fun _ => 1) 0 (fun t => (s.pc t).Inside) s.clock.timeLock
  stands : ∀ t, (s.pc t).Stands s.clock
  idle : s.clock.timeLock = 0 →
    s.clock.slot = s.clock.cachedTime ∧
      s.clock.scachedTime s.clock.cachedTime = s.log.returned
  shown : s.log.published.head? = some (s.clock.scachedTime s.clock.cachedTime)

lemma nextSlot_ne (i : Fin timeSlots) : nextSlot i ≠ i :=
  nextSlot_iterate_ne i Nat.one_pos (by simp [timeSlots])

namespace System.Inv

lemma outside (h : s.Inv) (hlock : s.clock.timeLock = 0) : ∀ t, ¬(s.pc t).Inside :=
  h.lock.outside (fun _ => by decide) hlock

lemma lock_ne_zero (h : s.Inv) {t : T} (ht : (s.pc t).Inside) : s.clock.timeLock ≠ 0 :=
  fun hlock => h.outside hlock t ht

/-- The other threads are outside. -/
lemma other (h : s.Inv) {t u : T} (ht : (s.pc t).Inside) (hu : u ≠ t) : ¬(s.pc u).Inside :=
  fun hin => hu (h.lock.unique ht hin)

variable [DecidableEq T]

/-- A step of the thread inside that keeps `time_lock`. -/
lemma inside (h : s.Inv) {t : T} (ht : (s.pc t).Inside) {c : Clock} {p : Pc} {l : Log}
    (hlock : c.timeLock = s.clock.timeLock) (hp : p.Inside) (hst : p.Stands c)
    (hshown : l.published.head? = some (c.scachedTime c.cachedTime)) :
    Inv ⟨c, Function.update s.pc t p, l⟩ where
  lock := by
    rw [hlock]
    refine h.lock.congr fun u => ?_
    by_cases hu : u = t
    · subst hu
      simp [ht, hp]
    · simp [hu]
  stands u := by
    by_cases hu : u = t
    · subst hu
      simpa using hst
    · simp only [Function.update_of_ne hu]
      exact Pc.stands_of_not_inside (h.other ht hu)
  idle h0 := absurd (hlock.symm.trans h0) (h.lock_ne_zero ht)
  shown := hshown

/-- A step outside. -/
lemma still (h : s.Inv) {t : T} (ht : ¬(s.pc t).Inside) {p : Pc} (hp : ¬p.Inside) :
    Inv ⟨s.clock, Function.update s.pc t p, s.log⟩ where
  lock := by
    refine h.lock.congr fun u => ?_
    by_cases hu : u = t
    · subst hu
      simp [ht, hp]
    · simp [hu]
  stands u := by
    by_cases hu : u = t
    · subst hu
      simpa using Pc.stands_of_not_inside hp
    · simpa [hu] using h.stands u
  idle := h.idle
  shown := h.shown

/-- `time_lock` is taken. -/
lemma enter (h : s.Inv) (hlock : s.clock.timeLock = 0) (t : T) :
    Inv ⟨{ s.clock with timeLock := 1 }, Function.update s.pc t .gettime,
      { s.log with begun := s.log.begun + 1 }⟩ where
  lock := by
    refine Held.acquire (h.outside hlock) (t := t) ?_ fun u hu => ?_
    · simp only [Function.update_self]
      trivial
    · simp only [Function.update_of_ne hu]
  stands u := by
    by_cases hu : u = t
    · subst hu
      simp only [Function.update_self]
      exact (h.idle hlock).1
    · simp only [Function.update_of_ne hu]
      exact Pc.stands_of_not_inside (h.outside hlock u)
  idle h0 := absurd h0 (by simp)
  shown := h.shown

/-- `time_lock` is given back. -/
lemma leave (h : s.Inv) {t : T} {v : Stime} (hpc : s.pc t = .unlock v) :
    Inv ⟨{ s.clock with timeLock := 0 }, Function.update s.pc t .start,
      { s.log with returned := v }⟩ where
  lock := by
    have ht : (s.pc t).Inside := by rw [hpc]; trivial
    refine h.lock.release ht ?_ fun u hu => ?_
    · simp only [Function.update_self]
      exact id
    · simp only [Function.update_of_ne hu]
  stands u := by
    have ht : (s.pc t).Inside := by rw [hpc]; trivial
    by_cases hu : u = t
    · subst hu
      simp only [Function.update_self]
      trivial
    · simp only [Function.update_of_ne hu]
      exact Pc.stands_of_not_inside (h.other ht hu)
  idle _ := by
    have hst := h.stands t
    rw [hpc] at hst
    exact hst
  shown := h.shown

/-- Every step keeps the invariant. -/
theorem next (h : s.Inv) (a : Move T) : (s.next a).Inv := by
  have hst := h.stands a.thread
  unfold System.next
  generalize hpc : s.pc a.thread = p at hst
  have hin : p.Inside → (s.pc a.thread).Inside := fun hp => hpc ▸ hp
  cases p with
  | start =>
    have ht : ¬(s.pc a.thread).Inside := by rw [hpc]; exact id
    by_cases hlock : s.clock.timeLock = 0
    · simp only [updateStep, if_pos hlock]
      exact h.still ht id
    · simp only [updateStep, if_neg hlock]
      exact h.still ht id
  | cas =>
    have ht : ¬(s.pc a.thread).Inside := by rw [hpc]; exact id
    by_cases hlock : s.clock.timeLock = 0
    · simp only [updateStep, if_pos hlock]
      exact h.enter hlock a.thread
    · simp only [updateStep, if_neg hlock]
      exact h.still ht id
  | gettime => exact h.inside (hin trivial) rfl trivial hst h.shown
  | monotonic t => exact h.inside (hin trivial) rfl trivial hst h.shown
  | compare t =>
    by_cases hsec : (s.clock.scachedTime s.clock.slot).sec = t.sec
    · simp only [updateStep, if_pos hsec]
      exact h.inside (hin trivial) rfl trivial ⟨hst, rfl, hsec⟩ h.shown
    · simp only [updateStep, if_neg hsec]
      exact h.inside (hin trivial) rfl trivial hst h.shown
  | inPlace t tp =>
    obtain ⟨hslot, htp, hsec⟩ := hst
    have hcell : (s.clock.setMsec tp t.msec).scachedTime s.clock.cachedTime = t := by
      rw [← hslot, ← htp]
      simp [Clock.setMsec, hsec]
    exact h.inside (hin trivial) rfl trivial ⟨hslot, hcell⟩ (congrArg some hcell.symm)
  | advance t =>
    have hslot : s.clock.slot = s.clock.cachedTime := hst
    exact h.inside (hin trivial) rfl trivial ⟨rfl, congrArg nextSlot hslot⟩ h.shown
  | fillSec t tp =>
    obtain ⟨hslot, htp⟩ := hst
    have hne : s.clock.cachedTime ≠ tp := htp ▸ (nextSlot_ne _).symm
    refine h.inside (hin trivial) rfl trivial ⟨hslot, htp, by simp [Clock.setSec]⟩ ?_
    simpa [Log.note, updateStep, Clock.setSec, hne] using h.shown
  | fillMsec t tp =>
    obtain ⟨hslot, htp, hsec⟩ := hst
    have hne : s.clock.cachedTime ≠ tp := htp ▸ (nextSlot_ne _).symm
    refine h.inside (hin trivial) rfl trivial ⟨hslot, htp, by simp [Clock.setMsec, hsec]⟩ ?_
    simpa [Log.note, updateStep, Clock.setMsec, hne] using h.shown
  | publish t tp =>
    obtain ⟨hslot, htp, hcell⟩ := hst
    exact h.inside (hin trivial) rfl trivial ⟨hslot, hcell⟩ (congrArg some hcell.symm)
  | unlock t => exact h.leave hpc

end System.Inv

/-- `stime_init` publishes the pair it has read. -/
theorem stimeInit_spec (tv : Timeval) (ts : Timespec) :
    (stimeInit tv ts).timeLock = 0 ∧ (stimeInit tv ts).slot = (stimeInit tv ts).cachedTime ∧
      (stimeInit tv ts).scachedTime (stimeInit tv ts).cachedTime = tv.stime := by
  by_cases hsec : tv.stime.sec = 0
  · have hc : stimeInit tv ts = { (⟨0, 1, monotonicTime ts, 0, fun _ => ⟨0, 0⟩⟩ : Clock).setMsec 0
        tv.stime.msec with timeLock := 0 } := by
      rw [stimeInit, stimeUpdate, if_neg (by simp)]
      exact if_pos hsec.symm
    rw [hc]
    refine ⟨rfl, rfl, ?_⟩
    simp only [Clock.setMsec, Function.update_self]
    rw [← hsec]
  · have hc : stimeInit tv ts = { ((⟨nextSlot 0, 1, monotonicTime ts, 0, fun _ => ⟨0, 0⟩⟩ :
        Clock).setSec (nextSlot 0) tv.stime.sec).setMsec (nextSlot 0) tv.stime.msec with
        cachedTime := nextSlot 0, timeLock := 0 } := by
      rw [stimeInit, stimeUpdate, if_neg (by simp)]
      exact if_neg (Ne.symm hsec)
    rw [hc]
    exact ⟨rfl, rfl, by simp [Clock.setMsec, Clock.setSec]⟩

/-- The invariant holds in every reachable state. -/
theorem System.inv [DecidableEq T] (h : (timesMachine T).Reachable s) : s.Inv := by
  refine h.invariant ?_ ?_
  · rintro s ⟨tv, ts, rfl⟩
    obtain ⟨hlock, hslot, hcell⟩ := stimeInit_spec tv ts
    refine ⟨?_, fun _ => trivial, fun _ => ⟨hslot, hcell⟩, congrArg some hcell.symm⟩
    simp only [System.init, hlock]
    exact .free fun _ => id
  · rintro s a s' hi - hs
    cases hs
    exact hi.next a

/-! ## A reader -/

/-- The thread fills the current slot. -/
def Pc.Filling : Pc → Prop
  | .fillSec _ _ | .fillMsec _ _ | .publish _ _ => True
  | _ => False

/-- How far the current slot has gone on since the reader's load, from where the thread inside
stands: `n` is the number of updates that found another second, and `first` says that the
thread has had `time_lock` since before the load. -/
def Pc.Counts (k n : ℕ) (first : Prop) : Pc → Prop
  | .gettime | .monotonic _ | .compare _ => first → k = 0
  | .advance _ => k ≤ n
  | .fillSec _ _ | .fillMsec _ _ | .publish _ _ => 0 < k
  | _ => True

lemma Pc.counts_of_not_inside {k n : ℕ} {first : Prop} {p : Pc} (hp : ¬p.Inside) :
    p.Counts k n first := by
  cases p <;> first | trivial | exact absurd trivial hp

/-- The state `s` after a load of `cached_time` in the state `s₀`: the current slot has gone on by
`k`, and the slot loaded has kept its second. -/
structure Reading (s₀ s : System T) (k : ℕ) : Prop where
  slot : s.clock.slot = nextSlot^[k] s₀.clock.cachedTime
  begun : s₀.log.begun ≤ s.log.begun
  few : k ≤ s.log.changedSince s₀.log + 1
  counts : ∀ t, (s.pc t).Counts k (s.log.changedSince s₀.log) (s.log.begun = s₀.log.begun)
  sec : (s.clock.scachedTime s₀.clock.cachedTime).sec =
    (s₀.clock.scachedTime s₀.clock.cachedTime).sec
  mem : s.clock.scachedTime s₀.clock.cachedTime ∈ s.log.published

lemma Pc.Stands.slot_eq {c : Clock} {p : Pc} (h : p.Stands c) (hin : p.Inside)
    (hfill : ¬p.Filling) : c.slot = c.cachedTime := by
  cases p with
  | start | cas => exact hin.elim
  | gettime | monotonic | compare | advance => exact h
  | inPlace | unlock => exact h.1
  | fillSec | fillMsec | publish => exact absurd trivial hfill

lemma Pc.Stands.slot_next {c : Clock} {p : Pc} (h : p.Stands c) (hfill : p.Filling) :
    c.slot = nextSlot c.cachedTime := by
  cases p with
  | fillSec => exact h.1.trans h.2
  | fillMsec | publish => exact h.1.trans h.2.1
  | _ => exact hfill.elim

lemma Pc.Filling.inside {p : Pc} (h : p.Filling) : p.Inside := by
  cases p <;> trivial

/-- At the load, the current slot is the one loaded, or the next one if it is being filled. -/
theorem Reading.load (h : s.Inv) : ∃ k, Reading s s k := by
  have hmem : s.clock.scachedTime s.clock.cachedTime ∈ s.log.published :=
    List.mem_of_mem_head? h.shown
  by_cases hfill : ∃ t, (s.pc t).Filling
  · obtain ⟨t, ht⟩ := hfill
    refine ⟨1, (h.stands t).slot_next ht, le_rfl, by omega, fun u => ?_, rfl, hmem⟩
    by_cases hu : u = t
    · subst hu
      cases hpc : s.pc u <;> rw [hpc] at ht <;> first | exact ht.elim | exact Nat.one_pos
    · exact Pc.counts_of_not_inside (h.other ht.inside hu)
  · have hnone : ∀ t, ¬(s.pc t).Filling := fun t ht => hfill ⟨t, ht⟩
    have hslot : s.clock.slot = s.clock.cachedTime := by
      by_cases hin : ∃ t, (s.pc t).Inside
      · obtain ⟨t, ht⟩ := hin
        exact (h.stands t).slot_eq ht (hnone t)
      · exact (h.idle (h.lock.eq_free fun t ht => hin ⟨t, ht⟩)).1
    refine ⟨0, hslot, le_rfl, by omega, fun u => ?_, rfl, hmem⟩
    have hu := hnone u
    cases hpc : s.pc u <;> rw [hpc] at hu <;>
      first | exact absurd trivial hu | trivial | exact fun _ => rfl | exact Nat.zero_le _

namespace Reading

variable {s₀ : System T} {k : ℕ}

/-- The slot being filled is not the slot loaded. -/
lemma filling_ne (h : Reading s₀ s k) (hfew : s.log.changedSince s₀.log < 63) {t : T}
    (ht : (s.pc t).Filling) : s.clock.slot ≠ s₀.clock.cachedTime := by
  have hk : 0 < k := by
    have hc := h.counts t
    cases hpc : s.pc t <;> rw [hpc] at ht hc <;> first | exact ht.elim | exact hc
  rw [h.slot]
  refine nextSlot_iterate_ne _ hk ?_
  have := h.few
  simp only [timeSlots]
  omega

/-- An update that finds another second is counted unless it began before the load. -/
lemma counts_advance (h : Reading s₀ s k) {t : T} {v : Stime} (hpc : s.pc t = .compare v) :
    k ≤ ({ s.log with changed := s.log.begun :: s.log.changed } : Log).changedSince s₀.log := by
  have hc := h.counts t
  rw [hpc] at hc
  have hfew := h.few
  simp only [Log.changedSince] at hfew ⊢
  by_cases hfirst : s.log.begun = s₀.log.begun
  · rw [hc hfirst]
    exact Nat.zero_le _
  · have hlt : s₀.log.begun < s.log.begun := lt_of_le_of_ne h.begun (Ne.symm hfirst)
    simpa [hlt] using hfew

variable [DecidableEq T]

/-- A step of the thread inside that keeps `time_lock`. -/
lemma inside (h : Reading s₀ s k) (hi : s.Inv) {t : T} (ht : (s.pc t).Inside) {c : Clock} {p : Pc}
    {l : Log} {k' : ℕ} (hslot : c.slot = nextSlot^[k'] s₀.clock.cachedTime)
    (hbegun : l.begun = s.log.begun) (hfew : k' ≤ l.changedSince s₀.log + 1)
    (hcounts : p.Counts k' (l.changedSince s₀.log) (s.log.begun = s₀.log.begun))
    (hsec : (c.scachedTime s₀.clock.cachedTime).sec =
      (s₀.clock.scachedTime s₀.clock.cachedTime).sec)
    (hmem : c.scachedTime s₀.clock.cachedTime ∈ l.published) :
    Reading s₀ ⟨c, Function.update s.pc t p, l⟩ k' where
  slot := hslot
  begun := hbegun ▸ h.begun
  few := hfew
  counts u := by
    by_cases hu : u = t
    · subst hu
      simpa [hbegun] using hcounts
    · simp only [Function.update_of_ne hu]
      exact Pc.counts_of_not_inside (hi.other ht hu)
  sec := hsec
  mem := hmem

/-- A step of a thread outside, or that enters or leaves. -/
lemma still (h : Reading s₀ s k) {t : T} {c : Clock} {p : Pc} {l : Log}
    (hslot : c.slot = s.clock.slot) (hcell : c.scachedTime = s.clock.scachedTime)
    (hbegun : s.log.begun ≤ l.begun) (hchanged : l.changed = s.log.changed)
    (hpub : l.published = s.log.published)
    (hcounts : p.Counts k (s.log.changedSince s₀.log) (l.begun = s₀.log.begun))
    (hother : ∀ u, u ≠ t → (s.pc u).Inside → l.begun = s.log.begun) :
    Reading s₀ ⟨c, Function.update s.pc t p, l⟩ k := by
  have hn : l.changedSince s₀.log = s.log.changedSince s₀.log := by
    rw [Log.changedSince, hchanged, Log.changedSince]
  refine ⟨hslot.trans h.slot, h.begun.trans hbegun, hn ▸ h.few, fun u => ?_, ?_, ?_⟩
  · simp only [hn]
    by_cases hu : u = t
    · subst hu
      simpa using hcounts
    · simp only [Function.update_of_ne hu]
      by_cases hin : (s.pc u).Inside
      · rw [hother u hu hin]
        exact h.counts u
      · exact Pc.counts_of_not_inside hin
  · simpa only [hcell] using h.sec
  · simpa only [hcell, hpub] using h.mem

/-- Every step keeps the slot loaded, while few updates have found another second. -/
theorem next (h : Reading s₀ s k) (hi : s.Inv) (a : Move T)
    (hfew : (s.next a).log.changedSince s₀.log < 63) : ∃ k', Reading s₀ (s.next a) k' := by
  have hst := hi.stands a.thread
  have hc := h.counts a.thread
  have hne : s.log.changedSince s₀.log < 63 → (s.pc a.thread).Filling →
      s.clock.slot ≠ s₀.clock.cachedTime := fun hlt => h.filling_ne hlt
  unfold System.next at hfew ⊢
  generalize hpc : s.pc a.thread = p at hst hc hfew hne
  have hin : p.Inside → (s.pc a.thread).Inside := fun hp => hpc ▸ hp
  cases p with
  | start =>
    by_cases hlock : s.clock.timeLock = 0
    · simp only [updateStep, if_pos hlock]
      exact ⟨k, h.still rfl rfl le_rfl rfl rfl trivial fun _ _ _ => rfl⟩
    · simp only [updateStep, if_neg hlock]
      exact ⟨k, h.still rfl rfl le_rfl rfl rfl trivial fun _ _ _ => rfl⟩
  | cas =>
    by_cases hlock : s.clock.timeLock = 0
    · simp only [updateStep, if_pos hlock]
      refine ⟨k, h.still rfl rfl (Nat.le_succ _) rfl rfl ?_ fun u _ hu => ?_⟩
      · have hb := h.begun
        intro hbegun
        exact absurd hbegun (by simp only [Log.note]; omega)
      · exact absurd hu (hi.outside hlock u)
    · simp only [updateStep, if_neg hlock]
      exact ⟨k, h.still rfl rfl le_rfl rfl rfl trivial fun _ _ _ => rfl⟩
  | gettime => exact ⟨k, h.inside hi (hin trivial) h.slot rfl h.few hc h.sec h.mem⟩
  | monotonic t => exact ⟨k, h.inside hi (hin trivial) h.slot rfl h.few hc h.sec h.mem⟩
  | compare t =>
    by_cases hsec : (s.clock.scachedTime s.clock.slot).sec = t.sec
    · simp only [updateStep, if_pos hsec]
      exact ⟨k, h.inside hi (hin trivial) h.slot rfl h.few trivial h.sec h.mem⟩
    · simp only [updateStep, if_neg hsec]
      have hk := h.counts_advance hpc
      exact ⟨k, h.inside hi (hin trivial) h.slot rfl (hk.trans (Nat.le_succ _)) hk h.sec h.mem⟩
  | inPlace t tp =>
    obtain ⟨-, -, hsec⟩ := hst
    refine ⟨k, h.inside hi (hin trivial) h.slot rfl h.few trivial ?_ ?_⟩
    · by_cases htp : s₀.clock.cachedTime = tp
      · rw [← h.sec, htp]
        simp [Clock.setMsec]
      · simpa [updateStep, Clock.setMsec, htp] using h.sec
    · by_cases htp : s₀.clock.cachedTime = tp
      · rw [htp]
        simp [Clock.setMsec, hsec, Log.note]
      · simpa [updateStep, Clock.setMsec, htp, Log.note] using Or.inr h.mem
  | advance t =>
    refine ⟨k + 1, h.inside hi (hin trivial) ?_ rfl (Nat.succ_le_succ hc) (Nat.succ_pos k) h.sec
      h.mem⟩
    rw [Function.iterate_succ_apply', ← h.slot]
  | fillSec t tp =>
    have htp : s₀.clock.cachedTime ≠ tp := by
      rw [← hst.1]
      exact (hne hfew trivial).symm
    refine ⟨k, h.inside hi (hin trivial) h.slot rfl h.few hc ?_ ?_⟩
    · simpa [updateStep, Clock.setSec, htp] using h.sec
    · simpa [updateStep, Clock.setSec, htp, Log.note] using h.mem
  | fillMsec t tp =>
    have htp : s₀.clock.cachedTime ≠ tp := by
      rw [← hst.1]
      exact (hne hfew trivial).symm
    refine ⟨k, h.inside hi (hin trivial) h.slot rfl h.few hc ?_ ?_⟩
    · simpa [updateStep, Clock.setMsec, htp] using h.sec
    · simpa [updateStep, Clock.setMsec, htp, Log.note] using h.mem
  | publish t tp =>
    exact ⟨k, h.inside hi (hin trivial) h.slot rfl h.few trivial h.sec (List.mem_cons_of_mem _ h.mem)⟩
  | unlock t =>
    exact ⟨k, h.still rfl rfl le_rfl rfl rfl trivial fun _ _ _ => rfl⟩

end Reading

/-- What has been observed stays. -/
lemma Log.note_mono (l : Log) (p p' : Pc) (l₀ : Log) :
    l.changedSince l₀ ≤ (l.note p p').changedSince l₀ ∧
      ∀ v ∈ l.published, v ∈ (l.note p p').published := by
  unfold Log.note
  split
  · exact ⟨le_rfl, fun _ => id⟩
  · exact ⟨(List.Sublist.filter _ (List.sublist_cons_self _ _)).length_le, fun _ => id⟩
  · exact ⟨le_rfl, fun _ => List.mem_cons_of_mem _⟩
  · exact ⟨le_rfl, fun _ => List.mem_cons_of_mem _⟩
  · exact ⟨le_rfl, fun _ => id⟩
  · exact ⟨le_rfl, fun _ => id⟩

section Runs

variable [DecidableEq T] {s₀ s₁ s₂ : System T}

lemma After.log_mono (h : (timesMachine T).After s₁ s₂) (l₀ : Log) :
    s₁.log.changedSince l₀ ≤ s₂.log.changedSince l₀ ∧
      ∀ v ∈ s₁.log.published, v ∈ s₂.log.published := by
  refine h.invariant (I := fun s => s₁.log.changedSince l₀ ≤ s.log.changedSince l₀ ∧
    ∀ v ∈ s₁.log.published, v ∈ s.log.published) ?_ ⟨le_rfl, fun _ => id⟩
  rintro s a s' ⟨hn, hp⟩ hs
  cases hs
  obtain ⟨hn', hp'⟩ := s.log.note_mono (s.pc a.thread)
    (updateStep s.clock a.tv a.ts (s.pc a.thread)).2 l₀
  exact ⟨hn.trans hn', fun v hv => hp' v (hp v hv)⟩

/-- A reader's slot keeps its second for 62 updates with another second. -/
theorem Reading.after (h₀ : (timesMachine T).Reachable s₀) (h : (timesMachine T).After s₀ s₁)
    (hfew : s₁.log.changedSince s₀.log < 63) : ∃ k, Reading s₀ s₁ k := by
  have hall : s₁.Inv ∧ (s₁.log.changedSince s₀.log < 63 → ∃ k, Reading s₀ s₁ k) := by
    refine h.invariant (I := fun s => s.Inv ∧ (s.log.changedSince s₀.log < 63 →
      ∃ k, Reading s₀ s k)) ?_ ⟨System.inv h₀, fun _ => Reading.load (System.inv h₀)⟩
    rintro s a s' ⟨hi, hr⟩ hs
    cases hs
    refine ⟨hi.next a, fun hfew => ?_⟩
    have hle := (s.log.note_mono (s.pc a.thread)
      (updateStep s.clock a.tv a.ts (s.pc a.thread)).2 s₀.log).1
    obtain ⟨k, hk⟩ := hr (hle.trans_lt hfew)
    exact hk.next hi a hfew
  exact hall.2 hfew

/-- What holds of the cached time between any two steps: `cached_time` points to the last pair made
visible, and to the last pair read while no update is going on; `time_lock` is taken exactly while
one thread is inside, and every thread inside gets, step by step, to the point where it gives
`time_lock` back. -/
structure CachedTime (s : System T) : Prop where
  published : s.log.published.head? = some (s.clock.scachedTime s.clock.cachedTime)
  returned : (∀ t, ¬(s.pc t).Inside) → s.clock.scachedTime s.clock.cachedTime = s.log.returned
  lock : s.clock.timeLock = 0 ↔ ∀ t, ¬(s.pc t).Inside
  one : ∀ t u, (s.pc t).Inside → (s.pc u).Inside → t = u
  step : ∀ a : Move T, (s.pc a.thread).Inside →
    ((s.next a).pc a.thread).left < (s.pc a.thread).left ∧
      (¬((s.next a).pc a.thread).Inside → (s.next a).clock.timeLock = 0)

lemma System.Inv.cachedTime (h : s.Inv) : CachedTime s where
  published := h.shown
  returned hnone := (h.idle (h.lock.eq_free hnone)).2
  lock := ⟨h.outside, h.lock.eq_free⟩
  one _ _ ht hu := h.lock.unique hu ht
  step a ht := by
    simp only [System.next, Function.update_self]
    cases hpc : s.pc a.thread with
    | start | cas => exact absurd ht (by rw [hpc]; exact id)
    | compare t =>
      by_cases hsec : (s.clock.scachedTime s.clock.slot).sec = t.sec <;>
        simp [updateStep, hsec, Pc.left, Pc.Inside]
    | _ => simp [updateStep, Pc.left, Pc.Inside]

/-- Between any two steps the cached time is the last pair published, and a reader that loads
`cached_time` and reads the second and the millisecond at any two later moments gets a pair that
has been published, as long as fewer than 63 updates with another second have taken `time_lock`
since its load. -/
theorem cached_time (h₀ : (timesMachine T).Reachable s₀) (h₁ : (timesMachine T).After s₀ s₁)
    (h₂ : (timesMachine T).After s₁ s₂) :
    CachedTime s₀ ∧
      (s₂.log.changedSince s₀.log < 63 →
        let tp := s₀.clock.cachedTime
        ⟨(s₁.clock.scachedTime tp).sec, (s₂.clock.scachedTime tp).msec⟩ ∈ s₂.log.published ∧
        ⟨(s₂.clock.scachedTime tp).sec, (s₁.clock.scachedTime tp).msec⟩ ∈ s₂.log.published) := by
  refine ⟨(System.inv h₀).cachedTime, fun hfew => ?_⟩
  have hmono := After.log_mono h₂ s₀.log
  obtain ⟨k₁, hr₁⟩ := Reading.after h₀ h₁ (hmono.1.trans_lt hfew)
  obtain ⟨k₂, hr₂⟩ := Reading.after h₀ (h₁.trans h₂) hfew
  have hsec := hr₁.sec.trans hr₂.sec.symm
  refine ⟨?_, ?_⟩
  · rw [hsec]
    exact hr₂.mem
  · rw [← hsec]
    exact hmono.2 _ hr₁.mem

lemma After.moves (s : System T) (as : List (Move T)) :
    (timesMachine T).After s (as.foldl System.next s) := by
  induction as using List.reverseRecOn with
  | nil => exact .refl s
  | append_singleton as a ih =>
    rw [List.foldl_append]
    exact ih.step rfl

end Runs

/-- A reader loads `cached_time` while a thread advances the slot, and reads while another thread,
two seconds later, fills the slot after that. -/
theorem cached_time_twoThreads :
    let s₀ : System Bool := (List.replicate 6 ⟨true, ⟨6, 2000⟩, ⟨1, 0⟩⟩).foldl System.next
      (.init ⟨5, 1000⟩ ⟨0, 0⟩)
    let s₁ := (List.replicate 4 ⟨true, ⟨6, 2000⟩, ⟨1, 0⟩⟩).foldl System.next s₀
    let s₂ := (List.replicate 8 ⟨false, ⟨7, 3000⟩, ⟨2, 0⟩⟩).foldl System.next s₁
    s₂.log.changedSince s₀.log = 1 ∧ CachedTime s₀ ∧
      ⟨(s₁.clock.scachedTime s₀.clock.cachedTime).sec,
        (s₂.clock.scachedTime s₀.clock.cachedTime).msec⟩ ∈ s₂.log.published := by
  intro s₀ s₁ s₂
  have hinit : (timesMachine Bool).Reachable (.init ⟨5, 1000⟩ ⟨0, 0⟩) := .init ⟨_, _, rfl⟩
  have hn : s₂.log.changedSince s₀.log = 1 := by decide
  have h₀ : (timesMachine Bool).Reachable s₀ := (After.moves _ _).reachable hinit
  have h₁ : (timesMachine Bool).After s₀ s₁ := After.moves _ _
  have h₂ : (timesMachine Bool).After s₁ s₂ := After.moves _ _
  have h := cached_time h₀ h₁ h₂
  exact ⟨hn, h.1, (h.2 (by rw [hn]; decide)).1⟩

end Libcn.Times
