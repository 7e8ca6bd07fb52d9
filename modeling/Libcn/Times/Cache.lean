import Libcn.Lib.Lock
import Libcn.Lib.Machine
import Mathlib.Data.BitVec

/-!
# The cached time of `times.c`

`stime_update` may be run by several threads and by signal handlers. A thread stands at one of
its accesses to the static variables, and any interleaving of the threads is a run; readers of
the cached time look at the states of a run. The result of `sgmtime` is dropped by
`stime_update` and is left out.
-/

namespace Libcn.Times

open Libcn.Lib

/-- `TIME_SLOTS`. -/
abbrev timeSlots : ℕ := 64

/-- `struct timeval`. -/
structure Timeval where
  sec : BitVec 64
  usec : BitVec 64
  deriving DecidableEq, Repr

/-- `struct timespec`. -/
structure Timespec where
  sec : BitVec 64
  nsec : BitVec 64
  deriving DecidableEq, Repr

/-- `stime_t`, without `gmtoff`, which is never set. -/
structure Stime where
  sec : BitVec 64
  msec : BitVec 64
  deriving DecidableEq, Repr

/-- `sec` and `msec` of a result of `gettimeofday`. -/
def Timeval.stime (tv : Timeval) : Stime := ⟨tv.sec, tv.usec.sdiv 1000⟩

/-- `monotonic_time`. -/
def monotonicTime (ts : Timespec) : BitVec 64 := ts.sec * 1000 + ts.nsec.sdiv 1000000

/-- The static variables; `cachedTime` points into the array `scached_time`. -/
structure Clock where
  slot : Fin timeSlots
  timeLock : BitVec 64
  currentMsec : BitVec 64
  cachedTime : Fin timeSlots
  scachedTime : Fin timeSlots → Stime

/-- The slot after a slot. -/
def nextSlot (i : Fin timeSlots) : Fin timeSlots :=
  if h : i.val = timeSlots - 1 then ⟨0, by omega⟩ else ⟨i.val + 1, by omega⟩

lemma nextSlot_val (i : Fin timeSlots) : (nextSlot i).val = (i.val + 1) % timeSlots := by
  have hi : i.val < 64 := i.isLt
  have h63 : timeSlots - 1 = 63 := rfl
  by_cases h : i.val = timeSlots - 1
  · rw [nextSlot, dif_pos h]
    show 0 = (i.val + 1) % 64
    omega
  · rw [nextSlot, dif_neg h]
    show i.val + 1 = (i.val + 1) % 64
    omega

lemma nextSlot_iterate_val (i : Fin timeSlots) (k : ℕ) :
    (nextSlot^[k] i).val = (i.val + k) % timeSlots := by
  induction k with
  | zero => simp [Nat.mod_eq_of_lt i.isLt]
  | succ k ih =>
    rw [Function.iterate_succ_apply', nextSlot_val, ih]
    simp only [timeSlots]
    omega

/-- The slots come round after `TIME_SLOTS` steps, not before. -/
lemma nextSlot_iterate_ne (i : Fin timeSlots) {k : ℕ} (h0 : 0 < k) (hk : k < timeSlots) :
    nextSlot^[k] i ≠ i := by
  intro h
  have hi := i.isLt
  have hval := nextSlot_iterate_val i k
  rw [h] at hval
  simp only [timeSlots] at *
  omega

namespace Clock

/-- `tp->sec = sec`. -/
def setSec (c : Clock) (tp : Fin timeSlots) (sec : BitVec 64) : Clock :=
  { c with scachedTime := Function.update c.scachedTime tp { c.scachedTime tp with sec := sec } }

/-- `tp->msec = msec`. -/
def setMsec (c : Clock) (tp : Fin timeSlots) (msec : BitVec 64) : Clock :=
  { c with scachedTime := Function.update c.scachedTime tp { c.scachedTime tp with msec := msec } }

end Clock

/-- `stime_update`, with nothing else running. -/
def stimeUpdate (c : Clock) (tv : Timeval) (ts : Timespec) : Clock :=
  if c.timeLock ≠ 0 then c
  else
    let c := { c with timeLock := 1 }
    let t := tv.stime
    let c := { c with currentMsec := monotonicTime ts }
    let tp := c.slot
    if (c.scachedTime tp).sec = t.sec then { c.setMsec tp t.msec with timeLock := 0 }
    else
      let c := { c with slot := nextSlot c.slot }
      let tp := c.slot
      let c := (c.setSec tp t.sec).setMsec tp t.msec
      { c with cachedTime := tp, timeLock := 0 }

/-- `stime_init`: the static variables start as zeros. -/
def stimeInit (tv : Timeval) (ts : Timespec) : Clock :=
  stimeUpdate ⟨0, 0, 0, 0, fun _ => ⟨0, 0⟩⟩ tv ts

/-! ## Threads -/

/-- Where a thread stands in `stime_update`, with its local variables. -/
inductive Pc
  /-- not in a call, or at the read of `trylock` -/
  | start
  /-- the compare and swap of `trylock` -/
  | cas
  /-- `gettimeofday` -/
  | gettime
  /-- `current_msec` is set -/
  | monotonic (t : Stime)
  /-- the second is compared with the one in the current slot -/
  | compare (t : Stime)
  /-- same second: the millisecond is stored into the current slot -/
  | inPlace (t : Stime) (tp : Fin timeSlots)
  /-- another second: the current slot is advanced -/
  | advance (t : Stime)
  | fillSec (t : Stime) (tp : Fin timeSlots)
  | fillMsec (t : Stime) (tp : Fin timeSlots)
  /-- `cached_time` is set -/
  | publish (t : Stime) (tp : Fin timeSlots)
  | unlock (t : Stime)
  deriving DecidableEq, Repr

/-- One step of a thread; `tv` and `ts` are what the clocks say if it reads them. -/
def updateStep (c : Clock) (tv : Timeval) (ts : Timespec) : Pc → Clock × Pc
  | .start => (c, if c.timeLock = 0 then .cas else .start)
  | .cas => if c.timeLock = 0 then ({ c with timeLock := 1 }, .gettime) else (c, .start)
  | .gettime => (c, .monotonic tv.stime)
  | .monotonic t => ({ c with currentMsec := monotonicTime ts }, .compare t)
  | .compare t =>
    (c, if (c.scachedTime c.slot).sec = t.sec then .inPlace t c.slot else .advance t)
  | .inPlace t tp => (c.setMsec tp t.msec, .unlock t)
  | .advance t => ({ c with slot := nextSlot c.slot }, .fillSec t (nextSlot c.slot))
  | .fillSec t tp => (c.setSec tp t.sec, .fillMsec t tp)
  | .fillMsec t tp => (c.setMsec tp t.msec, .publish t tp)
  | .publish t tp => ({ c with cachedTime := tp }, .unlock t)
  | .unlock _ => ({ c with timeLock := 0 }, .start)

/-- A thread that is not interrupted runs through `stime_update`. -/
theorem updateStep_alone (c : Clock) (tv : Timeval) (ts : Timespec) :
    ∃ n, 0 < n ∧ (fun s : Clock × Pc => updateStep s.1 tv ts s.2)^[n] (c, .start) =
      (stimeUpdate c tv ts, .start) := by
  by_cases hlock : c.timeLock = 0
  · by_cases hsec : (c.scachedTime c.slot).sec = tv.stime.sec
    · refine ⟨7, by omega, ?_⟩
      simp [updateStep, stimeUpdate, hlock, hsec, Clock.setMsec]
    · refine ⟨10, by omega, ?_⟩
      simp [updateStep, stimeUpdate, hlock, hsec, Clock.setSec, Clock.setMsec]
  · refine ⟨1, by omega, ?_⟩
    rw [stimeUpdate, if_pos hlock]
    exact Prod.ext rfl (if_neg hlock)

/-- The thread has `time_lock`. -/
def Pc.Inside : Pc → Prop
  | .start | .cas => False
  | _ => True

instance : DecidablePred Pc.Inside := fun p => by
  cases p <;> unfold Pc.Inside <;> infer_instance

/-- The steps left to the thread until it gives `time_lock` back, at most. -/
def Pc.left : Pc → ℕ
  | .start | .cas => 0
  | .gettime => 8
  | .monotonic _ => 7
  | .compare _ => 6
  | .advance _ => 5
  | .fillSec _ _ => 4
  | .fillMsec _ _ => 3
  | .publish _ _ | .inPlace _ _ => 2
  | .unlock _ => 1

/-- What has been observed of a run: how many updates took `time_lock`, the numbers of those that
found another second, the pairs made visible, newest first, and the pair of the last update that
gave `time_lock` back. -/
structure Log where
  begun : ℕ
  changed : List ℕ
  published : List Stime
  returned : Stime

/-- A step of a thread from `p` to `p'`. -/
def Log.note (l : Log) : Pc → Pc → Log
  | .cas, .gettime => { l with begun := l.begun + 1 }
  | .compare _, .advance _ => { l with changed := l.begun :: l.changed }
  | .inPlace t _, _ => { l with published := t :: l.published }
  | .publish t _, _ => { l with published := t :: l.published }
  | .unlock t, _ => { l with returned := t }
  | _, _ => l

/-- The updates that took `time_lock` since `l₀` and found another second. -/
def Log.changedSince (l l₀ : Log) : ℕ := (l.changed.filter (l₀.begun < ·)).length

/-- The static variables, the threads and what has been observed. -/
structure System (T : Type) where
  clock : Clock
  pc : T → Pc
  log : Log

/-- A thread, and what the clocks say if it reads them. -/
structure Move (T : Type) where
  thread : T
  tv : Timeval
  ts : Timespec

variable {T : Type} [DecidableEq T]

def System.next (s : System T) (a : Move T) : System T :=
  let (clock, pc) := updateStep s.clock a.tv a.ts (s.pc a.thread)
  { clock := clock
    pc := Function.update s.pc a.thread pc
    log := s.log.note (s.pc a.thread) pc }

/-- After `stime_init`, before any other call. -/
def System.init (tv : Timeval) (ts : Timespec) : System T where
  clock := stimeInit tv ts
  pc _ := .start
  log := ⟨0, [], [tv.stime], tv.stime⟩

/-- The calls of `stime_update` after `stime_init`. -/
def timesMachine (T : Type) [DecidableEq T] : Machine (System T) (Move T) where
  init s := ∃ tv ts, s = System.init tv ts
  step s a := some (s.next a)

end Libcn.Times
