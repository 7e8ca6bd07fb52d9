import Mathlib.Data.BitVec

/-!
# The locks of `shmtx.c` and `spinlock.c`

`shmtx_lock` and `spinlock` wait in the same way; the counter of the pauses has 32 bits in the one
and 64 bits in the other. A waiting process stands at an access to the word, at a pause or at
`sched_yield`.
-/

namespace Libcn.Shmtx

/-- `shmtx_create`: the bound of the back-off. -/
def shmtxCreate (spin : BitVec 64) : BitVec 64 := if spin = -1 then spin else 2048

/-- The bound of `accept_mutex` after `event_master_init`. -/
def acceptMutexSpin : BitVec 64 := shmtxCreate (-1)

/-- Where a process stands that waits for a lock. -/
inductive LockPc (w : ℕ)
  /-- the read of the word -/
  | read
  /-- the compare and swap -/
  | cas
  /-- the pauses before a probe: `i` of `n` -/
  | pause (n i : BitVec w)
  /-- the read of the word between the pauses -/
  | innerRead (n : BitVec w)
  /-- the compare and swap between the pauses -/
  | innerCas (n : BitVec w)
  /-- `sched_yield` -/
  | yield
  deriving DecidableEq, Repr

variable {w : ℕ}

/-- The test of the back-off loop, before it goes round with `n`. -/
def spinTest (spin : BitVec 64) (n : BitVec w) : LockPc w :=
  if n.setWidth 64 < spin then .pause n 0 else .yield

/-- After the probe before the back-off loop has failed. -/
def backOff (spin : BitVec 64) (ncpu : BitVec 32) : LockPc w :=
  if 1 < ncpu.toInt then spinTest spin 1 else .yield

/-- One step of a process that waits, when the word is `word`: `none` when the swap takes the
lock. -/
def lockStep (spin : BitVec 64) (ncpu : BitVec 32) (word : BitVec 64) :
    LockPc w → Option (LockPc w)
  | .read => some (if word = 0 then .cas else backOff spin ncpu)
  | .cas => if word = 0 then none else some (backOff spin ncpu)
  | .pause n i => some (if i < n then .pause n (i + 1) else .innerRead n)
  | .innerRead n => some (if word = 0 then .innerCas n else spinTest spin (n <<< 1))
  | .innerCas n => if word = 0 then none else some (spinTest spin (n <<< 1))
  | .yield => some .read

/-- `shmtx_lock`. -/
def shmtxLock : BitVec 64 → BitVec 32 → BitVec 64 → LockPc 32 → Option (LockPc 32) := lockStep

/-- `spinlock`. -/
def spinlock : BitVec 64 → BitVec 32 → BitVec 64 → LockPc 64 → Option (LockPc 64) := lockStep

end Libcn.Shmtx
