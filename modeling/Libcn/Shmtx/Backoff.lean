import Libcn.Lib.Recurrence
import Libcn.Shmtx.Basic
import Mathlib.Data.Prod.Lex
import Mathlib.Tactic.ByContra

/-!
# The back-off

While the word is not zero a process that waits goes from probe to probe. The counter of the pauses
doubles, and falls to zero after its highest bit.
-/

namespace Libcn.Shmtx

open Libcn.Lib

variable {w : ℕ} {spin : BitVec 64} {ncpu : BitVec 32}

/-- A step of a process that waits while the word is not zero. -/
def wait (spin : BitVec 64) (ncpu : BitVec 32) : LockPc w → LockPc w
  | .read | .cas => backOff spin ncpu
  | .pause n i => if i < n then .pause n (i + 1) else .innerRead n
  | .innerRead n | .innerCas n => spinTest spin (n <<< 1)
  | .yield => .read

lemma lockStep_ne_zero {word : BitVec 64} (hword : word ≠ 0) (pc : LockPc w) :
    lockStep spin ncpu word pc = some (wait spin ncpu pc) := by
  cases pc <;> simp only [lockStep, wait, if_neg hword]

/-! ## The counter -/

lemma toNat_one_of_pos (hw : 0 < w) : (1 : BitVec w).toNat = 1 := BitVec.toNat_one hw

lemma spinTest_eq (hw : w ≤ 64) (spin : BitVec 64) (n : BitVec w) :
    spinTest spin n = if n.toNat < spin.toNat then .pause n 0 else .yield := by
  have hn : (n.setWidth 64).toNat = n.toNat := by
    rw [BitVec.toNat_setWidth]
    exact Nat.mod_eq_of_lt (n.isLt.trans_le (Nat.pow_le_pow_right (by omega) hw))
  simp only [spinTest, BitVec.lt_def, hn]

lemma two_pow_double (hw : 0 < w) : 2 ^ w = 2 * 2 ^ (w - 1) := by
  obtain ⟨v, rfl⟩ := Nat.exists_eq_succ_of_ne_zero hw.ne'
  rw [Nat.succ_sub_one, Nat.pow_succ, Nat.mul_comm]

/-- Below the highest bit the shift doubles. -/
lemma toNat_shift_of_lt (hw : 0 < w) {n : BitVec w} (hn : n.toNat < 2 ^ (w - 1)) :
    (n <<< 1).toNat = 2 * n.toNat := by
  have h2 := two_pow_double hw
  rw [BitVec.toNat_shiftLeft, Nat.shiftLeft_eq, Nat.pow_one, Nat.mod_eq_of_lt (by omega),
    Nat.mul_comm]

/-! ## The yield comes back -/

/-- The process backs off, with a counter that is positive and below the bound. -/
def Counter (spin : BitVec 64) (ncpu : BitVec 32) (n : BitVec w) : Prop :=
  1 < ncpu.toInt ∧ 0 < n.toNat ∧ n.toNat < spin.toNat

/-- The places of a process that waits, with such a counter. -/
def Waiting (spin : BitVec 64) (ncpu : BitVec 32) : LockPc w → Prop
  | .pause n i => Counter spin ncpu n ∧ i ≤ n
  | .innerRead n | .innerCas n => Counter spin ncpu n
  | _ => True

/-- The rank goes down from yield to yield: first the counter goes up, then the pauses are made. -/
def rank : LockPc w → ℕ ×ₗ ℕ
  | .read | .cas => toLex (2 ^ w, 0)
  | .pause n i => toLex (2 ^ w - n.toNat, n.toNat - i.toNat + 1)
  | .innerRead n | .innerCas n => toLex (2 ^ w - n.toNat, 0)
  | .yield => toLex (0, 0)

/-- The test of the loop: it goes round with a counter of a lower rank, or the yield comes. -/
lemma spinTest_waiting (hw : w ≤ 64) {n : BitVec w} {k : ℕ} (hcpu : 1 < ncpu.toInt)
    (hn : 0 < n.toNat) (hk : 2 ^ w - n.toNat < k) :
    Waiting spin ncpu (spinTest spin n) ∧ rank (spinTest spin n) < toLex (k, 0) := by
  rw [spinTest_eq hw]
  split
  · next hlt =>
    exact ⟨⟨⟨hcpu, hn, hlt⟩, by rw [BitVec.le_def]; simp⟩, Prod.Lex.toLex_lt_toLex.mpr (.inl hk)⟩
  · exact ⟨trivial, Prod.Lex.toLex_lt_toLex.mpr (.inl (by omega))⟩

/-- The bound lets the counter pass it before the highest bit is shifted out. -/
def Bounded (w : ℕ) (spin : BitVec 64) (ncpu : BitVec 32) : Prop :=
  ncpu.toInt ≤ 1 ∨ spin.toNat ≤ 2 ^ (w - 1)

lemma wait_rank (h0 : 0 < w) (hw : w ≤ 64) (hb : Bounded w spin ncpu) (pc : LockPc w)
    (h : Waiting spin ncpu pc) (hpc : pc ≠ .yield) :
    Waiting spin ncpu (wait spin ncpu pc) ∧ rank (wait spin ncpu pc) < rank pc := by
  -- the loop starts with the counter 1, below the rank of the two probes before it
  have hstart : Waiting spin ncpu (backOff spin ncpu : LockPc w) ∧
      rank (backOff spin ncpu : LockPc w) < toLex (2 ^ w, 0) := by
    have hone := toNat_one_of_pos h0
    have hpos := Nat.two_pow_pos w
    unfold backOff
    split
    · next hcpu => exact spinTest_waiting hw hcpu (by omega) (by omega)
    · exact ⟨trivial, Prod.Lex.toLex_lt_toLex.mpr (.inl hpos)⟩
  -- the bound keeps the counter below its highest bit, so the shift doubles it
  have hnext : ∀ n : BitVec w, Counter spin ncpu n →
      Waiting spin ncpu (spinTest spin (n <<< 1)) ∧
        rank (spinTest spin (n <<< 1)) < toLex (2 ^ w - n.toNat, 0) := by
    rintro n ⟨hcpu, hn, hlt⟩
    have hspin : spin.toNat ≤ 2 ^ (w - 1) := hb.resolve_left (by omega)
    have hdouble := toNat_shift_of_lt h0 (n := n) (by omega)
    have h2 := two_pow_double h0
    exact spinTest_waiting hw hcpu (by omega) (by omega)
  cases pc with
  | read => exact hstart
  | cas => exact hstart
  | pause n i =>
    obtain ⟨hn, hi⟩ := h
    rw [BitVec.le_def] at hi
    rw [wait]
    split
    · next hlt =>
      rw [BitVec.lt_def] at hlt
      have hsucc : (i + 1).toNat = i.toNat + 1 := by
        have hn := n.isLt
        rw [BitVec.toNat_add, toNat_one_of_pos h0, Nat.mod_eq_of_lt (by omega)]
      refine ⟨⟨hn, by rw [BitVec.le_def]; omega⟩, Prod.Lex.toLex_lt_toLex.mpr (.inr ⟨rfl, ?_⟩)⟩
      rw [hsucc]
      omega
    · exact ⟨hn, Prod.Lex.toLex_lt_toLex.mpr (.inr ⟨rfl, by omega⟩)⟩
  | innerRead n => exact hnext n h
  | innerCas n => exact hnext n h
  | yield => exact absurd rfl hpc

/-- A process that waits calls `sched_yield` again and again if the bound is low enough. -/
theorem wait_recurs (h0 : 0 < w) (hw : w ≤ 64) (hb : Bounded w spin ncpu) :
    Recurs (wait spin ncpu) (fun pc : LockPc w => pc = .yield) .read := by
  refine recurs_of_leadsTo (I := Waiting spin ncpu) (fun pc h => ?_) (fun pc h => ?_) trivial
  · by_cases hpc : pc = .yield
    · rw [hpc]
      trivial
    · exact (wait_rank h0 hw hb pc h hpc).1
  · exact leadsTo_of_rank wellFounded_lt rank (fun pc h hpc => wait_rank h0 hw hb pc h hpc) h

/-! ## The yield does not come -/

/-- The counter is a power of two, or zero once the highest bit has been shifted out. -/
def Power (n : BitVec w) : Prop := n = 0 ∨ ∃ k, k < w ∧ n.toNat = 2 ^ k

lemma Power.le {n : BitVec w} (h : Power n) : n.toNat ≤ 2 ^ (w - 1) := by
  rcases h with rfl | ⟨k, hk, hn⟩
  · simp
  · rw [hn]
    exact Nat.pow_le_pow_right (by omega) (by omega)

lemma Power.shift (h0 : 0 < w) {n : BitVec w} (h : Power n) : Power (n <<< 1) := by
  rcases h with rfl | ⟨k, hk, hn⟩
  · exact .inl (by simp)
  · by_cases hlast : k + 1 = w
    · refine .inl (BitVec.eq_of_toNat_eq ?_)
      rw [BitVec.toNat_shiftLeft, hn, Nat.shiftLeft_eq, ← Nat.pow_add, hlast, Nat.mod_self]
      rfl
    · have hlt : 2 ^ k < 2 ^ (w - 1) := Nat.pow_lt_pow_right (by omega) (by omega)
      refine .inr ⟨k + 1, by omega, ?_⟩
      rw [toNat_shift_of_lt h0 (by omega), hn, Nat.pow_succ, Nat.mul_comm]

/-- The places of a process that never leaves the back-off loop. -/
def Spinning : LockPc w → Prop
  | .read => True
  | .pause n _ | .innerRead n => Power n
  | _ => False

/-- With a higher bound it never comes to `sched_yield`. -/
theorem wait_not_recurs (h0 : 0 < w) (hw : w ≤ 64) (hb : ¬Bounded w spin ncpu) :
    ¬Recurs (wait spin ncpu) (fun pc : LockPc w => pc = .yield) .read := by
  obtain ⟨hcpu, hspin⟩ := not_or.mp hb
  -- a power of two of `w` bits never exceeds the bound, and neither does zero
  have htest : ∀ n : BitVec w, Power n → Spinning (spinTest spin n) := by
    intro n hn
    rw [spinTest_eq hw, if_pos (by have := hn.le; omega)]
    exact hn
  refine not_recurs (I := Spinning) (fun pc h => ?_) (fun pc h => ?_) trivial
  · cases pc with
    | read =>
      rw [wait, backOff, if_pos (by omega)]
      exact htest 1 (.inr ⟨0, h0, toNat_one_of_pos h0⟩)
    | pause n i =>
      rw [wait]
      split
      · exact h
      · exact h
    | innerRead n => exact htest _ (h.shift h0)
    | _ => exact h.elim
  · rintro rfl
    exact h

/-! ## Runs -/

/-- A run of a process that calls the lock while the word stays non-zero: the word at each step, and
the place of the process. -/
structure Waits (lock : BitVec 64 → BitVec 32 → BitVec 64 → LockPc w → Option (LockPc w))
    (spin : BitVec 64) (ncpu : BitVec 32) (word : ℕ → BitVec 64) (p : ℕ → LockPc w) : Prop where
  start : p 0 = .read
  nonzero : ∀ t, word t ≠ 0
  step : ∀ t, lock spin ncpu (word t) (p t) = some (p (t + 1))

/-- `sched_yield` is called again and again. -/
def YieldsAgain (p : ℕ → LockPc w) : Prop := ∀ t, ∃ t', t ≤ t' ∧ p t' = .yield

variable {word word' : ℕ → BitVec 64}

lemma Waits.eq_iterate {p : ℕ → LockPc w} (h : Waits lockStep spin ncpu word p) (t : ℕ) :
    p t = (wait spin ncpu)^[t] .read := by
  induction t with
  | zero => exact h.start
  | succ t ih =>
    rw [Function.iterate_succ_apply', ← ih]
    exact Option.some.inj ((h.step t).symm.trans (lockStep_ne_zero (h.nonzero t) _))

/-- The waiting process yields again and again if and only if its bound is low enough. -/
theorem Waits.yieldsAgain_iff (h0 : 0 < w) (hw : w ≤ 64) {p : ℕ → LockPc w}
    (h : Waits lockStep spin ncpu word p) : YieldsAgain p ↔ Bounded w spin ncpu := by
  have hrec : YieldsAgain p ↔ Recurs (wait spin ncpu) (fun pc : LockPc w => pc = .yield) .read := by
    constructor
    · intro hy t
      obtain ⟨t', hle, ht'⟩ := hy t
      refine ⟨t' - t, ?_⟩
      rw [← Function.iterate_add_apply, Nat.sub_add_cancel hle, ← h.eq_iterate]
      exact ht'
    · intro hr t
      obtain ⟨m, hm⟩ := hr t
      refine ⟨m + t, by omega, ?_⟩
      rw [h.eq_iterate, Function.iterate_add_apply]
      exact hm
  rw [hrec]
  exact ⟨fun h => by_contra fun hb => wait_not_recurs h0 hw hb h, wait_recurs h0 hw⟩

/-- While the word stays non-zero, the back-off of `shmtx_lock` ends and `sched_yield` is called again
and again if and only if there is one processor at most or the bound is at most `2 ^ 31`; that of
`spinlock` if and only if there is one processor at most or the bound is at most `2 ^ 63`. -/
theorem backOff_yields_iff {p : ℕ → LockPc 32} {q : ℕ → LockPc 64}
    (hp : Waits shmtxLock spin ncpu word p) (hq : Waits spinlock spin ncpu word' q) :
    (YieldsAgain p ↔ ncpu.toInt ≤ 1 ∨ spin.toNat ≤ 2 ^ 31) ∧
      (YieldsAgain q ↔ ncpu.toInt ≤ 1 ∨ spin.toNat ≤ 2 ^ 63) :=
  ⟨Waits.yieldsAgain_iff (by decide) (by decide) hp,
    Waits.yieldsAgain_iff (by decide) (by decide) hq⟩

/-- A run with a word that never changes. -/
lemma waits_iterate (spin : BitVec 64) (ncpu : BitVec 32) {v : BitVec 64} (hv : v ≠ 0) :
    Waits lockStep spin ncpu (fun _ => v) fun t => (wait spin ncpu)^[t] (.read : LockPc w) where
  start := rfl
  nonzero _ := hv
  step t := by
    rw [Function.iterate_succ_apply']
    exact lockStep_ne_zero hv _

/-- On four processors, with the bound `shmtx_create` sets. -/
theorem backOff_yields_iff_fourCpus :
    YieldsAgain (fun t => (wait (shmtxCreate 0) 4)^[t] (.read : LockPc 32)) ∧
      YieldsAgain (fun t => (wait (shmtxCreate 0) 4)^[t] (.read : LockPc 64)) := by
  have h := backOff_yields_iff (waits_iterate (shmtxCreate 0) 4 (v := 7) (by decide))
    (waits_iterate (shmtxCreate 0) 4 (v := 7) (by decide))
  exact ⟨h.1.mpr (.inr (by decide)), h.2.mpr (.inr (by decide))⟩

/-- On four processors, a process that waits for `accept_mutex` in `shmtx_lock` never yields. -/
theorem not_backOff_yields :
    ¬∀ (spin : BitVec 64) (ncpu : BitVec 32) (word : ℕ → BitVec 64) (p : ℕ → LockPc 32),
      Waits shmtxLock spin ncpu word p → YieldsAgain p := by
  intro hall
  have hp := waits_iterate (w := 32) acceptMutexSpin 4 (v := 7) (by decide)
  have hb := (Waits.yieldsAgain_iff (by decide) (by decide) hp).mp (hall _ _ _ _ hp)
  exact absurd hb (by unfold Bounded; decide)

end Libcn.Shmtx
