import Libcn.Lib.Lock
import Libcn.Lib.Machine
import Libcn.Shmtx.Basic
import Mathlib.Logic.Function.Basic

/-!
# Ownership of a mutex

Processes share one word. Each calls the functions of `shmtx.c` on it in any order; a step of a
process is one access to the word, or a pause or yield of `shmtx_lock`, and any interleaving of
steps is a run.
-/

namespace Libcn.Shmtx

open Libcn.Lib

/-- The calls. -/
inductive Call
  | trylock
  | lock (ncpu : BitVec 32)
  | unlock
  | forceUnlock
  deriving DecidableEq, Repr

/-- Where a process stands. -/
inductive Pc
  /-- not in a call -/
  | idle
  /-- `shmtx_trylock`, at the read of the word -/
  | tryRead
  /-- at the compare and swap -/
  | tryCas
  /-- `shmtx_lock` -/
  | lock (ncpu : BitVec 32) (pc : LockPc 32)
  /-- `shmtx_unlock`, at its compare and swap -/
  | unlock
  /-- `shmtx_force_unlock` -/
  | forceUnlock
  deriving DecidableEq, Repr

/-- The start of a call. -/
def Call.enter : Call → Pc
  | .trylock => .tryRead
  | .lock ncpu => .lock ncpu .read
  | .unlock => .unlock
  | .forceUnlock => .forceUnlock

/-- What a step of a call does besides its access to the word. -/
inductive Progress
  /-- the call goes on -/
  | goes (pc : Pc)
  /-- `shmtx_trylock` returns a value -/
  | tried (r : BitVec 32)
  /-- `shmtx_lock` returns -/
  | locked
  /-- `shmtx_unlock` returns -/
  | unlocked
  /-- `shmtx_force_unlock` returns a value -/
  | forced (r : BitVec 32)
  deriving DecidableEq, Repr

/-- `atomic_cmp_set`: whether it swaps, and the word after it. -/
def atomicCmpSet (word old set : BitVec 64) : Bool × BitVec 64 :=
  if word = old then (true, set) else (false, word)

/-- One step of a call by the process whose `getpid()`, as a word, is `pid`. -/
def callStep (spin pid word : BitVec 64) : Pc → Option (BitVec 64 × Progress)
  | .idle => none
  | .tryRead => some (word, if word = 0 then .goes .tryCas else .tried 0)
  | .tryCas =>
    let (swapped, word) := atomicCmpSet word 0 pid
    some (word, .tried (if swapped then 1 else 0))
  | .lock ncpu pc =>
    match shmtxLock spin ncpu word pc with
    | some pc => some (word, .goes (.lock ncpu pc))
    | none => some ((atomicCmpSet word 0 pid).2, .locked)
  | .unlock => some ((atomicCmpSet word pid 0).2, .unlocked)
  | .forceUnlock =>
    -- the owner is `getpid()` here too
    let (swapped, word) := atomicCmpSet word pid 0
    some (word, .forced (if swapped then 1 else 0))

/-- The processes: their numbers, and the bound in each one's `shmtx_t`. -/
structure Processes (P : Type) where
  getpid : P → BitVec 32
  spin : P → BitVec 64
  getpid_ne_zero : ∀ p, getpid p ≠ 0
  getpid_injective : Function.Injective getpid

variable {P : Type}

/-- `getpid()` converted to the type of the word. -/
def Processes.pid (G : Processes P) (p : P) : BitVec 64 := (G.getpid p).signExtend 64

lemma signExtend_injective {a b : BitVec 32} (h : a.signExtend 64 = b.signExtend 64) : a = b := by
  have h' := congrArg BitVec.toInt h
  rw [BitVec.toInt_signExtend_of_le (by decide), BitVec.toInt_signExtend_of_le (by decide)] at h'
  exact BitVec.eq_of_toInt_eq h'

lemma Processes.pid_injective (G : Processes P) : Function.Injective G.pid :=
  fun _ _ h => G.getpid_injective (signExtend_injective h)

lemma Processes.pid_ne_zero (G : Processes P) (p : P) : G.pid p ≠ 0 := by
  intro h
  refine G.getpid_ne_zero p (signExtend_injective (h.trans ?_))
  decide

/-- The word, the processes, and which of them have acquired the mutex and not yet released it, by
what their calls have returned. -/
structure System (P : Type) where
  word : BitVec 64
  pc : P → Pc
  owns : P → Bool

/-- A process makes a call, or takes a step of its call. -/
inductive Move (P : Type)
  | call (p : P) (c : Call)
  | step (p : P)
  deriving DecidableEq, Repr

/-- The process that moves. -/
def Move.process : Move P → P
  | .call p _ => p
  | .step p => p

/-- Where a process stands after a step. -/
def Progress.pc : Progress → Pc
  | .goes pc => pc
  | _ => .idle

/-- Whether a process has acquired the mutex and not yet released it, after a step. -/
def Progress.owns (before : Bool) : Progress → Bool
  | .goes _ => before
  | .tried r => before || r != 0
  | .locked => true
  | .unlocked => false
  | .forced _ => false

variable [DecidableEq P]

def System.step (G : Processes P) (s : System P) : Move P → Option (System P)
  | .call p c =>
    if s.pc p = .idle then some { s with pc := Function.update s.pc p c.enter } else none
  | .step p => do
    let (word, r) ← callStep (G.spin p) (G.pid p) s.word (s.pc p)
    pure { word := word
           pc := Function.update s.pc p r.pc
           owns := Function.update s.owns p (r.owns (s.owns p)) }

/-- The runs of the processes, from a mutex that nobody has. -/
def shmtxMachine (G : Processes P) : Machine (System P) (Move P) where
  init s := s.word = 0 ∧ (∀ p, s.pc p = .idle) ∧ ∀ p, s.owns p = false
  step := System.step G

/-! ## One owner -/

variable {G : Processes P} {s s' : System P}

/-- The word is zero while nobody owns the mutex, and the number of the owner otherwise. -/
def System.Owned (G : Processes P) (s : System P) : Prop :=
  Held G.pid 0 (fun p => s.owns p = true) s.word

/-- What a step of a call does to the word: nothing, or it takes a free word, or it lets go a word
of its own. -/
inductive WordMoves (word pid : BitVec 64) : BitVec 64 → Progress → Prop
  | goes (pc : Pc) : WordMoves word pid word (.goes pc)
  | busy : WordMoves word pid word (.tried 0)
  | tried (h : word = 0) : WordMoves word pid pid (.tried 1)
  | locked (h : word = 0) : WordMoves word pid pid .locked
  | unlocked (h : word = pid) : WordMoves word pid 0 .unlocked
  | foreign (h : word ≠ pid) : WordMoves word pid word .unlocked
  | forced (h : word = pid) : WordMoves word pid 0 (.forced 1)
  | notForced (h : word ≠ pid) : WordMoves word pid word (.forced 0)

omit [DecidableEq P] in
lemma lockStep_none {w : ℕ} {spin word : BitVec 64} {ncpu : BitVec 32} {pc : LockPc w}
    (h : lockStep spin ncpu word pc = none) : word = 0 := by
  cases pc <;> simp only [lockStep, reduceCtorEq, ite_eq_left_iff, imp_false, not_not] at h <;>
    exact h

/-- The steps of the calls. -/
theorem callStep_moves {spin pid word word' : BitVec 64} {pc : Pc} {r : Progress}
    (h : callStep spin pid word pc = some (word', r)) : WordMoves word pid word' r := by
  cases pc with
  | idle => cases h
  | tryRead =>
    obtain ⟨rfl, rfl⟩ := Prod.mk.inj (Option.some.inj h)
    by_cases hw : word = 0
    · rw [if_pos hw]
      exact .goes _
    · rw [if_neg hw]
      exact .busy
  | tryCas =>
    by_cases hw : word = 0
    · simp only [callStep, atomicCmpSet, if_pos hw] at h
      obtain ⟨rfl, rfl⟩ := Prod.mk.inj (Option.some.inj h)
      exact .tried hw
    · simp only [callStep, atomicCmpSet, if_neg hw] at h
      obtain ⟨rfl, rfl⟩ := Prod.mk.inj (Option.some.inj h)
      exact .busy
  | lock ncpu pc =>
    cases hstep : shmtxLock spin ncpu word pc with
    | some pc' =>
      simp only [callStep, hstep] at h
      obtain ⟨rfl, rfl⟩ := Prod.mk.inj (Option.some.inj h)
      exact .goes _
    | none =>
      have hw : word = 0 := lockStep_none hstep
      simp only [callStep, hstep, atomicCmpSet, if_pos hw] at h
      obtain ⟨rfl, rfl⟩ := Prod.mk.inj (Option.some.inj h)
      exact .locked hw
  | unlock =>
    by_cases hw : word = pid
    · simp only [callStep, atomicCmpSet, if_pos hw] at h
      obtain ⟨rfl, rfl⟩ := Prod.mk.inj (Option.some.inj h)
      exact .unlocked hw
    · simp only [callStep, atomicCmpSet, if_neg hw] at h
      obtain ⟨rfl, rfl⟩ := Prod.mk.inj (Option.some.inj h)
      exact .foreign hw
  | forceUnlock =>
    by_cases hw : word = pid
    · simp only [callStep, atomicCmpSet, if_pos hw] at h
      obtain ⟨rfl, rfl⟩ := Prod.mk.inj (Option.some.inj h)
      exact .forced hw
    · simp only [callStep, atomicCmpSet, if_neg hw] at h
      obtain ⟨rfl, rfl⟩ := Prod.mk.inj (Option.some.inj h)
      exact .notForced hw

omit [DecidableEq P] in
/-- The owner is known from the word. -/
lemma System.Owned.owns_iff (h : s.Owned G) (p : P) : s.owns p = true ↔ s.word = G.pid p :=
  ⟨fun hp => h.word_eq hp,
    fun hw => h.inside_of_eq (fun _ _ he => G.pid_injective he) (G.pid_ne_zero p) hw⟩

/-- A step of a call keeps the word in line with the owner. -/
lemma System.Owned.moves (h : s.Owned G) {p : P} {word' : BitVec 64} {r : Progress}
    (hmove : WordMoves s.word (G.pid p) word' r) (pc : P → Pc) :
    System.Owned G ⟨word', pc, Function.update s.owns p (r.owns (s.owns p))⟩ := by
  have hsame : ∀ b, s.owns p = b → Held G.pid 0 (fun q => Function.update s.owns p b q = true)
      s.word := by
    rintro b rfl
    rw [Function.update_eq_self]
    exact h
  have hother : ∀ b, ∀ q, q ≠ p → (Function.update s.owns p b q = true ↔ s.owns q = true) :=
    fun b q hq => by rw [Function.update_of_ne hq]
  -- a swap that fails was not made by the owner
  have hforeign : s.word ≠ G.pid p → s.owns p = false := by
    intro hne
    by_contra howns
    exact hne ((h.owns_iff p).mp (by simpa using howns))
  cases hmove with
  | goes pc' => exact hsame _ rfl
  | busy => exact hsame _ (by simp [Progress.owns])
  | tried hw | locked hw =>
    exact Held.acquire (h.outside G.pid_ne_zero hw) (by simp [Progress.owns]) (hother _)
  | unlocked hw | forced hw =>
    exact Held.release h ((h.owns_iff p).mpr hw) (by simp [Progress.owns]) (hother _)
  | foreign hw | notForced hw => exact hsame _ (hforeign hw)

/-- The word is in line with the owner in every reachable state. -/
theorem System.owned (h : (shmtxMachine G).Reachable s) : s.Owned G := by
  refine h.invariant (I := System.Owned G) ?_ ?_
  · rintro s ⟨hword, -, howns⟩
    rw [System.Owned, hword]
    exact .free fun p => by simp [howns p]
  · rintro s a s' hi - hs
    cases a with
    | call p c =>
      obtain ⟨-, hs⟩ := Option.ite_none_right_eq_some.mp hs
      cases hs
      exact hi
    | step p =>
      obtain ⟨⟨word', r⟩, hstep, hs⟩ := Option.bind_eq_some_iff.mp hs
      cases hs
      exact hi.moves (callStep_moves hstep) _

/-- What holds of a mutex between any two steps: the word is zero, and nobody has acquired the mutex
without releasing it, or it is the number of the one process that has; a step of a call leaves the
word alone unless the call returns with it; `shmtx_trylock` returns a value that is not zero exactly
when it takes a free word; and a process that does not own the mutex changes no word that is not
zero. -/
structure MutexLaw (G : Processes P) (s : System P) : Prop where
  word : s.word = 0 ∧ (∀ p, s.owns p = false) ∨ ∃ p, s.owns p = true ∧ s.word = G.pid p
  one : ∀ p q, s.owns p = true → s.owns q = true → p = q
  goes : ∀ p word' pc, callStep (G.spin p) (G.pid p) s.word (s.pc p) = some (word', .goes pc) →
    word' = s.word
  tried : ∀ p word' r, callStep (G.spin p) (G.pid p) s.word (s.pc p) = some (word', .tried r) →
    (r ≠ 0 ↔ s.word = 0 ∧ word' = G.pid p) ∧ (r = 0 → word' = s.word)
  foreign : ∀ a s', s.step G a = some s' → s.word ≠ 0 → s.owns a.process = false →
    s'.word = s.word

lemma System.Owned.law (h : s.Owned G) : MutexLaw G s where
  word := by
    by_cases hown : ∃ p, s.owns p = true
    · obtain ⟨p, hp⟩ := hown
      exact .inr ⟨p, hp, h.word_eq hp⟩
    · have hnone : ∀ p, ¬s.owns p = true := fun p hp => hown ⟨p, hp⟩
      exact .inl ⟨h.eq_free hnone, fun p => by simpa using hnone p⟩
  one p q hp hq := h.unique hq hp
  goes p word' pc hstep := by
    cases callStep_moves hstep
    rfl
  tried p word' r hstep := by
    cases callStep_moves hstep with
    | busy =>
      have hpid : ¬(s.word = 0 ∧ s.word = G.pid p) := fun hw =>
        G.pid_ne_zero p (hw.2.symm.trans hw.1)
      exact ⟨iff_of_false (by simp) hpid, fun _ => rfl⟩
    | tried hw => exact ⟨iff_of_true (by decide) ⟨hw, rfl⟩, fun hr => absurd hr (by decide)⟩
  foreign a s' hs hne hown := by
    cases a with
    | call p c =>
      obtain ⟨-, hs⟩ := Option.ite_none_right_eq_some.mp hs
      cases hs
      rfl
    | step p =>
      obtain ⟨⟨word', r⟩, hstep, hs⟩ := Option.bind_eq_some_iff.mp hs
      cases hs
      -- what swaps a word that is not zero finds its own number there
      have hpid : s.word ≠ G.pid p := fun hw => by
        rw [Move.process, (h.owns_iff p).mpr hw] at hown
        cases hown
      cases callStep_moves hstep with
      | tried hw | locked hw => exact absurd hw hne
      | unlocked hw | forced hw => exact absurd hw hpid
      | _ => rfl

/-- Between any two steps of any processes with different numbers the mutex has one owner at most,
and only the owner lets it go. -/
theorem shmtx_owner (h : (shmtxMachine G).Reachable s) : MutexLaw G s := (System.owned h).law

/-- Two processes. -/
def twoProcesses : Processes Bool where
  getpid p := if p then 11 else 10
  spin _ := acceptMutexSpin
  getpid_ne_zero := by decide
  getpid_injective := by decide

/-- Both processes read a free word; one gets it, the other one fails and then unlocks it all the
same. -/
theorem shmtx_owner_twoProcesses : ∃ s, (shmtxMachine twoProcesses).Reachable s ∧
    s.word = 10 ∧ MutexLaw twoProcesses s := by
  have h₀ : (shmtxMachine twoProcesses).Reachable ⟨0, fun _ => .idle, fun _ => false⟩ :=
    .init ⟨rfl, fun _ => rfl, fun _ => rfl⟩
  have hrun : ((shmtxMachine twoProcesses).run (fun _ _ => True)
      ⟨0, fun _ => .idle, fun _ => false⟩ [.call false .trylock, .call true .trylock, .step false,
        .step true, .step false, .step true, .call true .unlock, .step true]).map System.word =
      some 10 := by decide
  obtain ⟨s, hs, hword⟩ := Option.map_eq_some_iff.mp hrun
  have h := h₀.run hs
  exact ⟨s, h, hword, shmtx_owner h⟩

end Libcn.Shmtx
