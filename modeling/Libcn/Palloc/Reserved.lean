import Libcn.Palloc.Array
import Libcn.Palloc.List

/-!
# What arrays and lists have reserved

Beside an array or a list stands the number of bytes reserved at its elements: what `palloc` was
asked for when it gave them out, and what the array took behind them from the first block.
-/

namespace Libcn.Palloc

open Libcn.Lib

/-! ## Arrays -/

/-- The bytes reserved once `array_push` made room, where `k` were. -/
def pushFullReserved (m : PoolMem) (a : Arr) (k : ℕ) : ℕ :=
  let size := a.size * a.nalloc % 2 ^ 64
  let d := m.pool.head
  if ptrAdd a.elts size = d.last ∧ ptrAdd d.last a.size ≤ d.stop then
    k + (ptrAdd d.last a.size - d.last)
  else
    match (palloc m (2 * size % 2 ^ 64)).1 with
    | none => k
    | some _ => 2 * size % 2 ^ 64

/-- The bytes reserved once `array_push_n` made room. -/
def pushNFullReserved (m : PoolMem) (a : Arr) (n k : ℕ) : ℕ :=
  let size := n * a.size % 2 ^ 64
  let d := m.pool.head
  if ptrAdd a.elts (a.size * a.nalloc % 2 ^ 64) = d.last ∧ ptrAdd d.last size ≤ d.stop then
    k + (ptrAdd d.last size - d.last)
  else
    let nalloc := 2 * (if a.nalloc ≤ n then n else a.nalloc) % 2 ^ 32
    match (palloc m (nalloc * a.size % 2 ^ 64)).1 with
    | none => k
    | some _ => nalloc * a.size % 2 ^ 64

/-- An array and the bytes reserved at its elements. -/
structure Reserve where
  array : Arr
  bytes : ℕ
  deriving DecidableEq, Repr

/-- A call on an array. -/
inductive ArrayCall
  | push
  | pushN (n : ℕ)
  deriving DecidableEq, Repr

namespace ArrayCall

/-- The number of elements asked for. -/
def count : ArrayCall → ℕ
  | .push => 1
  | .pushN n => n

/-- What the call answers. -/
def answer (m : PoolMem) (a : Arr) : ArrayCall → Option ℕ
  | .push => (arrayPush m a).1
  | .pushN n => (arrayPushN m a n).1

/-- What the call leaves behind. -/
def run (m : PoolMem) (s : Reserve) : ArrayCall → Reserve
  | .push => ⟨(arrayPush m s.array).2.2,
      if s.array.nelts = s.array.nalloc then pushFullReserved m s.array s.bytes else s.bytes⟩
  | .pushN n => ⟨(arrayPushN m s.array n).2.2,
      if s.array.nalloc < (s.array.nelts + n) % 2 ^ 32 then pushNFullReserved m s.array n s.bytes
      else s.bytes⟩

end ArrayCall

/-- The array can grow by `k` bytes where it is, as the code tests it. -/
def Arr.AtEnd (a : Arr) (m : PoolMem) (k : ℕ) : Prop :=
  ptrAdd a.elts (a.size * a.nalloc % 2 ^ 64) = m.pool.head.last ∧
    ptrAdd m.pool.head.last k ≤ m.pool.head.stop

instance (a : Arr) (m : PoolMem) (k : ℕ) : Decidable (a.AtEnd m k) :=
  inferInstanceAs (Decidable (_ ∧ _))

/-- No count, byte size or address wraps, and an array that moves has a capacity to double. -/
def ArrayCall.Fits (m : PoolMem) (a : Arr) : ArrayCall → Prop
  | .push => a.nelts = a.nalloc →
      if a.AtEnd m a.size then m.pool.head.last + a.size < 2 ^ 64
      else 0 < a.nalloc ∧ a.nalloc * 2 < 2 ^ 32 ∧ 2 * (a.size * a.nalloc) < 2 ^ 64
  | .pushN n => a.nelts + n < 2 ^ 32 ∧ (a.nalloc < a.nelts + n →
      if a.AtEnd m (n * a.size % 2 ^ 64) then
        a.nalloc + n < 2 ^ 32 ∧ m.pool.head.last + n * a.size < 2 ^ 64
      else 2 * max n a.nalloc < 2 ^ 32 ∧ 2 * max n a.nalloc * a.size < 2 ^ 64)

instance (m : PoolMem) (a : Arr) : (c : ArrayCall) → Decidable (c.Fits m a)
  | .push => inferInstanceAs (Decidable (_ → _))
  | .pushN _ => inferInstanceAs (Decidable (_ ∧ _))

/-- The elements fit the capacity, and the capacity is reserved. -/
def Reserve.Ok (s : Reserve) : Prop :=
  s.array.nelts ≤ s.array.nalloc ∧ s.array.nalloc * s.array.size ≤ s.bytes

instance (s : Reserve) : Decidable s.Ok := inferInstanceAs (Decidable (_ ∧ _))

/-- The slots a call answers with lie in what is reserved after it. -/
def Reserve.Inside (s : Reserve) (answer : Option ℕ) (count : ℕ) : Prop :=
  ∀ p, answer = some p →
    ∃ i, p = slotAddr s.array.elts s.array.size i ∧ s.array.size * (i + count) ≤ s.bytes

variable {m : PoolMem} {s : Reserve}

/-- `array_push` and `array_push_n` once they looked for room: they end with a failure and
nothing changed, or there is room for `k` more elements. -/
structure Reserve.Room (s : Reserve) (k : ℕ) (found : Bool) (a : Arr) (bytes : ℕ) : Prop where
  same : a.nelts = s.array.nelts ∧ a.size = s.array.size
  failed : found = false → a = s.array ∧ bytes = s.bytes
  count : found = true → (a.nelts + k) % 2 ^ 32 ≤ a.nalloc
  capacity : a.nalloc * a.size ≤ bytes
  room : found = true → a.size * (a.nelts + k) ≤ bytes

lemma Reserve.Room.refl (h : s.Ok) {k : ℕ} (hk : s.array.nelts + k ≤ s.array.nalloc) :
    s.Room k true s.array s.bytes where
  same := ⟨rfl, rfl⟩
  failed := nofun
  count _ := (Nat.mod_le _ _).trans hk
  capacity := h.2
  room _ := by
    rw [Nat.mul_comm]
    exact (Nat.mul_le_mul_right _ hk).trans h.2

lemma Reserve.Room.null (h : s.Ok) (k : ℕ) : s.Room k false s.array s.bytes :=
  ⟨⟨rfl, rfl⟩, fun _ => ⟨rfl, rfl⟩, nofun, h.2, nofun⟩

/-- A full array makes room. -/
lemma pushFull_room (h : s.Ok) (hfull : s.array.nelts = s.array.nalloc)
    (hfits : (pushFull m s.array).1 = false ∨ ArrayCall.push.Fits m s.array) :
    s.Room 1 (pushFull m s.array).1 (pushFull m s.array).2.2
      (pushFullReserved m s.array s.bytes) := by
  obtain ⟨a, k⟩ := s
  obtain ⟨hle, hk⟩ := h
  simp only at *
  by_cases hend : a.AtEnd m a.size
  · have hrun : pushFull m a = (true, m.setLast (ptrAdd m.pool.head.last a.size),
        { a with nalloc := (a.nalloc + 1) % 2 ^ 32 }) := if_pos hend
    have hbytes : pushFullReserved m a k = k + (ptrAdd m.pool.head.last a.size - m.pool.head.last) :=
      if_pos hend
    rw [hrun] at hfits ⊢
    have hlast := hfits.resolve_left (by simp) hfull
    rw [if_pos hend] at hlast
    have hadd : ptrAdd m.pool.head.last a.size - m.pool.head.last = a.size := by
      rw [ptrAdd, Nat.mod_eq_of_lt hlast, Nat.add_sub_cancel_left]
    rw [hbytes, hadd]
    have hgrow : (a.nalloc + 1) * a.size ≤ k + a.size := by
      rw [Nat.add_mul, Nat.one_mul]
      exact Nat.add_le_add_right hk _
    refine ⟨⟨rfl, rfl⟩, by simp, fun _ => ?_, ?_, fun _ => ?_⟩
    · simp only [hfull, Nat.le_refl]
    · exact (Nat.mul_le_mul_right _ (Nat.mod_le _ _)).trans hgrow
    · simp only [hfull]
      rwa [Nat.mul_comm]
  · -- the array moves
    rcases hp : palloc m (2 * (a.size * a.nalloc % 2 ^ 64) % 2 ^ 64) with ⟨_ | new, m'⟩
    · have hrun : pushFull m a = (false, m', a) := (if_neg hend).trans (by rw [hp])
      have hres : pushFullReserved m a k = k := (if_neg hend).trans (by rw [hp])
      rw [hrun, hres]
      exact .null (s := ⟨a, k⟩) ⟨hle, hk⟩ 1
    · have hrun : pushFull m a =
          (true, m', { a with elts := new, nalloc := a.nalloc * 2 % 2 ^ 32 }) :=
        (if_neg hend).trans (by rw [hp])
      have hres : pushFullReserved m a k = 2 * (a.size * a.nalloc % 2 ^ 64) % 2 ^ 64 :=
        (if_neg hend).trans (by rw [hp])
      rw [hrun] at hfits ⊢
      rw [hres]
      have hroom := hfits.resolve_left (by simp) hfull
      rw [if_neg hend] at hroom
      obtain ⟨hpos, hcount, htwice⟩ := hroom
      rw [Nat.mod_eq_of_lt (show a.size * a.nalloc < 2 ^ 64 by omega), Nat.mod_eq_of_lt htwice,
        Nat.mod_eq_of_lt hcount]
      have hdouble : a.nalloc * 2 * a.size = 2 * (a.size * a.nalloc) := by ring
      refine ⟨⟨rfl, rfl⟩, by simp, fun _ => ?_, hdouble.le, fun _ => ?_⟩
      · refine (Nat.mod_le _ _).trans ?_
        simp only [hfull]
        omega
      · rw [← hdouble, Nat.mul_comm]
        apply Nat.mul_le_mul_right
        simp only [hfull]
        omega

/-- An array without room for `n` more makes room. -/
lemma pushNFull_room (h : s.Ok) {n : ℕ} (hfull : s.array.nalloc < s.array.nelts + n)
    (hfits : (pushNFull m s.array n).1 = false ∨ (ArrayCall.pushN n).Fits m s.array) :
    s.Room n (pushNFull m s.array n).1 (pushNFull m s.array n).2.2
      (pushNFullReserved m s.array n s.bytes) := by
  obtain ⟨a, k⟩ := s
  obtain ⟨hle, hk⟩ := h
  simp only at *
  by_cases hend : a.AtEnd m (n * a.size % 2 ^ 64)
  · have hrun : pushNFull m a n = (true, m.setLast (ptrAdd m.pool.head.last (n * a.size % 2 ^ 64)),
        { a with nalloc := (a.nalloc + n) % 2 ^ 32 }) := if_pos hend
    have hbytes : pushNFullReserved m a n k =
        k + (ptrAdd m.pool.head.last (n * a.size % 2 ^ 64) - m.pool.head.last) := if_pos hend
    rw [hrun] at hfits ⊢
    obtain ⟨-, hroom⟩ := hfits.resolve_left (by simp)
    have hroom := hroom hfull
    rw [if_pos hend] at hroom
    obtain ⟨hcount, hlast⟩ := hroom
    have hadd : ptrAdd m.pool.head.last (n * a.size % 2 ^ 64) - m.pool.head.last = n * a.size := by
      rw [Nat.mod_eq_of_lt (show n * a.size < 2 ^ 64 by omega), ptrAdd, Nat.mod_eq_of_lt hlast,
        Nat.add_sub_cancel_left]
    rw [hbytes, hadd, Nat.mod_eq_of_lt hcount]
    have hgrow : (a.nalloc + n) * a.size ≤ k + n * a.size := by
      rw [Nat.add_mul]
      exact Nat.add_le_add_right hk _
    refine ⟨⟨rfl, rfl⟩, by simp, fun _ => ?_, hgrow, fun _ => ?_⟩
    · exact (Nat.mod_le _ _).trans (Nat.add_le_add_right hle n)
    · rw [Nat.mul_comm]
      exact (Nat.mul_le_mul_right _ (Nat.add_le_add_right hle n)).trans hgrow
  · -- the array moves
    have hmax : (if a.nalloc ≤ n then n else a.nalloc) = max n a.nalloc := by
      split <;> omega
    rcases hp : palloc m (2 * max n a.nalloc % 2 ^ 32 * a.size % 2 ^ 64) with ⟨_ | new, m'⟩
    · have hrun : pushNFull m a n = (false, m', a) := (if_neg hend).trans (by rw [hmax, hp])
      have hres : pushNFullReserved m a n k = k := (if_neg hend).trans (by rw [hmax, hp])
      rw [hrun, hres]
      exact .null (s := ⟨a, k⟩) ⟨hle, hk⟩ n
    · have hrun : pushNFull m a n =
          (true, m', { a with elts := new, nalloc := 2 * max n a.nalloc % 2 ^ 32 }) :=
        (if_neg hend).trans (by rw [hmax, hp])
      have hres : pushNFullReserved m a n k = 2 * max n a.nalloc % 2 ^ 32 * a.size % 2 ^ 64 :=
        (if_neg hend).trans (by rw [hmax, hp])
      rw [hrun] at hfits ⊢
      rw [hres]
      obtain ⟨hsum, hroom⟩ := hfits.resolve_left (by simp)
      have hroom := hroom hfull
      rw [if_neg hend] at hroom
      obtain ⟨hcount, hbytes⟩ := hroom
      rw [Nat.mod_eq_of_lt hcount, Nat.mod_eq_of_lt hbytes]
      have hfit : a.nelts + n ≤ 2 * max n a.nalloc := by omega
      refine ⟨⟨rfl, rfl⟩, by simp, fun _ => ?_, Nat.le_refl _, fun _ => ?_⟩
      · exact (Nat.mod_le _ _).trans hfit
      · rw [Nat.mul_comm]
        exact Nat.mul_le_mul_right _ hfit

/-- The end of both functions. -/
lemma Reserve.Room.pushEnd {k bytes : ℕ} {r : Bool × PoolMem × Arr}
    (h : s.Room k r.1 r.2.2 bytes) (hok : s.Ok) :
    Reserve.Ok ⟨(pushEnd k r).2.2, bytes⟩ ∧
      Reserve.Inside ⟨(pushEnd k r).2.2, bytes⟩ (pushEnd k r).1 k := by
  obtain ⟨found, m', a⟩ := r
  cases found with
  | false =>
    obtain ⟨ha, hbytes⟩ := h.failed rfl
    simp only at ha
    subst ha hbytes
    exact ⟨hok, nofun⟩
  | true =>
    refine ⟨⟨h.count rfl, h.capacity⟩, fun p hp => ⟨a.nelts, ?_, h.room rfl⟩⟩
    exact (Option.some.inj hp).symm

/-- One call. -/
lemma ArrayCall.step (h : s.Ok) (c : ArrayCall)
    (hfits : c.answer m s.array = none ∨ c.Fits m s.array) :
    (c.run m s).Ok ∧ (c.run m s).Inside (c.answer m s.array) c.count := by
  have hnull : ∀ {k : ℕ} {r : Bool × PoolMem × Arr}, (Palloc.pushEnd k r).1 = none → r.1 = false := by
    intro k r hr
    obtain ⟨found, m', a⟩ := r
    cases found with
    | false => rfl
    | true => cases hr
  cases c with
  | push =>
    simp only [ArrayCall.run, ArrayCall.answer, arrayPush] at hfits ⊢
    by_cases hfull : s.array.nelts = s.array.nalloc
    · simp only [if_pos hfull] at hfits ⊢
      exact (pushFull_room h hfull (hfits.imp hnull id)).pushEnd h
    · simp only [if_neg hfull]
      exact Reserve.Room.pushEnd (r := (true, m, s.array))
        (.refl h (Nat.lt_of_le_of_ne h.1 hfull)) h
  | pushN n =>
    simp only [ArrayCall.run, ArrayCall.answer, arrayPushN] at hfits ⊢
    by_cases hfull : s.array.nalloc < (s.array.nelts + n) % 2 ^ 32
    · simp only [if_pos hfull] at hfits ⊢
      have hsum : s.array.nalloc < s.array.nelts + n := hfull.trans_le (Nat.mod_le _ _)
      exact (pushNFull_room h hsum (hfits.imp hnull id)).pushEnd h
    · simp only [if_neg hfull] at hfits ⊢
      have hsum : s.array.nelts + n ≤ s.array.nalloc := by
        rcases hfits with hfits | hfits
        · cases hfits
        · rw [Nat.mod_eq_of_lt hfits.1] at hfull
          exact Nat.not_lt.mp hfull
      exact Reserve.Room.pushEnd (r := (true, m, s.array)) (.refl h hsum) h

/-- A sequence of calls, each with the pool as the program left it before the call. -/
def runCalls (s : Reserve) (calls : List (PoolMem × ArrayCall)) : Reserve :=
  calls.foldl (fun s c => c.2.run c.1 s) s

/-- Every call of the sequence fails or meets the condition. -/
def FitsRun (s : Reserve) : List (PoolMem × ArrayCall) → Prop
  | [] => True
  | c :: calls => (c.2.answer c.1 s.array = none ∨ c.2.Fits c.1 s.array) ∧
      FitsRun (c.2.run c.1 s) calls

lemma FitsRun.ok (h : s.Ok) {calls : List (PoolMem × ArrayCall)} (hfits : FitsRun s calls) :
    (runCalls s calls).Ok := by
  induction calls generalizing s with
  | nil => exact h
  | cons c calls ih => exact ih (c.2.step h hfits.1).1 hfits.2

/-! ## Lists -/

/-- The bytes reserved at the elements of each part after `list_push`. -/
def listPushReserved (m : PoolMem) (l : Lst) (k : ℕ → ℕ) : ℕ → ℕ :=
  if (l.parts l.last).nelts = l.nalloc then
    match palloc m sizeofListPart with
    | (none, _) => k
    | (some _, m) =>
      match (palloc m (l.nalloc * l.size % 2 ^ 64)).1 with
      | none => k
      | some _ => Function.update k l.count (l.nalloc * l.size % 2 ^ 64)
  else k

/-- A list, and the bytes reserved at the elements of each part. -/
structure ListReserve where
  list : Lst
  bytes : ℕ → ℕ

namespace ListReserve

/-- A push on the pool `m`. -/
def push (s : ListReserve) (m : PoolMem) : ListReserve :=
  ⟨(listPush m s.list).2.2, listPushReserved m s.list s.bytes⟩

/-- The elements of every part of the list fit the capacity, and the capacity is reserved. -/
def Ok (s : ListReserve) : Prop :=
  ∃ ps, Chain s.list.parts 0 ps ∧ ∀ p ∈ 0 :: ps, (s.list.parts p).nelts ≤ s.list.nalloc ∧
    s.list.nalloc * s.list.size ≤ s.bytes p

/-- The slot a push answers with lies in what is reserved at a part. -/
def Inside (s : ListReserve) (answer : Option ℕ) : Prop :=
  ∀ a, answer = some a → ∃ ps, Chain s.list.parts 0 ps ∧ ∃ p ∈ 0 :: ps, ∃ i,
    a = slotAddr (s.list.parts p).elts s.list.size i ∧ s.list.size * (i + 1) ≤ s.bytes p

end ListReserve

/-- A push that hands out an element from a full list has reserved the new part. -/
lemma listPushReserved_eq (m : PoolMem) (l : Lst) (k : ℕ → ℕ) : listPushReserved m l k =
    if (l.parts l.last).nelts = l.nalloc ∧ (listPush m l).1 ≠ none then
      Function.update k l.count (l.nalloc * l.size % 2 ^ 64) else k := by
  unfold listPushReserved listPush
  by_cases hfull : (l.parts l.last).nelts = l.nalloc
  · rcases hpart : palloc m sizeofListPart with ⟨_ | part, m₁⟩
    · simp [hfull]
    · rcases helts : palloc m₁ (l.nalloc * l.size % 2 ^ 64) with ⟨_ | elts, m₂⟩
      · simp only [if_pos hfull, helts, ne_eq, not_true_eq_false, and_false, if_false]
      · simp only [if_pos hfull, helts]
        rw [if_pos ⟨hfull, nofun⟩]
  · simp [hfull]

/-- The invariant of a run of pushes. -/
structure ListReserve.Inv (s : ListReserve) (ps : List ℕ) : Prop where
  ok : s.list.Ok ps
  bytes : ∀ p ∈ 0 :: ps, s.list.nalloc * s.list.size ≤ s.bytes p
  fits : s.list.nalloc * s.list.size < 2 ^ 64

namespace ListReserve.Inv

variable {s : ListReserve} {ps : List ℕ}

lemma reserved (h : s.Inv ps) : s.Ok :=
  ⟨ps, h.ok.chain, fun p hp => ⟨h.ok.nelts_le hp, h.bytes p hp⟩⟩

/-- An element of the list lies in what is reserved at its part. -/
lemma inside (h : s.Inv ps) {v : Visit} (hv : v ∈ s.list.elements ps) :
    s.Inside (some v.addr) := by
  intro a ha
  obtain ⟨p, hp, hv⟩ := List.mem_flatMap.mp hv
  obtain ⟨i, hi, rfl⟩ := List.mem_map.mp hv
  obtain ⟨-, hi⟩ := List.mem_range'_1.mp hi
  refine ⟨ps, h.ok.chain, p, hp, i, (Option.some.inj ha).symm, ?_⟩
  have hnelts := h.ok.nelts_le hp
  refine le_trans ?_ (h.bytes p hp)
  rw [Nat.mul_comm]
  exact Nat.mul_le_mul_right _ (by omega)

/-- One push. -/
lemma push (h : s.Inv ps) (m : PoolMem) :
    ∃ ps', (s.push m).Inv ps' ∧ (s.push m).Inside (listPush m s.list).1 := by
  have hpush := listPush_spec h.ok m
  have hbytes := listPushReserved_eq m s.list s.bytes
  unfold ListReserve.push
  rw [hbytes]
  generalize listPush m s.list = r at hpush
  cases hpush with
  | failed ok same fixed =>
    refine ⟨ps, ⟨ok, fun p hp => ?_, ?_⟩, nofun⟩
    · simp only [ne_eq, not_true_eq_false, and_false, if_false]
      rw [fixed.1, fixed.2]
      exact h.bytes p hp
    · simp only
      rw [fixed.1, fixed.2]
      exact h.fits
  | @pushed m' l' ps' v ok same fixed chain =>
    have hinv : (⟨l', if (s.list.parts s.list.last).nelts = s.list.nalloc ∧
        (some v.addr : Option ℕ) ≠ none then Function.update s.bytes s.list.count
          (s.list.nalloc * s.list.size % 2 ^ 64) else s.bytes⟩ : ListReserve).Inv ps' := by
      refine ⟨ok, fun p hp => ?_, ?_⟩
      · simp only
        rw [fixed.1, fixed.2]
        by_cases hfull : (s.list.parts s.list.last).nelts = s.list.nalloc
        · rw [if_pos hfull] at chain
          rw [if_pos ⟨hfull, nofun⟩]
          rw [chain, ← List.cons_append] at hp
          rcases List.mem_append.mp hp with hp | hp
          · rw [Function.update_of_ne (h.ok.named p hp).ne]
            exact h.bytes p hp
          · rw [List.mem_singleton.mp hp, Function.update_self, Nat.mod_eq_of_lt h.fits]
        · rw [if_neg hfull] at chain
          rw [if_neg fun e => hfull e.1]
          exact h.bytes p (chain ▸ hp)
      · simp only
        rw [fixed.1, fixed.2]
        exact h.fits
    refine ⟨_, hinv, hinv.inside ?_⟩
    rw [same]
    simp

end ListReserve.Inv

/-- A sequence of pushes, each with the pool as the program left it before the call. -/
def runPushes (s : ListReserve) (ms : List PoolMem) : ListReserve := ms.foldl ListReserve.push s

lemma ListReserve.Inv.run {s : ListReserve} {ps : List ℕ} (h : s.Inv ps) (ms : List PoolMem) :
    ∃ ps', (runPushes s ms).Inv ps' := by
  induction ms generalizing s ps with
  | nil => exact ⟨ps, h⟩
  | cons m ms ih =>
    obtain ⟨ps', h', -⟩ := h.push m
    exact ih h'

/-! ## The law -/

/-- A new array has its capacity reserved unless its byte size wraps. -/
lemma arrayInit_reserved {m m' : PoolMem} {addr n size : ℕ} {a : Arr}
    (hfits : n * size < 2 ^ 64) (ha : arrayInit m addr n size = (some a, m')) :
    Reserve.Ok ⟨a, n * size % 2 ^ 64⟩ := by
  unfold arrayInit at ha
  split at ha
  · simp at ha
  · simp only [Prod.mk.injEq, Option.some.injEq] at ha
    obtain ⟨rfl, -⟩ := ha
    exact ⟨Nat.zero_le _, (Nat.mod_eq_of_lt hfits).ge⟩

/-- The bytes reserved at the parts of a new list, which has its first one only. -/
def firstReserved (k : ℕ) : ℕ → ℕ := fun p => if p = 0 then k else 0

/-- A new list likewise. -/
lemma listInit_reserved {m m' : PoolMem} {junk : ℕ → Part} {n size : ℕ} {l : Lst}
    (hfits : n * size < 2 ^ 64) (hl : listInit m junk n size = (some l, m')) :
    ListReserve.Ok ⟨l, firstReserved (n * size % 2 ^ 64)⟩ ∧ l.nalloc = n ∧ l.size = size := by
  unfold listInit at hl
  split at hl
  · simp at hl
  · simp only [Prod.mk.injEq, Option.some.injEq] at hl
    obtain ⟨rfl, -⟩ := hl
    refine ⟨⟨[], by simp [Chain], fun p hp => ?_⟩, rfl, rfl⟩
    obtain rfl := List.mem_singleton.mp hp
    exact ⟨by simp, (Nat.mod_eq_of_lt hfits).ge⟩

/-- Arrays and lists hand out slots they have reserved, as long as each call fails or meets the
condition. -/
theorem containers_reserve (m₀ m₁ : PoolMem) (n size : ℕ) (hfits : n * size < 2 ^ 64) :
    (∀ (addr : ℕ) (a : Arr), arrayCreate m₀ n size = (some a, m₁) ∨
        arrayInit m₀ addr n size = (some a, m₁) →
      ∀ calls : List (PoolMem × ArrayCall), FitsRun ⟨a, n * size % 2 ^ 64⟩ calls →
        (runCalls ⟨a, n * size % 2 ^ 64⟩ calls).Ok ∧
        ∀ (m : PoolMem) (c : ArrayCall),
          c.answer m (runCalls ⟨a, n * size % 2 ^ 64⟩ calls).array = none ∨
            c.Fits m (runCalls ⟨a, n * size % 2 ^ 64⟩ calls).array →
          (c.run m (runCalls ⟨a, n * size % 2 ^ 64⟩ calls)).Inside
            (c.answer m (runCalls ⟨a, n * size % 2 ^ 64⟩ calls).array) c.count) ∧
    ∀ (junk : ℕ → Part) (l : Lst), n < 2 ^ 32 →
      listCreate m₀ junk n size = (some l, m₁) ∨ listInit m₀ junk n size = (some l, m₁) →
      ∀ ms : List PoolMem, 0 < n ∨ ms = [] →
        (runPushes ⟨l, firstReserved (n * size % 2 ^ 64)⟩ ms).Ok ∧
        ∀ m, 0 < n → ((runPushes ⟨l, firstReserved (n * size % 2 ^ 64)⟩ ms).push m).Inside
          (listPush m (runPushes ⟨l, firstReserved (n * size % 2 ^ 64)⟩ ms).list).1 := by
  constructor
  · intro addr a hmade calls hcalls
    have hinit : ∃ m addr, arrayInit m addr n size = (some a, m₁) := by
      rcases hmade with hmade | hmade
      · unfold arrayCreate at hmade
        split at hmade
        · simp at hmade
        · exact ⟨_, _, hmade⟩
      · exact ⟨m₀, addr, hmade⟩
    obtain ⟨m, addr, hinit⟩ := hinit
    have hok := hcalls.ok (arrayInit_reserved hfits hinit)
    exact ⟨hok, fun m c hc => (c.step hok hc).2⟩
  · intro junk l hn' hmade ms hms
    have hinit : ∃ m, listInit m junk n size = (some l, m₁) := by
      rcases hmade with hmade | hmade
      · unfold listCreate at hmade
        split at hmade
        · simp at hmade
        · exact ⟨_, hmade⟩
      · exact ⟨m₀, hmade⟩
    obtain ⟨m, hinit⟩ := hinit
    obtain ⟨hok, hnalloc, hsize⟩ := listInit_reserved hfits hinit
    have hinv : 0 < n → ListReserve.Inv ⟨l, firstReserved (n * size % 2 ^ 64)⟩ [] := by
      intro hn
      have hbytes : l.nalloc * l.size < 2 ^ 64 := by rwa [hnalloc, hsize]
      refine ⟨(listInit_ok hn hn' hinit).1, fun p hp => ?_, hbytes⟩
      obtain rfl := List.mem_singleton.mp hp
      simp only
      rw [hnalloc, hsize, Nat.mod_eq_of_lt hfits]
      rfl
    constructor
    · rcases hms with hn | rfl
      · obtain ⟨ps, hrun⟩ := (hinv hn).run ms
        exact hrun.reserved
      · exact hok
    · intro m hn
      obtain ⟨ps, hrun⟩ := (hinv hn).run ms
      obtain ⟨-, -, hinside⟩ := hrun.push m
      exact hinside

/-- An array without capacity that grows in place twice and then fails, and a list with a failed
push. -/
theorem containers_reserve_empty :
    (runCalls ⟨⟨64, 4152, 0, 8, 0⟩, 0⟩ [(poolUpTo 4096 4152, .push), (poolUpTo 4096 4160, .pushN 3),
      (poolUpTo 4096 4192, .push)]).Ok ∧
    ∃ l, (listInit (poolUpTo 4096 4152) (fun _ => ⟨7, 7, some 7⟩) 1 8).1 = some l ∧
      (runPushes ⟨l, firstReserved 8⟩ [poolUpTo 4096 4160, poolUpTo 4096 4168, poolUpTo 4096 4160]).Ok := by
  have hfits : FitsRun ⟨⟨64, 4152, 0, 8, 0⟩, 0⟩ [(poolUpTo 4096 4152, .push),
      (poolUpTo 4096 4160, .pushN 3), (poolUpTo 4096 4192, .push)] :=
    ⟨.inr (by decide +kernel), .inr (by decide +kernel), .inl (by decide +kernel), trivial⟩
  have harray := (containers_reserve (poolUpTo 4096 4152) (poolUpTo 4096 4152) 0 8 (by decide)).1
  have hlist := (containers_reserve (poolUpTo 4096 4152) (poolUpTo 4096 4160) 1 8 (by decide)).2
  constructor
  · exact (harray 64 ⟨64, 4152, 0, 8, 0⟩ (.inr (by decide +kernel)) _ hfits).1
  · refine ⟨_, rfl, ?_⟩
    exact (hlist (fun _ => ⟨7, 7, some 7⟩) _ (by decide) (.inr rfl) _ (.inl (by decide))).1

/-- An array and a list made with the count 0 hand out a slot they have not reserved: the array
once another request took the memory behind it, the list at its first push. So does an array that
is asked for so many elements that their number wraps. -/
theorem not_containers_reserve :
    (arrayInit (poolUpTo 4096 4152) 64 0 8 = (some ⟨64, 4152, 0, 8, 0⟩, poolUpTo 4096 4152) ∧
      (arrayPush (poolUpTo 4096 4160) ⟨64, 4152, 0, 8, 0⟩).1 = some 4160 ∧
      ¬ (ArrayCall.push.run (poolUpTo 4096 4160) ⟨⟨64, 4152, 0, 8, 0⟩, 0⟩).Ok) ∧
    (∃ l, listInit (poolUpTo 4096 4152) (fun _ => ⟨7, 7, some 7⟩) 0 8 =
        (some l, poolUpTo 4096 4152) ∧
      (listPush (poolUpTo 4096 4152) l).1 = some 4176 ∧
      ¬ (ListReserve.push ⟨l, firstReserved 0⟩ (poolUpTo 4096 4152)).Ok) ∧
    (arrayInit (poolUpTo 4096 4152) 64 1 8 = (some ⟨64, 4152, 0, 8, 1⟩, poolUpTo 4096 4160) ∧
      (arrayPush (poolUpTo 4096 4160) ⟨64, 4152, 0, 8, 1⟩).1 = some 4152 ∧
      (arrayPushN (poolUpTo 4096 4160) ⟨64, 4152, 1, 8, 1⟩ (2 ^ 32 - 1)).1 = some 4160 ∧
      ¬ ((ArrayCall.pushN (2 ^ 32 - 1)).run (poolUpTo 4096 4160) ⟨⟨64, 4152, 1, 8, 1⟩, 8⟩).Inside
        (some 4160) (2 ^ 32 - 1)) := by
  refine ⟨by decide +kernel, ⟨_, rfl, rfl, ?_⟩, rfl, rfl, by decide +kernel, ?_⟩
  · rintro ⟨ps, hchain, hall⟩
    cases ps with
    | nil => cases hchain
    | cons q ps =>
      obtain rfl : 1 = q := Option.some.inj hchain.1
      exact absurd (hall 1 (.tail _ (.head _))).1 (by decide)
  · intro hinside
    obtain ⟨i, -, hi⟩ := hinside 4160 rfl
    have hbytes : ((ArrayCall.pushN (2 ^ 32 - 1)).run (poolUpTo 4096 4160)
        ⟨⟨64, 4152, 1, 8, 1⟩, 8⟩).bytes = 8 := by decide +kernel
    have hsize : ((ArrayCall.pushN (2 ^ 32 - 1)).run (poolUpTo 4096 4160)
        ⟨⟨64, 4152, 1, 8, 1⟩, 8⟩).array.size = 8 := by decide +kernel
    rw [hbytes, hsize] at hi
    omega

end Libcn.Palloc
