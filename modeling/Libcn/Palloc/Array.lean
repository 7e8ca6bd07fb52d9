import Libcn.Palloc.Owned
import Mathlib.Tactic.Ring

/-!
# The arrays of `array.c`

An `array_t` and its elements come from a pool. While the elements are the last allocation of
the first block, the array moves the `last` mark of that block itself.
-/

namespace Libcn.Palloc

open Libcn.Lib

/-! ## The code -/

/-- `array_t`, at the address `addr`. -/
structure Arr where
  addr : ℕ
  elts : ℕ
  nelts : ℕ
  size : ℕ
  nalloc : ℕ
  deriving DecidableEq, Repr

/-- `sizeof(array_t)`. -/
def sizeofArray : ℕ := 40

/-- `p + n` on addresses. -/
def ptrAdd (p n : ℕ) : ℕ := (p + n) % 2 ^ 64

/-- `p->d.last = x`. -/
def PoolMem.setLast (m : PoolMem) (x : ℕ) : PoolMem :=
  { m with pool := { m.pool with
    blocks := m.pool.blocks.modify 0 fun b => { b with last := x } } }

/-- `array_init`. -/
def arrayInit (m : PoolMem) (addr n size : ℕ) : Option Arr × PoolMem :=
  match palloc m (n * size % 2 ^ 64) with
  | (none, m) => (none, m)
  | (some elts, m) => (some ⟨addr, elts, 0, size, n⟩, m)

/-- `array_create`. -/
def arrayCreate (m : PoolMem) (n size : ℕ) : Option Arr × PoolMem :=
  match palloc m sizeofArray with
  | (none, m) => (none, m)
  | (some addr, m) => arrayInit m addr n size

/-- `array_destroy`. -/
def arrayDestroy (m : PoolMem) (a : Arr) : PoolMem :=
  let bytes := a.size * a.nalloc % 2 ^ 64
  let m := if ptrAdd a.elts bytes = m.pool.head.last
    then m.setLast (ptrDiff m.pool.head.last bytes) else m
  if ptrAdd a.addr sizeofArray = m.pool.head.last then m.setLast a.addr else m

/-- What `array_push` does to a full array, and whether it found room. -/
def pushFull (m : PoolMem) (a : Arr) : Bool × PoolMem × Arr :=
  let size := a.size * a.nalloc % 2 ^ 64
  let d := m.pool.head
  if ptrAdd a.elts size = d.last ∧ ptrAdd d.last a.size ≤ d.stop then
    (true, m.setLast (ptrAdd d.last a.size), { a with nalloc := (a.nalloc + 1) % 2 ^ 32 })
  else
    match palloc m (2 * size % 2 ^ 64) with
    | (none, m) => (false, m, a)
    | (some new, m) => (true, m, { a with elts := new, nalloc := a.nalloc * 2 % 2 ^ 32 })

/-- The end of `array_push` and `array_push_n`. -/
def pushEnd (n : ℕ) : Bool × PoolMem × Arr → Option ℕ × PoolMem × Arr
  | (false, m, a) => (none, m, a)
  | (true, m, a) =>
    (some (ptrAdd a.elts (a.size * a.nelts)), m, { a with nelts := (a.nelts + n) % 2 ^ 32 })

/-- `array_push`. -/
def arrayPush (m : PoolMem) (a : Arr) : Option ℕ × PoolMem × Arr :=
  pushEnd 1 (if a.nelts = a.nalloc then pushFull m a else (true, m, a))

/-- What `array_push_n` does to an array without room for `n` more, and whether it found
room. -/
def pushNFull (m : PoolMem) (a : Arr) (n : ℕ) : Bool × PoolMem × Arr :=
  let size := n * a.size % 2 ^ 64
  let d := m.pool.head
  if ptrAdd a.elts (a.size * a.nalloc % 2 ^ 64) = d.last ∧ ptrAdd d.last size ≤ d.stop then
    (true, m.setLast (ptrAdd d.last size), { a with nalloc := (a.nalloc + n) % 2 ^ 32 })
  else
    let nalloc := 2 * (if a.nalloc ≤ n then n else a.nalloc) % 2 ^ 32
    match palloc m (nalloc * a.size % 2 ^ 64) with
    | (none, m) => (false, m, a)
    | (some new, m) => (true, m, { a with elts := new, nalloc := nalloc })

/-- `array_push_n`. -/
def arrayPushN (m : PoolMem) (a : Arr) (n : ℕ) : Option ℕ × PoolMem × Arr :=
  pushEnd n (if a.nalloc < (a.nelts + n) % 2 ^ 32 then pushNFull m a n else (true, m, a))

/-! ## Arrays in order -/

/-- The region of the `array_t`. -/
def Arr.header (a : Arr) : Region := ⟨a.addr, sizeofArray⟩

/-- The region of the elements. -/
def Arr.storage (a : Arr) : Region := ⟨a.elts, a.size * a.nalloc⟩

/-- An array with room for its elements. -/
structure Arr.Ok (a : Arr) : Prop where
  size : 0 < a.size
  nalloc : 0 < a.nalloc
  nelts : a.nelts ≤ a.nalloc
  count : a.nalloc < 2 ^ 32

/-- The elements end at the `last` mark of the first block, with `k` free bytes behind it. -/
def Arr.Extends (a : Arr) (m : PoolMem) (k : ℕ) : Prop :=
  a.storage.stop = m.pool.head.last ∧ m.pool.head.last + k ≤ m.pool.head.stop

instance (a : Arr) (m : PoolMem) (k : ℕ) : Decidable (a.Extends m k) :=
  inferInstanceAs (Decidable (_ ∧ _))

/-- The counts and byte sizes of `array_push` do not wrap. -/
def Arr.PushFits (a : Arr) (m : PoolMem) : Prop :=
  a.nelts = a.nalloc → if a.Extends m a.size then a.nalloc + 1 < 2 ^ 32
    else a.nalloc * 2 < 2 ^ 32 ∧ 2 * (a.size * a.nalloc) < 2 ^ 64

/-- The counts and byte sizes of `array_push_n` do not wrap. -/
def Arr.PushNFits (a : Arr) (m : PoolMem) (n : ℕ) : Prop :=
  n * a.size < 2 ^ 64 ∧ a.nelts + n < 2 ^ 32 ∧
    (a.nalloc < a.nelts + n → if a.Extends m (n * a.size) then a.nalloc + n < 2 ^ 32
      else 2 * max n a.nalloc < 2 ^ 32 ∧ 2 * max n a.nalloc * a.size < 2 ^ 64)

instance (a : Arr) (m : PoolMem) : Decidable (a.PushFits m) :=
  inferInstanceAs (Decidable (_ → _))

instance (a : Arr) (m : PoolMem) (n : ℕ) : Decidable (a.PushNFits m n) :=
  inferInstanceAs (Decidable (_ ∧ _))

variable {size : ℕ} {m : PoolMem} {R : List Region} {a : Arr}

namespace Owned

/-- The first block. -/
lemma head (h : Owned size m R) : m.pool.extents[0]? = some m.pool.head.toExtent := by
  have hcur := h.current
  obtain ⟨b, bs, hblocks⟩ : ∃ b bs, m.pool.blocks = b :: bs := by
    apply List.exists_cons_of_length_pos
    omega
  rw [Pool.extents, Pool.head, hblocks]
  rfl

/-- The regions in use lie among the addresses of a user process. -/
lemma stop_le (h : Owned size m R) {r : Region} (hr : r ∈ R) (hs : 0 < r.size) :
    0 < r.start ∧ r.stop ≤ 2 ^ 63 := by
  rcases h.tidy.placed r hr hs with ⟨i, e, hi, hlow, hhigh⟩ | ⟨hne, hlive, -⟩
  · have := h.tidy.stop_le hi
    have := (h.tidy.block i e hi).high
    have := headerSize_le i
    unfold sizeofPoolData at this
    omega
  · exact ⟨Nat.pos_of_ne_zero hne, h.tidy.bound r hlive⟩

/-- The extents after the first block gets another mark. -/
lemma extents_setLast (m : PoolMem) (x : ℕ) :
    (m.setLast x).pool.extents = Palloc.setLast m.pool.extents 0 x := by
  cases hb : m.pool.blocks with
  | nil => simp [Pool.extents, PoolMem.setLast, Palloc.setLast, hb]
  | cons b bs => simp [Pool.extents, PoolMem.setLast, Palloc.setLast, hb]

lemma setLast (h : Owned size m R) {x : ℕ} {R' : List Region}
    (ht : Tidy size m.heap.live (Palloc.setLast m.pool.extents 0 x) m.pool.large R') :
    Owned size (m.setLast x) R' where
  tidy := by
    rw [extents_setLast]
    exact ht
  max := h.max
  current := by
    simp only [PoolMem.setLast, List.length_modify]
    exact h.current

/-- The region behind which the first block is free grows. -/
lemma grow {n : Region} {k : ℕ} (h : Owned size m (n :: R)) (hpos : 0 < n.size)
    (hstop : n.stop = m.pool.head.last) (hroom : m.pool.head.last + k ≤ m.pool.head.stop) :
    Owned size (m.setLast (m.pool.head.last + k)) (⟨n.start, n.size + k⟩ :: R) :=
  h.setLast (h.tidy.grow h.head hpos hstop hroom)

/-- The region behind which the first block is free is given back. -/
lemma shrink {n : Region} (h : Owned size m (n :: R)) (hpos : 0 < n.size)
    (hstop : n.stop = m.pool.head.last) : Owned size (m.setLast n.start) R :=
  h.setLast (h.tidy.shrink h.head hpos hstop)

end Owned

/-! ## What the array functions leave behind -/

/-- The outcome of `array_create`. -/
inductive Created (size : ℕ) (R : List Region) : Option Arr × PoolMem → Prop
  | null {m' : PoolMem} (owned : Owned size m' R) : Created size R (none, m')
  | array {a : Arr} {m' : PoolMem} (owned : Owned size m' (a.storage :: a.header :: R))
      (ok : a.Ok) (aligned : a.elts % alignment = 0 ∧ a.addr % alignment = 0) :
      Created size R (some a, m')

/-- `array_create`. -/
theorem arrayCreate_spec (h : Owned size m R) {n eltSize : ℕ} (hn : 0 < n) (hn' : n < 2 ^ 32)
    (hsize : 0 < eltSize) (hbytes : n * eltSize < 2 ^ 64) :
    Created size R (arrayCreate m n eltSize) := by
  have hp := palloc_spec h sizeofArray
  unfold arrayCreate
  generalize palloc m sizeofArray = r at hp
  cases hp with
  | null owned => exact .null owned
  | region owned haddr =>
    rename_i addr m₁
    have hp := palloc_spec owned (n * eltSize % 2 ^ 64)
    rw [Nat.mod_eq_of_lt hbytes] at hp
    unfold arrayInit
    simp only [Nat.mod_eq_of_lt hbytes]
    generalize palloc m₁ (n * eltSize) = r at hp
    cases hp with
    | null owned => exact .null (owned.sublist (List.sublist_cons_self _ _))
    | region owned helts =>
      refine .array ?_ ⟨hsize, hn, Nat.zero_le _, hn'⟩ ⟨helts, haddr⟩
      rw [Arr.storage, Nat.mul_comm]
      exact owned

/-- `array_destroy` gives back the elements and the array itself. -/
theorem arrayDestroy_spec (h : Owned size m (a.storage :: a.header :: R)) (hok : a.Ok) :
    Owned size (arrayDestroy m a) R := by
  have hpos : 0 < a.storage.size := Nat.mul_pos hok.size hok.nalloc
  have hpos' : 0 < a.header.size := by simp [Arr.header, sizeofArray]
  have hle := (h.stop_le (.head _) hpos).2
  have hle' := (h.stop_le (.tail _ (.head _)) hpos').2
  unfold Region.stop Arr.storage at hle
  unfold Region.stop Arr.header at hle'
  simp only at hle hle'
  have hbytes : a.size * a.nalloc % 2 ^ 64 = a.size * a.nalloc := Nat.mod_eq_of_lt (by omega)
  have hend : ptrAdd a.elts (a.size * a.nalloc) = a.storage.stop := by
    unfold ptrAdd Region.stop Arr.storage
    simp only
    omega
  have hend' : ptrAdd a.addr sizeofArray = a.header.stop := by
    unfold ptrAdd Region.stop Arr.header
    simp only
    omega
  -- the elements first
  have hfirst : Owned size (if a.storage.stop = m.pool.head.last
      then m.setLast (ptrDiff m.pool.head.last (a.size * a.nalloc)) else m) (a.header :: R) := by
    by_cases hlast : a.storage.stop = m.pool.head.last
    · rw [if_pos hlast]
      have hback : ptrDiff m.pool.head.last (a.size * a.nalloc) = a.storage.start := by
        rw [← hlast]
        unfold ptrDiff Region.stop Arr.storage
        simp only
        omega
      rw [hback]
      exact h.shrink hpos hlast
    · rw [if_neg hlast]
      exact h.sublist (List.sublist_cons_self _ _)
  unfold arrayDestroy
  simp only [hbytes, hend, hend']
  generalize (if a.storage.stop = m.pool.head.last
    then m.setLast (ptrDiff m.pool.head.last (a.size * a.nalloc)) else m) = m' at hfirst
  split
  · rename_i hlast
    exact hfirst.shrink hpos' hlast
  · exact hfirst.sublist (List.sublist_cons_self _ _)

/-- The storage an array moved away from, which stays handed out. -/
def Arr.left (a a' : Arr) : List Region := if a'.elts = a.elts then [] else [a.storage]

/-- The array `a` has become `a'`, with room for `k` more elements if it was found. -/
structure Roomy (size : ℕ) (R : List Region) (a : Arr) (k : ℕ) (found : Bool) (m' : PoolMem)
    (a' : Arr) : Prop where
  owned : Owned size m' (a'.storage :: (a.left a' ++ R))
  ok : a'.Ok
  same : a'.addr = a.addr ∧ a'.nelts = a.nelts
  aligned : a.elts % alignment = 0 → a'.elts % alignment = 0
  room : found = true → a'.nelts + k ≤ a'.nalloc

/-- An array that is left as it is. -/
lemma Roomy.refl (h : Owned size m (a.storage :: R)) (hok : a.Ok) {k : ℕ} {found : Bool}
    (hroom : found = true → a.nelts + k ≤ a.nalloc) : Roomy size R a k found m a where
  owned := by
    rw [Arr.left, if_pos rfl]
    exact h
  ok := hok
  same := ⟨rfl, rfl⟩
  aligned := id
  room := hroom

/-- An array that grows where it is. -/
lemma Roomy.grow (h : Owned size m (a.storage :: R)) (hok : a.Ok) {k : ℕ}
    (hext : a.Extends m (k * a.size)) (hcount : a.nalloc + k < 2 ^ 32) :
    Roomy size R a k true (m.setLast (m.pool.head.last + k * a.size))
      { a with nalloc := a.nalloc + k } where
  owned := by
    rw [Arr.left, if_pos rfl]
    have hg := h.grow (Nat.mul_pos hok.size hok.nalloc) hext.1 hext.2
    have hbytes : a.size * a.nalloc + k * a.size = a.size * (a.nalloc + k) := by ring
    simp only [Arr.storage, hbytes] at hg
    exact hg
  ok := ⟨hok.size, Nat.add_pos_left hok.nalloc k, hok.nelts.trans (Nat.le_add_right _ _), hcount⟩
  same := ⟨rfl, rfl⟩
  aligned := id
  room _ := Nat.add_le_add_right hok.nelts k

/-- An array that moves to other storage. -/
lemma Roomy.move {new n k : ℕ} {m' : PoolMem}
    (h : Owned size m' (⟨new, a.size * n⟩ :: a.storage :: R)) (hnew : new % alignment = 0)
    (hok : a.Ok) (hn : a.nelts + k ≤ n) (hpos : 0 < n) (hcount : n < 2 ^ 32) :
    Roomy size R a k true m' { a with elts := new, nalloc := n } where
  owned := by
    have hne : new ≠ a.elts := by
      have hapart := (List.pairwise_cons.mp h.tidy.apart).1 a.storage (.head _)
      have h₁ := Nat.mul_pos hok.size hok.nalloc
      have h₂ := Nat.mul_pos hok.size hpos
      unfold Region.Apart Region.stop Arr.storage at hapart
      simp only at hapart
      omega
    rw [Arr.left, if_neg hne]
    exact h
  ok := ⟨hok.size, hpos, by simp only; omega, hcount⟩
  same := ⟨rfl, rfl⟩
  aligned _ := hnew
  room _ := hn

/-- The test of the code on the end of the elements and the room behind them. -/
lemma extends_iff (h : Owned size m (a.storage :: R)) (hok : a.Ok) {k : ℕ}
    (hk : ¬ a.Extends m k → k < 2 ^ 63) :
    (ptrAdd a.elts (a.size * a.nalloc % 2 ^ 64) = m.pool.head.last ∧
      ptrAdd m.pool.head.last k ≤ m.pool.head.stop ↔ a.Extends m k) ∧
    (a.Extends m k → ptrAdd m.pool.head.last k = m.pool.head.last + k) := by
  obtain ⟨hstart, hle⟩ := h.stop_le (.head _) (Nat.mul_pos hok.size hok.nalloc)
  have hstop := h.tidy.stop_le h.head
  have hhigh := (h.tidy.block _ _ h.head).high
  unfold Arr.Extends at *
  unfold Region.stop Arr.storage at *
  simp only at *
  unfold ptrAdd
  have hbytes : a.size * a.nalloc % 2 ^ 64 = a.size * a.nalloc := Nat.mod_eq_of_lt (by omega)
  rw [hbytes]
  generalize a.size * a.nalloc = bytes at *
  constructor
  · by_cases hext : a.elts + bytes = m.pool.head.last ∧ m.pool.head.last + k ≤ m.pool.head.stop
    · omega
    · have := hk hext
      omega
  · rintro ⟨_, _⟩
    omega

/-- A full array gets room for one more element, or stays as it is. -/
lemma pushFull_spec (h : Owned size m (a.storage :: R)) (hok : a.Ok) (hfull : a.nelts = a.nalloc)
    (hfits : a.PushFits m) :
    Roomy size R a 1 (pushFull m a).1 (pushFull m a).2.1 (pushFull m a).2.2 := by
  have hfits := hfits hfull
  have hsize : a.size < 2 ^ 63 := by
    obtain ⟨hstart, hle⟩ := h.stop_le (.head _) (Nat.mul_pos hok.size hok.nalloc)
    have := Nat.le_mul_of_pos_right a.size hok.nalloc
    unfold Region.stop Arr.storage at *
    simp only at *
    omega
  obtain ⟨hiff, hadd⟩ := extends_iff h hok fun _ => hsize
  unfold pushFull
  by_cases hext : a.Extends m a.size
  · rw [if_pos hext] at hfits
    rw [if_pos (hiff.mpr hext), hadd hext, Nat.mod_eq_of_lt hfits]
    have := Roomy.grow h hok (k := 1) (by rwa [Nat.one_mul]) hfits
    rwa [Nat.one_mul] at this
  · rw [if_neg hext] at hfits
    rw [if_neg (hiff.not.mpr hext)]
    have hbytes : a.size * a.nalloc % 2 ^ 64 = a.size * a.nalloc := Nat.mod_eq_of_lt (by omega)
    rw [hbytes, Nat.mod_eq_of_lt hfits.2, Nat.mod_eq_of_lt hfits.1]
    have hp := palloc_spec h (2 * (a.size * a.nalloc))
    generalize palloc m (2 * (a.size * a.nalloc)) = r at hp
    cases hp with
    | null owned => exact .refl owned hok (by simp)
    | region owned hnew =>
      have hpos := hok.nalloc
      have htwice : 2 * (a.size * a.nalloc) = a.size * (a.nalloc * 2) := by ring
      rw [htwice] at owned
      refine .move owned hnew hok ?_ ?_ hfits.1 <;> omega

/-- An array gets room for `n` more elements, or stays as it is. -/
lemma pushNFull_spec (h : Owned size m (a.storage :: R)) (hok : a.Ok) {n : ℕ}
    (hfull : a.nalloc < a.nelts + n) (hfits : a.PushNFits m n) :
    Roomy size R a n (pushNFull m a n).1 (pushNFull m a n).2.1 (pushNFull m a n).2.2 := by
  obtain ⟨hbytes, -, hfits⟩ := hfits
  have hfits := hfits hfull
  have hsmall : ¬ a.Extends m (n * a.size) → n * a.size < 2 ^ 63 := by
    intro hext
    rw [if_neg hext] at hfits
    have := Nat.mul_le_mul_right a.size (Nat.mul_le_mul_left 2 (Nat.le_max_left n a.nalloc))
    have := Nat.mul_assoc 2 n a.size
    omega
  obtain ⟨hiff, hadd⟩ := extends_iff h hok hsmall
  unfold pushNFull
  simp only [Nat.mod_eq_of_lt hbytes]
  by_cases hext : a.Extends m (n * a.size)
  · rw [if_pos hext] at hfits
    rw [if_pos (hiff.mpr hext), hadd hext, Nat.mod_eq_of_lt hfits]
    exact .grow h hok hext hfits
  · rw [if_neg hext] at hfits
    rw [if_neg (hiff.not.mpr hext)]
    have hmax : (if a.nalloc ≤ n then n else a.nalloc) = max n a.nalloc := by
      split <;> omega
    rw [hmax, Nat.mod_eq_of_lt hfits.1, Nat.mod_eq_of_lt hfits.2]
    have hp := palloc_spec h (2 * max n a.nalloc * a.size)
    generalize palloc m (2 * max n a.nalloc * a.size) = r at hp
    cases hp with
    | null owned => exact .refl owned hok (by simp)
    | region owned hnew =>
      have hnelts := hok.nelts
      have hpos := hok.nalloc
      rw [Nat.mul_comm _ a.size] at owned
      refine .move owned hnew hok ?_ ?_ hfits.1 <;> omega

/-- The outcome of a push. -/
structure Pushed (size : ℕ) (R : List Region) (a : Arr) (r : Option ℕ × PoolMem × Arr) :
    Prop where
  owned : Owned size r.2.1 (r.2.2.storage :: (a.left r.2.2 ++ R))
  ok : r.2.2.Ok
  same : r.2.2.addr = a.addr
  aligned : a.elts % alignment = 0 → r.2.2.elts % alignment = 0

/-- The end of `array_push` and `array_push_n`. -/
lemma Roomy.pushed {n : ℕ} {r : Bool × PoolMem × Arr} (h : Roomy size R a n r.1 r.2.1 r.2.2) :
    Pushed size R a (pushEnd n r) := by
  obtain ⟨found, m', a'⟩ := r
  cases found with
  | false => exact ⟨h.owned, h.ok, h.same.1, h.aligned⟩
  | true =>
    have hroom := h.room rfl
    have hcount := h.ok.count
    refine ⟨h.owned, ⟨h.ok.size, h.ok.nalloc, ?_, hcount⟩, h.same.1, h.aligned⟩
    simp only [pushEnd] at hroom hcount ⊢
    omega

/-- `array_push`. -/
theorem arrayPush_spec (h : Owned size m (a.storage :: R)) (hok : a.Ok) (hfits : a.PushFits m) :
    Pushed size R a (arrayPush m a) := by
  apply Roomy.pushed
  by_cases hfull : a.nelts = a.nalloc
  · rw [if_pos hfull]
    exact pushFull_spec h hok hfull hfits
  · rw [if_neg hfull]
    have := hok.nelts
    exact .refl h hok fun _ => by omega

/-- `array_push_n`. -/
theorem arrayPushN_spec (h : Owned size m (a.storage :: R)) (hok : a.Ok) {n : ℕ}
    (hfits : a.PushNFits m n) : Pushed size R a (arrayPushN m a n) := by
  apply Roomy.pushed
  rw [Nat.mod_eq_of_lt hfits.2.1]
  by_cases hfull : a.nalloc < a.nelts + n
  · rw [if_pos hfull]
    exact pushNFull_spec h hok hfull hfits
  · rw [if_neg hfull]
    exact .refl h hok fun _ => by omega

end Libcn.Palloc
