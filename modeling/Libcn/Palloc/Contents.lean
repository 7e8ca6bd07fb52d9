import Libcn.Palloc.Session

/-!
# What an array contains

The elements of an array, byte by byte, while it grows in place or moves. The functions of the
pool write the headers of its blocks and its cells, the system allocator writes outside the live
allocations, and the functions of the array write the `array_t` and copy the elements. What they
write besides the copies is arbitrary here.
-/

namespace Libcn.Palloc

open Libcn.Lib

/-! ## Memory -/

/-- The memory, by address. -/
abbrev Bytes := ℕ → UInt8

/-- `memcpy`. -/
def memcpy (b : Bytes) (dst src n : ℕ) : Bytes := fun p =>
  if dst ≤ p ∧ p < dst + n then b (src + (p - dst)) else b p

/-- The copy `array_push` makes of a full array. -/
def pushFullCopy (b : Bytes) (m : PoolMem) (a : Arr) : Bytes :=
  let size := a.size * a.nalloc % 2 ^ 64
  let d := m.pool.head
  if ptrAdd a.elts size = d.last ∧ ptrAdd d.last a.size ≤ d.stop then b
  else
    match (palloc m (2 * size % 2 ^ 64)).1 with
    | none => b
    | some new => memcpy b new a.elts size

/-- The memory after `array_push`. -/
def arrayPushCopy (b : Bytes) (m : PoolMem) (a : Arr) : Bytes :=
  if a.nelts = a.nalloc then pushFullCopy b m a else b

/-- The copy `array_push_n` makes of an array without room. -/
def pushNFullCopy (b : Bytes) (m : PoolMem) (a : Arr) (n : ℕ) : Bytes :=
  let size := n * a.size % 2 ^ 64
  let d := m.pool.head
  if ptrAdd a.elts (a.size * a.nalloc % 2 ^ 64) = d.last ∧ ptrAdd d.last size ≤ d.stop then b
  else
    let nalloc := 2 * (if a.nalloc ≤ n then n else a.nalloc) % 2 ^ 32
    match (palloc m (nalloc * a.size % 2 ^ 64)).1 with
    | none => b
    | some new => memcpy b new a.elts (a.nelts * a.size % 2 ^ 64)

/-- The memory after `array_push_n`. -/
def arrayPushNCopy (b : Bytes) (m : PoolMem) (a : Arr) (n : ℕ) : Bytes :=
  if a.nalloc < (a.nelts + n) % 2 ^ 32 then pushNFullCopy b m a n else b

/-- The address lies in the region. -/
def Holds (r : Region) (p : ℕ) : Prop := r.start ≤ p ∧ p < r.stop

instance (r : Region) (p : ℕ) : Decidable (Holds r p) := inferInstanceAs (Decidable (_ ∧ _))

/-- The headers of the blocks, and the cells. -/
def PoolMem.meta (m : PoolMem) : List Region :=
  m.pool.blocks.mapIdx (fun i b => ⟨b.addr, headerSize i⟩) ++ m.pool.large.map Cell.region

/-- The memory after the pool and the system allocator wrote `junk` where they may, and the
functions of the array in the `array_t`. -/
def settle (m : PoolMem) (header : List Region) (b junk : Bytes) : Bytes := fun p =>
  if (∃ r ∈ m.meta ++ header, Holds r p) ∨ ∀ r ∈ m.heap.live, ¬ Holds r p then junk p else b p

/-! ## Runs -/

/-- A pool, the memory, the regions handed out besides those of the array, the `array_t` if it
came from `array_create`, the array, and for each element what was last written to its bytes. -/
structure ListSession where
  mem : PoolMem
  bytes : Bytes
  held : List Region
  header : List Region
  array : Option Arr
  written : List (ℕ → Option UInt8)

/-- An element to which nothing was written. -/
def blank : ℕ → Option UInt8 := fun _ => none

namespace ListSession

/-- Everything handed out. -/
def regions (s : ListSession) : List Region :=
  s.array.toList.map Arr.storage ++ (s.header ++ s.held)

/-- The session after a request for `n` bytes. -/
def grant (s : ListSession) (junk : Bytes) (n : ℕ) (r : Option ℕ × PoolMem) : ListSession :=
  { s with
    mem := r.2
    bytes := settle r.2 s.header s.bytes junk
    held := (r.1.map (⟨·, n⟩)).toList ++ s.held }

/-- The session after an array was made. -/
def made (s : ListSession) (junk : Bytes) (header : Arr → List Region)
    (r : Option Arr × PoolMem) : ListSession :=
  let header := (r.1.map header).getD []
  { s with
    mem := r.2
    bytes := settle r.2 header s.bytes junk
    header := header
    array := r.1
    written := [] }

/-- The session after `n` elements were pushed on the array `a`. Storage the array moved away
from stays handed out. -/
def pushed (s : ListSession) (junk : Bytes) (n : ℕ) (a : Arr) (copy : Bytes → Bytes)
    (r : Option ℕ × PoolMem × Arr) : ListSession where
  mem := r.2.1
  bytes := copy (settle r.2.1 s.header s.bytes junk)
  held := a.left r.2.2 ++ s.held
  header := s.header
  array := some r.2.2
  written := if r.1 = none then s.written else s.written ++ List.replicate n blank

/-- What was written to the elements after a byte was written at the address `p`. -/
def noted (s : ListSession) (p : ℕ) (v : UInt8) : List (ℕ → Option UInt8) :=
  match s.array with
  | none => s.written
  | some a =>
    if Holds ⟨a.elts, a.size * a.nelts⟩ p then
      s.written.modify ((p - a.elts) / a.size) fun f =>
        Function.update f ((p - a.elts) % a.size) (some v)
    else s.written

end ListSession

/-- One step: a call, with what it writes besides the copies, or a byte written by the caller. -/
inductive ListOp
  | palloc (n : ℕ) (junk : Bytes)
  | pnalloc (n : ℕ) (junk : Bytes)
  | arrayCreate (n size : ℕ) (junk : Bytes)
  | arrayInit (addr n size : ℕ) (junk : Bytes)
  | arrayPush (junk : Bytes)
  | arrayPushN (n : ℕ) (junk : Bytes)
  | write (p : ℕ) (v : UInt8)

/-- The session after a step. -/
def ListOp.run (s : ListSession) : ListOp → ListSession
  | .palloc n junk => s.grant junk n (Palloc.palloc s.mem n)
  | .pnalloc n junk => s.grant junk n (Palloc.pnalloc s.mem n)
  | .arrayCreate n size junk => s.made junk (fun a => [a.header]) (Palloc.arrayCreate s.mem n size)
  | .arrayInit addr n size junk => s.made junk (fun _ => []) (Palloc.arrayInit s.mem addr n size)
  | .arrayPush junk =>
    match s.array with
    | none => s
    | some a => s.pushed junk 1 a (arrayPushCopy · s.mem a) (Palloc.arrayPush s.mem a)
  | .arrayPushN n junk =>
    match s.array with
    | none => s
    | some a => s.pushed junk n a (arrayPushNCopy · s.mem a n) (Palloc.arrayPushN s.mem a n)
  | .write p v => { s with bytes := Function.update s.bytes p v, written := s.noted p v }

/-- The array has fewer than 2^31 elements after `n` are pushed, and the byte sizes do not wrap. -/
def Arr.ListFits (a : Arr) (m : PoolMem) (n : ℕ) : Prop :=
  a.nelts + n < 2 ^ 31 ∧ n * a.size < 2 ^ 64 ∧
    (a.nalloc < a.nelts + n → ¬ a.Extends m (n * a.size) → 2 * max n a.nalloc * a.size < 2 ^ 64)

instance (a : Arr) (m : PoolMem) (n : ℕ) : Decidable (a.ListFits m n) :=
  inferInstanceAs (Decidable (_ ∧ _))

/-- There is one array, its byte sizes do not wrap, and the caller writes to what it was handed
out. -/
def ListOp.Allowed (s : ListSession) : ListOp → Prop
  | .palloc _ _ => True
  | .pnalloc _ _ => True
  | .arrayCreate n size _ =>
    s.array = none ∧ 0 < n ∧ n < 2 ^ 32 ∧ 0 < size ∧ n * size < 2 ^ 64
  | .arrayInit _ n size _ =>
    s.array = none ∧ 0 < n ∧ n < 2 ^ 32 ∧ 0 < size ∧ n * size < 2 ^ 64
  | .arrayPush _ => ∃ a ∈ s.array, a.nelts + 1 < 2 ^ 31
  | .arrayPushN n _ => ∃ a ∈ s.array, a.ListFits s.mem n
  | .write p _ =>
    (∃ r ∈ s.held, Holds r p) ∨ ∃ a ∈ s.array, Holds ⟨a.elts, a.size * a.nelts⟩ p

instance (s : ListSession) : (op : ListOp) → Decidable (op.Allowed s)
  | .palloc _ _ => .isTrue trivial
  | .pnalloc _ _ => .isTrue trivial
  | .arrayCreate _ _ _ => inferInstanceAs (Decidable (_ ∧ _))
  | .arrayInit _ _ _ _ => inferInstanceAs (Decidable (_ ∧ _))
  | .arrayPush _ => inferInstanceAs (Decidable (∃ a ∈ s.array, a.nelts + 1 < 2 ^ 31))
  | .arrayPushN n _ => inferInstanceAs (Decidable (∃ a ∈ s.array, a.ListFits s.mem n))
  | .write p _ => inferInstanceAs (Decidable
      ((∃ r ∈ s.held, Holds r p) ∨ ∃ a ∈ s.array, Holds ⟨a.elts, a.size * a.nelts⟩ p))

/-- A sequence of allowed steps. -/
def ListRun (s : ListSession) : List ListOp → Prop
  | [] => True
  | op :: ops => op.Allowed s ∧ ListRun (op.run s) ops

instance decidableListRun : (s : ListSession) → (ops : List ListOp) → Decidable (ListRun s ops)
  | _, [] => .isTrue trivial
  | s, op :: ops =>
    have := decidableListRun (op.run s) ops
    inferInstanceAs (Decidable (op.Allowed s ∧ ListRun (op.run s) ops))

/-- The session after a sequence of steps. -/
def runList (s : ListSession) (ops : List ListOp) : ListSession := ops.foldl ListOp.run s

/-! ## The law -/

/-- A push of `n` elements: NULL leaves the array and the memory as they are; otherwise the
address is that of the element after the last one, and the storage has room. -/
def Appends (a : Arr) (n : ℕ) (copy : Bytes → Bytes) (r : Option ℕ × PoolMem × Arr) : Prop :=
  (r.1 = none → r.2.2 = a ∧ ∀ b, copy b = b) ∧
    ∀ p, r.1 = some p → p = r.2.2.elts + a.size * a.nelts ∧ r.2.2.size = a.size ∧
      r.2.2.nelts = a.nelts + n ∧ r.2.2.nelts ≤ r.2.2.nalloc

/-- The array is the list of what was written to its elements, and its pushes append to it. -/
structure ListLaw (s : ListSession) (a : Arr) : Prop where
  length : s.written.length = a.nelts
  contents : ∀ (i o : ℕ) f v, s.written[i]? = some f → o < a.size → f o = some v →
    s.bytes (a.elts + a.size * i + o) = v
  push : a.nelts + 1 < 2 ^ 31 → Appends a 1 (arrayPushCopy · s.mem a) (arrayPush s.mem a)
  pushN : ∀ n, a.ListFits s.mem n →
    Appends a n (arrayPushNCopy · s.mem a n) (arrayPushN s.mem a n)

/-! ## What a call writes -/

variable {size : ℕ} {m : PoolMem} {R : List Region} {a : Arr}

lemma not_holds_of_apart {r r' : Region} {p : ℕ} (h : r.Apart r') (hp : Holds r p) :
    ¬ Holds r' p := by
  unfold Region.Apart at h
  unfold Holds Region.stop at *
  omega

/-- What is handed out keeps its contents. -/
lemma settle_eq (h : Owned size m R) {r : Region} (hr : r ∈ R) {p : ℕ} (hp : Holds r p)
    {header : List Region} (hheader : ∀ g ∈ header, r.Apart g) (b junk : Bytes) :
    settle m header b junk p = b p := by
  refine if_neg ?_
  rintro (⟨g, hg, hgp⟩ | hlive)
  · -- the headers, the cells and the `array_t` are disjoint from what is handed out
    have hapart : r.Apart g := by
      rcases List.mem_append.mp hg with hg | hg
      · rcases List.mem_append.mp hg with hg | hg
        · obtain ⟨i, hi, rfl⟩ := List.mem_mapIdx.mp hg
          have hblock : m.pool.extents[i]? = some (m.pool.blocks[i]).toExtent := by
            simp [Pool.extents, hi]
          exact (h.tidy.apart_header hblock hr).symm
        · exact (List.pairwise_append.mp h.tidy.apart).2.2 r hr g hg
      · exact hheader g hg
    exact not_holds_of_apart hapart hp hgp
  · have hpos : 0 < r.size := by
      unfold Holds Region.stop at hp
      omega
    rcases h.tidy.placed r hr hpos with ⟨i, e, hi, hlow, hhigh⟩ | ⟨-, hmem, -⟩
    · have hb := h.tidy.block i e hi
      refine hlive _ hb.live ?_
      have hend := hb.stop
      have := hb.high
      unfold Holds Region.stop at *
      simp only
      omega
    · exact hlive r hmem hp

/-! ## What a push copies -/

/-- The elements are carried over when `a` becomes `a'`. -/
structure Carried (a : Arr) (copy : Bytes → Bytes) (found : Bool) (a' : Arr) : Prop where
  size : a'.size = a.size
  stay : found = false → a' = a ∧ ∀ b, copy b = b
  bytes : ∀ b x, x < a.size * a.nelts → copy b (a'.elts + x) = b (a.elts + x)

lemma Carried.refl (a : Arr) (found : Bool) : Carried a id found a :=
  ⟨rfl, fun _ => ⟨rfl, fun _ => rfl⟩, fun _ _ _ => rfl⟩

lemma memcpy_apply (b : Bytes) (dst src : ℕ) {n x : ℕ} (hx : x < n) :
    memcpy b dst src n (dst + x) = b (src + x) := by
  rw [memcpy, if_pos ⟨Nat.le_add_right _ _, Nat.add_lt_add_left hx _⟩, Nat.add_sub_cancel_left]

/-- The storage of an array is smaller than the address space of a process. -/
lemma storage_lt (h : Owned size m (a.storage :: R)) (hok : a.Ok) : a.size * a.nalloc < 2 ^ 63 := by
  obtain ⟨hstart, hle⟩ := h.stop_le (.head _) (Nat.mul_pos hok.size hok.nalloc)
  unfold Region.stop Arr.storage at *
  simp only at *
  omega

/-- `array_push` copies the elements of a full array that moves. -/
lemma pushFull_carried (h : Owned size m (a.storage :: R)) (hok : a.Ok) :
    Carried a (pushFullCopy · m a) (pushFull m a).1 (pushFull m a).2.2 := by
  have hlt := storage_lt h hok
  have hle := Nat.mul_le_mul_left a.size hok.nelts
  simp only [pushFullCopy, pushFull]
  split_ifs
  · exact ⟨rfl, (fun e => by cases e), fun _ _ _ => rfl⟩
  · rcases palloc m (2 * (a.size * a.nalloc % 2 ^ 64) % 2 ^ 64) with ⟨_ | new, m'⟩
    · exact ⟨rfl, fun _ => ⟨rfl, fun _ => rfl⟩, fun _ _ _ => rfl⟩
    · refine ⟨rfl, (fun e => by cases e), fun b x hx => memcpy_apply b _ _ ?_⟩
      rw [Nat.mod_eq_of_lt (by omega)]
      omega

/-- `array_push_n` copies the elements of an array that moves. -/
lemma pushNFull_carried (h : Owned size m (a.storage :: R)) (hok : a.Ok) (n : ℕ) :
    Carried a (pushNFullCopy · m a n) (pushNFull m a n).1 (pushNFull m a n).2.2 := by
  have hlt := storage_lt h hok
  have hle := Nat.mul_le_mul_left a.size hok.nelts
  simp only [pushNFullCopy, pushNFull]
  split_ifs
  · exact ⟨rfl, (fun e => by cases e), fun _ _ _ => rfl⟩
  all_goals
    generalize palloc m _ = r
    rcases r with ⟨_ | new, m'⟩
    · exact ⟨rfl, fun _ => ⟨rfl, fun _ => rfl⟩, fun _ _ _ => rfl⟩
    · refine ⟨rfl, (fun e => by cases e), fun b x hx => memcpy_apply b _ _ ?_⟩
      rw [Nat.mul_comm a.nelts, Nat.mod_eq_of_lt (by omega)]
      exact hx

/-- The outcome of a push on the array, its contents included. -/
structure Filled (size : ℕ) (R : List Region) (a : Arr) (n : ℕ) (copy : Bytes → Bytes)
    (r : Option ℕ × PoolMem × Arr) : Prop where
  pushed : Pushed size R a r
  appends : Appends a n copy r
  size : r.2.2.size = a.size
  bytes : ∀ b x, x < a.size * a.nelts → copy b (r.2.2.elts + x) = b (a.elts + x)

/-- The end of `array_push` and `array_push_n`. -/
lemma Roomy.filled {n : ℕ} {copy : Bytes → Bytes} {r : Bool × PoolMem × Arr}
    (h : Roomy size R a n r.1 r.2.1 r.2.2) (hc : Carried a copy r.1 r.2.2) :
    Filled size R a n copy (pushEnd n r) := by
  have hpushed := h.pushed
  obtain ⟨found, m', a'⟩ := r
  cases found with
  | false =>
    exact ⟨hpushed, ⟨fun _ => hc.stay rfl, fun p hp => by cases hp⟩, hc.size, hc.bytes⟩
  | true =>
    have hroom := h.room rfl
    have hcount := h.ok.count
    have hlt := storage_lt h.owned h.ok
    have hend := (h.owned.stop_le (.head _) (Nat.mul_pos h.ok.size h.ok.nalloc)).2
    have hle := Nat.mul_le_mul_left a'.size h.ok.nelts
    have hsame : a'.nelts = a.nelts := h.same.2
    have hsize : a'.size = a.size := hc.size
    simp only at hroom hcount hlt hle
    refine ⟨hpushed, ⟨(fun e => by cases e), fun p hp => ?_⟩, hc.size, hc.bytes⟩
    obtain rfl := Option.some.inj hp
    have hnelts : (a'.nelts + n) % 2 ^ 32 = a.nelts + n := by
      rw [hsame, Nat.mod_eq_of_lt (by omega)]
    refine ⟨?_, hsize, hnelts, ?_⟩
    · rw [← hsize, ← hsame]
      unfold Region.stop Arr.storage at hend
      simp only at hend
      show (a'.elts + a'.size * a'.nelts) % 2 ^ 64 = a'.elts + a'.size * a'.nelts
      omega
    · show (a'.nelts + n) % 2 ^ 32 ≤ a'.nalloc
      omega

/-- `array_push`. -/
lemma arrayPush_filled (h : Owned size m (a.storage :: R)) (hok : a.Ok)
    (hfits : a.nelts + 1 < 2 ^ 31) :
    Filled size R a 1 (arrayPushCopy · m a) (arrayPush m a) := by
  have hlt := storage_lt h hok
  by_cases hfull : a.nelts = a.nalloc
  · have hp : a.PushFits m := by
      intro _
      split_ifs <;> omega
    have hcopy : (arrayPushCopy · m a) = (pushFullCopy · m a) := by
      funext b
      exact if_pos hfull
    rw [hcopy, arrayPush, if_pos hfull]
    exact (pushFull_spec h hok hfull hp).filled (pushFull_carried h hok)
  · have hcopy : (arrayPushCopy · m a) = id := by
      funext b
      exact if_neg hfull
    rw [hcopy, arrayPush, if_neg hfull]
    have hle := hok.nelts
    exact (Roomy.refl h hok fun _ => by omega).filled (.refl a true)

/-- The counts of `array_push_n` do not wrap either. -/
lemma Arr.ListFits.pushNFits {n : ℕ} (h : a.ListFits m n) : a.PushNFits m n := by
  obtain ⟨hcount, hbytes, hmove⟩ := h
  refine ⟨hbytes, by omega, fun hfull => ?_⟩
  split_ifs with hext
  · omega
  · exact ⟨by omega, hmove hfull hext⟩

/-- `array_push_n`. -/
lemma arrayPushN_filled (h : Owned size m (a.storage :: R)) (hok : a.Ok) {n : ℕ}
    (hfits : a.ListFits m n) : Filled size R a n (arrayPushNCopy · m a n) (arrayPushN m a n) := by
  have hmod : (a.nelts + n) % 2 ^ 32 = a.nelts + n := by
    have := hfits.1
    omega
  by_cases hfull : a.nalloc < a.nelts + n
  · have hcopy : (arrayPushNCopy · m a n) = (pushNFullCopy · m a n) := by
      funext b
      rw [arrayPushNCopy, hmod, if_pos hfull]
    rw [hcopy, arrayPushN, hmod, if_pos hfull]
    exact (pushNFull_spec h hok hfull hfits.pushNFits).filled (pushNFull_carried h hok n)
  · have hcopy : (arrayPushNCopy · m a n) = id := by
      funext b
      rw [arrayPushNCopy, hmod, if_neg hfull]
      rfl
    rw [hcopy, arrayPushN, hmod, if_neg hfull]
    exact (Roomy.refl h hok fun _ => by omega).filled (.refl a true)

/-! ## New arrays -/

/-- The outcome of `array_create` and `array_init`: an array without elements, or none. -/
structure Made (size : ℕ) (R : List Region) (header : Arr → List Region)
    (r : Option Arr × PoolMem) : Prop where
  owned : Owned size r.2 (r.1.toList.map Arr.storage ++ ((r.1.map header).getD [] ++ R))
  ok : ∀ a ∈ r.1, a.Ok ∧ a.nelts = 0

lemma arrayInit_nelts (m : PoolMem) (addr n eltSize : ℕ) :
    ∀ a ∈ (arrayInit m addr n eltSize).1, a.nelts = 0 := by
  rw [arrayInit]
  rcases palloc m (n * eltSize % 2 ^ 64) with ⟨_ | elts, m'⟩
  · rintro a ⟨⟩
  · rintro a ⟨⟩
    rfl

/-- `array_init`. -/
lemma arrayInit_made (h : Owned size m R) (addr : ℕ) {n eltSize : ℕ} (hn : 0 < n)
    (hn' : n < 2 ^ 32) (hsize : 0 < eltSize) (hbytes : n * eltSize < 2 ^ 64) :
    Made size R (fun _ => []) (arrayInit m addr n eltSize) := by
  have hp := palloc_spec h (n * eltSize)
  rw [arrayInit, Nat.mod_eq_of_lt hbytes]
  generalize palloc m (n * eltSize) = r at hp
  cases hp with
  | null owned => exact ⟨owned, fun a ha => by cases ha⟩
  | region owned helts =>
    refine ⟨?_, ?_⟩
    · show Owned size _ (⟨_, eltSize * n⟩ :: R)
      rw [Nat.mul_comm]
      exact owned
    · rintro a ⟨⟩
      exact ⟨⟨hsize, hn, Nat.zero_le _, hn'⟩, rfl⟩

/-- `array_create`. -/
lemma arrayCreate_made (h : Owned size m R) {n eltSize : ℕ} (hn : 0 < n) (hn' : n < 2 ^ 32)
    (hsize : 0 < eltSize) (hbytes : n * eltSize < 2 ^ 64) :
    Made size R (fun a => [a.header]) (arrayCreate m n eltSize) := by
  have hc := arrayCreate_spec h hn hn' hsize hbytes
  have hnelts : ∀ a ∈ (arrayCreate m n eltSize).1, a.nelts = 0 := by
    rw [arrayCreate]
    rcases palloc m sizeofArray with ⟨_ | addr, m'⟩
    · rintro a ⟨⟩
    · exact arrayInit_nelts m' addr n eltSize
  generalize arrayCreate m n eltSize = r at hc hnelts
  cases hc with
  | null owned => exact ⟨owned, fun a ha => by cases ha⟩
  | array owned ok _ =>
    refine ⟨owned, ?_⟩
    rintro a ⟨⟩
    exact ⟨ok, hnelts _ rfl⟩

/-! ## One step -/

/-- The elements contain what was last written to them. -/
def Contains (b : Bytes) (a : Arr) (written : List (ℕ → Option UInt8)) : Prop :=
  ∀ (i o : ℕ) f v, written[i]? = some f → o < a.size → f o = some v →
    b (a.elts + a.size * i + o) = v

/-- The invariant of a run. -/
structure ListSession.Inv (size : ℕ) (s : ListSession) : Prop where
  owned : Owned size s.mem s.regions
  ok : ∀ a ∈ s.array, a.Ok
  length : ∀ a ∈ s.array, s.written.length = a.nelts
  contents : ∀ a ∈ s.array, Contains s.bytes a s.written

/-- A byte of an element lies in the first part of the storage. -/
lemma elem_lt {i o n k : ℕ} (hi : i < n) (ho : o < k) : k * i + o < k * n := by
  calc k * i + o < k * i + k := Nat.add_lt_add_left ho _
    _ = k * (i + 1) := rfl
    _ ≤ k * n := Nat.mul_le_mul_left k hi

namespace ListSession

variable {s : ListSession}

/-- What is handed out with an array. -/
lemma regions_some (ha : s.array = some a) :
    s.regions = a.storage :: (s.header ++ s.held) := by
  rw [regions, ha]
  rfl

namespace Inv

/-- The contents survive a change of memory that the elements do not notice. -/
lemma congr {b b' : Bytes} {a' : Arr} {written : List (ℕ → Option UInt8)}
    (h : Contains b a written) (hlen : written.length = a.nelts) (hsize : a'.size = a.size)
    (hb : ∀ x, x < a.size * a.nelts → b' (a'.elts + x) = b (a.elts + x)) :
    Contains b' a' written := by
  intro i o f v hi ho hv
  rw [hsize] at ho ⊢
  have hlt : i < a.nelts := hlen ▸ (List.getElem?_eq_some_iff.mp hi).1
  have hx := hb _ (elem_lt hlt ho)
  rw [← Nat.add_assoc, ← Nat.add_assoc] at hx
  rw [hx]
  exact h i o f v hi ho hv

/-- Elements to which nothing was written contain what was written to them. -/
lemma replicate {b : Bytes} {written : List (ℕ → Option UInt8)} (n : ℕ)
    (h : Contains b a written) : Contains b a (written ++ List.replicate n blank) := by
  intro i o f v hi ho hv
  by_cases hlt : i < written.length
  · rw [List.getElem?_append_left hlt] at hi
    exact h i o f v hi ho hv
  · rw [List.getElem?_append_right (by omega)] at hi
    obtain rfl := List.eq_of_mem_replicate (List.mem_of_getElem? hi)
    cases hv

/-- The outcome of a request. -/
lemma grant (h : s.Inv size) (junk : Bytes) {n al : ℕ} {r : Option ℕ × PoolMem}
    (hr : Granted size s.regions n al r) : (s.grant junk n r).Inv size := by
  -- the regions that were handed out keep their contents
  have hcontents : ∀ R, Owned size r.2 R → s.regions ⊆ R → ∀ a ∈ s.array,
      Contains (settle r.2 s.header s.bytes junk) a s.written := by
    intro R howned hsub a ha
    have hok := h.ok a ha
    refine congr (h.contents a ha) (h.length a ha) rfl fun x hx => ?_
    have hreg := regions_some ha
    have hle := Nat.mul_le_mul_left a.size hok.nelts
    refine settle_eq howned (r := a.storage) (hsub (hreg ▸ .head _)) ?_ (fun g hg => ?_) _ _
    · unfold Holds Region.stop Arr.storage
      simp only
      omega
    · have hapart := (List.pairwise_append.mp h.owned.tidy.apart).1
      rw [hreg] at hapart
      exact (List.pairwise_cons.mp hapart).1 g (List.mem_append_left _ hg)
  cases hr with
  | null owned => exact ⟨owned, h.ok, h.length, hcontents _ owned (List.Subset.refl _)⟩
  | region owned ha =>
    refine ⟨owned.perm ?_, h.ok, h.length, hcontents _ owned (List.subset_cons_self _ _)⟩
    show (_ :: (s.array.toList.map Arr.storage ++ (s.header ++ s.held))).Perm
      (s.array.toList.map Arr.storage ++ (s.header ++ ([_] ++ s.held)))
    rw [← List.append_assoc, ← List.append_assoc, List.singleton_append]
    exact List.perm_middle.symm

/-- What is handed out besides the array. -/
lemma rest (h : s.Inv size) : Owned size s.mem s.held :=
  h.owned.sublist ((List.sublist_append_right _ _).trans (List.sublist_append_right _ _))

/-- An array without elements. -/
lemma made (junk : Bytes) {header : Arr → List Region} {r : Option Arr × PoolMem}
    (hr : Made size s.held header r) : (s.made junk header r).Inv size where
  owned := hr.owned
  ok a ha := (hr.ok a ha).1
  length a ha := (hr.ok a ha).2.symm
  contents a _ i o f v hi := by simp [ListSession.made] at hi

/-- The outcome of a push. -/
lemma pushed (h : s.Inv size) (ha : s.array = some a) (junk : Bytes) {n : ℕ}
    {copy : Bytes → Bytes} {r : Option ℕ × PoolMem × Arr}
    (hr : Filled size (s.header ++ s.held) a n copy r) :
    (s.pushed junk n a copy r).Inv size := by
  have hok := h.ok a ha
  have hlen := h.length a ha
  obtain ⟨howned, hok', -, -⟩ := id hr.pushed
  have hperm : (r.2.2.storage :: (a.left r.2.2 ++ (s.header ++ s.held))).Perm
      (r.2.2.storage :: (s.header ++ (a.left r.2.2 ++ s.held))) := by
    refine List.Perm.cons _ ?_
    rw [← List.append_assoc, ← List.append_assoc]
    exact List.perm_append_comm.append_right _
  -- the elements lie in storage that is still handed out
  have hkeep : ∀ x, x < a.size * a.nelts →
      settle r.2.1 s.header s.bytes junk (a.elts + x) = s.bytes (a.elts + x) := by
    intro x hx
    have hle := Nat.mul_le_mul_left a.size hok.nelts
    have hapart := (List.pairwise_append.mp howned.tidy.apart).1
    by_cases hmoved : r.2.2.elts = a.elts
    · refine settle_eq howned (r := r.2.2.storage) (.head _) ?_ (fun g hg => ?_) _ _
      · have hsize := hr.size
        have hnelts : a.nelts ≤ r.2.2.nelts := by
          cases hp : r.1 with
          | none => rw [(hr.appends.1 hp).1]
          | some p =>
            rw [((hr.appends.2 p hp).2.2).1]
            exact Nat.le_add_right _ _
        have hle' := Nat.mul_le_mul_left a.size (hnelts.trans hok'.nelts)
        unfold Holds Region.stop Arr.storage
        simp only
        rw [hsize, hmoved]
        omega
      · exact (List.pairwise_cons.mp hapart).1 g
          (List.mem_append_right _ (List.mem_append_left _ hg))
    · have hleft : a.left r.2.2 = [a.storage] := if_neg hmoved
      rw [hleft] at howned hapart
      refine settle_eq howned (r := a.storage) (.tail _ (.head _)) ?_ (fun g hg => ?_) _ _
      · unfold Holds Region.stop Arr.storage
        simp only
        omega
      · exact (List.pairwise_cons.mp (List.pairwise_cons.mp hapart).2).1 g
          (show g ∈ s.header ++ s.held from List.mem_append_left _ hg)
  have hcontents : Contains (copy (settle r.2.1 s.header s.bytes junk)) r.2.2 s.written :=
    congr (h.contents a ha) hlen hr.size fun x hx => (hr.bytes _ x hx).trans (hkeep x hx)
  refine ⟨howned.perm hperm, ?_, ?_, ?_⟩
  · rintro a' ⟨⟩
    exact hok'
  · rintro a' ⟨⟩
    show (if r.1 = none then s.written else _).length = r.2.2.nelts
    cases hp : r.1 with
    | none => rw [if_pos rfl, hlen, (hr.appends.1 hp).1]
    | some p =>
      rw [if_neg (by simp), List.length_append, List.length_replicate, hlen,
        ((hr.appends.2 p hp).2.2).1]
  · rintro a' ⟨⟩
    show Contains _ r.2.2 (if r.1 = none then s.written else _)
    split_ifs
    · exact hcontents
    · exact replicate n hcontents

/-- The caller writes a byte. -/
lemma write (h : s.Inv size) (p : ℕ) (v : UInt8) : (ListOp.run s (.write p v)).Inv size := by
  refine ⟨h.owned, h.ok, fun a ha => ?_, fun a ha => ?_⟩
  · have hnoted : (s.noted p v).length = s.written.length := by
      rw [noted]
      split
      · rfl
      · split_ifs
        · exact List.length_modify _ _ _
        · rfl
    exact hnoted.trans (h.length a ha)
  · have hlen := h.length a ha
    have hpos := (h.ok a ha).size
    intro i o f w hi ho hw
    show Function.update s.bytes p v (a.elts + a.size * i + o) = w
    have ha' : s.array = some a := ha
    have hnoted : s.noted p v = if Holds ⟨a.elts, a.size * a.nelts⟩ p then
        s.written.modify ((p - a.elts) / a.size) fun f =>
          Function.update f ((p - a.elts) % a.size) (some v)
      else s.written := by
      rw [noted, ha']
    replace hi : (s.noted p v)[i]? = some f := hi
    rw [hnoted] at hi
    split_ifs at hi with hp
    · rw [List.getElem?_modify] at hi
      obtain ⟨f', hf', hf⟩ := Option.map_eq_some_iff.mp hi
      by_cases hat : a.elts + a.size * i + o = p
      · -- the byte that was written
        have hx : p - a.elts = a.size * i + o := by omega
        have hdiv : (p - a.elts) / a.size = i := by
          rw [hx, Nat.mul_add_div hpos, Nat.div_eq_of_lt ho, Nat.add_zero]
        have hmod : (p - a.elts) % a.size = o := by
          rw [hx, Nat.mul_add_mod, Nat.mod_eq_of_lt ho]
        rw [if_pos hdiv, hmod] at hf
        rw [← hf, Function.update_self] at hw
        rw [hat, Function.update_self]
        exact Option.some.inj hw
      · rw [Function.update_of_ne hat]
        refine h.contents a ha i o f' w hf' ho ?_
        rw [← hw, ← hf]
        split_ifs with hdiv
        · refine (Function.update_of_ne ?_ _ _).symm
          rintro rfl
          have hx := Nat.div_add_mod (p - a.elts) a.size
          rw [hdiv] at hx
          have := hp.1
          simp only at this
          omega
        · rfl
    · have hlt : i < a.nelts := hlen ▸ (List.getElem?_eq_some_iff.mp hi).1
      have hx := elem_lt hlt ho
      rw [Function.update_of_ne]
      · exact h.contents a ha i o f w hi ho hw
      · rintro rfl
        refine hp ?_
        unfold Holds Region.stop
        simp only
        omega

/-- One allowed step. -/
lemma step (h : s.Inv size) {op : ListOp} (hop : op.Allowed s) : (op.run s).Inv size := by
  cases op with
  | palloc n junk => exact h.grant junk (palloc_spec h.owned n)
  | pnalloc n junk => exact h.grant junk (pnalloc_spec h.owned n)
  | arrayCreate n eltSize junk =>
    obtain ⟨hnone, hn, hn', hsize, hbytes⟩ := hop
    exact made junk (arrayCreate_made h.rest hn hn' hsize hbytes)
  | arrayInit addr n eltSize junk =>
    obtain ⟨hnone, hn, hn', hsize, hbytes⟩ := hop
    exact made junk (arrayInit_made h.rest addr hn hn' hsize hbytes)
  | arrayPush junk =>
    obtain ⟨a, ha, hfits⟩ := hop
    have howned := h.owned
    rw [regions_some ha] at howned
    rw [ListOp.run, ha]
    exact h.pushed ha junk (arrayPush_filled howned (h.ok a ha) hfits)
  | arrayPushN n junk =>
    obtain ⟨a, ha, hfits⟩ := hop
    have howned := h.owned
    rw [regions_some ha] at howned
    rw [ListOp.run, ha]
    exact h.pushed ha junk (arrayPushN_filled howned (h.ok a ha) hfits)
  | write p v => exact h.write p v

/-- A sequence of allowed steps. -/
lemma run (h : s.Inv size) {ops : List ListOp} (hops : ListRun s ops) :
    (runList s ops).Inv size := by
  induction ops generalizing s with
  | nil => exact h
  | cons op ops ih => exact ih (h.step hops.1) hops.2

/-- The invariant gives the law. -/
lemma law (h : s.Inv size) (ha : s.array = some a) : ListLaw s a := by
  have howned := h.owned
  rw [regions_some ha] at howned
  exact ⟨h.length a ha, h.contents a ha,
    fun hfits => (arrayPush_filled howned (h.ok a ha) hfits).appends,
    fun n hfits => (arrayPushN_filled howned (h.ok a ha) hfits).appends⟩

end Inv

end ListSession

/-- The start of a run on a pool that was just created. -/
def ListSession.start (m : PoolMem) : ListSession := ⟨m, fun _ => 0, [], [], none, []⟩

/-- After any allowed sequence of calls and writes on a new pool, the array has as many elements
as were pushed, each contains what was last written to it, and a push answers the address of the
element after the last one, or NULL and changes nothing. -/
theorem array_list {size : ℕ} {script : List (Option ℕ)} {m : PoolMem}
    (hmod : size % poolAlignment = 0) (hmin : minPoolSize ≤ size)
    (hcreate : createPool ⟨[], script⟩ size = some m) {ops : List ListOp}
    (hops : ListRun (.start m) ops) :
    ∀ a ∈ (runList (.start m) ops).array, ListLaw (runList (.start m) ops) a := by
  have hinit : (ListSession.start m).Inv size :=
    ⟨createPool_spec hmod hmin hcreate, nofun, nofun, nofun⟩
  exact fun a ha => (hinit.run hops).law ha

/-- An array of one element of two bytes grows in place, is written to, and moves after another
request; then a push finds no memory. -/
def listRun : List ListOp :=
  let junk : Bytes := fun _ => 255
  [.arrayCreate 1 2 junk, .arrayPush junk, .write 4192 7, .arrayPush junk, .write 4195 8,
    .palloc 3 junk, .arrayPushN 2 junk, .write 4212 9, .pnalloc 4000 junk, .arrayPush junk,
    .arrayPushN 60 junk]

theorem array_list_moved :
    ∃ m, createPool ⟨[], [some 4096]⟩ 128 = some m ∧
      ∀ a ∈ (runList (.start m) listRun).array, ListLaw (runList (.start m) listRun) a := by
  have hcreate : (createPool ⟨[], [some 4096]⟩ 128).any
      (fun m => decide (ListRun (.start m) listRun)) = true := by decide +kernel
  obtain ⟨m, hm, hrun⟩ := (Option.any_eq_true _ _).mp hcreate
  exact ⟨m, hm, array_list (by decide) (by decide) hm (of_decide_eq_true hrun)⟩

end Libcn.Palloc
