import Libcn.Lib.Region
import Mathlib.Algebra.Group.Nat.Defs

/-!
# The pool allocator of `palloc.c`

Addresses and sizes are numbers below `2 ^ 64`; pointer differences cast to `size_t` wrap. A
pool is the chain of its blocks, the first of which holds the `pool_t`, with `current` as a
position in the chain, and the list of its `pool_large_t` cells.

The system allocator answers from a script. An answer that is not a fresh region of the
requested size and alignment counts as NULL, so a script stands for any correct allocator.
-/

namespace Libcn.Palloc

open Libcn.Lib

/-! ## The system allocator -/

/-- The live allocations, and the answers to come. -/
structure Heap where
  live : List Region
  script : List (Option ℕ)
  deriving DecidableEq, Repr

/-- `a` is a fresh region of this size and alignment, among the addresses of a user process. -/
def Fresh (live : List Region) (a size alignment : ℕ) : Prop :=
  0 < a ∧ a % alignment = 0 ∧ a + size ≤ 2 ^ 63 ∧ ∀ r ∈ live, Region.Clear ⟨a, size⟩ r

instance (live : List Region) (a size alignment : ℕ) : Decidable (Fresh live a size alignment) :=
  inferInstanceAs (Decidable (_ ∧ _))

/-- `memalign`. -/
def Heap.memalign (h : Heap) (alignment size : ℕ) : Option ℕ × Heap :=
  match h.script with
  | some a :: script =>
    if Fresh h.live a size alignment then (some a, ⟨⟨a, size⟩ :: h.live, script⟩)
    else (none, ⟨h.live, script⟩)
  | none :: script => (none, ⟨h.live, script⟩)
  | [] => (none, h)

/-- `ALIGNMENT`, which is `sizeof(unsigned long)`. -/
def alignment : ℕ := 8

/-- `alloc`, which is `malloc`. -/
def Heap.alloc (h : Heap) (size : ℕ) : Option ℕ × Heap := h.memalign alignment size

/-- `free`. -/
def Heap.free (h : Heap) (p : ℕ) : Heap := { h with live := h.live.filter fun r => r.start ≠ p }

/-! ## Pools -/

/-- `POOL_ALIGNMENT`, `MAX_ALLOC_FROM_POOL`, `MIN_POOL_SIZE` and the sizes of `pool_t`,
`pool_data_t` and `pool_large_t`. -/
def poolAlignment : ℕ := 16
def maxAllocFromPool : ℕ := 4096 - 1
def minPoolSize : ℕ := 96
def sizeofPool : ℕ := 56
def sizeofPoolData : ℕ := 32
def sizeofPoolLarge : ℕ := 16

/-- Where a block lies, and how far it is used. -/
structure Extent where
  addr : ℕ
  last : ℕ
  stop : ℕ
  deriving DecidableEq, Repr

/-- `pool_data_t`. -/
structure Block extends Extent where
  failed : ℕ
  deriving DecidableEq, Repr

/-- `pool_large_t`, at the address `addr`. NULL is 0. -/
structure Cell where
  addr : ℕ
  alloc : ℕ
  deriving DecidableEq, Repr

/-- `pool_t` with its chain of blocks and its list of large allocations. -/
structure Pool where
  blocks : List Block
  max : ℕ
  current : ℕ
  large : List Cell
  deriving DecidableEq, Repr

/-- `pool->d`. -/
def Pool.head (p : Pool) : Block := p.blocks.headD ⟨⟨0, 0, 0⟩, 0⟩

/-- A pool and the system allocator. -/
structure PoolMem where
  heap : Heap
  pool : Pool
  deriving DecidableEq, Repr

/-- `align_ptr`, for an alignment that is a power of two. -/
def alignPtr (p a : ℕ) : ℕ := (p + (a - 1)) % 2 ^ 64 / a * a

/-- `(size_t)(a - b)`. -/
def ptrDiff (a b : ℕ) : ℕ := (a + 2 ^ 64 - b) % 2 ^ 64

/-- `create_pool`. -/
def createPool (h : Heap) (size : ℕ) : Option PoolMem :=
  match h.memalign poolAlignment size with
  | (none, _) => none
  | (some p, h) => some ⟨h,
      { blocks := [⟨⟨p, p + sizeofPool, p + size⟩, 0⟩]
        max := min (ptrDiff size sizeofPool) maxAllocFromPool
        current := 0
        large := [] }⟩

/-- `reset_pool`. -/
def resetPool (m : PoolMem) : PoolMem where
  heap := m.pool.large.foldl (fun h c => if c.alloc = 0 then h else h.free c.alloc) m.heap
  pool := { m.pool with
    blocks := m.pool.blocks.map fun b => ⟨⟨b.addr, b.addr + sizeofPool, b.stop⟩, 0⟩
    current := 0
    large := [] }

/-- The place a block offers for an allocation. -/
def Extent.place (b : Extent) (align : Bool) : ℕ :=
  if align then alignPtr b.last alignment else b.last

/-- The loop of `palloc_small`: the first block from position `i` on with room, and the
address there. -/
def smallLoop (size : ℕ) (align : Bool) : List Block → ℕ → Option (ℕ × ℕ)
  | [], _ => none
  | b :: bs, i =>
    if size ≤ ptrDiff b.stop (b.place align) then some (i, b.place align)
    else smallLoop size align bs (i + 1)

/-- The loop of `palloc_block` from position `i` on: the new `current`, and the blocks with
their `failed` counts raised, the last one apart. -/
def failLoop : List Block → ℕ → ℕ → ℕ × List Block
  | [], _, current => (current, [])
  | [b], _, current => (current, [b])
  | b :: bs, i, current =>
    let r := failLoop bs (i + 1) (if 4 < b.failed then i + 1 else current)
    (r.1, { b with failed := (b.failed + 1) % 2 ^ 32 } :: r.2)

/-- `palloc_block`. -/
def pallocBlock (m : PoolMem) (size : ℕ) : Option ℕ × PoolMem :=
  let psize := ptrDiff m.pool.head.stop m.pool.head.addr
  match m.heap.memalign poolAlignment psize with
  | (none, h) => (none, { m with heap := h })
  | (some new, h) =>
    let place := alignPtr (new + sizeofPoolData) alignment
    let loop := failLoop (m.pool.blocks.drop m.pool.current) m.pool.current m.pool.current
    (some place, ⟨h, { m.pool with
      blocks := m.pool.blocks.take m.pool.current ++ loop.2 ++
        [⟨⟨new, place + size, new + psize⟩, 0⟩]
      current := loop.1 }⟩)

/-- `palloc_small`. -/
def pallocSmall (m : PoolMem) (size : ℕ) (align : Bool) : Option ℕ × PoolMem :=
  match smallLoop size align (m.pool.blocks.drop m.pool.current) m.pool.current with
  | some (i, place) =>
    (some place, { m with pool := { m.pool with
      blocks := m.pool.blocks.modify i fun b => { b with last := place + size } } })
  | none => pallocBlock m size

/-- The loop of `palloc_large` over the cells: a cell without an allocation among the first
five takes `p`. -/
def reuseLoop (p : ℕ) : List Cell → ℕ → Option (List Cell)
  | [], _ => none
  | c :: cs, n =>
    if c.alloc = 0 then some ({ c with alloc := p } :: cs)
    else if 3 < n then none
    else (reuseLoop p cs (n + 1)).map (c :: ·)

/-- The end of `palloc_large` and `pmemalign`: a new cell for the allocation `p`. -/
def newCell (m : PoolMem) (p : ℕ) : Option ℕ × PoolMem :=
  match pallocSmall m sizeofPoolLarge true with
  | (none, m) => (none, { m with heap := m.heap.free p })
  | (some cell, m) =>
    (some p, { m with pool := { m.pool with large := ⟨cell, p⟩ :: m.pool.large } })

/-- `palloc_large`. -/
def pallocLarge (m : PoolMem) (size : ℕ) : Option ℕ × PoolMem :=
  match m.heap.alloc size with
  | (none, h) => (none, { m with heap := h })
  | (some p, h) =>
    match reuseLoop p m.pool.large 0 with
    | some large => (some p, ⟨h, { m.pool with large := large }⟩)
    | none => newCell { m with heap := h } p

/-- `palloc`. -/
def palloc (m : PoolMem) (size : ℕ) : Option ℕ × PoolMem :=
  if size ≤ m.pool.max then pallocSmall m size true else pallocLarge m size

/-- `pnalloc`. -/
def pnalloc (m : PoolMem) (size : ℕ) : Option ℕ × PoolMem :=
  if size ≤ m.pool.max then pallocSmall m size false else pallocLarge m size

/-- `pcalloc`, up to the bytes that it clears. -/
def pcalloc (m : PoolMem) (size : ℕ) : Option ℕ × PoolMem := palloc m size

/-- `pmemalign`. -/
def pmemalign (m : PoolMem) (size alignment : ℕ) : Option ℕ × PoolMem :=
  match m.heap.memalign alignment size with
  | (none, h) => (none, { m with heap := h })
  | (some p, h) => newCell { m with heap := h } p

/-- The loop of `pfree`: the first cell whose allocation is `p` loses it. -/
def pfreeLoop (p : ℕ) : List Cell → Option (List Cell)
  | [] => none
  | c :: cs =>
    if c.alloc = p then some ({ c with alloc := 0 } :: cs)
    else (pfreeLoop p cs).map (c :: ·)

/-- `pfree`: whether `p` was found. `free(NULL)` does nothing. -/
def pfree (m : PoolMem) (p : ℕ) : Bool × PoolMem :=
  match pfreeLoop p m.pool.large with
  | none => (false, m)
  | some large =>
    (true, ⟨if p = 0 then m.heap else m.heap.free p, { m.pool with large := large }⟩)

end Libcn.Palloc
