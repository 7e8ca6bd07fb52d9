import Libcn.Lib.Bytes
import Libcn.Palloc.Contents
import Libcn.Palloc.Destroy

/-!
# A pool in memory

The functions of `palloc.c` on the bytes of the memory: the headers of the blocks and the cells of
the large allocations are read and written where they stand, and `pcalloc` clears what it hands out.
So a cell that lies outside its block shares its bytes with whatever else is there.

The loops follow pointers, so they get fuel. The system allocator writes what it likes outside the
live allocations.
-/

namespace Libcn.Palloc

open Libcn.Lib

/-! ## Memory -/

/-- The memory with the system allocator: its calls so far, and what it writes in each. -/
structure Memory where
  heap : Heap
  calls : List HeapCall
  bytes : Bytes
  junk : ℕ → Bytes

/-- The fields of `pool_t`, with those of its `pool_data_t`, and of `pool_large_t`. -/
inductive Field
  | last
  | stop
  | next
  | failed
  | max
  | current
  | large
  | largeNext
  | largeAlloc
  deriving DecidableEq, Repr

def Field.offset : Field → ℕ
  | .last => 0
  | .stop => 8
  | .next => 16
  | .failed => 24
  | .max => 32
  | .current => 40
  | .large => 48
  | .largeNext => 0
  | .largeAlloc => 8

/-- `failed` is an `uint32_t`. -/
def Field.width : Field → ℕ
  | .failed => 4
  | _ => 8

namespace Memory

/-- `p->field`. -/
def get (s : Memory) (p : ℕ) (f : Field) : ℕ := load s.bytes (p + f.offset) f.width

/-- `p->field = v`. -/
def set (s : Memory) (p : ℕ) (f : Field) (v : ℕ) : Memory :=
  { s with bytes := store s.bytes (p + f.offset) f.width v }

/-- The bytes after the system allocator wrote outside the live allocations. -/
def scribble (s : Memory) (live : List Region) : Bytes := fun x =>
  if ∃ r ∈ live, Holds r x then s.bytes x else s.junk s.calls.length x

/-- `memalign`. NULL is 0. -/
def memalign (s : Memory) (alignment size : ℕ) : ℕ × Memory :=
  match s.heap.memalign alignment size with
  | (none, h) => (0, { s with heap := h, bytes := s.scribble s.heap.live })
  | (some p, h) => (p, { s with
      heap := h
      calls := s.calls ++ [.got ⟨p, size⟩]
      bytes := s.scribble s.heap.live })

/-- `alloc`, which is `malloc`. -/
def alloc (s : Memory) (size : ℕ) : ℕ × Memory := s.memalign alignment size

/-- `free`. -/
def free (s : Memory) (p : ℕ) : Memory :=
  if p = 0 then s
  else { s with
    heap := s.heap.free p
    calls := s.calls ++ [.freed p]
    bytes := s.scribble (s.heap.free p).live }

/-- `memset`, with the value 0. -/
def memset (s : Memory) (p n : ℕ) : Memory := { s with bytes := fill s.bytes p n 0 }

/-! ## The functions -/

/-- `create_pool`. -/
def createPool (s : Memory) (size : ℕ) : ℕ × Memory :=
  let (p, s) := s.memalign poolAlignment size
  if p = 0 then (0, s)
  else
    let s := s.set p .last (p + sizeofPool)
    let s := s.set p .stop (p + size)
    let s := s.set p .next 0
    let s := s.set p .failed 0
    let size := ptrDiff size sizeofPool
    let s := s.set p .max (if size < maxAllocFromPool then size else maxAllocFromPool)
    let s := s.set p .current p
    let s := s.set p .large 0
    (p, s)

/-- The loop of `destroy_pool` and `reset_pool` over the cells. -/
def freeLarge : ℕ → ℕ → Memory → Option Memory
  | 0, _, _ => none
  | fuel + 1, l, s =>
    if l = 0 then some s
    else
      let s := if s.get l .largeAlloc ≠ 0 then s.free (s.get l .largeAlloc) else s
      freeLarge fuel (s.get l .largeNext) s

/-- The loop of `destroy_pool` over the blocks: `n` is the one after `p`. -/
def freeBlocks : ℕ → ℕ → ℕ → Memory → Option Memory
  | 0, _, _, _ => none
  | fuel + 1, p, n, s =>
    let s := s.free p
    if n = 0 then some s else freeBlocks fuel n (s.get n .next) s

/-- `destroy_pool`. -/
def destroyPool (s : Memory) (fuel pool : ℕ) : Option Memory := do
  let s ← freeLarge fuel (s.get pool .large) s
  freeBlocks fuel pool (s.get pool .next) s

/-- The loop of `reset_pool` over the blocks. -/
def resetBlocks : ℕ → ℕ → Memory → Option Memory
  | 0, _, _ => none
  | fuel + 1, p, s =>
    if p = 0 then some s
    else
      let s := s.set p .last (p + sizeofPool)
      let s := s.set p .failed 0
      resetBlocks fuel (s.get p .next) s

/-- `reset_pool`. -/
def resetPool (s : Memory) (fuel pool : ℕ) : Option Memory := do
  let s ← freeLarge fuel (s.get pool .large) s
  let s ← resetBlocks fuel pool s
  let s := s.set pool .current pool
  pure (s.set pool .large 0)

/-- The place that the block at `p` offers for an allocation. -/
def place (s : Memory) (align : Bool) (p : ℕ) : ℕ :=
  if align then alignPtr (s.get p .last) alignment else s.get p .last

/-- The loop of `palloc_small`: the first block with room, and the place there. -/
def smallLoop (s : Memory) (size : ℕ) (align : Bool) : ℕ → ℕ → Option (Option (ℕ × ℕ))
  | 0, _ => none
  | fuel + 1, p =>
    if size ≤ ptrDiff (s.get p .stop) (s.place align p) then some (some (p, s.place align p))
    else if s.get p .next = 0 then some none
    else smallLoop s size align fuel (s.get p .next)

/-- The loop of `palloc_block` passes the block at `p`, which counts the failure. -/
def pass (s : Memory) (pool p : ℕ) : Memory :=
  let failed := s.get p .failed
  let s := s.set p .failed (failed + 1)
  if 4 < failed then s.set pool .current (s.get p .next) else s

/-- The loop of `palloc_block`, up to the last block. -/
def failLoop (pool : ℕ) : ℕ → ℕ → Memory → Option (ℕ × Memory)
  | 0, _, _ => none
  | fuel + 1, p, s =>
    if s.get p .next = 0 then some (p, s)
    else
      let s := s.pass pool p
      failLoop pool fuel (s.get p .next) s

/-- `palloc_block`. -/
def pallocBlock (s : Memory) (fuel pool size : ℕ) : Option (ℕ × Memory) := do
  let psize := ptrDiff (s.get pool .stop) pool
  let (new, s) := s.memalign poolAlignment psize
  if new = 0 then pure (0, s)
  else
    let s := s.set new .stop (new + psize)
    let s := s.set new .next 0
    let s := s.set new .failed 0
    let m := alignPtr (new + sizeofPoolData) alignment
    let s := s.set new .last (m + size)
    let (p, s) ← failLoop pool fuel (s.get pool .current) s
    pure (m, s.set p .next new)

/-- `palloc_small`. -/
def pallocSmall (s : Memory) (fuel pool size : ℕ) (align : Bool) : Option (ℕ × Memory) := do
  match ← s.smallLoop size align fuel (s.get pool .current) with
  | some (p, m) => pure (m, s.set p .last (m + size))
  | none => s.pallocBlock fuel pool size

/-- The loop of `palloc_large`: a cell without an allocation among the first five, or NULL. -/
def reuseLoop (s : Memory) : ℕ → ℕ → ℕ → Option ℕ
  | 0, _, _ => none
  | fuel + 1, large, n =>
    if large = 0 then some 0
    else if s.get large .largeAlloc = 0 then some large
    else if 3 < n then some 0
    else reuseLoop s fuel (s.get large .largeNext) (n + 1)

/-- The end of `palloc_large` and `pmemalign`: a new cell for the allocation `p`. -/
def newCell (s : Memory) (fuel pool p : ℕ) : Option (ℕ × Memory) := do
  let (large, s) ← s.pallocSmall fuel pool sizeofPoolLarge true
  if large = 0 then pure (0, s.free p)
  else
    let s := s.set large .largeAlloc p
    let s := s.set large .largeNext (s.get pool .large)
    pure (p, s.set pool .large large)

/-- `palloc_large`. -/
def pallocLarge (s : Memory) (fuel pool size : ℕ) : Option (ℕ × Memory) := do
  let (p, s) := s.alloc size
  if p = 0 then pure (0, s)
  else
    let large ← s.reuseLoop fuel (s.get pool .large) 0
    if large ≠ 0 then pure (p, s.set large .largeAlloc p)
    else s.newCell fuel pool p

/-- `palloc` and `pnalloc`, by the `align` argument they pass on. -/
def pallocWith (s : Memory) (fuel pool size : ℕ) (align : Bool) : Option (ℕ × Memory) :=
  if size ≤ s.get pool .max then s.pallocSmall fuel pool size align
  else s.pallocLarge fuel pool size

/-- `palloc`. -/
def palloc (s : Memory) (fuel pool size : ℕ) : Option (ℕ × Memory) :=
  s.pallocWith fuel pool size true

/-- `pnalloc`. -/
def pnalloc (s : Memory) (fuel pool size : ℕ) : Option (ℕ × Memory) :=
  s.pallocWith fuel pool size false

/-- `pcalloc`. -/
def pcalloc (s : Memory) (fuel pool size : ℕ) : Option (ℕ × Memory) := do
  let (p, s) ← s.palloc fuel pool size
  pure (p, if p ≠ 0 then s.memset p size else s)

/-- `pmemalign`. -/
def pmemalign (s : Memory) (fuel pool size alignment : ℕ) : Option (ℕ × Memory) :=
  let (p, s) := s.memalign alignment size
  if p = 0 then some (0, s) else s.newCell fuel pool p

/-- The loop of `pfree`: the first cell whose allocation is `p`, or NULL. -/
def pfreeLoop (s : Memory) (p : ℕ) : ℕ → ℕ → Option ℕ
  | 0, _ => none
  | fuel + 1, l =>
    if l = 0 then some 0
    else if p = s.get l .largeAlloc then some l
    else pfreeLoop s p fuel (s.get l .largeNext)

/-- `pfree`. -/
def pfree (s : Memory) (fuel pool p : ℕ) : Option (ℤ × Memory) := do
  let l ← s.pfreeLoop p fuel (s.get pool .large)
  if l = 0 then pure (-1, s)
  else
    let s := s.free (s.get l .largeAlloc)
    pure (0, s.set l .largeAlloc 0)

/-! ## Runs -/

/-- One call, and the pointer it returns if it returns one. -/
def call (s : Memory) (fuel pool : ℕ) : PoolCall → Option (Option ℕ × Memory)
  | .palloc n => (s.palloc fuel pool n).map fun r => (some r.1, r.2)
  | .pnalloc n => (s.pnalloc fuel pool n).map fun r => (some r.1, r.2)
  | .pcalloc n => (s.pcalloc fuel pool n).map fun r => (some r.1, r.2)
  | .pmemalign n alignment => (s.pmemalign fuel pool n alignment).map fun r => (some r.1, r.2)
  | .pfree p => (s.pfree fuel pool p).map fun r => (none, r.2)
  | .resetPool => (s.resetPool fuel pool).map fun s => (none, s)

/-- A sequence of calls. -/
def callAll (s : Memory) (fuel pool : ℕ) (cs : List PoolCall) : Option Memory :=
  cs.foldlM (fun s c => (s.call fuel pool c).map Prod.snd) s

/-- The addresses of the blocks, as the chain is followed from `p`. -/
def chain (s : Memory) : ℕ → ℕ → Option (List ℕ)
  | 0, _ => none
  | fuel + 1, p => if p = 0 then some [] else (chain s fuel (s.get p .next)).map (p :: ·)

/-! ## The condition -/

/-- The search for `size` bytes from the block at `p` on meets no block whose mark, aligned if asked,
lies past its end before it meets one with room. -/
def Meets (s : Memory) (size : ℕ) (align : Bool) : ℕ → ℕ → Prop
  | 0, _ => True
  | fuel + 1, p => s.place align p ≤ s.get p .stop ∧
      (s.place align p + size ≤ s.get p .stop ∨ s.get p .next = 0 ∨
        Meets s size align fuel (s.get p .next))

/-- The search of `palloc_small` meets the condition. -/
def SmallFits (s : Memory) (fuel pool size : ℕ) (align : Bool) : Prop :=
  s.Meets size align fuel (s.get pool .current)

/-- The search for the cell of a large allocation, if there is one. -/
def LargeFits (s : Memory) (fuel pool size : ℕ) : Prop :=
  let (p, s) := s.alloc size
  p ≠ 0 → s.reuseLoop fuel (s.get pool .large) 0 = some 0 →
    s.SmallFits fuel pool sizeofPoolLarge true

/-- The search of `palloc` and `pnalloc`. -/
def WithFits (s : Memory) (fuel pool size : ℕ) (align : Bool) : Prop :=
  if size ≤ s.get pool .max then s.SmallFits fuel pool size align else s.LargeFits fuel pool size

/-- The search for the cell of `pmemalign`. -/
def MemalignFits (s : Memory) (fuel pool size alignment : ℕ) : Prop :=
  let (p, s) := s.memalign alignment size
  p ≠ 0 → s.SmallFits fuel pool sizeofPoolLarge true

/-- The search of a call, if there is one. -/
def CallFits (s : Memory) (fuel pool : ℕ) : PoolCall → Prop
  | .palloc n => s.WithFits fuel pool n true
  | .pnalloc n => s.WithFits fuel pool n false
  | .pcalloc n => s.WithFits fuel pool n true
  | .pmemalign n alignment => s.MemalignFits fuel pool n alignment
  | .pfree _ => True
  | .resetPool => True

/-- Every call of a run meets the condition. -/
def CallsFit (s : Memory) (fuel pool : ℕ) : List PoolCall → Prop
  | [] => True
  | c :: cs => s.CallFits fuel pool c ∧
      match s.call fuel pool c with
      | none => True
      | some (_, s') => CallsFit s' fuel pool cs

instance decidableMeets (s : Memory) (size : ℕ) (align : Bool) :
    (fuel p : ℕ) → Decidable (s.Meets size align fuel p)
  | 0, _ => .isTrue trivial
  | fuel + 1, p =>
    have := decidableMeets s size align fuel (s.get p .next)
    inferInstanceAs (Decidable (_ ∧ (_ ∨ _ ∨ s.Meets size align fuel (s.get p .next))))

instance (s : Memory) (fuel pool size : ℕ) (align : Bool) :
    Decidable (s.SmallFits fuel pool size align) := decidableMeets ..

instance (s : Memory) (fuel pool size : ℕ) : Decidable (s.LargeFits fuel pool size) :=
  inferInstanceAs (Decidable (_ → _ → _))

instance (s : Memory) (fuel pool size : ℕ) (align : Bool) :
    Decidable (s.WithFits fuel pool size align) :=
  inferInstanceAs (Decidable (if size ≤ s.get pool .max then s.SmallFits fuel pool size align
    else s.LargeFits fuel pool size))

instance (s : Memory) (fuel pool size alignment : ℕ) :
    Decidable (s.MemalignFits fuel pool size alignment) :=
  inferInstanceAs (Decidable (_ → _))

instance (s : Memory) (fuel pool : ℕ) : (c : PoolCall) → Decidable (s.CallFits fuel pool c)
  | .palloc n => inferInstanceAs (Decidable (s.WithFits fuel pool n true))
  | .pnalloc n => inferInstanceAs (Decidable (s.WithFits fuel pool n false))
  | .pcalloc n => inferInstanceAs (Decidable (s.WithFits fuel pool n true))
  | .pmemalign n alignment => inferInstanceAs (Decidable (s.MemalignFits fuel pool n alignment))
  | .pfree _ => .isTrue trivial
  | .resetPool => .isTrue trivial

instance decidableCallsFit (s : Memory) (fuel pool : ℕ) :
    (cs : List PoolCall) → Decidable (s.CallsFit fuel pool cs)
  | [] => .isTrue trivial
  | c :: cs =>
    match h : s.call fuel pool c with
    | none => decidable_of_iff (s.CallFits fuel pool c) (by simp [CallsFit, h])
    | some (_, s') =>
      have := decidableCallsFit s' fuel pool cs
      decidable_of_iff (s.CallFits fuel pool c ∧ s'.CallsFit fuel pool cs) (by simp [CallsFit, h])

end Memory

end Libcn.Palloc
