import Libcn.Palloc.Owned

/-!
# What a pool gives back

The calls of the system allocator that the functions of `palloc.c` make, read as an account: a
region that is obtained is clear of the live ones, and `free` names a live region. What is live at
any time is what the blocks and the cells of the pool hold, so `destroy_pool` leaves nothing.

The chain and the cells are lists here, which nothing but the pool writes to.
-/

namespace Libcn.Palloc

open Libcn.Lib

/-! ## Calls of the system allocator -/

/-- A region was obtained, or `free` was called. -/
inductive HeapCall
  | got (r : Region)
  | freed (p : ℕ)
  deriving DecidableEq, Repr

/-- The live regions after some calls. There are none if a region obtained was not clear of the
live ones, or `free` was called for an address where no live region starts. -/
def replay : List Region → List HeapCall → Option (List Region)
  | live, [] => some live
  | live, .got r :: cs => if ∀ o ∈ live, r.Clear o then replay (r :: live) cs else none
  | live, .freed p :: cs =>
    if ∃ r ∈ live, r.start = p then replay (live.filter fun r => r.start ≠ p) cs else none

/-- The calls of `memalign` and `malloc`. -/
def memalignCalls (h : Heap) (alignment size : ℕ) : List HeapCall :=
  match (h.memalign alignment size).1 with
  | none => []
  | some a => [.got ⟨a, size⟩]

/-- The calls of `palloc_block`. -/
def pallocBlockCalls (m : PoolMem) : List HeapCall :=
  memalignCalls m.heap poolAlignment (ptrDiff m.pool.head.stop m.pool.head.addr)

/-- The calls of `palloc_small`. -/
def pallocSmallCalls (m : PoolMem) (size : ℕ) (align : Bool) : List HeapCall :=
  match smallLoop size align (m.pool.blocks.drop m.pool.current) m.pool.current with
  | some _ => []
  | none => pallocBlockCalls m

/-- The calls at the end of `palloc_large` and `pmemalign`. -/
def newCellCalls (m : PoolMem) (p : ℕ) : List HeapCall :=
  pallocSmallCalls m sizeofPoolLarge true ++
    match (pallocSmall m sizeofPoolLarge true).1 with
    | none => [.freed p]
    | some _ => []

/-- The calls of `palloc_large`. -/
def pallocLargeCalls (m : PoolMem) (size : ℕ) : List HeapCall :=
  memalignCalls m.heap alignment size ++
    match m.heap.alloc size with
    | (none, _) => []
    | (some p, h) =>
      match reuseLoop p m.pool.large 0 with
      | some _ => []
      | none => newCellCalls { m with heap := h } p

/-- The calls of `palloc`, `pnalloc` and `pcalloc`. -/
def pallocCalls (m : PoolMem) (size : ℕ) (align : Bool) : List HeapCall :=
  if size ≤ m.pool.max then pallocSmallCalls m size align else pallocLargeCalls m size

/-- The calls of `pmemalign`. -/
def pmemalignCalls (m : PoolMem) (size alignment : ℕ) : List HeapCall :=
  memalignCalls m.heap alignment size ++
    match m.heap.memalign alignment size with
    | (none, _) => []
    | (some p, h) => newCellCalls { m with heap := h } p

/-- The calls of `pfree`. `free(NULL)` does nothing. -/
def pfreeCalls (m : PoolMem) (p : ℕ) : List HeapCall :=
  match pfreeLoop p m.pool.large with
  | none => []
  | some _ => if p = 0 then [] else [.freed p]

/-- The allocations the cells hold. -/
def Pool.allocs (p : Pool) : List ℕ := (p.large.map Cell.alloc).filter (· ≠ 0)

/-- The addresses of the blocks. -/
def Pool.addrs (p : Pool) : List ℕ := p.blocks.map fun b => b.addr

/-- The calls of `reset_pool`. -/
def resetPoolCalls (m : PoolMem) : List HeapCall := m.pool.allocs.map .freed

/-- `destroy_pool`. -/
def destroyPool (m : PoolMem) : Heap :=
  m.pool.blocks.foldl (fun h b => h.free b.addr)
    (m.pool.large.foldl (fun h c => if c.alloc = 0 then h else h.free c.alloc) m.heap)

/-- The calls of `destroy_pool`. -/
def destroyPoolCalls (m : PoolMem) : List HeapCall := (m.pool.allocs ++ m.pool.addrs).map .freed

/-! ## The account of a list of calls -/

lemma replay_append (live : List Region) (cs cs' : List HeapCall) :
    replay live (cs ++ cs') = (replay live cs).bind (replay · cs') := by
  induction cs generalizing live with
  | nil => rfl
  | cons c cs ih =>
    cases c with
    | got r =>
      rw [List.cons_append, replay, replay]
      split_ifs
      · exact ih _
      · rfl
    | freed p =>
      rw [List.cons_append, replay, replay]
      split_ifs
      · exact ih _
      · rfl

/-- Calls that keep the account, one after the other. -/
lemma replay_trans {live live' live'' : List Region} {cs cs' : List HeapCall}
    (h : replay live cs = some live') (h' : replay live' cs' = some live'') :
    replay live (cs ++ cs') = some live'' := by
  rw [replay_append, h]
  exact h'

/-- Clear regions, none at NULL, that start at the given addresses. -/
structure Starts (live : List Region) (l : List ℕ) : Prop where
  clear : live.Pairwise Region.Clear
  nonnull : ∀ r ∈ live, r.start ≠ 0
  perm : (live.map Region.start).Perm l

/-- The live regions start where the pool holds something, or at the addresses `l`, which it does
not hold yet. -/
structure Kept (l : List ℕ) (m : PoolMem) : Prop where
  starts : Starts m.heap.live (l ++ (m.pool.addrs ++ m.pool.allocs))
  current : m.pool.current < m.pool.blocks.length

variable {l : List ℕ} {m : PoolMem} {p : ℕ}

namespace Starts

lemma nodup {live : List Region} (h : Starts live l) : l.Nodup :=
  h.perm.nodup_iff.mp (List.pairwise_map.mpr (h.clear.imp Region.Clear.start_ne))

/-- What starts at one of the addresses is freed. -/
lemma freed {h : Heap} (hs : Starts h.live (p :: l)) :
    replay h.live [.freed p] = some (h.free p).live ∧ Starts (h.free p).live l := by
  have hmem : p ∈ h.live.map Region.start := hs.perm.mem_iff.mpr (.head _)
  obtain ⟨hp, -⟩ := List.nodup_cons.mp hs.nodup
  refine ⟨if_pos (List.mem_map.mp hmem), hs.clear.sublist List.filter_sublist,
    fun r hr => hs.nonnull r (List.mem_of_mem_filter hr), ?_⟩
  have hfilter : (h.free p).live.map Region.start =
      (h.live.map Region.start).filter (· ≠ p) := by
    rw [List.filter_map]
    rfl
  rw [hfilter]
  refine (hs.perm.filter _).trans ?_
  rw [List.filter_cons_of_neg (by simp), List.filter_eq_self.mpr]
  intro x hx
  rw [decide_eq_true_eq]
  rintro rfl
  exact hp hx

/-- A list of the addresses is freed. -/
lemma freedAll {l' : List ℕ} {h : Heap} (hs : Starts h.live (l ++ l')) :
    replay h.live (l.map .freed) = some (l.foldl Heap.free h).live ∧
      Starts (l.foldl Heap.free h).live l' := by
  induction l generalizing h with
  | nil => exact ⟨rfl, hs⟩
  | cons p l ih =>
    obtain ⟨hreplay, hstarts⟩ := hs.freed
    obtain ⟨hreplay', hstarts'⟩ := ih hstarts
    exact ⟨replay_trans hreplay hreplay', hstarts'⟩

end Starts

namespace Kept

/-- Only the script of the system allocator changes. -/
lemma script (h : Kept l m) (s : List (Option ℕ)) :
    Kept l { m with heap := ⟨m.heap.live, s⟩ } := ⟨h.starts, h.current⟩

/-- The pool holds the same in another order or another way. -/
lemma repool (h : Kept l m) {l' : List ℕ} {pool : Pool}
    (hheld : (l ++ (m.pool.addrs ++ m.pool.allocs)).Perm (l' ++ (pool.addrs ++ pool.allocs)))
    (hcur : pool.current < pool.blocks.length) : Kept l' { m with pool := pool } :=
  ⟨⟨h.starts.clear, h.starts.nonnull, h.starts.perm.trans hheld⟩, hcur⟩

/-- A fresh region, which the pool does not hold yet. -/
lemma fresh (h : Kept l m) {a n al : ℕ} (hf : Fresh m.heap.live a n al) (s : List (Option ℕ)) :
    Kept (a :: l) { m with heap := ⟨⟨a, n⟩ :: m.heap.live, s⟩ } := by
  refine ⟨⟨List.pairwise_cons.mpr ⟨hf.2.2.2, h.starts.clear⟩, fun r hr => ?_,
    h.starts.perm.cons a⟩, h.current⟩
  rcases List.mem_cons.mp hr with rfl | hr
  · exact hf.1.ne'
  · exact h.starts.nonnull r hr

/-- What starts at an address that the pool does not hold is freed. -/
lemma freed (h : Kept (p :: l) m) :
    replay m.heap.live [.freed p] = some (m.heap.free p).live ∧
      Kept l { m with heap := m.heap.free p } :=
  ⟨h.starts.freed.1, h.starts.freed.2, h.current⟩

end Kept

/-! ## The functions that allocate -/

/-- The outcome of a function that returns a pointer: the account of its calls leads to the live
regions, the pool holds them, and if the pointer is NULL then nothing has changed. -/
structure Accounted (l : List ℕ) (m : PoolMem) (cs : List HeapCall) (r : Option ℕ × PoolMem) :
    Prop where
  replay : replay m.heap.live cs = some r.2.heap.live
  kept : Kept l r.2
  null : r.1 = none → r.2.pool = m.pool ∧ r.2.heap.live = m.heap.live

/-- NULL from the system allocator. -/
lemma Kept.null (h : Kept l m) (s : List (Option ℕ)) :
    Accounted l m [] (none, { m with heap := ⟨m.heap.live, s⟩ }) :=
  ⟨rfl, h.script s, fun _ => ⟨rfl, rfl⟩⟩

/-- A region from the system allocator is obtained once. -/
lemma memalignCalls_some {al n a : ℕ} {s : List (Option ℕ)} (h : Heap)
    (hrun : h.memalign al n = (some a, ⟨⟨a, n⟩ :: h.live, s⟩)) :
    memalignCalls h al n = [.got ⟨a, n⟩] := by
  rw [memalignCalls, hrun]

lemma memalignCalls_none {al n : ℕ} {s : List (Option ℕ)} (h : Heap)
    (hrun : h.memalign al n = (none, ⟨h.live, s⟩)) : memalignCalls h al n = [] := by
  rw [memalignCalls, hrun]

lemma replay_got {live : List Region} {a n al : ℕ} (hf : Fresh live a n al) :
    replay live [.got ⟨a, n⟩] = some (⟨a, n⟩ :: live) := if_pos hf.2.2.2

/-- The loop over the `failed` counts keeps the addresses. -/
lemma failLoop_addrs (bs : List Block) (i c : ℕ) (hc : c < i + bs.length) :
    (failLoop bs i c).2.map (fun b => b.addr) = bs.map fun b => b.addr := by
  have h := congrArg (List.map Extent.addr) (failLoop_spec bs i c hc).1
  rwa [List.map_map, List.map_map] at h

/-- `palloc_block` adds a block, which starts where the region does. -/
theorem pallocBlock_accounted (h : Kept l m) (n : ℕ) :
    Accounted l m (pallocBlockCalls m) (pallocBlock m n) ∧
      (pallocBlock m n).2.pool.large = m.pool.large := by
  have hcur := h.current
  generalize hsize : ptrDiff m.pool.head.stop m.pool.head.addr = size
  rcases memalign_spec m.heap poolAlignment size with ⟨s, hs⟩ | ⟨new, s, hf, hs⟩
  · rw [pallocBlockCalls, hsize, memalignCalls_none m.heap hs]
    simp only [pallocBlock, hsize, hs]
    exact ⟨h.null s, trivial⟩
  · rw [pallocBlockCalls, hsize, memalignCalls_some m.heap hs]
    simp only [pallocBlock, hsize, hs]
    have hlen : (m.pool.blocks.drop m.pool.current).length =
        m.pool.blocks.length - m.pool.current := List.length_drop
    have hc : m.pool.current < m.pool.current + (m.pool.blocks.drop m.pool.current).length := by
      omega
    have hstay := (failLoop_spec _ _ _ hc).2
    have hcount := congrArg List.length (failLoop_addrs _ _ _ hc)
    rw [List.length_map, List.length_map] at hcount
    refine ⟨⟨replay_got hf, (h.fresh hf s).repool ?_ ?_, fun e => by cases e⟩, trivial⟩
    · simp only [Pool.addrs, List.map_append, failLoop_addrs _ _ _ hc]
      rw [← List.map_append, List.take_append_drop]
      show (new :: (l ++ (m.pool.addrs ++ m.pool.allocs))).Perm
        (l ++ ((m.pool.addrs ++ [new]) ++ m.pool.allocs))
      rw [List.append_assoc, ← List.append_assoc l, ← List.append_assoc l, List.singleton_append]
      exact List.perm_middle.symm
    · simp only [List.length_append, List.length_take, hcount]
      omega

/-- `palloc_small`. -/
theorem pallocSmall_accounted (h : Kept l m) (n : ℕ) (align : Bool) :
    Accounted l m (pallocSmallCalls m n align) (pallocSmall m n align) ∧
      (pallocSmall m n align).2.pool.large = m.pool.large := by
  rw [pallocSmallCalls, pallocSmall]
  cases smallLoop n align (m.pool.blocks.drop m.pool.current) m.pool.current with
  | none => exact pallocBlock_accounted h n
  | some r =>
    have haddrs : (m.pool.blocks.modify r.1 fun b => { b with last := r.2 + n }).map
        (fun b => b.addr) = m.pool.addrs := by
      rw [Pool.addrs]
      apply List.ext_getElem?
      intro j
      simp only [List.getElem?_map, List.getElem?_modify]
      cases m.pool.blocks[j]? with
      | none => rfl
      | some b => by_cases hj : r.1 = j <;> simp [hj]
    refine ⟨⟨rfl, h.repool ?_ ?_, fun e => by cases e⟩, rfl⟩
    · show (l ++ (m.pool.addrs ++ m.pool.allocs)).Perm (l ++ (_ ++ m.pool.allocs))
      rw [← haddrs]
      rfl
    · rw [List.length_modify]
      exact h.current

/-- A new cell holds the allocation, or the allocation is freed again. -/
theorem newCell_accounted (h : Kept (p :: l) m) :
    replay m.heap.live (newCellCalls m p) = some (newCell m p).2.heap.live ∧
      Kept l (newCell m p).2 ∧
      ((newCell m p).1 = none → (newCell m p).2.pool = m.pool ∧
        (newCell m p).2.heap.live = m.heap.live.filter fun r => r.start ≠ p) := by
  obtain ⟨hacc, hlarge⟩ := pallocSmall_accounted h sizeofPoolLarge true
  rw [newCellCalls, newCell]
  generalize pallocSmall m sizeofPoolLarge true = r at hacc hlarge
  obtain ⟨a, m'⟩ := r
  cases a with
  | none =>
    obtain ⟨hpool, hlive⟩ := hacc.null rfl
    obtain ⟨hreplay, hkept⟩ := hacc.kept.freed
    refine ⟨replay_trans hacc.replay hreplay, hkept, fun _ => ⟨hpool, ?_⟩⟩
    show (m'.heap.free p).live = _
    rw [Heap.free, hlive]
  | some cell =>
    rw [List.append_nil]
    refine ⟨hacc.replay, hacc.kept.repool ?_ hacc.kept.current, fun e => by cases e⟩
    have hp : p ≠ 0 := by
      obtain ⟨r, hr, hrp⟩ := List.mem_map.mp (h.starts.perm.mem_iff.mpr (.head _))
      exact hrp ▸ h.starts.nonnull r hr
    have hallocs : Pool.allocs { m'.pool with large := ⟨cell, p⟩ :: m'.pool.large } =
        p :: m'.pool.allocs := by
      rw [Pool.allocs, List.map_cons, List.filter_cons_of_pos (by simpa using hp)]
      rfl
    rw [hallocs]
    show (p :: (l ++ (m'.pool.addrs ++ m'.pool.allocs))).Perm
      (l ++ (m'.pool.addrs ++ p :: m'.pool.allocs))
    rw [← List.append_assoc, ← List.append_assoc]
    exact List.perm_middle.symm

/-- Freeing the region obtained last leaves what was live before. -/
lemma filter_fresh {live : List Region} {a n al : ℕ} (hf : Fresh live a n al) :
    (⟨a, n⟩ :: live).filter (fun r => r.start ≠ a) = live := by
  rw [List.filter_cons_of_neg (by simp), List.filter_eq_self]
  intro r hr
  simpa using (hf.2.2.2 r hr).start_ne.symm

/-- A region from the system allocator for which a new cell is made. -/
lemma Kept.newCell (h : Kept l m) {a n al : ℕ} (hf : Fresh m.heap.live a n al)
    (s : List (Option ℕ)) :
    Accounted l m (.got ⟨a, n⟩ :: newCellCalls { m with heap := ⟨⟨a, n⟩ :: m.heap.live, s⟩ } a)
      (newCell { m with heap := ⟨⟨a, n⟩ :: m.heap.live, s⟩ } a) := by
  obtain ⟨hreplay, hkept, hnull⟩ := newCell_accounted (h.fresh hf s)
  refine ⟨replay_trans (replay_got hf) hreplay, hkept, fun e => ?_⟩
  obtain ⟨hpool, hlive⟩ := hnull e
  exact ⟨hpool, hlive.trans (filter_fresh hf)⟩

/-- `palloc_large`. -/
theorem pallocLarge_accounted (h : Kept l m) (n : ℕ) :
    Accounted l m (pallocLargeCalls m n) (pallocLarge m n) := by
  rcases memalign_spec m.heap alignment n with ⟨s, hs⟩ | ⟨a, s, hf, hs⟩
  · rw [pallocLargeCalls, memalignCalls_none m.heap hs, pallocLarge, Heap.alloc, hs]
    exact h.null s
  · rw [pallocLargeCalls, memalignCalls_some m.heap hs, pallocLarge, Heap.alloc, hs]
    simp only
    cases hr : reuseLoop a m.pool.large 0 with
    | none => exact h.newCell hf s
    | some large =>
      obtain ⟨l₁, c, l₂, hl, hc, rfl⟩ := reuseLoop_some hr
      refine ⟨replay_got hf, (h.fresh hf s).repool ?_ h.current, fun e => by cases e⟩
      have hallocs : Pool.allocs
          { m.pool with large := l₁ ++ { c with alloc := a } :: l₂ } =
          (l₁.map Cell.alloc).filter (· ≠ 0) ++ a :: (l₂.map Cell.alloc).filter (· ≠ 0) := by
        rw [Pool.allocs, List.map_append, List.map_cons, List.filter_append,
          List.filter_cons_of_pos (by simpa using hf.1.ne')]
      have hold : m.pool.allocs =
          (l₁.map Cell.alloc).filter (· ≠ 0) ++ (l₂.map Cell.alloc).filter (· ≠ 0) := by
        rw [Pool.allocs, hl, List.map_append, List.map_cons, List.filter_append,
          List.filter_cons_of_neg (by simpa using hc)]
      rw [hallocs]
      show (a :: (l ++ (m.pool.addrs ++ m.pool.allocs))).Perm (l ++ (m.pool.addrs ++ _))
      rw [hold, ← List.append_assoc, ← List.append_assoc, ← List.append_assoc, ← List.append_assoc]
      exact List.perm_middle.symm

/-- `palloc`, `pnalloc` and `pcalloc`. -/
lemma palloc_accounted (h : Kept l m) (n : ℕ) (align : Bool) :
    Accounted l m (pallocCalls m n align)
      (if n ≤ m.pool.max then pallocSmall m n align else pallocLarge m n) := by
  rw [pallocCalls]
  split_ifs
  · exact (pallocSmall_accounted h n align).1
  · exact pallocLarge_accounted h n

/-- `pmemalign`. -/
theorem pmemalign_accounted (h : Kept l m) (n al : ℕ) :
    Accounted l m (pmemalignCalls m n al) (pmemalign m n al) := by
  rcases memalign_spec m.heap al n with ⟨s, hs⟩ | ⟨a, s, hf, hs⟩
  · rw [pmemalignCalls, memalignCalls_none m.heap hs, pmemalign, hs]
    exact h.null s
  · rw [pmemalignCalls, memalignCalls_some m.heap hs, pmemalign, hs]
    exact h.newCell hf s

/-! ## The functions that give back -/

/-- `pfree`. -/
theorem pfree_accounted (h : Kept l m) (p : ℕ) :
    replay m.heap.live (pfreeCalls m p) = some (pfree m p).2.heap.live ∧ Kept l (pfree m p).2 := by
  rw [pfreeCalls, pfree]
  cases hl : pfreeLoop p m.pool.large with
  | none => exact ⟨rfl, h⟩
  | some large =>
    obtain ⟨l₁, c, l₂, hlarge, rfl, rfl⟩ := pfreeLoop_some hl
    have hallocs : Pool.allocs { m.pool with large := l₁ ++ { c with alloc := 0 } :: l₂ } =
        (l₁.map Cell.alloc).filter (· ≠ 0) ++ (l₂.map Cell.alloc).filter (· ≠ 0) := by
      rw [Pool.allocs, List.map_append, List.map_cons, List.filter_append,
        List.filter_cons_of_neg (by simp)]
    dsimp only
    split_ifs with hc
    · refine ⟨rfl, h.repool ?_ h.current⟩
      have hold : m.pool.allocs =
          (l₁.map Cell.alloc).filter (· ≠ 0) ++ (l₂.map Cell.alloc).filter (· ≠ 0) := by
        rw [Pool.allocs, hlarge, List.map_append, List.map_cons, List.filter_append,
          List.filter_cons_of_neg (by simpa using hc)]
      rw [hallocs, hold]
      rfl
    · have hold : m.pool.allocs =
          (l₁.map Cell.alloc).filter (· ≠ 0) ++ c.alloc :: (l₂.map Cell.alloc).filter (· ≠ 0) := by
        rw [Pool.allocs, hlarge, List.map_append, List.map_cons, List.filter_append,
          List.filter_cons_of_pos (by simpa using hc)]
      -- the cell lets go of the allocation, then it is freed
      have hloose : Kept (c.alloc :: l)
          { m with pool := { m.pool with large := l₁ ++ { c with alloc := 0 } :: l₂ } } := by
        refine h.repool ?_ h.current
        rw [hallocs, hold]
        show (l ++ (m.pool.addrs ++ _)).Perm (c.alloc :: (l ++ (m.pool.addrs ++ _)))
        rw [← List.append_assoc, ← List.append_assoc, ← List.append_assoc, ← List.append_assoc]
        exact List.perm_middle
      exact hloose.freed

/-- The loop over the cells frees what they hold. -/
lemma foldl_free_large (large : List Cell) (h : Heap) :
    large.foldl (fun h c => if c.alloc = 0 then h else h.free c.alloc) h =
      ((large.map Cell.alloc).filter (· ≠ 0)).foldl Heap.free h := by
  induction large generalizing h with
  | nil => rfl
  | cons c cs ih =>
    rw [List.foldl_cons, List.map_cons]
    by_cases hc : c.alloc = 0
    · rw [if_pos hc, List.filter_cons_of_neg (by simpa using hc), ih]
    · rw [if_neg hc, List.filter_cons_of_pos (by simpa using hc), List.foldl_cons, ih]

/-- `reset_pool`. -/
theorem resetPool_accounted (h : Kept l m) :
    replay m.heap.live (resetPoolCalls m) = some (resetPool m).heap.live ∧
      Kept l (resetPool m) := by
  have haddrs : (resetPool m).pool.addrs = m.pool.addrs := by
    simp [Pool.addrs, resetPool, Function.comp_def]
  have hallocs : (resetPool m).pool.allocs = [] := rfl
  have hheap : (resetPool m).heap = m.pool.allocs.foldl Heap.free m.heap := foldl_free_large _ _
  have hall : Starts m.heap.live (m.pool.allocs ++ (l ++ m.pool.addrs)) := by
    refine ⟨h.starts.clear, h.starts.nonnull, h.starts.perm.trans ?_⟩
    rw [← List.append_assoc]
    exact List.perm_append_comm
  obtain ⟨hreplay, hstarts⟩ := hall.freedAll
  rw [resetPoolCalls, hheap]
  refine ⟨hreplay, ?_, ?_⟩
  · rw [hheap, haddrs, hallocs, List.append_nil]
    exact hstarts
  · have := h.current
    simp only [resetPool, List.length_map]
    omega

/-- `destroy_pool` leaves nothing. -/
theorem destroyPool_accounted (h : Kept [] m) :
    replay m.heap.live (destroyPoolCalls m) = some [] ∧ (destroyPool m).live = [] := by
  have hheap : destroyPool m = (m.pool.allocs ++ m.pool.addrs).foldl Heap.free m.heap := by
    rw [List.foldl_append, Pool.addrs, List.foldl_map, destroyPool, foldl_free_large]
    rfl
  have hall : Starts m.heap.live ((m.pool.allocs ++ m.pool.addrs) ++ []) := by
    refine ⟨h.starts.clear, h.starts.nonnull, h.starts.perm.trans ?_⟩
    rw [List.append_nil, List.nil_append]
    exact List.perm_append_comm
  obtain ⟨hreplay, hstarts⟩ := hall.freedAll
  have hnone := List.map_eq_nil_iff.mp hstarts.perm.eq_nil
  rw [destroyPoolCalls, hreplay, hheap, hnone]
  exact ⟨rfl, rfl⟩

/-! ## Runs -/

/-- A call of a function of the pool. -/
inductive PoolCall
  | palloc (n : ℕ)
  | pnalloc (n : ℕ)
  | pcalloc (n : ℕ)
  | pmemalign (n alignment : ℕ)
  | pfree (p : ℕ)
  | resetPool
  deriving DecidableEq, Repr

namespace PoolCall

/-- The pool after a call, and the pointer it returns. The last two return none, and are taken to
answer another pointer than NULL. -/
def run (m : PoolMem) : PoolCall → Option ℕ × PoolMem
  | .palloc n => Palloc.palloc m n
  | .pnalloc n => Palloc.pnalloc m n
  | .pcalloc n => Palloc.pcalloc m n
  | .pmemalign n alignment => Palloc.pmemalign m n alignment
  | .pfree p => (some 0, (Palloc.pfree m p).2)
  | .resetPool => (some 0, Palloc.resetPool m)

/-- The calls of the system allocator in a call. -/
def calls (m : PoolMem) : PoolCall → List HeapCall
  | .palloc n => pallocCalls m n true
  | .pnalloc n => pallocCalls m n false
  | .pcalloc n => pallocCalls m n true
  | .pmemalign n alignment => pmemalignCalls m n alignment
  | .pfree p => pfreeCalls m p
  | .resetPool => resetPoolCalls m

/-- The calls of the system allocator in a sequence of calls. -/
def callsAll (m : PoolMem) : List PoolCall → List HeapCall
  | [] => []
  | c :: cs => c.calls m ++ callsAll (c.run m).2 cs

/-- The pool after a sequence of calls. -/
def runAll (m : PoolMem) (cs : List PoolCall) : PoolMem := cs.foldl (fun m c => (c.run m).2) m

end PoolCall

/-- One call. -/
lemma Kept.call (h : Kept l m) (c : PoolCall) : Accounted l m (c.calls m) (c.run m) := by
  cases c with
  | palloc n => exact palloc_accounted h n true
  | pnalloc n => exact palloc_accounted h n false
  | pcalloc n => exact palloc_accounted h n true
  | pmemalign n al => exact pmemalign_accounted h n al
  | pfree p =>
    obtain ⟨hreplay, hkept⟩ := pfree_accounted h p
    exact ⟨hreplay, hkept, fun e => by cases e⟩
  | resetPool =>
    obtain ⟨hreplay, hkept⟩ := resetPool_accounted h
    exact ⟨hreplay, hkept, fun e => by cases e⟩

/-- A sequence of calls. -/
lemma Kept.calls (h : Kept l m) (cs : List PoolCall) :
    replay m.heap.live (PoolCall.callsAll m cs) = some (PoolCall.runAll m cs).heap.live ∧
      Kept l (PoolCall.runAll m cs) := by
  induction cs generalizing m with
  | nil => exact ⟨rfl, h⟩
  | cons c cs ih =>
    have hc := h.call c
    obtain ⟨hreplay, hkept⟩ := ih hc.kept
    exact ⟨replay_trans hc.replay hreplay, hkept⟩

/-- `create_pool` obtains the first block. -/
lemma createPool_accounted {size : ℕ} {script : List (Option ℕ)}
    (hc : createPool ⟨[], script⟩ size = some m) :
    replay [] (memalignCalls ⟨[], script⟩ poolAlignment size) = some m.heap.live ∧ Kept [] m := by
  rw [createPool] at hc
  rcases memalign_spec ⟨[], script⟩ poolAlignment size with ⟨s, hs⟩ | ⟨p, s, hf, hs⟩
  · rw [hs] at hc
    cases hc
  · rw [memalignCalls_some _ hs]
    rw [hs] at hc
    obtain rfl := Option.some.inj hc
    refine ⟨replay_got hf, ⟨⟨by simp, ?_, by simp [Pool.addrs, Pool.allocs]⟩, Nat.one_pos⟩⟩
    simpa using hf.1.ne'

/-- For any sequence of calls followed by `destroy_pool`, each region obtained from the system
allocator is freed once and nothing else is freed. -/
lemma run_accounted {size : ℕ} {script : List (Option ℕ)}
    (hcreate : createPool ⟨[], script⟩ size = some m) (cs : List PoolCall) :
    replay [] (memalignCalls ⟨[], script⟩ poolAlignment size ++ PoolCall.callsAll m cs ++
        destroyPoolCalls (PoolCall.runAll m cs)) = some [] ∧
      (destroyPool (PoolCall.runAll m cs)).live = [] := by
  obtain ⟨hfirst, hm⟩ := createPool_accounted hcreate
  obtain ⟨hreplay, hkept⟩ := hm.calls cs
  obtain ⟨hdestroy, hnone⟩ := destroyPool_accounted hkept
  exact ⟨replay_trans (replay_trans hfirst hreplay) hdestroy, hnone⟩

end Libcn.Palloc
