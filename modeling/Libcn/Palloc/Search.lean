import Libcn.Palloc.Session

/-!
# How far the search for room goes

`palloc_small` searches the blocks from `current` on, and `palloc_block` moves `current` past a
block that had no room in six searches. So the search stays short, however many blocks a pool has.
-/

namespace Libcn.Palloc

open Libcn.Lib

variable {m m' : PoolMem} {N : ℕ}

/-! ## The search -/

/-- The blocks that `palloc_small` searches. -/
def Pool.searched (p : Pool) : List Block := p.blocks.drop p.current

/-- How many blocks the loop of `palloc_small` looks at. -/
def smallRounds (size : ℕ) (align : Bool) : List Block → ℕ
  | [] => 0
  | b :: bs => if size ≤ ptrDiff b.stop (b.place align) then 1 else smallRounds size align bs + 1

lemma smallRounds_le (size : ℕ) (align : Bool) (bs : List Block) :
    smallRounds size align bs ≤ bs.length := by
  induction bs with
  | nil => exact Nat.le_refl 0
  | cons b bs ih =>
    rw [smallRounds, List.length_cons]
    split <;> omega

/-- The `failed` counts of these blocks. -/
def Pool.counts (p : Pool) : List ℕ := p.searched.map Block.failed

lemma Pool.length_counts (p : Pool) : p.counts.length = p.searched.length := List.length_map _

/-- The `failed` counts of a pool. -/
def Pool.failed (p : Pool) : List ℕ := p.blocks.map Block.failed

lemma Pool.counts_eq (p : Pool) : p.counts = p.failed.drop p.current := List.map_drop

/-! ## The counts -/

/-- The counts of `r` blocks that were searched `k` times in vain, and then of the block that each
of these searches added. -/
def stairs (r k : ℕ) : List ℕ := List.replicate r k ++ (List.range k).reverse ++ [0]

lemma length_stairs (r k : ℕ) : (stairs r k).length = r + k + 1 := by
  rw [stairs, List.length_append, List.length_append, List.length_replicate, List.length_reverse,
    List.length_range, List.length_singleton]

lemma mem_stairs_le {k x : ℕ} (hx : x ∈ (List.range k).reverse ++ [0]) (hk : k ≤ 5) : x ≤ 4 := by
  simp only [List.mem_append, List.mem_reverse, List.mem_range, List.mem_singleton] at hx
  omega

/-- The counts after the loop of `palloc_block`, which spares the last block. -/
lemma failLoop_failed (bs : List Block) (i c : ℕ) {l : List ℕ} {a : ℕ}
    (hbs : bs.map Block.failed = l ++ [a]) :
    (failLoop bs i c).2.map Block.failed = l.map (fun f => (f + 1) % 2 ^ 32) ++ [a] := by
  induction bs, i, c using failLoop.induct generalizing l with
  | case1 i c => simp at hbs
  | case2 b i c =>
    cases l with
    | nil => exact hbs
    | cons x l => simp at hbs
  | case3 b bs i c hne ih =>
    -- the block has a successor, so its count goes up
    cases l with
    | nil =>
      obtain rfl : bs = [] := by simpa using (List.cons.inj hbs).2
      exact (hne rfl).elim
    | cons x l =>
      rw [List.map_cons, List.cons_append] at hbs
      obtain ⟨rfl, htail⟩ := List.cons.inj hbs
      have htail := ih htail
      rw [failLoop, List.map_cons, List.map_cons, htail]
      · rfl
      · exact hne

/-- `current` stays where it is when no block has failed too often. -/
lemma failLoop_current_low (bs : List Block) (i c : ℕ) (hlow : ∀ x ∈ bs.map Block.failed, x ≤ 4) :
    (failLoop bs i c).1 = c := by
  induction bs, i, c using failLoop.induct with
  | case1 i c => rfl
  | case2 b i c => rfl
  | case3 b bs i c hne ih =>
    have hb : ¬ 4 < b.failed := Nat.not_lt.mpr (hlow _ (.head _))
    rw [failLoop]
    · show (failLoop bs (i + 1) (if 4 < b.failed then i + 1 else c)).1 = c
      rw [ih fun x hx => hlow x (.tail _ hx), if_neg hb]
    · exact hne

/-- `current` moves past the blocks that failed too often, if they come first. -/
lemma failLoop_current_high (r f : ℕ) (hf : 4 < f) {l : List ℕ} (hl : l ≠ [])
    (hlow : ∀ x ∈ l, x ≤ 4) (bs : List Block) (i c : ℕ)
    (hbs : bs.map Block.failed = List.replicate r f ++ l) :
    (failLoop bs i c).1 = if r = 0 then c else i + r := by
  -- on the blocks that failed too often; behind them `current` stays
  induction r generalizing bs i c with
  | zero =>
    refine failLoop_current_low bs i c fun x hx => hlow x ?_
    rwa [hbs] at hx
  | succ r ih =>
    cases bs with
    | nil => simp [List.replicate_succ] at hbs
    | cons b bs =>
      rw [List.replicate_succ, List.map_cons, List.cons_append] at hbs
      obtain ⟨rfl, hbs⟩ := List.cons.inj hbs
      have hne : bs ≠ [] := by
        rintro rfl
        have := congrArg List.length hbs
        simp only [List.map_nil, List.length_nil, List.length_append] at this
        exact hl (List.eq_nil_of_length_eq_zero (by omega))
      rw [failLoop]
      · show (failLoop bs (i + 1) (if 4 < b.failed then i + 1 else c)).1 = _
        rw [ih bs (i + 1) _ hbs, if_pos hf, if_neg (Nat.succ_ne_zero r)]
        split <;> omega
      · exact hne

/-! ## The invariant -/

/-- The counts of a pool that had `N` blocks when it was created or reset. -/
def Slim (N : ℕ) (m : PoolMem) : Prop :=
  ∃ r k, r ≤ max 1 (N - 1) ∧ k ≤ 5 ∧ m.pool.counts = stairs r k

lemma Slim.congr (h : Slim N m) (hfailed : m'.pool.failed = m.pool.failed)
    (hcurrent : m'.pool.current = m.pool.current) : Slim N m' := by
  obtain ⟨r, k, hr, hk, hcounts⟩ := h
  refine ⟨r, k, hr, hk, ?_⟩
  rw [Pool.counts_eq, hfailed, hcurrent, ← Pool.counts_eq, hcounts]

lemma Slim.length_le (h : Slim N m) : m.pool.searched.length ≤ max 7 (N + 5) := by
  obtain ⟨r, k, hr, hk, hcounts⟩ := h
  have hlen := congrArg List.length hcounts
  rw [Pool.length_counts, length_stairs] at hlen
  omega

/-- The counts with one search in vain more. -/
lemma stairs_succ (r k : ℕ) (hk : k ≤ 5) :
    (List.replicate r k ++ (List.range k).reverse).map (fun f => (f + 1) % 2 ^ 32) ++ [0] ++ [0] =
      stairs r (k + 1) := by
  have hrange : (List.range k).reverse.map (fun f => (f + 1) % 2 ^ 32) ++ [0] =
      (List.range (k + 1)).reverse := by
    rw [List.range_succ_eq_map, List.reverse_cons, List.map_reverse]
    have hsucc : (List.range k).map (fun f => (f + 1) % 2 ^ 32) = (List.range k).map Nat.succ := by
      refine List.map_congr_left fun x hx => ?_
      have := List.mem_range.mp hx
      omega
    rw [hsucc]
  have hk' : (k + 1) % 2 ^ 32 = k + 1 := by omega
  rw [List.map_append, List.map_replicate, hk', List.append_assoc (List.replicate r (k + 1)),
    hrange, stairs]

/-- `palloc_block` adds a block, and moves `current` when the counts are high. -/
lemma pallocBlock_slim (h : Slim N m) (size : ℕ) : Slim N (pallocBlock m size).2 := by
  obtain ⟨r, k, hr, hk, hcounts⟩ := h
  have hcur : m.pool.current < m.pool.blocks.length := by
    have hlen := congrArg List.length hcounts
    rw [Pool.length_counts, length_stairs, Pool.searched, List.length_drop] at hlen
    omega
  rw [pallocBlock]
  generalize m.heap.memalign poolAlignment (ptrDiff m.pool.head.stop m.pool.head.addr) = answer
  obtain ⟨new, heap⟩ := answer
  cases new with
  | none => exact ⟨r, k, hr, hk, hcounts⟩
  | some new =>
    have hbs : m.pool.searched.map Block.failed =
        (List.replicate r k ++ (List.range k).reverse) ++ [0] := hcounts
    have hloop := failLoop_failed m.pool.searched m.pool.current m.pool.current hbs
    -- the counts of all blocks from the old `current` on
    have hnew : ∀ (e : Extent) (j : ℕ), ((m.pool.blocks.take m.pool.current ++
        (failLoop m.pool.searched m.pool.current m.pool.current).2 ++ [(⟨e, 0⟩ : Block)]).map
          Block.failed).drop (m.pool.current + j) = (stairs r (k + 1)).drop j := by
      intro e j
      have htake : ((m.pool.blocks.take m.pool.current).map Block.failed).length =
          m.pool.current := by
        rw [List.length_map, List.length_take]
        omega
      rw [List.append_assoc, List.map_append, List.map_append, hloop, ← stairs_succ r k hk,
        List.drop_append, htake, Nat.add_sub_cancel_left, List.drop_eq_nil_of_le (by omega)]
      rfl
    by_cases hk5 : k = 5
    · -- `current` moves past the first `r` blocks, and a new staircase starts
      subst hk5
      have hcurrent := failLoop_current_high r 5 (by decide)
        (l := (List.range 5).reverse ++ [0]) (by simp) (fun x hx => mem_stairs_le hx hk)
        m.pool.searched m.pool.current m.pool.current (by rw [hbs, List.append_assoc])
      refine ⟨1, 5, le_max_left _ _, Nat.le_refl 5, ?_⟩
      rw [Pool.counts_eq, Pool.failed]
      show List.drop (failLoop m.pool.searched m.pool.current m.pool.current).1 _ = _
      have hzero : (failLoop m.pool.searched m.pool.current m.pool.current).1 =
          m.pool.current + r := by
        rw [hcurrent]
        split <;> omega
      rw [hzero]
      refine (hnew _ r).trans ?_
      rw [stairs, List.append_assoc, List.drop_append, List.length_replicate, Nat.sub_self,
        List.drop_eq_nil_of_le (by rw [List.length_replicate])]
      rfl
    · -- no count is above 4 yet, so `current` stays
      have hlow : ∀ x ∈ m.pool.searched.map Block.failed, x ≤ 4 := by
        intro x hx
        rw [hbs, List.append_assoc] at hx
        rcases List.mem_append.mp hx with hx | hx
        · have := List.eq_of_mem_replicate hx
          omega
        · exact mem_stairs_le hx hk
      refine ⟨r, k + 1, hr, by omega, ?_⟩
      rw [Pool.counts_eq, Pool.failed]
      show List.drop (failLoop m.pool.searched m.pool.current m.pool.current).1 _ = _
      rw [failLoop_current_low _ _ _ hlow]
      exact hnew _ 0

/-! ## The calls -/

lemma failed_modify (bs : List Block) (i x : ℕ) :
    (bs.modify i fun b => { b with last := x }).map Block.failed = bs.map Block.failed := by
  apply List.ext_getElem?
  intro j
  simp only [List.getElem?_map, List.getElem?_modify]
  by_cases hj : i = j
  · subst hj
    cases bs[i]? <;> simp
  · simp [hj]

lemma Slim.setLast (h : Slim N m) (x : ℕ) : Slim N (m.setLast x) :=
  h.congr (failed_modify _ _ _) rfl

lemma pallocSmall_slim (h : Slim N m) (size : ℕ) (align : Bool) :
    Slim N (pallocSmall m size align).2 := by
  rw [pallocSmall]
  cases smallLoop size align (m.pool.blocks.drop m.pool.current) m.pool.current with
  | some found => exact h.congr (failed_modify _ _ _) rfl
  | none => exact pallocBlock_slim h size

lemma newCell_slim (h : Slim N m) (p : ℕ) : Slim N (newCell m p).2 := by
  have hsmall := pallocSmall_slim h sizeofPoolLarge true
  rw [newCell]
  generalize pallocSmall m sizeofPoolLarge true = r at hsmall
  obtain ⟨cell, m'⟩ := r
  cases cell with
  | none => exact hsmall.congr rfl rfl
  | some cell => exact hsmall.congr rfl rfl

lemma pallocLarge_slim (h : Slim N m) (size : ℕ) : Slim N (pallocLarge m size).2 := by
  rw [pallocLarge]
  generalize m.heap.alloc size = r
  obtain ⟨p, heap⟩ := r
  cases p with
  | none => exact h.congr rfl rfl
  | some p =>
    dsimp only
    cases reuseLoop p m.pool.large 0 with
    | some large => exact h.congr rfl rfl
    | none =>
      have hheap : Slim N { m with heap := heap } := h.congr rfl rfl
      exact newCell_slim hheap p

lemma palloc_slim (h : Slim N m) (size : ℕ) : Slim N (palloc m size).2 := by
  rw [palloc]
  split
  · exact pallocSmall_slim h size true
  · exact pallocLarge_slim h size

lemma pnalloc_slim (h : Slim N m) (size : ℕ) : Slim N (pnalloc m size).2 := by
  rw [pnalloc]
  split
  · exact pallocSmall_slim h size false
  · exact pallocLarge_slim h size

lemma pmemalign_slim (h : Slim N m) (size alignment : ℕ) :
    Slim N (pmemalign m size alignment).2 := by
  rw [pmemalign]
  generalize m.heap.memalign alignment size = r
  obtain ⟨p, heap⟩ := r
  cases p with
  | none => exact h.congr rfl rfl
  | some p =>
    have hheap : Slim N { m with heap := heap } := h.congr rfl rfl
    exact newCell_slim hheap p

lemma pfree_slim (h : Slim N m) (p : ℕ) : Slim N (pfree m p).2 := by
  rw [pfree]
  cases pfreeLoop p m.pool.large with
  | none => exact h
  | some large => exact h.congr rfl rfl

lemma arrayCreate_slim (h : Slim N m) (n size : ℕ) : Slim N (arrayCreate m n size).2 := by
  have hheader := palloc_slim h sizeofArray
  rw [arrayCreate]
  generalize palloc m sizeofArray = r at hheader
  obtain ⟨addr, m'⟩ := r
  cases addr with
  | none => exact hheader
  | some addr =>
    have helts := palloc_slim hheader (n * size % 2 ^ 64)
    show Slim N (arrayInit m' addr n size).2
    rw [arrayInit]
    generalize palloc m' (n * size % 2 ^ 64) = r' at helts
    obtain ⟨elts, m''⟩ := r'
    cases elts with
    | none => exact helts
    | some elts => exact helts

lemma arrayDestroy_slim (h : Slim N m) (a : Arr) : Slim N (arrayDestroy m a) := by
  rw [arrayDestroy]
  split <;> split
  · exact (h.setLast _).setLast _
  · exact h.setLast _
  · exact h.setLast _
  · exact h

lemma pushFull_slim (h : Slim N m) (a : Arr) : Slim N (pushFull m a).2.1 := by
  have hnew := palloc_slim h (2 * (a.size * a.nalloc % 2 ^ 64) % 2 ^ 64)
  rw [pushFull]
  split
  · exact h.setLast _
  · generalize palloc m (2 * (a.size * a.nalloc % 2 ^ 64) % 2 ^ 64) = r at hnew
    obtain ⟨new, m'⟩ := r
    cases new with
    | none => exact hnew
    | some new => exact hnew

lemma pushNFull_slim (h : Slim N m) (a : Arr) (n : ℕ) : Slim N (pushNFull m a n).2.1 := by
  have hnew := palloc_slim h
    (2 * (if a.nalloc ≤ n then n else a.nalloc) % 2 ^ 32 * a.size % 2 ^ 64)
  rw [pushNFull]
  split
  · exact h.setLast _
  · dsimp only
    generalize palloc m
      (2 * (if a.nalloc ≤ n then n else a.nalloc) % 2 ^ 32 * a.size % 2 ^ 64) = r at hnew
    obtain ⟨new, m'⟩ := r
    cases new with
    | none => exact hnew
    | some new => exact hnew

lemma pushEnd_mem (n : ℕ) (r : Bool × PoolMem × Arr) : (pushEnd n r).2.1 = r.2.1 := by
  obtain ⟨found, m, a⟩ := r
  cases found <;> rfl

lemma Session.slim_grant {s : Session} {r : Option ℕ × PoolMem} (h : Slim N r.2) (aligned : Bool)
    (n : ℕ) : Slim N (s.grant aligned n r).mem := by
  obtain ⟨p, m⟩ := r
  cases p <;> exact h

/-- Every call but `reset_pool`. -/
lemma PoolOp.run_slim {s : Session} {op : PoolOp} (h : Slim N s.mem) (hop : op ≠ .resetPool) :
    Slim N (op.run s).mem := by
  cases op with
  | palloc n => exact Session.slim_grant (palloc_slim h n) _ _
  | pnalloc n => exact Session.slim_grant (pnalloc_slim h n) _ _
  | pcalloc n => exact Session.slim_grant (palloc_slim h n) _ _
  | pmemalign n alignment => exact Session.slim_grant (pmemalign_slim h n alignment) _ _
  | pfree p =>
    have hfree := pfree_slim h p
    rw [PoolOp.run]
    generalize Palloc.pfree s.mem p = r at hfree
    obtain ⟨found, m⟩ := r
    cases found <;> exact hfree
  | resetPool => exact (hop rfl).elim
  | arrayCreate n size =>
    have hcreate := arrayCreate_slim h n size
    rw [PoolOp.run]
    generalize Palloc.arrayCreate s.mem n size = r at hcreate
    obtain ⟨a, m⟩ := r
    cases a <;> exact hcreate
  | arrayPush i =>
    rw [PoolOp.run]
    cases s.arrays[i]? with
    | none => exact h
    | some a =>
      show Slim N (Palloc.arrayPush s.mem a).2.1
      rw [Palloc.arrayPush, pushEnd_mem]
      split
      · exact pushFull_slim h a
      · exact h
  | arrayPushN i n =>
    rw [PoolOp.run]
    cases s.arrays[i]? with
    | none => exact h
    | some a =>
      show Slim N (Palloc.arrayPushN s.mem a n).2.1
      rw [Palloc.arrayPushN, pushEnd_mem]
      split
      · exact pushNFull_slim h a n
      · exact h
  | arrayDestroy i =>
    rw [PoolOp.run]
    cases s.arrays[i]? with
    | none => exact h
    | some a => exact arrayDestroy_slim h a

/-- `reset_pool` clears the counts. -/
lemma resetPool_slim (h : Slim N m) : Slim m.pool.blocks.length (resetPool m) := by
  obtain ⟨r, k, -, -, hcounts⟩ := h
  have hpos : 0 < m.pool.blocks.length := by
    have hlen := congrArg List.length hcounts
    rw [Pool.length_counts, length_stairs, Pool.searched, List.length_drop] at hlen
    omega
  refine ⟨m.pool.blocks.length - 1, 0, le_max_right _ _, Nat.zero_le 5, ?_⟩
  have hzero : (resetPool m).pool.counts = List.replicate m.pool.blocks.length 0 := by
    show ((m.pool.blocks.map _).drop 0).map Block.failed = _
    rw [List.drop_zero, List.map_map]
    exact List.map_const' ..
  have hsucc : m.pool.blocks.length = m.pool.blocks.length - 1 + 1 := by omega
  rw [hzero, hsucc, List.replicate_succ', Nat.add_sub_cancel]
  simp [stairs]

/-! ## Runs -/

/-- A run without `reset_pool`. -/
lemma slim_run {s : Session} {ops : List PoolOp} (h : Slim N s.mem) (hops : .resetPool ∉ ops) :
    Slim N (ops.foldl PoolOp.run s).mem := by
  induction ops generalizing s with
  | nil => exact h
  | cons op ops ih =>
    have hop : op ≠ .resetPool := fun e => hops (e ▸ .head _)
    exact ih (PoolOp.run_slim h hop) fun hmem => hops (.tail _ hmem)

/-- In any run there was some number of blocks at the last `reset_pool`. -/
lemma exists_slim {s : Session} (ops : List PoolOp) (h : Slim N s.mem) :
    ∃ N', Slim N' (ops.foldl PoolOp.run s).mem := by
  induction ops generalizing s N with
  | nil => exact ⟨N, h⟩
  | cons op ops ih =>
    by_cases hop : op = .resetPool
    · subst hop
      exact ih (s := PoolOp.run s .resetPool) (resetPool_slim h)
    · exact ih (PoolOp.run_slim h hop)

lemma createPool_slim {heap : Heap} {size : ℕ} (h : createPool heap size = some m) : Slim 1 m := by
  rw [createPool] at h
  generalize heap.memalign poolAlignment size = r at h
  obtain ⟨p, heap'⟩ := r
  cases p with
  | none => cases h
  | some p =>
    obtain rfl := Option.some.inj h
    exact ⟨0, 0, Nat.zero_le _, Nat.zero_le 5, rfl⟩

/-- **The search is short.** After any calls but `reset_pool` on a new pool, a search of `palloc_small`
looks at no more than seven blocks, and after such calls on a pool that was reset with `N` blocks
at no more than `max 7 (N + 5)`. -/
theorem palloc_search {heap : Heap} {size : ℕ} {m : PoolMem}
    (hcreate : createPool heap size = some m) (before : List PoolOp) {ops : List PoolOp}
    (hops : .resetPool ∉ ops) (n : ℕ) (align : Bool) :
    smallRounds n align (runOps m ops).mem.pool.searched ≤ 7 ∧
      smallRounds n align (runOps m (before ++ .resetPool :: ops)).mem.pool.searched ≤
        max 7 ((runOps m before).mem.pool.blocks.length + 5) := by
  have hnew : Slim 1 (⟨m, [], []⟩ : Session).mem := createPool_slim hcreate
  constructor
  · exact (smallRounds_le n align _).trans (slim_run hnew hops).length_le
  · -- what came before the last `reset_pool` counts only by the number of blocks
    obtain ⟨N, hbefore⟩ := exists_slim before hnew
    have hreset : Slim (runOps m before).mem.pool.blocks.length
        (PoolOp.run (runOps m before) .resetPool).mem := resetPool_slim hbefore
    have hrun := (slim_run hreset hops).length_le
    have hsplit : runOps m (before ++ .resetPool :: ops) =
        ops.foldl PoolOp.run (PoolOp.run (runOps m before) .resetPool) := by
      rw [runOps, List.foldl_append]
      rfl
    rw [hsplit]
    exact (smallRounds_le n align _).trans hrun

/-- A pool that is reset with three blocks, and then searched to its eighth block. -/
theorem palloc_search_eight :
    ∃ m, createPool ⟨[], (List.range 8).map fun i => some (4096 * (i + 1))⟩ 96 = some m ∧
      smallRounds 40 true (runOps m (List.replicate 3 (.palloc 40) ++
        .resetPool :: List.replicate 8 (.palloc 40))).mem.pool.searched = 8 ∧
      8 ≤ max 7 ((runOps m (List.replicate 3 (.palloc 40))).mem.pool.blocks.length + 5) := by
  have hrun : (createPool ⟨[], (List.range 8).map fun i => some (4096 * (i + 1))⟩ 96).any
      (fun m => smallRounds 40 true (runOps m (List.replicate 3 (.palloc 40) ++
        .resetPool :: List.replicate 8 (.palloc 40))).mem.pool.searched == 8) = true := by
    decide +kernel
  obtain ⟨m, hcreate, hm⟩ := (Option.any_eq_true _ _).mp hrun
  have height := eq_of_beq hm
  have hops : .resetPool ∉ List.replicate 8 (PoolOp.palloc 40) := by decide
  have hbound := (palloc_search hcreate (List.replicate 3 (.palloc 40)) hops 40 true).2
  rw [height] at hbound
  exact ⟨m, hcreate, height, hbound⟩

end Libcn.Palloc
