import Libcn.Palloc.Tidy

/-!
# What the pool functions leave behind

Each function of `palloc.c` keeps the pool tidy, and hands out a region that joins those in use.
-/

namespace Libcn.Palloc

open Libcn.Lib

/-! ## Pools in order -/

/-- The extents of the blocks. -/
def Pool.extents (p : Pool) : List Extent := p.blocks.map Block.toExtent

/-- A pool created with `size` bytes, in which the regions `R` are in use. -/
structure Owned (size : ℕ) (m : PoolMem) (R : List Region) : Prop where
  tidy : Tidy size m.heap.live m.pool.extents m.pool.large R
  max : m.pool.max = min (size - sizeofPool) maxAllocFromPool
  current : m.pool.current < m.pool.blocks.length

/-- A live allocation that the pool does not use. -/
def PoolMem.Loose (m : PoolMem) (o : Region) : Prop :=
  Palloc.Loose m.heap.live m.pool.extents m.pool.large o

variable {size : ℕ} {m : PoolMem} {R : List Region}

lemma Pool.extents_length (p : Pool) : p.extents.length = p.blocks.length := List.length_map _

namespace Owned

lemma perm (h : Owned size m R) {R' : List Region} (hp : R.Perm R') : Owned size m R' :=
  { h with tidy := h.tidy.perm hp }

lemma sublist (h : Owned size m R) {R' : List Region} (hs : R'.Sublist R) : Owned size m R' :=
  { h with tidy := h.tidy.sublist hs }

lemma extents_ne_nil (h : Owned size m R) : m.pool.extents ≠ [] := by
  intro he
  have := h.current
  rw [← Pool.extents_length, he] at this
  simp at this

/-- Only the script of the system allocator changes. -/
lemma script (h : Owned size m R) (s : List (Option ℕ)) :
    Owned size { m with heap := ⟨m.heap.live, s⟩ } R := ⟨h.tidy, h.max, h.current⟩

end Owned

/-- The system allocator answers NULL, or with a fresh region. -/
lemma memalign_spec (h : Heap) (al n : ℕ) :
    (∃ s, h.memalign al n = (none, ⟨h.live, s⟩)) ∨
    ∃ a s, Fresh h.live a n al ∧ h.memalign al n = (some a, ⟨⟨a, n⟩ :: h.live, s⟩) := by
  unfold Heap.memalign
  split
  · split
    · rename_i hf
      exact .inr ⟨_, _, hf, rfl⟩
    · exact .inl ⟨_, rfl⟩
  · exact .inl ⟨_, rfl⟩
  · exact .inl ⟨_, rfl⟩

lemma memalign_live (h : Heap) (al n : ℕ) {r : Region} (hr : r ∈ h.live) :
    r ∈ (h.memalign al n).2.live := by
  rcases memalign_spec h al n with ⟨s, hs⟩ | ⟨a, s, -, hs⟩
  · rw [hs]
    exact hr
  · rw [hs]
    exact .tail _ hr

/-! ## Small allocations -/

/-- The loop finds a block with room. -/
lemma smallLoop_some {n : ℕ} {align : Bool} {bs : List Block} {i j place : ℕ}
    (h : smallLoop n align bs i = some (j, place)) :
    ∃ k b, j = i + k ∧ bs[k]? = some b ∧ place = b.place align ∧ n ≤ ptrDiff b.stop place := by
  induction bs generalizing i with
  | nil => cases h
  | cons b bs ih =>
    unfold smallLoop at h
    split at h
    · rename_i hroom
      simp only [Option.some.injEq, Prod.mk.injEq] at h
      obtain ⟨rfl, rfl⟩ := h
      exact ⟨0, b, rfl, rfl, rfl, hroom⟩
    · obtain ⟨k, b', rfl, hk, hplace, hroom⟩ := ih h
      exact ⟨k + 1, b', by omega, hk, hplace, hroom⟩

/-- The place a block offers is free, and aligned if asked. The end of a block is aligned, so
that aligning the mark does not pass it. -/
lemma Extent.Ok.room {live : List Region} {i n : ℕ} {e : Extent} {align : Bool}
    (hb : e.Ok size live i) (hmod : size % poolAlignment = 0) (hbound : e.stop ≤ 2 ^ 63)
    (hn : n ≤ ptrDiff e.stop (e.place align)) :
    e.last ≤ e.place align ∧ e.place align + n ≤ e.stop ∧
      e.place align % (if align then alignment else 1) = 0 := by
  have h₁ := hb.aligned
  have h₂ := hb.stop
  have h₃ := hb.high
  unfold poolAlignment at *
  unfold ptrDiff Extent.place at hn
  unfold Extent.place
  cases align with
  | true =>
    unfold alignPtr alignment at *
    simp only [if_true] at *
    omega
  | false =>
    simp only [Bool.false_eq_true, if_false] at *
    omega

/-- The loop over the `failed` counts keeps the extents, and `current` stays in the chain. -/
lemma failLoop_spec (bs : List Block) (i c : ℕ) (hc : c < i + bs.length) :
    (failLoop bs i c).2.map Block.toExtent = bs.map Block.toExtent ∧
      (failLoop bs i c).1 < i + bs.length := by
  induction bs, i, c using failLoop.induct with
  | case1 i c => exact ⟨rfl, hc⟩
  | case2 b i c => exact ⟨rfl, hc⟩
  | case3 b bs i c hne ih =>
    cases bs with
    | nil => exact (hne rfl).elim
    | cons b' bs =>
      simp only [List.length_cons] at hc ih ⊢
      have := ih (by split <;> omega)
      unfold failLoop
      simp only [List.map_cons] at this ⊢
      exact ⟨by rw [this.1], by omega⟩

/-- Raising the mark of a block, seen on the extents. -/
lemma map_toExtent_modify (bs : List Block) (i x : ℕ) :
    (bs.modify i fun b => { b with last := x }).map Block.toExtent =
      setLast (bs.map Block.toExtent) i x := by
  apply List.ext_getElem?
  intro j
  simp only [setLast, List.getElem?_map, List.getElem?_modify]
  by_cases hj : i = j
  · subst hj
    cases bs[i]? <;> simp
  · simp [hj]

/-- The blocks after `palloc_block`: the old ones, with their counts raised, and the new one. -/
lemma map_toExtent_append (p : Pool) (hc : p.current < p.blocks.length) (b : Block) :
    (p.blocks.take p.current ++ (failLoop (p.blocks.drop p.current) p.current p.current).2 ++
      [b]).map Block.toExtent = p.extents ++ [b.toExtent] := by
  have hlen : (p.blocks.drop p.current).length = p.blocks.length - p.current := List.length_drop
  obtain ⟨hext, -⟩ := failLoop_spec (p.blocks.drop p.current) p.current p.current (by omega)
  rw [List.map_append, List.map_append, hext, ← List.map_append, List.take_append_drop]
  rfl

/-- The outcome of a request for `n` bytes from the blocks. -/
inductive Served (size : ℕ) (m : PoolMem) (R : List Region) (n al : ℕ) :
    Option ℕ × PoolMem → Prop
  | null (s : List (Option ℕ)) : Served size m R n al (none, { m with heap := ⟨m.heap.live, s⟩ })
  | place {a : ℕ} {m' : PoolMem} (owned : Owned size m' (⟨a, n⟩ :: R))
      (inBlock : InBlock m'.pool.extents ⟨a, n⟩) (aligned : a % al = 0)
      (large : m'.pool.large = m.pool.large) (loose : ∀ o, m.Loose o → m'.Loose o) :
      Served size m R n al (some a, m')

/-- `palloc_block` serves the request from a new block. -/
theorem pallocBlock_spec (h : Owned size m R) {n : ℕ} (hn : n + sizeofPoolData ≤ size) :
    Served size m R n alignment (pallocBlock m n) := by
  have hcur := h.current
  obtain ⟨b, bs, hblocks⟩ : ∃ b bs, m.pool.blocks = b :: bs := by
    apply List.exists_cons_of_length_pos
    omega
  have h₀ : m.pool.extents[0]? = some b.toExtent := by
    rw [Pool.extents, hblocks]
    rfl
  -- the new block is as large as the first
  have hsize : ptrDiff m.pool.head.stop m.pool.head.addr = size := by
    have := (h.tidy.block _ _ h₀).stop
    have := h.tidy.stop_le h₀
    simp only [Pool.head, hblocks, List.headD_cons]
    unfold ptrDiff
    omega
  rcases memalign_spec m.heap poolAlignment size with ⟨s, hs⟩ | ⟨new, s, hf, hs⟩
  · simp only [pallocBlock, hsize, hs]
    exact .null s
  · simp only [pallocBlock, hsize, hs]
    obtain ⟨-, hal, hend, -⟩ := id hf
    have hplace : alignPtr (new + sizeofPoolData) alignment = new + sizeofPoolData := by
      unfold sizeofPoolData at hn ⊢
      unfold poolAlignment at hal
      unfold alignPtr alignment
      omega
    rw [hplace]
    have hlen : (m.pool.blocks.drop m.pool.current).length =
        m.pool.blocks.length - m.pool.current := List.length_drop
    obtain ⟨-, hc⟩ := failLoop_spec (m.pool.blocks.drop m.pool.current)
      m.pool.current m.pool.current (by omega)
    have hloose := h.tidy.loose_fresh hf
    -- the blocks are the old ones, and the new one with its mark raised by the request
    have hE : (m.pool.blocks.take m.pool.current ++
          (failLoop (m.pool.blocks.drop m.pool.current) m.pool.current m.pool.current).2 ++
          [(⟨⟨new, new + sizeofPoolData + n, new + size⟩, 0⟩ : Block)]).map Block.toExtent =
        setLast (m.pool.extents ++ [⟨new, new + sizeofPoolData, new + size⟩])
          m.pool.extents.length (new + sizeofPoolData + n) := by
      rw [map_toExtent_append _ hcur, setLast_concat]
    have ht := (h.tidy.fresh hf).addBlock h.extents_ne_nil hloose hal
    have hlast : (m.pool.extents ++ [⟨new, new + sizeofPoolData, new + size⟩])[
        m.pool.extents.length]? = some ⟨new, new + sizeofPoolData, new + size⟩ := by simp
    refine .place ⟨?_, h.max, ?_⟩ ?_ ?_ rfl ?_
    · rw [Pool.extents, hE]
      refine ht.take (n := ⟨new + sizeofPoolData, n⟩) hlast (Nat.le_refl _) ?_
      unfold Region.stop
      simp only
      omega
    · rw [← Pool.extents_length, Pool.extents, hE]
      simp only [setLast, List.length_modify, List.length_append, Pool.extents_length]
      omega
    · rw [Pool.extents, hE]
      exact ht.inBlock_take (n := ⟨new + sizeofPoolData, n⟩) hlast (Nat.le_refl _)
    · unfold poolAlignment at hal
      unfold sizeofPoolData alignment
      omega
    · rintro o ⟨h₁, h₂, h₃, h₄⟩
      refine ⟨h₁, .tail _ h₂, ?_, h₄⟩
      rw [Pool.extents, hE, map_addr_setLast, List.map_append, List.mem_append]
      rintro (ho | ho)
      · exact h₃ ho
      · rw [List.map_singleton, List.mem_singleton] at ho
        exact (hf.2.2.2 o h₂).start_ne ho.symm

/-- `palloc_small`. -/
theorem pallocSmall_spec (h : Owned size m R) {n : ℕ} (align : Bool)
    (hn : n + sizeofPoolData ≤ size) :
    Served size m R n (if align then alignment else 1) (pallocSmall m n align) := by
  unfold pallocSmall
  match hloop : smallLoop n align (m.pool.blocks.drop m.pool.current) m.pool.current with
  | some (j, place) =>
    obtain ⟨k, b, rfl, hk, rfl, hroom⟩ := smallLoop_some hloop
    simp only
    rw [List.getElem?_drop] at hk
    have hi : m.pool.extents[m.pool.current + k]? = some b.toExtent := by
      rw [Pool.extents, List.getElem?_map, hk]
      rfl
    obtain ⟨hlow, hhigh, hal⟩ :=
      (h.tidy.block _ _ hi).room h.tidy.size_mod (h.tidy.stop_le hi) hroom
    have hE : (m.pool.blocks.modify (m.pool.current + k)
          fun b' => { b' with last := b.place align + n }).map Block.toExtent =
        setLast m.pool.extents (m.pool.current + k) (b.place align + n) :=
      map_toExtent_modify _ _ _
    refine .place ⟨?_, h.max, ?_⟩ ?_ hal rfl ?_
    · rw [Pool.extents, hE]
      exact h.tidy.take (n := ⟨b.place align, n⟩) hi hlow hhigh
    · rw [List.length_modify]
      exact h.current
    · rw [Pool.extents, hE]
      exact h.tidy.inBlock_take (n := ⟨b.place align, n⟩) hi hlow
    · rintro o ⟨h₁, h₂, h₃, h₄⟩
      refine ⟨h₁, h₂, ?_, h₄⟩
      rw [Pool.extents, hE, map_addr_setLast]
      exact h₃
  | none =>
    have hblock := pallocBlock_spec h hn
    simp only
    -- a new block is aligned whether or not the caller asks
    generalize pallocBlock m n = r at hblock
    cases hblock with
    | null s => exact .null s
    | place owned inBlock aligned large loose =>
      refine .place owned inBlock ?_ large loose
      cases align with
      | true => exact aligned
      | false => exact Nat.mod_one _

/-- `palloc_small` gives nothing back. -/
lemma pallocSmall_live (m : PoolMem) (n : ℕ) (align : Bool) {r : Region} (hr : r ∈ m.heap.live) :
    r ∈ (pallocSmall m n align).2.heap.live := by
  unfold pallocSmall
  split
  · exact hr
  · have hlive := memalign_live m.heap poolAlignment (ptrDiff m.pool.head.stop m.pool.head.addr) hr
    unfold pallocBlock
    simp only
    split
    · rename_i heq
      exact (congrArg (·.2.live) heq) ▸ hlive
    · rename_i heq
      exact (congrArg (·.2.live) heq) ▸ hlive

/-! ## Large allocations -/

/-- The outcome of a request for `n` bytes. -/
inductive Granted (size : ℕ) (R : List Region) (n al : ℕ) : Option ℕ × PoolMem → Prop
  | null {m' : PoolMem} (owned : Owned size m' R) : Granted size R n al (none, m')
  | region {a : ℕ} {m' : PoolMem} (owned : Owned size m' (⟨a, n⟩ :: R)) (aligned : a % al = 0) :
      Granted size R n al (some a, m')

/-- A request served from the blocks. -/
lemma Served.granted {n al : ℕ} {r : Option ℕ × PoolMem} (h : Owned size m R)
    (hs : Served size m R n al r) : Granted size R n al r := by
  cases hs with
  | null s => exact .null (h.script s)
  | place owned _ aligned _ _ => exact .region owned aligned

/-- A fresh allocation, before the pool holds it. -/
lemma Owned.fresh (h : Owned size m R) {a n al : ℕ} (hf : Fresh m.heap.live a n al)
    (s : List (Option ℕ)) :
    Owned size { m with heap := ⟨⟨a, n⟩ :: m.heap.live, s⟩ } R ∧
      PoolMem.Loose { m with heap := ⟨⟨a, n⟩ :: m.heap.live, s⟩ } ⟨a, n⟩ :=
  ⟨⟨h.tidy.fresh hf, h.max, h.current⟩, h.tidy.loose_fresh hf⟩

/-- A new cell holds the allocation, or the allocation is freed again. -/
theorem newCell_spec (h : Owned size m R) {p n al : ℕ} (ho : m.Loose ⟨p, n⟩)
    (hal : p % al = 0) : Granted size R n al (newCell m p) := by
  have hmin := h.tidy.size_min
  have hn : sizeofPoolLarge + sizeofPoolData ≤ size := by
    unfold minPoolSize at hmin
    unfold sizeofPoolLarge sizeofPoolData
    omega
  have hs := pallocSmall_spec h true hn
  unfold newCell
  generalize pallocSmall m sizeofPoolLarge true = r at hs
  cases hs with
  | null s =>
    apply Granted.null
    have hfree := h.tidy.free ho.block ho.cell
    exact ⟨hfree, h.max, h.current⟩
  | place owned inBlock _ _ loose =>
    refine .region ⟨?_, owned.max, owned.current⟩ hal
    exact owned.tidy.addCell inBlock (loose _ ho)

/-- The loop over the cells fills one that holds nothing. -/
lemma reuseLoop_some {p : ℕ} {cs cs' : List Cell} {n : ℕ} (h : reuseLoop p cs n = some cs') :
    ∃ l₁ c l₂, cs = l₁ ++ c :: l₂ ∧ c.alloc = 0 ∧ cs' = l₁ ++ { c with alloc := p } :: l₂ := by
  induction cs generalizing n cs' with
  | nil => cases h
  | cons c cs ih =>
    unfold reuseLoop at h
    split at h
    · rename_i hc
      exact ⟨[], c, cs, rfl, hc, (Option.some.inj h).symm⟩
    · split at h
      · cases h
      · obtain ⟨cs'', hcs, rfl⟩ := Option.map_eq_some_iff.mp h
        obtain ⟨l₁, c', l₂, rfl, hc', rfl⟩ := ih hcs
        exact ⟨c :: l₁, c', l₂, rfl, hc', rfl⟩

/-- `palloc_large`. -/
theorem pallocLarge_spec (h : Owned size m R) (n : ℕ) :
    Granted size R n alignment (pallocLarge m n) := by
  unfold pallocLarge Heap.alloc
  rcases memalign_spec m.heap alignment n with ⟨s, hs⟩ | ⟨p, s, hf, hs⟩
  · rw [hs]
    exact .null (h.script s)
  · rw [hs]
    obtain ⟨howned, hloose⟩ := h.fresh hf s
    match hr : reuseLoop p m.pool.large 0 with
    | some large =>
      obtain ⟨l₁, c, l₂, hl, hc, rfl⟩ := reuseLoop_some hr
      simp only [hr]
      refine .region ⟨?_, h.max, h.current⟩ hf.2.1
      have ht := howned.tidy
      unfold PoolMem.Loose at hloose
      simp only [hl] at ht hloose
      exact ht.assign hc hloose
    | none =>
      simp only [hr]
      exact newCell_spec howned hloose hf.2.1

/-- `palloc` and `pnalloc`. -/
lemma small_or_large (h : Owned size m R) (n : ℕ) (align : Bool) :
    Granted size R n (if align then alignment else 1)
      (if n ≤ m.pool.max then pallocSmall m n align else pallocLarge m n) := by
  by_cases hn : n ≤ m.pool.max
  · rw [if_pos hn]
    have hmin := h.tidy.size_min
    rw [h.max] at hn
    apply Served.granted h
    apply pallocSmall_spec h
    unfold minPoolSize at hmin
    unfold sizeofPool at hn
    unfold sizeofPoolData
    omega
  · rw [if_neg hn]
    have hlarge := pallocLarge_spec h n
    cases align with
    | true => exact hlarge
    | false =>
      generalize pallocLarge m n = r at hlarge
      cases hlarge with
      | null owned => exact .null owned
      | region owned _ => exact .region owned (Nat.mod_one _)

theorem palloc_spec (h : Owned size m R) (n : ℕ) : Granted size R n alignment (palloc m n) :=
  small_or_large h n true

theorem pnalloc_spec (h : Owned size m R) (n : ℕ) : Granted size R n 1 (pnalloc m n) :=
  small_or_large h n false

/-- `pmemalign`. -/
theorem pmemalign_spec (h : Owned size m R) (n al : ℕ) :
    Granted size R n al (pmemalign m n al) := by
  unfold pmemalign
  rcases memalign_spec m.heap al n with ⟨s, hs⟩ | ⟨p, s, hf, hs⟩
  · rw [hs]
    exact .null (h.script s)
  · rw [hs]
    obtain ⟨howned, hloose⟩ := h.fresh hf s
    exact newCell_spec howned hloose hf.2.1

/-! ## Giving back -/

/-- The loop over the cells clears the one that holds the allocation. -/
lemma pfreeLoop_some {p : ℕ} {cs cs' : List Cell} (h : pfreeLoop p cs = some cs') :
    ∃ l₁ c l₂, cs = l₁ ++ c :: l₂ ∧ c.alloc = p ∧ cs' = l₁ ++ { c with alloc := 0 } :: l₂ := by
  induction cs generalizing cs' with
  | nil => cases h
  | cons c cs ih =>
    unfold pfreeLoop at h
    split at h
    · rename_i hc
      exact ⟨[], c, cs, rfl, hc, (Option.some.inj h).symm⟩
    · obtain ⟨cs'', hcs, rfl⟩ := Option.map_eq_some_iff.mp h
      obtain ⟨l₁, c', l₂, rfl, hc', rfl⟩ := ih hcs
      exact ⟨c :: l₁, c', l₂, rfl, hc', rfl⟩

/-- `pfree` either finds nothing and does nothing, or gives back what starts at `p`. -/
theorem pfree_spec (h : Owned size m R) (p : ℕ) :
    pfree m p = (false, m) ∨
      (pfree m p).1 = true ∧ Owned size (pfree m p).2 (R.filter fun r => r.start ≠ p) := by
  unfold pfree
  match hl : pfreeLoop p m.pool.large with
  | none => exact .inl rfl
  | some large =>
    obtain ⟨l₁, c, l₂, hlarge, rfl, rfl⟩ := pfreeLoop_some hl
    refine .inr ⟨rfl, ?_, h.max, h.current⟩
    have ht := h.tidy
    by_cases hc : c.alloc = 0
    · have hsame : ({ c with alloc := 0 } : Cell) = c := by rw [← hc]
      simp only [if_pos hc]
      rw [hsame, ← hlarge]
      exact ht.sublist List.filter_sublist
    · simp only [if_neg hc]
      rw [hlarge] at ht
      exact ht.release hc

/-- The loop of `reset_pool` frees what the cells hold. -/
lemma reset_large {E : List Extent} {large : List Cell} {hp : Heap}
    (h : Tidy size hp.live E large []) :
    Tidy size (large.foldl (fun h c => if c.alloc = 0 then h else h.free c.alloc) hp).live E
      [] [] := by
  induction large generalizing hp with
  | nil => exact h
  | cons c cs ih =>
    rw [List.foldl_cons]
    apply ih
    by_cases hc : c.alloc = 0
    · rw [if_pos hc]
      exact h.dropCell
    · rw [if_neg hc]
      have hallocs := (List.pairwise_cons.mp h.allocs).1
      have hblock := (h.alloc c (.head _) hc).2
      exact h.dropCell.free hblock fun c' hc' => (hallocs c' hc' hc).symm

/-- `reset_pool` gives everything back. -/
theorem resetPool_spec (h : Owned size m R) : Owned size (resetPool m) [] where
  tidy := by
    have ht := (reset_large (h.tidy.sublist R.nil_sublist)).rewind
    have hE : (resetPool m).pool.extents =
        m.pool.extents.map fun e => { e with last := e.addr + sizeofPool } := by
      simp [Pool.extents, resetPool, Function.comp_def]
    rw [hE]
    exact ht
  max := h.max
  current := by
    have := h.current
    simp only [resetPool, List.length_map]
    omega

/-- `create_pool`. -/
theorem createPool_spec {script : List (Option ℕ)} (hmod : size % poolAlignment = 0)
    (hmin : minPoolSize ≤ size) (hc : createPool ⟨[], script⟩ size = some m) :
    Owned size m [] := by
  unfold createPool at hc
  rcases memalign_spec ⟨[], script⟩ poolAlignment size with ⟨s, hs⟩ | ⟨p, s, hf, hs⟩
  · rw [hs] at hc
    cases hc
  · rw [hs] at hc
    obtain rfl := Option.some.inj hc
    obtain ⟨-, hal, hend, -⟩ := hf
    unfold minPoolSize at hmin
    constructor
    · refine ⟨hmod, hmin, by simp, by simpa [Region.stop] using hend, ?_, by simp [Pool.extents], by simp, .nil,
        by simp, by simp, .nil⟩
      intro i e hi
      match i with
      | 0 =>
        simp only [Pool.extents, List.map_cons, List.map_nil, List.getElem?_cons_zero,
          Option.some.injEq] at hi
        subst hi
        refine ⟨hal, rfl, Nat.le_refl _, ?_, .head _⟩
        simp only [sizeofPool]
        omega
      | i + 1 => simp [Pool.extents] at hi
    · have : ptrDiff size sizeofPool = size - sizeofPool := by
        unfold ptrDiff sizeofPool
        omega
      simp only [this]
    · exact Nat.one_pos

end Libcn.Palloc
