import Libcn.Palloc.Simulate

/-!
# What a pool in memory gives back

The rest of `palloc.c` in memory, and whole runs of it. Where every search of a run respects the
ends of the blocks, the run does what it does on the lists of blocks and cells, so each region
obtained from the system allocator is freed once.
-/

namespace Libcn.Palloc

open Libcn.Lib

variable {s s' : Memory} {p size pool fuel n i : ℕ} {align : Bool} {m : PoolMem} {b : Block}
  {c : Cell}

/-! ## Clearing -/

/-- A live region that is no block is disjoint from the blocks. -/
lemma Laid.apart_live (h : Laid size m) {o r : Region} (ho : o ∈ m.heap.live)
    (hne : o.start ∉ m.pool.extents.map Extent.addr) (hr : Used m.pool.extents r) : o.Apart r := by
  obtain ⟨e, he, hlow, hhigh⟩ := hr
  obtain ⟨i, hi⟩ := List.mem_iff_getElem?.mp he
  have hstart : o.start ≠ e.addr := fun heq => hne (heq ▸ List.mem_map_of_mem he)
  exact (Region.clear_of_mem h.clear ho (h.block i e hi).live hstart).apart.within (.refl o)
    (h.used_within hi hlow hhigh)

/-- What a cell holds is no block. -/
lemma Kept.held (hk : Kept [] m) (hp : p ∈ m.pool.allocs) :
    p ∉ m.pool.extents.map Extent.addr := by
  intro hmem
  have haddrs : m.pool.extents.map Extent.addr = m.pool.addrs := List.map_map ..
  have hnodup := hk.starts.nodup
  rw [haddrs] at hmem
  rw [List.nil_append] at hnodup
  exact (List.nodup_append.mp hnodup).2.2 p hmem p hp rfl

/-- A large allocation is live, and a cell holds it. -/
lemma pallocLarge_held (h : (pallocLarge m n).1 = some p) :
    (⟨p, n⟩ : Region) ∈ (pallocLarge m n).2.heap.live ∧ p ∈ (pallocLarge m n).2.pool.allocs := by
  rw [pallocLarge] at h ⊢
  rcases memalign_spec m.heap alignment n with ⟨sc, hs⟩ | ⟨a, sc, hf, hs⟩
  · rw [Heap.alloc, hs] at h
    cases h
  · rw [Heap.alloc, hs] at h ⊢
    have ha := hf.1.ne'
    simp only at h ⊢
    cases hr : reuseLoop a m.pool.large 0 with
    | some large =>
      obtain ⟨l₁, c, l₂, -, -, rfl⟩ := reuseLoop_some hr
      rw [hr] at h
      obtain rfl := Option.some.inj h
      exact ⟨.head _, by simp [Pool.allocs, ha]⟩
    | none =>
      rw [hr] at h
      simp only at h ⊢
      rw [newCell] at h ⊢
      have hlive := pallocSmall_live { m with heap := ⟨⟨a, n⟩ :: m.heap.live, sc⟩ } sizeofPoolLarge
        true (.head _)
      generalize pallocSmall { m with heap := ⟨⟨a, n⟩ :: m.heap.live, sc⟩ } sizeofPoolLarge true = r
        at h hlive ⊢
      obtain ⟨_ | cell, m'⟩ := r
      · cases h
      · obtain rfl := Option.some.inj h
        exact ⟨hlive, by simp [Pool.allocs, ha]⟩

/-- `memset`, apart from the headers and the cells. -/
lemma Stored.memset (h : Stored s pool m) (hl : Laid size m)
    (hdata : ∀ (i : ℕ) (b : Block), m.pool.blocks[i]? = some b →
      Region.Apart ⟨p, n⟩ ⟨b.addr, headerSize i⟩)
    (hcell : ∀ c ∈ m.pool.large, Region.Apart ⟨p, n⟩ c.region) : Stored (s.memset p n) pool m :=
  h.frame hl rfl (fun i b hb => agree_fill 0 (hdata i b hb)) fun c hc => agree_fill 0 (hcell c hc)

/-- What `palloc_small` hands out is disjoint from the headers and the cells. -/
lemma pallocSmall_apart (hl : Laid size m) (hn : n + sizeofPoolData ≤ size)
    (hmeets : Meets n align (m.pool.blocks.drop m.pool.current))
    (hp : (pallocSmall m n align).1 = some p) :
    (∀ (i : ℕ) (b : Block), (pallocSmall m n align).2.pool.blocks[i]? = some b →
      Region.Apart ⟨p, n⟩ ⟨b.addr, headerSize i⟩) ∧
    ∀ c ∈ (pallocSmall m n align).2.pool.large, Region.Apart ⟨p, n⟩ c.region := by
  have hcut := pallocSmall_cut hl hn hmeets
  obtain ⟨hin, hfree⟩ := hcut.some p hp
  refine ⟨fun i b hb => (hcut.laid.header_apart (Pool.extents_get hb) hin).symm, fun c hc => ?_⟩
  rw [hcut.large] at hc
  exact hfree _ (hl.cell c hc).used

/-- What `palloc_large` hands out is. -/
lemma pallocLarge_apart (hk : Kept [] m) (hl' : Laid size (pallocLarge m n).2)
    (hp : (pallocLarge m n).1 = some p) :
    (∀ (i : ℕ) (b : Block), (pallocLarge m n).2.pool.blocks[i]? = some b →
      Region.Apart ⟨p, n⟩ ⟨b.addr, headerSize i⟩) ∧
    ∀ c ∈ (pallocLarge m n).2.pool.large, Region.Apart ⟨p, n⟩ c.region := by
  obtain ⟨hlive, halloc⟩ := pallocLarge_held hp
  have hne := (pallocLarge_accounted hk n).kept.held halloc
  exact ⟨fun i b hb => hl'.apart_live hlive hne (hl'.data_used hb),
    fun c hc => hl'.apart_live hlive hne (hl'.cell c hc).used⟩

/-- `pcalloc`. -/
theorem pcalloc_stored (h : Stored s pool m) (hl : Laid size m) (hk : Kept [] m)
    (hfits : s.WithFits fuel pool n true) (hf : m.pool.blocks.length ≤ fuel)
    (hf' : m.pool.large.length < fuel) :
    ∃ p s', s.pcalloc fuel pool n = some (p, s') ∧
      Follows size pool s m.heap.live (pallocCalls m n true) (pcalloc m n) p s' := by
  obtain ⟨p, s', hs', h'⟩ := pallocWith_stored h hl hk hfits hf hf'
  rw [Memory.pcalloc, Memory.palloc, hs', pcalloc, palloc]
  by_cases hp : p = 0
  · exact ⟨p, s', by simp [hp], h'⟩
  refine ⟨p, s'.memset p n, by simp [hp], ?_, h'.laid, h'.answer, h'.calls, fun h => absurd h hp⟩
  have hanswer := h'.answer
  rw [if_neg hp] at hanswer
  have hstored := h'.stored
  have hlaid := h'.laid
  unfold Memory.WithFits at hfits
  rw [h.head.max] at hfits
  split_ifs at hanswer hstored hlaid hfits ⊢ with hmax
  -- what is cleared lies in the free part of a block, or is a region of its own
  · obtain ⟨hdata, hcell⟩ := pallocSmall_apart hl (hl.small_le hmax)
      ((h.smallFits hl hf).mp hfits) hanswer
    exact hstored.memset hlaid hdata hcell
  · obtain ⟨hdata, hcell⟩ := pallocLarge_apart hk hlaid hanswer
    exact hstored.memset hlaid hdata hcell

/-! ## Giving back -/

/-- The outcome of a function that returns no pointer. -/
structure Gives (size pool : ℕ) (s : Memory) (cs : List HeapCall) (m : PoolMem) (s' : Memory) :
    Prop where
  stored : Stored s' pool m
  laid : Laid size m
  calls : s'.calls = s.calls ++ cs

/-- `pfree`. -/
theorem pfree_stored (h : Stored s pool m) (hl : Laid size m) (hk : Kept [] m) (p : ℕ)
    (hf : m.pool.large.length < fuel) :
    ∃ a s', s.pfree fuel pool p = some (a, s') ∧
      Gives size pool s (pfreeCalls m p) (pfree m p).2 s' := by
  rw [Memory.pfree, h.head.large, pfreeCalls, pfree]
  rcases pfreeLoop_stored h hl p [] m.pool.large rfl hf with
    ⟨hn, hs⟩ | ⟨l₁, c, l₂, hlarge, hc, rfl, hn, hs, halloc⟩
  · rw [List.length_nil] at hs
    rw [hn, hs]
    exact ⟨-1, s, rfl, h, hl, (List.append_nil _).symm⟩
  · rw [List.length_nil] at hs
    rw [hn, hs]
    simp only [Option.bind_eq_bind, Option.bind_some, if_neg hc, halloc]
    by_cases hp : c.alloc = 0
    -- `pfree(pool, NULL)` finds an empty cell
    · rw [if_pos hp, if_pos hp, Memory.free, if_pos hp]
      exact ⟨0, _, rfl, h.setAlloc hl hlarge (by decide), hl.assign hlarge (Nat.zero_le _),
        (List.append_nil _).symm⟩
    · rw [if_neg hp, if_neg hp]
      have hmem : c.alloc ∈ m.pool.allocs := by
        rw [Pool.allocs, hlarge]
        simp [hp]
      obtain ⟨h₁, hcalls, -⟩ := h.free hl (hk.held hmem) hp
      have hl₁ := hl.free (hk.held hmem)
      exact ⟨0, _, rfl, h₁.setAlloc hl₁ hlarge (by decide), hl₁.assign hlarge (Nat.zero_le _),
        hcalls⟩

/-- The loop of `destroy_pool` and `reset_pool` over the cells. -/
lemma freeLarge_stored (h : Stored s pool m) (hl : Laid size m) (pre cs : List Cell)
    (hlarge : m.pool.large = pre ++ cs) (hf : cs.length < fuel)
    (hcs : ∀ c ∈ cs, c.alloc ≠ 0 → c.alloc ∉ m.pool.extents.map Extent.addr) :
    ∃ s', Memory.freeLarge fuel (m.pool.cellAt pre.length) s = some s' ∧
      Gives size pool s (((cs.map Cell.alloc).filter (· ≠ 0)).map .freed)
        { m with heap := cs.foldl (fun h c => if c.alloc = 0 then h else h.free c.alloc) m.heap }
        s' := by
  induction cs generalizing pre fuel s m with
  | nil =>
    obtain ⟨fuel, rfl⟩ := Nat.exists_eq_succ_of_ne_zero (Nat.ne_zero_of_lt hf)
    rw [Memory.freeLarge, Pool.cellAt_nil hlarge]
    exact ⟨s, if_pos rfl, h, hl, (List.append_nil _).symm⟩
  | cons c cs ih =>
    obtain ⟨fuel, rfl⟩ := Nat.exists_eq_succ_of_ne_zero (Nat.ne_zero_of_lt hf)
    obtain ⟨haddr, hpos, hat⟩ := h.cell_cons hl hlarge
    rw [Memory.freeLarge, haddr, if_neg hpos, hat.alloc]
    have hrest : ∀ c' ∈ cs, c'.alloc ≠ 0 → c'.alloc ∉ m.pool.extents.map Extent.addr :=
      fun c' hc' => hcs c' (.tail _ hc')
    rw [List.append_cons] at hlarge
    rw [List.map_cons, List.foldl_cons]
    by_cases hc : c.alloc = 0
    · rw [if_neg (not_not.mpr hc), if_pos hc, List.filter_cons_of_neg (by simpa using hc)]
      simp only [hat.next]
      exact ih h hl _ hlarge (Nat.lt_of_succ_lt_succ hf) hrest
    -- the next cell is read after the allocation was freed
    · obtain ⟨h₁, hcalls, -⟩ := h.free hl (hcs c (.head _) hc) hc
      have hl₁ := hl.free (hcs c (.head _) hc)
      obtain ⟨-, -, hat₁⟩ := h₁.cell_cons hl₁ (hlarge.trans (List.append_cons ..).symm)
      obtain ⟨s', hs', h'⟩ := ih h₁ hl₁ _ hlarge (Nat.lt_of_succ_lt_succ hf) hrest
      rw [if_pos hc, if_neg hc, List.filter_cons_of_pos (by simpa using hc)]
      refine ⟨s', ?_, h'.stored, h'.laid, ?_⟩
      · simp only [hat₁.next]
        exact hs'
      · rw [h'.calls, hcalls, List.append_assoc]
        rfl

/-- A block as `reset_pool` leaves it. -/
def Block.reset (b : Block) : Block := ⟨⟨b.addr, b.addr + sizeofPool, b.stop⟩, 0⟩

/-- One round of the loop of `reset_pool` over the blocks. -/
lemma Chained.reset {large : ℕ} (h : Chained s pool m large) (hl : Laid size m)
    (hlarge : m.pool.large = []) {pre bs : List Block} (hblocks : m.pool.blocks = pre ++ b :: bs) :
    Chained ((s.set b.addr .last (b.addr + sizeofPool)).set b.addr .failed 0) pool
      { m with pool := { m.pool with blocks := pre ++ b.reset :: bs } } large ∧
    Laid size { m with pool := { m.pool with blocks := pre ++ b.reset :: bs } } := by
  have hget : ∀ b' : Block, (pre ++ b' :: bs)[pre.length]? = some b' := by
    intro b'
    rw [List.getElem?_append_right (Nat.le_refl _), Nat.sub_self]
    rfl
  have hmodify : ∀ (b' : Block) (g : Block → Block),
      (pre ++ b' :: bs).modify pre.length g = pre ++ g b' :: bs := by
    intro b' g
    rw [List.modify_eq_take_drop, List.take_left' rfl, List.drop_left' rfl, List.modifyHead_cons]
  have hb : m.pool.blocks[pre.length]? = some b := by rw [hblocks, hget]
  have hi := Pool.extents_get hb
  have hok := hl.block _ _ hi
  have hend := hl.stop_le hi
  have hstop : b.addr + sizeofPool ≤ b.stop := by
    have := hok.stop
    have := hl.size_min
    omega
  -- the mark goes back, then the count
  have h₁ := h.setBlock hl hb (f := .last) (by decide) (b.addr + sizeofPool)
    (g := fun b' => { b' with last := b.addr + sizeofPool }) (fun _ => rfl)
    fun _ hat => hat.setLast (by omega)
  have hl₁ := hl.mark (x := b.addr + sizeofPool) hi
    (Nat.add_le_add_left (headerSize_le _).2 _) hstop
    (map_toExtent_modify m.pool.blocks pre.length _) (by rw [hlarge]; simp)
  simp only [hblocks, hmodify] at h₁ hl₁
  have h₂ := h₁.setBlock hl₁ (i := pre.length) (hget _) (f := .failed) (by decide) 0
    (g := fun b' => { b' with failed := 0 }) (fun _ => rfl) fun _ hat => hat.setFailed 0
  simp only [hmodify] at h₂
  refine ⟨h₂, hl₁.congr (pre ++ b.reset :: bs) m.pool.current ?_ hl₁.current⟩
  simp [Pool.extents, Block.reset]

/-- The loop of `reset_pool` over the blocks. -/
lemma resetBlocks_stored {large : ℕ} (h : Chained s pool m large) (hl : Laid size m)
    (hlarge : m.pool.large = []) (pre bs : List Block) (hblocks : m.pool.blocks = pre ++ bs)
    (hf : bs.length < fuel) :
    ∃ s', Memory.resetBlocks fuel (m.pool.addrAt pre.length) s = some s' ∧
      Chained s' pool { m with pool := { m.pool with blocks := pre ++ bs.map Block.reset } } large ∧
      Laid size { m with pool := { m.pool with blocks := pre ++ bs.map Block.reset } } ∧
      s'.calls = s.calls := by
  induction bs generalizing pre fuel s m with
  | nil =>
    obtain ⟨fuel, rfl⟩ := Nat.exists_eq_succ_of_ne_zero (Nat.ne_zero_of_lt hf)
    rw [List.append_nil] at hblocks
    rw [Memory.resetBlocks, Pool.addrAt_end (congrArg List.length hblocks).le, List.map_nil,
      List.append_nil, ← hblocks]
    exact ⟨s, if_pos rfl, h, hl, rfl⟩
  | cons b bs ih =>
    obtain ⟨fuel, rfl⟩ := Nat.exists_eq_succ_of_ne_zero (Nat.ne_zero_of_lt hf)
    obtain ⟨h₁, hl₁⟩ := h.reset hl hlarge hblocks
    have hb : m.pool.blocks[pre.length]? = some b := by rw [hblocks]; simp
    have hb₁ : (pre ++ b.reset :: bs)[pre.length]? = some b.reset := by simp
    have hpos := (hl.extent_bounds hb).1.ne'
    have hnext : ((s.set b.addr .last (b.addr + sizeofPool)).set b.addr .failed 0).get b.addr .next =
        _ := (h₁.block pre.length _ hb₁).next
    obtain ⟨s', hs', h', hl', hcalls⟩ := ih h₁ hl₁ hlarge (pre ++ [b.reset]) (List.append_cons ..)
      (Nat.lt_of_succ_lt_succ hf)
    rw [List.length_append, List.length_singleton] at hs'
    rw [List.append_assoc, List.singleton_append, ← List.map_cons] at h' hl'
    refine ⟨s', ?_, h', hl', hcalls⟩
    rw [Memory.resetBlocks, Pool.addrAt_of hb, if_neg hpos]
    simp only [hnext]
    exact hs'

/-- `reset_pool`. -/
theorem resetPool_stored (h : Stored s pool m) (hl : Laid size m) (hk : Kept [] m)
    (hf : m.pool.blocks.length < fuel) (hf' : m.pool.large.length < fuel) :
    ∃ s', s.resetPool fuel pool = some s' ∧
      Gives size pool s (resetPoolCalls m) (resetPool m) s' := by
  obtain ⟨s₁, hs₁, h₁, hl₁, hcalls₁⟩ := freeLarge_stored h hl [] m.pool.large rfl
    hf' fun c hc hc₀ => hk.held (List.mem_filter.mpr ⟨List.mem_map_of_mem hc, by simpa using hc₀⟩)
  -- the cells go out of the blocks here, so they are forgotten before the marks go back
  have h₁' : Chained s₁ pool { m with
      heap := m.pool.large.foldl (fun h c => if c.alloc = 0 then h else h.free c.alloc) m.heap
      pool := { m.pool with large := [] } } (m.pool.cellAt 0) :=
    ⟨h₁.heap, h₁.first, h₁.block, h₁.head⟩
  obtain ⟨s₂, hs₂, h₂, hl₂, hcalls₂⟩ := resetBlocks_stored h₁' hl₁.dropCells rfl []
    m.pool.blocks rfl hf
  simp only [List.nil_append] at h₂ hl₂
  have hcur : 0 < (m.pool.blocks.map Block.reset).length := by
    rw [List.length_map]
    exact Nat.zero_lt_of_lt hl.current
  have h₃ := h₂.setCurrent hl₂ 0
  rw [h₂.first] at h₃
  have hl₃ := hl₂.congr _ 0 rfl hcur
  have h₄ := h₃.setLarge hl₃ (v := 0) (by decide)
  refine ⟨(s₂.set pool .current pool).set pool .large 0, ?_, ⟨h₄, fun i c hc => by cases hc⟩, hl₃, ?_⟩
  · have hs₂' : Memory.resetBlocks fuel pool s₁ = some s₂ := h₁.first ▸ hs₂
    rw [List.length_nil] at hs₁
    rw [Memory.resetPool, h.head.large, hs₁]
    simp only [Option.bind_eq_bind, Option.bind_some, hs₂']
    rfl
  · exact hcalls₂.trans hcalls₁

/-! ## The first block and the last calls -/

/-- `create_pool`. -/
theorem createPool_stored {script : List (Option ℕ)} (hmin : sizeofPool ≤ size)
    (hs : s.heap = ⟨[], script⟩) (hcreate : s.createPool size = (pool, s')) (hp : pool ≠ 0) :
    ∃ m, createPool s.heap size = some m ∧
      Gives size pool s (memalignCalls s.heap poolAlignment size) m s' := by
  unfold Memory.createPool at hcreate
  rcases s.memalign_cases poolAlignment size with ⟨sc, hn, hs'⟩ | ⟨a, sc, hf, hn, hs'⟩
  · rw [hs'] at hcreate
    simp only [if_true] at hcreate
    exact absurd (congrArg Prod.fst hcreate).symm hp
  · have ha := hf.1.ne'
    have hend : a + size ≤ 2 ^ 63 := hf.2.2.1
    rw [hs'] at hcreate
    simp only [if_neg ha] at hcreate
    obtain ⟨rfl, rfl⟩ := Prod.mk.inj hcreate
    have hmax : ∀ x y : ℕ, (if x < y then x else y) = min x y := by
      intro x y
      split_ifs <;> omega
    have hsize : ptrDiff size sizeofPool < 2 ^ 64 := Nat.mod_lt _ (by decide)
    have hlaid : ∀ m, createPool s.heap size = some m → Laid size m := fun m hm =>
      createPool_laid hmin (hs ▸ hm)
    rw [memalignCalls_some s.heap hn]
    rw [createPool, hn] at hlaid ⊢
    refine ⟨_, rfl, ⟨⟨rfl, rfl, fun i b hb => ?_, ?_⟩, fun i c hc => by cases hc⟩, hlaid _ rfl, rfl⟩
    · obtain ⟨hlt, rfl⟩ := List.getElem?_eq_some_iff.mp hb
      obtain rfl : i = 0 := by simpa using hlt
      unfold sizeofPool at *
      constructor
      all_goals simp (disch := first | decide | omega) only [Memory.get_set_ne,
        Memory.get_set_word, Memory.get_set_failed, List.getElem_cons_zero]
      · rfl
      · rfl
    · constructor
      · rw [Memory.get_set_ne (by decide), Memory.get_set_ne (by decide), hmax]
        exact Memory.get_set_word rfl ((min_le_left _ _).trans_lt hsize)
      · rw [Memory.get_set_ne (by decide)]
        exact Memory.get_set_word rfl (by omega)
      · exact Memory.get_set_word rfl (by decide)

/-- The blocks of the rest of a chain stand in memory, each with the address of the next one. -/
def Memory.Linked (s : Memory) : List Block → Prop
  | [] => True
  | b :: bs => s.BlockAt b ((bs.map fun b => b.addr).headD 0) ∧ Linked s bs

lemma Chained.linked {large : ℕ} (h : Chained s pool m large) (pre bs : List Block)
    (hblocks : m.pool.blocks = pre ++ bs) : s.Linked bs := by
  induction bs generalizing pre with
  | nil => trivial
  | cons b bs ih =>
    have hb : m.pool.blocks[pre.length]? = some b := by rw [hblocks]; simp
    have hnext : m.pool.addrAt (pre.length + 1) = (bs.map fun b => b.addr).headD 0 := by
      rw [Pool.addrAt, Pool.addrs, hblocks]
      cases bs with
      | nil => simp
      | cons b' bs => simp [List.getD_eq_getElem?_getD]
    exact ⟨hnext ▸ h.block _ b hb, ih _ (hblocks.trans (List.append_cons ..))⟩

lemma Memory.Linked.congr {bs : List Block} (h : s.Linked bs)
    (ha : ∀ b ∈ bs, Agree s.bytes s'.bytes ⟨b.addr, sizeofPoolData⟩) : s'.Linked bs := by
  induction bs with
  | nil => trivial
  | cons b bs ih => exact ⟨h.1.congr (ha b (.head _)), ih h.2 fun b' hb' => ha b' (.tail _ hb')⟩

/-- The loop of `destroy_pool` over the blocks: the address of the next one is read before the block
is freed. -/
lemma freeBlocks_linked {bs : List Block} (hsize : sizeofPoolData ≤ size)
    (hblock : s.get b.addr .next = (bs.map fun b => b.addr).headD 0) (h : s.Linked bs)
    (hlive : ∀ b' ∈ b :: bs, (⟨b'.addr, size⟩ : Region) ∈ s.heap.live)
    (hpos : ∀ b' ∈ b :: bs, b'.addr ≠ 0) (hnodup : ((b :: bs).map fun b => b.addr).Nodup)
    (hf : bs.length < fuel) :
    ∃ s', Memory.freeBlocks fuel b.addr (s.get b.addr .next) s = some s' ∧
      s'.heap = (b :: bs).foldl (fun h b => h.free b.addr) s.heap ∧
      s'.calls = s.calls ++ ((b :: bs).map fun b => b.addr).map .freed := by
  induction bs generalizing s b fuel with
  | nil =>
    obtain ⟨fuel, rfl⟩ := Nat.exists_eq_succ_of_ne_zero (Nat.ne_zero_of_lt hf)
    rw [Memory.freeBlocks, hblock, Memory.free, if_neg (hpos b (.head _))]
    exact ⟨_, if_pos rfl, rfl, rfl⟩
  | cons b' bs ih =>
    obtain ⟨fuel, rfl⟩ := Nat.exists_eq_succ_of_ne_zero (Nat.ne_zero_of_lt hf)
    obtain ⟨hb, hrest⟩ := List.nodup_cons.mp hnodup
    -- the blocks after this one are still live, so their headers keep their bytes
    have hlive' : ∀ c ∈ b' :: bs, (⟨c.addr, size⟩ : Region) ∈ (s.free b.addr).heap.live := by
      intro c hc
      rw [Memory.free, if_neg (hpos b (.head _))]
      refine List.mem_filter.mpr ⟨hlive c (.tail _ hc), ?_⟩
      have hne : c.addr ≠ b.addr := fun he => hb (List.mem_map.mpr ⟨c, hc, he⟩)
      simpa using hne
    have h' : (s.free b.addr).Linked (b' :: bs) := by
      refine h.congr fun c hc => ?_
      have hc' := hlive' c hc
      rw [Memory.free, if_neg (hpos b (.head _))] at hc' ⊢
      exact s.agree_scribble hc' ⟨Nat.le_refl _, Nat.add_le_add_left hsize _⟩
    obtain ⟨s', hs', hheap, hcalls⟩ := ih h'.1.next h'.2 hlive'
      (fun c hc => hpos c (.tail _ hc)) hrest (Nat.lt_of_succ_lt_succ hf)
    have hnext : s.get b.addr .next = b'.addr := hblock
    refine ⟨s', ?_, ?_, ?_⟩
    · rw [Memory.freeBlocks, hnext, if_neg (hpos b' (.tail _ (.head _)))]
      exact hs'
    · rw [hheap, Memory.free, if_neg (hpos b (.head _))]
      rfl
    · rw [hcalls, Memory.free, if_neg (hpos b (.head _)), List.append_assoc]
      rfl

/-- `destroy_pool`. -/
theorem destroyPool_stored (h : Stored s pool m) (hl : Laid size m) (hk : Kept [] m)
    (hf : m.pool.blocks.length < fuel) (hf' : m.pool.large.length < fuel) :
    ∃ s', s.destroyPool fuel pool = some s' ∧ s'.heap = destroyPool m ∧
      s'.calls = s.calls ++ destroyPoolCalls m := by
  obtain ⟨s₁, hs₁, h₁, hl₁, hcalls₁⟩ := freeLarge_stored h hl [] m.pool.large rfl
    hf' fun c hc hc₀ => hk.held (List.mem_filter.mpr ⟨List.mem_map_of_mem hc, by simpa using hc₀⟩)
  obtain ⟨b, bs, hblocks⟩ := List.exists_cons_of_length_pos (Nat.zero_lt_of_lt hl.current)
  have hpool : b.addr = pool := by
    rw [← h.first, Pool.addrAt, Pool.addrs, hblocks]
    rfl
  have hlinked := h₁.linked [] (b :: bs) hblocks
  have hget : ∀ b' ∈ b :: bs, (⟨b'.addr, size⟩ : Region) ∈ s₁.heap.live ∧ b'.addr ≠ 0 := by
    intro b' hb'
    obtain ⟨i, hi⟩ := List.mem_iff_getElem?.mp (hblocks ▸ hb')
    exact ⟨h₁.heap ▸ (hl₁.block i _ (Pool.extents_get hi)).live, (hl.extent_bounds hi).1.ne'⟩
  have hnodup : ((b :: bs).map fun b => b.addr).Nodup := by
    have haddrs := hl.addrs
    rwa [Pool.extents, List.map_map, hblocks] at haddrs
  rw [hblocks, List.length_cons] at hf
  obtain ⟨s', hs', hheap, hcalls⟩ := freeBlocks_linked
    ((by decide : sizeofPoolData ≤ sizeofPool).trans hl.size_min) hlinked.1.next hlinked.2
    (fun b' hb' => (hget b' hb').1) (fun b' hb' => (hget b' hb').2) hnodup
    (Nat.lt_of_succ_lt hf)
  refine ⟨s', ?_, ?_, ?_⟩
  · rw [List.length_nil] at hs₁
    rw [Memory.destroyPool, h.head.large, hs₁, ← hpool]
    exact hs'
  · rw [hheap, h₁.heap, destroyPool, hblocks]
  · rw [hcalls, hcalls₁, destroyPoolCalls, Pool.addrs, hblocks, List.map_append, List.append_assoc]
    rfl

/-! ## The length of the chain and of the list of cells -/

/-- At most one block and one cell more. -/
structure Grows (m m' : PoolMem) : Prop where
  blocks : m'.pool.blocks.length ≤ m.pool.blocks.length + 1
  large : m'.pool.large.length ≤ m.pool.large.length + 1

lemma pallocSmall_grows (hcur : m.pool.current < m.pool.blocks.length) (n : ℕ) (align : Bool) :
    (pallocSmall m n align).2.pool.blocks.length ≤ m.pool.blocks.length + 1 ∧
      (pallocSmall m n align).2.pool.large = m.pool.large := by
  unfold pallocSmall
  split
  · exact ⟨by simp, rfl⟩
  · rcases memalign_spec m.heap poolAlignment (ptrDiff m.pool.head.stop m.pool.head.addr) with
      ⟨sc, hs⟩ | ⟨a, sc, -, hs⟩
    · simp only [pallocBlock, hs]
      exact ⟨Nat.le_succ _, trivial⟩
    · simp only [pallocBlock, hs]
      refine ⟨?_, trivial⟩
      rw [← List.length_map Block.toExtent, map_toExtent_append m.pool hcur, List.length_append,
        Pool.extents_length]
      rfl

lemma newCell_grows (hcur : m.pool.current < m.pool.blocks.length) (p : ℕ) :
    Grows m (newCell m p).2 := by
  obtain ⟨hblocks, hlarge⟩ := pallocSmall_grows hcur sizeofPoolLarge true
  unfold newCell
  generalize pallocSmall m sizeofPoolLarge true = r at hblocks hlarge ⊢
  obtain ⟨_ | cell, m'⟩ := r
  · exact ⟨hblocks, (congrArg List.length hlarge).le.trans (Nat.le_succ _)⟩
  · exact ⟨hblocks, (congrArg (List.length · + 1) hlarge).le⟩

lemma pallocLarge_grows (hcur : m.pool.current < m.pool.blocks.length) (n : ℕ) :
    Grows m (pallocLarge m n).2 := by
  rcases memalign_spec m.heap alignment n with ⟨sc, hs⟩ | ⟨a, sc, -, hs⟩
  · rw [pallocLarge, Heap.alloc, hs]
    exact ⟨Nat.le_succ _, Nat.le_succ _⟩
  · rw [pallocLarge, Heap.alloc, hs]
    simp only
    cases hr : reuseLoop a m.pool.large 0 with
    | none =>
      have := newCell_grows (m := { m with heap := ⟨⟨a, n⟩ :: m.heap.live, sc⟩ }) hcur a
      exact ⟨this.blocks, this.large⟩
    | some large =>
      obtain ⟨l₁, c, l₂, hlarge, -, rfl⟩ := reuseLoop_some hr
      exact ⟨Nat.le_succ _, by rw [hlarge]; simp⟩

/-- A call adds at most one block and one cell. -/
lemma PoolCall.run_grows (hcur : m.pool.current < m.pool.blocks.length) (c : PoolCall) :
    Grows m (c.run m).2 := by
  have hpalloc : ∀ n align,
      Grows m (if n ≤ m.pool.max then pallocSmall m n align else pallocLarge m n).2 := by
    intro n align
    split_ifs
    · obtain ⟨hblocks, hlarge⟩ := pallocSmall_grows hcur n align
      exact ⟨hblocks, (congrArg List.length hlarge).le.trans (Nat.le_succ _)⟩
    · exact pallocLarge_grows hcur n
  cases c with
  | palloc n => exact hpalloc n true
  | pnalloc n => exact hpalloc n false
  | pcalloc n => exact hpalloc n true
  | pmemalign n al =>
    rw [PoolCall.run, Palloc.pmemalign]
    rcases memalign_spec m.heap al n with ⟨sc, hs⟩ | ⟨a, sc, -, hs⟩
    · rw [hs]
      exact ⟨Nat.le_succ _, Nat.le_succ _⟩
    · rw [hs]
      have := newCell_grows (m := { m with heap := ⟨⟨a, n⟩ :: m.heap.live, sc⟩ }) hcur a
      exact ⟨this.blocks, this.large⟩
  | pfree p =>
    rw [PoolCall.run, Palloc.pfree]
    cases hl : pfreeLoop p m.pool.large with
    | none => exact ⟨Nat.le_succ _, Nat.le_succ _⟩
    | some large =>
      obtain ⟨l₁, c, l₂, hlarge, -, rfl⟩ := pfreeLoop_some hl
      exact ⟨Nat.le_succ _, by rw [hlarge]; simp⟩
  | resetPool => exact ⟨by simp [PoolCall.run, Palloc.resetPool], Nat.zero_le _⟩

/-! ## Runs -/

/-- One call. -/
lemma call_stored (h : Stored s pool m) (hl : Laid size m) (hk : Kept [] m) {c : PoolCall}
    (hfits : s.CallFits fuel pool c) (hf : m.pool.blocks.length < fuel)
    (hf' : m.pool.large.length < fuel) :
    ∃ r s', s.call fuel pool c = some (r, s') ∧ Gives size pool s (c.calls m) (c.run m).2 s' ∧
      (r = some 0 → (c.run m).1 = none ∧ ∀ o ∈ m.heap.live, Agree s.bytes s'.bytes o) := by
  -- the functions that return a pointer
  have hfollows : ∀ {cs : List HeapCall} {r : Option ℕ × PoolMem} {p : ℕ} {s' : Memory},
      Follows size pool s m.heap.live cs r p s' → Gives size pool s cs r.2 s' ∧
        (some p = some 0 → r.1 = none ∧ ∀ o ∈ m.heap.live, Agree s.bytes s'.bytes o) := by
    intro cs r p s' h'
    refine ⟨⟨h'.stored, h'.laid, h'.calls⟩, fun hp => ?_⟩
    have hp₀ : p = 0 := Option.some.inj hp
    exact ⟨h'.answer.trans (if_pos hp₀), h'.null hp₀⟩
  cases c with
  | palloc n =>
    obtain ⟨p, s', hs', h'⟩ := pallocWith_stored h hl hk hfits hf.le hf'
    exact ⟨some p, s', by rw [Memory.call, Memory.palloc, hs']; rfl, hfollows h'⟩
  | pnalloc n =>
    obtain ⟨p, s', hs', h'⟩ := pallocWith_stored h hl hk hfits hf.le hf'
    exact ⟨some p, s', by rw [Memory.call, Memory.pnalloc, hs']; rfl, hfollows h'⟩
  | pcalloc n =>
    obtain ⟨p, s', hs', h'⟩ := pcalloc_stored h hl hk hfits hf.le hf'
    exact ⟨some p, s', by rw [Memory.call, hs']; rfl, hfollows h'⟩
  | pmemalign n al =>
    obtain ⟨p, s', hs', h'⟩ := pmemalign_stored h hl hk hfits hf.le
    exact ⟨some p, s', by rw [Memory.call, hs']; rfl, hfollows h'⟩
  | pfree p =>
    obtain ⟨a, s', hs', h'⟩ := pfree_stored h hl hk p hf'
    exact ⟨none, s', by rw [Memory.call, hs']; rfl, h', fun e => by cases e⟩
  | resetPool =>
    obtain ⟨s', hs', h'⟩ := resetPool_stored h hl hk hf hf'
    exact ⟨none, s', by rw [Memory.call, hs']; rfl, h', fun e => by cases e⟩

/-- A sequence of calls, which adds at most as many blocks and cells. -/
lemma callAll_stored (h : Stored s pool m) (hl : Laid size m) (hk : Kept [] m) {cs : List PoolCall}
    (hfit : s.CallsFit fuel pool cs) (hf : m.pool.blocks.length + cs.length < fuel)
    (hf' : m.pool.large.length + cs.length < fuel) :
    ∃ s', s.callAll fuel pool cs = some s' ∧
      Gives size pool s (PoolCall.callsAll m cs) (PoolCall.runAll m cs) s' ∧
      (PoolCall.runAll m cs).pool.blocks.length ≤ m.pool.blocks.length + cs.length ∧
      (PoolCall.runAll m cs).pool.large.length ≤ m.pool.large.length + cs.length := by
  induction cs generalizing s m with
  | nil => exact ⟨s, rfl, ⟨h, hl, (List.append_nil _).symm⟩, Nat.le_refl _, Nat.le_refl _⟩
  | cons c cs ih =>
    rw [List.length_cons] at hf hf' ⊢
    obtain ⟨hc, hcs⟩ := hfit
    obtain ⟨r, s₁, hs₁, h₁, -⟩ := call_stored h hl hk hc (by omega) (by omega)
    rw [hs₁] at hcs
    have hgrow := PoolCall.run_grows hl.current c
    have hblocks := hgrow.blocks
    have hlarge := hgrow.large
    obtain ⟨s', hs', h', hb', hl'⟩ := ih h₁.stored h₁.laid (hk.call c).kept hcs (by omega)
      (by omega)
    refine ⟨s', ?_, ⟨h'.stored, h'.laid, ?_⟩, ?_, ?_⟩
    · rw [Memory.callAll, List.foldlM_cons, hs₁]
      exact hs'
    · rw [h'.calls, h₁.calls, List.append_assoc]
      rfl
    · show (PoolCall.runAll (c.run m).2 cs).pool.blocks.length ≤ _
      omega
    · show (PoolCall.runAll (c.run m).2 cs).pool.large.length ≤ _
      omega

/-- The chain as it is followed in memory. -/
lemma Chained.chain {large : ℕ} (h : Chained s pool m large) (hl : Laid size m) (pre bs : List Block)
    (hblocks : m.pool.blocks = pre ++ bs) (hf : bs.length < fuel) :
    s.chain fuel (m.pool.addrAt pre.length) = some (bs.map fun b => b.addr) := by
  induction bs generalizing pre fuel with
  | nil =>
    obtain ⟨fuel, rfl⟩ := Nat.exists_eq_succ_of_ne_zero (Nat.ne_zero_of_lt hf)
    rw [List.append_nil] at hblocks
    rw [Memory.chain, Pool.addrAt_end (congrArg List.length hblocks).le]
    rfl
  | cons b bs ih =>
    obtain ⟨fuel, rfl⟩ := Nat.exists_eq_succ_of_ne_zero (Nat.ne_zero_of_lt hf)
    have hb : m.pool.blocks[pre.length]? = some b := by rw [hblocks]; simp
    have hrest := ih _ (hblocks.trans (List.append_cons ..)) (Nat.lt_of_succ_lt_succ hf)
    rw [List.length_append, List.length_singleton] at hrest
    rw [Memory.chain, Pool.addrAt_of hb, if_neg (hl.extent_bounds hb).1.ne',
      (h.block _ b hb).next, hrest]
    rfl

/-- In a pool whose size is a multiple of the alignment every call meets the condition. -/
lemma Stored.callFits (h : Stored s pool m) (hl : Laid size m) (hmod : size % alignment = 0)
    (c : PoolCall) (hf : m.pool.blocks.length ≤ fuel) : s.CallFits fuel pool c := by
  have hsmall : ∀ {s : Memory} {m : PoolMem} (n : ℕ) (align : Bool), Stored s pool m →
      Laid size m → m.pool.blocks.length ≤ fuel → s.SmallFits fuel pool n align := by
    intro s m n align h hl hf
    refine (h.smallFits hl hf).mpr (hl.meets hmod n align fun b hb => ?_)
    exact List.mem_map_of_mem (List.mem_of_mem_drop hb)
  -- the search for a cell runs after the region was obtained
  have hcell : ∀ al n, s.MemalignFits fuel pool n al := by
    intro al n
    unfold Memory.MemalignFits
    rcases s.memalign_cases al n with ⟨sc, hs, hs'⟩ | ⟨a, sc, hfresh, hs, hs'⟩
    · rw [hs']
      exact fun hp => absurd rfl hp
    · rw [hs']
      intro _
      rw [h.heap] at hfresh
      have h₁ := h.scribble hl (fun i e hi => (hl.block i e hi).live)
        ⟨⟨a, n⟩ :: m.heap.live, sc⟩ (s.calls ++ [.got ⟨a, n⟩])
      rw [h.heap]
      exact hsmall _ _ h₁ (hl.fresh hfresh sc) hf
  have hwith : ∀ n align, s.WithFits fuel pool n align := by
    intro n align
    unfold Memory.WithFits
    split_ifs
    · exact hsmall n align h hl hf
    · exact fun hp _ => hcell alignment n hp
  cases c with
  | palloc n => exact hwith n true
  | pnalloc n => exact hwith n false
  | pcalloc n => exact hwith n true
  | pmemalign n al => exact hcell al n
  | pfree p => trivial
  | resetPool => trivial

/-- So does every run. -/
lemma Stored.callsFit (h : Stored s pool m) (hl : Laid size m) (hk : Kept [] m)
    (hmod : size % alignment = 0) (cs : List PoolCall)
    (hf : m.pool.blocks.length + cs.length < fuel) (hf' : m.pool.large.length + cs.length < fuel) :
    s.CallsFit fuel pool cs := by
  induction cs generalizing s m with
  | nil => trivial
  | cons c cs ih =>
    rw [List.length_cons] at hf hf'
    have hlen : m.pool.blocks.length ≤ fuel := by omega
    have hc := h.callFits hl hmod c hlen
    refine ⟨hc, ?_⟩
    obtain ⟨r₁, s₁, hs₁, h₁, -⟩ := call_stored h hl hk hc (by omega) (by omega)
    rw [hs₁]
    have hgrow := PoolCall.run_grows hl.current c
    have hblocks := hgrow.blocks
    have hlarge := hgrow.large
    exact ih h₁.stored h₁.laid (hk.call c).kept (by omega) (by omega)

/-- A new pool has one block and no cell. -/
lemma createPool_lengths {hp : Heap} (hm : createPool hp size = some m) :
    m.pool.blocks.length = 1 ∧ m.pool.large.length = 0 := by
  rw [createPool] at hm
  split at hm
  · cases hm
  · obtain rfl := Option.some.inj hm
    exact ⟨rfl, rfl⟩

/-- In a run whose calls all meet the condition, each region obtained from the system allocator is
freed once and nothing else is freed, by the time `destroy_pool` returns. Before that the chain ends,
its blocks are different, `current` is one of them, and a call that answers NULL changes neither what
is live nor a byte of it. If the size is a multiple of the alignment then every run is such. -/
theorem pool_freed_once {size fuel pool : ℕ} {script : List (Option ℕ)} {bytes : Bytes}
    {junk : ℕ → Bytes} {s : Memory} (hmin : sizeofPool ≤ size)
    (hcreate : Memory.createPool ⟨⟨[], script⟩, [], bytes, junk⟩ size = (pool, s))
    (hpool : pool ≠ 0) {cs : List PoolCall} (hfuel : cs.length + 1 < fuel) :
    (s.CallsFit fuel pool cs → ∃ s₁ bs s₂, s.callAll fuel pool cs = some s₁ ∧
      s₁.chain fuel pool = some bs ∧ bs.Nodup ∧ s₁.get pool .current ∈ bs ∧
      (∀ c s', s₁.CallFits fuel pool c → s₁.call fuel pool c = some (some 0, s') →
        s'.heap.live = s₁.heap.live ∧ ∀ r ∈ s₁.heap.live, Agree s₁.bytes s'.bytes r) ∧
      s₁.destroyPool fuel pool = some s₂ ∧ replay [] s₂.calls = some [] ∧ s₂.heap.live = []) ∧
    (size % alignment = 0 → s.CallsFit fuel pool cs) := by
  obtain ⟨m, hm, h, hl, hcalls⟩ := createPool_stored hmin rfl hcreate hpool
  obtain ⟨-, hk⟩ := createPool_accounted hm
  obtain ⟨hblocks, hlarge⟩ := createPool_lengths hm
  refine ⟨fun hfit => ?_, fun hmod => h.callsFit hl hk hmod cs (by omega) (by omega)⟩
  obtain ⟨s₁, hs₁, ⟨h₁, hl₁, hcalls₁⟩, hb, hc⟩ := callAll_stored h hl hk hfit (by omega) (by omega)
  have hk₁ := (hk.calls cs).2
  have hlen : (PoolCall.runAll m cs).pool.blocks.length < fuel := by omega
  have hlen' : (PoolCall.runAll m cs).pool.large.length < fuel := by omega
  obtain ⟨s₂, hs₂, hheap, hcalls₂⟩ := destroyPool_stored h₁ hl₁ hk₁ hlen hlen'
  obtain ⟨hreplay, hlive⟩ := run_accounted hm cs
  generalize PoolCall.runAll m cs = m₁ at *
  have hchain := h₁.chain hl₁ [] m₁.pool.blocks rfl hlen
  rw [List.length_nil, h₁.first] at hchain
  refine ⟨s₁, _, s₂, hs₁, hchain, ?_, ?_, ?_, hs₂, ?_, hheap ▸ hlive⟩
  · have haddrs := hl₁.addrs
    rwa [Pool.extents, List.map_map] at haddrs
  · have hcur := List.getElem?_eq_getElem hl₁.current
    rw [h₁.head.current, Pool.addrAt_of hcur]
    exact List.mem_map_of_mem (List.mem_of_getElem? hcur)
  · intro c s' hfits hs'
    obtain ⟨r, s'', hs'', h', hnull⟩ := call_stored h₁ hl₁ hk₁ hfits hlen hlen'
    obtain ⟨rfl, rfl⟩ := Prod.mk.inj (Option.some.inj (hs''.symm.trans hs'))
    obtain ⟨hnone, hagree⟩ := hnull rfl
    have hsame := ((hk₁.call c).null hnone).2
    rw [h'.stored.heap, h₁.heap]
    exact ⟨hsame, hagree⟩
  · rw [hcalls₂, hcalls₁, hcalls]
    exact hreplay

/-- A pool of 97 bytes: the searches of the run stop at the end of the block, so that no cell meets
what `pcalloc` clears. There is no memory for the cell of the first large allocation, which is freed
at once. -/
theorem pool_freed_once_null :
    let s := (Memory.createPool
      ⟨⟨[], [some 4096, some 8192, none, some 8192, some 20480, some 12288, some 16384]⟩, [],
        fun _ => 255, fun _ _ => 255⟩ 97).2
    ∃ s₁ s₂, s.callAll 9 4096 [.pnalloc 34, .palloc 4000, .pcalloc 4000, .pmemalign 64 64,
          .pfree 8192, .pcalloc 100, .resetPool] = some s₁ ∧
      s₁.destroyPool 9 4096 = some s₂ ∧ replay [] s₂.calls = some [] := by
  intro s
  have hcreate : Memory.createPool
      ⟨⟨[], [some 4096, some 8192, none, some 8192, some 20480, some 12288, some 16384]⟩, [],
        fun _ => 255, fun _ _ => 255⟩ 97 = (4096, s) := Prod.ext (by decide +kernel) rfl
  have hfuel : ([.pnalloc 34, .palloc 4000, .pcalloc 4000, .pmemalign 64 64, .pfree 8192,
      .pcalloc 100, .resetPool] : List PoolCall).length + 1 < 9 := by decide
  obtain ⟨h, -⟩ := pool_freed_once (by decide) hcreate (by decide) hfuel
  obtain ⟨s₁, -, s₂, h₁, -, -, -, -, h₂, hreplay, -⟩ := h (by decide +kernel)
  exact ⟨s₁, s₂, h₁, h₂, hreplay⟩

/-- A block of 97 bytes ends within a word. The cell of the large allocation is cut at 4200, past
its end at 4193, where `pcalloc` clears it, so the large allocation is never freed. -/
theorem not_pool_freed_once :
    ¬∀ {size fuel pool : ℕ} {script : List (Option ℕ)} {bytes : Bytes} {junk : ℕ → Bytes}
      {s : Memory}, sizeofPool ≤ size →
      Memory.createPool ⟨⟨[], script⟩, [], bytes, junk⟩ size = (pool, s) → pool ≠ 0 →
      ∀ {cs : List PoolCall}, cs.length + 1 < fuel → ∃ s₁ s₂, s.callAll fuel pool cs = some s₁ ∧
        s₁.destroyPool fuel pool = some s₂ ∧ replay [] s₂.calls = some [] := by
  intro h
  let s := (Memory.createPool ⟨⟨[], [some 4096, some 4208]⟩, [], fun _ => 0, fun _ _ => 0⟩ 97).2
  have hcreate : Memory.createPool
      ⟨⟨[], [some 4096, some 4208]⟩, [], fun _ => 0, fun _ _ => 0⟩ 97 = (4096, s) :=
    Prod.ext (by decide +kernel) rfl
  have hfuel : ([.palloc 41, .pcalloc 100] : List PoolCall).length + 1 < 4 := by decide
  obtain ⟨s₁, s₂, h₁, h₂, hreplay⟩ := h (by decide) hcreate (by decide) hfuel
  have hrun : ((s.callAll 4 4096 [.palloc 41, .pcalloc 100]).bind
      (Memory.destroyPool · 4 4096)).map (replay [] ·.calls) = some (some [⟨4208, 100⟩]) := by
    decide +kernel
  rw [h₁, Option.bind_some, h₂, Option.map_some, hreplay] at hrun
  cases hrun

end Libcn.Palloc
