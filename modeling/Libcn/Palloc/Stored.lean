import Libcn.Palloc.Layout
import Libcn.Palloc.Memory

/-!
# How a pool is stored

`Stored s pool m`: the fields in memory, as they are reached from the address `pool`, are those of
the pool `m`. A write to one field leaves the others alone, since the headers and the cells of a
pool are disjoint, and what the system allocator does leaves them all alone.
-/

namespace Libcn.Palloc

open Libcn.Lib

/-- The bytes of a field. -/
def Field.site (f : Field) (p : ℕ) : Region := ⟨p + f.offset, f.width⟩

/-- The address of the block at a position of the chain. NULL follows the last one. -/
def Pool.addrAt (p : Pool) (i : ℕ) : ℕ := p.addrs.getD i 0

/-- The address of the cell at a position. NULL follows the last one. -/
def Pool.cellAt (p : Pool) (i : ℕ) : ℕ := (p.large.map Cell.addr).getD i 0

variable {s s' : Memory} {p q v size pool fuel : ℕ} {f g : Field} {m : PoolMem} {b : Block} {c : Cell}

/-! ## Fields -/

/-- Where the fields of a `pool_data_t`, of the rest of the first header and of a cell stand. -/
lemma Field.site_data (hf : f.offset + f.width ≤ 32) (p : ℕ) :
    (f.site p).Within ⟨p, sizeofPoolData⟩ := by
  unfold Region.Within site Region.stop sizeofPoolData
  simp only
  omega

/-- The bytes of `max`, `current` and `large`. -/
def Memory.headSite (pool : ℕ) : Region := ⟨pool + sizeofPoolData, 24⟩

lemma Field.site_head (hlow : 32 ≤ f.offset) (hhigh : f.offset + f.width ≤ 56) (p : ℕ) :
    (f.site p).Within (Memory.headSite p) := by
  unfold Region.Within site Memory.headSite Region.stop sizeofPoolData
  simp only
  omega

lemma Field.site_cell (hf : f.offset + f.width ≤ 16) (c : Cell) :
    (f.site c.addr).Within c.region := by
  unfold Region.Within site Cell.region Region.stop sizeofPoolLarge
  simp only
  omega

namespace Memory

lemma agree_set (v : ℕ) {r : Region} (h : (f.site p).Apart r) :
    Agree s.bytes (s.set p f v).bytes r := agree_store v h

lemma get_congr (h : Agree s.bytes s'.bytes (f.site p)) : s'.get p f = s.get p f := h.load

/-- A pointer or a size is read as it was written. -/
lemma get_set_word (hf : f.width = 8) (hv : v < 2 ^ 64) : (s.set p f v).get p f = v := by
  rw [get, set, load_store_self, hf]
  exact Nat.mod_eq_of_lt hv

lemma get_set_failed (s : Memory) (p v : ℕ) : (s.set p .failed v).get p .failed = v % 2 ^ 32 :=
  load_store_self s.bytes (p + 24) 4 v

/-- Two fields of one record. -/
lemma get_set_ne (h : f.offset + f.width ≤ g.offset ∨ g.offset + g.width ≤ f.offset) :
    (s.set p f v).get p g = s.get p g := by
  refine load_store_apart v ?_
  unfold Region.Apart Region.stop
  simp only
  omega

/-! ## Records -/

/-- A block stands in memory, and `next` is the address of the following one. -/
structure BlockAt (s : Memory) (b : Block) (next : ℕ) : Prop where
  last : s.get b.addr .last = b.last
  stop : s.get b.addr .stop = b.stop
  next : s.get b.addr .next = next
  failed : s.get b.addr .failed = b.failed

/-- The rest of the first header stands in memory. -/
structure HeadAt (s : Memory) (pool max current large : ℕ) : Prop where
  max : s.get pool .max = max
  current : s.get pool .current = current
  large : s.get pool .large = large

/-- A cell stands in memory. -/
structure CellAt (s : Memory) (c : Cell) (next : ℕ) : Prop where
  next : s.get c.addr .largeNext = next
  alloc : s.get c.addr .largeAlloc = c.alloc

variable {next max current large : ℕ}

lemma BlockAt.congr (h : s.BlockAt b next)
    (ha : Agree s.bytes s'.bytes ⟨b.addr, sizeofPoolData⟩) : s'.BlockAt b next := by
  have hfield : ∀ f : Field, f.offset + f.width ≤ 32 → s'.get b.addr f = s.get b.addr f :=
    fun f hf => get_congr (ha.within (Field.site_data hf _))
  exact ⟨(hfield _ (by decide)).trans h.last, (hfield _ (by decide)).trans h.stop,
    (hfield _ (by decide)).trans h.next, (hfield _ (by decide)).trans h.failed⟩

lemma HeadAt.congr (h : s.HeadAt pool max current large)
    (ha : Agree s.bytes s'.bytes (headSite pool)) : s'.HeadAt pool max current large := by
  have hfield : ∀ f : Field, 32 ≤ f.offset → f.offset + f.width ≤ 56 →
      s'.get pool f = s.get pool f :=
    fun f hlow hhigh => get_congr (ha.within (Field.site_head hlow hhigh _))
  exact ⟨(hfield _ (by decide) (by decide)).trans h.max,
    (hfield _ (by decide) (by decide)).trans h.current,
    (hfield _ (by decide) (by decide)).trans h.large⟩

lemma CellAt.congr (h : s.CellAt c next) (ha : Agree s.bytes s'.bytes c.region) :
    s'.CellAt c next := by
  have hfield : ∀ f : Field, f.offset + f.width ≤ 16 → s'.get c.addr f = s.get c.addr f :=
    fun f hf => get_congr (ha.within (Field.site_cell hf c))
  exact ⟨(hfield _ (by decide)).trans h.next, (hfield _ (by decide)).trans h.alloc⟩

lemma BlockAt.setLast (h : s.BlockAt b next) (hv : v < 2 ^ 64) :
    (s.set b.addr .last v).BlockAt { b with last := v } next :=
  ⟨get_set_word rfl hv, (get_set_ne (by decide)).trans h.stop,
    (get_set_ne (by decide)).trans h.next, (get_set_ne (by decide)).trans h.failed⟩

lemma BlockAt.setFailed (h : s.BlockAt b next) (v : ℕ) :
    (s.set b.addr .failed v).BlockAt { b with failed := v % 2 ^ 32 } next :=
  ⟨(get_set_ne (by decide)).trans h.last, (get_set_ne (by decide)).trans h.stop,
    (get_set_ne (by decide)).trans h.next, get_set_failed s _ v⟩

lemma BlockAt.setNext (h : s.BlockAt b next) (hv : v < 2 ^ 64) :
    (s.set b.addr .next v).BlockAt b v :=
  ⟨(get_set_ne (by decide)).trans h.last, (get_set_ne (by decide)).trans h.stop,
    get_set_word rfl hv, (get_set_ne (by decide)).trans h.failed⟩

lemma HeadAt.setCurrent (h : s.HeadAt pool max current large) (hv : v < 2 ^ 64) :
    (s.set pool .current v).HeadAt pool max v large :=
  ⟨(get_set_ne (by decide)).trans h.max, get_set_word rfl hv,
    (get_set_ne (by decide)).trans h.large⟩

lemma HeadAt.setLarge (h : s.HeadAt pool max current large) (hv : v < 2 ^ 64) :
    (s.set pool .large v).HeadAt pool max current v :=
  ⟨(get_set_ne (by decide)).trans h.max, (get_set_ne (by decide)).trans h.current,
    get_set_word rfl hv⟩

lemma CellAt.setAlloc (h : s.CellAt c next) (hv : v < 2 ^ 64) :
    (s.set c.addr .largeAlloc v).CellAt { c with alloc := v } next :=
  ⟨(get_set_ne (by decide)).trans h.next, get_set_word rfl hv⟩

/-! ## The system allocator -/

/-- What lies in a live allocation is left alone. -/
lemma agree_scribble (s : Memory) {live : List Region} {o r : Region} (ho : o ∈ live)
    (hr : r.Within o) : Agree s.bytes (s.scribble live) r := fun _ hlow hhigh =>
  if_pos ⟨o, ho, hr.1.trans hlow, hhigh.trans_le hr.2⟩

/-- `memalign` answers NULL, or with a fresh region. -/
lemma memalign_cases (s : Memory) (al n : ℕ) :
    (∃ sc, s.heap.memalign al n = (none, ⟨s.heap.live, sc⟩) ∧ s.memalign al n =
      (0, { s with heap := ⟨s.heap.live, sc⟩, bytes := s.scribble s.heap.live })) ∨
    ∃ a sc, Fresh s.heap.live a n al ∧
      s.heap.memalign al n = (some a, ⟨⟨a, n⟩ :: s.heap.live, sc⟩) ∧ s.memalign al n =
      (a, { s with
        heap := ⟨⟨a, n⟩ :: s.heap.live, sc⟩
        calls := s.calls ++ [.got ⟨a, n⟩]
        bytes := s.scribble s.heap.live }) := by
  rcases memalign_spec s.heap al n with ⟨sc, hs⟩ | ⟨a, sc, hf, hs⟩
  · exact .inl ⟨sc, hs, by rw [memalign, hs]⟩
  · exact .inr ⟨a, sc, hf, hs, by rw [memalign, hs]⟩

end Memory

/-! ## Pools -/

/-- The blocks and the first header of a pool stand in memory, and the list of its cells starts at
`large`. -/
structure Chained (s : Memory) (pool : ℕ) (m : PoolMem) (large : ℕ) : Prop where
  heap : s.heap = m.heap
  first : m.pool.addrAt 0 = pool
  block : ∀ (i : ℕ) (b : Block), m.pool.blocks[i]? = some b → s.BlockAt b (m.pool.addrAt (i + 1))
  head : s.HeadAt pool m.pool.max (m.pool.addrAt m.pool.current) large

/-- The pool stands in memory. -/
structure Stored (s : Memory) (pool : ℕ) (m : PoolMem) : Prop extends
    Chained s pool m (m.pool.cellAt 0) where
  cell : ∀ (i : ℕ) (c : Cell), m.pool.large[i]? = some c → s.CellAt c (m.pool.cellAt (i + 1))

lemma Pool.addrAt_of {p : Pool} {i : ℕ} (hb : p.blocks[i]? = some b) : p.addrAt i = b.addr := by
  rw [addrAt, addrs, List.getD_eq_getElem?_getD, List.getElem?_map, hb]
  rfl

lemma Pool.addrAt_end {p : Pool} {i : ℕ} (hi : p.blocks.length ≤ i) : p.addrAt i = 0 := by
  rw [addrAt, addrs, List.getD_eq_getElem?_getD, List.getElem?_map, List.getElem?_eq_none hi]
  rfl

/-- The addresses are those of the extents. -/
lemma Pool.addrAt_congr {p q : Pool} (h : p.extents = q.extents) (i : ℕ) :
    p.addrAt i = q.addrAt i := by
  have haddrs := congrArg (List.map Extent.addr) h
  rw [extents, extents, List.map_map, List.map_map] at haddrs
  exact congrArg (List.getD · i 0) haddrs

lemma Pool.cellAt_of {p : Pool} {i : ℕ} (hc : p.large[i]? = some c) : p.cellAt i = c.addr := by
  rw [cellAt, List.getD_eq_getElem?_getD, List.getElem?_map, hc]
  rfl

lemma Pool.cellAt_end {p : Pool} {i : ℕ} (hi : p.large.length ≤ i) : p.cellAt i = 0 := by
  rw [cellAt, List.getD_eq_getElem?_getD, List.getElem?_map, List.getElem?_eq_none hi]
  rfl

lemma Pool.extents_get {p : Pool} {i : ℕ} (hb : p.blocks[i]? = some b) :
    p.extents[i]? = some b.toExtent := by
  rw [extents, List.getElem?_map, hb]
  rfl

namespace Laid

lemma extent_bounds (h : Laid size m) {i : ℕ} (hb : m.pool.blocks[i]? = some b) :
    0 < b.addr ∧ b.addr + headerSize i ≤ b.last ∧ b.last ≤ b.stop ∧ b.stop ≤ 2 ^ 63 := by
  have hi := Pool.extents_get hb
  obtain ⟨-, -, h₃, h₄, h₅⟩ := h.block i _ hi
  exact ⟨(h.bound _ h₅).1, h₃, h₄, h.stop_le hi⟩

/-- What lies in a block. -/
lemma inBlock_bounds (h : Laid size m) {r : Region} (hr : InBlock m.pool.extents r) :
    0 < r.start ∧ r.stop ≤ 2 ^ 63 := by
  obtain ⟨i, e, hi, hlow, hhigh⟩ := hr
  have hb := h.block i e hi
  have := (h.bound _ hb.live).1
  have := hb.high
  have := h.stop_le hi
  simp only at *
  omega

/-- The chain has no NULL before its end. -/
lemma addrAt_pos (h : Laid size m) {i : ℕ} (hi : i < m.pool.blocks.length) :
    0 < m.pool.addrAt i ∧ m.pool.addrAt i < 2 ^ 64 := by
  have hb := List.getElem?_eq_getElem hi
  rw [Pool.addrAt_of hb]
  have := h.extent_bounds hb
  omega

lemma addrAt_lt (h : Laid size m) (i : ℕ) : m.pool.addrAt i < 2 ^ 64 := by
  by_cases hi : i < m.pool.blocks.length
  · exact (h.addrAt_pos hi).2
  · rw [Pool.addrAt_end (not_lt.mp hi)]
    decide

lemma cellAt_lt (h : Laid size m) (i : ℕ) : m.pool.cellAt i < 2 ^ 64 := by
  by_cases hi : i < m.pool.large.length
  · rw [Pool.cellAt_of (List.getElem?_eq_getElem hi)]
    have := (h.inBlock_bounds (h.cell _ (List.getElem_mem hi))).2
    unfold Region.stop Cell.region at this
    simp only at this
    omega
  · rw [Pool.cellAt_end (not_lt.mp hi)]
    decide

/-- The header of a block in full, its `pool_data_t`, and the rest of the first one. -/
lemma data_used (h : Laid size m) {i : ℕ} (hb : m.pool.blocks[i]? = some b) :
    Used m.pool.extents ⟨b.addr, headerSize i⟩ := by
  refine ⟨b.toExtent, List.mem_of_getElem? (Pool.extents_get hb), Nat.le_refl _, ?_⟩
  exact (h.extent_bounds hb).2.1

lemma data_within (i : ℕ) : Region.Within ⟨p, sizeofPoolData⟩ ⟨p, headerSize i⟩ :=
  ⟨Nat.le_refl _, Nat.add_le_add_left (headerSize_le i).1 p⟩

lemma head_within : (Memory.headSite p).Within ⟨p, headerSize 0⟩ :=
  ⟨Nat.le_add_right _ _, Nat.le_refl _⟩

/-- The first block. -/
lemma first (h : Laid size m) : ∃ b, m.pool.blocks[0]? = some b ∧ m.pool.addrAt 0 = b.addr := by
  obtain ⟨b, bs, hblocks⟩ := List.exists_cons_of_length_pos (Nat.zero_lt_of_lt h.current)
  have hb : m.pool.blocks[0]? = some b := by rw [hblocks]; rfl
  exact ⟨b, hb, Pool.addrAt_of hb⟩

/-- A `pool_data_t` and the rest of the first header. -/
lemma data_head (h : Laid size m) {i : ℕ} (hb : m.pool.blocks[i]? = some b) :
    Region.Apart ⟨b.addr, sizeofPoolData⟩ (Memory.headSite (m.pool.addrAt 0)) := by
  obtain ⟨b₀, hb₀, haddr⟩ := h.first
  by_cases hi : i = 0
  · subst hi
    obtain rfl := Option.some.inj (hb.symm.trans hb₀)
    rw [haddr]
    exact .inr (.inr (.inl (Nat.le_refl _)))
  · rw [haddr]
    exact (h.headers_apart (Pool.extents_get hb) (Pool.extents_get hb₀) hi).within
      (data_within i) head_within

lemma data_data (h : Laid size m) {i j : ℕ} {b' : Block} (hb : m.pool.blocks[i]? = some b)
    (hb' : m.pool.blocks[j]? = some b') (hij : i ≠ j) :
    Region.Apart ⟨b.addr, sizeofPoolData⟩ ⟨b'.addr, sizeofPoolData⟩ :=
  (h.headers_apart (Pool.extents_get hb) (Pool.extents_get hb') hij).within (data_within i)
    (data_within j)

lemma data_cell (h : Laid size m) {i : ℕ} (hb : m.pool.blocks[i]? = some b) {r : Region}
    (hr : InBlock m.pool.extents r) : Region.Apart ⟨b.addr, sizeofPoolData⟩ r :=
  (h.header_apart (Pool.extents_get hb) hr).within (data_within i) (.refl r)

lemma head_cell (h : Laid size m) {r : Region} (hr : InBlock m.pool.extents r) :
    Region.Apart (Memory.headSite (m.pool.addrAt 0)) r := by
  obtain ⟨b₀, hb₀, haddr⟩ := h.first
  rw [haddr]
  exact (h.header_apart (Pool.extents_get hb₀) hr).within head_within (.refl r)

lemma head_used (h : Laid size m) : Used m.pool.extents (Memory.headSite (m.pool.addrAt 0)) := by
  obtain ⟨b₀, hb₀, haddr⟩ := h.first
  rw [haddr]
  obtain ⟨e, he, hlow, hhigh⟩ := h.data_used hb₀
  exact ⟨e, he, hlow.trans (Nat.le_add_right _ _), hhigh⟩

/-- Cells at two positions. -/
lemma cell_cell (h : Laid size m) {i j : ℕ} {c' : Cell} (hc : m.pool.large[i]? = some c)
    (hc' : m.pool.large[j]? = some c') (hij : i ≠ j) : c.region.Apart c'.region := by
  have hi : (m.pool.large.map Cell.region)[i]? = some c.region := by rw [List.getElem?_map, hc]; rfl
  have hj : (m.pool.large.map Cell.region)[j]? = some c'.region := by
    rw [List.getElem?_map, hc']
    rfl
  obtain ⟨hi, hci⟩ := List.getElem?_eq_some_iff.mp hi
  obtain ⟨hj, hcj⟩ := List.getElem?_eq_some_iff.mp hj
  have hpair := List.pairwise_iff_getElem.mp h.apart
  rcases Nat.lt_or_gt_of_ne hij with hlt | hlt
  · exact hci ▸ hcj ▸ hpair i j hi hj hlt
  · exact (hcj ▸ hci ▸ hpair j i hj hi hlt : Region.Apart _ _).symm

end Laid

/-! ## Writes to the headers -/

namespace Chained

variable {large : ℕ}

/-- A write to the header of one block. -/
lemma setBlock (h : Chained s pool m large) (hl : Laid size m) {i : ℕ}
    (hb : m.pool.blocks[i]? = some b) (hf : f.offset + f.width ≤ 32) (v : ℕ) {g : Block → Block}
    (hg : ∀ b, (g b).addr = b.addr)
    (hat : ∀ next, s.BlockAt b next → (s.set b.addr f v).BlockAt (g b) next) :
    Chained (s.set b.addr f v) pool { m with
      pool := { m.pool with blocks := m.pool.blocks.modify i g } } large := by
  have hsite := Field.site_data hf b.addr
  have haddrs : (m.pool.blocks.modify i g).map (fun b => b.addr) = m.pool.addrs := by
    rw [Pool.addrs]
    apply List.ext_getElem?
    intro j
    simp only [List.getElem?_map, List.getElem?_modify]
    cases m.pool.blocks[j]? with
    | none => rfl
    | some b' => by_cases hj : i = j <;> simp [hj, hg]
  have haddrAt : ∀ j, Pool.addrAt { m.pool with blocks := m.pool.blocks.modify i g } j =
      m.pool.addrAt j := fun j => congrArg (List.getD · j 0) haddrs
  refine ⟨h.heap, (haddrAt 0).trans h.first, fun j b' hj => ?_, ?_⟩
  · rw [haddrAt]
    simp only [List.getElem?_modify] at hj
    by_cases hij : i = j
    · subst hij
      rw [hb, Option.map_eq_map, Option.map_some, if_pos rfl] at hj
      obtain rfl := Option.some.inj hj
      exact hat _ (h.block i b hb)
    · simp only [if_neg hij, Option.map_eq_map, Option.map_id'] at hj
      exact (h.block j b' hj).congr
        (Memory.agree_set v ((hl.data_data hb hj hij).within hsite (.refl _)))
  · rw [haddrAt]
    exact h.head.congr (Memory.agree_set v (h.first ▸ (hl.data_head hb).within hsite (.refl _)))

/-- A write to the rest of the first header. -/
lemma agree_head (h : Chained s pool m large) (hl : Laid size m) (hlow : 32 ≤ f.offset)
    (hhigh : f.offset + f.width ≤ 56) (v : ℕ) :
    (∀ (i : ℕ) (b : Block), m.pool.blocks[i]? = some b →
      Agree s.bytes (s.set pool f v).bytes ⟨b.addr, sizeofPoolData⟩) ∧
    ∀ r, InBlock m.pool.extents r → Agree s.bytes (s.set pool f v).bytes r := by
  have hsite := Field.site_head hlow hhigh pool
  rw [← h.first] at hsite ⊢
  exact ⟨fun i b hb => Memory.agree_set v ((hl.data_head hb).symm.within hsite (.refl _)),
    fun r hr => Memory.agree_set v ((hl.head_cell hr).within hsite (.refl _))⟩

lemma setCurrent (h : Chained s pool m large) (hl : Laid size m) (i : ℕ) :
    Chained (s.set pool .current (m.pool.addrAt i)) pool { m with
      pool := { m.pool with current := i } } large := by
  obtain ⟨hdata, -⟩ := h.agree_head hl (f := .current) (by decide) (by decide) (m.pool.addrAt i)
  exact ⟨h.heap, h.first, fun j b hb => (h.block j b hb).congr (hdata j b hb),
    h.head.setCurrent (hl.addrAt_lt i)⟩

lemma setLarge (h : Chained s pool m large) (hl : Laid size m) (hv : v < 2 ^ 64) :
    Chained (s.set pool .large v) pool m v := by
  obtain ⟨hdata, -⟩ := h.agree_head hl (f := .large) (by decide) (by decide) v
  exact ⟨h.heap, h.first, fun j b hb => (h.block j b hb).congr (hdata j b hb), h.head.setLarge hv⟩

end Chained

/-! ## Writes to the pool -/


namespace Stored

/-- Nothing was written to the headers and the cells. -/
lemma frame (h : Stored s pool m) (hl : Laid size m) (hheap : s'.heap = s.heap)
    (hdata : ∀ (i : ℕ) (b : Block), m.pool.blocks[i]? = some b →
      Agree s.bytes s'.bytes ⟨b.addr, headerSize i⟩)
    (hcell : ∀ c ∈ m.pool.large, Agree s.bytes s'.bytes c.region) : Stored s' pool m where
  heap := hheap.trans h.heap
  first := h.first
  block i b hb := (h.block i b hb).congr ((hdata i b hb).within (Laid.data_within i))
  head := by
    obtain ⟨b₀, hb₀, haddr⟩ := hl.first
    have hpool : pool = b₀.addr := h.first.symm.trans haddr
    exact h.head.congr (hpool ▸ (hdata 0 b₀ hb₀).within Laid.head_within)
  cell i c hc := (h.cell i c hc).congr (hcell c (List.mem_of_getElem? hc))

/-- Nothing was written to the used parts of the blocks. -/
lemma frame_used (h : Stored s pool m) (hl : Laid size m) (hheap : s'.heap = s.heap)
    (hused : ∀ r, Used m.pool.extents r → Agree s.bytes s'.bytes r) : Stored s' pool m :=
  h.frame hl hheap (fun _ _ hb => hused _ (hl.data_used hb))
    fun c hc => hused _ (hl.cell c hc).used

/-- The state of the system allocator has changed. -/
lemma heap_congr (h : Stored s pool m) {hp : Heap} {calls : List HeapCall} :
    Stored { s with heap := hp, calls := calls } pool { m with heap := hp } where
  heap := rfl
  first := h.first
  block i b hb := ⟨(h.block i b hb).last, (h.block i b hb).stop, (h.block i b hb).next,
    (h.block i b hb).failed⟩
  head := ⟨h.head.max, h.head.current, h.head.large⟩
  cell i c hc := ⟨(h.cell i c hc).next, (h.cell i c hc).alloc⟩

/-- A write to the header of one block. -/
lemma setBlock (h : Stored s pool m) (hl : Laid size m) {i : ℕ}
    (hb : m.pool.blocks[i]? = some b) (hf : f.offset + f.width ≤ 32) (v : ℕ) {g : Block → Block}
    (hg : ∀ b, (g b).addr = b.addr)
    (hat : ∀ next, s.BlockAt b next → (s.set b.addr f v).BlockAt (g b) next) :
    Stored (s.set b.addr f v) pool { m with
      pool := { m.pool with blocks := m.pool.blocks.modify i g } } := by
  have hsite := Field.site_data hf b.addr
  refine ⟨h.toChained.setBlock hl hb hf v hg hat, fun j c hc => (h.cell j c hc).congr ?_⟩
  exact Memory.agree_set v
    ((hl.data_cell hb (hl.cell c (List.mem_of_getElem? hc))).within hsite (.refl _))

lemma setLast (h : Stored s pool m) (hl : Laid size m) {i : ℕ} (hb : m.pool.blocks[i]? = some b)
    (hv : v < 2 ^ 64) : Stored (s.set b.addr .last v) pool { m with
      pool := { m.pool with blocks := m.pool.blocks.modify i fun b => { b with last := v } } } :=
  h.setBlock hl hb (by decide) v (fun _ => rfl) fun _ hat => hat.setLast hv

/-- A write to the rest of the first header. -/
lemma setCurrent (h : Stored s pool m) (hl : Laid size m) (i : ℕ) :
    Stored (s.set pool .current (m.pool.addrAt i)) pool { m with
      pool := { m.pool with current := i } } := by
  obtain ⟨-, hcell⟩ := h.agree_head hl (f := .current) (by decide) (by decide) (m.pool.addrAt i)
  exact ⟨h.toChained.setCurrent hl i, fun j c hc => (h.cell j c hc).congr
    (hcell _ (hl.cell c (List.mem_of_getElem? hc)))⟩

/-- A cell gets or loses an allocation. -/
lemma setAlloc (h : Stored s pool m) (hl : Laid size m) {l₁ l₂ : List Cell}
    (hlarge : m.pool.large = l₁ ++ c :: l₂) (hv : v < 2 ^ 64) :
    Stored (s.set c.addr .largeAlloc v) pool { m with
      pool := { m.pool with large := l₁ ++ { c with alloc := v } :: l₂ } } := by
  have hc : m.pool.large[l₁.length]? = some c := by rw [hlarge]; simp
  have hin : InBlock m.pool.extents c.region := hl.cell c (List.mem_of_getElem? hc)
  have hsite : (Field.largeAlloc.site c.addr).Within c.region := Field.site_cell (by decide) c
  have hcellAt : ∀ j, Pool.cellAt { m.pool with large := l₁ ++ { c with alloc := v } :: l₂ } j =
      m.pool.cellAt j := by
    intro j
    simp only [Pool.cellAt, hlarge, List.map_append, List.map_cons]
  refine ⟨⟨h.heap, h.first, fun j b hb => (h.block j b hb).congr
    (Memory.agree_set v ((hl.data_cell hb hin).symm.within hsite (.refl _))), ?_⟩, fun j c' hj => ?_⟩
  · rw [hcellAt]
    exact h.head.congr (Memory.agree_set v
      (h.first ▸ (hl.head_cell hin).symm.within hsite (.refl _)))
  · rw [hcellAt]
    simp only at hj
    by_cases hij : l₁.length = j
    · subst hij
      simp only [List.getElem?_append_right (Nat.le_refl _), Nat.sub_self,
        List.getElem?_cons_zero, Option.some.injEq] at hj
      obtain rfl := hj
      exact (h.cell _ c hc).setAlloc hv
    · have hj' : m.pool.large[j]? = some c' := by
        rw [hlarge, ← hj]
        rcases Nat.lt_or_gt_of_ne hij with hlt | hlt
        · obtain ⟨k, rfl⟩ : ∃ k, j = l₁.length + (k + 1) := ⟨j - l₁.length - 1, by omega⟩
          simp [List.getElem?_append_right]
        · rw [List.getElem?_append_left hlt, List.getElem?_append_left hlt]
      exact (h.cell j c' hj').congr (Memory.agree_set v
        ((hl.cell_cell hc hj' hij).within hsite (.refl _)))

/-- A new cell is written where nothing was, and linked. -/
lemma addCell (h : Stored s pool m) (hl : Laid size m)
    (hin : InBlock m.pool.extents c.region)
    (hfree : ∀ c' ∈ m.pool.large, c.region.Apart c'.region) (haddr : c.addr < 2 ^ 64)
    (halloc : c.alloc < 2 ^ 64) :
    Stored (((s.set c.addr .largeAlloc c.alloc).set c.addr .largeNext
      ((s.set c.addr .largeAlloc c.alloc).get pool .large)).set pool .large c.addr) pool
      { m with pool := { m.pool with large := c :: m.pool.large } } := by
  -- the two writes to the cell leave the pool as it was
  have hwrite : ∀ {s : Memory} (f : Field) (v : ℕ), f.offset + f.width ≤ 16 → Stored s pool m →
      Stored (s.set c.addr f v) pool m := by
    intro s f v hf h
    have hsite := Field.site_cell hf c
    refine h.frame hl rfl (fun i b hb => Memory.agree_set v ?_) fun c' hc' => Memory.agree_set v ?_
    · exact (hl.header_apart (Pool.extents_get hb) hin).symm.within hsite (.refl _)
    · exact (hfree c' hc').within hsite (.refl _)
  have h₁ := hwrite .largeAlloc c.alloc (by decide) h
  have hlarge : (s.set c.addr .largeAlloc c.alloc).get pool .large = m.pool.cellAt 0 := h₁.head.large
  rw [hlarge]
  have h₂ := hwrite .largeNext (m.pool.cellAt 0) (by decide) h₁
  have hcell : ((s.set c.addr .largeAlloc c.alloc).set c.addr .largeNext (m.pool.cellAt 0)).CellAt c
      (m.pool.cellAt 0) :=
    ⟨Memory.get_set_word rfl (hl.cellAt_lt 0),
      (Memory.get_set_ne (by decide)).trans (Memory.get_set_word rfl halloc)⟩
  generalize (s.set c.addr .largeAlloc c.alloc).set c.addr .largeNext (m.pool.cellAt 0) = s₂ at h₂ hcell
  obtain ⟨-, hcells⟩ := h₂.agree_head hl (f := .large) (by decide) (by decide) c.addr
  have h₃ := h₂.setLarge hl haddr
  refine ⟨⟨h₃.heap, h₃.first, h₃.block, h₃.head⟩, fun j c' hj => ?_⟩
  cases j with
  | zero =>
    obtain rfl := Option.some.inj hj
    exact hcell.congr (hcells _ hin)
  | succ j => exact (h₂.cell j c' hj).congr (hcells _ (hl.cell c' (List.mem_of_getElem? hj)))

end Stored

end Libcn.Palloc
