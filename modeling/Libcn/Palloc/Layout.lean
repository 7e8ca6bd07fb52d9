import Libcn.Palloc.Bounds

/-!
# The layout of a pool of any size

Where every search of `palloc_small` respects the end of the blocks, the headers and the cells of a
pool are disjoint, whatever size the pool was created with, and so is what it hands out.
-/

namespace Libcn.Palloc

open Libcn.Lib

/-! ## The invariant -/

/-- The region lies in the used part of a block. -/
def Used (E : List Extent) (r : Region) : Prop := ∃ e ∈ E, e.addr ≤ r.start ∧ r.stop ≤ e.last

/-- The blocks are live allocations of `size` bytes, marked inside, and the cells lie in their used
parts, disjoint from each other. -/
structure Laid (size : ℕ) (m : PoolMem) : Prop where
  size_min : sizeofPool ≤ size
  max : m.pool.max ≤ size - sizeofPool
  current : m.pool.current < m.pool.blocks.length
  clear : m.heap.live.Pairwise Region.Clear
  bound : ∀ r ∈ m.heap.live, 0 < r.start ∧ r.stop ≤ 2 ^ 63
  block : ∀ (i : ℕ) (e : Extent), m.pool.extents[i]? = some e → e.Ok size m.heap.live i
  addrs : (m.pool.extents.map Extent.addr).Nodup
  alloc : ∀ c ∈ m.pool.large, c.alloc ≤ 2 ^ 63
  cell : ∀ c ∈ m.pool.large, InBlock m.pool.extents c.region
  apart : (m.pool.large.map Cell.region).Pairwise Region.Apart

variable {size : ℕ} {m : PoolMem}

lemma InBlock.used {E : List Extent} {r : Region} (h : InBlock E r) : Used E r := by
  obtain ⟨i, e, hi, hlow, hhigh⟩ := h
  exact ⟨e, List.mem_of_getElem? hi, (Nat.le_add_right _ _).trans hlow, hhigh⟩

namespace Laid

lemma stop_le (h : Laid size m) {i : ℕ} {e : Extent} (hi : m.pool.extents[i]? = some e) :
    e.stop ≤ 2 ^ 63 := by
  have hb := h.block i e hi
  rw [hb.stop]
  exact (h.bound _ hb.live).2

/-- A small allocation fits in a new block. -/
lemma small_le (h : Laid size m) {n : ℕ} (hn : n ≤ m.pool.max) : n + sizeofPoolData ≤ size := by
  have := h.max
  have := h.size_min
  unfold sizeofPool sizeofPoolData at *
  omega

/-- A part of a block and a part of another one. -/
lemma apart_blocks (h : Laid size m) {i j : ℕ} {e e' : Extent} (hi : m.pool.extents[i]? = some e)
    (hj : m.pool.extents[j]? = some e') (hij : i ≠ j) {r r' : Region}
    (hr : r.Within ⟨e.addr, size⟩) (hr' : r'.Within ⟨e'.addr, size⟩) : r.Apart r' := by
  have hne : e.addr ≠ e'.addr := by
    intro he
    have hi' : (m.pool.extents.map Extent.addr)[i]? = some e.addr := by rw [List.getElem?_map, hi]; rfl
    have hj' : (m.pool.extents.map Extent.addr)[j]? = some e.addr := by
      rw [List.getElem?_map, hj, he]
      rfl
    have hlt : i < (m.pool.extents.map Extent.addr).length := by
      by_contra hge
      rw [List.getElem?_eq_none (by omega)] at hi'
      cases hi'
    exact hij ((List.getElem?_inj hlt h.addrs).mp (hi'.trans hj'.symm))
  exact (Region.clear_of_mem h.clear (h.block i e hi).live (h.block j e' hj).live hne).apart.within
    hr hr'

/-- The header of a block, and the rest of it. -/
lemma header_within (h : Laid size m) {i : ℕ} {e : Extent} (hi : m.pool.extents[i]? = some e) :
    Region.Within ⟨e.addr, headerSize i⟩ ⟨e.addr, size⟩ := by
  have hb := h.block i e hi
  have := hb.low
  have := hb.high
  have := hb.stop
  exact ⟨Nat.le_refl _, by unfold Region.stop; simp only; omega⟩

lemma used_within (h : Laid size m) {i : ℕ} {e : Extent} (hi : m.pool.extents[i]? = some e)
    {r : Region} (hlow : e.addr ≤ r.start) (hhigh : r.stop ≤ e.last) :
    r.Within ⟨e.addr, size⟩ := by
  have hb := h.block i e hi
  have := hb.high
  have := hb.stop
  exact ⟨hlow, by unfold Region.stop at *; simp only; omega⟩

/-- The headers are disjoint from each other. -/
lemma headers_apart (h : Laid size m) {i j : ℕ} {e e' : Extent}
    (hi : m.pool.extents[i]? = some e) (hj : m.pool.extents[j]? = some e') (hij : i ≠ j) :
    Region.Apart ⟨e.addr, headerSize i⟩ ⟨e'.addr, headerSize j⟩ :=
  h.apart_blocks hi hj hij (h.header_within hi) (h.header_within hj)

/-- The headers are disjoint from what lies in the blocks. -/
lemma header_apart (h : Laid size m) {i : ℕ} {e : Extent} (hi : m.pool.extents[i]? = some e)
    {r : Region} (hr : InBlock m.pool.extents r) :
    Region.Apart ⟨e.addr, headerSize i⟩ r := by
  obtain ⟨j, e', hj, hlow, hhigh⟩ := hr
  by_cases hij : i = j
  · subst hij
    obtain rfl := Option.some.inj (hi.symm.trans hj)
    exact .inr (.inr (.inl hlow))
  · exact h.apart_blocks hi hj hij (h.header_within hi)
      (h.used_within hj ((Nat.le_add_right _ _).trans hlow) hhigh)

/-- The free part of a block is disjoint from all that is used. -/
lemma apart_free (h : Laid size m) {i : ℕ} {e : Extent} (hi : m.pool.extents[i]? = some e)
    {n : Region} (hlow : e.last ≤ n.start) (hhigh : n.stop ≤ e.stop) {r : Region}
    (hr : Used m.pool.extents r) : n.Apart r := by
  obtain ⟨e', he', hlow', hhigh'⟩ := hr
  obtain ⟨j, hj⟩ := List.mem_iff_getElem?.mp he'
  by_cases hij : i = j
  · subst hij
    obtain rfl := Option.some.inj (hi.symm.trans hj)
    exact .inr (.inr (.inr (hhigh'.trans hlow)))
  · have hb := h.block i e hi
    have hn : n.Within ⟨e.addr, size⟩ := by
      have := hb.low
      have := hb.stop
      unfold Region.Within Region.stop at *
      simp only
      omega
    exact h.apart_blocks hi hj hij hn (h.used_within hj hlow' hhigh')

/-- A fresh region is disjoint from all that is used. -/
lemma apart_fresh (h : Laid size m) {o n : Region} (ho : ∀ r ∈ m.heap.live, o.Clear r)
    (hn : n.Within o) {r : Region} (hr : Used m.pool.extents r) : n.Apart r := by
  obtain ⟨e, he, hlow, hhigh⟩ := hr
  obtain ⟨i, hi⟩ := List.mem_iff_getElem?.mp he
  exact (ho _ (h.block i e hi).live).apart.within hn (h.used_within hi hlow hhigh)

/-- In a pool whose size is a multiple of the alignment every search respects the end. -/
lemma meets (h : Laid size m) (hmod : size % alignment = 0) (n : ℕ) (align : Bool) {bs : List Block}
    (hbs : ∀ b ∈ bs, b.toExtent ∈ m.pool.extents) : Meets n align bs := by
  induction bs with
  | nil => trivial
  | cons b bs ih =>
    refine ⟨?_, .inr (ih fun b' hb' => hbs b' (.tail _ hb'))⟩
    obtain ⟨i, hi⟩ := List.mem_iff_getElem?.mp (hbs b (.head _))
    have hb := h.block i b.toExtent hi
    have h₁ := hb.aligned
    have h₂ := hb.stop
    have h₃ := hb.high
    have h₄ := h.stop_le hi
    cases align with
    | false => exact h₃
    | true =>
      unfold poolAlignment at h₁
      unfold alignment at hmod
      simp only [Extent.place, if_true, alignPtr, alignment]
      omega

/-! ## Changes -/

/-- The script of the system allocator does not matter. -/
lemma script (h : Laid size m) (s : List (Option ℕ)) :
    Laid size { m with heap := ⟨m.heap.live, s⟩ } := { h with }

/-- A fresh allocation. -/
lemma fresh (h : Laid size m) {a n al : ℕ} (hf : Fresh m.heap.live a n al) (s : List (Option ℕ)) :
    Laid size { m with heap := ⟨⟨a, n⟩ :: m.heap.live, s⟩ } where
  size_min := h.size_min
  max := h.max
  current := h.current
  clear := List.pairwise_cons.mpr ⟨hf.2.2.2, h.clear⟩
  bound r hr := by
    rcases List.mem_cons.mp hr with rfl | hr
    · exact ⟨hf.1, hf.2.2.1⟩
    · exact h.bound r hr
  block i e hi := by
    obtain ⟨h₁, h₂, h₃, h₄, h₅⟩ := h.block i e hi
    exact ⟨h₁, h₂, h₃, h₄, .tail _ h₅⟩
  addrs := h.addrs
  alloc := h.alloc
  cell := h.cell
  apart := h.apart

/-- Something that is no block is freed. -/
lemma free (h : Laid size m) {p : ℕ} (hp : p ∉ m.pool.extents.map Extent.addr) :
    Laid size { m with heap := m.heap.free p } where
  size_min := h.size_min
  max := h.max
  current := h.current
  clear := h.clear.sublist List.filter_sublist
  bound r hr := h.bound r (List.mem_of_mem_filter hr)
  block i e hi := by
    obtain ⟨h₁, h₂, h₃, h₄, h₅⟩ := h.block i e hi
    refine ⟨h₁, h₂, h₃, h₄, List.mem_filter.mpr ⟨h₅, ?_⟩⟩
    have hne : e.addr ≠ p := by
      rintro rfl
      exact hp (List.mem_map_of_mem (List.mem_of_getElem? hi))
    simpa using hne
  addrs := h.addrs
  alloc := h.alloc
  cell := h.cell
  apart := h.apart

/-- One block is marked elsewhere, and the cells still lie in the used parts. -/
lemma mark (h : Laid size m) {i x : ℕ} {e : Extent} {bs : List Block}
    (hi : m.pool.extents[i]? = some e) (hlow : e.addr + headerSize i ≤ x) (hhigh : x ≤ e.stop)
    (hbs : bs.map Block.toExtent = setLast m.pool.extents i x)
    (hcell : ∀ c ∈ m.pool.large, InBlock (setLast m.pool.extents i x) c.region) :
    Laid size { m with pool := { m.pool with blocks := bs } } where
  size_min := h.size_min
  max := h.max
  current := by
    have hlen := congrArg List.length hbs
    rw [List.length_map, setLast, List.length_modify, Pool.extents_length] at hlen
    rw [hlen]
    exact h.current
  clear := h.clear
  bound := h.bound
  block j e' hj := by
    rw [Pool.extents, hbs] at hj
    by_cases hij : i = j
    · subst hij
      rw [setLast_self hi] at hj
      cases hj
      obtain ⟨h₁, h₂, -, -, h₅⟩ := h.block i e hi
      exact ⟨h₁, h₂, hlow, hhigh, h₅⟩
    · rw [setLast_other hij] at hj
      exact h.block j e' hj
  addrs := by
    rw [Pool.extents, hbs, map_addr_setLast]
    exact h.addrs
  alloc := h.alloc
  cell c hc := by
    rw [Pool.extents, hbs]
    exact hcell c hc
  apart := h.apart

lemma raise (h : Laid size m) {i x : ℕ} {e : Extent} {bs : List Block}
    (hi : m.pool.extents[i]? = some e) (hlow : e.last ≤ x) (hhigh : x ≤ e.stop)
    (hbs : bs.map Block.toExtent = setLast m.pool.extents i x) :
    Laid size { m with pool := { m.pool with blocks := bs } } :=
  h.mark hi ((h.block i e hi).low.trans hlow) hhigh hbs fun c hc => (h.cell c hc).raise hi hlow

/-- The cells are dropped. -/
lemma dropCells (h : Laid size m) : Laid size { m with pool := { m.pool with large := [] } } :=
  { h with
    alloc := fun c hc => by cases hc
    cell := fun c hc => by cases hc
    apart := List.Pairwise.nil }

/-- A fresh block, with something handed out from it. -/
lemma addBlock (h : Laid size m) {new x current : ℕ} {bs : List Block}
    (hf : Fresh m.heap.live new size poolAlignment) (s : List (Option ℕ))
    (hlow : new + sizeofPoolData ≤ x) (hhigh : x ≤ new + size)
    (hbs : bs.map Block.toExtent = m.pool.extents ++ [⟨new, x, new + size⟩])
    (hcur : current < bs.length) :
    Laid size ⟨⟨⟨new, size⟩ :: m.heap.live, s⟩,
      { m.pool with blocks := bs, current := current }⟩ where
  size_min := h.size_min
  max := h.max
  current := hcur
  clear := List.pairwise_cons.mpr ⟨hf.2.2.2, h.clear⟩
  bound := (h.fresh hf s).bound
  block i e hi := by
    rw [Pool.extents, hbs] at hi
    by_cases hlt : i < m.pool.extents.length
    · rw [List.getElem?_append_left hlt] at hi
      exact (h.fresh hf s).block i e hi
    · rw [List.getElem?_append_right (by omega)] at hi
      obtain ⟨hi', rfl⟩ := List.getElem?_eq_some_iff.mp hi
      have hpos : 0 < m.pool.extents.length := by
        rw [Pool.extents_length]
        exact Nat.zero_lt_of_lt h.current
      have hhead : headerSize i = sizeofPoolData := if_neg (by omega)
      rw [List.length_singleton] at hi'
      simp only [List.getElem_singleton]
      exact ⟨hf.2.1, rfl, by rw [hhead]; exact hlow, hhigh, .head _⟩
  addrs := by
    rw [Pool.extents, hbs, List.map_append, List.map_singleton]
    refine List.nodup_append.mpr ⟨h.addrs, List.nodup_singleton _, ?_⟩
    intro a ha b hb
    obtain rfl := List.mem_singleton.mp hb
    rintro rfl
    obtain ⟨e, he, he'⟩ := List.mem_map.mp ha
    obtain ⟨i, hi⟩ := List.mem_iff_getElem?.mp he
    exact (hf.2.2.2 _ (h.block i e hi).live).start_ne he'.symm
  alloc := h.alloc
  cell c hc := by
    rw [Pool.extents, hbs]
    exact (h.cell c hc).append _
  apart := h.apart

/-- A new cell. -/
lemma addCell (h : Laid size m) {a p : ℕ} (hin : InBlock m.pool.extents ⟨a, sizeofPoolLarge⟩)
    (hfree : ∀ c ∈ m.pool.large, Region.Apart ⟨a, sizeofPoolLarge⟩ c.region) (hp : p ≤ 2 ^ 63) :
    Laid size { m with pool := { m.pool with large := ⟨a, p⟩ :: m.pool.large } } :=
  { h with
    alloc := fun c hc => by
      rcases List.mem_cons.mp hc with rfl | hc
      · exact hp
      · exact h.alloc c hc
    cell := fun c hc => by
      rcases List.mem_cons.mp hc with rfl | hc
      · exact hin
      · exact h.cell c hc
    apart := List.pairwise_cons.mpr ⟨fun r hr => by
      obtain ⟨c, hc, rfl⟩ := List.mem_map.mp hr
      exact hfree c hc, h.apart⟩ }

/-- A cell gets or loses an allocation. -/
lemma assign (h : Laid size m) {l₁ l₂ : List Cell} {c : Cell} {p : ℕ}
    (hl : m.pool.large = l₁ ++ c :: l₂) (hp : p ≤ 2 ^ 63) :
    Laid size { m with pool := { m.pool with large := l₁ ++ { c with alloc := p } :: l₂ } } := by
  have hregions : (l₁ ++ { c with alloc := p } :: l₂).map Cell.region =
      m.pool.large.map Cell.region := by
    rw [hl, List.map_append, List.map_append, List.map_cons, List.map_cons]
    rfl
  have hmem : ∀ c' ∈ l₁ ++ { c with alloc := p } :: l₂, c' = { c with alloc := p } ∨
      c' ∈ m.pool.large := by
    intro c' hc'
    rw [hl]
    simp only [List.mem_append, List.mem_cons] at hc' ⊢
    tauto
  exact { h with
    alloc := fun c' hc' => by
      rcases hmem c' hc' with rfl | hc'
      · exact hp
      · exact h.alloc c' hc'
    cell := fun c' hc' => by
      obtain ⟨c'', hc'', he⟩ := List.mem_map.mp (hregions ▸ List.mem_map_of_mem hc')
      exact he ▸ h.cell c'' hc''
    apart := by
      show (List.map Cell.region _).Pairwise _
      rw [hregions]
      exact h.apart }

end Laid

/-! ## The functions -/

/-- `create_pool`. -/
theorem createPool_laid {script : List (Option ℕ)} (hmin : sizeofPool ≤ size)
    (hc : createPool ⟨[], script⟩ size = some m) : Laid size m := by
  unfold createPool at hc
  rcases memalign_spec ⟨[], script⟩ poolAlignment size with ⟨s, hs⟩ | ⟨p, s, hf, hs⟩
  · rw [hs] at hc
    cases hc
  · rw [hs] at hc
    obtain rfl := Option.some.inj hc
    obtain ⟨hpos, hal, hend, -⟩ := hf
    have hsize : ptrDiff size sizeofPool = size - sizeofPool := by
      unfold ptrDiff sizeofPool at *
      omega
    refine ⟨hmin, ?_, Nat.one_pos, by simp, by simpa [Region.stop] using ⟨hpos, hend⟩, ?_,
      by simp [Pool.extents], by simp, by simp, List.Pairwise.nil⟩
    · simp only [hsize]
      exact Nat.min_le_left _ _
    · intro i e hi
      obtain ⟨hlt, rfl⟩ := List.getElem?_eq_some_iff.mp hi
      obtain rfl : i = 0 := by simpa [Pool.extents] using hlt
      exact ⟨hal, rfl, Nat.le_refl _, Nat.add_le_add_left hmin _, .head _⟩

/-- What `palloc_small` leaves behind: `n` bytes at `p` lie in a block, and nothing was there. -/
structure Cut (size n : ℕ) (m : PoolMem) (r : Option ℕ × PoolMem) : Prop where
  laid : Laid size r.2
  large : r.2.pool.large = m.pool.large
  some : ∀ p, r.1 = some p → InBlock r.2.pool.extents ⟨p, n⟩ ∧
    ∀ o, Used m.pool.extents o → Region.Apart ⟨p, n⟩ o

/-- `palloc_block`. -/
theorem pallocBlock_cut (h : Laid size m) {n : ℕ} (hn : n + sizeofPoolData ≤ size) :
    Cut size n m (pallocBlock m n) := by
  have hcur := h.current
  obtain ⟨b, bs, hblocks⟩ := List.exists_cons_of_length_pos (Nat.zero_lt_of_lt hcur)
  have h₀ : m.pool.extents[0]? = some b.toExtent := by
    rw [Pool.extents, hblocks]
    rfl
  -- the new block is as large as the first
  have hsize : ptrDiff m.pool.head.stop m.pool.head.addr = size := by
    have := (h.block _ _ h₀).stop
    have := h.stop_le h₀
    simp only [Pool.head, hblocks, List.headD_cons]
    unfold ptrDiff
    omega
  rcases memalign_spec m.heap poolAlignment size with ⟨s, hs⟩ | ⟨new, s, hf, hs⟩
  · simp only [pallocBlock, hsize, hs]
    exact ⟨h.script s, rfl, fun p e => by cases e⟩
  · simp only [pallocBlock, hsize, hs]
    obtain ⟨-, hal, hend, -⟩ := id hf
    have hplace : alignPtr (new + sizeofPoolData) alignment = new + sizeofPoolData := by
      unfold sizeofPoolData at hn ⊢
      unfold poolAlignment at hal
      unfold alignPtr alignment
      omega
    rw [hplace]
    have hlen : (m.pool.blocks.drop m.pool.current).length =
        m.pool.blocks.length - m.pool.current := List.length_drop
    obtain ⟨-, hc⟩ := failLoop_spec (m.pool.blocks.drop m.pool.current)
      m.pool.current m.pool.current (by omega)
    have hE := map_toExtent_append m.pool hcur ⟨⟨new, new + sizeofPoolData + n, new + size⟩, 0⟩
    refine ⟨h.addBlock hf s (Nat.le_add_right _ _) (by omega) hE ?_, rfl, fun p hp => ?_⟩
    · rw [← List.length_map Block.toExtent, hE, List.length_append, Pool.extents_length]
      simp only [List.length_singleton]
      omega
    · obtain rfl := Option.some.inj hp
      have hwithin : Region.Within ⟨new + sizeofPoolData, n⟩ ⟨new, size⟩ := by
        unfold Region.Within Region.stop
        simp only
        omega
      refine ⟨?_, fun o ho => h.apart_fresh hf.2.2.2 hwithin ho⟩
      rw [Pool.extents, hE]
      refine ⟨m.pool.extents.length, ⟨new, new + sizeofPoolData + n, new + size⟩, by simp, ?_,
        Nat.le_refl _⟩
      have hpos : m.pool.extents.length ≠ 0 := by
        rw [Pool.extents_length]
        omega
      rw [headerSize, if_neg hpos]

/-- `palloc_small`. -/
theorem pallocSmall_cut (h : Laid size m) {n : ℕ} {align : Bool} (hn : n + sizeofPoolData ≤ size)
    (hmeets : Meets n align (m.pool.blocks.drop m.pool.current)) :
    Cut size n m (pallocSmall m n align) := by
  unfold pallocSmall
  match hloop : smallLoop n align (m.pool.blocks.drop m.pool.current) m.pool.current with
  | none => exact pallocBlock_cut h hn
  | some (j, place) =>
    obtain ⟨k, b, rfl, hk, rfl, hroom⟩ := smallLoop_meets hloop hmeets fun b hb => by
      obtain ⟨i, hi⟩ := List.mem_iff_getElem?.mp
        (List.mem_map_of_mem (f := Block.toExtent) (List.mem_of_mem_drop hb))
      exact h.stop_le hi
    rw [List.getElem?_drop] at hk
    have hi : m.pool.extents[m.pool.current + k]? = some b.toExtent := by
      rw [Pool.extents, List.getElem?_map, hk]
      rfl
    have hlow : b.last ≤ b.place align := by
      have h₁ := (h.block _ _ hi).high
      have h₂ := h.stop_le hi
      cases align with
      | false => exact Nat.le_refl _
      | true =>
        simp only [Extent.place, if_true, alignPtr, alignment]
        omega
    have hE := map_toExtent_modify m.pool.blocks (m.pool.current + k) (b.place align + n)
    refine ⟨h.raise hi (hlow.trans (Nat.le_add_right _ _)) hroom hE, rfl, fun p hp => ?_⟩
    obtain rfl := Option.some.inj hp
    refine ⟨?_, fun o ho => h.apart_free (n := ⟨b.place align, n⟩) hi hlow hroom ho⟩
    rw [Pool.extents, hE]
    exact ⟨_, _, setLast_self hi, (h.block _ _ hi).low.trans hlow, Nat.le_refl _⟩

end Libcn.Palloc
