import Libcn.Palloc.Owned

/-!
# The bound check of `palloc_small`

`palloc_small` aligns the mark of a block before it takes the difference to the block's end. The
difference is unsigned, so it is huge when the aligned mark lies past the end, which it can where
the size of the pool is no multiple of the alignment.
-/

namespace Libcn.Palloc

open Libcn.Lib

/-- A request to a pool. -/
inductive Request
  | palloc (n : ℕ)
  | pnalloc (n : ℕ)
  deriving DecidableEq, Repr

namespace Request

def run (m : PoolMem) : Request → Option ℕ × PoolMem
  | .palloc n => Palloc.palloc m n
  | .pnalloc n => Palloc.pnalloc m n

/-- The bytes asked for. -/
def bytes : Request → ℕ
  | .palloc n => n
  | .pnalloc n => n

/-- The `align` argument of `palloc_small`. -/
def aligned : Request → Bool
  | .palloc _ => true
  | .pnalloc _ => false

lemma run_eq (m : PoolMem) (c : Request) : c.run m =
    if c.bytes ≤ m.pool.max then pallocSmall m c.bytes c.aligned else pallocLarge m c.bytes := by
  cases c <;> rfl

end Request

/-- The call of `palloc_small` that `palloc_large` makes for its cell. -/
def cellRequest (m : PoolMem) (n : ℕ) : Option (PoolMem × ℕ × Bool) :=
  match m.heap.alloc n with
  | (none, _) => none
  | (some p, h) =>
    match reuseLoop p m.pool.large 0 with
    | some _ => none
    | none => some ({ m with heap := h }, sizeofPoolLarge, true)

/-- The call of `palloc_small` that a request makes. -/
def Request.small (m : PoolMem) (c : Request) : Option (PoolMem × ℕ × Bool) :=
  if c.bytes ≤ m.pool.max then some (m, c.bytes, c.aligned) else cellRequest m c.bytes

/-! ## The condition -/

/-- The search for `n` bytes meets no block whose mark, aligned if asked, lies past its end before
it meets one with room. -/
def Meets (n : ℕ) (align : Bool) : List Block → Prop
  | [] => True
  | b :: bs => b.place align ≤ b.stop ∧ (b.place align + n ≤ b.stop ∨ Meets n align bs)

/-- The search of a request, if there is one. -/
def Request.Fits (m : PoolMem) (c : Request) : Prop :=
  ∀ m' n align, c.small m = some (m', n, align) →
    Meets n align (m'.pool.blocks.drop m'.pool.current)

/-- Every request of a run meets the condition. -/
def FitsRequests (m : PoolMem) : List Request → Prop
  | [] => True
  | c :: cs => c.Fits m ∧ FitsRequests (c.run m).2 cs

/-- The region handed out by `palloc_small` lies in the block it was cut from, and no mark lies
past the end of its block. -/
structure Request.Safe (m : PoolMem) (c : Request) : Prop where
  cut : ∀ m' n align p m'', c.small m = some (m', n, align) →
    pallocSmall m' n align = (some p, m'') →
    ∃ b ∈ m''.pool.blocks, b.addr < p ∧ b.last = p + n ∧ p + n ≤ b.stop
  mark : ∀ b ∈ (c.run m).2.pool.blocks, b.last ≤ b.stop

/-- Every request of a run is safe. -/
def SafeRequests (m : PoolMem) : List Request → Prop
  | [] => True
  | c :: cs => c.Safe m ∧ SafeRequests (c.run m).2 cs

/-! ## The invariant -/

/-- The mark of a block lies between its header and its end. -/
structure Extent.Inside (size : ℕ) (e : Extent) : Prop where
  aligned : e.addr % poolAlignment = 0
  stop : e.stop = e.addr + size
  low : e.addr < e.last
  high : e.last ≤ e.stop
  bound : e.stop ≤ 2 ^ 63

/-- A pool of `size` bytes whose marks all lie inside their blocks. -/
structure Bounded (size : ℕ) (m : PoolMem) : Prop where
  size_min : minPoolSize ≤ size
  max : m.pool.max ≤ size - sizeofPool
  current : m.pool.current < m.pool.blocks.length
  inside : ∀ e ∈ m.pool.extents, e.Inside size

/-- The outcome of `palloc_small` for `n` bytes. -/
structure Cuts (size n : ℕ) (r : Option ℕ × PoolMem) : Prop where
  bounded : Bounded size r.2
  cut : ∀ p, r.1 = some p →
    ∃ b ∈ r.2.pool.blocks, b.addr < p ∧ b.last = p + n ∧ p + n ≤ b.stop

variable {size : ℕ} {m : PoolMem}

lemma Bounded.mark (h : Bounded size m) : ∀ b ∈ m.pool.blocks, b.last ≤ b.stop := fun b hb =>
  (h.inside b.toExtent (List.mem_map_of_mem hb)).high

/-- The pool has not changed. -/
lemma Bounded.heap (h : Bounded size m) (hp : Heap) : Bounded size { m with heap := hp } :=
  ⟨h.size_min, h.max, h.current, h.inside⟩

/-- The mark is no lower than before when it is aligned. -/
lemma Extent.Inside.le_place {e : Extent} (h : e.Inside size) (align : Bool) :
    e.last ≤ e.place align := by
  have h₁ := h.high
  have h₂ := h.bound
  cases align with
  | false => exact Nat.le_refl _
  | true =>
    simp only [Extent.place, if_true, alignPtr, alignment]
    omega

/-- In a pool whose size is a multiple of the alignment the aligned mark is no exception. -/
lemma Extent.Inside.place_le {e : Extent} (h : e.Inside size) (hmod : size % alignment = 0)
    (align : Bool) : e.place align ≤ e.stop := by
  have h₁ := h.high
  have h₂ := h.bound
  have h₃ := h.stop
  have h₄ := h.aligned
  cases align with
  | false => exact h₁
  | true =>
    unfold poolAlignment at h₄
    unfold alignment at hmod
    simp only [Extent.place, if_true, alignPtr, alignment]
    omega

/-- The block found by the search has room. -/
lemma smallLoop_meets {n : ℕ} {align : Bool} {bs : List Block} {i j place : ℕ}
    (h : smallLoop n align bs i = some (j, place)) (hmeets : Meets n align bs)
    (hbound : ∀ b ∈ bs, b.stop ≤ 2 ^ 63) :
    ∃ k b, j = i + k ∧ bs[k]? = some b ∧ place = b.place align ∧ place + n ≤ b.stop := by
  induction bs generalizing i with
  | nil => cases h
  | cons b bs ih =>
    obtain ⟨hplace, hmeets⟩ := hmeets
    have hb := hbound b (.head _)
    have hdiff : ptrDiff b.stop (b.place align) = b.stop - b.place align := by
      unfold ptrDiff
      omega
    unfold smallLoop at h
    rw [hdiff] at h
    split at h
    · rename_i hroom
      simp only [Option.some.injEq, Prod.mk.injEq] at h
      obtain ⟨rfl, rfl⟩ := h
      exact ⟨0, b, rfl, rfl, rfl, by omega⟩
    · obtain ⟨k, b', rfl, hk, hp, hroom⟩ :=
        ih h (hmeets.resolve_left (by omega)) fun b' hb' => hbound b' (.tail _ hb')
      exact ⟨k + 1, b', by omega, hk, hp, hroom⟩

/-- `palloc_block` cuts from a new block. -/
lemma pallocBlock_cuts (h : Bounded size m) {n : ℕ} (hn : n + sizeofPoolData ≤ size) :
    Cuts size n (pallocBlock m n) := by
  have hcur := h.current
  have hsize : ptrDiff m.pool.head.stop m.pool.head.addr = size := by
    obtain ⟨b, bs, hblocks⟩ := List.exists_cons_of_length_pos (Nat.zero_lt_of_lt hcur)
    have hb := h.inside b.toExtent (List.mem_map_of_mem (by rw [hblocks]; exact .head _))
    have h₁ := hb.stop
    have h₂ := hb.bound
    simp only [Pool.head, hblocks, List.headD_cons]
    unfold ptrDiff
    omega
  rcases memalign_spec m.heap poolAlignment size with ⟨s, hs⟩ | ⟨new, s, hf, hs⟩
  · simp only [pallocBlock, hsize, hs]
    exact ⟨h.heap _, fun p e => by cases e⟩
  · simp only [pallocBlock, hsize, hs]
    obtain ⟨-, hal, hend, -⟩ := hf
    have hplace : alignPtr (new + sizeofPoolData) alignment = new + sizeofPoolData := by
      unfold sizeofPoolData at hn ⊢
      unfold poolAlignment at hal
      unfold alignPtr alignment
      omega
    rw [hplace]
    have hlen : (m.pool.blocks.drop m.pool.current).length =
        m.pool.blocks.length - m.pool.current := List.length_drop
    obtain ⟨-, hc⟩ := failLoop_spec (m.pool.blocks.drop m.pool.current)
      m.pool.current m.pool.current (by omega)
    have hE := map_toExtent_append m.pool hcur
      ⟨⟨new, new + sizeofPoolData + n, new + size⟩, 0⟩
    refine ⟨⟨h.size_min, h.max, ?_, fun e he => ?_⟩, fun p hp => ?_⟩
    · rw [← Pool.extents_length, Pool.extents, hE, List.length_append, Pool.extents_length]
      simp only [List.length_singleton]
      omega
    · rw [Pool.extents, hE, List.mem_append, List.mem_singleton] at he
      rcases he with he | rfl
      · exact h.inside e he
      · unfold sizeofPoolData at *
        exact ⟨hal, rfl, by simp only; omega, by simp only; omega, hend⟩
    · obtain rfl := Option.some.inj hp
      refine ⟨⟨⟨new, new + sizeofPoolData + n, new + size⟩, 0⟩, by simp, ?_, rfl, ?_⟩
      · simp [sizeofPoolData]
      · simp only
        omega

/-- `palloc_small` cuts from a block with room. -/
lemma pallocSmall_cuts (h : Bounded size m) {n : ℕ} {align : Bool}
    (hn : n + sizeofPoolData ≤ size)
    (hmeets : Meets n align (m.pool.blocks.drop m.pool.current)) :
    Cuts size n (pallocSmall m n align) := by
  unfold pallocSmall
  match hloop : smallLoop n align (m.pool.blocks.drop m.pool.current) m.pool.current with
  | none => exact pallocBlock_cuts h hn
  | some (j, place) =>
    obtain ⟨k, b, rfl, hk, rfl, hroom⟩ := smallLoop_meets hloop hmeets fun b hb =>
      (h.inside b.toExtent (List.mem_map_of_mem (List.mem_of_mem_drop hb))).bound
    rw [List.getElem?_drop] at hk
    have hin := h.inside b.toExtent (List.mem_map_of_mem (List.mem_of_getElem? hk))
    have hlow := hin.le_place align
    have hnew : (m.pool.blocks.modify (m.pool.current + k)
        fun b' => { b' with last := b.place align + n })[m.pool.current + k]? =
        some { b with last := b.place align + n } := by simp [hk]
    refine ⟨⟨h.size_min, h.max, ?_, fun e he => ?_⟩, fun p hp => ?_⟩
    · rw [List.length_modify]
      exact h.current
    · rw [Pool.extents, map_toExtent_modify] at he
      obtain ⟨i, hi⟩ := List.mem_iff_getElem?.mp he
      by_cases hik : m.pool.current + k = i
      · have hE : (m.pool.blocks.map Block.toExtent)[m.pool.current + k]? = some b.toExtent := by
          rw [List.getElem?_map, hk]
          rfl
        rw [← hik, setLast_self hE] at hi
        obtain rfl := Option.some.inj hi
        exact ⟨hin.aligned, hin.stop, by have := hin.low; simp only; omega, hroom, hin.bound⟩
      · rw [setLast_other hik] at hi
        exact h.inside e (List.mem_of_getElem? hi)
    · obtain rfl := Option.some.inj hp
      exact ⟨_, List.mem_of_getElem? hnew, hin.low.trans_le hlow, rfl, hroom⟩

/-! ## Requests -/

lemma Bounded.congr (h : Bounded size m) {m' : PoolMem} (hb : m'.pool.blocks = m.pool.blocks)
    (hm : m'.pool.max = m.pool.max) (hc : m'.pool.current = m.pool.current) : Bounded size m' :=
  ⟨h.size_min, hm ▸ h.max, by rw [hc, hb]; exact h.current,
    by rw [Pool.extents, hb]; exact h.inside⟩

/-- Two states with the same blocks and the same place to search. -/
def SameBlocks (m m' : PoolMem) : Prop :=
  m'.pool.blocks = m.pool.blocks ∧ m'.pool.max = m.pool.max ∧ m'.pool.current = m.pool.current

/-- The cell of a large allocation does to the blocks what `palloc_small` does. -/
lemma newCell_sameBlocks (m : PoolMem) (p : ℕ) :
    SameBlocks (pallocSmall m sizeofPoolLarge true).2 (newCell m p).2 := by
  unfold newCell
  generalize pallocSmall m sizeofPoolLarge true = r
  obtain ⟨_ | cell, m'⟩ := r
  · exact ⟨rfl, rfl, rfl⟩
  · exact ⟨rfl, rfl, rfl⟩

/-- What a large allocation does to the blocks. -/
lemma pallocLarge_sameBlocks (m : PoolMem) (n : ℕ) :
    (cellRequest m n = none → SameBlocks m (pallocLarge m n).2) ∧
    ∀ m' k align, cellRequest m n = some (m', k, align) →
      SameBlocks (pallocSmall m' k align).2 (pallocLarge m n).2 := by
  unfold cellRequest pallocLarge
  generalize m.heap.alloc n = r
  obtain ⟨_ | p, hp⟩ := r
  · exact ⟨fun _ => ⟨rfl, rfl, rfl⟩, fun _ _ _ e => by cases e⟩
  · simp only
    generalize reuseLoop p m.pool.large 0 = found
    cases found with
    | some large => exact ⟨fun _ => ⟨rfl, rfl, rfl⟩, fun _ _ _ e => by cases e⟩
    | none =>
      refine ⟨fun e => (by cases e), fun m' k align e => ?_⟩
      cases e
      exact newCell_sameBlocks _ p

/-- What a request does to the blocks is what its call of `palloc_small` does. -/
lemma Request.run_sameBlocks (m : PoolMem) (c : Request) :
    (c.small m = none → SameBlocks m (c.run m).2) ∧
    ∀ m' n align, c.small m = some (m', n, align) →
      SameBlocks (pallocSmall m' n align).2 (c.run m).2 := by
  rw [Request.run_eq, Request.small]
  by_cases hc : c.bytes ≤ m.pool.max
  · rw [if_pos hc, if_pos hc]
    refine ⟨fun e => (by cases e), fun m' n align e => ?_⟩
    cases e
    exact ⟨rfl, rfl, rfl⟩
  · rw [if_neg hc, if_neg hc]
    exact pallocLarge_sameBlocks m c.bytes

/-- The call of `palloc_small` that a request makes is one for the same pool and for a size that a
new block can serve. -/
lemma Request.small_spec (h : Bounded size m) {c : Request} {m' : PoolMem} {n : ℕ} {align : Bool}
    (hs : c.small m = some (m', n, align)) : Bounded size m' ∧ n + sizeofPoolData ≤ size := by
  have hmin := h.size_min
  have hmax := h.max
  unfold minPoolSize at hmin
  unfold sizeofPool at hmax
  by_cases hc : c.bytes ≤ m.pool.max
  · rw [Request.small, if_pos hc] at hs
    cases hs
    exact ⟨h, by unfold sizeofPoolData; omega⟩
  · rw [Request.small, if_neg hc, cellRequest] at hs
    generalize m.heap.alloc c.bytes = r at hs
    obtain ⟨_ | p, hp⟩ := r
    · cases hs
    · simp only at hs
      split at hs
      · cases hs
      · cases hs
        exact ⟨h.heap hp, by unfold sizeofPoolLarge sizeofPoolData; omega⟩

/-- A request that meets the condition keeps the marks in their blocks. -/
lemma Request.run_bounded (h : Bounded size m) {c : Request} (hfits : c.Fits m) :
    Bounded size (c.run m).2 := by
  obtain ⟨hnone, hsome⟩ := c.run_sameBlocks m
  match hs : c.small m with
  | none =>
    obtain ⟨hb, hm, hc⟩ := hnone hs
    exact h.congr hb hm hc
  | some (m', n, align) =>
    obtain ⟨hb, hm, hc⟩ := hsome m' n align hs
    obtain ⟨h', hn⟩ := c.small_spec h hs
    exact (pallocSmall_cuts h' hn (hfits m' n align hs)).bounded.congr hb hm hc

/-- A search that meets an aligned mark past the end of its block stops there: the unsigned
difference is huge. -/
lemma smallLoop_passes {n : ℕ} {align : Bool} {bs : List Block} {i : ℕ}
    (hn : n + sizeofPoolData ≤ size) (hin : ∀ b ∈ bs, b.toExtent.Inside size)
    (h : ¬ Meets n align bs) :
    ∃ k b, smallLoop n align bs i = some (i + k, b.place align) ∧ bs[k]? = some b ∧
      b.stop < b.place align := by
  induction bs generalizing i with
  | nil => exact absurd trivial h
  | cons b bs ih =>
    have hb := hin b (.head _)
    have h₁ := hb.bound
    have h₂ := hb.high
    have h₃ := hb.stop
    have hle : b.place align ≤ b.last + 7 := by
      cases align with
      | false => exact Nat.le_add_right _ _
      | true =>
        simp only [Extent.place, if_true, alignPtr, alignment]
        omega
    unfold sizeofPoolData at hn
    by_cases hplace : b.place align ≤ b.stop
    · have hrest : ¬ (b.place align + n ≤ b.stop ∨ Meets n align bs) := fun e => h ⟨hplace, e⟩
      rw [not_or] at hrest
      have hdiff : ¬ n ≤ ptrDiff b.stop (b.place align) := by
        have hroom := hrest.1
        unfold ptrDiff
        omega
      obtain ⟨k, b', hrun, hk, hpast⟩ :=
        ih (i := i + 1) (fun b' hb' => hin b' (.tail _ hb')) hrest.2
      refine ⟨k + 1, b', ?_, hk, hpast⟩
      rw [smallLoop, if_neg hdiff, hrun, Nat.add_assoc, Nat.add_comm 1 k]
    · have hdiff : n ≤ ptrDiff b.stop (b.place align) := by
        unfold ptrDiff
        omega
      exact ⟨0, b, by rw [smallLoop, if_pos hdiff]; rfl, rfl, not_le.mp hplace⟩

/-- A request that does not meet the condition leaves a mark past the end of a block. -/
lemma Request.fits_of_mark (h : Bounded size m) {c : Request}
    (hmark : ∀ b ∈ (c.run m).2.pool.blocks, b.last ≤ b.stop) : c.Fits m := by
  intro m' n align hs
  by_contra hmeets
  obtain ⟨h', hn⟩ := c.small_spec h hs
  obtain ⟨k, b, hrun, hk, hpast⟩ := smallLoop_passes (i := m'.pool.current) hn
    (fun b hb => h'.inside b.toExtent (List.mem_map_of_mem (List.mem_of_mem_drop hb))) hmeets
  rw [List.getElem?_drop] at hk
  rw [((c.run_sameBlocks m).2 m' n align hs).1] at hmark
  unfold pallocSmall at hmark
  rw [hrun] at hmark
  have hnew : (m'.pool.blocks.modify (m'.pool.current + k)
      fun b' => { b' with last := b.place align + n })[m'.pool.current + k]? =
      some { b with last := b.place align + n } := by simp [hk]
  have := hmark _ (List.mem_of_getElem? hnew)
  simp only at this
  omega

/-- A request is safe exactly when it meets the condition. -/
lemma Request.safe_iff (h : Bounded size m) (c : Request) : c.Safe m ↔ c.Fits m := by
  refine ⟨fun hs => c.fits_of_mark h hs.mark, fun hfits => ?_⟩
  refine ⟨fun m' n align p m'' hs hrun => ?_, (c.run_bounded h hfits).mark⟩
  obtain ⟨h', hn⟩ := c.small_spec h hs
  have hcuts := pallocSmall_cuts h' hn (hfits m' n align hs)
  rw [hrun] at hcuts
  exact hcuts.cut p rfl

lemma Bounded.safe_iff (h : Bounded size m) (cs : List Request) :
    SafeRequests m cs ↔ FitsRequests m cs := by
  induction cs generalizing m with
  | nil => exact Iff.rfl
  | cons c cs ih =>
    unfold SafeRequests FitsRequests
    rw [c.safe_iff h]
    exact and_congr_right fun hfits => ih (c.run_bounded h hfits)

/-- `create_pool`. -/
lemma createPool_bounded {hp : Heap} (hmin : minPoolSize ≤ size)
    (hc : createPool hp size = some m) : Bounded size m := by
  unfold createPool at hc
  rcases memalign_spec hp poolAlignment size with ⟨s, hs⟩ | ⟨p, s, hf, hs⟩
  · rw [hs] at hc
    cases hc
  · rw [hs] at hc
    obtain rfl := Option.some.inj hc
    obtain ⟨-, hal, hend, -⟩ := hf
    have hdiff : ptrDiff size sizeofPool = size - sizeofPool := by
      unfold minPoolSize at hmin
      unfold ptrDiff sizeofPool
      omega
    unfold minPoolSize at hmin
    refine ⟨hmin, ?_, Nat.one_pos, fun e he => ?_⟩
    · simp only [hdiff]
      exact Nat.min_le_left _ _
    · obtain rfl := List.mem_singleton.mp he
      unfold sizeofPool
      exact ⟨hal, rfl, by simp only; omega, by simp only; omega, hend⟩

/-- Where the size is a multiple of the alignment every search meets the condition. -/
lemma meets_of_inside {n : ℕ} {align : Bool} (hmod : size % alignment = 0) (bs : List Block)
    (h : ∀ b ∈ bs, b.toExtent.Inside size) : Meets n align bs := by
  induction bs with
  | nil => trivial
  | cons b bs ih =>
    exact ⟨(h b (.head _)).place_le hmod align, .inr (ih fun b' hb' => h b' (.tail _ hb'))⟩

lemma Bounded.fits (h : Bounded size m) (hmod : size % alignment = 0) (c : Request) : c.Fits m := by
  intro m' n align hs
  obtain ⟨h', -⟩ := c.small_spec h hs
  exact meets_of_inside hmod _ fun b hb =>
    h'.inside b.toExtent (List.mem_map_of_mem (List.mem_of_mem_drop hb))

lemma Bounded.fitsRequests (h : Bounded size m) (hmod : size % alignment = 0)
    (cs : List Request) : FitsRequests m cs := by
  induction cs generalizing m with
  | nil => trivial
  | cons c cs ih => exact ⟨h.fits hmod c, ih (c.run_bounded h (h.fits hmod c))⟩

/-- The regions that `palloc_small` hands out in a run all lie in their blocks, with no mark past
an end, exactly when no search of the run meets a mark that is aligned past the end of its block.
Where the size of the pool is a multiple of the alignment, none does. -/
theorem palloc_bounds {hp : Heap} (hmin : minPoolSize ≤ size) (hc : createPool hp size = some m)
    (cs : List Request) :
    (SafeRequests m cs ↔ FitsRequests m cs) ∧ (size % alignment = 0 → FitsRequests m cs) := by
  have h := createPool_bounded hmin hc
  exact ⟨h.safe_iff cs, fun hmod => h.fitsRequests hmod cs⟩

/-- The smallest pool, filled and asked for more. -/
theorem palloc_bounds_smallest :
    ∃ m, createPool ⟨[], [some 4096, some 8192]⟩ 96 = some m ∧
      (SafeRequests m [.palloc 40, .palloc 1] ↔ FitsRequests m [.palloc 40, .palloc 1]) ∧
      (96 % alignment = 0 → FitsRequests m [.palloc 40, .palloc 1]) := by
  obtain ⟨m, hm⟩ : ∃ m, createPool ⟨[], [some 4096, some 8192]⟩ 96 = some m := ⟨_, rfl⟩
  exact ⟨m, hm, palloc_bounds (by decide) hm _⟩

/-- A pool of 97 bytes at 4096 ends at 4193. Once 41 bytes are taken the mark is there, and the
next byte is handed out at 4200. -/
theorem not_palloc_bounds :
    ∃ m, createPool ⟨[], [some 4096]⟩ 97 = some m ∧ m.pool.head.stop = 4193 ∧
      (palloc (palloc m 41).2 1).1 = some 4200 ∧ ¬ SafeRequests m [.palloc 41, .palloc 1] := by
  refine ⟨_, rfl, rfl, by decide +kernel, fun hsafe => ?_⟩
  exact absurd (hsafe.2.1.mark _ (.head _)) (by decide +kernel)

end Libcn.Palloc
