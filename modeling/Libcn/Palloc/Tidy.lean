import Libcn.Palloc.Basic

/-!
# What a pool owns

`Tidy size live E large R`: the extents `E` of the blocks and the allocations in the cells
`large` are live, and the regions `R` in use, with the cells themselves, are pairwise disjoint
and lie below the `last` mark of a block or make up a large allocation.
-/

namespace Libcn.Palloc

open Libcn.Lib

/-! ## The invariant -/

/-- The size of the header of the block at a position of the chain. -/
def headerSize (i : ℕ) : ℕ := if i = 0 then sizeofPool else sizeofPoolData

lemma headerSize_le (i : ℕ) : sizeofPoolData ≤ headerSize i ∧ headerSize i ≤ sizeofPool := by
  unfold headerSize sizeofPool sizeofPoolData
  split <;> omega

/-- The region of a cell. -/
def Cell.region (c : Cell) : Region := ⟨c.addr, sizeofPoolLarge⟩

/-- The region lies in the used part of a block, outside its header. -/
def InBlock (E : List Extent) (r : Region) : Prop :=
  ∃ (i : ℕ) (e : Extent), E[i]? = some e ∧ e.addr + headerSize i ≤ r.start ∧ r.stop ≤ e.last

/-- The region is a large allocation the pool keeps in a cell. -/
def IsLarge (live : List Region) (large : List Cell) (r : Region) : Prop :=
  r.start ≠ 0 ∧ r ∈ live ∧ ∃ c ∈ large, c.alloc = r.start

/-- A block of the pool. -/
structure Extent.Ok (size : ℕ) (live : List Region) (i : ℕ) (e : Extent) : Prop where
  aligned : e.addr % poolAlignment = 0
  stop : e.stop = e.addr + size
  low : e.addr + headerSize i ≤ e.last
  high : e.last ≤ e.stop
  live : ⟨e.addr, size⟩ ∈ live

structure Tidy (size : ℕ) (live : List Region) (E : List Extent) (large : List Cell)
    (R : List Region) : Prop where
  size_mod : size % poolAlignment = 0
  size_min : minPoolSize ≤ size
  clear : live.Pairwise Region.Clear
  bound : ∀ r ∈ live, r.stop ≤ 2 ^ 63
  block : ∀ (i : ℕ) (e : Extent), E[i]? = some e → e.Ok size live i
  addrs : (E.map Extent.addr).Nodup
  alloc : ∀ c ∈ large, c.alloc ≠ 0 → (∃ n, ⟨c.alloc, n⟩ ∈ live) ∧ c.alloc ∉ E.map Extent.addr
  allocs : large.Pairwise fun c c' => c.alloc ≠ 0 → c.alloc ≠ c'.alloc
  cell : ∀ c ∈ large, InBlock E c.region
  placed : ∀ r ∈ R, 0 < r.size → InBlock E r ∨ IsLarge live large r
  apart : (R ++ large.map Cell.region).Pairwise Region.Apart

variable {size : ℕ} {live : List Region} {E : List Extent} {large : List Cell} {R : List Region}

namespace Tidy

/-- Every region in use and every cell lies in a block or is a large allocation. -/
lemma used (h : Tidy size live E large R) {r : Region} (hr : r ∈ R ++ large.map Cell.region)
    (hs : 0 < r.size) : InBlock E r ∨ IsLarge live large r := by
  rcases List.mem_append.mp hr with hr | hr
  · exact h.placed r hr hs
  · obtain ⟨c, hc, rfl⟩ := List.mem_map.mp hr
    exact .inl (h.cell c hc)

/-- The blocks end among the addresses of a user process. -/
lemma stop_le (h : Tidy size live E large R) {i : ℕ} {e : Extent} (hi : E[i]? = some e) :
    e.stop ≤ 2 ^ 63 := by
  have hb := h.block i e hi
  rw [hb.stop]
  exact h.bound _ hb.live

/-- Two positions of the chain with one address are the same. -/
lemma index_eq (h : Tidy size live E large R) {i j : ℕ} {e e' : Extent} (hi : E[i]? = some e)
    (hj : E[j]? = some e') (he : e.addr = e'.addr) : i = j := by
  have hi' : (E.map Extent.addr)[i]? = some e.addr := by simp [hi]
  have hj' : (E.map Extent.addr)[j]? = some e.addr := by simp [hj, he]
  have hlt : i < (E.map Extent.addr).length := by
    by_contra hge
    rw [List.getElem?_eq_none (by omega)] at hi'
    cases hi'
  exact (List.getElem?_inj hlt h.addrs).mp (hi'.trans hj'.symm)

/-- A region in the free part of a block is disjoint from everything in use. -/
lemma apart_free (h : Tidy size live E large R) {i : ℕ} {e : Extent} (hi : E[i]? = some e)
    {n : Region} (hlow : e.last ≤ n.start) (hhigh : n.stop ≤ e.stop) {r : Region}
    (hr : r ∈ R ++ large.map Cell.region) : n.Apart r := by
  by_cases hs : r.size = 0
  · exact .inr (.inl hs)
  have hb := h.block i e hi
  have hn : n.Within ⟨e.addr, size⟩ := by
    have := hb.low
    have := hb.stop
    unfold Region.Within Region.stop at *
    simp only
    omega
  rcases h.used hr (by omega) with ⟨j, e', hj, hlow', hhigh'⟩ | ⟨hne, hlive, c, hc, hcr⟩
  · by_cases he : e.addr = e'.addr
    · obtain rfl := h.index_eq hi hj he
      obtain rfl : e = e' := Option.some.inj (hi.symm.trans hj)
      unfold Region.Apart
      omega
    · have hb' := h.block j e' hj
      have hr' : r.Within ⟨e'.addr, size⟩ := by
        have := hb'.stop
        have := hb'.high
        unfold Region.Within Region.stop at *
        simp only
        omega
      exact (Region.clear_of_mem h.clear hb.live hb'.live he).apart.within hn hr'
  · have hne' : e.addr ≠ r.start := by
      intro he
      refine (h.alloc c hc (by rwa [hcr])).2 ?_
      rw [hcr, ← he]
      exact List.mem_map_of_mem (List.mem_of_getElem? hi)
    exact (Region.clear_of_mem h.clear hb.live hlive hne').apart.within hn ⟨Nat.le_refl _, Nat.le_refl _⟩

end Tidy

/-! ## Moving the `last` mark of a block -/

/-- The extents with the `last` mark of the block `i` at `x`. -/
def setLast (E : List Extent) (i x : ℕ) : List Extent := E.modify i fun e => { e with last := x }

lemma setLast_self {i x : ℕ} {e : Extent} (hi : E[i]? = some e) :
    (setLast E i x)[i]? = some { e with last := x } := by
  simp [setLast, hi]

lemma setLast_other {i j x : ℕ} (hij : i ≠ j) : (setLast E i x)[j]? = E[j]? := by
  simp [setLast, hij]

lemma map_addr_setLast (E : List Extent) (i x : ℕ) :
    (setLast E i x).map Extent.addr = E.map Extent.addr := by
  apply List.ext_getElem?
  intro j
  simp only [setLast, List.getElem?_map, List.getElem?_modify]
  cases E[j]? with
  | none => rfl
  | some e => by_cases hij : i = j <;> simp [hij]

lemma setLast_concat (E : List Extent) (e : Extent) (x : ℕ) :
    setLast (E ++ [e]) E.length x = E ++ [{ e with last := x }] := by
  induction E with
  | nil => rfl
  | cons e' E ih =>
    unfold setLast at ih ⊢
    simp only [List.cons_append, List.length_cons, List.modify_succ_cons, ih]

/-- A region below the new mark of its block stays in the block. -/
lemma InBlock.setLast {i x : ℕ} {e : Extent} {r : Region} (hi : E[i]? = some e)
    (hr : InBlock E r) (hx : e.addr + headerSize i ≤ r.start → r.stop ≤ e.last → r.stop ≤ x) :
    InBlock (setLast E i x) r := by
  obtain ⟨j, e', hj, hlow, hhigh⟩ := hr
  by_cases hij : i = j
  · subst hij
    obtain rfl : e = e' := Option.some.inj (hi.symm.trans hj)
    exact ⟨i, _, setLast_self hi, hlow, hx hlow hhigh⟩
  · exact ⟨j, e', by rw [setLast_other hij, hj], hlow, hhigh⟩

/-- Raising the mark keeps every region in its block. -/
lemma InBlock.raise {i x : ℕ} {e : Extent} {r : Region} (hi : E[i]? = some e) (hx : e.last ≤ x)
    (hr : InBlock E r) : InBlock (Palloc.setLast E i x) r :=
  hr.setLast hi fun _ h => h.trans hx

/-- A region stays in its block when blocks are added. -/
lemma InBlock.append {r : Region} (E' : List Extent) (hr : InBlock E r) : InBlock (E ++ E') r := by
  obtain ⟨i, e, hi, hlow, hhigh⟩ := hr
  refine ⟨i, e, ?_, hlow, hhigh⟩
  rw [List.getElem?_append_left, hi]
  by_contra hge
  rw [List.getElem?_eq_none (by omega)] at hi
  cases hi

namespace Tidy

/-- A new mark inside the block, and regions that respect it. -/
lemma setLast (h : Tidy size live E large R) {i x : ℕ} {e : Extent} {R' : List Region}
    (hi : E[i]? = some e) (hlow : e.addr + headerSize i ≤ x) (hhigh : x ≤ e.stop)
    (hcell : ∀ c ∈ large, InBlock (Palloc.setLast E i x) c.region)
    (hplaced : ∀ r ∈ R', 0 < r.size → InBlock (Palloc.setLast E i x) r ∨ IsLarge live large r)
    (hapart : (R' ++ large.map Cell.region).Pairwise Region.Apart) :
    Tidy size live (Palloc.setLast E i x) large R' where
  size_mod := h.size_mod
  size_min := h.size_min
  clear := h.clear
  bound := h.bound
  block j e' hj := by
    by_cases hij : i = j
    · subst hij
      rw [setLast_self hi] at hj
      cases hj
      obtain ⟨h₁, h₂, -, -, h₅⟩ := h.block i e hi
      exact ⟨h₁, h₂, hlow, hhigh, h₅⟩
    · rw [setLast_other hij] at hj
      exact h.block j e' hj
  addrs := by
    rw [map_addr_setLast]
    exact h.addrs
  alloc c hc hne := by
    rw [map_addr_setLast]
    exact h.alloc c hc hne
  allocs := h.allocs
  cell := hcell
  placed := hplaced
  apart := hapart

/-- A region from the free part of a block lies in that block. -/
lemma inBlock_take (h : Tidy size live E large R) {i : ℕ} {e : Extent} {n : Region}
    (hi : E[i]? = some e) (hlow : e.last ≤ n.start) : InBlock (Palloc.setLast E i n.stop) n :=
  ⟨i, _, setLast_self hi, (h.block i e hi).low.trans hlow, Nat.le_refl _⟩

/-- A region from the free part of a block. -/
lemma take (h : Tidy size live E large R) {i : ℕ} {e : Extent} {n : Region}
    (hi : E[i]? = some e) (hlow : e.last ≤ n.start) (hhigh : n.stop ≤ e.stop) :
    Tidy size live (Palloc.setLast E i n.stop) large (n :: R) := by
  have hb := h.block i e hi
  have hlast : e.last ≤ n.stop := hlow.trans (Nat.le_add_right _ _)
  refine h.setLast hi (hb.low.trans hlast) hhigh (fun c hc => (h.cell c hc).raise hi hlast) ?_ ?_
  · intro r hr hs
    rcases List.mem_cons.mp hr with rfl | hr
    · exact .inl (h.inBlock_take hi hlow)
    · exact (h.placed r hr hs).imp (fun hr => hr.raise hi hlast) id
  · exact List.pairwise_cons.mpr ⟨fun r hr => h.apart_free hi hlow hhigh hr, h.apart⟩

/-- A region in use that ends at the mark of a block lies in that block. -/
lemma low_of_stop (h : Tidy size live E large R) {i : ℕ} {e : Extent} {n : Region}
    (hi : E[i]? = some e) (hn : n ∈ R) (hpos : 0 < n.size) (hstop : n.stop = e.last) :
    e.addr + headerSize i ≤ n.start := by
  have hb := h.block i e hi
  have hlow := hb.low
  have hhigh := hb.high
  have hend := hb.stop
  have hhead := headerSize_le i
  unfold sizeofPool sizeofPoolData at hhead
  rcases h.placed n hn hpos with ⟨j, e', hj, hlow', hhigh'⟩ | ⟨hne, hlive, c, hc, hcn⟩
  · have hb' := h.block j e' hj
    by_cases he : e.addr = e'.addr
    · obtain rfl := h.index_eq hi hj he
      obtain rfl : e = e' := Option.some.inj (hi.symm.trans hj)
      exact hlow'
    · have hclear := Region.clear_of_mem h.clear hb.live hb'.live he
      have := hb'.high
      have := hb'.stop
      unfold Region.Clear Region.stop at *
      simp only at hclear
      omega
  · have he : e.addr ≠ n.start := by
      intro he
      refine (h.alloc c hc (by rwa [hcn])).2 ?_
      rw [hcn, ← he]
      exact List.mem_map_of_mem (List.mem_of_getElem? hi)
    have hclear := Region.clear_of_mem h.clear hb.live hlive he
    unfold Region.Clear Region.stop at *
    simp only at hclear
    omega

/-- The last region of a block grows into its free part. -/
lemma grow {n : Region} (h : Tidy size live E large (n :: R)) {i k : ℕ} {e : Extent}
    (hi : E[i]? = some e) (hpos : 0 < n.size) (hstop : n.stop = e.last)
    (hroom : e.last + k ≤ e.stop) :
    Tidy size live (Palloc.setLast E i (e.last + k)) large (⟨n.start, n.size + k⟩ :: R) := by
  have hb := h.block i e hi
  have hlast : e.last ≤ e.last + k := Nat.le_add_right _ _
  have hlow := h.low_of_stop hi (.head _) hpos hstop
  have hapart := List.pairwise_cons.mp h.apart
  refine h.setLast hi (hb.low.trans hlast) hroom (fun c hc => (h.cell c hc).raise hi hlast) ?_ ?_
  · intro r hr hs
    rcases List.mem_cons.mp hr with rfl | hr
    · refine .inl ⟨i, _, setLast_self hi, hlow, ?_⟩
      unfold Region.stop at *
      simp only
      omega
    · exact (h.placed r (.tail _ hr) hs).imp (fun hr => hr.raise hi hlast) id
  · refine List.pairwise_cons.mpr ⟨fun r hr => ?_, hapart.2⟩
    -- the old region and the free part are both disjoint from `r`
    have h₁ := hapart.1 r hr
    have h₂ := h.apart_free hi (n := ⟨e.last, k⟩) (Nat.le_refl _) hroom (.tail _ hr)
    unfold Region.Apart Region.stop at *
    simp only at *
    omega

/-- The last region of a block is given back, and the mark goes down to where it started. -/
lemma shrink {n : Region} (h : Tidy size live E large (n :: R)) {i : ℕ} {e : Extent}
    (hi : E[i]? = some e) (hpos : 0 < n.size) (hstop : n.stop = e.last) :
    Tidy size live (Palloc.setLast E i n.start) large R := by
  have hb := h.block i e hi
  have hapart := List.pairwise_cons.mp h.apart
  have hle : n.start ≤ e.stop := by
    have := hb.high
    unfold Region.stop at hstop
    omega
  -- what else is in use in the block ends below `n`
  have hbelow : ∀ r, n.Apart r → 0 < r.size → InBlock E r →
      InBlock (Palloc.setLast E i n.start) r := by
    intro r hr hs hin
    refine hin.setLast hi fun _ hhigh => ?_
    unfold Region.Apart Region.stop at *
    omega
  refine h.setLast hi (h.low_of_stop hi (.head _) hpos hstop) hle ?_ ?_ hapart.2
  · intro c hc
    refine hbelow _ (hapart.1 _ ?_) (by simp [Cell.region, sizeofPoolLarge]) (h.cell c hc)
    exact List.mem_append_right _ (List.mem_map_of_mem hc)
  · intro r hr hs
    exact (h.placed r (.tail _ hr) hs).imp
      (hbelow r (hapart.1 r (List.mem_append_left _ hr)) hs) id

/-- The order of the regions does not matter. -/
lemma perm (h : Tidy size live E large R) {R' : List Region} (hp : R.Perm R') :
    Tidy size live E large R' :=
  { h with
    placed := fun r hr => h.placed r (hp.mem_iff.mpr hr)
    apart := h.apart.perm (hp.append_right _) Region.Apart.symm }

/-- Regions are given back. -/
lemma sublist (h : Tidy size live E large R) {R' : List Region} (hs : R'.Sublist R) :
    Tidy size live E large R' :=
  { h with
    placed := fun r hr => h.placed r (hs.subset hr)
    apart := h.apart.sublist (hs.append (List.Sublist.refl _)) }

/-! ## New and freed allocations -/

/-- A fresh allocation that the pool does not use yet. -/
lemma fresh (h : Tidy size live E large R) {a n alignment : ℕ} (hf : Fresh live a n alignment) :
    Tidy size (⟨a, n⟩ :: live) E large R where
  size_mod := h.size_mod
  size_min := h.size_min
  clear := List.pairwise_cons.mpr ⟨hf.2.2.2, h.clear⟩
  bound := by
    intro r hr
    rcases List.mem_cons.mp hr with rfl | hr
    · exact hf.2.2.1
    · exact h.bound r hr
  block i e hi := { h.block i e hi with live := .tail _ (h.block i e hi).live }
  addrs := h.addrs
  alloc c hc hne := by
    obtain ⟨⟨k, hk⟩, hna⟩ := h.alloc c hc hne
    exact ⟨⟨k, .tail _ hk⟩, hna⟩
  allocs := h.allocs
  cell := h.cell
  placed r hr hs := (h.placed r hr hs).imp id fun ⟨h₁, h₂, h₃⟩ => ⟨h₁, .tail _ h₂, h₃⟩
  apart := h.apart

/-- Freeing an allocation that no block and no cell holds. -/
lemma free (h : Tidy size live E large R) {p : ℕ} (hblock : p ∉ E.map Extent.addr)
    (hcell : ∀ c ∈ large, c.alloc ≠ p) :
    Tidy size (live.filter fun r => r.start ≠ p) E large R where
  size_mod := h.size_mod
  size_min := h.size_min
  clear := h.clear.sublist List.filter_sublist
  bound r hr := h.bound r (List.mem_filter.mp hr).1
  block i e hi := by
    have hb := h.block i e hi
    have hne : e.addr ≠ p := by
      rintro rfl
      exact hblock (List.mem_map_of_mem (List.mem_of_getElem? hi))
    exact { hb with live := List.mem_filter.mpr ⟨hb.live, by simpa using hne⟩ }
  addrs := h.addrs
  alloc c hc hne := by
    obtain ⟨⟨k, hk⟩, hna⟩ := h.alloc c hc hne
    exact ⟨⟨k, List.mem_filter.mpr ⟨hk, by simpa using hcell c hc⟩⟩, hna⟩
  allocs := h.allocs
  cell := h.cell
  placed r hr hs := by
    refine (h.placed r hr hs).imp id ?_
    rintro ⟨hne, hlive, c, hc, hcr⟩
    refine ⟨hne, List.mem_filter.mpr ⟨hlive, ?_⟩, c, hc, hcr⟩
    have := hcell c hc
    rw [hcr] at this
    simpa using this
  apart := h.apart

end Tidy

/-- A live allocation that the pool does not use. -/
structure Loose (live : List Region) (E : List Extent) (large : List Cell) (o : Region) :
    Prop where
  nonnull : o.start ≠ 0
  live : o ∈ live
  block : o.start ∉ E.map Extent.addr
  cell : ∀ c ∈ large, c.alloc ≠ o.start

namespace Tidy

/-- A fresh allocation is not used by the pool. -/
lemma loose_fresh (h : Tidy size live E large R) {a n alignment : ℕ}
    (hf : Fresh live a n alignment) : Loose (⟨a, n⟩ :: live) E large ⟨a, n⟩ where
  nonnull := by
    have := hf.1
    simp only
    omega
  live := .head _
  block := by
    intro ha
    obtain ⟨e, he, hea⟩ := List.mem_map.mp ha
    obtain ⟨i, hi⟩ := List.getElem?_of_mem he
    exact (hf.2.2.2 _ (h.block i e hi).live).start_ne hea.symm
  cell := by
    intro c hc hca
    have ha := hf.1
    simp only at hca
    obtain ⟨⟨k, hk⟩, -⟩ := h.alloc c hc (by omega)
    exact (hf.2.2.2 _ hk).start_ne hca.symm

/-- An allocation the pool does not use is disjoint from everything in use. -/
lemma apart_loose (h : Tidy size live E large R) {o : Region} (ho : Loose live E large o)
    {r : Region} (hr : r ∈ R ++ large.map Cell.region) : o.Apart r := by
  by_cases hs : r.size = 0
  · exact .inr (.inl hs)
  have hself : ∀ r : Region, r.Within r := fun r => ⟨Nat.le_refl _, Nat.le_refl _⟩
  rcases h.used hr (by omega) with ⟨j, e, hj, hlow, hhigh⟩ | ⟨-, hlive, c, hc, hcr⟩
  · have hb := h.block j e hj
    have hr' : r.Within ⟨e.addr, size⟩ := by
      have := hb.stop
      have := hb.high
      unfold Region.Within Region.stop at *
      simp only
      omega
    have hne : o.start ≠ e.addr := by
      intro he
      apply ho.block
      rw [he]
      exact List.mem_map_of_mem (List.mem_of_getElem? hj)
    exact (Region.clear_of_mem h.clear ho.live hb.live hne).apart.within (hself o) hr'
  · have hne : o.start ≠ r.start := by
      rw [← hcr]
      exact (ho.cell c hc).symm
    exact (Region.clear_of_mem h.clear ho.live hlive hne).apart

/-- A new block, of which only the header is used. -/
lemma addBlock (h : Tidy size live E large R) (hE : E ≠ []) {a : ℕ}
    (ho : Loose live E large ⟨a, size⟩) (ha : a % poolAlignment = 0) :
    Tidy size live (E ++ [⟨a, a + sizeofPoolData, a + size⟩]) large R where
  size_mod := h.size_mod
  size_min := h.size_min
  clear := h.clear
  bound := h.bound
  block i e hi := by
    rcases Nat.lt_trichotomy i E.length with hlt | rfl | hgt
    · rw [List.getElem?_append_left hlt] at hi
      exact h.block i e hi
    · have hpos := List.length_pos_iff.mpr hE
      have hmin := h.size_min
      simp only [List.getElem?_concat_length, Option.some.injEq] at hi
      subst hi
      refine ⟨ha, rfl, ?_, ?_, ho.live⟩
      · simp only [headerSize]
        rw [if_neg (by omega)]
      · unfold minPoolSize at hmin
        simp only [sizeofPoolData]
        omega
    · rw [List.getElem?_eq_none (by simp; omega)] at hi
      cases hi
  addrs := by
    rw [List.map_append, List.nodup_append]
    refine ⟨h.addrs, by simp, ?_⟩
    intro x hx y hy hxy
    apply ho.block
    rw [List.map_singleton, List.mem_singleton] at hy
    rwa [hxy, hy] at hx
  alloc c hc hne := by
    obtain ⟨hk, hna⟩ := h.alloc c hc hne
    refine ⟨hk, ?_⟩
    rw [List.map_append, List.mem_append]
    rintro (hx | hx)
    · exact hna hx
    · rw [List.map_singleton, List.mem_singleton] at hx
      exact ho.cell c hc hx
  allocs := h.allocs
  cell c hc := (h.cell c hc).append _
  placed r hr hs := (h.placed r hr hs).imp (InBlock.append _) id
  apart := h.apart

/-! ## The cells -/

/-- The cells get other allocations. -/
lemma recell (h : Tidy size live E large R) {large' : List Cell} {R' : List Region}
    (haddr : large'.map Cell.addr = large.map Cell.addr)
    (halloc : ∀ c ∈ large', c.alloc ≠ 0 →
      (∃ n, ⟨c.alloc, n⟩ ∈ live) ∧ c.alloc ∉ E.map Extent.addr)
    (hallocs : large'.Pairwise fun c c' => c.alloc ≠ 0 → c.alloc ≠ c'.alloc)
    (hplaced : ∀ r ∈ R', 0 < r.size → InBlock E r ∨ IsLarge live large' r)
    (hapart : (R' ++ large.map Cell.region).Pairwise Region.Apart) :
    Tidy size live E large' R' := by
  have hregion : large'.map Cell.region = large.map Cell.region := by
    have he : Cell.region = (fun a => ⟨a, sizeofPoolLarge⟩) ∘ Cell.addr := rfl
    rw [he, ← List.map_map, haddr, List.map_map]
  refine { h with
    alloc := halloc, allocs := hallocs, placed := hplaced
    cell := fun c hc => ?_, apart := by rwa [hregion] }
  have hc' : c.region ∈ large.map Cell.region := hregion ▸ List.mem_map_of_mem hc
  obtain ⟨c₀, hc₀, he⟩ := List.mem_map.mp hc'
  exact he ▸ h.cell c₀ hc₀

/-- A free cell takes an allocation the pool does not use. -/
lemma assign {l₁ l₂ : List Cell} {c : Cell} (h : Tidy size live E (l₁ ++ c :: l₂) R)
    (hc : c.alloc = 0) {o : Region} (ho : Loose live E (l₁ ++ c :: l₂) o) :
    Tidy size live E (l₁ ++ { c with alloc := o.start } :: l₂) (o :: R) := by
  have hsub : ∀ c' ∈ l₁ ++ l₂, c' ∈ l₁ ++ c :: l₂ := by
    intro c' hc'
    simp only [List.mem_append, List.mem_cons] at hc' ⊢
    tauto
  refine h.recell (by simp) ?_ ?_ ?_ ?_
  · intro c' hc' hne
    rcases List.mem_cons.mp (List.perm_middle.mem_iff.mp hc') with rfl | hc'
    · exact ⟨⟨_, ho.live⟩, ho.block⟩
    · exact h.alloc c' (hsub c' hc') hne
  · have hold := h.allocs
    rw [List.pairwise_append, List.pairwise_cons] at hold ⊢
    obtain ⟨h₁, ⟨-, h₂⟩, h₁₂⟩ := hold
    refine ⟨h₁, ⟨fun c' hc' _ => ?_, h₂⟩, fun a ha b hb hne => ?_⟩
    · exact (ho.cell c' (hsub c' (List.mem_append_right _ hc'))).symm
    · rcases List.mem_cons.mp hb with rfl | hb
      · exact ho.cell a (hsub a (List.mem_append_left _ ha))
      · exact h₁₂ a ha b (.tail _ hb) hne
  · intro r hr hs
    rcases List.mem_cons.mp hr with rfl | hr
    · exact .inr ⟨ho.nonnull, ho.live, _, List.mem_append_right _ (.head _), rfl⟩
    · refine (h.placed r hr hs).imp id ?_
      rintro ⟨hne, hlive, c', hc', hcr⟩
      rcases List.mem_cons.mp (List.perm_middle.mem_iff.mp hc') with rfl | hc'
      · exact absurd hcr (by rw [hc]; exact hne.symm)
      · exact ⟨hne, hlive, c', List.perm_middle.mem_iff.mpr (.tail _ hc'), hcr⟩
  · rw [List.cons_append, List.pairwise_cons]
    exact ⟨fun r hr => h.apart_loose ho hr, h.apart⟩

/-- A new cell takes an allocation the pool does not use. -/
lemma addCell {cell : ℕ} (h : Tidy size live E large (⟨cell, sizeofPoolLarge⟩ :: R))
    (hcell : InBlock E ⟨cell, sizeofPoolLarge⟩) {o : Region} (ho : Loose live E large o) :
    Tidy size live E (⟨cell, o.start⟩ :: large) (o :: R) := by
  refine { h with
    alloc := fun c hc hne => ?_, allocs := ?_, cell := fun c hc => ?_
    placed := fun r hr hs => ?_, apart := ?_ }
  · rcases List.mem_cons.mp hc with rfl | hc
    · exact ⟨⟨_, ho.live⟩, ho.block⟩
    · exact h.alloc c hc hne
  · exact List.pairwise_cons.mpr ⟨fun c hc _ => (ho.cell c hc).symm, h.allocs⟩
  · rcases List.mem_cons.mp hc with rfl | hc
    · exact hcell
    · exact h.cell c hc
  · rcases List.mem_cons.mp hr with rfl | hr
    · exact .inr ⟨ho.nonnull, ho.live, _, .head _, rfl⟩
    · exact (h.placed r (.tail _ hr) hs).imp id
        fun ⟨h₁, h₂, c, hc, hcr⟩ => ⟨h₁, h₂, c, .tail _ hc, hcr⟩
  · have hperm : ((⟨cell, sizeofPoolLarge⟩ :: R) ++ large.map Cell.region).Perm
        (R ++ (⟨cell, o.start⟩ :: large : List Cell).map Cell.region) :=
      List.perm_middle.symm
    rw [List.cons_append, List.pairwise_cons]
    refine ⟨fun r hr => h.apart_loose ho (hperm.mem_iff.mpr hr), ?_⟩
    exact h.apart.perm hperm Region.Apart.symm

/-- The allocation of a cell is given back and freed. -/
lemma release {l₁ l₂ : List Cell} {c : Cell} (h : Tidy size live E (l₁ ++ c :: l₂) R)
    (hc : c.alloc ≠ 0) :
    Tidy size (live.filter fun r => r.start ≠ c.alloc) E (l₁ ++ { c with alloc := 0 } :: l₂)
      (R.filter fun r => r.start ≠ c.alloc) := by
  have hmem : c ∈ l₁ ++ c :: l₂ := List.mem_append_right _ (.head _)
  have hsub : ∀ c' ∈ l₁ ++ l₂, c' ∈ l₁ ++ c :: l₂ := by
    intro c' hc'
    exact List.perm_middle.mem_iff.mpr (.tail _ hc')
  have hold := h.allocs
  rw [List.pairwise_append, List.pairwise_cons] at hold
  obtain ⟨h₁, ⟨hc₂, h₂⟩, h₁₂⟩ := hold
  -- no other cell holds the allocation
  have hother : ∀ c' ∈ l₁ ++ l₂, c'.alloc ≠ c.alloc := by
    intro c' hc' he
    rcases List.mem_append.mp hc' with hc' | hc'
    · exact h₁₂ c' hc' c (.head _) (by rwa [he]) he
    · exact hc₂ c' hc' hc he.symm
  have hcleared : Tidy size live E (l₁ ++ { c with alloc := 0 } :: l₂)
      (R.filter fun r => r.start ≠ c.alloc) := by
    refine h.recell (by simp) ?_ ?_ ?_ (h.sublist List.filter_sublist).apart
    · intro c' hc' hne
      rcases List.mem_cons.mp (List.perm_middle.mem_iff.mp hc') with rfl | hc'
      · exact absurd rfl hne
      · exact h.alloc c' (hsub c' hc') hne
    · rw [List.pairwise_append, List.pairwise_cons]
      refine ⟨h₁, ⟨fun c' _ hne => absurd rfl hne, h₂⟩, fun a ha b hb hne => ?_⟩
      rcases List.mem_cons.mp hb with rfl | hb
      · exact hne
      · exact h₁₂ a ha b (.tail _ hb) hne
    · intro r hr hs
      obtain ⟨hr, hra⟩ := List.mem_filter.mp hr
      refine (h.placed r hr hs).imp id ?_
      rintro ⟨hne, hlive, c', hc', hcr⟩
      rcases List.mem_cons.mp (List.perm_middle.mem_iff.mp hc') with rfl | hc'
      · simp [hcr] at hra
      · exact ⟨hne, hlive, c', List.perm_middle.mem_iff.mpr (.tail _ hc'), hcr⟩
  refine hcleared.free (h.alloc c hmem hc).2 ?_
  intro c' hc'
  rcases List.mem_cons.mp (List.perm_middle.mem_iff.mp hc') with rfl | hc'
  · exact hc.symm
  · exact hother c' hc'

/-- With nothing in use, the first cell is dropped. -/
lemma dropCell {c : Cell} (h : Tidy size live E (c :: large) []) : Tidy size live E large [] :=
  { h with
    alloc := fun c' hc' hne => h.alloc c' (.tail _ hc') hne
    allocs := (List.pairwise_cons.mp h.allocs).2
    cell := fun c' hc' => h.cell c' (.tail _ hc')
    placed := by simp
    apart := by
      have := h.apart
      rw [List.nil_append, List.map_cons, List.pairwise_cons] at this
      exact this.2 }

/-- With nothing in use and no cells, the marks of the blocks are free to move. -/
lemma rewind (h : Tidy size live E [] []) :
    Tidy size live (E.map fun e => { e with last := e.addr + sizeofPool }) [] [] where
  size_mod := h.size_mod
  size_min := h.size_min
  clear := h.clear
  bound := h.bound
  block i e hi := by
    rw [List.getElem?_map] at hi
    obtain ⟨e', hi', rfl⟩ := Option.map_eq_some_iff.mp hi
    obtain ⟨h₁, h₂, -, -, h₅⟩ := h.block i e' hi'
    have hmin := h.size_min
    have := headerSize_le i
    unfold minPoolSize at hmin
    unfold sizeofPool sizeofPoolData at *
    refine ⟨h₁, h₂, ?_, ?_, h₅⟩ <;> simp only <;> omega
  addrs := by
    rw [List.map_map]
    exact h.addrs
  alloc := by simp
  allocs := .nil
  cell := by simp
  placed := by simp
  apart := .nil

end Tidy

end Libcn.Palloc
