import Libcn.Palloc.Stored

/-!
# The pool functions in memory do what they do on lists

Where a pool is laid out and stored, and the searches respect the ends of the blocks, the functions
that run in memory follow the ones on the lists of blocks and cells, step by step, with the same
calls of the system allocator.
-/

namespace Libcn.Palloc

open Libcn.Lib

variable {s s' : Memory} {p v size pool fuel n i : ℕ} {align : Bool} {m : PoolMem} {b : Block}
  {c : Cell}

/-! ## The search -/

lemma Memory.BlockAt.place {next : ℕ} (h : s.BlockAt b next) (align : Bool) :
    s.place align b.addr = b.place align := by
  unfold Memory.place Extent.place
  rw [h.last]

/-- The search of `palloc_small`. -/
lemma smallLoop_stored (h : Stored s pool m) (hl : Laid size m) (n : ℕ) (align : Bool)
    (hi : i < m.pool.blocks.length) (hf : m.pool.blocks.length ≤ i + fuel) :
    s.smallLoop n align fuel (m.pool.addrAt i) =
      some ((smallLoop n align (m.pool.blocks.drop i) i).map fun r => (m.pool.addrAt r.1, r.2)) := by
  induction fuel generalizing i with
  | zero => omega
  | succ fuel ih =>
    have hb := List.getElem?_eq_getElem hi
    have hat := h.block i _ hb
    rw [Memory.smallLoop, Pool.addrAt_of hb, List.drop_eq_getElem_cons hi, smallLoop, hat.place,
      hat.stop, hat.next]
    split
    · rw [Option.map_some, Pool.addrAt_of hb]
    · by_cases hlast : i + 1 < m.pool.blocks.length
      · rw [if_neg (hl.addrAt_pos hlast).1.ne']
        exact ih hlast (by omega)
      · rw [if_pos (Pool.addrAt_end (not_lt.mp hlast)), List.drop_eq_nil_of_le (not_lt.mp hlast)]
        rfl

/-- The condition on the search. -/
lemma meets_stored (h : Stored s pool m) (hl : Laid size m) (n : ℕ) (align : Bool)
    (hi : i < m.pool.blocks.length) (hf : m.pool.blocks.length ≤ i + fuel) :
    s.Meets n align fuel (m.pool.addrAt i) ↔ Meets n align (m.pool.blocks.drop i) := by
  induction fuel generalizing i with
  | zero => omega
  | succ fuel ih =>
    have hb := List.getElem?_eq_getElem hi
    have hat := h.block i _ hb
    rw [Memory.Meets, Pool.addrAt_of hb, List.drop_eq_getElem_cons hi, Meets, hat.place, hat.stop,
      hat.next]
    by_cases hlast : i + 1 < m.pool.blocks.length
    · rw [ih hlast (by omega)]
      simp only [(hl.addrAt_pos hlast).1.ne', false_or]
    · simp only [Pool.addrAt_end (not_lt.mp hlast), List.drop_eq_nil_of_le (not_lt.mp hlast), Meets,
        true_or, or_true]

/-- The condition of `palloc_small`. -/
lemma Stored.smallFits (h : Stored s pool m) (hl : Laid size m) (hf : m.pool.blocks.length ≤ fuel) :
    s.SmallFits fuel pool n align ↔ Meets n align (m.pool.blocks.drop m.pool.current) := by
  rw [Memory.SmallFits, h.head.current]
  exact meets_stored h hl n align hl.current (hf.trans (Nat.le_add_left _ _))

/-! ## The loops over the cells -/

/-- The cell at a position, and where the next one is. -/
lemma Stored.cell_cons (h : Stored s pool m) (hl : Laid size m) {pre cs : List Cell}
    (hlarge : m.pool.large = pre ++ c :: cs) :
    m.pool.cellAt pre.length = c.addr ∧ c.addr ≠ 0 ∧
      s.CellAt c (m.pool.cellAt (pre ++ [c]).length) := by
  have hc : m.pool.large[pre.length]? = some c := by
    rw [hlarge, List.getElem?_append_right (Nat.le_refl _), Nat.sub_self]
    rfl
  have hpos := (hl.inBlock_bounds (hl.cell c (List.mem_of_getElem? hc))).1
  rw [List.length_append, List.length_singleton]
  exact ⟨Pool.cellAt_of hc, hpos.ne', h.cell _ c hc⟩

/-- NULL follows the last cell. -/
lemma Pool.cellAt_nil {q : Pool} {pre : List Cell} (hlarge : q.large = pre ++ []) :
    q.cellAt pre.length = 0 := by
  rw [List.append_nil] at hlarge
  exact cellAt_end (by rw [hlarge])

/-- The loop of `palloc_large`. -/
lemma reuseLoop_stored (h : Stored s pool m) (hl : Laid size m) (p k : ℕ) (pre cs : List Cell)
    (hlarge : m.pool.large = pre ++ cs) (hf : cs.length < fuel) :
    (reuseLoop p cs k = none ∧ s.reuseLoop fuel (m.pool.cellAt pre.length) k = some 0) ∨
    ∃ l₁ c l₂, cs = l₁ ++ c :: l₂ ∧ c.addr ≠ 0 ∧
      reuseLoop p cs k = some (l₁ ++ { c with alloc := p } :: l₂) ∧
      s.reuseLoop fuel (m.pool.cellAt pre.length) k = some c.addr := by
  induction cs generalizing pre fuel k with
  | nil =>
    obtain ⟨fuel, rfl⟩ := Nat.exists_eq_succ_of_ne_zero hf.ne_bot
    rw [Memory.reuseLoop, Pool.cellAt_nil hlarge]
    exact .inl ⟨rfl, if_pos rfl⟩
  | cons c cs ih =>
    obtain ⟨fuel, rfl⟩ := Nat.exists_eq_succ_of_ne_zero (Nat.ne_zero_of_lt hf)
    obtain ⟨haddr, hpos, hat⟩ := h.cell_cons hl hlarge
    rw [Memory.reuseLoop, haddr, if_neg hpos, hat.alloc, hat.next, reuseLoop]
    split_ifs with hc hk
    · exact .inr ⟨[], c, cs, rfl, hpos, rfl, rfl⟩
    · exact .inl ⟨rfl, rfl⟩
    · rw [List.append_cons] at hlarge
      rcases ih (k + 1) _ hlarge (Nat.lt_of_succ_lt_succ hf) with ⟨hn, hs⟩ | ⟨l₁, d, l₂, rfl, hd, hn, hs⟩
      · exact .inl ⟨by rw [hn]; rfl, hs⟩
      · exact .inr ⟨c :: l₁, d, l₂, rfl, hd, by rw [hn]; rfl, hs⟩

/-- The loop of `pfree`. -/
lemma pfreeLoop_stored (h : Stored s pool m) (hl : Laid size m) (p : ℕ) (pre cs : List Cell)
    (hlarge : m.pool.large = pre ++ cs) (hf : cs.length < fuel) :
    (pfreeLoop p cs = none ∧ s.pfreeLoop p fuel (m.pool.cellAt pre.length) = some 0) ∨
    ∃ l₁ c l₂, cs = l₁ ++ c :: l₂ ∧ c.addr ≠ 0 ∧ c.alloc = p ∧
      pfreeLoop p cs = some (l₁ ++ { c with alloc := 0 } :: l₂) ∧
      s.pfreeLoop p fuel (m.pool.cellAt pre.length) = some c.addr ∧ s.get c.addr .largeAlloc = p := by
  induction cs generalizing pre fuel with
  | nil =>
    obtain ⟨fuel, rfl⟩ := Nat.exists_eq_succ_of_ne_zero (Nat.ne_zero_of_lt hf)
    rw [Memory.pfreeLoop, Pool.cellAt_nil hlarge]
    exact .inl ⟨rfl, if_pos rfl⟩
  | cons c cs ih =>
    obtain ⟨fuel, rfl⟩ := Nat.exists_eq_succ_of_ne_zero (Nat.ne_zero_of_lt hf)
    obtain ⟨haddr, hpos, hat⟩ := h.cell_cons hl hlarge
    rw [Memory.pfreeLoop, haddr, if_neg hpos, hat.alloc, hat.next, pfreeLoop]
    by_cases hc : p = c.alloc
    · rw [if_pos hc, if_pos hc.symm]
      exact .inr ⟨[], c, cs, rfl, hpos, hc.symm, rfl, rfl, hat.alloc.trans hc.symm⟩
    · rw [if_neg hc, if_neg (Ne.symm hc)]
      rw [List.append_cons] at hlarge
      rcases ih _ hlarge (Nat.lt_of_succ_lt_succ hf) with ⟨hn, hs⟩ | ⟨l₁, d, l₂, rfl, hd, hd', hn, hs, hs'⟩
      · exact .inl ⟨by rw [hn]; rfl, hs⟩
      · exact .inr ⟨c :: l₁, d, l₂, rfl, hd, hd', by rw [hn]; rfl, hs, hs'⟩

/-! ## The counts of failures -/

/-- The blocks of another state, with other marks and counts. -/
lemma Laid.congr (h : Laid size m) (bs : List Block) (current : ℕ)
    (hbs : bs.map Block.toExtent = m.pool.extents) (hcur : current < m.pool.blocks.length) :
    Laid size { m with pool := { m.pool with blocks := bs, current := current } } := by
  have hE : Pool.extents { m.pool with blocks := bs, current := current } = m.pool.extents := hbs
  have hlen : bs.length = m.pool.blocks.length := by
    rw [← List.length_map Block.toExtent, hbs, Pool.extents_length]
  exact ⟨h.size_min, h.max, by rw [hlen]; exact hcur, h.clear, h.bound, hE ▸ h.block, hE ▸ h.addrs,
    h.alloc, hE ▸ h.cell, h.apart⟩

/-- The pool after one round of the loop of `palloc_block`, at the block `b`, and after the rest of
the loop from a position on. -/
def Pool.pass (p : Pool) (i : ℕ) (b : Block) : Pool := { p with
  blocks := p.blocks.modify i fun b => { b with failed := (b.failed + 1) % 2 ^ 32 }
  current := if 4 < b.failed then i + 1 else p.current }

def Pool.passAll (p : Pool) (i : ℕ) : Pool := { p with
  blocks := p.blocks.take i ++ (failLoop (p.blocks.drop i) i p.current).2
  current := (failLoop (p.blocks.drop i) i p.current).1 }

lemma Pool.pass_length (q : Pool) (i : ℕ) (b : Block) :
    (q.pass i b).blocks.length = q.blocks.length := List.length_modify ..

lemma Pool.pass_get {q : Pool} (hb : q.blocks[i]? = some b) :
    (q.pass i b).blocks[i]? = some { b with failed := (b.failed + 1) % 2 ^ 32 } := by
  simp only [pass, List.getElem?_modify, hb, if_pos, Option.map_eq_map, Option.map_some]

lemma Pool.pass_extents (q : Pool) (i : ℕ) (b : Block) : (q.pass i b).extents = q.extents := by
  apply List.ext_getElem?
  intro j
  simp only [pass, extents, List.getElem?_map, List.getElem?_modify]
  cases q.blocks[j]? with
  | none => rfl
  | some b' => by_cases hj : i = j <;> simp [hj]

/-- A round, then the rest of the loop. -/
lemma Pool.passAll_pass {q : Pool} (hb : q.blocks[i]? = some b) (hi : i + 1 < q.blocks.length) :
    (q.pass i b).passAll (i + 1) = q.passAll i := by
  obtain ⟨hi', rfl⟩ := List.getElem?_eq_some_iff.mp hb
  obtain ⟨b', bs, hdrop⟩ : ∃ b' bs, q.blocks.drop (i + 1) = b' :: bs :=
    ⟨_, _, List.drop_eq_getElem_cons hi⟩
  have hmod : (q.pass i q.blocks[i]).blocks = q.blocks.take i ++
      { q.blocks[i] with failed := (q.blocks[i].failed + 1) % 2 ^ 32 } ::
        q.blocks.drop (i + 1) := by
    rw [pass, List.modify_eq_take_drop, List.drop_eq_getElem_cons hi', List.modifyHead_cons]
  have hlen : (q.blocks.take i).length = i := List.length_take_of_le hi'.le
  have htake : (q.pass i q.blocks[i]).blocks.take (i + 1) = q.blocks.take i ++
      [{ q.blocks[i] with failed := (q.blocks[i].failed + 1) % 2 ^ 32 }] := by
    rw [hmod, List.take_append, List.take_of_length_le (by omega), hlen, Nat.add_sub_cancel_left]
    rfl
  have hrest : (q.pass i q.blocks[i]).blocks.drop (i + 1) = q.blocks.drop (i + 1) := by
    rw [hmod, List.drop_append, List.drop_of_length_le (by omega), hlen, Nat.add_sub_cancel_left]
    rfl
  have hround : failLoop (q.blocks[i] :: b' :: bs) i q.current =
      ((failLoop (b' :: bs) (i + 1) (q.pass i q.blocks[i]).current).1,
        { q.blocks[i] with failed := (q.blocks[i].failed + 1) % 2 ^ 32 } ::
          (failLoop (b' :: bs) (i + 1) (q.pass i q.blocks[i]).current).2) := rfl
  rw [passAll, passAll, htake, hrest, List.drop_eq_getElem_cons hi', hdrop, hround,
    List.append_assoc, List.singleton_append]
  rfl

/-- The loop leaves the last block alone. -/
lemma Pool.passAll_last {q : Pool} (hi : i < q.blocks.length) (hlast : ¬i + 1 < q.blocks.length) :
    q.passAll i = q := by
  have hdrop := List.drop_eq_nil_of_le (not_lt.mp hlast)
  have hsame : q.blocks.take i ++ [q.blocks[i]] = q.blocks := by
    rw [← hdrop, ← List.drop_eq_getElem_cons hi, List.take_append_drop]
  rw [passAll, List.drop_eq_getElem_cons hi, hdrop]
  simp only [failLoop, hsame]

lemma Laid.pass (h : Laid size m) (hi : i + 1 < m.pool.blocks.length) (b : Block) :
    Laid size { m with pool := m.pool.pass i b } := by
  refine h.congr _ _ (m.pool.pass_extents i b) ?_
  split_ifs
  · exact hi
  · exact h.current

/-- One round. -/
lemma Stored.pass (h : Stored s pool m) (hl : Laid size m) (hb : m.pool.blocks[i]? = some b) :
    Stored (s.pass pool b.addr) pool { m with pool := m.pool.pass i b } ∧
      (s.pass pool b.addr).calls = s.calls ∧ ∀ r, (∀ o, Used m.pool.extents o → o.Apart r) →
        Agree s.bytes (s.pass pool b.addr).bytes r := by
  have h₁ : Stored (s.set b.addr .failed (b.failed + 1)) pool { m with
      pool := { m.pool.pass i b with current := m.pool.current } } :=
    h.setBlock hl hb (f := .failed) (by decide) (b.failed + 1)
      (g := fun b => { b with failed := (b.failed + 1) % 2 ^ 32 }) (fun _ => rfl)
      fun _ hat => hat.setFailed _
  have hfailed : ∀ r, (∀ o, Used m.pool.extents o → o.Apart r) →
      Agree s.bytes (s.set b.addr .failed (b.failed + 1)).bytes r := by
    intro r hr
    have hdata := (hr _ (hl.data_used hb)).within (Laid.data_within i) (.refl r)
    exact Memory.agree_set _ (hdata.within (Field.site_data (by decide) _) (.refl r))
  have hnext : (s.set b.addr .failed (b.failed + 1)).get b.addr .next = _ :=
    (h₁.block i _ (Pool.pass_get hb)).next
  rw [Memory.pass, (h.block i b hb).failed]
  split_ifs with hc
  · rw [hnext]
    refine ⟨?_, rfl, fun r hr => (hfailed r hr).trans (Memory.agree_set _ ?_)⟩
    · have h₂ := h₁.setCurrent
        (hl.congr _ m.pool.current (m.pool.pass_extents i b) hl.current) (i + 1)
      simpa only [Pool.pass, if_pos hc] using h₂
    · have hhead := hr _ hl.head_used
      rw [h.first] at hhead
      exact hhead.within (Field.site_head (by decide) (by decide) pool) (.refl r)
  · refine ⟨?_, rfl, hfailed⟩
    simpa only [Pool.pass, if_neg hc] using h₁

/-- The loop of `palloc_block` ends at the last block. It writes to the headers only. -/
lemma Stored.failLoop (h : Stored s pool m) (hl : Laid size m) (hi : i < m.pool.blocks.length)
    (hf : m.pool.blocks.length ≤ i + fuel) :
    ∃ s', Memory.failLoop pool fuel (m.pool.addrAt i) s =
        some (m.pool.addrAt (m.pool.blocks.length - 1), s') ∧
      Stored s' pool { m with pool := m.pool.passAll i } ∧
      s'.calls = s.calls ∧ ∀ r, (∀ o, Used m.pool.extents o → o.Apart r) →
        Agree s.bytes s'.bytes r := by
  induction fuel generalizing i s m with
  | zero => omega
  | succ fuel ih =>
    have hb := List.getElem?_eq_getElem hi
    generalize m.pool.blocks[i] = b at hb
    rw [Memory.failLoop, Pool.addrAt_of hb, (h.block i b hb).next]
    by_cases hlast : i + 1 < m.pool.blocks.length
    · rw [if_neg (hl.addrAt_pos hlast).1.ne']
      obtain ⟨h₁, hcalls₁, hagree₁⟩ := h.pass hl hb
      have hlen := m.pool.pass_length i b
      obtain ⟨s', hs', h', hcalls', hagree'⟩ := ih h₁ (hl.pass hlast b) (i := i + 1)
        (by rw [hlen]; exact hlast) (by rw [hlen]; omega)
      refine ⟨s', ?_, Pool.passAll_pass hb hlast ▸ h', hcalls'.trans hcalls₁, fun r hr =>
        (hagree₁ r hr).trans (hagree' r (m.pool.pass_extents i b ▸ hr))⟩
      have hnext : (s.pass pool b.addr).get b.addr .next = (m.pool.pass i b).addrAt (i + 1) :=
        (h₁.block i _ (Pool.pass_get hb)).next
      simp only [hnext]
      rw [hs', hlen, Pool.addrAt_congr (m.pool.pass_extents i b)]
    · have hend : m.pool.blocks.length - 1 = i := by omega
      rw [if_pos (Pool.addrAt_end (not_lt.mp hlast)), hend, Pool.addrAt_of hb,
        Pool.passAll_last hi hlast]
      exact ⟨s, rfl, h, rfl, fun r _ => .refl _ r⟩

/-! ## A new block -/

/-- The chain with a block at its end. -/
def Pool.append (p : Pool) (b : Block) : Pool := { p with blocks := p.blocks ++ [b] }

lemma Pool.append_addrAt (q : Pool) (b : Block) (hi : i < q.blocks.length) :
    (q.append b).addrAt i = q.addrAt i := by
  have hb := List.getElem?_eq_getElem hi
  have hb' : (q.append b).blocks[i]? = some q.blocks[i] := by
    rw [append, List.getElem?_append_left hi, hb]
  rw [addrAt_of hb, addrAt_of hb']

lemma Pool.append_get (q : Pool) (b : Block) : (q.append b).blocks[q.blocks.length]? = some b := by
  rw [append, List.getElem?_append_right (Nat.le_refl _), Nat.sub_self]
  rfl

lemma Pool.append_cases {q : Pool} {b' : Block} (h : (q.append b).blocks[i]? = some b') :
    q.blocks[i]? = some b' ∨ i = q.blocks.length ∧ b' = b := by
  by_cases hi : i < q.blocks.length
  · rw [append, List.getElem?_append_left hi] at h
    exact .inl h
  · rw [append, List.getElem?_append_right (not_lt.mp hi)] at h
    obtain ⟨hlt, rfl⟩ := List.getElem?_eq_some_iff.mp h
    rw [List.length_singleton] at hlt
    exact .inr ⟨by omega, List.getElem_singleton hlt⟩

/-- The last block is linked to a new one that stands in memory. -/
lemma Stored.append (h : Stored s pool m) (hcur : m.pool.current < m.pool.blocks.length)
    (hl : Laid size { m with pool := m.pool.append b }) (hb : s.BlockAt b 0) :
    Stored (s.set (m.pool.addrAt (m.pool.blocks.length - 1)) .next b.addr) pool
      { m with pool := m.pool.append b } := by
  have hlast : m.pool.blocks.length - 1 < m.pool.blocks.length := by omega
  have hlb := List.getElem?_eq_getElem hlast
  generalize m.pool.blocks[m.pool.blocks.length - 1] = last at hlb
  rw [Pool.addrAt_of hlb]
  have hsite : (Field.next.site last.addr).Within ⟨last.addr, sizeofPoolData⟩ :=
    Field.site_data (by decide) _
  have hold : ∀ {j : ℕ} {b' : Block}, m.pool.blocks[j]? = some b' →
      (m.pool.append b).blocks[j]? = some b' := by
    intro j b' hj
    rw [Pool.append, List.getElem?_append_left (List.getElem?_eq_some_iff.mp hj).1, hj]
  -- what is apart from the last block is left alone
  have hdata : ∀ {j : ℕ} {b' : Block} {next : ℕ}, (m.pool.append b).blocks[j]? = some b' →
      m.pool.blocks.length - 1 ≠ j → s.BlockAt b' next →
      (s.set last.addr .next b.addr).BlockAt b' next := fun hj hne hat =>
    hat.congr (Memory.agree_set _ ((hl.data_data (hold hlb) hj hne).within hsite (.refl _)))
  refine ⟨⟨h.heap, (m.pool.append_addrAt b (by omega)).trans h.first, fun j b' hj => ?_, ?_⟩,
    fun j c hc => ?_⟩
  · rcases Pool.append_cases hj with hj' | ⟨rfl, rfl⟩
    · by_cases hne : m.pool.blocks.length - 1 = j
      · -- the last of the old blocks
        subst hne
        obtain rfl := Option.some.inj (hj'.symm.trans hlb)
        have hnew : (m.pool.append b).addrAt (m.pool.blocks.length - 1 + 1) = b.addr := by
          rw [Nat.sub_add_cancel (by omega)]
          exact Pool.addrAt_of (m.pool.append_get b)
        simp only [hnew]
        exact (h.block _ _ hlb).setNext
          (Pool.addrAt_of (m.pool.append_get b) ▸ hl.addrAt_lt m.pool.blocks.length)
      · have hlt : j < m.pool.blocks.length := (List.getElem?_eq_some_iff.mp hj').1
        simp only [m.pool.append_addrAt b (show j + 1 < m.pool.blocks.length by omega)]
        exact hdata hj hne (h.block j b' hj')
    · have hend : (m.pool.append b').addrAt (m.pool.blocks.length + 1) = 0 :=
        Pool.addrAt_end (by simp [Pool.append])
      simp only [hend]
      exact hdata hj (by omega) hb
  · have hhead := h.head
    rw [← m.pool.append_addrAt b hcur] at hhead
    refine hhead.congr (Memory.agree_set _ ?_)
    rw [← h.first, ← m.pool.append_addrAt b (by omega)]
    exact (hl.data_head (hold hlb)).within hsite (.refl _)
  · exact (h.cell j c hc).congr (Memory.agree_set _
      ((hl.data_cell (hold hlb) (hl.cell c (List.mem_of_getElem? hc))).within hsite (.refl _)))

/-! ## The functions that allocate -/

/-- A function in memory, with the answer `p`, follows the one on lists. If it answers NULL then no
byte of the regions `live` has changed. -/
structure Follows (size pool : ℕ) (s : Memory) (live : List Region) (cs : List HeapCall)
    (r : Option ℕ × PoolMem) (p : ℕ) (s' : Memory) : Prop where
  stored : Stored s' pool r.2
  laid : Laid size r.2
  answer : r.1 = if p = 0 then none else some p
  calls : s'.calls = s.calls ++ cs
  null : p = 0 → ∀ o ∈ live, Agree s.bytes s'.bytes o

/-- The system allocator writes outside of the blocks. -/
lemma Stored.scribble (h : Stored s pool m) (hl : Laid size m) {live : List Region}
    (hlive : ∀ (i : ℕ) (e : Extent), m.pool.extents[i]? = some e → (⟨e.addr, size⟩ : Region) ∈ live)
    (hp : Heap) (calls : List HeapCall) :
    Stored { s with heap := hp, calls := calls, bytes := s.scribble live } pool
      { m with heap := hp } := by
  have hbytes : Stored { s with bytes := s.scribble live } pool m := by
    refine h.frame_used hl rfl fun r hr => ?_
    obtain ⟨e, he, hlow, hhigh⟩ := hr
    obtain ⟨i, hi⟩ := List.mem_iff_getElem?.mp he
    exact Memory.agree_scribble s (hlive i e hi) (hl.used_within hi hlow hhigh)
  exact hbytes.heap_congr

/-- NULL from the system allocator. -/
lemma Stored.null (h : Stored s pool m) (hl : Laid size m) (sc : List (Option ℕ)) :
    Follows size pool s m.heap.live [] (none, { m with heap := ⟨m.heap.live, sc⟩ }) 0
      { s with heap := ⟨s.heap.live, sc⟩, bytes := s.scribble s.heap.live } where
  stored := by
    rw [h.heap]
    exact h.scribble hl (fun i e hi => (hl.block i e hi).live) _ _
  laid := hl.script sc
  answer := rfl
  calls := (List.append_nil _).symm
  null _ o ho := Memory.agree_scribble s (h.heap ▸ ho) (.refl o)

/-- A write where nothing is used. -/
lemma Stored.setApart (h : Stored s pool m) (hl : Laid size m) {f : Field} {q : ℕ} (v : ℕ)
    (hq : ∀ o, Used m.pool.extents o → (f.site q).Apart o) : Stored (s.set q f v) pool m :=
  h.frame_used hl rfl fun r hr => Memory.agree_set v (hq r hr)

lemma Pool.passAll_extents (q : Pool) (hcur : q.current < q.blocks.length) :
    (q.passAll q.current).extents = q.extents := by
  have hlen : (q.blocks.drop q.current).length = q.blocks.length - q.current := List.length_drop
  rw [extents, passAll, List.map_append, (failLoop_spec _ _ _ (by omega)).1, ← List.map_append,
    List.take_append_drop]
  rfl

lemma Pool.passAll_current (q : Pool) (hcur : q.current < q.blocks.length) :
    (q.passAll q.current).current < q.blocks.length := by
  have hlen : (q.blocks.drop q.current).length = q.blocks.length - q.current := List.length_drop
  have := (failLoop_spec (q.blocks.drop q.current) q.current q.current (by omega)).2
  show (Palloc.failLoop _ _ _).1 < _
  omega

/-- The header of a new block is written. -/
lemma Memory.BlockAt.create (s : Memory) {new stop last : ℕ} (hstop : stop < 2 ^ 64)
    (hlast : last < 2 ^ 64) :
    ((((s.set new .stop stop).set new .next 0).set new .failed 0).set new .last last).BlockAt
      ⟨⟨new, last, stop⟩, 0⟩ 0 where
  last := Memory.get_set_word rfl hlast
  stop := by
    rw [Memory.get_set_ne (by decide), Memory.get_set_ne (by decide),
      Memory.get_set_ne (by decide), Memory.get_set_word rfl hstop]
  next := by
    rw [Memory.get_set_ne (by decide), Memory.get_set_ne (by decide),
      Memory.get_set_word rfl (by decide)]
  failed := by
    rw [Memory.get_set_ne (by decide), Memory.get_set_failed]
    rfl

/-- A new header is written where nothing is used, and linked after the loop of `palloc_block`. -/
lemma Stored.newBlock (h : Stored s pool m) (hl : Laid size m) {new last stop : ℕ}
    (hfree : ∀ o, Used m.pool.extents o → Region.Apart ⟨new, sizeofPoolData⟩ o)
    (hl' : Laid size { m with
      pool := (m.pool.passAll m.pool.current).append ⟨⟨new, last, stop⟩, 0⟩ })
    (hstop : stop < 2 ^ 64) (hlast : last < 2 ^ 64) (hf : m.pool.blocks.length ≤ fuel) :
    let s₁ := (((s.set new .stop stop).set new .next 0).set new .failed 0).set new .last last
    ∃ q s', Memory.failLoop pool fuel (s₁.get pool .current) s₁ = some (q, s') ∧
      Stored (s'.set q .next new) pool { m with
        pool := (m.pool.passAll m.pool.current).append ⟨⟨new, last, stop⟩, 0⟩ } ∧
      s'.calls = s.calls := by
  intro s₁
  have hsite : ∀ f : Field, f.offset + f.width ≤ 32 →
      ∀ o, Used m.pool.extents o → (f.site new).Apart o := fun f hf o ho =>
    (hfree o ho).within (Field.site_data hf new) (.refl o)
  -- the new header is not part of the chain while `failed` is counted
  have h₁ : Stored s₁ pool m := by
    refine Stored.setApart (Stored.setApart (Stored.setApart (Stored.setApart h hl _ ?_) hl _ ?_)
      hl _ ?_) hl _ ?_
    all_goals exact hsite _ (by decide)
  obtain ⟨s', hs', h', hcalls', hagree'⟩ := h₁.failLoop hl hl.current
    (hf.trans (Nat.le_add_left _ _))
  have hlen : (m.pool.passAll m.pool.current).blocks.length = m.pool.blocks.length := by
    have := congrArg List.length (m.pool.passAll_extents hl.current)
    rwa [Pool.extents_length, Pool.extents_length] at this
  refine ⟨_, s', h₁.head.current ▸ hs', ?_, hcalls'⟩
  rw [← hlen, ← Pool.addrAt_congr (m.pool.passAll_extents hl.current)]
  refine h'.append ?_ hl' ((Memory.BlockAt.create s hstop hlast).congr
    (hagree' _ fun o ho => (hfree o ho).symm))
  exact hlen ▸ m.pool.passAll_current hl.current

/-- `palloc_block`. -/
theorem pallocBlock_stored (h : Stored s pool m) (hl : Laid size m) (hn : n + sizeofPoolData ≤ size)
    (hf : m.pool.blocks.length ≤ fuel) :
    ∃ p s', s.pallocBlock fuel pool n = some (p, s') ∧
      Follows size pool s m.heap.live (pallocBlockCalls m) (pallocBlock m n) p s' := by
  have hcur := hl.current
  have hcut := pallocBlock_cut hl hn
  obtain ⟨b, hb, haddr⟩ := hl.first
  have hblock := hl.block 0 _ (Pool.extents_get hb)
  -- the new block is as large as the first
  have hhead : m.pool.head = b := by
    rw [Pool.head, List.headD_eq_head?_getD, List.head?_eq_getElem?, hb]
    rfl
  have hsize : ptrDiff b.stop b.addr = size := by
    have := hblock.stop
    have := hl.stop_le (Pool.extents_get hb)
    unfold ptrDiff
    omega
  have hpsize : ptrDiff (s.get pool .stop) pool = size := by
    rw [← h.first, haddr, (h.block 0 b hb).stop, hsize]
  simp only [Memory.pallocBlock, hpsize]
  rw [pallocBlockCalls, hhead, hsize]
  rw [pallocBlock, hhead, hsize] at hcut ⊢
  have hlive : ∀ (i : ℕ) (e : Extent), m.pool.extents[i]? = some e →
      (⟨e.addr, size⟩ : Region) ∈ s.heap.live := fun i e hi => h.heap ▸ (hl.block i e hi).live
  rcases s.memalign_cases poolAlignment size with ⟨sc, hs, hs'⟩ | ⟨new, sc, hfresh, hs, hs'⟩
  · rw [h.heap] at hs
    rw [hs', memalignCalls_none m.heap hs]
    rw [hs] at hcut ⊢
    exact ⟨0, _, rfl, h.null hl sc⟩
  · rw [h.heap] at hfresh hs
    rw [hs', memalignCalls_some m.heap hs]
    rw [hs] at hcut ⊢
    simp only [hfresh.1.ne', if_false] at hcut ⊢
    have hend : new + size < 2 ^ 64 := by
      have := hfresh.2.2.1
      omega
    have hplace : alignPtr (new + sizeofPoolData) alignment = new + sizeofPoolData := by
      have hal := hfresh.2.1
      unfold sizeofPoolData at hn ⊢
      unfold poolAlignment at hal
      unfold alignPtr alignment
      omega
    rw [hplace] at hcut ⊢
    have h₁ := h.scribble hl hlive ⟨⟨new, size⟩ :: s.heap.live, sc⟩ (s.calls ++ [.got ⟨new, size⟩])
    rw [h.heap] at h₁
    -- the header of the new block lies where nothing is used
    have hheader : Region.Within ⟨new, sizeofPoolData⟩ ⟨new, size⟩ :=
      ⟨Nat.le_refl _, by unfold Region.stop; simp only; omega⟩
    obtain ⟨q, s', hs', h', hcalls'⟩ := h₁.newBlock (hl.fresh hfresh sc)
      (fun o ho => hl.apart_fresh hfresh.2.2.2 hheader ho) hcut.laid hend (by omega) hf
    rw [h.heap, hs']
    have hpos : new + sizeofPoolData ≠ 0 := (Nat.lt_add_right _ hfresh.1).ne'
    exact ⟨_, _, rfl, h', hcut.laid, (if_neg hpos).symm, hcalls', fun h => absurd h hpos⟩

/-- `palloc_small`. -/
theorem pallocSmall_stored (h : Stored s pool m) (hl : Laid size m) (hn : n + sizeofPoolData ≤ size)
    (hmeets : Meets n align (m.pool.blocks.drop m.pool.current))
    (hf : m.pool.blocks.length ≤ fuel) :
    ∃ p s', s.pallocSmall fuel pool n align = some (p, s') ∧
      Follows size pool s m.heap.live (pallocSmallCalls m n align) (pallocSmall m n align) p s' := by
  have hcut := pallocSmall_cut hl hn hmeets
  have hloop := smallLoop_stored h hl n align hl.current (hf.trans (Nat.le_add_left _ _))
  rw [Memory.pallocSmall, h.head.current, hloop, pallocSmallCalls]
  rw [pallocSmall] at hcut ⊢
  cases hl' : smallLoop n align (m.pool.blocks.drop m.pool.current) m.pool.current with
  | none => exact pallocBlock_stored h hl hn hf
  | some r =>
    obtain ⟨k, b, hk, hb, hplace, hroom⟩ := smallLoop_meets hl' hmeets fun b hb => by
      obtain ⟨i, hi⟩ := List.mem_iff_getElem?.mp
        (List.mem_map_of_mem (f := Block.toExtent) (List.mem_of_mem_drop hb))
      exact hl.stop_le hi
    rw [hl'] at hcut
    rw [List.getElem?_drop, ← hk] at hb
    have hstop := (hl.extent_bounds hb).2.2.2
    have h' := h.setLast hl hb (v := r.2 + n) (by omega)
    have hpos : r.2 ≠ 0 := (hcut.laid.inBlock_bounds (hcut.some r.2 rfl).1).1.ne'
    refine ⟨r.2, _, rfl, ?_, hcut.laid, (if_neg hpos).symm, (List.append_nil _).symm,
      fun h => absurd h hpos⟩
    rw [Pool.addrAt_of hb]
    exact h'

/-- What the pool does not hold yet is no block, and not NULL. -/
lemma Kept.outside {l : List ℕ} (h : Kept (p :: l) m) :
    p ∉ m.pool.extents.map Extent.addr ∧ p ≠ 0 := by
  have haddrs : m.pool.extents.map Extent.addr = m.pool.addrs := List.map_map ..
  obtain ⟨hp, -⟩ := List.nodup_cons.mp h.starts.nodup
  obtain ⟨r, hr, rfl⟩ := List.mem_map.mp (h.starts.perm.mem_iff.mpr (.head _))
  refine ⟨fun hmem => hp ?_, h.starts.nonnull r hr⟩
  rw [haddrs] at hmem
  exact List.mem_append_right _ (List.mem_append_left _ hmem)

/-- `free`, for something that is no block. -/
lemma Stored.free (h : Stored s pool m) (hl : Laid size m) (hp : p ∉ m.pool.extents.map Extent.addr)
    (hp₀ : p ≠ 0) : Stored (s.free p) pool { m with heap := m.heap.free p } ∧
      (s.free p).calls = s.calls ++ [.freed p] ∧
      ∀ o ∈ (m.heap.free p).live, Agree s.bytes (s.free p).bytes o := by
  rw [Memory.free, if_neg hp₀, h.heap]
  exact ⟨h.scribble hl (fun i e hi => ((hl.free hp).block i e hi).live) _ _, rfl,
    fun o ho => Memory.agree_scribble s ho (.refl o)⟩

/-- The end of `palloc_large` and `pmemalign`. -/
theorem newCell_stored (h : Stored s pool m) (hl : Laid size m) {l : List ℕ} (hk : Kept (p :: l) m)
    (hp : p ≤ 2 ^ 63) (hmeets : Meets sizeofPoolLarge true (m.pool.blocks.drop m.pool.current))
    (hf : m.pool.blocks.length ≤ fuel) :
    ∃ a s', s.newCell fuel pool p = some (a, s') ∧
      Follows size pool s (m.heap.free p).live (newCellCalls m p) (newCell m p) a s' := by
  have hn : sizeofPoolLarge + sizeofPoolData ≤ size := (by decide : _ ≤ sizeofPool).trans hl.size_min
  obtain ⟨a, s', hs', h'⟩ := pallocSmall_stored h hl hn hmeets hf
  have hcut := pallocSmall_cut hl hn hmeets
  obtain ⟨hacc, -⟩ := pallocSmall_accounted hk sizeofPoolLarge true
  rw [Memory.newCell, hs', newCellCalls, newCell]
  generalize pallocSmall m sizeofPoolLarge true = r at hacc hcut h'
  obtain ⟨answer, m'⟩ := r
  obtain rfl := h'.answer
  simp only [Option.bind_eq_bind, Option.bind_some]
  by_cases ha : a = 0
  · -- there is no memory for the cell
    simp only [if_pos ha] at hacc h' ⊢
    obtain ⟨-, hlive⟩ := hacc.null rfl
    obtain ⟨hp', hp₀⟩ := hacc.kept.outside
    obtain ⟨h₁, hcalls, hagree⟩ := h'.stored.free h'.laid hp' hp₀
    have hfreed : (m'.heap.free p).live = (m.heap.free p).live := by
      rw [Heap.free, hlive, Heap.free]
    refine ⟨0, _, rfl, h₁, h'.laid.free hp', rfl, ?_, fun _ o ho => ?_⟩
    · rw [hcalls, h'.calls, List.append_assoc]
    · exact (h'.null ha o (List.mem_of_mem_filter ho)).trans (hagree o (hfreed ▸ ho))
  · simp only [if_neg ha, List.append_nil] at hcut h' ⊢
    obtain ⟨hin, hfree⟩ := hcut.some a rfl
    have hcells : ∀ c ∈ m'.pool.large, Region.Apart ⟨a, sizeofPoolLarge⟩ c.region := fun c hc =>
      hfree _ (hl.cell c (hcut.large ▸ hc)).used
    obtain ⟨-, hbound⟩ := h'.laid.inBlock_bounds hin
    have ha' : a < 2 ^ 64 := by
      unfold Region.stop at hbound
      simp only at hbound
      omega
    have h₁ := h'.stored.addCell h'.laid (c := ⟨a, p⟩) hin hcells ha'
      (by simp only; omega)
    obtain ⟨-, hp₀⟩ := hk.outside
    exact ⟨p, _, rfl, h₁, h'.laid.addCell hin hcells hp, (if_neg hp₀).symm, h'.calls,
      fun h => absurd h hp₀⟩

/-- A region from the system allocator for which a new cell is made. -/
lemma Stored.newCell (h : Stored s pool m) (hl : Laid size m) (hk : Kept [] m) {a al : ℕ}
    (hfresh : Fresh m.heap.live a n al) (sc : List (Option ℕ))
    (hfits : Memory.SmallFits { s with
      heap := ⟨⟨a, n⟩ :: s.heap.live, sc⟩
      calls := s.calls ++ [.got ⟨a, n⟩]
      bytes := s.scribble s.heap.live } fuel pool sizeofPoolLarge true)
    (hf : m.pool.blocks.length ≤ fuel) :
    ∃ p s', Memory.newCell { s with
        heap := ⟨⟨a, n⟩ :: s.heap.live, sc⟩
        calls := s.calls ++ [.got ⟨a, n⟩]
        bytes := s.scribble s.heap.live } fuel pool a = some (p, s') ∧
      Follows size pool s m.heap.live
        (.got ⟨a, n⟩ :: newCellCalls { m with heap := ⟨⟨a, n⟩ :: m.heap.live, sc⟩ } a)
        (newCell { m with heap := ⟨⟨a, n⟩ :: m.heap.live, sc⟩ } a) p s' := by
  have h₁ := h.scribble hl (fun i e hi => h.heap ▸ (hl.block i e hi).live)
    ⟨⟨a, n⟩ :: s.heap.live, sc⟩ (s.calls ++ [.got ⟨a, n⟩])
  have hagree : ∀ o ∈ m.heap.live, Agree s.bytes (s.scribble s.heap.live) o := fun o ho =>
    Memory.agree_scribble s (h.heap ▸ ho) (.refl o)
  rw [h.heap] at h₁ hagree hfits ⊢
  have hl₁ := hl.fresh hfresh sc
  obtain ⟨p, s', hs', h'⟩ := newCell_stored h₁ hl₁ (hk.fresh hfresh sc)
    ((Nat.le_add_right _ _).trans hfresh.2.2.1) ((h₁.smallFits hl₁ hf).mp hfits) hf
  refine ⟨p, s', hs', h'.stored, h'.laid, h'.answer, ?_, fun hp o ho => (hagree o ho).trans
    (h'.null hp o ?_)⟩
  · rw [h'.calls, List.append_assoc]
    rfl
  · show o ∈ (⟨a, n⟩ :: m.heap.live).filter fun r => r.start ≠ a
    rw [filter_fresh hfresh]
    exact ho

/-- `palloc_large`. -/
theorem pallocLarge_stored (h : Stored s pool m) (hl : Laid size m) (hk : Kept [] m)
    (hfits : s.LargeFits fuel pool n) (hf : m.pool.blocks.length ≤ fuel)
    (hf' : m.pool.large.length < fuel) :
    ∃ p s', s.pallocLarge fuel pool n = some (p, s') ∧
      Follows size pool s m.heap.live (pallocLargeCalls m n) (pallocLarge m n) p s' := by
  have hlive : ∀ (i : ℕ) (e : Extent), m.pool.extents[i]? = some e →
      (⟨e.addr, size⟩ : Region) ∈ s.heap.live := fun i e hi => h.heap ▸ (hl.block i e hi).live
  unfold Memory.LargeFits Memory.alloc at hfits
  unfold Memory.pallocLarge Memory.alloc
  rcases s.memalign_cases alignment n with ⟨sc, hs, hs'⟩ | ⟨a, sc, hfresh, hs, hs'⟩
  · rw [h.heap] at hs
    rw [hs', pallocLargeCalls, memalignCalls_none m.heap hs, pallocLarge, Heap.alloc, hs]
    exact ⟨0, _, rfl, h.null hl sc⟩
  · rw [h.heap] at hfresh hs
    have ha := hfresh.1.ne'
    rw [hs'] at hfits ⊢
    rw [pallocLargeCalls, memalignCalls_some m.heap hs, pallocLarge, Heap.alloc, hs]
    simp only [if_neg ha] at hfits ⊢
    have h₁ := h.scribble hl hlive ⟨⟨a, n⟩ :: s.heap.live, sc⟩ (s.calls ++ [.got ⟨a, n⟩])
    have hl₁ := hl.fresh hfresh sc
    rw [← h.heap] at hl₁
    rw [h₁.head.large] at hfits ⊢
    rcases reuseLoop_stored h₁ hl₁ a 0 [] m.pool.large rfl hf' with
      ⟨hn, hs⟩ | ⟨l₁, c, l₂, hlarge, hc, hn, hs⟩
    · simp only [List.length_nil] at hn hs
      rw [hn]
      rw [hs] at hfits ⊢
      exact h.newCell hl hk hfresh sc (hfits ha rfl) hf
    · simp only [List.length_nil] at hn hs
      rw [hn, hs]
      have ha' : a ≤ 2 ^ 63 := (Nat.le_add_right _ _).trans hfresh.2.2.1
      have h₂ := h₁.setAlloc hl₁ hlarge (ha'.trans_lt (by decide))
      have hl₂ := hl₁.assign hlarge ha'
      rw [h.heap] at hl₂
      simp only [h.heap] at h₂ ⊢
      exact ⟨a, _, if_pos hc, h₂, hl₂, (if_neg ha).symm, rfl, fun h => absurd h ha⟩

/-- `palloc` and `pnalloc`. -/
theorem pallocWith_stored (h : Stored s pool m) (hl : Laid size m) (hk : Kept [] m)
    (hfits : s.WithFits fuel pool n align) (hf : m.pool.blocks.length ≤ fuel)
    (hf' : m.pool.large.length < fuel) :
    ∃ p s', s.pallocWith fuel pool n align = some (p, s') ∧
      Follows size pool s m.heap.live (pallocCalls m n align)
        (if n ≤ m.pool.max then pallocSmall m n align else pallocLarge m n) p s' := by
  unfold Memory.WithFits at hfits
  rw [h.head.max] at hfits
  rw [Memory.pallocWith, h.head.max, pallocCalls]
  split_ifs at hfits ⊢ with hmax
  · exact pallocSmall_stored h hl (hl.small_le hmax) ((h.smallFits hl hf).mp hfits) hf
  · exact pallocLarge_stored h hl hk hfits hf hf'

/-- `pmemalign`. -/
theorem pmemalign_stored (h : Stored s pool m) (hl : Laid size m) (hk : Kept [] m) {al : ℕ}
    (hfits : s.MemalignFits fuel pool n al) (hf : m.pool.blocks.length ≤ fuel) :
    ∃ p s', s.pmemalign fuel pool n al = some (p, s') ∧
      Follows size pool s m.heap.live (pmemalignCalls m n al) (pmemalign m n al) p s' := by
  unfold Memory.MemalignFits at hfits
  unfold Memory.pmemalign
  rcases s.memalign_cases al n with ⟨sc, hs, hs'⟩ | ⟨a, sc, hfresh, hs, hs'⟩
  · rw [h.heap] at hs
    rw [hs', pmemalignCalls, memalignCalls_none m.heap hs, pmemalign, hs]
    exact ⟨0, _, rfl, h.null hl sc⟩
  · rw [h.heap] at hfresh hs
    have ha := hfresh.1.ne'
    rw [hs'] at hfits ⊢
    rw [pmemalignCalls, memalignCalls_some m.heap hs, pmemalign, hs]
    simp only [if_neg ha] at hfits ⊢
    exact h.newCell hl hk hfresh sc (hfits ha) hf

end Libcn.Palloc
