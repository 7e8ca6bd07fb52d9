import Libcn.Palloc.Array
import Mathlib.Data.List.Perm.Basic

/-!
# Runs of pool and array calls

What is handed out after any sequence of calls on a pool lies in what the pool owns, outside
the block headers, and is pairwise disjoint.
-/

namespace Libcn.Palloc

open Libcn.Lib

/-! ## Runs -/

/-- A region handed out, and whether it came from `palloc`. -/
structure Grant where
  region : Region
  aligned : Bool
  deriving DecidableEq, Repr

/-- The regions an array occupies. -/
def Arr.grants (a : Arr) : List Grant := [⟨a.storage, true⟩, ⟨a.header, true⟩]

/-- A pool, the regions handed out to its user and the live arrays. -/
structure Session where
  mem : PoolMem
  held : List Grant
  arrays : List Arr
  deriving DecidableEq, Repr

namespace Session

/-- Everything handed out and not given back. -/
def grants (s : Session) : List Grant := s.held ++ s.arrays.flatMap Arr.grants

/-- The session after a request for `n` bytes. -/
def grant (s : Session) (aligned : Bool) (n : ℕ) : Option ℕ × PoolMem → Session
  | (none, m) => { s with mem := m }
  | (some a, m) => { s with mem := m, held := ⟨⟨a, n⟩, aligned⟩ :: s.held }

/-- The session after a push on the array `a` at position `i`. Storage the array moved away
from stays handed out. -/
def pushed (s : Session) (i : ℕ) (a : Arr) (r : Option ℕ × PoolMem × Arr) : Session where
  mem := r.2.1
  held := (a.left r.2.2).map (⟨·, true⟩) ++ s.held
  arrays := s.arrays.set i r.2.2

end Session

/-- An array with a region that starts at `p`. -/
def Arr.startsAt (a : Arr) (p : ℕ) : Bool := a.addr = p || a.elts = p

/-- One call. Arrays are named by their position among the live ones. -/
inductive PoolOp
  | palloc (n : ℕ)
  | pnalloc (n : ℕ)
  | pcalloc (n : ℕ)
  | pmemalign (n alignment : ℕ)
  | pfree (p : ℕ)
  | resetPool
  | arrayCreate (n size : ℕ)
  | arrayPush (i : ℕ)
  | arrayPushN (i n : ℕ)
  | arrayDestroy (i : ℕ)
  deriving DecidableEq, Repr

/-- The effect of a call. After a `pfree` the arrays with a region that is given back are dead,
and the other region of each stays handed out. -/
def PoolOp.run (s : Session) : PoolOp → Session
  | .palloc n => s.grant true n (Palloc.palloc s.mem n)
  | .pnalloc n => s.grant false n (Palloc.pnalloc s.mem n)
  | .pcalloc n => s.grant true n (Palloc.pcalloc s.mem n)
  | .pmemalign n alignment => s.grant false n (Palloc.pmemalign s.mem n alignment)
  | .pfree p =>
    match Palloc.pfree s.mem p with
    | (false, m) => { s with mem := m }
    | (true, m) =>
      { mem := m
        held := (s.held ++ (s.arrays.filter (·.startsAt p)).flatMap Arr.grants).filter
          (·.region.start ≠ p)
        arrays := s.arrays.filter (!·.startsAt p) }
  | .resetPool => ⟨Palloc.resetPool s.mem, [], []⟩
  | .arrayCreate n size =>
    match Palloc.arrayCreate s.mem n size with
    | (none, m) => { s with mem := m }
    | (some a, m) => { s with mem := m, arrays := a :: s.arrays }
  | .arrayPush i =>
    match s.arrays[i]? with
    | none => s
    | some a => s.pushed i a (Palloc.arrayPush s.mem a)
  | .arrayPushN i n =>
    match s.arrays[i]? with
    | none => s
    | some a => s.pushed i a (Palloc.arrayPushN s.mem a n)
  | .arrayDestroy i =>
    match s.arrays[i]? with
    | none => s
    | some a => { s with mem := Palloc.arrayDestroy s.mem a, arrays := s.arrays.eraseIdx i }

/-- Initial counts and element sizes are positive, counts and byte sizes do not wrap, and only
live arrays are used. -/
def PoolOp.Allowed (s : Session) : PoolOp → Prop
  | .arrayCreate n size => 0 < n ∧ n < 2 ^ 32 ∧ 0 < size ∧ n * size < 2 ^ 64
  | .arrayPush i => ∃ a ∈ s.arrays[i]?, a.PushFits s.mem
  | .arrayPushN i n => ∃ a ∈ s.arrays[i]?, a.PushNFits s.mem n
  | .arrayDestroy i => i < s.arrays.length
  | _ => True

instance (s : Session) : (op : PoolOp) → Decidable (op.Allowed s)
  | .arrayCreate _ _ => inferInstanceAs (Decidable (_ ∧ _))
  | .arrayPush i => inferInstanceAs (Decidable (∃ a ∈ s.arrays[i]?, a.PushFits s.mem))
  | .arrayPushN i n => inferInstanceAs (Decidable (∃ a ∈ s.arrays[i]?, a.PushNFits s.mem n))
  | .arrayDestroy i => inferInstanceAs (Decidable (i < s.arrays.length))
  | .palloc _ | .pnalloc _ | .pcalloc _ | .pmemalign _ _ | .pfree _ | .resetPool => .isTrue trivial

/-- A sequence of allowed calls. -/
def AllowedRun (s : Session) : List PoolOp → Prop
  | [] => True
  | op :: ops => op.Allowed s ∧ AllowedRun (op.run s) ops

instance decidableAllowedRun : (s : Session) → (ops : List PoolOp) → Decidable (AllowedRun s ops)
  | _, [] => .isTrue trivial
  | s, op :: ops =>
    have := decidableAllowedRun (op.run s) ops
    inferInstanceAs (Decidable (op.Allowed s ∧ AllowedRun (op.run s) ops))

/-- The session after a sequence of calls on a new pool. -/
def runOps (m : PoolMem) (ops : List PoolOp) : Session := ops.foldl PoolOp.run ⟨m, [], []⟩

/-! ## The law -/

/-- The region of a block. -/
def Extent.region (e : Extent) : Region := ⟨e.addr, e.stop - e.addr⟩

/-- Disjointness and ownership of everything handed out. -/
structure PoolLaw (s : Session) : Prop where
  owned : ∀ g ∈ s.grants, 0 < g.region.size →
    (∃ b ∈ s.mem.pool.blocks, b.region ∈ s.mem.heap.live ∧ g.region.Within b.region) ∨
    ∃ c ∈ s.mem.pool.large, c.alloc = g.region.start ∧ g.region ∈ s.mem.heap.live
  header : ∀ g ∈ s.grants, ∀ (i : ℕ) (b : Block), s.mem.pool.blocks[i]? = some b →
    Region.Apart ⟨b.addr, headerSize i⟩ g.region
  apart : (s.grants.map Grant.region ++ s.mem.pool.large.map Cell.region).Pairwise Region.Apart
  aligned : ∀ g ∈ s.grants, g.aligned = true → g.region.start % alignment = 0
  elements : ∀ a ∈ s.arrays, Region.Within ⟨a.elts, a.size * a.nelts⟩ a.storage

/-! ## One call -/

/-- The invariant of a run. -/
structure Session.Inv (size : ℕ) (s : Session) : Prop where
  owned : Owned size s.mem (s.grants.map Grant.region)
  aligned : ∀ g ∈ s.grants, g.aligned = true → g.region.start % alignment = 0
  ok : ∀ a ∈ s.arrays, a.Ok

namespace Session

variable {size : ℕ} {s : Session} {a : Arr} {i : ℕ}

/-- What is handed out besides the array at position `i`. -/
def others (s : Session) (i : ℕ) : List Grant :=
  s.held ++ (s.arrays.eraseIdx i).flatMap Arr.grants

/-- The regions of one array stand out. -/
lemma grants_perm (hi : s.arrays[i]? = some a) : s.grants.Perm (a.grants ++ s.others i) := by
  have hperm : s.arrays.Perm (a :: s.arrays.eraseIdx i) := by
    obtain ⟨hlt, rfl⟩ := List.getElem?_eq_some_iff.mp hi
    exact (List.getElem_cons_eraseIdx_perm hlt).symm
  unfold grants others
  refine ((hperm.flatMap_right _).append_left _).trans ?_
  rw [List.flatMap_cons]
  exact List.perm_append_comm_assoc _ _ _

namespace Inv

/-- The pool with one array in front. -/
lemma front (h : s.Inv size) (hi : s.arrays[i]? = some a) :
    Owned size s.mem (a.storage :: a.header :: (s.others i).map Grant.region) ∧ a.Ok :=
  ⟨h.owned.perm ((grants_perm hi).map _), h.ok a (List.mem_of_getElem? hi)⟩

/-- The outcome of a request. -/
lemma grant (h : s.Inv size) {aligned : Bool} {n al : ℕ} {r : Option ℕ × PoolMem}
    (hr : Granted size (s.grants.map Grant.region) n al r) (hal : aligned = true → al = alignment) :
    (s.grant aligned n r).Inv size := by
  cases hr with
  | null owned => exact ⟨owned, h.aligned, h.ok⟩
  | region owned ha =>
    refine ⟨owned, ?_, h.ok⟩
    intro g hg hga
    rcases List.mem_cons.mp hg with rfl | hg
    · rwa [hal hga] at ha
    · exact h.aligned g hg hga

/-- The outcome of a push. -/
lemma pushed (h : s.Inv size) (hi : s.arrays[i]? = some a) {r : Option ℕ × PoolMem × Arr}
    (hr : Pushed size (a.header :: (s.others i).map Grant.region) a r) :
    (s.pushed i a r).Inv size := by
  have hlt : i < s.arrays.length := (List.getElem?_eq_some_iff.mp hi).1
  have hi' : (s.pushed i a r).arrays[i]? = some r.2.2 := by
    simp only [Session.pushed]
    rw [List.getElem?_set_self hlt]
  have hperm := grants_perm hi'
  have hothers : (s.pushed i a r).others i =
      (a.left r.2.2).map (⟨·, true⟩) ++ s.others i := by
    simp only [others, Session.pushed, List.eraseIdx_set_eq, List.append_assoc]
  have hheader : r.2.2.header = a.header := by rw [Arr.header, Arr.header, hr.same]
  have haligned := fun g hg => h.aligned g ((grants_perm hi).mem_iff.mpr hg)
  rw [hothers] at hperm
  refine ⟨hr.owned.perm ?_, ?_, ?_⟩
  · refine .trans ?_ (hperm.map Grant.region).symm
    simp only [Arr.grants, List.map_append, List.map_cons, List.map_map,
      List.cons_append, List.nil_append, Function.comp_def, List.map_id', hheader]
    exact .cons _ List.perm_middle
  · intro g hg hga
    have hstorage := haligned ⟨a.storage, true⟩ (.head _) rfl
    rcases List.mem_append.mp (hperm.mem_iff.mp hg) with hg | hg
    · rcases List.mem_cons.mp hg with rfl | hg
      · exact hr.aligned hstorage
      · obtain rfl := List.mem_singleton.mp hg
        have hh := haligned ⟨a.header, true⟩ (.tail _ (.head _)) rfl
        simpa only [hheader] using hh
    · rcases List.mem_append.mp hg with hg | hg
      · obtain ⟨x, hx, rfl⟩ := List.mem_map.mp hg
        unfold Arr.left at hx
        split at hx
        · cases hx
        · rw [List.mem_singleton.mp hx]
          exact hstorage
      · exact haligned g (List.mem_append_right _ hg) hga
  · intro a' ha'
    rcases List.mem_or_eq_of_mem_set ha' with ha' | rfl
    · exact h.ok a' ha'
    · exact hr.ok

/-- A successful `pfree`. -/
lemma pfree (h : s.Inv size) (p : ℕ) {m : PoolMem}
    (hm : Owned size m ((s.grants.map Grant.region).filter fun r => r.start ≠ p)) :
    Session.Inv size
      { mem := m
        held := (s.held ++ (s.arrays.filter (·.startsAt p)).flatMap Arr.grants).filter
          (·.region.start ≠ p)
        arrays := s.arrays.filter (!·.startsAt p) } := by
  -- the arrays that stay have no region at `p`
  have hstay : ((s.arrays.filter (!·.startsAt p)).flatMap Arr.grants).filter
      (·.region.start ≠ p) = (s.arrays.filter (!·.startsAt p)).flatMap Arr.grants := by
    rw [List.filter_eq_self]
    intro g hg
    obtain ⟨a, ha, hg⟩ := List.mem_flatMap.mp hg
    have hna := (List.mem_filter.mp ha).2
    simp only [Arr.startsAt, Bool.not_eq_true', Bool.or_eq_false_iff, decide_eq_false_iff_not]
      at hna
    rcases List.mem_cons.mp hg with rfl | hg
    · exact decide_eq_true hna.2
    · obtain rfl := List.mem_singleton.mp hg
      exact decide_eq_true hna.1
  have hperm : (s.grants.filter (·.region.start ≠ p)).Perm
      ((s.held ++ (s.arrays.filter (·.startsAt p)).flatMap Arr.grants).filter
          (·.region.start ≠ p) ++ (s.arrays.filter (!·.startsAt p)).flatMap Arr.grants) := by
    rw [← hstay, ← List.filter_append, List.append_assoc, ← List.flatMap_append]
    exact (((List.filter_append_perm _ s.arrays).symm.flatMap_right _).append_left _).filter _
  have hmap : (s.grants.map Grant.region).filter (fun r => r.start ≠ p) =
      (s.grants.filter (·.region.start ≠ p)).map Grant.region := List.filter_map
  refine ⟨?_, ?_, ?_⟩
  · rw [hmap] at hm
    exact hm.perm (hperm.map _)
  · intro g hg
    exact h.aligned g (List.mem_filter.mp (hperm.mem_iff.mpr hg)).1
  · intro a ha
    exact h.ok a (List.mem_filter.mp ha).1

/-- A new array. -/
lemma arrayCreate (h : s.Inv size) {a : Arr} {m : PoolMem}
    (owned : Owned size m (a.storage :: a.header :: s.grants.map Grant.region)) (ok : a.Ok)
    (aligned : a.elts % alignment = 0 ∧ a.addr % alignment = 0) :
    Session.Inv size { s with mem := m, arrays := a :: s.arrays } := by
  have hperm := grants_perm (s := ({ s with mem := m, arrays := a :: s.arrays } : Session))
    (i := 0) rfl
  refine ⟨owned.perm (hperm.map Grant.region).symm, ?_, ?_⟩
  · intro g hg hga
    rcases List.mem_append.mp (hperm.mem_iff.mp hg) with hg | hg
    · rcases List.mem_cons.mp hg with rfl | hg
      · exact aligned.1
      · obtain rfl := List.mem_singleton.mp hg
        exact aligned.2
    · exact h.aligned g hg hga
  · intro a' ha'
    rcases List.mem_cons.mp ha' with rfl | ha'
    · exact ok
    · exact h.ok a' ha'

/-- One allowed call keeps the invariant. -/
theorem step (h : s.Inv size) (op : PoolOp) (hop : op.Allowed s) : (op.run s).Inv size := by
  cases op with
  | palloc n => exact h.grant (palloc_spec h.owned n) fun _ => rfl
  | pnalloc n => exact h.grant (pnalloc_spec h.owned n) nofun
  | pcalloc n => exact h.grant (palloc_spec h.owned n) fun _ => rfl
  | pmemalign n al => exact h.grant (pmemalign_spec h.owned n al) nofun
  | pfree p =>
    have hp := pfree_spec h.owned p
    simp only [PoolOp.run]
    generalize Palloc.pfree s.mem p = r at hp
    rcases hp with rfl | ⟨hr, hm⟩
    · exact h
    · obtain ⟨found, m⟩ := r
      obtain rfl : found = true := hr
      exact h.pfree p hm
  | resetPool =>
    exact ⟨resetPool_spec h.owned, by simp [PoolOp.run, grants], by simp [PoolOp.run]⟩
  | arrayCreate n eltSize =>
    obtain ⟨hn, hn', hsize, hbytes⟩ := hop
    have hc := arrayCreate_spec h.owned hn hn' hsize hbytes
    simp only [PoolOp.run]
    generalize Palloc.arrayCreate s.mem n eltSize = r at hc
    cases hc with
    | null owned => exact ⟨owned, h.aligned, h.ok⟩
    | array owned ok aligned => exact h.arrayCreate owned ok aligned
  | arrayPush i =>
    obtain ⟨a, hi, hfits⟩ := hop
    obtain ⟨howned, hok⟩ := h.front hi
    simp only [PoolOp.run, Option.mem_def.mp hi]
    exact h.pushed hi (arrayPush_spec howned hok hfits)
  | arrayPushN i n =>
    obtain ⟨a, hi, hfits⟩ := hop
    obtain ⟨howned, hok⟩ := h.front hi
    simp only [PoolOp.run, Option.mem_def.mp hi]
    exact h.pushed hi (arrayPushN_spec howned hok hfits)
  | arrayDestroy i =>
    have hi : s.arrays[i]? = some s.arrays[i] := List.getElem?_eq_getElem hop
    obtain ⟨howned, hok⟩ := h.front hi
    simp only [PoolOp.run, hi]
    refine ⟨arrayDestroy_spec howned hok, ?_, ?_⟩
    · intro g hg
      exact h.aligned g ((grants_perm hi).mem_iff.mpr (List.mem_append_right _ hg))
    · intro a ha
      exact h.ok a (List.mem_of_mem_eraseIdx ha)

end Inv

end Session

/-! ## Whole runs -/

/-- A sequence of allowed calls keeps the invariant. -/
theorem Session.Inv.run {size : ℕ} {s : Session} (h : s.Inv size) {ops : List PoolOp}
    (hops : AllowedRun s ops) : (ops.foldl PoolOp.run s).Inv size := by
  induction ops generalizing s with
  | nil => exact h
  | cons op ops ih => exact ih (h.step op hops.1) hops.2

/-- The header of a block is disjoint from every region in use. -/
lemma Tidy.apart_header {size : ℕ} {live : List Region} {E : List Extent} {large : List Cell}
    {R : List Region} (h : Tidy size live E large R) {i : ℕ} {e : Extent} (hi : E[i]? = some e)
    {r : Region} (hr : r ∈ R) : Region.Apart ⟨e.addr, headerSize i⟩ r := by
  by_cases hs : r.size = 0
  · exact .inr (.inl hs)
  have hb := h.block i e hi
  have hwithin : Region.Within ⟨e.addr, headerSize i⟩ ⟨e.addr, size⟩ := by
    have := hb.low
    have := hb.high
    have := hb.stop
    unfold Region.Within Region.stop
    simp only
    omega
  have hself : r.Within r := ⟨Nat.le_refl _, Nat.le_refl _⟩
  rcases h.placed r hr (Nat.pos_of_ne_zero hs) with
    ⟨j, e', hj, hlow, hhigh⟩ | ⟨hnull, hlive, c, hc, hcr⟩
  · have hb' := h.block j e' hj
    by_cases he : e.addr = e'.addr
    · obtain rfl := h.index_eq hi hj he
      obtain rfl : e = e' := Option.some.inj (hi.symm.trans hj)
      exact .inr (.inr (.inl hlow))
    · have hr' : r.Within ⟨e'.addr, size⟩ := by
        have := hb'.stop
        have := hb'.high
        unfold Region.Within Region.stop at *
        simp only
        omega
      exact (Region.clear_of_mem h.clear hb.live hb'.live he).apart.within hwithin hr'
  · have hne : e.addr ≠ r.start := by
      intro he
      refine (h.alloc c hc (by rwa [hcr])).2 ?_
      rw [hcr, ← he]
      exact List.mem_map_of_mem (List.mem_of_getElem? hi)
    exact (Region.clear_of_mem h.clear hb.live hlive hne).apart.within hwithin hself

/-- The invariant gives the law. -/
lemma Session.Inv.law {size : ℕ} {s : Session} (h : s.Inv size) : PoolLaw s where
  owned g hg hs := by
    rcases h.owned.tidy.placed g.region (List.mem_map_of_mem hg) hs with
      ⟨i, e, hi, hlow, hhigh⟩ | ⟨-, hlive, c, hc, hcr⟩
    · left
      have hb := h.owned.tidy.block i e hi
      obtain ⟨b, hbm, rfl⟩ := List.mem_map.mp (List.mem_of_getElem? hi)
      have hregion : b.region = ⟨b.addr, size⟩ := by
        have := hb.stop
        unfold Extent.region
        rw [this, Nat.add_sub_cancel_left]
      refine ⟨b, hbm, hregion ▸ hb.live, ?_⟩
      have := hb.stop
      have := hb.high
      rw [hregion]
      unfold Region.Within Region.stop at *
      simp only
      omega
    · exact .inr ⟨c, hc, hcr, hlive⟩
  header g hg i b hi := by
    have hi' : s.mem.pool.extents[i]? = some b.toExtent := by
      rw [Pool.extents, List.getElem?_map, hi]
      rfl
    exact h.owned.tidy.apart_header hi' (List.mem_map_of_mem hg)
  apart := h.owned.tidy.apart
  aligned := h.aligned
  elements a ha :=
    ⟨Nat.le_refl _, Nat.add_le_add_left (Nat.mul_le_mul_left _ (h.ok a ha).nelts) _⟩

/-- **Disjoint and owned.** After any allowed sequence of calls on a new pool, everything handed
out lies in a block or a large allocation of the pool, outside the headers, and is disjoint from
everything else handed out and from the cells; what came from `palloc` is aligned. The system
allocator may answer NULL or with any fresh region at each call. -/
theorem pool_disjoint_owned {size : ℕ} {script : List (Option ℕ)} {m : PoolMem}
    (hmod : size % poolAlignment = 0) (hmin : minPoolSize ≤ size)
    (hcreate : createPool ⟨[], script⟩ size = some m) {ops : List PoolOp}
    (hops : AllowedRun ⟨m, [], []⟩ ops) : PoolLaw (runOps m ops) := by
  have hinit : Session.Inv size ⟨m, [], []⟩ :=
    ⟨createPool_spec hmod hmin hcreate, by simp [Session.grants], by simp⟩
  exact (hinit.run hops).law

/-- An array leaves the first block, moves once, and is destroyed after a large allocation came and
went. After a reset another array and another large allocation with its cell are in use. -/
def arrayCalls : List PoolOp :=
  [.arrayCreate 2 8, .arrayPush 0, .arrayPushN 0 2, .palloc 100, .pnalloc 3, .pfree 12288,
    .arrayDestroy 0, .resetPool, .pcalloc 24, .arrayCreate 2 8, .arrayPush 0, .palloc 100]

/-- The law with an array, a large allocation and its cell in use. -/
theorem pool_disjoint_owned_array :
    ∃ m, createPool ⟨[], [some 4096, some 8192, some 12288, some 16384, some 20480]⟩ 96 = some m ∧
      ((runOps m arrayCalls).held.length, (runOps m arrayCalls).arrays.length,
        (runOps m arrayCalls).mem.pool.large.length) = (2, 1, 1) ∧
      PoolLaw (runOps m arrayCalls) := by
  refine ⟨⟨⟨[⟨4096, 96⟩], [some 8192, some 12288, some 16384, some 20480]⟩,
    ⟨[⟨⟨4096, 4152, 4192⟩, 0⟩], 40, 0, []⟩⟩, ?_, by decide +kernel, ?_⟩
  · decide +kernel
  · exact pool_disjoint_owned (show 96 % poolAlignment = 0 from rfl) (by decide)
      (show createPool ⟨[], [some 4096, some 8192, some 12288, some 16384, some 20480]⟩ 96 = some _
        by decide +kernel) (by decide +kernel)

end Libcn.Palloc
