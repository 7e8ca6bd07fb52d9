import Libcn.Lib.Window
import Libcn.Rbtree.Run

/-!
# The tree as a sorted list

In-order, the tree is the list that stable sorted insertion and removal build. The abstract
component is a list of entries `(node, key)`; each call on the tree refines one list
operation.
-/

namespace Libcn.Rbtree

open Libcn.Lib

/-! ## The abstract list -/

section Entries

variable {ι : Type}

/-- A node and its key. -/
abbrev Entry (ι : Type) := ι × BitVec 64

/-- The entry goes immediately after all entries whose key is not greater. -/
def placeEntry (less : BitVec 64 → BitVec 64 → Bool) (e : Entry ι) (l : List (Entry ι)) :
    List (Entry ι) :=
  l.filter (fun o => !less e.2 o.2) ++ e :: l.filter (fun o => less e.2 o.2)

/-- The list after a call. -/
def TreeOp.entries [DecidableEq ι] (less : BitVec 64 → BitVec 64 → Bool) (l : List (Entry ι)) :
    TreeOp ι → List (Entry ι)
  | .insert x key => placeEntry less (x, key) l
  | .delete x => l.filter fun o => o.1 ≠ x

/-- The list after a sequence of calls. -/
def entriesAfter [DecidableEq ι] (less : BitVec 64 → BitVec 64 → Bool) (l : List (Entry ι))
    (ops : List (TreeOp ι)) : List (Entry ι) :=
  ops.foldl (TreeOp.entries less) l

/-- No entry stands before one with a smaller key. -/
def SortedBy (less : BitVec 64 → BitVec 64 → Bool) (l : List (Entry ι)) : Prop :=
  l.Pairwise fun o o' => less o'.2 o.2 = false

/-- The condition on the keys at one moment: none for unsigned order, one window for signed
difference. -/
def InsertPt.Fit : InsertPt → List (BitVec 64) → Prop
  | .value, _ => True
  | .timerValue, keys => InWindow keys

/-- At each moment of the run the keys in the tree fit. -/
def KeysFit [DecidableEq ι] (i : InsertPt) (l : List (Entry ι)) : List (TreeOp ι) → Prop
  | [] => True
  | op :: ops => i.Fit ((op.entries i.less l).map Prod.snd) ∧ KeysFit i (op.entries i.less l) ops

lemma InsertPt.Fit.ranks {i : InsertPt} {keys : List (BitVec 64)} (h : i.Fit keys) :
    Ranks i.less keys := by
  cases i with
  | value => exact ranks_lt keys
  | timerValue => exact InWindow.ranks h

end Entries

/-! ## Each call refines its list operation -/

variable {ι : Type} [DecidableEq ι]

/-- The memory holds a red-black tree whose in-order entries are `l`. -/
structure Tracks (m : Mem ι) (i : InsertPt) (l : List (Entry ι)) : Prop where
  holds : ∃ t, Holds m t ∧ t.toList = l.map Prod.fst
  key : ∀ e ∈ l, m.key (.node e.1) = e.2
  insert : m.insert = i
  sorted : SortedBy i.less l

omit [DecidableEq ι] in
lemma Tracks.nodup {m : Mem ι} {i : InsertPt} {l : List (Entry ι)} (h : Tracks m i l) :
    (l.map Prod.fst).Nodup := by
  obtain ⟨t, ht, hl⟩ := h.holds
  exact hl ▸ ht.nodup

omit [DecidableEq ι] in
lemma Tracks.root_nil {m : Mem ι} {i : InsertPt} (h : Tracks m i []) : m.root = .sentinel := by
  obtain ⟨t, ⟨⟨p₀, hf⟩, -, -⟩, hl⟩ := h.holds
  have hnil : t = .nil := by
    cases t with
    | nil => rfl
    | node c l a r => simp at hl
  subst hnil
  exact hf.isCtx

/-- `rbtree_min` finds the first entry. -/
lemma Tracks.min_cons {fuel : ℕ} {m : Mem ι} {i : InsertPt} {e : Entry ι} {l : List (Entry ι)}
    (h : Tracks m i (e :: l)) (hf : l.length < fuel) :
    m.root ≠ .sentinel ∧ rbtreeMin m fuel m.root = some (.node e.1) := by
  obtain ⟨t, ⟨⟨p₀, hfoc⟩, -, -⟩, hl⟩ := h.holds
  have hne : t ≠ .nil := by
    intro ht
    subst ht
    simp at hl
  have hroot : m.root = rootPtr t := hfoc.isCtx
  have hlen := congrArg List.length hl
  rw [List.length_map, List.length_cons] at hlen
  obtain ⟨ctx', c, s, r, hmin, rfl, hbef⟩ :=
    rbtreeMin_spec hfoc hne (t.height_le_length.trans (by omega : _ ≤ fuel))
  rw [Ctx.toList_plug, hbef] at hl
  have hs : s = e.1 := by
    simp only [ColorTree.join, ColorTree.toList_node, ColorTree.toList_nil, List.nil_append, List.cons_append,
      List.map_cons] at hl
    exact (List.cons.inj hl).1
  rw [hroot]
  exact ⟨fun e => hne (rootPtr_eq_sentinel.mp e), by rw [hmin, hs]⟩

omit [DecidableEq ι] in
/-- Sorted insertion splits the list where the comparison changes. -/
lemma placeEntry_eq {less : BitVec 64 → BitVec 64 → Bool} {e : Entry ι} {l₁ l₂ : List (Entry ι)}
    (h₁ : ∀ o ∈ l₁, less e.2 o.2 = false) (h₂ : ∀ o ∈ l₂, less e.2 o.2 = true) :
    placeEntry less e (l₁ ++ l₂) = l₁ ++ e :: l₂ := by
  have f₁ : l₁.filter (fun o => !less e.2 o.2) = l₁ :=
    List.filter_eq_self.mpr fun o ho => by simp [h₁ o ho]
  have f₂ : l₂.filter (fun o => !less e.2 o.2) = [] :=
    List.filter_eq_nil_iff.mpr fun o ho => by simp [h₂ o ho]
  have g₁ : l₁.filter (fun o => less e.2 o.2) = [] :=
    List.filter_eq_nil_iff.mpr fun o ho => by simp [h₁ o ho]
  have g₂ : l₂.filter (fun o => less e.2 o.2) = l₂ :=
    List.filter_eq_self.mpr fun o ho => h₂ o ho
  simp [placeEntry, List.filter_append, f₁, f₂, g₁, g₂]

/-- Insertion refines `placeEntry`. -/
lemma Tracks.insert_step {fuel : ℕ} {m : Mem ι} {i : InsertPt} {l : List (Entry ι)} {x : ι}
    {key : BitVec 64} (h : Tracks m i l) (hx : x ∉ l.map Prod.fst)
    (hr : Ranks i.less (key :: l.map Prod.snd)) (hf : l.length < fuel) :
    ∃ m', (TreeOp.insert x key).run fuel m = some m' ∧
      Tracks m' i ((TreeOp.insert x key).entries i.less l) := by
  obtain ⟨⟨t, ht, hl⟩, hkey, rfl, hsort⟩ := h
  obtain ⟨m', t', ctx, hrun, hh, hl', hplug, hfol, hk', hi'⟩ :=
    rbtreeInsert_spec (ht.setKey (.node x) key) (by rwa [hl]) (by simpa [hl] using hf)
  have hsplit : l.map Prod.fst = ctx.before ++ ctx.after := by
    rw [← hl, ← hplug, Ctx.toList_plug]
    simp
  obtain ⟨l₁, l₂, rfl, hl₁, hl₂⟩ := List.map_eq_append_iff.mp hsplit
  obtain ⟨f, hfr⟩ := hr
  -- the keys the descent compares are those of the list
  have hne : ∀ e ∈ l₁ ++ l₂, e.1 ≠ x := fun e he e' => hx (List.mem_map.mpr ⟨e, he, e'⟩)
  have hkey' : ∀ e ∈ l₁ ++ l₂, (m.setKey (.node x) key).key (.node e.1) = e.2 := fun e he => by
    simp [Mem.setKey, hne e he, hkey e he]
  have hrank : ∀ e ∈ l₁ ++ l₂, (m.insert.less key e.2 = true ↔ f key < f e.2) ∧
      ∀ e' ∈ l₁ ++ l₂, (m.insert.less e.2 e'.2 = true ↔ f e.2 < f e'.2) := fun e he =>
    ⟨hfr _ (.head _) _ (.tail _ (List.mem_map_of_mem he)), fun e' he' =>
      hfr _ (.tail _ (List.mem_map_of_mem he)) _ (.tail _ (List.mem_map_of_mem he'))⟩
  let g : ι → ℕ := fun j => f ((m.setKey (.node x) key).key (.node j))
  have hmono : (ctx.before ++ ctx.after).Pairwise fun a b => g a ≤ g b := by
    rw [← hsplit, List.pairwise_map]
    refine hsort.imp_of_mem fun {a b} ha hb hab => ?_
    have := ((hrank b hb).2 a ha).not
    simp only [g, hkey' a ha, hkey' b hb]
    simp only [hab, Bool.false_eq_true, not_false_eq_true, true_iff, not_lt] at this
    exact this
  -- the turns of the descent compare the new key with keys of the list
  have hturn : ∀ k ∈ ctx, (k.dir = .left ↔ f key < g k.elem) := by
    intro k hk
    have hmem : k.elem ∈ (l₁ ++ l₂).map Prod.fst := hsplit ▸ Ctx.elem_mem_labels hk
    obtain ⟨e, he, hek⟩ := List.mem_map.mp hmem
    rw [hfol k hk, ← hek]
    simp only [g, hkey' e he]
    rw [← (hrank e he).1]
    simp [Mem.setKey]
  obtain ⟨hmono₁, hmono₂, -⟩ := List.pairwise_append.mp hmono
  have hbefore := Ctx.before_le hmono₁ (b := f key) fun k hk hd =>
    not_lt.mp fun hlt => by simp [(hturn k hk).mpr hlt] at hd
  have hafter := Ctx.lt_after hmono₂ fun k hk hd => (hturn k hk).mp hd
  have h₁ : ∀ o ∈ l₁, m.insert.less key o.2 = false := by
    intro o ho
    have ho' := List.mem_append_left l₂ ho
    have := hbefore o.1 (hl₁ ▸ List.mem_map_of_mem ho)
    simp only [g, hkey' o ho'] at this
    rw [← Bool.not_eq_true, (hrank o ho').1]
    omega
  have h₂ : ∀ o ∈ l₂, m.insert.less key o.2 = true := by
    intro o ho
    have ho' := List.mem_append_right l₁ ho
    have := hafter o.1 (hl₂ ▸ List.mem_map_of_mem ho)
    simp only [g, hkey' o ho'] at this
    exact (hrank o ho').1.mpr this
  have hplace : (TreeOp.insert x key).entries m.insert.less (l₁ ++ l₂) = l₁ ++ (x, key) :: l₂ :=
    placeEntry_eq h₁ h₂
  rw [hplace]
  obtain ⟨hs₁, hs₂, hs₁₂⟩ := List.pairwise_append.mp hsort
  refine ⟨m', hrun, ⟨t', hh, by simp [hl', hl₁, hl₂]⟩, fun e he => ?_, hi', ?_⟩
  · rw [hk']
    simp only [List.mem_append, List.mem_cons] at he
    rcases he with he | rfl | he
    · exact hkey' e (List.mem_append_left _ he)
    · simp [Mem.setKey]
    · exact hkey' e (List.mem_append_right _ he)
  · refine List.pairwise_append.mpr ⟨hs₁, List.pairwise_cons.mpr ⟨fun o ho => ?_, hs₂⟩, ?_⟩
    · -- the comparison is asymmetric on these keys
      have ho' := List.mem_append_right l₁ ho
      have hlt := (hrank o ho').1.mp (h₂ o ho)
      have hr := hfr _ (.tail _ (List.mem_map_of_mem ho')) key (.head _)
      rw [← Bool.not_eq_true, hr]
      omega
    · intro o ho o' ho'
      rcases List.mem_cons.mp ho' with rfl | ho'
      · exact h₁ o ho
      · exact hs₁₂ o ho o' ho'

/-- Deletion refines removal of the entry. -/
lemma Tracks.delete_step {fuel : ℕ} {m : Mem ι} {i : InsertPt} {l : List (Entry ι)} {x : ι}
    (h : Tracks m i l) (hx : x ∈ l.map Prod.fst) (hf : l.length < fuel) :
    ∃ m', (TreeOp.delete x).run fuel m = some m' ∧
      Tracks m' i ((TreeOp.delete x).entries i.less l) := by
  have hn := h.nodup
  obtain ⟨⟨t, ht, hl⟩, hkey, hi, hsort⟩ := h
  obtain ⟨m', t', hrun, hh, hl', hk', hi'⟩ := rbtreeDelete_spec ht (by rwa [hl])
    (by simpa [hl] using hf)
  refine ⟨m', hrun, ⟨t', hh, ?_⟩, fun e he => ?_, hi'.trans hi, hsort.filter _⟩
  · rw [hl', hl, hn.erase_eq_filter, TreeOp.entries, List.filter_map]
    congr 1
    refine List.filter_congr fun o _ => ?_
    simp [bne, Function.comp, beq_eq_decide]
  · simp only [TreeOp.entries, List.mem_filter, decide_eq_true_eq] at he
    simp [hk', he.2, hkey e he.1]

omit [DecidableEq ι] in
lemma placeEntry_perm (less : BitVec 64 → BitVec 64 → Bool) (e : Entry ι) (l : List (Entry ι)) :
    (placeEntry less e l).Perm (e :: l) := by
  have h := List.filter_append_perm (fun o => !less e.2 o.2) l
  simp only [Bool.not_not] at h
  exact List.perm_middle.trans (h.cons e)

omit [DecidableEq ι] in
lemma mem_placeEntry {less : BitVec 64 → BitVec 64 → Bool} {e o : Entry ι} {l : List (Entry ι)} :
    o ∈ placeEntry less e l ↔ o = e ∨ o ∈ l := by
  rw [(placeEntry_perm less e l).mem_iff, List.mem_cons]

/-- The entries keep account of the nodes. -/
lemma TreeOp.nodes_entries (op : TreeOp ι) (less : BitVec 64 → BitVec 64 → Bool)
    (l : List (Entry ι)) :
    ((op.entries less l).map Prod.fst).toFinset = op.nodes (l.map Prod.fst).toFinset := by
  cases op with
  | insert x key =>
    ext j
    simp only [entries, nodes, List.mem_toFinset, List.mem_map, mem_placeEntry, Finset.mem_insert]
    constructor
    · rintro ⟨o, rfl | ho, rfl⟩
      · exact .inl rfl
      · exact .inr ⟨o, ho, rfl⟩
    · rintro (rfl | ⟨o, ho, rfl⟩)
      · exact ⟨_, .inl rfl, rfl⟩
      · exact ⟨o, .inr ho, rfl⟩
  | delete x =>
    ext j
    simp only [entries, nodes, List.mem_toFinset, List.mem_map, List.mem_filter,
      decide_eq_true_eq, Finset.mem_erase]
    grind

/-- What one allowed call does. -/
lemma Tracks.step {fuel : ℕ} {m : Mem ι} {i : InsertPt} {l : List (Entry ι)} {op : TreeOp ι}
    (h : Tracks m i l) (hop : op.Allowed (l.map Prod.fst).toFinset)
    (hfit : i.Fit ((op.entries i.less l).map Prod.snd)) (hf : l.length < fuel) :
    ∃ m', op.run fuel m = some m' ∧ Tracks m' i (op.entries i.less l) := by
  cases op with
  | insert x key =>
    refine h.insert_step (fun hx => hop (List.mem_toFinset.mpr hx)) (hfit.ranks.mono ?_) hf
    intro k hk
    rcases List.mem_cons.mp hk with rfl | hk
    · exact List.mem_map.mpr ⟨_, mem_placeEntry.mpr (.inl rfl), rfl⟩
    · obtain ⟨o, ho, rfl⟩ := List.mem_map.mp hk
      exact List.mem_map.mpr ⟨o, mem_placeEntry.mpr (.inr ho), rfl⟩
  | delete x => exact h.delete_step (List.mem_toFinset.mp hop) hf

lemma Tracks.length_eq {m : Mem ι} {i : InsertPt} {l : List (Entry ι)} (h : Tracks m i l) :
    l.length = (l.map Prod.fst).toFinset.card := by
  rw [List.toFinset_card_of_nodup h.nodup, List.length_map]

/-- A run of allowed calls refines the run on the list. -/
lemma Tracks.run {fuel : ℕ} {m : Mem ι} {i : InsertPt} {l : List (Entry ι)}
    {ops : List (TreeOp ι)} (h : Tracks m i l) (hops : AllowedRun (l.map Prod.fst).toFinset ops)
    (hfit : KeysFit i l ops) (hf : l.length + ops.length < fuel) :
    ∃ m', runOps fuel m ops = some m' ∧ Tracks m' i (entriesAfter i.less l ops) := by
  induction ops generalizing m l with
  | nil => exact ⟨m, rfl, h⟩
  | cons op ops ih =>
    obtain ⟨hop, hops⟩ := hops
    obtain ⟨hk, hfit⟩ := hfit
    simp only [List.length_cons] at hf
    obtain ⟨m₁, hrun, h₁⟩ := h.step hop hk (by omega : _ < fuel)
    have hlen : (op.entries i.less l).length ≤ l.length + 1 := by
      rw [h₁.length_eq, h.length_eq, op.nodes_entries]
      exact op.card_nodes_le _
    obtain ⟨m', hrun', h'⟩ := ih h₁ (by rwa [op.nodes_entries]) hfit (by omega)
    refine ⟨m', ?_, h'⟩
    rw [runOps, List.foldlM_cons, hrun]
    exact hrun'

/-- From `rbtree_init`, every run of allowed calls builds in order the list that stable sorted
insertion and removal build, and every node keeps its key. -/
theorem rbtree_sortedEntries (m : Mem ι) (i : InsertPt) (ops : List (TreeOp ι)) (fuel : ℕ)
    (hops : AllowedRun ∅ ops) (hfit : KeysFit i [] ops) (hf : ops.length < fuel) :
    ∃ m', runOps fuel (rbtreeInit m i) ops = some m' ∧
      (∃ t, Holds m' t ∧ t.toList = (entriesAfter i.less [] ops).map Prod.fst) ∧
      (∀ e ∈ entriesAfter i.less [] ops, m'.key (.node e.1) = e.2) ∧
      SortedBy i.less (entriesAfter i.less [] ops) := by
  have h₀ : Tracks (rbtreeInit m i) i [] :=
    ⟨⟨.nil, holds_rbtreeInit m i, rfl⟩, by simp, rfl, .nil⟩
  obtain ⟨m', hrun, h⟩ := h₀.run hops hfit (by simpa using hf)
  exact ⟨m', hrun, h.holds, h.key, h.sorted⟩

/-- Two equal keys before the wrap and one after it. -/
theorem rbtree_sortedEntries_wrap :
    ∃ m', runOps 5 (rbtreeInit Mem.zeroed .timerValue) [.insert 0 7, .insert 1 (-1),
      .insert 2 (-1), .delete 1] = some m' ∧
      (∃ t, Holds m' t ∧ t.toList = [2, 0]) ∧
      (∀ e ∈ [((2 : ℕ), (-1 : BitVec 64)), (0, 7)], m'.key (.node e.1) = e.2) ∧
      SortedBy InsertPt.timerValue.less [((2 : ℕ), (-1 : BitVec 64)), (0, 7)] := by
  have hfit : KeysFit .timerValue ([] : List (Entry ℕ)) [.insert 0 7, .insert 1 (-1),
      .insert 2 (-1), .delete 1] := by
    simp only [KeysFit, TreeOp.entries, placeEntry]
    refine ⟨⟨-1, 9, by omega, ?_⟩, ⟨-1, 9, by omega, ?_⟩, ⟨-1, 9, by omega, ?_⟩,
      ⟨-1, 9, by omega, ?_⟩, trivial⟩
    all_goals simp [offset, InsertPt.less]
  have hlist : entriesAfter InsertPt.timerValue.less [] [.insert 0 7, .insert 1 (-1),
      .insert 2 (-1), .delete 1] = [((2 : ℕ), (-1 : BitVec 64)), (0, 7)] := by decide
  have h := rbtree_sortedEntries Mem.zeroed .timerValue [.insert 0 7, .insert 1 (-1),
    .insert 2 (-1), .delete 1] 5 (by simp [AllowedRun, TreeOp.Allowed, TreeOp.nodes]) hfit
    (by simp)
  rw [hlist] at h
  exact h

end Libcn.Rbtree
