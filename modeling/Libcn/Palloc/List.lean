import Libcn.Palloc.Owned

/-!
# The lists of `list.c`

A list is a chain of parts of equal capacity. The parts are named in the order in which they were
allocated, the one inside the `list_t` by 0, so the `next` links and `last` are names. A part
that has not been initialised has whatever contents.
-/

namespace Libcn.Palloc

open Libcn.Lib

/-! ## The code -/

/-- `list_part_t`. -/
structure Part where
  elts : ℕ
  nelts : ℕ
  next : Option ℕ
  deriving DecidableEq, Repr

/-- `list_t`, with the parts allocated so far. -/
structure Lst where
  parts : ℕ → Part
  count : ℕ
  last : ℕ
  size : ℕ
  nalloc : ℕ

/-- `sizeof(list_t)` and `sizeof(list_part_t)`. -/
def sizeofList : ℕ := 56
def sizeofListPart : ℕ := 24

/-- The address of the slot `i` of the elements at `elts`. -/
def slotAddr (elts size i : ℕ) : ℕ := (elts + size * i) % 2 ^ 64

/-- A part gets new contents. -/
def Lst.setPart (l : Lst) (p : ℕ) (f : Part → Part) : Lst :=
  { l with parts := Function.update l.parts p (f (l.parts p)) }

/-- `list_init`, for a `list_t` in memory with the contents `junk`. -/
def listInit (m : PoolMem) (junk : ℕ → Part) (n size : ℕ) : Option Lst × PoolMem :=
  match palloc m (n * size % 2 ^ 64) with
  | (none, m) => (none, m)
  | (some elts, m) => (some
      { parts := Function.update junk 0 ⟨elts, 0, none⟩
        count := 1
        last := 0
        size := size
        nalloc := n }, m)

/-- `list_create`. -/
def listCreate (m : PoolMem) (junk : ℕ → Part) (n size : ℕ) : Option Lst × PoolMem :=
  match palloc m sizeofList with
  | (none, m) => (none, m)
  | (some _, m) => listInit m junk n size

/-- The end of `list_push`. -/
def pushSlot (l : Lst) : ℕ × Lst :=
  (slotAddr (l.parts l.last).elts l.size (l.parts l.last).nelts,
    l.setPart l.last fun part => { part with nelts := (part.nelts + 1) % 2 ^ 32 })

/-- The new part `last`, with its elements at `elts`, becomes the last of the list. -/
def linkPart (l : Lst) (last elts : ℕ) : Lst :=
  let l := l.setPart last fun _ => ⟨elts, 0, none⟩
  let l := l.setPart l.last fun part => { part with next := some last }
  { l with last := last }

/-- `list_push`. -/
def listPush (m : PoolMem) (l : Lst) : Option ℕ × PoolMem × Lst :=
  if (l.parts l.last).nelts = l.nalloc then
    match palloc m sizeofListPart with
    | (none, m) => (none, m, l)
    | (some _, m) =>
      let last := l.count
      let l := { l with count := l.count + 1 }
      match palloc m (l.nalloc * l.size % 2 ^ 64) with
      | (none, m) => (none, m, l.setPart last fun part => { part with elts := 0 })
      | (some elts, m) =>
        let r := pushSlot (linkPart l last elts)
        (some r.1, m, r.2)
  else
    let r := pushSlot l
    (some r.1, m, r.2)

/-! ## The iteration of `list.h` -/

/-- A read of `data[i]` in a part, and the address it goes to. -/
structure Visit where
  part : ℕ
  i : ℕ
  addr : ℕ
  deriving DecidableEq, Repr

/-- The loop at `part`, `data` and `i`. It ends with the reads it made. -/
def iterLoop (l : Lst) : ℕ → ℕ → ℕ → ℕ → Option (List Visit)
  | 0, _, _, _ => none
  | fuel + 1, part, data, i =>
    if (l.parts part).nelts ≤ i then
      match (l.parts part).next with
      | none => some []
      | some part =>
        let data := (l.parts part).elts
        (iterLoop l fuel part data 1).map (⟨part, 0, slotAddr data l.size 0⟩ :: ·)
    else (iterLoop l fuel part data (i + 1)).map (⟨part, i, slotAddr data l.size i⟩ :: ·)

/-- The iteration through the list. -/
def iterate (l : Lst) (fuel : ℕ) : Option (List Visit) := iterLoop l fuel 0 (l.parts 0).elts 0

/-! ## Chains of parts -/

/-- Following `next` from the part `p` visits `ps`. -/
def Chain (parts : ℕ → Part) : ℕ → List ℕ → Prop
  | p, [] => (parts p).next = none
  | p, q :: ps => (parts p).next = some q ∧ Chain parts q ps

/-- The parts `0 :: ps` are linked, and all but the last are full. -/
structure Lst.Linked (l : Lst) (ps : List ℕ) : Prop where
  chain : Chain l.parts 0 ps
  nodup : (0 :: ps).Nodup
  named : ∀ p ∈ 0 :: ps, p < l.count
  last : l.last = ps.getLastD 0
  full : ∀ p ∈ 0 :: ps, p ≠ l.last → (l.parts p).nelts = l.nalloc
  room : (l.parts l.last).nelts ≤ l.nalloc
  nalloc : 0 < l.nalloc ∧ l.nalloc < 2 ^ 32

/-- A list in order: every part but the first holds an element. -/
structure Lst.Ok (l : Lst) (ps : List ℕ) : Prop extends l.Linked ps where
  held : ∀ p ∈ ps, 0 < (l.parts p).nelts

/-- The elements of a part from the slot `i` on. -/
def Lst.slots (l : Lst) (p i : ℕ) : List Visit :=
  (List.range' i ((l.parts p).nelts - i)).map fun j => ⟨p, j, slotAddr (l.parts p).elts l.size j⟩

/-- The elements of the parts of a chain. -/
def Lst.elements (l : Lst) (ps : List ℕ) : List Visit := (0 :: ps).flatMap fun p => l.slots p 0

variable {l l' : Lst} {ps : List ℕ} {p q : ℕ}

lemma chain_congr {parts parts' : ℕ → Part} (h : Chain parts p ps)
    (hsame : ∀ q ∈ p :: ps, (parts' q).next = (parts q).next) : Chain parts' p ps := by
  induction ps generalizing p with
  | nil => exact (hsame p (.head _)).trans h
  | cons q ps ih =>
    exact ⟨(hsame p (.head _)).trans h.1, ih h.2 fun r hr => hsame r (.tail _ hr)⟩

/-- A part is linked behind the last one. -/
lemma chain_concat {parts parts' : ℕ → Part} (h : Chain parts p ps) (hnodup : (p :: ps).Nodup)
    (hlast : (parts' (ps.getLastD p)).next = some q) (hq : (parts' q).next = none)
    (hsame : ∀ r ∈ p :: ps, r ≠ ps.getLastD p → (parts' r).next = (parts r).next) :
    Chain parts' p (ps ++ [q]) := by
  induction ps generalizing p with
  | nil => exact ⟨hlast, hq⟩
  | cons r ps ih =>
    rw [List.getLastD_cons] at hlast hsame
    have hne : p ≠ ps.getLastD r := by
      intro e
      exact (List.nodup_cons.mp hnodup).1 (e ▸ List.getLastD_mem_cons)
    refine ⟨(hsame p (.head _) hne).trans h.1, ?_⟩
    exact ih h.2 (List.nodup_cons.mp hnodup).2 hlast fun s hs => hsame s (.tail _ hs)

/-! ## The iteration -/

lemma slots_of_lt {i : ℕ} (hi : i < (l.parts p).nelts) :
    l.slots p i = ⟨p, i, slotAddr (l.parts p).elts l.size i⟩ :: l.slots p (i + 1) := by
  obtain ⟨k, hk⟩ := Nat.exists_eq_add_of_lt hi
  have h₁ : (l.parts p).nelts - i = k + 1 := by omega
  have h₂ : (l.parts p).nelts - (i + 1) = k := by omega
  rw [Lst.slots, Lst.slots, h₁, h₂, List.range'_succ, List.map_cons]

lemma slots_of_le {i : ℕ} (hi : (l.parts p).nelts ≤ i) : l.slots p i = [] := by
  rw [Lst.slots, Nat.sub_eq_zero_of_le hi, List.range'_zero, List.map_nil]

/-- The loop reads the rest of its part and then the parts behind it. -/
lemma iterLoop_eq (hchain : Chain l.parts p ps) (hheld : ∀ q ∈ ps, 0 < (l.parts q).nelts)
    (fuel i : ℕ) (hfuel : (l.slots p i ++ ps.flatMap fun q => l.slots q 0).length < fuel) :
    iterLoop l fuel p (l.parts p).elts i =
      some (l.slots p i ++ ps.flatMap fun q => l.slots q 0) := by
  induction fuel generalizing p ps i with
  | zero => exact absurd hfuel (Nat.not_lt_zero _)
  | succ fuel ih =>
    rcases Nat.lt_or_ge i (l.parts p).nelts with hi | hi
    · rw [slots_of_lt hi] at hfuel ⊢
      simp only [iterLoop, if_neg (Nat.not_le.mpr hi)]
      rw [ih hchain hheld (i + 1) (Nat.lt_of_succ_lt_succ hfuel)]
      rfl
    · rw [slots_of_le hi, List.nil_append] at hfuel ⊢
      cases ps with
      | nil =>
        have hnext : (l.parts p).next = none := hchain
        simp only [iterLoop, if_pos hi, hnext, List.flatMap_nil]
      | cons q ps =>
        -- the part behind holds an element, which the loop reads without a test
        have hq := slots_of_lt (hheld q (.head _))
        rw [List.flatMap_cons, hq] at hfuel ⊢
        simp only [iterLoop, if_pos hi, hchain.1]
        rw [ih hchain.2 (fun r hr => hheld r (.tail _ hr)) 1 (Nat.lt_of_succ_lt_succ hfuel)]
        rfl

/-- The iteration ends and reads the elements in order. -/
lemma Lst.Ok.iterate (h : l.Ok ps) {fuel : ℕ} (hfuel : (l.elements ps).length < fuel) :
    iterate l fuel = some (l.elements ps) :=
  iterLoop_eq h.chain h.held fuel 0 hfuel


/-! ## `list_push` -/

/-- What a push leaves behind: it fails and the iteration sees what it saw, or the element it
hands out is the last one the iteration sees. A full list has a new part then. -/
inductive ListPushed (l : Lst) (ps : List ℕ) : Option ℕ × PoolMem × Lst → Prop
  | failed {m' : PoolMem} {l' : Lst} (ok : l'.Ok ps) (same : l'.elements ps = l.elements ps)
      (fixed : l'.size = l.size ∧ l'.nalloc = l.nalloc) : ListPushed l ps (none, m', l')
  | pushed {m' : PoolMem} {l' : Lst} {ps' : List ℕ} (v : Visit) (ok : l'.Ok ps')
      (same : l'.elements ps' = l.elements ps ++ [v])
      (fixed : l'.size = l.size ∧ l'.nalloc = l.nalloc)
      (chain : ps' = if (l.parts l.last).nelts = l.nalloc then ps ++ [l.count] else ps) :
      ListPushed l ps (some v.addr, m', l')

/-- The part `last` is among the linked ones. -/
lemma Lst.Linked.last_mem (h : l.Linked ps) : l.last ∈ 0 :: ps := h.last ▸ List.getLastD_mem_cons

lemma Lst.Linked.nelts_le (h : l.Linked ps) (hp : p ∈ 0 :: ps) :
    (l.parts p).nelts ≤ l.nalloc := by
  by_cases hne : p = l.last
  · rw [hne]
    exact h.room
  · exact (h.full p hp hne).le

/-- The parts before the last one. -/
lemma Lst.Linked.front (h : l.Linked ps) : ∃ front, 0 :: ps = front ++ [l.last] ∧
    ∀ p ∈ front, p ≠ l.last := by
  obtain ⟨front, q, hq⟩ := (List.eq_nil_or_concat' (0 :: ps)).resolve_left (by simp)
  have hlast : l.last = q := by
    rw [h.last, ← List.getLastD_cons (a := 0), hq, List.getLastD_concat]
  refine ⟨front, hlast ▸ hq, fun p hp e => ?_⟩
  have hnodup := h.nodup
  rw [hq] at hnodup
  exact (List.nodup_append.mp hnodup).2.2 p hp q (.head _) (e.trans hlast)

lemma slots_congr (hsize : l'.size = l.size) (helts : (l'.parts p).elts = (l.parts p).elts)
    (hnelts : (l'.parts p).nelts = (l.parts p).nelts) (i : ℕ) : l'.slots p i = l.slots p i := by
  rw [Lst.slots, Lst.slots, helts, hnelts, hsize]

/-- The last part has one element more. -/
lemma slots_succ (hsize : l'.size = l.size) (helts : (l'.parts p).elts = (l.parts p).elts)
    (hnelts : (l'.parts p).nelts = (l.parts p).nelts + 1) : l'.slots p 0 = l.slots p 0 ++
      [⟨p, (l.parts p).nelts, slotAddr (l.parts p).elts l.size (l.parts p).nelts⟩] := by
  rw [Lst.slots, Lst.slots, helts, hnelts, hsize, Nat.sub_zero, Nat.sub_zero, List.range'_concat,
    List.map_append]
  simp

/-- A part with room takes the element. It is the only one that may have been empty. -/
lemma Lst.Linked.pushSlot (h : l.Linked ps) (hroom : (l.parts l.last).nelts ≠ l.nalloc)
    (hheld : ∀ p ∈ ps, p ≠ l.last → 0 < (l.parts p).nelts) (m : PoolMem) :
    ListPushed l ps (some (pushSlot l).1, m, (pushSlot l).2) := by
  have hlt : (l.parts l.last).nelts < l.nalloc := Nat.lt_of_le_of_ne h.room hroom
  have hcount : ((l.parts l.last).nelts + 1) % 2 ^ 32 = (l.parts l.last).nelts + 1 := by
    have := h.nalloc.2
    exact Nat.mod_eq_of_lt (by omega)
  have hlast : (Palloc.pushSlot l).2.parts l.last =
      { l.parts l.last with nelts := (l.parts l.last).nelts + 1 } := by
    simp only [Palloc.pushSlot, Lst.setPart, Function.update_self, hcount]
  have hsize : (Palloc.pushSlot l).2.size = l.size := rfl
  have hother : ∀ p, p ≠ l.last → (Palloc.pushSlot l).2.parts p = l.parts p := by
    intro p hp
    simp [Palloc.pushSlot, Lst.setPart, hp]
  have hnext : ∀ p, ((Palloc.pushSlot l).2.parts p).next = (l.parts p).next := by
    intro p
    by_cases hp : p = l.last
    · rw [hp, hlast]
    · rw [hother p hp]
  refine .pushed ⟨l.last, (l.parts l.last).nelts, (Palloc.pushSlot l).1⟩
    { chain := chain_congr h.chain fun p _ => hnext p
      nodup := h.nodup
      named := h.named
      last := h.last
      full := fun p hp hne => ?_
      room := ?_
      nalloc := h.nalloc
      held := fun p hp => ?_ } ?_ ⟨rfl, rfl⟩ (by rw [if_neg hroom])
  · rw [hother p hne]
    exact h.full p hp hne
  · rw [show (Palloc.pushSlot l).2.last = l.last from rfl, hlast]
    exact hlt
  · by_cases hne : p = l.last
    · rw [hne, hlast]
      exact Nat.succ_pos _
    · rw [hother p hne]
      exact hheld p hp hne
  · obtain ⟨front, hfront, hne⟩ := h.front
    have hsame : front.flatMap (fun p => (Palloc.pushSlot l).2.slots p 0) =
        front.flatMap fun p => l.slots p 0 := by
      apply List.flatMap_congr
      intro p hp
      have hp' := hother p (hne p hp)
      exact slots_congr hsize (congrArg Part.elts hp') (congrArg Part.nelts hp') 0
    rw [Lst.elements, Lst.elements, hfront, List.flatMap_append, List.flatMap_append, hsame]
    simp only [List.flatMap_singleton]
    rw [slots_succ hsize (by rw [hlast]) (by rw [hlast]), List.append_assoc]
    rfl

/-- A new part behind a full last one. -/
lemma Lst.Ok.link (h : l.Ok ps) (hfull : (l.parts l.last).nelts = l.nalloc) (elts : ℕ) :
    (linkPart { l with count := l.count + 1 } l.count elts).Linked (ps ++ [l.count]) ∧
      (∀ p ∈ 0 :: ps, ((linkPart { l with count := l.count + 1 } l.count elts).parts p).elts =
          (l.parts p).elts ∧
        ((linkPart { l with count := l.count + 1 } l.count elts).parts p).nelts =
          (l.parts p).nelts) ∧
      (linkPart { l with count := l.count + 1 } l.count elts).parts l.count = ⟨elts, 0, none⟩ := by
  generalize hl' : linkPart { l with count := l.count + 1 } l.count elts = l'
  have hnew : ∀ p ∈ 0 :: ps, p ≠ l.count := fun p hp => (h.named p hp).ne
  have hcount : l'.parts l.count = ⟨elts, 0, none⟩ := by
    have hlast := (hnew l.last h.last_mem).symm
    simp [← hl', linkPart, Lst.setPart, hlast]
  have hlast : l'.parts l.last = { l.parts l.last with next := some l.count } := by
    have hne := hnew l.last h.last_mem
    simp [← hl', linkPart, Lst.setPart, hne]
  have hother : ∀ p ∈ 0 :: ps, p ≠ l.last → l'.parts p = l.parts p := by
    intro p hp hne
    simp [← hl', linkPart, Lst.setPart, hne, hnew p hp]
  have hsame : ∀ p ∈ 0 :: ps, (l'.parts p).elts = (l.parts p).elts ∧
      (l'.parts p).nelts = (l.parts p).nelts := by
    intro p hp
    by_cases hne : p = l.last
    · rw [hne, hlast]
      exact ⟨rfl, rfl⟩
    · rw [hother p hp hne]
      exact ⟨rfl, rfl⟩
  have hfields : l'.last = l.count ∧ l'.count = l.count + 1 ∧ l'.nalloc = l.nalloc := by
    rw [← hl']
    exact ⟨rfl, rfl, rfl⟩
  refine ⟨⟨?_, ?_, ?_, ?_, ?_, ?_, hfields.2.2 ▸ h.nalloc⟩, hsame, hcount⟩
  · refine chain_concat h.chain h.nodup ?_ (congrArg Part.next hcount) ?_
    · rw [← h.last, hlast]
    · intro p hp hne
      rw [hother p hp (h.last ▸ hne)]
  · rw [← List.cons_append, List.nodup_append]
    refine ⟨h.nodup, List.nodup_singleton _, ?_⟩
    intro p hp q hq
    rw [List.mem_singleton.mp hq]
    exact hnew p hp
  · intro p hp
    rw [hfields.2.1]
    rcases List.mem_append.mp (List.cons_append ▸ hp) with hp | hp
    · exact Nat.lt_succ_of_lt (h.named p hp)
    · rw [List.mem_singleton.mp hp]
      exact Nat.lt_succ_self _
  · rw [hfields.1, List.getLastD_concat]
  · intro p hp hne
    rw [hfields.1] at hne
    rw [hfields.2.2]
    rcases List.mem_append.mp (List.cons_append ▸ hp) with hp | hp
    · rw [(hsame p hp).2]
      by_cases hp' : p = l.last
      · rw [hp', hfull]
      · exact h.full p hp hp'
    · exact absurd (List.mem_singleton.mp hp) hne
  · rw [hfields.1, hcount]
    exact Nat.zero_le _

/-- The iteration sees nothing of a part that is not linked. -/
lemma Lst.Ok.unlinked (h : l.Ok ps) (f : Part → Part) :
    ({ l with count := l.count + 1 }.setPart l.count f).Ok ps ∧
      ({ l with count := l.count + 1 }.setPart l.count f).elements ps = l.elements ps := by
  generalize hl' : { l with count := l.count + 1 }.setPart l.count f = l'
  have hsame : ∀ p ∈ 0 :: ps, l'.parts p = l.parts p := by
    intro p hp
    simp [← hl', Lst.setPart, (h.named p hp).ne]
  have hfields : l'.last = l.last ∧ l'.count = l.count + 1 ∧ l'.nalloc = l.nalloc ∧
      l'.size = l.size := by
    rw [← hl']
    exact ⟨rfl, rfl, rfl, rfl⟩
  obtain ⟨hlast, hcount, hnalloc, hsize⟩ := hfields
  refine ⟨⟨⟨?_, h.nodup, ?_, hlast ▸ h.last, ?_, ?_, hnalloc ▸ h.nalloc⟩, ?_⟩, ?_⟩
  · exact chain_congr h.chain fun p hp => congrArg Part.next (hsame p hp)
  · intro p hp
    rw [hcount]
    exact Nat.lt_succ_of_lt (h.named p hp)
  · intro p hp hne
    rw [hsame p hp, hnalloc]
    exact h.full p hp (hlast ▸ hne)
  · rw [hlast, hsame l.last h.last_mem, hnalloc]
    exact h.room
  · intro p hp
    rw [hsame p (.tail _ hp)]
    exact h.held p hp
  · apply List.flatMap_congr
    intro p hp
    exact slots_congr hsize (congrArg Part.elts (hsame p hp)) (congrArg Part.nelts (hsame p hp)) 0

/-- A push on the list after a part was linked. -/
lemma ListPushed.of_link {l₁ : Lst} {a : ℕ} {m' : PoolMem} {l' : Lst}
    (h : ListPushed l₁ (ps ++ [l.count]) (some a, m', l'))
    (hsame : l₁.elements (ps ++ [l.count]) = l.elements ps)
    (hfixed : l₁.size = l.size ∧ l₁.nalloc = l.nalloc)
    (hroom : (l₁.parts l₁.last).nelts ≠ l₁.nalloc) (hfull : (l.parts l.last).nelts = l.nalloc) :
    ListPushed l ps (some a, m', l') := by
  cases h with
  | pushed v ok same fixed chain =>
    refine .pushed v ok (hsame ▸ same) ⟨fixed.1.trans hfixed.1, fixed.2.trans hfixed.2⟩ ?_
    rw [if_neg hroom] at chain
    rw [if_pos hfull]
    exact chain

/-- `list_push`. -/
theorem listPush_spec (h : l.Ok ps) (m : PoolMem) : ListPushed l ps (listPush m l) := by
  unfold listPush
  by_cases hfull : (l.parts l.last).nelts = l.nalloc
  · rw [if_pos hfull]
    split
    · exact .failed h rfl ⟨rfl, rfl⟩
    · simp only
      split
      · -- the second allocation failed, the new part is never linked
        obtain ⟨hok, hsame⟩ := h.unlinked fun part => { part with elts := 0 }
        exact .failed hok hsame ⟨rfl, rfl⟩
      · rename_i elts m' _
        obtain ⟨hlinked, hsame, hnew⟩ := h.link hfull elts
        have hfixed : (linkPart { l with count := l.count + 1 } l.count elts).size = l.size ∧
            (linkPart { l with count := l.count + 1 } l.count elts).nalloc = l.nalloc ∧
            (linkPart { l with count := l.count + 1 } l.count elts).last = l.count :=
          ⟨rfl, rfl, rfl⟩
        generalize linkPart { l with count := l.count + 1 } l.count elts = l₁ at *
        obtain ⟨hsize, hnalloc, hlast⟩ := hfixed
        have hempty : (l₁.parts l.count).nelts = 0 := congrArg Part.nelts hnew
        have hpos := h.nalloc.1
        have hroom : (l₁.parts l₁.last).nelts ≠ l₁.nalloc := by
          rw [hlast, hnalloc, hempty]
          exact hpos.ne
        refine (hlinked.pushSlot hroom ?_ m').of_link ?_ ⟨hsize, hnalloc⟩ hroom hfull
        · intro p hp hne
          rcases List.mem_append.mp hp with hp | hp
          · rw [(hsame p (.tail _ hp)).2]
            exact h.held p hp
          · exact absurd ((List.mem_singleton.mp hp).trans hlast.symm) hne
        · have hslots : l₁.slots l.count 0 = [] := slots_of_le hempty.le
          have hfront : (0 :: ps).flatMap (fun p => l₁.slots p 0) =
              (0 :: ps).flatMap fun p => l.slots p 0 := by
            apply List.flatMap_congr
            intro p hp
            exact slots_congr hsize (hsame p hp).1 (hsame p hp).2 0
          rw [Lst.elements, Lst.elements, ← List.cons_append, List.flatMap_append, hfront,
            List.flatMap_singleton, hslots, List.append_nil]
  · rw [if_neg hfull]
    exact h.toLinked.pushSlot hfull (fun p hp _ => h.held p hp) m

/-! ## Live memory -/

/-- `palloc` frees nothing but an allocation of its own. -/
lemma palloc_live (m : PoolMem) (n : ℕ) {r : Region} (hr : r ∈ m.heap.live) :
    r ∈ (palloc m n).2.heap.live := by
  unfold palloc
  split
  · exact pallocSmall_live m n true hr
  · unfold pallocLarge Heap.alloc
    rcases memalign_spec m.heap alignment n with ⟨s, hs⟩ | ⟨p, s, hf, hs⟩
    · rw [hs]
      exact hr
    · rw [hs]
      have hne : r.start ≠ p := (hf.2.2.2 r hr).start_ne.symm
      simp only
      split
      · exact .tail _ hr
      · have hcell := pallocSmall_live { m with heap := ⟨⟨p, n⟩ :: m.heap.live, s⟩ }
          sizeofPoolLarge true (r := r) (.tail _ hr)
        unfold newCell
        split
        · rename_i heq
          rw [heq] at hcell
          exact List.mem_filter.mpr ⟨hcell, by simpa using hne⟩
        · rename_i heq
          rw [heq] at hcell
          exact hcell

/-- `list_push` gives no memory back. -/
lemma listPush_live (m : PoolMem) (l : Lst) {r : Region} (hr : r ∈ m.heap.live) :
    r ∈ (listPush m l).2.1.heap.live := by
  have hpart := palloc_live m sizeofListPart hr
  unfold listPush
  split
  · split
    · rename_i heq
      rw [heq] at hpart
      exact hpart
    · rename_i m₁ heq
      rw [heq] at hpart
      have helts := palloc_live m₁ (l.nalloc * l.size % 2 ^ 64) hpart
      simp only
      split
      · rename_i heq
        rw [heq] at helts
        exact helts
      · rename_i heq
        rw [heq] at helts
        exact helts
  · exact hr

/-! ## Runs -/

/-- A list, and what its pushes answered so far. -/
structure Pushes where
  list : Lst
  answers : List (Option ℕ)

/-- A push on the pool `m`. -/
def Pushes.push (s : Pushes) (m : PoolMem) : Pushes :=
  ⟨(listPush m s.list).2.2, s.answers ++ [(listPush m s.list).1]⟩

/-- A sequence of pushes, each with the pool as the program left it before the call. -/
def pushes (l : Lst) (ms : List PoolMem) : Pushes := ms.foldl Pushes.push ⟨l, []⟩

/-- `list_init`. -/
lemma listInit_ok {m m' : PoolMem} {junk : ℕ → Part} {n size : ℕ} (hn : 0 < n) (hn' : n < 2 ^ 32)
    (hl : listInit m junk n size = (some l, m')) : l.Ok [] ∧ l.elements [] = [] := by
  unfold listInit at hl
  split at hl
  · simp at hl
  · simp only [Prod.mk.injEq, Option.some.injEq] at hl
    obtain ⟨rfl, -⟩ := hl
    refine ⟨⟨⟨?_, by simp, by simp, rfl, ?_, ?_, hn, hn'⟩, by simp⟩, ?_⟩
    · simp [Chain]
    · intro p hp hne
      exact absurd (List.mem_singleton.mp hp) hne
    · simp
    · simp [Lst.elements, Lst.slots]

/-- The pushes keep a list in order, whose elements are what they answered. -/
lemma pushes_ok (h : l.Ok ps) {answers : List (Option ℕ)}
    (hpushed : (l.elements ps).map Visit.addr = answers.filterMap id) (ms : List PoolMem) :
    ∃ ps', (ms.foldl Pushes.push ⟨l, answers⟩).list.Ok ps' ∧
      ((ms.foldl Pushes.push ⟨l, answers⟩).list.elements ps').map Visit.addr =
        (ms.foldl Pushes.push ⟨l, answers⟩).answers.filterMap id := by
  induction ms generalizing l ps answers with
  | nil => exact ⟨ps, h, hpushed⟩
  | cons m ms ih =>
    have hpush := listPush_spec h m
    rw [List.foldl_cons, Pushes.push]
    simp only
    generalize listPush m l = r at hpush
    cases hpush with
    | failed ok same _ =>
      exact ih ok (by simp [same, hpushed])
    | pushed v ok same _ _ =>
      exact ih ok (by simp [same, hpushed])

/-- The elements are read in different slots, all below the counts of their parts. -/
lemma elements_slots (hnodup : (0 :: ps).Nodup) :
    ((l.elements ps).map fun v => (v.part, v.i)).Nodup ∧
      ∀ v ∈ l.elements ps, v.i < (l.parts v.part).nelts := by
  have hslot : ∀ p, ∀ v ∈ l.slots p 0, v.part = p ∧ v.i < (l.parts p).nelts := by
    intro p v hv
    obtain ⟨j, hj, rfl⟩ := List.mem_map.mp hv
    obtain ⟨-, hj⟩ := List.mem_range'_1.mp hj
    exact ⟨rfl, by simpa using hj⟩
  constructor
  · rw [Lst.elements, List.map_flatMap, List.nodup_flatMap]
    refine ⟨fun p _ => ?_, hnodup.imp fun {p q} hne => ?_⟩
    · have hpairs : (l.slots p 0).map (fun v => (v.part, v.i)) =
          (List.range' 0 ((l.parts p).nelts - 0)).map fun j => (p, j) := by
        simp [Lst.slots]
      rw [hpairs]
      exact List.Nodup.map (fun i j hij => (Prod.mk.inj hij).2) List.nodup_range'
    · intro x hp hq
      obtain ⟨v, hv, rfl⟩ := List.mem_map.mp hp
      obtain ⟨w, hw, hvw⟩ := List.mem_map.mp hq
      apply hne
      rw [← (hslot p v hv).1, ← (hslot q w hw).1]
      exact (Prod.mk.inj hvw).1.symm
  · intro v hv
    obtain ⟨p, -, hv⟩ := List.mem_flatMap.mp hv
    obtain ⟨rfl, hlt⟩ := hslot p v hv
    exact hlt

/-- The iteration reads the elements pushed so far, each once and in order, and what it reads
stays where it is while more is pushed. -/
theorem list_iteration {m₀ m₁ : PoolMem} {junk : ℕ → Part} {n size : ℕ} {l : Lst} (hn : 0 < n)
    (hn' : n < 2 ^ 32) (hmade : listCreate m₀ junk n size = (some l, m₁) ∨
      listInit m₀ junk n size = (some l, m₁)) (ms : List PoolMem) :
    ∃ visits, (∀ fuel, visits.length < fuel → iterate (pushes l ms).list fuel = some visits) ∧
      visits.map Visit.addr = (pushes l ms).answers.filterMap id ∧
      (visits.map fun v => (v.part, v.i)).Nodup ∧
      (∀ v ∈ visits, v.i < ((pushes l ms).list.parts v.part).nelts) ∧
      ∀ m, (∀ r ∈ m.heap.live, r ∈ (listPush m (pushes l ms).list).2.1.heap.live) ∧
        ∃ new : List Visit, new.map Visit.addr = (listPush m (pushes l ms).list).1.toList ∧
          ∀ fuel, (visits ++ new).length < fuel →
            iterate (listPush m (pushes l ms).list).2.2 fuel = some (visits ++ new) := by
  have hinit : ∃ m, listInit m junk n size = (some l, m₁) := by
    rcases hmade with hmade | hmade
    · unfold listCreate at hmade
      split at hmade
      · simp at hmade
      · exact ⟨_, hmade⟩
    · exact ⟨m₀, hmade⟩
  obtain ⟨m, hinit⟩ := hinit
  obtain ⟨hok, hempty⟩ := listInit_ok hn hn' hinit
  have hrun : ∃ ps, (pushes l ms).list.Ok ps ∧ ((pushes l ms).list.elements ps).map Visit.addr =
      (pushes l ms).answers.filterMap id := pushes_ok hok (by simp [hempty]) ms
  obtain ⟨ps, hok, hpushed⟩ := hrun
  obtain ⟨hslots, hbelow⟩ := elements_slots (l := (pushes l ms).list) hok.nodup
  refine ⟨_, fun fuel => hok.iterate, hpushed, hslots, hbelow, fun m => ?_⟩
  refine ⟨fun r hr => listPush_live m _ hr, ?_⟩
  have hpush := listPush_spec hok m
  generalize listPush m (pushes l ms).list = r at hpush
  cases hpush with
  | failed ok same _ =>
    refine ⟨[], rfl, fun fuel hfuel => ?_⟩
    rw [List.append_nil, ← same] at hfuel ⊢
    exact ok.iterate hfuel
  | pushed v ok same _ _ =>
    refine ⟨[v], rfl, fun fuel hfuel => ?_⟩
    rw [← same] at hfuel ⊢
    exact ok.iterate hfuel

/-- A pool of 96 bytes at `base`, used up to `last`. -/
def poolUpTo (base last : ℕ) : PoolMem :=
  ⟨⟨[⟨base, 96⟩], []⟩, ⟨[⟨⟨base, last, base + 96⟩, 0⟩], 40, 0, []⟩⟩

/-- Of five pushes the third fails at its first allocation and the fourth at its second. -/
theorem list_iteration_failures :
    ∃ l visits, listInit (poolUpTo 4096 4152) (fun _ => ⟨7, 7, some 7⟩) 1 8 =
        (some l, poolUpTo 4096 4160) ∧
      iterate (pushes l [poolUpTo 4096 4160, poolUpTo 4096 4160, poolUpTo 4096 4176,
        poolUpTo 4096 4168, poolUpTo 8192 8256]).list 4 = some visits ∧
      visits.map Visit.addr = [4152, 4184, 8280] := by
  obtain ⟨visits, hiter, hpushed, -⟩ := list_iteration (by decide) (by decide)
    (.inr (rfl : listInit (poolUpTo 4096 4152) (fun _ => ⟨7, 7, some 7⟩) 1 8 = (some _, _)))
    [poolUpTo 4096 4160, poolUpTo 4096 4160, poolUpTo 4096 4176, poolUpTo 4096 4168,
      poolUpTo 8192 8256]
  have hanswers : visits.map Visit.addr = [4152, 4184, 8280] := hpushed.trans (by rfl)
  refine ⟨_, visits, rfl, hiter 4 ?_, hanswers⟩
  rw [← List.length_map Visit.addr, hanswers]
  decide

end Libcn.Palloc
