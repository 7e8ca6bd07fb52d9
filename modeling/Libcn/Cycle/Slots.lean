import Libcn.Cycle.Mirror

/-!
# Slots that are freed and handed out

What happens to each part of the invariant when a slot is put on the free list or taken from it.
-/

namespace Libcn.Cycle

open Libcn.Lib Libcn.Lib.Links Libcn.Queue Libcn.Rbtree Libcn.Timer

variable {n : ℕ} {connection connection' : Fin n → Connection n}
  {event event' : EventId n → Event n} {c : Fin n}

/-! ## Freeing -/

/-- The connection of the slot `c` loses its descriptor, the others keep theirs. -/
def Frees (connection connection' : Fin n → Connection n) (c : Fin n) : Prop :=
  (connection' c).fd = -1 ∧ ∀ d, d ≠ c → (connection' d).fd = (connection d).fd

lemma Frees.inUse (h : Frees connection connection' c) (d : Fin n) :
    InUse connection' d ↔ d ≠ c ∧ InUse connection d := by
  by_cases hd : d = c
  · subst hd
    simp [InUse, h.1]
  · rw [InUse, InUse, h.2 d hd]
    simp [hd]

/-- A slot in use goes to the front of the free list. -/
lemma Slots.release {head : Option (Fin n)} {count : ℕ} {free : List (Fin n)}
    (h : Slots connection event head count free) (hc : InUse connection c)
    (hc' : connection' = Function.update connection c
      { connection c with data := head, fd := -1 }) :
    Slots connection' event (some c) (count + 1) (c :: free) := by
  have hnot : c ∉ free := fun e => (h.mem_free c).mp e hc
  have hself : connection' c = { connection c with data := head, fd := -1 } := by
    rw [hc', Function.update_self]
  have hother : ∀ d, d ≠ c → connection' d = connection d := by
    intro d hd
    rw [hc', Function.update_of_ne hd]
  have hfrees : Frees connection connection' c :=
    ⟨by rw [hself], fun d hd => by rw [hother d hd]⟩
  constructor
  · refine ⟨rfl, ?_⟩
    rw [hself]
    refine h.chain.congr fun d hd => ?_
    rw [hother d fun e => hnot (e ▸ hd)]
  · exact List.nodup_cons.mpr ⟨hnot, h.nodup⟩
  · rw [List.length_cons, h.length]
  · intro d
    rw [hfrees.inUse, List.mem_cons, h.mem_free]
    tauto
  · intro d
    by_cases hd : d = c
    · subst hd
      rw [hself]
      exact h.read d
    · rw [hother d hd]
      exact h.read d
  · intro d
    by_cases hd : d = c
    · subst hd
      rw [hself]
      exact h.write d
    · rw [hother d hd]
      exact h.write d
  · intro d e hd hfd
    obtain ⟨hdc, hd⟩ := (hfrees.inUse d).mp hd
    rw [hother d hdc] at hfd
    by_cases he : e = c
    · subst he
      rw [hself] at hfd
      exact absurd hfd hd
    · rw [hother e he] at hfd
      exact h.fd d e hd hfd
  · intro d hd
    obtain ⟨hdc, hd⟩ := (hfrees.inUse d).mp hd
    rw [hother d hdc]
    exact h.shared d hd
  · exact fun d s hd => h.data d s ((hfrees.inUse d).mp hd).2
  · exact fun d s hd => h.instanceBit d s ((hfrees.inUse d).mp hd).2

/-- The timers of a freed slot are not armed. -/
lemma mirrors_release {T : Timers (EventId n)} (h : Mirrors T fun ev => InUse connection ev.1)
    (hfrees : Frees connection connection' c) (hset : ∀ s, T.timerSet (c, s) = false) :
    Mirrors T fun ev => InUse connection' ev.1 := by
  refine h.congr fun ev => ?_
  show _ ∧ _ ↔ InUse connection' ev.1 ∧ _
  rw [hfrees.inUse]
  by_cases hev : ev.1 = c
  · have := hset ev.2
    rw [← hev] at this
    simp [this]
  · simp [hev]

/-- The nodes of a freed slot are in no queue. -/
lemma Queues.release {links : Links (Node n)} {count : ℕ} {lists : QueueId → List (Node n)}
    (h : Queues links connection event count lists) (hfrees : Frees connection connection' c)
    (hposted : ∀ s, (event (c, s)).posted = false) (hreusable : (connection c).reusable = false)
    (hevent : ∀ ev, (event' ev).posted = (event ev).posted)
    (hkeep : ∀ d, (connection' d).reusable = (connection d).reusable) :
    Queues links connection' event' count lists := by
  refine h.congr fun x => ?_
  cases x with
  | head q => rfl
  | event ev =>
    rw [Flagged, Flagged, hfrees.inUse, hevent]
    by_cases hev : ev.1 = c
    · have := hposted ev.2
      rw [← hev] at this
      simp [this]
    · simp [hev]
  | connection d =>
    rw [Flagged, Flagged, hfrees.inUse, hkeep]
    by_cases hd : d = c
    · subst hd
      simp [hreusable]
    · simp [hd]

/-- The descriptor of a freed slot is closed, and with it goes its entry. -/
lemma Interests.release {kernel : Kernel n} (h : Interests kernel connection event)
    (hfds : ∀ c d, InUse connection c → (connection c).fd = (connection d).fd → c = d)
    (hc : InUse connection c) (hfrees : Frees connection connection' c)
    (hevent : ∀ ev : EventId n, ev.1 ≠ c → (event' ev).active = (event ev).active ∧
      (event' ev).instanceBit = (event ev).instanceBit) :
    Interests (kernel.close (connection c).fd) connection' event' := by
  have hne : ∀ d, d ≠ c → (connection d).fd ≠ (connection c).fd :=
    fun d hd e => hd (hfds c d hc e.symm).symm
  constructor
  · intro d hd
    obtain ⟨hdc, hd⟩ := (hfrees.inUse d).mp hd
    rw [hfrees.2 d hdc, Kernel.isOpen_close, if_neg (hne d hdc)]
    exact h.isOpen d hd
  · intro d hd
    obtain ⟨hdc, hd⟩ := (hfrees.inUse d).mp hd
    have := h.registered d hd
    rw [hfrees.2 d hdc, Kernel.interest_close, if_neg (hne d hdc)]
    unfold Registered at this ⊢
    rwa [(hevent (d, .read) hdc).1, (hevent (d, .write) hdc).1, (hevent (d, .read) hdc).2]
  · intro s hs
    have hsc : s ≠ (connection c).fd := by
      rintro rfl
      exact hs (by simp)
    rw [Kernel.interest_close, if_neg hsc] at hs
    obtain ⟨d, hd, rfl⟩ := h.owned s hs
    have hdc : d ≠ c := fun e => hsc (e ▸ rfl)
    exact ⟨d, (hfrees.inUse d).mpr ⟨hdc, hd⟩, hfrees.2 d hdc⟩
  · rw [Kernel.isOpen_close, h.invalid, ite_self]

/-! ## Handing out -/

/-- The connection of the free slot `c` gets the descriptor `s`, the others keep theirs. -/
def Takes (connection connection' : Fin n → Connection n) (c : Fin n) (s : ℤ) : Prop :=
  s ≠ -1 ∧ ¬ InUse connection c ∧ (connection' c).fd = s ∧
    ∀ d, d ≠ c → (connection' d).fd = (connection d).fd

lemma Takes.inUse {s : ℤ} (h : Takes connection connection' c s) (d : Fin n) :
    InUse connection' d ↔ d = c ∨ InUse connection d := by
  by_cases hd : d = c
  · subst hd
    simp [InUse, h.2.2.1, h.1]
  · rw [InUse, InUse, h.2.2.2 d hd]
    simp [hd]

/-- The first slot of the free list is taken. -/
lemma Slots.take {head : Option (Fin n)} {count : ℕ} {free : List (Fin n)} {s : ℤ}
    (h : Slots connection event head count (c :: free))
    (htakes : Takes connection connection' c s)
    (hs : ∀ d, InUse connection d → (connection d).fd ≠ s)
    (hother : ∀ d, d ≠ c → connection' d = connection d)
    (hread : (connection' c).read = (c, .read)) (hwrite : (connection' c).write = (c, .write))
    (hshared : (connection' c).shared = false)
    (hevent : ∀ ev : EventId n, ev.1 ≠ c → event' ev = event ev)
    (hdata : ∀ i, (event' (c, i)).data = some c)
    (hbit : ∀ i, (event' (c, i)).instanceBit = (event' (c, .read)).instanceBit) :
    Slots connection' event' (connection c).data (count - 1) free := by
  obtain ⟨hnot, hnodup⟩ := List.nodup_cons.mp h.nodup
  have hne : ∀ d ∈ free, d ≠ c := fun d hd e => hnot (e ▸ hd)
  constructor
  · refine h.chain.2.congr fun d hd => ?_
    rw [hother d (hne d hd)]
  · exact hnodup
  · rw [← h.length, List.length_cons, Nat.add_sub_cancel]
  · intro d
    have := h.mem_free d
    rw [List.mem_cons] at this
    rw [htakes.inUse]
    by_cases hd : d = c
    · subst hd
      simp [hnot]
    · simpa [hd] using this
  · intro d
    by_cases hd : d = c
    · rw [hd, hread]
    · rw [hother d hd]
      exact h.read d
  · intro d
    by_cases hd : d = c
    · rw [hd, hwrite]
    · rw [hother d hd]
      exact h.write d
  · intro d e hd hfd
    by_cases hdc : d = c
    · by_cases hec : e = c
      · rw [hdc, hec]
      · rw [hdc, htakes.2.2.1, htakes.2.2.2 e hec] at hfd
        have heu : InUse connection e := fun h => htakes.1 (hfd.trans h)
        exact absurd hfd.symm (hs e heu)
    · have hdu := ((htakes.inUse d).mp hd).resolve_left hdc
      by_cases hec : e = c
      · rw [hec, htakes.2.2.1, htakes.2.2.2 d hdc] at hfd
        exact absurd hfd (hs d hdu)
      · rw [htakes.2.2.2 d hdc, htakes.2.2.2 e hec] at hfd
        exact h.fd d e hdu hfd
  · intro d hd
    by_cases hdc : d = c
    · rw [hdc, hshared]
    · rw [hother d hdc]
      exact h.shared d (((htakes.inUse d).mp hd).resolve_left hdc)
  · intro d i hd
    by_cases hdc : d = c
    · rw [hdc, hdata]
    · rw [hevent (d, i) hdc]
      exact h.data d i (((htakes.inUse d).mp hd).resolve_left hdc)
  · intro d i hd
    by_cases hdc : d = c
    · rw [hdc, hbit]
    · rw [hevent (d, i) hdc, hevent (d, .read) hdc]
      exact h.instanceBit d i (((htakes.inUse d).mp hd).resolve_left hdc)

/-- The timers of a slot that is taken are not armed. -/
lemma mirrors_take {T T' : Timers (EventId n)} {s : ℤ}
    (h : Mirrors T fun ev => InUse connection ev.1) (htakes : Takes connection connection' c s)
    (htree : T'.tree = (T.tree.zeroNode (c, .read)).zeroNode (c, .write))
    (hset : ∀ ev : EventId n, T'.timerSet ev = if ev.1 = c then false else T.timerSet ev) :
    Mirrors T' fun ev => InUse connection' ev.1 := by
  have hfree : ∀ i, ¬ (InUse connection (c, i).1 ∧ T.timerSet (c, i) = true) :=
    fun i hi => htakes.2.1 hi.1
  unfold Mirrors
  rw [htree]
  refine ((h.zeroNode (hfree .read)).zeroNode (hfree .write)).congr fun ev => ?_
  show InUse connection ev.1 ∧ _ ↔ InUse connection' ev.1 ∧ _
  rw [htakes.inUse, hset]
  by_cases hev : ev.1 = c
  · rw [hev]
    simp [htakes.2.1]
  · simp [hev]

/-- The nodes of a slot that is taken are in no queue. -/
lemma Queues.take {links links' : Links (Node n)} {count : ℕ} {lists : QueueId → List (Node n)}
    {s : ℤ} (h : Queues links connection event count lists)
    (htakes : Takes connection connection' c s)
    (hother : ∀ d, d ≠ c → connection' d = connection d)
    (hreusable : (connection' c).reusable = false)
    (hevent : ∀ ev : EventId n, ev.1 ≠ c → event' ev = event ev)
    (hposted : ∀ i, (event' (c, i)).posted = false)
    (hr : Rings links' (Cycle.rings lists)) : Queues links' connection' event' count lists := by
  refine { h with rings := hr, flagged := fun x => ?_ }
  rw [← h.flagged]
  cases x with
  | head q => rfl
  | event ev =>
    rw [Flagged, Flagged, htakes.inUse]
    by_cases hev : ev.1 = c
    · have hp := hposted ev.2
      have hnot := htakes.2.1
      rw [← hev] at hp hnot
      simp [hp, hnot]
    · simp [hev, hevent ev hev]
  | connection d =>
    rw [Flagged, Flagged, htakes.inUse]
    by_cases hd : d = c
    · subst hd
      simp [hreusable, htakes.2.1]
    · simp [hd, hother d hd]

/-- An open descriptor without an entry is given to a slot whose events are not active. -/
lemma Interests.take {kernel : Kernel n} {s : ℤ} (h : Interests kernel connection event)
    (htakes : Takes connection connection' c s) (hopen : kernel.isOpen s = true)
    (hnone : kernel.interest s = none)
    (hevent : ∀ ev : EventId n, ev.1 ≠ c → event' ev = event ev)
    (hactive : ∀ i, (event' (c, i)).active = false) :
    Interests kernel connection' event' := by
  constructor
  · intro d hd
    by_cases hdc : d = c
    · rw [hdc, htakes.2.2.1, hopen]
    · rw [htakes.2.2.2 d hdc]
      exact h.isOpen d (((htakes.inUse d).mp hd).resolve_left hdc)
  · intro d hd
    by_cases hdc : d = c
    · subst hdc
      rw [htakes.2.2.1, hnone]
      simp [Registered, hactive]
    · rw [htakes.2.2.2 d hdc, hevent (d, .read) hdc, hevent (d, .write) hdc]
      exact h.registered d (((htakes.inUse d).mp hd).resolve_left hdc)
  · intro s' hs'
    obtain ⟨d, hd, rfl⟩ := h.owned s' hs'
    have hdc : d ≠ c := fun e => htakes.2.1 (e ▸ hd)
    exact ⟨d, (htakes.inUse d).mpr (.inr hd), htakes.2.2.2 d hdc⟩
  · exact h.invalid

end Libcn.Cycle
