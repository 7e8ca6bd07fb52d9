import Libcn.Cycle.Operations
import Libcn.Timer.Mirror

/-!
# What ties the parts of a worker together

The invariant of a worker, in four parts: the free list and the slots in use, the timers, the
queues, and the interest list of `epoll`. Each part is about the fields it reads only, so that a
write elsewhere keeps it by definition.
-/

namespace Libcn.Cycle

open Libcn.Lib Libcn.Lib.Links Libcn.Queue Libcn.Rbtree Libcn.Timer

variable {n : ℕ}

/-- The slot is in use. -/
def InUse (connection : Fin n → Connection n) (c : Fin n) : Prop := (connection c).fd ≠ -1

instance (connection : Fin n → Connection n) (c : Fin n) : Decidable (InUse connection c) :=
  inferInstanceAs (Decidable (_ ≠ _))

/-! ## Slots -/

/-- Following `data` from a pointer visits the slots `l` and ends with NULL. -/
def Chain (connection : Fin n → Connection n) : Option (Fin n) → List (Fin n) → Prop
  | p, [] => p = none
  | p, c :: l => p = some c ∧ Chain connection (connection c).data l

/-- The slots not in use are those of the free list, whose length is `free_connection_n`; each
slot has the events it was built with; and a slot in use has a descriptor of its own, and events
that point to it and have equal instance bits. -/
structure Slots (connection : Fin n → Connection n) (event : EventId n → Event n)
    (freeConnections : Option (Fin n)) (freeConnectionN : ℕ) (free : List (Fin n)) : Prop where
  chain : Chain connection freeConnections free
  nodup : free.Nodup
  length : free.length = freeConnectionN
  mem_free : ∀ c, c ∈ free ↔ ¬ InUse connection c
  read : ∀ c, (connection c).read = (c, .read)
  write : ∀ c, (connection c).write = (c, .write)
  fd : ∀ c d, InUse connection c → (connection c).fd = (connection d).fd → c = d
  shared : ∀ c, InUse connection c → (connection c).shared = false
  data : ∀ c s, InUse connection c → (event (c, s)).data = some c
  instanceBit : ∀ c s, InUse connection c →
    (event (c, s)).instanceBit = (event (c, .read)).instanceBit

/-- A list of free slots is read the same way after writes to other slots. -/
lemma Chain.congr {connection connection' : Fin n → Connection n} {p : Option (Fin n)}
    {l : List (Fin n)} (h : Chain connection p l)
    (hl : ∀ c ∈ l, (connection' c).data = (connection c).data) : Chain connection' p l := by
  induction l generalizing p with
  | nil => exact h
  | cons c l ih =>
    refine ⟨h.1, ?_⟩
    rw [hl c (.head _)]
    exact ih h.2 fun d hd => hl d (.tail _ hd)

section Slots

variable {connection : Fin n → Connection n} {event event' : EventId n → Event n}
  {freeConnections : Option (Fin n)} {freeConnectionN : ℕ} {free : List (Fin n)}

/-- Writes to events that keep `data` and the instance bit. -/
lemma Slots.events (h : Slots connection event freeConnections freeConnectionN free)
    (hev : ∀ ev, (event' ev).data = (event ev).data ∧
      (event' ev).instanceBit = (event ev).instanceBit) :
    Slots connection event' freeConnections freeConnectionN free :=
  { h with
    data := fun c s hc => (hev (c, s)).1.trans (h.data c s hc)
    instanceBit := fun c s hc => by rw [(hev _).2, (hev _).2, h.instanceBit c s hc] }

/-- Writes to connections that keep what the slots are about; `data` belongs to the free list on
free slots only. -/
lemma Slots.connections {connection' : Fin n → Connection n}
    (h : Slots connection event freeConnections freeConnectionN free)
    (hc : ∀ c, (InUse connection c ∨ (connection' c).data = (connection c).data) ∧
      (connection' c).read = (connection c).read ∧ (connection' c).write = (connection c).write ∧
      (connection' c).fd = (connection c).fd ∧ (connection' c).shared = (connection c).shared) :
    Slots connection' event freeConnections freeConnectionN free := by
  have huse : ∀ c, InUse connection' c ↔ InUse connection c := by
    intro c
    rw [InUse, InUse, (hc c).2.2.2.1]
  constructor
  · exact h.chain.congr fun c hf => (hc c).1.resolve_left ((h.mem_free c).mp hf)
  · exact h.nodup
  · exact h.length
  · intro c
    rw [h.mem_free, huse]
  · exact fun c => (hc c).2.1.trans (h.read c)
  · exact fun c => (hc c).2.2.1.trans (h.write c)
  · intro c d hu hfd
    rw [(hc c).2.2.2.1, (hc d).2.2.2.1] at hfd
    exact h.fd c d ((huse c).mp hu) hfd
  · exact fun c hu => (hc c).2.2.2.2.trans (h.shared c ((huse c).mp hu))
  · exact fun c s hu => h.data c s ((huse c).mp hu)
  · exact fun c s hu => h.instanceBit c s ((huse c).mp hu)

end Slots

/-! ## Queues -/

/-- The nodes a queue is made for. -/
def QueueId.Takes : QueueId → Node n → Prop
  | .postedAccept, .event _ => True
  | .posted, .event _ => True
  | .reusable, .connection _ => True
  | _, _ => False

/-- The flag of a node of a slot in use says that it is in a queue. -/
def Flagged (connection : Fin n → Connection n) (event : EventId n → Event n) : Node n → Prop
  | .head _ => False
  | .event ev => InUse connection ev.1 ∧ (event ev).posted = true
  | .connection c => InUse connection c ∧ (connection c).reusable = true

/-- The rings of the three queues. -/
def rings (lists : QueueId → List (Node n)) : Node n → Option (List (Node n))
  | .head q => some (lists q)
  | _ => none

/-- The queues hold the nodes whose flags are set, each once and in one queue. -/
structure Queues (links : Links (Node n)) (connection : Fin n → Connection n)
    (event : EventId n → Event n) (reusableConnectionsN : ℕ)
    (lists : QueueId → List (Node n)) : Prop where
  rings : Rings links (rings lists)
  takes : ∀ q x, x ∈ lists q → q.Takes x
  flagged : ∀ x, Flagged connection event x ↔ ∃ q, x ∈ lists q
  length : (lists .reusable).length = reusableConnectionsN

lemma rings_update (lists : QueueId → List (Node n)) (q : QueueId) (l : List (Node n)) :
    Function.update (rings lists) (.head q) (some l) = rings (Function.update lists q l) := by
  funext x
  cases x with
  | head q' =>
    by_cases hq : q' = q
    · subst hq
      simp [rings]
    · have : Node.head (n := n) q' ≠ .head q := fun e => hq (Node.head.inj e)
      simp [rings, hq, this]
  | event ev => simp [rings]
  | connection c => simp [rings]

section Rings

variable {links : Links (Node n)} {lists : QueueId → List (Node n)} {x : Node n}

/-- A node in no list is in no ring, unless it is a head. -/
lemma unlinked_of_notMem (hx : ∀ q, x ∉ lists q) (hhead : ∀ q, x ≠ .head q) :
    Unlinked (rings lists) x := by
  intro h l hq hmem
  cases h with
  | head q =>
    obtain rfl : lists q = l := Option.some.inj hq
    rcases List.mem_cons.mp hmem with e | hmem
    · exact hhead q e
    · exact hx q hmem
  | event ev => cases hq
  | connection c => cases hq

lemma notMem_ring (hx : ∀ q, x ∉ lists q) (hhead : ∀ q, x ≠ .head q) (q : QueueId) :
    x ∉ Node.head q :: lists q := unlinked_of_notMem hx hhead (h := .head q) rfl

lemma insertTail_rings (hr : Rings links (rings lists)) (q : QueueId) (hx : ∀ q, x ∉ lists q)
    (hhead : ∀ q, x ≠ .head q) :
    ∃ links', queueInsertTail links (.head q) x = some links' ∧
      Rings links' (rings (Function.update lists q (lists q ++ [x]))) := by
  have hq : rings lists (.head q) = some (lists q) := rfl
  have hnot := notMem_ring hx hhead q
  obtain ⟨links', hrun, hseg, hsame⟩ := queueInsertTail_seg (hr.seg hq) (hr.nodup hq) hnot
  refine ⟨links', hrun, ?_⟩
  rw [← rings_update]
  refine hr.update hq hsame ?_ hseg ?_ ?_
  · intro y hy
    rcases List.mem_cons.mp hy with rfl | hy
    · exact .inr (unlinked_of_notMem hx hhead)
    · exact .inl hy
  · have hp : (.head q :: (lists q ++ [x])).Perm (x :: .head q :: lists q) :=
      List.perm_append_singleton x (.head q :: lists q)
    exact hp.nodup_iff.mpr (List.nodup_cons.mpr ⟨hnot, hr.nodup hq⟩)
  · intro y hy
    simp only [List.mem_cons, List.mem_append, List.not_mem_nil, or_false] at hy ⊢
    tauto

lemma insertHead_rings (hr : Rings links (rings lists)) (q : QueueId) (hx : ∀ q, x ∉ lists q)
    (hhead : ∀ q, x ≠ .head q) :
    ∃ links', queueInsertHead links (.head q) x = some links' ∧
      Rings links' (rings (Function.update lists q (x :: lists q))) := by
  have hq : rings lists (.head q) = some (lists q) := rfl
  have hnot := notMem_ring hx hhead q
  obtain ⟨links', hrun, hseg, hsame⟩ := queueInsertHead_seg (hr.seg hq) (hr.nodup hq) hnot
  refine ⟨links', hrun, ?_⟩
  rw [← rings_update]
  refine hr.update hq hsame ?_ hseg ?_ ?_
  · intro y hy
    rcases List.mem_cons.mp hy with rfl | hy
    · exact .inr (unlinked_of_notMem hx hhead)
    · exact .inl hy
  · have hp : (.head q :: x :: lists q).Perm (x :: .head q :: lists q) := .swap _ _ _
    exact hp.nodup_iff.mpr (List.nodup_cons.mpr ⟨hnot, hr.nodup hq⟩)
  · intro y hy
    simp only [List.mem_cons] at hy ⊢
    tauto

lemma remove_rings (hr : Rings links (rings lists)) {q : QueueId} (hx : x ∈ lists q) :
    ∃ links', queueRemove links x = some links' ∧
      Rings links' (rings (Function.update lists q ((lists q).erase x))) := by
  have hq : rings lists (.head q) = some (lists q) := rfl
  obtain ⟨links', hrun, hseg, hsame⟩ := queueRemove_seg (hr.seg hq) (hr.nodup hq) hx
  refine ⟨links', hrun, ?_⟩
  rw [← rings_update]
  have hsub : ∀ y ∈ Node.head q :: (lists q).erase x, y ∈ Node.head q :: lists q := by
    intro y hy
    rcases List.mem_cons.mp hy with rfl | hy
    · exact .head _
    · exact .tail _ (List.mem_of_mem_erase hy)
  refine hr.update hq hsame (fun y hy => .inl hy) hseg ?_ hsub
  obtain ⟨hhead, hnodup⟩ := List.nodup_cons.mp (hr.nodup hq)
  exact List.nodup_cons.mpr ⟨fun e => hhead (List.mem_of_mem_erase e), hnodup.erase x⟩

/-- A node in no list may be cleared. -/
lemma zero_rings (hr : Rings links (rings lists)) (hx : ∀ q, x ∉ lists q)
    (hhead : ∀ q, x ≠ .head q) :
    Rings ((links.setPrev x none).setNext x none) (rings lists) := by
  refine hr.outside (c := [x]) ?_ ?_
  · intro y hy
    have hne : y ≠ x := by simpa using hy
    simp [setPrev, setNext, hne]
  · intro y hy
    obtain rfl := List.mem_singleton.mp hy
    exact unlinked_of_notMem hx hhead

lemma queueEmpty_rings (hr : Rings links (rings lists)) (q : QueueId) :
    queueEmpty links (.head q) = true ↔ lists q = [] := by
  have hq : rings lists (.head q) = some (lists q) := rfl
  rw [queueEmpty, decide_eq_true_iff, (hr.seg hq).isEmpty_iff (hr.nodup hq)]

lemma queueHead_rings (hr : Rings links (rings lists)) {q : QueueId} {l : List (Node n)}
    (hl : lists q = x :: l) : queueHead links (.head q) = some x := by
  have hq : rings lists (.head q) = some (x :: l) := congrArg some hl
  exact (hr.seg hq).1.1

lemma queueLast_rings (hr : Rings links (rings lists)) {q : QueueId} {l : List (Node n)}
    (hl : lists q = l ++ [x]) : queueLast links (.head q) = some x := by
  have hq : rings lists (.head q) = some (l ++ [x]) := congrArg some hl
  exact (hr.seg hq).last

end Rings

section Queues

variable {links links' : Links (Node n)} {connection connection' : Fin n → Connection n}
  {event event' : EventId n → Event n} {count count' : ℕ} {lists : QueueId → List (Node n)}
  {q : QueueId} {x : Node n}

lemma Queues.nodup (h : Queues links connection event count lists) (q : QueueId) :
    (lists q).Nodup := (List.nodup_cons.mp (h.rings.nodup (h := .head q) rfl)).2

/-- A node is in one queue only. -/
lemma Queues.unique (h : Queues links connection event count lists) {q' : QueueId}
    (hq : x ∈ lists q) (hq' : x ∈ lists q') : q = q' :=
  Node.head.inj (h.rings.head_unique (.head q) (.head q') rfl rfl
    (.tail _ hq) (.tail _ hq'))

/-- A node whose flag is not set is in no queue. -/
lemma Queues.notMem (h : Queues links connection event count lists)
    (hx : ¬ Flagged connection event x) (q : QueueId) : x ∉ lists q :=
  fun e => hx ((h.flagged x).mpr ⟨q, e⟩)

/-- Writes that change no flag. -/
lemma Queues.congr (h : Queues links connection event count lists)
    (hflag : ∀ x, Flagged connection' event' x ↔ Flagged connection event x) :
    Queues links connection' event' count lists :=
  { h with flagged := fun x => (hflag x).trans (h.flagged x) }

/-- A node is put into a queue and its flag is set. -/
lemma Queues.insert {l : List (Node n)} (h : Queues links connection event count lists)
    (hr : Rings links' (Cycle.rings (Function.update lists q l))) (hl : l.Perm (x :: lists q))
    (htakes : q.Takes x)
    (hflag : ∀ y, Flagged connection' event' y ↔ y = x ∨ Flagged connection event y)
    (hcount : count' = if q = .reusable then count + 1 else count) :
    Queues links' connection' event' count' (Function.update lists q l) where
  rings := hr
  takes p y hy := by
    by_cases hp : p = q
    · subst hp
      rw [Function.update_self, hl.mem_iff] at hy
      rcases List.mem_cons.mp hy with rfl | hy
      · exact htakes
      · exact h.takes p y hy
    · rw [Function.update_of_ne hp] at hy
      exact h.takes p y hy
  flagged y := by
    rw [hflag, h.flagged]
    constructor
    · rintro (rfl | ⟨p, hp⟩)
      · exact ⟨q, by simp [hl.mem_iff]⟩
      · refine ⟨p, ?_⟩
        by_cases hpq : p = q
        · subst hpq
          simp [hl.mem_iff, hp]
        · rwa [Function.update_of_ne hpq]
    · rintro ⟨p, hp⟩
      by_cases hpq : p = q
      · subst hpq
        rw [Function.update_self, hl.mem_iff] at hp
        rcases List.mem_cons.mp hp with rfl | hp
        · exact .inl rfl
        · exact .inr ⟨p, hp⟩
      · rw [Function.update_of_ne hpq] at hp
        exact .inr ⟨p, hp⟩
  length := by
    rw [hcount]
    by_cases hq : q = .reusable
    · subst hq
      rw [Function.update_self, hl.length_eq, List.length_cons, h.length, if_pos rfl]
    · rw [Function.update_of_ne (Ne.symm hq), if_neg hq, h.length]

/-- A node is taken out of its queue and its flag is cleared. -/
lemma Queues.erase (h : Queues links connection event count lists) (hx : x ∈ lists q)
    (hr : Rings links' (Cycle.rings (Function.update lists q ((lists q).erase x))))
    (hflag : ∀ y, Flagged connection' event' y ↔ y ≠ x ∧ Flagged connection event y)
    (hcount : count' = if q = .reusable then count - 1 else count) :
    Queues links' connection' event' count' (Function.update lists q ((lists q).erase x)) where
  rings := hr
  takes p y hy := by
    by_cases hp : p = q
    · subst hp
      rw [Function.update_self] at hy
      exact h.takes p y (List.mem_of_mem_erase hy)
    · rw [Function.update_of_ne hp] at hy
      exact h.takes p y hy
  flagged y := by
    rw [hflag, h.flagged]
    constructor
    · rintro ⟨hne, p, hp⟩
      refine ⟨p, ?_⟩
      by_cases hpq : p = q
      · subst hpq
        rw [Function.update_self]
        exact (List.mem_erase_of_ne hne).mpr hp
      · rwa [Function.update_of_ne hpq]
    · rintro ⟨p, hp⟩
      by_cases hpq : p = q
      · subst hpq
        rw [Function.update_self, (h.nodup p).mem_erase_iff] at hp
        exact ⟨hp.1, p, hp.2⟩
      · rw [Function.update_of_ne hpq] at hp
        refine ⟨?_, p, hp⟩
        rintro rfl
        exact hpq (h.unique hp hx)
  length := by
    rw [hcount]
    by_cases hq : q = .reusable
    · subst hq
      rw [Function.update_self, List.length_erase_of_mem hx, h.length, if_pos rfl]
    · rw [Function.update_of_ne (Ne.symm hq), if_neg hq, h.length]

end Queues

/-! ## The interest list -/

/-- The entry of the interest list for a connection, as its events have it. -/
def Registered (entry : Option (Interest n)) (c : Fin n) (rev wev : Event n) : Prop :=
  (entry = none ↔ rev.active = false ∧ wev.active = false) ∧
    ∀ e, entry = some e → e.read = rev.active ∧ e.write = wev.active ∧ e.slot = c ∧
      e.instanceBit = rev.instanceBit

/-- The descriptor of a slot in use is open, and the kernel's entry for it is as the events of
the slot say; there are no other entries, and -1 is no descriptor. -/
structure Interests (kernel : Kernel n) (connection : Fin n → Connection n)
    (event : EventId n → Event n) : Prop where
  isOpen : ∀ c, InUse connection c → kernel.isOpen (connection c).fd = true
  registered : ∀ c, InUse connection c →
    Registered (kernel.interest (connection c).fd) c (event (c, .read)) (event (c, .write))
  owned : ∀ s, kernel.interest s ≠ none → ∃ c, InUse connection c ∧ (connection c).fd = s
  invalid : kernel.isOpen (-1) = false

/-- Writes that keep the descriptors, the active bits and the instance bits. -/
lemma Interests.congr {kernel : Kernel n} {connection connection' : Fin n → Connection n}
    {event event' : EventId n → Event n} (h : Interests kernel connection event)
    (hfd : ∀ c, (connection' c).fd = (connection c).fd)
    (hev : ∀ ev, (event' ev).active = (event ev).active ∧
      (event' ev).instanceBit = (event ev).instanceBit) :
    Interests kernel connection' event' := by
  have huse : ∀ c, InUse connection' c ↔ InUse connection c := by
    intro c
    rw [InUse, InUse, hfd]
  constructor
  · intro c hc
    rw [hfd]
    exact h.isOpen c ((huse c).mp hc)
  · intro c hc
    have := h.registered c ((huse c).mp hc)
    rw [hfd]
    unfold Registered at this ⊢
    rwa [(hev _).1, (hev _).1, (hev _).2]
  · intro s hs
    obtain ⟨c, hc, rfl⟩ := h.owned s hs
    exact ⟨c, (huse c).mpr hc, hfd c⟩
  · exact h.invalid

/-! ## The worker -/

/-- The invariant of a worker: `free` is its free list, and `lists` are its queues. The read
event of the listening socket's connection points to it, also when the slot was freed. -/
structure Consistent (w : Worker n) (free : List (Fin n)) (lists : QueueId → List (Node n)) :
    Prop where
  slots : Slots w.connection w.event w.freeConnections w.freeConnectionN free
  timers : Mirrors w.timers fun ev => InUse w.connection ev.1
  queues : Queues w.links w.connection w.event w.reusableConnectionsN lists
  interests : Interests w.kernel w.connection w.event
  accept : ∀ c, w.listening.connection = some c → (w.event (c, .read)).data = some c ∧
    ((w.event (c, .read)).active = true → InUse w.connection c)

end Libcn.Cycle
