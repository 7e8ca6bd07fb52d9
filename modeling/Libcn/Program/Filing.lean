import Libcn.Program.Looping

/-!
# Which queue a posted event is in

`event_process_posted` first empties `posted_accept_events`, with the accept mutex held, and later
`posted_events`, without it. So it matters that only the listening event is ever in the first
queue, and never in the second.
-/

namespace Libcn.Program

open Libcn.Lib Libcn.Lib.Links Libcn.Queue Libcn.Rbtree Libcn.Timer Libcn.Cycle

variable {n : ℕ} {w w' : Worker n} {c lc : Fin n} {ev : EventId n}
  {lists : QueueId → List (Node n)}

/-- The queue an event is posted to. -/
def queueFor (lc : Fin n) (ev : EventId n) : QueueId :=
  if ev = (lc, .read) then .postedAccept else .posted

lemma queueFor_ne (lc : Fin n) (ev : EventId n) : queueFor lc ev ≠ .reusable := by
  rw [queueFor]
  split_ifs <;> simp

/-- The events that are queued are each in their own queue. -/
def Sorted (lc : Fin n) (lists : QueueId → List (Node n)) : Prop :=
  ∀ q ev, .event ev ∈ lists q → q = queueFor lc ev

/-- Of the connections in use only the listening one has the bit `accept`, and every posted event
is in its own queue. -/
structure Filed (w : Worker n) (lc : Fin n) : Prop where
  accept : ∀ c, InUse w.connection c → ((w.event (c, .read)).accept = true ↔ c = lc)
  queues : ∃ lists, Queues w.links w.connection w.event w.reusableConnectionsN lists ∧
    Sorted lc lists

/-- Only the links, the flags and the descriptors matter. -/
lemma Filed.congr (h : Filed w lc) (hlinks : w'.links = w.links)
    (hcount : w'.reusableConnectionsN = w.reusableConnectionsN)
    (he : ∀ ev, (w'.event ev).posted = (w.event ev).posted ∧
      (w'.event ev).accept = (w.event ev).accept)
    (hc : ∀ d, (w'.connection d).fd = (w.connection d).fd ∧
      (w'.connection d).reusable = (w.connection d).reusable) : Filed w' lc := by
  obtain ⟨haccept, lists, hq, hsort⟩ := h
  have huse : ∀ d, InUse w'.connection d ↔ InUse w.connection d := by
    intro d
    rw [InUse, InUse, (hc d).1]
  refine ⟨fun d hd => ?_, lists, ?_, hsort⟩
  · rw [(he _).2]
    exact haccept d ((huse d).mp hd)
  · rw [hlinks, hcount]
    refine hq.congr fun x => ?_
    cases x with
    | head q => rfl
    | event ev => rw [Flagged, Flagged, huse, (he ev).1]
    | connection d => rw [Flagged, Flagged, huse, (hc d).2]

/-- An event is taken out of its queue. -/
lemma Filed.deletePosted (h : Filed w lc) (hev : InUse w.connection ev.1)
    (hposted : (w.event ev).posted = true) (hrun : deletePostedEvent w ev = some w') :
    Filed w' lc := by
  obtain ⟨haccept, lists, hq, hsort⟩ := h
  obtain ⟨q, hmem⟩ := (hq.flagged (.event ev)).mp ⟨hev, hposted⟩
  have hne : q ≠ .reusable := by
    rw [hsort q ev hmem]
    exact queueFor_ne lc ev
  obtain ⟨links, hremove, hr⟩ := remove_rings hq.rings hmem
  rw [deletePostedEvent, hremove] at hrun
  obtain rfl := Option.some.inj hrun
  refine ⟨fun d hd => ?_, _, hq.erase hmem hr (fun y => ?_) (by rw [if_neg hne]; rfl), ?_⟩
  · rw [← haccept d hd]
    by_cases hd' : (d, Side.read) = ev
    · subst hd'
      simp [Worker.setEvent]
    · simp [Worker.setEvent, hd']
  · show Flagged w.connection (Function.update w.event ev { w.event ev with posted := false }) y ↔ _
    rw [flagged_setPosted hev]
    by_cases hy : y = .event ev
    · simp [hy]
    · simp [hy]
  · intro p ev' hp
    refine hsort p ev' ?_
    by_cases hpq : p = q
    · subst hpq
      rw [Function.update_self] at hp
      exact List.mem_of_mem_erase hp
    · rwa [Function.update_of_ne hpq] at hp

/-- An event is posted to its own queue. -/
lemma Filed.post (h : Filed w lc) (hev : InUse w.connection ev.1) {q : QueueId}
    (hown : q = queueFor lc ev) (hrun : postEvent w ev q = some w') : Filed w' lc := by
  rw [postEvent] at hrun
  split_ifs at hrun with hposted
  · obtain rfl := Option.some.inj hrun
    exact h
  obtain ⟨haccept, lists, hq, hsort⟩ := h
  have hx : ∀ q, Node.event ev ∉ lists q := hq.notMem fun hflag => hposted hflag.2
  obtain ⟨links, hinsert, hr⟩ := insertTail_rings hq.rings q hx (by simp)
  rw [hinsert] at hrun
  obtain rfl := Option.some.inj hrun
  have hne : q ≠ .reusable := hown ▸ queueFor_ne lc ev
  have htakes : q.Takes (.event ev) := by
    cases q with
    | reusable => exact absurd rfl hne
    | _ => trivial
  refine ⟨fun d hd => ?_, _, hq.insert hr (List.perm_append_singleton _ _) htakes (fun y => ?_)
    (by rw [if_neg hne]; rfl), ?_⟩
  · rw [← haccept d hd]
    by_cases hd' : (d, Side.read) = ev
    · subst hd'
      simp [Worker.setEvent]
    · simp [Worker.setEvent, hd']
  · show Flagged w.connection (Function.update w.event ev { w.event ev with posted := true }) y ↔ _
    rw [flagged_setPosted hev]
    by_cases hy : y = .event ev
    · simp [hy]
    · simp [hy]
  · intro p ev' hp
    by_cases hpq : p = q
    · subst hpq
      rw [Function.update_self, List.mem_append] at hp
      rcases hp with hp | hp
      · exact hsort p ev' hp
      · obtain rfl := Node.event.inj (List.mem_singleton.mp hp)
        exact hown
    · rw [Function.update_of_ne hpq] at hp
      exact hsort p ev' hp

/-- Connections in the queue of reusable connections are no events. -/
lemma sorted_reusableLists (h : Sorted lc lists) (c : Fin n) (b : Bool) :
    Sorted lc (reusableLists lists c b) := by
  have hwithout : Sorted lc (without lists (.connection c)) :=
    fun q ev hev => h q ev (List.mem_of_mem_erase hev)
  intro q ev hev
  cases b with
  | false => exact hwithout q ev hev
  | true =>
    rw [reusableLists, if_pos rfl] at hev
    by_cases hq : q = .reusable
    · subst hq
      rw [Function.update_self] at hev
      rcases List.mem_cons.mp hev with e | hev
      · cases e
      · exact hwithout _ ev hev
    · rw [Function.update_of_ne hq] at hev
      exact hwithout q ev hev

lemma Filed.reusable (h : Filed w lc) (hc : InUse w.connection c) {b : Bool}
    (hrun : reusableConnection w c b = some w') : Filed w' lc := by
  obtain ⟨haccept, lists, hq, hsort⟩ := h
  obtain ⟨links, count, hrun', hq'⟩ := reusableConnection_queues hq hc b
  rw [hrun'] at hrun
  obtain rfl := Option.some.inj hrun
  refine ⟨fun d hd => haccept d ?_, _, hq', sorted_reusableLists hsort c b⟩
  by_cases hdc : d = c
  · exact hdc ▸ hc
  · simpa [InUse, Worker.withReusable, Worker.setConnection, hdc] using hd

/-- A slot is freed that is in no queue. -/
lemma Filed.release (h : Filed w lc) (hposted : ∀ i, (w.event (c, i)).posted = false)
    (hreusable : (w.connection c).reusable = false) : Filed (releaseConnection w c) lc := by
  obtain ⟨haccept, lists, hq, hsort⟩ := h
  have hconn : (releaseConnection w c).connection = Function.update w.connection c
      { w.connection c with data := w.freeConnections, fd := -1 } := by
    simp [releaseConnection, freeConnection, Worker.setConnection, Worker.close]
  have hfrees : Frees w.connection (releaseConnection w c).connection c := by
    rw [hconn]
    refine ⟨?_, fun d hd => ?_⟩
    · rw [Function.update_self]
    · rw [Function.update_of_ne hd]
  refine ⟨fun d hd => haccept d ((hfrees.inUse d).mp hd).2, lists,
    hq.release hfrees hposted hreusable (fun _ => rfl) fun d => ?_, hsort⟩
  rw [hconn]
  by_cases hd : d = c
  · rw [hd, Function.update_self]
  · rw [Function.update_of_ne hd]

/-- A free slot is taken. -/
lemma Filed.taken (h : Filed w lc) (hc : ¬ InUse w.connection c) (hlc : c ≠ lc) {s : ℤ}
    (hs : s ≠ -1) : Filed (w.taken c s) lc := by
  obtain ⟨haccept, lists, hq, hsort⟩ := h
  have htakes : Takes w.connection (w.taken c s).connection c s :=
    ⟨hs, hc, by simp [Worker.taken], fun d hd => by simp [Worker.taken, hd]⟩
  have hevent : ∀ ev : EventId n, ev.1 ≠ c → (w.taken c s).event ev = w.event ev :=
    fun ev hev => by simp [Worker.taken, hev]
  -- a free slot has no node in a queue
  have hconn : ∀ q, .connection c ∉ lists q := hq.notMem fun hflag => hc hflag.1
  have hnode : ∀ i q, .event (c, i) ∉ lists q := fun i => hq.notMem fun hflag => hc hflag.1
  have h₁ := zero_rings hq.rings hconn (by simp)
  have h₂ := zero_rings h₁ (hnode .read) (by simp)
  have h₃ := zero_rings h₂ (hnode .write) (by simp)
  refine ⟨fun d hd => ?_, lists, hq.take htakes (fun d hd => by simp [Worker.taken, hd]) ?_ hevent
    ?_ h₃, hsort⟩
  · by_cases hdc : d = c
    · subst hdc
      simp [Worker.taken, Event.zeroed, hlc]
    · rw [hevent (d, .read) hdc]
      exact haccept d (((htakes.inUse d).mp hd).resolve_left hdc)
  · simp [Worker.taken, Connection.zeroed]
  · intro i
    simp [Worker.taken, Event.zeroed]

/-- `event_process_posted` takes the first event out of a queue. -/
lemma postedNext_deletes {q : QueueId} (hrun : postedNext w q = some (some (ev, w'))) :
    ¬ queueEmpty w.links (.head q) = true ∧ queueHead w.links (.head q) = some (.event ev) ∧
      deletePostedEvent w ev = some w' := by
  rw [postedNext] at hrun
  by_cases hempty : queueEmpty w.links (.head q) = true
  · rw [if_pos hempty] at hrun
    cases hrun
  rw [if_neg hempty] at hrun
  obtain ⟨x, hhead, hrun⟩ := Option.bind_eq_some_iff.mp hrun
  cases x with
  | head p => cases hrun
  | connection d => cases hrun
  | event ev' =>
    obtain ⟨w₁, hdelete, hrun⟩ := Option.bind_eq_some_iff.mp hrun
    obtain ⟨rfl, rfl⟩ := Prod.mk.inj (Option.some.inj (Option.some.inj hrun))
    exact ⟨hempty, hhead, hdelete⟩

/-- The loop ends when the queue is empty. -/
lemma postedNext_empty {q : QueueId} (hrun : postedNext w q = some none) :
    queueEmpty w.links (.head q) = true := by
  by_contra hempty
  rw [postedNext, if_neg hempty] at hrun
  obtain ⟨x, -, hrun⟩ := Option.bind_eq_some_iff.mp hrun
  cases x with
  | head p => cases hrun
  | connection d => cases hrun
  | event ev =>
    obtain ⟨w₁, -, hrun⟩ := Option.bind_eq_some_iff.mp hrun
    cases Option.some.inj hrun

/-- This queue is its own. -/
lemma Filed.queue_eq (h : Filed w lc) {q : QueueId}
    (hrun : postedNext w q = some (some (ev, w'))) : q = queueFor lc ev := by
  obtain ⟨hempty, hhead, -⟩ := postedNext_deletes hrun
  obtain ⟨lists, hq, hsort⟩ := h.queues
  have hne : lists q ≠ [] := by
    rw [ne_eq, ← queueEmpty_rings hq.rings]
    exact hempty
  obtain ⟨x, l, hl⟩ := List.exists_cons_of_ne_nil hne
  have hx := queueHead_rings hq.rings hl
  rw [hhead] at hx
  obtain rfl := Option.some.inj hx
  exact hsort q ev (hl ▸ .head _)

/-- The listening event is posted if its queue is not empty. -/
lemma Filed.posted_of_nonempty (h : Filed w lc) (hlc : InUse w.connection lc) :
    (w.event (lc, .read)).posted = true ↔ queueEmpty w.links (.head .postedAccept) = false := by
  obtain ⟨lists', hq, hsort⟩ := h.queues
  rw [← Bool.not_eq_true, queueEmpty_rings hq.rings]
  constructor
  · intro hposted hnil
    obtain ⟨q, hmem⟩ := (hq.flagged (.event (lc, .read))).mp ⟨hlc, hposted⟩
    have hown := hsort q _ hmem
    rw [queueFor, if_pos rfl] at hown
    subst hown
    rw [hnil] at hmem
    cases hmem
  · intro hne
    obtain ⟨x, l, hl⟩ := List.exists_cons_of_ne_nil hne
    have hmem : x ∈ lists' .postedAccept := hl ▸ .head _
    have htakes := hq.takes _ x hmem
    cases x with
    | head q => exact htakes.elim
    | connection d => exact htakes.elim
    | event ev =>
      have hown := hsort _ ev hmem
      rw [queueFor] at hown
      split_ifs at hown with hev
      subst hev
      exact ((hq.flagged _).mpr ⟨_, hmem⟩).2

end Libcn.Program
