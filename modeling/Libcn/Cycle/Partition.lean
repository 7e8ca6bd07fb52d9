import Libcn.Cycle.Effect

/-!
# The states of all runs

Every state of every run is sound. Read off it: the slots are partitioned, the flags of events
and connections say where their nodes are, and the active bits say what the kernel watches.
-/

namespace Libcn.Cycle

open Libcn.Lib Libcn.Lib.Links Libcn.Queue Libcn.Rbtree Libcn.Timer

variable {n : ℕ} {s : Config n}

/-! ## The start -/

/-- The table is linked from its end: each slot gets its events and the one linked before. -/
lemma linkTable_spec (connection : Fin n → Connection n) {l : List (Fin n)} (hl : l.Nodup) :
    let r := l.foldr (fun i r =>
      (Function.update r.1 i { r.1 i with data := r.2, read := (i, .read), write := (i, .write), fd := -1 },
        some i)) (connection, none)
    Chain r.1 r.2 l ∧ ∀ i ∈ l, (r.1 i).read = (i, .read) ∧ (r.1 i).write = (i, .write) ∧
      (r.1 i).fd = -1 := by
  induction l with
  | nil => exact ⟨rfl, by simp⟩
  | cons i l ih =>
    obtain ⟨hi, hl⟩ := List.nodup_cons.mp hl
    obtain ⟨hchain, hmem⟩ := ih hl
    have hne : ∀ j ∈ l, j ≠ i := fun j hj e => hi (e ▸ hj)
    refine ⟨⟨rfl, ?_⟩, fun j hj => ?_⟩
    · simp only [List.foldr_cons, Function.update_self]
      refine hchain.congr fun j hj => ?_
      rw [Function.update_of_ne (hne j hj)]
    · rcases List.mem_cons.mp hj with rfl | hj
      · simp
      · simp only [List.foldr_cons, Function.update_of_ne (hne j hj)]
        exact hmem j hj

lemma queueInit_linked (m : Links (Node n)) (q : QueueId) :
    Linked (queueInit (queueInit (queueInit m (.head .reusable)) (.head .postedAccept))
      (.head .posted)) (.head q) (.head q) := by
  cases q <;> simp [queueInit, setPrev, setNext, Linked]

/-- The worker is consistent when the table was built: every slot is free. -/
lemma openTable_consistent {w : Worker n} (hopen : w.kernel.isOpen (-1) = false)
    (hlisten : w.listening.connection = none) :
    Consistent (openTable (initCycle w)) (List.finRange n) fun _ => [] := by
  obtain ⟨hchain, hmem⟩ := linkTable_spec w.connection (List.nodup_finRange n)
  have hfree : ∀ c, ¬ InUse (openTable (initCycle w)).connection c :=
    fun c h => h (hmem c (List.mem_finRange c)).2.2
  constructor
  · constructor
    · exact hchain
    · exact List.nodup_finRange n
    · exact List.length_finRange
    · exact fun c => ⟨fun _ => hfree c, fun _ => List.mem_finRange c⟩
    · exact fun c => (hmem c (List.mem_finRange c)).1
    · exact fun c => (hmem c (List.mem_finRange c)).2.1
    · exact fun c d hc => absurd hc (hfree c)
    · exact fun c hc => absurd hc (hfree c)
    · exact fun c i hc => absurd hc (hfree c)
    · exact fun c i hc => absurd hc (hfree c)
  · refine (eventTimerInit_holding w.timers).congr fun ev => ?_
    simp [hfree ev.1]
  · constructor
    · constructor
      · rintro (q | ev | c) l hq
        · obtain rfl : [] = l := Option.some.inj hq
          exact queueInit_linked w.links q
        · cases hq
        · cases hq
      · rintro (q | ev | c) l hq
        · obtain rfl : [] = l := Option.some.inj hq
          exact List.nodup_singleton _
        · cases hq
        · cases hq
      · rintro (q | ev | c) (q' | ev' | c') l l' hq hq' hne y hy hy' <;> cases hq <;> cases hq'
        obtain rfl := List.mem_singleton.mp hy
        exact hne (List.mem_singleton.mp hy')
    · intro q x hx
      cases hx
    · intro x
      cases x with
      | head q => simp [Flagged]
      | event ev => simp [Flagged, hfree ev.1]
      | connection c => simp [Flagged, hfree c]
    · rfl
  · exact ⟨fun c hc => absurd hc (hfree c), fun c hc => absurd hc (hfree c),
      fun fd hfd => absurd rfl hfd, hopen⟩
  · intro c hc
    have : w.listening.connection = some c := hc
    rw [hlisten] at this
    cases this

lemma start_sound (h : s.Start) : Sound s (List.finRange n) fun _ => [] := by
  obtain ⟨w, hopen, hlisten, rfl⟩ := h
  have hcons := openTable_consistent hopen hlisten
  refine ⟨hcons, fun c hc => (by cases hc), fun fd hfd => (by cases hfd), List.nodup_nil,
    fun c => ?_⟩
  have := (hcons.slots.mem_free c).mp (List.mem_finRange c)
  simp [occupied, this]

/-- Every state of every run is sound. -/
theorem runs_sound {ok : Config n → Label n → Prop} (hok : ∀ s a, ok s a → s.Allowed a)
    (h : (workerMachine n).Reach ok s) : ∃ free lists, Sound s free lists := by
  refine h.invariant (I := fun s => ∃ free lists, Sound s free lists) ?_ ?_
  · exact fun s hs => ⟨_, _, start_sound hs⟩
  · rintro s a s' ⟨free, lists, hs⟩ ha hstep
    obtain ⟨s₁, hrun, free', lists', hs', -⟩ := hs.step (hok s a ha)
    obtain rfl : s₁ = s' := Option.some.inj (hrun.symm.trans hstep)
    exact ⟨free', lists', hs'⟩

/-- The first state of a run with `n` slots and no open descriptors. -/
def Config.first (n : ℕ) : Config n := ⟨openTable (initCycle (.zeroed n)), [], none, []⟩

lemma first_runs (n : ℕ) : Runs (.first n) := .init ⟨.zeroed n, rfl, rfl, rfl⟩

/-- A run leads from its first state to a state of the runs. -/
lemma runs_of_run {labels : List (Label n)}
    (h : (workerMachine n).run Config.Allowed (.first n) labels = some s) : Runs s :=
  (first_runs n).run h

/-! ## Slots -/

/-- The free list and the slots in use partition the table; `occupied` is read off the trace: the
slot was handed out and not closed since. -/
structure SlotsPartitioned (s : Config n) : Prop where
  chain : ∃ free, Chain s.worker.connection s.worker.freeConnections free ∧ free.Nodup ∧
    free.length = s.worker.freeConnectionN ∧ ∀ c, c ∈ free ↔ occupied s.trace c = false
  fd : ∀ c, occupied s.trace c = true → (s.worker.connection c).fd ≠ -1 ∧
    ∀ d, occupied s.trace d = true → (s.worker.connection d).fd = (s.worker.connection c).fd → d = c
  events : ∀ c, (s.worker.connection c).read = (c, .read) ∧ (s.worker.connection c).write = (c, .write)
  back : ∀ c, occupied s.trace c = true → (s.worker.event (c, .read)).data = some c ∧
    (s.worker.event (c, .write)).data = some c ∧
    (s.worker.event (c, .read)).instanceBit = (s.worker.event (c, .write)).instanceBit
  fresh : ∀ fd c w, popConnection s.worker fd = some (c, w) → occupied s.trace c = false

lemma Sound.occupied_false {free : List (Fin n)} {lists : QueueId → List (Node n)}
    (h : Sound s free lists) (c : Fin n) :
    occupied s.trace c = false ↔ ¬ InUse s.worker.connection c := by
  rw [← h.inUse, Bool.not_eq_true]

/-- In every state of every run the slots are partitioned into the free list and the slots in
use, `get_connection` answers no slot in use, and no allowed step is a fault. -/
theorem slots_partitioned (s : Config n) (h : Runs s) :
    SlotsPartitioned s ∧ ∀ a, s.Allowed a → (s.step a).isSome := by
  obtain ⟨free, lists, hs⟩ := runs_sound (fun _ _ h => h) h
  have hslots := hs.consistent.slots
  refine ⟨⟨⟨free, hslots.chain, hslots.nodup, hslots.length, fun c => ?_⟩, fun c hc => ?_,
    fun c => ⟨hslots.read c, hslots.write c⟩, fun c hc => ?_, fun fd c w hpop => ?_⟩, fun a ha => ?_⟩
  · rw [hslots.mem_free, hs.occupied_false]
  · refine ⟨(hs.inUse c).mp hc, fun d hd he => ?_⟩
    exact hslots.fd d c ((hs.inUse d).mp hd) he
  · have hu := (hs.inUse c).mp hc
    exact ⟨hslots.data c _ hu, hslots.data c _ hu, (hslots.instanceBit c .write hu).symm⟩
  · rw [hs.occupied_false, ← hslots.mem_free]
    have hhead : s.worker.freeConnections = some c := by
      rw [popConnection, Option.map_eq_some_iff] at hpop
      obtain ⟨d, hd, he⟩ := hpop
      rw [hd, (Prod.mk.inj he).1]
    have hchain := hslots.chain
    rw [hhead] at hchain
    cases hfree : free with
    | nil =>
      rw [hfree] at hchain
      cases hchain
    | cons d l =>
      rw [hfree] at hchain
      obtain rfl : c = d := Option.some.inj hchain.1
      exact .head _
  · obtain ⟨s', hrun, -⟩ := hs.step ha
    rw [hrun]
    rfl

/-- The slots of a worker that has two. -/
def slot₀ : Fin 2 := 0

def slot₁ : Fin 2 := 1

/-- Two slots; the second is taken, and the drain for a third descriptor closes it. -/
def drainRun : List (Label 2) :=
  [.getConnection 3, .next, .call (.listen slot₀ true), .getConnection 4, .next,
    .call (.addTimer (slot₁, .read) 300), .call (.reusable slot₁ true),
    .call (.addEvent (slot₁, .read) true true), .call (.post (slot₁, .read) .posted),
    .getConnection 5, .next, .call (.close slot₁), .ret, .next, .next,
    .call (.addTimer (slot₁, .write) 7)]

theorem slots_partitioned_drain :
    ∃ s, (workerMachine 2).run Config.Allowed (.first 2) drainRun = some s ∧
      SlotsPartitioned s ∧ ∀ a, s.Allowed a → (s.step a).isSome := by
  have hrun : ((workerMachine 2).run Config.Allowed (.first 2) drainRun).isSome := by decide +kernel
  obtain ⟨s, hs⟩ := Option.isSome_iff_exists.mp hrun
  exact ⟨s, hs, slots_partitioned s (runs_of_run hs)⟩

end Libcn.Cycle
