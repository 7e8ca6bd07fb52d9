import Libcn.Cycle.Partition

/-!
# Flags that mirror memberships

In every state of every run the bits `timer_set`, `posted` and `reusable` say which structures
hold the nodes of a connection, and the bits `active` say what the kernel watches for it.
-/

namespace Libcn.Cycle

open Libcn.Lib Libcn.Lib.Links Libcn.Queue Libcn.Rbtree Libcn.Timer

variable {n : ℕ} {s : Config n}

/-! ## Memberships -/

/-- The timer tree and the three queues as memory has them, with the nodes in them: what is in
them belongs to slots in use, and for these the flags say what it is. -/
structure FlagsMirror (s : Config n) (tree : ColorTree (EventId n))
    (lists : QueueId → List (Node n)) : Prop where
  holds : Holds s.worker.timers.tree tree
  once : tree.toList.Nodup
  ring : ∀ q, s.worker.links.Seg (.head q) (lists q) (.head q)
  nodup : ∀ q, (lists q).Nodup
  apart : ∀ q q' x, x ∈ lists q → x ∈ lists q' → q = q'
  timerSet : ∀ ev : EventId n, occupied s.trace ev.1 = true →
    (s.worker.timers.timerSet ev = true ↔ ev ∈ tree.toList)
  posted : ∀ ev : EventId n, occupied s.trace ev.1 = true →
    ((s.worker.event ev).posted = true ↔
      .event ev ∈ lists .postedAccept ∨ .event ev ∈ lists .posted)
  reusable : ∀ c, occupied s.trace c = true →
    ((s.worker.connection c).reusable = true ↔ .connection c ∈ lists .reusable)
  count : s.worker.reusableConnectionsN = (lists .reusable).length
  free : ∀ c, occupied s.trace c = false → (∀ i, (c, i) ∉ tree.toList) ∧
    ∀ q, .connection c ∉ lists q ∧ ∀ i, .event (c, i) ∉ lists q

/-- An event is only in the queues of posted events, and a connection only in the other. -/
lemma Sound.mem_event {free : List (Fin n)} {lists : QueueId → List (Node n)}
    (h : Sound s free lists) (ev : EventId n) : (∃ q, Node.event ev ∈ lists q) ↔
      .event ev ∈ lists .postedAccept ∨ .event ev ∈ lists .posted := by
  constructor
  · rintro ⟨q, hq⟩
    cases q with
    | postedAccept => exact .inl hq
    | posted => exact .inr hq
    | reusable => exact (h.consistent.queues.takes _ _ hq).elim
  · rintro (hq | hq)
    · exact ⟨_, hq⟩
    · exact ⟨_, hq⟩

lemma Sound.mem_connection {free : List (Fin n)} {lists : QueueId → List (Node n)}
    (h : Sound s free lists) (c : Fin n) : (∃ q, Node.connection c ∈ lists q) ↔
      .connection c ∈ lists .reusable := by
  constructor
  · rintro ⟨q, hq⟩
    cases q with
    | reusable => exact hq
    | _ => exact (h.consistent.queues.takes _ _ hq).elim
  · exact fun hq => ⟨_, hq⟩

/-- In every state of every run the flags of the slots in use say in which structures their nodes
are, each once, and no node of a free slot is in any; and no allowed step is a fault. -/
theorem flags_mirror (s : Config n) (h : Runs s) :
    (∃ tree lists, FlagsMirror s tree lists) ∧ ∀ a, s.Allowed a → (s.step a).isSome := by
  obtain ⟨free, lists, hs⟩ := runs_sound (fun _ _ h => h) h
  obtain ⟨tree, htree, hmem⟩ := hs.consistent.timers
  have hq := hs.consistent.queues
  have hnodup : tree.toList.Nodup := by
    obtain ⟨p₀, hfoc⟩ := htree.focus
    exact hfoc.nodup
  refine ⟨⟨tree, lists, htree, hnodup, fun q => hq.rings.seg (h := .head q) rfl, hq.nodup,
    fun q q' x hx hx' => hq.unique hx hx', fun ev hev => ?_, fun ev hev => ?_, fun c hc => ?_,
    hq.length.symm, fun c hc => ⟨fun i hi => ?_, fun q => ⟨fun hi => ?_, fun i hi => ?_⟩⟩⟩,
    fun a ha => ?_⟩
  · rw [hmem, hs.inUse] at *
    simp [hev]
  · rw [← hs.mem_event, ← hq.flagged, Flagged]
    simp [(hs.inUse ev.1).mp hev]
  · rw [← hs.mem_connection, ← hq.flagged, Flagged]
    simp [(hs.inUse c).mp hc]
  · exact (hs.occupied_false c).mp hc ((hmem (c, i)).mp hi).1
  · exact (hs.occupied_false c).mp hc ((hq.flagged _).mpr ⟨q, hi⟩).1
  · exact (hs.occupied_false c).mp hc ((hq.flagged (.event (c, i))).mpr ⟨q, hi⟩).1
  · obtain ⟨s', hrun, -⟩ := hs.step ha
    rw [hrun]
    rfl

/-- The handler of an expired timer arms it again and closes another connection, whose events are
in the tree and in a queue. -/
def expireRun : List (Label 2) :=
  [.getConnection 3, .next, .call (.addTimer (slot₀, .read) 300), .getConnection 4, .next,
    .call (.addTimer (slot₁, .read) 400), .call (.addTimer (slot₁, .write) 900),
    .call (.post (slot₁, .write) .posted), .call (.reusable slot₁ true), .clock 500,
    .expireTimers, .next, .call (.addTimer (slot₀, .read) 300), .call (.close slot₁), .ret,
    .next]

theorem flags_mirror_expire :
    ∃ s, (workerMachine 2).run Config.Allowed (.first 2) expireRun = some s ∧
      (∃ tree lists, FlagsMirror s tree lists) ∧ ∀ a, s.Allowed a → (s.step a).isSome := by
  have hrun : ((workerMachine 2).run Config.Allowed (.first 2) expireRun).isSome := by
    decide +kernel
  obtain ⟨s, hs⟩ := Option.isSome_iff_exists.mp hrun
  exact ⟨s, hs, flags_mirror s (runs_of_run hs)⟩

/-! ## The interest list -/

/-- The kernel watches the descriptor of a connection in use as its active bits say, with the
connection and its present instance bit. -/
def Watched (s : Config n) (c : Fin n) : Prop :=
  let entry := s.worker.kernel.interest (s.worker.connection c).fd
  let rev := s.worker.event (s.worker.connection c).read
  let wev := s.worker.event (s.worker.connection c).write
  (entry ≠ none ↔ rev.active = true ∨ wev.active = true) ∧
    ∀ e, entry = some e → (e.read = true ↔ rev.active = true) ∧
      (e.write = true ↔ wev.active = true) ∧ e.slot = c ∧ e.instanceBit = rev.instanceBit ∧
      e.instanceBit = wev.instanceBit

/-- In every state of every run the interest list mirrors the active bits of the open
connections; and no allowed step is a fault. -/
theorem active_watched (s : Config n) (h : Runs s) :
    (∀ c, occupied s.trace c = true → Watched s c) ∧ ∀ a, s.Allowed a → (s.step a).isSome := by
  obtain ⟨free, lists, hs⟩ := runs_sound (fun _ _ h => h) h
  refine ⟨fun c hc => ?_, fun a ha => ?_⟩
  · have hu := (hs.inUse c).mp hc
    have hslots := hs.consistent.slots
    obtain ⟨hnone, hsome⟩ := hs.consistent.interests.registered c hu
    rw [Watched, hslots.read, hslots.write]
    refine ⟨?_, fun e he => ?_⟩
    · rw [Ne, hnone]
      cases (s.worker.event (c, .read)).active <;> cases (s.worker.event (c, .write)).active <;> simp
    · obtain ⟨hread, hwrite, hslot, hbit⟩ := hsome e he
      exact ⟨by rw [hread], by rw [hwrite], hslot, hbit,
        hbit.trans (hslots.instanceBit c .write hu).symm⟩
  · obtain ⟨s', hrun, -⟩ := hs.step ha
    rw [hrun]
    rfl

/-- Both directions of one connection are added and one is deleted, with a refusal between; and
the other connection is closed and its slot taken again. -/
def watchRun : List (Label 2) :=
  [.getConnection 3, .next, .call (.listen slot₀ true), .call (.enableAccept true),
    .getConnection 4, .next, .call (.handleRead slot₁ true),
    .call (.handleWrite slot₁ 1 true false), .call (.handleWrite slot₁ 1 true true),
    .call (.delEvent (slot₁, .read) true true), .call (.addConnection slot₁ true),
    .call (.close slot₁), .getConnection 4, .next, .call (.addConnection slot₁ true),
    .call (.delConnection slot₁ true), .call (.disableAccept true true)]

theorem active_watched_both :
    ∃ s, (workerMachine 2).run Config.Allowed (.first 2) watchRun = some s ∧
      (∀ c, occupied s.trace c = true → Watched s c) ∧ ∀ a, s.Allowed a → (s.step a).isSome := by
  have hrun : ((workerMachine 2).run Config.Allowed (.first 2) watchRun).isSome := by
    decide +kernel
  obtain ⟨s, hs⟩ := Option.isSome_iff_exists.mp hrun
  exact ⟨s, hs, active_watched s (runs_of_run hs)⟩

end Libcn.Cycle
