import Libcn.Cycle.Partition

/-!
# Stale records

A record of `epoll_wait` may be examined after its connection was closed and its slot handed out
again. The instance bit of a slot changes with every `get_connection`, so it tells an odd number
of openings from none, but an even number looks like none.
-/

namespace Libcn.Cycle

open Libcn.Lib Libcn.Lib.Links Libcn.Queue Libcn.Rbtree Libcn.Timer

variable {n : ℕ} {s s' : Config n}

/-- Every record that was dispatched found its slot occupied by the opening it was reported
for. -/
def Timely : List (Note n) → Prop
  | [] => True
  | .dispatched c opening :: t => (occupied t c = true ∧ openings t c = opening) ∧ Timely t
  | .opened _ :: t => Timely t
  | .closed _ :: t => Timely t
  | .posted _ _ :: t => Timely t
  | .called _ _ :: t => Timely t

instance : (t : List (Note n)) → Decidable (Timely t)
  | [] => .isTrue trivial
  | .dispatched _ _ :: t => @instDecidableAnd _ _ _ (instDecidableTimely t)
  | .opened _ :: t => instDecidableTimely t
  | .closed _ :: t => instDecidableTimely t
  | .posted _ _ :: t => instDecidableTimely t
  | .called _ _ :: t => instDecidableTimely t

/-- The slot was handed out again since the record was reported, an even number of times. -/
def Recycled (s : Config n) (r : Reported n) : Prop :=
  r.2 < openings s.trace r.1.slot ∧ (openings s.trace r.1.slot - r.2) % 2 = 0

instance (s : Config n) (r : Reported n) : Decidable (Recycled s r) :=
  inferInstanceAs (Decidable (_ ∧ _))

/-- The record the next round examines is not for a recycled slot in use whose event is reported
and active. -/
def Config.Unrecycled (s : Config n) : Prop :=
  ∀ r ∈ s.current, InUse s.worker.connection r.1.slot → s.asks r.1 = true → ¬ Recycled s r

instance (s : Config n) : Decidable s.Unrecycled :=
  inferInstanceAs (Decidable (∀ r ∈ s.current, _))

/-- An allowed step that examines no record of a recycled slot. -/
def Config.AllowedFresh (s : Config n) (a : Label n) : Prop := s.Allowed a ∧ s.Unrecycled

instance (s : Config n) (a : Label n) : Decidable (s.AllowedFresh a) :=
  inferInstanceAs (Decidable (_ ∧ _))

/-! ## Instance bits and openings -/

/-- The instance bit of a slot differs from that of a record if the slot was handed out an odd
number of times since the report. -/
def BitsCount (s : Config n) : Prop :=
  ∀ r ∈ s.records, r.2 ≤ openings s.trace r.1.slot ∧
    (s.bit r.1.slot = r.1.instanceBit ↔ (openings s.trace r.1.slot - r.2) % 2 = 0)

/-- The openings a step adds. -/
lemma Shows.openings {lists lists' : QueueId → List (Node n)} {notes : List (Note n)}
    (h : Shows s lists lists' notes) (c : Fin n) :
    openings (notes ++ s.trace) c =
      openings s.trace c + if notes ++ s.trace = .opened c :: s.trace then 1 else 0 := by
  have hcount : Cycle.openings (notes ++ s.trace) c = notes.count (.opened c) +
      Cycle.openings s.trace c := List.count_append
  have hif : notes ++ s.trace = .opened c :: s.trace ↔ notes = [.opened c] :=
    ⟨fun e => List.append_cancel_right (e : _ = [Note.opened c] ++ s.trace), fun e => by rw [e]; rfl⟩
  rw [hcount]
  simp only [hif]
  cases h with
  | opened d hd =>
    by_cases hdc : d = c
    · simp [hdc, Nat.add_comm]
    · simp [hdc]
  | _ => simp

lemma Effect.bitsCount {lists lists' : QueueId → List (Node n)} (h : Effect s s' lists lists')
    (hs : BitsCount s) : BitsCount s' := by
  obtain ⟨notes, htrace, hshows⟩ := h.notes
  intro r hr
  have hbit := h.bit r.1.slot
  have hcount := hshows.openings r.1.slot
  rw [← htrace] at hcount
  -- the record waited before, or was reported now
  obtain ⟨hle, hodd⟩ : r.2 ≤ openings s.trace r.1.slot ∧
      (s.bit r.1.slot = r.1.instanceBit ↔ (openings s.trace r.1.slot - r.2) % 2 = 0) := by
    rcases h.records r hr with hold | ⟨hnew, hsame⟩
    · exact hs r hold
    · exact ⟨hnew.le, by simp [hsame, hnew]⟩
  rw [hbit, hcount]
  split_ifs
  · refine ⟨by omega, ?_⟩
    have hflip : (!s.bit r.1.slot) = r.1.instanceBit ↔ ¬ s.bit r.1.slot = r.1.instanceBit := by
      cases s.bit r.1.slot <;> cases r.1.instanceBit <;> simp
    rw [hflip, hodd]
    omega
  · exact ⟨by omega, hodd⟩

/-! ## Runs -/

/-- A step that examines no record of a recycled slot dispatches no stale record. -/
lemma Shows.timely {free : List (Fin n)} {lists lists' : QueueId → List (Node n)}
    {notes : List (Note n)} (h : Shows s lists lists' notes) (hs : Sound s free lists)
    (hbits : BitsCount s) (hfresh : s.Unrecycled) (ht : Timely s.trace) :
    Timely (notes ++ s.trace) := by
  have now : ∀ r, s.current = some r → s.asks r.1 = true → InUse s.worker.connection r.1.slot →
      s.bit r.1.slot = r.1.instanceBit →
      Timely (.dispatched r.1.slot r.2 :: s.trace) := by
    intro r hr hasks hc hbit
    obtain ⟨hle, hodd⟩ := hbits r (current_records hr)
    refine ⟨⟨(hs.inUse _).mpr hc, ?_⟩, ht⟩
    by_contra hne
    exact hfresh r hr hc hasks ⟨by omega, hodd.mp hbit⟩
  cases h with
  | quiet => exact ht
  | opened => exact ht
  | closed => exact ht
  | posted => exact ht
  | called => exact ht
  | dispatched r hr hasks hc hbit => exact now r hr hasks hc hbit
  | dispatchedPosted r q ev hq hr hasks hev hc hbit => exact now r hr hasks hc hbit

/-- In every run in which no record of a recycled slot is examined, every record that is
dispatched finds its slot occupied by the opening it was reported for. -/
theorem records_timely (s : Config n) (h : (workerMachine n).Reach Config.AllowedFresh s) :
    Timely s.trace := by
  suffices hinv : Timely s.trace ∧ BitsCount s ∧ ∃ free lists, Sound s free lists from hinv.1
  refine h.invariant
    (I := fun s => Timely s.trace ∧ BitsCount s ∧ ∃ free lists, Sound s free lists) ?_ ?_
  · intro s hs
    have hsound := start_sound hs
    obtain ⟨w, -, -, rfl⟩ := hs
    exact ⟨trivial, fun r hr => (by cases hr), _, _, hsound⟩
  · rintro s a s' ⟨ht, hbits, free, lists, hs⟩ ⟨ha, hfresh⟩ hstep
    obtain ⟨s₁, hrun, free', lists', hs', heff⟩ := hs.step ha
    obtain rfl : s₁ = s' := Option.some.inj (hrun.symm.trans hstep)
    obtain ⟨notes, htrace, hshows⟩ := heff.notes
    refine ⟨?_, heff.bitsCount hbits, free', lists', hs'⟩
    rw [htrace]
    exact hshows.timely hs hbits hfresh ht

/-- Slot 0 listens and slot 1 is a client's, both reported at once. The handler of the first
accepts a connection, for which the client is closed. -/
def reopenLabels : List (Label 2) :=
  [.getConnection 3, .next, .call (.listen slot₀ true), .call (.enableAccept true),
    .getConnection 4, .next, .call (.reusable slot₁ true),
    .call (.addEvent (slot₁, .read) true true),
    .processEvents [⟨3, true, false, false, false⟩, ⟨4, true, false, false, false⟩] false, .next,
    .getConnection 5, .next, .call (.close slot₁), .ret, .next, .next,
    .call (.reusable slot₁ true), .call (.addEvent (slot₁, .read) true true)]

/-- The record of the closed client is skipped. -/
theorem records_timely_reopened :
    ∃ s, (workerMachine 2).run Config.AllowedFresh (.first 2)
      (reopenLabels ++ [.ret, .next, .next, .next]) = some s ∧ Timely s.trace := by
  have hrun : ((workerMachine 2).run Config.AllowedFresh (.first 2)
      (reopenLabels ++ [.ret, .next, .next, .next])).isSome := by decide +kernel
  obtain ⟨s, hs⟩ := Option.isSome_iff_exists.mp hrun
  have hfirst : (workerMachine 2).Reach Config.AllowedFresh (.first 2) :=
    .init ⟨.zeroed 2, rfl, rfl, rfl⟩
  exact ⟨s, hs, records_timely s (hfirst.run hs)⟩

/-- The handler accepts another connection, for which the first is closed: now the record is
dispatched to the wrong connection. -/
theorem not_records_timely :
    ∃ s, (workerMachine 2).run Config.Allowed (.first 2)
      (reopenLabels ++ [.getConnection 6, .next, .call (.close 1), .ret, .next, .next,
        .call (.reusable 1 true), .call (.addEvent (1, .read) true true), .ret, .next, .next]) =
      some s ∧ ¬ Timely s.trace := by
  have hrun : ((workerMachine 2).run Config.Allowed (.first 2)
      (reopenLabels ++ [.getConnection 6, .next, .call (.close 1), .ret, .next, .next,
        .call (.reusable 1 true), .call (.addEvent (1, .read) true true), .ret, .next, .next])).any
      (fun s => !decide (Timely s.trace)) = true := by decide +kernel
  obtain ⟨s, hs, ht⟩ := (Option.any_eq_true _ _).mp hrun
  exact ⟨s, hs, by simpa using ht⟩

end Libcn.Cycle
