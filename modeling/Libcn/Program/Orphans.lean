import Libcn.Program.Refinement

/-!
# No client is orphaned

A client whose connection is neither watched nor has a timer is never heard of again, and nothing
closes it. The timer of a client is taken away when it expires and when `send` took bytes;
neither makes sure that the connection is watched then.
-/

namespace Libcn.Program

open Libcn.Lib Libcn.Queue Libcn.Rbtree Libcn.Timer Libcn.Cycle

variable {n : ℕ}

/-- The connection can still be woken or reclaimed: one of its events is active in `epoll`, has an
armed timer or is posted, or the connection is reusable. -/
def Reclaimable (w : Worker n) (c : Fin n) : Prop :=
  (∃ i : Side, (w.event (c, i)).active = true ∨ w.timers.timerSet (c, i) = true ∨
    (w.event (c, i)).posted = true) ∨ (w.connection c).reusable = true

instance (w : Worker n) (c : Fin n) : Decidable (Reclaimable w c) :=
  inferInstanceAs (Decidable (_ ∨ _))

/-! ## Losing sight of a client -/

/-- The step takes the timer of a client that is not watched, and does not have it watched: the
timer expires, or `send` takes bytes, and these are not all or `epoll_ctl` fails. -/
def State.Strands (s : State n) : Label n → Prop
  | .next => ∃ ev ∈ s.expiring, Serving s.worker ev.1 ∧
    (s.worker.event (ev.1, .read)).active = false
  | .write sends ok => ∃ ev ∈ s.writing, (s.worker.event (ev.1, .read)).active = false ∧
    ∃ b ∈ (s.worker.connection ev.1).buffer, sendTakes sends (bufSize b) ≠ 0 ∧
      ¬ (sendTakes sends (bufSize b) = bufSize b ∧ ok = true)
  | .iterate _ _ _ _ => False
  | .call _ _ _ => False
  | .accept _ => False

instance (s : State n) : (a : Label n) → Decidable (s.Strands a)
  | .next => inferInstanceAs (Decidable (∃ ev ∈ s.expiring, _ ∧ _))
  | .write _ _ => inferInstanceAs (Decidable (∃ ev ∈ s.writing, _ ∧ _))
  | .iterate _ _ _ _ => .isFalse id
  | .call _ _ _ => .isFalse id
  | .accept _ => .isFalse id

/-- A move that takes the timer of a client leaves it watched. -/
def Move.Minds (A : Service n) : Move n → Prop
  | .expire c => ∀ r ∈ A.client c, r.watched = true
  | .send c k granted => ∀ r ∈ A.client c, ∀ b ∈ r.buffer,
    k ≠ 0 → r.watched = true ∨ k = bufSize b ∧ granted = true
  | .close _ => True
  | .receive _ _ _ => True
  | .accept _ _ _ => True
  | .decline _ => True
  | .refuse _ _ => True

lemma Move.Plain.minds {m : Move n} (h : m.Plain) (A : Service n) : m.Minds A := by
  cases m <;> first | exact h.elim | trivial

/-- A step that strands no client makes moves that mind it. -/
lemma State.minds {s : State n} {a : Label n} {m : Move n} (hs : ¬ s.Strands a)
    (hm : s.Causes a m) : m.Minds s.service := by
  cases m with
  | expire c =>
    obtain ⟨rfl, hexp⟩ := hm
    intro r hr
    obtain ⟨hserve, rfl⟩ := State.mem_client hr
    by_contra hwatched
    exact hs ⟨(c, .read), hexp, hserve, Bool.not_eq_true _ ▸ hwatched⟩
  | send c k granted =>
    obtain ⟨sends, b, rfl, hwriting, hb, rfl⟩ := hm
    intro r hr b' hb' hk
    obtain ⟨hserve, rfl⟩ := State.mem_client hr
    obtain rfl : b = b' := Option.some.inj (hb.symm.trans hb')
    by_contra hlost
    obtain ⟨hwatched, hall⟩ := not_or.mp hlost
    exact hs ⟨(c, .read), hwriting, Bool.not_eq_true _ ▸ hwatched, b, hb, hk, hall⟩
  | close c => trivial
  | receive c memory l => trivial
  | accept c pool deferred => trivial
  | decline c => trivial
  | refuse c pool => trivial

/-! ## The service -/

/-- Every client is watched or has a timer. -/
def Service.Heard (A : Service n) : Prop := ∀ c, ∀ r ∈ A.client c, r.watched = true ∨ r.timed = true

/-- One client is replaced by another that is heard of. -/
lemma Service.Heard.update {A A' : Service n} (h : A.Heard) {c : Fin n} {o : Option Client}
    (hclient : A'.client = Function.update A.client c o)
    (ho : ∀ r ∈ o, r.watched = true ∨ r.timed = true) : A'.Heard := by
  intro d r hr
  rw [hclient] at hr
  by_cases hd : d = c
  · subst hd
    rw [Function.update_self] at hr
    exact ho r hr
  · rw [Function.update_of_ne hd] at hr
    exact h d r hr

lemma Service.Heard.step {A A' : Service n} {m : Move n} (h : A.Heard) (hm : m.Minds A)
    (hstep : A.step m = some A') : A'.Heard := by
  cases m with
  | close c =>
    obtain ⟨r, hr, rfl⟩ := Option.map_eq_some_iff.mp hstep
    exact h.update rfl nofun
  | expire c =>
    obtain ⟨r, hr, rfl⟩ := Option.map_eq_some_iff.mp hstep
    refine h.update rfl fun r' hr' => ?_
    obtain rfl := Option.some.inj hr'
    exact .inl (hm r hr)
  | receive c memory l =>
    obtain ⟨r, hr, hstep⟩ := Option.bind_eq_some_iff.mp hstep
    obtain ⟨b, hb, hstep⟩ := Option.bind_eq_some_iff.mp hstep
    obtain rfl := Option.some.inj hstep
    refine h.update rfl fun r' hr' => ?_
    obtain rfl := Option.some.inj hr'
    exact h c r hr
  | send c k granted =>
    obtain ⟨r, hr, hstep⟩ := Option.bind_eq_some_iff.mp hstep
    obtain ⟨b, hb, hstep⟩ := Option.bind_eq_some_iff.mp hstep
    split_ifs at hstep
    obtain rfl := Option.some.inj hstep
    refine h.update rfl fun r' hr' => ?_
    obtain rfl := Option.some.inj hr'
    rw [Client.send]
    split_ifs with hk hall
    · exact h c r hr
    · -- `epoll_ctl` had the connection watched, or it was
      left
      rcases hm r hr b hb hk with hw | ⟨-, hw⟩ <;> simp [hw]
    · rcases hm r hr b hb hk with hw | ⟨hall', -⟩
      · exact .inl hw
      · exact absurd hall' hall
  | accept c pool deferred =>
    rw [Service.step] at hstep
    split_ifs at hstep
    obtain rfl := Option.some.inj hstep
    refine h.update rfl fun r hr => ?_
    obtain rfl := Option.some.inj hr
    exact .inr rfl
  | decline c =>
    rw [Service.step] at hstep
    split_ifs at hstep
    obtain rfl := Option.some.inj hstep
    exact h
  | refuse c pool =>
    rw [Service.step] at hstep
    split_ifs at hstep
    obtain rfl := Option.some.inj hstep
    exact h

lemma serves_heard {A : Service n} (h : Serves (fun A m => m.Minds A) A) : A.Heard := by
  refine h.invariant (fun A hA => ?_) fun A m A' hA hm hstep => hA.step hm hstep
  obtain rfl : A = .start n := hA
  exact fun c r hr => absurd hr (by simp [Service.start])

/-! ## Runs of the worker -/

/-- In every run in which no step takes the timer of a client that is not watched, every client
can be woken or reclaimed, between two iterations and during one. -/
theorem clients_reclaimable (s : State n) (h : Runs (fun s a => ¬ s.Strands a) s) (c : Fin n)
    (hc : Serving s.worker c) : Reclaimable s.worker c := by
  obtain ⟨-, hserves⟩ := runs_serves
    (fun s lc a m _ hs hm => ⟨State.minds hs hm, fun hp A => hp.minds A⟩) h
  rcases serves_heard hserves c (clientAt s.worker c) (clientOf_of_serving hc) with hw | ht
  · exact .inl ⟨.read, .inl hw⟩
  · exact .inl ⟨.read, .inr (.inl ht)⟩

/-- A deferred connection is accepted, and `recv` has nothing for it yet. -/
def acceptIdle : List (Label 2) :=
  [.iterate true true [⟨3, true, false, false, false⟩] 1, .next, .next, .next,
    .next, .call none [] true, .accept ⟨.descriptor 4, ⟨none, [], [], true⟩, some 0, true, true⟩,
    .accept ⟨.again, ⟨none, [], [], true⟩, none, true, true⟩, .next, .next,
    .next, .call (some fun _ => 0) [[.again]] true, .write [] true, .next]

/-- The client of a deferred connection has its timer. -/
theorem clients_reclaimable_deferred :
    ∃ s, State.launch 2 true (fun s a => ¬ s.Strands a) acceptIdle = some s ∧
      Serving s.worker 1 ∧ Reclaimable s.worker 1 := by
  have hrun : (State.launch 2 true (fun s a => ¬ s.Strands a) acceptIdle).any
      (fun s => decide (Serving s.worker 1)) = true := by decide +kernel
  obtain ⟨s, hs, hc⟩ := (Option.any_eq_true _ _).mp hrun
  have hc' := of_decide_eq_true hc
  exact ⟨s, hs, hc', clients_reclaimable s (runs_of_launch (by decide) hs) 1 hc'⟩

/-- The timer expires, and `myread` returns at once. -/
theorem not_clients_reclaimable :
    ∃ s : State 2, Runs (fun _ _ => True) s ∧ s.tasks = [] ∧ Serving s.worker 1 ∧
      ¬ Reclaimable s.worker 1 := by
  have hrun : (State.launch 2 true (fun _ _ => True) (acceptIdle ++
      [.iterate true true [] 302, .next, .next, .next, .call none [] true, .next, .next])).any
      (fun s => decide (s.tasks.isEmpty = true ∧ Serving s.worker 1 ∧
        ¬ Reclaimable s.worker 1)) = true := by decide +kernel
  obtain ⟨s, hs, hc⟩ := (Option.any_eq_true _ _).mp hrun
  obtain ⟨htasks, hserve, hgone⟩ := of_decide_eq_true hc
  exact ⟨s, runs_of_launch (by decide) hs, List.isEmpty_iff.mp htasks, hserve, hgone⟩

end Libcn.Program
