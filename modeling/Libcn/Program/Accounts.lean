import Libcn.Program.Refinement

/-!
# The accounts of accepted connections

`event_accept` counts a connection in `stat_active` and creates a pool for it.
`close_accepted_connection` gives both back, `close_connection` gives back neither.
-/

namespace Libcn.Program

open Libcn.Lib Libcn.Queue Libcn.Rbtree Libcn.Timer Libcn.Cycle

variable {n : ℕ}

/-- The slots that serve a client. -/
def clients (w : Worker n) : List (Fin n) := (List.finRange n).filter fun c => decide (Serving w c)

/-- `stat_active` is the number of accepted connections that are open, and the pools that were
created and not destroyed are theirs. -/
def Accounted (w : Worker n) : Prop :=
  w.statActive = (clients w).length ∧
    (w.pools.map some).Perm ((clients w).map fun c => (w.connection c).pool)

instance (w : Worker n) : Decidable (Accounted w) := inferInstanceAs (Decidable (_ ∧ _))

/-! ## The service -/

namespace Service

/-- The pools of the clients. -/
def clientPools (A : Service n) : List (Option ℕ) :=
  (List.finRange n).filterMap fun c => (A.client c).map Client.pool

/-- The accounts of the abstract model are right. -/
def Balanced (A : Service n) : Prop :=
  A.statActive = A.clientPools.length ∧ (A.pools.map some).Perm A.clientPools

end Service

/-- A function that gets a value at a place where it had none. -/
lemma filterMap_update_perm {α β : Type} [DecidableEq α] {l : List α} (hl : l.Nodup) {c : α}
    (hc : c ∈ l) {f : α → Option β} (hf : f c = none) (r : β) :
    (l.filterMap (Function.update f c (some r))).Perm (r :: l.filterMap f) := by
  have hrest : (l.erase c).filterMap (Function.update f c (some r)) = (l.erase c).filterMap f := by
    refine List.filterMap_congr fun d hd => ?_
    have hne : d ≠ c := (hl.mem_erase_iff.mp hd).1
    rw [Function.update_of_ne hne]
  have hnew := (List.perm_cons_erase hc).filterMap (Function.update f c (some r))
  rw [List.filterMap_cons, Function.update_self, hrest] at hnew
  have hold := (List.perm_cons_erase hc).filterMap f
  rw [List.filterMap_cons, hf] at hold
  exact hnew.trans (hold.symm.cons r)

namespace Service

variable {A A' : Service n}

/-- A client that keeps its pool changes no account. -/
lemma Balanced.keep (h : A.Balanced) {c : Fin n} {r q : Client} (hr : A.client c = some r)
    (hpool : q.pool = r.pool) (hclient : A'.client = Function.update A.client c (some q))
    (hact : A'.statActive = A.statActive) (hpools : A'.pools = A.pools) : A'.Balanced := by
  have hsame : A'.clientPools = A.clientPools := by
    refine List.filterMap_congr fun d _ => ?_
    rw [hclient]
    by_cases hd : d = c
    · subst hd
      rw [Function.update_self, hr, Option.map_some, Option.map_some, hpool]
    · rw [Function.update_of_ne hd]
  rw [Balanced, hsame, hact, hpools]
  exact h

/-- A new client has a new pool. -/
lemma Balanced.accept (h : A.Balanced) {c : Fin n} {r : Client} {pool : ℕ}
    (hr : A.client c = none) (hpool : r.pool = some pool)
    (hclient : A'.client = Function.update A.client c (some r))
    (hact : A'.statActive = A.statActive + 1) (hpools : A'.pools = pool :: A.pools) :
    A'.Balanced := by
  have hpools' : A'.clientPools.Perm (some pool :: A.clientPools) := by
    have hmap : (fun d => (A'.client d).map Client.pool) =
        Function.update (fun d => (A.client d).map Client.pool) c (some (some pool)) := by
      funext d
      rw [hclient]
      by_cases hd : d = c
      · subst hd
        rw [Function.update_self, Function.update_self, Option.map_some, hpool]
      · rw [Function.update_of_ne hd, Function.update_of_ne hd]
    rw [clientPools, hmap]
    exact filterMap_update_perm (List.nodup_finRange n) (List.mem_finRange c)
      (by rw [hr, Option.map_none]) (some pool)
  refine ⟨?_, ?_⟩
  · rw [hact, h.1, hpools'.length_eq, List.length_cons, Nat.cast_succ]
  · rw [hpools, List.map_cons]
    exact (h.2.cons (some pool)).trans hpools'.symm

/-- Every move but those that close a connection by `close_connection` keeps the accounts. -/
lemma Balanced.step (h : A.Balanced) {m : Move n} (hm : ¬ m.Closes) (hstep : A.step m = some A') :
    A'.Balanced := by
  cases m with
  | close c => exact absurd trivial hm
  | refuse c pool => exact absurd trivial hm
  | expire c =>
    obtain ⟨r, hr, rfl⟩ := Option.map_eq_some_iff.mp hstep
    exact h.keep (q := { r with timed := false }) hr rfl rfl rfl rfl
  | receive c memory l =>
    obtain ⟨r, hr, hstep⟩ := Option.bind_eq_some_iff.mp hstep
    obtain ⟨b, hb, hstep⟩ := Option.bind_eq_some_iff.mp hstep
    obtain rfl := Option.some.inj hstep
    exact h.keep (q := { r with buffer := some (bufReceive b l) }) hr rfl rfl rfl rfl
  | send c k granted =>
    obtain ⟨r, hr, hstep⟩ := Option.bind_eq_some_iff.mp hstep
    obtain ⟨b, hb, hstep⟩ := Option.bind_eq_some_iff.mp hstep
    split_ifs at hstep
    obtain rfl := Option.some.inj hstep
    refine h.keep hr ?_ rfl rfl rfl
    rw [Client.send]
    split_ifs <;> rfl
  | accept c pool deferred =>
    rw [Service.step] at hstep
    split_ifs at hstep with hnone
    obtain rfl := Option.some.inj hstep
    exact h.accept (Option.isNone_iff_eq_none.mp hnone) rfl rfl rfl rfl
  | decline c =>
    rw [Service.step] at hstep
    split_ifs at hstep
    obtain rfl := Option.some.inj hstep
    exact h

end Service

lemma serves_balanced {A : Service n} (h : Serves (fun _ m => ¬ m.Closes) A) : A.Balanced := by
  refine h.invariant (fun A hA => ?_) fun A m A' hA hm hstep => hA.step hm hstep
  obtain rfl : A = .start n := hA
  simp [Service.Balanced, Service.clientPools, Service.start]

/-! ## Runs of the worker -/

lemma State.clientPools (s : State n) :
    s.service.clientPools = (clients s.worker).map fun c => (s.worker.connection c).pool := by
  rw [Service.clientPools, clients, ← List.filterMap_eq_map, List.filterMap_filter]
  refine List.filterMap_congr fun c _ => ?_
  have hclient : s.service.client c = clientOf s.worker c := rfl
  rw [hclient, clientOf]
  by_cases hc : Serving s.worker c
  · simp [hc, clientAt]
  · simp [hc]

/-- In every run in which no step closes an accepted connection by `close_connection`, the
accounts are right. -/
theorem connections_accounted (s : State n) (h : Runs (fun s a => ¬ s.Ends a) s) :
    Accounted s.worker := by
  obtain ⟨-, hserves⟩ := runs_serves (fun s lc a m _ hs hm => by
    have hcl : ¬ m.Closes := by
      intro hcl
      cases m with
      | close c => exact hs hm
      | refuse c pool => exact hs hm
      | _ => exact hcl
    exact ⟨hcl, fun _ _ => hcl⟩) h
  obtain ⟨hact, hpools⟩ := serves_balanced hserves
  rw [s.clientPools] at hact hpools
  rw [List.length_map] at hact
  exact ⟨hact, hpools⟩

/-- The accounts of one connection. -/
theorem connections_accounted_one :
    ∃ s, State.launch 2 false (fun s a => ¬ s.Ends a) acceptOne = some s ∧
      Serving s.worker 1 ∧ Accounted s.worker := by
  have hrun : (State.launch 2 false (fun s a => ¬ s.Ends a) acceptOne).any
      (fun s => decide (Serving s.worker 1)) = true := by decide +kernel
  obtain ⟨s, hs, hc⟩ := (Option.any_eq_true _ _).mp hrun
  exact ⟨s, hs, of_decide_eq_true hc, connections_accounted s (runs_of_launch (by decide) hs)⟩

/-- `recv` fails, and `myread` closes the connection by `close_connection`. -/
theorem not_connections_accounted :
    ∃ s : State 2, Runs (fun _ _ => True) s ∧ s.tasks = [] ∧ ¬ Accounted s.worker := by
  have hrun : (State.launch 2 false (fun _ _ => True) (acceptOne ++ inputOne ++
      [.call (some fun _ => 0) [[.fail]] true, .next])).any
      (fun s => decide (s.tasks.isEmpty = true ∧ ¬ Accounted s.worker)) = true := by decide +kernel
  obtain ⟨s, hs, hc⟩ := (Option.any_eq_true _ _).mp hrun
  obtain ⟨htasks, hwrong⟩ := of_decide_eq_true hc
  exact ⟨s, runs_of_launch (by decide) hs, List.isEmpty_iff.mp htasks, hwrong⟩

end Libcn.Program
