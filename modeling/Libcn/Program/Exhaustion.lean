import Libcn.Program.Refinement

/-!
# When `get_connection` answers NULL

It is to answer NULL only if the free list and the queue of reusable connections are empty. It
also does if the last reusable connection has an expired timer: `myread` returns before it looks at
the bit `close`, and `drain_connections` asks no other connection.
-/

namespace Libcn.Program

open Libcn.Lib Libcn.Queue Libcn.Rbtree Libcn.Timer Libcn.Cycle

variable {n : ℕ} {w w' : Worker n} {lc : Fin n} {s : ℤ}

/-- `get_connection` answers NULL only if nothing can be reclaimed, and `drain_connections` closes
a connection if it is called and there is a reusable one. -/
def Reclaims (w : Worker n) (s : ℤ) (a : ReadAnswers) : Prop :=
  ∃ r w', getConnection w s a = some (r, w') ∧
    (r = none → w.freeConnections = none ∧ queueEmpty w.links (.head .reusable) = true) ∧
    (w.freeConnections = none → queueEmpty w.links (.head .reusable) = false →
      ∃ w₁ c, drainConnections w a = some w₁ ∧ Serving w c ∧ ¬ InUse w₁.connection c)

lemma drainCount_pos (w : Worker n) : 0 < drainCount w := by
  rw [drainCount]
  omega

/-- If no connection was drained, all that served a client still do. -/
lemma Drained.nil (h : Drained w w' lc []) {c : Fin n} (hc : Serving w c) : Serving w' c := by
  have hservice : serviceOf w (fun _ => []) (fun _ => []) =
      serviceOf w' (fun _ => []) (fun _ => []) := Option.some.inj (h.run _ _)
  have hclient : clientOf w c = clientOf w' c := congrFun (congrArg Service.client hservice) c
  rwa [← clientOf_isSome, ← hclient, clientOf_isSome]

lemma reclaims_iff (h : Steady w lc) (hp : Pending w s) (a : ReadAnswers) :
    Reclaims w s a ↔ w.freeConnections ≠ none ∨
      queueEmpty w.links (.head .reusable) = true ∨ Obliging w := by
  obtain ⟨w₁, cs₁, hdrain, -, hd₁, hiff₁⟩ := drainLoop_spec h hp a (drainCount w)
  constructor
  · rintro ⟨r, w', hget, -, hcloses⟩
    by_contra hnot
    obtain ⟨hfree, hrest⟩ := not_or.mp hnot
    obtain ⟨hempty, hob⟩ := not_or.mp hrest
    obtain ⟨w₂, c, hdrain', hserve, hgone⟩ :=
      hcloses (not_not.mp hfree) (Bool.not_eq_true _ ▸ hempty)
    -- but nobody obliged
    obtain rfl : w₁ = w₂ := Option.some.inj (hdrain.symm.trans hdrain')
    obtain rfl : cs₁ = [] := by
      by_contra hcs
      exact hob (hiff₁.mp hcs).2
    exact hgone (hd₁.nil hserve).1
  · intro hcond
    have hob : w.freeConnections = none → queueEmpty w.links (.head .reusable) = false →
        Obliging w := by
      intro hfree hempty
      rcases hcond with hne | he | hob
      · exact absurd hfree hne
      · rw [hempty] at he
        cases he
      · exact hob
    have hcloses : w.freeConnections = none → queueEmpty w.links (.head .reusable) = false →
        ∃ w₁ c, drainConnections w a = some w₁ ∧ Serving w c ∧ ¬ InUse w₁.connection c := by
      intro hfree hempty
      have hcs : cs₁ ≠ [] := hiff₁.mpr ⟨drainCount_pos w, hob hfree hempty⟩
      obtain ⟨c, hc⟩ := List.exists_mem_of_ne_nil cs₁ hcs
      exact ⟨w₁, c, hdrain, hd₁.gone c hc⟩
    obtain ⟨w₀, cs, hd, hiff, hget⟩ := getConnection_spec h hp a
    rcases hget with ⟨hnull, -, hget⟩ | ⟨c, free, lists, -, hget, -⟩
    · refine ⟨none, w₀, hget, fun _ => ?_, hcloses⟩
      -- nothing was drained, since a drained slot would be free
      have hcs : cs = [] := by
        by_contra hcs
        exact hd.some hcs hnull
      have hfree : w.freeConnections = none := (hd.none hcs).symm.trans hnull
      refine ⟨hfree, ?_⟩
      by_contra hempty
      exact hiff.mpr ⟨hfree, hob hfree (Bool.not_eq_true _ ▸ hempty)⟩ hcs
    · exact ⟨some c, w₀.taken c s, hget, nofun, hcloses⟩

/-- In every reachable state, for a new descriptor, `get_connection` reports exhaustion only when
nothing can be reclaimed if and only if there is a free slot, no connection is reusable, or the last
reusable connection has no expired timer. -/
theorem exhaustion_reported (s : State n) (h : Runs (fun _ _ => True) s) (fd : ℤ) (hne : fd ≠ -1)
    (hfd : s.worker.kernel.isOpen fd = false) (a : ReadAnswers) :
    Reclaims { s.worker with kernel := s.worker.kernel.hand fd } fd a ↔
      s.worker.freeConnections ≠ none ∨
        queueEmpty s.worker.links (.head .reusable) = true ∨ Obliging s.worker := by
  obtain ⟨lc, hs⟩ := runs_sound h
  obtain ⟨hst, hp⟩ := hs.steady.hand hne hfd s.worker.acceptDisabled
  exact reclaims_iff hst hp a

/-- The only slot of a client is reusable, and is handed out again. -/
theorem exhaustion_reported_reusable :
    ∃ s, State.launch 2 false (fun _ _ => True) acceptOne = some s ∧
      s.worker.freeConnections = none ∧
      Reclaims { s.worker with kernel := s.worker.kernel.hand 5 } 5 ⟨none, [], [], true⟩ := by
  have hrun : (State.launch 2 false (fun _ _ => True) acceptOne).any
      (fun s => decide (s.worker.freeConnections = none ∧ s.worker.kernel.isOpen 5 = false ∧
        Obliging s.worker)) = true := by decide +kernel
  obtain ⟨s, hs, hc⟩ := (Option.any_eq_true _ _).mp hrun
  obtain ⟨hfree, hfd, hob⟩ := of_decide_eq_true hc
  exact ⟨s, hs, hfree, (exhaustion_reported s (runs_of_launch (by decide) hs) 5 (by decide) hfd
    ⟨none, [], [], true⟩).mpr (.inr (.inr hob))⟩

/-- Its timer expires: the slot is not handed out, although the connection is reusable. -/
theorem not_exhaustion_reported :
    ∃ s : State 2, Runs (fun _ _ => True) s ∧ s.worker.kernel.isOpen 5 = false ∧
      ¬ Reclaims { s.worker with kernel := s.worker.kernel.hand 5 } 5 ⟨none, [], [], true⟩ := by
  have hrun : (State.launch 2 false (fun _ _ => True) (acceptOne ++
      [.iterate true true [] 302, .next, .next, .next, .call none [] true, .next, .next])).any
      (fun s => decide (s.worker.kernel.isOpen 5 = false ∧
        queueEmpty s.worker.links (.head .reusable) = false ∧
        (getConnection { s.worker with kernel := s.worker.kernel.hand 5 } 5
          ⟨none, [], [], true⟩).map Prod.fst = some none)) = true := by decide +kernel
  obtain ⟨s, hs, hc⟩ := (Option.any_eq_true _ _).mp hrun
  obtain ⟨hfd, hempty, hnull⟩ := of_decide_eq_true hc
  refine ⟨s, runs_of_launch (by decide) hs, hfd, ?_⟩
  rintro ⟨r, w', hget, honly, -⟩
  rw [hget] at hnull
  obtain rfl : r = none := Option.some.inj hnull
  have hempty' := (honly rfl).2
  exact Bool.false_ne_true (hempty.symm.trans hempty')

end Libcn.Program
