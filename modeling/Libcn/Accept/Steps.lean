import Libcn.Accept.Release
import Libcn.Lib.Simulation

/-!
# Several steps of one worker

What one worker does on its own, while the others stand still, is also done by the system. With the
word it posts its events.
-/

namespace Libcn.Accept

open Libcn.Lib

/-- Any number of steps of a worker, each from a state that satisfies `ok`. -/
inductive WorkerRun (ok : Local → Prop) (connectionN pid : ℕ) : ℕ → Local → ℕ → Local → Prop
  | refl (word : ℕ) (l : Local) : WorkerRun ok connectionN pid word l word l
  | step {word word₁ word' : ℕ} {l l₁ l' : Local} {o : Outcome} (hok : ok l)
      (h : workerStep connectionN pid word l l.pc o = some (word₁, l₁))
      (hrun : WorkerRun ok connectionN pid word₁ l₁ word' l') :
      WorkerRun ok connectionN pid word l word' l'

namespace WorkerRun

variable {ok : Local → Prop} {connectionN pid word word₁ word' : ℕ} {l l₁ l' : Local} {o : Outcome}

lemma one (hok : ok l) (h : workerStep connectionN pid word l l.pc o = some (word', l')) :
    WorkerRun ok connectionN pid word l word' l' := .step hok h (.refl _ _)

lemma trans (h : WorkerRun ok connectionN pid word l word₁ l₁)
    (h' : WorkerRun ok connectionN pid word₁ l₁ word' l') :
    WorkerRun ok connectionN pid word l word' l' := by
  induction h with
  | refl word l => exact h'
  | step hok hs _ ih => exact .step hok hs (ih h')

/-- The system makes the steps of one of its workers. -/
lemma steps {W : Type} [DecidableEq W] {P : Workers W} {w : W}
    (h : WorkerRun ok P.connectionN (P.pid w) word l word' l') (worker : W → Local)
    (hl : worker w = l) :
    (acceptMachine P).Steps (fun s a => ok (s.worker a.1)) ⟨word, worker⟩
      ⟨word', Function.update worker w l'⟩ := by
  induction h generalizing worker with
  | refl word l =>
    rw [← hl, Function.update_eq_self]
    exact .refl _
  | @step word word₁ word' l l₁ l' o hok hs _ ih =>
    have hstep : (acceptMachine P).step ⟨word, worker⟩ (w, o) =
        some ⟨word₁, Function.update worker w l₁⟩ := by
      show (workerStep P.connectionN (P.pid w) word (worker w) (worker w).pc o).map _ = _
      rw [hl, hs]
      rfl
    have hrest := ih (Function.update worker w l₁) (Function.update_self _ _ _)
    rw [Function.update_idem] at hrest
    have hok' : ok (worker w) := hl ▸ hok
    exact .cons hok' hstep hrest

end WorkerRun

/-! ## What is posted -/

/-- With the word a worker that has polled posts its events. -/
def Local.Posts (own : Prop) (l : Local) : Prop :=
  match l.pc with
  | .top | .tryRead | .tryCas | .tryFailed | .enable | .enableFailed | .rest => True
  | .events | .posted | .unlock | .accept _ | .acceptFull _ => own → l.postEvents = true

lemma workerStep_posts {connectionN pid word word' : ℕ} {l l' : Local} {o : Outcome}
    (hpid : pid ≠ 0) (hr : l.Returns (word = pid)) (hi : l.Posts (word = pid))
    (h : workerStep connectionN pid word l l.pc o = some (word', l')) :
    l'.Posts (word' = pid) := by
  unfold Local.Returns at hr
  unfold Local.Posts at hi
  have hmoves := workerStep_moves h
  clear h
  generalize hpc : l.pc = pc at hr hi hmoves
  cases hmoves with
  | unlock => trivial
  | acceptDone direct => cases direct <;> exact hi
  | full direct => cases direct <;> exact fun hown => absurd hown (unlockHeld_ne _ hpid hr)
  | fullFails direct => cases direct <;> exact hi
  | _ => simp_all [Local.Posts, Local.tryDone]

end Libcn.Accept
