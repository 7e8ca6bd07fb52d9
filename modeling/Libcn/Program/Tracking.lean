import Libcn.Program.Fleet
import Libcn.Program.Guarded

/-!
# A process follows the protocol of the accept mutex

`Shadows` relates a process to a state of a worker in the protocol: its variables are `localOf` its
worker, and its tasks tell where it stands. Every step of a process is made by any number of steps
of that worker, which come to the same word.
-/

namespace Libcn.Program

open Libcn.Lib Libcn.Queue Libcn.Rbtree Libcn.Timer Libcn.Cycle

variable {n : ℕ} {w w' : Worker n} {s s' : State n} {c lc : Fin n} {st st' : List (Task n)}
  {ok : Accept.Local → Prop} {pid word word' : ℕ} {pc : Accept.Pc} {b : Bool}

/-! ## Where a process stands -/

/-- The loops behind the posted accept events. -/
def Behind (st : List (Task n)) : Prop := st = [.expire, .posted .posted] ∨ st = [.posted .posted]

/-- The loops of an iteration that are still to run, and `POST_EVENTS`. -/
inductive Loops : List (Task n) → Accept.Pc → Bool → Prop
  | batch {st : List (Task n)} (rs : List (Record n)) (b : Bool) (h : Behind st) :
      Loops (.batch rs b :: .posted .postedAccept :: st) .events b
  | batchWrite {st : List (Task n)} (r : Record n) (rs : List (Record n)) (b : Bool)
      (h : Behind st) : Loops (.batchWrite r rs b :: .posted .postedAccept :: st) .events b
  | posted {st : List (Task n)} (b : Bool) (h : Behind st) :
      Loops (.posted .postedAccept :: st) .posted b
  | rest {st : List (Task n)} (b : Bool) (h : Behind st) : Loops st .rest b

/-- Where a process with the listening connection `lc` stands. -/
inductive Stands (lc : Fin n) : List (Task n) → Option Bool → Accept.Pc → Bool → Prop
  | outside (b : Bool) : Stands lc [] none .top b
  | locked (b : Bool) : Stands lc [] (some true) .enable b
  | refused (b : Bool) : Stands lc [] (some false) .tryFailed b
  | loops {st : List (Task n)} {pc : Accept.Pc} {b : Bool} (h : Loops st pc b) :
      Stands lc st none pc b
  | client {st : List (Task n)} {pc : Accept.Pc} {b : Bool} {t : Task n} {c : Fin n}
      (h : Loops st pc b) (hpc : pc = .rest ∨ pc = .events ∧ b = false) (hc : c ≠ lc)
      (ht : t = .call (c, .read) ∨ t = .write (c, .read)) : Stands lc (t :: st) none pc b
  | accept {st : List (Task n)} {direct b : Bool} {t : Task n}
      (h : Loops st (.acceptReturn direct) b)
      (ht : t = .call (lc, .read) ∨ t = .accept (lc, .read)) :
      Stands lc (t :: st) none (.accept direct) b

/-- A process and the state of a worker in the protocol. -/
structure Shadows (lc : Fin n) (p : WorkerProcess n) (l : Accept.Local) : Prop where
  sound : p.state.Sound lc
  guarded : Guarded p.state.worker lc
  stands : Stands lc p.state.tasks p.attempt l.pc l.postEvents
  agrees : l = localOf p.state.worker lc l.pc l.postEvents

/-- The worker in the protocol gets from `localOf w` to that of a state. -/
def Follows (ok : Accept.Local → Prop) (pid word : ℕ) (l : Accept.Local) (lc : Fin n) (word' : ℕ)
    (w' : Worker n) (st : List (Task n)) (attempt : Option Bool) : Prop :=
  ∃ pc b, Accept.WorkerRun ok n pid word l word' (localOf w' lc pc b) ∧ Guarded w' lc ∧
    Stands lc st attempt pc b

/-! ## Clients -/

/-- The protocol allows for what a client is served. -/
lemma Guarded.follows_served (h : Guarded w lc) (hs : Handles w w' lc ∅) (h' : Steady w' lc)
    (hok : ok (localOf w lc pc b)) (hpc : pc = .events ∨ pc = .rest)
    (hst : Stands lc st none pc b) :
    Follows ok pid word (localOf w lc pc b) lc word w' st none := by
  refine ⟨pc, b, ?_, h.served hs (Set.notMem_empty _) h', hst⟩
  have hle := hs.free_le h.steady h'
  have hlt := h'.free_lt
  have hrelease : (localOf w lc pc b).release n (w'.freeConnectionN - w.freeConnectionN) =
      some (localOf w' lc pc b) := by
    have hsum : w.freeConnectionN + (w'.freeConnectionN - w.freeConnectionN) =
        w'.freeConnectionN := by omega
    rw [Accept.Local.release, hs.localOf pc b]
    simp only [localOf, hsum, if_pos hlt]
  refine .one (o := .handlers (w'.freeConnectionN - w.freeConnectionN)) hok ?_
  rcases hpc with rfl | rfl
  · show ((localOf w lc .events b).release n _).map _ = _
    rw [hrelease]
    rfl
  · show ((localOf w lc .rest b).release n _).map _ = _
    rw [hrelease]
    rfl

/-! ## The start of an iteration -/

lemma Loops.ne_nil (h : Loops st pc b) : st ≠ [] := by
  cases h with
  | batch rs b h => simp
  | batchWrite r rs b h => simp
  | posted b h => simp
  | rest b h => rcases h with rfl | rfl <;> simp

/-- Without tasks the place is told by the answer of `shmtx_trylock`. -/
lemma Stands.of_nil {attempt : Option Bool} (h : Stands lc [] attempt pc b) :
    pc = match attempt with
      | none => .top
      | some true => .enable
      | some false => .tryFailed := by
  cases h with
  | outside b => rfl
  | locked b => rfl
  | refused b => rfl
  | loops h => exact absurd rfl h.ne_nil

/-- `shmtx_trylock` reads the word, and swaps it if it is free. -/
lemma Guarded.follows_trylock (h : Guarded w lc) (htries : Tries w)
    (hok : ok (localOf w lc .top b)) (hmid : ∀ l : Accept.Local, l.pc ≠ .top → ok l) :
    Follows ok pid word (localOf w lc .top b) lc (if word = 0 then pid else word) w []
      (some (decide (word = 0))) := by
  have htop : Accept.workerStep n pid word (localOf w lc .top b) .top .next =
      some (word, localOf w lc .tryRead false) := if_neg htries.2
  by_cases hword : word = 0
  · have hread : Accept.workerStep n pid word (localOf w lc .tryRead false) .tryRead .next =
        some (word, localOf w lc .tryCas false) := by
      simp [Accept.workerStep, hword, localOf]
    have hcas : Accept.workerStep n pid word (localOf w lc .tryCas false) .tryCas .next =
        some (pid, localOf w lc .enable false) := if_pos hword
    rw [if_pos hword, decide_eq_true hword]
    exact ⟨.enable, false, .step hok htop (.step (hmid _ (by simp [localOf])) hread
      (.one (hmid _ (by simp [localOf])) hcas)), h, .locked false⟩
  · have hread : Accept.workerStep n pid word (localOf w lc .tryRead false) .tryRead .next =
        some (word, localOf w lc .tryFailed false) := by
      simp [Accept.workerStep, hword, localOf]
    rw [if_neg hword, decide_eq_false hword]
    exact ⟨.tryFailed, false, .step hok htop (.one (hmid _ (by simp [localOf])) hread), h,
      .refused false⟩

/-- The tasks of an iteration. -/
lemma stands_iteration (lc : Fin n) (w : Worker n) (reports : List Report) (now : BitVec 64)
    (b : Bool) : Stands lc (iterationTasks w reports now b) none .events b := by
  refine .loops (.batch _ b ?_)
  by_cases hnow : now = w.timers.currentMsec
  · exact .inr (by rw [if_pos hnow]; rfl)
  · exact .inl (by rw [if_neg hnow]; rfl)

/-- The attempt is skipped. -/
lemma Guarded.follows_skip (h : Guarded w lc) (hpos : 0 < w.acceptDisabled.toInt)
    (hok : ok (localOf w lc .top b)) (pid word : ℕ) (reports : List Report) (now : BitVec 64) :
    Follows ok pid word (localOf w lc .top b) lc word
      { w with
        acceptDisabled := w.acceptDisabled - 1
        timers := { w.timers with currentMsec := now } }
      (iterationTasks { w with acceptDisabled := w.acceptDisabled - 1 } reports now false) none :=
  ⟨.events, false, .one (o := .next) hok (if_pos hpos),
    h.globals w.acceptMutexHeld w.acceptEvents (w.acceptDisabled - 1) now,
    stands_iteration lc _ reports now false⟩

/-- With the lock the accept events are enabled, or are so already. If `epoll_ctl` fails the lock
is given back and the iteration is over. -/
lemma Guarded.follows_enable (h : Guarded w lc) {ok' go : Bool}
    (htry : trylockAcceptMutex w true ok' = some (go, w')) (hok : ok (localOf w lc .enable b))
    (hmid : ∀ l : Accept.Local, l.pc ≠ .top → ok l) (pid word : ℕ) (reports : List Report)
    (now : BitVec 64) :
    (go = true ∧ Follows ok pid word (localOf w lc .enable b) lc word
      { w' with timers := { w'.timers with currentMsec := now } }
      (iterationTasks w' reports now w'.acceptMutexHeld) none) ∨
    (go = false ∧ Follows ok pid word (localOf w lc .enable b) lc (Accept.shmtxUnlock pid word) w'
      [] none) := by
  rw [trylockAcceptMutex, if_pos rfl] at htry
  by_cases hheld : (w.acceptMutexHeld && w.acceptEvents = 0) = true
  · rw [if_pos hheld] at htry
    obtain ⟨rfl, rfl⟩ := Prod.mk.inj (Option.some.inj htry)
    have hmove : Accept.workerStep n pid word (localOf w lc .enable b) .enable .next =
        some (word, localOf w lc .events w.acceptMutexHeld) := by
      have hcond : ((localOf w lc .enable b).held &&
          (localOf w lc .enable b).acceptEvents == 0) = true := by simpa [localOf] using hheld
      exact (if_pos hcond).trans (if_pos rfl)
    refine .inl ⟨rfl, .events, w.acceptMutexHeld, .one hok hmove, ?_,
      stands_iteration lc _ reports now _⟩
    exact h.globals w.acceptMutexHeld w.acceptEvents w.acceptDisabled now
  rw [if_neg hheld] at htry
  have hcond : ¬ ((localOf w lc .enable b).held &&
      (localOf w lc .enable b).acceptEvents == 0) = true := by simpa [localOf] using hheld
  have hno : (w.event (lc, .read)).active = false → ¬ (localOf w lc .enable b).active = true := by
    intro hact
    simp [localOf, hact]
  rcases h.enableAccept ok' with ⟨hact, hrun⟩ | ⟨hact, hrun | ⟨kernel, hrun, h₁⟩⟩
  · rw [hrun] at htry
    obtain ⟨rfl, rfl⟩ := Prod.mk.inj (Option.some.inj htry)
    have hmove : Accept.workerStep n pid word (localOf w lc .enable b) .enable .next =
        some (word, { localOf w lc .events true with acceptEvents := 0, held := true }) :=
      (if_neg hcond).trans ((if_pos hact).trans (if_pos rfl))
    exact .inl ⟨rfl, .events, true, .one hok hmove,
      h.globals true 0 w.acceptDisabled now, stands_iteration lc _ reports now _⟩
  · -- `epoll_ctl` fails
    rw [hrun] at htry
    obtain ⟨rfl, rfl⟩ := Prod.mk.inj (Option.some.inj htry)
    have hmove : Accept.workerStep n pid word (localOf w lc .enable b) .enable .fail =
        some (word, localOf w lc .enableFailed b) := (if_neg hcond).trans (if_neg (hno hact))
    have hback : Accept.workerStep n pid word (localOf w lc .enableFailed b) .enableFailed .next =
        some (Accept.shmtxUnlock pid word, localOf w lc .top b) := rfl
    exact .inr ⟨rfl, .top, b, .step hok hmove (.one (hmid _ (by simp [localOf])) hback), h,
      .outside b⟩
  · rw [hrun] at htry
    obtain ⟨rfl, rfl⟩ := Prod.mk.inj (Option.some.inj htry)
    have hmove : Accept.workerStep n pid word (localOf w lc .enable b) .enable .ok =
        some (word, localOf ({ w.withActive (lc, .read) true kernel with
          acceptEvents := 0, acceptMutexHeld := true } : Worker n) lc .events true) := by
      refine (if_neg hcond).trans ((if_neg (hno hact)).trans ?_)
      simp [Accept.Local.tryDone, localOf, Worker.withActive, Worker.setEvent]
    exact .inl ⟨rfl, .events, true, .one hok hmove,
      h₁.globals true 0 w.acceptDisabled now, stands_iteration lc _ reports now _⟩

/-- Without the lock a worker that held it disables the accept events. If `epoll_ctl` fails the
iteration is over. -/
lemma Guarded.follows_disable (h : Guarded w lc) {ok' go : Bool}
    (htry : trylockAcceptMutex w false ok' = some (go, w')) (hok : ok (localOf w lc .tryFailed b))
    (pid word : ℕ) (reports : List Report) (now : BitVec 64) :
    (go = true ∧ Follows ok pid word (localOf w lc .tryFailed b) lc word
      { w' with timers := { w'.timers with currentMsec := now } }
      (iterationTasks w' reports now w'.acceptMutexHeld) none) ∨
    (go = false ∧ Follows ok pid word (localOf w lc .tryFailed b) lc word w' [] none) := by
  rw [trylockAcceptMutex, if_neg Bool.false_ne_true] at htry
  by_cases hheld : w.acceptMutexHeld = true
  swap
  · rw [if_neg hheld] at htry
    obtain ⟨rfl, rfl⟩ := Prod.mk.inj (Option.some.inj htry)
    have hmove : Accept.workerStep n pid word (localOf w lc .tryFailed b) .tryFailed .next =
        some (word, localOf w lc .events w.acceptMutexHeld) := by
      have hcond : (!(localOf w lc .tryFailed b).held) = true := by simpa [localOf] using hheld
      exact (if_pos hcond).trans (if_pos rfl)
    refine .inl ⟨rfl, .events, w.acceptMutexHeld, .one hok hmove, ?_,
      stands_iteration lc _ reports now _⟩
    exact h.globals w.acceptMutexHeld w.acceptEvents w.acceptDisabled now
  rw [if_pos hheld] at htry
  have hcond : ¬ (!(localOf w lc .tryFailed b).held) = true := by simpa [localOf] using hheld
  have hno : (w.event (lc, .read)).active = true →
      ¬ (!(localOf w lc .tryFailed b).active) = true := by
    intro hact
    simp [localOf, hact]
  rcases h.disableAccept false ok' with ⟨hact, hrun⟩ | ⟨hact, hrun | ⟨kernel, hrun, h₁⟩⟩
  · rw [hrun] at htry
    obtain ⟨rfl, rfl⟩ := Prod.mk.inj (Option.some.inj htry)
    have hmove : Accept.workerStep n pid word (localOf w lc .tryFailed b) .tryFailed .next =
        some (word, { localOf w lc .events false with held := false }) :=
      (if_neg hcond).trans ((if_pos (by simp [localOf, hact])).trans (if_pos rfl))
    exact .inl ⟨rfl, .events, false, .one hok hmove,
      h.globals false w.acceptEvents w.acceptDisabled now, stands_iteration lc _ reports now _⟩
  · -- `epoll_ctl` fails
    rw [hrun] at htry
    obtain ⟨rfl, rfl⟩ := Prod.mk.inj (Option.some.inj htry)
    have hmove : Accept.workerStep n pid word (localOf w lc .tryFailed b) .tryFailed .fail =
        some (word, localOf w lc .top b) := (if_neg hcond).trans (if_neg (hno hact))
    exact .inr ⟨rfl, .top, b, .one hok hmove, h, .outside b⟩
  · rw [hrun] at htry
    obtain ⟨rfl, rfl⟩ := Prod.mk.inj (Option.some.inj htry)
    have hmove : Accept.workerStep n pid word (localOf w lc .tryFailed b) .tryFailed .ok =
        some (word, localOf ({ w.withActive (lc, .read) false kernel with
          acceptMutexHeld := false } : Worker n) lc .events false) := by
      refine (if_neg hcond).trans ((if_neg (hno hact)).trans ?_)
      simp [Accept.Local.tryDone, localOf, Worker.withActive, Worker.setEvent]
    exact .inl ⟨rfl, .events, false, .one hok hmove,
      h₁.globals false w.acceptEvents w.acceptDisabled now, stands_iteration lc _ reports now _⟩

/-- An iteration up to `epoll_wait`. It comes to an early end if `epoll_ctl` fails. -/
lemma Guarded.follows_iterate (h : Guarded w lc) {attempt : Option Bool}
    (hst : Stands lc [] attempt pc b) {free ok' go postEvents : Bool}
    (hattempt : attempt = if Tries w then some free else none)
    (hlock : lockAccept w free ok' = some (go, postEvents, w'))
    (hok : ok (localOf w lc pc b)) (hmid : ∀ l : Accept.Local, l.pc ≠ .top → ok l)
    (pid word : ℕ) (reports : List Report) (now : BitVec 64) :
    (go = true ∧ Follows ok pid word (localOf w lc pc b) lc word
      { w' with timers := { w'.timers with currentMsec := now } }
      (iterationTasks w' reports now postEvents) none) ∨
    (go = false ∧ Tries w ∧ Follows ok pid word (localOf w lc pc b) lc
      (if free then Accept.shmtxUnlock pid word else word) w' [] none) := by
  have hpc := hst.of_nil
  rw [lockAccept, if_pos h.steady.mutex] at hlock
  by_cases htries : Tries w
  swap
  · have hpos : 0 < w.acceptDisabled.toInt := by
      by_contra hneg
      exact htries ⟨h.steady.mutex, hneg⟩
    rw [if_neg htries] at hattempt
    subst hattempt
    obtain rfl : pc = .top := hpc
    rw [if_pos hpos] at hlock
    obtain ⟨rfl, rfl, rfl⟩ : true = go ∧ false = postEvents ∧ _ = w' := by simpa using hlock
    exact .inl ⟨rfl, h.follows_skip hpos hok pid word reports now⟩
  rw [if_pos htries] at hattempt
  subst hattempt
  rw [if_neg htries.2] at hlock
  obtain ⟨⟨r, w₁⟩, htry, hlock⟩ := Option.bind_eq_some_iff.mp hlock
  obtain ⟨rfl, rfl, rfl⟩ : r = go ∧ w₁.acceptMutexHeld = postEvents ∧ w₁ = w' := by
    simpa using hlock
  cases free with
  | true =>
    obtain rfl : pc = .enable := hpc
    rcases h.follows_enable htry hok hmid pid word reports now with hgo | ⟨hend, hfollows⟩
    · exact .inl hgo
    · exact .inr ⟨hend, htries, hfollows⟩
  | false =>
    obtain rfl : pc = .tryFailed := hpc
    rcases h.follows_disable htry hok pid word reports now with hgo | ⟨hend, hfollows⟩
    · exact .inl hgo
    · exact .inr ⟨hend, htries, hfollows⟩

/-! ## The rounds of the loops -/

lemma localOf_congr (hm : acceptGlobals w' = acceptGlobals w)
    (hfree : w'.freeConnectionN = w.freeConnectionN)
    (hactive : (w'.event (lc, .read)).active = (w.event (lc, .read)).active) :
    localOf w' lc pc b = { localOf w lc pc b with posted := (w'.event (lc, .read)).posted } := by
  obtain ⟨hheld, hevents, hdisabled⟩ : w'.acceptMutexHeld = w.acceptMutexHeld ∧
      w'.acceptEvents = w.acceptEvents ∧ w'.acceptDisabled = w.acceptDisabled := by
    simpa [acceptGlobals] using hm
  simp [localOf, hheld, hevents, hdisabled, hfree, hactive]

/-- A record of the listening event, or of a client. -/
lemma Guarded.follows_record (h : Guarded w lc) (hbehind : Behind st) {r : Record n}
    {rs : List (Record n)} {call : Option (EventId n)}
    (hrun : recordRead w r b = some (.ready w' call)) (h' : Steady w' lc)
    (hok : ok (localOf w lc .events b)) :
    Follows ok pid word (localOf w lc .events b) lc word w'
      ((call.map Task.call).toList ++ .batchWrite r rs b :: .posted .postedAccept :: st) none := by
  obtain ⟨free, lists, hcons⟩ := h.steady.consistent
  have hloops : Loops (.batchWrite r rs b :: .posted .postedAccept :: st) .events b :=
    .batchWrite r rs b hbehind
  have harms := Arms.recordRead lc hcons hrun
  obtain ⟨hactive, hc, w₁, hw₁, hcase⟩ := recordRead_ready h.steady hrun
  have htimers₁ : w₁.timers = w.timers := by rw [hw₁]; rfl
  rcases hcase with ⟨rfl, rfl, rfl⟩ | ⟨rfl, rfl, q, hpost⟩
  · -- the handler is called
    have ha : Arms w w' lc ∅ := (harms.resolve_right fun hno => by cases hno.1).2
    have hg := h.arms ha (Set.notMem_empty _) (by rw [htimers₁]) h'
    have hsame : localOf w' lc .events false = localOf w lc .events false := by
      rw [hw₁]
      by_cases hev : (lc, Side.read) = (r.slot, Side.read)
      · simp [localOf, Worker.setEvent, ← hev]
      · simp [localOf, Worker.setEvent, hev]
    by_cases hlc : r.slot = lc
    · rw [hlc] at hactive ⊢
      have hmove : Accept.workerStep n pid word (localOf w lc .events false) .events .listening =
          some (word, { localOf w lc .events false with pc := .accept true }) :=
        (if_neg (by simp [localOf, hactive])).trans (if_neg Bool.false_ne_true)
      refine ⟨.accept true, false, .one (o := .listening) hok ?_, hg, .accept hloops (.inl rfl)⟩
      rw [show localOf w' lc (.accept true) false =
        { localOf w' lc .events false with pc := .accept true } from rfl, hsame]
      exact hmove
    · refine ⟨.events, false, ?_, hg, .client hloops (.inr ⟨rfl, rfl⟩) hlc (.inl rfl)⟩
      rw [hsame]
      exact .refl _ _
  · -- the event is posted
    obtain ⟨-, -, htimers, ha⟩ := harms.resolve_left fun hno => by cases hno.1
    obtain ⟨hm, hfree, -, hact, hposted, hother⟩ := postEvent_posted hpost
    have hg : Guarded w' lc := ⟨h', ha.filed h.filed, by rw [ha.listening, h.reuseport],
      by rw [htimers, h.timerSet], by rw [htimers, h.timedout]⟩
    have hm₁ : acceptGlobals w' = acceptGlobals w := by rw [hm, hw₁]; rfl
    have hfree₁ : w'.freeConnectionN = w.freeConnectionN := by rw [hfree, hw₁]; rfl
    by_cases hlc : r.slot = lc
    · rw [hlc] at hactive hw₁ hact hposted
      have hact₁ : (w'.event (lc, .read)).active = (w.event (lc, .read)).active := by
        rw [hact, hw₁]
        simp [Worker.setEvent]
      have hmove : Accept.workerStep n pid word (localOf w lc .events true) .events .listening =
          some (word, { localOf w lc .events true with posted := true }) :=
        (if_neg (by simp [localOf, hactive])).trans (if_pos rfl)
      refine ⟨.events, true, .one (o := .listening) hok ?_, hg, .loops hloops⟩
      rw [localOf_congr hm₁ hfree₁ hact₁, hposted]
      exact hmove
    · have hev : w'.event (lc, .read) = w.event (lc, .read) := by
        have hne : (lc, Side.read) ≠ (r.slot, Side.read) := Handles.read_ne (Ne.symm hlc) .read
        rw [hother _ hne, hw₁]
        simp [Worker.setEvent, hne]
      refine ⟨.events, true, ?_, hg, .loops hloops⟩
      rw [localOf_congr hm₁ hfree₁ (by rw [hev]), hev]
      exact .refl _ _

/-- The rounds of `event_process_posted` on `posted_accept_events`. -/
lemma Guarded.follows_posted (h : Guarded w lc) (hbehind : Behind st)
    (hrun : loopNext w st (.posted .postedAccept) = some (w', st')) (h' : Steady w' lc)
    (hok : ok (localOf w lc .posted b)) (hmid : ∀ l : Accept.Local, l.pc ≠ .top → ok l) :
    Follows ok pid word (localOf w lc .posted b) lc
      (if (Task.posted .postedAccept).unlocks w then Accept.shmtxUnlock pid word else word) w' st'
      none := by
  obtain ⟨free, lists, hcons⟩ := h.steady.consistent
  have hiff := h.filed.posted_of_nonempty h.steady.inUse
  obtain ⟨r, hnext, hrun⟩ := Option.bind_eq_some_iff.mp hrun
  cases r with
  | none =>
    -- the queue is empty, and the lock is given back
    obtain ⟨rfl, rfl⟩ := Prod.mk.inj (Option.some.inj hrun)
    have hempty : queueEmpty w.links (.head .postedAccept) = true := postedNext_empty hnext
    have hno : (w.event (lc, .read)).posted = false := by
      by_contra hne
      rw [Bool.not_eq_false, hiff, hempty] at hne
      cases hne
    have hnone : Accept.workerStep n pid word (localOf w lc .posted b) .posted .next =
        some (word, localOf w lc .unlock b) := if_neg (by simp [localOf, hno])
    have hback : Accept.workerStep n pid word (localOf w lc .unlock b) .unlock .next =
        some (if (Task.posted .postedAccept).unlocks w then Accept.shmtxUnlock pid word else word,
          localOf w lc .rest b) := by
      have hunlocks : (Task.posted .postedAccept).unlocks w = w.acceptMutexHeld := by
        show (queueEmpty w.links (.head .postedAccept) && w.acceptMutexHeld) = _
        rw [hempty, Bool.true_and]
      rw [hunlocks]
      rfl
    exact ⟨.rest, b, .step hok hnone (.one (hmid _ (by simp [localOf])) hback), h,
      .loops (.rest b hbehind)⟩
  | some p =>
    obtain ⟨ev, w₁⟩ := p
    obtain ⟨rfl, rfl⟩ := Prod.mk.inj (Option.some.inj hrun)
    obtain ⟨hempty, -, -⟩ := postedNext_deletes hnext
    obtain ⟨ha, -, htimers, hposted, -⟩ := Arms.postedNext lc hcons hnext
    -- only the listening event is in this queue
    have hown := h.filed.queue_eq hnext
    obtain rfl : ev = (lc, .read) := by
      by_contra hne
      rw [queueFor, if_neg hne] at hown
      cases hown
    have hsome : queueEmpty w.links (.head .postedAccept) = false := Bool.eq_false_iff.mpr hempty
    have hkeeps : (Task.posted .postedAccept).unlocks w = false := by
      show (queueEmpty w.links (.head .postedAccept) && w.acceptMutexHeld) = _
      rw [hsome, Bool.false_and]
    rcases postedNext_spec hcons (q := .postedAccept) (by simp) with
      ⟨-, hnone⟩ | ⟨ev', l, links, -, -, hrun', -⟩
    · have hno : some (some ((lc, Side.read), w₁)) = some none := hnext.symm.trans hnone
      cases hno
    have hpair := Option.some.inj (Option.some.inj (hrun'.symm.trans hnext))
    obtain ⟨rfl, rfl⟩ := Prod.mk.inj hpair
    have hsame : localOf (w.withPosted (lc, .read) false links) lc (.accept false) b =
        { localOf w lc .posted b with posted := false, pc := .accept false } := by
      simp [localOf, Worker.withPosted, Worker.setEvent]
    have hmove : Accept.workerStep n pid word (localOf w lc .posted b) .posted .next =
        some (word, { localOf w lc .posted b with posted := false, pc := .accept false }) :=
      if_pos hposted
    rw [hkeeps, if_neg Bool.false_ne_true]
    refine ⟨.accept false, b, .one (o := .next) hok ?_,
      h.arms ha (Set.notMem_empty _) (by rw [htimers]) h', .accept (.posted b hbehind) (.inl rfl)⟩
    rw [hsame]
    exact hmove

/-- A round of any loop. -/
lemma Guarded.follows_next (h : Guarded w lc) {t : Task n} (hl : Loops (t :: st) pc b)
    (hrun : loopNext w st t = some (w', st')) (h' : Steady w' lc)
    (hok : ok (localOf w lc pc b)) (hmid : ∀ l : Accept.Local, l.pc ≠ .top → ok l) :
    Follows ok pid word (localOf w lc pc b) lc
      (if t.unlocks w then Accept.shmtxUnlock pid word else word) w' st' none := by
  obtain ⟨free, lists, hcons⟩ := h.steady.consistent
  have hround := loopNext_round h.steady hrun
  cases hl with
  | batch rs b hbehind =>
    rw [if_neg (by simp [Task.unlocks])]
    cases hround with
    | recorded b => exact ⟨.posted, b, .one (o := .done) hok rfl, h, .loops (.posted b hbehind)⟩
    | skip rs hread => exact ⟨.events, b, .refl _ _, h, .loops (.batch rs b hbehind)⟩
    | idle rs hread => exact ⟨.events, b, .refl _ _, h, .loops (.batchWrite _ rs b hbehind)⟩
    | ready rs hread => exact h.follows_record hbehind hread h' hok
  | batchWrite r rs b hbehind =>
    rw [if_neg (by simp [Task.unlocks])]
    cases hround with
    | write r rs b => exact ⟨.events, b, .refl _ _, h, .loops (.batch rs b hbehind)⟩
  | posted b hbehind => exact h.follows_posted hbehind hrun h' hok hmid
  | rest b hbehind =>
    rcases hbehind with he | he
    · obtain ⟨rfl, rfl⟩ := List.cons.inj he
      rw [if_neg (by simp [Task.unlocks])]
      cases hround with
      | expired hnext => exact ⟨.rest, b, .refl _ _, h, .loops (.rest b (.inr rfl))⟩
      | expire hnext =>
        obtain ⟨-, hhandles, -, hset, -⟩ := Arms.timersNext lc hcons hnext
        rcases timersNext_stays h.steady with hnone | ⟨c, w₁, hsome, -⟩
        · rw [hnone] at hnext
          cases hnext
        have hpair := Option.some.inj (Option.some.inj (hsome.symm.trans hnext))
        obtain ⟨rfl, rfl⟩ := Prod.mk.inj hpair
        have hlc : c ≠ lc := by
          rintro rfl
          rw [h.timerSet] at hset
          cases hset
        exact h.follows_served (hhandles (Handles.read_ne hlc .read)) h' hok (.inr rfl)
          (.client (.rest b (.inl rfl)) (.inl rfl) hlc (.inl rfl))
    · obtain ⟨rfl, rfl⟩ := List.cons.inj he
      rw [if_neg (by simp [Task.unlocks, PostedQueue.posted])]
      cases hround with
      | drained hnext => exact ⟨.top, b, .one (o := .done) hok rfl, h, .outside b⟩
      | posted hnext =>
        obtain ⟨-, hhandles, -⟩ := Arms.postedNext lc hcons hnext
        rcases postedNext_keeps h.steady .posted with hnone | ⟨c, w₁, hsome, -⟩
        · rw [hnone] at hnext
          cases hnext
        have hpair := Option.some.inj (Option.some.inj (hsome.symm.trans hnext))
        obtain ⟨rfl, rfl⟩ := Prod.mk.inj hpair
        have hown := h.filed.queue_eq hnext
        have hlc : c ≠ lc := by
          rintro rfl
          rw [queueFor, if_pos rfl] at hown
          cases hown
        exact h.follows_served (hhandles (Handles.read_ne hlc .read)) h' hok (.inr rfl)
          (.client (.rest b (.inr rfl)) (.inl rfl) hlc (.inl rfl))

/-! ## The handlers -/

lemma Loops.pc_cases (h : Loops st pc b) : pc = .events ∨ pc = .posted ∨ pc = .rest := by
  cases h with
  | batch rs b h => exact .inl rfl
  | batchWrite r rs b h => exact .inl rfl
  | posted b h => exact .inr (.inl rfl)
  | rest b h => exact .inr (.inr rfl)

/-- Handlers are not among the loops. -/
lemma Loops.head {t : Task n} (h : Loops (t :: st) pc b) : t.Loop := by
  cases h with
  | batch rs b h => trivial
  | batchWrite r rs b h => trivial
  | posted b h => trivial
  | rest b h =>
    rcases h with he | he
    · obtain ⟨rfl, -⟩ := List.cons.inj he
      trivial
    · obtain ⟨rfl, -⟩ := List.cons.inj he
      trivial

/-- `myread` is called for a client. -/
lemma Stands.of_call (h : Stands lc (.call (c, .read) :: st) none pc b) (hlc : c ≠ lc) :
    Loops st pc b ∧ (pc = .rest ∨ pc = .events ∧ b = false) := by
  cases h with
  | loops h => exact h.head.elim
  | client h hpc hc ht => exact ⟨h, hpc⟩
  | accept h ht =>
    rcases ht with ht | ht
    · exact absurd (Prod.mk.inj (Task.call.inj ht)).1 hlc
    · cases ht

/-- `event_accept` is called. -/
lemma Stands.of_call_listening (h : Stands lc (.call (lc, .read) :: st) none pc b) :
    ∃ direct, pc = .accept direct ∧ Loops st (.acceptReturn direct) b := by
  cases h with
  | loops h => exact h.head.elim
  | client h hpc hc ht =>
    rcases ht with ht | ht
    · exact absurd (Prod.mk.inj (Task.call.inj ht)).1.symm hc
    · cases ht
  | @accept _ direct _ _ h ht => exact ⟨direct, rfl, h⟩

lemma Stands.of_write {ev : EventId n} (h : Stands lc (.write ev :: st) none pc b) :
    Loops st pc b ∧ (pc = .rest ∨ pc = .events ∧ b = false) := by
  cases h with
  | loops h => exact h.head.elim
  | client h hpc hc ht => exact ⟨h, hpc⟩
  | accept h ht => rcases ht with ht | ht <;> cases ht

lemma Stands.of_accept {ev : EventId n} (h : Stands lc (.accept ev :: st) none pc b) :
    ∃ direct, pc = .accept direct ∧ Loops st (.acceptReturn direct) b := by
  cases h with
  | loops h => exact h.head.elim
  | client h hpc hc ht => rcases ht with ht | ht <;> cases ht
  | @accept _ direct _ _ h ht => exact ⟨direct, rfl, h⟩

/-- `event_accept` or `myread` is called. -/
lemma Guarded.follows_call (hs : s.Sound lc) (h : Guarded s.worker lc)
    (hst : Stands lc s.tasks none pc b) {memory : Option (ℕ → UInt8)}
    {recvs : List (List RecvResult)} {ok' : Bool}
    (hstep : s.step (.call memory recvs ok') = some s') (hs' : s'.Sound lc)
    (hok : ok (localOf s.worker lc pc b)) :
    Follows ok pid word (localOf s.worker lc pc b) lc word s'.worker s'.tasks none := by
  obtain ⟨c, st, htasks, hcase⟩ := hs.call_cases hstep
  rw [htasks] at hst
  rcases hcase with ⟨rfl, go, hrun, hleft⟩ | ⟨hlc, hhandles, go, hleft⟩
  · -- the listening event has no timer, so `event_accept` changes nothing the protocol knows
    obtain ⟨direct, rfl, hloops⟩ := hst.of_call_listening
    have ha := Arms.eventAcceptStart c hrun
    rw [eventAcceptStart, resumeAccept, h.timedout] at hrun
    obtain ⟨rfl, hw'⟩ : true = go ∧ _ = s'.worker := by simpa using hrun
    rw [hleft]
    refine ⟨.accept direct, b, ?_, h.arms ha (Set.notMem_empty _) (by rw [← hw']; rfl) hs'.steady,
      .accept hloops (.inr rfl)⟩
    have hsame : localOf s'.worker c (.accept direct) b =
        localOf s.worker c (.accept direct) b := by
      rw [← hw']
      simp [localOf, Worker.setEvent]
    rw [hsame]
    exact .refl _ _
  · obtain ⟨hloops, hpc⟩ := hst.of_call hlc
    refine h.follows_served hhandles hs'.steady hok (hpc.symm.imp_left And.left) ?_
    rw [hleft]
    cases go with
    | true => exact .client hloops hpc hlc (.inr rfl)
    | false => exact .loops hloops

/-- `mywrite` is called. -/
lemma Guarded.follows_write (hs : s.Sound lc) (h : Guarded s.worker lc)
    (hst : Stands lc s.tasks none pc b) {sends : List (List SendResult)} {ok' : Bool}
    (hstep : s.step (.write sends ok') = some s') (hs' : s'.Sound lc)
    (hok : ok (localOf s.worker lc pc b)) :
    Follows ok pid word (localOf s.worker lc pc b) lc word s'.worker s'.tasks none := by
  obtain ⟨c, st, htasks, hlc, hhandles, hleft⟩ := hs.write_cases hstep
  rw [htasks] at hst
  obtain ⟨hloops, hpc⟩ := hst.of_write
  refine h.follows_served hhandles hs'.steady hok (hpc.symm.imp_left And.left) ?_
  rw [hleft]
  exact .loops hloops

/-! ## The rounds of `event_accept` -/

/-- After a round the function returns or goes on. -/
lemma follows_return {l : Accept.Local} {direct : Bool}
    (hrun : Accept.WorkerRun ok n pid word l word' (localOf w' lc (.accept direct) b))
    (h' : Guarded w' lc) (hloops : Loops st (.acceptReturn direct) b)
    (hmid : ∀ l : Accept.Local, l.pc ≠ .top → ok l)
    (hleft : st' = st ∨ st' = .accept (lc, .read) :: st) :
    Follows ok pid word l lc word' w' st' none := by
  rcases hleft with rfl | rfl
  · have hagain : Accept.workerStep n pid word' (localOf w' lc (.accept direct) b) (.accept direct)
        .again = some (word', localOf w' lc (.acceptReturn direct) b) := rfl
    exact ⟨.acceptReturn direct, b, hrun.trans (.one (hmid _ (by simp [localOf])) hagain), h',
      .loops hloops⟩
  · exact ⟨.accept direct, b, hrun, h', .accept hloops (.inr rfl)⟩

/-- A new connection costs at most one slot. -/
lemma Guarded.follows_descriptor (h : Guarded w lc) {answers : AcceptAnswers} {fd : ℤ}
    (hans : answers.accept = .descriptor fd) (hne : fd ≠ -1) (hfd : w.kernel.isOpen fd = false)
    {r : Accepted n} (hrun : acceptNext w (lc, .read) answers = some (r, w')) (h' : Steady w' lc)
    {direct : Bool} (hok : ok (localOf w lc (.accept direct) b)) :
    acceptGlobals w' = acceptGlobals (disabledFor w) ∧ Guarded w' lc ∧
      Accept.WorkerRun ok n pid word (localOf w lc (.accept direct) b) word
        (localOf w' lc (.accept direct) b) := by
  have h₀ : Guarded (disabledFor w) lc :=
    h.globals w.acceptMutexHeld w.acceptEvents _ w.timers.currentMsec
  obtain ⟨S, hs, hS, hle⟩ : ∃ S, Handles (disabledFor w) w' lc S ∧ (lc, .read) ∉ S ∧
      w.freeConnectionN ≤ w'.freeConnectionN + 1 := by
    -- the connection is refused, or it has the slot `c`
    rcases Handles.acceptDescriptor h.steady hans hne hfd hrun with hs | ⟨c, hlc, hs⟩
    · have hle := hs.free_le h₀.steady h'
      exact ⟨_, hs, Set.notMem_empty _, Nat.le_succ_of_le hle⟩
    · refine ⟨_, hs, fun hmem => ?_, hs.free_le_add_one h₀.steady h'⟩
      exact Handles.read_ne hlc .read (Set.mem_singleton_iff.mp hmem).symm
  refine ⟨hs.mutex, h₀.served hs hS h', ?_⟩
  have hlt := h'.free_lt
  -- the free slots after the round, as the protocol counts them
  obtain ⟨freed, hfreed⟩ : ∃ freed, freed = w'.freeConnectionN + 1 - w.freeConnectionN := ⟨_, rfl⟩
  have hcond : 0 < (localOf w lc (.accept direct) b).free + freed ∧
      (localOf w lc (.accept direct) b).free + freed ≤ n := by
    simp only [localOf]
    omega
  have hsum : w.freeConnectionN + freed - 1 = w'.freeConnectionN := by omega
  refine .one (o := .handled freed) hok ((if_pos hcond).trans ?_)
  rw [hs.localOf (.accept direct) b]
  simp only [localOf, hsum]
  rfl

/-- No descriptors are left. -/
lemma Guarded.follows_exhausted (h : Guarded w lc) {ok' : Bool}
    (hrun : acceptExhausted w (lc, .read) ok' = some w') {direct : Bool}
    (hloops : Loops st (.acceptReturn direct) b) (hok : ok (localOf w lc (.accept direct) b))
    (hmid : ∀ l : Accept.Local, l.pc ≠ .top → ok l) :
    Follows ok pid word (localOf w lc (.accept direct) b) lc
      (if w.acceptMutexHeld && !w'.acceptMutexHeld then Accept.shmtxUnlock pid word else word) w'
      st none := by
  have hfull : Accept.workerStep n pid word (localOf w lc (.accept direct) b) (.accept direct)
      .full = some (word, localOf w lc (.acceptFull direct) b) := rfl
  have hmid' := hmid (localOf w lc (.acceptFull direct) b) (by simp [localOf])
  have hstand : Stands lc st none (.acceptReturn direct) b := .loops hloops
  -- the mutex is given back if `accept_mutex_held` was set
  have hword : ∀ w₁ : Worker n, w₁.acceptMutexHeld = false →
      (if w.acceptMutexHeld && !w₁.acceptMutexHeld then Accept.shmtxUnlock pid word else word) =
        if w.acceptMutexHeld then Accept.shmtxUnlock pid word else word := by
    intro w₁ hw₁
    rw [hw₁, Bool.not_false, Bool.and_true]
  rw [acceptExhausted] at hrun
  obtain ⟨⟨r, w₁⟩, hdisable, hrun⟩ := Option.bind_eq_some_iff.mp hrun
  rcases h.disableAccept true ok' with ⟨hact, hall⟩ | ⟨hact, hall | ⟨kernel, hall, h₁⟩⟩
  · rw [hall] at hdisable
    obtain ⟨rfl, rfl⟩ := Prod.mk.inj (Option.some.inj hdisable)
    change (if w.useAcceptMutex = true then _ else _) = _ at hrun
    rw [if_pos h.steady.mutex] at hrun
    obtain rfl := Option.some.inj hrun
    have hmove : Accept.workerStep n pid word (localOf w lc (.acceptFull direct) b)
        (.acceptFull direct) .next =
          some (if w.acceptMutexHeld then Accept.shmtxUnlock pid word else word,
            { localOf w lc (.acceptReturn direct) b with held := false, disabled := 1 }) :=
      (if_pos (by simp [localOf, hact])).trans (if_pos rfl)
    rw [hword _ rfl]
    exact ⟨_, b, .step hok hfull (.one hmid' hmove),
      h.globals false w.acceptEvents 1 w.timers.currentMsec, hstand⟩
  · -- `epoll_ctl` fails, and the mutex is kept
    rw [hall] at hdisable
    obtain ⟨rfl, rfl⟩ := Prod.mk.inj (Option.some.inj hdisable)
    obtain rfl := Option.some.inj hrun
    have hmove : Accept.workerStep n pid word (localOf w lc (.acceptFull direct) b)
        (.acceptFull direct) .fail = some (word, localOf w lc (.acceptReturn direct) b) :=
      if_neg (by simp [localOf, hact])
    rw [Bool.and_not_self, if_neg Bool.false_ne_true]
    exact ⟨_, b, .step hok hfull (.one hmid' hmove), h, hstand⟩
  · rw [hall] at hdisable
    obtain ⟨rfl, rfl⟩ := Prod.mk.inj (Option.some.inj hdisable)
    change (if (w.withActive (lc, .read) false kernel).useAcceptMutex = true then _ else _) = _
      at hrun
    rw [if_pos h₁.steady.mutex] at hrun
    obtain rfl := Option.some.inj hrun
    have hmove : Accept.workerStep n pid word (localOf w lc (.acceptFull direct) b)
        (.acceptFull direct) .ok =
          some (if w.acceptMutexHeld then Accept.shmtxUnlock pid word else word,
            { localOf (w.withActive (lc, .read) false kernel) lc (.acceptReturn direct) b with
              held := false, disabled := 1 }) := by
      rw [localOf_withActive]
      exact if_neg (by simp [localOf, hact])
    rw [hword _ rfl]
    exact ⟨_, b, .step hok hfull (.one hmid' hmove),
      h₁.globals false w.acceptEvents 1 w.timers.currentMsec, hstand⟩

/-- A round of `event_accept`. -/
lemma Guarded.follows_accept (hs : s.Sound lc) (h : Guarded s.worker lc)
    (hst : Stands lc s.tasks none pc b) {answers : AcceptAnswers}
    (ha : s.Allowed (.accept answers)) (hstep : s.step (.accept answers) = some s')
    (hs' : s'.Sound lc) (hok : ok (localOf s.worker lc pc b))
    (hmid : ∀ l : Accept.Local, l.pc ≠ .top → ok l) :
    Follows ok pid word (localOf s.worker lc pc b) lc
      (if s.worker.acceptMutexHeld && !s'.worker.acceptMutexHeld then Accept.shmtxUnlock pid word
        else word) s'.worker s'.tasks none := by
  obtain ⟨st, r, htasks, hrun, hround⟩ := hs.accept_cases ha hstep
  rw [htasks] at hst
  obtain ⟨direct, rfl, hloops⟩ := hst.of_accept
  have hleft := hround.imp And.right And.right
  have hrun₀ := hrun
  rw [acceptNext] at hrun
  have hsame : s'.worker.acceptMutexHeld = s.worker.acceptMutexHeld →
      (if s.worker.acceptMutexHeld && !s'.worker.acceptMutexHeld then Accept.shmtxUnlock pid word
        else word) = word := by
    intro heq
    rw [heq, Bool.and_not_self, if_neg Bool.false_ne_true]
  cases hans : answers.accept with
  | again =>
    rw [hans] at hrun
    have he := (Prod.mk.inj (Option.some.inj hrun)).2
    rw [← he] at hsame ⊢
    rw [hsame rfl]
    exact follows_return (.refl _ _) h hloops hmid hleft
  | fail =>
    rw [hans] at hrun
    have he := (Prod.mk.inj (Option.some.inj hrun)).2
    rw [← he] at hsame ⊢
    rw [hsame rfl]
    exact follows_return (.refl _ _) h hloops hmid hleft
  | aborted =>
    rw [hans] at hrun
    have he := (Prod.mk.inj (Option.some.inj hrun)).2
    rw [← he] at hsame ⊢
    rw [hsame rfl]
    exact follows_return (.refl _ _) h hloops hmid hleft
  | exhausted =>
    rw [hans] at hrun
    obtain ⟨w₁, hex, hpair⟩ := Option.map_eq_some_iff.mp hrun
    obtain ⟨hr, he⟩ := Prod.mk.inj hpair
    obtain ⟨-, hret⟩ := hround.resolve_right fun hno => by
      rw [← hr] at hno
      cases hno.1
    rw [hret, ← he]
    exact h.follows_exhausted hex hloops hok hmid
  | descriptor fd =>
    obtain ⟨hne, hfd⟩ := ha fd hans
    obtain ⟨hm, h', hrun'⟩ := h.follows_descriptor hans hne hfd hrun₀ hs'.steady hok
    rw [hsame (congrArg Prod.fst hm)]
    exact follows_return hrun' h' hloops hmid hleft

/-! ## Steps -/

/-- A step of a process that is not `shmtx_trylock`. -/
lemma Guarded.follows_run (hs : s.Sound lc) (h : Guarded s.worker lc) {attempt : Option Bool}
    (hst : Stands lc s.tasks attempt pc b) {a : Label n}
    (ha : (⟨s, attempt⟩ : WorkerProcess n).Allowed (.run a)) (hstep : s.step a = some s')
    (hs' : s'.Sound lc) (hok : ok (localOf s.worker lc pc b))
    (hmid : ∀ l : Accept.Local, l.pc ≠ .top → ok l) :
    Follows ok pid word (localOf s.worker lc pc b) lc
      (if unlocks s a s' then Accept.shmtxUnlock pid word else word) s'.worker s'.tasks none := by
  obtain ⟨hallowed, hattempt⟩ := ha
  cases a with
  | iterate free ok' reports now =>
    have htasks : s.tasks = [] := hallowed
    rw [htasks] at hst
    obtain ⟨⟨go, postEvents, w₁⟩, hlock, hgo⟩ := Option.bind_eq_some_iff.mp hstep
    cases go with
    | true =>
      obtain rfl := Option.some.inj hgo
      -- the records are among the tasks now
      have hkeeps : unlocks s (.iterate free ok' reports now) { s with
          worker := { w₁ with timers := { w₁.timers with currentMsec := now } }
          tasks := iterationTasks w₁ reports now postEvents } = false := by
        simp [unlocks, iterationTasks]
      rw [hkeeps, if_neg Bool.false_ne_true]
      have hfollows := h.follows_iterate hst hattempt hlock hok hmid pid word reports now
      exact (hfollows.resolve_right fun hno => by cases hno.1).2
    | false =>
      obtain rfl := Option.some.inj hgo
      have hfollows := h.follows_iterate hst hattempt hlock hok hmid pid word reports now
      obtain ⟨-, htries, hfollows⟩ := hfollows.resolve_left fun hno => by cases hno.1
      have hback : unlocks s (.iterate free ok' reports now) { s with worker := w₁ } = free := by
        simp [unlocks, htries, htasks]
      show Follows ok pid word _ lc _ w₁ s.tasks none
      rw [hback, htasks]
      exact hfollows
  | next =>
    obtain rfl : attempt = none := hattempt
    obtain ⟨t, st, htasks⟩ : ∃ t st, s.tasks = t :: st := by
      cases htasks : s.tasks with
      | nil => simp [State.step, htasks] at hstep
      | cons t st => exact ⟨t, st, rfl⟩
    have hunlocks : unlocks s .next s' = t.unlocks s.worker := by simp only [unlocks, htasks]
    rw [State.step, htasks] at hstep
    obtain ⟨⟨w', st'⟩, hrun, hstep⟩ := Option.bind_eq_some_iff.mp hstep
    obtain rfl := Option.some.inj hstep
    rw [htasks] at hst
    rw [hunlocks]
    -- the loops do not go on in front of a handler
    have hloops : Loops (t :: st) pc b := by
      cases hst with
      | loops hloops => exact hloops
      | client hloops hpc hc ht => rcases ht with rfl | rfl <;> cases hrun
      | accept hloops ht => rcases ht with rfl | rfl <;> cases hrun
    exact h.follows_next hloops hrun hs'.steady hok hmid
  | call memory recvs ok' =>
    obtain rfl : attempt = none := hattempt
    exact h.follows_call hs hst hstep hs' hok
  | accept answers =>
    obtain rfl : attempt = none := hattempt
    exact h.follows_accept hs hst hallowed hstep hs' hok hmid
  | write sends ok' =>
    obtain rfl : attempt = none := hattempt
    exact h.follows_write hs hst hstep hs' hok

/-- Every step of a process is made by steps of the worker it is related to. -/
theorem Shadows.step {p p' : WorkerProcess n} {l : Accept.Local} {a : Act n} (h : Shadows lc p l)
    (ha : p.Allowed a) (hstep : processStep pid word p a = some (word', p')) (hok : ok l)
    (hmid : ∀ l : Accept.Local, l.pc ≠ .top → ok l) :
    ∃ l', Accept.WorkerRun ok n pid word l word' l' ∧ Shadows lc p' l' := by
  obtain ⟨hsound, hg, hst, hagrees⟩ := h
  generalize l.pc = pc at hst hagrees
  generalize l.postEvents = b at hst hagrees
  subst hagrees
  obtain ⟨hsound', pc', b', hrun, hg', hst'⟩ : p'.state.Sound lc ∧
      Follows ok pid word (localOf p.state.worker lc pc b) lc word' p'.state.worker p'.state.tasks
        p'.attempt := by
    cases a with
    | trylock =>
      obtain ⟨htasks, hattempt, htries⟩ := ha
      obtain ⟨rfl, rfl⟩ := Prod.mk.inj (Option.some.inj hstep)
      rw [htasks, hattempt] at hst
      obtain rfl : pc = .top := hst.of_nil
      refine ⟨hsound, ?_⟩
      show Follows ok pid word _ lc _ p.state.worker p.state.tasks _
      rw [htasks]
      exact hg.follows_trylock htries hok hmid
    | run a =>
      obtain ⟨s', hs, hpair⟩ := Option.map_eq_some_iff.mp hstep
      obtain ⟨rfl, rfl⟩ := Prod.mk.inj hpair
      obtain ⟨hsound', -⟩ := hsound.step ha.1 hs
      exact ⟨hsound', hg.follows_run hsound hst ha hs hsound' hok hmid⟩
  exact ⟨_, hrun, hsound', hg', hst', rfl⟩

end Libcn.Program
