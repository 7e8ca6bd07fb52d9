import Libcn.Program.Send

/-!
# What `get_connection` does

When the free list is empty, `drain_connections` asks the last reusable connection to close. It
does unless its timer has expired; then it stays the last one, and no other is asked.
-/

namespace Libcn.Program

open Libcn.Lib Libcn.Lib.Links Libcn.Queue Libcn.Rbtree Libcn.Timer Libcn.Cycle

variable {n : ℕ} {w w' : Worker n} {free : List (Fin n)} {lists : QueueId → List (Node n)}
  {c lc : Fin n} {s : ℤ}

/-! ## A descriptor without a slot -/

/-- The descriptor is open and no connection has it. -/
structure Pending (w : Worker n) (s : ℤ) : Prop where
  ne : s ≠ -1
  isOpen : w.kernel.isOpen s = true
  other : ∀ d, (w.connection d).fd ≠ s

/-- `accept` hands out a descriptor that was not open. -/
lemma Steady.hand (h : Steady w lc) (hne : s ≠ -1) (hs : w.kernel.isOpen s = false)
    (disabled : BitVec 32) :
    Steady { w with kernel := w.kernel.hand s, acceptDisabled := disabled } lc ∧
      Pending { w with kernel := w.kernel.hand s, acceptDisabled := disabled } s := by
  obtain ⟨free, lists, hcons⟩ := h.consistent
  obtain ⟨hi₁, hi₂, hi₃, hi₄⟩ := hcons.interests
  have hopen : ∀ t, w.kernel.isOpen t = true → (w.kernel.hand s).isOpen t = true := by
    intro t ht
    simp [ht]
  refine ⟨⟨⟨free, lists, hcons.slots, hcons.timers, hcons.queues,
    ⟨fun c hc => hopen _ (hi₁ c hc), hi₂, hi₃, ?_⟩, hcons.accept⟩, h.listening, h.mutex, h.inUse,
    fun c hc => ⟨(h.slot c hc).handler, (h.slot c hc).kept, (h.slot c hc).active,
      (h.slot c hc).posted, (h.slot c hc).timerSet⟩⟩, hne, by simp, fun d hd => ?_⟩
  · rw [Kernel.isOpen_hand, if_neg hne.symm, hi₄]
  · have := hi₁ d fun e => hne (hd.symm.trans e)
    rw [show (w.connection d).fd = s from hd, hs] at this
    cases this

/-- A descriptor stays pending when another one is closed. -/
lemma Pending.close (h : Pending w s) (hs : Same w w' c) (hc : ¬ InUse w'.connection c)
    (hk : w'.kernel = w.kernel.close (w.connection c).fd) : Pending w' s where
  ne := h.ne
  isOpen := by rw [hk, Kernel.isOpen_close, if_neg (h.other c).symm, h.isOpen]
  other d hd := by
    by_cases hdc : d = c
    · subst hdc
      exact h.ne (hd.symm.trans (not_not.mp hc))
    · rw [hs.connection d hdc] at hd
      exact h.other d hd

/-! ## `drain_connections` -/

/-- The last reusable connection closes when it is asked. -/
def Obliging (w : Worker n) : Prop :=
  ∃ c, queueEmpty w.links (.head .reusable) = false ∧
    queueLast w.links (.head .reusable) = some (.connection c) ∧
    w.timers.timedout (c, .read) = false

instance (w : Worker n) : Decidable (Obliging w) := inferInstanceAs (Decidable (∃ _, _ ∧ _))

/-- `myread` with the bit `close`. -/
lemma myread_close (h : Consistent w free lists) (hc : InUse w.connection c)
    (hclose : (w.connection c).close = true) (a : ReadAnswers) :
    myread w (c, .read) a =
      if w.timers.timedout (c, .read) then some w else closeConnection w c := by
  rw [myread, myreadReceive, h.slots.data c .read hc]
  simp only [Option.bind_eq_bind, Option.bind_some, hclose, if_true]
  split_ifs
  · rfl
  · cases closeConnection w c <;> rfl

/-- The connection that is asked is a client. -/
lemma Steady.reusable (h : Steady w lc) (hcons : Consistent w free lists)
    (hmem : .connection c ∈ lists .reusable) : Serving w c := by
  obtain ⟨hc, hr⟩ := (hcons.queues.flagged (.connection c)).mpr ⟨_, hmem⟩
  refine (h.serving_iff c).mpr ⟨hc, fun e => ?_⟩
  rw [(h.slot c hc).kept e] at hr
  cases hr

/-- What the rounds of `drain_connections` do: they close the connections `cs`, at least one if the
last reusable connection obliges, otherwise none. -/
structure Drained (w w' : Worker n) (lc : Fin n) (cs : List (Fin n)) : Prop where
  steady : Steady w' lc
  event : w'.event (lc, .read) = w.event (lc, .read)
  run : ∀ received sent, (serviceOf w received sent).run (cs.map .close) =
    some (serviceOf w' received sent)
  gone : ∀ c ∈ cs, Serving w c ∧ ¬ InUse w'.connection c
  inUse : ∀ c, InUse w'.connection c → InUse w.connection c
  none : cs = [] → w'.freeConnections = w.freeConnections
  some : cs ≠ [] → w'.freeConnections ≠ .none

lemma Drained.refl (h : Steady w lc) : Drained w w lc [] :=
  ⟨h, rfl, fun _ _ => rfl, fun _ hc => absurd hc List.not_mem_nil, fun _ h => h, fun _ => rfl,
    fun e => absurd rfl e⟩

/-- The bit `close` of a connection is set. -/
lemma setClose_spec (w : Worker n) (c : Fin n) :
    Stays w (w.setConnection c fun r => { r with close := true }) c ∧
      serviceOf (w.setConnection c fun r => { r with close := true }) = serviceOf w := by
  have hs := Stays.setConnection w c (f := fun r => { r with close := true }) fun _ => ⟨rfl, rfl⟩
  refine ⟨hs, ?_⟩
  funext received sent
  exact hs.serviceOf_eq (by simp [clientAt, Worker.setConnection]) received sent

/-- What comes of asking a reusable connection to close. -/
lemma asked_spec (h : Steady w lc) (hp : Pending w s) (hserve : Serving w c) (hw₁ : w' =
      w.setConnection c fun r => { r with close := true }) (hcons : Consistent w' free lists)
    (a : ReadAnswers) :
    Stays w w' c ∧ Pending w' s ∧ (w'.connection c).close = true ∧
      drainHandler w' (c, .read) a =
        if w.timers.timedout (c, .read) then some w' else closeConnection w' c := by
  have hs : Stays w w' c := hw₁ ▸ (setClose_spec w c).1
  have hlc : c ≠ lc := ((h.serving_iff c).mp hserve).2
  have hclose : (w'.connection c).close = true := by simp [hw₁, Worker.setConnection]
  refine ⟨hs, ⟨hp.ne, by rw [hw₁]; exact hp.isOpen, fun d => ?_⟩, hclose, ?_⟩
  · by_cases hd : d = c
    · rw [hd, hs.fd]
      exact hp.other c
    · rw [hs.connection d hd]
      exact hp.other d
  · have hev : (w'.event (c, .read)).handler = .myread := by
      rw [hs.handler, (h.slot c hserve.1).handler, readHandler, if_neg hlc]
    rw [drainHandler, hev]
    have hm := myread_close hcons ((hs.serving_iff c).mpr hserve).1 hclose a
    rwa [show w'.timers = w.timers by rw [hw₁]; rfl] at hm

lemma drainLoop_spec (h : Steady w lc) (hp : Pending w s) (a : ReadAnswers) (i : ℕ) :
    ∃ w' cs, drainLoop a i w = some w' ∧ Pending w' s ∧ Drained w w' lc cs ∧
      (cs ≠ [] ↔ 0 < i ∧ Obliging w) := by
  induction i generalizing w with
  | zero => exact ⟨w, [], rfl, hp, .refl h, by simp⟩
  | succ i ih =>
    obtain ⟨free, lists, hcons⟩ := h.consistent
    rw [drainLoop]
    rcases drainNext_spec hcons with ⟨hl, hrun⟩ | ⟨c, l, hl, -, hrun, hcons₁⟩
    · rw [hrun]
      refine ⟨w, [], rfl, hp, .refl h, ?_⟩
      have hempty := (queueEmpty_rings hcons.queues.rings .reusable).mpr hl
      simp [Obliging, hempty]
    have hserve : Serving w c := h.reusable hcons (by rw [hl]; simp)
    have hlc : c ≠ lc := ((h.serving_iff c).mp hserve).2
    have hlast := queueLast_rings hcons.queues.rings hl
    have hempty : queueEmpty w.links (.head .reusable) = false := by
      rw [← Bool.not_eq_true, queueEmpty_rings hcons.queues.rings, hl]
      simp
    obtain ⟨-, hservice⟩ := setClose_spec w c
    obtain ⟨w₁, hw₁⟩ : ∃ w₁, w₁ = w.setConnection c fun r => { r with close := true } := ⟨_, rfl⟩
    rw [← hw₁] at hrun hcons₁ hservice
    obtain ⟨hs, hp₁, -, hhandler⟩ := asked_spec h hp hserve hw₁ hcons₁ a
    have hoblige : Obliging w ↔ w.timers.timedout (c, .read) = false := by
      constructor
      · rintro ⟨d, -, hd, hout⟩
        rw [hlast] at hd
        obtain rfl := Node.connection.inj (Option.some.inj hd)
        exact hout
      · exact fun hout => ⟨c, hempty, hlast, hout⟩
    rw [hrun]
    simp only [Option.bind_eq_bind, Option.bind_some, hhandler]
    have h₁ := hs.steady h hcons₁
    cases hout : w.timers.timedout (c, .read) with
    | true =>
      -- it stays the last one, and the other rounds do nothing either
      obtain ⟨w₂, cs, hloop, hp₂, hd, hiff⟩ := ih h₁ hp₁
      have hoblige₁ : Obliging w₁ ↔ Obliging w := by rw [hw₁]; rfl
      have hnot : ¬ Obliging w := by
        rw [hoblige, hout]
        simp
      obtain rfl : cs = [] := by
        by_contra hne
        exact hnot (hoblige₁.mp (hiff.mp hne).2)
      refine ⟨w₂, [], by simpa using hloop, hp₂, ?_, by simp [hnot]⟩
      refine ⟨hd.steady, ?_, fun received sent => ?_, fun _ hc => absurd hc List.not_mem_nil,
        fun d hd' => ?_, fun e => (hd.none e).trans ?_, fun e => absurd rfl e⟩
      · rw [hd.event, hs.event lc .read hlc.symm]
      · rw [← hservice]
        exact hd.run received sent
      · have := hd.inUse d hd'
        by_cases hdc : d = c
        · rw [hdc]
          exact hserve.1
        · exact (hs.toSame.inUse hdc).mp this
      · rw [hw₁]
        rfl
    | false =>
      obtain ⟨T, links, count, hclose, -, -⟩ :=
        closeConnection_spec hcons₁ ((hs.serving_iff c).mpr hserve).1
      rw [if_neg Bool.false_ne_true, hclose]
      obtain ⟨h₂, hs₂, hclient, hact, hpools, hk, hfree, hgone⟩ :=
        h.closeConnection hserve hs hcons₁ hclose
      generalize w₁.closed c T links count = w₂ at h₂ hs₂ hclient hact hpools hk hfree hgone
      obtain ⟨w₃, cs, hloop, hp₃, hd, hiff⟩ := ih h₂
        (hp.close hs₂ hgone (by rw [hk, hw₁]; rfl))
      refine ⟨w₃, c :: cs, hloop, hp₃, ?_, by simp [hoblige, hout]⟩
      have hinUse : ∀ d, InUse w₂.connection d → InUse w.connection d := by
        intro d hd'
        have hdc : d ≠ c := by
          rintro rfl
          exact hgone hd'
        exact (hs₂.inUse hdc).mp hd'
      refine ⟨hd.steady, ?_, fun received sent => ?_, fun d hd' => ?_,
        fun d hd' => hinUse d (hd.inUse d hd'), fun e => (by cases e), fun _ => ?_⟩
      · rw [hd.event, hs₂.event lc .read hlc.symm]
      · rw [List.map_cons, Service.run, List.foldlM_cons]
        have hstep : (serviceOf w received sent).step (.close c) =
            some (serviceOf w₂ received sent) := by
          simp [Service.step, serviceOf, Service.setClient, clientOf_of_serving hserve, hclient,
            hact, hpools]
        rw [hstep]
        exact hd.run received sent
      · rcases List.mem_cons.mp hd' with rfl | hd'
        · exact ⟨hserve, fun hu => hgone (hd.inUse d hu)⟩
        · obtain ⟨hserve', hnot⟩ := hd.gone d hd'
          refine ⟨?_, hnot⟩
          have hdc : d ≠ c := by
            rintro rfl
            exact hgone hserve'.1
          rw [h₂.serving_iff] at hserve'
          exact (h.serving_iff d).mpr ⟨hinUse d hserve'.1, hserve'.2⟩
      · by_cases hcs : cs = []
        · rw [hd.none hcs, hfree]
          simp
        · exact hd.some hcs

/-! ## `get_connection` -/

/-- `get_connection` drains if the free list is empty, and then answers NULL or takes the first
free slot. -/
lemma getConnection_spec (h : Steady w lc) (hp : Pending w s) (a : ReadAnswers) :
    ∃ w₀ cs, Drained w w₀ lc cs ∧ (cs ≠ [] ↔ w.freeConnections = none ∧ Obliging w) ∧
      ((w₀.freeConnections = none ∧ Pending w₀ s ∧ getConnection w s a = some (none, w₀)) ∨
        ∃ c free lists, w₀.freeConnections = some c ∧
          getConnection w s a = some (some c, w₀.taken c s) ∧ ¬ InUse w₀.connection c ∧
          Consistent (w₀.taken c s) free lists ∧ (w₀.taken c s).Blank c ∧
          InUse (w₀.taken c s).connection c) := by
  obtain ⟨w₀, cs, hdrain, hp₀, hd, hiff⟩ : ∃ w₀ cs,
      (if w.freeConnections = none then drainConnections w a else some w) = some w₀ ∧
      Pending w₀ s ∧ Drained w w₀ lc cs ∧ (cs ≠ [] ↔ w.freeConnections = none ∧ Obliging w) := by
    by_cases hfree : w.freeConnections = none
    · obtain ⟨w₀, cs, hrun, hp₀, hd, hiff⟩ := drainLoop_spec h hp a (drainCount w)
      have hpos : 0 < drainCount w := by
        rw [drainCount]
        omega
      exact ⟨w₀, cs, by rw [if_pos hfree, drainConnections, hrun], hp₀, hd, by
        simp [hiff, hpos, hfree]⟩
    · exact ⟨w, [], by rw [if_neg hfree], hp, .refl h, by simp [hfree]⟩
  have hget : getConnection w s a = (popConnection w₀ s).elim (some (none, w₀))
      fun p => some (some p.1, p.2) := by
    rw [getConnection]
    split_ifs at hdrain ⊢ <;> rw [hdrain] <;> cases hpop : popConnection w₀ s <;>
      simp [hpop]
  obtain ⟨free, lists, hcons⟩ := hd.steady.consistent
  have hnone : w₀.kernel.interest s = none := by
    by_contra hne
    obtain ⟨d, -, hfd⟩ := hcons.interests.owned s hne
    exact hp₀.other d hfd
  refine ⟨w₀, cs, hd, hiff, ?_⟩
  rcases popConnection_spec hcons hp₀.ne (fun d _ => hp₀.other d) hp₀.isOpen hnone with
    ⟨-, hpop⟩ | ⟨c, l, -, hnot, hpop, hcons', hblank, htakes⟩
  · left
    refine ⟨?_, hp₀, by simp [hget, hpop]⟩
    rw [popConnection, Option.map_eq_none_iff] at hpop
    exact hpop
  · right
    have hhead : w₀.freeConnections = some c := by
      obtain ⟨d, hd, hpair⟩ := Option.map_eq_some_iff.mp hpop
      rw [hd, ← (Prod.mk.inj hpair).1]
    exact ⟨c, l, lists, hhead, by simp [hget, hpop], hnot, hcons', hblank,
      (htakes.inUse c).mpr (.inl rfl)⟩

end Libcn.Program
