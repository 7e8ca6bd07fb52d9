import Libcn.Rbtree.Rekey
import Libcn.Timer.Find

/-!
# The origin of the clock

The timers compare keys by their difference, and so does `rbtree_insert_timer_value`. A clock that
is ahead by a fixed offset, wrapping or not, changes nothing but the keys.
-/

namespace Libcn.Timer

open Libcn.Lib Libcn.Rbtree

variable {ι : Type}

/-- The second timers are the first by a clock that is `d` ahead: the tree links and colours the
same events, and the armed keys differ by `d`. -/
structure Shifted (d : BitVec 64) (T T' : Timers ι) : Prop where
  tree : T'.tree = T.tree.withKey T'.tree.key
  key : ∀ i, T.timerSet i = true → T'.key i = T.key i + d
  timerSet : T'.timerSet = T.timerSet
  timedout : T'.timedout = T.timedout
  currentMsec : T'.currentMsec = T.currentMsec + d

/-- A handler call by a clock that is `d` ahead. -/
structure Fired.Shifted (d : BitVec 64) (f f' : Fired ι) : Prop where
  ev : f'.ev = f.ev
  key : f'.key = f.key + d
  state : Timer.Shifted d f.state f'.state
  calls : f'.calls = f.calls

/-! ## Runs -/

/-- What the handlers do: the calls of the `n`-th handler, the one of an event, given the
`timer_set` and `timedout` bits. A call names an event and a delay. -/
abbrev Handlers (ι : Type) := ℕ → (ι → Bool) → (ι → Bool) → ι → List (TimerCall ι)

/-- A step of a run: the clock is read, a timer is armed or deleted, the due timers expire, or the
time to the next one is asked for. -/
inductive TimerOp (ι : Type)
  | clock (now : BitVec 64)
  | call (c : TimerCall ι)
  | expire (handlers : Handlers ι)
  | find

/-- The step by a clock that is `d` ahead. -/
def TimerOp.shift (d : BitVec 64) : TimerOp ι → TimerOp ι
  | .clock now => .clock (now + d)
  | op => op

/-- What a step shows: the timers after it, the handlers it called, and the answer of
`event_find_timer`. -/
structure Seen (ι : Type) where
  timers : Timers ι
  fired : List (Fired ι)
  found : Option (BitVec 64)

/-- The step looks the same by a clock that is `d` ahead. -/
structure Seen.Shifted (d : BitVec 64) (s s' : Seen ι) : Prop where
  timers : Timer.Shifted d s.timers s'.timers
  fired : List.Forall₂ (Fired.Shifted d) s.fired s'.fired
  found : s'.found = s.found

variable [DecidableEq ι]

def TimerOp.run (fuel rounds : ℕ) (T : Timers ι) : TimerOp ι → Option (Seen ι)
  | .clock now => some ⟨{ T with currentMsec := now }, [], none⟩
  | .call c => do pure ⟨← c.run fuel T, [], none⟩
  | .expire handlers => do
    let (T, log) ← eventExpireTimers fuel (fun n T ev => handlers n T.timerSet T.timedout ev)
      rounds 0 T
    pure ⟨T, log, none⟩
  | .find => do pure ⟨T, [], some (← eventFindTimer fuel T)⟩

/-- What a run shows, step by step. -/
def runTimers (fuel rounds : ℕ) : Timers ι → List (TimerOp ι) → Option (List (Seen ι))
  | _, [] => some []
  | T, op :: ops => do
    let s ← op.run fuel rounds T
    pure (s :: (← runTimers fuel rounds s.timers ops))

/-- Only armed timers are deleted. -/
def TimerOp.Legal (T : Timers ι) : TimerOp ι → Prop
  | .call c => DelsArmed T.timerSet [c]
  | .expire handlers => ∀ n armed out ev, DelsArmed armed (handlers n armed out ev)
  | _ => True

def LegalRun (fuel rounds : ℕ) : Timers ι → List (TimerOp ι) → Prop
  | _, [] => True
  | T, op :: ops => op.Legal T ∧
      ∀ s, op.run fuel rounds T = some s → LegalRun fuel rounds s.timers ops

/-- Two computations go on alike from alike results. -/
lemma rel_bind {α β γ δ : Type} {r : α → β → Prop} {s : γ → δ → Prop} {x : Option α} {y : Option β}
    {f : α → Option γ} {g : β → Option δ} (h : Option.Rel r x y)
    (hf : ∀ a b, x = some a → r a b → Option.Rel s (f a) (g b)) :
    Option.Rel s (x.bind f) (y.bind g) := by
  cases h with
  | none => exact .none
  | some hab => exact hf _ _ rfl hab

lemma exists_of_rel {α β : Type} {r : α → β → Prop} {x : Option α} {y : Option β} {a : α}
    (hx : x = some a) (h : Option.Rel r x y) : ∃ b, y = some b ∧ r a b := by
  cases h with
  | none => cases hx
  | some hab => exact ⟨_, rfl, Option.some.inj hx ▸ hab⟩

/-! ## One operation -/

/-- Timers in use, and the same by a clock that is `d` ahead. -/
structure Lockstep (d : BitVec 64) (T T' : Timers ι) : Prop where
  mirrors : Mirrors T fun _ => True
  insert : T.tree.insert = .timerValue
  shifted : Shifted d T T'

lemma less_timerValue_add (a b d : BitVec 64) :
    InsertPt.timerValue.less (a + d) (b + d) = InsertPt.timerValue.less a b := by
  have hsub : a + d - (b + d) = a - b := by ring
  simp only [InsertPt.less, hsub]

/-- The children of the nodes of a tree are nodes of the tree. -/
lemma Holding.closed {m : Mem ι} {S : ι → Prop} (h : Holding m S) :
    (∀ i, m.root = .node i → S i) ∧ ∀ i, S i → ∀ d j, m.child d (.node i) = .node j → S j := by
  obtain ⟨t, ht, hmem⟩ := h
  obtain ⟨p₀, hfoc⟩ := ht.focus
  have hroot : m.root = rootPtr t := hfoc.isCtx
  constructor
  · intro i hi
    exact (hmem i).mp (mem_of_rootPtr (hroot ▸ hi))
  · intro i hi d j hij
    have hin : i ∈ t.toList.toFinset := List.mem_toFinset.mpr ((hmem i).mpr hi)
    exact (hmem j).mp (List.mem_toFinset.mp (ht.law.parentOfChild i hin d j hij).1)

section Operations

variable [Fintype ι] {fuel rounds : ℕ} {d : BitVec 64} {T T' : Timers ι} {ev : ι}

omit [DecidableEq ι] [Fintype ι] in
/-- `event_add_timer` leaves the same timers alone. -/
lemma Lockstep.lazy (h : Lockstep d T T') (ev : ι) (timer : BitVec 64) :
    lazy T' ev (T'.currentMsec + timer) = lazy T ev (T.currentMsec + timer) := by
  unfold Timer.lazy
  rw [h.shifted.timerSet, h.shifted.currentMsec]
  by_cases hset : T.timerSet ev = true
  · have hsub : T.currentMsec + d + timer - T'.key ev = T.currentMsec + timer - T.key ev := by
      rw [h.shifted.key ev hset]
      ring
    rw [hsub]
  · rw [Bool.not_eq_true] at hset
    rw [hset, Bool.false_and, Bool.false_and]

lemma Lockstep.del (h : Lockstep d T T') (hset : T.timerSet ev = true)
    (hf : Fintype.card ι < fuel) :
    ∃ T₁ T₁', eventDelTimer fuel T ev = some T₁ ∧ eventDelTimer fuel T' ev = some T₁' ∧
      Lockstep d T₁ T₁' ∧ T₁.timerSet = Function.update T.timerSet ev false := by
  obtain ⟨T₁, hrun, hm, hts, htm, hnow, hins, hkey⟩ := eventDelTimer_keyed h.mirrors trivial hset hf
  obtain ⟨tree, htree, hrest⟩ := Option.bind_eq_some_iff.mp hrun
  obtain rfl := Option.some.inj hrest
  have hrun' : rbtreeDelete fuel T'.tree (.node ev) =
      some (tree.withKey (Function.update T'.tree.key (.node ev) 0)) := by
    rw [h.shifted.tree, rbtreeDelete_withKey, htree]
    rfl
  refine ⟨_, { T' with
    tree := tree.withKey (Function.update T'.tree.key (.node ev) 0)
    timerSet := Function.update T'.timerSet ev false }, hrun, ?_, ⟨hm, hins.trans h.insert, ?_⟩, rfl⟩
  · rw [eventDelTimer, hrun']
    rfl
  · refine ⟨rfl, fun i hi => ?_, ?_, h.shifted.timedout, h.shifted.currentMsec⟩
    · have hne : i ≠ ev := by
        rintro rfl
        simp at hi
      have hne' : (Ptr.node i : Ptr ι) ≠ .node ev := fun e => hne (Ptr.node.inj e)
      have hold : T.timerSet i = true := by simpa [hne] using hi
      show Function.update T'.tree.key (.node ev) 0 (.node i) = tree.key (.node i) + d
      rw [show tree.key = _ from hkey, Function.update_of_ne hne', Function.update_of_ne hne']
      exact h.shifted.key i hold
    · rw [h.shifted.timerSet]

/-- The second half of `event_add_timer`. -/
lemma Lockstep.insertTimer (h : Lockstep d T T') (hset : T.timerSet ev = false)
    (key : BitVec 64) (hf : Fintype.card ι < fuel) :
    ∃ tree tree', rbtreeInsert fuel (T.tree.setKey (.node ev) key) (.node ev) = some tree ∧
      rbtreeInsert fuel (T'.tree.setKey (.node ev) (key + d)) (.node ev) = some tree' ∧
      Lockstep d { T with tree := tree, timerSet := Function.update T.timerSet ev true }
        { T' with tree := tree', timerSet := Function.update T'.timerSet ev true } := by
  obtain ⟨tree, hrun, hm, hins, hkey⟩ := insertTimer_keyed h.mirrors trivial hset key hf
  have hne : ∀ i, T.timerSet i = true → (Ptr.node i : Ptr ι) ≠ .node ev := by
    intro i hi e
    rw [Ptr.node.inj e, hset] at hi
    cases hi
  have hrun' : rbtreeInsert fuel (T'.tree.setKey (.node ev) (key + d)) (.node ev) =
      some (tree.withKey (Function.update T'.tree.key (.node ev) (key + d))) := by
    have hset' : T'.tree.setKey (.node ev) (key + d) = (T.tree.setKey (.node ev) key).withKey
        (Function.update T'.tree.key (.node ev) (key + d)) := by
      rw [h.shifted.tree]
      rfl
    obtain ⟨hroot, hchild⟩ := h.mirrors.closed
    -- the new key compares with an armed one as before
    have hless : ∀ i, True ∧ T.timerSet i = true →
        (T.tree.setKey (.node ev) key).insert.less
          (Function.update T'.tree.key (.node ev) (key + d) (.node ev))
          (Function.update T'.tree.key (.node ev) (key + d) (.node i)) =
        (T.tree.setKey (.node ev) key).insert.less
          ((T.tree.setKey (.node ev) key).key (.node ev))
          ((T.tree.setKey (.node ev) key).key (.node i)) := by
      intro i hi
      have hi' : T'.tree.key (.node i) = T.tree.key (.node i) + d := h.shifted.key i hi.2
      simp only [Mem.setKey, h.insert, Function.update_self, Function.update_of_ne (hne i hi.2),
        hi', less_timerValue_add]
    rw [hset', rbtreeInsert_withKey (m := T.tree.setKey (.node ev) key) hroot hchild hless, hrun]
    rfl
  refine ⟨tree, _, hrun, hrun', hm, hins.trans h.insert, rfl, fun i hi => ?_, ?_,
    h.shifted.timedout, h.shifted.currentMsec⟩
  · show Function.update T'.tree.key (.node ev) (key + d) (.node i) = tree.key (.node i) + d
    rw [hkey]
    by_cases hie : i = ev
    · rw [hie, Function.update_self, Function.update_self]
    · have hi' : T.timerSet i = true := by simpa [hie] using hi
      rw [Function.update_of_ne (hne i hi'), Function.update_of_ne (hne i hi')]
      exact h.shifted.key i hi'
  · rw [h.shifted.timerSet]

lemma Lockstep.add (h : Lockstep d T T') (timer : BitVec 64) (hf : Fintype.card ι < fuel) :
    ∃ T₁ T₁', eventAddTimer fuel T ev timer = some T₁ ∧ eventAddTimer fuel T' ev timer = some T₁' ∧
      Lockstep d T₁ T₁' ∧ T₁.timerSet = Function.update T.timerSet ev true := by
  have hlazy' := h.lazy ev timer
  have hkey : T'.currentMsec + timer = T.currentMsec + timer + d := by
    rw [h.shifted.currentMsec]
    ring
  by_cases hlazy : Timer.lazy T ev (T.currentMsec + timer) = true
  · have hset : T.timerSet ev = true := (Bool.and_eq_true_iff.mp hlazy).1
    refine ⟨T, T', by simp [eventAddTimer, hlazy], by simp [eventAddTimer, hlazy', hlazy], h, ?_⟩
    rw [← hset, Function.update_eq_self]
  · have hset' : T'.timerSet ev = T.timerSet ev := congrFun h.shifted.timerSet ev
    by_cases hset : T.timerSet ev = true
    · obtain ⟨T₁, T₁', hdel, hdel', h₁, hts₁⟩ := h.del hset hf
      obtain ⟨tree, tree', hins, hins', h₂⟩ :=
        h₁.insertTimer (by simp [hts₁] : T₁.timerSet ev = false) (T.currentMsec + timer) hf
      refine ⟨_, _, ?_, ?_, h₂, by simp [hts₁]⟩
      · simp [eventAddTimer, hlazy, hset, hdel, hins]
      · rw [← hkey] at hins'
        simp [eventAddTimer, hlazy', hlazy, hset', hset, hdel', hins']
    · obtain ⟨tree, tree', hins, hins', h₂⟩ :=
        h.insertTimer (Bool.not_eq_true _ ▸ hset) (T.currentMsec + timer) hf
      refine ⟨_, _, ?_, ?_, h₂, rfl⟩
      · simp [eventAddTimer, hlazy, hset, hins]
      · rw [← hkey] at hins'
        simp [eventAddTimer, hlazy', hlazy, hset', hset, hins']

/-! ## Whole runs -/

/-- A call that deletes only an armed event leaves the rest of a handler legal. -/
lemma Lockstep.call {c : TimerCall ι} {calls : List (TimerCall ι)} (h : Lockstep d T T')
    (hlegal : DelsArmed T.timerSet (c :: calls)) (hf : Fintype.card ι < fuel) :
    ∃ T₁ T₁', c.run fuel T = some T₁ ∧ c.run fuel T' = some T₁' ∧ Lockstep d T₁ T₁' ∧
      DelsArmed T₁.timerSet calls := by
  cases c with
  | add ev timer =>
    obtain ⟨T₁, T₁', hrun, hrun', h₁, hts⟩ := h.add timer hf
    exact ⟨T₁, T₁', hrun, hrun', h₁, hts ▸ hlegal⟩
  | del ev =>
    obtain ⟨T₁, T₁', hrun, hrun', h₁, hts⟩ := h.del hlegal.1 hf
    exact ⟨T₁, T₁', hrun, hrun', h₁, hts ▸ hlegal.2⟩

lemma Lockstep.calls {calls : List (TimerCall ι)} (h : Lockstep d T T')
    (hlegal : DelsArmed T.timerSet calls) (hf : Fintype.card ι < fuel) :
    ∃ T₁ T₁', runCalls fuel T calls = some T₁ ∧ runCalls fuel T' calls = some T₁' ∧
      Lockstep d T₁ T₁' := by
  induction calls generalizing T T' with
  | nil => exact ⟨T, T', rfl, rfl, h⟩
  | cons c calls ih =>
    obtain ⟨T₁, T₁', hrun, hrun', h₁, hlegal₁⟩ := h.call hlegal hf
    obtain ⟨T₂, T₂', hrest, hrest', h₂⟩ := ih h₁ hlegal₁
    refine ⟨T₂, T₂', ?_, ?_, h₂⟩
    · rw [runCalls, List.foldlM_cons, hrun]
      exact hrest
    · rw [runCalls, List.foldlM_cons, hrun']
      exact hrest'

/-- The leftmost node is the same, and as far from the clock. -/
lemma Lockstep.leftmost (h : Lockstep d T T') (hf : Fintype.card ι < fuel) :
    (T.tree.root = .sentinel ∧ T'.tree.root = .sentinel) ∨
    ∃ ev, T.tree.root ≠ .sentinel ∧ T'.tree.root ≠ .sentinel ∧
      rbtreeMin T.tree fuel T.tree.root = some (.node ev) ∧
      rbtreeMin T'.tree fuel T'.tree.root = some (.node ev) ∧ T.timerSet ev = true ∧
      T'.tree.key (.node ev) = T.tree.key (.node ev) + d ∧
      T'.tree.key (.node ev) - T'.currentMsec = T.tree.key (.node ev) - T.currentMsec := by
  have hroot : T'.tree.root = T.tree.root := by
    rw [h.shifted.tree]
    rfl
  rw [hroot]
  rcases Timer.leftmost h.mirrors hf with ⟨hnil, -⟩ | ⟨ev, hne, hmin, -, hset⟩
  · exact .inl ⟨hnil, hnil⟩
  · have hkey : T'.tree.key (.node ev) = T.tree.key (.node ev) + d := h.shifted.key ev hset
    refine .inr ⟨ev, hne, hne, hmin, ?_, hset, hkey, ?_⟩
    · rw [h.shifted.tree, rbtreeMin_withKey, hmin]
    · rw [hkey, h.shifted.currentMsec]
      ring

/-- A round of `event_expire_timers` ends both loops, or takes the same event. -/
lemma Lockstep.next (h : Lockstep d T T') (hf : Fintype.card ι < fuel) :
    (expireNext fuel T = some none ∧ expireNext fuel T' = some none) ∨
    ∃ ev key T₁ T₁', expireNext fuel T = some (some (ev, key, T₁)) ∧
      expireNext fuel T' = some (some (ev, key + d, T₁')) ∧ Lockstep d T₁ T₁' := by
  rcases h.leftmost hf with ⟨hnil, hnil'⟩ | ⟨ev, hne, hne', hmin, hmin', hset, hkey, hsub⟩
  · exact .inl ⟨by simp [expireNext, hnil], by simp [expireNext, hnil']⟩
  · by_cases hdue : 0 < (T.tree.key (.node ev) - T.currentMsec).toInt
    · refine .inl ⟨?_, ?_⟩
      · simp [expireNext, hne, hmin, hdue, -BitVec.toInt_sub]
      · simp [expireNext, hne', hmin', hsub, hdue, -BitVec.toInt_sub]
    · obtain ⟨T₁, T₁', hdel, hdel', h₁, -⟩ := h.del hset hf
      refine .inr ⟨ev, T.tree.key (.node ev),
        { T₁ with timedout := Function.update T₁.timedout ev true },
        { T₁' with timedout := Function.update T₁'.timedout ev true }, ?_, ?_, h₁.mirrors, h₁.insert,
        h₁.shifted.tree, h₁.shifted.key, h₁.shifted.timerSet, ?_, h₁.shifted.currentMsec⟩
      · simp only [expireNext, hne, hmin, hdue, hdel, if_false, Mem.key?_node,
          Option.bind_eq_bind, Option.bind_some, Option.pure_def]
      · simp only [expireNext, hne', hmin', hsub, hdue, hdel', if_false, Mem.key?_node,
          Option.bind_eq_bind, Option.bind_some, Option.pure_def]
        rw [hkey]
      · rw [h₁.shifted.timedout]

/-- `event_expire_timers` calls the same handlers. -/
lemma Lockstep.expire {handlers : Handlers ι} {n : ℕ} (h : Lockstep d T T')
    (hlegal : ∀ n armed out ev, DelsArmed armed (handlers n armed out ev))
    (hf : Fintype.card ι < fuel) :
    Option.Rel (fun o o' => Lockstep d o.1 o'.1 ∧ List.Forall₂ (Fired.Shifted d) o.2 o'.2)
      (eventExpireTimers fuel (fun n T ev => handlers n T.timerSet T.timedout ev) rounds n T)
      (eventExpireTimers fuel (fun n T ev => handlers n T.timerSet T.timedout ev) rounds n T') := by
  induction rounds generalizing n T T' with
  | zero => exact .none
  | succ rounds ih =>
    rcases h.next hf with ⟨hnext, hnext'⟩ | ⟨ev, key, T₁, T₁', hnext, hnext', h₁⟩
    · simp only [eventExpireTimers, hnext, hnext', Option.bind_eq_bind, Option.bind_some]
      exact .some ⟨h, .nil⟩
    · obtain ⟨T₂, T₂', hcalls, hcalls', h₂⟩ := h₁.calls (hlegal n T₁.timerSet T₁.timedout ev) hf
      simp only [eventExpireTimers, hnext, hnext', h₁.shifted.timerSet, h₁.shifted.timedout, hcalls,
        hcalls', Option.bind_eq_bind, Option.bind_some]
      refine rel_bind (ih (n := n + 1) h₂) fun o o' _ hrest => ?_
      exact .some ⟨hrest.1, .cons ⟨rfl, rfl, h₁.shifted, rfl⟩ hrest.2⟩

/-- `event_find_timer` answers the same. -/
lemma Lockstep.find (h : Lockstep d T T') (hf : Fintype.card ι < fuel) :
    ∃ timer, eventFindTimer fuel T = some timer ∧ eventFindTimer fuel T' = some timer := by
  rcases h.leftmost hf with ⟨hnil, hnil'⟩ | ⟨ev, hne, hne', hmin, hmin', -, -, hsub⟩
  · exact ⟨timerInfinite, by simp [eventFindTimer, hnil], by simp [eventFindTimer, hnil']⟩
  · let timer := T.tree.key (.node ev) - T.currentMsec
    refine ⟨if 0 < timer.toInt then timer else 0, ?_, ?_⟩
    · simp only [eventFindTimer, hne, if_false, hmin, Option.bind_eq_bind, Option.bind_some,
        Mem.key?_node, Option.pure_def, timer]
    · simp only [eventFindTimer, hne', if_false, hmin', Option.bind_eq_bind, Option.bind_some,
        Mem.key?_node, Option.pure_def, hsub, timer]

/-- A step shows the same. -/
lemma Lockstep.op {op : TimerOp ι} (h : Lockstep d T T') (hlegal : op.Legal T)
    (hf : Fintype.card ι < fuel) :
    Option.Rel (fun s s' => Lockstep d s.timers s'.timers ∧ s.Shifted d s') (op.run fuel rounds T)
      ((op.shift d).run fuel rounds T') := by
  cases op with
  | clock now =>
    have h₁ : Lockstep d { T with currentMsec := now } { T' with currentMsec := now + d } :=
      ⟨h.mirrors, h.insert, h.shifted.tree, h.shifted.key, h.shifted.timerSet, h.shifted.timedout,
        rfl⟩
    exact .some ⟨h₁, h₁.shifted, .nil, rfl⟩
  | call c =>
    obtain ⟨T₁, T₁', hrun, hrun', h₁, -⟩ := h.call hlegal hf
    simp only [TimerOp.run, TimerOp.shift, hrun, hrun']
    exact .some ⟨h₁, h₁.shifted, .nil, rfl⟩
  | expire handlers =>
    refine rel_bind (h.expire (n := 0) hlegal hf) fun o o' _ hrest => ?_
    exact .some ⟨hrest.1, hrest.1.shifted, hrest.2, rfl⟩
  | find =>
    obtain ⟨timer, hrun, hrun'⟩ := h.find hf
    simp only [TimerOp.run, TimerOp.shift, hrun, hrun']
    exact .some ⟨h, h.shifted, .nil, rfl⟩

lemma Lockstep.run {ops : List (TimerOp ι)} (h : Lockstep d T T')
    (hlegal : LegalRun fuel rounds T ops) (hf : Fintype.card ι < fuel) :
    Option.Rel (List.Forall₂ (Seen.Shifted d)) (runTimers fuel rounds T ops)
      (runTimers fuel rounds T' (ops.map (TimerOp.shift d))) := by
  induction ops generalizing T T' with
  | nil => exact .some .nil
  | cons op ops ih =>
    obtain ⟨hop, hrest⟩ := hlegal
    refine rel_bind (h.op hop hf) fun s s' hs hstep => ?_
    refine rel_bind (ih hstep.1 (hrest s hs)) fun l l' _ htail => ?_
    exact .some (.cons hstep.2 htail)

/-- Every run of the timers, by a clock that is `d` ahead all along, shows at each step the same
tree over the same events with keys that differ by `d`, the same events fired and the same answer of
`event_find_timer`. -/
theorem runTimers_shift (d : BitVec 64) (T : Timers ι) (h : ∀ i, T.timerSet i = false)
    (ops : List (TimerOp ι)) (hlegal : LegalRun fuel rounds (eventTimerInit T) ops)
    (hf : Fintype.card ι < fuel) :
    Option.Rel (List.Forall₂ (Seen.Shifted d)) (runTimers fuel rounds (eventTimerInit T) ops)
      (runTimers fuel rounds { eventTimerInit T with currentMsec := T.currentMsec + d }
        (ops.map (TimerOp.shift d))) := by
  have hinit : Mirrors (eventTimerInit T) fun _ => True :=
    (eventTimerInit_holding T).congr fun i => by simp [eventTimerInit, h i]
  refine Lockstep.run ⟨hinit, rfl, rfl, fun i hi => ?_, rfl, rfl, rfl⟩ hlegal hf
  rw [show (eventTimerInit T).timerSet i = false from h i] at hi
  cases hi

/-- A timer is armed, asked for and fires, by a clock that starts at 0 and by one that wraps. -/
theorem runTimers_shift_wrap : ∃ l l' : List (Seen (Fin 1)),
    runTimers 2 2 (eventTimerInit Timers.zeroed)
      [.call (.add 0 5), .find, .clock 9, .expire fun _ _ _ _ => []] = some l ∧
    runTimers 2 2 { eventTimerInit Timers.zeroed with currentMsec := -3 }
      [.call (.add 0 5), .find, .clock 6, .expire fun _ _ _ _ => []] = some l' ∧
    List.Forall₂ (Seen.Shifted (-3)) l l' ∧ (l.flatMap Seen.fired).map Fired.ev = [0] := by
  have hlegal : LegalRun 2 2 (eventTimerInit (Timers.zeroed : Timers (Fin 1)))
      [.call (.add 0 5), .find, .clock 9, .expire fun _ _ _ _ => []] :=
    ⟨trivial, fun _ _ => ⟨trivial, fun _ _ => ⟨trivial, fun _ _ =>
      ⟨fun _ _ _ _ => trivial, fun _ _ => trivial⟩⟩⟩⟩
  have hrel := runTimers_shift (-3) Timers.zeroed (fun _ => rfl) _ hlegal (by decide)
  have hfired : (runTimers 2 2 (eventTimerInit (Timers.zeroed : Timers (Fin 1)))
      [.call (.add 0 5), .find, .clock 9, .expire fun _ _ _ _ => []]).map
        (fun l => (l.flatMap Seen.fired).map Fired.ev) = some [0] := by decide
  obtain ⟨l, hl, hev⟩ := Option.map_eq_some_iff.mp hfired
  obtain ⟨l', hl', hrel⟩ := exists_of_rel hl hrel
  exact ⟨l, l', hl, hl', hrel, hev⟩

end Operations

end Libcn.Timer
