import Libcn.Rbtree.Sorted

/-!
# The timers of `event_timer.c`

`event_timer_rbtree` holds one node per armed event. A worker's timers are the tree, the two
flags of each event that the timer code writes, and `current_msec`.
-/

namespace Libcn.Timer

open Libcn.Lib Libcn.Rbtree

variable {ι : Type}

/-- `event_timer_rbtree` with the timer nodes of the events, their `timer_set` and `timedout`
bits, and `current_msec`. -/
structure Timers (ι : Type) where
  tree : Mem ι
  timerSet : ι → Bool
  timedout : ι → Bool
  currentMsec : BitVec 64

/-- Static storage, before `event_timer_init`. -/
def Timers.zeroed : Timers ι := ⟨Mem.zeroed, fun _ => false, fun _ => false, 0⟩

/-- `ev->timer.key`. -/
def Timers.key (T : Timers ι) (ev : ι) : BitVec 64 := T.tree.key (.node ev)

/-- `TIMER_LAZY_DELAY`. -/
def timerLazyDelay : ℤ := 300

/-- `c_abs` of a signed 64-bit value. The negation of `INT64_MIN` overflows, which C leaves open;
compiled, the comparison that follows takes it for `2 ^ 63`. -/
def cAbs (v : BitVec 64) : ℤ := if 0 ≤ v.toInt then v.toInt else -v.toInt

variable [DecidableEq ι]

/-- `event_timer_init`. -/
def eventTimerInit (T : Timers ι) : Timers ι := { T with tree := rbtreeInit T.tree .timerValue }

/-- `event_del_timer`. -/
def eventDelTimer (fuel : ℕ) (T : Timers ι) (ev : ι) : Option (Timers ι) := do
  let tree ← rbtreeDelete fuel T.tree (.node ev)
  pure { T with tree := tree, timerSet := Function.update T.timerSet ev false }

/-- The armed timer of `ev` is close enough to the new key to be left alone. -/
def lazy (T : Timers ι) (ev : ι) (key : BitVec 64) : Bool :=
  T.timerSet ev && decide (cAbs (key - T.key ev) < timerLazyDelay)

/-- `event_add_timer`. -/
def eventAddTimer (fuel : ℕ) (T : Timers ι) (ev : ι) (timer : BitVec 64) :
    Option (Timers ι) := do
  let key := T.currentMsec + timer
  if lazy T ev key then pure T
  else do
    let T ← if T.timerSet ev then eventDelTimer fuel T ev else pure T
    let tree ← rbtreeInsert fuel (T.tree.setKey (.node ev) key) (.node ev)
    pure { T with tree := tree, timerSet := Function.update T.timerSet ev true }

/-- One round of the loop of `event_expire_timers` up to the call of the handler: `some none`
when the function returns, and otherwise the event to handle and the key it was armed with. -/
def expireNext (fuel : ℕ) (T : Timers ι) : Option (Option (ι × BitVec 64 × Timers ι)) := do
  if T.tree.root = .sentinel then pure none
  else do
    let node ← rbtreeMin T.tree fuel T.tree.root
    let key ← T.tree.key? node
    if 0 < (key - T.currentMsec).toInt then pure none
    else match node with
      | .node ev => do
        let T ← eventDelTimer fuel T ev
        pure (some (ev, key, { T with timedout := Function.update T.timedout ev true }))
      | _ => none

/-! ## Calls made by handlers -/

/-- A timer operation a handler performs. -/
inductive TimerCall (ι : Type)
  | add (ev : ι) (timer : BitVec 64)
  | del (ev : ι)
  deriving DecidableEq, Repr

def TimerCall.run (fuel : ℕ) (T : Timers ι) : TimerCall ι → Option (Timers ι)
  | .add ev timer => eventAddTimer fuel T ev timer
  | .del ev => eventDelTimer fuel T ev

/-- The calls of one handler, in order. -/
def runCalls (fuel : ℕ) (T : Timers ι) (calls : List (TimerCall ι)) : Option (Timers ι) :=
  calls.foldlM (TimerCall.run fuel) T

/-- A handler deletes only armed timers and arms with delays from `1` to `2 ^ 62 - 1`. -/
def LegalCalls (armed : ι → Bool) : List (TimerCall ι) → Prop
  | [] => True
  | .add ev timer :: calls => 1 ≤ timer.toNat ∧ timer.toNat < 2 ^ 62 ∧
      LegalCalls (Function.update armed ev true) calls
  | .del ev :: calls => armed ev = true ∧ LegalCalls (Function.update armed ev false) calls

/-- A handler call of `event_expire_timers`: the event, the key it was armed with, the state
the handler starts in, and what it does. -/
structure Fired (ι : Type) where
  ev : ι
  key : BitVec 64
  state : Timers ι
  calls : List (TimerCall ι)

/-- `event_expire_timers`. The handler of `ev`, called as the `n`-th one, performs
`handler n T ev`. The log lists the handler calls. -/
def eventExpireTimers (fuel : ℕ) (handler : ℕ → Timers ι → ι → List (TimerCall ι)) :
    ℕ → ℕ → Timers ι → Option (Timers ι × List (Fired ι))
  | 0, _, _ => none
  | rounds + 1, n, T => do
    match ← expireNext fuel T with
    | none => pure (T, [])
    | some (ev, key, T₁) => do
      let calls := handler n T₁ ev
      let T₂ ← runCalls fuel T₁ calls
      let (T₃, log) ← eventExpireTimers fuel handler rounds (n + 1) T₂
      pure (T₃, ⟨ev, key, T₁, calls⟩ :: log)

end Libcn.Timer
