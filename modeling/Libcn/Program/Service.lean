import Libcn.Lib.Machine
import Libcn.Program.Handlers

/-!
# What a worker does for its clients

An abstract model of the program. A slot serves a client or none, and of a client it is known how
the worker will hear of it again, what is buffered for it and what was allocated for it. The moves
are what can happen to a client between `accept` and `close`; which of them the code makes, and
when, is not part of this model.
-/

namespace Libcn.Program

open Libcn.Lib Libcn.Cycle

variable {n : ℕ}

/-! ## State -/

/-- An accepted connection that is open: whether `epoll` watches it for input, whether its timer
is armed, its buffer, how many bytes `send` took, and its pool. -/
structure Client where
  watched : Bool
  timed : Bool
  buffer : Option Buf
  sent : ℕ
  pool : Option ℕ

/-- The clients of the slots, the counter and the pools of the worker, and the bytes received
from and sent to the last client of a slot. -/
@[ext]
structure Service (n : ℕ) where
  client : Fin n → Option Client
  statActive : ℤ
  pools : List ℕ
  received : Fin n → List UInt8
  sent : Fin n → List UInt8

/-- What happens to a client. -/
inductive Move (n : ℕ)
  /-- The connection is closed by `close_connection`. -/
  | close (c : Fin n)
  /-- The timer expires. -/
  | expire (c : Fin n)
  /-- Bytes are received into the buffer, for which there may have to be memory. -/
  | receive (c : Fin n) (memory : Option (ℕ → UInt8)) (l : List UInt8)
  /-- `send` takes `k` bytes; if these are all, the read event may be added to `epoll`. -/
  | send (c : Fin n) (k : ℕ) (granted : Bool)
  /-- A connection is accepted. If it is deferred, it is not watched. -/
  | accept (c : Fin n) (pool : ℕ) (deferred : Bool)
  /-- An accepted connection is closed at once by `close_accepted_connection`. -/
  | decline (c : Fin n)
  /-- An accepted connection is closed at once by `close_connection`. -/
  | refuse (c : Fin n) (pool : ℕ)

/-! ## Moves -/

/-- The size of the buffers of `myread`. -/
def readSize : ℕ := 1024

/-- A client after `send` took `k` bytes of its buffer `b`. -/
def Client.send (r : Client) (b : Buf) (k : ℕ) (granted : Bool) : Client :=
  if k = 0 then r
  else if k = bufSize b then
    { r with watched := r.watched || granted, timed := false, sent := r.sent + k }
  else
    { r with timed := false, sent := r.sent + k, buffer := some { b with pos := b.pos + k } }

/-- A client that was just accepted. -/
def Client.accepted (pool : ℕ) (deferred : Bool) : Client where
  watched := !deferred
  timed := true
  buffer := none
  sent := 0
  pool := some pool

namespace Service

/-- The client of a slot is replaced. -/
def setClient (A : Service n) (c : Fin n) (r : Option Client) : Service n :=
  { A with client := Function.update A.client c r }

/-- What was received and sent on a slot is forgotten. -/
def clear (A : Service n) (c : Fin n) : Service n :=
  { A with received := Function.update A.received c [], sent := Function.update A.sent c [] }

/-- One move, if there is the client it is about. -/
def step (A : Service n) : Move n → Option (Service n)
  | .close c => (A.client c).map fun _ => A.setClient c none
  | .expire c => (A.client c).map fun r => A.setClient c (some { r with timed := false })
  | .receive c memory l => do
    let r ← A.client c
    let b ← readBuffer r.buffer memory readSize
    pure { A.setClient c (some { r with buffer := some (bufReceive b l) }) with
      received := Function.update A.received c (A.received c ++ l) }
  | .send c k granted => do
    let r ← A.client c
    let b ← r.buffer
    if k ≤ bufSize b then
      pure { A.setClient c (some (r.send b k granted)) with
        sent := Function.update A.sent c (A.sent c ++ bufBytes b b.pos k) }
    else none
  | .accept c pool deferred =>
    if (A.client c).isNone then
      some { (A.clear c).setClient c (some (.accepted pool deferred)) with
        statActive := A.statActive + 1
        pools := pool :: A.pools }
    else none
  | .decline c => if (A.client c).isNone then some (A.clear c) else none
  | .refuse c pool =>
    if (A.client c).isNone then
      some { A.clear c with statActive := A.statActive + 1, pools := pool :: A.pools }
    else none

/-- Several moves. -/
def run (A : Service n) (ms : List (Move n)) : Option (Service n) := ms.foldlM step A

/-- There is no client yet. -/
def start (n : ℕ) : Service n where
  client _ := none
  statActive := 0
  pools := []
  received _ := []
  sent _ := []

end Service

/-- The runs of the abstract model. -/
def serviceMachine (n : ℕ) : Machine (Service n) (Move n) := ⟨(· = .start n), Service.step⟩

/-- The states of the runs whose moves all satisfy `ok`. -/
def Serves (ok : Service n → Move n → Prop) (A : Service n) : Prop := (serviceMachine n).Reach ok A

lemma Service.run_append (A : Service n) (ms ms' : List (Move n)) :
    A.run (ms ++ ms') = (A.run ms).bind fun B => B.run ms' := by
  rw [Service.run, List.foldlM_append]
  rfl

/-- Moves that are allowed in any state lead from a state of the runs to another. -/
lemma Serves.run {ok : Service n → Move n → Prop} {A A' : Service n} {ms : List (Move n)}
    (h : Serves ok A) (hrun : A.run ms = some A') (hok : ∀ m ∈ ms, ∀ B, ok B m) :
    Serves ok A' := by
  induction ms generalizing A with
  | nil =>
    cases hrun
    exact h
  | cons m ms ih =>
    rw [Service.run, List.foldlM_cons] at hrun
    obtain ⟨A₁, hm, hrun⟩ := Option.bind_eq_some_iff.mp hrun
    exact ih (.step h (hok m (.head _) A) hm) hrun fun m' hm' => hok m' (.tail _ hm')

/-! ## Properties of each client -/

/-- Each client has the property, with the bytes received from it and sent to it. -/
def Service.Each (P : Client → List UInt8 → List UInt8 → Prop) (A : Service n) : Prop :=
  ∀ c, ∀ r ∈ A.client c, P r (A.received c) (A.sent c)

namespace Service.Each

variable {P : Client → List UInt8 → List UInt8 → Prop} {A A' : Service n}

/-- A move about one slot. -/
lemma update (h : A.Each P) {c : Fin n} {o : Option Client} {received sent : List UInt8}
    (hclient : A'.client = Function.update A.client c o)
    (hreceived : A'.received = Function.update A.received c received)
    (hsent : A'.sent = Function.update A.sent c sent) (ho : ∀ r ∈ o, P r received sent) :
    A'.Each P := by
  intro d
  rw [hclient, hreceived, hsent]
  by_cases hd : d = c
  · subst hd
    rwa [Function.update_self, Function.update_self, Function.update_self]
  · rw [Function.update_of_ne hd, Function.update_of_ne hd, Function.update_of_ne hd]
    exact h d

/-- A move that only changes a client. -/
lemma setClient (h : A.Each P) (c : Fin n) {o : Option Client}
    (ho : ∀ r ∈ o, P r (A.received c) (A.sent c)) : (A.setClient c o).Each P :=
  h.update rfl (Function.update_eq_self c _).symm (Function.update_eq_self c _).symm ho

/-- A slot without a client is cleared. -/
lemma clear (h : A.Each P) {c : Fin n} (hc : A.client c = none) : (A.clear c).Each P := by
  refine h.update (o := none) ?_ rfl rfl nofun
  rw [← hc, Function.update_eq_self]
  rfl

/-- A property of a client that nothing takes from it is kept by a move. -/
lemma step (h : A.Each P) {m : Move n} (hstep : A.step m = some A')
    (hexpire : ∀ r received sent, P r received sent → P { r with timed := false } received sent)
    (hreceive : ∀ r received sent memory b l, P r received sent →
      readBuffer r.buffer memory readSize = some b →
      P { r with buffer := some (bufReceive b l) } (received ++ l) sent)
    (hsend : ∀ c k granted, m = .send c k granted → ∀ r ∈ A.client c, ∀ b, r.buffer = some b →
      k ≤ bufSize b → P r (A.received c) (A.sent c) →
      P (r.send b k granted) (A.received c) (A.sent c ++ bufBytes b b.pos k))
    (haccept : ∀ pool deferred, P (.accepted pool deferred) [] []) : A'.Each P := by
  cases m with
  | close c =>
    obtain ⟨r, hr, rfl⟩ := Option.map_eq_some_iff.mp hstep
    exact h.setClient c nofun
  | expire c =>
    obtain ⟨r, hr, rfl⟩ := Option.map_eq_some_iff.mp hstep
    refine h.setClient c fun r' hr' => ?_
    obtain rfl := Option.some.inj hr'
    exact hexpire _ _ _ (h c r hr)
  | receive c memory l =>
    obtain ⟨r, hr, hstep⟩ := Option.bind_eq_some_iff.mp hstep
    obtain ⟨b, hb, hstep⟩ := Option.bind_eq_some_iff.mp hstep
    obtain rfl := Option.some.inj hstep
    refine h.update rfl rfl (Function.update_eq_self c _).symm fun r' hr' => ?_
    obtain rfl := Option.some.inj hr'
    exact hreceive _ _ _ memory b l (h c r hr) hb
  | send c k granted =>
    obtain ⟨r, hr, hstep⟩ := Option.bind_eq_some_iff.mp hstep
    obtain ⟨b, hb, hstep⟩ := Option.bind_eq_some_iff.mp hstep
    split_ifs at hstep with hk
    obtain rfl := Option.some.inj hstep
    refine h.update rfl (Function.update_eq_self c _).symm rfl fun r' hr' => ?_
    obtain rfl := Option.some.inj hr'
    exact hsend c k granted rfl r hr b hb hk (h c r hr)
  | accept c pool deferred =>
    rw [Service.step] at hstep
    split_ifs at hstep with hnone
    obtain rfl := Option.some.inj hstep
    refine h.update rfl rfl rfl fun r hr => ?_
    obtain rfl := Option.some.inj hr
    exact haccept pool deferred
  | decline c =>
    rw [Service.step] at hstep
    split_ifs at hstep with hnone
    obtain rfl := Option.some.inj hstep
    exact h.clear (Option.isNone_iff_eq_none.mp hnone)
  | refuse c pool =>
    rw [Service.step] at hstep
    split_ifs at hstep with hnone
    obtain rfl := Option.some.inj hstep
    exact h.clear (Option.isNone_iff_eq_none.mp hnone)

end Service.Each

end Libcn.Program
