import Libcn.Program.Refinement

/-!
# What is sent is what was received

The bytes a client sent are kept in its buffer from the start on, and `pos` is where `mywrite`
takes the next ones. When `send` took all of them, `mywrite` returns without moving `pos`, so that
the next call sends them again.
-/

namespace Libcn.Program

open Libcn.Lib Libcn.Queue Libcn.Rbtree Libcn.Timer Libcn.Cycle

variable {n : ℕ}

/-! ## Buffers -/

/-- The buffer keeps the bytes received, from its start on. -/
structure Stores (b : Buf) (received : List UInt8) : Prop where
  stop : b.stop = readSize
  last : b.last = received.length
  bytes : ∃ mem, b.start = some mem ∧ ∀ i < b.last, received[i]? = some (mem i)

lemma stores_new (mem : ℕ → UInt8) : Stores ⟨some mem, 0, 0, readSize⟩ [] :=
  ⟨rfl, rfl, mem, rfl, fun _ hi => absurd hi (Nat.not_lt_zero _)⟩

lemma Stores.receive {b : Buf} {received : List UInt8} (h : Stores b received) (l : List UInt8) :
    Stores (bufReceive b l) (received ++ l) := by
  obtain ⟨hstop, hlast, mem, hmem, hbytes⟩ := h
  refine ⟨hstop, ?_, _, by rw [bufReceive, hmem, Option.map_some], fun i hi => ?_⟩
  · rw [bufReceive, List.length_append, hlast]
  · have hi' : i < b.last + l.length := hi
    by_cases hold : i < b.last
    · rw [if_neg (by omega), List.getElem?_append_left (by omega), hbytes i hold]
    · rw [if_pos ⟨by omega, hi'⟩, List.getElem?_append_right (by omega), ← hlast,
        List.getD_eq_getElem?_getD, List.getElem?_eq_getElem (by omega), Option.getD_some]

/-- The bytes `mywrite` hands to `send`. -/
lemma Stores.bufBytes {b : Buf} {received : List UInt8} (h : Stores b received) {i k : ℕ}
    (hk : i + k ≤ b.last) : Program.bufBytes b i k = (received.drop i).take k := by
  obtain ⟨-, hlast, mem, hmem, hbytes⟩ := h
  simp only [Program.bufBytes, hmem]
  refine List.ext_getElem? fun j => ?_
  rw [List.getElem?_map, List.getElem?_take, List.getElem?_drop]
  by_cases hj : j < k
  · rw [if_pos hj, hbytes (i + j) (by omega), List.getElem?_range hj, Option.map_some]
  · rw [if_neg hj, List.getElem?_eq_none (by simpa using Nat.not_lt.mp hj), Option.map_none]

/-! ## Sending again -/

/-- Every buffer of a client holds what was received. -/
def State.Fits (s : State n) : Prop :=
  ∀ c, Serving s.worker c → ∀ b ∈ (s.worker.connection c).buffer, b.last ≤ b.stop

instance (s : State n) : Decidable s.Fits :=
  inferInstanceAs (Decidable (∀ c, Serving s.worker c → ∀ b ∈ (s.worker.connection c).buffer, _))

/-- `send` takes bytes in the step, although `pos` is not behind the bytes it took before. -/
def State.Resends (s : State n) : Label n → Prop
  | .write sends _ => ∃ ev ∈ s.writing, ∃ b ∈ (s.worker.connection ev.1).buffer,
    sendTakes sends (bufSize b) ≠ 0 ∧ (s.worker.connection ev.1).sent ≠ b.pos
  | .iterate _ _ _ _ => False
  | .next => False
  | .call _ _ _ => False
  | .accept _ => False

instance (s : State n) : (a : Label n) → Decidable (s.Resends a)
  | .write _ _ => inferInstanceAs (Decidable (∃ ev ∈ s.writing, _))
  | .iterate _ _ _ _ => .isFalse id
  | .next => .isFalse id
  | .call _ _ _ => .isFalse id
  | .accept _ => .isFalse id

/-- A step within the buffers that sends no byte again. -/
def State.SendsOn (s : State n) (a : Label n) : Prop := s.Fits ∧ ¬ s.Resends a

instance (s : State n) (a : Label n) : Decidable (s.SendsOn a) :=
  inferInstanceAs (Decidable (_ ∧ _))

/-- A move that takes bytes from a buffer begins behind those that were taken. -/
def Move.GoesOn (A : Service n) : Move n → Prop
  | .send c k _ => ∀ r ∈ A.client c, ∀ b ∈ r.buffer,
    b.last ≤ b.stop ∧ (k ≠ 0 → r.sent = b.pos)
  | .close _ => True
  | .expire _ => True
  | .receive _ _ _ => True
  | .accept _ _ _ => True
  | .decline _ => True
  | .refuse _ _ => True

lemma Move.Plain.goesOn {m : Move n} (h : m.Plain) (A : Service n) : m.GoesOn A := by
  cases m <;> first | exact h.elim | trivial

lemma State.goesOn {s : State n} {a : Label n} {m : Move n} (hs : s.SendsOn a)
    (hm : s.Causes a m) : m.GoesOn s.service := by
  obtain ⟨hfits, hagain⟩ := hs
  cases m with
  | send c k granted =>
    obtain ⟨sends, b, rfl, hwriting, hb, rfl⟩ := hm
    intro r hr b' hb'
    obtain ⟨hserve, rfl⟩ := State.mem_client hr
    obtain rfl : b = b' := Option.some.inj (hb.symm.trans hb')
    refine ⟨hfits c hserve b hb, fun hk => ?_⟩
    by_contra hpos
    exact hagain ⟨(c, .read), hwriting, b, hb, hk, hpos⟩
  | _ => trivial

/-! ## The service -/

/-- A client has been sent the first bytes it sent, and `pos` is not behind them. -/
def Echoing (r : Client) (received sent : List UInt8) : Prop :=
  match r.buffer with
  | none => received = [] ∧ sent = [] ∧ r.sent = 0
  | some b => Stores b received ∧ sent = received.take r.sent ∧ b.pos ≤ r.sent ∧ r.sent ≤ b.last

/-- What was sent is a prefix of what was received, and goes on so. -/
structure Service.Echo (A : Service n) : Prop where
  isPrefix : ∀ c, A.sent c <+: A.received c
  echoing : ∀ c, ∀ r ∈ A.client c, Echoing r (A.received c) (A.sent c)

namespace Service.Echo

variable {A A' : Service n}

/-- A move about one slot. -/
lemma update (h : A.Echo) {c : Fin n} {o : Option Client} {received sent : List UInt8}
    (hclient : A'.client = Function.update A.client c o)
    (hreceived : A'.received = Function.update A.received c received)
    (hsent : A'.sent = Function.update A.sent c sent) (hle : sent <+: received)
    (ho : ∀ r ∈ o, Echoing r received sent) : A'.Echo := by
  refine ⟨fun d => ?_, fun d => ?_⟩
  · rw [hreceived, hsent]
    by_cases hd : d = c
    · subst hd
      rwa [Function.update_self, Function.update_self]
    · rw [Function.update_of_ne hd, Function.update_of_ne hd]
      exact h.isPrefix d
  · rw [hclient, hreceived, hsent]
    by_cases hd : d = c
    · subst hd
      rwa [Function.update_self, Function.update_self, Function.update_self]
    · rw [Function.update_of_ne hd, Function.update_of_ne hd, Function.update_of_ne hd]
      exact h.echoing d

/-- A move that only changes a client. -/
lemma setClient (h : A.Echo) (c : Fin n) {o : Option Client}
    (ho : ∀ r ∈ o, Echoing r (A.received c) (A.sent c)) : (A.setClient c o).Echo :=
  h.update rfl (Function.update_eq_self c _).symm (Function.update_eq_self c _).symm
    (h.isPrefix c) ho

/-- A slot without a client is cleared. -/
lemma clear (h : A.Echo) {c : Fin n} (hc : A.client c = none) : (A.clear c).Echo := by
  refine h.update (o := none) ?_ rfl rfl List.prefix_rfl nofun
  rw [← hc, Function.update_eq_self]
  rfl

end Service.Echo

/-- Bytes are received into the buffer of a client. -/
lemma Echoing.receive {r : Client} {received sent : List UInt8} (h : Echoing r received sent)
    {memory : Option (ℕ → UInt8)} {b : Buf} (hb : readBuffer r.buffer memory readSize = some b)
    (l : List UInt8) :
    Echoing { r with buffer := some (bufReceive b l) } (received ++ l) sent := by
  rw [Echoing] at h
  cases hbuffer : r.buffer with
  | none =>
    rw [hbuffer] at h hb
    obtain ⟨rfl, rfl, hsent⟩ := h
    obtain ⟨mem, -, rfl⟩ := Option.map_eq_some_iff.mp hb
    refine ⟨(stores_new mem).receive l, ?_, ?_, ?_⟩
    · simp [hsent]
    · simp [bufReceive, hsent]
    · simp [hsent]
  | some b₀ =>
    rw [hbuffer] at h hb
    obtain ⟨hstores, rfl, hpos, hlast⟩ := h
    obtain ⟨mem, hmem, -⟩ := hstores.bytes
    obtain rfl : b₀ = b := by simpa [readBuffer, hmem] using hb
    refine ⟨hstores.receive l, ?_, hpos, ?_⟩
    · rw [List.take_append_of_le_length (hstores.last ▸ hlast)]
    · exact hlast.trans (Nat.le_add_right _ _)

/-- `send` takes `k` bytes from `pos` on. -/
lemma Echoing.send {r : Client} {received sent : List UInt8} (h : Echoing r received sent) {b : Buf}
    (hb : r.buffer = some b) {k : ℕ} (hk : k ≤ bufSize b) (hstop : b.last ≤ b.stop)
    (hpos : k ≠ 0 → r.sent = b.pos) (granted : Bool) :
    Echoing (r.send b k granted) received (sent ++ bufBytes b b.pos k) := by
  rw [Echoing, hb] at h
  obtain ⟨hstores, rfl, hle, hlast⟩ := h
  rw [hstores.stop, readSize] at hstop
  have hsize : bufSize b = b.last - b.pos := by
    rw [bufSize]
    omega
  rw [hstores.bufBytes (by omega)]
  by_cases hzero : k = 0
  · rw [Client.send, if_pos hzero, hzero, List.take_zero, List.append_nil, Echoing, hb]
    exact ⟨hstores, rfl, hle, hlast⟩
  · have hsent := hpos hzero
    have htake : received.take r.sent ++ (received.drop b.pos).take k =
        received.take (r.sent + k) := by rw [hsent, ← List.take_add]
    have hlast' : r.sent + k ≤ b.last := by omega
    rw [htake, Client.send, if_neg hzero]
    split_ifs with hall
    · rw [Echoing, hb]
      exact ⟨hstores, rfl, hle.trans (Nat.le_add_right _ _), hlast'⟩
    · exact ⟨⟨hstores.stop, hstores.last, hstores.bytes⟩, rfl, Nat.add_le_add_right hle k, hlast'⟩

lemma Echoing.isPrefix {r : Client} {received sent : List UInt8} (h : Echoing r received sent) :
    sent <+: received := by
  rw [Echoing] at h
  split at h
  · obtain ⟨-, rfl, -⟩ := h
    exact List.nil_prefix
  · obtain ⟨-, rfl, -⟩ := h
    exact List.take_prefix _ _

lemma Service.Echo.step {A A' : Service n} (h : A.Echo) {m : Move n} (hm : m.GoesOn A)
    (hstep : A.step m = some A') : A'.Echo := by
  cases m with
  | close c =>
    obtain ⟨r, hr, rfl⟩ := Option.map_eq_some_iff.mp hstep
    exact h.setClient c nofun
  | expire c =>
    obtain ⟨r, hr, rfl⟩ := Option.map_eq_some_iff.mp hstep
    refine h.setClient c fun r' hr' => ?_
    obtain rfl := Option.some.inj hr'
    exact h.echoing c r hr
  | receive c memory l =>
    obtain ⟨r, hr, hstep⟩ := Option.bind_eq_some_iff.mp hstep
    obtain ⟨b, hb, hstep⟩ := Option.bind_eq_some_iff.mp hstep
    obtain rfl := Option.some.inj hstep
    have hecho := (h.echoing c r hr).receive hb l
    refine h.update rfl rfl (Function.update_eq_self c _).symm hecho.isPrefix fun r' hr' => ?_
    obtain rfl := Option.some.inj hr'
    exact hecho
  | send c k granted =>
    obtain ⟨r, hr, hstep⟩ := Option.bind_eq_some_iff.mp hstep
    obtain ⟨b, hb, hstep⟩ := Option.bind_eq_some_iff.mp hstep
    split_ifs at hstep with hk
    obtain rfl := Option.some.inj hstep
    obtain ⟨hstop, hpos⟩ := hm r hr b hb
    have hecho := (h.echoing c r hr).send hb hk hstop hpos granted
    refine h.update rfl (Function.update_eq_self c _).symm rfl hecho.isPrefix fun r' hr' => ?_
    obtain rfl := Option.some.inj hr'
    exact hecho
  | accept c pool deferred =>
    rw [Service.step] at hstep
    split_ifs at hstep with hnone
    obtain rfl := Option.some.inj hstep
    refine h.update rfl rfl rfl List.prefix_rfl fun r hr => ?_
    obtain rfl := Option.some.inj hr
    exact ⟨rfl, rfl, rfl⟩
  | decline c =>
    rw [Service.step] at hstep
    split_ifs at hstep with hnone
    obtain rfl := Option.some.inj hstep
    exact h.clear (Option.isNone_iff_eq_none.mp hnone)
  | refuse c pool =>
    rw [Service.step] at hstep
    split_ifs at hstep with hnone
    obtain rfl := Option.some.inj hstep
    have hclear := h.clear (Option.isNone_iff_eq_none.mp hnone)
    exact ⟨hclear.isPrefix, hclear.echoing⟩

lemma serves_echo {A : Service n} (h : Serves (fun A m => m.GoesOn A) A) : A.Echo := by
  refine h.invariant (fun A hA => ?_) fun A m A' hA hm hstep => hA.step hm hstep
  obtain rfl : A = .start n := hA
  exact ⟨fun c => List.prefix_rfl, fun c r hr => absurd hr (by simp [Service.start])⟩

/-! ## Runs of the worker -/

/-- In every run in which the buffers hold what is received and `mywrite` sends from behind the
bytes sent before, the bytes sent to a client are a prefix of those received from it. -/
theorem echo_prefix (s : State n) (h : Runs State.SendsOn s) (c : Fin n) :
    s.sent c <+: s.received c := by
  obtain ⟨-, hserves⟩ := runs_serves
    (fun s lc a m _ hs hm => ⟨State.goesOn hs hm, fun hp A => hp.goesOn A⟩) h
  exact (serves_echo hserves).isPrefix c

/-- A connection is accepted and sends two bytes, of which one is sent back, and then a third. -/
def echoRun : List (Label 2) :=
  acceptOne ++ inputOne ++ [.call (some fun _ => 0) [[.bytes [1, 2]], [.again]] true,
    .write [[.count 1]] true, .next] ++ inputOne ++ [.call none [[.bytes [3]], [.again]] true,
    .write [[.count 2]] true, .next]

/-- All three are sent back. -/
theorem echo_prefix_run :
    ∃ s, State.launch 2 false State.SendsOn echoRun = some s ∧ s.sent 1 = [1, 2, 3] ∧
      s.sent 1 <+: s.received 1 := by
  have hrun : (State.launch 2 false State.SendsOn echoRun).any
      (fun s => decide (s.sent 1 = [1, 2, 3])) = true := by decide +kernel
  obtain ⟨s, hs, hsent⟩ := (Option.any_eq_true _ _).mp hrun
  exact ⟨s, hs, of_decide_eq_true hsent, echo_prefix s (runs_of_launch (by decide) hs) 1⟩

/-- If both bytes are sent back at once, they are sent again with the third. -/
theorem not_echo_prefix :
    ∃ s : State 2, Runs (fun s _ => s.Fits) s ∧ s.received 1 = [1, 2, 3] ∧
      s.sent 1 = [1, 2, 1, 2, 3] ∧ ¬ s.sent 1 <+: s.received 1 := by
  have hrun : (State.launch 2 false (fun s _ => s.Fits) (acceptOne ++ inputOne ++
      [.call (some fun _ => 0) [[.bytes [1, 2]], [.again]] true, .write [[.count 2]] true, .next] ++
      inputOne ++ [.call none [[.bytes [3]], [.again]] true, .write [[.count 5]] true, .next])).any
      (fun s => decide (s.received 1 = [1, 2, 3] ∧ s.sent 1 = [1, 2, 1, 2, 3] ∧
        ¬ s.sent 1 <+: s.received 1)) = true := by
    decide +kernel
  obtain ⟨s, hs, hlogs⟩ := (Option.any_eq_true _ _).mp hrun
  exact ⟨s, runs_of_launch (by decide) hs, of_decide_eq_true hlogs⟩

end Libcn.Program
