import Libcn.Program.Refinement

/-!
# How far `myread` fills its buffer

`myread` asks `recv` for 1024 bytes again and again, at the place where the last answer ended. The
buffer has 1024 bytes, so that only the first question to an empty buffer keeps within it.
-/

namespace Libcn.Program

open Libcn.Lib Libcn.Queue Libcn.Rbtree Libcn.Timer Libcn.Cycle

variable {n : ℕ}

/-! ## The calls of `recv` -/

/-- How often `posix_recv` calls `recv`, which it does again after `EINTR`. -/
def recvCalls : List RecvResult → ℕ
  | [] => 0
  | .intr :: rs => recvCalls rs + 1
  | .bytes _ :: _ => 1
  | .again :: _ => 1
  | .fail :: _ => 1

/-- A round of the loop of `myread`: how often it calls `recv` with `b->last`, and the buffer
before and after. -/
structure Round where
  calls : ℕ
  before : Buf
  after : Buf

/-- The rounds of the loop of `myread`. -/
def readRounds (w : Worker n) (rev : EventId n) (c : Fin n) (size : ℕ) :
    List (List RecvResult) → List Round
  | [] => []
  | rs :: rss =>
    match (w.connection c).buffer with
    | none => []
    | some b =>
      let e := w.event (w.connection c).read
      let calls := if !e.available && !e.pendingEof then 0 else recvCalls rs
      match posixRecv w c size rs with
      | some (.done l, w) =>
        let w := setBuffer w c (bufReceive · l)
        ⟨calls, b, bufReceive b l⟩ ::
          if (w.event rev).ready then readRounds w rev c size rss else []
      | _ => [⟨calls, b, b⟩]

/-- The rounds of a call of `myread`. -/
def myreadRounds (w : Worker n) (rev : EventId n) (memory : Option (ℕ → UInt8))
    (recvs : List (List RecvResult)) : List Round :=
  match (w.event rev).data with
  | none => []
  | some c =>
    if w.timers.timedout rev then []
    else if (w.connection c).close then []
    else
      match readBuffer (w.connection c).buffer memory 1024 with
      | none => []
      | some b =>
        readRounds (w.setConnection c fun r => { r with buffer := some b }) rev c 1024 recvs

/-- The rounds of the calls of `myread` by `drain_connections`. -/
def drainRounds (a : ReadAnswers) : ℕ → Worker n → List Round
  | 0, _ => []
  | i + 1, w =>
    match drainNext w with
    | some (some (ev, w)) =>
      myreadRounds w ev a.memory a.recvs ++
        match drainHandler w ev a with
        | some w => drainRounds a i w
        | none => []
    | _ => []

/-- The rounds of the calls of `myread` in a step. -/
def State.rounds (s : State n) : Label n → List Round
  | .call memory recvs _ =>
    match s.calling with
    | some ev =>
      if (s.worker.event ev).handler = .myread then myreadRounds s.worker ev memory recvs else []
    | none => []
  | .accept a =>
    match a.accept with
    | .descriptor fd =>
      let w := { s.worker with
        kernel := s.worker.kernel.hand fd
        acceptDisabled := BitVec.ofNat 32 (n / 8) - BitVec.ofNat 32 s.worker.freeConnectionN }
      if w.freeConnections = none then drainRounds a.drain (drainCount w) w else []
    | _ => []
  | .write _ _ => []
  | .iterate _ _ _ _ => []
  | .next => []

/-! ## What is asked -/

/-- `start <= pos <= last <= end`. -/
def Ordered (b : Buf) : Prop := b.pos ≤ b.last ∧ b.last ≤ b.stop

instance (b : Buf) : Decidable (Ordered b) := inferInstanceAs (Decidable (_ ∧ _))

/-- `recv` is not asked for more than the rest of the buffer, and the buffer is in order after the
round. -/
def Round.Ok (size : ℕ) (r : Round) : Prop :=
  (0 < r.calls → r.before.last + size ≤ r.before.stop) ∧ Ordered r.after

instance (size : ℕ) (r : Round) : Decidable (r.Ok size) := inferInstanceAs (Decidable (_ ∧ _))

/-- The buffers of the clients are in order. -/
def State.Ordered (s : State n) : Prop :=
  ∀ c, Serving s.worker c → ∀ b ∈ (s.worker.connection c).buffer, Program.Ordered b

/-- The first answer of `recv` is a positive one. -/
def answersBytes : List (List RecvResult) → Bool
  | [] => false
  | rs :: _ =>
    match recvAnswer rs with
    | some (.bytes l) => !l.isEmpty
    | _ => false

/-- `recv` is called for the buffer `b` when there are bytes in it: those of an earlier call of
`myread`, or those it has just answered, when the event stays ready. -/
def AsksOn (e : Event n) (b : Buf) (recvs : List (List RecvResult)) : Prop :=
  (e.available || e.pendingEof) = true ∧
    (b.last ≠ 0 ∨ e.ready = true ∧ answersBytes recvs = true)

instance (e : Event n) (b : Buf) (recvs : List (List RecvResult)) : Decidable (AsksOn e b recvs) :=
  inferInstanceAs (Decidable (_ ∧ _))

/-- `myread` calls `recv` for a buffer with bytes. -/
def ReadsOn (w : Worker n) (c : Fin n) (memory : Option (ℕ → UInt8))
    (recvs : List (List RecvResult)) : Prop :=
  w.timers.timedout (c, .read) = false ∧ (w.connection c).close = false ∧
    ∃ b ∈ readBuffer (w.connection c).buffer memory readSize,
      AsksOn (w.event (c, .read)) b recvs

instance (w : Worker n) (c : Fin n) (memory : Option (ℕ → UInt8))
    (recvs : List (List RecvResult)) : Decidable (ReadsOn w c memory recvs) :=
  inferInstanceAs (Decidable (_ ∧ _ ∧ ∃ b ∈ readBuffer _ _ _, _))

/-- The step calls `recv` for a buffer with bytes. -/
def State.ReadsOn (s : State n) : Label n → Prop
  | .call memory recvs _ => ∃ ev ∈ s.calling, (s.worker.event ev).handler = .myread ∧
    Program.ReadsOn s.worker ev.1 memory recvs
  | .write _ _ => False
  | .accept _ => False
  | .iterate _ _ _ _ => False
  | .next => False

instance (s : State n) : (a : Label n) → Decidable (s.ReadsOn a)
  | .call _ _ _ => inferInstanceAs (Decidable (∃ ev ∈ s.calling, _ ∧ _))
  | .write _ _ => .isFalse id
  | .accept _ => .isFalse id
  | .iterate _ _ _ _ => .isFalse id
  | .next => .isFalse id

/-! ## The loop -/

variable {w w' : Worker n} {c lc : Fin n} {size : ℕ}

/-- `posix_recv` calls `recv` if there may be something to read, and passes its bytes on. -/
lemma posixRecv_received {rs : List RecvResult} {r : IoResult (List UInt8)}
    (hread : (w.connection c).read = (c, .read)) (hrun : posixRecv w c size rs = some (r, w')) :
    ((w.event (c, .read)).available || (w.event (c, .read)).pendingEof) = false ∧ r = .again ∨
      ((w.event (c, .read)).available || (w.event (c, .read)).pendingEof) = true ∧
        0 < recvCalls rs ∧ (∀ l₀, recvAnswer rs = some (.bytes l₀) → r = .done (l₀.take size)) ∧
          ∀ l, r = .done l → ∃ l₀, recvAnswer rs = some (.bytes l₀) := by
  rw [posixRecv] at hrun
  simp only [hread] at hrun
  cases hav : (w.event (c, .read)).available || (w.event (c, .read)).pendingEof with
  | false =>
    rw [Bool.or_eq_false_iff] at hav
    simp only [hav.1, hav.2, Bool.not_false, Bool.and_true, if_true] at hrun
    exact .inl ⟨rfl, (Prod.mk.inj (Option.some.inj hrun)).1.symm⟩
  | true =>
    rw [← Bool.not_or, hav] at hrun
    rw [Bool.not_true, if_neg Bool.false_ne_true, recvLoop_eq] at hrun
    obtain ⟨x, hx, hrun⟩ := Option.bind_eq_some_iff.mp hrun
    have hcalls : 0 < recvCalls rs := by
      cases rs with
      | nil => cases hx
      | cons x rs => cases x <;> exact Nat.succ_pos _
    refine .inr ⟨rfl, hcalls, fun l₀ hl₀ => ?_, fun l hl => ?_⟩
    · obtain rfl := Option.some.inj (hx.symm.trans hl₀)
      rw [recvLoop] at hrun
      split_ifs at hrun with hnil
      · rw [hnil]
        exact (Prod.mk.inj (Option.some.inj hrun)).1.symm
      · exact (Prod.mk.inj (Option.some.inj hrun)).1.symm
      · exact (Prod.mk.inj (Option.some.inj hrun)).1.symm
    · rw [hl] at hrun
      cases x with
      | bytes l₀ => exact ⟨l₀, hx⟩
      | intr => exact absurd hx (recvAnswer_ne_intr rs)
      | again => cases (Prod.mk.inj (Option.some.inj hrun)).1
      | fail => cases (Prod.mk.inj (Option.some.inj hrun)).1

lemma answersBytes_cons {rs : List RecvResult} {rss : List (List RecvResult)} :
    answersBytes (rs :: rss) = true ↔ ∃ l₀, recvAnswer rs = some (.bytes l₀) ∧ l₀ ≠ [] := by
  rw [answersBytes]
  cases hx : recvAnswer rs with
  | none => simp
  | some x => cases x <;> simp

/-- The first round calls `recv` if there may be something to read. -/
lemma readRounds_head {b : Buf} {recvs : List (List RecvResult)} {out : Bool × List UInt8 × Worker n}
    (hread : (w.connection c).read = (c, .read)) (hbuffer : (w.connection c).buffer = some b)
    (hav : ((w.event (c, .read)).available || (w.event (c, .read)).pendingEof) = true)
    (hrun : readLoop w (c, .read) c size recvs = some out) :
    ∃ r rest, readRounds w (c, .read) c size recvs = r :: rest ∧ 0 < r.calls ∧ r.before = b := by
  cases recvs with
  | nil => cases hrun
  | cons rs rss =>
    obtain ⟨⟨r, w₁⟩, hrecv, -⟩ := Option.bind_eq_some_iff.mp hrun
    rcases posixRecv_received hread hrecv with ⟨hno, -⟩ | ⟨-, hcalls, -⟩
    · rw [hav] at hno
      cases hno
    · have hnot : (!(w.event (c, .read)).available && !(w.event (c, .read)).pendingEof) = false := by
        rw [← Bool.not_or, hav]
        rfl
      rw [readRounds, hbuffer]
      simp only [hread, hrecv, hnot, Bool.false_eq_true, if_false]
      cases r with
      | done l => exact ⟨_, _, rfl, hcalls, rfl⟩
      | again => exact ⟨_, _, rfl, hcalls, rfl⟩
      | error => exact ⟨_, _, rfl, hcalls, rfl⟩

/-- The loop ends after a round, or `recv` answered bytes and is called again. -/
lemma readRounds_first {b : Buf} {recvs : List (List RecvResult)}
    {out : Bool × List UInt8 × Worker n} (hread : (w.connection c).read = (c, .read))
    (hbuffer : (w.connection c).buffer = some b) (hsize : 0 < size)
    (hrun : readLoop w (c, .read) c size recvs = some out) :
    ∃ calls l, l.length ≤ size ∧
      (0 < calls ↔ ((w.event (c, .read)).available || (w.event (c, .read)).pendingEof) = true) ∧
      (((w.event (c, .read)).available || (w.event (c, .read)).pendingEof) = false → l = []) ∧
      (readRounds w (c, .read) c size recvs = [⟨calls, b, bufReceive b l⟩] ∧ out.2.1 = l ∧
          ¬ (((w.event (c, .read)).available || (w.event (c, .read)).pendingEof) = true ∧
            (w.event (c, .read)).ready = true ∧ answersBytes recvs = true) ∨
        (w.event (c, .read)).ready = true ∧ answersBytes recvs = true ∧ l ≠ [] ∧
          ∃ r rest, readRounds w (c, .read) c size recvs =
            ⟨calls, b, bufReceive b l⟩ :: r :: rest ∧ 0 < r.calls ∧ r.before = bufReceive b l) := by
  cases recvs with
  | nil => cases hrun
  | cons rs rss =>
  obtain ⟨⟨r, w₁⟩, hrecv, hrest⟩ := Option.bind_eq_some_iff.mp hrun
  have hreceived := posixRecv_received hread hrecv
  obtain ⟨calls, hcalls⟩ : ∃ k, k = if !(w.event (c, .read)).available &&
    !(w.event (c, .read)).pendingEof then 0 else recvCalls rs := ⟨_, rfl⟩
  have hiff : 0 < calls ↔
      ((w.event (c, .read)).available || (w.event (c, .read)).pendingEof) = true := by
    rw [hcalls, ← Bool.not_or]
    rcases hreceived with ⟨hav, -⟩ | ⟨hav, hpos, -⟩
    · simp [hav]
    · simp [hav, hpos]
  -- an answer that is not a positive one ends the loop
  have hends : (∀ l, r = .done l → l = []) →
      ¬ (((w.event (c, .read)).available || (w.event (c, .read)).pendingEof) = true ∧
        (w.event (c, .read)).ready = true ∧ answersBytes (rs :: rss) = true) := by
    rintro hdone ⟨hav, -, hans⟩
    obtain ⟨l₀, hl₀, hne⟩ := answersBytes_cons.mp hans
    rcases hreceived with ⟨hno, -⟩ | ⟨-, -, hbytes, -⟩
    · rw [hav] at hno
      cases hno
    · rcases List.take_eq_nil_iff.mp (hdone _ (hbytes l₀ hl₀)) with h | h
      · omega
      · exact hne h
  rcases posixRecv_spec hread hsize hrecv with
    ⟨rfl, -, eof, error, rfl⟩ | ⟨rfl, -, eof, error, rfl⟩ |
    ⟨rfl, -, eof, error, rfl⟩ | ⟨l, rfl, hl, -, rfl⟩
  · obtain rfl := Option.some.inj hrest
    refine ⟨calls, [], Nat.zero_le _, hiff, fun _ => rfl, .inl ⟨?_, rfl, hends nofun⟩⟩
    rw [readRounds, hbuffer]
    simp only [hread, hrecv, ← hcalls, bufReceive_nil]
  · obtain ⟨w₂, -, hrest⟩ := Option.bind_eq_some_iff.mp hrest
    obtain rfl := Option.some.inj hrest
    refine ⟨calls, [], Nat.zero_le _, hiff, fun _ => rfl, .inl ⟨?_, rfl, hends nofun⟩⟩
    rw [readRounds, hbuffer]
    simp only [hread, hrecv, ← hcalls, bufReceive_nil]
  · have hready : ((setBuffer (withRead w c (w.connection c).buffer false eof error) c
        (bufReceive · [])).event (c, .read)).ready = false := by simp [setBuffer, Worker.setConnection]
    simp only [hready, Bool.false_eq_true, if_false] at hrest
    obtain rfl := Option.some.inj hrest
    refine ⟨calls, [], Nat.zero_le _, hiff, fun _ => rfl, .inl ⟨?_, rfl,
      hends fun l hl => (IoResult.done.inj hl).symm⟩⟩
    rw [readRounds, hbuffer]
    simp only [hread, hrecv, ← hcalls, hready, Bool.false_eq_true, if_false]
  · rcases hreceived with ⟨-, hno⟩ | ⟨hav, -, hbytes, hdone⟩
    · cases hno
    obtain ⟨l₀, hl₀⟩ := hdone l rfl
    obtain rfl : l = l₀.take size := IoResult.done.inj (hbytes l₀ hl₀)
    have hans : answersBytes (rs :: rss) = true := by
      refine answersBytes_cons.mpr ⟨l₀, hl₀, ?_⟩
      rintro rfl
      exact hl List.take_nil
    have hlen : (l₀.take size).length ≤ size := by
      rw [List.length_take]
      exact Nat.min_le_left _ _
    refine ⟨calls, l₀.take size, hlen, hiff, fun hno => ?_, ?_⟩
    · rw [hav] at hno
      cases hno
    have hevent : (setBuffer w₁ c (bufReceive · (l₀.take size))).event = w₁.event := rfl
    by_cases hready : (w₁.event (c, .read)).ready = true
    · refine .inr ⟨hready, hans, hl, ?_⟩
      simp only [hevent, hready, if_true] at hrest
      obtain ⟨out', hloop, -⟩ := Option.bind_eq_some_iff.mp hrest
      obtain ⟨r, rest, hrounds, hpos, hbefore⟩ := readRounds_head
        (w := setBuffer w₁ c (bufReceive · (l₀.take size))) (b := bufReceive b (l₀.take size))
        (by simpa [setBuffer, Worker.setConnection] using hread)
        (by simp [setBuffer, Worker.setConnection, hbuffer]) hav hloop
      refine ⟨r, rest, ?_, hpos, hbefore⟩
      rw [readRounds, hbuffer]
      simp only [hread, hrecv, ← hcalls, hevent, hready, if_true, hrounds]
    · simp only [hevent, hready] at hrest
      refine .inl ⟨?_, ?_, fun h => hready h.2.1⟩
      · rw [readRounds, hbuffer]
        simp only [hread, hrecv, ← hcalls, hevent, hready]
        rfl
      · obtain rfl := Option.some.inj hrest
        rfl

/-- The rounds of a loop are all right when `recv` is not called for a buffer with bytes. -/
lemma readRounds_ok_iff {b : Buf} {recvs : List (List RecvResult)}
    {out : Bool × List UInt8 × Worker n} (hread : (w.connection c).read = (c, .read))
    (hbuffer : (w.connection c).buffer = some b) (hsize : 0 < size) (hb : Ordered b)
    (hstop : b.stop = size) (hrun : readLoop w (c, .read) c size recvs = some out) :
    (∀ r ∈ readRounds w (c, .read) c size recvs, r.Ok size) ↔
      ¬ AsksOn (w.event (c, .read)) b recvs := by
  obtain ⟨calls, l, hlen, hcalls, hnil, hcase⟩ := readRounds_first hread hbuffer hsize hrun
  obtain ⟨hpos, hlast⟩ := hb
  have hlast' : (bufReceive b l).last = b.last + l.length := rfl
  constructor
  · rintro hok ⟨hav, hasks⟩
    have hfirst : b.last = 0 := by
      have hr : Round.Ok size ⟨calls, b, bufReceive b l⟩ := by
        rcases hcase with ⟨hrounds, -⟩ | ⟨-, -, -, r, rest, hrounds, -⟩
        · exact hok _ (hrounds ▸ .head _)
        · exact hok _ (hrounds ▸ .head _)
      have := hr.1 (hcalls.mpr hav)
      simp only at this
      omega
    rcases hcase with ⟨-, -, hno⟩ | ⟨-, -, hne, r, rest, hrounds, hr, hbefore⟩
    · exact hno ⟨hav, hasks.resolve_left (not_not.mpr hfirst)⟩
    · -- the second call asks beyond the first answer
      have hsecond := (hok r (hrounds ▸ .tail _ (.head _))).1 hr
      have hl := List.length_pos_of_ne_nil hne
      rw [hbefore, hlast', show (bufReceive b l).stop = b.stop from rfl] at hsecond
      omega
  · intro hasks r hr
    have hzero : ((w.event (c, .read)).available || (w.event (c, .read)).pendingEof) = true →
        b.last = 0 := fun hav => not_not.mp fun hne => hasks ⟨hav, .inl hne⟩
    rcases hcase with ⟨hrounds, -⟩ | ⟨hready, hans, hne, -⟩
    · rw [hrounds, List.mem_singleton] at hr
      subst hr
      refine ⟨fun h => ?_, ?_, ?_⟩
      · have := hzero (hcalls.mp h)
        simp only
        omega
      · exact hpos.trans (Nat.le_add_right _ _)
      · show b.last + l.length ≤ b.stop
        cases hav : (w.event (c, .read)).available || (w.event (c, .read)).pendingEof with
        | false =>
          rw [hnil hav]
          exact hlast
        | true =>
          rw [hzero hav]
          omega
    · cases hav : (w.event (c, .read)).available || (w.event (c, .read)).pendingEof with
      | false => exact absurd (hnil hav) hne
      | true => exact absurd ⟨hav, .inr ⟨hready, hans⟩⟩ hasks

/-- What `recv` answers when it is not called for a buffer with bytes. -/
lemma readLoop_length {b : Buf} {recvs : List (List RecvResult)} {go : Bool} {l : List UInt8}
    (hread : (w.connection c).read = (c, .read)) (hbuffer : (w.connection c).buffer = some b)
    (hsize : 0 < size) (hrun : readLoop w (c, .read) c size recvs = some (go, l, w'))
    (hasks : ¬ AsksOn (w.event (c, .read)) b recvs) :
    l.length ≤ size ∧ (b.last = 0 ∨ l = []) := by
  obtain ⟨calls, l', hlen, -, hnil, hcase⟩ := readRounds_first hread hbuffer hsize hrun
  rcases hcase with ⟨-, hl, -⟩ | ⟨hready, hans, hne, -⟩
  · obtain rfl : l = l' := hl
    refine ⟨hlen, ?_⟩
    cases hav : (w.event (c, .read)).available || (w.event (c, .read)).pendingEof with
    | false => exact .inr (hnil hav)
    | true => exact .inl (not_not.mp fun hne => hasks ⟨hav, .inl hne⟩)
  · cases hav : (w.event (c, .read)).available || (w.event (c, .read)).pendingEof with
    | false => exact absurd (hnil hav) hne
    | true => exact absurd ⟨hav, .inr ⟨hready, hans⟩⟩ hasks

/-! ## Calls of `myread` -/

/-- The buffer of a call of `myread`. -/
def FitsRead (b : Buf) : Prop := Ordered b ∧ b.stop = readSize

/-- A call of `myread` keeps to its buffer exactly when `recv` is not called for one with bytes. -/
lemma myread_bounds {free : List (Fin n)} {lists : QueueId → List (Node n)}
    {memory : Option (ℕ → UInt8)} {recvs : List (List RecvResult)} {go : Bool} {l : List UInt8}
    (h : Consistent w free lists) (hc : InUse w.connection c)
    (hb : ∀ b ∈ readBuffer (w.connection c).buffer memory readSize, FitsRead b)
    (hrun : myreadReceive w (c, .read) memory recvs = some (go, l, w')) :
    ((∀ r ∈ myreadRounds w (c, .read) memory recvs, r.Ok readSize) ↔
      ¬ ReadsOn w c memory recvs) ∧
    (¬ ReadsOn w c memory recvs → l.length ≤ readSize ∧
      (l = [] ∨ ∃ b ∈ readBuffer (w.connection c).buffer memory readSize, b.last = 0)) := by
  have hdata := h.slots.data c .read hc
  rw [myreadReceive, hdata] at hrun
  rw [myreadRounds, hdata]
  simp only [Option.bind_eq_bind, Option.bind_some] at hrun
  simp only
  by_cases hout : w.timers.timedout (c, .read) = true
  · rw [if_pos hout] at hrun ⊢
    obtain ⟨-, rfl, -⟩ : false = go ∧ [] = l ∧ w = w' := by simpa using hrun
    simp [ReadsOn, hout]
  rw [if_neg hout] at hrun ⊢
  by_cases hclose : (w.connection c).close = true
  · rw [if_pos hclose] at hrun ⊢
    obtain ⟨w₂, -, hrun⟩ := Option.bind_eq_some_iff.mp hrun
    obtain ⟨-, rfl, -⟩ : false = go ∧ [] = l ∧ w₂ = w' := by simpa using hrun
    simp [ReadsOn, hclose]
  rw [if_neg hclose] at hrun ⊢
  rw [show (1024 : ℕ) = readSize from rfl] at hrun ⊢
  cases hbuffer : readBuffer (w.connection c).buffer memory readSize with
  | none =>
    rw [hbuffer] at hrun
    obtain ⟨w₂, -, hrun⟩ := Option.bind_eq_some_iff.mp hrun
    obtain ⟨-, rfl, -⟩ : false = go ∧ [] = l ∧ w₂ = w' := by simpa using hrun
    simp [ReadsOn, hbuffer]
  | some b =>
    rw [hbuffer] at hrun
    obtain ⟨⟨go₁, l₁, w₂⟩, hloop, hrun⟩ := Option.bind_eq_some_iff.mp hrun
    obtain rfl : l₁ = l := by
      cases go₁ with
      | false =>
        exact (Prod.mk.inj (Prod.mk.inj (Option.some.inj hrun)).2).1
      | true =>
        obtain ⟨w₃, -, hrun⟩ := Option.bind_eq_some_iff.mp hrun
        exact (Prod.mk.inj (Prod.mk.inj (Option.some.inj hrun)).2).1
    obtain ⟨hord, hstop⟩ := hb b hbuffer
    have hread : ((w.setConnection c fun r => { r with buffer := some b }).connection c).read =
        (c, .read) := by simpa [Worker.setConnection] using h.slots.read c
    have hbuf : ((w.setConnection c fun r => { r with buffer := some b }).connection c).buffer =
        some b := by simp [Worker.setConnection]
    have hasks : ReadsOn w c memory recvs ↔ AsksOn (w.event (c, .read)) b recvs := by
      simp [ReadsOn, hout, hclose, hbuffer]
    rw [hasks]
    refine ⟨readRounds_ok_iff hread hbuf (by decide) hord hstop hloop, fun hno => ?_⟩
    obtain ⟨hlen, hzero⟩ := readLoop_length hread hbuf (by decide) hloop hno
    exact ⟨hlen, hzero.symm.imp_right fun hlast => ⟨b, rfl, hlast⟩⟩

/-- `drain_connections` sets the bit `close` first, so that `myread` does not call `recv`. -/
lemma drainRounds_nil {fd : ℤ} (h : Steady w lc) (hp : Pending w fd) (a : ReadAnswers) (i : ℕ) :
    drainRounds a i w = [] := by
  induction i generalizing w with
  | zero => rfl
  | succ i ih =>
    obtain ⟨free, lists, hcons⟩ := h.consistent
    rw [drainRounds]
    rcases drainNext_spec hcons with ⟨-, hrun⟩ | ⟨c, l, hl, -, hrun, hcons₁⟩
    · rw [hrun]
    have hserve : Serving w c := h.reusable hcons (by rw [hl]; simp)
    obtain ⟨w₁, hw₁⟩ : ∃ w₁, w₁ = w.setConnection c fun r => { r with close := true } := ⟨_, rfl⟩
    rw [← hw₁] at hrun hcons₁
    obtain ⟨hs, hp₁, hclose, hhandler⟩ := asked_spec h hp hserve hw₁ hcons₁ a
    have hc₁ : InUse w₁.connection c := ((hs.serving_iff c).mpr hserve).1
    have hnone : myreadRounds w₁ (c, .read) a.memory a.recvs = [] := by
      rw [myreadRounds, hcons₁.slots.data c .read hc₁]
      simp [hclose]
    rw [hrun]
    simp only [hnone, hhandler, List.nil_append]
    cases w.timers.timedout (c, .read) with
    | true => exact ih (hs.steady h hcons₁) hp₁
    | false =>
      obtain ⟨T, links, count, hrun', -, -⟩ := closeConnection_spec hcons₁ hc₁
      obtain ⟨h₂, hs₂, -, -, -, hk, -, hgone⟩ := h.closeConnection hserve hs hcons₁ hrun'
      rw [if_neg Bool.false_ne_true, hrun']
      exact ih h₂ (hp.close hs₂ hgone (by rw [hk, hw₁]; rfl))

/-! ## What a buffer holds -/

/-- `last` counts the bytes received, and `pos` does not pass it. -/
def Buffered (r : Client) (received : List UInt8) : Prop :=
  match r.buffer with
  | none => received = []
  | some b => b.pos ≤ b.last ∧ b.last = received.length ∧ b.stop = readSize ∧ b.start.isSome = true

lemma Buffered.receive {r : Client} {received : List UInt8} (h : Buffered r received)
    {memory : Option (ℕ → UInt8)} {b : Buf} (hb : readBuffer r.buffer memory readSize = some b)
    (l : List UInt8) :
    Buffered { r with buffer := some (bufReceive b l) } (received ++ l) := by
  have hlast : (bufReceive b l).last = b.last + l.length := rfl
  have hpos : (bufReceive b l).pos = b.pos := rfl
  have hlen : (received ++ l).length = received.length + l.length := List.length_append
  rw [Buffered] at h
  cases hbuffer : r.buffer with
  | none =>
    rw [hbuffer] at h hb
    obtain rfl := h
    obtain ⟨mem, -, rfl⟩ := Option.map_eq_some_iff.mp hb
    exact ⟨Nat.zero_le _, hlast.trans hlen.symm, rfl, rfl⟩
  | some b₀ =>
    rw [hbuffer] at h hb
    obtain ⟨hle, heq, hstop, hstart⟩ := h
    obtain rfl : b₀ = b := by simpa [readBuffer, Option.isSome_iff_ne_none.mp hstart] using hb
    refine ⟨?_, ?_, hstop, by simpa [bufReceive] using hstart⟩
    · rw [hpos, hlast]
      exact hle.trans (Nat.le_add_right _ _)
    · rw [hlast, hlen, heq]

lemma Buffered.send {r : Client} {received : List UInt8} (h : Buffered r received) {b : Buf}
    (hb : r.buffer = some b) {k : ℕ} (hk : k ≤ bufSize b) (granted : Bool) :
    Buffered (r.send b k granted) received := by
  rw [Buffered, hb] at h
  obtain ⟨hle, heq, hstop, hstart⟩ := h
  rw [Client.send]
  split_ifs
  · rw [Buffered, hb]
    exact ⟨hle, heq, hstop, hstart⟩
  · rw [Buffered, hb]
    exact ⟨hle, heq, hstop, hstart⟩
  · -- what is left to send is at most the rest of the bytes
    have hrest : bufSize b ≤ b.last - b.pos := by
      rw [bufSize, show b.last + 2 ^ 64 - b.pos = b.last - b.pos + 2 ^ 64 by omega,
        Nat.add_mod_right]
      exact Nat.mod_le _ _
    refine ⟨?_, heq, hstop, hstart⟩
    show b.pos + k ≤ b.last
    omega

lemma runs_buffered {ok : State n → Label n → Prop} {s : State n} (h : Runs ok s) :
    (∃ lc, s.Sound lc) ∧ s.service.Each fun r received _ => Buffered r received := by
  obtain ⟨hsound, hserves⟩ := @runs_serves _ _ (fun _ _ => True)
    (fun _ _ _ _ _ _ _ => ⟨trivial, fun _ _ => trivial⟩) _ h
  refine ⟨hsound, hserves.invariant (fun A hA => ?_) fun A m A' hA _ hstep => ?_⟩
  · obtain rfl : A = .start n := hA
    exact fun c r hr => absurd hr (by simp [Service.start])
  · refine hA.step hstep (fun _ _ _ h => h) (fun _ _ _ _ _ l h hb => h.receive hb l)
      (fun _ _ granted _ _ _ _ hb hk h => h.send hb hk granted) fun _ _ => ?_
    rfl

/-- The buffer that `myread` will use, where the bytes received fit. -/
lemma fitsRead_of_buffered {r : Client} {received : List UInt8} (h : Buffered r received)
    (hlen : received.length ≤ readSize) (memory : Option (ℕ → UInt8)) :
    ∀ b ∈ readBuffer r.buffer memory readSize, FitsRead b := by
  intro b hb
  rw [Buffered] at h
  cases hbuffer : r.buffer with
  | none =>
    rw [hbuffer] at hb
    obtain ⟨mem, -, rfl⟩ := Option.map_eq_some_iff.mp hb
    exact ⟨⟨Nat.le_refl _, Nat.zero_le _⟩, rfl⟩
  | some b₀ =>
    rw [hbuffer] at h hb
    obtain ⟨hle, heq, hstop, hstart⟩ := h
    obtain rfl : b₀ = b := by simpa [readBuffer, Option.isSome_iff_ne_none.mp hstart] using hb
    exact ⟨⟨hle, by omega⟩, hstop⟩

/-- A buffer without bytes has received none. -/
lemma Buffered.received_nil {r : Client} {received : List UInt8} (h : Buffered r received)
    {memory : Option (ℕ → UInt8)} {b : Buf} (hb : readBuffer r.buffer memory readSize = some b)
    (hlast : b.last = 0) : received = [] := by
  rw [Buffered] at h
  cases hbuffer : r.buffer with
  | none =>
    rw [hbuffer] at h
    exact h
  | some b₀ =>
    rw [hbuffer] at h hb
    obtain ⟨-, heq, -, hstart⟩ := h
    obtain rfl : b₀ = b := by simpa [readBuffer, Option.isSome_iff_ne_none.mp hstart] using hb
    exact List.eq_nil_of_length_eq_zero (heq.symm.trans hlast)

/-! ## Runs -/

/-- A call of a handler in a run: the one of the listening event, or `myread` for a client. -/
lemma State.Sound.calls {s s' : State n} {memory : Option (ℕ → UInt8)}
    {recvs : List (List RecvResult)} {ok : Bool} (h : s.Sound lc)
    (hstep : s.step (.call memory recvs ok) = some s') :
    ∃ c, s.calling = some (c, .read) ∧
      ((s.worker.event (c, .read)).handler = .eventAccept ∧ s'.received = s.received ∨
        (s.worker.event (c, .read)).handler = .myread ∧ Serving s.worker c ∧
          ∃ go l w', myreadReceive s.worker (c, .read) memory recvs = some (go, l, w') ∧
            s'.received = append s.received c l) := by
  obtain ⟨⟨c, i⟩, st, htasks⟩ : ∃ ev st, s.tasks = .call ev :: st := by
    cases htasks : s.tasks with
    | nil => simp [State.step, htasks] at hstep
    | cons t st => cases t <;> simp [State.step, htasks] at hstep ⊢
  have hdue := h.tasks
  rw [htasks] at hdue
  obtain ⟨⟨hside, hc⟩, -⟩ := hdue
  obtain rfl : i = .read := hside
  rw [State.step, htasks] at hstep
  simp only at hstep
  have hhandler := (h.steady.slot c hc).handler
  rw [readHandler] at hhandler
  refine ⟨c, by rw [State.calling, htasks], ?_⟩
  by_cases hlc : c = lc
  · rw [if_pos hlc] at hhandler
    rw [State.callHandler, hhandler] at hstep
    obtain ⟨⟨go, w'⟩, -, hstep⟩ := Option.bind_eq_some_iff.mp hstep
    obtain rfl := Option.some.inj hstep
    exact .inl ⟨hhandler, rfl⟩
  · rw [if_neg hlc] at hhandler
    obtain ⟨go, l, w', hrun, rfl⟩ := callHandler_myread hhandler hstep
    exact .inr ⟨hhandler, (h.steady.serving_iff c).mpr ⟨hc, hlc⟩, go, l, w', hrun, rfl⟩

/-- A call of a handler keeps to the buffer exactly when `recv` is not called for one with
bytes. -/
lemma State.Sound.reads {s s' : State n} {memory : Option (ℕ → UInt8)}
    {recvs : List (List RecvResult)} {ok : Bool} (h : s.Sound lc)
    (hbuf : s.service.Each fun r received _ => Buffered r received)
    (hlen : ∀ c, (s.received c).length ≤ readSize)
    (hstep : s.step (.call memory recvs ok) = some s') :
    ((∀ r ∈ s.rounds (.call memory recvs ok), r.Ok readSize) ↔
      ¬ s.ReadsOn (.call memory recvs ok)) ∧
    (¬ s.ReadsOn (.call memory recvs ok) → ∀ c, (s'.received c).length ≤ readSize) := by
  obtain ⟨c, hcalling, hcase⟩ := h.calls hstep
  rcases hcase with ⟨hhandler, hreceived⟩ | ⟨hhandler, hserve, go, l, w', hrun, hreceived⟩
  · have hno : ¬ s.ReadsOn (.call memory recvs ok) := by
      rintro ⟨ev, hev, hmy, -⟩
      obtain rfl := Option.some.inj (hcalling.symm.trans hev)
      rw [hhandler] at hmy
      cases hmy
    refine ⟨⟨fun _ => hno, fun _ r hr => ?_⟩, fun _ => hreceived ▸ hlen⟩
    simp [State.rounds, hcalling, hhandler] at hr
  · have hclient := hbuf c (clientAt s.worker c) (clientOf_of_serving hserve)
    obtain ⟨free, lists, hcons⟩ := h.steady.consistent
    have hfits := fitsRead_of_buffered hclient (hlen c) memory
    obtain ⟨hiff, hshort⟩ := myread_bounds hcons hserve.1 hfits hrun
    have hrounds : s.rounds (.call memory recvs ok) =
        myreadRounds s.worker (c, .read) memory recvs := by
      simp [State.rounds, hcalling, hhandler]
    have hreads : s.ReadsOn (.call memory recvs ok) ↔
        Program.ReadsOn s.worker c memory recvs := by
      constructor
      · rintro ⟨ev, hev, -, hr⟩
        obtain rfl := Option.some.inj (hcalling.symm.trans hev)
        exact hr
      · exact fun hr => ⟨(c, .read), hcalling, hhandler, hr⟩
    rw [hrounds, hreads]
    refine ⟨hiff, fun hno d => ?_⟩
    obtain ⟨hl, hempty⟩ := hshort hno
    rw [hreceived, append]
    by_cases hd : d = c
    · subst hd
      rw [Function.update_self, List.length_append]
      rcases hempty with rfl | ⟨b, hb, hzero⟩
      · simpa using hlen d
      · have hnil : s.received d = [] := hclient.received_nil hb hzero
        simpa [hnil] using hl
    · rw [Function.update_of_ne hd]
      exact hlen d

/-- What is received in a step that does not call `recv` for a buffer with bytes fits. -/
lemma State.Sound.received_length {s s' : State n} {a : Label n} (h : s.Sound lc)
    (hbuf : s.service.Each fun r received _ => Buffered r received)
    (hlen : ∀ c, (s.received c).length ≤ readSize) (hno : ¬ s.ReadsOn a)
    (hstep : s.step a = some s') (c : Fin n) : (s'.received c).length ≤ readSize := by
  cases a with
  | call memory recvs ok => exact (h.reads hbuf hlen hstep).2 hno c
  | iterate free ok reports now =>
    obtain ⟨⟨go, postEvents, w⟩, -, hstep⟩ := Option.bind_eq_some_iff.mp hstep
    cases go with
    | false =>
      obtain rfl := Option.some.inj hstep
      exact hlen c
    | true =>
      obtain rfl := Option.some.inj hstep
      exact hlen c
  | next =>
    rw [State.step] at hstep
    split at hstep
    · cases hstep
    · obtain ⟨p, -, hstep⟩ := Option.bind_eq_some_iff.mp hstep
      obtain rfl := Option.some.inj hstep
      exact hlen c
  | write sends ok =>
    rw [State.step] at hstep
    split at hstep
    · obtain ⟨p, -, hstep⟩ := Option.bind_eq_some_iff.mp hstep
      obtain rfl := Option.some.inj hstep
      exact hlen c
    · cases hstep
  | accept answers =>
    rw [State.step] at hstep
    split at hstep
    · obtain ⟨p, -, hstep⟩ := Option.bind_eq_some_iff.mp hstep
      obtain rfl := Option.some.inj hstep
      show (State.cleared s.received (s.takes answers) c).length ≤ readSize
      cases s.takes answers with
      | none => exact hlen c
      | some d =>
        rw [State.cleared]
        by_cases hd : c = d
        · rw [hd, Function.update_self]
          exact Nat.zero_le _
        · rw [Function.update_of_ne hd]
          exact hlen c
    · cases hstep

lemma runs_received {s : State n} (h : Runs (fun s a => ¬ s.ReadsOn a) s) :
    ∀ c, (s.received c).length ≤ readSize := by
  induction h with
  | init hs =>
    obtain ⟨w, w', b, ok, -, -, -, -, -, -, -, rfl⟩ := hs
    exact fun c => Nat.zero_le _
  | step h hok hstep ih =>
    obtain ⟨⟨lc, hsound⟩, hbuf⟩ := runs_buffered h
    exact fun c => hsound.received_length hbuf ih hok.2 hstep c

/-- The buffers of the clients are in order where the bytes received fit. -/
lemma ordered_of_buffered {s : State n}
    (hbuf : s.service.Each fun r received _ => Buffered r received)
    (hlen : ∀ c, (s.received c).length ≤ readSize) : s.Ordered := by
  intro c hserve b hb
  have hclient : Buffered (clientAt s.worker c) (s.received c) :=
    hbuf c (clientAt s.worker c) (clientOf_of_serving hserve)
  have hb' : (clientAt s.worker c).buffer = some b := hb
  rw [Buffered, hb'] at hclient
  obtain ⟨hle, heq, hstop, -⟩ := hclient
  exact ⟨hle, by rw [heq, hstop]; exact hlen c⟩

/-- In every run in which `recv` is not called for a buffer with bytes, the buffers are in order,
and a further step keeps to them, with every call of `recv` in it, exactly when it does not call
`recv` so. -/
theorem receive_bounds (s : State n) (h : Runs (fun s a => ¬ s.ReadsOn a) s) :
    s.Ordered ∧ ∀ a s', s.Allowed a → s.step a = some s' →
      ((s'.Ordered ∧ ∀ r ∈ s.rounds a, r.Ok readSize) ↔ ¬ s.ReadsOn a) := by
  obtain ⟨⟨lc, hsound⟩, hbuf⟩ := runs_buffered h
  have hlen := runs_received h
  refine ⟨ordered_of_buffered hbuf hlen, fun a s' ha hstep => ?_⟩
  have hordered : ¬ s.ReadsOn a → s'.Ordered := by
    intro hno
    have h' : Runs (fun s a => ¬ s.ReadsOn a) s' := .step h ⟨ha, hno⟩ hstep
    exact ordered_of_buffered (runs_buffered h').2 (runs_received h')
  have hquiet : s.rounds a = [] → ¬ s.ReadsOn a →
      ((s'.Ordered ∧ ∀ r ∈ s.rounds a, r.Ok readSize) ↔ ¬ s.ReadsOn a) := by
    intro hnil hno
    refine ⟨fun _ => hno, fun _ => ⟨hordered hno, fun r hr => ?_⟩⟩
    rw [hnil] at hr
    cases hr
  cases a with
  | iterate free ok reports now => exact hquiet rfl id
  | next => exact hquiet rfl id
  | write sends ok => exact hquiet rfl id
  | accept answers =>
    refine hquiet ?_ id
    rw [State.rounds]
    split
    · rename_i fd hfd
      obtain ⟨hne, hopen⟩ := ha fd hfd
      obtain ⟨hst, hp⟩ := hsound.steady.hand hne hopen
        (BitVec.ofNat 32 (n / 8) - BitVec.ofNat 32 s.worker.freeConnectionN)
      simp only [drainRounds_nil hst hp, ite_self]
    · rfl
  | call memory recvs ok =>
    obtain ⟨hiff, -⟩ := hsound.reads hbuf hlen hstep
    exact ⟨fun hs => hiff.mp hs.2, fun hno => ⟨hordered hno, hiff.mpr hno⟩⟩

/-- A connection is accepted, and `recv` is called for its new buffer. -/
theorem receive_bounds_new :
    ∃ s s' : State 2, State.launch 2 false (fun s a => ¬ s.ReadsOn a) (acceptOne ++ inputOne) =
        some s ∧ s.step (.call (some fun _ => 0) [[.again]] true) = some s' ∧ s.Ordered ∧
      ((s'.Ordered ∧ ∀ r ∈ s.rounds (.call (some fun _ => 0) [[.again]] true), r.Ok readSize) ↔
        ¬ s.ReadsOn (.call (some fun _ => 0) [[.again]] true)) := by
  have hrun : (State.launch 2 false (fun s a => ¬ s.ReadsOn a) (acceptOne ++ inputOne)).any
      (fun s => (s.step (.call (some fun _ => 0) [[.again]] true)).isSome) = true := by
    decide +kernel
  obtain ⟨s, hs, hstep⟩ := (Option.any_eq_true _ _).mp hrun
  obtain ⟨s', hs'⟩ := Option.isSome_iff_exists.mp hstep
  obtain ⟨hord, hiff⟩ := receive_bounds s (runs_of_launch (by decide) hs)
  exact ⟨s, s', hs, hs', hord, hiff _ s' trivial hs'⟩

/-- `recv` answers 1024 bytes, is called again and answers one more. -/
theorem not_receive_bounds :
    ∃ (s s' : State 2) (a : Label 2), Runs (fun _ _ => True) s ∧ s.Allowed a ∧
      s.step a = some s' ∧ ¬ s'.Ordered ∧ ¬ ∀ r ∈ s.rounds a, r.Ok readSize := by
  obtain ⟨a, ha⟩ : ∃ a : Label 2, a = .call (some fun _ => 0)
    [[.bytes (List.replicate 1024 0)], [.bytes [0]], [.again]] true := ⟨_, rfl⟩
  have hrun : (State.launch 2 false (fun _ _ => True) (acceptOne ++ inputOne)).any
      (fun s => (s.step a).any fun s' => decide (Serving s'.worker 1 ∧
        (∃ b ∈ (s'.worker.connection 1).buffer, ¬ Ordered b) ∧
        ¬ ∀ r ∈ s.rounds a, r.Ok readSize)) = true := by
    rw [ha]
    decide +kernel
  obtain ⟨s, hs, hstep⟩ := (Option.any_eq_true _ _).mp hrun
  obtain ⟨s', hs', hbad⟩ := (Option.any_eq_true _ _).mp hstep
  obtain ⟨hserve, ⟨b, hb, hnot⟩, hrounds⟩ := of_decide_eq_true hbad
  refine ⟨s, s', a, runs_of_launch (by decide) hs, ?_, hs', fun h => hnot (h 1 hserve b hb),
    hrounds⟩
  rw [ha]
  trivial

end Libcn.Program
