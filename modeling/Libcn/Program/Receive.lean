import Libcn.Program.Frame

/-!
# What `myread` does

`myread` up to its call of `mywrite` either gives up the connection, or leaves in its buffer what
`recv` answered. The bits of the read event that `posix_recv` writes are of no further interest.
-/

namespace Libcn.Program

open Libcn.Lib Libcn.Lib.Links Libcn.Queue Libcn.Rbtree Libcn.Timer Libcn.Cycle

variable {n : ℕ} {w w' : Worker n} {free : List (Fin n)} {lists : QueueId → List (Node n)}
  {c lc : Fin n}

/-! ## Answers of `recv` -/

/-- What `recv` answers when it is not interrupted. -/
def recvAnswer (rs : List RecvResult) : Option RecvResult := rs.find? (· ≠ .intr)

/-- One of the answers that the loop of `myread` gets to is an error. -/
def loopFails (ready : Bool) : List (List RecvResult) → Bool
  | [] => false
  | rs :: rss =>
    match recvAnswer rs with
    | some .fail => true
    | some (.bytes l) => !l.isEmpty && ready && loopFails ready rss
    | _ => false

/-- `recv` answers a call of `myread` with an error other than `EAGAIN` and `EINTR`. -/
def recvFails (e : Event n) (recvs : List (List RecvResult)) : Bool :=
  (e.available || e.pendingEof) && loopFails e.ready recvs

/-! ## Buffers -/

lemma bufReceive_nil (b : Buf) : bufReceive b [] = b := by
  obtain ⟨start, pos, last, stop⟩ := b
  cases start with
  | none => rfl
  | some mem =>
    rw [bufReceive, Option.map_some, Buf.mk.injEq]
    refine ⟨congrArg some (funext fun i => ?_), rfl, rfl, rfl⟩
    exact if_neg fun hi => absurd hi.2 (Nat.not_lt.mpr hi.1)

/-- Two answers fill the buffer as one. -/
lemma bufReceive_append (b : Buf) (l l' : List UInt8) :
    bufReceive (bufReceive b l) l' = bufReceive b (l ++ l') := by
  obtain ⟨start, pos, last, stop⟩ := b
  cases start with
  | none => simp [bufReceive, Nat.add_assoc]
  | some mem =>
    simp only [bufReceive, Option.map_some, List.length_append, Buf.mk.injEq, Option.some.injEq,
      Nat.add_assoc, List.getD_eq_getElem?_getD, and_self, and_true]
    funext i
    -- the position is behind both answers, in the first, in the second or before them
    by_cases hi : i < last
    · rw [if_neg (by omega), if_neg (by omega), if_neg (by omega)]
    by_cases hi' : i < last + l.length
    · rw [if_neg (by omega), if_pos (by omega), if_pos (by omega),
        List.getElem?_append_left (by omega)]
    by_cases hi'' : i < last + (l.length + l'.length)
    · rw [if_pos (by omega), if_pos (by omega), List.getElem?_append_right (by omega),
        Nat.sub_sub]
    · rw [if_neg (by omega), if_neg (by omega), if_neg (by omega)]

/-- The worker after `recv` filled a buffer and `posix_recv` wrote bits of the read event. -/
def withRead (w : Worker n) (c : Fin n) (buffer : Option Buf) (ready eof error : Bool) : Worker n :=
  (w.setConnection c fun r => { r with buffer := buffer }).setEvent (c, .read) fun e =>
    { e with ready := ready, eof := eof, error := error }

lemma withRead_withRead (w : Worker n) (c : Fin n) (buffer buffer' : Option Buf)
    (ready ready' eof eof' error error' : Bool) :
    withRead (withRead w c buffer ready eof error) c buffer' ready' eof' error' =
      withRead w c buffer' ready' eof' error' := by
  simp [withRead, Worker.setConnection, Worker.setEvent]

@[simp] lemma withRead_connection (w : Worker n) (c : Fin n) (buffer : Option Buf)
    (ready eof error : Bool) : (withRead w c buffer ready eof error).connection =
      Function.update w.connection c { w.connection c with buffer := buffer } := rfl

@[simp] lemma withRead_event (w : Worker n) (c : Fin n) (buffer : Option Buf)
    (ready eof error : Bool) : (withRead w c buffer ready eof error).event =
      Function.update w.event (c, .read)
        { w.event (c, .read) with ready := ready, eof := eof, error := error } := rfl

@[simp] lemma withRead_timers (w : Worker n) (c : Fin n) (buffer : Option Buf)
    (ready eof error : Bool) : (withRead w c buffer ready eof error).timers = w.timers := rfl

lemma Stays.withRead (w : Worker n) (c : Fin n) (buffer : Option Buf) (ready eof error : Bool) :
    Stays w (withRead w c buffer ready eof error) c :=
  (Stays.setConnection w c (f := fun r => { r with buffer := buffer }) fun _ => ⟨rfl, rfl⟩).trans
    (Stays.setRead _ c (f := fun e => { e with ready := ready, eof := eof, error := error })
      fun _ => rfl)

lemma consistent_withRead (h : Consistent w free lists) (c : Fin n) (buffer : Option Buf)
    (ready eof error : Bool) : Consistent (withRead w c buffer ready eof error) free lists := by
  have h₁ := h.setConnection c (f := fun r => { r with buffer := buffer }) (.inr rfl)
    fun _ => ⟨rfl, rfl, rfl, rfl, rfl⟩
  exact h₁.setEvent (c, .read) fun _ => ⟨rfl, rfl, rfl, rfl⟩

/-! ## `posix_recv` -/

lemma recvLoop_eq (w : Worker n) (rev : EventId n) (size : ℕ) (rs : List RecvResult) :
    recvLoop w rev size rs = (recvAnswer rs).bind fun r => recvLoop w rev size [r] := by
  induction rs with
  | nil => rfl
  | cons r rs ih =>
    cases r with
    | intr =>
      rw [recvLoop, ih]
      rfl
    | bytes l => rfl
    | again => rfl
    | fail => rfl

lemma recvAnswer_ne_intr (rs : List RecvResult) : recvAnswer rs ≠ some .intr := by
  intro h
  have := List.find?_some h
  simp at this

/-- What `posix_recv` answers, and the bits it leaves. -/
lemma posixRecv_spec {size : ℕ} {rs : List RecvResult} {r : IoResult (List UInt8)}
    (hread : (w.connection c).read = (c, .read)) (hsize : 0 < size)
    (hrun : posixRecv w c size rs = some (r, w')) :
    (r = .again ∧ (∀ rss, recvFails (w.event (c, .read)) (rs :: rss) = false) ∧
      ∃ eof error, w' = withRead w c (w.connection c).buffer false eof error) ∨
    (r = .error ∧ (∀ rss, recvFails (w.event (c, .read)) (rs :: rss) = true) ∧
      ∃ eof error, w' = withRead w c (w.connection c).buffer false eof error) ∨
    (r = .done [] ∧ (∀ rss, recvFails (w.event (c, .read)) (rs :: rss) = false) ∧
      ∃ eof error, w' = withRead w c (w.connection c).buffer false eof error) ∨
    ∃ l, r = .done l ∧ l ≠ [] ∧ (∀ rss, recvFails (w.event (c, .read)) (rs :: rss) =
      ((w.event (c, .read)).ready && recvFails (w.event (c, .read)) rss)) ∧ w' = w := by
  have hbits : ∀ ready eof error, w.setEvent (c, .read) (fun e =>
      { e with ready := ready, eof := eof, error := error }) =
        withRead w c (w.connection c).buffer ready eof error := by
    intro ready eof error
    simp [withRead, Worker.setConnection, Worker.setEvent]
  rw [posixRecv] at hrun
  simp only [hread] at hrun
  by_cases hav : (w.event (c, .read)).available = false ∧ (w.event (c, .read)).pendingEof = false
  · rw [if_pos (by simp [hav])] at hrun
    obtain ⟨rfl, rfl⟩ := Prod.mk.inj (Option.some.inj hrun)
    refine .inl ⟨rfl, fun rss => by simp [recvFails, hav], _, _, hbits false _ _⟩
  · rw [if_neg (by simpa using hav), recvLoop_eq] at hrun
    have hav' : ((w.event (c, .read)).available || (w.event (c, .read)).pendingEof) = true := by
      cases ha : (w.event (c, .read)).available <;> simp_all
    obtain ⟨x, hx, hrun⟩ := Option.bind_eq_some_iff.mp hrun
    cases x with
    | intr => exact absurd hx (recvAnswer_ne_intr rs)
    | again =>
      obtain ⟨rfl, rfl⟩ := Prod.mk.inj (Option.some.inj hrun)
      exact .inl ⟨rfl, fun rss => by simp [recvFails, loopFails, hx], _, _, hbits false _ _⟩
    | fail =>
      obtain ⟨rfl, rfl⟩ := Prod.mk.inj (Option.some.inj hrun)
      exact .inr (.inl ⟨rfl, fun rss => by simp [recvFails, loopFails, hx, hav'], _, _,
        hbits false _ true⟩)
    | bytes l =>
      rw [recvLoop] at hrun
      by_cases hl : l.take size = []
      · rw [if_pos hl] at hrun
        obtain ⟨rfl, rfl⟩ := Prod.mk.inj (Option.some.inj hrun)
        obtain rfl : l = [] := by
          rcases List.take_eq_nil_iff.mp hl with h | h
          · omega
          · exact h
        exact .inr (.inr (.inl ⟨rfl, fun rss => by simp [recvFails, loopFails, hx], _, _,
          hbits false true _⟩))
      · have hne : l.isEmpty = false := by
          cases l with
          | nil => simp at hl
          | cons x l => rfl
        rw [if_neg hl, useEpollRdhup, Bool.false_and, if_neg Bool.false_ne_true] at hrun
        obtain ⟨rfl, rfl⟩ := Prod.mk.inj (Option.some.inj hrun)
        exact .inr (.inr (.inr ⟨_, rfl, hl, fun rss => by
          simp [recvFails, loopFails, hx, hav', hne], rfl⟩))

/-! ## The loop of `myread` -/

/-- The loop of `myread` ends when the event is not ready, or with a closed connection. -/
lemma readLoop_spec {size : ℕ} {recvs : List (List RecvResult)} {go : Bool} {l : List UInt8}
    (hread : (w.connection c).read = (c, .read)) (hsize : 0 < size)
    (hrun : readLoop w (c, .read) c size recvs = some (go, l, w')) :
    (go = true ∧ recvFails (w.event (c, .read)) recvs = false ∧ ∃ eof error, w' =
      withRead w c ((w.connection c).buffer.map (bufReceive · l)) false eof error) ∨
    (go = false ∧ recvFails (w.event (c, .read)) recvs = true ∧ ∃ ready eof error,
      closeConnection (withRead w c ((w.connection c).buffer.map (bufReceive · l)) ready eof error)
        c = some w') := by
  have hnil : ∀ b : Option Buf, b.map (bufReceive · []) = b := by
    intro b
    cases b <;> simp [bufReceive_nil]
  induction recvs generalizing w l with
  | nil => simp [readLoop] at hrun
  | cons rs rss ih =>
    cases hrecv : posixRecv w c size rs with
    | none => simp [readLoop, hrecv] at hrun
    | some p =>
    obtain ⟨r, w₁⟩ := p
    rw [readLoop, hrecv] at hrun
    rcases posixRecv_spec hread hsize hrecv with
      ⟨rfl, hfails, eof, error, rfl⟩ | ⟨rfl, hfails, eof, error, rfl⟩ |
      ⟨rfl, hfails, eof, error, rfl⟩ | ⟨l₁, rfl, -, hfails, rfl⟩
    · obtain ⟨rfl, rfl, rfl⟩ : true = go ∧ [] = l ∧ _ = w' := by simpa using hrun
      exact .inl ⟨rfl, hfails rss, eof, error, by rw [hnil]⟩
    · simp only [Option.bind_eq_bind, Option.bind_some] at hrun
      obtain ⟨w₂, hclose, hrun⟩ := Option.bind_eq_some_iff.mp hrun
      obtain ⟨rfl, rfl, rfl⟩ : false = go ∧ [] = l ∧ _ = w' := by simpa using hrun
      exact .inr ⟨rfl, hfails rss, false, eof, error, by rw [hnil]; exact hclose⟩
    · -- the end of the stream: the event is not ready any more
      have hbuffer : setBuffer (withRead w c (w.connection c).buffer false eof error) c
          (bufReceive · []) = withRead w c (w.connection c).buffer false eof error := by
        simp [setBuffer, Worker.setConnection, hnil, withRead, Worker.setEvent]
      simp only [Option.bind_eq_bind, Option.bind_some, hbuffer] at hrun
      rw [if_neg (by simp)] at hrun
      obtain ⟨rfl, rfl, rfl⟩ : true = go ∧ [] = l ∧ _ = w' := by simpa using hrun
      exact .inl ⟨rfl, hfails rss, eof, error, by rw [hnil]⟩
    · have hbuffer : setBuffer w₁ c (bufReceive · l₁) =
          withRead w₁ c ((w₁.connection c).buffer.map (bufReceive · l₁))
            (w₁.event (c, .read)).ready (w₁.event (c, .read)).eof (w₁.event (c, .read)).error := by
        simp [setBuffer, withRead, Worker.setEvent, Worker.setConnection]
      simp only [Option.bind_eq_bind, Option.bind_some, hbuffer] at hrun
      by_cases hready : (w₁.event (c, .read)).ready = true
      · rw [if_pos (by simpa using hready)] at hrun
        obtain ⟨⟨go₂, l₂, w₃⟩, hloop, hrun⟩ := Option.bind_eq_some_iff.mp hrun
        obtain ⟨rfl, rfl, rfl⟩ : go₂ = go ∧ l₁ ++ l₂ = l ∧ w₃ = w' := by simpa using hrun
        have := ih (by simpa using hread) hloop
        rw [hfails, hready, Bool.true_and]
        simpa [withRead_withRead, Option.map_map, Function.comp_def, bufReceive_append,
          recvFails] using this
      · rw [if_neg (by simpa using hready)] at hrun
        obtain ⟨rfl, rfl, rfl⟩ : true = go ∧ l₁ = l ∧ _ = w' := by simpa using hrun
        refine .inl ⟨rfl, by rw [hfails]; simp [hready], (w₁.event (c, .read)).eof,
          (w₁.event (c, .read)).error, ?_⟩
        rw [show (w₁.event (c, .read)).ready = false by simpa using hready]

/-! ## Closing -/

/-- `close_connection` of a client: the invariant is kept, the slot serves no one, and the counter
and the pools stay. -/
lemma Steady.closeConnection {w₁ : Worker n} (h : Steady w lc) (hc : Serving w c)
    (hs : Stays w w₁ c) (hcons : Consistent w₁ free lists)
    (hrun : closeConnection w₁ c = some w') :
    Steady w' lc ∧ Same w w' c ∧ clientOf w' = Function.update (clientOf w) c none ∧
      w'.statActive = w.statActive ∧ w'.pools = w.pools ∧
      w'.kernel = w₁.kernel.close (w.connection c).fd ∧ w'.freeConnections = some c ∧
      ¬ InUse w'.connection c := by
  have hlc : c ≠ lc := ((h.serving_iff c).mp hc).2
  have hc₁ : InUse w₁.connection c := ((hs.serving_iff c).mpr hc).1
  obtain ⟨T, links, count, hrun', hcons', hT⟩ := closeConnection_spec hcons hc₁
  rw [hrun'] at hrun
  obtain rfl := Option.some.inj hrun
  have hfree : ¬ InUse (w₁.closed c T links count).connection c := by
    simp [InUse, Worker.closed]
  have hs' := hs.toSame.trans (Same.closed w₁ c links count hT)
  refine ⟨h.same hs' hcons' (fun hu => absurd hu hfree) fun e => absurd e hlc, hs',
    hs'.client_eq (clientOf_of_not fun hu => hfree hu.1), hs.statActive, hs.pools, ?_, rfl, hfree⟩
  rw [← hs.fd]
  rfl

/-! ## `myread` -/

/-- `myread` closes the connection, before it calls `mywrite`. -/
def GivesUp (w : Worker n) (c : Fin n) (memory : Option (ℕ → UInt8))
    (recvs : List (List RecvResult)) : Prop :=
  w.timers.timedout (c, .read) = false ∧ ((w.connection c).close = true ∨
    readBuffer (w.connection c).buffer memory readSize = none ∨
    recvFails (w.event (c, .read)) recvs = true)

instance (w : Worker n) (c : Fin n) (memory : Option (ℕ → UInt8))
    (recvs : List (List RecvResult)) : Decidable (GivesUp w c memory recvs) :=
  inferInstanceAs (Decidable (_ ∧ _))

/-- `myread` gets to its call of `mywrite` with the bytes `l` behind those in `b`. -/
structure Received (w w' : Worker n) (c : Fin n) (b : Buf) (l : List UInt8) : Prop
    extends Stays w w' c where
  client : clientAt w' c = { clientAt w c with buffer := some (bufReceive b l) }
  ready : (w'.event (c, .read)).ready = false
  timers : w'.timers = w.timers

/-- `myread` up to its call of `mywrite`: it finds its timer expired, closes the connection, or
has received bytes. -/
lemma myreadReceive_spec {memory : Option (ℕ → UInt8)} {recvs : List (List RecvResult)} {go : Bool}
    {l : List UInt8} (h : Consistent w free lists) (hc : InUse w.connection c)
    (hrun : myreadReceive w (c, .read) memory recvs = some (go, l, w')) :
    (w.timers.timedout (c, .read) = true ∧ go = false ∧ l = [] ∧ w' = w) ∨
    (GivesUp w c memory recvs ∧ go = false ∧ ∃ w₁, Stays w w₁ c ∧ Consistent w₁ free lists ∧
      closeConnection w₁ c = some w' ∧ (l = [] ∨ readBuffer (w.connection c).buffer memory readSize ≠ none)) ∨
    (w.timers.timedout (c, .read) = false ∧ go = true ∧ ∃ b lists',
      readBuffer (w.connection c).buffer memory readSize = some b ∧ Received w w' c b l ∧
      Consistent w' free lists') := by
  rw [myreadReceive, h.slots.data c .read hc] at hrun
  simp only [Option.bind_eq_bind, Option.bind_some] at hrun
  by_cases hout : w.timers.timedout (c, .read) = true
  · rw [if_pos hout] at hrun
    obtain ⟨rfl, rfl, rfl⟩ : false = go ∧ [] = l ∧ w = w' := by simpa using hrun
    exact .inl ⟨hout, rfl, rfl, rfl⟩
  rw [if_neg hout] at hrun
  rw [Bool.not_eq_true] at hout
  by_cases hclose : (w.connection c).close = true
  · rw [if_pos hclose] at hrun
    obtain ⟨w₂, hrun', hrun⟩ := Option.bind_eq_some_iff.mp hrun
    obtain ⟨rfl, rfl, rfl⟩ : false = go ∧ [] = l ∧ w₂ = w' := by simpa using hrun
    exact .inr (.inl ⟨⟨hout, .inl hclose⟩, rfl, w, .refl w c, h, hrun', .inl rfl⟩)
  rw [if_neg hclose] at hrun
  cases hb : readBuffer (w.connection c).buffer memory readSize with
  | none =>
    rw [show (1024 : ℕ) = readSize from rfl, hb] at hrun
    obtain ⟨w₂, hrun', hrun⟩ := Option.bind_eq_some_iff.mp hrun
    obtain ⟨rfl, rfl, rfl⟩ : false = go ∧ [] = l ∧ w₂ = w' := by simpa using hrun
    exact .inr (.inl ⟨⟨hout, .inr (.inl hb)⟩, rfl, w, .refl w c, h, hrun', .inl rfl⟩)
  | some b =>
    rw [show (1024 : ℕ) = readSize from rfl, hb] at hrun
    -- the buffer of the connection is `b` now
    obtain ⟨w₁, hw₁⟩ : ∃ w₁, w₁ = withRead w c (some b) (w.event (c, .read)).ready
      (w.event (c, .read)).eof (w.event (c, .read)).error := ⟨_, rfl⟩
    have hset : w.setConnection c (fun r => { r with buffer := some b }) = w₁ := by
      simp [hw₁, withRead, Worker.setEvent, Worker.setConnection]
    have hread : (w₁.connection c).read = (c, .read) := by
      rw [hw₁]
      simpa using h.slots.read c
    have hevent : w₁.event = w.event := by simp [hw₁]
    have hbuffer : (w₁.connection c).buffer = some b := by simp [hw₁]
    simp only [hset] at hrun
    obtain ⟨⟨go₁, l₁, w₂⟩, hloop, hrun⟩ := Option.bind_eq_some_iff.mp hrun
    rcases readLoop_spec hread (by decide) hloop with
      ⟨rfl, -, eof, error, rfl⟩ | ⟨rfl, hfails, ready, eof, error, hrun'⟩
    · simp only [hbuffer, Option.map_some] at hrun
      rw [hw₁, withRead_withRead] at hrun
      have hcons := consistent_withRead h c (some (bufReceive b l₁)) false eof error
      have hc' : InUse (withRead w c (some (bufReceive b l₁)) false eof error).connection c := by
        simpa [InUse] using hc
      obtain ⟨links, count, hrun', hcons'⟩ := reusableConnection_spec hcons hc' false
      rw [hrun'] at hrun
      obtain ⟨rfl, rfl, rfl⟩ : true = go ∧ l₁ = l ∧ _ = w' := by simpa using hrun
      refine .inr (.inr ⟨hout, rfl, b, _, rfl, ?_, hcons'⟩)
      exact
        { toStays := (Stays.withRead w c _ false eof error).trans (.withReusable _ c links count)
          client := by simp [clientAt, Worker.withReusable, Worker.setConnection]
          ready := by simp [Worker.withReusable, Worker.setConnection]
          timers := rfl }
    · simp only [hbuffer, Option.map_some] at hrun'
      rw [hw₁, withRead_withRead] at hrun'
      rw [hevent] at hfails
      obtain ⟨rfl, rfl, rfl⟩ : false = go ∧ l₁ = l ∧ w₂ = w' := by simpa using hrun
      exact .inr (.inl ⟨⟨hout, .inr (.inr hfails)⟩, rfl, _,
        Stays.withRead w c (some (bufReceive b l₁)) ready eof error,
        consistent_withRead h c _ ready eof error, hrun', .inr (by simp)⟩)

end Libcn.Program
