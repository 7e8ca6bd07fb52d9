import Libcn.Program.Receive

/-!
# What `mywrite` does

`mywrite` is called for the read event, which is not ready any more, so that its loop calls
`posix_send` once.
-/

namespace Libcn.Program

open Libcn.Lib Libcn.Lib.Links Libcn.Queue Libcn.Rbtree Libcn.Timer Libcn.Cycle

variable {n : ℕ} {w w' : Worker n} {free : List (Fin n)} {lists : QueueId → List (Node n)}
  {c lc : Fin n}

/-! ## Answers of `send` -/

/-- What `send` answers when it is not interrupted. -/
def sendAnswer (rs : List SendResult) : Option SendResult := rs.find? (· ≠ .intr)

/-- `send` answers the first call of `posix_send` with an error other than `EAGAIN` and
`EINTR`. -/
def sendFails (sends : List (List SendResult)) : Bool :=
  match sends with
  | [] => false
  | rs :: _ => sendAnswer rs = some .fail

/-- How many of `size` bytes `send` takes in the first call of `posix_send`. -/
def sendTakes (sends : List (List SendResult)) (size : ℕ) : ℕ :=
  match sends with
  | [] => 0
  | rs :: _ =>
    match sendAnswer rs with
    | some (.count k) => min k size
    | _ => 0

lemma sendTakes_le (sends : List (List SendResult)) (size : ℕ) : sendTakes sends size ≤ size := by
  cases sends with
  | nil => exact Nat.zero_le _
  | cons rs rss =>
    rw [sendTakes]
    split
    · exact Nat.min_le_right _ _
    · exact Nat.zero_le _

lemma sendTakes_zero (sends : List (List SendResult)) : sendTakes sends 0 = 0 :=
  Nat.le_zero.mp (sendTakes_le sends 0)

/-! ## `posix_send` -/

/-- The worker after `send` took bytes and `posix_send` wrote bits of the write event. -/
def withSend (w : Worker n) (c : Fin n) (sent : ℕ) (ready error : Bool) : Worker n :=
  (w.setConnection c fun r => { r with sent := sent }).setEvent (c, .write) fun e =>
    { e with ready := ready, error := error }

lemma withSend_bits (w : Worker n) (c : Fin n) (ready error : Bool) :
    w.setEvent (c, .write) (fun e => { e with ready := ready, error := error }) =
      withSend w c (w.connection c).sent ready error := by
  simp [withSend, Worker.setConnection, Worker.setEvent]

@[simp] lemma withSend_connection (w : Worker n) (c : Fin n) (sent : ℕ) (ready error : Bool) :
    (withSend w c sent ready error).connection =
      Function.update w.connection c { w.connection c with sent := sent } := rfl

@[simp] lemma withSend_event (w : Worker n) (c : Fin n) (sent : ℕ) (ready error : Bool) :
    (withSend w c sent ready error).event = Function.update w.event (c, .write)
      { w.event (c, .write) with ready := ready, error := error } := rfl

@[simp] lemma withSend_timers (w : Worker n) (c : Fin n) (sent : ℕ) (ready error : Bool) :
    (withSend w c sent ready error).timers = w.timers := rfl

lemma Stays.withSend (w : Worker n) (c : Fin n) (sent : ℕ) (ready error : Bool) :
    Stays w (withSend w c sent ready error) c :=
  (Stays.setConnection w c (f := fun r => { r with sent := sent }) fun _ => ⟨rfl, rfl⟩).trans
    (Stays.setWrite _ c (f := fun e => { e with ready := ready, error := error })
      fun _ => ⟨rfl, rfl⟩)

lemma consistent_withSend (h : Consistent w free lists) (c : Fin n) (sent : ℕ)
    (ready error : Bool) : Consistent (withSend w c sent ready error) free lists := by
  have h₁ := h.setConnection c (f := fun r => { r with sent := sent }) (.inr rfl)
    fun _ => ⟨rfl, rfl, rfl, rfl, rfl⟩
  exact h₁.setEvent (c, .write) fun _ => ⟨rfl, rfl, rfl, rfl⟩

/-- What `posix_send` answers, and what it leaves. -/
lemma posixSend_spec {size : ℕ} {rs : List SendResult} {r : IoResult ℕ}
    (hwrite : (w.connection c).write = (c, .write))
    (hrun : posixSend w c size rs = some (r, w')) :
    (∃ sent ready error, w' = withSend w c sent ready error ∧
      ((sendAnswer rs = some .again ∧ r = .again ∧ sent = (w.connection c).sent) ∨
        (sendAnswer rs = some .fail ∧ r = .error ∧ sent = (w.connection c).sent) ∨
        ∃ k, sendAnswer rs = some (.count k) ∧ r = .done (min k size) ∧
          sent = (w.connection c).sent + min k size)) := by
  induction rs generalizing w with
  | nil => simp [posixSend] at hrun
  | cons x rs ih =>
    cases x with
    | again =>
      rw [posixSend, hwrite] at hrun
      obtain ⟨rfl, rfl⟩ := Prod.mk.inj (Option.some.inj hrun)
      exact ⟨_, _, _, withSend_bits w c false _, .inl ⟨rfl, rfl, rfl⟩⟩
    | fail =>
      rw [posixSend, hwrite] at hrun
      obtain ⟨rfl, rfl⟩ := Prod.mk.inj (Option.some.inj hrun)
      exact ⟨_, _, _, withSend_bits w c _ true, .inr (.inl ⟨rfl, rfl, rfl⟩)⟩
    | intr =>
      rw [posixSend, hwrite] at hrun
      have hset := withSend_bits w c false (w.event (c, .write)).error
      have hevent : w.setEvent (c, .write) (fun e => { e with ready := false }) =
          withSend w c (w.connection c).sent false (w.event (c, .write)).error := by
        rw [← hset]
        rfl
      rw [hevent] at hrun
      obtain ⟨sent, ready, error, rfl, hr⟩ := ih (by simpa using hwrite) hrun
      refine ⟨sent, ready, error, ?_, ?_⟩
      · simp [withSend, Worker.setConnection, Worker.setEvent]
      · simpa [sendAnswer] using hr
    | count k =>
      rw [posixSend, hwrite] at hrun
      by_cases hk : 0 < min k size
      · rw [if_pos hk] at hrun
        obtain ⟨rfl, rfl⟩ := Prod.mk.inj (Option.some.inj hrun)
        by_cases hpart : ((min k size : ℕ) : ℤ) < ssize size
        · refine ⟨(w.connection c).sent + min k size, false, (w.event (c, .write)).error, ?_,
            .inr (.inr ⟨k, rfl, rfl, rfl⟩)⟩
          rw [if_pos hpart]
          simp [withSend, Worker.setConnection, Worker.setEvent]
        · refine ⟨(w.connection c).sent + min k size, (w.event (c, .write)).ready,
            (w.event (c, .write)).error, ?_, .inr (.inr ⟨k, rfl, rfl, rfl⟩)⟩
          rw [if_neg hpart]
          simp [withSend, Worker.setConnection, Worker.setEvent]
      · rw [if_neg hk] at hrun
        obtain ⟨rfl, rfl⟩ := Prod.mk.inj (Option.some.inj hrun)
        have hzero : min k size = 0 := by omega
        exact ⟨_, _, _, withSend_bits w c false _,
          .inr (.inr ⟨k, rfl, by rw [hzero], by rw [hzero, Nat.add_zero]⟩)⟩

/-! ## `handle_read_event` -/

lemma withActive_self (w : Worker n) (ev : EventId n) :
    w.withActive ev (w.event ev).active w.kernel = w := by
  simp [Worker.withActive, Worker.setEvent]

/-- `handle_read_event` on an event that is not ready: it is active afterwards, unless it was not
and the kernel refuses. -/
lemma handleReadEvent_spec (h : Consistent w free lists) (hc : InUse w.connection c)
    (hready : (w.event (c, .read)).ready = false) (ok : Bool) :
    ∃ kernel, handleReadEvent w (c, .read) ok = some ((w.event (c, .read)).active || ok,
        w.withActive (c, .read) ((w.event (c, .read)).active || ok) kernel) ∧
      Consistent (w.withActive (c, .read) ((w.event (c, .read)).active || ok) kernel) free lists ∧
      kernel.isOpen = w.kernel.isOpen := by
  have hsame : ∀ b, (w.event (c, .read)).active = b → w.withActive (c, .read) b w.kernel = w := by
    rintro _ rfl
    exact withActive_self w _
  cases hact : (w.event (c, .read)).active with
  | true =>
    refine ⟨w.kernel, ?_, ?_, rfl⟩
    · rw [handleReadEvent, hact, Bool.true_or, hsame true hact]
      rfl
    · rw [Bool.true_or, hsame true hact]
      exact h
  | false =>
    rw [handleReadEvent, hact, hready, Bool.false_or]
    simp only [Bool.not_false, Bool.and_self, if_true]
    cases ok with
    | false =>
      refine ⟨w.kernel, ?_, ?_, rfl⟩
      · rw [hsame false hact, epollAddEvent, h.slots.data c .read hc]
        simp [Kernel.epollCtl]
      · rw [hsame false hact]
        exact h
    | true =>
      rcases epollAddEvent_spec h .read hc true true with ⟨-, hact'⟩ | ⟨kernel, hrun, hcons, hk⟩
      · rw [hact' rfl] at hact
        cases hact
      · exact ⟨kernel, hrun, hcons, hk⟩

/-! ## `mywrite` -/

/-- `mywrite` closes the connection. -/
def Breaks (w : Worker n) (c : Fin n) (sends : List (List SendResult)) : Prop :=
  w.timers.timedout (c, .read) = false ∧ ((w.connection c).close = true ∨
    ∃ b ∈ (w.connection c).buffer, bufSize b ≠ 0 ∧ sendFails sends = true)

instance (w : Worker n) (c : Fin n) (sends : List (List SendResult)) :
    Decidable (Breaks w c sends) := inferInstanceAs (Decidable (_ ∧ _))

/-- `send` took `k` bytes of the buffer `b`. -/
structure Sent (w w' : Worker n) (c : Fin n) (b : Buf) (k : ℕ) (ok : Bool) : Prop
    extends Stays w w' c where
  client : clientAt w' c = (clientAt w c).send b k ok

/-- `mywrite` after `send` took all bytes or a part of them. -/
lemma sent_some (h : Consistent w free lists) (hc : InUse w.connection c)
    (hready : (w.event (c, .read)).ready = false) {b : Buf} {k : ℕ} {ready error ok : Bool}
    (hb : (w.connection c).buffer = some b) (hk : 0 < k) {l : List UInt8}
    {rss : List (List SendResult)}
    (hrun : (do
      let w ← clearTimer (withSend w c ((w.connection c).sent + k) ready error) (c, .read)
      if k = bufSize b then do
        let (_, w) ← handleReadEvent w (c, .read) ok
        pure (bufBytes b b.pos k, w)
      else do
        let w := setBuffer w c fun b => { b with pos := b.pos + k }
        if (w.event (c, .read)).ready then do
          let (l', w) ← sendLoop w (c, .read) c (bufSize b) ok rss
          pure (bufBytes b b.pos k ++ l', w)
        else pure (bufBytes b b.pos k, w)) = some (l, w')) :
    l = bufBytes b b.pos k ∧ Sent w w' c b k ok ∧ Consistent w' free lists := by
  -- the timer is cleared in any case
  obtain ⟨w₂, hclear, hs₂, h₂, hc₂, hready₂, hat₂⟩ : ∃ w₂,
      clearTimer (withSend w c ((w.connection c).sent + k) ready error) (c, .read) = some w₂ ∧
      Stays w w₂ c ∧ Consistent w₂ free lists ∧ InUse w₂.connection c ∧
      (w₂.event (c, .read)).ready = false ∧
      clientAt w₂ c = { clientAt w c with timed := false, sent := (clientAt w c).sent + k } := by
    have hc₁ : InUse (withSend w c ((w.connection c).sent + k) ready error).connection c := by
      simpa [InUse] using hc
    have h₁ := consistent_withSend h c ((w.connection c).sent + k) ready error
    obtain ⟨T, hclear, hT, hset, hout, -⟩ := clearTimer_spec (c, .read) h₁.timers hc₁
    refine ⟨_, hclear, (Stays.withSend w c _ ready error).trans
      (.timers _ c hset fun d j _ => congrFun hout (d, j)), h₁.setTimers hT, hc₁, ?_, ?_⟩
    · simpa using hready
    · simp [clientAt, hset]
  rw [hclear] at hrun
  simp only [Option.bind_eq_bind, Option.bind_some] at hrun
  have hb' : (clientAt w c).buffer = some b := hb
  by_cases hall : k = bufSize b
  · rw [if_pos hall] at hrun
    obtain ⟨kernel, hadd, hcons, -⟩ := handleReadEvent_spec h₂ hc₂ hready₂ ok
    rw [hadd] at hrun
    obtain ⟨rfl, rfl⟩ : bufBytes b b.pos k = l ∧ _ = w' := by simpa using hrun
    refine ⟨rfl, ⟨hs₂.trans (.withActive w₂ c _ kernel), ?_⟩, hcons⟩
    have hclient : clientAt (w₂.withActive (c, .read) ((w₂.event (c, .read)).active || ok) kernel) c
        = { clientAt w₂ c with watched := (clientAt w₂ c).watched || ok } := by
      simp [clientAt, Worker.withActive, Worker.setEvent]
    rw [hclient, hat₂, Client.send, if_neg hk.ne', if_pos hall]
  · rw [if_neg hall] at hrun
    rw [if_neg (by simpa [setBuffer, Worker.setConnection] using hready₂)] at hrun
    obtain ⟨rfl, rfl⟩ : bufBytes b b.pos k = l ∧ _ = w' := by simpa using hrun
    have h₃ := h₂.setConnection c
      (f := fun r => { r with buffer := r.buffer.map fun b => { b with pos := b.pos + k } })
      (.inr rfl) fun _ => ⟨rfl, rfl, rfl, rfl, rfl⟩
    have hs₃ := hs₂.trans (Stays.setConnection w₂ c
      (f := fun r => { r with buffer := r.buffer.map fun b => { b with pos := b.pos + k } })
      fun _ => ⟨rfl, rfl⟩)
    refine ⟨rfl, ⟨hs₃, ?_⟩, h₃⟩
    have hclient : clientAt (setBuffer w₂ c fun b => { b with pos := b.pos + k }) c =
        { clientAt w₂ c with
          buffer := (clientAt w₂ c).buffer.map fun b => { b with pos := b.pos + k } } := by
      simp [clientAt, setBuffer, Worker.setConnection]
    rw [hclient, hat₂, Client.send, if_neg hk.ne', if_neg hall, hb', Option.map_some]

/-- `mywrite` finds the timer expired, closes the connection, has no buffer, or sends. -/
lemma mywrite_spec {sends : List (List SendResult)} {ok : Bool} {l : List UInt8}
    (h : Consistent w free lists) (hc : InUse w.connection c)
    (hready : (w.event (c, .read)).ready = false)
    (hrun : mywrite w (c, .read) sends ok = some (l, w')) :
    (w.timers.timedout (c, .read) = true ∧ l = [] ∧ w' = w) ∨
    (Breaks w c sends ∧ l = [] ∧ ∃ w₁, Stays w w₁ c ∧ Consistent w₁ free lists ∧
      closeConnection w₁ c = some w') ∨
    (w.timers.timedout (c, .read) = false ∧ (w.connection c).buffer = none ∧ l = [] ∧ w' = w) ∨
    (w.timers.timedout (c, .read) = false ∧ ∃ b k, (w.connection c).buffer = some b ∧
      k = sendTakes sends (bufSize b) ∧ l = bufBytes b b.pos k ∧ Sent w w' c b k ok ∧
      Consistent w' free lists) := by
  have hzero : ∀ b : Buf, bufBytes b b.pos 0 = [] := by
    intro b
    cases hs : b.start <;> simp [bufBytes, hs]
  rw [mywrite, h.slots.data c .read hc] at hrun
  simp only [Option.bind_eq_bind, Option.bind_some] at hrun
  by_cases hout : w.timers.timedout (c, .read) = true
  · rw [if_pos hout] at hrun
    obtain ⟨rfl, rfl⟩ : [] = l ∧ w = w' := by simpa using hrun
    exact .inl ⟨hout, rfl, rfl⟩
  rw [if_neg hout] at hrun
  rw [Bool.not_eq_true] at hout
  by_cases hclose : (w.connection c).close = true
  · rw [if_pos hclose] at hrun
    obtain ⟨w₂, hrun', hrun⟩ := Option.bind_eq_some_iff.mp hrun
    obtain ⟨rfl, rfl⟩ : [] = l ∧ w₂ = w' := by simpa using hrun
    exact .inr (.inl ⟨⟨hout, .inl hclose⟩, rfl, w, .refl w c, h, hrun'⟩)
  rw [if_neg hclose] at hrun
  cases hb : (w.connection c).buffer with
  | none =>
    rw [hb] at hrun
    obtain ⟨rfl, rfl⟩ : [] = l ∧ w = w' := by simpa using hrun
    exact .inr (.inr (.inl ⟨hout, rfl, rfl, rfl⟩))
  | some b =>
    rw [hb] at hrun
    by_cases hsize : bufSize b = 0
    · simp only [hsize, if_true] at hrun
      obtain ⟨rfl, rfl⟩ : [] = l ∧ w = w' := by simpa using hrun
      refine .inr (.inr (.inr ⟨hout, b, 0, rfl, ?_, (hzero b).symm, ⟨.refl w c, rfl⟩, h⟩))
      rw [hsize, sendTakes_zero]
    simp only [hsize, if_false] at hrun
    -- the one round of the loop
    cases sends with
    | nil => simp [sendLoop] at hrun
    | cons rs rss =>
      rw [sendLoop, hb] at hrun
      simp only [Option.bind_eq_bind, Option.bind_some] at hrun
      obtain ⟨⟨r, w₁⟩, hsend, hrun⟩ := Option.bind_eq_some_iff.mp hrun
      obtain ⟨sent, ready, error, rfl, hr⟩ := posixSend_spec (h.slots.write c) hsend
      have hs₁ := Stays.withSend w c sent ready error
      have h₁ := consistent_withSend h c sent ready error
      rcases hr with ⟨hans, rfl, rfl⟩ | ⟨hans, rfl, rfl⟩ | ⟨k, hans, rfl, rfl⟩
      · obtain ⟨rfl, rfl⟩ : [] = l ∧ _ = w' := by simpa using hrun
        refine .inr (.inr (.inr ⟨hout, b, 0, rfl, ?_, (hzero b).symm, ⟨hs₁, ?_⟩, h₁⟩))
        · simp [sendTakes, hans]
        · simp [clientAt, Client.send]
      · obtain ⟨w₂, hrun', hrun⟩ := Option.bind_eq_some_iff.mp hrun
        obtain ⟨rfl, rfl⟩ : [] = l ∧ w₂ = w' := by simpa using hrun
        exact .inr (.inl ⟨⟨hout, .inr ⟨b, hb, hsize, by simp [sendFails, hans]⟩⟩, rfl, _, hs₁, h₁,
          hrun'⟩)
      · have htakes : min k (bufSize b) = sendTakes (rs :: rss) (bufSize b) := by
          simp [sendTakes, hans]
        by_cases hk : 0 < min k (bufSize b)
        · simp only [hk, if_true] at hrun
          obtain ⟨hl, hsent, hcons⟩ := sent_some h hc hready hb hk hrun
          exact .inr (.inr (.inr ⟨hout, b, _, rfl, htakes, hl, hsent, hcons⟩))
        · have hk' : min k (bufSize b) = 0 := by omega
          simp only [hk, if_false] at hrun
          rw [if_neg (by simpa using hready)] at hrun
          obtain ⟨rfl, rfl⟩ : [] = l ∧ _ = w' := by simpa using hrun
          refine .inr (.inr (.inr ⟨hout, b, _, rfl, htakes, ?_, ⟨hs₁, ?_⟩, h₁⟩))
          · rw [hk', hzero]
          · simp [clientAt, Client.send, hk']

end Libcn.Program
