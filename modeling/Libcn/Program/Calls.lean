import Libcn.Program.Arming

/-!
# What the handlers arm

`myread` and `mywrite` arm no timer and post no event. `event_accept` arms and posts only the read
event of the connection it has just accepted, whose slot is the only one that is taken.
-/

namespace Libcn.Program

open Libcn.Lib Libcn.Queue Libcn.Rbtree Libcn.Timer Libcn.Cycle

variable {n : ℕ} {w w' w₁ : Worker n} {c d lc : Fin n} {s : ℤ} {S S' : Set (EventId n)}
  {free : List (Fin n)} {lists : QueueId → List (Node n)}

/-- Each connection has the two events of its slot. -/
def Wired (w : Worker n) : Prop :=
  ∀ d, (w.connection d).read = (d, .read) ∧ (w.connection d).write = (d, .write)

lemma wired (h : Consistent w free lists) : Wired w :=
  fun d => ⟨h.slots.read d, h.slots.write d⟩

lemma Steady.wired (h : Steady w lc) : Wired w := by
  obtain ⟨free, lists, hcons⟩ := h.consistent
  exact Program.wired hcons

lemma Arms.wired (h : Arms w w' lc S) (hw : Wired w) : Wired w' := by
  intro d
  have hread := h.read d
  have hwrite := h.write d
  exact ⟨hread.trans (hw d).1, hwrite.trans (hw d).2⟩

/-- `accept_disabled` is set by the free slots. -/
def disabledFor (w : Worker n) : Worker n where
  __ := w
  acceptDisabled := BitVec.ofNat 32 (n / 8) - BitVec.ofNat 32 w.freeConnectionN

namespace Handles

/-! ## Slots -/

/-- A free slot is taken. -/
lemma taken (hw : Wired w) (hc : ¬ InUse w.connection c) (hlc : c ≠ lc) (hs : s ≠ -1) :
    Handles w (w.taken c s) lc {(c, .read)} where
  read d := by
    by_cases hd : d = c
    · subst hd
      rw [(hw d).1]
      simp [Worker.taken, Connection.zeroed]
    · simp [Worker.taken, hd]
  write d := by
    by_cases hd : d = c
    · subst hd
      rw [(hw d).2]
      simp [Worker.taken, Connection.zeroed]
    · simp [Worker.taken, hd]
  timerSet ev hev := by
    left
    by_cases hd : ev.1 = c
    · simp [Worker.taken, hd] at hev
    · simpa [Worker.taken, hd] using hev
  posted ev hev := by
    left
    by_cases hd : ev.1 = c
    · simp [Worker.taken, hd, Event.zeroed] at hev
    · simpa [Worker.taken, hd] using hev
  listening := rfl
  clock := rfl
  deferred := by simp [Worker.taken, hlc.symm]
  reusable d hd hr := by
    left
    by_cases hdc : d = c
    · subst hdc
      simp [Worker.taken, Connection.zeroed] at hr
    · simpa [InUse, Worker.taken, hdc] using And.intro hd hr
  deadlines h := h.taken hc s
  filed h := h.taken hc hlc hs
  mutex := rfl
  event := by simp [Worker.taken, hlc.symm]
  timedout := by simp [Worker.taken, hlc.symm]
  inUse d hd := by
    by_cases hdc : d = c
    · exact .inr (hdc ▸ rfl)
    · left
      simpa [InUse, Worker.taken, hdc] using hd

/-- `epoll_del_connection` when the connection is being closed. -/
lemma setActive (hw : Wired w) (hlc : c ≠ lc) (b : Bool) : Handles w (w.setActive c b) lc ∅ := by
  rw [Worker.setActive, (hw c).1, (hw c).2]
  exact (setEvent w (read_ne hlc .read) (f := fun e => { e with active := b })
    fun _ => ⟨rfl, rfl, rfl⟩).next (setEvent _ (read_ne hlc .write)
      (f := fun e => { e with active := b }) fun _ => ⟨rfl, rfl, rfl⟩)

/-- `close_connection`. -/
lemma closeConnection (hw : Wired w) (hlc : c ≠ lc) (hrun : closeConnection w c = some w') :
    Handles w w' lc ∅ := by
  rw [Cycle.closeConnection] at hrun
  split_ifs at hrun with hfd
  · obtain rfl := Option.some.inj hrun
    exact refl w lc
  rw [(hw c).1, (hw c).2] at hrun
  obtain ⟨w₁, h₁, hrun⟩ := Option.bind_eq_some_iff.mp hrun
  obtain ⟨w₂, h₂, hrun⟩ := Option.bind_eq_some_iff.mp hrun
  obtain ⟨w₃, h₃, hrun⟩ := Option.bind_eq_some_iff.mp hrun
  obtain ⟨w₄, h₄, hrun⟩ := Option.bind_eq_some_iff.mp hrun
  obtain ⟨w₅, h₅, hrun⟩ := Option.bind_eq_some_iff.mp hrun
  obtain rfl := Option.some.inj hrun
  -- the slot is in use until it is freed
  have hc : InUse w.connection (c, Side.read).1 := hfd
  obtain ⟨ha₁, hset₁, hconn₁, -⟩ := clearTimer lc hc h₁
  have hc₁ : InUse w₁.connection (c, Side.write).1 := by
    rw [hconn₁]
    exact hc
  obtain ⟨ha₂, hset₂, hconn₂, -⟩ := clearTimer lc hc₁ h₂
  have hw₂ : Wired w₂ := ha₂.wired (ha₁.wired hw)
  obtain ⟨w₂', hw₂'⟩ : ∃ w₂', w₂' = if (w₂.connection c).shared then w₂
      else (epollDelConnection w₂ c true true).2 := ⟨_, rfl⟩
  rw [← hw₂'] at h₃
  have hact : Handles w₂ w₂' lc ∅ ∧ w₂'.connection = w₂.connection := by
    rw [hw₂']
    split_ifs
    · exact ⟨refl w₂ lc, rfl⟩
    · exact ⟨setActive hw₂ hlc false, rfl⟩
  obtain ⟨hact, hconn₂'⟩ := hact
  have hc₂ : InUse w₂'.connection c := by
    rw [hconn₂', hconn₂, hconn₁]
    exact hc
  obtain ⟨ha₃, hconn₃, hoff₃, -⟩ := clearPosted (c, .read) (read_ne hlc .read) hc₂ h₃
  have hc₃ : InUse w₃.connection c := hconn₃ ▸ hc₂
  obtain ⟨ha₄, hconn₄, hoff₄, hsame₄⟩ :=
    clearPosted (c, .write) (read_ne hlc .write) hc₃ h₄
  have hc₄ : InUse w₄.connection c := hconn₄ ▸ hc₃
  have hclosed := (setEvent w₄ (read_ne hlc .read) (f := fun e => { e with closed := true })
    fun _ => ⟨rfl, rfl, rfl⟩).next (setEvent _ (read_ne hlc .write)
      (f := fun e => { e with closed := true }) fun _ => ⟨rfl, rfl, rfl⟩)
  obtain ⟨hreuse, -, hevent₅, hreusable, -⟩ :=
    reusableConnection lc (w := (w₄.setEvent (c, .read) fun e => { e with closed := true }).setEvent
      (c, .write) fun e => { e with closed := true }) hc₄ h₅ (by simp)
  -- the timers are not armed again before the slot is freed, and the events are not posted
  have hrest : Handles w₂ w₅ lc ∅ := (((hact.next ha₃).next ha₄).next hclosed).next hreuse
  have hset : ∀ i, w₅.timers.timerSet (c, i) = false := by
    intro i
    by_contra hne
    rw [Bool.not_eq_false] at hne
    have hset₂' : w₂.timers.timerSet (c, i) = true :=
      (hrest.timerSet _ hne).resolve_right (Set.notMem_empty _)
    cases i with
    | read =>
      have := (ha₂.timerSet _ hset₂').resolve_right (Set.notMem_empty _)
      rw [hset₁] at this
      cases this
    | write =>
      rw [hset₂] at hset₂'
      cases hset₂'
  have hposted : ∀ i, (w₅.event (c, i)).posted = false := by
    intro i
    rw [hevent₅]
    cases i with
    | read =>
      have hread := hsame₄ (c, .read) (by simp)
      simpa [Worker.setEvent] using hread.trans hoff₃
    | write => simpa [Worker.setEvent] using hoff₄
  exact ((ha₁.next ha₂).next hrest).next (releaseConnection w₅ lc c hset hposted hreusable)

/-- `close_accepted_connection` of a slot in no structure. -/
lemma closeAccepted (lc : Fin n) (hblank : w.Blank c) :
    Handles w (closeAcceptedConnection w c) lc ∅ := by
  refine (releaseConnection w lc c hblank.timerSet hblank.posted hblank.reusable).next ?_
  rw [closeAcceptedConnection]
  cases ((Cycle.releaseConnection w c).connection c).pool with
  | none => exact globals _ lc rfl rfl rfl rfl rfl rfl rfl
  | some pool => exact globals _ lc rfl rfl rfl rfl rfl rfl rfl

/-! ## `myread` and `mywrite` -/

lemma withRead (w : Worker n) (hlc : c ≠ lc) (buffer : Option Buf) (ready eof error : Bool) :
    Handles w (withRead w c buffer ready eof error) lc ∅ :=
  (setConnection w lc c (f := fun r => { r with buffer := buffer })
    fun _ => ⟨rfl, rfl, rfl, rfl⟩).next (setEvent _ (read_ne hlc .read)
      (f := fun e => { e with ready := ready, eof := eof, error := error })
      fun _ => ⟨rfl, rfl, rfl⟩)

lemma withSend (w : Worker n) (hlc : c ≠ lc) (sent : ℕ) (ready error : Bool) :
    Handles w (withSend w c sent ready error) lc ∅ :=
  (setConnection w lc c (f := fun r => { r with sent := sent })
    fun _ => ⟨rfl, rfl, rfl, rfl⟩).next (setEvent _ (read_ne hlc .write)
      (f := fun e => { e with ready := ready, error := error }) fun _ => ⟨rfl, rfl, rfl⟩)

/-- `myread` up to its call of `mywrite`. -/
lemma myreadReceive (hw : Wired w) (hlc : c ≠ lc) (hc : InUse w.connection c)
    (hdata : (w.event (c, .read)).data = some c) {memory : Option (ℕ → UInt8)}
    {recvs : List (List RecvResult)} {go : Bool} {l : List UInt8}
    (hrun : myreadReceive w (c, .read) memory recvs = some (go, l, w')) : Handles w w' lc ∅ := by
  rw [Program.myreadReceive, hdata] at hrun
  simp only [Option.bind_eq_bind, Option.bind_some] at hrun
  split_ifs at hrun
  · obtain ⟨-, -, rfl⟩ : false = go ∧ [] = l ∧ w = w' := by simpa using hrun
    exact refl w lc
  · obtain ⟨w₁, hclose, hrun⟩ := Option.bind_eq_some_iff.mp hrun
    obtain ⟨-, -, rfl⟩ : false = go ∧ [] = l ∧ w₁ = w' := by simpa using hrun
    exact closeConnection hw hlc hclose
  cases hb : readBuffer (w.connection c).buffer memory 1024 with
  | none =>
    rw [hb] at hrun
    obtain ⟨w₁, hclose, hrun⟩ := Option.bind_eq_some_iff.mp hrun
    obtain ⟨-, -, rfl⟩ : false = go ∧ [] = l ∧ w₁ = w' := by simpa using hrun
    exact closeConnection hw hlc hclose
  | some b =>
    rw [hb] at hrun
    obtain ⟨⟨go₁, l₁, w₂⟩, hloop, hrun⟩ := Option.bind_eq_some_iff.mp hrun
    have ha := setConnection w lc c (f := fun r => { r with buffer := some b })
      fun _ => ⟨rfl, rfl, rfl, rfl⟩
    have hw₁ := ha.wired hw
    rcases readLoop_spec (hw₁ c).1 (by norm_num) hloop with
      ⟨rfl, -, eof, error, rfl⟩ | ⟨rfl, -, ready, eof, error, hclose⟩
    · obtain ⟨w₃, hreuse, hrun⟩ := Option.bind_eq_some_iff.mp hrun
      obtain ⟨-, -, rfl⟩ : true = go ∧ l₁ = l ∧ w₃ = w' := by simpa using hrun
      have hread := ha.next (withRead _ hlc
        (((w.setConnection c fun r => { r with buffer := some b }).connection c).buffer.map
          (bufReceive · l₁)) false eof error)
      have hc₁ : InUse (Program.withRead (w.setConnection c fun r => { r with buffer := some b }) c
          (((w.setConnection c fun r => { r with buffer := some b }).connection c).buffer.map
            (bufReceive · l₁)) false eof error).connection c := by
        simpa [InUse, Worker.setConnection] using hc
      obtain ⟨hreuse, -⟩ := reusableConnection lc hc₁ hreuse (by simp)
      exact hread.next hreuse
    · obtain ⟨-, -, rfl⟩ : false = go ∧ l₁ = l ∧ w₂ = w' := by simpa using hrun
      have hread := fun buffer => withRead (w.setConnection c fun r => { r with buffer := some b })
        hlc buffer ready eof error
      exact ha.next ((hread _).next (closeConnection ((hread _).wired hw₁) hlc hclose))

/-- `mywrite` for a read event that is not ready, so that its loop has one round. -/
lemma mywrite (hw : Wired w) (hlc : c ≠ lc) (hdata : (w.event (c, .read)).data = some c)
    (hc : InUse w.connection c) (hready : (w.event (c, .read)).ready = false)
    {sends : List (List SendResult)} {ok : Bool} {l : List UInt8}
    (hrun : mywrite w (c, .read) sends ok = some (l, w')) : Handles w w' lc ∅ := by
  rw [Program.mywrite, hdata] at hrun
  simp only [Option.bind_eq_bind, Option.bind_some] at hrun
  split_ifs at hrun
  · obtain ⟨-, rfl⟩ : [] = l ∧ w = w' := by simpa using hrun
    exact refl w lc
  · obtain ⟨w₁, hclose, hrun⟩ := Option.bind_eq_some_iff.mp hrun
    obtain ⟨-, rfl⟩ : [] = l ∧ w₁ = w' := by simpa using hrun
    exact closeConnection hw hlc hclose
  cases hb : (w.connection c).buffer with
  | none =>
    rw [hb] at hrun
    obtain ⟨-, rfl⟩ : [] = l ∧ w = w' := by simpa using hrun
    exact refl w lc
  | some b =>
    rw [hb] at hrun
    by_cases hsize : bufSize b = 0
    · simp only [hsize, if_true] at hrun
      obtain ⟨-, rfl⟩ : [] = l ∧ w = w' := by simpa using hrun
      exact refl w lc
    simp only [hsize, if_false] at hrun
    cases sends with
    | nil => simp [sendLoop] at hrun
    | cons rs rss =>
      rw [sendLoop, hb] at hrun
      simp only [Option.bind_eq_bind, Option.bind_some] at hrun
      obtain ⟨⟨r, w₁⟩, hsend, hrun⟩ := Option.bind_eq_some_iff.mp hrun
      obtain ⟨sent, ready, error, rfl, -⟩ := posixSend_spec (hw c).2 hsend
      have ha := withSend w hlc sent ready error
      have hready₁ : ((Program.withSend w c sent ready error).event (c, .read)).ready = false := by
        simpa using hready
      cases r with
      | error =>
        obtain ⟨w₂, hclose, hrun⟩ := Option.bind_eq_some_iff.mp hrun
        obtain ⟨-, rfl⟩ : [] = l ∧ w₂ = w' := by simpa using hrun
        exact ha.next (closeConnection (ha.wired hw) hlc hclose)
      | again =>
        obtain ⟨-, rfl⟩ : [] = l ∧ _ = w' := by simpa using hrun
        exact ha
      | done k =>
        by_cases hk : 0 < k
        · simp only [hk, if_true] at hrun
          obtain ⟨w₂, hclear, hrun⟩ := Option.bind_eq_some_iff.mp hrun
          have hc₁ : InUse (Program.withSend w c sent ready error).connection
              (c, Side.read).1 := by
            simpa [InUse] using hc
          obtain ⟨hclear, -, -, hevent⟩ := clearTimer lc hc₁ hclear
          have ha₂ := ha.next hclear
          split_ifs at hrun with hall hmore
          · obtain ⟨⟨b, w₃⟩, hadd, hrun⟩ := Option.bind_eq_some_iff.mp hrun
            obtain ⟨-, rfl⟩ : _ = l ∧ w₃ = w' := by simpa using hrun
            exact ha₂.next (handleReadEvent (read_ne hlc .read) hadd)
          · -- the event is not ready any more
            rw [show (setBuffer w₂ c fun b => { b with pos := b.pos + k }).event = w₂.event
              from rfl,
              hevent, hready₁] at hmore
            cases hmore
          · obtain ⟨-, rfl⟩ : _ = l ∧ _ = w' := by simpa using hrun
            exact ha₂.next (setConnection w₂ lc c fun _ => ⟨rfl, rfl, rfl, rfl⟩)
        · simp only [hk, if_false] at hrun
          rw [if_neg (by simpa using hready)] at hrun
          obtain ⟨-, rfl⟩ : [] = l ∧ _ = w' := by simpa using hrun
          exact ha

/-! ## `get_connection` -/

/-- `drain_connections` closes connections. -/
lemma drainLoop (h : Steady w lc) (hp : Pending w s) (a : ReadAnswers) (i : ℕ)
    (hrun : drainLoop a i w = some w') : Handles w w' lc ∅ := by
  induction i generalizing w with
  | zero =>
    obtain rfl := Option.some.inj hrun
    exact refl w lc
  | succ i ih =>
    obtain ⟨free, lists, hcons⟩ := h.consistent
    rw [Program.drainLoop] at hrun
    rcases drainNext_spec hcons with ⟨-, hnext⟩ | ⟨c, l, hl, -, hnext, hcons₁⟩
    · rw [hnext] at hrun
      obtain rfl := Option.some.inj hrun
      exact refl w lc
    have hserve : Serving w c := h.reusable hcons (by rw [hl]; simp)
    have hlc : c ≠ lc := ((h.serving_iff c).mp hserve).2
    obtain ⟨w₁, hw₁⟩ : ∃ w₁, w₁ = w.setConnection c fun r => { r with close := true } := ⟨_, rfl⟩
    have ha : Handles w w₁ lc ∅ := by
      rw [hw₁]
      exact setConnection w lc c fun _ => ⟨rfl, rfl, rfl, rfl⟩
    rw [← hw₁] at hnext hcons₁
    obtain ⟨hs, hp₁, -, hhandler⟩ := asked_spec h hp hserve hw₁ hcons₁ a
    have h₁ := hs.steady h hcons₁
    rw [hnext] at hrun
    simp only [Option.bind_eq_bind, Option.bind_some, hhandler] at hrun
    cases hout : w.timers.timedout (c, .read) with
    | true =>
      rw [hout, if_pos rfl] at hrun
      exact ha.next (ih h₁ hp₁ hrun)
    | false =>
      rw [hout, if_neg Bool.false_ne_true] at hrun
      obtain ⟨w₂, hclose, hrun⟩ := Option.bind_eq_some_iff.mp hrun
      obtain ⟨h₂, hs₂, -, -, -, hk, -, hgone⟩ := h.closeConnection hserve hs hcons₁ hclose
      have hp₂ := hp.close hs₂ hgone (by rw [hk, hw₁]; rfl)
      exact (ha.next (closeConnection h₁.wired hlc hclose)).next (ih h₂ hp₂ hrun)

/-- `get_connection` answers NULL or takes a slot in its first state. -/
lemma getConnection (h : Steady w lc) (hp : Pending w s) {a : ReadAnswers} {r : Option (Fin n)}
    (hrun : getConnection w s a = some (r, w')) :
    (r = none → Handles w w' lc ∅) ∧ ∀ c, r = some c → Handles w w' lc {(c, .read)} ∧
      c ≠ lc ∧ InUse w'.connection c ∧ w'.Blank c := by
  obtain ⟨w₀, h₀, hp₀, ha₀, hdrain⟩ : ∃ w₀, Steady w₀ lc ∧ Pending w₀ s ∧ Handles w w₀ lc ∅ ∧
      (if w.freeConnections = none then drainConnections w a else some w) = some w₀ := by
    split_ifs
    · obtain ⟨w₀, cs, hloop, hp₀, hd, -⟩ := drainLoop_spec h hp a (drainCount w)
      exact ⟨w₀, hd.steady, hp₀, drainLoop h hp a _ hloop, hloop⟩
    · exact ⟨w, h, hp, refl w lc, rfl⟩
  have hget : Program.getConnection w s a = (popConnection w₀ s).elim (some (none, w₀))
      fun p => some (some p.1, p.2) := by
    rw [Program.getConnection]
    split_ifs at hdrain ⊢ <;> rw [hdrain] <;> cases hpop : popConnection w₀ s <;> simp [hpop]
  rw [hget] at hrun
  obtain ⟨free, lists, hcons⟩ := h₀.consistent
  have hnone : w₀.kernel.interest s = none := by
    by_contra hne
    obtain ⟨d, -, hfd⟩ := hcons.interests.owned s hne
    exact hp₀.other d hfd
  rcases popConnection_spec hcons hp₀.ne (fun d _ => hp₀.other d) hp₀.isOpen hnone with
    ⟨-, hpop⟩ | ⟨c, l, -, hnot, hpop, -, hblank, htakes⟩
  · rw [hpop] at hrun
    obtain ⟨rfl, rfl⟩ : none = r ∧ w₀ = w' := by simpa using hrun
    exact ⟨fun _ => ha₀, fun c hc => by cases hc⟩
  · rw [hpop] at hrun
    obtain ⟨rfl, rfl⟩ : some c = r ∧ w₀.taken c s = w' := by simpa using hrun
    have hlc : c ≠ lc := by
      rintro rfl
      exact hnot h₀.inUse
    refine ⟨fun hr => (by cases hr), fun d hd => ?_⟩
    obtain rfl := Option.some.inj hd
    exact ⟨ha₀.next (taken h₀.wired hnot hlc hp₀.ne), hlc, (htakes.inUse c).mpr (.inl rfl), hblank⟩

/-! ## `event_accept` -/

/-- The end of `callback` for a connection that is not ready. -/
lemma awaitInput (hw : Wired w) (hlc : c ≠ lc) (hc : InUse w.connection c)
    (hdef : (w.event (lc, .read)).deferredAccept = false) {ok : Bool}
    (hrun : awaitInput w c ok = some w') : Handles w w' lc {(c, .read)} := by
  rw [Program.awaitInput, (hw c).1] at hrun
  obtain ⟨w₁, htimer, hrun⟩ := Option.bind_eq_some_iff.mp hrun
  obtain ⟨w₂, hreuse, hrun⟩ := Option.bind_eq_some_iff.mp hrun
  obtain ⟨⟨b, w₃⟩, hadd, hrun⟩ := Option.bind_eq_some_iff.mp hrun
  have hread : InUse w.connection (c, Side.read).1 := hc
  obtain ⟨htimer, hconn, -⟩ := addTimer lc hread htimer
  have hc₁ : InUse w₁.connection c := hconn ▸ hc
  obtain ⟨hreuse, -⟩ := reusableConnection lc hc₁ hreuse fun _ => htimer.deferred.trans hdef
  have ha := (htimer.quiet hreuse).quiet (handleReadEvent (read_ne hlc .read) hadd)
  cases b with
  | true =>
    obtain rfl := Option.some.inj hrun
    exact ha
  | false => exact ha.quiet (closeConnection (ha.wired hw) hlc hrun)

/-- `callback` makes the connection reusable if it has no input yet. -/
lemma callback (hw : Wired w) (hlc : c ≠ lc) (hc : InUse w.connection c)
    (hdef : (w.event (c, .read)).ready = false →
      (w.event (lc, .read)).deferredAccept = false) {ok b : Bool}
    (hrun : callback w c ok = some (b, w')) : Handles w w' lc {(c, .read)} := by
  have ha : Handles w (setHandlers w c) lc ∅ := by
    rw [setHandlers, (hw c).1, (hw c).2]
    exact (setEvent w (read_ne hlc .read) (f := fun e => { e with handler := .myread })
      fun _ => ⟨rfl, rfl, rfl⟩).next (setEvent _ (read_ne hlc .write)
        (f := fun e => { e with handler := .mywrite }) fun _ => ⟨rfl, rfl, rfl⟩)
  have hready : ((setHandlers w c).event (c, .read)).ready = (w.event (c, .read)).ready := by
    simp [setHandlers, hw c, Worker.setEvent]
  have hw₁ := ha.wired hw
  have hread : InUse (setHandlers w c).connection (c, Side.read).1 := hc
  rw [Program.callback] at hrun
  simp only [(hw₁ c).1] at hrun
  split_ifs at hrun with hset hmutex
  · obtain ⟨w₂, htimer, hrun⟩ := Option.bind_eq_some_iff.mp hrun
    obtain ⟨w₃, hpost, hrun⟩ := Option.bind_eq_some_iff.mp hrun
    obtain ⟨-, rfl⟩ : false = b ∧ w₃ = w' := by simpa using hrun
    obtain ⟨htimer, hconn, -⟩ := addTimer lc hread htimer
    have hread₂ : InUse w₂.connection (c, Side.read).1 := hconn ▸ hread
    have hboth := htimer.trans (postEvent (read_ne hlc .read) hread₂ hpost)
    rw [Set.union_self] at hboth
    exact ha.next hboth
  · obtain ⟨-, rfl⟩ : true = b ∧ setHandlers w c = w' := by simpa using hrun
    exact ha.mono (Set.empty_subset _)
  · obtain ⟨w₂, hwait, hrun⟩ := Option.bind_eq_some_iff.mp hrun
    obtain ⟨-, rfl⟩ : false = b ∧ w₂ = w' := by simpa using hrun
    have hdef₁ := hdef (by rw [← hready]; simpa using hset)
    exact ha.next (awaitInput hw₁ hlc hc (ha.deferred.trans hdef₁) hwait)

/-- A connection that has all it needs. -/
lemma serveConnection (hw : Wired w) (hlc : c ≠ lc) (hc : InUse w.connection c) {ok : Bool}
    {r : Accepted n} (hrun : serveConnection w (lc, .read) c ok = some (r, w')) :
    Handles w w' lc {(c, .read)} := by
  have hwrite := setEvent w (read_ne hlc .write) (f := fun e => { e with ready := true })
    fun _ => ⟨rfl, rfl, rfl⟩
  have hmark : Handles w (markAccepted w (lc, .read) c) lc ∅ ∧
      (((markAccepted w (lc, .read) c).event (c, .read)).ready = false →
        (w.event (lc, .read)).deferredAccept = false) := by
    rw [markAccepted]
    simp only [(hw c).2, (hwrite.wired hw c).1, hwrite.deferred]
    split_ifs with hdef
    · refine ⟨hwrite.next (setEvent _ (read_ne hlc .read) fun _ => ⟨rfl, rfl, rfl⟩),
        fun hready => ?_⟩
      simp [Worker.setEvent] at hready
    · exact ⟨hwrite, fun _ => by simpa using hdef⟩
  obtain ⟨ha, hready⟩ := hmark
  have hinUse : InUse (markAccepted w (lc, .read) c).connection c := by
    have hconn : (markAccepted w (lc, .read) c).connection = w.connection := by
      rw [markAccepted]
      split_ifs <;> rfl
    rw [hconn]
    exact hc
  rw [Program.serveConnection] at hrun
  obtain ⟨⟨b, w₁⟩, hcall, hrun⟩ := Option.bind_eq_some_iff.mp hrun
  have hall := ha.next (callback (ha.wired hw) hlc hinUse
    (fun h => ha.deferred.trans (hready h)) hcall)
  cases b with
  | true =>
    obtain ⟨-, rfl⟩ : _ = r ∧ w₁ = w' := by simpa using hrun
    exact hall
  | false =>
    obtain ⟨-, rfl⟩ := Prod.mk.inj (Option.some.inj hrun)
    exact hall

/-- `event_accept` with a new connection. -/
lemma acceptConnection (hw : Wired w) (hlc : c ≠ lc) (hc : InUse w.connection c)
    (hblank : w.Blank c) {a : AcceptAnswers} {r : Accepted n}
    (hrun : acceptConnection w (lc, .read) c a = some (r, w')) :
    Handles w w' lc {(c, .read)} := by
  have hnone := Set.empty_subset {(c, Side.read)}
  rw [Program.acceptConnection] at hrun
  dsimp only at hrun
  cases hp : a.pool with
  | none =>
    rw [hp] at hrun
    obtain ⟨-, rfl⟩ := Prod.mk.inj (Option.some.inj hrun)
    have ha : Handles w { w with statActive := w.statActive + 1 } lc ∅ :=
      globals w lc rfl rfl rfl rfl rfl rfl rfl
    have hblank₁ : ({ w with statActive := w.statActive + 1 } : Worker n).Blank c :=
      ⟨hblank.timerSet, hblank.posted, hblank.active, hblank.reusable⟩
    exact (ha.next (closeAccepted lc hblank₁)).mono hnone
  | some pool =>
    rw [hp] at hrun
    obtain ⟨w₁, hw₁⟩ : ∃ w₁, w₁ = Worker.setConnection
      { w with statActive := w.statActive + 1, pools := pool :: w.pools } c
      fun r => { r with pool := some pool } := ⟨_, rfl⟩
    have ha : Handles w w₁ lc ∅ := by
      have hglobals : Handles w
          { w with statActive := w.statActive + 1, pools := pool :: w.pools } lc ∅ :=
        globals w lc rfl rfl rfl rfl rfl rfl rfl
      rw [hw₁]
      exact hglobals.next (setConnection _ lc c (f := fun r => { r with pool := some pool })
        fun _ => ⟨rfl, rfl, rfl, rfl⟩)
    have hblank₁ : w₁.Blank c := by
      rw [hw₁]
      exact ⟨hblank.timerSet, hblank.posted, hblank.active,
        by simpa [Worker.setConnection] using hblank.reusable⟩
    have hc₁ : InUse w₁.connection c := by
      rw [hw₁]
      simpa [InUse, Worker.setConnection] using hc
    simp only [← hw₁] at hrun
    split_ifs at hrun
    · obtain ⟨-, rfl⟩ := Prod.mk.inj (Option.some.inj hrun)
      exact (ha.next (closeAccepted lc hblank₁)).mono hnone
    · exact ha.next (serveConnection (ha.wired hw) hlc hc₁ hrun)

/-- A round of `event_accept` with a new descriptor, which first sets `accept_disabled`. -/
lemma acceptDescriptor (h : Steady w lc) {a : AcceptAnswers} {fd : ℤ}
    (hans : a.accept = .descriptor fd) (hne : fd ≠ -1) (hfd : w.kernel.isOpen fd = false)
    {r : Accepted n} (hrun : acceptNext w (lc, .read) a = some (r, w')) :
    Handles (disabledFor w) w' lc ∅ ∨ ∃ c, c ≠ lc ∧ Handles (disabledFor w) w' lc {(c, .read)} := by
  rw [Program.acceptNext, hans] at hrun
  obtain ⟨⟨slot, w₁⟩, hget, hrun⟩ := Option.bind_eq_some_iff.mp hrun
  obtain ⟨h₀, hp₀⟩ := h.hand hne hfd
    (BitVec.ofNat 32 (n / 8) - BitVec.ofNat 32 w.freeConnectionN)
  obtain ⟨hnone, hsome⟩ := getConnection h₀ hp₀ hget
  have hhand : Handles (disabledFor w)
      { disabledFor w with kernel := w.kernel.hand fd } lc ∅ :=
    globals _ lc rfl rfl rfl rfl rfl rfl rfl
  cases slot with
  | none =>
    obtain ⟨-, rfl⟩ := Prod.mk.inj (Option.some.inj hrun)
    have hclose : Handles w₁ (w₁.close fd) lc ∅ := globals w₁ lc rfl rfl rfl rfl rfl rfl rfl
    exact .inl ((hhand.next (hnone rfl)).next hclose)
  | some c =>
    obtain ⟨htook, hlc, hc, hblank⟩ := hsome c rfl
    have hfirst := hhand.next htook
    have hboth := hfirst.trans (acceptConnection (htook.wired h₀.wired) hlc hc hblank hrun)
    rw [Set.union_self] at hboth
    exact .inr ⟨c, hlc, hboth⟩

end Handles

/-! ## `event_accept` without a client -/

namespace Arms

/-- The accept events are switched on or off. -/
lemma enableAcceptEvents (lc : Fin n) {ok b : Bool}
    (hrun : enableAcceptEvents w ok = some (b, w')) : Arms w w' lc ∅ := by
  rw [Cycle.enableAcceptEvents] at hrun
  cases hl : w.listening.connection with
  | none =>
    rw [hl] at hrun
    obtain ⟨-, rfl⟩ := Prod.mk.inj (Option.some.inj hrun)
    exact refl w lc
  | some c =>
    simp only [hl] at hrun
    split_ifs at hrun
    · obtain ⟨-, rfl⟩ := Prod.mk.inj (Option.some.inj hrun)
      exact refl w lc
    · exact epollAddEvent lc hrun

lemma disableAcceptEvents (lc : Fin n) {all ok b : Bool}
    (hrun : disableAcceptEvents w all ok = some (b, w')) : Arms w w' lc ∅ := by
  rw [Cycle.disableAcceptEvents] at hrun
  cases hl : w.listening.connection with
  | none =>
    rw [hl] at hrun
    obtain ⟨-, rfl⟩ := Prod.mk.inj (Option.some.inj hrun)
    exact refl w lc
  | some c =>
    simp only [hl] at hrun
    split_ifs at hrun
    · obtain ⟨-, rfl⟩ := Prod.mk.inj (Option.some.inj hrun)
      exact refl w lc
    · obtain ⟨-, rfl⟩ := Prod.mk.inj (Option.some.inj hrun)
      exact refl w lc
    · exact epollDelEvent lc hrun

/-- With the accept mutex in use the listening event gets no timer. -/
lemma acceptExhausted (h : Steady w lc) {ev : EventId n} {ok : Bool}
    (hrun : acceptExhausted w ev ok = some w') : Arms w w' lc ∅ := by
  rw [Program.acceptExhausted] at hrun
  obtain ⟨⟨b, w₁⟩, hdisable, hrun⟩ := Option.bind_eq_some_iff.mp hrun
  have ha := disableAcceptEvents lc hdisable
  cases b with
  | false =>
    obtain rfl := Option.some.inj hrun
    exact ha
  | true =>
    obtain ⟨b', w₂, hdisable', hk⟩ := disableAccept_keeps h true ok
    rw [hdisable'] at hdisable
    obtain ⟨-, rfl⟩ := Prod.mk.inj (Option.some.inj hdisable)
    simp only [hk.steady.mutex, if_true] at hrun
    obtain rfl := Option.some.inj hrun
    exact ha.next (globals w₂ lc rfl rfl rfl rfl rfl rfl)

/-- A round of `event_accept` without a new descriptor. -/
lemma acceptQuiet (h : Steady w lc) {a : AcceptAnswers} {r : Accepted n}
    (hnot : ¬ a.accept.IsDescriptor) (hrun : acceptNext w (lc, .read) a = some (r, w')) :
    Arms w w' lc ∅ ∧ (a.accept ≠ .aborted → r = .ret) := by
  rw [Program.acceptNext] at hrun
  cases hans : a.accept with
  | again =>
    rw [hans] at hrun
    obtain ⟨rfl, rfl⟩ := Prod.mk.inj (Option.some.inj hrun)
    exact ⟨refl w lc, fun _ => rfl⟩
  | aborted =>
    rw [hans] at hrun
    obtain ⟨-, rfl⟩ := Prod.mk.inj (Option.some.inj hrun)
    exact ⟨refl w lc, fun hne => absurd rfl hne⟩
  | fail =>
    rw [hans] at hrun
    obtain ⟨rfl, rfl⟩ := Prod.mk.inj (Option.some.inj hrun)
    exact ⟨refl w lc, fun _ => rfl⟩
  | exhausted =>
    rw [hans] at hrun
    obtain ⟨w₁, hex, hpair⟩ := Option.map_eq_some_iff.mp hrun
    obtain ⟨rfl, rfl⟩ := Prod.mk.inj hpair
    exact ⟨acceptExhausted h hex, fun _ => rfl⟩
  | descriptor fd =>
    rw [hans] at hnot
    exact absurd trivial hnot

/-- A round of `event_accept` arms and posts at most the read event of one connection. -/
lemma acceptNext (h : Steady w lc) {a : AcceptAnswers} {r : Accepted n}
    (ha : ∀ fd, a.accept = .descriptor fd → fd ≠ -1 ∧ w.kernel.isOpen fd = false)
    (hrun : acceptNext w (lc, .read) a = some (r, w')) : ∃ c, Arms w w' lc {(c, .read)} := by
  by_cases hnot : a.accept.IsDescriptor
  swap
  · exact ⟨lc, (acceptQuiet h hnot hrun).1.mono (Set.empty_subset _)⟩
  obtain ⟨fd, hans⟩ : ∃ fd, a.accept = .descriptor fd := by
    cases hans : a.accept <;> simp [hans, AcceptResult.IsDescriptor] at hnot ⊢
  obtain ⟨hne, hfd⟩ := ha fd hans
  obtain ⟨c, hhandles⟩ : ∃ c, Handles (disabledFor w) w' lc {(c, .read)} := by
    rcases Handles.acceptDescriptor h hans hne hfd hrun with hnone | ⟨c, -, hsome⟩
    · exact ⟨lc, hnone.mono (Set.empty_subset _)⟩
    · exact ⟨c, hsome⟩
  have hdisabled : Arms w (disabledFor w) lc ∅ := globals w lc rfl rfl rfl rfl rfl rfl
  exact ⟨c, hdisabled.next hhandles.toArms⟩

/-- `event_accept` up to its loop. -/
lemma eventAcceptStart (lc : Fin n) {ev : EventId n} {ok go : Bool}
    (hrun : eventAcceptStart w ev ok = some (go, w')) : Arms w w' lc ∅ := by
  rw [Program.eventAcceptStart] at hrun
  obtain ⟨⟨b, w₁⟩, hresume, hrun⟩ := Option.bind_eq_some_iff.mp hrun
  have ha : Arms w w₁ lc ∅ := by
    rw [resumeAccept] at hresume
    split_ifs at hresume
    · obtain ⟨⟨b', w₂⟩, hrun', hresume⟩ := Option.bind_eq_some_iff.mp hresume
      have henable := enableAcceptEvents lc hrun'
      cases b' with
      | false =>
        obtain ⟨-, rfl⟩ := Prod.mk.inj (Option.some.inj hresume)
        exact henable
      | true =>
        obtain ⟨-, rfl⟩ := Prod.mk.inj (Option.some.inj hresume)
        refine henable.next ⟨fun _ => rfl, fun _ => rfl, fun _ h => .inl h, fun _ h => .inl h, rfl,
          rfl, rfl, fun _ h h' => .inl ⟨h, h'⟩, fun h => ?_, fun h => h.congr rfl rfl
            (fun _ => ⟨rfl, rfl⟩) fun _ => ⟨rfl, rfl⟩⟩
        obtain ⟨hb, hd, l, hs⟩ := h
        exact ⟨hb, hd, l, hs.tracks, hs.ticking, hs.key⟩
    · obtain ⟨-, rfl⟩ := Prod.mk.inj (Option.some.inj hresume)
      exact refl w lc
  cases b with
  | false =>
    obtain ⟨-, rfl⟩ := Prod.mk.inj (Option.some.inj hrun)
    exact ha
  | true =>
    obtain ⟨-, rfl⟩ := Prod.mk.inj (Option.some.inj hrun)
    exact ha.next (setEvent w₁ lc _ fun _ => ⟨rfl, rfl, rfl⟩)

/-! ## The loops -/

/-- The start of an iteration. -/
lemma lockAccept (lc : Fin n) {free ok go postEvents : Bool}
    (hrun : lockAccept w free ok = some (go, postEvents, w')) : Arms w w' lc ∅ := by
  have htry : ∀ {b w₁}, trylockAcceptMutex w free ok = some (b, w₁) → Arms w w₁ lc ∅ := by
    intro b w₁ htry
    rw [trylockAcceptMutex] at htry
    split_ifs at htry
    · obtain ⟨-, rfl⟩ := Prod.mk.inj (Option.some.inj htry)
      exact refl w lc
    · obtain ⟨⟨b', w₂⟩, henable, htry⟩ := Option.bind_eq_some_iff.mp htry
      have ha := enableAcceptEvents lc henable
      cases b' with
      | false =>
        obtain ⟨-, rfl⟩ := Prod.mk.inj (Option.some.inj htry)
        exact ha
      | true =>
        obtain ⟨-, rfl⟩ := Prod.mk.inj (Option.some.inj htry)
        exact ha.next (globals w₂ lc rfl rfl rfl rfl rfl rfl)
    · obtain ⟨⟨b', w₂⟩, hdisable, htry⟩ := Option.bind_eq_some_iff.mp htry
      have ha := disableAcceptEvents lc hdisable
      cases b' with
      | false =>
        obtain ⟨-, rfl⟩ := Prod.mk.inj (Option.some.inj htry)
        exact ha
      | true =>
        obtain ⟨-, rfl⟩ := Prod.mk.inj (Option.some.inj htry)
        exact ha.next (globals w₂ lc rfl rfl rfl rfl rfl rfl)
    · obtain ⟨-, rfl⟩ := Prod.mk.inj (Option.some.inj htry)
      exact refl w lc
  rw [Program.lockAccept] at hrun
  split_ifs at hrun
  · obtain ⟨-, -, rfl⟩ : true = go ∧ false = postEvents ∧ _ = w' := by simpa using hrun
    exact globals w lc rfl rfl rfl rfl rfl rfl
  · obtain ⟨⟨b, w₁⟩, hrun', hrun⟩ := Option.bind_eq_some_iff.mp hrun
    obtain ⟨-, -, rfl⟩ : b = go ∧ w₁.acceptMutexHeld = postEvents ∧ w₁ = w' := by
      simpa using hrun
    exact htry hrun'
  · obtain ⟨-, -, rfl⟩ : true = go ∧ false = postEvents ∧ w = w' := by simpa using hrun
    exact refl w lc

/-- The first half of a record posts the read event or calls its handler, not both. -/
lemma recordRead (lc : Fin n) (hcons : Consistent w free lists) {r : Record n} {postEvents : Bool}
    {call : Option (EventId n)} (hrun : recordRead w r postEvents = some (.ready w' call)) :
    (postEvents = false ∧ Arms w w' lc ∅) ∨ (postEvents = true ∧ call = none ∧
      w'.timers = w.timers ∧ Arms w w' lc {(r.slot, .read)}) := by
  rw [Cycle.recordRead, (Program.wired hcons r.slot).1] at hrun
  dsimp only at hrun
  have ha := setEvent w lc (r.slot, .read) (f := fun e =>
    { e with ready := true, pendingEof := e.pendingEof || r.epollrdhup, available := true })
    fun _ => ⟨rfl, rfl, rfl⟩
  by_cases hstale : r.stale w (r.slot, .read) = true
  · rw [if_pos hstale] at hrun
    cases hrun
  rw [if_neg hstale] at hrun
  obtain ⟨hc, -⟩ := stale_spec hcons (Bool.not_eq_true _ ▸ hstale)
  by_cases hready : (r.wantsRead && (w.event (r.slot, .read)).active) = true
  · rw [if_pos hready] at hrun
    cases postEvents with
    | true =>
      obtain ⟨w₁, hpost, hrun⟩ := Option.bind_eq_some_iff.mp hrun
      obtain ⟨rfl, rfl⟩ := Dispatch.ready.inj (Option.some.inj hrun)
      have hc₁ : InUse (w.setEvent (r.slot, .read) fun e => { e with
          ready := true, pendingEof := e.pendingEof || r.epollrdhup
          available := true }).connection (r.slot, Side.read).1 := hc
      -- the bit `accept` tells the queue
      obtain ⟨hpost, htimers⟩ := postEvent lc hc₁ (fun hfiled => by
        rw [queueFor]
        exact if_congr ((hfiled.accept r.slot hc).trans (by simp)) rfl rfl) hpost
      exact .inr ⟨rfl, rfl, htimers, ha.next hpost⟩
    | false =>
      obtain ⟨rfl, -⟩ := Dispatch.ready.inj (Option.some.inj hrun)
      exact .inl ⟨rfl, ha⟩
  · rw [if_neg hready] at hrun
    cases hrun

/-- The first timer is taken out of the tree. -/
lemma timersNext (lc : Fin n) (hcons : Consistent w free lists) {ev : EventId n}
    (hrun : timersNext w = some (some (ev, w'))) :
    Arms w w' lc ∅ ∧ (ev ≠ (lc, .read) → Handles w w' lc ∅) ∧ w'.event = w.event ∧
      w.timers.timerSet ev = true ∧ w'.timers.timerSet ev = false := by
  rcases timersNext_spec hcons with hnone | ⟨ev', T, hrun', -, hset, -, hT, hout, hclock⟩
  · rw [hnone] at hrun
    cases hrun
  have hpair := Option.some.inj (Option.some.inj (hrun'.symm.trans hrun))
  obtain ⟨rfl, rfl⟩ := Prod.mk.inj hpair
  have hoff : T.timerSet ev' = false := by
    rw [hT]
    exact Function.update_self _ _ _
  have ha : Arms w { w with timers := T } lc ∅ := by
    refine ⟨fun _ => rfl, fun _ => rfl, fun ev h => .inl ?_, fun _ h => .inl h, rfl, hclock, rfl,
      fun _ h h' => .inl ⟨h, h'⟩, fun h => ?_, fun h => h.congr rfl rfl (fun _ => ⟨rfl, rfl⟩)
      fun _ => ⟨rfl, rfl⟩⟩
    · by_cases hev : ev = ev'
      · subst hev
        exact hset
      · simpa [hT, hev] using h
    · rcases h.expireNext with ⟨hnone, -⟩ | ⟨ev, w₁, hnext, hd⟩
      · rw [hnone] at hrun'
        cases hrun'
      · rw [hrun'] at hnext
        obtain ⟨-, rfl⟩ := Prod.mk.inj (Option.some.inj (Option.some.inj hnext))
        exact hd
  refine ⟨ha, fun hev => ⟨ha, rfl, rfl, ?_, fun _ h => .inl h⟩, rfl, hset, hoff⟩
  show T.timedout (lc, .read) = _
  rw [hout, Function.update_of_ne hev.symm]

/-- The first event is taken out of its own queue. -/
lemma postedNext (lc : Fin n) (hcons : Consistent w free lists) {q : PostedQueue}
    {ev : EventId n} (hrun : postedNext w q.1 = some (some (ev, w'))) :
    Arms w w' lc ∅ ∧ (ev ≠ (lc, .read) → Handles w w' lc ∅) ∧ w'.timers = w.timers ∧
      (w.event ev).posted = true ∧ (w'.event ev).posted = false := by
  rcases postedNext_spec hcons q.2 with ⟨-, hnone⟩ | ⟨ev', l, links, hl, hc, hrun', -⟩
  · rw [hnone] at hrun
    cases hrun
  have hpair := Option.some.inj (Option.some.inj (hrun'.symm.trans hrun))
  obtain ⟨rfl, rfl⟩ := Prod.mk.inj hpair
  have hposted := ((hcons.queues.flagged (.event ev')).mpr ⟨q.1, hl ▸ .head _⟩).2
  have ha := unpost lc hc hposted (postedNext_deletes hrun').2.2
  exact ⟨ha, fun hev => ⟨ha, rfl, Function.update_of_ne hev.symm _ _, rfl, fun _ h => .inl h⟩, rfl,
    hposted, by simp [Worker.withPosted, Worker.setEvent]⟩

end Arms

/-! ## Records -/

/-- What the first half of a record does: it marks the event, and posts it or has its handler
called. -/
lemma recordRead_ready (h : Steady w lc) {r : Record n} {postEvents : Bool}
    {call : Option (EventId n)} (hrun : recordRead w r postEvents = some (.ready w' call)) :
    (w.event (r.slot, .read)).active = true ∧ InUse w.connection r.slot ∧ ∃ w₁,
      w₁ = w.setEvent (r.slot, .read) (fun e => { e with
        ready := true, pendingEof := e.pendingEof || r.epollrdhup, available := true }) ∧
      ((postEvents = false ∧ call = some (r.slot, .read) ∧ w' = w₁) ∨
        (postEvents = true ∧ call = none ∧ ∃ q, postEvent w₁ (r.slot, .read) q = some w')) := by
  obtain ⟨free, lists, hcons⟩ := h.consistent
  rw [recordRead, hcons.slots.read] at hrun
  dsimp only at hrun
  by_cases hstale : r.stale w (r.slot, .read) = true
  · rw [if_pos hstale] at hrun
    cases hrun
  rw [if_neg hstale] at hrun
  obtain ⟨hc, -⟩ := stale_spec hcons (Bool.not_eq_true _ ▸ hstale)
  by_cases hready : (r.wantsRead && (w.event (r.slot, .read)).active) = true
  swap
  · rw [if_neg hready] at hrun
    cases hrun
  rw [if_pos hready] at hrun
  refine ⟨(Bool.and_eq_true_iff.mp hready).2, hc, _, rfl, ?_⟩
  cases postEvents with
  | true =>
    obtain ⟨w₁, hpost, hrun⟩ := Option.bind_eq_some_iff.mp hrun
    obtain ⟨rfl, rfl⟩ := Dispatch.ready.inj (Option.some.inj hrun)
    exact .inr ⟨rfl, rfl, _, hpost⟩
  | false =>
    obtain ⟨rfl, rfl⟩ := Dispatch.ready.inj (Option.some.inj hrun)
    exact .inl ⟨rfl, rfl, rfl⟩

/-- A posted event has the bit set, and nothing else changes for the mutex. -/
lemma postEvent_posted {ev : EventId n} {q : QueueId} (hrun : postEvent w ev q = some w') :
    acceptGlobals w' = acceptGlobals w ∧ w'.freeConnectionN = w.freeConnectionN ∧
      w'.timers = w.timers ∧ (w'.event ev).active = (w.event ev).active ∧
      (w'.event ev).posted = true ∧ ∀ ev', ev' ≠ ev → w'.event ev' = w.event ev' := by
  rw [postEvent] at hrun
  split_ifs at hrun with hposted
  · obtain rfl := Option.some.inj hrun
    exact ⟨rfl, rfl, rfl, rfl, hposted, fun _ _ => rfl⟩
  · obtain ⟨links, -, hrun⟩ := Option.bind_eq_some_iff.mp hrun
    obtain rfl := Option.some.inj hrun
    refine ⟨rfl, rfl, rfl, by simp [Worker.setEvent], by simp [Worker.setEvent], fun ev' hev => ?_⟩
    simp [Worker.setEvent, hev]

end Libcn.Program
