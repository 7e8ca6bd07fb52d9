import Libcn.Cycle.Shutdown

/-!
# What a step does to descriptors

The operations of a worker leave the descriptors alone, but for those that close a connection,
which close the descriptor of its slot along with it.
-/

namespace Libcn.Descriptor

open Libcn.Lib Libcn.Lib.Links Libcn.Queue Libcn.Rbtree Libcn.Timer Libcn.Cycle

variable {n : ℕ} {w w' w₁ : Worker n} {free : List (Fin n)} {lists : QueueId → List (Node n)}
  {s s' : Config n}

/-- No descriptor is handed out or closed, and the slots keep theirs. -/
structure SameFds (w w' : Worker n) : Prop where
  log : w'.kernel.log = w.kernel.log
  isOpen : w'.kernel.isOpen = w.kernel.isOpen
  fd : ∀ c, (w'.connection c).fd = (w.connection c).fd

namespace SameFds

lemma refl (w : Worker n) : SameFds w w := ⟨rfl, rfl, fun _ => rfl⟩

lemma trans (h : SameFds w w') (h' : SameFds w' w₁) : SameFds w w₁ where
  log := h'.log.trans h.log
  isOpen := h'.isOpen.trans h.isOpen
  fd c := (h'.fd c).trans (h.fd c)

/-- A write to a connection that keeps the descriptor. -/
lemma setConnection (w : Worker n) (d : Fin n) {f : Connection n → Connection n}
    (hf : ∀ r, (f r).fd = r.fd) : SameFds w (w.setConnection d f) := by
  refine ⟨rfl, rfl, fun c => ?_⟩
  by_cases hcd : c = d <;> simp [Worker.setConnection, hcd, hf]

/-- `epoll_ctl` changes the interest list only. -/
lemma ctl {kernel : Kernel n} {op : CtlOp} {fd : ℤ} {entry : Option (Interest n)} {ok : Bool}
    (event : EventId n → Event n) (h : w.kernel.epollCtl op fd entry ok = some kernel) :
    SameFds w { w with event := event, kernel := kernel } := by
  rw [Kernel.epollCtl] at h
  split_ifs at h
  obtain rfl := Option.some.inj h
  exact ⟨rfl, rfl, fun _ => rfl⟩

end SameFds

/-! ## Operations -/

lemma addTimer_sameFds {ev : EventId n} {timer : BitVec 64} (h : addTimer w ev timer = some w') :
    SameFds w w' := by
  obtain ⟨T, -, hw'⟩ := Option.bind_eq_some_iff.mp h
  exact Option.some.inj hw' ▸ ⟨rfl, rfl, fun _ => rfl⟩

lemma delTimer_sameFds {ev : EventId n} (h : delTimer w ev = some w') : SameFds w w' := by
  obtain ⟨T, -, hw'⟩ := Option.bind_eq_some_iff.mp h
  exact Option.some.inj hw' ▸ ⟨rfl, rfl, fun _ => rfl⟩

lemma postEvent_sameFds {ev : EventId n} {q : QueueId} (h : postEvent w ev q = some w') :
    SameFds w w' := by
  rw [postEvent] at h
  split_ifs at h
  · exact Option.some.inj h ▸ .refl _
  · obtain ⟨links, -, hw'⟩ := Option.bind_eq_some_iff.mp h
    exact Option.some.inj hw' ▸ ⟨rfl, rfl, fun _ => rfl⟩

lemma leaveReusable_sameFds {c : Fin n} (h : leaveReusable w c = some w') : SameFds w w' := by
  rw [leaveReusable] at h
  split_ifs at h
  · obtain ⟨links, -, hw'⟩ := Option.bind_eq_some_iff.mp h
    exact Option.some.inj hw' ▸ ⟨rfl, rfl, fun _ => rfl⟩
  · exact Option.some.inj h ▸ .refl _

lemma reusableConnection_sameFds {c : Fin n} {b : Bool} (h : reusableConnection w c b = some w') :
    SameFds w w' := by
  obtain ⟨w₁, hleave, h⟩ := Option.bind_eq_some_iff.mp h
  have hset : SameFds w (w₁.setConnection c fun r => { r with reusable := b }) :=
    (leaveReusable_sameFds hleave).trans (.setConnection _ _ fun _ => rfl)
  cases b with
  | false => exact Option.some.inj h ▸ hset
  | true =>
    obtain ⟨links, -, hw'⟩ := Option.bind_eq_some_iff.mp h
    exact Option.some.inj hw' ▸ hset.trans ⟨rfl, rfl, fun _ => rfl⟩

lemma epollAddEvent_sameFds {ev : EventId n} {i : Side} {edge ok b : Bool}
    (h : epollAddEvent w ev i edge ok = some (b, w')) : SameFds w w' := by
  obtain ⟨c, -, h⟩ := Option.bind_eq_some_iff.mp h
  dsimp only at h
  split at h
  · exact (Prod.mk.inj (Option.some.inj h)).2 ▸ .refl _
  · next hctl => exact (Prod.mk.inj (Option.some.inj h)).2 ▸ .ctl _ hctl

lemma epollDelEvent_sameFds {ev : EventId n} {i : Side} {closing edge ok b : Bool}
    (h : epollDelEvent w ev i closing edge ok = some (b, w')) : SameFds w w' := by
  rw [epollDelEvent] at h
  split_ifs at h
  · exact (Prod.mk.inj (Option.some.inj h)).2 ▸ ⟨rfl, rfl, fun _ => rfl⟩
  · obtain ⟨c, -, h⟩ := Option.bind_eq_some_iff.mp h
    dsimp only at h
    split at h
    · exact (Prod.mk.inj (Option.some.inj h)).2 ▸ .refl _
    · next hctl => exact (Prod.mk.inj (Option.some.inj h)).2 ▸ .ctl _ hctl

lemma epollAddConnection_sameFds (w : Worker n) (c : Fin n) (ok : Bool) :
    SameFds w (epollAddConnection w c ok) := by
  rw [epollAddConnection]
  split
  · exact .refl _
  · next hctl => exact .ctl _ hctl

lemma epollDelConnection_sameFds (w : Worker n) (c : Fin n) (closing ok : Bool) :
    SameFds w (epollDelConnection w c closing ok).2 := by
  rw [epollDelConnection]
  split_ifs
  · exact ⟨rfl, rfl, fun _ => rfl⟩
  · split
    · exact .refl _
    · next hctl => exact .ctl _ hctl

lemma handleReadEvent_sameFds {ev : EventId n} {ok b : Bool}
    (h : handleReadEvent w ev ok = some (b, w')) : SameFds w w' := by
  rw [handleReadEvent] at h
  split_ifs at h
  · exact epollAddEvent_sameFds h
  · exact (Prod.mk.inj (Option.some.inj h)).2 ▸ .refl _

lemma writeLowat_sameFds {ev : EventId n} {lowat : ℕ} {ok b : Bool}
    (h : writeLowat w ev lowat ok = some (b, w')) : SameFds w w' := by
  rw [writeLowat] at h
  split_ifs at h
  · exact (Prod.mk.inj (Option.some.inj h)).2 ▸ .refl _
  · obtain ⟨c, -, h⟩ := Option.bind_eq_some_iff.mp h
    rw [sendLowat] at h
    split_ifs at h
    · exact (Prod.mk.inj (Option.some.inj h)).2 ▸ .refl _
    · exact (Prod.mk.inj (Option.some.inj h)).2 ▸ .setConnection _ _ fun _ => rfl
    · exact (Prod.mk.inj (Option.some.inj h)).2 ▸ .refl _

lemma handleWriteEvent_sameFds {ev : EventId n} {lowat : ℕ} {lowatOk ok b : Bool}
    (h : handleWriteEvent w ev lowat lowatOk ok = some (b, w')) : SameFds w w' := by
  obtain ⟨⟨b₁, w₁⟩, hlow, h⟩ := Option.bind_eq_some_iff.mp h
  have hsame := writeLowat_sameFds hlow
  cases b₁ with
  | false => exact (Prod.mk.inj (Option.some.inj h)).2 ▸ hsame
  | true =>
    dsimp only at h
    split_ifs at h
    · exact hsame.trans (epollAddEvent_sameFds h)
    · exact (Prod.mk.inj (Option.some.inj h)).2 ▸ hsame

lemma enableAcceptEvents_sameFds {ok b : Bool} (h : enableAcceptEvents w ok = some (b, w')) :
    SameFds w w' := by
  rw [enableAcceptEvents] at h
  split at h
  · exact (Prod.mk.inj (Option.some.inj h)).2 ▸ .refl _
  · split_ifs at h
    · exact (Prod.mk.inj (Option.some.inj h)).2 ▸ .refl _
    · exact epollAddEvent_sameFds h

lemma disableAcceptEvents_sameFds {all ok b : Bool}
    (h : disableAcceptEvents w all ok = some (b, w')) : SameFds w w' := by
  rw [disableAcceptEvents] at h
  split at h
  · exact (Prod.mk.inj (Option.some.inj h)).2 ▸ .refl _
  · split_ifs at h
    · exact (Prod.mk.inj (Option.some.inj h)).2 ▸ .refl _
    · exact (Prod.mk.inj (Option.some.inj h)).2 ▸ .refl _
    · exact epollDelEvent_sameFds h

lemma listenOn_sameFds {c : Fin n} {ok b : Bool} (h : listenOn w c ok = some (b, w')) :
    SameFds w w' := by
  have hset : SameFds w (({ w with listening :=
      { w.listening with connection := some c } } : Worker n).setEvent (w.connection c).read
        fun e => { e with accept := true, deferredAccept := w.listening.deferredAccept
                          handler := .eventAccept }) := ⟨rfl, rfl, fun _ => rfl⟩
  rw [listenOn] at h
  split_ifs at h
  · exact hset.trans (epollAddEvent_sameFds h)
  · exact (Prod.mk.inj (Option.some.inj h)).2 ▸ hset
  · exact hset.trans (epollAddEvent_sameFds h)

/-- The listening socket keeps its descriptor. -/
lemma listenOn_fd {c : Fin n} {ok b : Bool} (h : listenOn w c ok = some (b, w')) :
    w'.listening.fd = w.listening.fd := by
  rw [listenOn] at h
  split_ifs at h
  · rw [(epollAddEvent_leaves (p := fun _ => False) (fun _ h => h.elim) h).listening]
    rfl
  · exact (Prod.mk.inj (Option.some.inj h)).2 ▸ rfl
  · rw [(epollAddEvent_leaves (p := fun _ => False) (fun _ h => h.elim) h).listening]
    rfl

/-! ## Steps -/

/-- The descriptors are left alone, or that of a slot in use is closed and the slot freed. -/
inductive Spends (w w' : Worker n) : Prop
  | keeps (h : SameFds w w')
  | closes (c : Fin n) (hc : InUse w.connection c)
    (hkernel : w'.kernel = w.kernel.close (w.connection c).fd)
    (hfrees : Frees w.connection w'.connection c)

/-- A slot gets no new descriptor. -/
lemma Spends.fd (h : Spends w w') {c : Fin n} (hc : (w'.connection c).fd ≠ -1) :
    (w'.connection c).fd = (w.connection c).fd := by
  cases h with
  | keeps hsame => exact hsame.fd c
  | closes d hd hkernel hfrees =>
    refine hfrees.2 c ?_
    rintro rfl
    exact hc hfrees.1

/-- A connection that listens did so before. -/
lemma Spends.listens (h : Spends w w') (hl : w'.listening = w.listening) {c : Fin n}
    (hc : w'.Listens c) : w.Listens c := by
  obtain ⟨hconn, hopen, hfd⟩ := hc
  rw [hl] at hconn hopen hfd
  exact ⟨hconn, hopen, by rw [← hfd, h.fd (hfd ▸ hopen)]⟩

/-- A call that answers whether it succeeded. -/
lemma spends_of_map {o : Option (Bool × Worker n)} (ho : ∀ b w', o = some (b, w') → SameFds w w')
    (h : o.map Prod.snd = some w') : Spends w w' := by
  obtain ⟨⟨b, w₁⟩, hrun, rfl⟩ := Option.map_eq_some_iff.mp h
  exact .keeps (ho b w₁ hrun)

/-- The calls of a handler. -/
lemma call_spends {a : Call n} (h : Sound s free lists) (ha : s.AllowedCall a)
    (hrun : a.run s.worker = some w') : Spends s.worker w' := by
  cases a with
  | addTimer ev timer => exact .keeps (addTimer_sameFds hrun)
  | delTimer ev => exact .keeps (delTimer_sameFds hrun)
  | post ev q => exact .keeps (postEvent_sameFds hrun)
  | reusable c b => exact .keeps (reusableConnection_sameFds hrun)
  | close c =>
    by_cases hc : InUse s.worker.connection c
    · obtain ⟨T, links, count, hclose, -⟩ := closeConnection_spec h.consistent hc
      obtain rfl := Option.some.inj (hclose.symm.trans hrun)
      exact .closes c hc rfl ⟨by simp [Worker.closed], fun d hd => by simp [Worker.closed, hd]⟩
    · exact .keeps (Option.some.inj ((closeConnection_closed hc).symm.trans hrun) ▸ .refl _)
  | closeAccepted c =>
    obtain ⟨hc, hblank⟩ := h.obtained c ha
    obtain ⟨-, hfrees, -, -, -, hkernel⟩ := closeAcceptedConnection_spec h.consistent hc hblank
    obtain rfl := Option.some.inj hrun
    exact .closes c hc hkernel hfrees
  | addEvent ev edge ok => exact spends_of_map (fun _ _ => epollAddEvent_sameFds) hrun
  | delEvent ev edge ok => exact spends_of_map (fun _ _ => epollDelEvent_sameFds) hrun
  | addConnection c ok =>
    exact .keeps (Option.some.inj hrun ▸ epollAddConnection_sameFds s.worker c ok)
  | delConnection c ok =>
    exact .keeps (Option.some.inj hrun ▸ epollDelConnection_sameFds s.worker c false ok)
  | handleRead c ok => exact spends_of_map (fun _ _ => handleReadEvent_sameFds) hrun
  | handleWrite c lowat lowatOk ok => exact spends_of_map (fun _ _ => handleWriteEvent_sameFds) hrun
  | enableAccept ok => exact spends_of_map (fun _ _ => enableAcceptEvents_sameFds) hrun
  | disableAccept all ok => exact spends_of_map (fun _ _ => disableAcceptEvents_sameFds) hrun
  | listen c ok => exact spends_of_map (fun _ _ => listenOn_sameFds) hrun
  | writeEvent ev e => exact .keeps (Option.some.inj hrun ▸ ⟨rfl, rfl, fun _ => rfl⟩)
  | writeConnection c r =>
    exact .keeps (Option.some.inj hrun ▸ .setConnection _ _ fun _ => rfl)

lemma timersNext_sameFds {ev : EventId n} (h : timersNext w = some (some (ev, w'))) :
    SameFds w w' := by
  obtain ⟨r, -, h⟩ := Option.bind_eq_some_iff.mp h
  cases r with
  | none => cases Option.some.inj h
  | some r => exact (Prod.mk.inj (Option.some.inj (Option.some.inj h))).2 ▸ ⟨rfl, rfl, fun _ => rfl⟩

/-- The state after a half round of `epoll_process_events`. -/
lemma markReady_sameFds {ev : EventId n} {f : Event n → Event n} {q : QueueId} {postEvents : Bool}
    {call : Option (EventId n)}
    (hrun : (if postEvents then do
          let w ← postEvent (w.setEvent ev f) ev q
          pure (.ready w none)
        else some (.ready (w.setEvent ev f) (some ev)) : Option (Dispatch n)) =
        some (.ready w' call)) : SameFds w w' := by
  have hset : SameFds w (w.setEvent ev f) := ⟨rfl, rfl, fun _ => rfl⟩
  cases postEvents with
  | false =>
    obtain ⟨rfl, -⟩ := Dispatch.ready.inj (Option.some.inj hrun)
    exact hset
  | true =>
    obtain ⟨w₁, hpost, hw₁⟩ := Option.bind_eq_some_iff.mp hrun
    obtain ⟨rfl, -⟩ := Dispatch.ready.inj (Option.some.inj hw₁)
    exact hset.trans (postEvent_sameFds hpost)

lemma recordRead_sameFds {r : Record n} {postEvents : Bool} {call : Option (EventId n)}
    (hrun : recordRead w r postEvents = some (.ready w' call)) : SameFds w w' := by
  rw [recordRead] at hrun
  dsimp only at hrun
  by_cases hstale : r.stale w (w.connection r.slot).read = true
  · rw [if_pos hstale] at hrun
    cases Option.some.inj hrun
  rw [if_neg hstale] at hrun
  by_cases hready : (r.wantsRead && (w.event (w.connection r.slot).read).active) = true
  · rw [if_pos hready] at hrun
    exact markReady_sameFds hrun
  · rw [if_neg hready] at hrun
    cases Option.some.inj hrun

lemma recordWrite_sameFds {r : Record n} {postEvents : Bool} {call : Option (EventId n)}
    (hrun : recordWrite w r postEvents = some (.ready w' call)) : SameFds w w' := by
  rw [recordWrite] at hrun
  dsimp only at hrun
  by_cases hready : (r.wantsWrite && (w.event (w.connection r.slot).write).active) = true
  · rw [if_pos hready] at hrun
    by_cases hstale : r.stale w (w.connection r.slot).write = true
    · rw [if_pos hstale] at hrun
      cases Option.some.inj hrun
    rw [if_neg hstale] at hrun
    exact markReady_sameFds hrun
  · rw [if_neg hready] at hrun
    cases Option.some.inj hrun

/-- A round of a loop other than `get_connection`. -/
lemma round_sameFds {f : Frame n} {st : List (Frame n)} (h : Sound s free lists)
    (hf : f.awaits = none) (hrun : s.round st f = some s') :
    SameFds s.worker s'.worker ∧
      s'.stack.filterMap Frame.awaits = st.filterMap Frame.awaits := by
  cases f with
  | handler => cases hrun
  | get fd => cases hf
  | expire =>
    obtain ⟨o, hnext, hrun⟩ := Option.bind_eq_some_iff.mp hrun
    cases o with
    | none => exact Option.some.inj hrun ▸ ⟨.refl _, rfl⟩
    | some r => exact Option.some.inj hrun ▸ ⟨timersNext_sameFds hnext, rfl⟩
  | posted q =>
    rw [Config.round] at hrun
    rcases postedNext_spec h.consistent q.2 with ⟨-, hnext⟩ | ⟨ev, l, links, -, -, hnext, -⟩
    · rw [hnext] at hrun
      exact Option.some.inj hrun ▸ ⟨.refl _, rfl⟩
    · rw [hnext] at hrun
      exact Option.some.inj hrun ▸ ⟨⟨rfl, rfl, fun _ => rfl⟩, rfl⟩
  | drain rounds =>
    cases rounds with
    | zero => exact Option.some.inj hrun ▸ ⟨.refl _, rfl⟩
    | succ rounds =>
      rw [Config.round] at hrun
      rcases drainNext_spec h.consistent with ⟨-, hnext⟩ | ⟨d, l, -, -, hnext, -⟩
      · rw [hnext] at hrun
        exact Option.some.inj hrun ▸ ⟨.refl _, rfl⟩
      · rw [hnext] at hrun
        exact Option.some.inj hrun ▸
          ⟨.setConnection _ d (f := fun r => { r with close := true }) fun _ => rfl, rfl⟩
  | batch rs postEvents =>
    cases rs with
    | nil => exact Option.some.inj hrun ▸ ⟨.refl _, rfl⟩
    | cons r rs =>
      obtain ⟨o, hrec, hrun⟩ := Option.bind_eq_some_iff.mp hrun
      cases o with
      | skip => exact Option.some.inj hrun ▸ ⟨.refl _, rfl⟩
      | idle => exact Option.some.inj hrun ▸ ⟨.refl _, rfl⟩
      | ready w call =>
        have hsame := recordRead_sameFds hrec
        cases call with
        | none => exact Option.some.inj hrun ▸ ⟨hsame, rfl⟩
        | some ev => exact Option.some.inj hrun ▸ ⟨hsame, rfl⟩
  | batchWrite r rs postEvents =>
    obtain ⟨o, hrec, hrun⟩ := Option.bind_eq_some_iff.mp hrun
    cases o with
    | skip => exact Option.some.inj hrun ▸ ⟨.refl _, rfl⟩
    | idle => exact Option.some.inj hrun ▸ ⟨.refl _, rfl⟩
    | ready w call =>
      have hsame := recordWrite_sameFds hrec
      cases call with
      | none => exact Option.some.inj hrun ▸ ⟨hsame, rfl⟩
      | some ev => exact Option.some.inj hrun ▸ ⟨hsame, rfl⟩

/-- The descriptor of the call of `get_connection` on top of the stack. -/
def getting (s : Config n) : Option ℤ := s.stack.head?.bind Frame.awaits

/-- A step that neither calls `get_connection`, nor returns from it, nor makes the listening
connection. -/
def Apart (s : Config n) : Cycle.Label n → Prop
  | .getConnection _ => False
  | .next => getting s = none
  | .call a => a.listens = none
  | _ => True

instance (s : Config n) : (a : Cycle.Label n) → Decidable (Apart s a)
  | .call _ => inferInstanceAs (Decidable (_ = _))
  | .getConnection _ => .isFalse id
  | .drainConnections => .isTrue trivial
  | .expireTimers => .isTrue trivial
  | .processPosted _ => .isTrue trivial
  | .processEvents _ _ => .isTrue trivial
  | .clock _ => .isTrue trivial
  | .next => inferInstanceAs (Decidable (_ = _))
  | .ret => .isTrue trivial

/-- Such a step closes the descriptor of a connection or none, and hands none out. -/
lemma step_spends {a : Cycle.Label n} (h : Sound s free lists) (ha : s.Allowed a) (hs : Apart s a)
    (hstep : s.step a = some s') :
    Spends s.worker s'.worker ∧ s'.pending = s.pending := by
  cases a with
  | call b =>
    obtain ⟨w', hrun, hs'⟩ := Option.bind_eq_some_iff.mp hstep
    obtain rfl := Option.some.inj hs'
    exact ⟨call_spends h ha.2 hrun, rfl⟩
  | getConnection fd => exact hs.elim
  | next =>
    have hnext : s.next = some s' := hstep
    rw [Config.next] at hnext
    cases hst : s.stack with
    | nil =>
      rw [hst] at hnext
      cases hnext
    | cons f st =>
      rw [hst] at hnext
      have hf : f.awaits = none := by
        have hget : getting s = none := hs
        rwa [getting, hst] at hget
      obtain ⟨hsame, hstack⟩ := round_sameFds h hf hnext
      refine ⟨.keeps hsame, ?_⟩
      rw [Config.pending, Config.pending, hstack, hst, List.filterMap_cons, hf]
  | clock now => exact Option.some.inj hstep ▸ ⟨.keeps ⟨rfl, rfl, fun _ => rfl⟩, rfl⟩
  | drainConnections => exact Option.some.inj hstep ▸ ⟨.keeps (.refl _), rfl⟩
  | expireTimers => exact Option.some.inj hstep ▸ ⟨.keeps (.refl _), rfl⟩
  | processPosted q => exact Option.some.inj hstep ▸ ⟨.keeps (.refl _), rfl⟩
  | processEvents reports postEvents => exact Option.some.inj hstep ▸ ⟨.keeps (.refl _), rfl⟩
  | ret =>
    obtain rfl := Option.some.inj hstep
    refine ⟨.keeps (.refl _), ?_⟩
    obtain ⟨hbody, hne⟩ := ha
    rw [Config.AtBody, or_iff_right hne] at hbody
    cases hst : s.stack with
    | nil => exact absurd hst hne
    | cons f st =>
      rw [hst] at hbody
      cases f with
      | handler =>
        rw [Config.pending, Config.pending, hst]
        rfl
      | _ => cases hbody

end Libcn.Descriptor
