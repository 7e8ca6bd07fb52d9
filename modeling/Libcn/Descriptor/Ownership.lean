import Libcn.Descriptor.Machine

/-!
# Every descriptor is accounted for

The account is kept by every step of a run, unless `ioctl` fails in `open_listening_sockets` or
the listening socket is closed in a state that is not settled.
-/

namespace Libcn.Descriptor

open Libcn.Lib Libcn.Lib.Links Libcn.Queue Libcn.Rbtree Libcn.Timer Libcn.Cycle

variable {n : ℕ} {w w' w₁ : Worker n} {free : List (Fin n)} {lists : QueueId → List (Node n)}
  {s s' : Config n} {c lc : Fin n}

/-! ## The account -/

section Account

variable {kernel kernel' : Kernel n} {ls ls' : Listening n} {fds fds' : Fin n → ℤ}
  {held held' : List ℤ} {t r : ℤ}

/-- A record of another descriptor. -/
lemma Recorded.congr (h : Recorded ls fds r) (hls : r = ls'.fd ↔ r = ls.fd)
    (hconn : ls'.connection = ls.connection) (hfds : ∀ c, fds' c = r ↔ fds c = r) :
    Recorded ls' fds' r := by
  rw [Recorded] at h ⊢
  simp only [hls, hconn, hfds]
  exact h

/-- The account of a worker in a run: besides, the listening socket is not one of those that are
held, and -1 is no descriptor. -/
structure Custody (kernel : Kernel n) (ls : Listening n) (fds : Fin n → ℤ) (held : List ℤ) : Prop
    extends Accounted kernel ls fds held where
  notHeld : ls.fd ∉ held
  invalid : kernel.isOpen (-1) = false

namespace Custody

lemma ne (h : Custody kernel ls fds held) (hr : kernel.isOpen r = true) : r ≠ -1 := by
  rintro rfl
  rw [h.invalid] at hr
  cases hr

/-- No descriptor is handed out or closed. -/
lemma keep (h : Custody kernel ls fds held) (hlog : kernel'.log = kernel.log)
    (hopen : kernel'.isOpen = kernel.isOpen)
    (hrec : ∀ r, kernel.isOpen r = true → r ∈ held ∨ Recorded ls fds r →
      r ∈ held' ∨ Recorded ls' fds' r)
    (hvalid : ∀ r, r ≠ -1 → (r = ls'.fd ∨ ∃ c, fds' c = r) → kernel.isOpen r = true)
    (hheld : ls'.fd ∉ held') : Custody kernel' ls' fds' held' where
  once := by
    rw [hlog]
    exact h.once
  isOpen r := by rw [hlog, hopen, h.isOpen]
  recorded r hr := by
    rw [hlog] at hr
    exact hrec r (by rw [h.isOpen, hr]) (h.recorded r hr)
  valid r hr hused := by
    rw [hopen]
    exact hvalid r hr hused
  notHeld := hheld
  invalid := by rw [hopen, h.invalid]

/-- A descriptor is handed out. -/
lemma hand (h : Custody kernel ls fds held) (ht : t ≠ -1) (hnew : kernel.isOpen t = false)
    (hrec : ∀ r, r ≠ t → kernel.isOpen r = true → r ∈ held ∨ Recorded ls fds r →
      r ∈ held' ∨ Recorded ls' fds' r) (htrec : t ∈ held' ∨ Recorded ls' fds' t)
    (hvalid : ∀ r, r ≠ t → r ≠ -1 → (r = ls'.fd ∨ ∃ c, fds' c = r) → kernel.isOpen r = true)
    (hheld : ls'.fd ∉ held') : Custody (kernel.hand t) ls' fds' held' where
  once := ⟨by rw [← h.isOpen, hnew], h.once⟩
  isOpen r := by
    rw [Kernel.isOpen_hand]
    show _ = if t = r then true else stillOpen kernel.log r
    rw [← h.isOpen]
    simp only [eq_comm]
  recorded r hr := by
    by_cases hrt : r = t
    · rw [hrt]
      exact htrec
    · have hr' : stillOpen kernel.log r = true := by
        have : (if t = r then true else stillOpen kernel.log r) = true := hr
        rwa [if_neg (Ne.symm hrt)] at this
      exact hrec r hrt (by rw [h.isOpen, hr']) (h.recorded r hr')
  valid r hr hused := by
    rw [Kernel.isOpen_hand]
    split_ifs with hrt
    · rfl
    · exact hvalid r hrt hr hused
  notHeld := hheld
  invalid := by rw [Kernel.isOpen_hand, if_neg ht.symm, h.invalid]

/-- A descriptor is closed. -/
lemma close (h : Custody kernel ls fds held) (ht : t = -1 ∨ kernel.isOpen t = true)
    (hrec : ∀ r, r ≠ t → kernel.isOpen r = true → r ∈ held ∨ Recorded ls fds r →
      r ∈ held' ∨ Recorded ls' fds' r)
    (hvalid : ∀ r, r ≠ -1 → (r = ls'.fd ∨ ∃ c, fds' c = r) → r ≠ t ∧ kernel.isOpen r = true)
    (hheld : ls'.fd ∉ held') : Custody (kernel.close t) ls' fds' held' where
  once := ⟨by rwa [← h.isOpen], h.once⟩
  isOpen r := by
    rw [Kernel.isOpen_close]
    show _ = if t = r then false else stillOpen kernel.log r
    rw [← h.isOpen]
    simp only [eq_comm]
  recorded r hr := by
    have hr' : (if t = r then false else stillOpen kernel.log r) = true := hr
    split_ifs at hr' with hrt
    exact hrec r (Ne.symm hrt) (by rw [h.isOpen, hr']) (h.recorded r hr')
  valid r hr hused := by
    obtain ⟨hrt, hopen⟩ := hvalid r hr hused
    rw [Kernel.isOpen_close, if_neg hrt, hopen]
  notHeld := hheld
  invalid := by
    rw [Kernel.isOpen_close]
    split_ifs
    · rfl
    · exact h.invalid

end Custody

end Account

/-! ## `open_listening_sockets` -/

/-- What `open_listening_sockets` leaves: nothing new, a new descriptor that is closed again, or
one that is recorded. -/
inductive Opens (w : Worker n) (a : OpenAnswers) : Worker n → Prop
  | idle (b : Bool) : Opens w a { w with listening := { w.listening with addReuseport := b } }
  | closed (b : Bool) (t : ℤ) (ht : a.socket = some t) (hfd : w.listening.fd = -1) :
    Opens w a { w with
      listening := { w.listening with addReuseport := b }
      kernel := (w.kernel.hand t).close t }
  | opened (b : Bool) (t : ℤ) (ht : a.socket = some t) (hfd : w.listening.fd = -1) :
    Opens w a { w with
      listening := { w.listening with addReuseport := b, fd := t }
      kernel := w.kernel.hand t }

lemma openSocket_opens {a : OpenAnswers} (b : Bool) (hfd : w.listening.fd = -1)
    (ha : a.socket ≠ none → a.reuseaddr = true → (w.listening.reuseport = true → a.reuseport = true) →
      a.nonblocking = true) :
    Opens w a (openSocket { w with listening := { w.listening with addReuseport := b } } a).2 := by
  rw [openSocket]
  cases ht : a.socket with
  | none => exact .idle b
  | some t =>
    have hclosed : Opens w a { w with
        listening := { w.listening with addReuseport := b }
        kernel := (w.kernel.hand t).close t } := .closed b t ht hfd
    dsimp only
    split_ifs with haddr hport hblock hbind hlisten
    · exact hclosed
    · exact hclosed
    · -- the exit without `close` is not taken
      have := ha (by simp [ht]) (by simpa using haddr) fun h => by simpa [h] using hport
      simp [this] at hblock
    · exact hclosed
    · exact hclosed
    · exact .opened b t ht hfd

/-- Unless `ioctl` fails, no exit leaves a descriptor behind. -/
lemma openListeningSockets_opens {a : OpenAnswers}
    (ha : a.ReachesIoctl w → a.nonblocking = true) : Opens w a (openListeningSockets w a).2 := by
  rw [openListeningSockets]
  cases hignore : w.listening.ignore with
  | true => exact .idle w.listening.addReuseport
  | false =>
    have hset : ∀ b, Opens w a
        (if w.listening.fd ≠ -1 then (false, { w with listening :=
            { w.listening with addReuseport := b } })
          else openSocket { w with listening := { w.listening with addReuseport := b } } a).2 := by
      intro b
      split_ifs with hfd
      · exact .idle b
      · have hfd' : w.listening.fd = -1 := not_not.mp hfd
        exact openSocket_opens b hfd' fun h₁ h₂ h₃ => ha ⟨hignore, hfd', h₁, h₂, h₃⟩
    rw [if_neg (by simp)]
    cases hadd : w.listening.addReuseport with
    | true => exact hset false
    | false => exact hset w.listening.addReuseport

lemma Opens.custody {a : OpenAnswers} {fds : Fin n → ℤ} {held : List ℤ} (hw : Opens w a w')
    (h : Custody w.kernel w.listening fds held) (hfresh : a.Fresh w)
    (hheld : ∀ r ∈ held, r ≠ -1 ∧ w.kernel.isOpen r = true) :
    Custody w'.kernel w'.listening fds held := by
  have hused : ∀ t, w.kernel.isOpen t = false → t ≠ -1 → ∀ c, fds c ≠ t := by
    rintro t hnew ht c rfl
    rw [h.valid _ ht (.inr ⟨c, rfl⟩)] at hnew
    cases hnew
  cases hw with
  | idle b =>
    exact h.keep rfl rfl (fun _ _ hr => hr) (fun r hr hu => h.valid r hr hu) h.notHeld
  | closed b t ht hfd =>
    obtain ⟨hne, hnew⟩ := hfresh t ht
    have hhand : Custody (w.kernel.hand t) { w.listening with addReuseport := b } fds (t :: held) := by
      refine h.hand hne hnew (fun r _ _ hr => hr.imp_left (.tail t)) (.inl (.head held))
        (fun r _ hr hu => h.valid r hr hu) fun hmem => ?_
      rcases List.mem_cons.mp hmem with he | hmem
      · exact hne (he.symm.trans hfd)
      · exact h.notHeld hmem
    refine hhand.close (.inr (by simp)) (fun r hr _ hrec => ?_) (fun r hr hu => ?_) h.notHeld
    · exact hrec.imp_left fun hmem => (List.mem_cons.mp hmem).resolve_left hr
    · have hopen := h.valid r hr hu
      refine ⟨?_, by simp [hopen]⟩
      rintro rfl
      rw [hnew] at hopen
      cases hopen
  | opened b t ht hfd =>
    obtain ⟨hne, hnew⟩ := hfresh t ht
    refine h.hand hne hnew (fun r hrt hr hrec => hrec.imp_right fun hrec => ?_) (.inr ?_)
      (fun r hrt hr hu => ?_) fun hmem => ?_
    · refine hrec.congr ?_ rfl fun c => .rfl
      rw [hfd]
      exact iff_of_false hrt (h.ne hr)
    · rw [Recorded, if_pos rfl]
      exact fun c hc => absurd hc (hused t hnew hne c)
    · exact h.valid r hr (.inr (hu.resolve_left hrt))
    · rw [(hheld t hmem).2] at hnew
      cases hnew

/-! ## Sound states -/

/-- A kernel that differs for a descriptor no connection has. -/
lemma interests_kernel {kernel kernel' : Kernel n} {connection : Fin n → Connection n}
    {event : EventId n → Event n} (h : Interests kernel connection event)
    (hinterest : kernel'.interest = kernel.interest)
    (hopen : ∀ c, InUse connection c →
      kernel'.isOpen (connection c).fd = kernel.isOpen (connection c).fd)
    (hinvalid : kernel'.isOpen (-1) = false) : Interests kernel' connection event where
  isOpen c hc := by rw [hopen c hc, h.isOpen c hc]
  registered c hc := by
    rw [hinterest]
    exact h.registered c hc
  owned fd hfd := h.owned fd (hinterest ▸ hfd)
  invalid := hinvalid

lemma sound_withKernel {kernel : Kernel n} {ls : Listening n} {stack : List (Frame n)}
    (h : Sound s free lists) (hpend : (stack.filterMap Frame.awaits).Sublist s.pending)
    (hinterest : kernel.interest = s.worker.kernel.interest)
    (hopen : ∀ fd, fd ≠ -1 → (∃ c, (s.worker.connection c).fd = fd) ∨
      fd ∈ stack.filterMap Frame.awaits → kernel.isOpen fd = s.worker.kernel.isOpen fd)
    (hinvalid : kernel.isOpen (-1) = false)
    (hls : ls.connection = s.worker.listening.connection) :
    Sound (s.goOn { s.worker with kernel := kernel, listening := ls } stack []) free lists := by
  obtain ⟨hslots, htimers, hqueues, hinterests, haccept⟩ := h.consistent
  have hi := interests_kernel hinterests hinterest (fun c hc => hopen _ hc (.inl ⟨c, rfl⟩)) hinvalid
  refine ⟨⟨hslots, htimers, hqueues, hi, fun c hc => haccept c (hls ▸ hc)⟩, nofun,
    fun fd hfd => ?_, hpend.nodup h.nodup, h.inUse⟩
  have hmem : fd ∈ stack.filterMap Frame.awaits := hfd
  obtain ⟨hne, ho, hfree⟩ := h.pending fd (hpend.mem hmem)
  exact ⟨hne, (hopen fd hne (.inr hmem)).trans ho, hfree⟩

lemma sound_isOpen (h : Sound s free lists) {fd : ℤ} (hne : fd ≠ -1)
    (hfd : (∃ c, (s.worker.connection c).fd = fd) ∨ fd ∈ s.pending) :
    s.worker.kernel.isOpen fd = true := by
  rcases hfd with ⟨c, rfl⟩ | hmem
  · exact h.consistent.interests.isOpen c hne
  · exact (h.pending fd hmem).2.1

/-- No entry of the interest list is lost with a descriptor that no connection has. -/
lemma interest_close (h : Sound s free lists) {kernel : Kernel n} {t : ℤ}
    (hfree : ∀ c, (s.worker.connection c).fd ≠ t)
    (hk : kernel.interest = s.worker.kernel.interest) :
    (kernel.close t).interest = s.worker.kernel.interest := by
  funext fd
  rw [Kernel.interest_close, hk]
  split_ifs with hfd
  · by_contra hne
    obtain ⟨c, -, hc⟩ := h.consistent.interests.owned fd (Ne.symm hne)
    exact hfree c (hc.trans hfd)
  · rfl

/-! ## The running worker -/

/-- The invariant of a running worker. -/
structure Running (s : Config n) : Prop where
  sound : ∃ free lists, Sound s free lists
  custody : Custody s.worker.kernel s.worker.listening (fun c => (s.worker.connection c).fd) s.pending
  tied : ∀ c, s.worker.Listens c → Tied s.worker c

/-- The listening connection stays tied if it is spared. -/
lemma tied_of_leaves {p : Fin n → Prop} (hl : Leaves w w' p) (hback : ∀ c, w'.Listens c → w.Listens c)
    (htied : ∀ c, w.Listens c → Tied w c ∧ p c) (c : Fin n) (hc : w'.Listens c) : Tied w' c := by
  obtain ⟨ht, hp⟩ := htied c (hback c hc)
  exact ht.keeps (hl.keeps c hp) hl.listening

/-- The descriptors of the worker stay. -/
lemma Running.keeps (h : Running s) (hsame : SameFds s.worker w) :
    Custody w.kernel s.worker.listening (fun c => (w.connection c).fd) s.pending := by
  refine h.custody.keep hsame.log hsame.isOpen (fun r _ hrec => hrec.imp_right fun hrec => ?_)
    (fun r hr hu => h.custody.valid r hr ?_) h.custody.notHeld
  · exact hrec.congr .rfl rfl fun c => by rw [hsame.fd]
  · exact hu.imp_right fun ⟨c, hc⟩ => ⟨c, by rw [← hsame.fd, hc]⟩

/-- The descriptor of a connection other than the listening one is closed with its slot. -/
lemma Running.closes (h : Running s) (hc : InUse s.worker.connection c)
    (hne : (s.worker.connection c).fd ≠ s.worker.listening.fd)
    (hfrees : Frees s.worker.connection w.connection c) :
    Custody (s.worker.kernel.close (s.worker.connection c).fd) s.worker.listening
      (fun c => (w.connection c).fd) s.pending := by
  obtain ⟨⟨free, lists, hs⟩, hcust, -⟩ := h
  refine hcust.close (.inr (hs.consistent.interests.isOpen c hc))
    (fun r hrc hr hrec => hrec.imp_right fun hrec => ?_) (fun r hr hu => ?_) hcust.notHeld
  · refine hrec.congr .rfl rfl fun d => ?_
    by_cases hdc : d = c
    · rw [hdc, hfrees.1]
      exact iff_of_false (Ne.symm (hcust.ne hr)) (Ne.symm hrc)
    · rw [hfrees.2 d hdc]
  · rcases hu with hu | ⟨d, hd⟩
    · exact ⟨fun e => hne (e.symm.trans hu), hcust.valid r hr (.inl hu)⟩
    · have hdc : d ≠ c := by
        rintro rfl
        exact hr (hd.symm.trans hfrees.1)
      rw [hfrees.2 d hdc] at hd
      refine ⟨fun e => hdc ?_, hcust.valid r hr (.inr ⟨d, hd⟩)⟩
      exact hs.consistent.slots.fd d c (fun e' => hr (hd.symm.trans e')) (hd.trans e)

/-- A connection that shares the descriptor of the listening socket is the listening one. -/
lemma Running.listens (h : Running s) (hc : InUse s.worker.connection c)
    (he : (s.worker.connection c).fd = s.worker.listening.fd) : s.worker.Listens c := by
  obtain ⟨⟨free, lists, hs⟩, hcust, -⟩ := h
  have hpend : (s.worker.connection c).fd ∉ s.pending := fun hmem => (hs.pending _ hmem).2.2 c rfl
  have hopen := hs.consistent.interests.isOpen c hc
  have hrec := (hcust.recorded _ (by rw [← hcust.isOpen, hopen])).resolve_left hpend
  rw [Recorded, if_pos he] at hrec
  exact ⟨hrec c rfl, fun e => hc (he.trans e), he⟩

/-- A step of other code closes the descriptor of a connection or none. -/
lemma Running.worker {a : Cycle.Label n} (h : Running s) (ha : s.Allowed a) (hp : s.Proper a)
    (hapart : Apart s a) (hstep : s.step a = some s') : Running s' := by
  obtain ⟨free, lists, hs⟩ := h.sound
  have hsound : ∃ free lists, Sound s' free lists := by
    obtain ⟨s₁, hrun, free', lists', hs', -⟩ := hs.step ha
    obtain rfl := Option.some.inj (hrun.symm.trans hstep)
    exact ⟨free', lists', hs'⟩
  have hlisten : ∀ c ok, a ≠ .call (.listen c ok) := by
    rintro c ok rfl
    cases hapart
  have hleaves := step_leaves hs ha hlisten hstep
  have hspared : ∀ c, s.worker.Listens c →
      Tied s.worker c ∧ Tied s.worker c ∧ ∀ b, a = .call b → b.Spares c := by
    refine fun c hc => ⟨h.tied c hc, h.tied c hc, fun b hb => ?_⟩
    subst hb
    exact hp.2 c hc
  obtain ⟨hspends, hpending⟩ := step_spends hs ha hapart hstep
  refine ⟨hsound, ?_, tied_of_leaves hleaves (fun c => hspends.listens hleaves.listening) hspared⟩
  rw [hleaves.listening, hpending]
  cases hspends with
  | keeps hsame => exact h.keeps hsame
  | closes d hd hkernel hfrees =>
    rw [hkernel]
    refine h.closes hd (fun he => ?_) hfrees
    -- the listening connection is spared
    have hkeeps := (hleaves.keeps d (hspared d (h.listens hd he)).2).fd
    rw [hfrees.1] at hkeeps
    exact hd hkeeps.symm

/-- `open_listening_sockets` in a running worker. -/
lemma Running.openListening {a : OpenAnswers} (h : Running s) (hfresh : a.Fresh s.worker)
    (ha : a.ReachesIoctl s.worker → a.nonblocking = true) :
    Running (s.goOn (openListeningSockets s.worker a).2 s.stack []) := by
  obtain ⟨⟨free, lists, hs⟩, hcust, htied⟩ := h
  have hw := openListeningSockets_opens ha
  have hcust' := hw.custody hcust hfresh fun r hr => ⟨(hs.pending r hr).1, (hs.pending r hr).2.1⟩
  -- the descriptors in use are not the new one
  have hother : ∀ t, s.worker.kernel.isOpen t = false → ∀ fd, fd ≠ -1 →
      (∃ c, (s.worker.connection c).fd = fd) ∨ fd ∈ s.stack.filterMap Frame.awaits → fd ≠ t := by
    rintro t hnew fd hne hfd rfl
    rw [sound_isOpen hs hne hfd] at hnew
    cases hnew
  generalize (openListeningSockets s.worker a).2 = w' at hw hcust' ⊢
  cases hw with
  | idle b =>
    refine ⟨⟨free, lists, ?_⟩, hcust', fun c hc => ?_⟩
    · exact sound_withKernel hs (.refl _) rfl (fun _ _ _ => rfl) hcust.invalid rfl
    · obtain ⟨hin, hfd, hre, hact, hpost, hset⟩ := htied c hc
      exact ⟨hin, hfd, hre, hact, hpost, hset⟩
  | closed b t ht hfd =>
    obtain ⟨hne, hnew⟩ := hfresh t ht
    refine ⟨⟨free, lists, ?_⟩, hcust', fun c hc => absurd hfd hc.2.1⟩
    refine sound_withKernel hs (.refl _) (interest_close hs (fun c e => ?_) rfl)
      (fun fd hfd hu => ?_) hcust'.invalid rfl
    · exact hother t hnew t hne (.inl ⟨c, e⟩) rfl
    · rw [Kernel.isOpen_close, if_neg (hother t hnew fd hfd hu), Kernel.isOpen_hand,
        if_neg (hother t hnew fd hfd hu)]
  | opened b t ht hfd =>
    obtain ⟨hne, hnew⟩ := hfresh t ht
    refine ⟨⟨free, lists, ?_⟩, hcust', fun c hc => ?_⟩
    · refine sound_withKernel hs (.refl _) rfl (fun fd hfd hu => ?_) hcust'.invalid rfl
      rw [Kernel.isOpen_hand, if_neg (hother t hnew fd hfd hu)]
    · exact absurd rfl (hother t hnew t hne (.inl ⟨c, hc.2.2⟩))

/-- The listening socket is closed. -/
lemma Running.closeListening (h : Running s) (hlisten : s.worker.Listens c)
    (hset : Cycle.Settled s.worker c) (hstep : s.shutStep .closeListening = some s') :
    Running s' := by
  obtain ⟨⟨free, lists, hs⟩, hcust, htied⟩ := h
  have ht := htied c hlisten
  obtain ⟨hrun, hsound⟩ := hs.shut ht hlisten.1 hset
  obtain rfl := Option.some.inj (hrun.symm.trans hstep)
  refine ⟨hsound, ?_, fun d hd => absurd rfl hd.2.1⟩
  have hfds : ∀ d, ((s.worker.shut c).connection d).fd =
      if d = c then -1 else (s.worker.connection d).fd := by
    intro d
    by_cases hd : d = c <;> simp [Worker.shut, hd]
  have hopen : s.worker.kernel.isOpen s.worker.listening.fd = true :=
    hcust.valid _ hset.fd (.inl rfl)
  refine hcust.close (.inr hopen) (fun r hr hro hrec => hrec.imp_right fun hrec => ?_)
    (fun r hr hu => ?_) fun hmem => (hs.pending _ hmem).1 rfl
  · refine hrec.congr (iff_of_false (hcust.ne hro) hr) rfl fun d => ?_
    show ((s.worker.shut c).connection d).fd = r ↔ _
    rw [hfds]
    split_ifs with hd
    · rw [hd, ht.fd]
      exact iff_of_false (Ne.symm (hcust.ne hro)) (Ne.symm hr)
    · rfl
  · rcases hu with hu | ⟨d, hd⟩
    · exact absurd hu hr
    · have hd' : ((s.worker.shut c).connection d).fd = r := hd
      rw [hfds] at hd'
      split_ifs at hd' with hdc
      · exact absurd hd'.symm hr
      · refine ⟨fun e => hdc ?_, hcust.valid r hr (.inr ⟨d, hd'⟩)⟩
        rw [← ht.fd] at e
        exact hs.consistent.slots.fd d c (fun e' => hr (hd'.symm.trans e')) (hd'.trans e)

/-! ## `event_accept` -/

/-- `accept` answers a descriptor. -/
lemma Running.accept {fd : ℤ} (h : Running s) (hbody : s.AtBody) (hne : fd ≠ -1)
    (hnew : s.worker.kernel.isOpen fd = false)
    (hstep : ({ s with worker := setAcceptDisabled s.worker } : Config n).step (.getConnection fd) =
      some s') : Running s' := by
  obtain ⟨⟨free, lists, hs⟩, hcust, htied⟩ := h
  have hs₀ : Sound { s with worker := setAcceptDisabled s.worker } free lists := by
    refine ⟨?_, fun c hc => ?_, hs.pending, hs.nodup, hs.inUse⟩
    · exact ⟨hs.consistent.slots, hs.consistent.timers, hs.consistent.queues,
        hs.consistent.interests, hs.consistent.accept⟩
    · obtain ⟨hin, hset, hpost, hact, hre⟩ := hs.obtained c hc
      exact ⟨hin, hset, hpost, hact, hre⟩
  obtain ⟨s₁, hrun, free', lists', hs', -⟩ := hs₀.step (a := .getConnection fd)
    ⟨hbody, hne, .inl hnew⟩
  obtain rfl := Option.some.inj (hrun.symm.trans hstep)
  obtain rfl := Option.some.inj hrun
  have hcust' : Custody (s.worker.kernel.hand fd) s.worker.listening
      (fun c => (s.worker.connection c).fd) (fd :: s.pending) := by
    refine hcust.hand hne hnew (fun r _ _ hrec => hrec.imp_left (.tail fd)) (.inl (.head _))
      (fun r _ hr hu => hcust.valid r hr hu) fun hmem => ?_
    rcases List.mem_cons.mp hmem with he | hmem
    · have hlisten := hcust.valid fd hne (.inl he.symm)
      rw [hnew] at hlisten
      cases hlisten
    · exact hcust.notHeld hmem
  refine ⟨⟨free', lists', hs'⟩, ?_, fun c hc => ?_⟩
  · dsimp only
    split_ifs
    · exact hcust'
    · exact hcust'
  · obtain ⟨hin, hfd, hre, hact, hpost, hset⟩ := htied c hc
    exact ⟨hin, hfd, hre, hact, hpost, hset⟩

/-- The counter, the pools and the pool of a connection are written. -/
def pooled (w : Worker n) (c : Fin n) (f : Connection n → Connection n) (k : ℤ) (l : List ℕ) :
    Worker n := { w.setConnection c f with statActive := k, pools := l }

/-- A write to a connection that touches nothing but its pool. -/
def PoolOnly (f : Connection n → Connection n) : Prop :=
  ∀ r, (f r).read = r.read ∧ (f r).write = r.write ∧ (f r).fd = r.fd ∧ (f r).shared = r.shared ∧
    (f r).reusable = r.reusable

lemma pooled_spec {f : Connection n → Connection n} {k : ℤ} {l : List ℕ} (hf : PoolOnly f)
    (h : Consistent w free lists) (hc : InUse w.connection c) (hb : w.Blank c) :
    Consistent (pooled w c f k l) free lists ∧ InUse (pooled w c f k l).connection c ∧
      (pooled w c f k l).Blank c ∧ SameFds w (pooled w c f k l) ∧
      ∀ p, Leaves w (pooled w c f k l) p := by
  have hfd : ∀ d, ((pooled w c f k l).connection d).fd = (w.connection d).fd :=
    fd_setConnection w c fun r => (hf r).2.2.1
  have hcons := h.setConnection c (.inl hc) hf
  refine ⟨⟨hcons.slots, hcons.timers, hcons.queues, hcons.interests, hcons.accept⟩, ?_, ?_,
    ⟨rfl, rfl, hfd⟩, fun p => ?_⟩
  · rw [InUse, hfd]
    exact hc
  · refine ⟨hb.timerSet, hb.posted, hb.active, ?_⟩
    simp [pooled, Worker.setConnection, (hf _).2.2.2.2, hb.reusable]
  · have hset : Leaves w (w.setConnection c f) p :=
      .setConnection w c fun r => ⟨(hf r).2.2.1, (hf r).2.2.2.2⟩
    exact ⟨rfl, fun d hd => ⟨hfd d, (hset.keeps d hd).reusable, id, id, id⟩⟩

/-- `event_accept` closes a new connection, or goes on with it. -/
lemma acceptReady_cases (w : Worker n) (ev : EventId n) (c : Fin n) (pool : Option ℕ)
    (sockaddr : Bool) : ∃ f k l, PoolOnly f ∧
      (acceptReady w ev c pool sockaddr = (false, closeAcceptedConnection (pooled w c f k l) c) ∨
        acceptReady w ev c pool sockaddr = (true, Program.markAccepted (pooled w c f k l) ev c)) := by
  cases pool with
  | none =>
    refine ⟨id, w.statActive + 1, w.pools, fun r => ⟨rfl, rfl, rfl, rfl, rfl⟩, .inl ?_⟩
    have hsame : pooled w c id (w.statActive + 1) w.pools =
        { w with statActive := w.statActive + 1 } := by
      simp [pooled, Worker.setConnection]
    rw [hsame]
    rfl
  | some pool =>
    refine ⟨fun r => { r with pool := some pool }, w.statActive + 1, pool :: w.pools,
      fun r => ⟨rfl, rfl, rfl, rfl, rfl⟩, ?_⟩
    cases sockaddr with
    | false => exact .inl rfl
    | true => exact .inr rfl

/-- The bits written on the events of a new connection. -/
lemma markAccepted_spec (h : Consistent w free lists) (ev : EventId n) (c : Fin n) :
    Consistent (Program.markAccepted w ev c) free lists ∧ Quiet w (Program.markAccepted w ev c) ∧
      SameFds w (Program.markAccepted w ev c) ∧ ∀ p, Leaves w (Program.markAccepted w ev c) p := by
  have hw := h.setEvent (w.connection c).write (f := fun e => { e with ready := true })
    fun _ => ⟨rfl, rfl, rfl, rfl⟩
  have hq := quiet_setEvent w (w.connection c).write (f := fun e => { e with ready := true })
    fun _ => rfl
  have hl : ∀ p, Leaves w (w.setEvent (w.connection c).write fun e => { e with ready := true }) p :=
    fun p => .setEvent w _ fun _ => ⟨rfl, rfl⟩
  rw [Program.markAccepted]
  split_ifs
  · refine ⟨hw.setEvent _ fun _ => ⟨rfl, rfl, rfl, rfl⟩, hq.trans (quiet_setEvent _ _ fun _ => rfl),
      ⟨rfl, rfl, fun _ => rfl⟩, fun p => (hl p).trans (.setEvent _ _ fun _ => ⟨rfl, rfl⟩)⟩
  · exact ⟨hw, hq, ⟨rfl, rfl, fun _ => rfl⟩, hl⟩

/-- `get_connection` finds no slot: the descriptor is closed again. -/
lemma Running.refused {fd : ℤ} {st : List (Frame n)} (h : Running s) (hst : s.stack = .get fd :: st) :
    Running (s.goOn (s.worker.close fd) st []) := by
  obtain ⟨⟨free, lists, hs⟩, hcust, htied⟩ := h
  have hpending : s.pending = fd :: st.filterMap Frame.awaits := by
    rw [Config.pending, hst]
    rfl
  obtain ⟨hne, hopen, hfree⟩ := hs.pending fd (by rw [hpending]; exact .head _)
  have hnodup := hs.nodup
  rw [hpending, List.nodup_cons] at hnodup
  have hlisten : s.worker.listening.fd ≠ fd := by
    intro e
    exact hcust.notHeld (by rw [hpending, e]; exact .head _)
  have hother : ∀ r, (∃ c, (s.worker.connection c).fd = r) ∨ r ∈ st.filterMap Frame.awaits →
      r ≠ fd := by
    rintro r (⟨c, hc⟩ | hr) rfl
    · exact hfree c hc
    · exact hnodup.1 hr
  refine ⟨⟨free, lists, ?_⟩, ?_, fun c hc => ?_⟩
  · refine sound_withKernel hs (pending_tail hst) (interest_close hs hfree rfl) (fun r _ hr => ?_) ?_
      rfl
    · rw [Kernel.isOpen_close, if_neg (hother r hr)]
    · rw [Kernel.isOpen_close, if_neg hne.symm, hcust.invalid]
  · refine hcust.close (.inr hopen) (fun r hr _ hrec => ?_) (fun r hr hu => ?_) fun hmem => ?_
    · refine hrec.imp_left fun hmem => ?_
      rw [hpending] at hmem
      exact (List.mem_cons.mp hmem).resolve_left hr
    · refine ⟨?_, hcust.valid r hr hu⟩
      rcases hu with rfl | hu
      · exact hlisten
      · exact hother r (.inl hu)
    · exact hcust.notHeld (by rw [hpending]; exact .tail _ hmem)
  · obtain ⟨hin, hfd, hre, hact, hpost, hset⟩ := htied c hc
    exact ⟨hin, hfd, hre, hact, hpost, hset⟩

/-- `get_connection` took a slot for the descriptor. -/
lemma Running.taken {fd : ℤ} {st : List (Frame n)} (h : Running s) (hst : s.stack = .get fd :: st)
    (hc : ¬ InUse s.worker.connection c) (hround : s.round st (.get fd) = some s')
    (hs' : s' = ⟨s.worker.taken c fd, st, some c, .opened c :: s.trace⟩) :
    Running s' ∧ (s'.worker.connection c).fd ≠ s'.worker.listening.fd := by
  obtain ⟨⟨free, lists, hs⟩, hcust, htied⟩ := h
  have hleaves := round_leaves hs hst hround
  obtain ⟨s₁, hrun, free', lists', hsound, -⟩ := hs.get hst
  obtain rfl := Option.some.inj (hrun.symm.trans hround)
  subst hs'
  have hpending : s.pending = fd :: st.filterMap Frame.awaits := by
    rw [Config.pending, hst]
    rfl
  have hmem : fd ∈ s.pending := by
    rw [hpending]
    exact .head _
  obtain ⟨hne, hopen, hfree⟩ := hs.pending fd hmem
  have hlisten : fd ≠ s.worker.listening.fd := fun e => hcust.notHeld (e ▸ hmem)
  have hfds : ∀ d, ((s.worker.taken c fd).connection d).fd =
      if d = c then fd else (s.worker.connection d).fd := by
    intro d
    by_cases hd : d = c <;> simp [Worker.taken, hd]
  have hcfd : ((s.worker.taken c fd).connection c).fd = fd := by rw [hfds, if_pos rfl]
  refine ⟨⟨⟨free', lists', hsound⟩, ?_, ?_⟩, by rw [hcfd]; exact hlisten⟩
  · refine hcust.keep rfl rfl (fun r hr hrec => ?_) (fun r hr hu => ?_) fun hl => ?_
    · by_cases hrfd : r = fd
      · refine .inr ?_
        rw [Recorded, if_neg (hrfd ▸ hlisten), hrfd]
        refine ⟨c, hcfd, fun d hd => ?_⟩
        by_contra hdc
        have hd' : ((s.worker.taken c fd).connection d).fd = fd := hd
        rw [hfds, if_neg hdc] at hd'
        exact hfree d hd'
      · rw [hpending] at hrec
        refine hrec.imp (fun hin => (List.mem_cons.mp hin).resolve_left hrfd) fun hrec => ?_
        refine hrec.congr .rfl rfl fun d => ?_
        show ((s.worker.taken c fd).connection d).fd = r ↔ _
        rw [hfds]
        split_ifs with hdc
        · rw [hdc, not_not.mp hc]
          exact iff_of_false (Ne.symm hrfd) (Ne.symm (hcust.ne hr))
        · rfl
    · by_cases hrfd : r = fd
      · rw [hrfd, hopen]
      · refine hcust.valid r hr (hu.imp_right (Exists.imp fun d hd => ?_))
        have hd' : ((s.worker.taken c fd).connection d).fd = r := hd
        rw [hfds] at hd'
        split_ifs at hd' with hdc
        · exact absurd hd'.symm hrfd
        · exact hd'
    · refine hcust.notHeld ?_
      rw [hpending]
      exact .tail _ hl
  · refine tied_of_leaves hleaves (fun d hd => ?_) fun d hd => ⟨htied d hd, htied d hd⟩
    obtain ⟨hld, hopen', hdfd⟩ := hd
    refine ⟨hld, hopen', ?_⟩
    have hd' : ((s.worker.taken c fd).connection d).fd = s.worker.listening.fd := hdfd
    rw [hfds] at hd'
    split_ifs at hd' with hdc
    · exact absurd hd' hlisten
    · exact hd'

/-- `event_accept` goes on with the connection it got, or closes it. -/
lemma Running.obtained {fd : ℤ} {ev : EventId n} {pool : Option ℕ} {sockaddr : Bool}
    (h : Running s) (hc : s.obtained = some c)
    (hne : (s.worker.connection c).fd ≠ s.worker.listening.fd) :
    Running (acceptReturned s fd ev pool sockaddr) := by
  obtain ⟨free, lists, hs⟩ := h.sound
  obtain ⟨hin, hblank⟩ := hs.obtained c hc
  obtain ⟨f, k, l, hf, hcases⟩ := acceptReady_cases s.worker ev c pool sockaddr
  obtain ⟨hcons, hin₁, hblank₁, hsame, hleaves⟩ := pooled_spec (k := k) (l := l) hf hs.consistent hin hblank
  have hother : ∀ d, s.worker.Listens d → d ≠ c := by
    rintro d ⟨-, -, hd⟩ rfl
    exact hne hd
  rcases hcases with hrun | hrun
  · -- the connection is closed at once
    obtain ⟨hcons', hfrees, hevent, htimers, hlistening, hkernel⟩ :=
      closeAcceptedConnection_spec hcons hin₁ hblank₁
    have hleaves' : Leaves s.worker (closeAcceptedConnection (pooled s.worker c f k l) c) (· ≠ c) :=
      (hleaves _).trans (closeAcceptedConnection_leaves hcons hin₁ hblank₁ fun d hd => hd)
    have hfrees' : Frees s.worker.connection
        (closeAcceptedConnection (pooled s.worker c f k l) c).connection c :=
      ⟨hfrees.1, fun d hd => (hfrees.2 d hd).trans (hsame.fd d)⟩
    rw [hsame.fd] at hkernel
    have hkernel' : (closeAcceptedConnection (pooled s.worker c f k l) c).kernel =
        s.worker.kernel.close (s.worker.connection c).fd := hkernel
    have hend : acceptReturned s fd ev pool sockaddr =
        s.goOn (closeAcceptedConnection (pooled s.worker c f k l) c) s.stack [.closed c] := by
      simp only [acceptReturned, hc, hrun]
      rfl
    rw [hend]
    refine ⟨?_, ?_, tied_of_leaves hleaves'
      (fun d => (Spends.closes c hin hkernel' hfrees').listens hleaves'.listening)
      fun d hd => ⟨h.tied d hd, hother d hd⟩⟩
    · obtain ⟨free', lists', hs', -⟩ := hs.close hin hcons' hfrees' (fun d => by rw [hevent]; rfl)
        hkernel' fun q _ => by rw [withoutConnection_of_blank hs.consistent hblank]
      exact ⟨free', lists', hs'⟩
    · have hcust := h.closes hin hne hfrees'
      rw [← hkernel', ← hleaves'.listening] at hcust
      exact hcust
  · obtain ⟨hcons', hquiet, hsame', hleaves'⟩ := markAccepted_spec hcons ev c
    have hall := (hleaves (· ≠ c)).trans (hleaves' _)
    have hquiet' : Quiet s.worker (pooled s.worker c f k l) :=
      ⟨hsame.fd, fun _ => rfl, fun _ ho => ho⟩
    have hend : acceptReturned s fd ev pool sockaddr =
        s.goOn (Program.markAccepted (pooled s.worker c f k l) ev c) s.stack [] := by
      simp only [acceptReturned, hc, hrun]
      rfl
    rw [hend]
    refine ⟨?_, ?_, tied_of_leaves hall
      (fun d => (Spends.keeps (hsame.trans hsame')).listens hall.listening)
      fun d hd => ⟨h.tied d hd, hother d hd⟩⟩
    · obtain ⟨free', lists', hs', -⟩ := hs.keepSilent s.stack
        (silent_of hcons' (hquiet'.trans hquiet)) (.refl _) fun _ hr => hr
      exact ⟨free', lists', hs'⟩
    · have hcust := h.keeps (hsame.trans hsame')
      rw [← hall.listening] at hcust
      exact hcust

/-- `get_connection` returns to `event_accept`. -/
lemma Running.accepted {fd : ℤ} {ev : EventId n} {pool : Option ℕ} {sockaddr : Bool}
    (h : Running s) (hget : getting s = some fd) (hnext : s.next = some s') :
    Running (acceptReturned s' fd ev pool sockaddr) := by
  obtain ⟨st, hst⟩ : ∃ st, s.stack = .get fd :: st := by
    cases hst : s.stack with
    | nil =>
      rw [getting, hst] at hget
      cases hget
    | cons f st =>
      rw [getting, hst] at hget
      cases f with
      | get r =>
        obtain rfl := Option.some.inj hget
        exact ⟨st, rfl⟩
      | _ => cases hget
  obtain ⟨free, lists, hs⟩ := h.sound
  have hround : s.round st (.get fd) = some s' := by
    rw [Config.next, hst] at hnext
    exact hnext
  obtain ⟨hne, hopen, hfree⟩ := hs.pending fd (by rw [Config.pending, hst]; exact .head _)
  have hnone : s.worker.kernel.interest fd = none := by
    by_contra hsome
    obtain ⟨c, -, hc⟩ := hs.consistent.interests.owned fd hsome
    exact hfree c hc
  have hround' := hround
  rw [Config.round] at hround'
  rcases popConnection_spec hs.consistent hne (fun d _ => hfree d) hopen hnone with
    ⟨-, hpop⟩ | ⟨c, l, -, hc, hpop, -⟩
  · rw [hpop] at hround'
    obtain rfl := Option.some.inj hround'
    exact h.refused hst
  · rw [hpop] at hround'
    obtain ⟨htaken, hne'⟩ := h.taken hst hc hround (Option.some.inj hround').symm
    exact htaken.obtained (by rw [← Option.some.inj hround']) hne'

/-! ## Before there are connections -/

/-- Without connections a descriptor is recorded in `ls->fd` only. -/
lemma recorded_bare {ls : Listening n} {r : ℤ} (hr : r ≠ -1) :
    Recorded ls (fun _ => -1) r ↔ r = ls.fd := by
  rw [Recorded]
  split_ifs with he
  · exact iff_of_true (fun c hc => absurd hc.symm hr) he
  · refine iff_of_false (fun h => ?_) he
    obtain ⟨c, hc, -⟩ := h
    exact hr hc.symm

/-- The account of a worker that has no connections. -/
def Bare (w : Worker n) : Prop := Custody w.kernel w.listening (fun _ => -1) []

lemma Bare.open_ (h : Bare w) (hne : w.listening.fd ≠ -1) :
    w.kernel.isOpen w.listening.fd = true := h.valid _ hne (.inl rfl)

lemma Bare.keep (h : Bare w) (hlog : w'.kernel.log = w.kernel.log)
    (hopen : w'.kernel.isOpen = w.kernel.isOpen) (hfd : w'.listening.fd = w.listening.fd) :
    Bare w' := by
  refine Custody.keep h hlog hopen (fun r hr hrec => ?_) (fun r hr hu => h.valid r hr ?_) nofun
  · refine hrec.imp_right fun hrec => ?_
    rw [recorded_bare (h.ne hr), hfd, ← recorded_bare (h.ne hr)]
    exact hrec
  · rwa [hfd] at hu

lemma Bare.openListening {a : OpenAnswers} (h : Bare w) (hfresh : a.Fresh w)
    (ha : a.ReachesIoctl w → a.nonblocking = true) : Bare (openListeningSockets w a).2 :=
  (openListeningSockets_opens ha).custody h hfresh nofun

/-- `close_listening_sockets` closes `ls->fd`, whatever else it does. -/
lemma closeListeningSockets_parts (h : closeListeningSockets w = some w') :
    w'.kernel = w.kernel.close w.listening.fd ∧
      w'.listening = { w.listening with fd := -1 } := by
  unfold closeListeningSockets at h
  dsimp only at h
  split at h
  · exact Option.some.inj h ▸ ⟨rfl, rfl⟩
  · split_ifs at h
    · exact Option.some.inj h ▸ ⟨rfl, rfl⟩
    · exact Option.some.inj h ▸ ⟨rfl, rfl⟩

lemma Bare.closeListening (h : Bare w) (hrun : closeListeningSockets w = some w') : Bare w' := by
  obtain ⟨hkernel, hlistening⟩ := closeListeningSockets_parts hrun
  have ht : w.listening.fd = -1 ∨ w.kernel.isOpen w.listening.fd = true := by
    by_cases hfd : w.listening.fd = -1
    · exact .inl hfd
    · exact .inr (h.open_ hfd)
  rw [Bare, hkernel, hlistening]
  refine Custody.close h ht (fun r hr hro hrec => ?_) (fun r hr hu => ?_) nofun
  · have hrec' := hrec.resolve_left nofun
    rw [recorded_bare (h.ne hro)] at hrec'
    exact absurd hrec' hr
  · rcases hu with hu | ⟨c, hc⟩
    · exact absurd hu hr
    · exact absurd hc.symm hr

/-- `event_process_init` touches no descriptor. -/
lemma eventProcessInit_parts {b ok : Bool} (h : eventProcessInit w ok = some (b, w')) :
    w'.kernel.log = w.kernel.log ∧ w'.kernel.isOpen = w.kernel.isOpen ∧
      w'.listening.fd = w.listening.fd := by
  rw [eventProcessInit] at h
  split at h
  · exact (Prod.mk.inj (Option.some.inj h)).2 ▸ ⟨rfl, rfl, rfl⟩
  · next c w₁ hpop =>
    obtain ⟨d, -, hd⟩ := Option.map_eq_some_iff.mp hpop
    have hw₁ : w₁.kernel.log = w.kernel.log ∧ w₁.kernel.isOpen = w.kernel.isOpen ∧
        w₁.listening.fd = w.listening.fd := (Prod.mk.inj hd).2 ▸ ⟨rfl, rfl, rfl⟩
    have hsame := listenOn_sameFds h
    exact ⟨hsame.log.trans hw₁.1, hsame.isOpen.trans hw₁.2.1, (listenOn_fd h).trans hw₁.2.2⟩

/-- The first slot becomes the listening connection. -/
lemma running_start {w₀ : Worker n} {b ok : Bool} (hbare : Bare (initCycle w₀))
    (hconn : w₀.listening.connection = none) (hne : w₀.listening.fd ≠ -1)
    (hrun : eventProcessInit (initCycle w₀) ok = some (b, w'))
    (hc : w'.listening.connection = some c) : Running ⟨w', [], none, [.opened c]⟩ := by
  have hinvalid : w₀.kernel.isOpen (-1) = false := hbare.invalid
  have hopen : w₀.kernel.isOpen w₀.listening.fd = true := hbare.open_ hne
  have hcons := openTable_consistent hinvalid hconn
  have hfree : ∀ d, ¬ InUse (openTable (initCycle w₀)).connection d :=
    fun d => (hcons.slots.mem_free d).mp (List.mem_finRange d)
  rcases popConnection_spec hcons hne (fun d hd => absurd hd (hfree d)) hopen rfl with
    ⟨-, hpop⟩ | ⟨d, l, -, -, hpop, hcons₁, hblank, htakes⟩
  · rw [eventProcessInit, show (openTable (initCycle w₀)).listening.fd = w₀.listening.fd from rfl,
      hpop] at hrun
    obtain rfl := (Prod.mk.inj (Option.some.inj hrun)).2
    exact absurd (hconn.symm.trans hc) (by simp)
  have hlisten : listenOn ((openTable (initCycle w₀)).taken d w₀.listening.fd) d ok = some (b, w') := by
    rw [← hrun, eventProcessInit]
    simp only [show (openTable (initCycle w₀)).listening.fd = w₀.listening.fd from rfl, hpop]
  have hin : InUse ((openTable (initCycle w₀)).taken d w₀.listening.fd).connection d :=
    (htakes.inUse d).mpr (.inl rfl)
  obtain ⟨hconn', ht⟩ := listenOn_tied (hcons₁.slots.read d) hin hblank htakes.2.2.1 hlisten
  obtain rfl : d = c := Option.some.inj (hconn'.symm.trans hc)
  have hsame := listenOn_sameFds hlisten
  have hfd : w'.listening.fd = w₀.listening.fd := by
    rw [listenOn_fd hlisten]
    rfl
  -- the only connection
  have hfds : ∀ x r, (w'.connection x).fd = r → r ≠ -1 → x = d := by
    intro x r hx hr
    by_contra hxd
    rw [hsame.fd, htakes.2.2.2 x hxd] at hx
    exact hfree x fun e => hr (hx.symm.trans e)
  have hdfd : (w'.connection d).fd = w'.listening.fd := ht.fd
  refine ⟨?_, ?_, fun x hx => ?_⟩
  · have hs : Sound (⟨(openTable (initCycle w₀)).taken d w₀.listening.fd, [], some d, [.opened d]⟩ :
        Config n) l fun _ => [] := by
      refine ⟨hcons₁, fun x hx => ?_, fun _ hx => absurd hx List.not_mem_nil, List.nodup_nil,
        fun x => ?_⟩
      · obtain rfl := Option.some.inj hx
        exact ⟨hin, hblank⟩
      · rw [htakes.inUse]
        simp [occupied, hfree x, eq_comm]
    obtain ⟨w₁, hcall, free', lists', hs', -⟩ := hs.call (a := .listen d ok) rfl
    rw [Call.run, hlisten] at hcall
    obtain rfl := Option.some.inj hcall
    exact ⟨free', lists', hs'⟩
  · refine Custody.keep hbare hsame.log hsame.isOpen (fun r hr hrec => .inr ?_) (fun r hr hu => ?_)
      List.not_mem_nil
    · have hrec' := hrec.resolve_left List.not_mem_nil
      rw [recorded_bare (hbare.ne hr)] at hrec'
      rw [Recorded, if_pos (hrec'.trans hfd.symm)]
      intro x hx
      rw [hfds x r hx (hbare.ne hr)]
      exact hconn'
    · rcases hu with hu | ⟨x, hx⟩
      · exact hbare.valid r hr (.inl (hu.trans hfd))
      · obtain rfl := hfds x r hx hr
        exact hbare.valid r hr (.inl (hx.symm.trans (hdfd.trans hfd)))
  · obtain rfl : d = x := Option.some.inj (hconn'.symm.trans hx.1)
    exact ht

/-! ## Runs -/

/-- The invariant of a run. -/
inductive Kept : Stage n → Prop
  | starting (w₀ : Worker n) (hconn : w₀.listening.connection = none)
    (h : Bare (initCycle w₀)) : Kept (.starting (initCycle w₀))
  | deaf (w : Worker n) (h : Bare w) : Kept (.deaf w)
  | running (s : Config n) (h : Running s) : Kept (.running s)

lemma Kept.accounted {t : Stage n} (h : Kept t) : t.Accounted := by
  cases h with
  | starting w₀ hconn h => exact h.toAccounted
  | deaf w h => exact h.toAccounted
  | running s h => exact h.custody.toAccounted

lemma Kept.start {t : Stage n} (h : t.Start) : Kept t := by
  obtain ⟨w, hfd, hconn, hopen, hlog, rfl⟩ := h
  refine .starting w hconn ⟨⟨?_, fun fd => ?_, fun fd hr => ?_, fun fd hne hu => ?_⟩, nofun, hopen _⟩
  · show ClosedOnce w.kernel.log
    rw [hlog]
    trivial
  · show w.kernel.isOpen fd = stillOpen w.kernel.log fd
    rw [hopen, hlog]
    rfl
  · have hr' : stillOpen w.kernel.log fd = true := hr
    rw [hlog] at hr'
    cases hr'
  · rcases hu with hu | ⟨c, hc⟩
    · exact absurd (hu.trans hfd) hne
    · exact absurd hc.symm hne

/-- A step of a worker before `event_process_init`. -/
lemma Kept.stepStarting {w₀ : Worker n} {a : Act n} {t : Stage n}
    (hconn : w₀.listening.connection = none) (h : Bare (initCycle w₀))
    (ha : (Stage.starting (initCycle w₀)).Allowed a) (hcare : (Stage.starting (initCycle w₀)).Careful a)
    (hstep : (Stage.starting (initCycle w₀)).step a = some t) : Kept t := by
  cases a with
  | openListening a =>
    obtain rfl := Option.some.inj hstep
    have hbare : Bare (openListeningSockets (initCycle w₀) a).2 := h.openListening ha.2 hcare
    have hw : Opens (initCycle w₀) a (openListeningSockets (initCycle w₀) a).2 :=
      openListeningSockets_opens hcare
    show Kept (.starting (openListeningSockets (initCycle w₀) a).2)
    generalize (openListeningSockets (initCycle w₀) a).2 = w' at hbare hw
    cases hw with
    | idle b =>
      exact .starting { w₀ with listening := { w₀.listening with addReuseport := b } } hconn hbare
    | closed b r hr hfd =>
      exact .starting { w₀ with
        listening := { w₀.listening with addReuseport := b }
        kernel := (w₀.kernel.hand r).close r } hconn hbare
    | opened b r hr hfd =>
      exact .starting { w₀ with
        listening := { w₀.listening with addReuseport := b, fd := r }
        kernel := w₀.kernel.hand r } hconn hbare
  | processInit ok =>
    obtain ⟨⟨b, w'⟩, hrun, rfl⟩ := Option.map_eq_some_iff.mp hstep
    obtain ⟨hlog, hopen, hfd⟩ := eventProcessInit_parts hrun
    have hdeaf := Kept.deaf w' (h.keep hlog hopen hfd)
    rw [Stage.initialised]
    cases hc : w'.listening.connection with
    | none => exact hdeaf
    | some c =>
      dsimp only
      split_ifs with hne
      · exact hdeaf
      · exact .running _ (running_start h hconn (fun e => hne (hfd.trans e)) hrun hc)
  | closeListening =>
    obtain ⟨w', hrun, rfl⟩ := Option.map_eq_some_iff.mp hstep
    have hbare := h.closeListening hrun
    have hconn' : (initCycle w₀).listening.connection = none := hconn
    simp only [closeListeningSockets, hconn'] at hrun
    obtain rfl := Option.some.inj hrun
    exact .starting { w₀ with
      acceptMutexHeld := false
      useAcceptMutex := false
      kernel := w₀.kernel.close w₀.listening.fd
      listening := { w₀.listening with fd := -1 } } hconn hbare
  | accept fd => cases hstep
  | accepted ev pool sockaddr => cases hstep
  | worker a => cases hstep

/-- A step of a worker without a listening connection. -/
lemma Kept.stepDeaf {a : Act n} {t : Stage n} (h : Bare w) (ha : (Stage.deaf w).Allowed a)
    (hcare : (Stage.deaf w).Careful a) (hstep : (Stage.deaf w).step a = some t) : Kept t := by
  cases a with
  | openListening a =>
    obtain rfl := Option.some.inj hstep
    exact .deaf _ (h.openListening ha.2 hcare)
  | closeListening =>
    obtain ⟨w', hrun, rfl⟩ := Option.map_eq_some_iff.mp hstep
    exact .deaf _ (h.closeListening hrun)
  | processInit ok => cases hstep
  | accept fd => cases hstep
  | accepted ev pool sockaddr => cases hstep
  | worker a => cases hstep

/-- A step of a running worker. -/
lemma Kept.stepRunning {a : Act n} {t : Stage n} (h : Running s) (ha : (Stage.running s).Allowed a)
    (hcare : (Stage.running s).Careful a) (hstep : (Stage.running s).step a = some t) : Kept t := by
  cases a with
  | openListening a =>
    obtain rfl := Option.some.inj hstep
    exact .running _ (h.openListening ha.2 hcare)
  | accept fd =>
    obtain rfl := Option.some.inj hstep
    exact .running _ (h.accept ha.1 ha.2.1 ha.2.2 rfl)
  | accepted ev pool sockaddr =>
    obtain ⟨fd, hget, hstep⟩ := Option.bind_eq_some_iff.mp hstep
    obtain ⟨s', hnext, hs'⟩ := Option.bind_eq_some_iff.mp hstep
    obtain rfl := Option.some.inj hs'
    exact .running _ (h.accepted hget hnext)
  | closeListening =>
    obtain ⟨s', hrun, rfl⟩ := Option.map_eq_some_iff.mp hstep
    obtain ⟨c, hlisten, hset⟩ := hcare
    exact .running _ (h.closeListening hlisten hset hrun)
  | worker a =>
    obtain ⟨s', hrun, rfl⟩ := Option.map_eq_some_iff.mp hstep
    obtain ⟨hallowed, hproper, hapart⟩ := ha
    exact .running _ (h.worker hallowed hproper hapart hrun)
  | processInit ok => cases hstep

/-- In the runs whose steps are careful every descriptor is closed once, or open and recorded,
whenever a function returns. -/
theorem descriptors_accounted (t : Stage n)
    (h : (descriptorMachine n).Reach (fun t a => t.Allowed a ∧ t.Careful a) t) : t.Accounted := by
  have hkept : Kept t := by
    refine h.invariant (fun t ht => .start ht) fun t a t' hk ha hstep => ?_
    cases hk with
    | starting w₀ hconn h => exact .stepStarting hconn h ha.1 ha.2 hstep
    | deaf w h => exact .stepDeaf h ha.1 ha.2 hstep
    | running s h => exact .stepRunning h ha.1 ha.2 hstep
  exact hkept.accounted

/-- A worker with the cycle just made. -/
def firstStage (n : ℕ) : Stage n := .starting (initCycle (.zeroed n))

lemma firstStage_start (n : ℕ) : (firstStage n).Start := ⟨.zeroed n, rfl, rfl, fun _ => rfl, rfl, rfl⟩

/-- `bind` fails, then it does not; a connection is accepted, one is refused, and one is closed at
once; the listening socket is closed and opened again. -/
def serveRun : List (Act 2) :=
  [.openListening ⟨some 3, true, true, true, false, true⟩,
    .openListening ⟨some 3, true, true, true, true, true⟩, .processInit true, .accept 4,
    .accepted (slot₀, .read) none true, .accept 4, .accepted (slot₀, .read) (some 7) true,
    .accept 5, .worker .next, .accepted (slot₀, .read) (some 8) true,
    .worker (.call (.close slot₁)), .closeListening,
    .openListening ⟨some 6, true, true, true, true, true⟩]

theorem descriptors_accounted_serveRun :
    ∃ t, (descriptorMachine 2).run (fun t a => t.Allowed a ∧ t.Careful a) (firstStage 2) serveRun =
      some t ∧ t.worker.listening.fd = 6 ∧ t.Accounted := by
  have hrun : ((descriptorMachine 2).run (fun t a => t.Allowed a ∧ t.Careful a) (firstStage 2)
      serveRun).any (fun t => t.worker.listening.fd = 6) := by
    decide +kernel
  obtain ⟨t, ht, hfd⟩ := (Option.any_eq_true _ _).mp hrun
  exact ⟨t, ht, of_decide_eq_true hfd,
    descriptors_accounted t (Machine.Reach.run (.init (firstStage_start 2)) ht)⟩

/-- When `ioctl` fails, the descriptor is neither closed nor recorded. -/
theorem not_descriptors_accounted :
    ¬ ∀ t : Stage 2, (descriptorMachine 2).Reach (fun t a => t.Allowed a) t → t.Accounted := by
  intro hall
  have hreach : (descriptorMachine 2).Reach (fun t a => t.Allowed a)
      (.starting (openListeningSockets (initCycle (.zeroed 2)) ⟨some 3, true, true, false, true, true⟩).2) := by
    refine .step (a := .openListening ⟨some 3, true, true, false, true, true⟩)
      (.init (firstStage_start 2)) ⟨trivial, fun t ht => ?_⟩ rfl
    obtain rfl := Option.some.inj ht
    exact ⟨by decide, rfl⟩
  have hacc := hall _ hreach
  rcases hacc.recorded 3 rfl with hheld | hrec
  · cases hheld
  · have hfd := (recorded_bare (by decide)).mp hrec
    exact absurd hfd (by decide)

end Libcn.Descriptor
