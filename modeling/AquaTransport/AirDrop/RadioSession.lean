import AquaTransport.AirDrop.Helper

/-!
# AquaTransport.AirDrop.RadioSession — the radio session is all or nothing, and none crosses a sleep

The children and the Wi-Fi leases are two ledgers read off the helper and its log.  `Books` is what
every statement of the helper keeps, half-way through a start too; `Settled`, that the session is whole
or stopped, holds at the top of the loop.
-/

namespace AquaTransport.AirDrop

open Program Helper

/-! ### Reading the log -/

section Log

variable {e : Event} {past later : List Event} {p n : ℕ} {c : Bool}

theorem launches_cons : launches (e :: past) = e.launch?.toList ++ launches past := by
  cases h : e.launch? <;> simp [launches, h]

theorem waits_cons : waits (e :: past) = e.wait?.toList ++ waits past := by
  cases h : e.wait? <;> simp [waits, h]

theorem disassociations_cons :
    disassociations (e :: past) = e.disassociation?.toList ++ disassociations past := by
  cases h : e.disassociation? <;> simp [disassociations, h]

theorem restorations_cons :
    restorations (e :: past) = e.restoration?.toList ++ restorations past := by
  cases h : e.restoration? <;> simp [restorations, h]

theorem launches_append : launches (later ++ past) = launches later ++ launches past :=
  List.filterMap_append

theorem sinceTeardown_cons :
    sinceTeardown (e :: past) = if e.tearsDown then [] else e :: sinceTeardown past := by
  cases h : e.tearsDown <;> simp [sinceTeardown, h]

/-- What happened since the last teardown is later than any one before. -/
theorem sinceTeardown_append_cons (h : e.tearsDown = true) :
    ∃ l, sinceTeardown (later ++ e :: past) ++ l = later := by
  induction later with
  | nil => exact ⟨[], by simp [sinceTeardown_cons, h]⟩
  | cons x later ih =>
    obtain ⟨l, hl⟩ := ih
    rw [List.cons_append, sinceTeardown_cons]
    split
    · exact ⟨x :: later, rfl⟩
    · exact ⟨l, by rw [List.cons_append, hl]⟩

/-- An event that neither makes nor ends a child or a lease. -/
def Event.Quiet (e : Event) : Prop :=
  e.launch? = none ∧ e.wait? = none ∧ e.disassociation? = none ∧ e.restoration? = none

end Log

/-! ### Sessions -/

/-- Nothing is on, and nobody owns it. -/
structure Session.Stopped (s : Session) : Prop where
  owlPID : s.owlPID = none
  blePID : s.blePID = none
  wifiLease : s.wifiLease = none
  radioWiFi : s.radioWiFi = false
  owner : s.owner = noUser

/-- The disassociation that the session has to restore. -/
def Session.held (s : Session) : Option ℕ := s.wifiLease.bind WiFiLease.active

/-- The session belongs to `uid` and has the Wi-Fi interface. -/
structure Session.Held (uid : UInt32) (s : Session) : Prop where
  owner : s.owner = uid
  user : uid ≠ noUser
  lease : s.held.isSome
  radioWiFi : s.radioWiFi = true

/-- The whole session: with OWL and the advertiser. -/
structure Session.Live (uid : UInt32) (s : Session) : Prop extends s.Held uid where
  owl : s.owlPID.isSome
  ble : s.blePID.isSome

/-- Every child launched was waited for, and every disassociation restored once. -/
structure Over (log : List Event) : Prop where
  children : ∀ p ∈ launches log, p ∈ waits log
  leases : ∀ n c, (n, c) ∈ disassociations log → (restorations log).count n = 1

/-- The radios are awake, and the session's OWL was launched since the last teardown and not waited
for since. -/
def Session.Running (s : Session) (past : List Event) : Prop :=
  asleep past = false ∧
    ∃ p, s.owlPID = some p ∧ p ∈ launches (sinceTeardown past) ∧ p ∉ waits past

def Reply.isOk : Reply → Bool
  | .ok _ _ => true
  | .refused _ => false

/-- The client asked for a radio: a start or a heartbeat. -/
def Served.wantsRadio (a : Served) : Prop :=
  a.command = some (str "start") ∨ a.command = some (str "heartbeat")

structure Served.Fair (a : Served) (past : List Event) : Prop where
  granted : a.wantsRadio → a.reply.isOk →
    a.peer = some a.console ∧ a.after.owner = a.console ∧ a.after.Running past
  others : a.before.owner ≠ noUser → a.peer ≠ some a.before.owner → a.after = a.before

/-! ### The books -/

/-- What stands behind an event, in the history before it. -/
def Sound (M : Machine) (past : List Event) : Event → Prop
  | .delivered m before after =>
    if m.tearsDown then after.Stopped ∧ Over past else after = before
  | .acknowledged m => m = .systemWillSleep → Over past
  | .launched p _ => p = (launches past).length
  | .disassociated n _ => n = (disassociations past).length
  | .restored n rejoined =>
    ∃ c, (n, c) ∈ disassociations past ∧ rejoined = (c && M.powerOn n)
  | .renewed uid s => s.owner = uid ∧ s.Running past
  | .answered a => a.Fair past
  | .terminated _ | .killed _ | .waited _ => True

namespace Helper

def children (h : Helper) : Ledger Child :=
  ⟨h.session.pid, (launches h.log).length, waits h.log⟩

def leases (h : Helper) : Ledger Unit :=
  ⟨fun _ => h.session.held, (disassociations h.log).length, restorations h.log⟩

/-- OWL was launched since the last teardown. -/
def Recent (h : Helper) : Prop :=
  ∀ p, h.session.owlPID = some p → p ∈ launches (sinceTeardown h.log)

/-- A lease that is held can be given back. -/
def Joined (h : Helper) : Prop :=
  ∀ l n, h.session.wifiLease = some l → l.active = some n →
    (n, l.wasConnected) ∈ disassociations h.log ∧ (l.wasConnected = true → l.autoJoin = true)

end Helper

structure Books (M : Machine) (h : Helper) : Prop where
  children : h.children.Once
  noChildLost : h.children.Accounted
  leases : h.leases.Once
  noLeaseLost : h.leases.Accounted
  recent : h.Recent
  joined : h.Joined
  along : Along (Sound M) h.log

/-- The books, between two power messages: `powerSleeping` tells the last. -/
structure Ok (M : Machine) (h : Helper) : Prop extends Books M h where
  told : h.powerSleeping = asleep h.log

section Books

variable {M : Machine} {a b h : Helper} {e : Event} {c : Child} {p : ℕ}

theorem Session.pid_setPid (s : Session) (c : Child) (o : Option ℕ) :
    (s.setPid c o).pid = Function.update s.pid c o := by
  funext d
  cases c <;> cases d <;> rfl

theorem Session.held_setPid (s : Session) (c : Child) (o : Option ℕ) :
    (s.setPid c o).held = s.held := by cases c <;> rfl

theorem Session.wifiLease_setPid (s : Session) (c : Child) (o : Option ℕ) :
    (s.setPid c o).wifiLease = s.wifiLease := by cases c <;> rfl

theorem Session.owlPID_setPid_none {s : Session} {c : Child} {p : ℕ}
    (h : (s.setPid c none).owlPID = some p) : s.owlPID = some p := by
  cases c with
  | owl => exact absurd h (by simp [Session.setPid])
  | ble => exact h

theorem Books.move (h : Books M a) (hc : Ledger.Step a.children b.children)
    (hl : Ledger.Step a.leases b.leases) (hr : b.Recent) (hj : b.Joined)
    (ha : Along (Sound M) b.log) : Books M b :=
  ⟨h.children.step hc, h.noChildLost.step hc, h.leases.step hl, h.noLeaseLost.step hl, hr, hj, ha⟩

/-- The children and the lease in use stay. -/
theorem Books.same (h : Books M a) (hlog : b.log = a.log) (hp : b.session.pid = a.session.pid)
    (hl : b.session.held = a.session.held) (hj : b.Joined) : Books M b := by
  have hc : b.children = a.children := by simp [Helper.children, hlog, hp]
  have hw : b.leases = a.leases := by simp [Helper.leases, hlog, hl]
  refine h.move (hc ▸ .keep _) (hw ▸ .keep _) ?_ hj (hlog ▸ h.along)
  intro p hb
  have ha : a.session.owlPID = some p := by simpa [Session.pid] using (congrFun hp .owl).symm.trans hb
  rw [hlog]
  exact h.recent p ha

theorem Helper.joined_of_held (h : b.session.held = none) : b.Joined := by
  intro l n hl hn
  rw [Session.held, hl, Option.bind_some, hn] at h
  cases h

/-- No lease is in use before or after. -/
theorem Books.idle (h : Books M a) (hlog : b.log = a.log) (hp : b.session.pid = a.session.pid)
    (ha : a.session.held = none) (hb : b.session.held = none) : Books M b :=
  h.same hlog hp (hb.trans ha.symm) (joined_of_held hb)

/-- The fields that the books do not follow. -/
theorem Books.fields (h : Books M a) (hlog : b.log = a.log) (hp : b.session.pid = a.session.pid)
    (hw : b.session.wifiLease = a.session.wifiLease) : Books M b := by
  refine h.same hlog hp (by simp [Session.held, hw]) ?_
  intro l n hl hn
  rw [hlog]
  exact h.joined l n (hw ▸ hl) hn

theorem Books.note (h : Books M a) (hq : e.Quiet) (ht : e.tearsDown = true → a.session.owlPID = none)
    (hs : Sound M a.log e) : Books M (a.note e) := by
  obtain ⟨h1, h2, h3, h4⟩ := hq
  have hc : (a.note e).children = a.children := by
    simp [Helper.children, Helper.note, launches_cons, waits_cons, h1, h2]
  have hw : (a.note e).leases = a.leases := by
    simp [Helper.leases, Helper.note, disassociations_cons, restorations_cons, h3, h4]
  refine h.move (hc ▸ .keep _) (hw ▸ .keep _) ?_ ?_ ⟨hs, h.along⟩
  · intro p hp
    have hp : a.session.owlPID = some p := hp
    show p ∈ launches (sinceTeardown (e :: a.log))
    rw [sinceTeardown_cons]
    split
    · next he => exact absurd hp (by simp [ht he])
    · rw [launches_cons, h1]
      exact h.recent p hp
  · intro l n hl hn
    show (n, l.wasConnected) ∈ disassociations (e :: a.log) ∧ _
    rw [disassociations_cons, h3]
    exact h.joined l n hl hn

theorem Books.wait (h : Books M a) (hp : a.session.pid c = some p) : Books M (a.wait c p) := by
  have hc : (a.wait c p).children =
      { a.children with owner := Function.update a.children.owner c none
                        freed := p :: a.children.freed } := by
    simp [Helper.children, Helper.wait, launches_cons, waits_cons, Event.launch?, Event.wait?,
      Session.pid_setPid]
  have hw : (a.wait c p).leases = a.leases := by
    simp [Helper.leases, Helper.wait, disassociations_cons, restorations_cons,
      Event.disassociation?, Event.restoration?, Session.held_setPid]
  refine h.move (hc ▸ .free hp) (hw ▸ .keep _) ?_ ?_ ⟨trivial, h.along⟩
  · intro q hq
    exact h.recent q (Session.owlPID_setPid_none hq)
  · intro l n hl hn
    exact h.joined l n (by rwa [← Session.wifiLease_setPid]) hn

/-- A child is launched where there was none. -/
theorem Books.launch (h : Books M a) (argv : List String) (hp : a.session.pid c = none) :
    Books M { a with
      session := a.session.setPid c (some (launches a.log).length)
      log := .launched (launches a.log).length argv :: a.log } := by
  refine h.move ?_ ?_ ?_ ?_ ⟨rfl, h.along⟩
  · have hs : Ledger.Step a.children _ := .make hp
    convert hs using 1
    simp [Helper.children, launches_cons, waits_cons, Event.launch?, Event.wait?,
      Session.pid_setPid]
  · have hs : Ledger.Step a.leases _ := .keep _
    convert hs using 1
    simp [Helper.leases, disassociations_cons, restorations_cons, Event.disassociation?,
      Event.restoration?, Session.held_setPid]
  · intro q hq
    show q ∈ launches (sinceTeardown (_ :: a.log))
    rw [sinceTeardown_cons, if_neg (by simp [Event.tearsDown]), launches_cons]
    cases c with
    | owl => exact List.mem_cons.mpr (.inl (Option.some.inj hq).symm)
    | ble => exact List.mem_cons_of_mem _ (h.recent q hq)
  · intro l n hl hn
    rw [Session.wifiLease_setPid] at hl
    exact h.joined l n hl hn

/-- A lease becomes active. -/
theorem Books.activate (h : Books M a) (l : WiFiLease) (hl : a.session.held = none)
    (hj : l.wasConnected = true → l.autoJoin = true) : Books M (a.activate l) := by
  refine h.move ?_ ?_ ?_ ?_ ⟨rfl, h.along⟩
  · have hs : Ledger.Step a.children _ := .keep _
    convert hs using 1
    simp [Helper.children, Helper.activate, launches_cons, waits_cons, Event.launch?, Event.wait?]
    rfl
  · have hs : Ledger.Step a.leases _ := .make (i := ()) hl
    convert hs using 1
    simp [Helper.leases, Helper.activate, disassociations_cons, restorations_cons,
      Event.disassociation?, Event.restoration?, Session.held]
    funext i
    simp
  · exact h.recent
  · intro l' n hl' hn
    obtain rfl := Option.some.inj hl'
    refine ⟨?_, hj⟩
    have hn : (disassociations a.log).length = n := Option.some.inj hn
    exact List.mem_cons.mpr (.inl (by rw [hn]))

theorem Books.restore (h : Books M a) : Books M (a.restore M) := by
  unfold Helper.restore
  split
  · next l hl =>
    split
    · next n hn =>
      have hheld : a.session.held = some n := by simp [Session.held, hl, hn]
      obtain ⟨hd, hj⟩ := h.joined l n hl hn
      refine h.move ?_ ?_ h.recent (joined_of_held rfl) ⟨⟨l.wasConnected, hd, ?_⟩, h.along⟩
      · have hs : Ledger.Step a.children _ := .keep _
        convert hs using 1
        simp [Helper.children, launches_cons, waits_cons, Event.launch?, Event.wait?]
        rfl
      · have hs : Ledger.Step a.leases _ := .free (i := ()) hheld
        convert hs using 1
        simp [Helper.leases, disassociations_cons, restorations_cons,
          Event.disassociation?, Event.restoration?, Session.held]
        funext i
        simp
      · cases hc : l.wasConnected with
        | true => rw [hj hc, Bool.true_and]
        | false => rfl
    · exact h
  · exact h

/-- Children are numbered in the order of their launches. -/
theorem launches_ordered {log : List Event} (h : Along (Sound M) log) :
    (launches log).Nodup ∧ ∀ p ∈ launches log, p < (launches log).length := by
  induction log with
  | nil => exact ⟨List.nodup_nil, by simp [launches]⟩
  | cons e past ih =>
    obtain ⟨hn, hlt⟩ := ih h.2
    rw [launches_cons]
    cases he : e.launch? with
    | none => exact ⟨hn, hlt⟩
    | some p =>
      have hp : p = (launches past).length := by
        cases e <;> simp only [Event.launch?, Option.some.injEq, reduceCtorEq] at he
        exact he ▸ h.1
      refine ⟨List.nodup_cons.mpr ⟨fun hm => ?_, hn⟩, fun q hq => ?_⟩
      · exact absurd (hlt p hm) (by omega)
      · rcases List.mem_cons.mp hq with rfl | hq
        · simp [hp]
        · exact Nat.lt_succ_of_lt (hlt q hq)

theorem disassociations_ordered {log : List Event} (h : Along (Sound M) log) :
    ∀ n c, (n, c) ∈ disassociations log → n < (disassociations log).length := by
  induction log with
  | nil => simp [disassociations]
  | cons e past ih =>
    intro n c hm
    rw [disassociations_cons] at hm ⊢
    cases he : e.disassociation? with
    | none => exact ih h.2 n c (by simpa [he] using hm)
    | some d =>
      have hd : d.1 = (disassociations past).length := by
        cases e <;> simp only [Event.disassociation?, Option.some.injEq, reduceCtorEq] at he
        exact he ▸ h.1
      rw [he] at hm
      rcases List.mem_cons.mp hm with rfl | hm
      · exact Nat.lt_succ_of_le hd.le
      · exact Nat.lt_succ_of_lt (ih h.2 n c hm)

/-- Every disassociation was restored once, or it is the one in use and was not. -/
theorem Books.restored (h : Books M a) {n : ℕ} {c : Bool} (hn : (n, c) ∈ disassociations a.log) :
    (restorations a.log).count n = if a.session.held = some n then 0 else 1 := by
  split
  · next hheld => exact List.count_eq_zero.mpr (h.leases.kept () n hheld)
  · next hheld =>
    rcases h.noLeaseLost n (disassociations_ordered h.along n c hn) with hf | ⟨_, ho⟩
    · exact List.count_eq_one_of_mem h.leases.once hf
    · exact absurd ho hheld

/-- Without children and a lease in use, everything is over. -/
theorem Books.over (h : Books M a) (hp : ∀ c, a.session.pid c = none) (hl : a.session.held = none) :
    Over a.log := by
  refine ⟨fun p hm => ?_, fun n c hm => ?_⟩
  · rcases h.noChildLost p ((launches_ordered h.along).2 p hm) with hf | ⟨c, hc⟩
    · exact hf
    · exact absurd (hc.symm.trans (hp c)) (by simp)
  · rw [h.restored hm, if_neg (by simp [hl])]

/-- A child in use runs. -/
theorem Books.running (h : Books M a) (hs : asleep a.log = false)
    (hp : a.session.owlPID.isSome) : a.session.Running a.log := by
  obtain ⟨p, hp⟩ := Option.isSome_iff_exists.mp hp
  exact ⟨hs, p, hp, h.recent p hp, h.children.kept .owl p hp⟩

end Books

/-! ### What each function of the helper does -/

section Stops

variable {M : Machine} {h : Helper} {c : Child} {exited : Bool}

theorem Books.reap (h' : Books M h) : Books M (h.reap c exited) := by
  unfold Helper.reap
  split
  · next p hp =>
    cases exited with
    | true => exact h'.wait hp
    | false => exact h'
  · exact h'

theorem Books.terminate (h' : Books M h) : Books M (h.terminate M c) := by
  unfold Helper.terminate
  split
  · next p hp =>
    have h1 := h'.note (e := .terminated p) ⟨rfl, rfl, rfl, rfl⟩ (by simp [Event.tearsDown]) trivial
    dsimp only
    split
    · exact h1.wait hp
    · exact (h1.note (e := .killed p) ⟨rfl, rfl, rfl, rfl⟩ (by simp [Event.tearsDown]) trivial).wait hp
  · exact h'

theorem session_terminate : (h.terminate M c).session = h.session.setPid c none := by
  unfold Helper.terminate
  split
  · dsimp only
    split <;> rfl
  · next hp => cases c <;> simp only [Session.pid] at hp <;> simp [Session.setPid, ← hp]

theorem session_restore :
    (h.restore M).session.held = none ∧ (h.restore M).session.pid = h.session.pid := by
  unfold Helper.restore
  split
  · next l hl =>
    split
    · exact ⟨rfl, rfl⟩
    · next hn => exact ⟨by simp [Session.held, hl, hn], rfl⟩
  · next hl => exact ⟨by simp [Session.held, hl], rfl⟩

@[simp] theorem asleep_reap : asleep (h.reap c exited).log = asleep h.log := by
  unfold Helper.reap
  split
  · split <;> simp [Helper.wait, asleep]
  · rfl

@[simp] theorem asleep_terminate : asleep (h.terminate M c).log = asleep h.log := by
  unfold Helper.terminate
  split
  · dsimp only
    split <;> simp [Helper.wait, Helper.note, asleep]
  · rfl

@[simp] theorem asleep_restore : asleep (h.restore M).log = asleep h.log := by
  unfold Helper.restore
  split
  · split <;> simp [asleep]
  · rfl

@[simp] theorem powerSleeping_reap : (h.reap c exited).powerSleeping = h.powerSleeping := by
  unfold Helper.reap
  split
  · split <;> rfl
  · rfl

@[simp] theorem powerSleeping_terminate :
    (h.terminate M c).powerSleeping = h.powerSleeping := by
  unfold Helper.terminate
  split
  · dsimp only
    split <;> rfl
  · rfl

@[simp] theorem powerSleeping_restore : (h.restore M).powerSleeping = h.powerSleeping := by
  unfold Helper.restore
  split
  · split <;> rfl
  · rfl

@[simp] theorem asleep_radioStop : asleep (h.radioStop M).log = asleep h.log := by
  simp [Helper.radioStop, Helper.release]

@[simp] theorem powerSleeping_radioStop : (h.radioStop M).powerSleeping = h.powerSleeping := by
  simp [Helper.radioStop, Helper.release]

theorem stopped_radioStop : (h.radioStop M).session.Stopped := by
  have hp := (session_restore (M := M) (h := (h.terminate M .ble).terminate M .owl)).2
  rw [session_terminate, session_terminate] at hp
  refine ⟨?_, ?_, rfl, rfl, rfl⟩
  · exact congrFun hp .owl
  · exact congrFun hp .ble

theorem Session.Stopped.pid {s : Session} (h : s.Stopped) (c : Child) : s.pid c = none := by
  cases c with
  | owl => exact h.owlPID
  | ble => exact h.blePID

theorem Session.Stopped.held {s : Session} (h : s.Stopped) : s.held = none := by
  simp [Session.held, h.wifiLease]

theorem Books.radioStop (h' : Books M h) : Books M (h.radioStop M) := by
  have h1 : Books M (((h.terminate M .ble).terminate M .owl).restore M) :=
    h'.terminate.terminate.restore
  exact h1.idle rfl rfl session_restore.1 rfl

/-- **Whatever was on, it is over after `radioStop`.** -/
theorem Books.radioStop_over (h' : Books M h) : Over (h.radioStop M).log :=
  h'.radioStop.over stopped_radioStop.pid stopped_radioStop.held

/-! ### Power messages -/

theorem Ok.radioStop (h' : Ok M h) : Ok M (h.radioStop M) :=
  ⟨h'.toBooks.radioStop, by simp [h'.told]⟩

theorem Ok.reap (h' : Ok M h) : Ok M (h.reap c exited) :=
  ⟨h'.toBooks.reap, by simp [h'.told]⟩

/-- A message at which no session is torn down leaves the session; one at which it is stops it. -/
theorem session_handlePower (m : PowerMessage) :
    if m.tearsDown then (h.handlePower M m).session.Stopped
    else (h.handlePower M m).session = h.session := by
  cases m with
  | systemWillSleep => exact stopped_radioStop
  | systemHasPoweredOn => exact stopped_radioStop
  | canSystemSleep | systemWillNotSleep | systemWillPowerOn | other => rfl

theorem Ok.powerChanged (h' : Ok M h) (m : PowerMessage) : Ok M (h.powerChanged M m) := by
  cases m with
  | canSystemSleep =>
    have h1 : Books M (h.note (.acknowledged .canSystemSleep)) :=
      h'.note ⟨rfl, rfl, rfl, rfl⟩ (by simp [Event.tearsDown]) (fun hm => by cases hm)
    exact ⟨h1.note ⟨rfl, rfl, rfl, rfl⟩ (by simp [Event.tearsDown, PowerMessage.tearsDown]) rfl,
      h'.told⟩
  | systemWillSleep =>
    have h1 : Books M { h with powerSleeping := true } := h'.toBooks.fields rfl rfl rfl
    have h2 := h1.radioStop.note (e := .acknowledged .systemWillSleep) ⟨rfl, rfl, rfl, rfl⟩
      (by simp [Event.tearsDown]) (fun _ => h1.radioStop_over)
    have hs : Session.Stopped (Helper.radioStop M { h with powerSleeping := true }).session :=
      stopped_radioStop
    refine ⟨h2.note ⟨rfl, rfl, rfl, rfl⟩ (fun _ => hs.owlPID) ⟨hs, h2.over hs.pid hs.held⟩, ?_⟩
    exact powerSleeping_radioStop
  | systemWillPowerOn =>
    have h1 : Books M { h with powerSleeping := true } := h'.toBooks.fields rfl rfl rfl
    exact ⟨h1.note ⟨rfl, rfl, rfl, rfl⟩ (by simp [Event.tearsDown, PowerMessage.tearsDown]) rfl, rfl⟩
  | systemHasPoweredOn =>
    have hs : Session.Stopped (h.radioStop M).session := stopped_radioStop
    have h1 : Books M { h.radioStop M with powerSleeping := false } :=
      h'.toBooks.radioStop.fields rfl rfl rfl
    exact ⟨h1.note ⟨rfl, rfl, rfl, rfl⟩ (fun _ => hs.owlPID) ⟨hs, h1.over hs.pid hs.held⟩, rfl⟩
  | systemWillNotSleep | other =>
    exact ⟨h'.note ⟨rfl, rfl, rfl, rfl⟩ (by simp [Event.tearsDown, PowerMessage.tearsDown]) rfl,
      h'.told⟩

/-- **Draining power messages leaves the session as it is, or stopped.** -/
theorem Ok.drain (h' : Ok M h) (ms : List PowerMessage) :
    Ok M (h.drainPowerEvents M ms) ∧
      ((h.drainPowerEvents M ms).session = h.session ∨ (h.drainPowerEvents M ms).session.Stopped) := by
  induction ms generalizing h with
  | nil => exact ⟨h', .inl rfl⟩
  | cons m ms ih =>
    obtain ⟨hok, hses⟩ := ih (h'.powerChanged m)
    refine ⟨hok, ?_⟩
    rcases hses with hses | hses
    · have hm := session_handlePower (M := M) (h := h) m
      rw [show (h.drainPowerEvents M (m :: ms)).session = _ from hses]
      split at hm
      · exact .inr hm
      · exact .inl hm
    · exact .inr hses

end Stops

/-! ### Commands -/

/-- The session is stopped, or it is the whole session of `uid`. -/
def Session.Fit (uid : UInt32) (s : Session) : Prop := s.Stopped ∨ s.Live uid

section Commands

variable {M : Machine} {S T : Session → Prop} {uid : UInt32} {h : Helper} {c : Child}

theorem session_reap {exited : Bool} : (h.reap c exited).session =
    if exited then h.session.setPid c none else h.session := by
  unfold Helper.reap
  cases exited with
  | false => split <;> rfl
  | true =>
    split
    · rfl
    · next hp => cases c <;> simp only [Session.pid] at hp <;> simp [Session.setPid, ← hp]

/-- A reap leaves a stopped session stopped, and a held one held. -/
theorem reap_stopped_or_held {exited : Bool} (hs : h.session.Stopped ∨ h.session.Held uid) :
    (h.reap c exited).session.Stopped ∨ (h.reap c exited).session.Held uid := by
  rw [session_reap]
  split
  · refine hs.imp (fun hs => ?_) fun hs => ?_
    · cases c
      · exact ⟨rfl, hs.blePID, hs.wifiLease, hs.radioWiFi, hs.owner⟩
      · exact ⟨hs.owlPID, rfl, hs.wifiLease, hs.radioWiFi, hs.owner⟩
    · cases c <;> exact ⟨hs.owner, hs.user, hs.lease, hs.radioWiFi⟩
  · exact hs

theorem Ok.fields {g : Helper} (h' : Ok M h) (hlog : g.log = h.log)
    (ha : g.powerSleeping = h.powerSleeping) (hp : g.session.pid = h.session.pid)
    (hw : g.session.wifiLease = h.session.wifiLease) : Ok M g :=
  ⟨h'.toBooks.fields hlog hp hw, by rw [ha, hlog, h'.told]⟩

/-- **After `requireRadioAwake` the radios are awake, and the session is as it was or stopped.** -/
theorem holds_requireRadioAwake (ms : List PowerMessage) :
    Holds (fun h => Ok M h ∧ S h.session) (requireRadioAwake M ms)
      (fun _ h => (Ok M h ∧ h.powerSleeping = false) ∧ (S h.session ∨ h.session.Stopped))
      (fun _ h => Ok M h ∧ (S h.session ∨ h.session.Stopped)) := by
  refine Holds.bind (Q := fun _ h => Ok M h ∧ (S h.session ∨ h.session.Stopped))
    (holds_modify fun h ⟨hok, hs⟩ => ?_) fun _ => holds_getBind fun h => ?_
  · obtain ⟨hok, hses⟩ := hok.drain ms
    refine ⟨hok, hses.imp_left fun he => ?_⟩
    rw [he]
    exact hs
  · refine holds_check (fun hb s hs => ?_) fun _ _ hs => hs.2
    obtain ⟨rfl, hok, hs⟩ := hs
    exact ⟨⟨hok, by simpa using hb⟩, hs⟩

theorem holds_launch (l : Launch) (name : String) (arguments : List String)
    (hT : ∀ s p, S s → T (s.setPid c (some p))) :
    Holds (fun h => Ok M h ∧ h.session.pid c = none ∧ S h.session) (launch c l name arguments)
      (fun _ h => Ok M h ∧ T h.session) (fun _ h => Ok M h ∧ S h.session) := by
  refine Holds.bind (Q := fun _ h => Ok M h ∧ h.session.pid c = none ∧ S h.session)
    (holds_check (fun _ _ hs => hs) fun _ _ hs => ⟨hs.1, hs.2.2⟩) fun _ => ?_
  refine Holds.bind (Q := fun _ h => Ok M h ∧ h.session.pid c = none ∧ S h.session)
    (holds_check (fun _ _ hs => hs) fun _ _ hs => ⟨hs.1, hs.2.2⟩) fun _ => ?_
  refine holds_modify fun h ⟨hok, hp, hs⟩ => ⟨⟨hok.toBooks.launch _ hp, ?_⟩, hT _ _ hs⟩
  simp [hok.told, asleep]

theorem Ok.restore (h' : Ok M h) : Ok M (h.restore M) :=
  ⟨h'.toBooks.restore, by simp [h'.told]⟩

/-- **`begin` makes the lease active, or leaves none that is.** -/
theorem holds_leaseBegin (b : Begin) :
    Holds (fun h => Ok M h ∧ (∀ c, h.session.pid c = none) ∧ h.session.held = none ∧
        h.session.wifiLease.isSome) (leaseBegin M b)
      (fun _ h => Ok M h ∧ (∀ c, h.session.pid c = none) ∧ h.session.held.isSome)
      (fun _ h => Ok M h) := by
  refine holds_getBind fun a => ?_
  rintro h ⟨rfl, hok, hp, hheld, hl⟩
  obtain ⟨l, hl⟩ := Option.isSome_iff_exists.mp hl
  have hactive : l.active = none := by simpa [Session.held, hl] using hheld
  rw [hl]
  dsimp only
  rw [hactive, Option.isSome_none, if_neg Bool.false_ne_true]
  revert h
  suffices hsuff : Holds (fun h => Ok M h ∧ (∀ c, h.session.pid c = none) ∧ h.session.held = none)
      (beginLease M b l)
      (fun _ h => Ok M h ∧ (∀ c, h.session.pid c = none) ∧ h.session.held.isSome)
      (fun _ h => Ok M h) from fun h hok hp hheld _ _ => hsuff h ⟨hok, hp, hheld⟩
  refine Holds.bind (Q := fun _ h => Ok M h ∧ (∀ c, h.session.pid c = none) ∧ h.session.held = none)
    (holds_check (fun _ _ hs => hs) fun _ _ hs => hs.1) fun _ => ?_
  refine Holds.bind (Q := fun _ h => Ok M h ∧ (∀ c, h.session.pid c = none) ∧ h.session.held = none)
    (holds_check (fun _ _ hs => hs) fun _ _ hs => hs.1) fun _ => ?_
  refine Holds.bind (Q := fun _ h => Ok M h ∧ (∀ c, h.session.pid c = none) ∧ h.session.held = none)
    (holds_modify fun h ⟨hok, hp, hheld⟩ => ?_) fun _ => ?_
  · exact ⟨⟨hok.toBooks.idle rfl rfl hheld hactive, hok.told⟩, hp, hactive⟩
  refine Holds.bind (Q := fun _ h => (b.connected = true → l.autoJoin = true) ∧ Ok M h ∧
      (∀ c, h.session.pid c = none) ∧ h.session.held = none)
    (holds_check (fun hb h hs => ⟨fun hc => by simpa [hc] using hb, hs⟩) fun _ _ hs => hs.1) fun _ => ?_
  refine Holds.bind (Q := fun _ h => Ok M h ∧ (∀ c, h.session.pid c = none) ∧ h.session.held.isSome)
    (holds_modify fun h ⟨hj, hok, hp, hheld⟩ => ?_) fun _ => ?_
  · exact ⟨⟨hok.toBooks.activate _ hheld hj, by simp [activate, hok.told, asleep]⟩, hp, rfl⟩
  · refine Holds.tryFinally (Q := fun _ h => Ok M h ∧ (∀ c, h.session.pid c = none) ∧
      h.session.held.isSome) (E := fun _ h => Ok M h) ?_ (fun _ h hs => hs) fun _ h hok => hok.restore
    unfold disassociate
    split
    · exact holds_fail fun _ hs => hs.1
    · exact holds_check (fun _ _ hs => hs) fun _ _ hs => hs.1

/-- **A start is ready only with a live session, with the radios awake.** -/
theorem holds_awaitTap (w : ℕ → Wait) (n i : ℕ) :
    Holds (fun h => Ok M h ∧ (h.session.Stopped ∨ h.session.Held uid)) (awaitTap M w n i)
      (fun ready h => Ok M h ∧ (ready = true → h.powerSleeping = false ∧ h.session.Live uid))
      (fun _ h => Ok M h) := by
  induction n generalizing i with
  | zero => exact holds_pure fun h hs => ⟨hs.1, fun hr => by cases hr⟩
  | succ n ih =>
    refine Holds.bind (Holds.mono (holds_requireRadioAwake
      (S := fun s => s.Stopped ∨ s.Held uid) _) (fun _ hs => hs) (fun _ _ hs => hs)
      fun _ _ hs => hs.1) fun _ => ?_
    refine Holds.bind (Q := fun _ h => (Ok M h ∧ h.powerSleeping = false) ∧
        (h.session.Stopped ∨ h.session.Held uid))
      (holds_modify fun h ⟨⟨hok, ha⟩, hs⟩ => ?_) fun _ => holds_getBind fun a => ?_
    · have hs : h.session.Stopped ∨ h.session.Held uid := hs.elim id Or.inl
      exact ⟨⟨hok.reap.reap, by simpa using ha⟩, reap_stopped_or_held (reap_stopped_or_held hs)⟩
    split
    · exact holds_pure fun h hs => ⟨hs.2.1.1, fun hr => by cases hr⟩
    · next hp =>
      split
      · refine holds_pure fun h ⟨he, ⟨hok, ha⟩, hs⟩ => ⟨hok, fun _ => ⟨ha, ?_⟩⟩
        have hp : h.session.owlPID.isSome ∧ h.session.blePID.isSome := by
          simpa [← he, Option.isSome_iff_ne_none] using hp
        rcases hs with hs | hs
        · exact absurd hp.1 (by simp [hs.owlPID])
        · exact ⟨hs, hp.1, hp.2⟩
      · exact (ih (i + 1)).mono (fun _ hs => ⟨hs.2.1.1, hs.2.2⟩) (fun _ _ hs => hs) fun _ _ hs => hs

/-- What a command for a radio ends with: a live session of the client, with the radios awake. -/
def Granted (M : Machine) (uid : UInt32) (h : Helper) : Prop :=
  Ok M h ∧ h.powerSleeping = false ∧ h.session.Live uid

theorem holds_raiseRadio (o : Outcome) (hu : uid ≠ noUser) :
    Holds (fun h => Ok M h ∧ (∀ c, h.session.pid c = none) ∧ h.session.held = none ∧
        h.session.wifiLease.isSome) (raiseRadio M o uid)
      (fun _ h => Granted M uid h) (fun _ h => Ok M h) := by
  refine Holds.bind (holds_leaseBegin o.begins) fun _ => ?_
  refine Holds.bind (Q := fun _ h => Ok M h ∧ h.session.owlPID = none ∧ h.session.blePID = none ∧
      h.session.held.isSome ∧ h.session.radioWiFi = true)
    (holds_modify fun h ⟨hok, hp, hl⟩ => ⟨hok.fields rfl rfl rfl rfl, hp .owl, hp .ble, hl, rfl⟩)
    fun _ => ?_
  refine Holds.bind (Holds.mono (holds_launch (c := .owl)
    (S := fun s => s.blePID = none ∧ s.held.isSome ∧ s.radioWiFi = true)
    (T := fun s => s.blePID = none ∧ s.held.isSome ∧ s.radioWiFi = true) _ _ _
    fun _ _ hs => hs) (fun h hs => hs) (fun _ _ hs => hs) fun _ _ hs => hs.1) fun _ => ?_
  refine Holds.bind (Q := fun _ h => Ok M h ∧ h.session.blePID = none ∧ h.session.Held uid)
    (holds_modify fun h ⟨hok, hb, hl, hr⟩ => ⟨hok.fields rfl rfl rfl rfl, hb, rfl, hu, hl, hr⟩)
    fun _ => ?_
  refine Holds.bind (Holds.mono (holds_launch (c := .ble) (S := fun s => s.Held uid)
    (T := fun s => s.Stopped ∨ s.Held uid) _ _ _
    fun _ _ hs => .inr ⟨hs.owner, hs.user, hs.lease, hs.radioWiFi⟩)
    (fun h hs => hs) (fun _ _ hs => hs) fun _ _ hs => hs.1) fun _ => ?_
  refine Holds.bind (holds_awaitTap o.waits 50 0) fun ready => ?_
  exact holds_check (fun hr h ⟨hok, hs⟩ => ⟨hok, hs hr⟩) fun _ _ hs => hs.1

/-- **A start that fails leaves the session stopped, wherever it fails.** -/
theorem holds_startRadio (o : Outcome) (hu : uid ≠ noUser) :
    Holds (fun h => Ok M h ∧ h.session.Stopped) (startRadio M o uid)
      (fun _ h => Granted M uid h) (fun _ h => Ok M h ∧ h.session.Stopped) := by
  have hcheck : ∀ (b : Bool) (e : String), Holds (fun h => Ok M h ∧ h.session.Stopped) (check b e)
      (fun _ h => Ok M h ∧ h.session.Stopped) (fun _ h => Ok M h ∧ h.session.Stopped) :=
    fun b e => holds_check (fun _ _ hs => hs) fun _ _ hs => hs
  refine Holds.bind (hcheck _ _) fun _ => Holds.bind (hcheck _ _) fun _ => Holds.bind (hcheck _ _)
    fun _ => Holds.bind (hcheck _ _) fun _ => Holds.bind (hcheck _ _) fun _ => ?_
  refine Holds.bind (Q := fun _ h => Ok M h ∧ (∀ c, h.session.pid c = none) ∧
      h.session.held = none ∧ h.session.wifiLease.isSome)
    (holds_modify fun h ⟨hok, hs⟩ => ?_) fun _ => ?_
  · exact ⟨⟨hok.toBooks.idle rfl rfl hs.held rfl, hok.told⟩, hs.pid, rfl, rfl⟩
  · exact (holds_raiseRadio o hu).tryFinally (fun _ _ hs => hs)
      fun _ h hok => ⟨hok.radioStop, stopped_radioStop⟩

theorem holds_renew (clock : ℚ) {E : String → Helper → Prop} :
    Holds (Granted M uid) (renew uid clock) (fun _ => Granted M uid) E := by
  refine holds_modify fun h ⟨hok, ha, hs⟩ => ?_
  have h1 : Books M { h with session := { h.session with lease := clock + 45 } } :=
    hok.toBooks.fields rfl rfl rfl
  have hr := h1.running (hok.told.symm.trans ha) hs.owl
  refine ⟨⟨?_, hok.told⟩, ha, ⟨hs.owner, hs.user, hs.lease, hs.radioWiFi⟩, hs.owl, hs.ble⟩
  exact h1.note (e := .renewed uid _) ⟨rfl, rfl, rfl, rfl⟩ (by simp [Event.tearsDown])
    ⟨hs.owner, hr⟩

theorem holds_start (o : Outcome) (hu : uid ≠ noUser) :
    Holds (fun h => Ok M h ∧ h.session.Fit uid) (start M o uid)
      (fun _ => Granted M uid) (fun _ h => Ok M h ∧ h.session.Fit uid) := by
  refine Holds.bind (Q := fun _ h => (Ok M h ∧ h.powerSleeping = false) ∧ h.session.Fit uid)
    (Holds.mono (holds_requireRadioAwake (S := Session.Fit uid) o.drained) (fun _ hs => hs)
      (fun _ _ hs => ⟨hs.1, hs.2.elim id .inl⟩) fun _ _ hs => ⟨hs.1, hs.2.elim id .inl⟩) fun _ => ?_
  refine Holds.bind (Q := fun _ h => (Ok M h ∧ h.powerSleeping = false) ∧ h.session.Fit uid)
    (holds_check (fun _ _ hs => hs) fun _ _ hs => ⟨hs.1.1, hs.2⟩) fun _ => ?_
  refine Holds.bind (Q := fun _ => Granted M uid) (holds_getBind fun a => ?_) fun _ => holds_renew _
  split
  · next hp =>
    refine (holds_startRadio o hu).mono (fun h ⟨he, hok, hs⟩ => ⟨hok.1, ?_⟩) (fun _ _ hs => hs)
      fun _ _ hs => ⟨hs.1, .inl hs.2⟩
    refine hs.elim id fun hs => ?_
    have howl := hs.owl
    rw [he, Option.isNone_iff_eq_none.mp hp] at howl
    cases howl
  · next hp =>
    refine holds_pure fun h ⟨he, hok, hs⟩ => ⟨hok.1, hok.2, ?_⟩
    refine hs.elim (fun hs => ?_) id
    exact absurd (he ▸ hs.owlPID) (by simpa using hp)

theorem holds_heartbeat (o : Outcome) :
    Holds (fun h => Ok M h ∧ h.session.Fit uid) (heartbeat M o uid)
      (fun _ => Granted M uid) (fun _ h => Ok M h ∧ h.session.Fit uid) := by
  refine Holds.bind (Q := fun _ h => (Ok M h ∧ h.powerSleeping = false) ∧ h.session.Fit uid)
    (Holds.mono (holds_requireRadioAwake (S := Session.Fit uid) o.drained) (fun _ hs => hs)
      (fun _ _ hs => ⟨hs.1, hs.2.elim id .inl⟩) fun _ _ hs => ⟨hs.1, hs.2.elim id .inl⟩)
    fun _ => holds_getBind fun a => ?_
  refine Holds.bind (Q := fun _ => Granted M uid) (holds_check (fun hb h ⟨he, hok, hs⟩ =>
    ⟨hok.1, hok.2, ?_⟩) fun _ _ hs => ⟨hs.2.1.1, hs.2.2⟩) fun _ => holds_renew _
  refine hs.elim (fun hs => ?_) id
  have howl : a.session.owlPID.isSome := (Bool.and_eq_true_iff.mp hb).2
  rw [← he, hs.owlPID] at howl
  cases howl

/-- **A client's command keeps the session its own or stopped, and a start or heartbeat that does not
fail is granted.** -/
theorem holds_handle (c : Client) (hu : uid ≠ noUser) :
    Holds (fun h => Ok M h ∧ h.session.Fit uid) (handle M c uid)
      (fun _ h => (Ok M h ∧ h.session.Fit uid) ∧
        (requested M c = some (str "start") ∨ requested M c = some (str "heartbeat") →
          Granted M uid h))
      (fun _ h => Ok M h ∧ h.session.Fit uid) := by
  refine Holds.bind (Q := fun name h => requested M c = some name ∧ Ok M h ∧ h.session.Fit uid)
    (holds_orFail (fun _ ha _ hs => ⟨ha, hs⟩) fun _ _ hs => hs) fun name => holds_of fun hname => ?_
  have hfit : ∀ h, Granted M uid h → (Ok M h ∧ h.session.Fit uid) ∧
      (requested M c = some (str "start") ∨ requested M c = some (str "heartbeat") →
        Granted M uid h) := fun h hg => ⟨⟨hg.1, .inr hg.2.2⟩, fun _ => hg⟩
  unfold command
  split
  · exact (holds_start c.outcome hu).mono (fun _ hs => hs) (fun _ => hfit) fun _ _ hs => hs
  split
  · exact (holds_heartbeat c.outcome).mono (fun _ hs => hs) (fun _ => hfit) fun _ _ hs => hs
  next hstart hbeat =>
  have hno : ¬ (requested M c = some (str "start") ∨ requested M c = some (str "heartbeat")) := by
    simpa [hname] using And.intro hstart hbeat
  split
  · refine holds_modify fun h ⟨hok, hs⟩ => ⟨?_, fun hr => absurd hr hno⟩
    split
    · exact ⟨hok.radioStop, .inl stopped_radioStop⟩
    · exact ⟨hok, hs⟩
  · exact holds_check (fun _ _ hs => ⟨hs, fun hr => absurd hr hno⟩) fun _ _ hs => hs

end Commands

/-! ### The loop -/

section Loop

variable {M : Machine} {h : Helper} {console : UInt32}

/-- The answer to a client, when the session is that of the console's user or stopped. -/
theorem answer_spec (c : Client) (hok : Ok M h) (hs : h.session.Fit console) :
    (Ok M (answer M console c h).2 ∧ (answer M console c h).2.session.Fit console) ∧
    (requested M c = some (str "start") ∨ requested M c = some (str "heartbeat") →
      (answer M console c h).1.isOk →
        c.peer = some console ∧ Granted M console (answer M console c h).2) ∧
    (c.peer ≠ some console → (answer M console c h).2 = h) := by
  unfold answer
  split
  · next uid huid =>
    obtain ⟨hpeer, hgate⟩ := Option.filter_eq_some_iff.mp huid
    obtain ⟨⟨hc, -⟩, hn⟩ : (uid = console ∧ uid ≠ 0) ∧ uid ≠ noUser := by simpa using hgate
    subst hc
    obtain ⟨hval, herr⟩ := holds_handle c hn h ⟨hok, hs⟩
    split
    · next t ht =>
      obtain ⟨hfit, hgrant⟩ := hval () t ht
      exact ⟨hfit, fun hr _ => ⟨hpeer, hgrant hr⟩, fun hne => absurd hpeer hne⟩
    · next e t ht => exact ⟨herr e t ht, fun _ hr => absurd hr (by simp [Reply.isOk]),
        fun hne => absurd hpeer hne⟩
  · exact ⟨⟨hok, hs⟩, fun _ hr => absurd hr (by simp [Reply.isOk]), fun _ => rfl⟩

/-- **Serving a client: its answer is fair.** -/
theorem serve_spec (c : Client) (hok : Ok M h) (hs : h.session.Fit console) :
    Ok M (serve M console c h) ∧ (serve M console c h).session.Fit console := by
  have hok' : Ok M { h with lastActivity := c.accepted } := hok.fields rfl rfl rfl rfl
  obtain ⟨⟨hok1, hs1⟩, hgrant, hsame⟩ := answer_spec c hok' hs
  refine ⟨⟨hok1.toBooks.note ⟨rfl, rfl, rfl, rfl⟩ (by simp [Event.tearsDown]) ⟨?_, ?_⟩, hok1.told⟩, hs1⟩
  · intro hw hr
    obtain ⟨hpeer, hok2, ha, hlive⟩ := hgrant hw hr
    exact ⟨hpeer, hlive.owner, hok2.toBooks.running (hok2.told.symm.trans ha) hlive.owl⟩
  · intro hn hp
    rcases hs with hs | hs
    · exact absurd hs.owner hn
    · have he : (answer M console c { h with lastActivity := c.accepted }).2.session = h.session := by
        rw [hsame (hs.owner ▸ hp)]
      exact he

/-- The session after the loop has looked at it: stopped, or the console user's with OWL. -/
theorem beforeIdle_spec (t : Tick) (hok : Ok M h) (hs : h.session.Stopped ∨ ∃ u, h.session.Live u) :
    Ok M (beforeIdle M t h) ∧ ((beforeIdle M t h).session.Stopped ∨
      (beforeIdle M t h).session.Held t.console ∧ (beforeIdle M t h).session.owlPID.isSome) := by
  obtain ⟨hok1, hses⟩ := hok.drain t.drained
  have hs1 : ∃ u, (h.drainPowerEvents M t.drained).session.Stopped ∨
      (h.drainPowerEvents M t.drained).session.Held u := by
    rcases hses with he | hstop
    · rcases hs with hs | ⟨u, hs⟩
      · exact ⟨0, .inl (he ▸ hs)⟩
      · exact ⟨u, .inr (he ▸ hs.toHeld)⟩
    · exact ⟨0, .inl hstop⟩
  obtain ⟨u, hs1⟩ := hs1
  have hs2 : (reap .ble t.bleExits (reap .owl t.owlExits
      (h.drainPowerEvents M t.drained))).session.Stopped ∨ (reap .ble t.bleExits
      (reap .owl t.owlExits (h.drainPowerEvents M t.drained))).session.Held u :=
    reap_stopped_or_held (reap_stopped_or_held hs1)
  have hok2 : Ok M (reap .ble t.bleExits (reap .owl t.owlExits (h.drainPowerEvents M t.drained))) :=
    hok1.reap.reap
  unfold beforeIdle
  dsimp only
  generalize reap .ble t.bleExits (reap .owl t.owlExits (h.drainPowerEvents M t.drained)) = g at *
  unfold supervise
  split
  · exact ⟨hok2.radioStop, .inl stopped_radioStop⟩
  · next hno =>
    refine ⟨hok2, hs2.imp_right fun hheld => ?_⟩
    have hnone : t.reason g.session = none := by
      by_contra hr
      exact hno ⟨hheld.owner.symm ▸ hheld.user, Option.isSome_iff_ne_none.mpr hr⟩
    unfold Tick.reason at hnone
    split_ifs at hnone with h1 h2 h3 h4
    obtain rfl : u = t.console := hheld.owner.symm.trans (not_not.mp h2).symm
    exact ⟨hheld, by simpa [Option.isSome_iff_ne_none] using h3⟩

theorem relaunch_spec (t : Tick) (hok : Ok M h)
    (hs : h.session.Stopped ∨ h.session.Held console ∧ h.session.owlPID.isSome) :
    Ok M (relaunch M t h) ∧ (relaunch M t h).session.Fit console := by
  unfold relaunch
  split
  · next hp =>
    obtain ⟨howl, hble⟩ := Bool.and_eq_true_iff.mp hp
    have hheld : h.session.Held console ∧ h.session.owlPID.isSome :=
      hs.resolve_left fun hs => absurd howl (by simp [hs.owlPID])
    obtain ⟨hval, herr⟩ := holds_launch (M := M) (c := .ble)
      (S := fun s => s.Held console ∧ s.owlPID.isSome) (T := Session.Live console) t.ble
      "ad_ble_wake" ["600"]
      (fun s p ⟨hs, ho⟩ => ⟨⟨hs.owner, hs.user, hs.lease, hs.radioWiFi⟩, ho, rfl⟩)
      h ⟨hok, Option.isNone_iff_eq_none.mp hble, hheld⟩
    split
    · next g hg => exact ⟨(hval () g hg).1, .inr (hval () g hg).2⟩
    · next e g hg => exact ⟨(herr e g hg).1.radioStop, .inl stopped_radioStop⟩
  · next hp =>
    refine ⟨hok, hs.imp_right fun ⟨hheld, howl⟩ => ⟨hheld, howl, ?_⟩⟩
    by_contra hble
    exact hp (Bool.and_eq_true_iff.mpr ⟨howl, by simpa using hble⟩)

theorem iterate_spec (t : Tick) (hok : Ok M h) (hs : h.session.Stopped ∨ ∃ u, h.session.Live u) :
    Ok M (iterate M t h).1 ∧
      ((iterate M t h).2 = true →
        (iterate M t h).1.session.Stopped ∨ ∃ u, (iterate M t h).1.session.Live u) := by
  obtain ⟨hok1, hs1⟩ := beforeIdle_spec t hok hs
  unfold iterate
  dsimp only
  split
  · exact ⟨hok1, fun hf => by cases hf⟩
  · obtain ⟨hok2, hs2⟩ := relaunch_spec t hok1 hs1
    split
    · next c hc =>
      obtain ⟨hok3, hs3⟩ := serve_spec c hok2 hs2
      exact ⟨hok3, fun _ => hs3.imp_right fun hl => ⟨_, hl⟩⟩
    · exact ⟨hok2, fun _ => hs2.imp_right fun hl => ⟨_, hl⟩⟩

/-- The helper at the top of its loop: its books are right, and its session is whole or stopped;
stopped when the loop is left. -/
structure Loop.Settled (M : Machine) (l : Loop) : Prop where
  ok : Ok M l.helper
  whole : l.helper.session.Stopped ∨ ∃ u, l.helper.session.Live u
  gone : l.left = true → l.helper.session.Stopped

/-- **A turn of the loop leaves the helper settled.** -/
theorem Loop.Settled.step {l l' : Loop} {e : Turn} (h : l.Settled M) (hs : l.step M e = some l') :
    l'.Settled M := by
  have hstop : ∀ g, Ok M g → Loop.Settled M ⟨g.radioStop M, true⟩ := fun g hg =>
    ⟨hg.radioStop, .inl stopped_radioStop, fun _ => stopped_radioStop⟩
  cases hl : l.left with
  | true => cases e <;> simp [Loop.step, hl] at hs
  | false =>
    cases e with
    | stopping =>
      obtain rfl : _ = l' := by simpa [Loop.step, hl] using hs
      exact hstop _ h.ok
    | tick t =>
      obtain ⟨hok, hwhole⟩ := iterate_spec t h.ok h.whole
      cases hgoes : (iterate M t l.helper).2 with
      | true =>
        obtain rfl : _ = l' := by simpa [Loop.step, hl, hgoes] using hs
        exact ⟨hok, hwhole hgoes, fun hf => by cases hf⟩
      | false =>
        obtain rfl : _ = l' := by simpa [Loop.step, hl, hgoes] using hs
        exact hstop _ hok

/-- The helper as it enters its loop. -/
def Loop.enter (t : ℚ) : Loop := { helper := { lastActivity := t } }

theorem Loop.settled_enter (t : ℚ) : (Loop.enter t).Settled M where
  ok :=
    { children := by
        convert Ledger.Once.init using 1
        simp [Helper.children, Loop.enter, launches, waits]
        funext c
        cases c <;> rfl
      noChildLost := fun o ho => absurd ho (Nat.not_lt_zero o)
      leases := Ledger.Once.init
      noLeaseLost := fun o ho => absurd ho (Nat.not_lt_zero o)
      recent := fun p hp => by cases hp
      joined := fun l n hl => by cases hl
      along := trivial
      told := rfl }
  whole := .inl ⟨rfl, rfl, rfl, rfl, rfl⟩
  gone := fun hf => by cases hf

variable {t₀ : ℚ} {turns : List Turn} {l : Loop}

/-- **Every reachable helper is settled.** -/
theorem Loop.settled_run (run : Path (fun l e l' => Loop.step M l e = some l') (Loop.enter t₀) turns l) :
    l.Settled M :=
  run.invariant (fun _ _ _ hl hs => hl.step hs) (Loop.settled_enter t₀)

/-! ### A night -/

def request (command : String) : List UInt8 :=
  (str ("\x7b\"command\":\"" ++ command ++ "\"\x7d")).map UInt16.toUInt8

def bench : Machine where
  powerOn := fun _ => true
  exits := fun _ i => i == 2
  json := fun data =>
    (["start", "heartbeat"].find? fun c => request c == data).map fun c =>
      .dict [(str "command", .string (str c))]

def client (clock : ℚ) (command : String) (drained : List PowerMessage) (o : Outcome) : Client where
  accepted := clock
  peer := some 501
  bytes := request command ++ [10]
  outcome := { o with drained := drained, clock := clock }

/-- A start and a heartbeat; then the machine is about to sleep.  It wakes before a new start and again
in the middle of it, so that this start fails, and the next one succeeds. -/
def night : List Turn :=
  let connected : Outcome :=
    { waits := fun _ => { tapReady := true }, begins := { connected := true } }
  let wakes : ℕ → Wait := fun i => if i = 0 then {} else { drained := [.systemHasPoweredOn] }
  [.tick { console := 501, client := some (client 1 "start" [] connected) },
    .tick { console := 501, client := some (client 2 "heartbeat" [.canSystemSleep] {}) },
    .tick { console := 501, client := some (client 3 "heartbeat" [.systemWillSleep] {}) },
    .tick { console := 501, drained := [.systemHasPoweredOn],
            client := some (client 4 "start" [] { waits := wakes }) },
    .tick { console := 501, client := some (client 5 "start" [] connected) },
    .stopping]

theorem night_runs : (exec (Loop.step bench) (Loop.enter 0) night).isSome := by decide +kernel

/-! ### The session -/

/-- The session is all or nothing. -/
structure Loop.AllOrNothing (M : Machine) (l : Loop) : Prop where
  /-- Without an owner nothing is on, every child was waited for and every disassociation restored. -/
  stopped : l.helper.session.owner = noUser → l.helper.session.owlPID = none ∧
    l.helper.session.blePID = none ∧ l.helper.session.wifiLease = none ∧ Over l.helper.log
  gone : l.left = true → l.helper.session.owner = noUser
  restored : ∀ n c, (n, c) ∈ disassociations l.helper.log →
    (restorations l.helper.log).count n = if l.helper.session.held = some n then 0 else 1
  rejoined : ∀ later n rejoined past, l.helper.log = later ++ .restored n rejoined :: past →
    ∃ c, (n, c) ∈ disassociations past ∧ rejoined = (c && M.powerOn n)
  answers : ∀ later a past, l.helper.log = later ++ .answered a :: past → a.Fair past

/-- **The radio session is all or nothing, over every run of the helper.** -/
theorem radio_session_whole
    (run : Path (fun l e l' => Loop.step M l e = some l') (Loop.enter t₀) turns l) :
    l.AllOrNothing M := by
  have h := Loop.settled_run run
  have hsound := along_iff.mp h.ok.along
  refine ⟨fun howner => ?_, fun hl => (h.gone hl).owner, fun n c hn => h.ok.toBooks.restored hn,
    fun later n rejoined past he => hsound later _ past he, fun later a past he => hsound later _ past he⟩
  rcases h.whole with hs | ⟨u, hs⟩
  · exact ⟨hs.owlPID, hs.blePID, hs.wifiLease, h.ok.toBooks.over hs.pid hs.held⟩
  · exact absurd (hs.owner.symm.trans howner) hs.user

theorem radio_session_whole_night :
    Loop.AllOrNothing bench ((exec (Loop.step bench) (Loop.enter 0) night).get night_runs) ∧
      restorations ((exec (Loop.step bench) (Loop.enter 0) night).get night_runs).helper.log =
        [2, 1, 0] :=
  ⟨radio_session_whole (exec_path_get night_runs), by decide +kernel⟩

/-- No session crosses a sleep. -/
structure Loop.Sleepless (l : Loop) : Prop where
  /-- At a will-sleep or has-powered-on everything ends; what is renewed later, and what is on in the
  end, was launched later. -/
  torn : ∀ later m before after past, l.helper.log = later ++ .delivered m before after :: past →
    m.tearsDown = true → (after.Stopped ∧ Over past) ∧
      (∀ later' uid s past', later = later' ++ .renewed uid s :: past' →
        ∃ p, s.owlPID = some p ∧ p ∈ launches past' ∧ p ∉ launches past) ∧
      ∀ p, l.helper.session.owlPID = some p → p ∈ launches later ∧ p ∉ launches past
  kept : ∀ later before after past,
    l.helper.log = later ++ .delivered .canSystemSleep before after :: past → after = before
  awake : ∀ later a past, l.helper.log = later ++ .answered a :: past →
    a.wantsRadio → a.reply.isOk → asleep past = false
  acknowledged : ∀ later past, l.helper.log = later ++ .acknowledged .systemWillSleep :: past →
    Over past

/-- What was launched since the last teardown was launched after this one, and not before. -/
theorem launched_after {e : Event} {later past : List Event} {p : ℕ} (he : e.tearsDown = true)
    (ha : Along (Sound M) (later ++ e :: past))
    (hp : p ∈ launches (sinceTeardown (later ++ e :: past))) :
    p ∈ launches later ∧ p ∉ launches past := by
  obtain ⟨l, hl⟩ : ∃ l, sinceTeardown (later ++ e :: past) ++ l = later := sinceTeardown_append_cons he
  have hlater : p ∈ launches later := by
    rw [← hl, launches_append]
    exact List.mem_append_left _ hp
  have hnodup := (launches_ordered ha).1
  rw [launches_append, launches_cons, List.nodup_append] at hnodup
  exact ⟨hlater, fun hpast => hnodup.2.2 p hlater p (List.mem_append_right _ hpast) rfl⟩

/-- **No session crosses a sleep, over every run of the helper.** -/
theorem no_session_crosses_sleep
    (run : Path (fun l e l' => Loop.step M l e = some l') (Loop.enter t₀) turns l) : l.Sleepless := by
  have h := Loop.settled_run run
  have hsound := along_iff.mp h.ok.along
  refine ⟨?_, ?_, ?_, fun later past he => hsound later _ past he rfl⟩
  · intro later m before after past he hm
    have hd : Event.tearsDown (.delivered m before after) = true := hm
    have hend : Sound M past (.delivered m before after) := hsound later _ past he
    refine ⟨by simpa only [Sound, if_pos hm] using hend, ?_, ?_⟩
    · rintro later' uid s past' rfl
      have he' : l.helper.log = later' ++ .renewed uid s :: (past' ++ .delivered m before after :: past) := by
        simpa using he
      obtain ⟨-, -, p, hp, hrecent, -⟩ := hsound later' _ _ he'
      have hall : Along (Sound M) ((later' ++ [.renewed uid s]) ++
          (past' ++ .delivered m before after :: past)) := by simpa [he'] using h.ok.along
      have ha := hall.of_append
      exact ⟨p, hp, launched_after hd ha hrecent⟩
    · intro p hp
      exact launched_after hd (he ▸ h.ok.along) (he ▸ h.ok.recent p hp)
  · intro later before after past he
    have hend : Sound M past (.delivered .canSystemSleep before after) := hsound later _ past he
    simpa [Sound, PowerMessage.tearsDown] using hend
  · intro later a past he hw hr
    exact ((hsound later _ past he : a.Fair past).granted hw hr).2.2.1

theorem no_session_crosses_sleep_night :
    Loop.Sleepless ((exec (Loop.step bench) (Loop.enter 0) night).get night_runs) :=
  no_session_crosses_sleep (exec_path_get night_runs)

end Loop

end AquaTransport.AirDrop
