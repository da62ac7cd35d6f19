import AquaTransport.Awdl.Network

/-!
# AquaTransport.Awdl.SyncTree — the clocks of a network

A node takes its place in the cycle from its sync master, which takes it from its own.  Every clock runs at
the same rate here, and a frame is handled at most `δ` after it arrives; then each hop adds a lag of a
time unit and `δ` at most (`tree_lag`), whatever the clocks said before.  The guard of a multicast frame
is longer than ten hops of that (`tree_multicast`).
-/

namespace AquaTransport.Awdl

namespace Network

/-- What the host's clock reads at time zero, and how far it is ahead of its radio's. -/
structure Clocks where
  host : EtherAddr → ℤ
  ahead : EtherAddr → ℤ

/-- A frame that arrives at `v` at time `s` is handled `latency` later, whether or not the radio tells when
it came. -/
def Arrives (clocks : Clocks) (v : EtherAddr) (s : ℤ) (latency : ℕ) (hardware now : UInt64) : Prop :=
  (now.toNat : ℤ) = clocks.host v + s + latency ∧ (hardware = 0 ∨
    Handled (clocks.ahead v) latency hardware now ∧ (hardware.toNat : ℤ) + clocks.ahead v = clocks.host v + s)

/-- One callback of one daemon; the label says who heard whom. -/
inductive Tick (radiotap : EtherAddr → Buf → Option Radiotap) (clocks : Clocks) (δ : ℕ) :
    Network → Option (EtherAddr × EtherAddr) → Network → Prop
  /-- `v` hears what `u` says of itself at time `s`. -/
  | hear {net net' : Network} {v u : EtherAddr} {type : ActionType} {ieee : Ieee80211State}
      {steadyTime sent now : UInt64} {list : ChanSeq} {frame : Buf} {hdr : Radiotap} {s : ℤ} {latency : ℕ}
      (hne : u ≠ v) (hair : OnAir (radiotap v)
        ((initFullActionFrame (net.node u).state ieee type steadyTime sent).1.drop 9) frame hdr)
      (hweak : (net.node v).state.tooWeak u hdr.rssi = false)
      (hsent : (sent.toNat : ℤ) = clocks.host u + s) (harrives : Arrives clocks v s latency hdr.tsft now)
      (hlatency : latency ≤ δ)
      (hcall : Callback (radiotap v) net v (.receiveFrame list frame now) net') :
      Tick radiotap clocks δ net (some (v, u)) net'
  /-- Anything else, that leaves alone the place in the cycle and what is known of the radio. -/
  | idle {net net' : Network} {v : EtherAddr} {e : Daemon.Event} (hcall : Callback (radiotap v) net v e net')
      (hsync : (net'.node v).state.sync = (net.node v).state.sync)
      (hclock : Learnt (clocks.ahead v) (net.node v).state.rxClock →
        Learnt (clocks.ahead v) (net'.node v).state.rxClock) :
      Tick radiotap clocks δ net none net'

/-- The place in the cycle at time zero: what the node's clock and its synchronisation amount to. -/
def phase (clocks : Clocks) (net : Network) (v : EtherAddr) : ℤ :=
  (net.node v).state.sync.place (clocks.host v)

/-- `v` is behind `u`, by at most `lag`. -/
def Behind (clocks : Clocks) (net : Network) (u v : EtherAddr) (lag : ℕ) : Prop :=
  ∃ l : ℕ, l ≤ lag ∧ net.phase clocks v ≡ net.phase clocks u - l [ZMOD 2 ^ 30]

section Tree

variable {radiotap : EtherAddr → Buf → Option Radiotap} {clocks : Clocks} {δ : ℕ} {net net' : Network}
  {label : Option (EtherAddr × EtherAddr)}

/-- Every callback but the one for a frame is idle. -/
theorem Tick.of_callback {v : EtherAddr} {e : Daemon.Event}
    (he : ∀ list frame now, e ≠ .receiveFrame list frame now) (hcall : Callback (radiotap v) net v e net') :
    Tick radiotap clocks δ net none net' := by
  have hself := hcall.self
  obtain ⟨hsync, hclock⟩ := @Daemon.step_clocks (radiotap v) (net.node v) e he
  refine .idle hcall (by rw [hself, hsync]) fun h => ?_
  rwa [hself, hclock]

theorem Arrives.estimate {v : EtherAddr} {s : ℤ} {latency : ℕ} {hardware now : UInt64} {clock : RxClock}
    (h : Arrives clocks v s latency hardware now) (hl : Learnt (clocks.ahead v) clock) :
    (∃ e : ℕ, e ≤ latency ∧ ((rxClockTime clock hardware now).1.toNat : ℤ) = clocks.host v + s + e) ∧
      Learnt (clocks.ahead v) (rxClockTime clock hardware now).2 := by
  obtain ⟨hnow, rfl | ⟨hhandled, hhardware⟩⟩ := h
  · have hrx : rxClockTime clock 0 now = (now, clock) := by
      unfold rxClockTime
      exact if_pos (.inl rfl)
    rw [hrx]
    exact ⟨⟨latency, le_rfl, hnow⟩, hl⟩
  · obtain ⟨hle, hge, hlearnt⟩ := Stamped.estimate ⟨latency, hardware, now, hhandled⟩ hl
    unfold Stamped.arrival at hle
    dsimp only at hle hge hlearnt
    refine ⟨⟨((rxClockTime clock hardware now).1.toNat - (clocks.host v + s)).toNat, ?_, ?_⟩, hlearnt⟩ <;> omega

/-- The place of a node that is not the one called stays. -/
theorem Callback.phase {r : Buf → Option Radiotap} {v w : EtherAddr} {e : Daemon.Event}
    (h : Callback r net v e net') (hw : w ≠ v) : net'.phase clocks w = net.phase clocks w := by
  rw [Network.phase, Network.phase, h.other hw]

/-- Only the sync master sets the place. -/
theorem synced_sync (b : State) (src : EtherAddr) (tsft : UInt64) (ttna awc : UInt16) :
    (b.synced src tsft ttna awc).rxClock = b.rxClock ∧
      (b.election.syncAddr ≠ src → (b.synced src tsft ttna awc).sync = b.sync) ∧
      (b.sync.Regular → b.election.syncAddr = src → ∃ state : SyncState, state.Regular ∧
        (b.synced src tsft ttna awc).sync = state.updateLast tsft ttna awc) := by
  have hm : b.election.isSyncMaster src = true ↔ b.election.syncAddr = src := by
    rw [ElectionState.isSyncMaster, decide_eq_true_eq]
    exact compareEtherAddr_eq_zero
  unfold State.synced
  refine ⟨?_, fun hne => ?_, fun hr heq => ?_⟩
  · split_ifs <;> rfl
  · rw [if_neg (mt hm.mp hne)]
  · rw [if_pos (hm.mpr heq)]
    refine ⟨_, ?_, rfl⟩
    exact ⟨hr.presenceMode, hr.awPeriod, hr.awCounter⟩

/-- A frame takes a node behind its sync master, and no other node anywhere. -/
theorem hears_phase {r : Buf → Option Radiotap} {v u : EtherAddr} {type : ActionType}
    {ieee : Ieee80211State} {steadyTime sent now : UInt64} {list : ChanSeq} {frame : Buf} {hdr : Radiotap} {s : ℤ}
    {latency : ℕ} (hne : u ≠ v)
    (hair : OnAir r ((initFullActionFrame (net.node u).state ieee type steadyTime sent).1.drop 9) frame hdr)
    (hweak : (net.node v).state.tooWeak u hdr.rssi = false)
    (hsent : (sent.toNat : ℤ) = clocks.host u + s) (harrives : Arrives clocks v s latency hdr.tsft now)
    (hlearnt : Learnt (clocks.ahead v) (net.node v).state.rxClock)
    (hcall : Callback r net v (.receiveFrame list frame now) net') :
    Learnt (clocks.ahead v) (net'.node v).state.rxClock ∧
      ((net.node v).state.election.syncAddr ≠ u → net'.phase clocks v = net.phase clocks v) ∧
      ((net.node v).state.election.syncAddr = u → net'.Behind clocks u v (1023 + latency)) := by
  have hself := net.own u
  obtain ⟨b, sequence, hears, hstate⟩ := hears_state hne hair hweak list now
  obtain ⟨⟨e, he, hest⟩, hlearnt'⟩ := harrives.estimate hlearnt
  obtain ⟨calls, hrest⟩ := hears.rest
  rw [hself] at hrest
  set est := (rxClockTime (net.node v).state.rxClock hdr.tsft now).1
  set old := State.countAction { (net.node v).state with
    rxClock := (rxClockTime (net.node v).state.rxClock hdr.tsft now).2 } with hold
  set ttna := (net.node u).state.sync.nextAwTu sent
  set awc := (net.node u).state.sync.currentAw sent
  have hnew : (net'.node v).state.sync = (old.synced u est ttna awc).sync ∧
      (net'.node v).state.rxClock = (old.synced u est ttna awc).rxClock := by
    rw [hcall.self, hstate, hrest]
    exact ⟨rfl, rfl⟩
  obtain ⟨hclock, hother, hmaster⟩ := synced_sync old u est ttna awc
  refine ⟨?_, fun hne' => ?_, fun heq => ?_⟩
  · rw [hnew.2, hclock]
    exact hlearnt'
  · rw [phase, hnew.1, hother hne']
    rfl
  · obtain ⟨state, hreg, hsync⟩ := hmaster (net.fit v).sound.regular heq
    have hfollow := hreg.place_follow (net.fit u).sound.regular est sent
    have hplace : (net'.node v).state.sync.place est.toNat = net'.phase clocks v + (s + e) := by
      rw [hest, add_assoc, SyncState.place_add]
      rfl
    have hplace' : (net.node u).state.sync.place sent.toNat = net'.phase clocks u + s := by
      rw [hsent, SyncState.place_add, hcall.phase hne]
      rfl
    rw [← hsync, ← hnew.1, hplace, hplace'] at hfollow
    refine ⟨((net'.phase clocks u + s) % 1024).toNat + e, ?_, ?_⟩
    · omega
    · unfold Int.ModEq at hfollow ⊢
      omega

/-! ### The lag behind the root -/

section Rounds

variable {St : Set EtherAddr} {parent : EtherAddr → EtherAddr} {root : EtherAddr}

/-- Every node of `St` has the sync master that `parent` says. -/
def Settled (St : Set EtherAddr) (parent : EtherAddr → EtherAddr) (net : Network) : Prop :=
  ∀ v ∈ St, (net.node v).state.election.syncAddr = parent v

/-- A node `d` hops below the root is behind it by `d` lags of a hop at most. -/
def NearAt (clocks : Clocks) (δ : ℕ) (parent : EtherAddr → EtherAddr) (root : EtherAddr) (net : Network) (d : ℕ)
    (v : EtherAddr) : Prop :=
  parent^[d] v = root → net.Behind clocks root v (d * (1023 + δ))

/-- That holds up to `k` hops, and nothing false is known of the radios. -/
structure Near (clocks : Clocks) (δ : ℕ) (St : Set EtherAddr) (parent : EtherAddr → EtherAddr) (root : EtherAddr)
    (k : ℕ) (net : Network) : Prop where
  learnt : ∀ v, Learnt (clocks.ahead v) (net.node v).state.rxClock
  near : ∀ v ∈ St, ∀ d ≤ k, net.NearAt clocks δ parent root d v

theorem Behind.refl (v : EtherAddr) (lag : ℕ) : net.Behind clocks v v lag := ⟨0, Nat.zero_le _, by simp⟩

theorem Behind.trans {u v w : EtherAddr} {l m : ℕ} (h : net.Behind clocks u v l) (h' : net.Behind clocks v w m) :
    net.Behind clocks u w (l + m) := by
  obtain ⟨a, ha, hv⟩ := h
  obtain ⟨b, hb, hw⟩ := h'
  refine ⟨a + b, by omega, hw.trans ((hv.sub_right b).trans ?_)⟩
  rw [Int.natCast_add, sub_sub]

theorem Behind.congr {u v : EtherAddr} {lag : ℕ} (h : net.Behind clocks u v lag)
    (hu : net'.phase clocks u = net.phase clocks u) (hv : net'.phase clocks v = net.phase clocks v) :
    net'.Behind clocks u v lag := by
  unfold Behind
  rw [hu, hv]
  exact h

/-- What a tick does: a node that does not hear its parent stays where it is. -/
theorem Tick.spec (h : Tick radiotap clocks δ net label net') (hs : Settled St parent net)
    (hlearnt : ∀ v, Learnt (clocks.ahead v) (net.node v).state.rxClock) :
    (∀ v, Learnt (clocks.ahead v) (net'.node v).state.rxClock) ∧
      (∀ v ∈ St, label ≠ some (v, parent v) → net'.phase clocks v = net.phase clocks v) ∧
      (∀ v ∈ St, label = some (v, parent v) → parent v ≠ v ∧ net'.Behind clocks (parent v) v (1023 + δ)) := by
  have hlearn : ∀ {r : Buf → Option Radiotap} {w : EtherAddr} {e : Daemon.Event}, Callback r net w e net' →
      Learnt (clocks.ahead w) (net'.node w).state.rxClock →
      ∀ v, Learnt (clocks.ahead v) (net'.node v).state.rxClock := by
    intro r w e hcall hw v
    by_cases hv : v = w
    · exact hv ▸ hw
    · rw [hcall.other hv]
      exact hlearnt v
  cases h with
  | @hear _ w u _ _ _ _ _ _ _ _ s latency hne hair hweak hsent harrives hlatency hcall =>
    obtain ⟨hl, hother, hmaster⟩ := hears_phase hne hair hweak hsent harrives (hlearnt w) hcall
    refine ⟨hlearn hcall hl, fun v hv hlabel => ?_, fun v hv hlabel => ?_⟩
    · by_cases hvw : v = w
      · subst hvw
        refine hother fun he => hlabel ?_
        rw [← hs v hv, he]
      · exact hcall.phase hvw
    · obtain ⟨rfl, rfl⟩ := Prod.mk.inj (Option.some.inj hlabel)
      obtain ⟨l, hl, hphase⟩ := hmaster (hs w hv)
      exact ⟨hne, l, by omega, hphase⟩
  | @idle _ w e hcall hsync hclock =>
    refine ⟨hlearn hcall (hclock (hlearnt w)), fun v _ _ => ?_, fun _ _ hlabel => by cases hlabel⟩
    by_cases hvw : v = w
    · rw [phase, phase, hvw, hsync]
    · exact hcall.phase hvw

/-- One tick: whoever is near stays near, and who hears its parent gets as near as that allows. -/
theorem Near.tick {k : ℕ} (hk : net.Near clocks δ St parent root k) (hroot : root ∈ St ∧ parent root = root)
    (hclosed : ∀ v ∈ St, parent v ∈ St) (hs : Settled St parent net)
    (h : Tick radiotap clocks δ net label net') : net'.Near clocks δ St parent root k ∧
      ∀ v ∈ St, (net.NearAt clocks δ parent root (k + 1) v ∨ label = some (v, parent v)) →
        net'.NearAt clocks δ parent root (k + 1) v := by
  obtain ⟨hlearnt, hstay, hhear⟩ := h.spec hs hk.learnt
  have hr : net'.phase clocks root = net.phase clocks root := by
    refine hstay root hroot.1 fun hlabel => ?_
    exact (hhear root hroot.1 hlabel).1 hroot.2
  have hone : ∀ v ∈ St, ∀ d ≤ k + 1, (net.NearAt clocks δ parent root d v ∨ label = some (v, parent v)) →
      net'.NearAt clocks δ parent root d v := by
    intro v hv d hd hcase hpath
    by_cases hlabel : label = some (v, parent v)
    · obtain ⟨hne, hbehind⟩ := hhear v hv hlabel
      cases d with
      | zero => exact hpath ▸ .refl v _
      | succ d =>
        -- the parent does not move when its child hears it
        have hp : net'.phase clocks (parent v) = net.phase clocks (parent v) := by
          refine hstay _ (hclosed v hv) fun he => ?_
          rw [hlabel] at he
          exact hne (Prod.mk.inj (Option.some.inj he)).1.symm
        have hparent := (hk.near (parent v) (hclosed v hv) d (by omega) hpath).congr hr hp
        rw [Nat.succ_mul]
        exact hparent.trans hbehind
    · exact ((hcase.resolve_right hlabel) hpath).congr hr (hstay v hv hlabel)
  exact ⟨⟨hlearnt, fun v hv d hd => hone v hv d (by omega) (.inl (hk.near v hv d hd))⟩,
    fun v hv hcase => hone v hv _ le_rfl hcase⟩

/-- A tick of a network whose tree stands. -/
def TreeTick (radiotap : EtherAddr → Buf → Option Radiotap) (clocks : Clocks) (δ : ℕ) (St : Set EtherAddr)
    (parent : EtherAddr → EtherAddr) (net : Network) (label : Option (EtherAddr × EtherAddr)) (net' : Network) :
    Prop :=
  Settled St parent net ∧ Tick radiotap clocks δ net label net'

theorem Near.path {k : ℕ} {labels : List (Option (EtherAddr × EtherAddr))}
    (hk : net.Near clocks δ St parent root k) (hroot : root ∈ St ∧ parent root = root)
    (hclosed : ∀ v ∈ St, parent v ∈ St) (h : Path (TreeTick radiotap clocks δ St parent) net labels net') :
    net'.Near clocks δ St parent root k ∧
      ∀ v ∈ St, (net.NearAt clocks δ parent root (k + 1) v ∨ some (v, parent v) ∈ labels) →
        net'.NearAt clocks δ parent root (k + 1) v := by
  induction h with
  | nil net => exact ⟨hk, fun v _ hcase => hcase.resolve_right List.not_mem_nil⟩
  | @cons net mid net' label labels h1 _ ih =>
    obtain ⟨hmid, hat⟩ := hk.tick hroot hclosed h1.1 h1.2
    obtain ⟨hnet', hat'⟩ := ih hmid
    refine ⟨hnet', fun v hv hcase => hat' v hv ?_⟩
    rcases hcase with hnear | hmem
    · exact .inl (hat v hv (.inl hnear))
    · rcases List.mem_cons.mp hmem with he | hmem
      · exact .inl (hat v hv (.inr he.symm))
      · exact .inr hmem

/-- A round, in which every node but the root hears its parent, takes the bound one hop farther. -/
theorem Near.rounds {k : ℕ} {rounds : List (List (Option (EtherAddr × EtherAddr)))}
    (hk : net.Near clocks δ St parent root k) (hroot : root ∈ St ∧ parent root = root)
    (hclosed : ∀ v ∈ St, parent v ∈ St)
    (hround : ∀ labels ∈ rounds, ∀ v ∈ St, parent v ≠ v → some (v, parent v) ∈ labels)
    (h : Path (TreeTick radiotap clocks δ St parent) net rounds.flatten net') :
    net'.Near clocks δ St parent root (k + rounds.length) := by
  induction rounds generalizing k net with
  | nil =>
    cases h
    exact hk
  | cons labels rounds ih =>
    obtain ⟨mid, h1, h2⟩ := h.split
    obtain ⟨hmid, hat⟩ := hk.path hroot hclosed h1
    have hnext : mid.Near clocks δ St parent root (k + 1) := by
      refine ⟨hmid.learnt, fun v hv d hd => ?_⟩
      rcases Nat.le_succ_iff.mp hd with hd | rfl
      · exact hmid.near v hv d hd
      · by_cases hp : parent v = v
        · intro hpath
          rw [Function.iterate_fixed hp] at hpath
          exact hpath ▸ .refl v _
        · exact hat v hv (.inr (hround labels List.mem_cons_self v hv hp))
    have hlen : k + (labels :: rounds).length = k + 1 + rounds.length := by
      rw [List.length_cons]
      omega
    rw [hlen]
    exact ih hnext (fun l hl => hround l (List.mem_cons_of_mem labels hl)) h2

theorem near_zero (hlearnt : ∀ v, Learnt (clocks.ahead v) (net.node v).state.rxClock) :
    net.Near clocks δ St parent root 0 := by
  refine ⟨hlearnt, fun v _ d hd hpath => ?_⟩
  obtain rfl : d = 0 := by omega
  exact hpath ▸ .refl v _

/-- Nodes on a channel, that all have the same sync master. -/
def below (root : EtherAddr) : Network where
  node := fun v => { Daemon.fresh v with
    state := { (Daemon.fresh v).state with
      election := { (Daemon.fresh v).state.election with syncAddr := root }
      own := rfl
      channel := { (Daemon.fresh v).state.channel with current := ⟨6, 0x51⟩ } } }
  own := fun _ => rfl
  fit := fun v => (Daemon.start_fit (Daemon.start_fresh v)).congr rfl rfl rfl rfl rfl rfl rfl

/-- Such nodes can hear the root as often as one likes. -/
theorem exists_rounds {a b : EtherAddr} (hab : b ≠ a) (n : ℕ) {net : Network}
    (hloud : ∀ v, (net.node v).state.filterRssi = false)
    (hmaster : ∀ v, (net.node v).state.election.syncAddr = b) :
    ∃ net', Path (TreeTick (fun _ => plainRadio) ⟨fun _ => 0, fun _ => 0⟩ 0 {a, b} fun _ => b) net
      (List.replicate n [some (a, b)]).flatten net' ∧ net'.node b = net.node b := by
  induction n generalizing net with
  | zero => exact ⟨net, .nil net, rfl⟩
  | succ n ih =>
    set frame := plainFrame ((initFullActionFrame (net.node b).state ieee80211InitState .mif 0 0).1.drop 9)
    set e : Daemon.Event := .receiveFrame (fun _ => chanNull) frame 0
    have hcall : Callback plainRadio net a e (net.after plainRadio a e) := rfl
    have htick : TreeTick (fun _ => plainRadio) ⟨fun _ => 0, fun _ => 0⟩ 0 {a, b} (fun _ => b) net (some (a, b))
        (net.after plainRadio a e) := by
      have harrives : Arrives ⟨fun _ => 0, fun _ => 0⟩ a 0 0 0 0 := ⟨rfl, .inl rfl⟩
      refine ⟨fun v _ => hmaster v, .hear hab (onAir_plain _) ?_ ?_ harrives le_rfl hcall⟩
      · rw [State.tooWeak, hloud a, Bool.false_and]
      · rfl
    have hkeep : ∀ v, ((net.after plainRadio a e).node v).state.filterRssi = false ∧
        ((net.after plainRadio a e).node v).state.election.syncAddr = b := by
      intro v
      by_cases hv : v = a
      · subst hv
        rw [hcall.self, (Daemon.step_moves _ e).sameSelf.filterRssi,
          Daemon.step_election _ fun now => by simp [e]]
        exact ⟨hloud v, hmaster v⟩
      · rw [hcall.other hv]
        exact ⟨hloud v, hmaster v⟩
    obtain ⟨net', hpath, hb⟩ := ih (fun v => (hkeep v).1) fun v => (hkeep v).2
    exact ⟨net', .cons htick hpath, hb.trans (hcall.other hab)⟩

/-- **Every hop adds a time unit and a handling time to the lag, at most**: whatever the nodes' places in the
cycle were, after as many rounds as a node is hops away, and from then on, it is behind the root by no
more than that.

The clocks are ideal here: all of one rate, no radio is set back, a frame is heard at the moment of its stamp,
and what a node knows of its radio's offset at first it has `Learnt`.  Between two such frames the nodes may do
anything that is a callback: all but the one for a frame are ticks by `Tick.of_callback`. -/
theorem tree_lag {rounds : List (List (Option (EtherAddr × EtherAddr)))}
    (hlearnt : ∀ v, Learnt (clocks.ahead v) (net.node v).state.rxClock) (hroot : root ∈ St ∧ parent root = root)
    (hclosed : ∀ v ∈ St, parent v ∈ St)
    (hround : ∀ labels ∈ rounds, ∀ v ∈ St, parent v ≠ v → some (v, parent v) ∈ labels)
    (h : Path (TreeTick radiotap clocks δ St parent) net rounds.flatten net') {v : EtherAddr} (hv : v ∈ St) {d : ℕ}
    (hd : d ≤ rounds.length) (hpath : parent^[d] v = root) :
    net'.Behind clocks root v (d * (1023 + δ)) :=
  ((near_zero hlearnt).rounds hroot hclosed hround h).near v hv d (by omega) hpath

theorem tree_lag_two : ∃ net' : Network, net'.Behind ⟨fun _ => 0, fun _ => 0⟩ ⟨[2, 0, 0, 0, 0, 2], rfl⟩
    ⟨[2, 0, 0, 0, 0, 1], rfl⟩ 1023 := by
  set a : EtherAddr := ⟨[2, 0, 0, 0, 0, 1], rfl⟩
  set b : EtherAddr := ⟨[2, 0, 0, 0, 0, 2], rfl⟩
  have hlt : a < b := by decide
  obtain ⟨net', hpath, -⟩ := @exists_rounds a b hlt.ne' 1 (below b) (fun _ => rfl) fun _ => rfl
  have hb : b ∈ ({a, b} : Set EtherAddr) := Set.mem_insert_of_mem a rfl
  have hround : ∀ labels ∈ List.replicate 1 [some (a, b)], ∀ v ∈ ({a, b} : Set EtherAddr), b ≠ v →
      some (v, b) ∈ labels := by
    intro labels hl v hv hne
    rw [List.eq_of_mem_replicate hl, hv.resolve_right fun h => hne h.symm]
    exact List.mem_cons_self
  exact ⟨net', tree_lag (fun _ h => absurd h Bool.false_ne_true) ⟨hb, rfl⟩ (fun _ _ => hb) hround hpath
    (Set.mem_insert a _) (d := 1) le_rfl rfl⟩

/-- **A multicast frame reaches the whole tree in a slot for it**: frames are handled within 615 us, and no node
is more than 10 hops away from the root.  Then at any time when a node may send a multicast frame, it is
such a slot by the clock of every node.  The clocks are those of `tree_lag`. -/
theorem tree_multicast {rounds : List (List (Option (EtherAddr × EtherAddr)))}
    (hlearnt : ∀ v, Learnt (clocks.ahead v) (net.node v).state.rxClock) (hroot : root ∈ St ∧ parent root = root)
    (hclosed : ∀ v ∈ St, parent v ∈ St)
    (hround : ∀ labels ∈ rounds, ∀ v ∈ St, parent v ≠ v → some (v, parent v) ∈ labels)
    (h : Path (TreeTick radiotap clocks δ St parent) net rounds.flatten net') (hδ : δ ≤ 615)
    (hlong : 10 ≤ rounds.length) (hdepth : ∀ v ∈ St, ∃ d ≤ 10, parent^[d] v = root) {u v : EtherAddr}
    (hu : u ∈ St) (hv : v ∈ St) {s : ℤ} {now now' : UInt64} (hnow : (now.toNat : ℤ) = clocks.host u + s)
    (hnow' : (now'.toNat : ℤ) = clocks.host v + s)
    (hcan : (net'.node u).state.canSendMulticastIn now multicastGuardTu = 0) :
    (net'.node v).state.isMulticastEaw now' = true := by
  have hnear := (near_zero hlearnt).rounds hroot hclosed hround h
  have hbehind : ∀ w ∈ St, ∃ l : ℕ, l ≤ 16380 ∧
      net'.phase clocks w ≡ net'.phase clocks root - l [ZMOD 2 ^ 30] := by
    intro w hw
    obtain ⟨d, hd, hpath⟩ := hdepth w hw
    obtain ⟨l, hl, hphase⟩ := hnear.near w hw d (by omega) hpath
    have hle : d * (1023 + δ) ≤ 10 * 1638 := Nat.mul_le_mul hd (by omega)
    exact ⟨l, by omega, hphase⟩
  obtain ⟨a, ha, hua⟩ := hbehind u hu
  obtain ⟨b, hb, hvb⟩ := hbehind v hv
  have hu' : (net'.node u).state.sync.place now.toNat = net'.phase clocks u + s := by
    rw [hnow, SyncState.place_add]
    rfl
  have hv' : (net'.node v).state.sync.place now'.toNat = net'.phase clocks v + s := by
    rw [hnow', SyncState.place_add]
    rfl
  have hslot := ((canSendMulticastIn_eq_zero (net'.fit u).sound.regular (by decide) (by decide)).mp hcan).2
    (a - b) (by unfold multicastGuardTu; omega) (by unfold multicastGuardTu; omega)
  have hsame : slotOf ((net'.node v).state.sync.place now'.toNat) =
      slotOf ((net'.node u).state.sync.place now.toNat + (a - b)) := by
    refine slotOf_congr ?_
    rw [hu', hv']
    unfold Int.ModEq at hua hvb ⊢
    omega
  rw [State.isMulticastEaw, (net'.fit v).sound.regular.slot_eq, hsame]
  exact hslot.1

theorem tree_multicast_two : ∃ net' : Network,
    (net'.node ⟨[2, 0, 0, 0, 0, 1], rfl⟩).state.isMulticastEaw 32768 = true := by
  set a : EtherAddr := ⟨[2, 0, 0, 0, 0, 1], rfl⟩
  set b : EtherAddr := ⟨[2, 0, 0, 0, 0, 2], rfl⟩
  have hlt : a < b := by decide
  obtain ⟨net', hpath, hnode⟩ := @exists_rounds a b hlt.ne' 10 (below b) (fun _ => rfl) fun _ => rfl
  have hb : b ∈ ({a, b} : Set EtherAddr) := Set.mem_insert_of_mem a rfl
  have hcan : (net'.node b).state.canSendMulticastIn 32768 multicastGuardTu = 0 := by
    rw [hnode]
    decide
  have hround : ∀ labels ∈ List.replicate 10 [some (a, b)], ∀ v ∈ ({a, b} : Set EtherAddr), b ≠ v →
      some (v, b) ∈ labels := by
    intro labels hl v hv hne
    rw [List.eq_of_mem_replicate hl, hv.resolve_right fun h => hne h.symm]
    exact List.mem_cons_self
  exact ⟨net', tree_multicast (fun _ h => absurd h Bool.false_ne_true) ⟨hb, rfl⟩ (fun _ _ => hb) hround hpath
    (Nat.zero_le _) le_rfl (fun v _ => ⟨1, by decide, rfl⟩) hb (Set.mem_insert a _) (s := 32768) rfl rfl hcan⟩

end Rounds

end Tree

end Network

end AquaTransport.Awdl
