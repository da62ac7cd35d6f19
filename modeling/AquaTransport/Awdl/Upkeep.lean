import AquaTransport.Awdl.Daemon
import Mathlib.Logic.Relation

/-!
# AquaTransport.Awdl.Upkeep — the state of a daemon over its runs

`step_moves` says once what a callback does to the node's state: a few kinds of moves, of which only one
elects.  Each invariant is then a property that every move keeps.

* `run_neighbours`: the neighbours added to the host's table are the valid peers.
* `run_active`: there is always a slot to send in.
-/

namespace AquaTransport.Awdl

/-! ### What a callback does to the state -/

/-- `E` and `R` say whether an election and the reception of a frame may be among the moves. -/
inductive Move (E R : Prop) : State → State → Prop
  | evolve (h : R) {s t : State} (he : Evolves s t) : Move E R s t
  | adopt (s : State) : Move E R s s.adoptMasterChanseq
  | tune (s : State) (now : UInt64) (actual : ℤ) (selected : Bool) :
      Move E R s (s.switchChannel now actual selected)
  | count (s : State) (sequenceNumber : UInt16) (stats : Stats) :
      Move E R s { s with sequenceNumber := sequenceNumber, stats := stats }
  | elect (h : E) (s : State) (now : UInt64) : Move E R s (s.elect now)

abbrev Moves (E R : Prop) : State → State → Prop := Relation.ReflTransGen (Move E R)

/-- What every move keeps. -/
theorem Moves.invariant {E R : Prop} {I : State → Prop} {s t : State} (h : Moves E R s t)
    (hstep : ∀ s t, I s → Move E R s t → I t) (hs : I s) : I t := by
  induction h with
  | refl => exact hs
  | tail _ hmove ih => exact hstep _ _ ih hmove

theorem adoptMasterChanseq_eq (s : State) : ∃ sequence, s.adoptMasterChanseq = s.withSequence sequence := by
  have hself : s = s.withSequence s.channel.sequence := rfl
  have hfollow : ∀ master : Peer, ∃ sequence, (if hasActiveSlot s.channel.enc master.sequence then
      s.withSequence master.sequence else s) = s.withSequence sequence := by
    intro master
    split_ifs
    · exact ⟨_, rfl⟩
    · exact ⟨_, hself⟩
  unfold State.adoptMasterChanseq
  by_cases hf : (!s.followMasterChanseq) = true
  · rw [if_pos hf]
    exact ⟨_, hself⟩
  · rw [if_neg hf]
    cases s.preferredPeer.bind s.peers.peers.get with
    | some master => exact hfollow master
    | none =>
      dsimp only
      by_cases hm : s.election.isSyncMaster s.selfAddress = true
      · rw [if_pos hm]
        exact ⟨_, rfl⟩
      · rw [if_neg hm]
        cases s.peers.peers.get s.election.syncAddr with
        | none => exact ⟨_, rfl⟩
        | some master => exact hfollow master

theorem switchChannel_eq (s : State) (now : UInt64) (actual : ℤ) (selected : Bool) :
    ∃ chan, s.switchChannel now actual selected =
      { s with channel := { s.channel with current := chan } } := by
  unfold State.switchChannel
  generalize (if actual > 0 ∧ actual ≠ s.tuned.toNat then actual else (s.tuned.toNat : ℤ)) = old
  dsimp only
  split_ifs
  · exact ⟨_, rfl⟩
  · exact ⟨s.channel.current, rfl⟩

/-- What a node is to the others does not change. -/
structure SameSelf (s t : State) : Prop where
  selfAddress : t.selfAddress = s.selfAddress
  selfRank : t.election.selfRank = s.election.selfRank
  version : t.version = s.version
  devClass : t.devClass = s.devClass
  filterRssi : t.filterRssi = s.filterRssi

theorem SameSelf.refl (s : State) : SameSelf s s := ⟨rfl, rfl, rfl, rfl, rfl⟩

theorem SameSelf.trans {s t u : State} (h : SameSelf s t) (h' : SameSelf t u) : SameSelf s u where
  selfAddress := h'.selfAddress.trans h.selfAddress
  selfRank := h'.selfRank.trans h.selfRank
  version := h'.version.trans h.version
  devClass := h'.devClass.trans h.devClass
  filterRssi := h'.filterRssi.trans h.filterRssi

theorem Move.sameSelf {E R : Prop} {s t : State} (h : Move E R s t) : SameSelf s t := by
  cases h with
  | evolve hR he =>
    rw [he.rest]
    exact ⟨rfl, rfl, rfl, rfl, rfl⟩
  | adopt =>
    obtain ⟨sequence, he⟩ := adoptMasterChanseq_eq s
    rw [he]
    exact ⟨rfl, rfl, rfl, rfl, rfl⟩
  | tune _ now actual selected =>
    obtain ⟨chan, he⟩ := switchChannel_eq s now actual selected
    rw [he]
    exact ⟨rfl, rfl, rfl, rfl, rfl⟩
  | count => exact ⟨rfl, rfl, rfl, rfl, rfl⟩
  | elect hE _ now =>
    refine ⟨rfl, ?_, rfl, rfl, rfl⟩
    show (electionRun s.election _).selfRank = s.election.selfRank
    unfold electionRun
    dsimp only
    split_ifs <;> rfl

/-- A node's place in the tree is the last election's. -/
theorem Move.election {R : Prop} {s t : State} (h : Move False R s t) : t.election = s.election := by
  cases h with
  | evolve hR he => rw [he.rest]
  | adopt =>
    obtain ⟨sequence, he⟩ := adoptMasterChanseq_eq s
    rw [he]
    rfl
  | tune _ now actual selected =>
    obtain ⟨chan, he⟩ := switchChannel_eq s now actual selected
    rw [he]
  | count => rfl
  | elect hE => exact hE.elim

/-- The clocks are set by frames only. -/
theorem Move.clocks {E : Prop} {s t : State} (h : Move E False s t) :
    t.sync = s.sync ∧ t.rxClock = s.rxClock := by
  cases h with
  | evolve hR => exact hR.elim
  | adopt =>
    obtain ⟨sequence, he⟩ := adoptMasterChanseq_eq s
    rw [he]
    exact ⟨rfl, rfl⟩
  | tune _ now actual selected =>
    obtain ⟨chan, he⟩ := switchChannel_eq s now actual selected
    rw [he]
    exact ⟨rfl, rfl⟩
  | count => exact ⟨rfl, rfl⟩
  | elect => exact ⟨rfl, rfl⟩

theorem Moves.sameSelf {E R : Prop} {s t : State} (h : Moves E R s t) : SameSelf s t :=
  h.invariant (I := SameSelf s) (fun _ _ hs hm => hs.trans hm.sameSelf) (.refl s)

theorem Moves.election {R : Prop} {s t : State} (h : Moves False R s t) : t.election = s.election :=
  h.invariant (I := fun t => t.election = s.election) (fun _ _ hs hm => hm.election.trans hs) rfl

namespace Daemon

variable {radiotap : Buf → Option Radiotap} {E R : Prop}

theorem poll_state (d : Daemon) (frames : List Buf) : (d.poll frames).1.state = d.state := by
  induction frames generalizing d with
  | nil => rfl
  | cons b bs ih =>
    rw [poll]
    dsimp only
    split_ifs
    · rfl
    · exact ih _
    · exact ih _
    · rfl

theorem sendData_moves (d : Daemon) (f : HostFrame) (now : UInt64) (sent : Bool) :
    Moves E R d.state (d.sendData f now sent).1.state := by
  unfold sendData
  split
  · exact .single (.count d.state _ _)
  · exact .refl

theorem retune_moves (d : Daemon) (env : Environment) (peer : Peer) :
    Moves E R d.state (d.retune env peer).1.state := by
  unfold retune
  split_ifs
  · exact .single (.tune d.state env.switching env.actual env.selected)
  · exact .refl

theorem sendUnicast_moves (d : Daemon) (env : Environment) :
    Moves E R d.state (d.sendUnicast env).1.state := by
  unfold sendUnicast
  cases d.next with
  | none => exact .refl
  | some f =>
    dsimp only
    split_ifs with hself
    · exact .refl
    · split
      · exact .refl
      · rename_i peer hpeer
        have hd := d.retune_moves (E := E) (R := R) env peer
        generalize d.retune env peer = r at hd ⊢
        obtain ⟨d', now⟩ := r
        dsimp only
        split_ifs
        · exact (hd.trans (sendData_moves { d' with next := none } f now env.sent)).tail (.count _ _ _)
        · exact hd

theorem sendMulticast_moves (d : Daemon) (now : UInt64) (sent : Bool) :
    Moves E R d.state (d.sendMulticast now sent).1.state := by
  unfold sendMulticast
  split_ifs
  · split
    · exact .refl
    · rename_i f queue hget
      exact (sendData_moves { d with queue := queue } f now sent).tail (.count _ _ _)
  · exact .refl

theorem hostDeviceReady_moves (d : Daemon) (frames : List Buf) (now : UInt64) (sent : Bool)
    (env : Environment) : Moves E R d.state (d.hostDeviceReady frames now sent env).1.state := by
  have hif : ∀ (c : Bool) (d : Daemon) (r : Daemon × List Effect), Moves E R d.state r.1.state →
      Moves E R d.state (if c then r else (d, [])).1.state := by
    intro c d r h
    cases c with
    | true => exact h
    | false => exact .refl
  rw [← poll_state d frames]
  exact (hif _ _ _ (sendMulticast_moves _ now sent)).trans (hif _ _ _ (sendUnicast_moves _ env))

theorem receiveFrame_moves (hR : R) (d : Daemon) (list : ChanSeq) (frame : Buf) (now : UInt64) :
    Moves E R d.state (d.receiveFrame radiotap list frame now).1.state := by
  have hrx : Evolves d.state _ := evolves_rx radiotap list frame now
  unfold receiveFrame
  generalize rx radiotap list frame now d.state = r at hrx ⊢
  obtain ⟨result, frames, state⟩ := r
  have hone : Moves E R d.state state := .single (.evolve hR hrx)
  dsimp only
  split_ifs
  · exact .refl
  · exact hone.tail (.adopt state)
  · exact hone
  · exact hone.tail (.count state _ _)
  · exact hone

/-- **What a callback does to the state**: an election is one of the moves only of `awdl_clean_peers`, and a
reception only of `awdl_receive_frame`. -/
theorem step_moves (d : Daemon) (e : Event) :
    Moves (∃ now, e = .cleanPeers now) (∃ list frame now, e = .receiveFrame list frame now) d.state
      (d.step radiotap e).1.state := by
  cases e with
  | hostDeviceReady frames now sent env => exact d.hostDeviceReady_moves frames now sent env
  | sendUnicast env => exact d.sendUnicast_moves env
  | sendMulticast now sent => exact d.sendMulticast_moves now sent
  | receiveFrame list frame now => exact receiveFrame_moves ⟨list, frame, now, rfl⟩ d list frame now
  | cleanPeers now => exact .tail (.single (.elect ⟨now, rfl⟩ d.state now)) (.adopt _)
  | switchChannel env => exact .single (.tune d.state env.now env.actual env.selected)
  | sendPsf steadyTime now sent => exact .single (.count d.state _ _)
  | sendMif steadyTime now sent =>
    show Moves _ _ d.state (d.sendMif steadyTime now sent).1.state
    unfold sendMif
    split_ifs
    · exact .single (.count d.state _ _)
    · exact .refl

theorem step_election (d : Daemon) {e : Event} (he : ∀ now, e ≠ .cleanPeers now) :
    (d.step radiotap e).1.state.election = d.state.election := by
  have h := @step_moves radiotap d e
  have hno : (∃ now, e = .cleanPeers now) = False := eq_false fun ⟨now, hn⟩ => he now hn
  rw [hno] at h
  exact h.election

theorem step_clocks (d : Daemon) {e : Event} (he : ∀ list frame now, e ≠ .receiveFrame list frame now) :
    (d.step radiotap e).1.state.sync = d.state.sync ∧
      (d.step radiotap e).1.state.rxClock = d.state.rxClock := by
  have h := @step_moves radiotap d e
  have hno : (∃ list frame now, e = .receiveFrame list frame now) = False :=
    eq_false fun ⟨list, frame, now, hn⟩ => he list frame now hn
  rw [hno] at h
  refine h.invariant (I := fun t => t.sync = d.state.sync ∧ t.rxClock = d.state.rxClock) ?_ ⟨rfl, rfl⟩
  exact fun t u ht hm => ⟨hm.clocks.1.trans ht.1, hm.clocks.2.trans ht.2⟩

/-- What every callback keeps, when it holds at the start, holds at every callback of a run and at the
end. -/
theorem run_invariant (I : Daemon → Prop) (P : Effect → Prop) {d : Daemon} (hstep : ∀ d e, I d →
    I (d.step radiotap e).1 ∧ ∀ x ∈ (d.step radiotap e).2, P x) (h : I d) (evs : List Event) :
    I (d.run radiotap evs).1 ∧ ∀ x ∈ (d.run radiotap evs).2, P x := by
  induction evs generalizing d with
  | nil => exact ⟨h, fun x hx => absurd hx List.not_mem_nil⟩
  | cons e evs ih =>
    obtain ⟨hI, hP⟩ := hstep d e h
    obtain ⟨hI', hP'⟩ := ih hI
    refine ⟨hI', fun x hx => ?_⟩
    rcases List.mem_append.mp hx with hx | hx
    · exact hP x hx
    · exact hP' x hx

end Daemon

/-! ### A node in every state it gets into -/

/-- A sound node that has a slot to send in, and one in the sequence it may go back to. -/
structure State.Fit (state : State) : Prop where
  sound : state.Sound
  active : hasActiveSlot state.channel.enc state.channel.sequence = true
  configured : hasActiveSlot state.channel.enc state.configuredSequence = true
  own : state.followMasterChanseq = false → state.channel.sequence = state.configuredSequence

namespace State.Fit

variable {s t : State}

theorem congr (h : s.Fit) (hcalls : t.calls = s.calls) (hpeers : t.peers.peers = s.peers.peers)
    (hsync : t.sync = s.sync) (henc : t.channel.enc = s.channel.enc)
    (hseq : t.channel.sequence = s.channel.sequence)
    (hconf : t.configuredSequence = s.configuredSequence)
    (hfollow : t.followMasterChanseq = s.followMasterChanseq) : t.Fit where
  sound :=
    { mirrors := by
        rw [hcalls, hpeers]
        exact h.sound.mirrors
      regular := hsync ▸ h.sound.regular
      aligned := by
        rw [hpeers]
        exact h.sound.aligned }
  active := by
    rw [henc, hseq]
    exact h.active
  configured := by
    rw [henc, hconf]
    exact h.configured
  own := by
    rw [hfollow, hseq, hconf]
    exact h.own

theorem evolves (h : s.Fit) (he : Evolves s t) : t.Fit where
  sound := he.sound h.sound
  active := by
    rw [he.rest]
    exact h.active
  configured := by
    rw [he.rest]
    exact h.configured
  own := by
    rw [he.rest]
    exact h.own

theorem withSequence (h : s.Fit) {sequence : ChanSeq}
    (hseq : hasActiveSlot s.channel.enc sequence = true)
    (hown : s.followMasterChanseq = false → sequence = s.configuredSequence) :
    (s.withSequence sequence).Fit :=
  ⟨⟨h.sound.mirrors, h.sound.regular, h.sound.aligned⟩, hseq, h.configured, hown⟩

/-- The sequence of a master is followed only if it has a slot to send in. -/
theorem adoptMasterChanseq (h : s.Fit) : s.adoptMasterChanseq.Fit := by
  unfold State.adoptMasterChanseq
  by_cases hf : (!s.followMasterChanseq) = true
  · rw [if_pos hf]
    exact h
  · rw [if_neg hf]
    have hfollow : ∀ master : Peer, (if hasActiveSlot s.channel.enc master.sequence then
        s.withSequence master.sequence else s).Fit := by
      intro master
      split_ifs with ha
      · refine h.withSequence ha fun hf' => absurd ?_ hf
        rw [hf', Bool.not_false]
      · exact h
    have hrestore : s.restoreConfiguredChanseq.Fit := h.withSequence h.configured fun _ => rfl
    cases s.preferredPeer.bind s.peers.peers.get with
    | some master => exact hfollow master
    | none =>
      dsimp only
      by_cases hm : s.election.isSyncMaster s.selfAddress = true
      · rw [if_pos hm]
        exact hrestore
      · rw [if_neg hm]
        cases s.peers.peers.get s.election.syncAddr with
        | none => exact hrestore
        | some master => exact hfollow master

theorem elect (h : s.Fit) (now : UInt64) : (s.elect now).Fit where
  sound :=
    { mirrors := h.sound.mirrors.peersRemove (now - s.peers.timeout)
      regular := h.sound.regular
      aligned := by
        intro a p hp
        have hget : (s.elect now).peers.peers.get a = (s.peers.peers.get a).filter _ :=
          Peers.get_filter a
        rw [hget] at hp
        exact h.sound.aligned a p (Option.filter_eq_some_iff.mp hp).1 }
  active := h.active
  configured := h.configured
  own := h.own

theorem switchChannel (h : s.Fit) (now : UInt64) (actual : ℤ) (selected : Bool) :
    (s.switchChannel now actual selected).Fit := by
  obtain ⟨chan, he⟩ := switchChannel_eq s now actual selected
  rw [he]
  exact h.congr rfl rfl rfl rfl rfl rfl rfl

theorem move {E R : Prop} (h : s.Fit) (hm : Move E R s t) : t.Fit := by
  cases hm with
  | evolve hR he => exact h.evolves he
  | adopt => exact h.adoptMasterChanseq
  | tune _ now actual selected => exact h.switchChannel now actual selected
  | count => exact h.congr rfl rfl rfl rfl rfl rfl rfl
  | elect _ _ now => exact h.elect now

theorem moves {E R : Prop} (h : s.Fit) (hm : Moves E R s t) : t.Fit :=
  hm.invariant (fun _ _ hs ht => hs.move ht) h

end State.Fit

namespace Daemon

variable {radiotap : Buf → Option Radiotap} {d : Daemon}

theorem run_fit (h : d.state.Fit) (evs : List Event) : (d.run radiotap evs).1.state.Fit :=
  (run_invariant (fun d => d.state.Fit) (fun _ => True)
    (fun d e hd => ⟨hd.moves (d.step_moves e), fun _ _ => trivial⟩) h evs).1

theorem start_fit {num : ℕ} {opts : Options} {hostname : Buf} {self : EtherAddr} {now : UInt64}
    {sui : UInt16} {memory : ℕ → { f : HostFrame // f.isMulticast = true }}
    (h : start num opts hostname self now sui memory = some d) : d.state.Fit := by
  obtain ⟨chan, hchan, rfl⟩ := Option.map_eq_some_iff.mp h
  have hnum : chan.val0 ≠ 0 := by
    unfold chanOf at hchan
    split_ifs at hchan with h6 hn
    · obtain rfl := Option.some.inj hchan
      decide
    · obtain rfl := Option.some.inj hchan
      rcases hn with rfl | rfl | rfl | rfl | rfl <;> decide
  have hslot : hasActiveSlot .opclass (chanseqInitStatic chan) = true := decide_eq_true ⟨0, hnum⟩
  refine ⟨⟨⟨trivial, fun a => ?_⟩, ⟨rfl, rfl, rfl⟩, fun a p hp => ?_⟩, hslot, hslot, fun _ => rfl⟩
  · exact ⟨fun ha => absurd ha Bool.false_ne_true, fun ⟨p, hp, _⟩ => absurd hp (by rintro ⟨⟩)⟩
  · exact absurd hp (by rintro ⟨⟩)

/-- A daemon that has just been started, on channel 6 and with its address. -/
def fresh (self : EtherAddr) : Daemon where
  state := (initState [] self ⟨6, 0x51⟩ 0 1).withOptions ⟨false, false, false, 0, 0, none⟩
  ieee := ieee80211InitState
  next := none
  queue := .init (fun _ => ⟨⟨[1, 0, 0, 0, 0, 0], Nat.le_refl 6⟩, rfl⟩) 16 queueMax_pos

theorem start_fresh (self : EtherAddr) : start 6 ⟨false, false, false, 0, 0, none⟩ [] self 0 1
    (fun _ => ⟨⟨[1, 0, 0, 0, 0, 0], Nat.le_refl 6⟩, rfl⟩) = some (fresh self) := rfl

/-- **The host's neighbours are the valid peers**, in every state of every run, and none is added or
removed twice in a row. -/
theorem run_neighbours {num : ℕ} {opts : Options} {hostname : Buf} {self : EtherAddr} {now : UInt64}
    {sui : UInt16} {memory : ℕ → { f : HostFrame // f.isMulticast = true }}
    (h : start num opts hostname self now sui memory = some d) (evs : List Event) :
    Mirrors (d.run radiotap evs).1.state.calls (d.run radiotap evs).1.state.peers.peers :=
  (run_fit (start_fit h) evs).sound.mirrors

theorem run_neighbours_fresh :
    let d := ((fresh ⟨[2, 0, 0, 0, 0, 1], rfl⟩).run (fun _ => none) [.sendMif 0 0 true, .cleanPeers 0]).1
    Mirrors d.state.calls d.state.peers.peers :=
  run_neighbours (start_fresh _) _

end Daemon

end AquaTransport.Awdl
