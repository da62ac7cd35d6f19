import AquaTransport.Awdl.Upkeep

/-!
# AquaTransport.Awdl.Silence — the entry of a node that is not heard

A frame says in its header who sent it.  Whatever else it says, it is that node's entry only that it can
write (`rx_other`); so the entry of a node from which nothing comes stays as it is, until the first
`awdl_clean_peers` that finds it too old: `run_silent`.
-/

namespace AquaTransport.Awdl

/-! ### One frame -/

/-- The frame behind the radiotap header and without its checksum. -/
def airFrame (radiotap : Buf → Option Radiotap) (frame : Buf) : Option Buf := do
  let hdr ← radiotap frame
  let len ← readLe16 frame 2
  let body ← strip frame len.toNat
  checkFcs body hdr.flags

/-- Who sent a frame. -/
def transmitter (radiotap : Buf → Option Radiotap) (frame : Buf) : Option EtherAddr :=
  (airFrame radiotap frame).bind (readEtherAddr · 10)

/-- The entry of a node and the timeout, as they were. -/
structure SameEntry (u : EtherAddr) (s t : State) : Prop where
  entry : t.peers.peers.get u = s.peers.peers.get u
  timeout : t.peers.timeout = s.peers.timeout

section Frames

variable {u src : EtherAddr} {s t : State}

theorem SameEntry.trans {v : State} (h : SameEntry u s t) (h' : SameEntry u t v) : SameEntry u s v :=
  ⟨h'.entry.trans h.entry, h'.timeout.trans h.timeout⟩

theorem SameEntry.of_peers (h : t.peers = s.peers) : SameEntry u s t := ⟨by rw [h], by rw [h]⟩

theorem sameEntry_peerAdd (hu : src ≠ u) (now : UInt64) : SameEntry u s (s.peerAdd src now) := by
  refine ⟨?_, rfl⟩
  have hget := get_peerAdd s.peers.peers src now u
  rwa [if_neg hu] at hget

/-- The entry of the sender is written back after its records. -/
theorem sameEntry_withPeers {p q : Peer} (hu : p.addr ≠ u) (h : Kept (p, s) (q, t)) :
    SameEntry u s (t.withPeers (t.peers.peers.set q)) := by
  have hrest : t = { s with sync := t.sync } := h.rest
  have hpeers : t.peers = s.peers := by rw [hrest]
  have haddr : q.addr ≠ u := fun he => hu (h.addr.symm.trans he)
  constructor
  · show (t.peers.peers.set q).get u = _
    rw [Peers.get_set, if_neg haddr, hpeers]
  · show t.peers.timeout = _
    rw [hpeers]

theorem sameEntry_rxAction (hu : src ≠ u) (list : ChanSeq) (frame : Buf) (rssi : Int8) (tsft : UInt64) :
    SameEntry u s (rxAction list frame rssi tsft src s).2 := by
  unfold rxAction
  cases parseActionHdr frame with
  | none => exact .of_peers rfl
  | some subtype =>
    dsimp only
    split_ifs with hweak
    · exact .of_peers rfl
    · have hcount : SameEntry u s s.countAction := .of_peers rfl
      have hadd : SameEntry u s (s.countAction.peerAdd src tsft) := hcount.trans (sameEntry_peerAdd hu tsft)
      cases hget : (s.countAction.peerAdd src tsft).peers.peers.get src with
      | none => exact hadd
      | some p =>
        have hp : p.addr ≠ u := (Peers.get_eq_some.mp hget).2 ▸ hu
        have hkept := keeps_tlvLoop list tsft (frame.drop 16) (p, s.countAction.peerAdd src tsft)
        dsimp only
        generalize tlvLoop list tsft (frame.drop 16) (p, s.countAction.peerAdd src tsft) = r at hkept ⊢
        obtain ⟨e | rest, q, t⟩ := r
        · exact hadd.trans (sameEntry_withPeers hp hkept)
        · dsimp only
          split_ifs with hrest
          · exact hadd.trans (sameEntry_withPeers hp hkept)
          · have hmif : Kept (p, s.countAction.peerAdd src tsft)
                ({ q with sentMif := q.sentMif || subtype = .mif, own := q.own }, t) :=
              ⟨hkept.addr, hkept.isValid, hkept.syncOffset, hkept.rest, hkept.regular⟩
            exact (hadd.trans (sameEntry_withPeers hp hmif)).trans (sameEntry_peerAdd hu tsft)

theorem rxDataAmsdu_peers (frame : Buf) : (rxDataAmsdu frame s).2.2.peers = s.peers := by
  induction hn : frame.length using Nat.strong_induction_on generalizing frame s with
  | _ n ih =>
    rw [rxDataAmsdu]
    split_ifs with h0
    · rfl
    · split
      · rfl
      · rename_i dst src len hhdr
        have hone := rxData_state (s := s) ((frame.drop 14).take len) src dst
        dsimp only
        split_ifs with hlen herr hend hpad
        · rfl
        all_goals rw [hone]
        · rfl
        · rfl
        · rfl
        · refine (ih _ ?_ _ rfl).trans rfl
          have := readSubframeHdr_length hhdr
          simp only [List.length_drop]
          omega

theorem sameEntry_rxFrame (list : ChanSeq) (frame : Buf) (rssi : Int8) (tsft : UInt64)
    (hu : readEtherAddr frame 10 ≠ some u) : SameEntry u s (rxFrame list frame rssi tsft s).2.2 := by
  have hdata : ∀ frame src dst, SameEntry u s (rxData frame src dst s).2.2 := by
    intro frame src dst
    rw [rxData_state]
    exact .of_peers rfl
  unfold rxFrame
  split
  · rename_i src _ _ _ hsrc _
    have hne : src ≠ u := by
      rintro rfl
      exact hu hsrc
    split_ifs
    · exact .of_peers rfl
    · exact sameEntry_rxAction hne ..
    · split
      · split_ifs
        · exact .of_peers (rxDataAmsdu_peers _)
        · exact hdata ..
      · exact .of_peers rfl
    · exact hdata ..
    · exact .of_peers rfl
  · exact .of_peers rfl

/-- **A frame writes the entry of its transmitter and no other**, whatever its bytes are. -/
theorem rx_other (radiotap : Buf → Option Radiotap) (list : ChanSeq) (frame : Buf) (now : UInt64)
    (hu : transmitter radiotap frame ≠ some u) : SameEntry u s (rx radiotap list frame now s).2.2 := by
  unfold rx
  cases hhdr : radiotap frame with
  | none => exact .of_peers rfl
  | some hdr =>
    dsimp only
    cases hbody : (readLe16 frame 2).bind fun len => strip frame len.toNat with
    | none => exact .of_peers rfl
    | some body =>
      dsimp only
      cases hfcs : checkFcs body hdr.flags with
      | none => exact .of_peers rfl
      | some air =>
        have hair : airFrame radiotap frame = some air := by
          simp only [airFrame, hhdr, Option.bind_eq_bind, Option.bind_some]
          rw [← Option.bind_assoc, hbody, Option.bind_some, hfcs]
        have hne : readEtherAddr air 10 ≠ some u := by
          rwa [transmitter, hair, Option.bind_some] at hu
        have hclock : SameEntry u s { s with rxClock := (rxClockTime s.rxClock hdr.tsft now).2 } :=
          .of_peers rfl
        exact hclock.trans (sameEntry_rxFrame list air hdr.rssi _ hne)

end Frames

/-! ### Runs -/

/-- The table is written by frames and by the cleaning only. -/
theorem Move.peers {s t : State} (h : Move False False s t) : t.peers = s.peers := by
  cases h with
  | evolve hR => exact hR.elim
  | adopt =>
    obtain ⟨sequence, he⟩ := adoptMasterChanseq_eq s
    rw [he]
    rfl
  | tune _ now actual selected =>
    obtain ⟨chan, he⟩ := switchChannel_eq s now actual selected
    rw [he]
  | count => rfl
  | elect hE => exact hE.elim

namespace Daemon

variable {radiotap : Buf → Option Radiotap} {d : Daemon} {u : EtherAddr}

/-- A cleaning for which a peer is too old. -/
def Event.forgets (timeout : UInt64) (p : Peer) : Event → Bool
  | .cleanPeers now => p.lastUpdate < now - timeout
  | _ => false

/-- A callback that is not for a frame of this node. -/
def Event.silent (radiotap : Buf → Option Radiotap) (u : EtherAddr) : Event → Prop
  | .receiveFrame _ frame _ => transmitter radiotap frame ≠ some u
  | _ => True

/-- A callback that neither receives nor cleans. -/
theorem step_peers {e : Event} (hclean : ∀ now, e ≠ .cleanPeers now)
    (hrx : ∀ list frame now, e ≠ .receiveFrame list frame now) :
    (d.step radiotap e).1.state.peers = d.state.peers := by
  have h := @step_moves radiotap d e
  have hno : (∃ now, e = .cleanPeers now) = False := eq_false fun ⟨now, hn⟩ => hclean now hn
  have hno' : (∃ list frame now, e = .receiveFrame list frame now) = False :=
    eq_false fun ⟨list, frame, now, hn⟩ => hrx list frame now hn
  rw [hno, hno'] at h
  exact h.invariant (I := fun t => t.peers = d.state.peers) (fun _ _ ht hm => hm.peers.trans ht) rfl

theorem receiveFrame_other (list : ChanSeq) (frame : Buf) (now : UInt64)
    (hu : transmitter radiotap frame ≠ some u) :
    SameEntry u d.state (d.receiveFrame radiotap list frame now).1.state := by
  have hrx := @rx_other u d.state radiotap list frame now hu
  unfold receiveFrame
  generalize rx radiotap list frame now d.state = r at hrx ⊢
  obtain ⟨result, frames, state⟩ := r
  dsimp only
  split_ifs
  · exact .of_peers rfl
  · obtain ⟨sequence, he⟩ := adoptMasterChanseq_eq state
    rw [he]
    exact hrx.trans (.of_peers rfl)
  · exact hrx
  · exact hrx.trans (.of_peers rfl)
  · exact hrx

/-- What a callback leaves of the entry of a node that it does not hear. -/
theorem step_silent {e : Event} (he : e.silent radiotap u) :
    (d.step radiotap e).1.state.peers.peers.get u =
        ((d.state.peers.peers.get u).filter fun p => !e.forgets d.state.peers.timeout p) ∧
      (d.step radiotap e).1.state.peers.timeout = d.state.peers.timeout := by
  have hkeep : ∀ t : State, SameEntry u d.state t → t.peers.peers.get u =
      ((d.state.peers.peers.get u).filter fun _ => !false) ∧ t.peers.timeout = d.state.peers.timeout := by
    intro t h
    refine ⟨h.entry.trans ?_, h.timeout⟩
    cases d.state.peers.peers.get u <;> rfl
  cases e with
  | receiveFrame list frame now => exact hkeep _ (receiveFrame_other list frame now he)
  | cleanPeers now =>
    obtain ⟨sequence, hadopt⟩ := adoptMasterChanseq_eq (d.state.elect now)
    show (d.state.elect now).adoptMasterChanseq.peers.peers.get u = _ ∧ _
    show _ ∧ (d.state.elect now).adoptMasterChanseq.peers.timeout = _
    rw [hadopt]
    refine ⟨?_, rfl⟩
    show (peersRemove d.state.peers.peers (now - d.state.peers.timeout)).1.get u = _
    rw [peersRemove, Peers.get_filter]
    refine congrArg (Option.filter · _) (funext fun p => ?_)
    rw [Event.forgets, decide_not]
  | hostDeviceReady frames now sent env => exact hkeep _ (.of_peers (step_peers (by simp) (by simp)))
  | sendUnicast env => exact hkeep _ (.of_peers (step_peers (by simp) (by simp)))
  | sendMulticast now sent => exact hkeep _ (.of_peers (step_peers (by simp) (by simp)))
  | switchChannel env => exact hkeep _ (.of_peers (step_peers (by simp) (by simp)))
  | sendPsf steadyTime now sent => exact hkeep _ (.of_peers (step_peers (by simp) (by simp)))
  | sendMif steadyTime now sent => exact hkeep _ (.of_peers (step_peers (by simp) (by simp)))

/-- **A node that is not heard**: over any run in which no frame has its address as the transmitter's,
whatever other frames say, its entry stays what it was, and is gone exactly if one of the cleanings
found it too old. -/
theorem run_silent {evs : List Event} (h : ∀ e ∈ evs, e.silent radiotap u) :
    (d.run radiotap evs).1.state.peers.peers.get u =
      (d.state.peers.peers.get u).filter fun p => !evs.any (Event.forgets d.state.peers.timeout p) := by
  induction evs generalizing d with
  | nil =>
    show d.state.peers.peers.get u = _
    cases d.state.peers.peers.get u <;> rfl
  | cons e evs ih =>
    obtain ⟨hentry, htimeout⟩ := @step_silent radiotap d u e (h e List.mem_cons_self)
    have hrest := @ih (d.step radiotap e).1 fun x hx => h x (List.mem_cons_of_mem e hx)
    rw [hentry, htimeout] at hrest
    refine Eq.trans hrest ?_
    rw [Option.filter_filter]
    refine congrArg (Option.filter · _) (funext fun p => ?_)
    rw [List.any_cons, Bool.not_or, Bool.and_comm]

/-- A peer that was heard at 7, and a cleaning at the last moment at which it is young enough. -/
theorem run_silent_one :
    let d := { fresh ⟨[2, 0, 0, 0, 0, 1], rfl⟩ with
      state := (fresh ⟨[2, 0, 0, 0, 0, 1], rfl⟩).state.peerAdd ⟨[2, 0, 0, 0, 0, 2], rfl⟩ 7 }
    (d.run (fun _ => none) [.receiveFrame (fun _ => chanNull) [] 8, .cleanPeers 2000007,
      .sendPsf 9 9 true]).1.state.peers.peers.get ⟨[2, 0, 0, 0, 0, 2], rfl⟩ =
        some ((peerNew ⟨[2, 0, 0, 0, 0, 2], rfl⟩).heardAt 7) := by
  intro d
  have hget : d.state.peers.peers.get ⟨[2, 0, 0, 0, 0, 2], rfl⟩ =
    some ((peerNew ⟨[2, 0, 0, 0, 0, 2], rfl⟩).heardAt 7) := rfl
  have htimeout : d.state.peers.timeout = 2000000 := rfl
  rw [run_silent (by simp [Event.silent, transmitter, airFrame]), hget, htimeout, Option.filter_some]
  exact if_pos (by decide)

end Daemon

end AquaTransport.Awdl
