import AquaTransport.Awdl.Receive

/-!
# AquaTransport.Awdl.Reception — what a frame can do to a node

Any frame at all: what comes from the air is not trusted.  A record changes the sender's entry, but
neither whose it is nor whether it is valid, and the clock (`Kept`); a frame adds to that at most an
entry for its sender.  So a frame keeps a node sound: `evolves_rx`.
-/

namespace AquaTransport.Awdl

variable {α β : Type}

/-! ### Records -/

/-- What no record changes. -/
structure Kept (s t : Peer × State) : Prop where
  addr : t.1.addr = s.1.addr
  isValid : t.1.isValid = s.1.isValid
  syncOffset : t.1.syncOffset = s.1.syncOffset
  rest : t.2 = { s.2 with sync := t.2.sync }
  regular : s.2.sync.Regular → t.2.sync.Regular

theorem Kept.refl (s : Peer × State) : Kept s s := ⟨rfl, rfl, rfl, rfl, id⟩

theorem Kept.trans {s t u : Peer × State} (h : Kept s t) (h' : Kept t u) : Kept s u where
  addr := h'.addr.trans h.addr
  isValid := h'.isValid.trans h.isValid
  syncOffset := h'.syncOffset.trans h.syncOffset
  rest := by
    rw [h'.rest, h.rest]
  regular := fun hr => h'.regular (h.regular hr)

/-- A handler whose every run, to its end or to an error, keeps these things. -/
def Keeps (m : Handler α) : Prop := ∀ s, Kept s (m s).2

theorem keeps_pure (a : α) : Keeps (pure a) := fun s => Kept.refl s

theorem keeps_fail (e : RxResult) : Keeps (Program.fail e : Handler α) := fun s => Kept.refl s

theorem keeps_orFail (o : Option α) (e : RxResult) : Keeps (Program.orFail o e) := by
  cases o with
  | none => exact keeps_fail e
  | some a => exact keeps_pure a

theorem keeps_check (b : Bool) (e : RxResult) : Keeps (Program.check b e) := by
  cases b with
  | false => exact keeps_fail e
  | true => exact keeps_pure ()

theorem Keeps.bind {m : Handler α} {f : α → Handler β} (hm : Keeps m) (hf : ∀ a, Keeps (f a)) :
    Keeps (m >>= f) := by
  intro s
  have h := hm s
  rcases hr : m s with ⟨e | a, t⟩
  · rw [hr] at h
    rwa [Program.bind_error hr]
  · rw [hr] at h
    rw [Program.bind_ok hr]
    exact h.trans (hf a t)

/-- The state that is read is the one the handler runs in. -/
theorem keeps_get {f : Peer × State → Handler α} (hf : ∀ s, Kept s (f s s).2) :
    Keeps (Program.get >>= f) := hf

theorem keeps_updatePeer {f : Peer → Peer} (h : ∀ p, (f p).addr = p.addr ∧ (f p).isValid = p.isValid ∧
    (f p).syncOffset = p.syncOffset) : Keeps (updatePeer f) := fun s =>
  ⟨(h s.1).1, (h s.1).2.1, (h s.1).2.2, rfl, id⟩

theorem keeps_updateElection {f : ElectionState → ElectionState}
    {hf : ∀ e, (f e).selfAddr = e.selfAddr} : Keeps (updateElection f hf) :=
  keeps_updatePeer fun _ => ⟨rfl, rfl, rfl⟩

/-- The end of most handlers. -/
theorem keeps_told {f : Peer → Peer} {a : α} (h : ∀ p, (f p).addr = p.addr ∧ (f p).isValid = p.isValid ∧
    (f p).syncOffset = p.syncOffset) : Keeps (updatePeer f >>= fun _ => pure a) :=
  (keeps_updatePeer h).bind fun _ => keeps_pure a

/-! The handlers. -/

theorem keeps_handleSyncParamsTlv (val : Buf) (now : UInt64) : Keeps (handleSyncParamsTlv val now) := by
  refine keeps_get ?_
  rintro ⟨src, state⟩
  dsimp only
  by_cases hm : (!state.election.isSyncMaster src.addr) = true
  · rw [if_pos hm]
    exact Kept.refl _
  · rw [if_neg hm]
    cases h1 : readLe16 val 1 with
    | none => exact Kept.refl _
    | some timeToNextAw =>
      cases h29 : readLe16 val 29 with
      | none => exact Kept.refl _
      | some awCounter =>
        refine ⟨rfl, rfl, rfl, rfl, fun hr => ?_⟩
        have hcount : ∀ err total : UInt64,
            SyncState.Regular { state.sync with measErr := err, measTotal := total } := fun _ _ =>
          ⟨hr.presenceMode, hr.awPeriod, hr.awCounter⟩
        exact (hcount _ _).updateLast _ timeToNextAw awCounter

theorem keeps_handleChanseqTlv (list : ChanSeq) (val : Buf) : Keeps (handleChanseqTlv list val) := by
  refine keeps_get fun s => ?_
  refine Keeps.bind (keeps_orFail _ _) (fun _ => ?_) s
  refine (keeps_check _ _).bind fun _ => (keeps_orFail _ _).bind fun _ => ?_
  refine (keeps_check _ _).bind fun _ => (keeps_orFail _ _).bind fun _ => ?_
  refine (keeps_check _ _).bind fun _ => (keeps_orFail _ _).bind fun _ => ?_
  refine (keeps_check _ _).bind fun _ => (keeps_orFail _ _).bind fun _ => ?_
  refine (keeps_orFail _ _).bind fun _ => (keeps_orFail _ _).bind fun _ => ?_
  exact keeps_told fun _ => ⟨rfl, rfl, rfl⟩

theorem keeps_handleElectionParamsTlv (val : Buf) : Keeps (handleElectionParamsTlv val) := by
  refine keeps_get ?_
  rintro ⟨src, state⟩
  dsimp only
  by_cases hv : src.supportsV2 = true
  · rw [if_pos hv]
    exact Kept.refl _
  · rw [if_neg hv]
    refine Keeps.bind (keeps_orFail _ _) (fun _ => keeps_updateElection.bind fun _ => ?_) _
    refine (keeps_orFail _ _).bind fun _ => keeps_updateElection.bind fun _ => ?_
    refine (keeps_orFail _ _).bind fun _ => keeps_updateElection.bind fun _ => ?_
    exact (keeps_orFail _ _).bind fun _ => keeps_updateElection.bind fun _ => keeps_pure _

theorem keeps_handleElectionParamsV2Tlv (val : Buf) : Keeps (handleElectionParamsV2Tlv val) := by
  refine (keeps_orFail _ _).bind fun _ => keeps_updateElection.bind fun _ => ?_
  refine (keeps_orFail _ _).bind fun _ => keeps_updateElection.bind fun _ => ?_
  refine (keeps_orFail _ _).bind fun _ => keeps_updateElection.bind fun _ => ?_
  refine (keeps_orFail _ _).bind fun _ => keeps_updateElection.bind fun _ => ?_
  refine (keeps_orFail _ _).bind fun _ => keeps_updateElection.bind fun _ => ?_
  refine (keeps_orFail _ _).bind fun _ => keeps_updateElection.bind fun _ => ?_
  refine (keeps_orFail _ _).bind fun _ => keeps_updateElection.bind fun _ => ?_
  exact keeps_told fun _ => ⟨rfl, rfl, rfl⟩

theorem keeps_handleArpaTlv (val : Buf) : Keeps (handleArpaTlv val) := by
  refine (keeps_orFail _ _).bind fun _ => ?_
  exact keeps_told fun _ => ⟨rfl, rfl, rfl⟩

theorem Keeps.handleFlagged {field : Handler Unit} (h : Keeps field) (flags flag : UInt16)
    (size offset : ℕ) : Keeps (handleFlagged flags flag size offset field) := by
  unfold Awdl.handleFlagged
  split
  · exact keeps_pure _
  · exact h.bind fun _ => keeps_pure _

theorem keeps_handleDataPathStateTlv (val : Buf) : Keeps (handleDataPathStateTlv val) := by
  have hskip : ∀ {γ : Type} (o : Option γ), Keeps (do let _ ← read o) := fun o =>
    (keeps_orFail o _).bind fun _ => keeps_pure _
  refine (keeps_orFail _ _).bind fun flags => ?_
  refine (Keeps.handleFlagged ?_ _ _ _ _).bind fun _ => ?_
  · refine (keeps_orFail _ _).bind fun _ => ?_
    exact keeps_updatePeer fun _ => ⟨rfl, rfl, rfl⟩
  refine ((hskip _).handleFlagged _ _ _ _).bind fun _ => ?_
  refine (Keeps.handleFlagged ?_ _ _ _ _).bind fun _ => ?_
  · exact (keeps_orFail _ _).bind fun _ => hskip _
  refine (Keeps.handleFlagged ?_ _ _ _ _).bind fun _ => ?_
  · refine (keeps_orFail _ _).bind fun _ => ?_
    exact keeps_updatePeer fun _ => ⟨rfl, rfl, rfl⟩
  exact ((hskip _).handleFlagged _ _ _ _).bind fun _ => keeps_pure _

theorem keeps_handleVersionTlv (val : Buf) : Keeps (handleVersionTlv val) := by
  refine (keeps_orFail _ _).bind fun _ => (keeps_orFail _ _).bind fun _ => ?_
  exact keeps_told fun _ => ⟨rfl, rfl, rfl⟩

theorem keeps_handleTlv (list : ChanSeq) (type : UInt8) (val : Buf) (tsft : UInt64) :
    Keeps (handleTlv list type val tsft) := by
  unfold handleTlv
  split_ifs
  · exact keeps_handleSyncParamsTlv val tsft
  · exact keeps_handleChanseqTlv list val
  · exact keeps_handleElectionParamsTlv val
  · exact keeps_handleElectionParamsV2Tlv val
  · exact keeps_handleArpaTlv val
  · exact keeps_handleDataPathStateTlv val
  · exact keeps_handleVersionTlv val
  · exact keeps_pure _

theorem keeps_tlvLoop (list : ChanSeq) (tsft : UInt64) (frame : Buf) : Keeps (tlvLoop list tsft frame) := by
  induction hn : frame.length using Nat.strong_induction_on generalizing frame with
  | _ n ih =>
    rw [tlvLoop]
    split
    · exact keeps_pure _
    · rename_i type value h
      have hlt := lt_length_of_readTlv h
      refine (keeps_handleTlv list type value tsft).bind fun _ => ih _ ?_ _ rfl
      rw [List.length_drop]
      omega

/-! ### Frames -/

/-- What holds of a node in every state it gets into. -/
structure State.Sound (state : State) : Prop where
  mirrors : Mirrors state.calls state.peers.peers
  regular : state.sync.Regular
  aligned : ∀ a p, state.peers.peers.get a = some p → p.syncOffset = 0

/-- What a frame may change, and what it keeps. -/
structure Evolves (s t : State) : Prop where
  rest : t = { s with
    sync := t.sync
    rxClock := t.rxClock
    peers := { s.peers with peers := t.peers.peers }
    calls := t.calls
    stats := t.stats }
  sound : s.Sound → t.Sound

theorem Evolves.refl (s : State) : Evolves s s := ⟨rfl, id⟩

theorem Evolves.trans {s t u : State} (h : Evolves s t) (h' : Evolves t u) : Evolves s u where
  rest := by
    rw [h'.rest, h.rest]
  sound := fun hs => h'.sound (h.sound hs)

section Frames

variable {s : State}

theorem evolves_countAction : Evolves s s.countAction := ⟨rfl, fun h => ⟨h.mirrors, h.regular, h.aligned⟩⟩

theorem evolves_countData : Evolves s s.countData := ⟨rfl, fun h => ⟨h.mirrors, h.regular, h.aligned⟩⟩

theorem evolves_peerAdd (addr : EtherAddr) (now : UInt64) : Evolves s (s.peerAdd addr now) where
  rest := rfl
  sound := fun h =>
    { mirrors := h.mirrors.peerAdd addr now
      regular := h.regular
      aligned := by
        intro a p hp
        rw [show (s.peerAdd addr now).peers.peers.get a = _ from get_peerAdd s.peers.peers addr now a] at hp
        by_cases ha : addr = a
        · rw [if_pos ha] at hp
          obtain rfl := Option.some.inj hp
          cases hold : s.peers.peers.get addr with
          | none => rfl
          | some q =>
            rw [refreshed_some]
            exact h.aligned addr q hold
        · rw [if_neg ha] at hp
          exact h.aligned a p hp }

/-- The entry of a sender is written back after its records. -/
theorem evolves_withPeers {p q : Peer} {t : State} {addr : EtherAddr}
    (hp : s.peers.peers.get addr = some p) (h : Kept (p, s) (q, t)) :
    Evolves s (t.withPeers (t.peers.peers.set q)) := by
  have hrest : t = { s with sync := t.sync } := h.rest
  have hpeers : t.peers = s.peers := by rw [hrest]
  have hcalls : t.calls = s.calls := by rw [hrest]
  have haddr : q.addr = addr := h.addr.trans (Peers.get_eq_some.mp hp).2
  refine ⟨?_, fun hs => ⟨?_, h.regular hs.regular, fun a r hr => ?_⟩⟩
  · rw [hrest]
    rfl
  · show Mirrors t.calls (t.peers.peers.set q)
    rw [hpeers, hcalls]
    exact hs.mirrors.set (haddr ▸ hp) h.isValid
  · rw [show (t.withPeers (t.peers.peers.set q)).peers.peers.get a = _ from Peers.get_set a, hpeers] at hr
    by_cases ha : q.addr = a
    · rw [if_pos ha, ← ha, haddr, hp, Option.map_some] at hr
      obtain rfl := Option.some.inj hr
      exact h.syncOffset.trans (hs.aligned addr p hp)
    · rw [if_neg ha] at hr
      exact hs.aligned a r hr

theorem evolves_rxAction (list : ChanSeq) (frame : Buf) (rssi : Int8) (tsft : UInt64) (src : EtherAddr) :
    Evolves s (rxAction list frame rssi tsft src s).2 := by
  unfold rxAction
  cases parseActionHdr frame with
  | none => exact .refl s
  | some subtype =>
    dsimp only
    split_ifs with hweak
    · exact .refl s
    · have hadd : Evolves s (s.countAction.peerAdd src tsft) :=
        evolves_countAction.trans (evolves_peerAdd src tsft)
      cases hget : (s.countAction.peerAdd src tsft).peers.peers.get src with
      | none => exact hadd
      | some p =>
        have hkept := keeps_tlvLoop list tsft (frame.drop 16) (p, s.countAction.peerAdd src tsft)
        dsimp only
        generalize tlvLoop list tsft (frame.drop 16) (p, s.countAction.peerAdd src tsft) = r at hkept ⊢
        obtain ⟨e | rest, q, t⟩ := r
        · exact hadd.trans (evolves_withPeers hget hkept)
        · dsimp only
          split_ifs with hrest
          · exact hadd.trans (evolves_withPeers hget hkept)
          · have hmif : Kept (p, s.countAction.peerAdd src tsft)
                ({ q with sentMif := q.sentMif || subtype = .mif, own := q.own }, t) :=
              ⟨hkept.addr, hkept.isValid, hkept.syncOffset, hkept.rest, hkept.regular⟩
            exact (hadd.trans (evolves_withPeers hget hmif)).trans (evolves_peerAdd src tsft)

theorem rxData_state (frame : Buf) (src dst : EtherAddr) : (rxData frame src dst s).2.2 = s.countData := by
  unfold rxData
  dsimp only
  split
  · rfl
  · split_ifs <;> rfl

theorem evolves_rxDataAmsdu (frame : Buf) : Evolves s (rxDataAmsdu frame s).2.2 := by
  induction hn : frame.length using Nat.strong_induction_on generalizing frame s with
  | _ n ih =>
    rw [rxDataAmsdu]
    split_ifs with h0
    · exact .refl s
    · split
      · exact .refl s
      · rename_i dst src len hhdr
        have hone := rxData_state (s := s) ((frame.drop 14).take len) src dst
        dsimp only
        split_ifs with hlen herr hend hpad
        · exact .refl s
        all_goals rw [hone]
        · exact evolves_countData
        · exact evolves_countData
        · exact evolves_countData
        · refine evolves_countData.trans (ih _ ?_ _ rfl)
          have := readSubframeHdr_length hhdr
          simp only [List.length_drop]
          omega

theorem evolves_rxFrame (list : ChanSeq) (frame : Buf) (rssi : Int8) (tsft : UInt64) :
    Evolves s (rxFrame list frame rssi tsft s).2.2 := by
  have hdata : ∀ frame src dst, Evolves s (rxData frame src dst s).2.2 := fun frame src dst => by
    rw [rxData_state]
    exact evolves_countData
  unfold rxFrame
  split
  · split_ifs
    · exact .refl s
    · exact evolves_rxAction ..
    · split
      · split_ifs
        · exact evolves_rxDataAmsdu _
        · exact hdata ..
      · exact .refl s
    · exact hdata ..
    · exact .refl s
  · exact .refl s

/-- **Whatever comes from the air**, a node stays sound, and keeps all that is its own. -/
theorem evolves_rx (radiotap : Buf → Option Radiotap) (list : ChanSeq) (frame : Buf) (now : UInt64) :
    Evolves s (rx radiotap list frame now s).2.2 := by
  have hclock : ∀ clock, Evolves s { s with rxClock := clock } := fun clock =>
    ⟨rfl, fun h => ⟨h.mirrors, h.regular, h.aligned⟩⟩
  unfold rx
  cases radiotap frame with
  | none => exact .refl s
  | some hdr =>
    dsimp only
    split
    · exact hclock _
    · split
      · exact hclock _
      · exact (hclock _).trans (evolves_rxFrame ..)

end Frames

end AquaTransport.Awdl
