import AquaTransport.Awdl.Transmit

/-!
# AquaTransport.Awdl.ActionFrame — what a node hears of another one's action frame

The frame that `initFullActionFrame` builds, received by another node, is taken apart by `rxFrame` into
what the sender's state said: `rxFrame_actionFrame`.
-/

namespace AquaTransport.Awdl

variable {α β : Type}

/-! ### Running a handler -/

theorem run_read {a : α} {f : α → Handler β} {s : Peer × State} :
    (read (some a) >>= f) s = f a s := Program.bind_ok rfl

theorem run_orFail {a : α} {e : RxResult} {f : α → Handler β} {s : Peer × State} :
    ((Program.orFail (some a) e : Handler α) >>= f) s = f a s := Program.bind_ok rfl

theorem run_get {f : Peer × State → Handler β} {s : Peer × State} :
    (Program.get >>= f) s = f s s := Program.bind_ok rfl

theorem run_check {e : RxResult} {f : Unit → Handler β} {s : Peer × State} :
    (Program.check true e >>= f) s = f () s := Program.bind_ok rfl

theorem run_flagged {flags flag : UInt16} {size offset : ℕ} {field : Handler Unit} {f : ℕ → Handler β}
    {s t : Peer × State} (h : flags &&& flag ≠ 0) (hfield : field s = (.ok (), t)) :
    (handleFlagged flags flag size offset field >>= f) s = f (offset + size) t := by
  have hrun : handleFlagged flags flag size offset field s = (.ok (offset + size), t) := by
    rw [handleFlagged, if_neg h, Program.bind_ok hfield]
    rfl
  exact Program.bind_ok hrun

theorem run_unflagged {flags flag : UInt16} {size offset : ℕ} {field : Handler Unit}
    {f : ℕ → Handler β} {s : Peer × State} (h : flags &&& flag = 0) :
    (handleFlagged flags flag size offset field >>= f) s = f offset s := by
  rw [handleFlagged, if_pos h]
  rfl

/-! ### Records -/

theorem readTlv_tlv {type : UInt8} {value r : Buf} (h : value.length < 2 ^ 16) :
    readTlv (tlv type value ++ r) = some (type, value) := by
  have hlen : (UInt16.ofNat value.length).toNat = value.length := UInt16.toNat_ofNat_of_lt' h
  have h0 : readU8 (tlv type value ++ r) 0 = some type := rfl
  have h1 : readLe16 (tlv type value ++ r) 1 = some (UInt16.ofNat value.length) := by
    simp [tlv, readLe16]
  have h3 : readBytes (tlv type value ++ r) 3 value.length = some value := by
    have hhdr : (type :: le16 (UInt16.ofNat value.length)).length = 3 := by simp
    rw [tlv, List.cons_append, List.append_assoc, ← List.cons_append, readBytes_skip hhdr.le, hhdr]
    exact readBytes_append rfl
  simp only [readTlv, h0, h1, hlen, h3, Option.bind_eq_bind, Option.bind_some]

theorem length_tlv (type : UInt8) (value : Buf) : (tlv type value).length = value.length + 3 := by
  rw [tlv, List.length_cons, List.length_append, length_le16]
  omega

theorem tlvLoop_nil (list : ChanSeq) (tsft : UInt64) : tlvLoop list tsft [] = pure [] := by
  rw [tlvLoop]
  rfl

theorem tlvLoop_of_readTlv {list : ChanSeq} {tsft : UInt64} {frame value : Buf} {type : UInt8}
    (h : readTlv frame = some (type, value)) : tlvLoop list tsft frame =
      handleTlv list type value tsft >>= fun _ => tlvLoop list tsft (frame.drop (value.length + 3)) := by
  rw [tlvLoop]
  split
  · rename_i h'
    exact absurd (h.symm.trans h') (by simp)
  · rename_i h'
    obtain ⟨rfl, rfl⟩ := Prod.mk.inj (Option.some.inj (h.symm.trans h'))
    rfl

/-- A record that its handler accepts. -/
theorem tlvLoop_tlv {list : ChanSeq} {tsft : UInt64} {type : UInt8} {value r : Buf}
    {s t : Peer × State} {result : RxResult} (hlen : value.length < 2 ^ 16)
    (h : handleTlv list type value tsft s = (.ok result, t)) :
    tlvLoop list tsft (tlv type value ++ r) s = tlvLoop list tsft r t := by
  rw [tlvLoop_of_readTlv (readTlv_tlv hlen), Program.bind_ok h, ← length_tlv type value, List.drop_left]

/-! ### What each record of a frame tells -/

section Records

variable {list : ChanSeq} {tsft now : UInt64} {p : Peer} {b : State} (a : State)

/-- The election state of the sender, as its peer keeps it. -/
def Peer.withElection (p : Peer) (e : ElectionState) : Peer :=
  { p with
    election := { e with selfAddr := p.election.selfAddr }
    own := p.own
    supportsV2 := true }

theorem run_electionParamsV2 : ∃ value, initElectionParamsV2Tlv a = tlv electionParametersV2Tlv value ∧
    value.length < 2 ^ 16 ∧ handleTlv list electionParametersV2Tlv value tsft (p, b) =
      (.ok .ok, (p.withElection a.election, b)) := by
  refine ⟨_, rfl, by simp, ?_⟩
  generalize a.election = e
  set val := e.masterAddr.octets ++ (e.syncAddr.octets ++ (le32 e.masterCounter ++
    (le32 e.height ++ (le32 e.masterMetric ++ (le32 e.selfMetric ++ (le32 0 ++ (le32 0 ++
    le32 e.selfCounter))))))) with hval
  have h16 : readLe32 val 16 = some e.height := by
    simp [hval, readLe32]
  have h0 : readEtherAddr val 0 = some e.masterAddr := by simp [hval, readEtherAddr]
  have h6 : readEtherAddr val 6 = some e.syncAddr := by
    simp [hval, readEtherAddr]
  have h12 : readLe32 val 12 = some e.masterCounter := by
    simp [hval, readLe32]
  have h20 : readLe32 val 20 = some e.masterMetric := by
    simp [hval, readLe32]
  have h24 : readLe32 val 24 = some e.selfMetric := by
    simp [hval, readLe32]
  have h36 : readLe32 val 36 = some e.selfCounter := by
    simp [hval, readLe32]
  show handleElectionParamsV2Tlv val (p, b) = _
  rw [handleElectionParamsV2Tlv, h16, h0, h6, h12, h20, h24, h36]
  rfl

/-- The older election record, which only a peer that was not heard to know the newer one is read. -/
def Peer.withOldElection (p : Peer) (e : ElectionState) : Peer :=
  if p.supportsV2 then p
  else
    { p with
      election := { p.election with
        height := e.height.toUInt8.toUInt32
        masterAddr := e.masterAddr
        masterMetric := e.masterMetric
        selfMetric := e.selfMetric }
      own := p.own }

theorem Peer.withElection_withOldElection (e e' : ElectionState) :
    (p.withOldElection e).withElection e' = p.withElection e' := by
  unfold withOldElection
  split <;> rfl

theorem run_electionParams : ∃ value, initElectionParamsTlv a = tlv electionParametersTlv value ∧
    value.length < 2 ^ 16 ∧ handleTlv list electionParametersTlv value tsft (p, b) =
      (.ok .ok, (p.withOldElection a.election, b)) := by
  refine ⟨_, rfl, by simp, ?_⟩
  generalize a.election = e
  set val := [0] ++ (le16 0 ++ ([e.height.toUInt8, 0] ++ (e.masterAddr.octets ++
    (le32 e.masterMetric ++ (le32 e.selfMetric ++ [0, 0]))))) with hval
  have h3 : readU8 val 3 = some e.height.toUInt8 := rfl
  have h5 : readEtherAddr val 5 = some e.masterAddr := by
    simp [hval, readEtherAddr]
  have h11 : readLe32 val 11 = some e.masterMetric := by
    simp [hval, readLe32]
  have h15 : readLe32 val 15 = some e.selfMetric := by
    simp [hval, readLe32]
  show handleElectionParamsTlv val (p, b) = _
  rw [handleElectionParamsTlv, h3, h5, h11, h15, Peer.withOldElection]
  simp only [run_get]
  by_cases hv : p.supportsV2 = true
  · rw [if_pos hv, if_pos hv]
    rfl
  · rw [if_neg hv, if_neg hv]
    rfl

/-- The list as it is read: an encoding of one byte leaves the other one as it was. -/
def readBack (enc : ChanEncoding) (list seq : ChanSeq) : ChanSeq := fun i =>
  if enc = .simple then ⟨(seq i).val0, (list i).val1⟩ else seq i

theorem length_chanBytes (enc : ChanEncoding) (c : Chan) : (chanBytes enc c).length = enc.size := by
  cases enc <;> rfl

theorem length_flatMap_chanBytes (enc : ChanEncoding) (l : List Chan) :
    (l.flatMap (chanBytes enc)).length = l.length * enc.size := by
  induction l with
  | nil => simp
  | cons c l ih =>
    rw [List.flatMap_cons, List.length_append, length_chanBytes, ih, List.length_cons, Nat.succ_mul,
      Nat.add_comm]

theorem length_initChanseq_le (a : State) : (initChanseq a).length ≤ 38 := by
  have hsize : a.channel.enc.size ≤ 2 := by cases a.channel.enc <;> decide
  simp only [initChanseq, List.length_append, length_le16, List.length_cons, List.length_nil,
    length_flatMap_chanBytes, List.length_ofFn]
  omega

theorem readChanList_initChanseq (r : Buf) : readChanList (initChanseq a ++ r) a.channel.enc list =
    some (readBack a.channel.enc list a.channel.sequence) := by
  have hread : ∀ i : Fin 16, readChan (initChanseq a ++ r) a.channel.enc (list i)
      (6 + i * a.channel.enc.size) = some (readBack a.channel.enc list a.channel.sequence i) := by
    intro i
    have hi : (i : ℕ) < (List.ofFn a.channel.sequence).length := by simp
    have hb : readBytes (initChanseq a ++ r) (6 + i * a.channel.enc.size) a.channel.enc.size =
        some (chanBytes a.channel.enc (a.channel.sequence i)) := by
      rw [initChanseq, List.append_assoc, List.append_assoc, readBytes_skip (by simp; omega),
        readBytes_skip (by simp; omega)]
      have ho : 6 + i * a.channel.enc.size - [15, a.channel.enc.toByte, 0, 3].length -
          (le16 0xffff).length = i * a.channel.enc.size := by
        simp
        omega
      rw [ho, readBytes_flatMap (length_chanBytes _) hi, List.getElem_ofFn]
    rw [readChan, hb, readBack]
    cases a.channel.enc <;> rfl
  rw [readChanList, dif_pos fun i => by rw [hread i]; rfl]
  exact congrArg some (funext fun i => by simp [hread i])

def Peer.withSequence (p : Peer) (list : ChanSeq) : Peer := { p with sequence := list, own := p.own }

theorem run_chanseq (hpm : b.sync.presenceMode = 4) : ∃ value,
    initChanseqTlv a = tlv chanSeqTlv value ∧ value.length < 2 ^ 16 ∧
      handleTlv list chanSeqTlv value tsft (p, b) =
        (.ok .ok, (p.withSequence (readBack a.channel.enc list a.channel.sequence), b)) := by
  refine ⟨_, rfl, ?_, ?_⟩
  · have := length_initChanseq_le a
    simp only [List.length_append, List.length_cons, List.length_nil]
    omega
  · have hlist := @readChanList_initChanseq list a [0, 0, 0]
    set val := initChanseq a ++ [0, 0, 0] with hval
    have h0 : readU8 val 0 = some 15 := rfl
    have h1 : readU8 val 1 = some a.channel.enc.toByte := rfl
    have h2 : readU8 val 2 = some 0 := rfl
    have h3 : readU8 val 3 = some 3 := rfl
    have h4 : readLe16 val 4 = some 0xffff := by
      simp [hval, initChanseq, readLe16]
    have henc : ChanEncoding.ofByte a.channel.enc.toByte = some a.channel.enc := by
      cases a.channel.enc <;> rfl
    show handleChanseqTlv list val (p, b) = _
    simp only [handleChanseqTlv, h0, h1, h2, h3, h4, run_get, run_read, hpm, UInt8.reduceToNat,
      Nat.reduceAdd, decide_true, run_check, henc, run_orFail, hlist]
    rfl

theorem run_arpa : ∃ value, initArpaTlv a = tlv arpaTlv value ∧ value.length < 2 ^ 16 ∧
    handleTlv list arpaTlv value tsft (p, b) = (.ok .ok, ({ p with name := a.name, own := p.own }, b)) := by
  have hname := a.nameFits
  refine ⟨_, rfl, ?_, ?_⟩
  · simp
    omega
  · set val := [3, UInt8.ofNat a.name.length] ++ (a.name ++ be16 0xc00c) with hval
    have h1 : readU8 val 1 = some (UInt8.ofNat a.name.length) := rfl
    have hmin : min (UInt8.ofNat a.name.length).toNat hostNameLengthMax = a.name.length := by
      rw [UInt8.toNat_ofNat', hostNameLengthMax]
      omega
    have hstr : readIntString val 1 hostNameLengthMax = some a.name := by
      simp only [readIntString, h1, Option.bind_eq_bind, Option.bind_some, hmin]
      simp [hval]
    show handleArpaTlv val (p, b) = _
    rw [handleArpaTlv, hstr]
    rfl

theorem run_dataPathState : ∃ value, initDataPathStateTlv a = tlv dataPathStateTlv value ∧
    value.length < 2 ^ 16 ∧ handleTlv list dataPathStateTlv value tsft (p, b) =
      (.ok .ok, ({ p with countryCode := [88, 48, 0], own := p.own }, b)) := by
  refine ⟨_, rfl, by simp, ?_⟩
  set val := le16 0x8f24 ++ ([88, 48, 0] ++ (le16 (socialChannels a) ++
    (a.selfAddress.octets ++ le16 0))) with hval
  have h0 : readLe16 val 0 = some 0x8f24 := by simp [hval, readLe16]
  have h2 : readBytes val 2 3 = some [88, 48, 0] := by
    rw [hval, readBytes_skip (by simp), length_le16]
    exact readBytes_append rfl
  have h5 : readLe16 val 5 = some (socialChannels a) := by simp [hval, readLe16]
  have h7 : readEtherAddr val 7 = some a.selfAddress := by simp [hval, readEtherAddr]
  show handleDataPathStateTlv val (p, b) = _
  rw [handleDataPathStateTlv, h0, run_read, run_flagged (by decide) (by rw [h2]; rfl),
    run_flagged (by decide) (by rw [h5]; rfl), run_unflagged (by decide), run_unflagged (by decide),
    run_flagged (by decide) (by rw [h7]; rfl)]
  rfl

theorem run_version : ∃ value, initVersionTlv a = tlv versionTlv value ∧ value.length < 2 ^ 16 ∧
    handleTlv list versionTlv value tsft (p, b) =
      (.ok .ok, ({ p with version := a.version, devclass := a.devClass, own := p.own }, b)) :=
  ⟨_, rfl, by simp, rfl⟩

/-- What a node's clock becomes at the record of its sync master, and of nobody else. -/
def State.synced (b : State) (src : EtherAddr) (tsft : UInt64) (timeToNextAw awCounter : UInt16) : State :=
  if b.election.isSyncMaster src then
    let err := b.sync.errorTu tsft timeToNextAw awCounter
    let measErr := if err > syncThreshold ∨ err < -syncThreshold then b.sync.measErr + 1
      else b.sync.measErr
    let sync := { b.sync with measTotal := b.sync.measTotal + 1, measErr := measErr }
    { b with sync := sync.updateLast tsft timeToNextAw awCounter }
  else b

theorem run_syncParams : ∃ value,
    initSyncParamsTlv now a = tlv synchronizatonParametersTlv value ∧ value.length < 2 ^ 16 ∧
    ∃ result, handleTlv list synchronizatonParametersTlv value tsft (p, b) =
      (.ok result, (p, b.synced p.addr tsft (a.sync.nextAwTu now) (a.sync.currentAw now))) := by
  refine ⟨_, rfl, ?_, ?_⟩
  · have := length_initChanseq_le a
    simp only [List.length_append, List.length_cons, List.length_nil, length_le16, EtherAddr.length_eq]
    omega
  · generalize hval : [chanNum a.channel.current a.channel.enc] ++ _ = val
    have h1 : readLe16 val 1 = some (a.sync.nextAwTu now) := by simp [← hval, readLe16]
    have h29 : readLe16 val 29 = some (a.sync.currentAw now) := by simp [← hval, readLe16]
    by_cases hm : b.election.isSyncMaster p.addr = true
    · refine ⟨.ok, ?_⟩
      show handleSyncParamsTlv val tsft (p, b) = _
      simp only [handleSyncParamsTlv, run_get, hm, State.synced, h1, h29]
      rfl
    · refine ⟨.ignore, ?_⟩
      show handleSyncParamsTlv val tsft (p, b) = _
      simp only [handleSyncParamsTlv, run_get, State.synced, hm]
      rfl

/-- A record that no handler reads. -/
theorem run_other {type : UInt8} {value : Buf} (h : type = serviceParametersTlv ∨
    type = enhancedDataRateCapabilitiesTlv) :
    handleTlv list type value tsft (p, b) = (.ok .ignore, (p, b)) := by
  rcases h with rfl | rfl <;> rfl

/-- All that a frame tells of its sender. -/
def Peer.told (p : Peer) (a : State) (type : ActionType) (list : ChanSeq) : Peer :=
  { p.withElection a.election with
    sequence := readBack a.channel.enc list a.channel.sequence
    name := if type = .mif then a.name else p.name
    countryCode := [88, 48, 0]
    version := a.version
    devclass := a.devClass }

theorem synced_presenceMode (src : EtherAddr) (ttna awc : UInt16) :
    (b.synced src tsft ttna awc).sync.presenceMode = b.sync.presenceMode := by
  unfold State.synced
  split <;> rfl

/-- The records of a frame, from the first to the last. -/
theorem tlvLoop_actionTlvs (type : ActionType) (hpm : b.sync.presenceMode = 4) :
    tlvLoop list tsft (actionTlvs a type now) (p, b) = (.ok [], (p.told a type list,
      b.synced p.addr tsft (a.sync.nextAwTu now) (a.sync.currentAw now))) := by
  set b' := b.synced p.addr tsft (a.sync.nextAwTu now) (a.sync.currentAw now) with hb'
  have hpm' : b'.sync.presenceMode = 4 := (synced_presenceMode p.addr _ _).trans hpm
  obtain ⟨v1, he1, hl1, r, h1⟩ := @run_syncParams list tsft now p b a
  obtain ⟨v2, he2, hl2, h2⟩ := @run_electionParams list tsft p b' a
  obtain ⟨v3, he3, hl3, h3⟩ := @run_chanseq list tsft (p.withOldElection a.election) b' a hpm'
  set seq := readBack a.channel.enc list a.channel.sequence with hseq
  set p3 := (p.withOldElection a.election).withSequence seq with hp3
  obtain ⟨v4, he4, hl4, h4⟩ := @run_electionParamsV2 list tsft p3 b' a
  have hp4 : p3.withElection a.election = (p.withElection a.election).withSequence seq :=
    congrArg (Peer.withSequence · seq) (Peer.withElection_withOldElection a.election a.election)
  set p4 := p3.withElection a.election
  -- the name is in the frames of one kind only
  have hmif : ∀ r, tlvLoop list tsft ((if type = .mif then initHtCapabilitiesTlv else []) ++
      ((if type = .mif then initArpaTlv a else []) ++ r)) (p4, b') =
      tlvLoop list tsft r ({ p4 with
        name := if type = .mif then a.name else p4.name
        own := p4.own }, b') := by
    intro r
    cases type with
    | psf => rfl
    | mif =>
      obtain ⟨v7, he7, hl7, h7⟩ := @run_arpa list tsft p4 b' a
      rw [if_pos rfl, if_pos rfl, if_pos rfl, initHtCapabilitiesTlv,
        tlvLoop_tlv (by simp) (run_other (.inr rfl)), he7, tlvLoop_tlv hl7 h7]
  set p7 : Peer := { p4 with
    name := if type = .mif then a.name else p4.name
    own := p4.own } with hp7
  obtain ⟨v8, he8, hl8, h8⟩ := @run_dataPathState list tsft p7 b' a
  obtain ⟨v9, he9, hl9, h9⟩ :=
    @run_version list tsft { p7 with countryCode := [88, 48, 0], own := p7.own } b' a
  rw [actionTlvs, he1, tlvLoop_tlv hl1 h1, he2, tlvLoop_tlv hl2 h2, he3, tlvLoop_tlv hl3 h3, he4,
    tlvLoop_tlv hl4 h4, initServiceParamsTlv, tlvLoop_tlv (by simp) (run_other (.inl rfl)), hmif, he8,
    tlvLoop_tlv hl8 h8, he9, ← List.append_nil (tlv versionTlv v9), tlvLoop_tlv hl9 h9, tlvLoop_nil]
  rw [hp7, hp4]
  rfl

/-! ### The frame -/

/-- The entry of the sender after its frame, when `old` was there before. -/
structure Heard (type : ActionType) (old : Option Peer) (p : Peer) : Prop where
  election : p.election = a.election
  sequence : p.sequence = readBack a.channel.enc list a.channel.sequence
  name : type = .mif → p.name = a.name
  version : p.version = a.version
  devclass : p.devclass = a.devClass
  supportsV2 : p.supportsV2 = true
  lastUpdate : p.lastUpdate = tsft
  sentMif : p.sentMif = true ↔ type = .mif ∨ ∃ q, old = some q ∧ q.sentMif = true
  isValid : p.isValid = true ↔ (∃ q, old = some q ∧ (q.isValid = true ∨ peerIsValid q = true)) ∨
    (p.sentMif = true ∧ a.devClass ≠ 0 ∧ a.version ≠ 0)

/-- What a frame of `a` makes of `b`: an entry of the table and, if `a` is its sync master, the clock. -/
structure Hears (type : ActionType) (b b' : State) : Prop where
  entry : ∃ p, b'.peers.peers.get a.selfAddress = some p ∧
    @Heard list tsft a type (b.peers.peers.get a.selfAddress) p
  others : ∀ u, u ≠ a.selfAddress → b'.peers.peers.get u = b.peers.peers.get u
  rest : ∃ calls, b' = { ((b.countAction.synced a.selfAddress tsft (a.sync.nextAwTu now)
    (a.sync.currentAw now)).withPeers b'.peers.peers) with calls := calls }

theorem parseActionHdr_initAction (type : ActionType) (steadyTime : UInt64) (r : Buf) :
    parseActionHdr (initAction type steadyTime ++ r) = some type := by
  have h : (initAction type steadyTime).length = 16 := by simp [initAction, awdlOui]
  have h16 : readBytes (initAction type steadyTime ++ r) 0 16 = some (initAction type steadyTime) :=
    readBytes_append h
  have h1 : readBytes (initAction type steadyTime ++ r) 1 3 = some awdlOui := by
    rw [initAction, List.cons_append, readBytes_cons Nat.one_pos, List.append_assoc]
    exact readBytes_append rfl
  rw [parseActionHdr, h16, h1]
  cases type <;> rfl

/-- The clock does not depend on the table or the callbacks. -/
theorem synced_withPeers (src : EtherAddr) (ttna awc : UInt16) (peers : Peers)
    (calls : List NeighborCall) : State.synced { b.withPeers peers with calls := calls } src tsft ttna awc =
      { (b.synced src tsft ttna awc).withPeers peers with calls := calls } := by
  by_cases hm : b.election.isSyncMaster src = true
  · have hb : b.synced src tsft ttna awc = _ := if_pos hm
    rw [hb]
    exact if_pos hm
  · have hb : b.synced src tsft ttna awc = b := if_neg hm
    rw [hb]
    exact if_neg hm

/-- What the records tell, between the two times that the sender's entry is refreshed. -/
theorem heard_told (type : ActionType) (old : Option Peer) (hold : ∀ q, old = some q → q.addr = a.selfAddress)
    (p : Peer) (hp : p = refreshed old a.selfAddress tsft) :
    @Heard list tsft a type old (refreshed (some
      { p.told a type list with
        sentMif := (p.told a type list).sentMif || type = .mif
        own := (p.told a type list).own }) a.selfAddress tsft) := by
  have hpold : p.addr = a.selfAddress ∧
      (p.sentMif = true ↔ ∃ q, old = some q ∧ q.sentMif = true) ∧
      (p.isValid = true ↔ ∃ q, old = some q ∧ (q.isValid = true ∨ peerIsValid q = true)) := by
    subst hp
    cases old with
    | none => exact ⟨rfl, by simp [refreshed, Peer.heardAt, peerNew], by simp [refreshed, peerNew]⟩
    | some q =>
      exact ⟨by rw [refreshed_some]; exact hold q rfl, by simp [refreshed_some], by simp [refreshed_some]⟩
  obtain ⟨haddr, hmif, hval⟩ := hpold
  rw [refreshed_some]
  refine ⟨?_, rfl, fun h => if_pos h, rfl, rfl, rfl, rfl, ?_, ?_⟩
  · have he : p.election.selfAddr = a.election.selfAddr := p.own.trans (haddr.trans a.own.symm)
    show { a.election with selfAddr := p.election.selfAddr } = a.election
    rw [he]
  · show (p.sentMif || decide (type = .mif)) = true ↔ _
    rw [Bool.or_eq_true, hmif, decide_eq_true_eq, or_comm]
  · show (p.isValid || (_ && a.devClass != 0 && a.version != 0)) = true ↔ _
    simp only [Bool.or_eq_true, hval, Bool.and_eq_true, bne_iff_ne, and_assoc]

theorem rxAction_actionFrame (type : ActionType) (steadyTime : UInt64) (rssi : Int8)
    (hpm : b.sync.presenceMode = 4) (hweak : b.tooWeak a.selfAddress rssi = false) :
    ∃ b', rxAction list (initAction type steadyTime ++ actionTlvs a type now) rssi tsft a.selfAddress b =
      (.ok, b') ∧ @Hears list tsft now a type b b' := by
  set old := b.peers.peers.get a.selfAddress with hold
  have haddr : ∀ q, old = some q → q.addr = a.selfAddress := fun q hq => (Peers.get_eq_some.mp hq).2
  set s := b.countAction.peerAdd a.selfAddress tsft with hs
  set p := refreshed old a.selfAddress tsft with hp
  have hget : s.peers.peers.get a.selfAddress = some p := by
    have := get_peerAdd b.peers.peers a.selfAddress tsft a.selfAddress
    rwa [if_pos rfl] at this
  have hothers : ∀ u, u ≠ a.selfAddress → s.peers.peers.get u = b.peers.peers.get u := by
    intro u hu
    have := get_peerAdd b.peers.peers a.selfAddress tsft u
    rwa [if_neg (Ne.symm hu)] at this
  have hpaddr : p.addr = a.selfAddress := (Peers.get_eq_some.mp hget).2
  have hloop := @tlvLoop_actionTlvs list tsft now p s a type hpm
  set s' := s.synced p.addr tsft (a.sync.nextAwTu now) (a.sync.currentAw now) with hs'
  set told : Peer := { p.told a type list with
    sentMif := (p.told a type list).sentMif || type = .mif
    own := (p.told a type list).own } with htold
  have htaddr : told.addr = a.selfAddress := hpaddr
  have hpeers : s'.peers.peers = s.peers.peers := by
    rw [hs']
    unfold State.synced
    split <;> rfl
  have hset : (s'.peers.peers.set told).get a.selfAddress = some told := by
    rw [Peers.get_set, if_pos htaddr, hpeers, hget]
    rfl
  refine ⟨(s'.withPeers (s'.peers.peers.set told)).peerAdd a.selfAddress tsft, ?_, ?_, ?_, ?_⟩
  · rw [rxAction, parseActionHdr_initAction]
    simp only [hweak, Bool.false_eq_true, if_false, ← hs, hget]
    have hdrop : (initAction type steadyTime ++ actionTlvs a type now).drop 16 = actionTlvs a type now := by
      have h : (initAction type steadyTime).length = 16 := by simp [initAction, awdlOui]
      rw [← h, List.drop_left]
    simp only [hdrop, hloop, List.length_nil, gt_iff_lt, lt_irrefl, if_false]
    rfl
  · refine ⟨refreshed (some told) a.selfAddress tsft, ?_, heard_told a type old haddr p hp⟩
    have := get_peerAdd (s'.peers.peers.set told) a.selfAddress tsft a.selfAddress
    rwa [if_pos rfl, hset] at this
  · intro u hu
    refine (get_peerAdd (s'.peers.peers.set told) a.selfAddress tsft u).trans ?_
    rw [if_neg (Ne.symm hu), Peers.get_set, if_neg fun h => hu (h.symm.trans htaddr), hpeers, hothers u hu]
  · refine ⟨(peerAdd (s'.peers.peers.set told) a.selfAddress tsft).2.2 ++ s'.calls, ?_⟩
    have hsync := @synced_withPeers tsft b.countAction p.addr (a.sync.nextAwTu now) (a.sync.currentAw now)
      s.peers.peers s.calls
    have hs'' : s' = _ := hsync
    rw [← hpaddr, hs'']
    rfl

theorem rxFrame_actionFrame (ieee : Ieee80211State) (type : ActionType) (steadyTime : UInt64) (rssi : Int8)
    (hne : a.selfAddress ≠ b.selfAddress) (hpm : b.sync.presenceMode = 4)
    (hweak : b.tooWeak a.selfAddress rssi = false) :
    ∃ b', rxFrame list ((initFullActionFrame a ieee type steadyTime now).1.drop 9) rssi tsft b =
      (.ok, [], b') ∧ @Hears list tsft now a type b b' := by
  obtain ⟨b', hrx, hears⟩ := @rxAction_actionFrame list tsft now b a type steadyTime rssi hpm hweak
  refine ⟨b', ?_, hears⟩
  have hdrop : (initFullActionFrame a ieee type steadyTime now).1.drop 9 =
      initAwdlHdr a.selfAddress a.dst ieee 0x00d0 ++
        (initAction type steadyTime ++ actionTlvs a type now) := by
    have h : initRadiotapHeader.length = 9 := by simp [initRadiotapHeader]
    rw [initFullActionFrame, ← h, List.drop_left]
  generalize initAction type steadyTime ++ actionTlvs a type now = body at hdrop hrx
  rw [hdrop]
  have h0 : readLe16 (initAwdlHdr a.selfAddress a.dst ieee 0x00d0 ++ body) 0 = some 0x00d0 := by
    simp [initAwdlHdr, readLe16]
  have h4 : readEtherAddr (initAwdlHdr a.selfAddress a.dst ieee 0x00d0 ++ body) 4 = some a.dst := by
    simp [initAwdlHdr, readEtherAddr]
  have h10 : readEtherAddr (initAwdlHdr a.selfAddress a.dst ieee 0x00d0 ++ body) 10 =
      some a.selfAddress := by
    simp [initAwdlHdr, readEtherAddr]
  have h24 : strip (initAwdlHdr a.selfAddress a.dst ieee 0x00d0 ++ body) 24 = some body := by
    have h : (initAwdlHdr a.selfAddress a.dst ieee 0x00d0).length = 24 := by simp [initAwdlHdr]
    rw [strip, if_neg (by rw [List.length_append, h]; omega), ← h, List.drop_left]
  simp only [rxFrame, h0, h4, h10, h24, hne, if_false]
  rw [if_pos (by decide), hrx]

end Records

/-! ### From the radio -/

/-- A frame as a radio hands it over: after its header, and with the checksum that the header tells of. -/
structure OnAir (radiotap : Buf → Option Radiotap) (body frame : Buf) (hdr : Radiotap) : Prop where
  parsed : radiotap frame = some hdr
  good : hdr.flags &&& 0x40 = 0
  strips : ∃ len fcs, readLe16 frame 2 = some len ∧ strip frame len.toNat = some (body ++ fcs) ∧
    fcs.length = if hdr.flags &&& 0x10 = 0 then 0 else 4

theorem rx_onAir {radiotap : Buf → Option Radiotap} {body frame : Buf} {hdr : Radiotap}
    (h : OnAir radiotap body frame hdr) (list : ChanSeq) (now : UInt64) (b : State) :
    rx radiotap list frame now b = rxFrame list body hdr.rssi (rxClockTime b.rxClock hdr.tsft now).1
      { b with rxClock := (rxClockTime b.rxClock hdr.tsft now).2 } := by
  obtain ⟨len, fcs, hlen, hstrip, hfcs⟩ := h.strips
  have hcheck : checkFcs (body ++ fcs) hdr.flags = some body := by
    rw [checkFcs, if_neg (not_not.mpr h.good)]
    by_cases hf : hdr.flags &&& 0x10 = 0
    · rw [if_pos hf] at hfcs
      rw [if_neg (not_not.mpr hf), List.length_eq_zero_iff.mp hfcs, List.append_nil]
    · rw [if_neg hf] at hfcs
      rw [if_pos hf, take, List.length_append, hfcs, Nat.add_sub_cancel, List.take_left,
        if_neg (by omega)]
  rw [rx, h.parsed]
  simp only [hlen, Option.bind_some, hstrip, hcheck]

/-- What a node says about itself, another node that does not ignore it has in its table afterwards, and
nothing else of it changes but, at its sync master's frame, the clock. -/
theorem rx_actionFrame {radiotap : Buf → Option Radiotap} {frame : Buf} {hdr : Radiotap} {a b : State}
    {ieee : Ieee80211State} {type : ActionType} {steadyTime sent : UInt64}
    (hair : OnAir radiotap ((initFullActionFrame a ieee type steadyTime sent).1.drop 9) frame hdr)
    (hne : a.selfAddress ≠ b.selfAddress) (hpm : b.sync.presenceMode = 4)
    (hweak : b.tooWeak a.selfAddress hdr.rssi = false) (list : ChanSeq) (now : UInt64) :
    ∃ b', rx radiotap list frame now b = (.ok, [], b') ∧
      @Hears list (rxClockTime b.rxClock hdr.tsft now).1 sent a type
        { b with rxClock := (rxClockTime b.rxClock hdr.tsft now).2 } b' := by
  rw [rx_onAir hair]
  exact rxFrame_actionFrame a ieee type steadyTime hdr.rssi hne hpm hweak

/-- A radio that adds a header of four bytes and says nothing in it. -/
def plainRadio : Buf → Option Radiotap := fun _ => some {}

def plainFrame (body : Buf) : Buf := [0, 0, 4, 0] ++ body

theorem onAir_plain (body : Buf) : OnAir plainRadio body (plainFrame body) {} where
  parsed := rfl
  good := rfl
  strips := ⟨4, [], rfl, by
    rw [List.append_nil, strip, if_neg (by simp [plainFrame])]
    rfl, rfl⟩

end AquaTransport.Awdl
