import AquaTransport.Awdl.Clock
import AquaTransport.Awdl.Election
import AquaTransport.Awdl.Peers
import AquaTransport.Awdl.Sync
import AquaTransport.Lib.Program

/-!
# AquaTransport.Awdl.Receive — rx.c

A handler of a record reads its value and writes what it reads into the sender's peer at once, so that
a value that is too short leaves what was read before: handlers are programs that keep their state when
they fail.  They fail with the negative results.
-/

namespace AquaTransport.Awdl

/-- `enum RX_RESULT`. -/
inductive RxResult
  | ignorePeer
  | ignoreRssi
  | ignoreFailedCrc
  | ignoreFromSelf
  | ignore
  | ok
  | unexpectedFormat
  | unexpectedType
  | unexpectedValue
  | tooShort
deriving DecidableEq

def RxResult.code : RxResult → ℤ
  | ignorePeer => 6
  | ignoreRssi => 5
  | ignoreFailedCrc => 4
  | ignoreFromSelf => 2
  | ignore => 1
  | ok => 0
  | unexpectedFormat => -1
  | unexpectedType => -2
  | unexpectedValue | tooShort => -3

/-- A program over the sender's peer and the node. -/
abbrev Handler (α : Type) := Program (Peer × State) RxResult α

/-- The `CHECKED_READ` macros. -/
def read {α : Type} (o : Option α) : Handler α := Program.orFail o .tooShort

def updatePeer (f : Peer → Peer) : Handler Unit := Program.modify fun s => (f s.1, s.2)

/-- Write the election state the peer tells of itself; its own address is not part of it. -/
def updateElection (f : ElectionState → ElectionState)
    (hf : ∀ e, (f e).selfAddr = e.selfAddr) : Handler Unit :=
  updatePeer fun p => { p with election := f p.election, own := (hf p.election).trans p.own }

/-- `AWDL_SYNC_THRESHOLD`. -/
def syncThreshold : ℤ := 3

/-- `awdl_handle_sync_params_tlv`. -/
def handleSyncParamsTlv (val : Buf) (now : UInt64) : Handler RxResult := do
  let (src, state) ← Program.get
  if !state.election.isSyncMaster src.addr then return .ignore
  let timeToNextAw ← read (readLe16 val 1)
  let awCounter ← read (readLe16 val 29)
  let err := state.sync.errorTu now timeToNextAw awCounter
  let measErr := if err > syncThreshold ∨ err < -syncThreshold then state.sync.measErr + 1
    else state.sync.measErr
  let sync := { state.sync with measTotal := state.sync.measTotal + 1, measErr := measErr }
  Program.modify fun s => (s.1, { s.2 with sync := sync.updateLast now timeToNextAw awCounter })
  return .ok

/-- One channel of the list at an offset; `old` is what the array holds before. -/
def readChan (val : Buf) (enc : ChanEncoding) (old : Chan) (offset : ℕ) : Option Chan :=
  (readBytes val offset enc.size).map fun x =>
    match x with
    | a :: b :: _ => ⟨a, b⟩
    | [a] => ⟨a, old.val1⟩
    | [] => old

/-- The loop over the list, which fails if any of the reads does. -/
def readChanList (val : Buf) (enc : ChanEncoding) (list : ChanSeq) : Option ChanSeq :=
  if h : ∀ i : Fin 16, (readChan val enc (list i) (6 + i * enc.size)).isSome then
    some fun i => (readChan val enc (list i) (6 + i * enc.size)).get (h i)
  else none

/-- `awdl_handle_chanseq_tlv`; `list` is the array on the stack, which nothing initialises. -/
def handleChanseqTlv (list : ChanSeq) (val : Buf) : Handler RxResult := do
  let (_, state) ← Program.get
  let count ← read (readU8 val 0)
  Program.check (count.toNat + 1 = 16) .unexpectedValue
  let duplicateCount ← read (readU8 val 2)
  Program.check (duplicateCount = 0) .unexpectedValue
  let stepCount ← read (readU8 val 3)
  Program.check (stepCount.toNat + 1 = state.sync.presenceMode.toNat) .unexpectedValue
  let fillChannel ← read (readLe16 val 4)
  Program.check (fillChannel = 0xffff) .unexpectedValue
  let encoding ← read (readU8 val 1)
  let enc ← Program.orFail (ChanEncoding.ofByte encoding) .unexpectedValue
  let list ← read (readChanList val enc list)
  updatePeer fun p => { p with sequence := list }
  return .ok

/-- `awdl_handle_election_params_tlv`. -/
def handleElectionParamsTlv (val : Buf) : Handler RxResult := do
  let (src, _) ← Program.get
  if src.supportsV2 then return .ok
  let distance ← read (readU8 val 3)
  updateElection (fun e => { e with height := distance.toUInt32 }) fun _ => rfl
  let masterAddr ← read (readEtherAddr val 5)
  updateElection (fun e => { e with masterAddr := masterAddr }) fun _ => rfl
  let masterMetric ← read (readLe32 val 11)
  updateElection (fun e => { e with masterMetric := masterMetric }) fun _ => rfl
  let selfMetric ← read (readLe32 val 15)
  updateElection (fun e => { e with selfMetric := selfMetric }) fun _ => rfl
  return .ok

/-- `awdl_handle_election_params_v2_tlv`. -/
def handleElectionParamsV2Tlv (val : Buf) : Handler RxResult := do
  let height ← read (readLe32 val 16)
  updateElection (fun e => { e with height := height }) fun _ => rfl
  let masterAddr ← read (readEtherAddr val 0)
  updateElection (fun e => { e with masterAddr := masterAddr }) fun _ => rfl
  let syncAddr ← read (readEtherAddr val 6)
  updateElection (fun e => { e with syncAddr := syncAddr }) fun _ => rfl
  let masterCounter ← read (readLe32 val 12)
  updateElection (fun e => { e with masterCounter := masterCounter }) fun _ => rfl
  let masterMetric ← read (readLe32 val 20)
  updateElection (fun e => { e with masterMetric := masterMetric }) fun _ => rfl
  let selfMetric ← read (readLe32 val 24)
  updateElection (fun e => { e with selfMetric := selfMetric }) fun _ => rfl
  let selfCounter ← read (readLe32 val 36)
  updateElection (fun e => { e with selfCounter := selfCounter }) fun _ => rfl
  updatePeer fun p => { p with supportsV2 := true }
  return .ok

/-- `HOST_NAME_LENGTH_MAX`. -/
def hostNameLengthMax : ℕ := 64

/-- `awdl_handle_arpa_tlv`. -/
def handleArpaTlv (val : Buf) : Handler RxResult := do
  let name ← read (readIntString val 1 hostNameLengthMax)
  updatePeer fun p => { p with name := name }
  return .ok

/-- A part of the data path state that a flag announces: `size` bytes from `offset` on. -/
def handleFlagged (flags flag : UInt16) (size offset : ℕ) (field : Handler Unit) : Handler ℕ := do
  if flags &&& flag = 0 then return offset
  field
  return offset + size

/-- `awdl_handle_data_path_state_tlv`. -/
def handleDataPathStateTlv (val : Buf) : Handler RxResult := do
  let flags ← read (readLe16 val 0)
  let offset ← handleFlagged flags 0x0100 3 2 do
    let countryCode ← read (readBytes val 2 3)
    updatePeer fun p => { p with countryCode := countryCode }
  let offset ← handleFlagged flags 0x0200 2 offset do
    let _ ← read (readLe16 val offset)
  let offset ← handleFlagged flags 0x0001 8 offset do
    let _ ← read (readEtherAddr val offset)
    let _ ← read (readLe16 val (offset + 6))
  let offset ← handleFlagged flags 0x0002 6 offset do
    let infraAddr ← read (readEtherAddr val offset)
    updatePeer fun p => { p with infraAddr := some infraAddr }
  let _ ← handleFlagged flags 0x0004 6 offset do
    let _ ← read (readEtherAddr val offset)
  return .ok

/-- `awdl_handle_version_tlv`. -/
def handleVersionTlv (val : Buf) : Handler RxResult := do
  let version ← read (readU8 val 0)
  let devclass ← read (readU8 val 1)
  updatePeer fun p => { p with version := version, devclass := devclass }
  return .ok

/-! The types of `enum awdl_tlvs` that are handled or sent. -/

def synchronizatonParametersTlv : UInt8 := 4
def electionParametersTlv : UInt8 := 5
def serviceParametersTlv : UInt8 := 6
def enhancedDataRateCapabilitiesTlv : UInt8 := 7
def dataPathStateTlv : UInt8 := 12
def arpaTlv : UInt8 := 16
def chanSeqTlv : UInt8 := 18
def versionTlv : UInt8 := 21
def electionParametersV2Tlv : UInt8 := 24

/-- `awdl_handle_tlv`. -/
def handleTlv (list : ChanSeq) (type : UInt8) (val : Buf) (tsft : UInt64) : Handler RxResult :=
  if type = synchronizatonParametersTlv then handleSyncParamsTlv val tsft
  else if type = chanSeqTlv then handleChanseqTlv list val
  else if type = electionParametersTlv then handleElectionParamsTlv val
  else if type = electionParametersV2Tlv then handleElectionParamsV2Tlv val
  else if type = arpaTlv then handleArpaTlv val
  else if type = dataPathStateTlv then handleDataPathStateTlv val
  else if type = versionTlv then handleVersionTlv val
  else return .ignore

/-! ### Action frames -/

inductive ActionType
  | psf
  | mif
deriving DecidableEq

def ActionType.toByte : ActionType → UInt8
  | psf => 0
  | mif => 3

/-- `AWDL_OUI`. -/
def awdlOui : Buf := [0x00, 0x17, 0xf2]

/-- `awdl_parse_action_hdr`: the first 16 bytes. -/
def parseActionHdr (frame : Buf) : Option ActionType := do
  let _ ← readBytes frame 0 16
  let category ← readU8 frame 0
  let oui ← readBytes frame 1 3
  let type ← readU8 frame 4
  let version ← readU8 frame 5
  let subtype ← readU8 frame 6
  if category = 127 ∧ oui = awdlOui ∧ type = 8 ∧ version = awdlVersion 1 0 then
    if subtype = ActionType.psf.toByte then some .psf
    else if subtype = ActionType.mif.toByte then some .mif
    else none
  else none

theorem lt_length_of_readTlv {frame value : Buf} {type : UInt8}
    (h : readTlv frame = some (type, value)) : value.length + 3 ≤ frame.length := by
  obtain ⟨t, -, h⟩ := Option.bind_eq_some_iff.mp h
  obtain ⟨n, -, h⟩ := Option.bind_eq_some_iff.mp h
  obtain ⟨v, hv, h⟩ := Option.bind_eq_some_iff.mp h
  obtain ⟨-, rfl⟩ := Prod.mk.inj (Option.some.inj h)
  unfold readBytes at hv
  split at hv
  · cases hv
  · obtain rfl := Option.some.inj hv
    rw [List.length_take, List.length_drop]
    omega

/-- The loop of `awdl_rx_action` over the records; it ends with what is left of the frame. -/
def tlvLoop (list : ChanSeq) (tsft : UInt64) (frame : Buf) : Handler Buf :=
  match h : readTlv frame with
  | none => pure frame
  | some (type, value) => do
    let _ ← handleTlv list type value tsft
    tlvLoop list tsft (frame.drop (value.length + 3))
termination_by frame.length
decreasing_by
  have := lt_length_of_readTlv h
  rw [List.length_drop]
  omega

namespace State

def countAction (state : State) : State :=
  { state with stats := { state.stats with rxAction := state.stats.rxAction + 1 } }

def countData (state : State) : State :=
  { state with stats := { state.stats with rxData := state.stats.rxData + 1 } }

def withPeers (state : State) (peers : Peers) : State :=
  { state with peers := { state.peers with peers := peers } }

/-- `awdl_peer_add` on the node's table, with its callback. -/
def peerAdd (state : State) (addr : EtherAddr) (now : UInt64) : State :=
  let (_, peers, calls) := Awdl.peerAdd state.peers.peers addr now
  { state.withPeers peers with calls := calls ++ state.calls }

/-- Whether a frame is too weak: a new peer must reach the threshold, a known one has some grace. -/
def tooWeak (state : State) (src : EtherAddr) (rssi : Int8) : Bool :=
  state.filterRssi &&
    match state.peers.peers.get src with
    | some _ => rssi.toInt < state.rssiThreshold.toInt + state.rssiGrace.toInt
    | none => rssi.toInt < state.rssiThreshold.toInt

end State

/-- `awdl_rx_action`. -/
def rxAction (list : ChanSeq) (frame : Buf) (rssi : Int8) (tsft : UInt64) (src : EtherAddr)
    (state : State) : RxResult × State :=
  match parseActionHdr frame with
  | none => (.ignore, state)
  | some subtype =>
    if state.tooWeak src rssi then (.ignoreRssi, state)
    else
      let state := state.countAction.peerAdd src tsft
      match state.peers.peers.get src with
      | none => (.ignore, state)
      | some peer =>
        let (result, peer, state) := tlvLoop list tsft (frame.drop 16) (peer, state)
        match result with
        | .error _ => (.unexpectedFormat, state.withPeers (state.peers.peers.set peer))
        | .ok rest =>
          if rest.length > 0 then
            (.unexpectedFormat, state.withPeers (state.peers.peers.set peer))
          else
            let peer := { peer with sentMif := peer.sentMif || subtype = .mif }
            (.ok, (state.withPeers (state.peers.peers.set peer)).peerAdd src tsft)

/-! ### Data frames -/

/-- `llc_parse` and `awdl_valid_llc_header`; the organisation is not checked. -/
def validLlcHeader (frame : Buf) : Bool :=
  match readU8 frame 0, readU8 frame 1, readU8 frame 2, readBytes frame 3 3, readBe16 frame 6 with
  | some dsap, some ssap, some control, some _, some pid =>
    dsap == 0xaa && ssap == 0xaa && control == 0x03 && pid == 0x0800
  | _, _, _, _, _ => false

/-- The Ethernet frame made of a data frame: written field by field into a buffer of exactly this
length. -/
def etherFrame (dst src : EtherAddr) (etherType : UInt16) (payload : Buf) : Buf :=
  dst.octets ++ (src.octets ++ (be16 etherType ++ payload))

/-- `awdl_rx_data`: the frames it adds to the output, one at most. -/
def rxData (frame : Buf) (src dst : EtherAddr) (state : State) : RxResult × List Buf × State :=
  let state := state.countData
  match state.peers.peers.get src with
  | none => (.ignorePeer, [], state)
  | some _ =>
    if !validLlcHeader frame then (.unexpectedFormat, [], state)
    else
      let frame := frame.drop 8
      if frame.length < 8 then (.tooShort, [], state)
      else
        let etherType := (readBe16 frame 6).getD 0
        (.ok, [etherFrame dst src etherType (frame.drop 8)], state)

/-- The header of a subframe of an A-MSDU: destination, source and length. -/
def readSubframeHdr (frame : Buf) : Option (EtherAddr × EtherAddr × ℕ) := do
  let dst ← readEtherAddr frame 0
  let src ← readEtherAddr frame 6
  let len ← readBe16 frame 12
  some (dst, src, len.toNat)

theorem readSubframeHdr_length {frame : Buf} {h : EtherAddr × EtherAddr × ℕ}
    (hr : readSubframeHdr frame = some h) : 14 ≤ frame.length := by
  obtain ⟨_, -, hr⟩ := Option.bind_eq_some_iff.mp hr
  obtain ⟨_, -, hr⟩ := Option.bind_eq_some_iff.mp hr
  obtain ⟨_, hl, -⟩ := Option.bind_eq_some_iff.mp hr
  obtain ⟨x, hx, -⟩ := Option.map_eq_some_iff.mp hl
  unfold readBytes at hx
  split at hx
  · cases hx
  · omega

/-- The bytes between a subframe of `len` bytes and the next one. -/
def amsduPadding (len : ℕ) : ℕ := (4 - (14 + len) % 4) % 4

/-- `awdl_rx_data_amsdu`. -/
def rxDataAmsdu (frame : Buf) (state : State) : RxResult × List Buf × State :=
  if frame.length = 0 then (.ok, [], state)
  else
    match _h : readSubframeHdr frame with
    | none => (.tooShort, [], state)
    | some (dst, src, len) =>
      let rest := frame.drop 14
      if len > rest.length then (.tooShort, [], state)
      else
        let (err, out, state) := rxData (rest.take len) src dst state
        if err.code < 0 then (err, out, state)
        else
          let rest := rest.drop len
          if rest.length = 0 then (.ok, out, state)
          else if amsduPadding len > rest.length then (.tooShort, out, state)
          else
            let (err, more, state) := rxDataAmsdu (rest.drop (amsduPadding len)) state
            (err, out ++ more, state)
termination_by frame.length
decreasing_by
  have := readSubframeHdr_length _h
  simp only [List.length_drop]
  omega

/-! ### Frames -/

/-- What `radiotap_parse` finds in the header, zero where there is nothing. -/
structure Radiotap where
  rssi : Int8 := 0
  flags : UInt8 := 0
  tsft : UInt64 := 0

/-- `check_fcs`: the frame without its checksum, if it has one. -/
def checkFcs (frame : Buf) (flags : UInt8) : Option Buf :=
  if flags &&& 0x40 ≠ 0 then none
  else if flags &&& 0x10 ≠ 0 then take frame 4
  else some frame

/-- `awdl_rx` after the radiotap header: by type and subtype. -/
def rxFrame (list : ChanSeq) (frame : Buf) (rssi : Int8) (tsft : UInt64) (state : State) :
    RxResult × List Buf × State :=
  match readLe16 frame 0, readEtherAddr frame 4, readEtherAddr frame 10, strip frame 24 with
  | some fc, some dst, some src, some body =>
    if src = state.selfAddress then (.ignoreFromSelf, [], state)
    else if fc &&& 0x00fc = 0x00d0 then
      let (result, state) := rxAction list body rssi tsft src state
      (result, [], state)
    else if fc &&& 0x00fc = 0x0088 then
      match readLe16 body 0, strip body 2 with
      | some qosc, some body =>
        if qosc &&& 0x0080 ≠ 0 then rxDataAmsdu body state else rxData body src dst state
      | _, _ => (.tooShort, [], state)
    else if fc &&& 0x00fc = 0x0008 then rxData body src dst state
    else (.unexpectedType, [], state)
  | _, _, _, _ => (.tooShort, [], state)

/-- `awdl_rx`; `radiotap` is `radiotap_parse`, with the header's iterator, and `now` the clock. -/
def rx (radiotap : Buf → Option Radiotap) (list : ChanSeq) (frame : Buf) (now : UInt64) (state : State) :
    RxResult × List Buf × State :=
  match radiotap frame with
  | none => (.unexpectedFormat, [], state)
  | some hdr =>
    let (tsft, rxClock) := rxClockTime state.rxClock hdr.tsft now
    let state := { state with rxClock := rxClock }
    match (readLe16 frame 2).bind fun len => strip frame len.toNat with
    | none => (.tooShort, [], state)
    | some frame =>
      match checkFcs frame hdr.flags with
      | none => (.ignoreFailedCrc, [], state)
      | some frame => rxFrame list frame hdr.rssi tsft state

end AquaTransport.Awdl
