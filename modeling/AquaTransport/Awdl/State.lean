import AquaTransport.Awdl.Buffer

/-!
# AquaTransport.Awdl.State — the state of an AWDL node

The structures of channel.h, election.h, peers.h, sync.h and state.h, with the functions that set them
up.  A peer's election state is about the peer itself, and the table has one entry for an address; both
are fields, so that no other table can be built.
-/

namespace AquaTransport.Awdl

/-! ### Channels -/

/-- `struct awdl_chan`: the two bytes that each encoding reads in its own way. -/
structure Chan where
  val0 : UInt8
  val1 : UInt8
deriving DecidableEq

inductive ChanEncoding
  | simple
  | legacy
  | opclass
deriving DecidableEq

/-- The encoding that a byte of a frame names. -/
def ChanEncoding.ofByte (b : UInt8) : Option ChanEncoding :=
  if b = 0 then some .simple else if b = 1 then some .legacy else if b = 3 then some .opclass else none

def ChanEncoding.toByte : ChanEncoding → UInt8
  | simple => 0
  | legacy => 1
  | opclass => 3

/-- `awdl_chan_encoding_size`, `awdl_chan_encoding_length`. -/
def ChanEncoding.size : ChanEncoding → ℕ
  | simple => 1
  | legacy | opclass => 2

def chanNum (chan : Chan) : ChanEncoding → UInt8
  | .simple => chan.val0
  | .legacy => chan.val1
  | .opclass => chan.val0

def chanNull : Chan := ⟨0, 0⟩

/-- `AWDL_CHANSEQ_LENGTH` slots. -/
abbrev ChanSeq := Fin 16 → Chan

/-- `awdl_chanseq_init_static`. -/
def chanseqInitStatic (chan : Chan) : ChanSeq := fun _ => chan

structure ChannelState where
  enc : ChanEncoding
  sequence : ChanSeq
  master : Chan
  current : Chan

/-! ### Election -/

structure ElectionState where
  masterAddr : EtherAddr
  syncAddr : EtherAddr
  selfAddr : EtherAddr
  height : UInt32
  masterMetric : UInt32
  selfMetric : UInt32
  masterCounter : UInt32
  selfCounter : UInt32
deriving DecidableEq

def electionMetricInit : UInt32 := 60
def electionCounterInit : UInt32 := 0

/-- `awdl_election_reset_self`. -/
def ElectionState.resetSelf (state : ElectionState) : ElectionState :=
  { state with
    height := 0
    masterAddr := state.selfAddr
    syncAddr := state.selfAddr
    masterMetric := state.selfMetric
    masterCounter := state.selfCounter }

/-- `awdl_election_state_init`. -/
def electionStateInit (self : EtherAddr) : ElectionState :=
  ElectionState.resetSelf
    { masterAddr := self
      syncAddr := self
      selfAddr := self
      height := 0
      masterMetric := 0
      selfMetric := electionMetricInit
      masterCounter := 0
      selfCounter := electionCounterInit }

/-! ### Peers -/

/-- `struct awdl_peer`.  `infraAddr` is not set before a frame tells it. -/
structure Peer where
  addr : EtherAddr
  lastUpdate : UInt64
  election : ElectionState
  own : election.selfAddr = addr
  sequence : ChanSeq
  syncOffset : UInt64
  name : Buf
  countryCode : Buf
  infraAddr : Option EtherAddr
  version : UInt8
  devclass : UInt8
  supportsV2 : Bool
  sentMif : Bool
  isValid : Bool

/-- `awdl_peer_new`. -/
def peerNew (addr : EtherAddr) : Peer where
  addr := addr
  lastUpdate := 0
  election := electionStateInit addr
  own := rfl
  sequence := chanseqInitStatic chanNull
  syncOffset := 0
  name := []
  countryCode := [78, 65]
  infraAddr := none
  version := 0
  devclass := 0
  supportsV2 := false
  sentMif := false
  isValid := false

/-- The table of peers, in the order in which its iterator shows them. -/
structure Peers where
  list : List Peer
  nodup : (list.map Peer.addr).Nodup

/-- `awdl_peer_get`. -/
def Peers.get (peers : Peers) (addr : EtherAddr) : Option Peer := peers.list.find? (·.addr = addr)

theorem Peers.get_eq_some {peers : Peers} {addr : EtherAddr} {p : Peer} :
    peers.get addr = some p ↔ p ∈ peers.list ∧ p.addr = addr := by
  constructor
  · intro h
    exact ⟨List.mem_of_find?_eq_some h, by simpa using List.find?_some h⟩
  · rintro ⟨hp, rfl⟩
    obtain ⟨l, hl⟩ := peers
    induction l with
    | nil => exact absurd hp List.not_mem_nil
    | cons q l ih =>
      rw [List.map_cons, List.nodup_cons] at hl
      rcases List.mem_cons.mp hp with rfl | hp
      · simp [Peers.get]
      · have hne : q.addr ≠ p.addr := fun he => hl.1 (he ▸ List.mem_map_of_mem hp)
        have hget := ih hl.2 hp
        simpa [Peers.get, hne] using hget

theorem Peers.get_eq_none {peers : Peers} {addr : EtherAddr} :
    peers.get addr = none ↔ ∀ p ∈ peers.list, p.addr ≠ addr := by
  simp [Peers.get]

/-- `struct awdl_peer_state`. -/
structure PeerState where
  peers : Peers
  timeout : UInt64
  cleanInterval : UInt64

/-- `awdl_peer_state_init`. -/
def peerStateInit : PeerState where
  peers := ⟨[], List.nodup_nil⟩
  timeout := 2000000
  cleanInterval := 1000000

/-! ### Synchronisation -/

structure SyncState where
  awCounter : UInt16
  lastUpdate : UInt64
  awPeriod : UInt16
  presenceMode : UInt8
  measErr : UInt64
  measTotal : UInt64

/-- `awdl_sync_state_init`. -/
def syncStateInit (now : UInt64) : SyncState where
  awCounter := 0
  lastUpdate := now
  awPeriod := 16
  presenceMode := 4
  measErr := 0
  measTotal := 0

/-- `struct awdl_rx_clock`. -/
structure RxClock where
  initialized : Bool
  offset : Int64
  lastHardware : UInt64

/-! ### The node -/

/-- A call of `peer_cb` or `peer_remove_cb`, which the daemon makes add and remove a neighbour. -/
inductive NeighborCall
  | add (addr : EtherAddr)
  | remove (addr : EtherAddr)
deriving DecidableEq

structure Stats where
  txAction : UInt64
  txData : UInt64
  txDataUnicast : UInt64
  txDataMulticast : UInt64
  rxAction : UInt64
  rxData : UInt64
  rxUnknown : UInt64

/-- `awdl_stats_init`. -/
def statsInit : Stats := ⟨0, 0, 0, 0, 0, 0, 0⟩

/-- `struct awdl_state`; `calls` is what the two callbacks were called with, newest first. -/
structure State where
  selfAddress : EtherAddr
  name : Buf
  nameFits : name.length ≤ 64
  version : UInt8
  devClass : UInt8
  sequenceNumber : UInt16
  psfInterval : UInt16
  dst : EtherAddr
  calls : List NeighborCall
  filterRssi : Bool
  rssiThreshold : Int8
  rssiGrace : Int8
  election : ElectionState
  own : election.selfAddr = selfAddress
  sync : SyncState
  rxClock : RxClock
  channel : ChannelState
  peers : PeerState
  stats : Stats
  followMasterChanseq : Bool
  configuredSequence : ChanSeq
  preferredPeer : Option EtherAddr
  serviceUpdateIndicator : UInt16

/-- `awdl_version`. -/
def awdlVersion (major minor : ℕ) : UInt8 := UInt8.ofNat ((major <<< 4) &&& 0xf0 ||| minor &&& 0x0f)

def etherBroadcast : EtherAddr := ⟨[0xff, 0xff, 0xff, 0xff, 0xff, 0xff], rfl⟩

/-- `awdl_init_state`; `sui` is the random number between 1 and 65535, and `name` has no zero byte. -/
def initState (hostname : Buf) (self : EtherAddr) (chan : Chan) (now : UInt64) (sui : UInt16) : State where
  selfAddress := self
  name := hostname.take 64
  nameFits := List.length_take_le 64 hostname
  version := awdlVersion 3 4
  devClass := 1
  sequenceNumber := 0
  psfInterval := 110
  dst := etherBroadcast
  calls := []
  filterRssi := true
  rssiThreshold := -80
  rssiGrace := -5
  election := electionStateInit self
  own := rfl
  sync := syncStateInit now
  rxClock := ⟨false, 0, 0⟩
  channel := { enc := .opclass, sequence := chanseqInitStatic chan, master := chan, current := chanNull }
  peers := peerStateInit
  stats := statsInit
  followMasterChanseq := false
  configuredSequence := chanseqInitStatic chan
  preferredPeer := none
  serviceUpdateIndicator := sui

end AquaTransport.Awdl
