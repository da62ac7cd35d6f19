import AquaTransport.Awdl.Receive

/-!
# AquaTransport.Awdl.Transmit — tx.c

Frames are built as the bytes that each function writes, in the order in which it writes them.  The
clock is read once for the times of the action header and once for the synchronisation parameters.  The
daemon never asks for a checksum, and none is modelled.
-/

namespace AquaTransport.Awdl

/-- A record, with the length of what follows its header. -/
def tlv (type : UInt8) (value : Buf) : Buf := type :: (le16 (UInt16.ofNat value.length) ++ value)

/-- `awdl_init_action`. -/
def initAction (type : ActionType) (steadyTime : UInt64) : Buf :=
  127 :: (awdlOui ++ ([8, awdlVersion 1 0, type.toByte, 0] ++
    (le32 steadyTime.toUInt32 ++ le32 steadyTime.toUInt32)))

/-- The bytes of a channel that its encoding has. -/
def chanBytes (enc : ChanEncoding) (chan : Chan) : Buf := [chan.val0, chan.val1].take enc.size

/-- `awdl_init_chanseq`. -/
def initChanseq (state : State) : Buf :=
  [15, state.channel.enc.toByte, 0, 3] ++ (le16 0xffff ++
    (List.ofFn state.channel.sequence).flatMap (chanBytes state.channel.enc))

/-- The rest of the window, as `awdl_init_sync_params_tlv` advertises it. -/
def remainingAwLength (sync : SyncState) (txDownCounter : UInt16) : UInt16 :=
  let past : ℤ := sync.awPeriod.toNat * sync.presenceMode.toNat - txDownCounter.toNat
  if (sync.awPeriod.toNat : ℤ) < past then 0 else UInt16.ofNat ((sync.awPeriod.toNat : ℤ) - past).toNat

/-- `awdl_init_sync_params_tlv`. -/
def initSyncParamsTlv (now : UInt64) (state : State) : Buf :=
  let sync := state.sync
  let txDownCounter := sync.nextAwTu now
  tlv synchronizatonParametersTlv
    ([chanNum state.channel.current state.channel.enc] ++ (le16 txDownCounter ++
      ([chanNum state.channel.master state.channel.enc, 0] ++ (le16 sync.awPeriod ++
      (le16 state.psfInterval ++ (le16 0x1800 ++ (le16 sync.awPeriod ++ (le16 sync.awPeriod ++
      (le16 (remainingAwLength sync txDownCounter) ++
      ([sync.presenceMode - 1, sync.presenceMode - 1, sync.presenceMode - 1, sync.presenceMode - 1] ++
      (state.election.masterAddr.octets ++ ([sync.presenceMode, 0] ++
      (le16 (sync.currentAw now) ++ (le16 (sync.currentAw now) ++
      (initChanseq state ++ [0, 0])))))))))))))))

/-- `awdl_init_chanseq_tlv`. -/
def initChanseqTlv (state : State) : Buf := tlv chanSeqTlv (initChanseq state ++ [0, 0, 0])

/-- `awdl_init_election_params_tlv`; the distance has one byte. -/
def initElectionParamsTlv (state : State) : Buf :=
  let e := state.election
  tlv electionParametersTlv ([0] ++ (le16 0 ++ ([e.height.toUInt8, 0] ++ (e.masterAddr.octets ++
    (le32 e.masterMetric ++ (le32 e.selfMetric ++ [0, 0]))))))

/-- `awdl_init_election_params_v2_tlv`. -/
def initElectionParamsV2Tlv (state : State) : Buf :=
  let e := state.election
  tlv electionParametersV2Tlv (e.masterAddr.octets ++ (e.syncAddr.octets ++ (le32 e.masterCounter ++
    (le32 e.height ++ (le32 e.masterMetric ++ (le32 e.selfMetric ++ (le32 0 ++ (le32 0 ++
    le32 e.selfCounter))))))))

/-- `awdl_init_service_params_tlv`. -/
def initServiceParamsTlv (state : State) : Buf :=
  tlv serviceParametersTlv ([0, 0, 0] ++ (le16 state.serviceUpdateIndicator ++ le32 0))

/-- `awdl_init_ht_capabilities_tlv`. -/
def initHtCapabilitiesTlv : Buf :=
  tlv enhancedDataRateCapabilitiesTlv (le16 0 ++ (le16 0x11ce ++ ([0x1b, 0xff] ++ le16 0)))

/-- The bit of the social channel that a node is configured for. -/
def socialChannels (state : State) : UInt16 :=
  if chanNum state.channel.master .opclass = 6 then 0x0001
  else if chanNum state.channel.master .opclass = 44 then 0x0002
  else 0x0004

/-- `awdl_init_data_path_state_tlv`. -/
def initDataPathStateTlv (state : State) : Buf :=
  tlv dataPathStateTlv (le16 0x8f24 ++ ([88, 48, 0] ++ (le16 (socialChannels state) ++
    (state.selfAddress.octets ++ le16 0))))

/-- `awdl_init_arpa_tlv`. -/
def initArpaTlv (state : State) : Buf :=
  tlv arpaTlv ([3, UInt8.ofNat state.name.length] ++ (state.name ++ be16 0xc00c))

/-- `awdl_init_version_tlv`. -/
def initVersionTlv (state : State) : Buf := tlv versionTlv [state.version, state.devClass]

/-! ### Headers -/

/-- `ieee80211_init_radiotap_header`: nothing but the rate. -/
def initRadiotapHeader : Buf := [0, 0] ++ (le16 9 ++ (le32 4 ++ [24]))

/-- `struct ieee80211_state`. -/
structure Ieee80211State where
  qosData : Bool
  sequenceNumber : UInt16

/-- `ieee80211_init_state`. -/
def ieee80211InitState : Ieee80211State := ⟨false, 0⟩

/-- `AWDL_BSSID`. -/
def awdlBssid : EtherAddr := ⟨[0x00, 0x25, 0x00, 0xff, 0x94, 0x73], rfl⟩

/-- `ieee80211_init_awdl_hdr`, with the sequence number that `ieee80211_state_next_sequence_number`
takes. -/
def initAwdlHdr (src dst : EtherAddr) (ieee : Ieee80211State) (type : UInt16) : Buf :=
  le16 type ++ (le16 0 ++ (dst.octets ++ (src.octets ++ (awdlBssid.octets ++
    le16 (ieee.sequenceNumber <<< 4)))))

/-- The state after `ieee80211_state_next_sequence_number`: 12 bits are counted. -/
def Ieee80211State.next (ieee : Ieee80211State) : Ieee80211State :=
  { ieee with sequenceNumber := (ieee.sequenceNumber + 1) &&& 0x0fff }

/-- `ieee80211_init_awdl_data_hdr`. -/
def initAwdlDataHdr (src dst : EtherAddr) (ieee : Ieee80211State) : Buf :=
  if ieee.qosData then initAwdlHdr src dst ieee 0x0088 ++ [0, 0] else initAwdlHdr src dst ieee 0x0008

/-- `llc_init_awdl_hdr`. -/
def llcInitAwdlHdr : Buf := [0xaa, 0xaa, 0x03] ++ (awdlOui ++ be16 0x0800)

/-- `awdl_init_data`: whatever the frame carries, its type is that of IPv6. -/
def initData (state : State) : Buf :=
  le16 0x0403 ++ (le16 state.sequenceNumber ++ (le16 0 ++ be16 0x86dd))

/-- `awdl_state_next_sequence_number`. -/
def State.nextSequenceNumber (state : State) : State :=
  { state with sequenceNumber := state.sequenceNumber + 1 }

/-- The records of an action frame, in their order. -/
def actionTlvs (state : State) (type : ActionType) (now : UInt64) : Buf :=
  initSyncParamsTlv now state ++ (initElectionParamsTlv state ++ (initChanseqTlv state ++
    (initElectionParamsV2Tlv state ++ (initServiceParamsTlv state ++
    ((if type = .mif then initHtCapabilitiesTlv else []) ++
    ((if type = .mif then initArpaTlv state else []) ++
    (initDataPathStateTlv state ++ initVersionTlv state)))))))

/-- `awdl_init_full_action_frame`. -/
def initFullActionFrame (state : State) (ieee : Ieee80211State) (type : ActionType)
    (steadyTime now : UInt64) : Buf × Ieee80211State :=
  (initRadiotapHeader ++ (initAwdlHdr state.selfAddress state.dst ieee 0x00d0 ++
    (initAction type steadyTime ++ actionTlvs state type now)), ieee.next)

/-- `awdl_init_full_data_frame`. -/
def initFullDataFrame (src dst : EtherAddr) (payload : Buf) (state : State) (ieee : Ieee80211State) :
    Buf × State × Ieee80211State :=
  (initRadiotapHeader ++ (initAwdlDataHdr src dst ieee ++ (llcInitAwdlHdr ++
    (initData state ++ payload))), state.nextSequenceNumber, ieee.next)

end AquaTransport.Awdl
