import AquaTransport.Awdl.CircularBuffer
import AquaTransport.Awdl.Reception
import AquaTransport.Awdl.Schedule
import AquaTransport.Awdl.Transmit

/-!
# AquaTransport.Awdl.Daemon — core.c

The callbacks of the daemon, each with what it reads of the clocks and the radio as arguments, and what
it does to the outside as a list of effects.  The timers that call them are not modelled: the results
of `AquaTransport.Awdl.Upkeep` and `AquaTransport.Awdl.HostFrames` hold in whatever order they are called.
-/

namespace AquaTransport.Awdl

/-! ### The channel sequence -/

/-- Whether a sequence has a slot that is not null. -/
def hasActiveSlot (enc : ChanEncoding) (sequence : ChanSeq) : Bool :=
  decide (∃ i, chanNum (sequence i) enc ≠ 0)

namespace State

def withSequence (state : State) (sequence : ChanSeq) : State :=
  { state with channel := { state.channel with sequence := sequence } }

/-- `restore_configured_chanseq`; the comparison there only saves a copy. -/
def restoreConfiguredChanseq (state : State) : State := state.withSequence state.configuredSequence

/-- `adopt_master_chanseq`. -/
def adoptMasterChanseq (state : State) : State :=
  if !state.followMasterChanseq then state
  else
    match state.preferredPeer.bind state.peers.peers.get with
    | some master =>
      if hasActiveSlot state.channel.enc master.sequence then state.withSequence master.sequence else state
    | none =>
      if state.election.isSyncMaster state.selfAddress then state.restoreConfiguredChanseq
      else
        match state.peers.peers.get state.election.syncAddr with
        | none => state.restoreConfiguredChanseq
        | some master =>
          if hasActiveSlot state.channel.enc master.sequence then state.withSequence master.sequence
          else state

end State

theorem selfAddr_electionRun (e : ElectionState) (peers : List Peer) :
    (electionRun e peers).selfAddr = e.selfAddr := by
  unfold electionRun
  dsimp only
  split_ifs <;> rfl

namespace State

/-- The part of `awdl_clean_peers` before the channel sequence: forget the peers that were not heard, and
elect. -/
def elect (state : State) (now : UInt64) : State :=
  let (peers, calls) := peersRemove state.peers.peers (now - state.peers.timeout)
  { state.withPeers peers with
    calls := calls ++ state.calls
    election := electionRun state.election peers.list
    own := (selfAddr_electionRun state.election peers.list).trans state.own }

/-- `awdl_clean_peers`. -/
def cleanPeers (state : State) (now : UInt64) : State := (state.elect now).adoptMasterChanseq

/-- `awdl_switch_channel`: `actual` is the channel that the radio says it is on, zero where it is not
asked, and `selected` whether it could be set. -/
def switchChannel (state : State) (now : UInt64) (actual : ℤ) (selected : Bool) : State :=
  let chan := state.channel.sequence (state.sync.slot now)
  let new : ℤ := (chanNum chan state.channel.enc).toNat
  let old : ℤ := if actual > 0 ∧ actual ≠ state.tuned.toNat then actual else state.tuned.toNat
  if new ≠ 0 ∧ new ≠ old ∧ selected then { state with channel := { state.channel with current := chan } }
  else state

end State

/-! ### The daemon -/

/-- A frame of the host whose destination could be read. -/
structure HostFrame where
  bytes : Buf
  fits : 6 ≤ bytes.length

namespace HostFrame

def dst (f : HostFrame) : EtherAddr :=
  ⟨f.bytes.take 6, by rw [List.length_take, Nat.min_eq_left f.fits]⟩

def isMulticast (f : HostFrame) : Bool := f.bytes.headD 0 &&& 1 != 0

end HostFrame

/-- `struct daemon_state`, with what is not a file, a timer or a diagnostic counter. -/
structure Daemon where
  state : State
  ieee : Ieee80211State
  next : Option { f : HostFrame // f.isMulticast = false }
  queue : CircularBuf { f : HostFrame // f.isMulticast = true }

/-- What a callback does to the outside, and what becomes of the frames of the host. -/
inductive Effect
  /-- A frame read from the host. -/
  | read (f : HostFrame)
  /-- One that is too short to say where it goes, and is freed. -/
  | short (bytes : Buf)
  /-- A frame injected as `bytes`, in a state and at a time. -/
  | air (f : HostFrame) (bytes : Buf) (state : State) (now : UInt64)
  /-- One given back to the host, whose own address it has. -/
  | loop (f : HostFrame)
  /-- One to nobody who is known, or without a whole Ethernet header. -/
  | drop (f : HostFrame)
  /-- One that `wlan_send` did not take; it is freed all the same. -/
  | unsent (f : HostFrame)
  /-- A frame from the air, handed to the host. -/
  | deliver (bytes : Buf)
  | action (bytes : Buf)
  /-- A frame from the air is written past the array of those to deliver. -/
  | overrun

/-- What a callback finds when it asks: the time, the time in `awdl_switch_channel`, the radio, the time
after that, and whether `wlan_send` takes the frame. -/
structure Environment where
  now : UInt64
  switching : UInt64
  actual : ℤ
  selected : Bool
  later : UInt64
  sent : Bool

namespace Daemon

/-- The loop of `poll_host_device`, on the frames that the host has for it. -/
def poll (d : Daemon) : List Buf → Daemon × List Effect
  | [] => (d, [])
  | b :: bs =>
    if d.next.isSome || d.queue.full then (d, [])
    else if h : 6 ≤ b.length then
      let f : HostFrame := ⟨b, h⟩
      if hm : f.isMulticast = true then
        let (d, es) := poll { d with queue := d.queue.put ⟨f, hm⟩ } bs
        (d, .read f :: es)
      else
        let (d, es) := poll { d with next := some ⟨f, Bool.eq_false_iff.mpr hm⟩ } bs
        (d, .read f :: es)
    else (d, [.short b])

/-- `awdl_send_data`. -/
def sendData (d : Daemon) (f : HostFrame) (now : UInt64) (sent : Bool) : Daemon × List Effect :=
  match readBe16 f.bytes 12, readEtherAddr f.bytes 0, readEtherAddr f.bytes 6 with
  | some _, some dst, some src =>
    let (bytes, state, ieee) := initFullDataFrame src dst (f.bytes.drop 14) d.state d.ieee
    let state := { state with stats := { state.stats with txData := state.stats.txData + 1 } }
    ({ d with state := state, ieee := ieee }, [if sent then .air f bytes d.state now else .unsent f])
  | _, _, _ => (d, [.drop f])

def countUnicast (d : Daemon) : Daemon :=
  { d with state := { d.state with
      stats := { d.state.stats with txDataUnicast := d.state.stats.txDataUnicast + 1 } } }

def countMulticast (d : Daemon) : Daemon :=
  { d with state := { d.state with
      stats := { d.state.stats with txDataMulticast := d.state.stats.txDataMulticast + 1 } } }

/-- Retune before injection, then look at the clock again. -/
def retune (d : Daemon) (env : Environment) (peer : Peer) : Daemon × UInt64 :=
  if d.state.sameChannelAsPeer env.now peer && !d.state.onScheduledChannel env.now then
    ({ d with state := d.state.switchChannel env.switching env.actual env.selected }, env.later)
  else (d, env.now)

/-- `awdl_send_unicast`. -/
def sendUnicast (d : Daemon) (env : Environment) : Daemon × List Effect :=
  match d.next with
  | none => (d, [])
  | some f =>
    if compareEtherAddr f.val.dst d.state.selfAddress = 0 then ({ d with next := none }, [.loop f])
    else
      match d.state.peers.peers.get f.val.dst with
      | none => ({ d with next := none }, [.drop f])
      | some peer =>
        let (d, now) := d.retune env peer
        if d.state.canSendUnicastIn peer now unicastGuardTu = 0 then
          let (d, es) := { d with next := none }.sendData f now env.sent
          (d.countUnicast, es)
        else (d, [])

/-- `awdl_send_multicast`. -/
def sendMulticast (d : Daemon) (now : UInt64) (sent : Bool) : Daemon × List Effect :=
  if d.state.isMulticastEaw now ∧ d.state.canSendMulticastIn now multicastGuardTu = 0 then
    match d.queue.get false with
    | none => (d, [])
    | some (f, queue) =>
      let (d, es) := { d with queue := queue }.sendData f now sent
      (d.countMulticast, es)
  else (d, [])

/-- `host_device_ready`; `now` and `sent` are for the multicast frame. -/
def hostDeviceReady (d : Daemon) (frames : List Buf) (now : UInt64) (sent : Bool) (env : Environment) :
    Daemon × List Effect :=
  let (d₁, es₁) := d.poll frames
  let new (multicast : Bool) : Bool := es₁.any fun
    | .read f => f.isMulticast == multicast
    | _ => false
  let (d₂, es₂) := if new true then d₁.sendMulticast now sent else (d₁, [])
  let (d₃, es₃) := if new false then d₂.sendUnicast env else (d₂, [])
  (d₃, es₁ ++ (es₂ ++ es₃))

/-- The array of `awdl_receive_frame` for the frames to deliver. -/
def maxNumAmpdu : ℕ := 16

/-- `awdl_receive_frame`.  The array is not checked: of a frame that brings more, no more is said. -/
def receiveFrame (d : Daemon) (radiotap : Buf → Option Radiotap) (list : ChanSeq) (frame : Buf)
    (now : UInt64) : Daemon × List Effect :=
  let (result, frames, state) := rx radiotap list frame now d.state
  if maxNumAmpdu < frames.length then (d, [.overrun])
  else if result = .ok then
    let state := if state.stats.rxAction ≠ d.state.stats.rxAction then state.adoptMasterChanseq else state
    ({ d with state := state }, frames.map .deliver)
  else if result.code < 0 then
    ({ d with state := { state with
        stats := { state.stats with rxUnknown := state.stats.rxUnknown + 1 } } }, [])
  else ({ d with state := state }, [])

/-- A frame that is taken in, and brings no more than there is room for. -/
theorem receiveFrame_ok {d : Daemon} {radiotap : Buf → Option Radiotap} {list : ChanSeq} {frame : Buf}
    {now : UInt64} {frames : List Buf} {b : State} (hrx : rx radiotap list frame now d.state = (.ok, frames, b))
    (hroom : frames.length ≤ maxNumAmpdu) : d.receiveFrame radiotap list frame now =
      ({ d with state := if b.stats.rxAction ≠ d.state.stats.rxAction then b.adoptMasterChanseq else b },
        frames.map .deliver) := by
  rw [receiveFrame, hrx]
  dsimp only
  rw [if_neg (Nat.not_lt.mpr hroom), if_pos rfl]

/-- `awdl_send_action`. -/
def sendAction (d : Daemon) (type : ActionType) (steadyTime now : UInt64) (sent : Bool) :
    Daemon × List Effect :=
  let (bytes, ieee) := initFullActionFrame d.state d.ieee type steadyTime now
  ({ d with
      ieee := ieee
      state := { d.state with stats := { d.state.stats with txAction := d.state.stats.txAction + 1 } } },
    if sent then [.action bytes] else [])

/-- `awdl_send_mif`: not while the radio is on no channel. -/
def sendMif (d : Daemon) (steadyTime now : UInt64) (sent : Bool) : Daemon × List Effect :=
  if d.state.tuned > 0 then d.sendAction .mif steadyTime now sent else (d, [])

/-- The callbacks. -/
inductive Event
  | hostDeviceReady (frames : List Buf) (now : UInt64) (sent : Bool) (env : Environment)
  | sendUnicast (env : Environment)
  | sendMulticast (now : UInt64) (sent : Bool)
  | receiveFrame (list : ChanSeq) (frame : Buf) (now : UInt64)
  | cleanPeers (now : UInt64)
  | switchChannel (env : Environment)
  | sendPsf (steadyTime now : UInt64) (sent : Bool)
  | sendMif (steadyTime now : UInt64) (sent : Bool)

def step (radiotap : Buf → Option Radiotap) (d : Daemon) : Event → Daemon × List Effect
  | .hostDeviceReady frames now sent env => d.hostDeviceReady frames now sent env
  | .sendUnicast env => d.sendUnicast env
  | .sendMulticast now sent => d.sendMulticast now sent
  | .receiveFrame list frame now => d.receiveFrame radiotap list frame now
  | .cleanPeers now => ({ d with state := d.state.cleanPeers now }, [])
  | .switchChannel env => ({ d with state := d.state.switchChannel env.now env.actual env.selected }, [])
  | .sendPsf steadyTime now sent => d.sendAction .psf steadyTime now sent
  | .sendMif steadyTime now sent => d.sendMif steadyTime now sent

/-- One callback after another, and all their effects. -/
def run (radiotap : Buf → Option Radiotap) (d : Daemon) : List Event → Daemon × List Effect
  | [] => (d, [])
  | e :: evs =>
    let (d₁, es₁) := d.step radiotap e
    let (d₂, es₂) := run radiotap d₁ evs
    (d₂, es₁ ++ es₂)

end Daemon

/-! ### Starting -/

/-- The channel of an option `-c`. -/
def chanOf (num : ℕ) : Option Chan :=
  if num = 6 then some ⟨6, 0x51⟩
  else if num = 44 ∨ num = 149 ∨ num = 153 ∨ num = 157 ∨ num = 165 then some ⟨UInt8.ofNat num, 0x80⟩
  else none

/-- The options of owl.c that reach the node; a version with no major number is not one. -/
structure Options where
  filterRssi : Bool
  followMaster : Bool
  qosData : Bool
  major : ℕ
  minor : ℕ
  preferredPeer : Option EtherAddr

/-- The state after the options are read. -/
def State.withOptions (state : State) (opts : Options) : State :=
  { state with
    filterRssi := opts.filterRssi
    followMasterChanseq := opts.followMaster
    version := if opts.major = 0 then state.version else awdlVersion opts.major opts.minor
    preferredPeer := opts.preferredPeer }

namespace Daemon

theorem queueMax_pos : 0 < 16 := Nat.succ_pos 15

/-- `awdl_init` and the options: the daemon that owl.c runs, if there is such a channel. -/
def start (num : ℕ) (opts : Options) (hostname : Buf) (self : EtherAddr) (now : UInt64) (sui : UInt16)
    (memory : ℕ → { f : HostFrame // f.isMulticast = true }) : Option Daemon :=
  (chanOf num).map fun chan =>
    { state := (initState hostname self chan now sui).withOptions opts
      ieee := { ieee80211InitState with qosData := opts.qosData }
      next := none
      queue := .init memory 16 queueMax_pos }

end Daemon

end AquaTransport.Awdl
