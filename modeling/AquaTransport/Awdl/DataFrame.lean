import AquaTransport.Awdl.ActionFrame
import AquaTransport.Awdl.HostFrames

/-!
# AquaTransport.Awdl.DataFrame — a host's frame on its way to another host

What one daemon injects, another one that knows its sender hands to its host: `run_delivered`.  The frame
is the same but for its EtherType, which is that of IPv6 whatever it was.  `receiveFrame_amsdu` is about
frames that come in one.
-/

namespace AquaTransport.Awdl

section Data

variable {b : State} {src dst : EtherAddr}

/-- The header of a data frame: six bytes that nobody reads, and the EtherType. -/
def dataBody (head : Buf) (etherType : UInt16) (payload : Buf) : Buf :=
  llcInitAwdlHdr ++ (head ++ (be16 etherType ++ payload))

theorem rxData_body {head : Buf} (hhead : head.length = 6) (etherType : UInt16) (payload : Buf) :
    rxData (dataBody head etherType payload) src dst b =
      if (b.peers.peers.get src).isSome then (.ok, [etherFrame dst src etherType payload], b.countData)
      else (.ignorePeer, [], b.countData) := by
  have hllc : llcInitAwdlHdr.length = 8 := by simp [llcInitAwdlHdr, awdlOui]
  have hvalid : validLlcHeader (dataBody head etherType payload) = true := by
    rw [dataBody]
    generalize head ++ (be16 etherType ++ payload) = r
    rfl
  have hdrop : (dataBody head etherType payload).drop 8 = head ++ (be16 etherType ++ payload) := by
    rw [dataBody, ← hllc, List.drop_left]
  have htype : readBe16 (head ++ (be16 etherType ++ payload)) 6 = some etherType := by
    simp [readBe16, hhead]
  have hpay : (head ++ (be16 etherType ++ payload)).drop 8 = payload := by
    have h8 : 8 = (head ++ be16 etherType).length := by simp [hhead]
    rw [← List.append_assoc, h8, List.drop_left]
  have hlen : ¬ (head ++ (be16 etherType ++ payload)).length < 8 := by
    simp only [List.length_append, hhead, length_be16]
    omega
  have hget : b.countData.peers.peers.get src = b.peers.peers.get src := rfl
  simp only [rxData, hget, hvalid, hdrop, htype, hpay, hlen, Bool.not_true, Bool.false_eq_true, if_false,
    Option.getD_some]
  cases b.peers.peers.get src <;> rfl

/-- What the receiver reads of a frame's header. -/
theorem awdlHdr_reads (src dst : EtherAddr) (ieee : Ieee80211State) (type : UInt16) (r : Buf) :
    readLe16 (initAwdlHdr src dst ieee type ++ r) 0 = some type ∧
      readEtherAddr (initAwdlHdr src dst ieee type ++ r) 4 = some dst ∧
      readEtherAddr (initAwdlHdr src dst ieee type ++ r) 10 = some src ∧
      strip (initAwdlHdr src dst ieee type ++ r) 24 = some r := by
  have h : (initAwdlHdr src dst ieee type).length = 24 := by simp [initAwdlHdr]
  refine ⟨by simp [initAwdlHdr, readLe16], by simp [initAwdlHdr, readEtherAddr],
    by simp [initAwdlHdr, readEtherAddr], ?_⟩
  rw [strip, if_neg (by rw [List.length_append, h]; omega), ← h, List.drop_left]

/-- A data frame that a node builds, at a node that has heard of its sender. -/
theorem rxFrame_dataFrame (list : ChanSeq) (rssi : Int8) (tsft : UInt64) (a : State)
    (ieee : Ieee80211State) (payload : Buf) (hne : src ≠ b.selfAddress)
    (hpeer : (b.peers.peers.get src).isSome) :
    rxFrame list ((initFullDataFrame src dst payload a ieee).1.drop 9) rssi tsft b =
      (.ok, [etherFrame dst src 0x86dd payload], b.countData) := by
  have hbody : llcInitAwdlHdr ++ (initData a ++ payload) =
      dataBody (le16 0x0403 ++ (le16 a.sequenceNumber ++ le16 0)) 0x86dd payload := by
    simp only [dataBody, initData, List.append_assoc]
  have hrx : rxData (llcInitAwdlHdr ++ (initData a ++ payload)) src dst b =
      (.ok, [etherFrame dst src 0x86dd payload], b.countData) := by
    rw [hbody, rxData_body (by simp), if_pos hpeer]
  have hdrop : (initFullDataFrame src dst payload a ieee).1.drop 9 =
      initAwdlDataHdr src dst ieee ++ (llcInitAwdlHdr ++ (initData a ++ payload)) := by
    have h : initRadiotapHeader.length = 9 := by simp [initRadiotapHeader]
    rw [initFullDataFrame, ← h, List.drop_left]
  rw [hdrop]
  generalize llcInitAwdlHdr ++ (initData a ++ payload) = body at hrx
  unfold initAwdlDataHdr
  split_ifs with hqos
  · rw [List.append_assoc]
    obtain ⟨h0, h4, h10, h24⟩ := awdlHdr_reads src dst ieee 0x0088 ([0, 0] ++ body)
    have hq : readLe16 ([0, 0] ++ body) 0 = some 0 := rfl
    have hs : strip ([0, 0] ++ body) 2 = some body := by
      rw [strip, if_neg (by simp)]
      rfl
    simp only [rxFrame, h0, h4, h10, h24, hne, if_false]
    rw [if_neg (by decide), if_pos (by decide)]
    simp only [hq, hs]
    rw [if_neg (by decide), hrx]
  · obtain ⟨h0, h4, h10, h24⟩ := awdlHdr_reads src dst ieee 0x0008 body
    simp only [rxFrame, h0, h4, h10, h24, hne, if_false]
    rw [if_neg (by decide), if_neg (by decide), if_pos (by decide), hrx]

end Data

/-! ### From daemon to daemon -/

/-- **An action frame is heard as it was meant.**  What one daemon says about itself, another one that does
not ignore it has in its table afterwards; it follows its master at once, gives its host nothing, and
nothing else of it changes but, at its sync master's frame, the clock. -/
theorem receiveFrame_actionFrame {radiotap : Buf → Option Radiotap} {frame : Buf} {hdr : Radiotap}
    {a : State} {d : Daemon} {ieee : Ieee80211State} {type : ActionType} {steadyTime sent : UInt64}
    (hair : OnAir radiotap ((initFullActionFrame a ieee type steadyTime sent).1.drop 9) frame hdr)
    (hne : a.selfAddress ≠ d.state.selfAddress) (hpm : d.state.sync.presenceMode = 4)
    (hweak : d.state.tooWeak a.selfAddress hdr.rssi = false) (list : ChanSeq) (now : UInt64) :
    ∃ b, d.receiveFrame radiotap list frame now = ({ d with state := b.adoptMasterChanseq }, []) ∧
      @Hears list (rxClockTime d.state.rxClock hdr.tsft now).1 sent a type
        { d.state with rxClock := (rxClockTime d.state.rxClock hdr.tsft now).2 } b := by
  obtain ⟨b, hrx, hears⟩ := rx_actionFrame hair hne hpm hweak list now
  refine ⟨b, ?_, hears⟩
  obtain ⟨calls, hrest⟩ := hears.rest
  have hcount : b.stats.rxAction ≠ d.state.stats.rxAction := by
    have hstats : b.stats.rxAction = d.state.stats.rxAction + 1 := by
      rw [hrest]
      show (State.synced _ _ _ _ _).stats.rxAction = _
      unfold State.synced
      split_ifs <;> rfl
    rw [hstats]
    simp
  rw [Daemon.receiveFrame_ok hrx (Nat.zero_le _), if_pos hcount]
  rfl

theorem receiveFrame_actionFrame_fresh :
    let a := Daemon.fresh ⟨[2, 0, 0, 0, 0, 1], rfl⟩
    let d := Daemon.fresh ⟨[2, 0, 0, 0, 0, 2], rfl⟩
    ∃ frame, ∃ b : State, ∃ p : Peer, d.receiveFrame plainRadio (fun _ => chanNull) frame 0 =
        ({ d with state := b.adoptMasterChanseq }, []) ∧
      b.peers.peers.get a.state.selfAddress = some p ∧ p.election = a.state.election := by
  intro a d
  obtain ⟨b, hrx, hears⟩ := receiveFrame_actionFrame
    (onAir_plain ((initFullActionFrame a.state ieee80211InitState .mif 0 0).1.drop 9))
    (d := d) (by decide) rfl rfl (fun _ => chanNull) 0
  obtain ⟨p, hp, hph⟩ := hears.entry
  exact ⟨_, _, p, hrx, hp, hph.election⟩

/-! ### From host to host -/

theorem octets_of_read {b : Buf} {offset : ℕ} {a : EtherAddr} (h : readEtherAddr b offset = some a) :
    a.octets = (b.drop offset).take 6 ∧ offset + 6 ≤ b.length := by
  obtain ⟨x, hx, hax⟩ := Option.bind_eq_some_iff.mp h
  unfold readBytes at hx
  split_ifs at hx with hlen
  obtain rfl := Option.some.inj hx
  split_ifs at hax
  obtain rfl := Option.some.inj hax
  exact ⟨rfl, by omega⟩

/-- The EtherType of a frame that has one. -/
theorem readBe16_take_drop {b : Buf} {t : UInt16} (h : readBe16 b 12 = some t) (u : UInt16) :
    b.take 12 ++ (be16 u ++ b.drop 14) = b ↔ t = u := by
  obtain ⟨x, hx, hxt⟩ := Option.map_eq_some_iff.mp h
  unfold readBytes at hx
  split_ifs at hx with hlen
  obtain rfl := Option.some.inj hx
  have hsplit : b = b.take 12 ++ ((b.drop 12).take 2 ++ b.drop 14) := by
    conv_lhs => rw [← List.take_append_drop 12 b, ← List.take_append_drop 2 (b.drop 12), List.drop_drop]
  have htwo : ((b.drop 12).take 2).length = 2 := by
    rw [List.length_take, List.length_drop]
    omega
  have hbytes : be16 t = (b.drop 12).take 2 := by
    have hlt : ofBytes ((b.drop 12).take 2) < 2 ^ 16 := by
      have := ofBytes_lt ((b.drop 12).take 2)
      rwa [htwo] at this
    rw [be16, ← hxt, UInt16.toNat_ofNat_of_lt' hlt]
    have := toBytes_ofBytes ((b.drop 12).take 2)
    rwa [htwo] at this
  constructor
  · intro he
    have hrest := List.append_cancel_left (he.trans hsplit)
    have hu : be16 u = be16 t :=
      (List.append_inj_left hrest ((length_be16 u).trans htwo.symm)).trans hbytes.symm
    have := congrArg (fun x => UInt16.ofNat (ofBytes x)) hu
    simpa using this.symm
  · rintro rfl
    rw [hbytes]
    exact hsplit.symm

/-- **From host to host**: what a daemon injects in any run, another one that has heard of the sender hands
to its host with the same addresses and payload and with the EtherType of IPv6; it is the same frame
exactly if that is its type. -/
theorem run_delivered {d : Daemon} {radiotap : Buf → Option Radiotap} {num : ℕ} {opts : Options}
    {hostname : Buf} {self : EtherAddr} {t₀ : UInt64} {sui : UInt16}
    {memory : ℕ → { f : HostFrame // f.isMulticast = true }}
    (h : Daemon.start num opts hostname self t₀ sui memory = some d) (evs : List Daemon.Event)
    {f : HostFrame} {bytes : Buf} {state : State} {sent : UInt64}
    (hair : Effect.air f bytes state sent ∈ (d.run radiotap evs).2) :
    ∃ src delivered, readEtherAddr f.bytes 6 = some src ∧
      delivered = f.bytes.take 12 ++ (be16 0x86dd ++ f.bytes.drop 14) ∧
      (delivered = f.bytes ↔ readBe16 f.bytes 12 = some 0x86dd) ∧
      ∀ (b : Daemon) (radiotap : Buf → Option Radiotap) (list : ChanSeq) (frame : Buf) (hdr : Radiotap)
        (now : UInt64), OnAir radiotap (bytes.drop 9) frame hdr → src ≠ b.state.selfAddress →
        (b.state.peers.peers.get src).isSome →
        (b.receiveFrame radiotap list frame now).2 = [.deliver delivered] := by
  obtain ⟨src, dst, ieee, hdst, hsrc, htype, rfl⟩ := (Daemon.run_good h evs _ hair).1
  obtain ⟨type, htype⟩ := Option.isSome_iff_exists.mp htype
  refine ⟨src, f.bytes.take 12 ++ (be16 0x86dd ++ f.bytes.drop 14), hsrc, rfl, ?_, ?_⟩
  · rw [readBe16_take_drop htype, htype, Option.some.injEq]
  · intro b radiotap list frame hdr now hon hne hpeer
    have heth : etherFrame dst src 0x86dd (f.bytes.drop 14) =
        f.bytes.take 12 ++ (be16 0x86dd ++ f.bytes.drop 14) := by
      have h12 : f.bytes.take 12 = f.bytes.take 6 ++ (f.bytes.drop 6).take 6 := by
        rw [← List.take_add]
      rw [etherFrame, (octets_of_read hdst).1, (octets_of_read hsrc).1, List.drop_zero, h12,
        List.append_assoc]
    have hrx := rx_onAir hon list now b.state
    rw [rxFrame_dataFrame (b := { b.state with
      rxClock := (rxClockTime b.state.rxClock hdr.tsft now).2 }) list hdr.rssi _ state ieee _ hne hpeer,
      heth] at hrx
    rw [Daemon.receiveFrame_ok hrx (Nat.one_le_ofNat)]
    rfl

theorem run_delivered_fresh :
    let known : Peers := ⟨[peerNew ⟨[2, 0, 0, 0, 0, 1], rfl⟩], by decide⟩
    let b := Daemon.fresh ⟨[2, 0, 0, 0, 0, 2], rfl⟩
    ∃ f bytes state sent delivered, Effect.air f bytes state sent ∈
        ((Daemon.fresh ⟨[2, 0, 0, 0, 0, 1], rfl⟩).run (fun _ => none) Daemon.oneFrame).2 ∧
      ({ b with state := b.state.withPeers known }.receiveFrame plainRadio (fun _ => chanNull)
        (plainFrame (bytes.drop 9)) 0).2 = [.deliver delivered] ∧ delivered ≠ f.bytes := by
  intro known b
  obtain ⟨bytes, state, sent, hair⟩ := Daemon.air_oneFrame
  obtain ⟨src, delivered, hsrc, -, hsame, hrx⟩ := run_delivered (Daemon.start_fresh _) Daemon.oneFrame hair
  obtain rfl := Option.some.inj (hsrc.symm.trans rfl)
  exact ⟨_, bytes, state, sent, delivered, hair,
    hrx _ plainRadio (fun _ => chanNull) _ {} 0 (onAir_plain _) (by decide) rfl,
    fun he => absurd (hsame.mp he) (by decide)⟩

/-! ### Frames that come in one -/

/-- A subframe of an A-MSDU: a data frame behind a header of its own, whose length has two bytes, and what
fills it up to a multiple of four where another one follows. -/
structure Subframe where
  dst : EtherAddr
  src : EtherAddr
  head : Buf
  etherType : UInt16
  payload : Buf
  pad : Buf
  head_eq : head.length = 6
  fits : payload.length + 16 < 2 ^ 16
  pad_eq : pad.length = amsduPadding (payload.length + 16)

namespace Subframe

def body (f : Subframe) : Buf := dataBody f.head f.etherType f.payload

def bytes (f : Subframe) : Buf :=
  f.dst.octets ++ (f.src.octets ++ (be16 (UInt16.ofNat f.body.length) ++ f.body))

def ethernet (f : Subframe) : Buf := etherFrame f.dst f.src f.etherType f.payload

/-- The bytes of the subframes, each but the last one filled up. -/
def all : List Subframe → Buf
  | [] => []
  | [f] => f.bytes
  | f :: fs => f.bytes ++ (f.pad ++ all fs)

theorem length_body (f : Subframe) : f.body.length = f.payload.length + 16 := by
  simp only [body, dataBody, llcInitAwdlHdr, awdlOui, List.length_append, List.length_cons,
    List.length_nil, length_be16, f.head_eq]
  omega

theorem readSubframeHdr_bytes (f : Subframe) (r : Buf) :
    readSubframeHdr (f.bytes ++ r) = some (f.dst, f.src, f.body.length) ∧
      (f.bytes ++ r).drop 14 = f.body ++ r := by
  have hlen : (UInt16.ofNat f.body.length).toNat = f.body.length :=
    UInt16.toNat_ofNat_of_lt' (by rw [length_body]; exact f.fits)
  have h0 : readEtherAddr (f.bytes ++ r) 0 = some f.dst := by simp [bytes, readEtherAddr]
  have h6 : readEtherAddr (f.bytes ++ r) 6 = some f.src := by simp [bytes, readEtherAddr]
  have h12 : readBe16 (f.bytes ++ r) 12 = some (UInt16.ofNat f.body.length) := by simp [bytes, readBe16]
  refine ⟨by simp only [readSubframeHdr, h0, h6, h12, hlen, Option.bind_eq_bind, Option.bind_some], ?_⟩
  have h14 : 14 = (f.dst.octets ++ (f.src.octets ++ be16 (UInt16.ofNat f.body.length))).length := by simp
  rw [bytes, ← List.append_assoc f.src.octets, ← List.append_assoc, List.append_assoc, h14, List.drop_left]

end Subframe

/-- One subframe, and what follows it. -/
theorem rxDataAmsdu_cons (f : Subframe) (r : Buf) (b : State) : rxDataAmsdu (f.bytes ++ r) b =
    let out := if (b.peers.peers.get f.src).isSome then [f.ethernet] else []
    if r.length = 0 then (.ok, out, b.countData)
    else if amsduPadding f.body.length > r.length then (.tooShort, out, b.countData)
    else
      let (err, more, state) := rxDataAmsdu (r.drop (amsduPadding f.body.length)) b.countData
      (err, out ++ more, state) := by
  obtain ⟨hhdr, hdrop⟩ := f.readSubframeHdr_bytes r
  have hpos : ¬ (f.bytes ++ r).length = 0 := by
    have := readSubframeHdr_length hhdr
    omega
  have hone : ∃ result : RxResult, ¬ result.code < 0 ∧ rxData f.body f.src f.dst b =
      (result, if (b.peers.peers.get f.src).isSome then [f.ethernet] else [], b.countData) := by
    rw [Subframe.body, rxData_body f.head_eq]
    split_ifs
    · exact ⟨.ok, by decide, rfl⟩
    · exact ⟨.ignorePeer, by decide, rfl⟩
  obtain ⟨result, hcode, hone⟩ := hone
  rw [rxDataAmsdu, if_neg hpos]
  split
  · rename_i h
    exact absurd (h.symm.trans hhdr) (by simp)
  · rename_i dst src len h
    obtain ⟨rfl, hlen⟩ := Prod.mk.inj (Option.some.inj (h.symm.trans hhdr))
    obtain ⟨rfl, rfl⟩ := Prod.mk.inj hlen
    have hle : ¬ f.body.length > (f.body ++ r).length := by
      rw [List.length_append]
      omega
    simp only [hdrop, hle, if_false, List.take_left, List.drop_left, hone, hcode]

theorem Subframe.all_ne_nil (f : Subframe) (fs : List Subframe) : (Subframe.all (f :: fs)).length ≠ 0 := by
  have h14 := readSubframeHdr_length (f.readSubframeHdr_bytes []).1
  rw [List.append_nil] at h14
  cases fs with
  | nil =>
    show f.bytes.length ≠ 0
    omega
  | cons g fs =>
    rw [Subframe.all, List.length_append]
    · omega
    · exact List.cons_ne_nil g fs

theorem rxDataAmsdu_all (fs : List Subframe) (b : State) :
    rxDataAmsdu (Subframe.all fs) b =
      (.ok, (fs.filter fun f => (b.peers.peers.get f.src).isSome).map Subframe.ethernet,
        State.countData^[fs.length] b) := by
  induction fs generalizing b with
  | nil =>
    rw [rxDataAmsdu]
    rfl
  | cons f fs ih =>
    have hout : ((f :: fs).filter fun f => (b.peers.peers.get f.src).isSome).map Subframe.ethernet =
        (if (b.peers.peers.get f.src).isSome then [f.ethernet] else []) ++
          (fs.filter fun f => (b.peers.peers.get f.src).isSome).map Subframe.ethernet := by
      rw [List.filter_cons]
      split_ifs <;> rfl
    cases fs with
    | nil =>
      have hbytes : Subframe.all [f] = f.bytes ++ [] := (List.append_nil _).symm
      rw [hbytes, rxDataAmsdu_cons, hout]
      simp
    | cons g fs =>
      have hbytes : Subframe.all (f :: g :: fs) =
          f.bytes ++ (f.pad ++ Subframe.all (g :: fs)) := rfl
      have hne := Subframe.all_ne_nil g fs
      have hpad : f.pad.length = amsduPadding f.body.length := by rw [f.length_body, f.pad_eq]
      have hdrop : (f.pad ++ Subframe.all (g :: fs)).drop (amsduPadding f.body.length) =
          Subframe.all (g :: fs) := List.drop_left' hpad
      rw [hbytes, rxDataAmsdu_cons, hout]
      dsimp only
      rw [if_neg (by rw [List.length_append]; omega),
        if_neg (by rw [List.length_append, hpad]; omega), hdrop, ih b.countData]
      rfl

/-- **An A-MSDU is taken apart into its subframes**: those of known senders go to the host, in order and each
complete, and no others, whatever is between them, if there is room for them all. -/
theorem receiveFrame_amsdu {radiotap : Buf → Option Radiotap} {frame : Buf} {hdr : Radiotap} {d : Daemon}
    {src dst : EtherAddr} {ieee : Ieee80211State} {qos : UInt16} {fs : List Subframe}
    (hair : OnAir radiotap (initAwdlHdr src dst ieee 0x0088 ++ (le16 qos ++ Subframe.all fs)) frame hdr)
    (hqos : qos &&& 0x0080 ≠ 0) (hne : src ≠ d.state.selfAddress) (list : ChanSeq) (now : UInt64) :
    (d.receiveFrame radiotap list frame now).2 =
      if (fs.filter fun f => (d.state.peers.peers.get f.src).isSome).length ≤ 16 then
        (fs.filter fun f => (d.state.peers.peers.get f.src).isSome).map fun f => .deliver f.ethernet
      else [.overrun] := by
  set b := { d.state with rxClock := (rxClockTime d.state.rxClock hdr.tsft now).2 }
  have hrx : rx radiotap list frame now d.state =
      (.ok, (fs.filter fun f => (d.state.peers.peers.get f.src).isSome).map Subframe.ethernet,
        State.countData^[fs.length] b) := by
    obtain ⟨h0, h4, h10, h24⟩ := awdlHdr_reads src dst ieee 0x0088 (le16 qos ++ Subframe.all fs)
    have hq : readLe16 (le16 qos ++ Subframe.all fs) 0 = some qos := by simp [readLe16]
    have hs : strip (le16 qos ++ Subframe.all fs) 2 = some (Subframe.all fs) := by
      have h2 : (le16 qos).length = 2 := by simp
      rw [strip, if_neg (by rw [List.length_append, h2]; omega), ← h2, List.drop_left]
    rw [rx_onAir hair list now d.state]
    simp only [rxFrame, h0, h4, h10, h24, hne, if_false]
    rw [if_neg (by decide), if_pos (by decide)]
    simp only [hq, hs]
    rw [if_pos hqos]
    exact rxDataAmsdu_all fs b
  split_ifs with hroom
  · rw [Daemon.receiveFrame_ok hrx (by rwa [List.length_map]), List.map_map]
    rfl
  · have hover : Daemon.maxNumAmpdu <
        (fs.filter fun f => (d.state.peers.peers.get f.src).isSome).length := Nat.lt_of_not_le hroom
    rw [Daemon.receiveFrame, hrx]
    dsimp only
    rw [List.length_map, if_pos hover]

/-- A subframe with one byte, and one to fill it up. -/
def oneByte (src : EtherAddr) (payload pad : UInt8) : Subframe where
  dst := ⟨[2, 0, 0, 0, 0, 2], rfl⟩
  src := src
  head := [0, 0, 0, 0, 0, 0]
  etherType := 0x86dd
  payload := [payload]
  pad := [pad]
  head_eq := rfl
  fits := Nat.lt_of_sub_eq_succ rfl
  pad_eq := by simp [amsduPadding]

/-- Of three subframes the second is of nobody who is known. -/
theorem receiveFrame_amsdu_three :
    let known : Peers := ⟨[peerNew ⟨[2, 0, 0, 0, 0, 1], rfl⟩], by decide⟩
    let b := Daemon.fresh ⟨[2, 0, 0, 0, 0, 2], rfl⟩
    let first := oneByte ⟨[2, 0, 0, 0, 0, 1], rfl⟩ 7 200
    let last := oneByte ⟨[2, 0, 0, 0, 0, 1], rfl⟩ 9 0
    ({ b with state := b.state.withPeers known }.receiveFrame plainRadio (fun _ => chanNull)
      (plainFrame (initAwdlHdr ⟨[2, 0, 0, 0, 0, 1], rfl⟩ ⟨[2, 0, 0, 0, 0, 2], rfl⟩ ieee80211InitState 0x0088 ++
        (le16 0x0080 ++ Subframe.all [first, oneByte ⟨[2, 0, 0, 0, 0, 3], rfl⟩ 8 100, last]))) 0).2 =
      [.deliver first.ethernet, .deliver last.ethernet] := by
  intro known b first last
  have hqos : (0x0080 : UInt16) &&& 0x0080 ≠ 0 := by decide
  have hne : (⟨[2, 0, 0, 0, 0, 1], rfl⟩ : EtherAddr) ≠ b.state.selfAddress := by decide
  exact receiveFrame_amsdu (d := { b with state := b.state.withPeers known }) (onAir_plain _) hqos hne
    (fun _ => chanNull) 0

end AquaTransport.Awdl
