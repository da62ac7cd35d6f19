import AquaTransport.Awdl.ActionFrame

/-!
# AquaTransport.Awdl.Records — which action frames are accepted

The loop of `awdl_rx_action` over whatever bytes stand behind the header is the handlers of its records,
one after another (`tlvLoop_records`).  `rxAction_ok_iff` reads off it which frames are accepted: bytes
that are nothing but records, in the only way that they can be read, all of which their handlers take.
-/

namespace AquaTransport.Awdl

open Tlv

variable {b r : Buf} {t : Tlv} {list : ChanSeq} {tsft : UInt64}

/-! ### One record -/

theorem bytes_eq_tlv (t : Tlv) : t.bytes = tlv t.type t.value := by
  have hlen : (UInt16.ofNat t.value.length).toNat = t.value.length := UInt16.toNat_ofNat_of_lt' t.fits
  rw [Tlv.bytes, Tlv.lengthBytes, tlv, le16, hlen]

theorem readTlv_of_next (h : next b = some (t, r)) :
    readTlv b = some (t.type, t.value) ∧ b.drop (t.value.length + 3) = r := by
  have hb := next_eq_some h
  rw [bytes_eq_tlv] at hb
  rw [hb]
  exact ⟨readTlv_tlv t.fits, by rw [← length_tlv t.type t.value, List.drop_left]⟩

/-- Where no record starts, none is read. -/
theorem readTlv_of_next_none (h : next b = none) : readTlv b = none := by
  match b, h with
  | [], _ => rfl
  | [_], _ => rfl
  | [_, _], _ => rfl
  | type :: lo :: hi :: rest, h =>
    have hlt : ofBytes [hi, lo] < 256 ^ 2 := ofBytes_lt [hi, lo]
    have hlen : (UInt16.ofNat (ofBytes [hi, lo])).toNat = ofBytes [hi, lo] :=
      UInt16.toNat_ofNat_of_lt' (show ofBytes [hi, lo] < 2 ^ 16 by omega)
    have h0 : readU8 (type :: lo :: hi :: rest) 0 = some type := rfl
    have h1 : readLe16 (type :: lo :: hi :: rest) 1 = some (UInt16.ofNat (ofBytes [hi, lo])) := by
      simp [readLe16, readBytes]
    have h3 : readBytes (type :: lo :: hi :: rest) 3 (ofBytes [hi, lo]) = none := by
      simp only [next] at h
      split at h
      · cases h
      · refine if_pos ?_
        simp only [List.length_cons]
        omega
    simp only [readTlv, h0, h1, hlen, h3, Option.bind_eq_bind, Option.bind_some, Option.bind_none]

/-! ### The loop -/

theorem tlvLoop_of_readTlv_none (h : readTlv b = none) : tlvLoop list tsft b = pure b := by
  rw [tlvLoop]
  split
  · rfl
  · rename_i h'
    exact absurd (h.symm.trans h') (by simp)

/-- The handlers of the records, until one fails. -/
def handleAll (list : ChanSeq) (tsft : UInt64) : List Tlv → Handler Unit
  | [] => pure ()
  | t :: ts => do
    let _ ← handleTlv list t.type t.value tsft
    handleAll list tsft ts

/-- The loop is the handlers of all records that can be read, and leaves the bytes after them. -/
theorem tlvLoop_records (b : Buf) (s : Peer × State) : tlvLoop list tsft b s =
    ((handleAll list tsft (records b).1 s).1.map fun _ => (records b).2,
      (handleAll list tsft (records b).1 s).2) := by
  induction hn : b.length using Nat.strong_induction_on generalizing b s with
  | _ n ih =>
    cases hb : next b with
    | none =>
      rw [records_of_none hb, tlvLoop_of_readTlv_none (readTlv_of_next_none hb)]
      rfl
    | some p =>
      obtain ⟨t, r⟩ := p
      obtain ⟨hread, hdrop⟩ := readTlv_of_next hb
      have hlt : r.length < n := by
        have hlen := congrArg List.length (next_eq_some hb)
        rw [List.length_append, length_bytes] at hlen
        omega
      rw [tlvLoop_of_readTlv hread, hdrop, records_of_some hb]
      dsimp only
      rw [handleAll]
      -- the handler of the first record, and the loop over the others
      obtain ⟨result, u, hu⟩ : ∃ result u, handleTlv list t.type t.value tsft s = (result, u) := ⟨_, _, rfl⟩
      cases result with
      | error e => rw [Program.bind_error hu, Program.bind_error hu]; rfl
      | ok a =>
        rw [Program.bind_ok hu, Program.bind_ok hu]
        exact ih r.length hlt r u rfl

/-! ### The frame -/

theorem get_peerAdd_self (state : State) (src : EtherAddr) (now : UInt64) :
    (state.peerAdd src now).peers.peers.get src = some (refreshed (state.peers.peers.get src) src now) := by
  have hget := get_peerAdd state.peers.peers src now src
  rwa [if_pos rfl] at hget

/-- What the loop decides, once a frame is let in. -/
theorem rxAction_of_loud {frame : Buf} {subtype : ActionType} {rssi : Int8} {src : EtherAddr} {state : State}
    (hhdr : parseActionHdr frame = some subtype) (hweak : state.tooWeak src rssi = false) :
    (rxAction list frame rssi tsft src state).1 =
      match (tlvLoop list tsft (frame.drop 16)
        (refreshed (state.peers.peers.get src) src tsft, state.countAction.peerAdd src tsft)).1 with
      | .error _ => .unexpectedFormat
      | .ok rest => if rest.length > 0 then .unexpectedFormat else .ok := by
  have hget : (state.countAction.peerAdd src tsft).peers.peers.get src =
      some (refreshed (state.peers.peers.get src) src tsft) := get_peerAdd_self state.countAction src tsft
  rw [rxAction, hhdr]
  simp only [hweak, Bool.false_eq_true, if_false, hget]
  generalize tlvLoop list tsft (frame.drop 16) _ = end_
  obtain ⟨result, s⟩ := end_
  cases result with
  | error e => rfl
  | ok rest =>
    dsimp only
    split_ifs <;> rfl

/-- **Acceptance of an action frame**: from a sender that is not too weak, exactly the frames are accepted
that have a header and, behind it, nothing but records each of which its handler takes, one after
another from the entry that the sender's address has. -/
theorem rxAction_ok_iff (list : ChanSeq) (frame : Buf) (rssi : Int8) (tsft : UInt64) (src : EtherAddr)
    (state : State) : (rxAction list frame rssi tsft src state).1 = .ok ↔
      (parseActionHdr frame).isSome ∧ state.tooWeak src rssi = false ∧
        ∃ ts s, frame.drop 16 = all ts ∧ handleAll list tsft ts
          (refreshed (state.peers.peers.get src) src tsft, state.countAction.peerAdd src tsft) =
            (.ok (), s) := by
  cases hhdr : parseActionHdr frame with
  | none => simp [rxAction, hhdr]
  | some subtype =>
    by_cases hweak : state.tooWeak src rssi = true
    · simp [rxAction, hhdr, hweak]
    rw [Bool.not_eq_true] at hweak
    rw [rxAction_of_loud hhdr hweak, tlvLoop_records]
    generalize (refreshed (state.peers.peers.get src) src tsft, state.countAction.peerAdd src tsft) = start
    obtain ⟨ts, rest, hrec⟩ : ∃ ts rest, records (frame.drop 16) = (ts, rest) := ⟨_, _, rfl⟩
    obtain ⟨result, s, hs⟩ : ∃ result s, handleAll list tsft ts start = (result, s) := ⟨_, _, rfl⟩
    simp only [hrec, hs, Option.isSome_some, hweak, true_and]
    constructor
    · intro hok
      cases result with
      | error e => cases hok
      | ok u =>
        dsimp only [Except.map] at hok
        split_ifs at hok with hrest
        obtain rfl : rest = [] := List.length_eq_zero_iff.mp (by omega)
        have hbody := (records_eq_iff.mp hrec).1
        rw [List.append_nil] at hbody
        exact ⟨ts, s, hbody, hs⟩
    · rintro ⟨us, s', hus, hs'⟩
      -- the bytes are read as these records and no others
      rw [hus, records_all] at hrec
      obtain ⟨rfl, rfl⟩ := Prod.mk.inj hrec
      obtain ⟨rfl, -⟩ := Prod.mk.inj (hs.symm.trans hs')
      rfl

end AquaTransport.Awdl
