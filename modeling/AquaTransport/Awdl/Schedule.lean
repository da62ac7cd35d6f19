import AquaTransport.Awdl.Sync

/-!
# AquaTransport.Awdl.Schedule — schedule.c

When a frame may be sent.  The C code gives the time to wait in seconds as a `double`; here it is in
microseconds, which are exact.  `canSendUnicastIn_eq_zero` and `canSendMulticastIn_eq_zero` say what a
wait of zero promises: whoever's clock is within the guard of ours is on the channel we send on.
-/

namespace AquaTransport.Awdl

open SyncState

/-- `AWDL_UNICAST_GUARD_TU`, `AWDL_MULTICAST_GUARD_TU`. -/
def unicastGuardTu : ℕ := 3
def multicastGuardTu : ℕ := 16

/-- The slot of a moment: the current EAW modulo `AWDL_CHANSEQ_LENGTH`. -/
def SyncState.slot (sync : SyncState) (now : UInt64) : Fin 16 :=
  ⟨(sync.currentEaw now % 16).toNat, by
    rw [UInt16.toNat_mod]
    exact Nat.mod_lt _ (by decide)⟩

/-- The slots of which multicast frames make use. -/
def isMulticastSlot (slot : Fin 16) : Bool := slot = 0 || slot = 8 || slot = 10

namespace State

variable (state : State)

/-- The number of the channel planned for a slot. -/
def planned (slot : Fin 16) : UInt8 := chanNum (state.channel.sequence slot) state.channel.enc

def tuned : UInt8 := chanNum state.channel.current state.channel.enc

/-- `awdl_on_scheduled_channel`. -/
def onScheduledChannel (now : UInt64) : Bool :=
  state.planned (state.sync.slot now) != 0 && state.planned (state.sync.slot now) == state.tuned

/-- `awdl_same_channel_as_peer`. -/
def sameChannelAsPeer (now : UInt64) (peer : Peer) : Bool :=
  let ownChan := state.planned (state.sync.slot now)
  let peerChan := chanNum (peer.sequence (state.sync.slot (now + peer.syncOffset))) state.channel.enc
  ownChan != 0 && ownChan == peerChan

/-- `awdl_is_multicast_eaw`. -/
def isMulticastEaw (now : UInt64) : Bool := isMulticastSlot (state.sync.slot now)

/-- `awdl_can_send_in`. -/
def canSendIn (now : UInt64) (guard : ℕ) : ℤ :=
  let nextAw := state.sync.nextAwUs now
  let guard := tuToUsec (UInt64.ofNat guard)
  let eaw := tuToUsec 64
  if nextAw < guard then -(guard - nextAw).toNat
  else if eaw - nextAw < guard then (guard - (eaw - nextAw)).toNat
  else 0

/-- `awdl_can_send_multicast_in`. -/
def canSendMulticastIn (now : UInt64) (guard : ℕ) : ℤ :=
  if !state.isMulticastEaw now then (state.sync.nextAwUs now).toNat
  else if !state.onScheduledChannel now then 1000
  else state.canSendIn now guard

/-- `awdl_can_send_unicast_in`. -/
def canSendUnicastIn (peer : Peer) (now : UInt64) (guard : ℕ) : ℤ :=
  let nextAw := state.sync.nextAwUs now
  let guard := tuToUsec (UInt64.ofNat guard)
  let eaw := tuToUsec 64
  if !state.sameChannelAsPeer now peer then nextAw.toNat
  else if !state.onScheduledChannel now then 1000
  else if nextAw < guard then
    -- the end of the slot
    if state.onScheduledChannel (now + eaw) && state.sameChannelAsPeer (now + eaw) peer then 0
    else -(guard - nextAw).toNat
  else if eaw - nextAw < guard then
    if state.onScheduledChannel (now - eaw) && state.sameChannelAsPeer (now - eaw) peer then 0
    else (guard - (eaw - nextAw)).toNat
  else 0

end State

/-! ### Slots and places -/

/-- The slot of a place in the cycle. -/
def slotOf (place : ℤ) : Fin 16 := ⟨(place / 65536 % 16).toNat, by omega⟩

theorem slotOf_congr {p q : ℤ} (h : p ≡ q [ZMOD 2 ^ 30]) : slotOf p = slotOf q := by
  unfold Int.ModEq at h
  refine Fin.ext ?_
  show (p / 65536 % 16).toNat = (q / 65536 % 16).toNat
  omega

/-- Two places in the same EAW. -/
theorem slotOf_eq {p q : ℤ} (h : p / 65536 = q / 65536) : slotOf p = slotOf q := by
  refine Fin.ext ?_
  show (p / 65536 % 16).toNat = (q / 65536 % 16).toNat
  rw [h]

theorem SyncState.Regular.slot_eq {sync : SyncState} (h : sync.Regular) (now : UInt64) :
    sync.slot now = slotOf (sync.place now.toNat) := by
  have he := h.toNat_currentEaw now
  refine Fin.ext ?_
  show (sync.currentEaw now % 16).toNat = _
  rw [UInt16.toNat_mod]
  show (sync.currentEaw now).toNat % 16 = (sync.place now.toNat / 65536 % 16).toNat
  omega

/-- The same moment of the slot one EAW later or earlier. -/
theorem SyncState.Regular.slot_next {sync : SyncState} (h : sync.Regular) (now : UInt64) :
    sync.slot (now + tuToUsec 64) = slotOf (sync.place now.toNat + 65536) ∧
      sync.slot (now - tuToUsec 64) = slotOf (sync.place now.toNat - 65536) := by
  have hadd : (now + tuToUsec 64).toNat = (now.toNat + 65536) % 18446744073709551616 :=
    UInt64.toNat_add now _
  have hsub : (now - tuToUsec 64).toNat =
      (18446744073709551616 - 65536 + now.toNat) % 18446744073709551616 := UInt64.toNat_sub now _
  have hlt := now.toNat_lt
  rw [h.slot_eq, h.slot_eq, hadd, hsub]
  constructor <;> refine slotOf_congr ?_ <;> unfold place Int.ModEq <;> omega

/-! ### What a wait of zero promises -/

section Guards

variable {state : State} {peer : Peer} {now : UInt64} {guard : ℕ}

/-- The sender's own plan and the peer's are its radio's channel in that slot. -/
def Agrees (state : State) (peer : Peer) (slot : Fin 16) : Prop :=
  state.tuned ≠ 0 ∧ state.planned slot = state.tuned ∧
    chanNum (peer.sequence slot) state.channel.enc = state.tuned

theorem agrees_iff (hoff : peer.syncOffset = 0) (now : UInt64) :
    (state.onScheduledChannel now && state.sameChannelAsPeer now peer) = true ↔
      Agrees state peer (state.sync.slot now) := by
  unfold State.onScheduledChannel State.sameChannelAsPeer Agrees
  rw [hoff, UInt64.add_zero]
  generalize state.planned (state.sync.slot now) = p
  generalize chanNum (peer.sequence (state.sync.slot now)) state.channel.enc = q
  simp only [Bool.and_eq_true, bne_iff_ne, beq_iff_eq, ne_eq]
  constructor
  · rintro ⟨⟨h0, h1⟩, -, h2⟩
    exact ⟨h1 ▸ h0, h1, h2.symm.trans h1⟩
  · rintro ⟨h0, h1, h2⟩
    exact ⟨⟨h1 ▸ h0, h1⟩, h1 ▸ h0, h1.trans h2.symm⟩

/-- A guard as the C code computes it. -/
theorem toNat_guard (hg : guard ≤ 32) : (tuToUsec (UInt64.ofNat guard)).toNat = 1024 * guard := by
  have hlt : guard % 18446744073709551616 = guard := Nat.mod_eq_of_lt (by omega)
  rw [tuToUsec, UInt64.toNat_mul, UInt64.toNat_ofNat']
  show 1024 * (guard % 18446744073709551616) % 18446744073709551616 = _
  omega

/-- Where in its EAW the moment lies. -/
theorem within (h : state.sync.Regular) (now : UInt64) : ∃ x : ℕ, x < 65536 ∧
    state.sync.place now.toNat % 65536 = x ∧ (state.sync.nextAwUs now).toNat = 65536 - x ∧
    (tuToUsec 64 - state.sync.nextAwUs now).toNat = x := by
  have hn := h.toNat_nextAwUs now
  refine ⟨(state.sync.place now.toNat % 65536).toNat, by omega, by omega, by omega, ?_⟩
  rw [UInt64.toNat_sub]
  show (18446744073709551616 - (state.sync.nextAwUs now).toNat + 65536) % 18446744073709551616 = _
  omega

/-- The slots that a moment `d` away may lie in. -/
theorem slotOf_near {p d : ℤ} {x : ℕ} (hx : p % 65536 = x) (hd : -32768 ≤ d) (hd' : d < 32768) :
    (0 ≤ x + d ∧ x + d < 65536 ∧ slotOf (p + d) = slotOf p) ∨
      (65536 ≤ x + d ∧ slotOf (p + d) = slotOf (p + 65536)) ∨
      (x + d < 0 ∧ slotOf (p + d) = slotOf (p - 65536)) := by
  rcases lt_or_ge ((x : ℤ) + d) 0 with h | h
  · exact .inr (.inr ⟨h, slotOf_eq (by omega)⟩)
  · rcases lt_or_ge ((x : ℤ) + d) 65536 with h' | h'
    · exact .inl ⟨h, h', slotOf_eq (by omega)⟩
    · exact .inr (.inl ⟨h', slotOf_eq (by omega)⟩)

/-- **A unicast frame is sent when it can be heard**: the wait is zero exactly if, at every moment that is
the present one for a clock less than the guard away, the radio's channel is the one that we and the
peer have planned. -/
theorem canSendUnicastIn_eq_zero (h : state.sync.Regular) (hoff : peer.syncOffset = 0) (hg : 0 < guard)
    (hg' : guard ≤ 32) : state.canSendUnicastIn peer now guard = 0 ↔
      ∀ d : ℤ, -(1024 * guard) ≤ d → d < 1024 * guard →
        Agrees state peer (slotOf (state.sync.place now.toNat + d)) := by
  obtain ⟨x, hx, hplace, hnext, hpast⟩ := within h now
  have hguard := toNat_guard hg'
  have hagrees := fun now => @agrees_iff state peer hoff now
  have h0 := hagrees now
  have h1 := hagrees (now + tuToUsec 64)
  have h2 := hagrees (now - tuToUsec 64)
  obtain ⟨hslot1, hslot2⟩ := h.slot_next now
  rw [h.slot_eq now] at h0
  rw [hslot1] at h1
  rw [hslot2] at h2
  have hlt : state.sync.nextAwUs now < tuToUsec (UInt64.ofNat guard) ↔ 65536 - x < 1024 * guard := by
    rw [UInt64.lt_iff_toNat_lt, hnext, hguard]
  have hlt' : tuToUsec 64 - state.sync.nextAwUs now < tuToUsec (UInt64.ofNat guard) ↔
      x < 1024 * guard := by
    rw [UInt64.lt_iff_toNat_lt, hpast, hguard]
  set p := state.sync.place now.toNat
  have hnear := fun d hd hd' => slotOf_near hplace (d := d) hd hd'
  by_cases hs : state.sameChannelAsPeer now peer = true ∧ state.onScheduledChannel now = true
  · have hnow : Agrees state peer (slotOf p) := h0.mp (by rw [hs.1, hs.2]; rfl)
    simp only [State.canSendUnicastIn, hs.1, hs.2, Bool.not_true, Bool.false_eq_true, if_false, hlt, hlt']
    split_ifs with hend hok hstart hok
    · refine ⟨fun _ d hd hd' => ?_, fun _ => rfl⟩
      rcases hnear d (by omega) (by omega) with ⟨-, -, he⟩ | ⟨-, he⟩ | ⟨hneg, -⟩
      · rwa [he]
      · rw [he]
        exact h1.mp hok
      · omega
    · refine ⟨fun hz => ?_, fun hall => ?_⟩
      · rw [UInt64.toNat_sub, hguard, hnext] at hz
        omega
      · have hd := hall (65536 - x) (by omega) (by omega)
        rw [slotOf_eq (by omega : (p + (65536 - x)) / 65536 = (p + 65536) / 65536)] at hd
        exact absurd (h1.mpr hd) hok
    · refine ⟨fun _ d hd hd' => ?_, fun _ => rfl⟩
      rcases hnear d (by omega) (by omega) with ⟨-, -, he⟩ | ⟨hbig, -⟩ | ⟨-, he⟩
      · rwa [he]
      · omega
      · rw [he]
        exact h2.mp hok
    · refine ⟨fun hz => ?_, fun hall => ?_⟩
      · rw [UInt64.toNat_sub, hguard, hpast] at hz
        omega
      · have hd := hall (-x - 1) (by omega) (by omega)
        rw [slotOf_eq (by omega : (p + (-x - 1)) / 65536 = (p - 65536) / 65536)] at hd
        exact absurd (h2.mpr hd) hok
    · refine ⟨fun _ d hd hd' => ?_, fun _ => rfl⟩
      rcases hnear d (by omega) (by omega) with ⟨-, -, he⟩ | ⟨hbig, -⟩ | ⟨hneg, -⟩
      · rwa [he]
      · omega
      · omega
  · refine ⟨fun hz => ?_, fun hall => ?_⟩
    · unfold State.canSendUnicastIn at hz
      cases hsame : state.sameChannelAsPeer now peer with
      | false =>
        simp only [hsame, Bool.not_false, if_true, hnext] at hz
        omega
      | true =>
        have hon : state.onScheduledChannel now = false := Bool.eq_false_iff.mpr fun hon => hs ⟨hsame, hon⟩
        simp only [hsame, hon, Bool.not_true, Bool.not_false, Bool.false_eq_true, if_false, if_true] at hz
        omega
    · have hd := hall 0 (by omega) (by omega)
      rw [add_zero] at hd
      have hboth := h0.mpr hd
      rw [Bool.and_eq_true] at hboth
      exact absurd ⟨hboth.2, hboth.1⟩ hs

/-- No two slots for multicast frames follow one another. -/
theorem not_isMulticastSlot_next {p : ℤ} (h : isMulticastSlot (slotOf p) = true) :
    isMulticastSlot (slotOf (p + 65536)) = false ∧ isMulticastSlot (slotOf (p - 65536)) = false := by
  have hval : ∀ q : ℤ, isMulticastSlot (slotOf q) = true ↔
      q / 65536 % 16 = 0 ∨ q / 65536 % 16 = 8 ∨ q / 65536 % 16 = 10 := by
    intro q
    simp only [isMulticastSlot, Bool.or_eq_true, decide_eq_true_eq, Fin.ext_iff, slotOf, or_assoc]
    show (q / 65536 % 16).toNat = 0 ∨ (q / 65536 % 16).toNat = 8 ∨ (q / 65536 % 16).toNat = 10 ↔ _
    omega
  rw [hval] at h
  simp only [Bool.eq_false_iff, ne_eq, hval]
  omega

/-- **A multicast frame is sent when all can hear it**: the wait is zero exactly if every moment less
than the guard away lies in a slot for multicast frames, and the radio is on the channel planned for it. -/
theorem canSendMulticastIn_eq_zero (h : state.sync.Regular) (hg : 0 < guard) (hg' : guard ≤ 32) :
    state.canSendMulticastIn now guard = 0 ↔ state.tuned ≠ 0 ∧
      ∀ d : ℤ, -(1024 * guard) ≤ d → d < 1024 * guard →
        isMulticastSlot (slotOf (state.sync.place now.toNat + d)) = true ∧
          state.planned (slotOf (state.sync.place now.toNat + d)) = state.tuned := by
  obtain ⟨x, hx, hplace, hnext, hpast⟩ := within h now
  have hguard := toNat_guard hg'
  have hlt : state.sync.nextAwUs now < tuToUsec (UInt64.ofNat guard) ↔ 65536 - x < 1024 * guard := by
    rw [UInt64.lt_iff_toNat_lt, hnext, hguard]
  have hlt' : tuToUsec 64 - state.sync.nextAwUs now < tuToUsec (UInt64.ofNat guard) ↔
      x < 1024 * guard := by
    rw [UInt64.lt_iff_toNat_lt, hpast, hguard]
  have hon : state.onScheduledChannel now = true ↔ state.tuned ≠ 0 ∧
      state.planned (slotOf (state.sync.place now.toNat)) = state.tuned := by
    rw [State.onScheduledChannel, h.slot_eq now, Bool.and_eq_true, bne_iff_ne, beq_iff_eq]
    exact ⟨fun ⟨h0, h1⟩ => ⟨h1 ▸ h0, h1⟩, fun ⟨h0, h1⟩ => ⟨h1 ▸ h0, h1⟩⟩
  have hmulti : state.isMulticastEaw now = isMulticastSlot (slotOf (state.sync.place now.toNat)) := by
    rw [State.isMulticastEaw, h.slot_eq now]
  set p := state.sync.place now.toNat
  have hnear := fun d hd hd' => slotOf_near hplace (d := d) hd hd'
  constructor
  · intro hz
    unfold State.canSendMulticastIn State.canSendIn at hz
    cases hm : state.isMulticastEaw now with
    | false =>
      simp only [hm, Bool.not_false, if_true, hnext] at hz
      omega
    | true =>
      cases ho : state.onScheduledChannel now with
      | false =>
        simp only [hm, ho, Bool.not_true, Bool.not_false, Bool.false_eq_true, if_false, if_true] at hz
        omega
      | true =>
        simp only [hm, ho, Bool.not_true, Bool.false_eq_true, if_false, hlt, hlt', UInt64.toNat_sub,
          hguard, hpast, hnext] at hz
        obtain ⟨ht, hp⟩ := hon.mp ho
        refine ⟨ht, fun d hd hd' => ?_⟩
        split_ifs at hz with h1 h2
        · omega
        · omega
        · rcases hnear d (by omega) (by omega) with ⟨-, -, he⟩ | ⟨hbig, -⟩ | ⟨hneg, -⟩
          · rw [he]
            exact ⟨hmulti ▸ hm, hp⟩
          · omega
          · omega
  · rintro ⟨ht, hall⟩
    have h0 := hall 0 (by omega) (by omega)
    rw [add_zero] at h0
    have hm : state.isMulticastEaw now = true := hmulti.trans h0.1
    have ho : state.onScheduledChannel now = true := hon.mpr ⟨ht, h0.2⟩
    obtain ⟨hafter, hbefore⟩ := not_isMulticastSlot_next h0.1
    have h1 : ¬ 65536 - x < 1024 * guard := fun hend => by
      have hd := (hall (65536 - x) (by omega) (by omega)).1
      rw [slotOf_eq (by omega : (p + (65536 - x)) / 65536 = (p + 65536) / 65536), hafter] at hd
      exact Bool.false_ne_true hd
    have h2 : ¬ x < 1024 * guard := fun hstart => by
      have hd := (hall (-x - 1) (by omega) (by omega)).1
      rw [slotOf_eq (by omega : (p + (-x - 1)) / 65536 = (p - 65536) / 65536), hbefore] at hd
      exact Bool.false_ne_true hd
    simp only [State.canSendMulticastIn, State.canSendIn, hm, ho, Bool.not_true, Bool.false_eq_true,
      if_false, hlt, hlt', h1, h2]

end Guards

end AquaTransport.Awdl
