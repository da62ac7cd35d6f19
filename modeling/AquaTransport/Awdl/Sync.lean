import AquaTransport.Awdl.State
import Mathlib.Data.Int.ModEq

/-!
# AquaTransport.Awdl.Sync — sync.c, and the schedule it keeps

Time is cut into extended availability windows of 64 time units of 1024 us, counted modulo `2 ^ 14`.
`place` is the place of a moment in that cycle, in microseconds: everything sync.c computes from the
state is read off it (`toNat_currentEaw`, `toNat_nextAwUs`, `toNat_nextAwTu`), with no trace of the
64-bit wrap of the clock.  `place_updateLast` is what a frame of the sync master does to it.
-/

namespace AquaTransport.Awdl

/-- `ieee80211_usec_to_tu`, `ieee80211_tu_to_usec`. -/
def usecToTu (usec : UInt64) : UInt64 := usec / 1024

def tuToUsec (tu : UInt64) : UInt64 := 1024 * tu

namespace SyncState

/-- `presence_mode * aw_period`, an `int` product that becomes 64 bits wide. -/
def eawPeriod (state : SyncState) : UInt64 :=
  UInt64.ofNat (state.presenceMode.toNat * state.awPeriod.toNat)

/-- `awdl_sync_next_aw_tu`. -/
def nextAwTu (now : UInt64) (state : SyncState) : UInt16 :=
  (state.eawPeriod - usecToTu (now - state.lastUpdate) % state.eawPeriod).toUInt16

/-- `awdl_sync_next_aw_us`. -/
def nextAwUs (now : UInt64) (state : SyncState) : UInt64 :=
  tuToUsec state.eawPeriod - (now - state.lastUpdate) % tuToUsec state.eawPeriod

/-- `awdl_sync_current_aw`. -/
def currentAw (now : UInt64) (state : SyncState) : UInt16 :=
  let timeSince := usecToTu (now - state.lastUpdate)
  (state.awCounter.toUInt64 + timeSince % state.eawPeriod / state.awPeriod.toUInt64 +
    state.presenceMode.toUInt64 * (timeSince / state.eawPeriod)).toUInt16

/-- `awdl_sync_current_eaw`. -/
def currentEaw (now : UInt64) (state : SyncState) : UInt16 :=
  state.currentAw now / state.presenceMode.toUInt16

/-- `awdl_sync_error_tu`; no product of these leaves the range of `int`. -/
def errorTu (now : UInt64) (timeToNextAw awCounter : UInt16) (state : SyncState) : ℤ :=
  ((awCounter / state.presenceMode.toUInt16).toNat - (state.currentEaw now).toNat : ℤ) *
      state.presenceMode.toNat * state.awPeriod.toNat -
    ((timeToNextAw.toNat : ℤ) - (state.nextAwTu now).toNat)

/-- `awdl_sync_update_last`. -/
def updateLast (now : UInt64) (timeToNextAw awCounter : UInt16) (state : SyncState) : SyncState :=
  { state with
    lastUpdate := now - tuToUsec (state.eawPeriod - timeToNextAw.toUInt64)
    awCounter := awCounter &&& 0xfffc }

/-! ### The place in the cycle -/

/-- What every state of the daemon has: nothing changes the period, and the counter is of an EAW. -/
structure Regular (state : SyncState) : Prop where
  presenceMode : state.presenceMode = 4
  awPeriod : state.awPeriod = 16
  awCounter : state.awCounter.toNat % 4 = 0

/-- A moment's place in the cycle of `2 ^ 14` EAWs of `2 ^ 16` us, up to multiples of `2 ^ 30`. -/
def place (state : SyncState) (now : ℤ) : ℤ :=
  (state.awCounter.toNat / 4 : ℕ) * 65536 + (now - state.lastUpdate.toNat)

variable {state : SyncState}

theorem place_add (state : SyncState) (now d : ℤ) : state.place (now + d) = state.place now + d := by
  unfold place
  omega

/-- The time since the last update, and the place it leads to. -/
theorem elapsed (state : SyncState) (now : UInt64) : ∃ k : ℤ, state.place now.toNat =
    (state.awCounter.toNat / 4 : ℕ) * 65536 + (now - state.lastUpdate).toNat + 18446744073709551616 * k := by
  have hsub : (now - state.lastUpdate).toNat =
      (18446744073709551616 - state.lastUpdate.toNat + now.toNat) % 18446744073709551616 :=
    UInt64.toNat_sub now state.lastUpdate
  have hl := state.lastUpdate.toNat_lt
  have hn := now.toNat_lt
  refine ⟨((now.toNat : ℤ) - state.lastUpdate.toNat) / 18446744073709551616, ?_⟩
  unfold place
  omega

theorem Regular.eawPeriod (h : state.Regular) : state.eawPeriod = 64 := by
  rw [SyncState.eawPeriod, h.presenceMode, h.awPeriod]
  rfl

theorem Regular.toNat_currentAw (h : state.Regular) (now : UInt64) :
    ((state.currentAw now).toNat : ℤ) = state.place now.toNat / 16384 % 65536 := by
  obtain ⟨k, hk⟩ := state.elapsed now
  have he : (state.currentAw now).toNat =
      (state.awCounter.toNat + (now - state.lastUpdate).toNat / 16384) % 65536 := by
    have hlt := (now - state.lastUpdate).toNat_lt
    have hc := state.awCounter.toNat_lt
    simp only [currentAw, h.eawPeriod, h.presenceMode, h.awPeriod, usecToTu, UInt64.toNat_toUInt16,
      UInt64.toNat_add, UInt64.toNat_mul, UInt64.toNat_div, UInt64.toNat_mod, UInt16.toNat_toUInt64,
      UInt8.toNat_toUInt64, UInt64.reduceToNat, UInt16.reduceToNat, UInt8.reduceToNat]
    generalize (now - state.lastUpdate).toNat = e at *
    omega
  have hc := h.awCounter
  omega

theorem Regular.toNat_currentEaw (h : state.Regular) (now : UInt64) :
    ((state.currentEaw now).toNat : ℤ) = state.place now.toNat / 65536 % 16384 := by
  have haw := h.toNat_currentAw now
  have he : (state.currentEaw now).toNat = (state.currentAw now).toNat / 4 := by
    rw [currentEaw, h.presenceMode, UInt16.toNat_div]
    rfl
  omega

theorem Regular.toNat_nextAwUs (h : state.Regular) (now : UInt64) :
    ((state.nextAwUs now).toNat : ℤ) = 65536 - state.place now.toNat % 65536 := by
  obtain ⟨k, hk⟩ := state.elapsed now
  have he : (state.nextAwUs now).toNat = 65536 - (now - state.lastUpdate).toNat % 65536 := by
    simp only [nextAwUs, h.eawPeriod, tuToUsec, UInt64.toNat_sub, UInt64.toNat_mod, UInt64.reduceToNat,
      UInt64.reduceMul]
    generalize (18446744073709551616 - state.lastUpdate.toNat + now.toNat) % 18446744073709551616 = e
    omega
  omega

theorem Regular.toNat_nextAwTu (h : state.Regular) (now : UInt64) :
    ((state.nextAwTu now).toNat : ℤ) = 64 - state.place now.toNat % 65536 / 1024 := by
  obtain ⟨k, hk⟩ := state.elapsed now
  have he : (state.nextAwTu now).toNat = 64 - (now - state.lastUpdate).toNat / 1024 % 64 := by
    simp only [nextAwTu, h.eawPeriod, usecToTu, UInt64.toNat_toUInt16, UInt64.toNat_sub,
      UInt64.toNat_mod, UInt64.toNat_div, UInt64.reduceToNat]
    generalize (18446744073709551616 - state.lastUpdate.toNat + now.toNat) % 18446744073709551616 = e
    omega
  omega

/-! ### What a frame of the sync master does -/

/-- The mask of `updateLast` takes the counter back to the start of its EAW. -/
theorem and_fffc {n : ℕ} (h : n < 2 ^ 16) : n &&& 0xfffc = n / 4 * 4 := by
  have hmask : (0xfffc : ℕ) = (2 ^ 14 - 1) <<< 2 := rfl
  have hshift : n / 4 * 4 = (n >>> 2) <<< 2 := by rw [Nat.shiftLeft_eq, Nat.shiftRight_eq_div_pow]
  refine Nat.eq_of_testBit_eq fun i => ?_
  rw [hmask, hshift, Nat.testBit_and, Nat.testBit_shiftLeft, Nat.testBit_shiftLeft,
    Nat.testBit_two_pow_sub_one, Nat.testBit_shiftRight]
  by_cases hi : 2 ≤ i
  · rw [Nat.add_sub_cancel' hi]
    by_cases hn : i < 16
    · simp [hi, show i - 2 < 14 by omega]
    · have hpow : n < 2 ^ i := h.trans_le (Nat.pow_le_pow_right (by decide) (by omega))
      simp [Nat.testBit_lt_two_pow hpow]
  · simp [hi]

theorem toNat_mask (counter : UInt16) : (counter &&& 0xfffc).toNat = counter.toNat / 4 * 4 := by
  rw [UInt16.toNat_and]
  exact and_fffc counter.toNat_lt

theorem Regular.updateLast (h : state.Regular) (now : UInt64) (timeToNextAw awCounter : UInt16) :
    (state.updateLast now timeToNextAw awCounter).Regular where
  presenceMode := h.presenceMode
  awPeriod := h.awPeriod
  awCounter := by
    show (awCounter &&& 0xfffc).toNat % 4 = 0
    rw [toNat_mask]
    omega

/-- Whatever the frame says, the place becomes the one it says. -/
theorem Regular.place_updateLast (h : state.Regular) (now : UInt64) (timeToNextAw awCounter : UInt16) :
    (state.updateLast now timeToNextAw awCounter).place now.toNat ≡
      (awCounter.toNat / 4 : ℕ) * 65536 + 1024 * (64 - (timeToNextAw.toNat : ℤ)) [ZMOD 2 ^ 30] := by
  have hcount : (awCounter &&& 0xfffc).toNat / 4 = awCounter.toNat / 4 := by
    rw [toNat_mask]
    omega
  have hback : (tuToUsec (state.eawPeriod - timeToNextAw.toUInt64)).toNat =
      (1024 * ((18446744073709551616 - timeToNextAw.toNat + 64) % 18446744073709551616)) %
        18446744073709551616 := by
    rw [tuToUsec, h.eawPeriod, UInt64.toNat_mul, UInt64.toNat_sub, UInt16.toNat_toUInt64]
    rfl
  have hlast : (state.updateLast now timeToNextAw awCounter).lastUpdate.toNat =
      (18446744073709551616 - (tuToUsec (state.eawPeriod - timeToNextAw.toUInt64)).toNat + now.toNat) %
        18446744073709551616 :=
    UInt64.toNat_sub now _
  have ht := timeToNextAw.toNat_lt
  have hn := now.toNat_lt
  show ((awCounter &&& 0xfffc).toNat / 4 : ℕ) * 65536 +
    ((now.toNat : ℤ) - (state.updateLast now timeToNextAw awCounter).lastUpdate.toNat) ≡ _ [ZMOD 2 ^ 30]
  rw [hcount, hlast, hback]
  unfold Int.ModEq
  omega

/-- **A frame of the sync master takes the slave's place to the master's**, at the master's time unit. -/
theorem Regular.place_follow (h : state.Regular) {master : SyncState} (hm : master.Regular)
    (now sent : UInt64) : (state.updateLast now (master.nextAwTu sent) (master.currentAw sent)).place now.toNat ≡
      master.place sent.toNat - master.place sent.toNat % 1024 [ZMOD 2 ^ 30] := by
  refine (h.place_updateLast now _ _).trans ?_
  have haw := hm.toNat_currentAw sent
  have htu := hm.toNat_nextAwTu sent
  unfold Int.ModEq
  omega

end SyncState

end AquaTransport.Awdl
