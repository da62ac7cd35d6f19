import AquaTransport.Lib.Wire
import AquaTransport.Gsa.Foundation
import Mathlib.Tactic.Ring

/-!
# AquaTransport.Maps.Directions — typed waypoints for directions requests

`aq_without_waypoints` and `writeDirections`, with the offsets and counts of the scanner in the range of
an `NSUInteger`.  A read past the end and an offset out of range are faults of their own, which
`aqWithoutWaypoints_spec` excludes.
-/

namespace AquaTransport

open Wire

/-! ### The encoder -/

/-- `aq_varint`. -/
def aqVarint (value : UInt64) : NSData :=
  let byte := (value &&& 127).toUInt8
  let value' := value >>> 7
  if h : value' = 0 then [byte] else (byte ||| 128) :: aqVarint value'
termination_by value.toNat
decreasing_by
  have hne : (value >>> 7).toNat ≠ 0 := fun h0 => h (UInt64.toNat_inj.mp h0)
  rw [UInt64.toNat_shiftRight] at hne ⊢
  simp only [UInt64.reduceToNat, Nat.reduceMod, Nat.shiftRight_eq_div_pow] at hne ⊢
  omega

def aqUint (tag : ℕ) (value : UInt64) : NSData := aqVarint (UInt64.ofNat tag <<< 3) ++ aqVarint value

def aqField (tag : ℕ) (data : NSData) : NSData :=
  aqVarint (UInt64.ofNat tag <<< 3 ||| 2) ++ aqVarint (UInt64.ofNat data.length) ++ data

/-- `aq_double`, of a double by its bits. -/
def aqDouble (tag : ℕ) (bits : UInt64) : NSData :=
  aqVarint (UInt64.ofNat tag <<< 3 ||| 1) ++
    (List.range 8).map fun i => (bits >>> UInt64.ofNat (8 * i)).toUInt8

/-! ### The scanner -/

inductive Arch
  | i386
  | x86_64

/-- The width of an `NSUInteger`. -/
def Arch.bits : Arch → ℕ
  | .i386 => 32
  | .x86_64 => 64

/-- How a scan ends without a value. -/
inductive Fault
  /-- `NO` or `nil` is returned. -/
  | refused
  /-- Bytes past the end are read. -/
  | past
  /-- An `NSUInteger` does not hold the result. -/
  | wrapped

def Arch.add (A : Arch) (a b : ℕ) : Except Fault ℕ :=
  if a + b < 2 ^ A.bits then .ok (a + b) else .error .wrapped

def Arch.sub (_ : Arch) (a b : ℕ) : Except Fault ℕ := if b ≤ a then .ok (a - b) else .error .wrapped

section Model

variable (A : Arch) (data : NSData)

def byteAt (i : ℕ) : Except Fault UInt8 :=
  match data[i]? with
  | some b => .ok b
  | none => .error .past

def subdataWithRange (start size : ℕ) : Except Fault NSData :=
  if start + size ≤ data.length then .ok ((data.drop start).take size) else .error .past

/-- The loop of `aq_read_varint`, for at most that many rounds. -/
def readVarintLoop : ℕ → ℕ → ℕ → UInt64 → Except Fault (UInt64 × ℕ)
  | 0, _, _, _ => .error .refused
  | rounds + 1, shift, offset, value =>
    if shift < 64 ∧ offset < data.length then do
      let b ← byteAt data offset
      let offset ← A.add offset 1
      if shift = 63 ∧ 1 < b then .error .refused
      else
        let value := value ||| ((b &&& 127).toUInt64 <<< UInt64.ofNat shift)
        if b &&& 128 = 0 then pure (value, offset)
        else readVarintLoop rounds (shift + 7) offset value
    else .error .refused

/-- `aq_read_varint`.  The shift is below 64 in ten rounds. -/
def aqReadVarint (offset : ℕ) : Except Fault (UInt64 × ℕ) := readVarintLoop A data 10 0 offset 0

/-- The `switch` of `aq_without_waypoints`. -/
def bodyLength (wire : UInt64) (offset : ℕ) : Except Fault (UInt64 × ℕ) :=
  if wire = 0 then (aqReadVarint A data offset).map fun p => (0, p.2)
  else if wire = 1 then .ok (8, offset)
  else if wire = 2 then aqReadVarint A data offset
  else if wire = 5 then .ok (4, offset)
  else .error .refused

/-- The offset after a body of a wire type. -/
def skipBody (wire : UInt64) (offset : ℕ) : Except Fault ℕ := do
  let (length, offset) ← bodyLength A data wire offset
  let left ← A.sub data.length offset
  if left < length.toNat then .error .refused
  else A.add offset (length.toNat % 2 ^ A.bits)

/-- The variables of the loop of `aq_without_waypoints`. -/
structure Scan where
  offset : ℕ := 0
  out : NSData := []
  count : ℕ := 0
  hasCount : Bool := false

def scanStep (s : Scan) : Except Fault Scan := do
  let (tag, offset) ← aqReadVarint A data s.offset
  if tag >>> 3 = 0 ∨ (0x1fffffff : UInt64) < tag >>> 3 ∨ tag >>> 3 = 22 then .error .refused
  else do
    let offset ← skipBody A data (tag &&& 7) offset
    if tag >>> 3 = 2 then
      if tag &&& 7 ≠ 2 then .error .refused
      else do
        let count ← A.add s.count 1
        pure { s with offset := offset, count := count }
    else do
      let size ← A.sub offset s.offset
      let field ← subdataWithRange data s.offset size
      pure { s with
        offset := offset
        out := s.out ++ field
        hasCount := s.hasCount || decide (tag >>> 3 = 3) }

/-- The loop, for at most that many rounds; `none` when there are more. -/
def scanLoop : ℕ → Scan → Option (Except Fault Scan)
  | 0, _ => none
  | rounds + 1, s =>
    if s.offset < data.length then
      match scanStep A data s with
      | .ok t => scanLoop rounds t
      | .error e => some (.error e)
    else some (.ok s)

/-- `aq_without_waypoints`, with `hasCount`. -/
def aqWithoutWaypoints (expected : ℕ) : Option (Except Fault (NSData × Bool)) :=
  (scanLoop A data (data.length + 1) {}).map fun r => r.bind fun s =>
    if s.count = expected then .ok (s.out, s.hasCount) else .error .refused

end Model

/-! ### The request -/

/-- What `aq_typed_waypoint` finds: a location, with the data that its writer has, or the entry points'
center, as the bits of its latitude and longitude, where they have one. -/
inductive Waypoint
  | location (data : Option NSData)
  | points (center : Option (UInt64 × UInt64))

/-- `aq_native_data`. -/
def aqNativeData (result : Option NSData) : Option NSData :=
  result.filter fun d => d.length ≤ 4 * 1024 * 1024

def aqTypedWaypoint : Waypoint → Option NSData
  | .location data => (aqNativeData data).map fun payload =>
      aqUint 1 4 ++ aqField 4 (aqField 1 payload) ++ aqUint 5 1
  | .points center => center.map fun c =>
      aqUint 1 2 ++ aqField 2 (aqField 3 (aqDouble 1 c.1 ++ aqDouble 2 c.2) ++ aqUint 7 16)

/-- What `writeDirections` gets.  What raises an exception is `none`. -/
structure DirectionsRequest where
  /-- `waypoints`, where it is an array. -/
  waypoints : Option (List Waypoint)
  /-- The writer is a `PBDataWriter`. -/
  isWriter : Bool
  /-- What the original method writes. -/
  native : Option NSData

/-- `writeDirections`: the data that it writes, or `none` for the native serialization. -/
def writeDirections (A : Arch) (req : DirectionsRequest) : Option NSData :=
  match req.waypoints with
  | none => none
  | some waypoints =>
    if waypoints ≠ [] ∧ waypoints.length ≤ 64 ∧ req.isWriter = true then
      match waypoints.mapM aqTypedWaypoint with
      | none => none
      | some typed =>
        let native := req.native.getD []
        if native.length ≤ 4 * 1024 * 1024 then
          match aqWithoutWaypoints A native typed.length with
          | some (.ok (output, hasCount)) =>
            some (output ++ (if hasCount then [] else aqUint 3 3) ++ typed.flatMap (aqField 22))
          | _ => none
        else none
    else none

/-! ### Bytes and words -/

section Words

variable {b : UInt8} {v acc : UInt64} {shift : ℕ}

theorem toNat_low7 (b : UInt8) : (b &&& 127).toUInt64.toNat = b.toNat % 128 := by
  rw [UInt8.toNat_toUInt64, UInt8.toNat_and]
  exact Nat.and_two_pow_sub_one_eq_mod b.toNat 7

theorem high_eq_zero_iff : b &&& 128 = 0 ↔ b.toNat < 128 := by
  have h : ∀ i : Fin 256, i.val &&& 128 = i.val / 128 * 128 := by decide +kernel
  have hb : (b &&& 128).toNat = b.toNat / 128 * 128 := by
    rw [UInt8.toNat_and]
    exact h ⟨b.toNat, b.toNat_lt⟩
  rw [← UInt8.toNat_inj, hb]
  show b.toNat / 128 * 128 = 0 ↔ _
  omega

theorem toNat_shr (v : UInt64) (h : shift < 64) : (v >>> UInt64.ofNat shift).toNat = v.toNat / 2 ^ shift := by
  rw [UInt64.toNat_shiftRight, UInt64.toNat_ofNat', Nat.mod_eq_of_lt (by omega : shift < 2 ^ 64),
    Nat.mod_eq_of_lt h, Nat.shiftRight_eq_div_pow]

/-- A group of bits goes on top of those below it. -/
theorem toNat_or_shl (hs : shift < 64) (hacc : acc.toNat < 2 ^ shift)
    (hv : v.toNat * 2 ^ shift < 2 ^ 64) :
    (acc ||| v <<< UInt64.ofNat shift).toNat = acc.toNat + 2 ^ shift * v.toNat := by
  rw [UInt64.toNat_or, UInt64.toNat_shiftLeft, UInt64.toNat_ofNat',
    Nat.mod_eq_of_lt (by omega : shift < 2 ^ 64), Nat.mod_eq_of_lt hs, Nat.shiftLeft_eq,
    Nat.mod_eq_of_lt hv, Nat.or_comm, Nat.mul_comm, ← Nat.two_pow_add_eq_or_of_lt hacc]
  omega

theorem toNat_group (v : UInt64) : ((v &&& 127).toUInt8).toNat = v.toNat % 128 := by
  rw [UInt64.toNat_toUInt8, UInt64.toNat_and]
  have h := Nat.and_two_pow_sub_one_eq_mod v.toNat 7
  rw [show (127 : UInt64).toNat = 2 ^ 7 - 1 from rfl, h]
  omega

theorem toNat_or128 (h : b.toNat < 128) : (b ||| 128).toNat = b.toNat + 128 := by
  rw [UInt8.toNat_or, Nat.or_comm]
  exact (Nat.two_pow_add_eq_or_of_lt (i := 7) h 1).symm.trans (by omega)

/-- `aq_varint` writes the shortest varint. -/
theorem aqVarint_eq (value : UInt64) : aqVarint value = varint value.toNat := by
  have h7 (v : UInt64) : (v >>> 7).toNat = v.toNat / 128 := toNat_shr v (by decide : 7 < 64)
  induction value using aqVarint.induct with
  | case1 value byte h =>
    have hsmall : value.toNat < 128 := by
      have := h7 value
      rw [show value >>> 7 = 0 from h] at this
      have h0 : (0 : UInt64).toNat = 0 := rfl
      omega
    unfold aqVarint varint
    rw [dif_pos h, if_pos hsmall]
    congr 1
    rw [← UInt8.toNat_inj, toNat_group, UInt8.toNat_ofNat']
    omega
  | case2 value byte h ih =>
    have hlarge : ¬ value.toNat < 128 := by
      intro hlt
      refine h (UInt64.toNat_inj.mp ?_)
      rw [h7]
      exact Nat.div_eq_of_lt hlt
    unfold aqVarint varint
    rw [dif_neg h, if_neg hlarge, ih, h7]
    congr 1
    rw [← UInt8.toNat_inj, toNat_or128 (by rw [toNat_group]; omega), toNat_group, UInt8.toNat_ofNat']
    omega

end Words

/-! ### The scanner, on the bytes that are left -/

section Scanner

variable {A : Arch} {data : NSData} {offset : ℕ}

theorem Arch.add_eq {a b : ℕ} (h : a + b < 2 ^ A.bits) : A.add a b = .ok (a + b) := if_pos h

theorem Arch.sub_eq {a b : ℕ} (h : b ≤ a) : A.sub a b = .ok (a - b) := if_pos h

theorem length_drop_lt {b : UInt8} {l : NSData} (h : data.drop offset = b :: l) :
    offset < data.length ∧ byteAt data offset = .ok b ∧ data.drop (offset + 1) = l := by
  have hlen : offset < data.length := by
    by_contra hge
    rw [List.drop_eq_nil_of_le (by omega)] at h
    simp at h
  rw [List.drop_eq_getElem_cons hlen] at h
  obtain ⟨rfl, hl⟩ := List.cons_eq_cons.mp h
  refine ⟨hlen, ?_, hl⟩
  unfold byteAt
  rw [List.getElem?_eq_getElem hlen]

/-- The loop reads the varint that is at the offset. -/
theorem readVarintLoop_eq (hd : data.length < 2 ^ A.bits) {rounds shift : ℕ} {acc : UInt64}
    (hs : shift + 7 * rounds = 70) (hacc : acc.toNat < 2 ^ shift) :
    readVarintLoop A data rounds shift offset acc =
      match splitVarint rounds (data.drop offset) with
      | some (bs, _) => .ok (UInt64.ofNat (acc.toNat + 2 ^ shift * value bs), offset + bs.length)
      | none => .error .refused := by
  induction rounds generalizing shift offset acc with
  | zero => rfl
  | succ rounds ih =>
    unfold readVarintLoop
    cases hl : data.drop offset with
    | nil =>
      have : data.length ≤ offset := List.drop_eq_nil_iff.mp hl
      rw [if_neg (by omega)]
      rfl
    | cons b l =>
      obtain ⟨hlt, hbyte, hdrop⟩ := length_drop_lt hl
      rw [if_pos ⟨by omega, hlt⟩, hbyte, Arch.add_eq (by omega)]
      have hb1 : 1 < b ↔ 2 ≤ b.toNat := by
        rw [UInt8.lt_iff_toNat_lt]
        rfl
      have h63 : shift = 63 ↔ rounds = 0 := by omega
      show (if shift = 63 ∧ 1 < b then _ else _) =
        match (if b.toNat < 128 then if rounds = 0 ∧ 2 ≤ b.toNat then none else some ([b], l)
          else (splitVarint rounds l).map fun p => (b :: p.1, p.2)) with
        | some (bs, _) => Except.ok (UInt64.ofNat (acc.toNat + 2 ^ shift * value bs), offset + bs.length)
        | none => Except.error Fault.refused
      by_cases hbig : rounds = 0 ∧ 2 ≤ b.toNat
      · -- the tenth byte is too large
        rw [if_pos ⟨h63.mpr hbig.1, hb1.mpr hbig.2⟩, if_pos hbig, hbig.1]
        split_ifs <;> rfl
      rw [if_neg fun h => hbig ⟨h63.mp h.1, hb1.mp h.2⟩]
      -- the group fits, since it is 0 or 1 in the tenth round
      have hfit : (b &&& 127).toUInt64.toNat * 2 ^ shift < 2 ^ 64 := by
        rw [toNat_low7]
        rcases Nat.eq_zero_or_pos rounds with h0 | hpos
        · have h1 : b.toNat % 128 ≤ 1 := by omega
          have := Nat.mul_le_mul_right (2 ^ shift) h1
          rw [h63.mpr h0] at this ⊢
          omega
        · have h127 : b.toNat % 128 ≤ 127 := by omega
          have hpow : 2 ^ shift ≤ 2 ^ 56 := Nat.pow_le_pow_right (by decide) (by omega)
          have := Nat.mul_le_mul h127 hpow
          omega
      have hor := toNat_or_shl (v := (b &&& 127).toUInt64) (by omega) hacc hfit
      rw [toNat_low7] at hor
      by_cases hlow : b.toNat < 128
      · rw [if_pos (high_eq_zero_iff.mpr hlow), if_pos hlow, if_neg hbig]
        show Except.ok _ =
          Except.ok (UInt64.ofNat (acc.toNat + 2 ^ shift * (b.toNat % 128 + 128 * 0)), offset + 1)
        rw [Nat.mul_zero, Nat.add_zero (b.toNat % 128), ← hor, UInt64.ofNat_toNat]
      · have hpos : 0 < rounds := by omega
        have hpow : 2 ^ (shift + 7) = 2 ^ shift * 128 := Nat.pow_add 2 shift 7
        have hacc' : (acc ||| (b &&& 127).toUInt64 <<< UInt64.ofNat shift).toNat < 2 ^ (shift + 7) := by
          have h127 := Nat.mul_le_mul_left (2 ^ shift) (show b.toNat % 128 ≤ 127 by omega)
          omega
        rw [if_neg (fun h => hlow (high_eq_zero_iff.mp h)), if_neg hlow, ih (by omega) hacc', hdrop]
        cases hsplit : splitVarint rounds l with
        | none => rfl
        | some p =>
          show Except.ok _ = Except.ok (UInt64.ofNat
            (acc.toNat + 2 ^ shift * (b.toNat % 128 + 128 * value p.1)), offset + (p.1.length + 1))
          rw [hor, hpow]
          congr 2
          · congr 1
            ring
          · omega

/-- `aq_read_varint` reads the varint that is at the offset. -/
theorem aqReadVarint_eq (hd : data.length < 2 ^ A.bits) : aqReadVarint A data offset =
    match splitVarint 10 (data.drop offset) with
    | some (bs, _) => .ok (UInt64.ofNat (value bs), offset + bs.length)
    | none => .error .refused := by
  unfold aqReadVarint
  rw [readVarintLoop_eq hd (by rfl) (by decide)]
  simp

theorem drop_append {l r : NSData} (h : data.drop offset = l ++ r) :
    data.drop (offset + l.length) = r := by
  rw [← List.drop_drop, h, List.drop_left]

theorem length_of_drop {l r : NSData} (ho : offset ≤ data.length) (h : data.drop offset = l ++ r) :
    data.length - (offset + l.length) = r.length ∧ offset + l.length ≤ data.length := by
  have := congrArg List.length h
  rw [List.length_drop, List.length_append] at this
  omega

/-- The rest of `skipBody`, after the `switch`. -/
theorem skip_eq (hd : data.length < 2 ^ A.bits) (ho : offset ≤ data.length) {n : UInt64} :
    (do let left ← A.sub data.length offset
        if left < n.toNat then .error .refused
        else A.add offset (n.toNat % 2 ^ A.bits) : Except Fault ℕ) =
      match splitBytes n.toNat (data.drop offset) with
      | some (bs, _) => .ok (offset + bs.length)
      | none => .error .refused := by
  rw [Arch.sub_eq ho]
  show (if data.length - offset < n.toNat then _ else _) = _
  unfold splitBytes
  rw [List.length_drop]
  split_ifs with h
  · rfl
  · have hn : n.toNat % 2 ^ A.bits = n.toNat := Nat.mod_eq_of_lt (by omega)
    have hl : ((data.drop offset).take n.toNat).length = n.toNat := by
      rw [List.length_take, List.length_drop]
      omega
    rw [hn, Arch.add_eq (by omega)]
    dsimp only
    rw [hl]

/-- `skipBody`, where the `switch` gives a length. -/
theorem skipBody_ok (hd : data.length < 2 ^ A.bits) {wire length : UInt64} {offset' : ℕ}
    (ho : offset' ≤ data.length) (h : bodyLength A data wire offset = .ok (length, offset')) :
    skipBody A data wire offset = match splitBytes length.toNat (data.drop offset') with
      | some (bs, _) => .ok (offset' + bs.length)
      | none => .error .refused := by
  unfold skipBody
  rw [h]
  exact skip_eq hd ho

/-- `skipBody` goes past the body that is at the offset. -/
theorem skipBody_eq (hd : data.length < 2 ^ A.bits) (ho : offset ≤ data.length) {wire : UInt64} :
    skipBody A data wire offset = match splitBody wire.toNat (data.drop offset) with
      | some (bs, _) => .ok (offset + bs.length)
      | none => .error .refused := by
  by_cases h0 : wire = 0
  · subst h0
    show _ = match splitVarint 10 (data.drop offset) with
      | some (bs, _) => Except.ok (offset + bs.length)
      | none => Except.error Fault.refused
    have hb : bodyLength A data 0 offset = (aqReadVarint A data offset).map fun p => (0, p.2) := rfl
    rw [aqReadVarint_eq hd] at hb
    cases hs : splitVarint 10 (data.drop offset) with
    | none =>
      rw [hs] at hb
      unfold skipBody
      rw [hb]
      rfl
    | some p =>
      rw [hs] at hb
      have hl := length_of_drop ho (splitVarint_some hs).1
      exact skipBody_ok hd hl.2 hb
  by_cases h1 : wire = 1
  · subst h1
    have hb : bodyLength A data 1 offset = .ok (8, offset) := rfl
    exact skipBody_ok hd ho hb
  by_cases h2 : wire = 2
  · subst h2
    have hb : bodyLength A data 2 offset = aqReadVarint A data offset := rfl
    rw [aqReadVarint_eq hd] at hb
    show _ = match (splitVarint 10 (data.drop offset)).bind fun p =>
        (splitBytes (value p.1) p.2).map fun q => (p.1 ++ q.1, q.2) with
      | some (bs, _) => Except.ok (offset + bs.length)
      | none => Except.error Fault.refused
    cases hs : splitVarint 10 (data.drop offset) with
    | none =>
      rw [hs] at hb
      unfold skipBody
      rw [hb]
      rfl
    | some p =>
      rw [hs] at hb
      obtain ⟨hdrop, hv⟩ := splitVarint_some hs
      have hl := length_of_drop ho hdrop
      have hval : (UInt64.ofNat (value p.1)).toNat = value p.1 := by
        rw [UInt64.toNat_ofNat']
        exact Nat.mod_eq_of_lt hv.value_lt
      rw [skipBody_ok hd hl.2 hb, drop_append hdrop, hval, Option.bind_some]
      cases splitBytes (value p.1) p.2 with
      | none => rfl
      | some q =>
        show Except.ok _ = Except.ok (offset + (p.1 ++ q.1).length)
        rw [List.length_append, Nat.add_assoc]
  by_cases h5 : wire = 5
  · subst h5
    have hb : bodyLength A data 5 offset = .ok (4, offset) := rfl
    exact skipBody_ok hd ho hb
  · have hnone : splitBody wire.toNat (data.drop offset) = none := by
      have hne (n : ℕ) (hn : n < 2 ^ 64) (h : wire ≠ UInt64.ofNat n) : wire.toNat ≠ n := by
        intro he
        refine h (UInt64.toNat_inj.mp ?_)
        rw [he, UInt64.toNat_ofNat', Nat.mod_eq_of_lt hn]
      unfold splitBody
      split
      · rename_i he
        exact absurd he (hne 0 (by decide) h0)
      · rename_i he
        exact absurd he (hne 1 (by decide) h1)
      · rename_i he
        exact absurd he (hne 2 (by decide) h2)
      · rename_i he
        exact absurd he (hne 5 (by decide) h5)
      · rfl
    rw [hnone]
    unfold skipBody bodyLength
    rw [if_neg h0, if_neg h1, if_neg h2, if_neg h5]
    rfl

/-- What the scanner takes. -/
def Accepted (f : Field) : Prop :=
  1 ≤ f.number ∧ f.number ≤ 0x1fffffff ∧ f.number ≠ 22 ∧ (f.number = 2 → f.wire = 2)

/-- The variables after a field. -/
def Scan.keep (s : Scan) (f : Field) : Scan :=
  if f.number = 2 then { s with offset := s.offset + f.bytes.length, count := s.count + 1 }
  else { s with
    offset := s.offset + f.bytes.length
    out := s.out ++ f.bytes
    hasCount := s.hasCount || decide (f.number = 3) }

theorem toNat_tag {bs : NSData} (h : IsVarint 10 bs) :
    (UInt64.ofNat (value bs) >>> 3).toNat = value bs / 8 ∧
      (UInt64.ofNat (value bs) &&& 7).toNat = value bs % 8 := by
  have hval : (UInt64.ofNat (value bs)).toNat = value bs := by
    rw [UInt64.toNat_ofNat']
    exact Nat.mod_eq_of_lt h.value_lt
  refine ⟨?_, ?_⟩
  · have := toNat_shr (UInt64.ofNat (value bs)) (by decide : 3 < 64)
    rw [hval] at this
    exact this
  · rw [UInt64.toNat_and, hval]
    exact Nat.and_two_pow_sub_one_eq_mod (value bs) 3

theorem eq_iff_toNat {v : UInt64} {n : ℕ} (hn : n < 2 ^ 64) : v = UInt64.ofNat n ↔ v.toNat = n := by
  rw [← UInt64.toNat_inj, UInt64.toNat_ofNat', Nat.mod_eq_of_lt hn]

theorem subdata_eq {l r : NSData} (ho : offset ≤ data.length) (h : data.drop offset = l ++ r) :
    subdataWithRange data offset l.length = .ok l := by
  unfold subdataWithRange
  rw [if_pos (length_of_drop ho h).2, h, List.take_left]

/-- A field at the offset is kept, or refused. -/
theorem scanStep_field (hd : data.length < 2 ^ A.bits) {s : Scan} {f : Field} {r : NSData}
    (hs : s.offset ≤ data.length) (hc : s.count ≤ s.offset)
    (h : data.drop s.offset = f.bytes ++ r) :
    Accepted f ∧ scanStep A data s = .ok (s.keep f) ∨
      ¬ Accepted f ∧ scanStep A data s = .error .refused := by
  have hdrop : data.drop s.offset = f.tag ++ (f.body ++ r) := by
    rw [h, Field.bytes, List.append_assoc]
  have hread : aqReadVarint A data s.offset =
      .ok (UInt64.ofNat (value f.tag), s.offset + f.tag.length) := by
    rw [aqReadVarint_eq hd, hdrop, splitVarint_append f.isTag]
  have ho := (length_of_drop hs hdrop).2
  obtain ⟨hnumber, hwire⟩ := toNat_tag f.isTag
  have hskip : skipBody A data (UInt64.ofNat (value f.tag) &&& 7) (s.offset + f.tag.length) =
      .ok (s.offset + f.bytes.length) := by
    rw [skipBody_eq hd ho, drop_append hdrop, hwire, splitBody_append f.isBody, Field.bytes,
      List.length_append, ← Nat.add_assoc]
  -- the checks of the code are those of `Accepted`
  have hrange : (UInt64.ofNat (value f.tag) >>> 3 = 0 ∨
      (0x1fffffff : UInt64) < UInt64.ofNat (value f.tag) >>> 3 ∨
        UInt64.ofNat (value f.tag) >>> 3 = 22) ↔
      (f.number = 0 ∨ 0x1fffffff < f.number ∨ f.number = 22) := by
    have h0 := eq_iff_toNat (v := UInt64.ofNat (value f.tag) >>> 3) (by decide : 0 < 2 ^ 64)
    have h22 := eq_iff_toNat (v := UInt64.ofNat (value f.tag) >>> 3) (by decide : 22 < 2 ^ 64)
    rw [UInt64.lt_iff_toNat_lt]
    rw [hnumber] at h0 h22 ⊢
    exact or_congr h0 (or_congr Iff.rfl h22)
  have h2 : UInt64.ofNat (value f.tag) >>> 3 = 2 ↔ f.number = 2 := by
    have := eq_iff_toNat (v := UInt64.ofNat (value f.tag) >>> 3) (by decide : 2 < 2 ^ 64)
    rw [hnumber] at this
    exact this
  have h3 : UInt64.ofNat (value f.tag) >>> 3 = 3 ↔ f.number = 3 := by
    have := eq_iff_toNat (v := UInt64.ofNat (value f.tag) >>> 3) (by decide : 3 < 2 ^ 64)
    rw [hnumber] at this
    exact this
  have hw : UInt64.ofNat (value f.tag) &&& 7 = 2 ↔ f.wire = 2 := by
    have := eq_iff_toNat (v := UInt64.ofNat (value f.tag) &&& 7) (by decide : 2 < 2 ^ 64)
    rw [hwire] at this
    exact this
  unfold scanStep
  rw [hread]
  show (_ ∧ (if _ then _ else _) = _) ∨ (_ ∧ (if _ then _ else _) = _)
  by_cases hbad : f.number = 0 ∨ 0x1fffffff < f.number ∨ f.number = 22
  · refine Or.inr ⟨fun ha => ?_, if_pos (hrange.mpr hbad)⟩
    obtain ⟨h1, hmax, hne, -⟩ := ha
    omega
  rw [if_neg (fun hb => hbad (hrange.mp hb)), hskip]
  show (_ ∧ (if _ then (if _ then _ else _) else _) = _) ∨
    (_ ∧ (if _ then (if _ then _ else _) else _) = _)
  have hend := length_of_drop hs h
  have hlen : 0 < f.bytes.length := List.length_pos_iff.mpr Field.bytes_ne_nil
  by_cases hn : f.number = 2
  · rw [if_pos (h2.mpr hn)]
    by_cases hw2 : f.wire = 2
    · refine Or.inl ⟨⟨by omega, by omega, by omega, fun _ => hw2⟩, ?_⟩
      rw [if_neg (not_not.mpr (hw.mpr hw2)), Arch.add_eq (by omega)]
      unfold Scan.keep
      rw [if_pos hn]
      rfl
    · exact Or.inr ⟨fun ha => hw2 (ha.2.2.2 hn), if_pos fun he => hw2 (hw.mp he)⟩
  · refine Or.inl ⟨⟨by omega, by omega, by omega, fun h => absurd h hn⟩, ?_⟩
    rw [if_neg fun he => hn (h2.mp he), Arch.sub_eq (by omega), Nat.add_sub_cancel_left]
    show (do let field ← subdataWithRange data s.offset f.bytes.length; _) = _
    rw [subdata_eq hs h]
    unfold Scan.keep
    rw [if_neg hn]
    show Except.ok _ = Except.ok _
    rw [decide_eq_decide.mpr h3]

/-- Without a field at the offset, the scan ends. -/
theorem scanStep_none (hd : data.length < 2 ^ A.bits) {s : Scan} (hs : s.offset ≤ data.length)
    (h : ∀ (f : Field) r, data.drop s.offset ≠ f.bytes ++ r) :
    scanStep A data s = .error .refused := by
  unfold scanStep
  cases htag : splitVarint 10 (data.drop s.offset) with
  | none =>
    rw [aqReadVarint_eq hd, htag]
    rfl
  | some p =>
    obtain ⟨hdrop, hv⟩ := splitVarint_some htag
    have ho := (length_of_drop hs hdrop).2
    rw [aqReadVarint_eq hd, htag]
    have hbody : splitBody (value p.1 % 8) p.2 = none := by
      cases hbody : splitBody (value p.1 % 8) p.2 with
      | none => rfl
      | some q =>
        obtain ⟨hp, hb⟩ := splitBody_some hbody
        refine absurd ?_ (h ⟨p.1, q.1, hv, hb⟩ q.2)
        rw [hdrop, hp, Field.bytes, List.append_assoc]
    show (if _ then _ else _) = _
    by_cases hbad : UInt64.ofNat (value p.1) >>> 3 = 0 ∨
        (0x1fffffff : UInt64) < UInt64.ofNat (value p.1) >>> 3 ∨ UInt64.ofNat (value p.1) >>> 3 = 22
    · exact if_pos hbad
    · rw [if_neg hbad, skipBody_eq hd ho, drop_append hdrop, (toNat_tag hv).2, hbody]
      rfl

/-- The loop takes all the fields that are left, and ends. -/
theorem scanLoop_eq (hd : data.length < 2 ^ A.bits) {rounds : ℕ} {s : Scan}
    (hs : s.offset ≤ data.length) (hc : s.count ≤ s.offset)
    (hr : data.length - s.offset < rounds) :
    (∃ fs : List Field, data.drop s.offset = encode fs ∧ (∀ f ∈ fs, Accepted f) ∧
        scanLoop A data rounds s = some (.ok (fs.foldl Scan.keep s))) ∨
      scanLoop A data rounds s = some (.error .refused) ∧
        ∀ fs : List Field, data.drop s.offset = encode fs → ¬ ∀ f ∈ fs, Accepted f := by
  induction rounds generalizing s with
  | zero => omega
  | succ rounds ih =>
    unfold scanLoop
    by_cases hlt : s.offset < data.length
    · rw [if_pos hlt]
      by_cases hfield : ∃ (f : Field) (r : NSData), data.drop s.offset = f.bytes ++ r
      · obtain ⟨f, r, h⟩ := hfield
        -- the fields that are left begin with this one
        have hfirst : ∀ fs : List Field, data.drop s.offset = encode fs →
            ∃ gs, fs = f :: gs ∧ r = encode gs := by
          intro fs hfs
          cases fs with
          | nil =>
            have := List.drop_eq_nil_iff.mp hfs
            omega
          | cons g gs =>
            rw [h, encode_cons] at hfs
            obtain ⟨rfl, hr⟩ := Field.bytes_append_inj hfs
            exact ⟨gs, rfl, hr⟩
        rcases scanStep_field hd hs hc h with ⟨ha, hstep⟩ | ⟨ha, hstep⟩
        · rw [hstep]
          have hend := length_of_drop hs h
          have hlen : 0 < f.bytes.length := List.length_pos_iff.mpr Field.bytes_ne_nil
          have hoff : (s.keep f).offset = s.offset + f.bytes.length := by
            unfold Scan.keep
            split_ifs <;> rfl
          have hcount : (s.keep f).count ≤ s.count + 1 := by
            unfold Scan.keep
            split_ifs
            · exact le_rfl
            · exact Nat.le_succ _
          have hih := ih (s := s.keep f) (by omega) (by omega) (by omega)
          rw [hoff, drop_append h] at hih
          rcases hih with ⟨fs, hfs, hall, hloop⟩ | ⟨hloop, hnone⟩
          · refine Or.inl ⟨f :: fs, ?_, List.forall_mem_cons.mpr ⟨ha, hall⟩, hloop⟩
            rw [h, encode_cons, ← hfs]
          · refine Or.inr ⟨hloop, fun fs hfs hall => ?_⟩
            obtain ⟨gs, rfl, hgs⟩ := hfirst fs hfs
            exact hnone gs hgs (List.forall_mem_cons.mp hall).2
        · rw [hstep]
          refine Or.inr ⟨rfl, fun fs hfs hall => ?_⟩
          obtain ⟨gs, rfl, -⟩ := hfirst fs hfs
          exact ha (List.forall_mem_cons.mp hall).1
      · rw [scanStep_none hd hs fun f r h => hfield ⟨f, r, h⟩]
        refine Or.inr ⟨rfl, fun fs hfs _ => ?_⟩
        cases fs with
        | nil =>
          have := List.drop_eq_nil_iff.mp hfs
          omega
        | cons g gs => exact hfield ⟨g, encode gs, hfs⟩
    · rw [if_neg hlt]
      exact Or.inl ⟨[], List.drop_eq_nil_of_le (by omega), by simp, rfl⟩

end Scanner

/-- Field 2 has the native waypoints. -/
def isWaypoint (f : Field) : Bool := f.number = 2

/-- Field 3 has their count. -/
def isCount (f : Field) : Bool := f.number = 3

/-- All that the loop has collected. -/
theorem foldl_keep (fs : List Field) (s : Scan) :
    (fs.foldl Scan.keep s).out = s.out ++ encode (fs.filter fun f => !isWaypoint f) ∧
      (fs.foldl Scan.keep s).count = s.count + fs.countP isWaypoint ∧
      (fs.foldl Scan.keep s).hasCount = (s.hasCount || fs.any isCount) := by
  induction fs generalizing s with
  | nil => simp
  | cons f fs ih =>
    obtain ⟨hout, hcount, hhas⟩ := ih (s.keep f)
    rw [List.foldl_cons, hout, hcount, hhas]
    unfold Scan.keep
    by_cases h2 : f.number = 2
    · have h3 : isCount f = false := by
        unfold isCount
        rw [h2]
        rfl
      have hw : isWaypoint f = true := decide_eq_true h2
      rw [if_pos h2, List.filter_cons_of_neg (by simp [hw]), List.countP_cons_of_pos hw,
        List.any_cons, h3]
      refine ⟨rfl, ?_, by simp⟩
      show s.count + 1 + _ = _
      omega
    · have hw : isWaypoint f = false := decide_eq_false h2
      rw [if_neg h2, List.filter_cons_of_pos (by simp [hw]), List.countP_cons_of_neg (by simp [hw]),
        List.any_cons, encode_cons, ← List.append_assoc, ← Bool.or_assoc]
      exact ⟨rfl, rfl, rfl⟩

/-- The data is a complete message of these fields, with so many waypoints. -/
structure Native (d : NSData) (n : ℕ) (fs : List Field) : Prop where
  bytes : d = encode fs
  accepted : ∀ f ∈ fs, Accepted f
  count : fs.countP isWaypoint = n

/-- **`aq_without_waypoints` ends without a fault, with the other fields exactly where the data is a
message with the expected waypoints.** -/
theorem aqWithoutWaypoints_spec {A : Arch} {d : NSData} (hd : d.length < 2 ^ A.bits) (n : ℕ) :
    (∃ fs, Native d n fs ∧ aqWithoutWaypoints A d n =
        some (.ok (encode (fs.filter fun f => !isWaypoint f), fs.any isCount))) ∨
      aqWithoutWaypoints A d n = some (.error .refused) ∧ ∀ fs, ¬ Native d n fs := by
  have hscan : (∃ fs : List Field, d = encode fs ∧ (∀ f ∈ fs, Accepted f) ∧
        scanLoop A d (d.length + 1) {} = some (.ok (fs.foldl Scan.keep {}))) ∨
      scanLoop A d (d.length + 1) {} = some (.error .refused) ∧
        ∀ fs : List Field, d = encode fs → ¬ ∀ f ∈ fs, Accepted f :=
    scanLoop_eq (s := {}) hd (Nat.zero_le _) (Nat.le_refl 0)
      (show d.length - 0 < d.length + 1 from Nat.lt_succ_self _)
  rcases hscan with ⟨fs, hfs, hall, hloop⟩ | ⟨hloop, hnone⟩
  · obtain ⟨hout, hcount, hhas⟩ := foldl_keep fs {}
    have hend : aqWithoutWaypoints A d n = some (if (fs.foldl Scan.keep {}).count = n then
        .ok ((fs.foldl Scan.keep {}).out, (fs.foldl Scan.keep {}).hasCount)
        else .error .refused) := by
      unfold aqWithoutWaypoints
      rw [hloop]
      rfl
    have hzero : ({} : Scan).count + fs.countP isWaypoint = fs.countP isWaypoint := Nat.zero_add _
    rw [hend, hout, hcount, hhas, hzero]
    by_cases hn : fs.countP isWaypoint = n
    · rw [if_pos hn]
      exact Or.inl ⟨fs, ⟨hfs, hall, hn⟩, rfl⟩
    · rw [if_neg hn]
      refine Or.inr ⟨rfl, fun gs hgs => ?_⟩
      obtain rfl := encode_injective (hfs.symm.trans hgs.bytes)
      exact hn hgs.count
  · refine Or.inr ⟨?_, fun fs h => hnone fs h.bytes h.accepted⟩
    unfold aqWithoutWaypoints
    rw [hloop]
    rfl

/-! ### The message -/

theorem toNat_shl3 {tag : ℕ} (h : tag * 8 < 2 ^ 64) : (UInt64.ofNat tag <<< 3).toNat = tag * 8 := by
  rw [UInt64.toNat_shiftLeft, UInt64.toNat_ofNat', Nat.mod_eq_of_lt (by omega : tag < 2 ^ 64)]
  show tag <<< 3 % 2 ^ 64 = tag * 8
  rw [Nat.shiftLeft_eq, Nat.mod_eq_of_lt h]

theorem aqUint_eq {tag : ℕ} {value : UInt64} (h : tag * 8 < 2 ^ 64) :
    aqUint tag value = (Field.ofVarint tag value.toNat h value.toNat_lt).bytes := by
  unfold aqUint
  rw [aqVarint_eq, aqVarint_eq, toNat_shl3 h]
  rfl

theorem aqField_eq {tag : ℕ} {data : NSData} (h : tag * 8 + 2 < 2 ^ 64)
    (hd : data.length < 2 ^ 64) : aqField tag data = (Field.ofBytes tag data h hd).bytes := by
  have htag : (UInt64.ofNat tag <<< 3 ||| 2).toNat = tag * 8 + 2 := by
    rw [UInt64.toNat_or, toNat_shl3 (by omega), Nat.mul_comm]
    exact (Nat.two_pow_add_eq_or_of_lt (i := 3) (by decide : 2 < 2 ^ 3) tag).symm
  unfold aqField
  rw [aqVarint_eq, aqVarint_eq, htag, UInt64.toNat_ofNat', Nat.mod_eq_of_lt hd, List.append_assoc]
  rfl

theorem length_aqVarint (value : UInt64) : (aqVarint value).length ≤ 10 := by
  rw [aqVarint_eq]
  exact (isVarint_varint (by decide) value.toNat_lt).length_le

theorem length_aqUint (tag : ℕ) (value : UInt64) : (aqUint tag value).length ≤ 20 := by
  have h1 := length_aqVarint (UInt64.ofNat tag <<< 3)
  have h2 := length_aqVarint value
  unfold aqUint
  rw [List.length_append]
  omega

theorem length_aqField (tag : ℕ) (data : NSData) : (aqField tag data).length ≤ data.length + 20 := by
  have h1 := length_aqVarint (UInt64.ofNat tag <<< 3 ||| 2)
  have h2 := length_aqVarint (UInt64.ofNat data.length)
  unfold aqField
  rw [List.length_append, List.length_append]
  omega

theorem length_aqDouble (tag : ℕ) (bits : UInt64) : (aqDouble tag bits).length ≤ 18 := by
  have h := length_aqVarint (UInt64.ofNat tag <<< 3 ||| 1)
  unfold aqDouble
  rw [List.length_append, List.length_map, List.length_range]
  omega

/-- A typed waypoint has a length that a varint can hold. -/
theorem length_aqTypedWaypoint {w : Waypoint} {t : NSData} (h : aqTypedWaypoint w = some t) :
    t.length < 2 ^ 64 := by
  cases w with
  | location data =>
    obtain ⟨payload, hp, rfl⟩ := Option.map_eq_some_iff.mp h
    have hlen : payload.length ≤ 4 * 1024 * 1024 := by
      simpa using (Option.filter_eq_some_iff.mp hp).2
    have h1 := length_aqUint 1 4
    have h2 := length_aqUint 5 1
    have h3 := length_aqField 1 payload
    have h4 := length_aqField 4 (aqField 1 payload)
    rw [List.length_append, List.length_append]
    omega
  | points center =>
    obtain ⟨c, -, rfl⟩ := Option.map_eq_some_iff.mp h
    have h1 := length_aqUint 1 2
    have h2 := length_aqUint 7 16
    have h3 := length_aqDouble 1 c.1
    have h4 := length_aqDouble 2 c.2
    have h5 := length_aqField 3 (aqDouble 1 c.1 ++ aqDouble 2 c.2)
    have h6 := length_aqField 2 (aqField 3 (aqDouble 1 c.1 ++ aqDouble 2 c.2) ++ aqUint 7 16)
    rw [List.length_append] at h5 h6
    rw [List.length_append]
    omega

theorem length_mapM {waypoints : List Waypoint} {typed : List NSData}
    (h : waypoints.mapM aqTypedWaypoint = some typed) : ∀ t ∈ typed, t.length < 2 ^ 64 := by
  induction waypoints generalizing typed with
  | nil =>
    obtain rfl : [] = typed := by simpa using h
    simp
  | cons w waypoints ih =>
    rw [List.mapM_cons] at h
    obtain ⟨t, ht, h⟩ := Option.bind_eq_some_iff.mp h
    obtain ⟨ts, hts, h⟩ := Option.bind_eq_some_iff.mp h
    obtain rfl : t :: ts = typed := Option.some.inj h
    exact List.forall_mem_cons.mpr ⟨length_aqTypedWaypoint ht, ih hts⟩

/-- Field 3 with the value 3. -/
def countField : Field := Field.ofVarint 3 3 (by decide) (by decide)

/-- The entries of field 22 for the typed waypoints. -/
theorem typed_entries {typed : List NSData} (h : ∀ t ∈ typed, t.length < 2 ^ 64) :
    ∃ tail : List Field, (∀ f ∈ tail, f.number = 22 ∧ f.wire = 2) ∧
      tail.map Field.payload = typed ∧ typed.flatMap (aqField 22) = encode tail := by
  induction typed with
  | nil => exact ⟨[], by simp, rfl, rfl⟩
  | cons t typed ih =>
    obtain ⟨ht, hrest⟩ := List.forall_mem_cons.mp h
    obtain ⟨tail, hall, hmap, henc⟩ := ih hrest
    refine ⟨Field.ofBytes 22 t (by decide) ht :: tail, ?_, ?_, ?_⟩
    · exact List.forall_mem_cons.mpr ⟨⟨Field.number_ofBytes, Field.wire_ofBytes⟩, hall⟩
    · rw [List.map_cons, Field.payload_ofBytes, hmap]
    · rw [List.flatMap_cons, encode_cons, aqField_eq (by decide) ht, henc]

/-- The message is that of these fields, and of no others. -/
def Parses (msg : NSData) (fs : List Field) : Prop :=
  msg = encode fs ∧ ∀ gs, msg = encode gs → gs = fs

theorem parses_encode {msg : NSData} {fs : List Field} (h : msg = encode fs) : Parses msg fs :=
  ⟨h, fun _ hgs => encode_injective (hgs.symm.trans h)⟩

/-- The request has these typed waypoints, and a native message of these fields. -/
structure Translatable (req : DirectionsRequest) (typed : List NSData) (fs : List Field) : Prop where
  waypoints : ∃ w, req.waypoints = some w ∧ w ≠ [] ∧ w.length ≤ 64 ∧ w.mapM aqTypedWaypoint = some typed
  writer : req.isWriter = true
  size : (req.native.getD []).length ≤ 4 * 1024 * 1024
  native : Native (req.native.getD []) typed.length fs

/-- The native fields but for the waypoints, field 3 if it was absent, and entries of field 22. -/
def rewritten (fs tail : List Field) : List Field :=
  (fs.filter fun f => !isWaypoint f) ++ (if fs.any isCount then [] else [countField]) ++ tail

theorem encode_rewritten {fs tail : List Field} {typed : List NSData}
    (h : typed.flatMap (aqField 22) = encode tail) :
    encode (fs.filter fun f => !isWaypoint f) ++ (if fs.any isCount then [] else aqUint 3 3) ++
      typed.flatMap (aqField 22) = encode (rewritten fs tail) := by
  have hcount : aqUint 3 3 = encode [countField] := by
    rw [aqUint_eq (by decide), encode_cons, encode_nil, List.append_nil]
    rfl
  unfold rewritten
  rw [encode_append, encode_append, h, hcount]
  split_ifs <;> rfl

theorem size_lt {A : Arch} {d : NSData} (h : d.length ≤ 4 * 1024 * 1024) : d.length < 2 ^ A.bits := by
  have : 2 ^ 32 ≤ 2 ^ A.bits := by
    cases A <;> decide
  omega

/-- What `writeDirections` writes, and when. -/
theorem writeDirections_spec (A : Arch) (req : DirectionsRequest) :
    (∃ typed fs tail msg, Translatable req typed fs ∧ writeDirections A req = some msg ∧
        (∀ f ∈ tail, f.number = 22 ∧ f.wire = 2) ∧ tail.map Field.payload = typed ∧
        Parses msg (rewritten fs tail)) ∨
      writeDirections A req = none ∧ ∀ typed fs, ¬ Translatable req typed fs := by
  unfold writeDirections
  cases hw : req.waypoints with
  | none =>
    refine Or.inr ⟨rfl, fun typed fs h => ?_⟩
    obtain ⟨w, hw', -⟩ := h.waypoints
    simp [hw] at hw'
  | some w =>
    dsimp only
    by_cases hok : w ≠ [] ∧ w.length ≤ 64 ∧ req.isWriter = true
    · rw [if_pos hok]
      cases htyped : w.mapM aqTypedWaypoint with
      | none =>
        refine Or.inr ⟨rfl, fun typed fs h => ?_⟩
        obtain ⟨w', hw', -, -, ht⟩ := h.waypoints
        obtain rfl : w = w' := Option.some.inj (hw.symm.trans hw')
        simp [htyped] at ht
      | some typed =>
        dsimp only
        have hsame : ∀ {typed' fs}, Translatable req typed' fs → typed' = typed := by
          intro typed' fs h
          obtain ⟨w', hw', -, -, ht⟩ := h.waypoints
          obtain rfl : w = w' := Option.some.inj (hw.symm.trans hw')
          exact Option.some.inj (ht.symm.trans htyped)
        by_cases hsize : (req.native.getD []).length ≤ 4 * 1024 * 1024
        · rw [if_pos hsize]
          rcases aqWithoutWaypoints_spec (A := A) (size_lt hsize) typed.length with
            ⟨fs, hfs, hscan⟩ | ⟨hscan, hnone⟩
          · obtain ⟨tail, hall, hmap, henc⟩ := typed_entries (length_mapM htyped)
            rw [hscan]
            exact Or.inl ⟨typed, fs, tail, _, ⟨⟨w, hw, hok.1, hok.2.1, htyped⟩, hok.2.2, hsize, hfs⟩,
              rfl, hall, hmap, parses_encode (encode_rewritten henc)⟩
          · rw [hscan]
            refine Or.inr ⟨rfl, fun typed' fs h => hnone fs ?_⟩
            rw [← hsame h]
            exact h.native
        · rw [if_neg hsize]
          exact Or.inr ⟨rfl, fun typed' fs h => hsize h.size⟩
    · rw [if_neg hok]
      refine Or.inr ⟨rfl, fun typed fs h => hok ?_⟩
      obtain ⟨w', hw', hne, hlen, -⟩ := h.waypoints
      obtain rfl : w = w' := Option.some.inj (hw.symm.trans hw')
      exact ⟨hne, hlen, h.writer⟩

/-- **The directions rewrite preserves the message.** -/
theorem directions_rewrite (A : Arch) :
    (∀ d n, d.length < 2 ^ A.bits →
      (∃ fs, Native d n fs ∧ aqWithoutWaypoints A d n =
          some (.ok (encode (fs.filter fun f => !isWaypoint f), fs.any isCount))) ∨
        aqWithoutWaypoints A d n = some (.error .refused) ∧ ∀ fs, ¬ Native d n fs) ∧
    ∀ req,
      (∃ typed fs tail msg, Translatable req typed fs ∧ writeDirections A req = some msg ∧
          (∀ f ∈ tail, f.number = 22 ∧ f.wire = 2) ∧ tail.map Field.payload = typed ∧
          Parses msg (rewritten fs tail)) ∨
        writeDirections A req = none ∧ ∀ typed fs, ¬ Translatable req typed fs :=
  ⟨fun _ n hd => aqWithoutWaypoints_spec hd n, writeDirections_spec A⟩

/-- An empty waypoint, in overlong bytes, and field 3. -/
theorem directions_rewrite_overlong : ∃ fs, Native [0x92, 0x00, 0x80, 0x00, 0x18, 0x02] 1 fs ∧
    aqWithoutWaypoints .i386 [0x92, 0x00, 0x80, 0x00, 0x18, 0x02] 1 =
      some (.ok (encode (fs.filter fun f => !isWaypoint f), fs.any isCount)) := by
  have hrun : aqWithoutWaypoints .i386 [0x92, 0x00, 0x80, 0x00, 0x18, 0x02] 1 =
    some (.ok ([0x18, 0x02], true)) := rfl
  rcases (directions_rewrite .i386).1 [0x92, 0x00, 0x80, 0x00, 0x18, 0x02] 1 (by decide) with h | ⟨h, -⟩
  · exact h
  · rw [hrun] at h
    simp at h

end AquaTransport
