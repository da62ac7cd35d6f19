import Mathlib.Data.List.Basic
import Mathlib.Tactic.Common

/-!
# AquaTransport.Lib.Utf — text as UTF-16 and as UTF-8

`chars s` reads UTF-16 code units as characters; there are none when a surrogate stands alone.
`units` writes them again (`units_of_chars`).  `toUtf8` and `ofUtf8` go between code units and UTF-8
bytes, and what has bytes is what they give back (`ofUtf8_toUtf8`).
-/

namespace AquaTransport.Utf

def isHigh (u : UInt16) : Bool := 0xD800 ≤ u && u < 0xDC00
def isLow (u : UInt16) : Bool := 0xDC00 ≤ u && u < 0xE000

/-- The character of a surrogate pair. -/
def pair (u v : UInt16) : Char :=
  Char.ofNat (0x10000 + (u.toNat - 0xD800) * 0x400 + (v.toNat - 0xDC00))

def chars : List UInt16 → Option (List Char)
  | [] => some []
  | u :: us =>
    if isHigh u then
      match us with
      | [] => none
      | v :: us => if isLow v then (chars us).map (pair u v :: ·) else none
    else if isLow u then none
    else (chars us).map (Char.ofNat u.toNat :: ·)

/-- The code units of a character. -/
def unitsOf (c : Char) : List UInt16 :=
  if c.toNat < 0x10000 then [.ofNat c.toNat]
  else [.ofNat (0xD800 + (c.toNat - 0x10000) / 0x400), .ofNat (0xDC00 + (c.toNat - 0x10000) % 0x400)]

def units (cs : List Char) : List UInt16 := cs.flatMap unitsOf

def toUtf8 (s : List UInt16) : Option (List UInt8) :=
  (chars s).map fun cs => cs.flatMap String.utf8EncodeChar

def ofUtf8 (d : List UInt8) : Option (List UInt16) :=
  d.toByteArray.utf8Decode?.map fun cs => units cs.toList

/-! ### UTF-16 -/

theorem isHigh_iff {u : UInt16} : isHigh u = true ↔ 0xD800 ≤ u.toNat ∧ u.toNat < 0xDC00 := by
  simp [isHigh, UInt16.le_iff_toNat_le, UInt16.lt_iff_toNat_lt]

theorem isLow_iff {u : UInt16} : isLow u = true ↔ 0xDC00 ≤ u.toNat ∧ u.toNat < 0xE000 := by
  simp [isLow, UInt16.le_iff_toNat_le, UInt16.lt_iff_toNat_lt]

theorem toNat_ofNat {n : ℕ} (h : n.isValidChar) : (Char.ofNat n).toNat = n := by
  rw [Char.ofNat, dif_pos h]
  rfl

theorem ofNat_eq {u : UInt16} {n : ℕ} (h : n = u.toNat) : UInt16.ofNat n = u := by
  rw [h, UInt16.ofNat_toNat]

theorem unitsOf_single {u : UInt16} (hh : ¬ isHigh u = true) (hl : ¬ isLow u = true) :
    unitsOf (Char.ofNat u.toNat) = [u] := by
  rw [isHigh_iff] at hh
  rw [isLow_iff] at hl
  have hlt := u.toNat_lt
  have hv : u.toNat.isValidChar := by
    unfold Nat.isValidChar
    omega
  rw [unitsOf, toNat_ofNat hv, if_pos hlt, UInt16.ofNat_toNat]

theorem unitsOf_pair {u v : UInt16} (hu : isHigh u = true) (hv : isLow v = true) :
    unitsOf (pair u v) = [u, v] := by
  rw [isHigh_iff] at hu
  rw [isLow_iff] at hv
  have hn : (0x10000 + (u.toNat - 0xD800) * 0x400 + (v.toNat - 0xDC00)).isValidChar := by
    unfold Nat.isValidChar
    omega
  rw [unitsOf, pair, toNat_ofNat hn, if_neg (by omega), ofNat_eq (u := u) (by omega),
    ofNat_eq (u := v) (by omega)]

/-- **The characters of a text are written as the text.** -/
theorem units_of_chars {s : List UInt16} {cs : List Char} (h : chars s = some cs) :
    units cs = s := by
  fun_induction chars s generalizing cs with
  | case1 =>
    obtain rfl := Option.some.inj h
    rfl
  | case2 => exact absurd h (by simp)
  | case3 u hu v us hv ih =>
    obtain ⟨ds, hds, rfl⟩ := Option.map_eq_some_iff.mp h
    show unitsOf (pair u v) ++ units ds = _
    rw [unitsOf_pair hu hv, ih hds]
    rfl
  | case4 => exact absurd h (by simp)
  | case5 => exact absurd h (by simp)
  | case6 u us hu hl ih =>
    obtain ⟨ds, hds, rfl⟩ := Option.map_eq_some_iff.mp h
    show unitsOf (Char.ofNat u.toNat) ++ units ds = _
    rw [unitsOf_single hu hl, ih hds]
    rfl

/-- A unit below the surrogates is a character of its own. -/
theorem toNat_of_mem_unitsOf {c : Char} {u : UInt16} (h : u ∈ unitsOf c) (hu : u.toNat < 0xD800) :
    c.toNat = u.toNat := by
  unfold unitsOf at h
  split at h
  · obtain rfl := List.mem_singleton.mp h
    rw [UInt16.toNat_ofNat', Nat.mod_eq_of_lt (by omega)]
  · have hlt : c.toNat < 0x110000 := by
      have := c.valid
      rcases this with hc | hc
      · exact Nat.lt_of_lt_of_le hc (by decide)
      · exact hc.2
    simp only [List.mem_cons, List.not_mem_nil, or_false] at h
    rcases h with rfl | rfl
    · rw [UInt16.toNat_ofNat'] at hu
      omega
    · rw [UInt16.toNat_ofNat'] at hu
      omega

/-- ASCII is valid text, a character for each unit. -/
theorem chars_of_ascii {s : List UInt16} (h : ∀ c ∈ s, c < 128) :
    chars s = some (s.map fun c => Char.ofNat c.toNat) := by
  induction s with
  | nil => rfl
  | cons c s ih =>
    obtain ⟨hc, hs⟩ := List.forall_mem_cons.mp h
    rw [UInt16.lt_iff_toNat_lt] at hc
    have hc' : c.toNat < 128 := hc
    have hh : ¬ isHigh c = true := by
      rw [isHigh_iff]
      omega
    have hl : ¬ isLow c = true := by
      rw [isLow_iff]
      omega
    rw [chars.eq_def]
    dsimp only
    rw [if_neg hh, if_neg hl, ih hs]
    rfl

/-- Two texts, one after the other. -/
theorem chars_append {s : List UInt16} {cs : List Char} (h : chars s = some cs)
    (t : List UInt16) : chars (s ++ t) = (chars t).map (cs ++ ·) := by
  fun_induction chars s generalizing cs with
  | case1 =>
    obtain rfl := Option.some.inj h
    simp
  | case2 => exact absurd h (by simp)
  | case3 u hu v us hv ih =>
    obtain ⟨ds, hds, rfl⟩ := Option.map_eq_some_iff.mp h
    rw [List.cons_append, List.cons_append, chars, if_pos hu]
    rw [if_pos hv, ih hds, Option.map_map]
    rfl
  | case4 => exact absurd h (by simp)
  | case5 => exact absurd h (by simp)
  | case6 u us hu hl ih =>
    obtain ⟨ds, hds, rfl⟩ := Option.map_eq_some_iff.mp h
    rw [List.cons_append, chars.eq_def]
    dsimp only
    rw [if_neg hu, if_neg hl, ih hds, Option.map_map]
    rfl

/-! ### UTF-8 -/

/-- **What has UTF-8 bytes is read from them.** -/
theorem ofUtf8_toUtf8 {s : List UInt16} {d : List UInt8} (h : toUtf8 s = some d) :
    ofUtf8 d = some s := by
  obtain ⟨cs, hcs, rfl⟩ := Option.map_eq_some_iff.mp h
  show (cs.utf8Encode.utf8Decode?).map _ = _
  rw [List.utf8Decode?_utf8Encode, Option.map_some, List.toList_toArray, units_of_chars hcs]

end AquaTransport.Utf
