import AquaTransport.Lib.BigEndian

/-!
# AquaTransport.Lib.Tlv — type-length-value records

A record is a type byte, the length of its value as two bytes, the lower one first, and the value.
`next` splits the first record off a byte string, and `records` all of them; `records_eq_iff` says that
this is the only way to read a byte string as records followed by something that starts with none.
-/

namespace AquaTransport

/-- A record; the value's length can be written. -/
structure Tlv where
  type : UInt8
  value : List UInt8
  fits : value.length < 2 ^ 16

namespace Tlv

variable {b r : List UInt8} {t : Tlv} {ts : List Tlv}

/-- The length of the value, lower byte first. -/
def lengthBytes (t : Tlv) : List UInt8 := (toBytes 2 t.value.length).reverse

def bytes (t : Tlv) : List UInt8 := t.type :: (t.lengthBytes ++ t.value)

/-- The bytes of one record after another. -/
def all (ts : List Tlv) : List UInt8 := ts.flatMap bytes

theorem length_take_lt (hi lo : UInt8) (rest : List UInt8) :
    (rest.take (ofBytes [hi, lo])).length < 2 ^ 16 := by
  have hlt : ofBytes [hi, lo] < 256 ^ 2 := ofBytes_lt [hi, lo]
  have hle := List.length_take_le (ofBytes [hi, lo]) rest
  omega

/-- The first record, and the bytes after it. -/
def next : List UInt8 → Option (Tlv × List UInt8)
  | type :: lo :: hi :: rest =>
    if ofBytes [hi, lo] ≤ rest.length then
      some (⟨type, rest.take (ofBytes [hi, lo]), length_take_lt hi lo rest⟩, rest.drop (ofBytes [hi, lo]))
    else none
  | _ => none

@[simp] theorem length_lengthBytes : t.lengthBytes.length = 2 := by
  rw [lengthBytes, List.length_reverse, length_toBytes]

theorem length_bytes : t.bytes.length = t.value.length + 3 := by
  rw [bytes, List.length_cons, List.length_append, length_lengthBytes]
  omega

@[simp] theorem all_nil : all [] = [] := rfl

@[simp] theorem all_cons : all (t :: ts) = t.bytes ++ all ts := rfl

theorem next_append : next (t.bytes ++ r) = some (t, r) := by
  obtain ⟨lo, hi, hb, hlen⟩ : ∃ lo hi, t.lengthBytes = [lo, hi] ∧ ofBytes [hi, lo] = t.value.length :=
    ⟨UInt8.ofNat t.value.length, UInt8.ofNat (t.value.length / 256), rfl, ofBytes_toBytes (w := 2) t.fits⟩
  have hle : ofBytes [hi, lo] ≤ (t.value ++ r).length := by
    rw [hlen, List.length_append]
    omega
  rw [bytes, hb]
  simp only [List.cons_append, List.nil_append, next, if_pos hle]
  obtain ⟨type, value, fits⟩ := t
  simp [hlen]

theorem next_eq_some (h : next b = some (t, r)) : b = t.bytes ++ r := by
  match b, h with
  | type :: lo :: hi :: rest, h =>
    simp only [next] at h
    split at h
    · rename_i hle
      obtain ⟨rfl, rfl⟩ := Prod.mk.inj (Option.some.inj h)
      have hrev : toBytes 2 (ofBytes [hi, lo]) = [hi, lo] := toBytes_ofBytes [hi, lo]
      simp only [bytes, lengthBytes, List.length_take, Nat.min_eq_left hle, hrev]
      simp
    · cases h

/-- All the records, and what is left when no further one starts there. -/
def records (b : List UInt8) : List Tlv × List UInt8 :=
  match _h : next b with
  | some (t, r) => (t :: (records r).1, (records r).2)
  | none => ([], b)
termination_by b.length
decreasing_by
  all_goals
    have hb := congrArg List.length (next_eq_some _h)
    rw [List.length_append, length_bytes] at hb
    omega

theorem records_of_some (h : next b = some (t, r)) :
    records b = (t :: (records r).1, (records r).2) := by
  rw [records]
  split
  · rename_i h'
    obtain ⟨rfl, rfl⟩ := Prod.mk.inj (Option.some.inj (h.symm.trans h'))
    rfl
  · rename_i h'
    exact absurd (h.symm.trans h') (by simp)

theorem records_of_none (h : next b = none) : records b = ([], b) := by
  rw [records]
  split
  · rename_i h'
    exact absurd (h.symm.trans h') (by simp)
  · rfl

/-- A byte string is read as records and a rest in one way only. -/
theorem records_eq_iff : records b = (ts, r) ↔ b = all ts ++ r ∧ next r = none := by
  constructor
  · induction hn : b.length using Nat.strong_induction_on generalizing b ts with
    | _ n ih =>
      intro h
      cases hb : next b with
      | none =>
        rw [records_of_none hb] at h
        obtain ⟨rfl, rfl⟩ := Prod.mk.inj h
        exact ⟨rfl, hb⟩
      | some p =>
        obtain ⟨t, c⟩ := p
        have he := next_eq_some hb
        rw [records_of_some hb] at h
        obtain ⟨rfl, h2⟩ := Prod.mk.inj h
        have hlt : c.length < n := by
          have := congrArg List.length he
          rw [List.length_append, length_bytes] at this
          omega
        obtain ⟨hc, hr⟩ := ih c.length hlt rfl (Prod.ext rfl h2)
        exact ⟨by rw [he, all_cons, List.append_assoc, ← hc], hr⟩
  · rintro ⟨rfl, hr⟩
    induction ts with
    | nil => rw [all_nil, List.nil_append, records_of_none hr]
    | cons t ts ih => rw [all_cons, List.append_assoc, records_of_some next_append, ih]

theorem records_all : records (all ts) = (ts, []) :=
  records_eq_iff.mpr ⟨(List.append_nil _).symm, rfl⟩

end Tlv

end AquaTransport
