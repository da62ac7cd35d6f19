import Mathlib.Algebra.Ring.Nat
import Mathlib.Data.List.Basic

/-!
# AquaTransport.Lib.Wire — the protobuf wire format

`IsVarint m` are the varints of at most `m` bytes, with overlong ones; `IsVarint 10` are those of 64
bits.  A `Field` is a tag and a body that fits its wire type, byte for byte.  No field is the beginning
of another, so a message is that of one list of fields.
-/

namespace AquaTransport.Wire

/-! ### Varints -/

/-- Groups of seven bits, lowest first. -/
def value : List UInt8 → ℕ
  | [] => 0
  | b :: bs => b.toNat % 128 + 128 * value bs

/-- At most `m` bytes, all but the last with the high bit; the `m`-th is 0 or 1. -/
inductive IsVarint : ℕ → List UInt8 → Prop
  | last {m : ℕ} (b : UInt8) (h : b.toNat < 128) (hm : m = 0 → b.toNat < 2) : IsVarint (m + 1) [b]
  | more {m : ℕ} {bs : List UInt8} (b : UInt8) (h : 128 ≤ b.toNat) (hs : IsVarint m bs) :
      IsVarint (m + 1) (b :: bs)

variable {m : ℕ} {bs r l : List UInt8}

theorem IsVarint.ne_nil (h : IsVarint m bs) : bs ≠ [] := by
  cases h <;> simp

theorem IsVarint.length_le (h : IsVarint m bs) : bs.length ≤ m := by
  induction h with
  | last b h hm => simp
  | more b h hs ih =>
    rw [List.length_cons]
    omega

theorem IsVarint.ends (h : IsVarint m bs) : ∃ init last, bs = init ++ [last] ∧
    (∀ b ∈ init, 128 ≤ b.toNat) ∧ last.toNat < 128 ∧ (bs.length = m → last.toNat < 2) := by
  induction h with
  | last b h hm =>
    exact ⟨[], b, rfl, fun c hc => absurd hc List.not_mem_nil, h, fun hl => hm (by simpa using hl.symm)⟩
  | @more m bs b h hs ih =>
    obtain ⟨init, last, rfl, hinit, hlast, hlen⟩ := ih
    refine ⟨b :: init, last, rfl, List.forall_mem_cons.mpr ⟨h, hinit⟩, hlast, fun hl => hlen ?_⟩
    rw [List.length_cons] at hl
    omega

/-- Ten bytes have 64 bits. -/
theorem IsVarint.value_lt (h : IsVarint m bs) : value bs < 2 ^ (7 * m - 6) := by
  induction h with
  | @last m b h hm =>
    show b.toNat % 128 + 128 * 0 < _
    cases m with
    | zero =>
      have := hm rfl
      show _ < 2
      omega
    | succ m =>
      have : 2 ^ 8 ≤ 2 ^ (7 * (m + 1 + 1) - 6) := Nat.pow_le_pow_right (by decide) (by omega)
      omega
  | @more m bs b h hs ih =>
    show b.toNat % 128 + 128 * value bs < _
    have hm : 0 < m := by
      cases hs <;> omega
    have hpow : 2 ^ (7 * (m + 1) - 6) = 128 * 2 ^ (7 * m - 6) := by
      rw [show 7 * (m + 1) - 6 = 7 + (7 * m - 6) by omega, Nat.pow_add]
    omega

/-- The varint at the beginning, and the rest. -/
def splitVarint : ℕ → List UInt8 → Option (List UInt8 × List UInt8)
  | 0, _ => none
  | _ + 1, [] => none
  | m + 1, b :: l =>
    if b.toNat < 128 then if m = 0 ∧ 2 ≤ b.toNat then none else some ([b], l)
    else (splitVarint m l).map fun p => (b :: p.1, p.2)

theorem splitVarint_append (h : IsVarint m bs) : splitVarint m (bs ++ r) = some (bs, r) := by
  induction h with
  | last b h hm =>
    show (if b.toNat < 128 then if _ ∧ 2 ≤ b.toNat then none else some ([b], r) else _) = _
    rw [if_pos h, if_neg]
    rintro ⟨h0, h2⟩
    exact absurd (hm h0) (by omega)
  | more b h hs ih =>
    show (if b.toNat < 128 then _ else (splitVarint _ (_ ++ r)).map _) = _
    rw [if_neg (by omega), ih]
    rfl

theorem splitVarint_some (h : splitVarint m l = some (bs, r)) : l = bs ++ r ∧ IsVarint m bs := by
  induction m generalizing l bs with
  | zero => simp [splitVarint] at h
  | succ m ih =>
    cases l with
    | nil => simp [splitVarint] at h
    | cons b l =>
      unfold splitVarint at h
      split_ifs at h with hb hm
      · obtain ⟨rfl, rfl⟩ := Prod.mk.inj (Option.some.inj h)
        exact ⟨rfl, .last b hb fun h0 => by omega⟩
      · obtain ⟨⟨bs', r'⟩, hs, heq⟩ := Option.map_eq_some_iff.mp h
        obtain ⟨rfl, rfl⟩ := Prod.mk.inj heq
        obtain ⟨rfl, hv⟩ := ih hs
        exact ⟨rfl, .more b (by omega) hv⟩

/-- The shortest varint of a number. -/
def varint (n : ℕ) : List UInt8 :=
  if n < 128 then [UInt8.ofNat n] else UInt8.ofNat (n % 128 + 128) :: varint (n / 128)

theorem isVarint_varint {n : ℕ} (hm : 0 < m) (h : n < 2 ^ (7 * m - 6)) : IsVarint m (varint n) := by
  induction m generalizing n with
  | zero => omega
  | succ m ih =>
    unfold varint
    split_ifs with hn
    · refine .last _ ?_ ?_
      · rw [UInt8.toNat_ofNat']
        omega
      · rintro rfl
        rw [UInt8.toNat_ofNat']
        omega
    · have hpos : 0 < m := by
        rcases Nat.eq_zero_or_pos m with rfl | hpos
        · omega
        · exact hpos
      have hpow : 2 ^ (7 * (m + 1) - 6) = 128 * 2 ^ (7 * m - 6) := by
        rw [show 7 * (m + 1) - 6 = 7 + (7 * m - 6) by omega, Nat.pow_add]
      refine .more _ ?_ (ih hpos (by omega))
      rw [UInt8.toNat_ofNat']
      omega

theorem value_varint (n : ℕ) : value (varint n) = n := by
  induction n using Nat.strongRecOn with
  | ind n ih =>
    unfold varint
    split_ifs with hn
    · show (UInt8.ofNat n).toNat % 128 + 128 * 0 = n
      rw [UInt8.toNat_ofNat']
      omega
    · show (UInt8.ofNat (n % 128 + 128)).toNat % 128 + 128 * value (varint (n / 128)) = n
      rw [ih (n / 128) (by omega), UInt8.toNat_ofNat']
      omega

/-! ### Fields -/

/-- What may follow a tag, by its wire type. -/
inductive IsBody : ℕ → List UInt8 → Prop
  | varint {bs : List UInt8} (h : IsVarint 10 bs) : IsBody 0 bs
  | fixed64 {bs : List UInt8} (h : bs.length = 8) : IsBody 1 bs
  | delimited {len data : List UInt8} (h : IsVarint 10 len) (hd : data.length = value len) :
      IsBody 2 (len ++ data)
  | fixed32 {bs : List UInt8} (h : bs.length = 4) : IsBody 5 bs

/-- The first `n` bytes, where there are as many. -/
def splitBytes (n : ℕ) (l : List UInt8) : Option (List UInt8 × List UInt8) :=
  if l.length < n then none else some (l.take n, l.drop n)

theorem splitBytes_iff {n : ℕ} : splitBytes n l = some (bs, r) ↔ l = bs ++ r ∧ bs.length = n := by
  unfold splitBytes
  constructor
  · intro h
    split_ifs at h with hn
    obtain ⟨rfl, rfl⟩ := Prod.mk.inj (Option.some.inj h)
    exact ⟨(List.take_append_drop n l).symm, List.length_take_of_le (by omega)⟩
  · rintro ⟨rfl, rfl⟩
    rw [if_neg (by simp), List.take_left, List.drop_left]

/-- The body of a wire type at the beginning, and the rest. -/
def splitBody : ℕ → List UInt8 → Option (List UInt8 × List UInt8)
  | 0, l => splitVarint 10 l
  | 1, l => splitBytes 8 l
  | 2, l => (splitVarint 10 l).bind fun p =>
      (splitBytes (value p.1) p.2).map fun q => (p.1 ++ q.1, q.2)
  | 5, l => splitBytes 4 l
  | _, _ => none

theorem splitBody_append {wire : ℕ} (h : IsBody wire bs) :
    splitBody wire (bs ++ r) = some (bs, r) := by
  cases h with
  | varint h => exact splitVarint_append h
  | fixed64 h => exact splitBytes_iff.mpr ⟨rfl, h⟩
  | @delimited len data h hd =>
    show ((splitVarint 10 (len ++ data ++ r)).bind fun p =>
      (splitBytes (value p.1) p.2).map fun q => (p.1 ++ q.1, q.2)) = _
    rw [List.append_assoc, splitVarint_append h, Option.bind_some,
      splitBytes_iff.mpr ⟨rfl, hd⟩]
    rfl
  | fixed32 h => exact splitBytes_iff.mpr ⟨rfl, h⟩

theorem splitBody_some {wire : ℕ} (h : splitBody wire l = some (bs, r)) :
    l = bs ++ r ∧ IsBody wire bs := by
  unfold splitBody at h
  split at h
  · obtain ⟨rfl, hv⟩ := splitVarint_some h
    exact ⟨rfl, .varint hv⟩
  · obtain ⟨rfl, hl⟩ := splitBytes_iff.mp h
    exact ⟨rfl, .fixed64 hl⟩
  · obtain ⟨⟨len, l'⟩, hlen, h⟩ := Option.bind_eq_some_iff.mp h
    obtain ⟨⟨data, r'⟩, hdata, heq⟩ := Option.map_eq_some_iff.mp h
    obtain ⟨rfl, rfl⟩ := Prod.mk.inj heq
    obtain ⟨rfl, hv⟩ := splitVarint_some hlen
    obtain ⟨hl, hd⟩ := splitBytes_iff.mp hdata
    refine ⟨?_, .delimited hv hd⟩
    rw [List.append_assoc, ← hl]
  · obtain ⟨rfl, hl⟩ := splitBytes_iff.mp h
    exact ⟨rfl, .fixed32 hl⟩
  · simp at h

/-- A field as it is written. -/
@[ext]
structure Field where
  tag : List UInt8
  body : List UInt8
  isTag : IsVarint 10 tag
  isBody : IsBody (value tag % 8) body

namespace Field

def bytes (f : Field) : List UInt8 := f.tag ++ f.body

def number (f : Field) : ℕ := value f.tag / 8

def wire (f : Field) : ℕ := value f.tag % 8

/-- What a delimited field carries. -/
def payload (f : Field) : List UInt8 := ((splitVarint 10 f.body).map Prod.snd).getD []

variable {f g : Field}

theorem bytes_ne_nil : f.bytes ≠ [] := by
  intro h
  exact f.isTag.ne_nil (List.append_eq_nil_iff.mp h).1

/-- No field is the beginning of another. -/
theorem bytes_append_inj {s : List UInt8} (h : f.bytes ++ r = g.bytes ++ s) : f = g ∧ r = s := by
  unfold bytes at h
  rw [List.append_assoc, List.append_assoc] at h
  have htag := splitVarint_append (r := f.body ++ r) f.isTag
  rw [h, splitVarint_append g.isTag] at htag
  obtain ⟨ht, hb⟩ := Prod.mk.inj (Option.some.inj htag)
  have hbody := splitBody_append (r := r) f.isBody
  rw [← hb, ← ht, splitBody_append g.isBody] at hbody
  obtain ⟨hbs, hr⟩ := Prod.mk.inj (Option.some.inj hbody)
  exact ⟨Field.ext ht.symm hbs.symm, hr.symm⟩

end Field

/-- A message. -/
def encode (fs : List Field) : List UInt8 := fs.flatMap Field.bytes

@[simp] theorem encode_nil : encode [] = [] := rfl

@[simp] theorem encode_cons (f : Field) (fs : List Field) : encode (f :: fs) = f.bytes ++ encode fs :=
  rfl

@[simp] theorem encode_append (fs gs : List Field) : encode (fs ++ gs) = encode fs ++ encode gs :=
  List.flatMap_append

/-- **A message has one list of fields.** -/
theorem encode_injective {fs gs : List Field} (h : encode fs = encode gs) : fs = gs := by
  induction fs generalizing gs with
  | nil =>
    cases gs with
    | nil => rfl
    | cons g gs => exact absurd (List.append_eq_nil_iff.mp h.symm).1 Field.bytes_ne_nil
  | cons f fs ih =>
    cases gs with
    | nil => exact absurd (List.append_eq_nil_iff.mp h).1 Field.bytes_ne_nil
    | cons g gs =>
      obtain ⟨rfl, hr⟩ := Field.bytes_append_inj h
      rw [ih hr]

/-- A varint field as encoders write it. -/
def Field.ofVarint (number v : ℕ) (hn : number * 8 < 2 ^ 64) (hv : v < 2 ^ 64) : Field where
  tag := varint (number * 8)
  body := varint v
  isTag := isVarint_varint (by decide) hn
  isBody := by
    rw [value_varint, Nat.mul_mod_left]
    exact .varint (isVarint_varint (by decide) hv)

/-- A delimited field as encoders write it. -/
def Field.ofBytes (number : ℕ) (data : List UInt8) (hn : number * 8 + 2 < 2 ^ 64)
    (hd : data.length < 2 ^ 64) : Field where
  tag := varint (number * 8 + 2)
  body := varint data.length ++ data
  isTag := isVarint_varint (by decide) hn
  isBody := by
    rw [value_varint, show (number * 8 + 2) % 8 = 2 by omega]
    exact .delimited (isVarint_varint (by decide) hd) (value_varint _).symm

namespace Field

variable {number v : ℕ} {data : List UInt8}

@[simp] theorem number_ofBytes {hn : number * 8 + 2 < 2 ^ 64} {hd : data.length < 2 ^ 64} :
    (ofBytes number data hn hd).number = number := by
  show value (varint (number * 8 + 2)) / 8 = number
  rw [value_varint]
  omega

@[simp] theorem wire_ofBytes {hn : number * 8 + 2 < 2 ^ 64} {hd : data.length < 2 ^ 64} :
    (ofBytes number data hn hd).wire = 2 := by
  show value (varint (number * 8 + 2)) % 8 = 2
  rw [value_varint]
  omega

@[simp] theorem payload_ofBytes {hn : number * 8 + 2 < 2 ^ 64} {hd : data.length < 2 ^ 64} :
    (ofBytes number data hn hd).payload = data := by
  show ((splitVarint 10 (varint data.length ++ data)).map Prod.snd).getD [] = data
  rw [splitVarint_append (isVarint_varint (by decide) hd)]
  rfl

end Field

end AquaTransport.Wire
