import AquaTransport.Lib.Tlv
import Mathlib.Data.List.Lex
import Mathlib.Data.UInt
import Mathlib.Order.Basic

/-!
# AquaTransport.Awdl.Buffer — the checked reads of wire.c, and Ethernet addresses

A `struct buf` is the bytes from `data` on, `len` of them.  A read at an offset fails when it would go
past the end; it is `none` then, where the C code returns `OUT_OF_BOUNDS`.  No caller passes a
negative offset or length.
-/

namespace AquaTransport.Awdl

abbrev Buf := List UInt8

/-- `struct ether_addr`. -/
structure EtherAddr where
  octets : List UInt8
  length_eq : octets.length = 6

namespace EtherAddr

attribute [simp] length_eq

@[ext] theorem ext {a b : EtherAddr} (h : a.octets = b.octets) : a = b := by
  cases a
  cases b
  simpa using h

def numbers (a : EtherAddr) : List ℕ := a.octets.map UInt8.toNat

/-- Addresses compare as `memcmp` does: at the first octet that differs. -/
instance : LinearOrder EtherAddr := LinearOrder.lift' numbers fun _ _ h =>
  ext (List.map_injective_iff.mpr (fun _ _ => UInt8.toNat_inj.mp) h)

end EtherAddr

/-- `memcmp` of two blocks of the same size: the difference of the first bytes that differ. -/
def memcmp : Buf → Buf → ℤ
  | x :: a, y :: b => if x = y then memcmp a b else (x.toNat : ℤ) - y.toNat
  | _, _ => 0

theorem memcmp_pos_iff {a b : Buf} (h : a.length = b.length) :
    0 < memcmp a b ↔ b.map UInt8.toNat < a.map UInt8.toNat := by
  induction a generalizing b with
  | nil =>
    obtain rfl := List.length_eq_zero_iff.mp h.symm
    exact ⟨fun h => absurd h (lt_irrefl _), fun h => absurd h (lt_irrefl _)⟩
  | cons x a ih =>
    obtain ⟨y, b, rfl⟩ := List.exists_cons_of_length_eq_add_one h.symm
    rw [memcmp, List.map_cons, List.map_cons, List.cons_lt_cons_iff, UInt8.toNat_inj]
    by_cases hxy : x = y
    · subst hxy
      rw [if_pos rfl, ih (Nat.succ.inj h)]
      exact ⟨fun hlt => .inr ⟨rfl, hlt⟩, fun hlt => hlt.elim (fun h => absurd h (lt_irrefl _)) (·.2)⟩
    · rw [if_neg hxy]
      constructor
      · intro hpos
        exact .inl (by omega)
      · rintro (h | ⟨he, -⟩)
        · omega
        · exact absurd he.symm hxy

theorem memcmp_eq_zero_iff {a b : Buf} (h : a.length = b.length) : memcmp a b = 0 ↔ a = b := by
  induction a generalizing b with
  | nil => simp [List.length_eq_zero_iff.mp h.symm, memcmp]
  | cons x a ih =>
    obtain ⟨y, b, rfl⟩ := List.exists_cons_of_length_eq_add_one h.symm
    rw [memcmp]
    by_cases hxy : x = y
    · subst hxy
      rw [if_pos rfl, ih (Nat.succ.inj h)]
      simp
    · rw [if_neg hxy]
      have hne : x.toNat ≠ y.toNat := fun he => hxy (UInt8.toNat_inj.mp he)
      constructor
      · intro h0
        omega
      · intro he
        exact absurd (List.cons.inj he).1 hxy

/-- `compare_ether_addr`. -/
def compareEtherAddr (a b : EtherAddr) : ℤ := memcmp a.octets b.octets

theorem compareEtherAddr_pos {a b : EtherAddr} : 0 < compareEtherAddr a b ↔ b < a :=
  memcmp_pos_iff (a.length_eq.trans b.length_eq.symm)

theorem compareEtherAddr_eq_zero {a b : EtherAddr} : compareEtherAddr a b = 0 ↔ a = b := by
  rw [compareEtherAddr, memcmp_eq_zero_iff (a.length_eq.trans b.length_eq.symm)]
  exact ⟨EtherAddr.ext, congrArg _⟩

/-! ### Reading -/

/-- `read_bytes`, `read_bytes_copy`. -/
def readBytes (b : Buf) (offset length : ℕ) : Option Buf :=
  if offset + length > b.length then none else some ((b.drop offset).take length)

def readU8 (b : Buf) (offset : ℕ) : Option UInt8 := b[offset]?

def readLe16 (b : Buf) (offset : ℕ) : Option UInt16 :=
  (readBytes b offset 2).map fun x => UInt16.ofNat (ofBytes x.reverse)

def readBe16 (b : Buf) (offset : ℕ) : Option UInt16 :=
  (readBytes b offset 2).map fun x => UInt16.ofNat (ofBytes x)

def readLe32 (b : Buf) (offset : ℕ) : Option UInt32 :=
  (readBytes b offset 4).map fun x => UInt32.ofNat (ofBytes x.reverse)

/-- `read_ether_addr`: six bytes are an address. -/
def readEtherAddr (b : Buf) (offset : ℕ) : Option EtherAddr :=
  (readBytes b offset 6).bind fun x => if h : x.length = 6 then some ⟨x, h⟩ else none

/-- `read_int_string`: a length byte, and that many bytes or `length`, whichever is less. -/
def readIntString (b : Buf) (offset length : ℕ) : Option Buf := do
  let n ← readU8 b offset
  readBytes b (offset + 1) (min n.toNat length)

/-- `buf_strip`: without the first `len` bytes. -/
def strip (b : Buf) (len : ℕ) : Option Buf := if len > b.length then none else some (b.drop len)

/-- `buf_take`: without the last `len` bytes. -/
def take (b : Buf) (len : ℕ) : Option Buf :=
  if len > b.length then none else some (List.take (b.length - len) b)

/-- `read_tlv` at the start of the buffer: the type and the value, `len + 3` bytes in all. -/
def readTlv (b : Buf) : Option (UInt8 × Buf) := do
  let type ← readU8 b 0
  let len ← readLe16 b 1
  let value ← readBytes b 3 len.toNat
  some (type, value)

/-! ### Writing -/

def le16 (v : UInt16) : Buf := (toBytes 2 v.toNat).reverse

def be16 (v : UInt16) : Buf := toBytes 2 v.toNat

def le32 (v : UInt32) : Buf := (toBytes 4 v.toNat).reverse

@[simp] theorem length_le16 (v : UInt16) : (le16 v).length = 2 := by
  rw [le16, List.length_reverse, length_toBytes]

@[simp] theorem length_be16 (v : UInt16) : (be16 v).length = 2 := length_toBytes

@[simp] theorem length_le32 (v : UInt32) : (le32 v).length = 4 := by
  rw [le32, List.length_reverse, length_toBytes]

/-! ### What was written is read -/

section Layout

variable {a r : Buf} {n offset : ℕ}

@[simp] theorem readBytes_append (h : a.length = n) : readBytes (a ++ r) 0 n = some a := by
  subst h
  simp [readBytes]

@[simp] theorem readBytes_self (h : a.length = n) : readBytes a 0 n = some a := by
  have := @readBytes_append a [] n h
  rwa [List.append_nil] at this

/-- Fields before the offset are skipped. -/
@[simp] theorem readBytes_skip (h : a.length ≤ offset) :
    readBytes (a ++ r) offset n = readBytes r (offset - a.length) n := by
  have hiff : offset + n > (a ++ r).length ↔ offset - a.length + n > r.length := by
    rw [List.length_append]
    omega
  simp only [readBytes, hiff, List.drop_append, List.drop_eq_nil_of_le h, List.nil_append]

@[simp] theorem readBytes_cons {x : UInt8} (h : 0 < offset) :
    readBytes (x :: r) offset n = readBytes r (offset - 1) n :=
  @readBytes_skip [x] r n offset h

@[simp] theorem ofBytes_le16 (v : UInt16) : UInt16.ofNat (ofBytes (le16 v).reverse) = v := by
  rw [le16, List.reverse_reverse, ofBytes_toBytes v.toNat_lt, UInt16.ofNat_toNat]

@[simp] theorem ofBytes_be16 (v : UInt16) : UInt16.ofNat (ofBytes (be16 v)) = v := by
  rw [be16, ofBytes_toBytes v.toNat_lt, UInt16.ofNat_toNat]

@[simp] theorem ofBytes_le32 (v : UInt32) : UInt32.ofNat (ofBytes (le32 v).reverse) = v := by
  rw [le32, List.reverse_reverse, ofBytes_toBytes v.toNat_lt, UInt32.ofNat_toNat]

/-- One of the blocks of a list of blocks of the same size. -/
theorem readBytes_flatMap {α : Type*} {l : List α} {f : α → Buf} (hf : ∀ x, (f x).length = n) {i : ℕ}
    (hi : i < l.length) : readBytes (l.flatMap f ++ r) (i * n) n = some (f l[i]) := by
  induction l generalizing i with
  | nil => exact absurd hi (Nat.not_lt_zero i)
  | cons x l ih =>
    rw [List.flatMap_cons, List.append_assoc]
    cases i with
    | zero =>
      rw [Nat.zero_mul]
      exact readBytes_append (hf x)
    | succ i =>
      have hle : (f x).length ≤ (i + 1) * n := by
        rw [hf, Nat.succ_mul]
        exact Nat.le_add_left n (i * n)
      rw [readBytes_skip hle, hf, Nat.succ_mul, Nat.add_sub_cancel]
      exact ih (Nat.lt_of_succ_lt_succ hi)

end Layout

end AquaTransport.Awdl
