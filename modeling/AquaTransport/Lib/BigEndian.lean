import Mathlib.Algebra.Order.Ring.Nat
import Mathlib.Data.List.Basic
import Mathlib.Data.List.Induction
import Mathlib.Tactic.Ring

/-!
# AquaTransport.Lib.BigEndian — natural numbers as bytes, the first one highest

`ofBytes` reads any number of bytes, leading zeros or not; `toBytes w` writes a number in `w` of them.
-/

namespace AquaTransport

/-- The number that the bytes write in base 256. -/
def ofBytes (bytes : List UInt8) : ℕ := bytes.foldl (fun n c => 256 * n + c.toNat) 0

/-- The number in `w` bytes. -/
def toBytes : ℕ → ℕ → List UInt8
  | 0, _ => []
  | w + 1, n => toBytes w (n / 256) ++ [UInt8.ofNat n]

variable {bytes : List UInt8} {w n : ℕ}

@[simp] theorem ofBytes_nil : ofBytes [] = 0 := rfl

theorem ofBytes_append_singleton (c : UInt8) : ofBytes (bytes ++ [c]) = 256 * ofBytes bytes + c.toNat := by
  unfold ofBytes
  rw [List.foldl_append]
  rfl

@[simp] theorem length_toBytes : (toBytes w n).length = w := by
  induction w generalizing n with
  | zero => rfl
  | succ w ih => rw [toBytes, List.length_append, ih]; rfl

theorem ofBytes_toBytes (h : n < 256 ^ w) : ofBytes (toBytes w n) = n := by
  induction w generalizing n with
  | zero =>
    rw [pow_zero, Nat.lt_one_iff] at h
    rw [h]
    rfl
  | succ w ih =>
    have hdiv : n / 256 < 256 ^ w := Nat.div_lt_of_lt_mul (by rwa [pow_succ, mul_comm] at h)
    rw [toBytes, ofBytes_append_singleton, ih hdiv, UInt8.toNat_ofNat']
    exact Nat.div_add_mod n 256

theorem ofBytes_lt (bytes : List UInt8) : ofBytes bytes < 256 ^ bytes.length := by
  induction bytes using List.reverseRecOn with
  | nil => exact Nat.one_pos
  | append_singleton bytes c ih =>
    have hc : c.toNat < 256 := c.toNat_lt
    rw [ofBytes_append_singleton, List.length_append, List.length_singleton, pow_succ]
    omega

/-- The bytes of a number are the only ones of their length that write it. -/
theorem toBytes_ofBytes (bytes : List UInt8) : toBytes bytes.length (ofBytes bytes) = bytes := by
  induction bytes using List.reverseRecOn with
  | nil => rfl
  | append_singleton bytes c ih =>
    have hc : c.toNat < 256 := c.toNat_lt
    have hdiv : (256 * ofBytes bytes + c.toNat) / 256 = ofBytes bytes := by omega
    have hmod : UInt8.ofNat (256 * ofBytes bytes + c.toNat) = c := by
      rw [← UInt8.toNat_inj, UInt8.toNat_ofNat']
      omega
    rw [ofBytes_append_singleton, List.length_append, List.length_singleton, toBytes, hdiv, hmod, ih]

end AquaTransport
