import Mathlib.Algebra.Ring.Nat
import Mathlib.Data.List.Basic
import Mathlib.Tactic.Common

/-!
# AquaTransport.Lib.Base64 — base64 as OpenSSL encodes and decodes it

`encode` is `EVP_EncodeBlock`, and `decode` is `EVP_DecodeBlock`: it decodes `=` as zero bits and
counts the bytes that come of it, so what it makes of an encoding is the bytes and as many zeros as
there were `=` (`decode_encode`).
-/

namespace AquaTransport.Base64

/-! ### Characters -/

/-- `conv_bin2ascii`, of six bits. -/
def symbol (v : ℕ) : UInt8 :=
  if v < 26 then .ofNat (65 + v)
  else if v < 52 then .ofNat (71 + v)
  else if v < 62 then .ofNat (v - 4)
  else if v = 62 then 43
  else 47

/-- `=`. -/
def padding : UInt8 := 61

/-- `conv_ascii2bin`: six bits, or a code above `0x80`. -/
def ascii2bin (c : UInt8) : ℕ :=
  if 65 ≤ c ∧ c ≤ 90 then c.toNat - 65
  else if 97 ≤ c ∧ c ≤ 122 then c.toNat - 71
  else if 48 ≤ c ∧ c ≤ 57 then c.toNat + 4
  else if c = 43 then 62
  else if c = 47 then 63
  else if c = padding then 0
  else if c = 32 ∨ c = 9 then 0xE0
  else if c = 10 then 0xF0
  else if c = 13 then 0xF1
  else if c = 45 then 0xF2
  else 0xFF

/-- `B64_WS`. -/
def isSpace (c : UInt8) : Bool := ascii2bin c = 0xE0

/-- `B64_NOT_BASE64`: white space, the ends of lines and the end of a text. -/
def notBase64 (c : UInt8) : Bool :=
  ascii2bin c = 0xE0 || ascii2bin c = 0xF0 || ascii2bin c = 0xF1 || ascii2bin c = 0xF2

/-! ### The two functions -/

def encode : List UInt8 → List UInt8
  | [] => []
  | [a] =>
    let l := a.toNat * 2 ^ 16
    [symbol (l / 2 ^ 18 % 64), symbol (l / 2 ^ 12 % 64), padding, padding]
  | [a, b] =>
    let l := a.toNat * 2 ^ 16 + b.toNat * 2 ^ 8
    [symbol (l / 2 ^ 18 % 64), symbol (l / 2 ^ 12 % 64), symbol (l / 2 ^ 6 % 64), padding]
  | a :: b :: c :: f =>
    let l := a.toNat * 2 ^ 16 + b.toNat * 2 ^ 8 + c.toNat
    symbol (l / 2 ^ 18 % 64) :: symbol (l / 2 ^ 12 % 64) :: symbol (l / 2 ^ 6 % 64) ::
      symbol (l % 64) :: encode f

/-- The loop over the end of the text, which is given from its end. -/
def dropEnd : List UInt8 → List UInt8
  | [] => []
  | c :: r => if 3 < r.length + 1 ∧ notBase64 c then dropEnd r else c :: r

/-- Four characters at a time. -/
def blocks : List UInt8 → Option (List UInt8)
  | a :: b :: c :: d :: f =>
    if 0x80 ≤ ascii2bin a ∨ 0x80 ≤ ascii2bin b ∨ 0x80 ≤ ascii2bin c ∨ 0x80 ≤ ascii2bin d then none
    else
      let l := ascii2bin a * 2 ^ 18 + ascii2bin b * 2 ^ 12 + ascii2bin c * 2 ^ 6 + ascii2bin d
      (blocks f).map fun t =>
        .ofNat (l / 2 ^ 16 % 256) :: .ofNat (l / 2 ^ 8 % 256) :: .ofNat (l % 256) :: t
  | _ => some []

def decode (f : List UInt8) : Option (List UInt8) :=
  let f := (dropEnd (f.dropWhile isSpace).reverse).reverse
  if f.length % 4 ≠ 0 then none else blocks f

/-- How many `=` an encoding ends in. -/
def pad (d : List UInt8) : ℕ := (3 - d.length % 3) % 3

/-! ### What an encoding is made of -/

theorem ascii2bin_symbol {v : ℕ} (h : v < 64) : ascii2bin (symbol v) = v := by
  have hall : ∀ v : Fin 64, ascii2bin (symbol v) = v := by decide
  exact hall ⟨v, h⟩

theorem symbol_ne_padding {v : ℕ} (h : v < 64) : symbol v ≠ padding := by
  have hall : ∀ v : Fin 64, symbol v ≠ padding := by decide
  exact hall ⟨v, h⟩

theorem symbol_lt {v : ℕ} (h : v < 64) : symbol v < 128 := by
  have hall : ∀ v : Fin 64, symbol v < 128 := by decide
  exact hall ⟨v, h⟩

/-- The characters of an encoding. -/
def Char64 (c : UInt8) : Prop := c = padding ∨ ∃ v < 64, c = symbol v

theorem Char64.ascii2bin_lt {c : UInt8} (h : Char64 c) : ascii2bin c < 64 := by
  rcases h with rfl | ⟨v, hv, rfl⟩
  · decide
  · rwa [ascii2bin_symbol hv]

theorem Char64.lt {c : UInt8} (h : Char64 c) : c < 128 := by
  rcases h with rfl | ⟨v, hv, rfl⟩
  · decide
  · exact symbol_lt hv

theorem Char64.not_space {c : UInt8} (h : Char64 c) : isSpace c = false := by
  have := h.ascii2bin_lt
  simp only [isSpace, decide_eq_false_iff_not]
  omega

theorem Char64.not_notBase64 {c : UInt8} (h : Char64 c) : notBase64 c = false := by
  have := h.ascii2bin_lt
  simp only [notBase64, Bool.or_eq_false_iff, decide_eq_false_iff_not]
  omega

/-- An encoding is symbols and then its padding. -/
theorem encode_eq (d : List UInt8) : ∃ body, encode d = body ++ List.replicate (pad d) padding ∧
    ∀ c ∈ body, ∃ v < 64, c = symbol v := by
  have hsym : ∀ l : ℕ, ∃ v < 64, symbol (l % 64) = symbol v :=
    fun l => ⟨l % 64, Nat.mod_lt _ (by omega), rfl⟩
  fun_induction encode d with
  | case1 => exact ⟨[], rfl, by simp⟩
  | case2 a l =>
    refine ⟨[symbol (l / 2 ^ 18 % 64), symbol (l / 2 ^ 12 % 64)], rfl, ?_⟩
    exact List.forall_mem_cons.mpr ⟨hsym _, List.forall_mem_singleton.mpr (hsym _)⟩
  | case3 a b l =>
    refine ⟨[symbol (l / 2 ^ 18 % 64), symbol (l / 2 ^ 12 % 64), symbol (l / 2 ^ 6 % 64)],
      rfl, ?_⟩
    exact List.forall_mem_cons.mpr ⟨hsym _, List.forall_mem_cons.mpr
      ⟨hsym _, List.forall_mem_singleton.mpr (hsym _)⟩⟩
  | case4 a b c f l ih =>
    obtain ⟨body, he, hbody⟩ := ih
    have hpad : pad (a :: b :: c :: f) = pad f := by
      simp only [pad, List.length_cons]
      omega
    refine ⟨symbol (l / 2 ^ 18 % 64) :: symbol (l / 2 ^ 12 % 64) :: symbol (l / 2 ^ 6 % 64) ::
      symbol (l % 64) :: body, by rw [he, hpad]; rfl, ?_⟩
    exact List.forall_mem_cons.mpr ⟨hsym _, List.forall_mem_cons.mpr ⟨hsym _,
      List.forall_mem_cons.mpr ⟨hsym _, List.forall_mem_cons.mpr ⟨hsym _, hbody⟩⟩⟩⟩

theorem char64_of_mem_encode {d : List UInt8} {c : UInt8} (h : c ∈ encode d) : Char64 c := by
  obtain ⟨body, he, hbody⟩ := encode_eq d
  rw [he, List.mem_append] at h
  rcases h with h | h
  · exact .inr (hbody c h)
  · exact .inl (List.eq_of_mem_replicate h)

theorem length_encode (d : List UInt8) : (encode d).length = 4 * ((d.length + 2) / 3) := by
  fun_induction encode d with
  | case1 => rfl
  | case2 => simp
  | case3 => simp
  | case4 a b c f l ih =>
    simp only [List.length_cons, ih]
    omega

/-- The padding is counted at the last two characters. -/
theorem pad_eq (d : List UInt8) :
    (if (encode d).getLast? = some padding then 1 else 0) +
      (if (encode d).dropLast.getLast? = some padding then 1 else 0) = pad d := by
  obtain ⟨body, he, hbody⟩ := encode_eq d
  have hne : ∀ c ∈ body, c ≠ padding := by
    intro c hc
    obtain ⟨v, hv, rfl⟩ := hbody c hc
    exact symbol_ne_padding hv
  have hlast : body.getLast? ≠ some padding := fun hl =>
    hne padding (List.mem_of_getLast? hl) rfl
  have hlast' : body.dropLast.getLast? ≠ some padding := fun hl =>
    hne padding (List.dropLast_subset body (List.mem_of_getLast? hl)) rfl
  have hpad : pad d = 0 ∨ pad d = 1 ∨ pad d = 2 := by
    unfold pad
    omega
  rcases hpad with hp | hp | hp
  · rw [he, hp, List.replicate_zero, List.append_nil, if_neg hlast, if_neg hlast']
  · rw [he, hp, List.replicate_one, List.getLast?_concat, List.dropLast_concat, if_pos rfl,
      if_neg hlast]
  · have htwo : List.replicate 2 padding = [padding] ++ [padding] := rfl
    rw [he, hp, htwo, ← List.append_assoc, List.getLast?_concat, List.dropLast_concat,
      List.getLast?_concat, if_pos rfl]

/-! ### Decoding -/

theorem dropEnd_of_forall {r : List UInt8} (h : ∀ c ∈ r, notBase64 c = false) : dropEnd r = r := by
  cases r with
  | nil => rfl
  | cons c r =>
    rw [dropEnd, if_neg]
    simp [h c List.mem_cons_self]

/-- Three bytes, as the four characters of `encode` and back. -/
theorem blocks_cons {w x y z : UInt8} {l : ℕ} (hl : l < 2 ^ 24)
    (hw : ascii2bin w = l / 2 ^ 18 % 64) (hx : ascii2bin x = l / 2 ^ 12 % 64)
    (hy : ascii2bin y = l / 2 ^ 6 % 64) (hz : ascii2bin z = l % 64) (f : List UInt8) :
    blocks (w :: x :: y :: z :: f) = (blocks f).map fun t =>
      .ofNat (l / 2 ^ 16 % 256) :: .ofNat (l / 2 ^ 8 % 256) :: .ofNat (l % 256) :: t := by
  have hsum : l / 2 ^ 18 % 64 * 2 ^ 18 + l / 2 ^ 12 % 64 * 2 ^ 12 + l / 2 ^ 6 % 64 * 2 ^ 6 +
      l % 64 = l := by omega
  rw [blocks, if_neg (by omega)]
  simp only [hw, hx, hy, hz, hsum]

theorem blocks_encode (d : List UInt8) :
    blocks (encode d) = some (d ++ List.replicate (pad d) 0) := by
  have hbin : ∀ l : ℕ, ascii2bin (symbol (l % 64)) = l % 64 :=
    fun l => ascii2bin_symbol (Nat.mod_lt _ (by omega))
  have hpad : ∀ {n : ℕ}, n = 0 → ascii2bin padding = n := by
    rintro n rfl
    rfl
  have hbyte : ∀ (a : UInt8) {n : ℕ}, n = a.toNat → UInt8.ofNat n = a := by
    rintro a n rfl
    exact UInt8.ofNat_toNat
  fun_induction encode d with
  | case1 => rfl
  | case2 a l =>
    have ha := a.toNat_lt
    rw [blocks_cons (l := l) (by omega) (hbin _) (hbin _)
        (hpad (by omega)) (hpad (by omega))]
    rw [hbyte a (by omega), hbyte 0 (show l / 2 ^ 8 % 256 = 0 by omega),
      hbyte 0 (show l % 256 = 0 by omega)]
    rfl
  | case3 a b l =>
    have ha := a.toNat_lt
    have hb := b.toNat_lt
    rw [blocks_cons (l := l) (by omega) (hbin _) (hbin _) (hbin _) (hpad (by omega))]
    rw [hbyte a (by omega), hbyte b (by omega), hbyte 0 (show l % 256 = 0 by omega)]
    rfl
  | case4 a b c f l ih =>
    have ha := a.toNat_lt
    have hb := b.toNat_lt
    have hc := c.toNat_lt
    have hpad : pad (a :: b :: c :: f) = pad f := by
      simp only [pad, List.length_cons]
      omega
    rw [blocks_cons (l := l) (by omega) (hbin _) (hbin _) (hbin _) (hbin _), ih, hpad,
      hbyte a (by omega), hbyte b (by omega), hbyte c (by omega)]
    rfl

/-- **What is encoded is decoded**, with a zero for each `=`. -/
theorem decode_encode (d : List UInt8) :
    decode (encode d) = some (d ++ List.replicate (pad d) 0) := by
  have hdrop : (encode d).dropWhile isSpace = encode d := by
    cases he : encode d with
    | nil => rfl
    | cons c f =>
      have hc := (char64_of_mem_encode (he ▸ List.mem_cons_self : c ∈ encode d)).not_space
      exact List.dropWhile_cons_of_neg (by simp [hc])
  have hend : dropEnd (encode d).reverse = (encode d).reverse :=
    dropEnd_of_forall fun c hc => (char64_of_mem_encode (List.mem_reverse.mp hc)).not_notBase64
  unfold decode
  rw [hdrop, hend, List.reverse_reverse, if_neg (by rw [length_encode]; omega), blocks_encode]

end AquaTransport.Base64
