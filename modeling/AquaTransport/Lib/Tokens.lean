import Mathlib.Data.Fintype.Basic
import Mathlib.Data.List.Basic
import Mathlib.Logic.Function.Basic

/-!
# AquaTransport.Lib.Tokens — reference counted slots, and the tokens that are out

A slot has a key and a count of references.  A party that takes a reference holds a `Token`, which
says whose it is, for which slot, and under which key it was taken.  `Token.give` takes one token
of a party for a slot back.  `Backed refs keys own L` says that the tokens `L` account for the
table: each count is the number of tokens for the slot, each token's key is the slot's, and a party
has the token that `own` gives it and no other.
-/

namespace AquaTransport

variable {ι κ σ : Type*}

structure Token (ι κ σ : Type*) where
  holder : ι
  slot : σ
  key : κ
  deriving DecidableEq

namespace Token

section Count

variable [DecidableEq σ]

/-- The tokens for a slot. -/
def count (L : List (Token ι κ σ)) (s : σ) : ℕ := L.countP fun t => t.slot = s

@[simp] theorem count_cons (t : Token ι κ σ) (L : List (Token ι κ σ)) (s : σ) :
    count (t :: L) s = count L s + if t.slot = s then 1 else 0 := by
  simp [count, List.countP_cons]

theorem count_append (L M : List (Token ι κ σ)) (s : σ) :
    count (L ++ M) s = count L s + count M s := List.countP_append

end Count

section Of

variable [DecidableEq ι]

/-- The tokens of a party. -/
def of (L : List (Token ι κ σ)) (i : ι) : List (Token ι κ σ) := L.filter fun t => t.holder = i

theorem of_append (L M : List (Token ι κ σ)) (i : ι) : of (L ++ M) i = of L i ++ of M i :=
  List.filter_append ..

theorem of_cons_self (t : Token ι κ σ) (L : List (Token ι κ σ)) :
    of (t :: L) t.holder = t :: of L t.holder := List.filter_cons_of_pos (by simp)

theorem of_cons_of_ne {t : Token ι κ σ} {i : ι} (h : t.holder ≠ i) (L : List (Token ι κ σ)) :
    of (t :: L) i = of L i := List.filter_cons_of_neg (by simpa using h)

end Of

section Give

variable [DecidableEq ι] [DecidableEq σ]

/-- One token of `i` for `s` is given back. -/
def give (i : ι) (s : σ) (L : List (Token ι κ σ)) : List (Token ι κ σ) :=
  L.eraseP fun t => t.holder = i ∧ t.slot = s

/-- A token that is out is taken from where it stands. -/
theorem give_split {i : ι} {s : σ} {L : List (Token ι κ σ)}
    (h : ∃ t ∈ L, t.holder = i ∧ t.slot = s) :
    ∃ t M N, t.holder = i ∧ t.slot = s ∧ L = M ++ t :: N ∧ give i s L = M ++ N := by
  obtain ⟨t, ht, hts⟩ := h
  obtain ⟨u, M, N, -, hu, hL, hg⟩ :=
    List.exists_of_eraseP (p := fun t => decide (t.holder = i ∧ t.slot = s)) ht
      (decide_eq_true hts)
  have hu' : u.holder = i ∧ u.slot = s := of_decide_eq_true hu
  exact ⟨u, M, N, hu'.1, hu'.2, hL, hg⟩

end Give

end Token

/-- The tokens `L` account for a table. -/
structure Backed [DecidableEq ι] [DecidableEq σ] (refs : σ → ℕ) (keys : σ → κ)
    (own : ι → Option σ) (L : List (Token ι κ σ)) : Prop where
  count : ∀ s, refs s = Token.count L s
  keyed : ∀ t ∈ L, keys t.slot = t.key
  owned : ∀ i, (Token.of L i).map Token.slot = (own i).toList

namespace Backed

variable [DecidableEq ι] [DecidableEq σ] {refs : σ → ℕ} {keys : σ → κ} {own : ι → Option σ}
  {L : List (Token ι κ σ)}

theorem init (keys : σ → κ) : Backed (fun _ => 0) keys (fun _ : ι => none) [] :=
  ⟨fun _ => rfl, by simp, fun _ => rfl⟩

/-- What a party owns is out. -/
theorem exists_token (h : Backed refs keys own L) {i : ι} {s : σ} (hi : own i = some s) :
    ∃ t ∈ L, t.holder = i ∧ t.slot = s := by
  have hm : s ∈ (Token.of L i).map Token.slot := by simp [h.owned i, hi]
  obtain ⟨t, ht, hs⟩ := List.mem_map.mp hm
  obtain ⟨hL, hh⟩ := List.mem_filter.mp ht
  exact ⟨t, hL, by simpa using hh, hs⟩

/-- A slot that someone has a token for is counted. -/
theorem refs_pos (h : Backed refs keys own L) {t : Token ι κ σ} (ht : t ∈ L) :
    0 < refs t.slot := by
  rw [h.count]
  exact List.countP_pos_iff.mpr ⟨t, ht, by simp⟩

/-- A slot that is counted has a token, and the slot's key is its key. -/
theorem exists_of_pos (h : Backed refs keys own L) {s : σ} (hs : 0 < refs s) :
    ∃ t ∈ L, t.slot = s ∧ t.key = keys s := by
  rw [h.count] at hs
  obtain ⟨t, ht, hts⟩ := List.countP_pos_iff.mp hs
  obtain rfl : t.slot = s := by simpa using hts
  exact ⟨t, ht, rfl, (h.keyed t ht).symm⟩

/-- **Taking a reference**: of a slot that no one has a token for, or that has the key already. -/
theorem take (h : Backed refs keys own L) {i : ι} {s : σ} {k : κ} (hi : own i = none)
    (hs : refs s = 0 ∨ keys s = k) :
    Backed (Function.update refs s (refs s + 1)) (Function.update keys s k)
      (Function.update own i (some s)) (⟨i, s, k⟩ :: L) := by
  refine ⟨fun u => ?_, fun t ht => ?_, fun j => ?_⟩
  · rcases eq_or_ne u s with rfl | hu
    · simp [h.count u]
    · simp [Function.update_of_ne hu, h.count u, hu.symm]
  · rcases List.mem_cons.mp ht with rfl | ht
    · exact Function.update_self ..
    · by_cases hts : t.slot = s
      · have hk : keys s = k := hs.resolve_left (by
          rw [← hts]
          exact Nat.pos_iff_ne_zero.mp (h.refs_pos ht))
        rw [hts, Function.update_self, ← hk, ← hts]
        exact h.keyed t ht
      · rw [Function.update_of_ne hts]
        exact h.keyed t ht
  · rcases eq_or_ne j i with rfl | hj
    · have hnil : Token.of L j = [] := List.map_eq_nil_iff.mp (by rw [h.owned j, hi]; rfl)
      rw [Token.of_cons_self ⟨j, s, k⟩, hnil, Function.update_self]
      rfl
    · rw [Token.of_cons_of_ne (Ne.symm hj), Function.update_of_ne hj]
      exact h.owned j

/-- **Giving it back**: the count was not zero, and one token goes. -/
theorem give (h : Backed refs keys own L) {i : ι} {s : σ} (hi : own i = some s) :
    Backed (Function.update refs s (refs s - 1)) keys (Function.update own i none)
      (Token.give i s L) := by
  obtain ⟨t, M, N, rfl, rfl, rfl, hg⟩ := Token.give_split (h.exists_token hi)
  rw [hg]
  refine ⟨fun u => ?_, fun t' ht' => ?_, fun j => ?_⟩
  · have hu := h.count u
    rw [Token.count_append, Token.count_cons] at hu
    rw [Token.count_append]
    rcases eq_or_ne u t.slot with rfl | hne
    · rw [Function.update_self, hu]
      simp
    · rw [Function.update_of_ne hne, hu, if_neg hne.symm, Nat.add_zero]
  · apply h.keyed t'
    rw [List.mem_append] at ht' ⊢
    exact ht'.imp_right (List.mem_cons_of_mem t)
  · have hj := h.owned j
    rw [Token.of_append] at hj ⊢
    rcases eq_or_ne j t.holder with rfl | hne
    · rw [hi, Token.of_cons_self, List.map_append, List.map_cons, Option.toList_some] at hj
      rw [Function.update_self]
      have hlen := congrArg List.length hj
      simp only [List.length_append, List.length_map, List.length_cons, List.length_nil] at hlen
      have hM : Token.of M t.holder = [] := List.eq_nil_of_length_eq_zero (by omega)
      have hN : Token.of N t.holder = [] := List.eq_nil_of_length_eq_zero (by omega)
      rw [hM, hN]
      rfl
    · rw [Token.of_cons_of_ne hne.symm] at hj
      rw [Function.update_of_ne hne, hj]

end Backed

end AquaTransport
