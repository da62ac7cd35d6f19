import Mathlib.Data.List.DropRight
import Mathlib.Data.List.TakeWhile
import Mathlib.Data.Nat.Basic
import Mathlib.Tactic.Common

/-!
# AquaTransport.Lib.Cursor — pointers that move over a text while its letters are of a kind

`advance p w j i` is `while (i < j && p(w[i])) i++`, and `retreat p w i j` moves the right end down in
the same way.  What is left between the two pointers is what `dropWhile` and `rdropWhile` leave.
-/

namespace AquaTransport.Cursor

variable {α : Type*} {p : α → Bool} {w : List α} {i j : ℕ}

/-- The letters from `i` up to `j`. -/
def slice (w : List α) (i j : ℕ) : List α := (w.drop i).take (j - i)

def advance (p : α → Bool) (w : List α) (j i : ℕ) : ℕ :=
  if i < j ∧ (w[i]?).any p = true then advance p w j (i + 1) else i
termination_by j - i

def retreat (p : α → Bool) (w : List α) (i j : ℕ) : ℕ :=
  if i < j ∧ (w[j - 1]?).any p = true then retreat p w i (j - 1) else j
termination_by j

theorem takeWhile_congr {q : α → Bool} (h : ∀ c ∈ w, p c = q c) : w.takeWhile p = w.takeWhile q := by
  induction w with
  | nil => rfl
  | cons c w ih =>
    rw [List.forall_mem_cons] at h
    rw [List.takeWhile_cons, List.takeWhile_cons, h.1, ih h.2]

theorem length_slice (hj : j ≤ w.length) : (slice w i j).length = j - i := by
  rw [slice, List.length_take, List.length_drop]
  omega

theorem slice_self : slice w i i = [] := by
  rw [slice, Nat.sub_self, List.take_zero]

theorem slice_to_length : slice w i w.length = w.drop i :=
  List.take_of_length_le (by rw [List.length_drop])

theorem slice_cons (hi : i < w.length) (hij : i < j) : slice w i j = w[i] :: slice w (i + 1) j := by
  unfold slice
  rw [List.drop_eq_getElem_cons hi, show j - i = (j - (i + 1)) + 1 by omega, List.take_succ_cons]

theorem slice_concat (hj : j ≤ w.length) (hij : i < j) :
    slice w i j = slice w i (j - 1) ++ [w[j - 1]] := by
  unfold slice
  have hget : (w.drop i)[j - 1 - i]? = some w[j - 1] := by
    rw [List.getElem?_drop, show i + (j - 1 - i) = j - 1 by omega]
    exact List.getElem?_eq_getElem _
  rw [show j - i = (j - 1 - i) + 1 by omega, List.take_add_one, hget]
  rfl

theorem slice_drop {k : ℕ} (hik : i ≤ k) (hkj : k ≤ j) : (slice w i j).drop (k - i) = slice w k j := by
  unfold slice
  rw [List.drop_take, List.drop_drop, show i + (k - i) = k by omega,
    show j - i - (k - i) = j - k by omega]

theorem slice_take {k : ℕ} (hkj : k ≤ j) : (slice w i j).take (k - i) = slice w i k := by
  unfold slice
  rw [List.take_take, min_eq_left (by omega)]

/-! ### From the left -/

theorem le_advance : i ≤ advance p w j i := by
  induction i using advance.induct p w j with
  | case1 i h ih =>
    rw [advance, if_pos h]
    omega
  | case2 i h => rw [advance, if_neg h]

theorem advance_le (hij : i ≤ j) : advance p w j i ≤ j := by
  induction i using advance.induct p w j with
  | case1 i h ih =>
    rw [advance, if_pos h]
    exact ih h.1
  | case2 i h =>
    rw [advance, if_neg h]
    exact hij

/-- What is passed over and what is left. -/
theorem slice_advance (hj : j ≤ w.length) :
    slice w i (advance p w j i) = (slice w i j).takeWhile p ∧
      slice w (advance p w j i) j = (slice w i j).dropWhile p := by
  induction i using advance.induct p w j with
  | case1 i h ih =>
    obtain ⟨hij, hp⟩ := h
    have hi : i < w.length := by omega
    rw [List.getElem?_eq_getElem hi, Option.any_some] at hp
    have hadv : advance p w j i = advance p w j (i + 1) := by
      rw [advance, if_pos ⟨hij, by rw [List.getElem?_eq_getElem hi]; exact hp⟩]
    have hle : i + 1 ≤ advance p w j (i + 1) := le_advance
    rw [hadv, slice_cons hi (by omega), slice_cons hi hij, List.takeWhile_cons_of_pos hp,
      List.dropWhile_cons_of_pos hp, ih.1, ih.2]
    exact ⟨rfl, rfl⟩
  | case2 i h =>
    rw [advance, if_neg h, slice_self]
    by_cases hij : i < j
    · have hi : i < w.length := by omega
      have hp : ¬ p w[i] = true := by
        intro hp
        refine h ⟨hij, ?_⟩
        rw [List.getElem?_eq_getElem hi]
        exact hp
      rw [slice_cons hi hij, List.takeWhile_cons_of_neg hp, List.dropWhile_cons_of_neg hp]
      exact ⟨rfl, rfl⟩
    · have hnil : slice w i j = [] := by
        rw [slice, show j - i = 0 by omega, List.take_zero]
      rw [hnil]
      exact ⟨rfl, rfl⟩

/-- Where the pointer stops short of the end, the letter is of another kind. -/
theorem advance_stop (h : advance p w j i < j) : (w[advance p w j i]?).any p = false := by
  induction i using advance.induct p w j with
  | case1 i hstep ih =>
    rw [advance, if_pos hstep] at h ⊢
    exact ih h
  | case2 i hstop =>
    rw [advance, if_neg hstop] at h ⊢
    exact Bool.eq_false_iff.mpr fun hp => hstop ⟨h, hp⟩

/-! ### From the right -/

theorem retreat_le : retreat p w i j ≤ j := by
  induction j using retreat.induct p w i with
  | case1 j h ih =>
    rw [retreat, if_pos h]
    omega
  | case2 j h => rw [retreat, if_neg h]

theorem le_retreat (hij : i ≤ j) : i ≤ retreat p w i j := by
  induction j using retreat.induct p w i with
  | case1 j h ih =>
    rw [retreat, if_pos h]
    exact ih (by omega)
  | case2 j h =>
    rw [retreat, if_neg h]
    exact hij

theorem slice_retreat (hj : j ≤ w.length) :
    slice w i (retreat p w i j) = (slice w i j).rdropWhile p := by
  induction j using retreat.induct p w i with
  | case1 j h ih =>
    obtain ⟨hij, hp⟩ := h
    rw [retreat, if_pos ⟨hij, hp⟩, ih (by omega), slice_concat hj hij]
    rw [List.getElem?_eq_getElem (by omega), Option.any_some] at hp
    rw [List.rdropWhile_concat_pos _ _ _ hp]
  | case2 j h =>
    rw [retreat, if_neg h]
    by_cases hij : i < j
    · have hp : ¬ p w[j - 1] = true := by
        intro hp
        refine h ⟨hij, ?_⟩
        rw [List.getElem?_eq_getElem (by omega)]
        exact hp
      rw [slice_concat hj hij, List.rdropWhile_concat_neg _ _ _ hp]
    · have hnil : slice w i j = [] := by
        rw [slice, show j - i = 0 by omega, List.take_zero]
      rw [hnil, List.rdropWhile_nil]

end AquaTransport.Cursor
