import Mathlib.Algebra.Ring.Nat
import Mathlib.Data.Fintype.Basic
import Mathlib.Logic.Function.Basic
import Mathlib.Order.Fin.Basic

/-!
# AquaTransport.Lib.SlotTable — fixed arrays of slots searched by key

A table of `n` slots is seen through two functions: `keys i`, the key of slot `i` (`none` when the
slot is free), and `age i`, the stamp of its last use.  A lookup takes the first slot with the key
(`slotOf`); a store scans once for that slot or the first free one, and when there is neither takes
the one with the least stamp (`putSlot`).  `UniqueKeys` says that no key is in two slots; clearing
any slot and storing a key at its `putSlot` both keep it.
-/

namespace AquaTransport

theorem update_eq_some_iff {ι β : Type*} [DecidableEq ι] {f : ι → Option β} {i j : ι}
    {v : Option β} {b : β} :
    Function.update f i v j = some b ↔ (j = i ∧ v = some b) ∨ (j ≠ i ∧ f j = some b) := by
  by_cases h : j = i
  · subst h; simp
  · simp [h]

namespace SlotTable

variable {n : ℕ} {κ τ : Type*}

/-! ### The scans -/

/-- The first slot with key `k`. -/
def slotOf [DecidableEq κ] (keys : Fin n → Option κ) (k : κ) : Option (Fin n) :=
  Fin.find? fun i => decide (keys i = some k)

/-- The first free slot. -/
def freeSlot (keys : Fin n → Option κ) : Option (Fin n) :=
  Fin.find? fun i => (keys i).isNone

/-- The first slot with the least stamp: one pass that keeps the best slot so far. -/
def oldest [NeZero n] [LT τ] [DecidableLT τ] (age : Fin n → τ) : Fin n :=
  Fin.foldl n (fun best i => if age i < age best then i else best) 0

/-- One pass for a store: it stops at the slot that matches, and remembers the first free slot it
saw. -/
def scan (hit free : Fin n → Bool) : List (Fin n) → Option (Fin n) → Option (Fin n)
  | [], slot => slot
  | i :: is, slot =>
    if hit i then some i else scan hit free is (if free i && slot.isNone then some i else slot)

/-- The slot that a store of `k` writes. -/
def putSlot [DecidableEq κ] [NeZero n] [LT τ] [DecidableLT τ] (keys : Fin n → Option κ)
    (age : Fin n → τ) (k : κ) : Fin n :=
  (scan (fun i => decide (keys i = some k)) (fun i => (keys i).isNone) (List.finRange n) none).getD
    (oldest age)

theorem slotOf_some [DecidableEq κ] {keys : Fin n → Option κ} {k : κ} {i : Fin n}
    (h : slotOf keys k = some i) : keys i = some k := by
  simpa using Fin.eq_true_of_find?_eq_some h

theorem slotOf_none [DecidableEq κ] {keys : Fin n → Option κ} {k : κ} :
    slotOf keys k = none ↔ ∀ i, keys i ≠ some k := by
  simp [slotOf]

theorem freeSlot_some {keys : Fin n → Option κ} {i : Fin n} (h : freeSlot keys = some i) :
    keys i = none := by
  simpa using Fin.eq_true_of_find?_eq_some h

theorem freeSlot_none {keys : Fin n → Option κ} :
    freeSlot keys = none ↔ ∀ i, keys i ≠ none := by
  simp [freeSlot, Option.ne_none_iff_isSome]

theorem scan_eq (hit free : Fin n → Bool) (is : List (Fin n)) (slot : Option (Fin n)) :
    scan hit free is slot = (is.find? hit).or (slot.or (is.find? free)) := by
  induction is generalizing slot with
  | nil => simp [scan]
  | cons i is ih =>
    unfold scan
    by_cases hk : hit i = true
    · simp [hk]
    · rw [if_neg hk, ih, List.find?_cons_of_neg hk]
      cases hi : free i <;> cases slot <;> simp [hi]

/-- The slot with the key, else the first free one, else the least recently used. -/
theorem putSlot_eq [DecidableEq κ] [NeZero n] [LT τ] [DecidableLT τ] (keys : Fin n → Option κ)
    (age : Fin n → τ) (k : κ) :
    putSlot keys age k = (slotOf keys k).getD ((freeSlot keys).getD (oldest age)) := by
  unfold putSlot slotOf freeSlot
  rw [scan_eq, ← Fin.find?_eq_find?_finRange, ← Fin.find?_eq_find?_finRange, Option.none_or]
  cases Fin.find? fun i => decide (keys i = some k) <;> rfl

/-- A store finds its key in the slot it picks, or the key is in no slot. -/
theorem putSlot_cases [DecidableEq κ] [NeZero n] [LT τ] [DecidableLT τ] (keys : Fin n → Option κ)
    (age : Fin n → τ) (k : κ) : keys (putSlot keys age k) = some k ∨ ∀ i, keys i ≠ some k := by
  rw [putSlot_eq]
  cases hs : slotOf keys k with
  | some i => exact Or.inl (slotOf_some hs)
  | none => exact Or.inr (slotOf_none.mp hs)

/-- The slot that one pass keeps is no older than any it has seen. -/
theorem foldl_best_le [LinearOrder τ] (age : Fin n → τ) (is : List (Fin n)) (best : Fin n) :
    age (is.foldl (fun best i => if age i < age best then i else best) best) ≤ age best ∧
      ∀ i ∈ is, age (is.foldl (fun best i => if age i < age best then i else best) best) ≤ age i := by
  induction is generalizing best with
  | nil => simp
  | cons i is ih =>
    rw [List.foldl_cons]
    by_cases hi : age i < age best
    · rw [if_pos hi]
      obtain ⟨h1, h2⟩ := ih i
      exact ⟨h1.trans hi.le, List.forall_mem_cons.mpr ⟨h1, h2⟩⟩
    · rw [if_neg hi]
      obtain ⟨h1, h2⟩ := ih best
      exact ⟨h1, List.forall_mem_cons.mpr ⟨h1.trans (not_lt.mp hi), h2⟩⟩

theorem oldest_le [NeZero n] [LinearOrder τ] (age : Fin n → τ) (i : Fin n) :
    age (oldest age) ≤ age i := by
  unfold oldest
  rw [Fin.foldl_eq_finRange_foldl]
  exact (foldl_best_le age _ 0).2 i (List.mem_finRange i)

/-- A slot that was used before all others is the oldest. -/
theorem oldest_eq [NeZero n] [LinearOrder τ] {age : Fin n → τ} {i : Fin n}
    (h : ∀ j, j ≠ i → age i < age j) : oldest age = i := by
  by_contra hne
  exact absurd (oldest_le age i) (not_le.mpr (h _ hne))

/-! ### Unique keys -/

/-- No key is in two slots. -/
def UniqueKeys (keys : Fin n → Option κ) : Prop :=
  ∀ i j k, keys i = some k → keys j = some k → i = j

theorem UniqueKeys.empty : UniqueKeys (fun _ : Fin n => (none : Option κ)) := by
  intro i j k h
  simp at h

/-- A slot may take any key that no other slot has. -/
theorem UniqueKeys.update {keys : Fin n → Option κ} (h : UniqueKeys keys) {i : Fin n}
    {v : Option κ} (hv : ∀ k, v = some k → ∀ j, j ≠ i → keys j ≠ some k) :
    UniqueKeys (Function.update keys i v) := by
  intro a b k ha hb
  by_cases hai : a = i
  · by_cases hbi : b = i
    · rw [hai, hbi]
    · rw [hai, Function.update_self] at ha
      rw [Function.update_of_ne hbi] at hb
      exact absurd hb (hv k ha b hbi)
  · rw [Function.update_of_ne hai] at ha
    by_cases hbi : b = i
    · rw [hbi, Function.update_self] at hb
      exact absurd ha (hv k hb a hai)
    · rw [Function.update_of_ne hbi] at hb
      exact h a b k ha hb

theorem UniqueKeys.clear {keys : Fin n → Option κ} (h : UniqueKeys keys) (i : Fin n) :
    UniqueKeys (Function.update keys i none) :=
  h.update (by simp)

/-- Only the slot that a store picks can have held the key before. -/
theorem UniqueKeys.ne_of_ne_putSlot [DecidableEq κ] [NeZero n] [LT τ] [DecidableLT τ]
    {keys : Fin n → Option κ} (h : UniqueKeys keys) {age : Fin n → τ} {k : κ} {j : Fin n}
    (hj : j ≠ putSlot keys age k) : keys j ≠ some k := by
  intro hk
  rcases putSlot_cases keys age k with hs | hno
  · exact hj (h _ _ k hk hs)
  · exact hno j hk

/-- A store keeps the keys unique. -/
theorem UniqueKeys.put [DecidableEq κ] [NeZero n] [LT τ] [DecidableLT τ]
    {keys : Fin n → Option κ} (h : UniqueKeys keys) (age : Fin n → τ) (k : κ) :
    UniqueKeys (Function.update keys (putSlot keys age k) (some k)) := by
  refine h.update fun k' hk' j hj => ?_
  obtain rfl : k = k' := by simpa using hk'
  exact h.ne_of_ne_putSlot hj

end SlotTable

end AquaTransport
