import AquaTransport.Lib.SlotTable
import Mathlib.Data.Finset.Card
import Mathlib.Data.Fintype.Card
import Mathlib.Tactic.SplitIfs

/-!
# AquaTransport.Lib.Lru — what a table with eviction by stamp remembers

A use of a key is a store or a hit, and a history of uses is kept newest first.  Over its history a
cache of `n` keys is a function, `Lru.lookup`: the value stored last under the key, as long as fewer
than `n` other keys have been used since the key was.  `Lru.Holds` ties a table of `n` slots, each
stamped at its last use, to a history; a store at the `putSlot` and a hit keep it, and `Holds.lookup`
says that the table then answers as the function does.
-/

namespace AquaTransport.Lru

open SlotTable

variable {n : ℕ} {κ ν : Type*}

inductive Use (κ ν : Type*)
  | put (k : κ) (v : ν)
  | hit (k : κ)
  deriving DecidableEq

def Use.key : Use κ ν → κ
  | put k _ | hit k => k

section History

variable [DecidableEq κ]

/-- The count of uses up to the last one of `k`. -/
def stampOf : List (Use κ ν) → κ → Option ℕ
  | [], _ => none
  | u :: h, k => if u.key = k then some (h.length + 1) else stampOf h k

/-- The value of the last store under `k`. -/
def valueOf : List (Use κ ν) → κ → Option ν
  | [], _ => none
  | .put k' v :: h, k => if k' = k then some v else valueOf h k
  | .hit _ :: h, k => valueOf h k

/-- The other keys used since `k` was. -/
def since : List (Use κ ν) → κ → Finset κ
  | [], _ => ∅
  | u :: h, k => if u.key = k then ∅ else insert u.key (since h k)

/-- The least recently used keys are forgotten. -/
def lookup (n : ℕ) (h : List (Use κ ν)) (k : κ) : Option ν :=
  if (since h k).card < n then valueOf h k else none

variable {h : List (Use κ ν)} {k k' : κ} {t : ℕ}

theorem stampOf_le (hk : stampOf h k = some t) : t ≤ h.length := by
  induction h with
  | nil => simp [stampOf] at hk
  | cons u h ih =>
    rw [List.length_cons]
    unfold stampOf at hk
    split_ifs at hk
    · exact (Option.some.inj hk).ge
    · exact (ih hk).trans (Nat.le_succ _)

/-- No two keys are used at once. -/
theorem stampOf_inj (hk : stampOf h k = some t) (hk' : stampOf h k' = some t) : k = k' := by
  induction h with
  | nil => simp [stampOf] at hk
  | cons u h ih =>
    unfold stampOf at hk hk'
    split_ifs at hk hk' with h1 h2
    · rw [← h1, ← h2]
    · have := stampOf_le hk'
      have := Option.some.inj hk
      omega
    · have := stampOf_le hk
      have := Option.some.inj hk'
      omega
    · exact ih hk hk'

/-- The keys used since `k` are those with a later stamp. -/
theorem mem_since (hk : stampOf h k = some t) :
    k' ∈ since h k ↔ ∃ t', stampOf h k' = some t' ∧ t < t' := by
  induction h with
  | nil => simp [stampOf] at hk
  | cons u h ih =>
    unfold stampOf at hk
    unfold since stampOf
    split_ifs at hk ⊢ with h1 h2 h2
    · obtain rfl := Option.some.inj hk
      simp
    · obtain rfl := Option.some.inj hk
      simp only [Finset.notMem_empty, false_iff]
      rintro ⟨t', ht', hlt⟩
      have := stampOf_le ht'
      omega
    · have := stampOf_le hk
      simp only [h2, Finset.mem_insert, true_or, true_iff]
      exact ⟨h.length + 1, rfl, by omega⟩
    · rw [Finset.mem_insert, ih hk]
      exact or_iff_right fun he => h2 he.symm

/-- A key with a value was used. -/
theorem stampOf_of_valueOf {v : ν} (hv : valueOf h k = some v) : ∃ t, stampOf h k = some t := by
  induction h with
  | nil => simp [valueOf] at hv
  | cons u h ih =>
    unfold stampOf
    split_ifs with hu
    · exact ⟨_, rfl⟩
    · cases u with
      | put k₁ v₁ =>
        rw [valueOf, if_neg (show ¬ k₁ = k from hu)] at hv
        exact ih hv
      | hit k₁ => exact ih hv

end History

/-! ### A table of stamped slots -/

/-- The table's slots are the last uses of their keys, and a key that is gone was used before every
key that is there. -/
structure Holds [DecidableEq κ] (look : Fin n → Option (κ × ν)) (age : Fin n → ℕ)
    (h : List (Use κ ν)) : Prop where
  entry : ∀ i k v, look i = some (k, v) → stampOf h k = some (age i) ∧ valueOf h k = some v
  unique : UniqueKeys fun i => (look i).map Prod.fst
  gone : ∀ k t, stampOf h k = some t → (∀ i v, look i ≠ some (k, v)) →
    ∀ i, ∃ k' v', look i = some (k', v') ∧ t < age i

namespace Holds

variable [DecidableEq κ] {look : Fin n → Option (κ × ν)} {age : Fin n → ℕ}
  {h : List (Use κ ν)} {k : κ} {v : ν} {i : Fin n}

theorem init : Holds (fun _ : Fin n => (none : Option (κ × ν))) age [] where
  entry := by simp
  unique := UniqueKeys.empty
  gone := by simp [stampOf]

theorem slot_inj (H : Holds look age h) {j : Fin n} {v' : ν} (hi : look i = some (k, v))
    (hj : look j = some (k, v')) : i = j :=
  H.unique i j k (by simp [hi]) (by simp [hj])

/-- A key is there exactly while fewer than `n` others have been used since. -/
theorem resident_iff (H : Holds look age h) {t : ℕ} (hk : stampOf h k = some t) :
    (∃ i v, look i = some (k, v)) ↔ (since h k).card < n := by
  constructor
  · rintro ⟨i, v, hi⟩
    have ht : age i = t := Option.some.inj ((H.entry i k v hi).1.symm.trans hk)
    -- each key used since has a slot of its own, and none of them is this one
    have hslot : ∀ k' ∈ since h k, ∃ j, j ≠ i ∧ (look j).map Prod.fst = some k' := by
      intro k' hk'
      obtain ⟨t', ht', hlt⟩ := (mem_since hk).mp hk'
      have hin : ∃ j v', look j = some (k', v') := by
        by_contra hno
        simp only [not_exists] at hno
        obtain ⟨k₁, v₁, hi', hage⟩ := H.gone k' t' ht' hno i
        omega
      obtain ⟨j, v', hj⟩ := hin
      refine ⟨j, ?_, by simp [hj]⟩
      rintro rfl
      have := Option.some.inj ((H.entry j k' v' hj).1.symm.trans ht')
      omega
    have : Nonempty (Fin n) := ⟨i⟩
    choose! f hf using hslot
    have hcard : (since h k).card ≤ (Finset.univ.erase i).card := by
      refine Finset.card_le_card_of_injOn f (fun k' hk' => ?_) fun k' hk' k'' hk'' he => ?_
      · exact Finset.mem_coe.mpr (Finset.mem_erase.mpr ⟨(hf k' hk').1, Finset.mem_univ _⟩)
      · have h1 := (hf k' hk').2
        rw [he] at h1
        exact Option.some.inj (h1.symm.trans (hf k'' hk'').2)
    rw [Finset.card_erase_of_mem (Finset.mem_univ i), Finset.card_univ, Fintype.card_fin] at hcard
    have := i.isLt
    omega
  · intro hlt
    by_contra hno
    simp only [not_exists] at hno
    -- every slot has a key that was used since
    have hfull : ∀ j, ∃ k', (look j).map Prod.fst = some k' ∧ k' ∈ since h k := by
      intro j
      obtain ⟨k', v', hj, hage⟩ := H.gone k t hk hno j
      exact ⟨k', by simp [hj], (mem_since hk).mpr ⟨age j, (H.entry j k' v' hj).1, hage⟩⟩
    choose f hf using hfull
    have hcard : (Finset.univ : Finset (Fin n)).card ≤ (since h k).card := by
      refine Finset.card_le_card_of_injOn f (fun j _ => Finset.mem_coe.mpr (hf j).2) fun j _ j' _ he => ?_
      exact H.unique j j' (f j) (hf j).1 (he ▸ (hf j').1)
    rw [Finset.card_univ, Fintype.card_fin] at hcard
    omega

/-- The table answers as the history does. -/
theorem lookup (H : Holds look age h) (k : κ) :
    ((slotOf (fun i => (look i).map Prod.fst) k).bind look).map Prod.snd = Lru.lookup n h k := by
  unfold Lru.lookup
  cases hs : slotOf (fun i => (look i).map Prod.fst) k with
  | some i =>
    obtain ⟨⟨k', v⟩, hi, hk'⟩ := Option.map_eq_some_iff.mp (slotOf_some hs)
    obtain rfl : k' = k := hk'
    obtain ⟨ht, hv⟩ := H.entry i k' v hi
    rw [if_pos ((H.resident_iff ht).mp ⟨i, v, hi⟩), Option.bind_some, hi, hv]
    rfl
  | none =>
    have hno : ∀ i v, look i ≠ some (k, v) := fun i v hi => slotOf_none.mp hs i (by simp [hi])
    rw [Option.bind_none, Option.map_none]
    split_ifs with hlt
    · cases hv : valueOf h k with
      | none => rfl
      | some v =>
        obtain ⟨t, ht⟩ := stampOf_of_valueOf hv
        obtain ⟨i, v', hi⟩ := (H.resident_iff ht).mpr hlt
        exact absurd hi (hno i v')
    · rfl

/-! ### Uses -/

/-- A use leaves the keys of the other slots as they were, and later stamped than any key gone. -/
theorem use (H : Holds look age h) {u : Use κ ν} (hv : valueOf (u :: h) u.key = some v)
    (hval : ∀ k ≠ u.key, valueOf (u :: h) k = valueOf h k)
    (hi : ∀ j v', look j = some (u.key, v') → j = i)
    (hfull : (∃ v', look i = some (u.key, v')) ∨ look i = none ∨
      (∀ j, look j ≠ none) ∧ ∀ j, age i ≤ age j) :
    Holds (Function.update look i (some (u.key, v))) (Function.update age i (h.length + 1)) (u :: h) := by
  have hlook : ∀ j k' v', Function.update look i (some (u.key, v)) j = some (k', v') →
      j = i ∧ k' = u.key ∧ v' = v ∨ j ≠ i ∧ k' ≠ u.key ∧ look j = some (k', v') := by
    intro j k' v' hj
    rcases update_eq_some_iff.mp hj with ⟨rfl, he⟩ | ⟨hne, he⟩
    · obtain ⟨rfl, rfl⟩ := Prod.mk.inj (Option.some.inj he)
      exact Or.inl ⟨rfl, rfl, rfl⟩
    · refine Or.inr ⟨hne, ?_, he⟩
      rintro rfl
      exact hne (hi j v' he)
  have hstamp : ∀ k', k' ≠ u.key → stampOf (u :: h) k' = stampOf h k' := fun k' hk' =>
    if_neg fun he => hk' he.symm
  refine ⟨?_, ?_, ?_⟩
  · intro j k' v' hj
    rcases hlook j k' v' hj with ⟨rfl, rfl, rfl⟩ | ⟨hne, hk', he⟩
    · rw [Function.update_self]
      exact ⟨if_pos rfl, hv⟩
    · rw [Function.update_of_ne hne, hstamp k' hk', hval k' hk']
      exact H.entry j k' v' he
  · have hkeys : (fun j => (Function.update look i (some (u.key, v)) j).map Prod.fst) =
        Function.update (fun j => (look j).map Prod.fst) i (some u.key) := by
      funext j
      by_cases hj : j = i
      · subst hj
        simp
      · simp [hj]
    rw [hkeys]
    refine H.unique.update fun k' hk' j hj hjk => ?_
    obtain rfl : u.key = k' := Option.some.inj hk'
    obtain ⟨⟨k₁, v₁⟩, hj', hk₁⟩ := Option.map_eq_some_iff.mp hjk
    obtain rfl : k₁ = u.key := hk₁
    exact hj (hi j v₁ hj')
  · intro k' t ht hno j
    have hne : k' ≠ u.key := by
      rintro rfl
      exact hno i v (Function.update_self ..)
    rw [hstamp k' hne] at ht
    have hold := stampOf_le ht
    by_cases hj : j = i
    · rw [hj, Function.update_self, Function.update_self]
      exact ⟨u.key, v, rfl, by omega⟩
    rw [Function.update_of_ne hj, Function.update_of_ne hj]
    -- the key was gone before, or its slot is the one that was taken
    by_cases hgone : ∀ j v', look j ≠ some (k', v')
    · exact H.gone k' t ht hgone j
    simp only [not_forall, not_not] at hgone
    obtain ⟨j', v', hj'⟩ := hgone
    obtain rfl : j' = i := by
      by_contra hne'
      exact hno j' v' (by rw [Function.update_of_ne hne', hj'])
    rcases hfull with ⟨w, hw⟩ | hnone | ⟨hall, hle⟩
    · rw [hj'] at hw
      exact absurd (Prod.mk.inj (Option.some.inj hw)).1 hne
    · rw [hj'] at hnone
      simp at hnone
    · obtain ⟨⟨k₂, v₂⟩, hj₂⟩ := Option.ne_none_iff_exists'.mp (hall j)
      refine ⟨k₂, v₂, hj₂, ?_⟩
      have h1 := (H.entry j' k' v' hj').1
      obtain rfl : age j' = t := Option.some.inj (h1.symm.trans ht)
      refine lt_of_le_of_ne (hle j) fun he => hj ?_
      have h2 := (H.entry j k₂ v₂ hj₂).1
      obtain rfl := stampOf_inj h1 (he ▸ h2)
      exact H.slot_inj hj₂ hj'

theorem hit (H : Holds look age h) (hi : look i = some (k, v)) :
    Holds look (Function.update age i (h.length + 1)) (.hit k :: h) := by
  have hv : valueOf (.hit k :: h) (Use.hit (ν := ν) k).key = some v := (H.entry i k v hi).2
  have huse := H.use (i := i) (u := .hit k) hv (fun _ _ => rfl)
    (fun j v' hj => H.slot_inj hj hi) (Or.inl ⟨v, hi⟩)
  rwa [show Function.update look i (some ((Use.hit (ν := ν) k).key, v)) = look from
    Function.update_eq_self_iff.mpr hi.symm] at huse

/-- A store at the slot with the key, at a free one when there is none, at the oldest when none is
free. -/
theorem put [NeZero n] (H : Holds look age h) (k : κ) (v : ν) :
    Holds (Function.update look (putSlot (fun i => (look i).map Prod.fst) age k) (some (k, v)))
      (Function.update age (putSlot (fun i => (look i).map Prod.fst) age k) (h.length + 1))
      (.put k v :: h) := by
  have hv : valueOf (.put k v :: h) (Use.put k v).key = some v := if_pos rfl
  refine H.use (u := .put k v) hv (fun k' hk' => if_neg hk'.symm) (fun j v' hj => ?_) ?_
  · by_contra hne
    exact H.unique.ne_of_ne_putSlot hne (by simp [hj, Use.key])
  · rw [putSlot_eq]
    cases hs : slotOf (fun i => (look i).map Prod.fst) k with
    | some i =>
      obtain ⟨⟨k', v'⟩, hi, hk'⟩ := Option.map_eq_some_iff.mp (slotOf_some hs)
      obtain rfl : k' = k := hk'
      exact Or.inl ⟨v', hi⟩
    | none =>
      cases hf : freeSlot fun i => (look i).map Prod.fst with
      | some i =>
        have := freeSlot_some hf
        rw [Option.map_eq_none_iff] at this
        exact Or.inr (Or.inl this)
      | none =>
        refine Or.inr (Or.inr ⟨fun j hj => ?_, oldest_le age⟩)
        exact freeSlot_none.mp hf j (by rw [hj]; rfl)

end Holds

end AquaTransport.Lru
