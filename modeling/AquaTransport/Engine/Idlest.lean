import AquaTransport.Engine.TableView
import Mathlib.Data.Finset.Card
import Mathlib.Data.Fintype.Card

/-!
# AquaTransport.Engine.Idlest — the shadow that was idle longest

`Idlest` says that a slot's shadow was used before those of all other slots.  A new shadow takes a
free slot while there is one (`Idlest.insert_free`), and the idlest one's when there is none
(`Idlest.insert_full`).
-/

namespace AquaTransport

open SlotTable

section Table

variable {α : Type} {t t' : Table α} {c : Ctx} {s : Sid} {i : Fin MAXSH}

namespace Table

/-- Only the stamps of the entries count for the ages. -/
theorem modify_age {f : Entry α → Entry α} (hf : ∀ e, (f e).lastUse = e.lastUse) :
    (t.modify s f).age = t.age := by
  funext j
  unfold age
  rw [modify_gTab]
  cases t.gTab j with
  | none => rfl
  | some s' =>
    rw [Option.bind_some, Option.bind_some, modify_mem]
    split_ifs with hs
    · subst hs
      cases t.mem s' <;> simp [hf]
    · rfl

theorem drop_age : (t.drop s).age = t.age := modify_age fun _ => rfl

theorem write_age (f : α → α) : (t.write s f).age = t.age := modify_age fun _ => rfl

/-- The number of free slots. -/
def room (t : Table α) : ℕ := (Finset.univ.filter fun i => t.gTab i = none).card

theorem room_eq_zero : t.room = 0 ↔ freeSlot t.gTab = none := by
  unfold room
  rw [Finset.card_eq_zero, Finset.filter_eq_empty_iff, freeSlot_none]
  exact ⟨fun h i => h (Finset.mem_univ i), fun h i _ => h i⟩

/-- Slot `i` holds `s`, which was used before all shadows in other slots. -/
structure Idlest (t : Table α) (i : Fin MAXSH) (s : Sid) : Prop where
  slot : t.gTab i = some s
  younger : ∀ j, j ≠ i → t.gTab j ≠ none → t.age i < t.age j
  clock : t.age i ≤ t.gClock.toNat

theorem Idlest.congr (h : t.Idlest i s) (hg : t'.gTab = t.gTab) (ha : t'.age = t.age)
    (hc : t'.gClock = t.gClock) : t'.Idlest i s := by
  refine ⟨?_, fun j hj hs => ?_, ?_⟩
  · rw [hg]
    exact h.slot
  · rw [hg] at hs
    rw [ha]
    exact h.younger j hj hs
  · rw [ha, hc]
    exact h.clock

/-- A new shadow takes a free slot, and is younger than all. -/
theorem Idlest.insert_free (h : t.Idlest i s) (blank : α) (hroom : t.room ≠ 0)
    (hnew : ∀ j, t.gTab j ≠ some t.next) (hclock : t.gClock.toNat + 1 < 2 ^ 32) :
    (shInsert blank t c).1.Idlest i s ∧ (shInsert blank t c).1.room + 1 = t.room ∧
      (shInsert blank t c).1.gClock.toNat = t.gClock.toNat + 1 := by
  have htick : (t.gClock + 1).toNat = t.gClock.toNat + 1 := by
    rw [UInt32.toNat_add]
    exact Nat.mod_eq_of_lt hclock
  cases hf : freeSlot t.gTab with
  | none => exact absurd (room_eq_zero.mpr hf) hroom
  | some l =>
    have hl : t.gTab l = none := freeSlot_some hf
    have hil : i ≠ l := by
      rintro rfl
      simp [h.slot] at hl
    rw [shInsert_free blank hf]
    have hage : ∀ j, j ≠ l → ((t.calloc c blank).seat l t.next).age j = t.age j := by
      intro j hj
      simp only [age, seat, calloc, Function.update_of_ne hj]
      cases hs : t.gTab j with
      | none => rfl
      | some s' =>
        have hne : s' ≠ t.next := by
          rintro rfl
          exact hnew j hs
        simp [hne]
    have hagel : ((t.calloc c blank).seat l t.next).age l = t.gClock.toNat + 1 := by
      simp [age, seat, calloc, htick]
    refine ⟨⟨?_, fun j hj hs => ?_, ?_⟩, ?_, htick⟩
    · simp only [seat, calloc, Function.update_of_ne hil]
      exact h.slot
    · rw [hage i hil]
      by_cases hjl : j = l
      · subst hjl
        rw [hagel]
        exact Nat.lt_succ_of_le h.clock
      · rw [hage j hjl]
        refine h.younger j hj ?_
        simpa [seat, calloc, hjl] using hs
    · rw [hage i hil]
      exact h.clock.trans (by simp [seat, calloc, htick])
    · have hroom' : (Finset.univ.filter fun j => t.gTab j = none) = insert l
          (Finset.univ.filter fun j => ((t.calloc c blank).seat l t.next).gTab j = none) := by
        ext j
        rw [Finset.mem_insert, Finset.mem_filter_univ, Finset.mem_filter_univ]
        by_cases hj : j = l
        · subst hj; simp [hl]
        · simp [seat, calloc, hj]
      unfold room
      rw [hroom', Finset.card_insert_of_notMem]
      rw [Finset.mem_filter_univ]
      simp [seat, calloc]

/-- In a full table it is the one that `sh_create` finds. -/
theorem Idlest.oldest (h : t.Idlest i s) (hroom : t.room = 0) : SlotTable.oldest t.age = i :=
  oldest_eq fun j hj => h.younger j hj (freeSlot_none.mp (room_eq_zero.mp hroom) j)

/-- When there is no free slot, a new shadow takes the idlest one's. -/
theorem Idlest.insert_full (h : t.Idlest i s) (blank : α) (hroom : t.room = 0)
    (honly : ∀ j, t.gTab j = some s → j = i) (hs : s ≠ t.next) :
    ¬ (shInsert blank t c).1.InTable s := by
  have hold := h.oldest hroom
  have hslot : t.gTab (SlotTable.oldest t.age) = some s := hold ▸ h.slot
  rw [shInsert_evict blank (room_eq_zero.mp hroom) hslot, hold]
  rintro ⟨j, hj⟩
  by_cases hji : j = i
  · subst hji
    simp only [seat, Function.update_self, Option.some.injEq] at hj
    exact hs hj.symm
  · simp only [seat, Function.update_of_ne hji, drop, modify_gTab, calloc] at hj
    exact hji (honly j hj)

end Table

theorem Conc.create_new {st : Conc α} (tid : Tid) (blank : α) (h : st.tab.find c = none) :
    (st.create tid true blank c).1.tab = (shInsert blank st.tab c).1 := by
  simp only [Conc.create, shCreate_new blank h]

end Table

end AquaTransport
