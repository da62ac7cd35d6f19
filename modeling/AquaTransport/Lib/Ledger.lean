import AquaTransport.Lib.SlotTable
import Mathlib.Data.List.Nodup

/-!
# AquaTransport.Lib.Ledger — objects that are made, owned and freed once

A `Ledger` has the object that each party owns, the next object to be made, and the objects freed so
far.  An object is made for one party, and freed by its owner or, when its making fails, at once.
`Once` says that no object has two owners, none is freed twice, and none is owned after it was freed;
`Accounted`, that an object that is not freed has an owner.
-/

namespace AquaTransport

structure Ledger (ι : Type*) where
  owner : ι → Option ℕ := fun _ => none
  next : ℕ := 0
  freed : List ℕ := []

namespace Ledger

variable {ι : Type*}

inductive Step [DecidableEq ι] : Ledger ι → Ledger ι → Prop
  | keep (L : Ledger ι) : Step L L
  | make {L : Ledger ι} {i : ι} (h : L.owner i = none) :
      Step L { L with owner := Function.update L.owner i (some L.next), next := L.next + 1 }
  | free {L : Ledger ι} {i : ι} {o : ℕ} (h : L.owner i = some o) :
      Step L { L with owner := Function.update L.owner i none, freed := o :: L.freed }
  /-- The object is freed before anyone owns it. -/
  | spoil (L : Ledger ι) : Step L { L with next := L.next + 1, freed := L.next :: L.freed }

structure Once (L : Ledger ι) : Prop where
  made : ∀ i o, L.owner i = some o → o < L.next
  sole : ∀ i j o, L.owner i = some o → L.owner j = some o → i = j
  kept : ∀ i o, L.owner i = some o → o ∉ L.freed
  past : ∀ o ∈ L.freed, o < L.next
  once : L.freed.Nodup

theorem Once.init : ({} : Ledger ι).Once := ⟨by simp, by simp, by simp, by simp, by simp⟩

theorem Once.spoil {L : Ledger ι} (h : L.Once) :
    Once { L with next := L.next + 1, freed := L.next :: L.freed } := by
  refine ⟨fun i o hi => Nat.lt_succ_of_lt (h.made i o hi), h.sole, ?_, ?_, ?_⟩
  · intro i o hi hmem
    rcases List.mem_cons.mp hmem with rfl | hmem
    · exact absurd (h.made i _ hi) (Nat.lt_irrefl _)
    · exact h.kept i o hi hmem
  · intro o hmem
    rcases List.mem_cons.mp hmem with rfl | hmem
    · exact Nat.lt_succ_self _
    · exact Nat.lt_succ_of_lt (h.past o hmem)
  · exact List.nodup_cons.mpr ⟨fun hmem => absurd (h.past _ hmem) (Nat.lt_irrefl _), h.once⟩

section Steps

variable [DecidableEq ι]

theorem Once.make {L : Ledger ι} (h : L.Once) (i : ι) :
    Once { L with owner := Function.update L.owner i (some L.next), next := L.next + 1 } := by
  refine ⟨?_, ?_, ?_, fun o ho => Nat.lt_succ_of_lt (h.past o ho), h.once⟩
  · intro j o hj
    rcases update_eq_some_iff.mp hj with ⟨-, ho⟩ | ⟨-, ho⟩
    · exact Option.some.inj ho ▸ Nat.lt_succ_self _
    · exact Nat.lt_succ_of_lt (h.made j o ho)
  · intro j j' o hj hj'
    rcases update_eq_some_iff.mp hj with ⟨rfl, ho⟩ | ⟨-, ho⟩
    · rcases update_eq_some_iff.mp hj' with ⟨rfl, -⟩ | ⟨-, ho'⟩
      · rfl
      · exact absurd (h.made j' o ho') (by rw [← Option.some.inj ho]; exact Nat.lt_irrefl _)
    · rcases update_eq_some_iff.mp hj' with ⟨rfl, ho'⟩ | ⟨-, ho'⟩
      · exact absurd (h.made j o ho) (by rw [← Option.some.inj ho']; exact Nat.lt_irrefl _)
      · exact h.sole j j' o ho ho'
  · intro j o hj hmem
    rcases update_eq_some_iff.mp hj with ⟨-, ho⟩ | ⟨-, ho⟩
    · exact absurd (h.past o hmem) (by rw [← Option.some.inj ho]; exact Nat.lt_irrefl _)
    · exact h.kept j o ho hmem

theorem Once.free {L : Ledger ι} (h : L.Once) {i : ι} {o : ℕ} (hi : L.owner i = some o) :
    Once { L with owner := Function.update L.owner i none, freed := o :: L.freed } := by
  have hold : ∀ j o', Function.update L.owner i none j = some o' → j ≠ i ∧ L.owner j = some o' := by
    intro j o' hj
    rcases update_eq_some_iff.mp hj with ⟨-, h'⟩ | h'
    · exact absurd h' (by simp)
    · exact h'
  refine ⟨fun j o' hj => h.made j o' (hold j o' hj).2,
    fun j j' o' hj hj' => h.sole j j' o' (hold j o' hj).2 (hold j' o' hj').2, ?_, ?_, ?_⟩
  · intro j o' hj hmem
    obtain ⟨hne, ho'⟩ := hold j o' hj
    rcases List.mem_cons.mp hmem with rfl | hmem
    · exact hne (h.sole j i _ ho' hi)
    · exact h.kept j o' ho' hmem
  · intro o' hmem
    rcases List.mem_cons.mp hmem with rfl | hmem
    · exact h.made i _ hi
    · exact h.past o' hmem
  · exact List.nodup_cons.mpr ⟨h.kept i o hi, h.once⟩

/-- **Every step keeps the books.** -/
theorem Once.step {L L' : Ledger ι} (h : L.Once) (hs : Step L L') : L'.Once := by
  cases hs with
  | keep => exact h
  | make => exact h.make _
  | free ho => exact h.free ho
  | spoil => exact h.spoil

end Steps

/-- Every object made is freed or has an owner. -/
def Accounted (L : Ledger ι) : Prop := ∀ o < L.next, o ∈ L.freed ∨ ∃ i, L.owner i = some o

/-- **No step loses an object.** -/
theorem Accounted.step [DecidableEq ι] {L L' : Ledger ι} (h : L.Accounted) (hs : Step L L') :
    L'.Accounted := by
  intro o ho
  cases hs with
  | keep => exact h o ho
  | @make i hi =>
    rcases Nat.lt_succ_iff_lt_or_eq.mp ho with ho | rfl
    · refine (h o ho).imp_right fun ⟨j, hj⟩ => ⟨j, ?_⟩
      have hne : j ≠ i := by
        rintro rfl
        simp [hi] at hj
      exact (Function.update_of_ne hne ..).trans hj
    · exact .inr ⟨i, Function.update_self ..⟩
  | @free i p hi =>
    rcases h o ho with hf | ⟨j, hj⟩
    · exact .inl (List.mem_cons_of_mem _ hf)
    · rcases eq_or_ne j i with rfl | hne
      · exact .inl (List.mem_cons.mpr (.inl (Option.some.inj (hj.symm.trans hi))))
      · exact .inr ⟨j, (Function.update_of_ne hne ..).trans hj⟩
  | spoil =>
    rcases Nat.lt_succ_iff_lt_or_eq.mp ho with ho | rfl
    · exact (h o ho).imp_left (List.mem_cons_of_mem _)
    · exact .inl List.mem_cons_self

end Ledger

end AquaTransport
