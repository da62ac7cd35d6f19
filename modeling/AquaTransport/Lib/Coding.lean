import Mathlib.Data.List.Basic
import Mathlib.Data.List.Infix
import Mathlib.Data.Set.Basic

/-!
# AquaTransport.Lib.Coding — words that mark their own ends

A word that ends at the first terminator is told from the text after it (`terminated_inj`).  A set of
words is `PrefixFree` when none is a proper prefix of another.  Nonempty words of such a set
can be written one after the other and told apart again (`flatten_inj`).
-/

namespace AquaTransport

variable {α : Type*}

/-- The first terminator tells a word from the text after it. -/
theorem terminated_inj {z : α} {a b u v : List α} (ha : z ∉ a) (hb : z ∉ b)
    (h : a ++ z :: u = b ++ z :: v) : a = b ∧ u = v := by
  induction a generalizing b with
  | nil =>
    cases b with
    | nil => exact ⟨rfl, (List.cons_eq_cons.mp h).2⟩
    | cons y b =>
      obtain ⟨rfl, -⟩ := List.cons_eq_cons.mp h
      exact absurd List.mem_cons_self hb
  | cons x a ih =>
    cases b with
    | nil =>
      obtain ⟨rfl, -⟩ := List.cons_eq_cons.mp h
      exact absurd List.mem_cons_self ha
    | cons y b =>
      obtain ⟨rfl, h'⟩ := List.cons_eq_cons.mp h
      obtain ⟨rfl, huv⟩ := ih (fun hm => ha (List.mem_cons_of_mem x hm))
        (fun hm => hb (List.mem_cons_of_mem x hm)) h'
      exact ⟨rfl, huv⟩

/-- No word of the set is a proper prefix of another. -/
def PrefixFree (S : Set (List α)) : Prop := ∀ a ∈ S, ∀ b ∈ S, a <+: b → a = b

/-- Two words that start two equal texts are equal. -/
theorem PrefixFree.eq_of_append {S : Set (List α)} (h : PrefixFree S) {a b u v : List α}
    (ha : a ∈ S) (hb : b ∈ S) (he : a ++ u = b ++ v) : a = b := by
  rcases List.prefix_or_prefix_of_prefix (List.prefix_append a u) (he ▸ List.prefix_append b v) with
    hp | hp
  · exact h a ha b hb hp
  · exact (h b hb a ha hp).symm

/-- A text of nonempty words determines the words. -/
theorem PrefixFree.flatten_inj {S : Set (List α)} (h : PrefixFree S) (hne : [] ∉ S)
    {as bs : List (List α)} (has : ∀ a ∈ as, a ∈ S) (hbs : ∀ b ∈ bs, b ∈ S)
    (he : as.flatten = bs.flatten) : as = bs := by
  induction as generalizing bs with
  | nil =>
    cases bs with
    | nil => rfl
    | cons b bs =>
      have hb : b = [] := by
        have := he.symm
        rw [List.flatten_nil, List.flatten_cons, List.append_eq_nil_iff] at this
        exact this.1
      exact absurd (hb ▸ hbs b List.mem_cons_self) hne
  | cons a as ih =>
    cases bs with
    | nil =>
      rw [List.flatten_nil, List.flatten_cons, List.append_eq_nil_iff] at he
      exact absurd (he.1 ▸ has a List.mem_cons_self) hne
    | cons b bs =>
      rw [List.flatten_cons, List.flatten_cons] at he
      obtain rfl := h.eq_of_append (has a List.mem_cons_self) (hbs b List.mem_cons_self) he
      rw [List.append_cancel_left_eq] at he
      rw [ih (fun x hx => has x (List.mem_cons_of_mem a hx))
        (fun x hx => hbs x (List.mem_cons_of_mem a hx)) he]

end AquaTransport
