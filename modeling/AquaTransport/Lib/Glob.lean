import Mathlib.Data.List.Basic
import Mathlib.Data.List.Infix
import Mathlib.Order.MinMax
import Mathlib.Tactic.Common

/-!
# AquaTransport.Lib.Glob — wildcards that stay inside a component

A pattern is a list in which one letter, `star`, stands for any run of letters other than `sep`.
`InLang` is its language.  `first` looks for a prefix of the text in the language and tries every
place for every star; `scan` is the usual loop, which goes back to the last star only.

They agree (`scan_eq_first`): where a later star finds no place, moving the star before it does not
help, because the letters it would take then are as free of `sep` as those that the later one gains.
-/

namespace AquaTransport.Glob

variable {α : Type*}

/-! ### The language -/

/-- The words of a pattern. -/
inductive InLang (star sep : α) : List α → List α → Prop
  | nil : InLang star sep [] []
  | lit {c : α} {p w : List α} : c ≠ star → InLang star sep p w → InLang star sep (c :: p) (c :: w)
  | skip {p w : List α} : InLang star sep p w → InLang star sep (star :: p) w
  | eat {c : α} {p w : List α} : c ≠ sep → InLang star sep (star :: p) w →
      InLang star sep (star :: p) (c :: w)

section Language

variable {star sep : α} {p q u v w : List α}

theorem InLang.append (hp : InLang star sep p u) (hq : InLang star sep q v) :
    InLang star sep (p ++ q) (u ++ v) := by
  induction hp with
  | nil => exact hq
  | lit hc _ ih => exact .lit hc ih
  | skip _ ih => exact .skip ih
  | eat hc _ ih => exact .eat hc ih

/-- A word of two patterns in a row is a word of each in a row. -/
theorem InLang.split (h : InLang star sep (p ++ q) w) :
    ∃ u v, w = u ++ v ∧ InLang star sep p u ∧ InLang star sep q v := by
  generalize hpq : p ++ q = r at h
  induction h generalizing p with
  | nil =>
    obtain ⟨rfl, rfl⟩ := List.append_eq_nil_iff.mp hpq
    exact ⟨[], [], rfl, .nil, .nil⟩
  | @lit c r w hc h ih =>
    cases p with
    | nil => exact ⟨[], c :: w, rfl, .nil, by rw [List.nil_append] at hpq; exact hpq ▸ .lit hc h⟩
    | cons a p =>
      obtain ⟨rfl, rfl⟩ := List.cons.inj hpq
      obtain ⟨u, v, rfl, hu, hv⟩ := ih rfl
      exact ⟨a :: u, v, rfl, .lit hc hu, hv⟩
  | @skip r w h ih =>
    cases p with
    | nil => exact ⟨[], w, rfl, .nil, by rw [List.nil_append] at hpq; exact hpq ▸ .skip h⟩
    | cons a p =>
      obtain ⟨rfl, rfl⟩ := List.cons.inj hpq
      obtain ⟨u, v, rfl, hu, hv⟩ := ih rfl
      exact ⟨u, v, rfl, .skip hu, hv⟩
  | @eat c r w hc h ih =>
    cases p with
    | nil => exact ⟨[], c :: w, rfl, .nil, by rw [List.nil_append] at hpq; exact hpq ▸ .eat hc h⟩
    | cons a p =>
      obtain ⟨rfl, rfl⟩ := List.cons.inj hpq
      obtain ⟨u, v, rfl, hu, hv⟩ := ih (p := a :: p) rfl
      exact ⟨c :: u, v, rfl, .eat hc hu, hv⟩

/-- A pattern without a star has itself for its only word. -/
theorem inLang_literal (hp : star ∉ p) : InLang star sep p w ↔ w = p := by
  constructor
  · intro h
    induction h with
    | nil => rfl
    | lit _ _ ih => rw [ih (fun hm => hp (List.mem_cons_of_mem _ hm))]
    | skip _ _ => exact absurd List.mem_cons_self hp
    | eat _ _ _ => exact absurd List.mem_cons_self hp
  · rintro rfl
    induction w with
    | nil => exact .nil
    | cons c w ih =>
      rw [List.mem_cons, not_or] at hp
      exact .lit (Ne.symm hp.1) (ih hp.2)

/-- A single star has every run without `sep` for a word. -/
theorem inLang_star : InLang star sep [star] w ↔ sep ∉ w := by
  constructor
  · intro h
    generalize hp : [star] = p at h
    induction h with
    | nil => simp
    | lit hc _ _ =>
      obtain ⟨rfl, -⟩ := List.cons.inj hp
      exact absurd rfl hc
    | skip h _ =>
      obtain ⟨-, rfl⟩ := List.cons.inj hp
      cases h
      simp
    | eat hc _ ih =>
      rw [List.mem_cons, not_or]
      exact ⟨Ne.symm hc, ih hp⟩
  · intro h
    induction w with
    | nil => exact .skip .nil
    | cons c w ih =>
      rw [List.mem_cons, not_or] at h
      exact .eat (Ne.symm h.1) (ih h.2)

/-- A pattern without `sep` has no word with it. -/
theorem InLang.sep_not_mem (h : InLang star sep p w) (hp : sep ∉ p) : sep ∉ w := by
  induction h with
  | nil => exact hp
  | lit _ _ ih =>
    rw [List.mem_cons, not_or] at hp ⊢
    exact ⟨hp.1, ih hp.2⟩
  | skip _ ih => exact ih fun hm => hp (List.mem_cons_of_mem _ hm)
  | eat hc _ ih =>
    rw [List.mem_cons, not_or]
    exact ⟨Ne.symm hc, ih hp⟩

/-- A pattern is a word of its own. -/
theorem InLang.self (hs : star ≠ sep) (p : List α) : InLang star sep p p := by
  classical
  induction p with
  | nil => exact .nil
  | cons c p ih =>
    by_cases hc : c = star
    · subst hc
      exact .eat hs (.skip ih)
    · exact .lit hc ih

end Language

/-! ### The search that tries everything -/

section Search

variable [DecidableEq α] {star sep : α}

/-- The first of `s`, `s` less a letter and so on, up to the first `sep`, at which `f` succeeds. -/
def firstFrom (sep : α) (f : List α → Option (List α)) : List α → Option (List α)
  | [] => f []
  | c :: s =>
    match f (c :: s) with
    | some r => some r
    | none => if c = sep then none else firstFrom sep f s

/-- What a prefix in the language leaves of the text. -/
def first (star sep : α) : List α → List α → Option (List α)
  | [], s => some s
  | p :: ps, s =>
    if p = star then firstFrom sep (first star sep ps) s
    else
      match s with
      | [] => none
      | c :: s => if p = c then first star sep ps s else none

variable {f : List α → Option (List α)} {m p s t r : List α}

theorem first_star : first star sep (star :: p) s = firstFrom sep (first star sep p) s := by
  cases s <;> simp only [first, if_true]

theorem firstFrom_of_some (h : f s = some r) : firstFrom sep f s = some r := by
  cases s with
  | nil => exact h
  | cons c s => rw [firstFrom, h]

theorem firstFrom_some (h : firstFrom sep f s = some r) :
    ∃ d t, s = d ++ t ∧ sep ∉ d ∧ f t = some r := by
  induction s with
  | nil => exact ⟨[], [], rfl, by simp, h⟩
  | cons c s ih =>
    cases hf : f (c :: s) with
    | some r' =>
      rw [firstFrom, hf] at h
      exact ⟨[], c :: s, rfl, by simp, hf.trans h⟩
    | none =>
      rw [firstFrom, hf] at h
      by_cases hc : c = sep
      · simp [hc] at h
      · obtain ⟨d, t, rfl, hd, ht⟩ := ih (by simpa [hc] using h)
        refine ⟨c :: d, t, rfl, ?_, ht⟩
        rw [List.mem_cons, not_or]
        exact ⟨Ne.symm hc, hd⟩

theorem firstFrom_none : firstFrom sep f s = none ↔ ∀ d t, s = d ++ t → sep ∉ d → f t = none := by
  constructor
  · intro h
    induction s with
    | nil =>
      rintro d t hs -
      obtain ⟨rfl, rfl⟩ := List.append_eq_nil_iff.mp hs.symm
      exact h
    | cons c s ih =>
      intro d t hs hd
      cases hf : f (c :: s) with
      | some r => simp [firstFrom, hf] at h
      | none =>
        rw [firstFrom, hf] at h
        cases d with
        | nil =>
          obtain rfl : c :: s = t := hs
          exact hf
        | cons a d =>
          obtain ⟨rfl, rfl⟩ := List.cons.inj hs
          rw [List.mem_cons, not_or] at hd
          exact ih (by simpa [Ne.symm hd.1] using h) d t rfl hd.2
  · intro h
    by_contra hne
    obtain ⟨r, hr⟩ := Option.ne_none_iff_exists'.mp hne
    obtain ⟨d, t, hs, hd, ht⟩ := firstFrom_some hr
    exact absurd (h d t hs hd) (by simp [ht])

theorem first_literal (hm : star ∉ m) : first star sep (m ++ p) (m ++ s) = first star sep p s := by
  induction m with
  | nil => rfl
  | cons c m ih =>
    rw [List.mem_cons, not_or] at hm
    simpa [first, Ne.symm hm.1] using ih hm.2

theorem first_literal_some (hm : star ∉ m) (h : first star sep (m ++ p) t = some r) :
    ∃ s, t = m ++ s ∧ first star sep p s = some r := by
  induction m generalizing t with
  | nil => exact ⟨t, rfl, h⟩
  | cons c m ih =>
    rw [List.mem_cons, not_or] at hm
    cases t with
    | nil => simp [first, Ne.symm hm.1] at h
    | cons b t =>
      by_cases hb : c = b
      · subst hb
        obtain ⟨s, rfl, hs⟩ := ih hm.2 (by simpa [first, Ne.symm hm.1] using h)
        exact ⟨s, rfl, hs⟩
      · simp [first, Ne.symm hm.1, hb] at h

/-- What `first` accepts starts with a word. -/
theorem first_sound (h : first star sep p s = some r) : ∃ w, s = w ++ r ∧ InLang star sep p w := by
  induction p generalizing s with
  | nil =>
    obtain rfl : s = r := Option.some.inj h
    exact ⟨[], rfl, .nil⟩
  | cons c p ih =>
    by_cases hc : c = star
    · subst hc
      rw [first_star] at h
      obtain ⟨d, t, rfl, hd, ht⟩ := firstFrom_some h
      obtain ⟨w, rfl, hw⟩ := ih ht
      exact ⟨d ++ w, by simp, (inLang_star.mpr hd).append hw⟩
    · cases s with
      | nil => simp [first, hc] at h
      | cons b s =>
        by_cases hb : c = b
        · subst hb
          obtain ⟨w, rfl, hw⟩ := ih (by simpa [first, hc] using h)
          exact ⟨c :: w, rfl, .lit hc hw⟩
        · simp [first, hc, hb] at h

/-- What starts with a word is accepted. -/
theorem first_complete {w : List α} (h : InLang star sep p w) (r : List α) :
    (first star sep p (w ++ r)).isSome := by
  induction h with
  | nil => rfl
  | lit hc _ ih => simpa [first, hc] using ih
  | skip _ ih =>
    obtain ⟨x, hx⟩ := Option.isSome_iff_exists.mp ih
    rw [first_star, firstFrom_of_some hx]
    rfl
  | @eat c p w hc _ ih =>
    rw [first_star] at ih ⊢
    rw [List.cons_append, firstFrom]
    split
    · rfl
    · rw [if_neg hc]
      exact ih

end Search

/-! ### The loop with one way back -/

section Scan

variable [DecidableEq α]

/-- The pattern and the text from where the loop is, and the pattern after the last star with the text
that this star has not taken. -/
def scan (star sep : α) (pattern s : List α) (back : Option (List α × List α)) :
    Option (List α) :=
  match s with
  | [] => if pattern.dropWhile (· = star) = [] then some [] else none
  | c :: s =>
    if pattern.head? = some star then
      if pattern.tail = [] then some (c :: s)
      else scan star sep pattern.tail (c :: s) (some (pattern.tail, c :: s))
    else if pattern.head? = some c then
      if pattern.tail = [] then some s else scan star sep pattern.tail s back
    else
      match back with
      | some (p, d :: sp) =>
        if d = sep then none else if p = [] then some sp else scan star sep p sp (some (p, sp))
      | _ => none
termination_by max (back.elim 0 fun b => b.2.length) s.length *
    (max (back.elim 0 fun b => b.1.length) pattern.length + 1) + pattern.length
decreasing_by
  · have hp : pattern.tail.length < pattern.length := by
      cases pattern <;> simp_all
    refine Nat.add_lt_add_of_le_of_lt (Nat.mul_le_mul ?_ ?_) hp
    · exact (max_self _).le.trans (le_max_right _ _)
    · exact Nat.succ_le_succ ((max_self _).le.trans (hp.le.trans (le_max_right _ _)))
  · have hp : pattern.tail.length < pattern.length := by
      cases pattern <;> simp_all
    refine Nat.add_lt_add_of_le_of_lt (Nat.mul_le_mul ?_ ?_) hp
    · exact max_le_max le_rfl (Nat.le_succ _)
    · exact Nat.succ_le_succ (max_le_max le_rfl hp.le)
  · -- a letter less for the star
    simp only [Option.elim, max_self, List.length_cons]
    have hs : sp.length + 1 ≤ max (sp.length + 1) (s.length + 1) := le_max_left _ _
    have hq : p.length + 1 ≤ max p.length pattern.length + 1 := Nat.succ_le_succ (le_max_left _ _)
    have hmul := Nat.mul_le_mul hs hq
    rw [Nat.add_mul, Nat.one_mul] at hmul
    omega

variable {star sep c : α} {m p s : List α} {back : Option (List α × List α)}

theorem scan_of_star (h : p.head? = some star) : scan star sep p (c :: s) back =
    if p.tail = [] then some (c :: s)
    else scan star sep p.tail (c :: s) (some (p.tail, c :: s)) := by
  rw [scan.eq_def]
  exact if_pos h

theorem scan_of_letter (hs : p.head? ≠ some star) (h : p.head? = some c) :
    scan star sep p (c :: s) back =
      if p.tail = [] then some s else scan star sep p.tail s back := by
  rw [scan.eq_def]
  exact (if_neg hs).trans (if_pos h)

/-- Between two occurrences of `m` that are no `sep` apart, the text has none behind either. -/
theorem sep_not_mem_of_shift {d e : List α} (h : m ++ e = d ++ m) (hd : sep ∉ d) : sep ∉ e := by
  have hc := congrArg (List.count sep) h
  rw [List.count_append, List.count_append, List.count_eq_zero_of_not_mem hd] at hc
  exact List.count_eq_zero.mp (by omega)

/-- Once the letters between two stars are found, their first place will do. -/
theorem firstFrom_star (hm : star ∉ m) :
    firstFrom sep (first star sep (m ++ star :: p)) (m ++ s) = firstFrom sep (first star sep p) s := by
  have hfirst : first star sep (m ++ star :: p) (m ++ s) = firstFrom sep (first star sep p) s := by
    rw [first_literal hm, first_star]
  cases h : firstFrom sep (first star sep p) s with
  | some r => exact firstFrom_of_some (hfirst.trans h)
  | none =>
    rw [firstFrom_none]
    intro d t hs hd
    by_contra hne
    obtain ⟨r, hr⟩ := Option.ne_none_iff_exists'.mp hne
    obtain ⟨s', rfl, hs'⟩ := first_literal_some hm hr
    rw [first_star] at hs'
    obtain ⟨d', t', rfl, hd', ht'⟩ := firstFrom_some hs'
    rw [← List.append_assoc, List.append_eq_append_iff] at hs
    rcases hs with ⟨e, he, rfl⟩ | ⟨c, hc, hs⟩
    · have hse : sep ∉ e := sep_not_mem_of_shift he.symm hd
      have hnone := firstFrom_none.mp h (e ++ d') t' (by simp)
        (by rw [List.mem_append, not_or]; exact ⟨hse, hd'⟩)
      rw [ht'] at hnone
      cases hnone
    · have hlen := congrArg List.length hc
      rw [List.length_append, List.length_append] at hlen
      obtain rfl : c = [] := List.length_eq_zero_iff.mp (by omega)
      have hnone := firstFrom_none.mp h d' t' hs.symm hd'
      rw [ht'] at hnone
      cases hnone

theorem first_at_end :
    first star sep p [] = if p.dropWhile (· = star) = [] then some [] else none := by
  induction p with
  | nil => rfl
  | cons c p ih =>
    by_cases hc : c = star
    · subst hc
      rw [first_star, firstFrom, ih]
      simp
    · simp [first, hc]

theorem first_mismatch (hp : p ≠ []) (hs : p.head? ≠ some star) (hc : p.head? ≠ some c) :
    first star sep p (c :: s) = none := by
  cases p with
  | nil => exact absurd rfl hp
  | cons a p =>
    have ha : a ≠ star := fun h => hs (by rw [h]; rfl)
    have hac : a ≠ c := fun h => hc (by rw [h]; rfl)
    simp [first, ha, hac]

/-- With the letters since the last star matched so far, the loop finds what a search from that star
finds. -/
theorem scan_back (hp : p ≠ []) (hm : star ∉ m)
    (hb : back = some (m ++ p, m ++ s)) :
    scan star sep p s back = firstFrom sep (first star sep (m ++ p)) (m ++ s) := by
  induction p, s, back using scan.induct star sep generalizing m with
  | case1 p back hd =>
    rw [scan, if_pos hd, firstFrom_of_some]
    rw [first_literal hm, first_at_end, if_pos hd]
  | case2 p back hd =>
    rw [scan, if_neg hd, eq_comm, firstFrom_none]
    intro d t ht _
    by_contra hne
    obtain ⟨r, hr⟩ := Option.ne_none_iff_exists'.mp hne
    -- what is left is too short for a later place
    obtain ⟨s, rfl, hs⟩ := first_literal_some hm hr
    have hlen := congrArg List.length ht
    simp only [List.length_append, List.length_nil] at hlen
    obtain rfl : s = [] := List.length_eq_zero_iff.mp (by omega)
    rw [first_at_end, if_neg hd] at hs
    cases hs
  | case3 p back c s hstar hnil =>
    obtain rfl : p = [star] := by rw [List.eq_cons_of_mem_head? hstar, hnil]
    rw [scan_of_star hstar, if_pos hnil, firstFrom_star hm, firstFrom_of_some]
    rfl
  | case4 p back c s hstar hne ih =>
    obtain ⟨a, p, rfl⟩ := List.exists_cons_of_ne_nil hp
    obtain rfl : a = star := Option.some.inj hstar
    rw [scan_of_star hstar, if_neg hne, firstFrom_star hm]
    exact ih hne (m := []) (by simp) rfl
  | case5 p back c s hstar hc hnil =>
    obtain rfl : p = [c] := by rw [List.eq_cons_of_mem_head? hc, hnil]
    have ha : c ≠ star := fun h => hstar (by rw [h]; rfl)
    rw [scan_of_letter hstar hc, if_pos hnil, firstFrom_of_some]
    rw [first_literal hm]
    simp [first, ha]
  | case6 p back c s hstar hc hne ih =>
    obtain ⟨a, p, rfl⟩ := List.exists_cons_of_ne_nil hp
    obtain rfl : a = c := Option.some.inj hc
    have ha : a ≠ star := fun h => hstar (by rw [h]; rfl)
    rw [scan_of_letter hstar hc, if_neg hne]
    have h := ih hne (m := m ++ [a]) (by simp [hm, Ne.symm ha]) (by simpa using hb)
    simpa using h
  | case7 p c s hstar hc q sp =>
    obtain ⟨hq, hsp⟩ := Prod.mk.inj (Option.some.inj hb)
    rw [scan, if_neg hstar, if_neg hc, ← hsp, firstFrom, hsp, first_literal hm,
      first_mismatch hp hstar hc]
    simp
  | case8 p c s hstar hc d sp hd =>
    obtain ⟨hq, -⟩ := Prod.mk.inj (Option.some.inj hb)
    exact absurd (List.append_eq_nil_iff.mp hq.symm).2 hp
  | case9 p c s hstar hc q d sp hd hq ih =>
    obtain ⟨hq', hsp⟩ := Prod.mk.inj (Option.some.inj hb)
    have h := ih hq (m := []) (by simp) rfl
    rw [List.nil_append, List.nil_append] at h
    rw [scan, if_neg hstar, if_neg hc]
    simp only [if_neg hd, if_neg hq]
    rw [h, ← hsp, firstFrom, hsp, first_literal hm, first_mismatch hp hstar hc, hq']
    simp only [if_neg hd]
  | case10 p back c s hstar hc hno =>
    cases m with
    | nil => exact absurd hb (hno p c s)
    | cons a m => exact absurd hb (hno (a :: m ++ p) a (m ++ c :: s))

/-- **The loop finds what trying everything finds.** -/
theorem scan_eq_first (hp : p ≠ []) : scan star sep p s none = first star sep p s := by
  generalize hb : (none : Option (List α × List α)) = back
  induction p, s, back using scan.induct star sep with
  | case1 p back hd => rw [scan, if_pos hd, first_at_end, if_pos hd]
  | case2 p back hd => rw [scan, if_neg hd, first_at_end, if_neg hd]
  | case3 p back c s hstar hnil =>
    obtain rfl : p = [star] := by rw [List.eq_cons_of_mem_head? hstar, hnil]
    rw [scan_of_star hstar, if_pos hnil, first_star, firstFrom_of_some]
    rfl
  | case4 p back c s hstar hne _ =>
    obtain ⟨a, p, rfl⟩ := List.exists_cons_of_ne_nil hp
    obtain rfl : a = star := Option.some.inj hstar
    rw [scan_of_star hstar, if_neg hne, first_star]
    exact scan_back hne (m := []) (by simp) rfl
  | case5 p back c s hstar hc hnil =>
    obtain rfl : p = [c] := by rw [List.eq_cons_of_mem_head? hc, hnil]
    have ha : c ≠ star := fun h => hstar (by rw [h]; rfl)
    rw [scan_of_letter hstar hc, if_pos hnil]
    simp [first, ha]
  | case6 p back c s hstar hc hne ih =>
    obtain ⟨a, p, rfl⟩ := List.exists_cons_of_ne_nil hp
    obtain rfl : a = c := Option.some.inj hc
    have ha : a ≠ star := fun h => hstar (by rw [h]; rfl)
    rw [scan_of_letter hstar hc, if_neg hne]
    simpa [first, ha] using ih hne hb
  | case7 p c s hstar hc q sp => cases hb
  | case8 p c s hstar hc d sp hd => cases hb
  | case9 p c s hstar hc q d sp hd hq ih => cases hb
  | case10 p back c s hstar hc hno =>
    rw [scan, if_neg hstar, if_neg hc, first_mismatch hp hstar hc]
    exact hno

/-- The loop accepts exactly the texts that start with a word. -/
theorem scan_isSome (hp : p ≠ []) :
    (scan star sep p s none).isSome ↔ ∃ w r, s = w ++ r ∧ InLang star sep p w := by
  rw [scan_eq_first hp]
  constructor
  · intro h
    obtain ⟨r, hr⟩ := Option.isSome_iff_exists.mp h
    obtain ⟨w, rfl, hw⟩ := first_sound hr
    exact ⟨w, r, rfl, hw⟩
  · rintro ⟨w, r, rfl, hw⟩
    exact first_complete hw r

end Scan

/-! ### The shortest word -/

section Shortest

variable {star sep : α} {p q w s r rest x v : List α}

/-- A star takes any run in front of what it takes already. -/
theorem InLang.eat_append (hx : sep ∉ x) (h : InLang star sep (star :: q) v) :
    InLang star sep (star :: q) (x ++ v) := by
  induction x with
  | nil => exact h
  | cons c x ih =>
    rw [List.mem_cons, not_or] at hx
    exact .eat (Ne.symm hx.1) (ih hx.2)

variable [DecidableEq α]

/-- The place that is found is the first one. -/
theorem firstFrom_least {f : List α → Option (List α)} (h : firstFrom sep f s = some r) :
    ∃ d t, s = d ++ t ∧ sep ∉ d ∧ f t = some r ∧
      ∀ d' t', s = d' ++ t' → (f t').isSome → d.length ≤ d'.length := by
  induction s with
  | nil => exact ⟨[], [], rfl, by simp, h, fun _ _ _ _ => Nat.zero_le _⟩
  | cons c s ih =>
    cases hf : f (c :: s) with
    | some r' =>
      rw [firstFrom, hf] at h
      exact ⟨[], c :: s, rfl, by simp, by rw [hf]; exact h, fun _ _ _ _ => Nat.zero_le _⟩
    | none =>
      rw [firstFrom, hf] at h
      dsimp only at h
      split_ifs at h with hc
      obtain ⟨d, t, rfl, hd, ht, hleast⟩ := ih h
      refine ⟨c :: d, t, rfl, ?_, ht, fun d' t' hs hsome => ?_⟩
      · rw [List.mem_cons, not_or]
        exact ⟨Ne.symm hc, hd⟩
      · cases d' with
        | nil =>
          obtain rfl : c :: (d ++ t) = t' := hs
          rw [hf] at hsome
          cases hsome
        | cons c' d' =>
          obtain ⟨-, hs⟩ := List.cons.inj hs
          exact Nat.succ_le_succ (hleast d' t' hs hsome)

/-- A pattern up to its first star, and the rest. -/
theorem exists_literal (star : α) (p : List α) :
    ∃ m q, p = m ++ q ∧ star ∉ m ∧ (q = [] ∨ ∃ q', q = star :: q') := by
  induction p with
  | nil => exact ⟨[], [], rfl, by simp, Or.inl rfl⟩
  | cons c p ih =>
    by_cases hc : c = star
    · exact ⟨[], c :: p, rfl, by simp, Or.inr ⟨p, by rw [hc]⟩⟩
    · obtain ⟨m, q, rfl, hm, hq⟩ := ih
      refine ⟨c :: m, q, rfl, ?_, hq⟩
      rw [List.mem_cons, not_or]
      exact ⟨Ne.symm hc, hm⟩

/-- A word that starts further on may start here: what a star of it would gain is free of `sep`. -/
theorem InLang.earlier {t : List α} (ht : (first star sep p t).isSome) (hx : sep ∉ x)
    (hv : InLang star sep p v) (hs : t = x ++ (v ++ rest)) :
    ∃ w rest', t = w ++ rest' ∧ InLang star sep p w ∧ rest.length ≤ rest'.length := by
  obtain ⟨m, q, rfl, hm, hq⟩ := exists_literal star p
  obtain ⟨r, hr⟩ := Option.isSome_iff_exists.mp ht
  obtain ⟨t', rfl, -⟩ := first_literal_some hm hr
  obtain ⟨m', v', rfl, hm', hv'⟩ := hv.split
  obtain rfl := (inLang_literal hm).mp hm'
  -- the letters `m'` stand here and behind `x`
  have hcut : ∃ e, m' ++ e = x ++ m' ∧ t' = e ++ (v' ++ rest) := by
    rw [show x ++ (m' ++ v' ++ rest) = (x ++ m') ++ (v' ++ rest) by simp] at hs
    rcases List.append_eq_append_iff.mp hs with ⟨e, he, ht'⟩ | ⟨c, hc, ht'⟩
    · exact ⟨e, he.symm, ht'⟩
    · have hlen := congrArg List.length hc
      rw [List.length_append, List.length_append] at hlen
      obtain rfl : c = [] := List.length_eq_zero_iff.mp (by omega)
      exact ⟨[], by simpa using hc, ht'.symm⟩
  obtain ⟨e, he, rfl⟩ := hcut
  have hse : sep ∉ e := sep_not_mem_of_shift he hx
  rcases hq with rfl | ⟨q', rfl⟩
  · refine ⟨m', _, rfl, by rw [List.append_nil]; exact hm', ?_⟩
    simp only [List.length_append]
    omega
  · exact ⟨m' ++ (e ++ v'), rest, by simp, hm'.append (hv'.eat_append hse), le_rfl⟩

/-- No word that the text starts with is shorter than the one found. -/
theorem first_shortest (h : first star sep p s = some r) (hw : InLang star sep p w)
    (hs : s = w ++ rest) : rest.length ≤ r.length := by
  induction p generalizing s r w rest with
  | nil =>
    obtain rfl : s = r := Option.some.inj h
    rw [hs, List.length_append]
    exact Nat.le_add_left _ _
  | cons c p ih =>
    by_cases hc : c = star
    · subst hc
      rw [first_star] at h
      obtain ⟨d, t, rfl, hd, ht, hleast⟩ := firstFrom_least h
      obtain ⟨u, v, rfl, hu, hv⟩ := InLang.split (p := [c]) hw
      have hle : d.length ≤ u.length :=
        hleast u (v ++ rest) (by rw [hs, List.append_assoc]) (first_complete hv rest)
      -- the star takes no more than it would take for the other word
      rw [List.append_assoc] at hs
      obtain ⟨x, rfl, ht'⟩ : ∃ x, u = d ++ x ∧ t = x ++ (v ++ rest) := by
        rcases List.append_eq_append_iff.mp hs with ⟨x, hx, ht'⟩ | ⟨x, hx, ht'⟩
        · exact ⟨x, hx, ht'⟩
        · have hlen := congrArg List.length hx
          rw [List.length_append] at hlen
          obtain rfl : x = [] := List.length_eq_zero_iff.mp (by omega)
          exact ⟨[], by simpa using hx.symm, ht'.symm⟩
      have hx : sep ∉ x := fun hm => inLang_star.mp hu (List.mem_append_right d hm)
      obtain ⟨w', rest', ht'', hw', hlen⟩ := InLang.earlier (by rw [ht]; rfl) hx hv ht'
      exact hlen.trans (ih ht hw' ht'')
    · cases hw with
      | lit _ hw =>
        subst hs
        rw [List.cons_append, first, if_neg hc] at h
        exact ih (by simpa using h) hw rfl
      | skip _ => exact absurd rfl hc
      | eat _ _ => exact absurd rfl hc

/-- What is left of a text after the shortest word that it starts with. -/
theorem first_eq_some (h : first star sep p s = some r) :
    ∃ w, s = w ++ r ∧ InLang star sep p w ∧
      ∀ w' rest, s = w' ++ rest → InLang star sep p w' → w.length ≤ w'.length := by
  obtain ⟨w, rfl, hw⟩ := first_sound h
  refine ⟨w, rfl, hw, fun w' rest hs hw' => ?_⟩
  have hle := first_shortest h hw' hs
  have hlen := congrArg List.length hs
  rw [List.length_append, List.length_append] at hlen
  omega

end Shortest

end AquaTransport.Glob
