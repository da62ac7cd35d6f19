import AquaTransport.Lib.Cursor
import AquaTransport.Rewrite.Rules

/-!
# AquaTransport.Rewrite.Scopes — `tf_scope_matches` by its pointers

`p` and `tok_end` close in on a token from both sides, and the scan goes on behind the comma that `end`
found before the trimming.  `scopeLoop_eq` is the step from the pointers to the recursion on the text
that the rules use, and `scope_exact` says which scopes match.
-/

namespace AquaTransport.Rewrite

open Cursor

/-! ### The loop -/

/-- `*p`; behind the last character stands a NUL. -/
def deref (scope : Chars) (p : ℕ) : UInt8 := scope.getD p 0

def Identity.names (who : Identity) : List Chars :=
  [who.appName, who.exeName, who.respAppName, who.respExeName]

/-- `while (*end && *end != ',') end++` -/
def tokenEnd (scope : Chars) (p : ℕ) : ℕ :=
  advance (fun c => c ≠ 0 && c ≠ 44) scope scope.length p

/-- What is done with a token from `p` up to `tok_end`. -/
def tokenHit (who : Identity) (scope : Chars) (p tokEnd : ℕ) : Bool :=
  let len := tokEnd - p
  if len = 1 ∧ deref scope p = 42 then true
  else
    -- "Foo" and "Foo.app" alike
    let len := if 4 < len ∧ slice scope (tokEnd - 4) tokEnd = cstr ".app" then len - 4 else len
    if len ≠ 0 ∧ len < 256 then
      who.names.any fun name => name ≠ [] && slice scope p (p + len) = name
    else false

section Pointers

variable {scope : Chars} {p : ℕ}

theorem deref_eq (hp : p < scope.length) : deref scope p = scope[p] := by
  rw [deref, List.getD_eq_getElem?_getD, List.getElem?_eq_getElem hp, Option.getD_some]

theorem lt_of_deref (h : deref scope p ≠ 0) : p < scope.length := by
  by_contra hp
  refine h ?_
  rw [deref, List.getD_eq_getElem?_getD, List.getElem?_eq_none (by omega), Option.getD_none]

/-- Past the token, and past its comma. -/
def afterToken (scope : Chars) (p : ℕ) : ℕ :=
  let e := tokenEnd scope p
  if deref scope e = 44 then e + 1 else e

theorem lt_afterToken (h : deref scope p ≠ 0) : p < afterToken scope p := by
  have hp := lt_of_deref h
  have hle : p ≤ tokenEnd scope p := le_advance
  unfold afterToken
  dsimp only
  split_ifs with he
  · omega
  · -- the first character is no comma, since the scan would have stopped there
    by_cases hc : deref scope p = 44
    · have hstop : tokenEnd scope p = p := by
        rw [tokenEnd, advance, if_neg]
        rintro ⟨-, hany⟩
        rw [List.getElem?_eq_getElem hp, Option.any_some, ← deref_eq hp, hc] at hany
        simp at hany
      rw [hstop] at he
      exact absurd hc he
    · have hgo : tokenEnd scope p = tokenEnd scope (p + 1) := by
        rw [tokenEnd, advance, if_pos]
        · rfl
        · refine ⟨hp, ?_⟩
          rw [List.getElem?_eq_getElem hp, Option.any_some, ← deref_eq hp]
          simp [h, hc]
      have hle' : p + 1 ≤ tokenEnd scope (p + 1) := le_advance
      omega

end Pointers

/-- The loop of `tf_scope_matches` at `p`. -/
def scopeLoop (who : Identity) (scope : Chars) (p : ℕ) : Bool :=
  if _h : deref scope p ≠ 0 then
    let e := tokenEnd scope p
    let q := advance isBlank scope e p
    let tokEnd := retreat isBlank scope q e
    if tokenHit who scope q tokEnd then true
    else scopeLoop who scope (afterToken scope p)
  else false
termination_by scope.length - p
decreasing_by
  have := lt_afterToken _h
  have := lt_of_deref _h
  omega

/-- `tf_scope_matches`, of a string or `NULL`. -/
def scopeMatches (who : Identity) (scope : Option Chars) : Bool :=
  match scope with
  | none => false
  | some scope => if deref scope 0 = 0 then false else scopeLoop who scope 0

/-! ### From the pointers to the text -/

section Refinement

variable {who : Identity} {scope : Chars} {p q : ℕ}

/-- A token is judged by its characters. -/
theorem tokenHit_eq (hpq : p ≤ q) (hq : q ≤ scope.length) :
    tokenHit who scope p q = tokenMatches who (slice scope p q) := by
  have hlen : (slice scope p q).length = q - p := length_slice hq
  have hstar : (q - p = 1 ∧ deref scope p = 42) ↔ slice scope p q = [42] := by
    constructor
    · rintro ⟨h1, h2⟩
      rw [slice_cons (by omega) (by omega), show p + 1 = q by omega, slice_self,
        ← deref_eq (by omega), h2]
    · intro h
      rw [h, List.length_singleton] at hlen
      refine ⟨hlen.symm, ?_⟩
      rw [slice_cons (by omega) (by omega), ← deref_eq (by omega)] at h
      exact (List.cons.inj h).1
  have happ : ∀ h : 4 < q - p, slice scope (q - 4) q = (slice scope p q).drop (q - p - 4) := by
    intro h
    rw [show q - p - 4 = (q - 4) - p by omega, slice_drop (by omega) (by omega)]
  have hcut : ∀ n ≤ q - p, slice scope p (p + n) = (slice scope p q).take n := by
    intro n hn
    rw [← slice_take (i := p) (k := p + n) (j := q) (by omega), Nat.add_sub_cancel_left]
  have hnil : ∀ n ≤ q - p, (n ≠ 0 ↔ (slice scope p q).take n ≠ []) := by
    intro n hn
    rw [ne_eq, ne_eq, ← List.length_eq_zero_iff, List.length_take, hlen, min_eq_left hn]
  unfold tokenHit tokenMatches
  dsimp only
  rw [hlen]
  by_cases hs : slice scope p q = [42]
  · rw [if_pos hs, if_pos (hstar.mpr hs)]
  rw [if_neg hs, if_neg fun h => hs (hstar.mp h)]
  by_cases ha : 4 < q - p ∧ (slice scope p q).drop (q - p - 4) = cstr ".app"
  · have hn : q - p - 4 ≤ q - p := by omega
    have hl : ((slice scope p q).take (q - p - 4)).length = q - p - 4 := by
      rw [List.length_take, hlen, min_eq_left hn]
    have hpos : 4 < q - p ∧ slice scope (q - 4) q = cstr ".app" :=
      ⟨ha.1, (happ ha.1).trans ha.2⟩
    simp only [if_pos ha, if_pos hpos]
    rw [hcut _ hn, hl]
    exact if_congr (and_congr (hnil _ hn) Iff.rfl) rfl rfl
  · have hself : (slice scope p q).take (q - p) = slice scope p q :=
      List.take_of_length_le (by omega)
    have hna : ¬ (4 < q - p ∧ slice scope (q - 4) q = cstr ".app") := fun h =>
      ha ⟨h.1, by rw [← happ h.1]; exact h.2⟩
    have hne := hnil (q - p) le_rfl
    rw [hself] at hne
    simp only [if_neg ha, if_neg hna]
    rw [hcut _ le_rfl, hself, hlen]
    exact if_congr (and_congr hne Iff.rfl) rfl rfl

/-- What the two pointers leave of a token. -/
theorem slice_trim (hq : q ≤ scope.length) :
    let r := advance isBlank scope q p
    slice scope r (retreat isBlank scope r q) = trimBlank (slice scope p q) := by
  intro r
  rw [slice_retreat hq, (slice_advance hq).2]
  rfl

/-- The token's end, where the text has no NUL. -/
theorem tokenEnd_eq (hz : (0 : UInt8) ∉ scope) (hp : p ≤ scope.length) :
    tokenEnd scope p = p + ((scope.drop p).takeWhile (· ≠ 44)).length ∧
      slice scope p (tokenEnd scope p) = (scope.drop p).takeWhile (· ≠ 44) := by
  have hle : p ≤ tokenEnd scope p := le_advance
  have hle' : tokenEnd scope p ≤ scope.length := advance_le hp
  have hslice : slice scope p (tokenEnd scope p) = (scope.drop p).takeWhile (· ≠ 44) := by
    rw [tokenEnd, (slice_advance le_rfl).1, slice_to_length]
    refine takeWhile_congr fun c hc => ?_
    have hc0 : c ≠ 0 := fun h => hz (h ▸ List.mem_of_mem_drop hc)
    simp [hc0]
  refine ⟨?_, hslice⟩
  rw [← hslice, length_slice hle']
  omega

/-- Behind a token the scan goes on behind its comma, or ends. -/
theorem drop_afterToken (hz : (0 : UInt8) ∉ scope) (hp : p ≤ scope.length) :
    scope.drop (afterToken scope p) = scope.drop (tokenEnd scope p + 1) := by
  unfold afterToken
  dsimp only
  split_ifs with he
  · rfl
  · have hle : tokenEnd scope p ≤ scope.length := advance_le hp
    have hend : ¬ tokenEnd scope p < scope.length := by
      intro hlt
      have hstop := advance_stop (p := fun c : UInt8 => c ≠ 0 && c ≠ 44) hlt
      rw [show advance _ scope scope.length p = tokenEnd scope p from rfl,
        List.getElem?_eq_getElem hlt, Option.any_some, ← deref_eq hlt] at hstop
      have h0 : deref scope (tokenEnd scope p) ≠ 0 := by
        intro h0
        rw [deref_eq hlt] at h0
        exact hz (h0 ▸ List.getElem_mem hlt)
      simp [h0, he] at hstop
    rw [List.drop_of_length_le (by omega), List.drop_of_length_le (by omega)]

theorem afterToken_le (hp : p ≤ scope.length) : afterToken scope p ≤ scope.length := by
  have hle : tokenEnd scope p ≤ scope.length := advance_le hp
  unfold afterToken
  dsimp only
  split_ifs with he
  · have := lt_of_deref (p := tokenEnd scope p) (by rw [he]; decide)
    omega
  · exact hle

/-- The token that the pointers close in on. -/
theorem trimmedToken_eq (hz : (0 : UInt8) ∉ scope) (hp : p ≤ scope.length) :
    let q := advance isBlank scope (tokenEnd scope p) p
    tokenHit who scope q (retreat isBlank scope q (tokenEnd scope p)) =
      tokenMatches who (trimBlank ((scope.drop p).takeWhile (· ≠ 44))) := by
  intro q
  have hle : tokenEnd scope p ≤ scope.length := advance_le hp
  have hq : q ≤ tokenEnd scope p := advance_le le_advance
  rw [tokenHit_eq (le_retreat hq) (retreat_le.trans hle), slice_trim hle, (tokenEnd_eq hz hp).2]

variable (who) in
/-- **The pointers read what the recursion reads.** -/
theorem scopeLoop_eq (hz : (0 : UInt8) ∉ scope) (hp : p ≤ scope.length) :
    scopeLoop who scope p = tfScopeMatches who (scope.drop p) := by
  induction p using scopeLoop.induct who scope with
  | case1 p hd e q tokEnd hhit =>
    have hcons := List.drop_eq_getElem_cons (lt_of_deref hd)
    rw [scopeLoop, dif_pos hd, if_pos hhit, hcons, tfScopeMatches, ← hcons]
    rw [trimmedToken_eq hz hp] at hhit
    rw [if_pos hhit]
  | case2 p hd e q tokEnd hmiss ih =>
    have hcons := List.drop_eq_getElem_cons (lt_of_deref hd)
    rw [scopeLoop, dif_pos hd, if_neg hmiss, ih (afterToken_le hp), drop_afterToken hz hp,
      (tokenEnd_eq hz hp).1, hcons, tfScopeMatches, ← hcons]
    rw [trimmedToken_eq hz hp] at hmiss
    rw [if_neg hmiss, List.drop_drop, Nat.add_assoc]
  | case3 p hd =>
    have hdone : ¬ p < scope.length := by
      intro hlt
      refine hd ?_
      rw [deref_eq hlt]
      exact fun h0 => hz (h0 ▸ List.getElem_mem hlt)
    rw [scopeLoop, dif_neg hd, List.drop_of_length_le (by omega), tfScopeMatches]

theorem scopeMatches_eq (hz : (0 : UInt8) ∉ scope) :
    scopeMatches who (some scope) = tfScopeMatches who scope := by
  unfold scopeMatches
  dsimp only
  have hloop := scopeLoop_eq who hz (Nat.zero_le scope.length)
  rw [List.drop_zero] at hloop
  rw [← hloop]
  split_ifs with h0
  · rw [scopeLoop, dif_neg (not_not.mpr h0)]
  · rfl

end Refinement

/-! ### What matches -/

/-- The name that a token stands for: without one `.app` behind it, where something is left. -/
def StandsFor (tok name : Chars) : Prop :=
  (name ≠ [] ∧ tok = name ++ cstr ".app") ∨ (name = tok ∧ ∀ base ≠ [], tok ≠ base ++ cstr ".app")

/-- A trimmed token is the star, or stands for a name of the process. -/
def Accepts (who : Identity) (tok : Chars) : Prop :=
  tok = [42] ∨ ∃ name, StandsFor tok name ∧ name ≠ [] ∧ name.length < 256 ∧ name ∈ who.names

section Exact

variable {who : Identity} {scope tok name : Chars}

/-- The test for `.app`. -/
theorem endsInApp_iff : (4 < tok.length ∧ tok.drop (tok.length - 4) = cstr ".app") ↔
    ∃ base ≠ [], tok = base ++ cstr ".app" := by
  have happ : (cstr ".app").length = 4 := rfl
  constructor
  · rintro ⟨hlen, hdrop⟩
    refine ⟨tok.take (tok.length - 4), ?_, ?_⟩
    · intro hnil
      have := congrArg List.length hnil
      rw [List.length_take, List.length_nil] at this
      omega
    · rw [← hdrop, List.take_append_drop]
  · rintro ⟨base, hne, rfl⟩
    have hpos := List.length_pos_iff.mpr hne
    rw [List.length_append, happ]
    refine ⟨by omega, ?_⟩
    rw [Nat.add_sub_cancel, List.drop_left]

variable (tok name) in
/-- A token stands for one name. -/
theorem standsFor_iff : StandsFor tok name ↔
    name = if 4 < tok.length ∧ tok.drop (tok.length - 4) = cstr ".app" then
      tok.take (tok.length - 4) else tok := by
  have happ : (cstr ".app").length = 4 := rfl
  unfold StandsFor
  split_ifs with h
  · obtain ⟨base, hne, rfl⟩ := endsInApp_iff.mp h
    rw [List.length_append, happ, Nat.add_sub_cancel, List.take_left]
    constructor
    · rintro (⟨-, he⟩ | ⟨-, hno⟩)
      · exact (List.append_cancel_right he).symm
      · exact absurd rfl (hno base hne)
    · rintro rfl
      exact Or.inl ⟨hne, rfl⟩
  · rw [endsInApp_iff] at h
    constructor
    · rintro (⟨hne, he⟩ | ⟨he, -⟩)
      · exact absurd ⟨name, hne, he⟩ h
      · exact he
    · intro he
      exact Or.inr ⟨he, fun base hne hb => h ⟨base, hne, hb⟩⟩

theorem tokenMatches_iff : tokenMatches who tok = true ↔ Accepts who tok := by
  unfold tokenMatches Accepts
  by_cases hstar : tok = [42]
  · simp [hstar]
  rw [if_neg hstar, or_iff_right hstar]
  dsimp only
  rw [exists_congr fun name => and_congr_left' (standsFor_iff tok name),
    exists_eq_left]
  set name := if 4 < tok.length ∧ tok.drop (tok.length - 4) = cstr ".app" then
    tok.take (tok.length - 4) else tok
  by_cases hname : name ≠ [] ∧ name.length < 256
  · rw [if_pos hname, ← and_assoc, and_iff_right hname, List.any_eq_true]
    constructor
    · rintro ⟨n, hn, hb⟩
      rw [Bool.and_eq_true, decide_eq_true_iff, decide_eq_true_iff] at hb
      exact hb.2 ▸ hn
    · intro hn
      refine ⟨name, hn, ?_⟩
      rw [Bool.and_eq_true, decide_eq_true_iff, decide_eq_true_iff]
      exact ⟨hname.1, rfl⟩
  · rw [if_neg hname]
    refine iff_of_false (by simp) ?_
    rintro ⟨h1, h2, -⟩
    exact hname ⟨h1, h2⟩

theorem not_accepts_nil : ¬ Accepts who [] := by
  rw [← tokenMatches_iff]
  unfold tokenMatches
  simp

/-- The pieces of a text are what stands before its first comma and the pieces behind it. -/
theorem exists_piece_iff {P : Chars → Prop} (hnil : ¬ P []) :
    (∃ piece ∈ scope.splitOn 44, P piece) ↔ P (scope.takeWhile (· ≠ 44)) ∨
      ∃ piece ∈ (scope.drop ((scope.takeWhile (· ≠ 44)).length + 1)).splitOn 44, P piece := by
  have hno : (44 : UInt8) ∉ scope.takeWhile (· ≠ 44) := fun h => by
    simpa using List.mem_takeWhile_imp h
  have hsplit := (List.takeWhile_append_dropWhile (p := fun c : UInt8 => c ≠ 44) (l := scope)).symm
  set tok := scope.takeWhile (· ≠ 44)
  cases hrest : scope.dropWhile (· ≠ 44) with
  | nil =>
    rw [hrest, List.append_nil] at hsplit
    rw [List.drop_of_length_le (by rw [← hsplit]; omega), List.splitOn_nil, hsplit,
      List.splitOn_eq_singleton hno]
    simp [hnil]
  | cons d rest =>
    have hd : d = 44 := by
      have := List.head?_dropWhile_not (fun c : UInt8 => decide (c ≠ 44)) scope
      rw [hrest] at this
      simpa using this
    rw [hrest, hd] at hsplit
    have hdrop : scope.drop (tok.length + 1) = rest := by
      rw [hsplit, ← List.drop_drop, List.drop_left]
      rfl
    rw [hdrop, hsplit, List.splitOn_append_cons_self_of_not_mem hno]
    simp

/-- The recursion looks at the pieces between the commas. -/
theorem tfScopeMatches_iff : tfScopeMatches who scope = true ↔
    ∃ piece ∈ scope.splitOn 44, Accepts who (trimBlank piece) := by
  have hnil : ¬ Accepts who (trimBlank []) := not_accepts_nil
  induction scope using tfScopeMatches.induct who with
  | case1 =>
    rw [tfScopeMatches, List.splitOn_nil]
    simp [hnil]
  | case2 c t tok hit =>
    rw [exists_piece_iff (P := fun piece => Accepts who (trimBlank piece)) hnil, tfScopeMatches,
      if_pos hit]
    exact iff_of_true rfl (Or.inl (tokenMatches_iff.mp hit))
  | case3 c t tok hmiss ih =>
    rw [exists_piece_iff (P := fun piece => Accepts who (trimBlank piece)) hnil, tfScopeMatches,
      if_neg hmiss]
    rw [or_iff_right fun h => hmiss (tokenMatches_iff.mpr h)]
    exact ih

/-- **Scopes are matched exactly**: one piece between the commas, trimmed, is the star or stands for a
name of the process.  The loop comes to its end on every string. -/
theorem scope_exact (who : Identity) (scope : Chars) (hz : (0 : UInt8) ∉ scope) :
    scopeMatches who (some scope) = true ↔
      ∃ piece ∈ scope.splitOn 44, Accepts who (trimBlank piece) := by
  rw [scopeMatches_eq hz, tfScopeMatches_iff]

end Exact

def dictionary : Identity := { appName := cstr "Dictionary", exeName := cstr "Dictionary" }

/-- A blank piece, a piece of another process, and one with the suffix. -/
theorem scope_exact_dictionary :
    scopeMatches dictionary (some (cstr " ,Pages.app,\tDictionary.app ")) = true :=
  (scope_exact dictionary (cstr " ,Pages.app,\tDictionary.app ") (by decide)).mpr
    ⟨cstr "\tDictionary.app ", by decide, Or.inr ⟨cstr "Dictionary",
      Or.inl ⟨by decide, by decide⟩, by decide, by decide, by decide⟩⟩

end AquaTransport.Rewrite
