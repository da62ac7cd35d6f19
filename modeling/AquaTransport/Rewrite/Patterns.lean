import AquaTransport.Gsa.Reserved
import AquaTransport.Lib.Glob

/-!
# AquaTransport.Rewrite.Patterns — `tf_glob_prefix` and the authority of a URL

`glob_prefix` keeps a star from crossing a `/`.  The authority of a URL ends at a `?` or a `#` as well:
`wildcard_confined` says for which URLs that makes no difference.
-/

namespace AquaTransport

open Glob

/-- `glob_prefix`: `*consumed`, when it returns 1. -/
def globPrefix (pattern s : Chars) : Option ℕ :=
  (scan 42 47 pattern s none).map fun rest => s.length - rest.length

def tfGlobPrefix (pattern s : Chars) : Bool := (globPrefix pattern s).isSome

/-! ### What a pattern accepts -/

section Match

variable {pattern s : Chars}

theorem globPrefix_eq (hp : pattern ≠ []) :
    globPrefix pattern s = (first 42 47 pattern s).map fun rest => s.length - rest.length := by
  rw [globPrefix, scan_eq_first hp]

theorem globPrefix_nil : globPrefix [] s = if s = [] then some 0 else none := by
  cases s with
  | nil => simp [globPrefix, scan]
  | cons c s => simp [globPrefix, scan]

/-- The bytes that the pattern accounted for are a word of it. -/
theorem globPrefix_some {n : ℕ} (h : globPrefix pattern s = some n) :
    ∃ w rest, s = w ++ rest ∧ n = w.length ∧ InLang 42 47 pattern w := by
  by_cases hp : pattern = []
  · subst hp
    rw [globPrefix_nil] at h
    split_ifs at h with hs
    subst hs
    exact ⟨[], [], rfl, (Option.some.inj h).symm, .nil⟩
  · rw [globPrefix_eq hp, Option.map_eq_some_iff] at h
    obtain ⟨rest, hr, rfl⟩ := h
    obtain ⟨w, rfl, hw⟩ := first_sound hr
    exact ⟨w, rest, rfl, by simp, hw⟩

/-- The bytes that the pattern accounted for are no more than any word of it that the text starts
with. -/
theorem globPrefix_shortest {n : ℕ} (h : globPrefix pattern s = some n) {w rest : Chars}
    (hs : s = w ++ rest) (hw : InLang 42 47 pattern w) : n ≤ w.length := by
  by_cases hp : pattern = []
  · subst hp
    rw [globPrefix_nil] at h
    split_ifs at h
    rw [← Option.some.inj h]
    exact Nat.zero_le _
  · rw [globPrefix_eq hp, Option.map_eq_some_iff] at h
    obtain ⟨r, hr, rfl⟩ := h
    obtain ⟨u, rfl, -, hleast⟩ := first_eq_some hr
    have hle := hleast w rest hs hw
    rw [List.length_append]
    omega

theorem tfGlobPrefix_iff (hp : pattern ≠ []) :
    tfGlobPrefix pattern s = true ↔ ∃ w rest, s = w ++ rest ∧ InLang 42 47 pattern w := by
  rw [tfGlobPrefix, globPrefix, Option.isSome_map, scan_isSome hp]

end Match

/-! ### The authority -/

/-- The bytes after `://` up to the first `/`, `?` or `#`. -/
def authority : Chars → Option Chars
  | [] => none
  | c :: t =>
    if starts (c :: t) "://" then some ((t.drop 2).takeWhile inAuthority) else authority t

theorem authority_append {s t : Chars} (hs : 47 ∉ s) :
    authority (s ++ 58 :: 47 :: 47 :: t) = some (t.takeWhile inAuthority) := by
  induction s with
  | nil => rfl
  | cons c s ih =>
    rw [List.mem_cons, not_or] at hs
    have hno : ¬ starts (c :: (s ++ 58 :: 47 :: 47 :: t)) "://" = true := by
      rw [starts_iff]
      rintro ⟨u, hu⟩
      obtain ⟨-, hu⟩ := List.cons.inj hu
      cases s with
      | nil => exact absurd (List.cons.inj hu).1 (by decide)
      | cons d s => exact hs.2 (by rw [← (List.cons.inj hu).1]; exact List.mem_cons_self)
    rw [List.cons_append, authority, if_neg hno, ih hs.2]

/-- The part behind the last star. -/
def afterStar (t : Chars) : Chars := (t.reverse.takeWhile (· ≠ 42)).reverse

theorem afterStar_suffix (t : Chars) : afterStar t <:+ t := by
  rw [← List.reverse_prefix, afterStar, List.reverse_reverse]
  exact List.takeWhile_prefix _

theorem star_not_mem_afterStar (t : Chars) : 42 ∉ afterStar t := by
  rw [afterStar, List.mem_reverse]
  intro h
  simpa using List.mem_takeWhile_imp h

/-- A literal at the end stands behind the last star. -/
theorem suffix_afterStar {l t : Chars} (hl : 42 ∉ l) (h : l <:+ t) : l <:+ afterStar t := by
  obtain ⟨u, rfl⟩ := h
  have hall : ∀ c ∈ l.reverse, (decide (c ≠ 42)) = true := by
    intro c hc
    rw [decide_eq_true_iff]
    rintro rfl
    exact hl (List.mem_reverse.mp hc)
  rw [afterStar, List.reverse_append, List.takeWhile_append_of_pos hall, List.reverse_append,
    List.reverse_reverse]
  exact List.suffix_append _ _

theorem afterStar_of_not_mem {t : Chars} (h : 42 ∉ t) : afterStar t = t :=
  (afterStar_suffix t).eq_of_length_le (suffix_afterStar h List.suffix_rfl).length_le

/-! ### Rules for one site -/

/-- A pattern `scheme://before*after/path`, the star in the authority part. -/
structure SiteRule where
  scheme : Chars
  before : Chars
  after : Chars
  path : Chars
  scheme_slash : 47 ∉ scheme
  before_authority : before.all inAuthority = true
  after_literal : 42 ∉ after ∧ 47 ∉ after

def SiteRule.pattern (P : SiteRule) : Chars :=
  P.scheme ++ 58 :: 47 :: 47 :: (P.before ++ 42 :: (P.after ++ 47 :: P.path))

/-- Where the rule fires, the authority ends as the rule says. -/
def SiteRule.Confined (P : SiteRule) (url : Chars) : Prop :=
  tfGlobPrefix P.pattern url = true → ∃ a, authority url = some a ∧ P.after <:+ a

/-- Of what stands between `://` and the next `/`, the part behind the last star ends the authority. -/
def Plain (url : Chars) : Prop :=
  ∀ s t u, url = s ++ 58 :: 47 :: 47 :: (t ++ 47 :: u) → 47 ∉ s → 47 ∉ t →
    afterStar t <:+ t.takeWhile inAuthority

section Site

variable {P : SiteRule} {url s t u : Chars}

theorem SiteRule.pattern_ne_nil (P : SiteRule) : P.pattern ≠ [] := by
  simp [SiteRule.pattern]

theorem slash_not_mem_of_authority (h : t.all inAuthority = true) : 47 ∉ t := by
  intro hm
  exact absurd (List.all_eq_true.mp h 47 hm) (by decide)

theorem takeWhile_authority_slash :
    (t ++ 47 :: u).takeWhile inAuthority = t.takeWhile inAuthority := by
  refine takeWhile_append_stop fun c hc => ?_
  obtain rfl : (47 : UInt8) = c := Option.some.inj hc
  rfl

/-- The shape of what a rule accepts. -/
theorem SiteRule.accepted (h : tfGlobPrefix P.pattern url = true) :
    ∃ s t u, url = s ++ 58 :: 47 :: 47 :: (t ++ 47 :: u) ∧ 47 ∉ s ∧ 47 ∉ t ∧ P.after <:+ t := by
  obtain ⟨w, rest, rfl, hw⟩ := (tfGlobPrefix_iff P.pattern_ne_nil).mp h
  obtain ⟨s, w₁, rfl, hs, h₁⟩ := hw.split
  rw [show (58 :: 47 :: 47 :: (P.before ++ 42 :: (P.after ++ 47 :: P.path)) : Chars) =
    [58, 47, 47] ++ (P.before ++ ([42] ++ (P.after ++ ([47] ++ P.path)))) from rfl] at h₁
  obtain ⟨x, w₂, rfl, hx, h₂⟩ := h₁.split
  obtain ⟨b, w₃, rfl, hb, h₃⟩ := h₂.split
  obtain ⟨g, w₄, rfl, hg, h₄⟩ := h₃.split
  obtain ⟨l, w₅, rfl, hl, h₅⟩ := h₄.split
  obtain ⟨y, w₆, rfl, hy, -⟩ := h₅.split
  obtain rfl := (inLang_literal (by decide)).mp hx
  obtain rfl := (inLang_literal P.after_literal.1).mp hl
  obtain rfl := (inLang_literal (by decide)).mp hy
  have hb' := hb.sep_not_mem (slash_not_mem_of_authority P.before_authority)
  have hg' := inLang_star.mp hg
  refine ⟨s, b ++ (g ++ P.after), w₆ ++ rest, by simp, hs.sep_not_mem P.scheme_slash, ?_, ?_⟩
  · simp [hb', hg', P.after_literal.2]
  · rw [← List.append_assoc]
    exact List.suffix_append _ _

/-- A run without a slash in the star's place is accepted. -/
theorem SiteRule.accepts (ht : 47 ∉ t) :
    tfGlobPrefix P.pattern
      (P.scheme ++ 58 :: 47 :: 47 :: (P.before ++ (t ++ (P.after ++ 47 :: P.path)))) = true := by
  refine (tfGlobPrefix_iff P.pattern_ne_nil).mpr ⟨_, [], (List.append_nil _).symm, ?_⟩
  have hself : ∀ p : Chars, InLang 42 47 p p := InLang.self (by decide)
  refine (hself _).append ((hself [58, 47, 47]).append ((hself _).append ?_))
  exact (inLang_star.mpr ht).append (hself (P.after ++ 47 :: P.path))

theorem SiteRule.confined_of_plain (h : Plain url) (P : SiteRule) : P.Confined url := by
  intro hacc
  obtain ⟨s, t, u, rfl, hs, ht, hsuf⟩ := SiteRule.accepted hacc
  refine ⟨_, authority_append hs, ?_⟩
  rw [takeWhile_authority_slash]
  exact (suffix_afterStar P.after_literal.1 hsuf).trans (h s t u rfl hs ht)

/-- The rule whose literal is all that a rule's literal can be. -/
theorem plain_of_confined (h : ∀ P : SiteRule, P.Confined url) : Plain url := by
  rintro s t u rfl hs ht
  have hsuf := afterStar_suffix t
  have hafter : 47 ∉ afterStar t := fun hm => ht (hsuf.subset hm)
  obtain ⟨g, hg⟩ := hsuf
  let P : SiteRule :=
    { scheme := s
      before := []
      after := afterStar t
      path := u
      scheme_slash := hs
      before_authority := rfl
      after_literal := ⟨star_not_mem_afterStar t, hafter⟩ }
  have hacc := SiteRule.accepts (P := P) (t := g) fun hm => ht (hg ▸ List.mem_append_left _ hm)
  have hurl : P.scheme ++ 58 :: 47 :: 47 :: (P.before ++ (g ++ (P.after ++ 47 :: P.path))) =
      s ++ 58 :: 47 :: 47 :: (t ++ 47 :: u) := by
    show s ++ 58 :: 47 :: 47 :: ([] ++ (g ++ (afterStar t ++ 47 :: u))) = _
    rw [List.nil_append, ← List.append_assoc, hg]
  rw [hurl] at hacc
  obtain ⟨a, ha, hend⟩ := h P hacc
  rw [authority_append hs, takeWhile_authority_slash] at ha
  obtain rfl := Option.some.inj ha
  exact hend

/-- A `?` in the star's place ends the authority before the literal. -/
theorem SiteRule.not_confined (hne : P.after ≠ []) : ∃ url, ¬ P.Confined url := by
  -- a byte other than the literal's last
  obtain ⟨x, hx, hxa⟩ : ∃ x : UInt8, x ≠ P.after.getLast hne ∧ inAuthority x = true := by
    by_cases h : P.after.getLast hne = 97
    · exact ⟨98, by rw [h]; decide, rfl⟩
    · exact ⟨97, Ne.symm h, rfl⟩
  refine ⟨P.scheme ++ 58 :: 47 :: 47 :: (P.before ++ ([x, 63] ++ (P.after ++ 47 :: P.path))), ?_⟩
  intro h
  have hx47 : x ≠ 47 := by
    rintro rfl
    exact absurd hxa (by decide)
  obtain ⟨a, ha, hend⟩ := h (SiteRule.accepts (by simp [Ne.symm hx47]))
  rw [authority_append P.scheme_slash,
    List.takeWhile_append_of_pos (List.all_eq_true.mp P.before_authority)] at ha
  obtain rfl := Option.some.inj ha
  have hcut : ([x, 63] ++ (P.after ++ 47 :: P.path)).takeWhile inAuthority = [x] := by
    rw [List.cons_append, List.takeWhile_cons_of_pos hxa]
    rfl
  rw [hcut] at hend
  have hlast := hend.getLast hne
  simp at hlast
  exact hx hlast.symm

/-- In a URL without a star: nothing between `://` and the next `/` ends the authority before it. -/
theorem plain_iff_of_no_star (hstar : 42 ∉ url) :
    Plain url ↔ ∀ s t u, url = s ++ 58 :: 47 :: 47 :: (t ++ 47 :: u) → 47 ∉ s → 47 ∉ t →
      t.all inAuthority = true := by
  refine forall_congr' fun s => forall_congr' fun t => forall_congr' fun u => ?_
  refine forall_congr' fun h => forall_congr' fun _ => forall_congr' fun _ => ?_
  have ht : 42 ∉ t := fun hm => hstar (by simp [h, hm])
  rw [afterStar_of_not_mem ht]
  constructor
  · intro hsuf
    have heq := (List.takeWhile_prefix inAuthority (l := t)).eq_of_length_le hsuf.length_le
    rw [List.all_eq_true]
    intro c hc
    rw [← heq] at hc
    exact List.mem_takeWhile_imp hc
  · intro hall
    rw [List.takeWhile_eq_self_iff.mpr (List.all_eq_true.mp hall)]

end Site

/-- **Wildcards and the authority.**  A URL is safe from every rule for one site exactly when, between
its `://` and the next `/`, nothing behind the last star is outside the authority; and no rule with a
literal after its star is safe from every URL. -/
theorem wildcard_confined (url : Chars) (P : SiteRule) :
    ((∀ Q : SiteRule, Q.Confined url) ↔ Plain url) ∧
      ((∀ v, P.Confined v) ↔ P.after = []) := by
  refine ⟨⟨plain_of_confined, fun h Q => SiteRule.confined_of_plain h Q⟩, ?_, ?_⟩
  · intro h
    by_contra hne
    obtain ⟨v, hv⟩ := SiteRule.not_confined hne
    exact hv (h v)
  · intro h v hacc
    obtain ⟨s, t, u, rfl, hs, -, -⟩ := SiteRule.accepted hacc
    exact ⟨_, authority_append hs, by rw [h]; exact List.nil_suffix⟩

/-- `https://*.example.com/`. -/
def exampleRule : SiteRule where
  scheme := cstr "https"
  before := []
  after := cstr ".example.com"
  path := []
  scheme_slash := by decide
  before_authority := rfl
  after_literal := by decide

/-- The rule fires on a URL of another host. -/
theorem wildcard_escapes : ¬ ∀ (url : Chars) (P : SiteRule), P.Confined url := by
  intro h
  have hacc : tfGlobPrefix exampleRule.pattern (cstr "https://evil.net?.example.com/") = true := by
    decide +kernel
  obtain ⟨a, ha, hend⟩ := h _ exampleRule hacc
  have hhost : authority (cstr "https://evil.net?.example.com/") = some (cstr "evil.net") := by decide
  rw [hhost] at ha
  obtain rfl := Option.some.inj ha
  exact absurd hend (by decide)

end AquaTransport
