import AquaTransport.Rewrite.Patterns

/-!
# AquaTransport.Rewrite.Rules — redirect rules, header rules and their scopes

What the two rule files hold once they are read, and what a URL makes of them.  Of Core Foundation the
rules need to know which C strings make a `CFString` and which make a `CFURL`.
-/

namespace AquaTransport.Rewrite

open Glob

/-! ### Scopes -/

/-- The names that `id_init` found, empty where it found none. -/
structure Identity where
  appName : Chars := []
  exeName : Chars := []
  respAppName : Chars := []
  respExeName : Chars := []

def isBlank (c : UInt8) : Bool := c = 32 || c = 9

/-- Without the blanks and tabs around it. -/
def trimBlank (tok : Chars) : Chars :=
  ((tok.dropWhile isBlank).reverse.dropWhile isBlank).reverse

/-- One token of a scope line, trimmed. -/
def tokenMatches (who : Identity) (tok : Chars) : Bool :=
  if tok = [42] then true
  else
    let tok := if 4 < tok.length ∧ tok.drop (tok.length - 4) = cstr ".app" then
      tok.take (tok.length - 4) else tok
    if tok ≠ [] ∧ tok.length < 256 then
      [who.appName, who.exeName, who.respAppName, who.respExeName].any fun name =>
        name ≠ [] && tok = name
    else false

/-- `tf_scope_matches`. -/
def tfScopeMatches (who : Identity) (scope : Chars) : Bool :=
  match scope with
  | [] => false
  | c :: p =>
    let tok := (c :: p).takeWhile (· ≠ 44)
    if tokenMatches who (trimBlank tok) then true
    else tfScopeMatches who ((c :: p).drop (tok.length + 1))
termination_by scope.length
decreasing_by
  rw [List.length_drop, List.length_cons]
  omega

/-! ### Rules -/

structure TfRedirect where
  scope : Chars
  fromUrl : Chars
  toUrl : Chars

structure TfHeaderrule where
  scope : Chars
  pattern : Chars
  lines : List Chars

/-- What `tf_redirects`, `tf_headerrules`, `tf_flag` and the process answer during a call. -/
structure Config where
  who : Identity := {}
  redirects : List TfRedirect := []
  headerrules : List TfHeaderrule := []
  disableIcloudGsa : Bool := false
  debug : Bool := false

/-- The first redirect rule in scope that matches, with the length matched. -/
def firstRedirect (who : Identity) (url : Chars) : List TfRedirect → Option (TfRedirect × ℕ)
  | [] => none
  | r :: rs =>
    if tfScopeMatches who r.scope then
      match globPrefix r.fromUrl url with
      | some fl => some (r, fl)
      | none => firstRedirect who url rs
    else firstRedirect who url rs

/-- `tf_apply_redirect`, where `malloc` delivers. -/
def tfApplyRedirect (C : Config) (url : Chars) : Option Chars :=
  (firstRedirect C.who url C.redirects).map fun (r, fl) => r.toUrl ++ url.drop fl

/-- The rule is in scope and its pattern matches. -/
def TfRedirect.applies (who : Identity) (url : Chars) (r : TfRedirect) : Bool :=
  tfScopeMatches who r.scope && tfGlobPrefix r.fromUrl url

section Redirects

variable {who : Identity} {url : Chars} {r : TfRedirect} {rs pre post : List TfRedirect} {fl : ℕ}

theorem firstRedirect_none :
    firstRedirect who url rs = none ↔ ∀ r ∈ rs, r.applies who url = false := by
  induction rs with
  | nil => simp [firstRedirect]
  | cons r rs ih =>
    rw [List.forall_mem_cons, ← ih, firstRedirect]
    unfold TfRedirect.applies tfGlobPrefix
    cases tfScopeMatches who r.scope <;> cases globPrefix r.fromUrl url <;> simp

/-- The first rule that applies is taken, with the length it matched. -/
theorem firstRedirect_of_first (hpre : ∀ r' ∈ pre, r'.applies who url = false)
    (hs : tfScopeMatches who r.scope = true) (hfl : globPrefix r.fromUrl url = some fl) :
    firstRedirect who url (pre ++ r :: post) = some (r, fl) := by
  induction pre with
  | nil =>
    show firstRedirect who url (r :: post) = _
    rw [firstRedirect, if_pos hs, hfl]
  | cons r' pre ih =>
    rw [List.forall_mem_cons] at hpre
    have hno := hpre.1
    rw [List.cons_append, firstRedirect]
    unfold TfRedirect.applies tfGlobPrefix at hno
    split_ifs with hs'
    · rw [hs', Bool.true_and] at hno
      cases hg : globPrefix r'.fromUrl url with
      | none => exact ih hpre.2
      | some fl' =>
        rw [hg] at hno
        cases hno
    · exact ih hpre.2

end Redirects

/-- The first rule that applies to `u`, and the shortest word of its pattern that `u` starts with. -/
structure Redirected (C : Config) (u : Chars) (r : TfRedirect) (w rest : Chars) : Prop where
  first : ∃ pre post, C.redirects = pre ++ r :: post ∧ ∀ r' ∈ pre, r'.applies C.who u = false
  applies : r.applies C.who u = true
  split : u = w ++ rest
  word : InLang 42 47 r.fromUrl w
  shortest : ∀ w' rest', u = w' ++ rest' → InLang 42 47 r.fromUrl w' → w.length ≤ w'.length

section Redirected

variable {C : Config} {u t w rest : Chars} {r : TfRedirect} {pre post : List TfRedirect}

theorem Redirected.scope (h : Redirected C u r w rest) : tfScopeMatches C.who r.scope = true :=
  ((Bool.and_eq_true _ _).mp h.applies).1

theorem Redirected.mem (h : Redirected C u r w rest) : r ∈ C.redirects := by
  obtain ⟨pre, post, hrs, -⟩ := h.first
  rw [hrs]
  exact List.mem_append_right _ List.mem_cons_self

/-- The rule's replacement before what the word leaves. -/
theorem Redirected.applied (h : Redirected C u r w rest) :
    tfApplyRedirect C u = some (r.toUrl ++ rest) := by
  obtain ⟨⟨pre, post, hrs, hpre⟩, happ, rfl, hw, hleast⟩ := h
  obtain ⟨hscope, hmatch⟩ := (Bool.and_eq_true _ _).mp happ
  obtain ⟨fl, hfl⟩ := Option.isSome_iff_exists.mp hmatch
  have hlen : fl = w.length := by
    obtain ⟨w', rest', hs, rfl, hw'⟩ := globPrefix_some hfl
    exact le_antisymm (globPrefix_shortest hfl rfl hw) (hleast w' rest' hs hw')
  rw [tfApplyRedirect, hrs, firstRedirect_of_first hpre hscope hfl, Option.map_some, hlen]
  show some (r.toUrl ++ (w ++ rest).drop w.length) = _
  rw [List.drop_left]

theorem exists_redirected (hrs : C.redirects = pre ++ r :: post)
    (hpre : ∀ r' ∈ pre, r'.applies C.who u = false) (hr : r.applies C.who u = true) :
    ∃ w rest, Redirected C u r w rest := by
  obtain ⟨fl, hfl⟩ := Option.isSome_iff_exists.mp ((Bool.and_eq_true _ _).mp hr).2
  obtain ⟨w, rest, hurl, rfl, hw⟩ := globPrefix_some hfl
  exact ⟨w, rest, ⟨pre, post, hrs, hpre⟩, hr, hurl, hw, fun w' rest' hs hw' =>
    globPrefix_shortest hfl hs hw'⟩

theorem tfApplyRedirect_none :
    tfApplyRedirect C u = none ↔ ∀ r ∈ C.redirects, r.applies C.who u = false := by
  rw [tfApplyRedirect, Option.map_eq_none_iff, firstRedirect_none]

theorem tfApplyRedirect_some : tfApplyRedirect C u = some t ↔
    ∃ r w rest, Redirected C u r w rest ∧ t = r.toUrl ++ rest := by
  constructor
  · intro ht
    cases hfind : C.redirects.find? fun r => r.applies C.who u with
    | none =>
      have hno : ∀ r ∈ C.redirects, r.applies C.who u = false := by
        simpa using List.find?_eq_none.mp hfind
      rw [tfApplyRedirect_none.mpr hno] at ht
      cases ht
    | some r =>
      obtain ⟨happ, pre, post, hrs, hpre⟩ := List.find?_eq_some_iff_append.mp hfind
      obtain ⟨w, rest, h⟩ := exists_redirected hrs (fun r' hr' => by simpa using hpre r' hr') happ
      exact ⟨r, w, rest, h, Option.some.inj (ht.symm.trans h.applied)⟩
  · rintro ⟨r, w, rest, h, rfl⟩
    exact h.applied

end Redirected

/-- **Patterns and redirects are exact.**  `glob_prefix` returns 1 exactly when the text starts with a
word of the pattern, and consumes the shortest one; `tf_apply_redirect` has no answer exactly when no
rule applies, and otherwise puts the first such rule's replacement before what its shortest word leaves
of the URL. -/
theorem redirect_exact (C : Config) (url : Chars) :
    (∀ pattern s : Chars, pattern ≠ [] → ((globPrefix pattern s).isSome ↔
      ∃ w rest, s = w ++ rest ∧ InLang 42 47 pattern w)) ∧
    (∀ (pattern s : Chars) n, globPrefix pattern s = some n →
      (∃ w rest, s = w ++ rest ∧ w.length = n ∧ InLang 42 47 pattern w) ∧
      ∀ w rest, s = w ++ rest → InLang 42 47 pattern w → n ≤ w.length) ∧
    (tfApplyRedirect C url = none ↔ ∀ r ∈ C.redirects, r.applies C.who url = false) ∧
    ∀ pre r post, C.redirects = pre ++ r :: post → (∀ r' ∈ pre, r'.applies C.who url = false) →
      r.applies C.who url = true →
      ∃ w rest, url = w ++ rest ∧ InLang 42 47 r.fromUrl w ∧
        (∀ w' rest', url = w' ++ rest' → InLang 42 47 r.fromUrl w' → w.length ≤ w'.length) ∧
        tfApplyRedirect C url = some (r.toUrl ++ rest) := by
  refine ⟨fun pattern s hp => tfGlobPrefix_iff hp, fun pattern s n h => ⟨?_, fun w rest hs hw =>
    globPrefix_shortest h hs hw⟩, tfApplyRedirect_none, fun pre r post hrs hpre hr => ?_⟩
  · obtain ⟨w, rest, hs, hn, hw⟩ := globPrefix_some h
    exact ⟨w, rest, hs, hn.symm, hw⟩
  · obtain ⟨w, rest, h⟩ := exists_redirected hrs hpre hr
    exact ⟨w, rest, h.split, h.word, h.shortest, h.applied⟩

/-- `match_headers`. -/
def matchHeaders (C : Config) (url : Chars) : Option TfHeaderrule :=
  C.headerrules.find? fun r => tfScopeMatches C.who r.scope && tfGlobPrefix r.pattern url

/-! ### Header lines -/

/-- Core Foundation: `CFStringCreateWithCString` makes a string of these bytes; `CFURLCreateWithString`
makes a URL of the string, which `CFURLGetString` gives back.  Letter case is nothing to UTF-8. -/
structure CoreFoundation where
  utf8 : Chars → Bool
  url : Chars → Bool
  utf8_tolower : ∀ s, utf8 (s.map tolower) = utf8 s

/-- What `apply_header_rule` makes of a line: the header's name, the value for the setter (`NULL`
removes) and the text of the value. -/
def headerLine (F : CoreFoundation) (line : Chars) : Option (Chars × Option Chars × Chars) :=
  if 58 ∈ line then
    let name := line.takeWhile (· ≠ 58)
    let val := (line.dropWhile (· ≠ 58)).tail.dropWhile isBlank
    if name = [] ∨ 128 ≤ name.length then none
    else if F.utf8 name then some (name, if val ≠ [] ∧ F.utf8 val then some val else none, val)
    else none
  else none

/-- `rule_sets_header`. -/
def ruleSetsHeader (hr : TfHeaderrule) (name : Chars) : Bool :=
  hr.lines.any fun line =>
    if 58 ∈ line then
      let field := line.takeWhile (· ≠ 58)
      field.length = name.length && field.map tolower = name.map tolower
    else false

end AquaTransport.Rewrite
