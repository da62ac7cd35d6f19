import Mathlib.Data.List.Basic
import Mathlib.Data.List.TakeWhile
import Mathlib.Tactic.Common

/-!
# AquaTransport.Lib.Uri — the text of a hierarchical URI, cut and put together

A `Uri` has its scheme, authority, path, query and fragment as they are written.  When it is
`WellFormed`, no piece has a delimiter that would end it, so the cuts at `://`, at the first of `/?#`,
at `#` and at `?` find the pieces (`read_text`) and the text determines them (`text_inj`).  An
`Authority` has its userinfo, host and port; the last colon introduces the port.
-/

namespace AquaTransport

/-! ### The first occurrence of a word -/

section Cut

variable {α : Type*} [DecidableEq α]

/-- What stands before the first `sep`, and what stands behind it. -/
def cut (sep : List α) : List α → Option (List α × List α)
  | [] => if sep = [] then some ([], []) else none
  | c :: s =>
    if sep.isPrefixOf (c :: s) then some ([], (c :: s).drop sep.length)
    else (cut sep s).map fun p => (c :: p.1, p.2)

theorem cut_append {x : α} {sep a : List α} (ha : x ∉ a) (b : List α) :
    cut (x :: sep) (a ++ x :: sep ++ b) = some (a, b) := by
  induction a with
  | nil =>
    have hp : (x :: sep).isPrefixOf (x :: (sep ++ b)) = true :=
      List.isPrefixOf_iff_prefix.mpr ⟨b, rfl⟩
    show cut (x :: sep) (x :: (sep ++ b)) = _
    rw [cut, if_pos hp]
    simp
  | cons c a ih =>
    obtain ⟨hc, ha⟩ := not_or.mp (mt List.mem_cons.mpr ha)
    have hp : ¬ (x :: sep).isPrefixOf (c :: (a ++ x :: sep ++ b)) = true := by
      simp [List.isPrefixOf, hc]
    show cut (x :: sep) (c :: (a ++ x :: sep ++ b)) = _
    rw [cut, if_neg hp, ih ha]
    rfl

/-- What stands before the last `x`, and what stands behind it. -/
def cutLast (x : α) (s : List α) : Option (List α × List α) :=
  (cut [x] s.reverse).map fun p => (p.2.reverse, p.1.reverse)

theorem cutLast_append {x : α} {b : List α} (hb : x ∉ b) (a : List α) :
    cutLast x (a ++ x :: b) = some (a, b) := by
  have hrev : (a ++ x :: b).reverse = b.reverse ++ [x] ++ a.reverse := by simp
  rw [cutLast, hrev, cut_append (by simpa using hb)]
  simp

theorem cut_none {x : α} {sep s : List α} (h : x ∉ s) : cut (x :: sep) s = none := by
  induction s with
  | nil => rfl
  | cons c s ih =>
    obtain ⟨hc, h⟩ := not_or.mp (mt List.mem_cons.mpr h)
    have hp : ¬ (x :: sep).isPrefixOf (c :: s) = true := by simp [List.isPrefixOf, hc]
    rw [cut, if_neg hp, ih h]
    rfl

theorem cutLast_none {x : α} {s : List α} (h : x ∉ s) : cutLast x s = none := by
  rw [cutLast, cut_none (by simpa using h)]
  rfl

end Cut

/-! ### Words between separators -/

section Split

variable {α : Type*}

theorem intercalate_append {sep : List α} {ls ms : List (List α)} (hl : ls ≠ []) (hm : ms ≠ []) :
    sep.intercalate (ls ++ ms) = sep.intercalate ls ++ sep ++ sep.intercalate ms := by
  induction ls with
  | nil => exact absurd rfl hl
  | cons l ls ih =>
    by_cases hls : ls = []
    · rw [hls, List.singleton_append, List.intercalate_cons_of_ne_nil hm,
        List.intercalate_singleton]
    · rw [List.cons_append, List.intercalate_cons_of_ne_nil (by simp [hls]), ih hls,
        List.intercalate_cons_of_ne_nil hls]
      simp only [List.append_assoc]

theorem mem_intercalate {sep : List α} {ls : List (List α)} {c : α}
    (h : c ∈ sep.intercalate ls) : c ∈ sep ∨ ∃ l ∈ ls, c ∈ l := by
  induction ls with
  | nil => exact absurd h List.not_mem_nil
  | cons l ls ih =>
    by_cases hls : ls = []
    · rw [hls, List.intercalate_singleton] at h
      exact .inr ⟨l, List.mem_cons_self, h⟩
    · rw [List.intercalate_cons_of_ne_nil hls, List.append_assoc, List.mem_append,
        List.mem_append] at h
      rcases h with h | h | h
      · exact .inr ⟨l, List.mem_cons_self, h⟩
      · exact .inl h
      · exact (ih h).imp_right fun ⟨l', hl', hc⟩ => ⟨l', List.mem_cons_of_mem l hl', hc⟩

variable [DecidableEq α]

/-- A word of a text between its separators has none, and only what the text has. -/
theorem mem_splitOn {x : α} {s l : List α} (h : l ∈ s.splitOn x) : x ∉ l ∧ l ⊆ s := by
  induction s generalizing l with
  | nil =>
    obtain rfl := List.mem_singleton.mp h
    exact ⟨List.not_mem_nil, List.nil_subset _⟩
  | cons c s ih =>
    rw [List.splitOn_cons_eq_if_modifyHead] at h
    by_cases hc : c = x
    · rw [if_pos (by simp [hc]), List.mem_cons] at h
      rcases h with rfl | h
      · exact ⟨List.not_mem_nil, List.nil_subset _⟩
      · exact ⟨(ih h).1, List.subset_cons_of_subset c (ih h).2⟩
    · rw [if_neg (by simp [hc])] at h
      cases hs : s.splitOn x with
      | nil => exact absurd hs (List.splitOn_ne_nil x s)
      | cons w ws =>
        rw [hs, List.modifyHead_cons, List.mem_cons] at h
        rw [hs] at ih
        rcases h with rfl | h
        · obtain ⟨hw, hsub⟩ := ih List.mem_cons_self
          exact ⟨by simp [hw, Ne.symm hc], List.cons_subset_cons c hsub⟩
        · obtain ⟨hl, hsub⟩ := ih (List.mem_cons_of_mem w h)
          exact ⟨hl, List.subset_cons_of_subset c hsub⟩

/-- The first word ends at the first separator. -/
theorem headD_splitOn (x : α) (s : List α) : (s.splitOn x).headD [] = s.takeWhile (· ≠ x) := by
  induction s with
  | nil => rfl
  | cons c s ih =>
    rw [List.splitOn_cons_eq_if_modifyHead]
    by_cases hc : c = x
    · rw [if_pos (by simp [hc]), List.takeWhile_cons_of_neg (by simp [hc])]
      rfl
    · rw [if_neg (by simp [hc]), List.takeWhile_cons_of_pos (by simp [hc]), ← ih]
      cases hs : s.splitOn x with
      | nil => exact absurd hs (List.splitOn_ne_nil x s)
      | cons w ws => rfl

end Split

/-! ### The pieces -/

/-- The pieces of a text of UTF-16 units. -/
structure Uri where
  scheme : List UInt16
  authority : List UInt16
  path : List UInt16
  query : Option (List UInt16)
  fragment : Option (List UInt16)
  deriving DecidableEq

namespace Uri

def colon : UInt16 := 58
def slash : UInt16 := 47
def question : UInt16 := 63
def hash : UInt16 := 35

/-- What goes on in an authority. -/
def inAuthority (c : UInt16) : Bool := c != slash && c != question && c != hash

/-- A piece behind its delimiter, when there is one. -/
def behind (d : UInt16) (piece : Option (List UInt16)) : List UInt16 :=
  (piece.map (d :: ·)).getD []

/-- Path and query, as they are sent. -/
def pathQuery (u : Uri) : List UInt16 := u.path ++ behind question u.query

/-- What follows the authority. -/
def rest (u : Uri) : List UInt16 := u.pathQuery ++ behind hash u.fragment

def text (u : Uri) : List UInt16 :=
  u.scheme ++ [colon, slash, slash] ++ (u.authority ++ u.rest)

structure WellFormed (u : Uri) : Prop where
  scheme : colon ∉ u.scheme
  authority : ∀ c ∈ u.authority, inAuthority c = true
  absolute : u.path = [] ∨ u.path.head? = some slash
  path : question ∉ u.path ∧ hash ∉ u.path
  query : ∀ q, u.query = some q → hash ∉ q

variable {u v : Uri}

@[simp] theorem behind_none (d : UInt16) : behind d none = [] := rfl

@[simp] theorem behind_some (d : UInt16) (piece : List UInt16) :
    behind d (some piece) = d :: piece := rfl

/-- A piece is cut at its delimiter, which nothing before it has. -/
theorem cut_behind {d : UInt16} {s : List UInt16} (h : d ∉ s) (piece : Option (List UInt16)) :
    cut [d] (s ++ behind d piece) = piece.map fun p => (s, p) := by
  cases piece with
  | none =>
    rw [behind_none, List.append_nil]
    exact cut_none h
  | some p =>
    have hcut : cut (d :: []) (s ++ d :: [] ++ p) = some (s, p) := cut_append h p
    simpa using hcut

theorem WellFormed.hash_not_mem (h : u.WellFormed) : hash ∉ u.pathQuery := by
  rw [pathQuery, List.mem_append]
  rintro (hp | hq)
  · exact h.path.2 hp
  · cases hu : u.query with
    | none =>
      rw [hu] at hq
      exact absurd hq List.not_mem_nil
    | some q =>
      rw [hu, behind_some, List.mem_cons] at hq
      rcases hq with hq | hq
      · exact absurd hq (by decide)
      · exact h.query q hu hq

/-- The text after the authority starts with a delimiter. -/
theorem WellFormed.rest_head (h : u.WellFormed) : ∀ c, u.rest.head? = some c → inAuthority c = false := by
  intro c hc
  unfold rest pathQuery at hc
  rcases h.absolute with hp | hp
  · rw [hp, List.nil_append] at hc
    cases hq : u.query with
    | some q =>
      rw [hq] at hc
      obtain rfl : question = c := Option.some.inj hc
      decide
    | none =>
      cases hf : u.fragment with
      | some f =>
        rw [hq, hf] at hc
        obtain rfl : hash = c := Option.some.inj hc
        decide
      | none =>
        rw [hq, hf] at hc
        exact absurd hc (by simp)
  · cases hu : u.path with
    | nil =>
      rw [hu] at hp
      exact absurd hp (by simp)
    | cons x path =>
      rw [hu] at hc hp
      obtain rfl : x = c := Option.some.inj hc
      obtain rfl := Option.some.inj hp
      decide

/-! ### The cuts -/

theorem WellFormed.cut_scheme (h : u.WellFormed) :
    cut [colon, slash, slash] u.text = some (u.scheme, u.authority ++ u.rest) :=
  cut_append h.scheme _

theorem takeWhile_append_stop {p : UInt16 → Bool} {a s : List UInt16} (ha : ∀ c ∈ a, p c = true)
    (hs : ∀ c, s.head? = some c → p c = false) :
    (a ++ s).takeWhile p = a ∧ (a ++ s).dropWhile p = s := by
  have hstop : s.takeWhile p = [] ∧ s.dropWhile p = s := by
    cases s with
    | nil => exact ⟨rfl, rfl⟩
    | cons c s =>
      have hc := hs c rfl
      constructor
      · exact List.takeWhile_cons_of_neg (by simp [hc])
      · exact List.dropWhile_cons_of_neg (by simp [hc])
  rw [List.takeWhile_append_of_pos ha, List.dropWhile_append_of_pos ha, hstop.1, hstop.2,
    List.append_nil]
  exact ⟨rfl, rfl⟩

theorem WellFormed.takeWhile_authority (h : u.WellFormed) :
    (u.authority ++ u.rest).takeWhile inAuthority = u.authority :=
  (takeWhile_append_stop h.authority h.rest_head).1

theorem WellFormed.dropWhile_authority (h : u.WellFormed) :
    (u.authority ++ u.rest).dropWhile inAuthority = u.rest :=
  (takeWhile_append_stop h.authority h.rest_head).2

theorem WellFormed.cut_hash (h : u.WellFormed) :
    cut [hash] u.rest = u.fragment.map fun f => (u.pathQuery, f) :=
  cut_behind h.hash_not_mem u.fragment

theorem WellFormed.cut_question (h : u.WellFormed) :
    cut [question] u.pathQuery = u.query.map fun q => (u.path, q) :=
  cut_behind h.path.1 u.query

/-! ### Reading -/

/-- A text up to the first `d`, and the piece behind it. -/
def readPiece (d : UInt16) (s : List UInt16) : List UInt16 × Option (List UInt16) :=
  match cut [d] s with
  | none => (s, none)
  | some (a, b) => (a, some b)

theorem readPiece_behind {d : UInt16} {s : List UInt16} (h : d ∉ s) (piece : Option (List UInt16)) :
    readPiece d (s ++ behind d piece) = (s, piece) := by
  unfold readPiece
  rw [cut_behind h]
  cases piece with
  | none => rw [behind_none, List.append_nil, Option.map_none]
  | some p => rfl

/-- The pieces of a text. -/
def read (s : List UInt16) : Uri :=
  let p := (cut [colon, slash, slash] s).getD ([], s)
  let a := readPiece hash (p.2.dropWhile inAuthority)
  let b := readPiece question a.1
  { scheme := p.1, authority := p.2.takeWhile inAuthority, path := b.1, query := b.2, fragment := a.2 }

/-- **What is written is read.** -/
theorem read_text (h : u.WellFormed) : read u.text = u := by
  have hhash : readPiece hash u.rest = (u.pathQuery, u.fragment) :=
    readPiece_behind h.hash_not_mem u.fragment
  have hquestion : readPiece question u.pathQuery = (u.path, u.query) :=
    readPiece_behind h.path.1 u.query
  unfold read
  rw [h.cut_scheme, Option.getD_some]
  simp only [h.takeWhile_authority, h.dropWhile_authority, hhash, hquestion]

/-- **The text of a URI determines its pieces.** -/
theorem text_inj (hu : u.WellFormed) (hv : v.WellFormed) (h : u.text = v.text) : u = v :=
  calc u = read u.text := (read_text hu).symm
    _ = read v.text := congrArg read h
    _ = v := read_text hv

end Uri

/-! ### The authority -/

/-- An authority; the user stands before its `@`, and the port behind its colon. -/
structure Authority where
  user : Option (List UInt16)
  host : List UInt16
  port : Option (List UInt16)
  deriving DecidableEq

namespace Authority

open Uri

def atSign : UInt16 := 64

def isDigit (c : UInt16) : Bool := 48 ≤ c && c ≤ 57

/-- The user with its `@`, and the host. -/
def name (a : Authority) : List UInt16 := (a.user.map (· ++ [atSign])).getD [] ++ a.host

def text (a : Authority) : List UInt16 := a.name ++ behind colon a.port

structure WellFormed (a : Authority) : Prop where
  user : ∀ x, a.user = some x → atSign ∉ x
  host : atSign ∉ a.host ∧ colon ∉ a.host
  port : ∀ p, a.port = some p → ∀ c ∈ p, isDigit c = true

/-- The number of a port; an empty one has none. -/
def number (a : Authority) : Option ℕ :=
  a.port.bind fun p => if p = [] then none else some (p.foldl (fun n c => 10 * n + (c.toNat - 48)) 0)

variable {a : Authority}

/-- An authority without `@` and colon is its host. -/
theorem eq_host (h : atSign ∉ a.text) (h' : colon ∉ a.text) : a.host = a.text := by
  have hu : a.user = none := by
    cases hu : a.user with
    | none => rfl
    | some x =>
      refine absurd ?_ h
      simp [text, name, hu]
  have hp : a.port = none := by
    cases hp : a.port with
    | none => rfl
    | some p =>
      refine absurd ?_ h'
      simp [text, hp]
  simp [text, name, hu, hp]

theorem WellFormed.colon_not_mem_port (h : a.WellFormed) {p : List UInt16} (hp : a.port = some p) :
    colon ∉ p := fun hc => absurd (h.port p hp colon hc) (by decide)

/-- The last colon introduces the port. -/
theorem WellFormed.cutLast_text (h : a.WellFormed) {p : List UInt16} (hp : a.port = some p) :
    cutLast colon a.text = some (a.name, p) := by
  rw [text, hp, behind_some]
  exact cutLast_append (h.colon_not_mem_port hp) a.name

/-- The pieces of an authority. -/
def read (s : List UInt16) : Authority :=
  let p := (cutLast atSign s).elim (none, s) fun p => (some p.1, p.2)
  let a := readPiece colon p.2
  { user := p.1, host := a.1, port := a.2 }

theorem WellFormed.atSign_not_mem (h : a.WellFormed) : atSign ∉ a.host ++ behind colon a.port := by
  rw [List.mem_append]
  rintro (hh | hp)
  · exact h.host.1 hh
  · cases ha : a.port with
    | none =>
      rw [ha] at hp
      exact absurd hp List.not_mem_nil
    | some p =>
      rw [ha, behind_some, List.mem_cons] at hp
      rcases hp with hp | hp
      · exact absurd hp (by decide)
      · exact absurd (h.port p ha atSign hp) (by decide)

theorem read_text (h : a.WellFormed) : read a.text = a := by
  have hport : readPiece colon (a.host ++ behind colon a.port) = (a.host, a.port) :=
    readPiece_behind h.host.2 a.port
  have hcut : (cutLast atSign a.text).elim (none, a.text) (fun p => (some p.1, p.2)) =
      (a.user, a.host ++ behind colon a.port) := by
    cases hu : a.user with
    | none =>
      have ht : a.text = a.host ++ behind colon a.port := by simp [text, name, hu]
      rw [ht, cutLast_none h.atSign_not_mem]
      rfl
    | some x =>
      have ht : a.text = x ++ atSign :: (a.host ++ behind colon a.port) := by simp [text, name, hu]
      rw [ht, cutLast_append h.atSign_not_mem]
      rfl
  unfold read
  simp only [hcut, hport]

end Authority

end AquaTransport
