import AquaTransport.Gsa.Bridge
import Mathlib.Data.List.TakeWhile

/-!
# AquaTransport.Gsa.Reserved — `gsa_reserved_url` against the protocols

The C recogniser compares the bytes of the URL string, where a pointer is the text from it on; the
protocols compare the components that `NSURL` reads.  `reserved_iff` says for which spellings of the
port the C side keeps the general rules off a URL that a protocol takes.
-/

namespace AquaTransport

/-- A C string up to its NUL. -/
abbrev Chars := List UInt8

def cstr (s : String) : Chars := s.toList.map fun c => UInt8.ofNat c.toNat

def tolower (c : UInt8) : UInt8 := if 65 ≤ c ∧ c ≤ 90 then c + 32 else c

/-- `!strncasecmp(s, literal, strlen(literal))`, for a literal in lower case. -/
def startsCase (s : Chars) (literal : String) : Bool := (cstr literal).isPrefixOf (s.map tolower)

/-- `!strncmp(s, literal, strlen(literal))`. -/
def starts (s : Chars) (literal : String) : Bool := (cstr literal).isPrefixOf s

/-- Not one of `/?#`. -/
def inAuthority (c : UInt8) : Bool := c ≠ 47 && c ≠ 63 && c ≠ 35

def isDigit (c : UInt8) : Bool := 48 ≤ c && c ≤ 57

/-! ### The C side -/

/-- A `p`, digits and a dash at the start are passed over; a `p` without them is refused. -/
def shard : Chars → Option Chars
  | [] => some []
  | c :: h =>
    if c = 112 ∨ c = 80 then
      if h.takeWhile isDigit = [] then none
      else
        match h.dropWhile isDigit with
        | [] => none
        | d :: h => if d = 45 then some h else none
    else some (c :: h)

/-- `for (p = h; p < end; p++) if (*p == '@') h = p + 1`. -/
def skipUser : Chars → Chars → Chars
  | [], h => h
  | c :: p, h => skipUser p (if c = 64 then p else h)

/-- Up to `stop` there is nothing, `:443` or the legacy port. -/
def davPort (h stop : Chars) (legacy : String) : Bool :=
  h.length = stop.length || (h.length = stop.length + 4 && starts h ":443") ||
    (h.length = stop.length + 5 && starts h legacy)

def gsaDavUrl (url : Chars) : Bool :=
  startsCase url "https://" &&
    let h := url.drop 8
    let stop := h.dropWhile inAuthority
    match shard (skipUser (h.takeWhile inAuthority) (h.takeWhile inAuthority) ++ stop) with
    | none => false
    | some h =>
      if startsCase h "caldav.icloud.com" then davPort (h.drop 17) stop ":8443"
      else startsCase h "contacts.icloud.com" && davPort (h.drop 19) stop ":8843"

def findmyHost (url : Chars) : Bool :=
  startsCase url "https://" &&
    match shard (url.drop 8) with
    | none => false
    | some h =>
      startsCase h "fmip.icloud.com" &&
        let h := h.drop 15
        let h := if starts h ":443" then h.drop 4 else h
        h.head? = some 47

def gsaReservedUrl (url : Chars) : Bool :=
  findmyHost url || gsaDavUrl url || startsCase url "https://gsa.apple.com/" ||
    startsCase url "https://setup.icloud.com/" ||
    startsCase url "https://profile.ess.apple.com/" ||
    startsCase url "https://service.ess.apple.com/" ||
    startsCase url "https://profile.ess.apple.com:443/" ||
    startsCase url "https://service.ess.apple.com:443/" ||
    startsCase url "https://gsa.apple.com:443/" ||
    startsCase url "https://setup.icloud.com:443/"

/-! ### The components -/

/-- How Foundation reads a userinfo and the text of a path. -/
structure Reader where
  user : Chars → Option NSString
  password : Chars → Option NSString
  path : Chars → NSString
  path_nil : path [] = []

def ascii (s : Chars) : NSString := s.map UInt8.toUInt16

def decimal (s : Chars) : ℕ := s.foldl (fun n c => 10 * n + (c.toNat - 48)) 0

/-- The text after the last `@`; a valid authority has at most one. -/
def afterUser (authority : Chars) : Chars :=
  if 64 ∈ authority then (authority.reverse.takeWhile (· ≠ 64)).reverse else authority

def userinfo (authority : Chars) : Option Chars :=
  if 64 ∈ authority then some ((authority.reverse.dropWhile (· ≠ 64)).tail.reverse) else none

/-- The host, and what follows it in the authority. -/
def hostText (authority : Chars) : Chars := (afterUser authority).takeWhile (· ≠ 58)
def portText (authority : Chars) : Chars := (afterUser authority).dropWhile (· ≠ 58)

/-- What follows `://`. -/
def afterScheme (url : Chars) : Option Chars :=
  match url.dropWhile (· ≠ 58) with
  | c :: d :: e :: t => if c = 58 ∧ d = 47 ∧ e = 47 then some t else none
  | _ => none

/-- An absolute URL string as `NSURL` has it. -/
def Reader.read (N : Reader) (url : Chars) : NSURL :=
  let authority := (afterScheme url).map (List.takeWhile inAuthority)
  let rest := ((afterScheme url).getD []).dropWhile inAuthority
  let digits := authority.map fun a => (portText a).tail.takeWhile isDigit
  { absoluteString := ascii url
    scheme := some (ascii (url.takeWhile (· ≠ 58)))
    user := (authority.bind userinfo).bind N.user
    password := (authority.bind userinfo).bind N.password
    host := authority.map fun a => ascii (hostText a)
    port := digits.bind fun d => if d = [] then none else some (decimal d)
    path := N.path (rest.takeWhile fun c => c ≠ 63 && c ≠ 35)
    query := if 63 ∈ rest.takeWhile (· ≠ 35) then
      some (ascii ((rest.takeWhile (· ≠ 35)).dropWhile (· ≠ 63)).tail) else none
    fragment := if 35 ∈ rest then some (ascii (rest.dropWhile (· ≠ 35)).tail) else none }

/-- `AQGSAProtocol` would take a request for the URL. -/
def GsaTakes (S : Services) (url : NSURL) : Prop :=
  aqLoginUrl url = true ∨ aqIdsUrl url = true ∨
    ∃ req credentials, req.url = url ∧ aqSettingsRequest S req credentials = true

/-- One of the two protocols would. -/
def Taken (S : Services) (url : NSURL) : Prop := GsaTakes S url ∨ aqDavUrl url = true

theorem gsaTakes_of_canInit {S : Services} {req : Original} (h : canInitWithRequest S req = true) :
    GsaTakes S req.url := by
  unfold canInitWithRequest at h
  split_ifs at h with hids
  · exact Or.inr (Or.inl hids)
  · rw [Bool.and_eq_true, Bool.or_eq_true] at h
    rcases h.2 with h | h
    · exact Or.inl h
    · exact Or.inr (Or.inr ⟨req, _, rfl, h⟩)

/-- The authority of a URL that starts with `https://`, and what follows it. -/
def authorityOf (url : Chars) : Chars := (url.drop 8).takeWhile inAuthority
def restOf (url : Chars) : Chars := (url.drop 8).dropWhile inAuthority

/-- The host of a URL as the protocols compare it. -/
def hostOf (url : Chars) : NSString := lowercaseAscii (ascii (hostText (authorityOf url)))

/-- The port has a spelling that the C side knows: after its user, a DAV authority is the bare host or
ends in `:443` or the host's legacy port; any other authority has no user, and is the bare host or ends
in `:443`. -/
def Spelled (url : Chars) : Prop :=
  davHost (hostOf url) = true ∧ (portText (authorityOf url) = [] ∨
      portText (authorityOf url) = cstr ":443" ∨ portText (authorityOf url) =
        cstr (if (str "caldav.icloud.com").isSuffixOf (hostOf url) then ":8443" else ":8843")) ∨
    64 ∉ authorityOf url ∧
      (portText (authorityOf url) = [] ∨ portText (authorityOf url) = cstr ":443")

/-! ### Bytes and units -/

section Text

variable {c : UInt8} {s t h rest : Chars} {p : UInt8 → Bool}

theorem toUInt16_inj {a b : UInt8} (h : a.toUInt16 = b.toUInt16) : a = b := by
  have := congrArg UInt16.toUInt8 h
  simpa using this

theorem ascii_inj (h : ascii s = ascii t) : s = t :=
  List.map_injective_iff.mpr (fun _ _ => toUInt16_inj) h

theorem lowerAscii_toUInt16 : lowerAscii c.toUInt16 = (tolower c).toUInt16 := by
  have hc := c.toNat_lt
  have hle : (65 ≤ c.toUInt16 ∧ c.toUInt16 ≤ 90) ↔ (65 ≤ c ∧ c ≤ 90) := by
    simp [UInt16.le_iff_toNat_le, UInt8.le_iff_toNat_le]
  unfold lowerAscii tolower
  by_cases h : 65 ≤ c ∧ c ≤ 90
  · rw [if_pos (hle.mpr h), if_pos h]
    have h' : c.toNat ≤ 90 := by simpa [UInt8.le_iff_toNat_le] using h.2
    refine UInt16.toNat_inj.mp ?_
    simp [UInt16.toNat_add]
    omega
  · rw [if_neg fun h' => h (hle.mp h'), if_neg h]

theorem lowercaseAscii_ascii : lowercaseAscii (ascii s) = ascii (s.map tolower) := by
  unfold lowercaseAscii ascii
  rw [List.map_map, List.map_map]
  exact List.map_congr_left fun c _ => lowerAscii_toUInt16

/-- Only a letter comes from another character. -/
theorem tolower_eq {d : UInt8} (hd : d < 65 ∨ 122 < d) : tolower c = d ↔ c = d := by
  unfold tolower
  have hc := c.toNat_lt
  rw [← UInt8.toNat_inj, ← UInt8.toNat_inj]
  simp only [UInt8.lt_iff_toNat_lt, UInt8.le_iff_toNat_le, UInt8.reduceToNat] at hd ⊢
  split_ifs with h
  · rw [UInt8.toNat_add]
    have : (32 : UInt8).toNat = 32 := rfl
    omega
  · rfl

theorem mem_tolower {d : UInt8} (hd : d < 65 ∨ 122 < d) : d ∈ s.map tolower ↔ d ∈ s := by
  rw [List.mem_map]
  constructor
  · rintro ⟨c, hc, he⟩
    rwa [← (tolower_eq hd).mp he]
  · intro h
    exact ⟨d, h, (tolower_eq hd).mpr rfl⟩

theorem map_tolower_eq (h : ∀ d ∈ t, d < 65 ∨ 122 < d) : s.map tolower = t ↔ s = t := by
  induction s generalizing t with
  | nil => rfl
  | cons c s ih =>
    cases t with
    | nil => simp
    | cons d t =>
      rw [List.forall_mem_cons] at h
      rw [List.map_cons, List.cons_eq_cons, List.cons_eq_cons, tolower_eq h.1, ih h.2]

theorem inAuthority_tolower : inAuthority (tolower c) = inAuthority c := by
  unfold inAuthority
  rw [show decide (tolower c ≠ 47) = decide (c ≠ 47) by
      rw [decide_eq_decide, ne_eq, ne_eq, tolower_eq (by decide)],
    show decide (tolower c ≠ 63) = decide (c ≠ 63) by
      rw [decide_eq_decide, ne_eq, ne_eq, tolower_eq (by decide)],
    show decide (tolower c ≠ 35) = decide (c ≠ 35) by
      rw [decide_eq_decide, ne_eq, ne_eq, tolower_eq (by decide)]]

theorem takeWhile_tolower (hp : ∀ c, p (tolower c) = p c) :
    (s.map tolower).takeWhile p = (s.takeWhile p).map tolower := by
  rw [List.takeWhile_map]
  congr 2
  funext c
  exact hp c

theorem dropWhile_tolower (hp : ∀ c, p (tolower c) = p c) :
    (s.map tolower).dropWhile p = (s.dropWhile p).map tolower := by
  rw [List.dropWhile_map]
  congr 2
  funext c
  exact hp c

/-- A text that stops a scan for `p` at once. -/
def Stops (p : UInt8 → Bool) (rest : Chars) : Prop := ∀ c ∈ rest.head?, p c = false

theorem stops_dropWhile : Stops p (s.dropWhile p) := by
  intro c hc
  have := List.head?_dropWhile_not p s
  rw [Option.mem_def.mp hc] at this
  simpa using this

/-- Whether a text starts with characters in `p` is not decided by what stops them. -/
theorem prefix_append_iff (ht : ∀ c ∈ t, p c = true) (hr : Stops p rest) :
    t <+: s ++ rest ↔ t <+: s := by
  refine ⟨fun h => ?_, fun h => h.trans (List.prefix_append s rest)⟩
  rcases le_total t.length s.length with hl | hl
  · exact List.prefix_of_prefix_length_le h (List.prefix_append s rest) hl
  · obtain ⟨u, rfl⟩ := List.prefix_of_prefix_length_le (List.prefix_append s rest) h hl
    obtain ⟨v, hv⟩ := h
    rw [List.append_assoc, List.append_cancel_left_eq] at hv
    cases u with
    | nil => exact ⟨[], by rw [List.append_nil, List.append_nil]⟩
    | cons c u =>
      have hstop := hr c (by rw [← hv]; rfl)
      rw [ht c (by simp)] at hstop
      simp at hstop

end Text

/-! ### The authority -/

section Authority

variable {a h x y t rest : Chars}

theorem skipUser_eq : skipUser a h =
    if 64 ∈ a then (a.reverse.takeWhile (· ≠ 64)).reverse else h := by
  induction a generalizing h with
  | nil => rfl
  | cons c a ih =>
    show skipUser a (if c = 64 then a else h) = _
    rw [ih, List.reverse_cons]
    by_cases ha : 64 ∈ a
    · rw [if_pos ha, if_pos (List.mem_cons_of_mem c ha), List.takeWhile_append, if_neg]
      intro hlen
      have hall := List.takeWhile_eq_self_iff.mp
        (List.IsPrefix.eq_of_length (List.takeWhile_prefix _) hlen) 64 (List.mem_reverse.mpr ha)
      simp at hall
    · rw [if_neg ha]
      by_cases hc : c = 64
      · have hself : a.reverse.takeWhile (fun c => decide (c ≠ 64)) = a.reverse :=
          List.takeWhile_eq_self_iff.mpr fun d hd => by
            simp only [decide_eq_true_eq]
            rintro rfl
            exact ha (List.mem_reverse.mp hd)
        rw [if_pos hc, if_pos (List.mem_cons.mpr (Or.inl hc.symm)), List.takeWhile_append, hself,
          if_pos rfl, hc]
        simp
      · rw [if_neg hc, if_neg]
        intro h
        rcases List.mem_cons.mp h with h | h
        · exact hc h.symm
        · exact ha h

theorem skipUser_self : skipUser a a = afterUser a := skipUser_eq

theorem afterUser_eq : afterUser a = hostText a ++ portText a :=
  (List.takeWhile_append_dropWhile).symm

theorem afterUser_of_not_mem (h : 64 ∉ a) : afterUser a = a := if_neg h

theorem hostText_no_colon : 58 ∉ hostText a := by
  intro h
  have := List.mem_takeWhile_imp h
  simp at this

/-- Characters that the scan for a shard looks at. -/
def inShard (c : UInt8) : Bool := c = 112 || c = 80 || isDigit c || c = 45

theorem takeWhile_append_stop {p : UInt8 → Bool} (hr : Stops p rest) :
    (h ++ rest).takeWhile p = h.takeWhile p := by
  have hnil : rest.takeWhile p = [] := by
    cases rest with
    | nil => rfl
    | cons c rest => exact List.takeWhile_cons_of_neg (by simp [hr c rfl])
  rw [List.takeWhile_append, hnil, List.append_nil]
  split_ifs with hl
  · exact (List.IsPrefix.eq_of_length (List.takeWhile_prefix p) hl).symm
  · rfl

theorem dropWhile_append_stop {p : UInt8 → Bool} (hr : Stops p rest) :
    (h ++ rest).dropWhile p = h.dropWhile p ++ rest := by
  have hself : rest.dropWhile p = rest := by
    cases rest with
    | nil => rfl
    | cons c rest => exact List.dropWhile_cons_of_neg (by simp [hr c rfl])
  rw [List.dropWhile_append, hself]
  split_ifs with hl
  · rw [List.isEmpty_iff.mp hl, List.nil_append]
  · rfl

theorem Stops.mono {p q : UInt8 → Bool} (hr : Stops p rest) (h : ∀ c, p c = false → q c = false) :
    Stops q rest := fun c hc => h c (hr c hc)

theorem shard_cons_digits {c : UInt8} (hc : c = 112 ∨ c = 80) : shard (c :: h) =
    if h.takeWhile isDigit = [] then none
    else
      match h.dropWhile isDigit with
      | [] => none
      | d :: h => if d = 45 then some h else none := if_pos hc

theorem shard_cons_host {c : UInt8} (hc : ¬ (c = 112 ∨ c = 80)) : shard (c :: h) = some (c :: h) :=
  if_neg hc

/-- The shard is over before a character that it does not look at. -/
theorem shard_append (hr : Stops inShard rest) : shard (h ++ rest) = (shard h).map (· ++ rest) := by
  have hhead : ∀ c ∈ rest.head?, ¬ (c = 112 ∨ c = 80) ∧ c ≠ 45 := by
    intro c hc
    have := hr c hc
    unfold inShard at this
    simp only [Bool.or_eq_false_iff, decide_eq_false_iff_not] at this
    exact ⟨fun h => h.elim this.1.1.1 this.1.1.2, this.2⟩
  have hdigits : Stops isDigit rest := hr.mono fun c hc => by
    unfold inShard at hc
    simp only [Bool.or_eq_false_iff] at hc
    exact hc.1.2
  cases h with
  | nil =>
    cases rest with
    | nil => rfl
    | cons c rest => exact shard_cons_host (hhead c rfl).1
  | cons c h =>
    rw [List.cons_append]
    by_cases hc : c = 112 ∨ c = 80
    · rw [shard_cons_digits hc, shard_cons_digits hc, takeWhile_append_stop hdigits,
        dropWhile_append_stop hdigits]
      split_ifs with hd
      · rfl
      · cases h.dropWhile isDigit with
        | cons d h =>
          rw [List.cons_append]
          dsimp only
          split_ifs <;> rfl
        | nil =>
          cases rest with
          | nil => rfl
          | cons c rest => exact if_neg (hhead c rfl).2
    · rw [shard_cons_host hc, shard_cons_host hc]
      rfl

/-- What is passed over has no `@` and no colon. -/
theorem shard_prefix (hs : shard h = some x) : ∃ pre, h = pre ++ x ∧ 64 ∉ pre ∧ 58 ∉ pre := by
  cases h with
  | nil =>
    obtain rfl := Option.some.inj hs
    exact ⟨[], rfl, by simp, by simp⟩
  | cons c h =>
    by_cases hc : c = 112 ∨ c = 80
    · rw [shard_cons_digits hc] at hs
      have hsplit := (List.takeWhile_append_dropWhile (p := isDigit) (l := h)).symm
      split_ifs at hs with hd
      cases hdrop : h.dropWhile isDigit with
      | nil =>
        rw [hdrop] at hs
        simp at hs
      | cons d h' =>
        rw [hdrop] at hs hsplit
        dsimp only at hs
        split_ifs at hs with h45
        obtain rfl := Option.some.inj hs
        have hdigit : ∀ e ∈ h.takeWhile isDigit, isDigit e = true :=
          fun _ he => List.mem_takeWhile_imp he
        refine ⟨c :: h.takeWhile isDigit ++ [d], ?_, ?_, ?_⟩
        · rw [List.append_assoc, List.cons_append]
          exact congrArg (c :: ·) hsplit
        all_goals
          intro hm
          rcases List.mem_append.mp hm with hm | hm
          · rcases List.mem_cons.mp hm with rfl | hm
            · revert hc
              decide
            · exact absurd (hdigit _ hm) (by decide)
          · obtain rfl := List.mem_singleton.mp hm
            exact absurd h45 (by decide)
    · rw [shard_cons_host hc] at hs
      obtain rfl := Option.some.inj hs
      exact ⟨[], rfl, by simp, by simp⟩

/-! ### The C side by host and port -/

theorem startsCase_iff {lit : String} : startsCase h lit = true ↔ cstr lit <+: h.map tolower :=
  List.isPrefixOf_iff_prefix

theorem starts_iff {lit : String} : starts h lit = true ↔ cstr lit <+: h :=
  List.isPrefixOf_iff_prefix

theorem davPort_iff {legacy : String} (hl : (cstr legacy).length = 5) :
    davPort (x ++ rest) rest legacy = true ↔ x = [] ∨ x = cstr ":443" ∨ x = cstr legacy := by
  have hport : ∀ {lit : String}, cstr lit <+: x ++ rest → x.length = (cstr lit).length →
      x = cstr lit := by
    intro lit hp hlen
    have := List.prefix_of_prefix_length_le hp (List.prefix_append x rest) hlen.ge
    exact (this.eq_of_length hlen.symm).symm
  unfold davPort
  simp only [Bool.or_eq_true, Bool.and_eq_true, decide_eq_true_eq, starts_iff, List.length_append]
  constructor
  · rintro ((h | ⟨hlen, hp⟩) | ⟨hlen, hp⟩)
    · exact Or.inl (List.length_eq_zero_iff.mp (by omega))
    · exact Or.inr (Or.inl (hport hp (by rw [show (cstr ":443").length = 4 from rfl]; omega)))
    · exact Or.inr (Or.inr (hport hp (by omega)))
  · rintro (rfl | rfl | rfl)
    · exact Or.inl (Or.inl (by simp))
    · exact Or.inl (Or.inr ⟨by rw [show (cstr ":443").length = 4 from rfl]; omega,
        List.prefix_append _ _⟩)
    · exact Or.inr ⟨by omega, List.prefix_append _ _⟩

/-- The characters of a host. -/
def inHost (c : UInt8) : Bool := c ≠ 58 && inAuthority c

theorem stops_portText (hr : Stops inAuthority rest) : Stops inHost (portText a ++ rest) := by
  cases hp : portText a with
  | nil => exact hr.mono fun c hc => by simp [inHost, hc]
  | cons d port =>
    have hd : (fun c : UInt8 => decide (c ≠ 58)) d = false :=
      stops_dropWhile (p := fun c => decide (c ≠ 58)) (s := afterUser a) d
        (by rw [show List.dropWhile _ (afterUser a) = d :: port from hp]; rfl)
    intro c hc
    obtain rfl := Option.some.inj hc
    simp only [inHost, hd, Bool.false_and]

theorem inShard_inHost {c : UInt8} (hc : inHost c = false) : inShard c = false := by
  have h : c = 58 ∨ c = 47 ∨ c = 63 ∨ c = 35 := by
    by_contra h
    simp only [not_or] at h
    simp [inHost, inAuthority, h] at hc
  rcases h with rfl | rfl | rfl | rfl <;> decide

theorem stops_tolower {p : UInt8 → Bool} (hp : ∀ c, p (tolower c) = p c) (hr : Stops p rest) :
    Stops p (rest.map tolower) := by
  intro c hc
  cases rest with
  | nil => simp at hc
  | cons d rest =>
    obtain rfl := Option.some.inj hc
    rw [hp]
    exact hr d rfl

theorem inHost_tolower (c : UInt8) : inHost (tolower c) = inHost c := by
  unfold inHost
  rw [inAuthority_tolower, show decide (tolower c ≠ 58) = decide (c ≠ 58) by
    rw [decide_eq_decide, ne_eq, ne_eq, tolower_eq (by decide)]]

/-- A host literal and a port, of the text from the host on. -/
theorem dav_literal (lit legacy : String) {port : Chars} (hlit : (cstr lit).all inHost = true)
    (hl : (cstr legacy).length = 5) (h58 : (cstr legacy).head? = some 58) (hx : 58 ∉ x)
    (hstop : Stops inHost (port ++ rest)) :
    startsCase (x ++ (port ++ rest)) lit = true ∧
      davPort ((x ++ (port ++ rest)).drop (cstr lit).length) rest legacy = true ↔
    x.map tolower = cstr lit ∧ (port = [] ∨ port = cstr ":443" ∨ port = cstr legacy) := by
  rw [startsCase_iff, List.map_append, prefix_append_iff (List.all_eq_true.mp hlit)
    (stops_tolower inHost_tolower hstop)]
  constructor
  · rintro ⟨hp, hport⟩
    have hlen : (cstr lit).length ≤ x.length := by
      have := hp.length_le
      rwa [List.length_map] at this
    rw [List.drop_append_of_le_length hlen, ← List.append_assoc, davPort_iff hl] at hport
    -- what is left of the host would start with the colon of the port
    have hdrop : x.drop (cstr lit).length = [] := by
      cases hd : x.drop (cstr lit).length with
      | nil => rfl
      | cons c y =>
        rw [hd] at hport
        have hc : c = 58 := by
          rcases hport with h | h | h
          · simp at h
          · have := congrArg List.head? h
            exact Option.some.inj this
          · have := congrArg List.head? h
            rw [h58] at this
            exact Option.some.inj this
        have : c ∈ x := List.mem_of_mem_drop (by rw [hd]; exact List.mem_cons_self)
        rw [hc] at this
        exact (hx this).elim
    rw [hdrop, List.nil_append] at hport
    have heq : x.length = (cstr lit).length := le_antisymm (List.drop_eq_nil_iff.mp hdrop) hlen
    exact ⟨(hp.eq_of_length (by rw [List.length_map, heq])).symm, hport⟩
  · rintro ⟨he, hport⟩
    have hlen : (cstr lit).length = x.length := by rw [← he, List.length_map]
    refine ⟨he ▸ List.prefix_rfl, ?_⟩
    rw [hlen, List.drop_left, davPort_iff hl]
    exact hport

/-- What `gsa_dav_url` accepts, by host and port. -/
theorem gsaDavUrl_iff {url : Chars} (hs : startsCase url "https://" = true) :
    gsaDavUrl url = true ↔ ∃ x, shard (hostText (authorityOf url)) = some x ∧
      (x.map tolower = cstr "caldav.icloud.com" ∧ (portText (authorityOf url) = [] ∨
          portText (authorityOf url) = cstr ":443" ∨ portText (authorityOf url) = cstr ":8443") ∨
        x.map tolower = cstr "contacts.icloud.com" ∧ (portText (authorityOf url) = [] ∨
          portText (authorityOf url) = cstr ":443" ∨ portText (authorityOf url) = cstr ":8843")) := by
  have hstop : Stops inHost (portText (authorityOf url) ++ restOf url) :=
    stops_portText stops_dropWhile
  have hshard : shard (skipUser (authorityOf url) (authorityOf url) ++ restOf url) =
      (shard (hostText (authorityOf url))).map
        (· ++ (portText (authorityOf url) ++ restOf url)) := by
    rw [skipUser_self, afterUser_eq, List.append_assoc]
    exact shard_append (hstop.mono fun c => inShard_inHost)
  unfold gsaDavUrl
  rw [hs, Bool.true_and]
  show (match shard (skipUser (authorityOf url) (authorityOf url) ++ restOf url) with
    | none => false
    | some h =>
      if startsCase h "caldav.icloud.com" then davPort (h.drop 17) (restOf url) ":8443"
      else startsCase h "contacts.icloud.com" && davPort (h.drop 19) (restOf url) ":8843") = true ↔ _
  rw [hshard]
  cases hx : shard (hostText (authorityOf url)) with
  | none => simp
  | some x =>
    have hcolon : 58 ∉ x := by
      obtain ⟨pre, hpre, -⟩ := shard_prefix hx
      intro hm
      refine hostText_no_colon (a := authorityOf url) ?_
      rw [hpre]
      exact List.mem_append_right pre hm
    have hcal := dav_literal "caldav.icloud.com" ":8443" (by decide)
      rfl rfl hcolon hstop
    have hcon := dav_literal "contacts.icloud.com" ":8843" (by decide)
      rfl rfl hcolon hstop
    rw [Option.map_some]
    dsimp only
    constructor
    · intro h
      refine ⟨x, rfl, ?_⟩
      split_ifs at h with hc
      · exact Or.inl (hcal.mp ⟨hc, h⟩)
      · exact Or.inr (hcon.mp ((Bool.and_eq_true _ _).mp h))
    · rintro ⟨y, hy, h⟩
      obtain rfl := Option.some.inj hy
      rcases h with h | h
      · obtain ⟨h1, h2⟩ := hcal.mpr h
        rw [if_pos h1]
        exact h2
      · have hne : ¬ startsCase (x ++ (portText (authorityOf url) ++ restOf url))
            "caldav.icloud.com" = true := by
          rw [startsCase_iff, List.map_append, prefix_append_iff
            (p := inHost) (List.all_eq_true.mp (by decide)) (stops_tolower inHost_tolower hstop), h.1]
          decide
        rw [if_neg hne, Bool.and_eq_true]
        exact hcon.mpr h

/-- A literal with the whole authority and its slash. -/
theorem startsCase_literal {url : Chars} {lit authority : String}
    (hlit : cstr lit = cstr "https://" ++ (cstr authority ++ [47]))
    (ha : (cstr authority).all inAuthority = true) : startsCase url lit = true ↔
      startsCase url "https://" = true ∧ (authorityOf url).map tolower = cstr authority ∧
        (restOf url).head? = some 47 := by
  have hall : ∀ c ∈ cstr authority, inAuthority c = true := List.all_eq_true.mp ha
  have hsplit : (url.map tolower).drop 8 =
      (authorityOf url).map tolower ++ (restOf url).map tolower := by
    rw [← List.map_append, authorityOf, restOf, List.takeWhile_append_dropWhile, List.map_drop]
  have hrest : Stops inAuthority ((restOf url).map tolower) :=
    stops_tolower (fun _ => inAuthority_tolower) stops_dropWhile
  rw [startsCase_iff, startsCase_iff, hlit]
  constructor
  · rintro ⟨u, hu⟩
    rw [List.append_assoc] at hu
    refine ⟨⟨_, hu⟩, ?_⟩
    have hdrop : cstr authority ++ (47 :: u) =
        (authorityOf url).map tolower ++ (restOf url).map tolower := by
      rw [← hsplit, ← hu, List.append_assoc (cstr authority)]
      exact (@List.drop_left _ (cstr "https://") _).symm
    -- both sides are cut at their first delimiter
    have htake := congrArg (List.takeWhile inAuthority) hdrop
    rw [takeWhile_append_stop (fun c hc => by obtain rfl := Option.some.inj hc; decide),
      takeWhile_append_stop hrest, List.takeWhile_eq_self_iff.mpr hall,
      takeWhile_tolower (fun _ => inAuthority_tolower), authorityOf,
      List.takeWhile_eq_self_iff.mpr fun c hc => List.mem_takeWhile_imp hc] at htake
    rw [authorityOf, htake, List.append_cancel_left_eq] at hdrop
    refine ⟨htake.symm, ?_⟩
    cases hr : restOf url with
    | nil =>
      rw [hr] at hdrop
      simp at hdrop
    | cons c r =>
      rw [hr, List.map_cons, List.cons_eq_cons] at hdrop
      rw [(tolower_eq (by decide)).mp hdrop.1.symm]
      rfl
  · rintro ⟨⟨v, hv⟩, ha, hr⟩
    cases hrest : restOf url with
    | nil =>
      rw [hrest] at hr
      simp at hr
    | cons c r =>
      rw [hrest] at hr
      obtain rfl := Option.some.inj hr
      refine ⟨r.map tolower, ?_⟩
      have hdrop : v = (url.map tolower).drop 8 := by
        rw [← hv]
        exact (@List.drop_left _ (cstr "https://") _).symm
      rw [← hv, hdrop, hsplit, ha, hrest]
      simp [tolower]

theorem afterUser_literal {authority : String} (h : a.map tolower = cstr authority)
    (h64 : 64 ∉ cstr authority) : 64 ∉ a ∧ afterUser a = a := by
  have : 64 ∉ a := fun hm => h64 (h ▸ (mem_tolower (by decide)).mpr hm)
  exact ⟨this, afterUser_of_not_mem this⟩

/-- The port of an authority that is a literal. -/
theorem portText_literal {authority port : String} (h : a.map tolower = cstr authority)
    (h64 : 64 ∉ cstr authority) (hp : (cstr authority).dropWhile (· ≠ 58) = cstr port)
    (hd : ∀ d ∈ cstr port, d < 65 ∨ 122 < d) : 64 ∉ a ∧ portText a = cstr port := by
  obtain ⟨h1, h2⟩ := afterUser_literal h h64
  refine ⟨h1, (map_tolower_eq hd).mp ?_⟩
  unfold portText
  rw [h2, ← hp, ← h]
  refine (dropWhile_tolower fun c => ?_).symm
  rw [decide_eq_decide, ne_eq, ne_eq, tolower_eq (by decide)]

theorem findmy_spelled {url : Chars} (h : findmyHost url = true) :
    64 ∉ authorityOf url ∧ (portText (authorityOf url) = [] ∨
      portText (authorityOf url) = cstr ":443") := by
  unfold findmyHost at h
  obtain ⟨-, h⟩ := (Bool.and_eq_true _ _).mp h
  have hstop : Stops inAuthority (restOf url) := stops_dropWhile
  have hsplit : url.drop 8 = authorityOf url ++ restOf url :=
    (List.takeWhile_append_dropWhile).symm
  rw [hsplit, shard_append (hstop.mono fun c hc => inShard_inHost (by simp [inHost, hc]))] at h
  cases hx : shard (authorityOf url) with
  | none =>
    rw [hx] at h
    simp at h
  | some x =>
    rw [hx, Option.map_some] at h
    dsimp only at h
    rw [Bool.and_eq_true, startsCase_iff, List.map_append, prefix_append_iff (p := inAuthority)
      (List.all_eq_true.mp (by decide)) (stops_tolower (fun _ => inAuthority_tolower) hstop)] at h
    obtain ⟨hp, h⟩ := h
    have hlen : 15 ≤ x.length := by
      have := hp.length_le
      rwa [List.length_map] at this
    obtain ⟨pre, hpre, h64, h58⟩ := shard_prefix hx
    have hin : ∀ c ∈ x.drop 15, inAuthority c = true := by
      intro c hc
      refine List.mem_takeWhile_imp (p := inAuthority) (l := url.drop 8) ?_
      show c ∈ authorityOf url
      rw [hpre]
      exact List.mem_append_right pre (List.mem_of_mem_drop hc)
    have hhost : (x.take 15).map tolower = cstr "fmip.icloud.com" := by
      rw [List.map_take]
      exact (List.prefix_iff_eq_take.mp hp).symm
    -- nothing but the port stands between the host and the slash
    have hslash : ∀ y : Chars, (∀ c ∈ y, inAuthority c = true) →
        (y ++ restOf url).head? = some 47 → y = [] := by
      intro y hy hhead
      cases y with
      | nil => rfl
      | cons c y =>
        obtain rfl := Option.some.inj hhead
        exact absurd (hy 47 List.mem_cons_self) (by decide)
    have hport : x.drop 15 = [] ∨ x.drop 15 = cstr ":443" := by
      rw [List.drop_append_of_le_length hlen] at h
      split_ifs at h with hstarts
      · rw [starts_iff, prefix_append_iff (p := inAuthority) (List.all_eq_true.mp (by decide)) hstop]
          at hstarts
        obtain ⟨z, hz⟩ := hstarts
        rw [← hz, List.append_assoc] at h
        have hznil := hslash z (fun c hc => hin c (hz ▸ List.mem_append_right _ hc))
          (of_decide_eq_true h)
        rw [← hz, hznil, List.append_nil]
        exact Or.inr rfl
      · exact Or.inl (hslash _ hin (of_decide_eq_true h))
    have htext : authorityOf url = (pre ++ x.take 15) ++ x.drop 15 := by
      rw [hpre, List.append_assoc, List.take_append_drop]
    have hclean : ∀ d : UInt8, d ∉ cstr "fmip.icloud.com" → (d < 65 ∨ 122 < d) → d ∉ x.take 15 :=
      fun d hd hlow hm => hd (hhost ▸ (mem_tolower hlow).mpr hm)
    have hnouser : 64 ∉ authorityOf url := by
      rw [htext]
      intro hm
      rcases List.mem_append.mp hm with hm | hm
      · rcases List.mem_append.mp hm with hm | hm
        · exact h64 hm
        · exact hclean 64 (by decide) (by decide) hm
      · rcases hport with hp | hp <;> rw [hp] at hm
        · simp at hm
        · exact absurd hm (by decide)
    refine ⟨hnouser, ?_⟩
    have hscan : portText (authorityOf url) = (x.drop 15).dropWhile (· ≠ 58) := by
      unfold portText
      rw [afterUser_of_not_mem hnouser, htext, List.dropWhile_append_of_pos]
      intro c hc
      simp only [decide_eq_true_eq]
      rintro rfl
      rcases List.mem_append.mp hc with hc | hc
      · exact h58 hc
      · exact hclean 58 (by decide) (by decide) hc
    rw [hscan]
    rcases hport with hp | hp <;> rw [hp]
    · exact Or.inl rfl
    · exact Or.inr (by decide)

theorem toNat_tolower (c : UInt8) :
    (tolower c).toNat = if 65 ≤ c.toNat ∧ c.toNat ≤ 90 then c.toNat + 32 else c.toNat := by
  have hc := c.toNat_lt
  unfold tolower
  simp only [UInt8.le_iff_toNat_le, UInt8.reduceToNat]
  split_ifs with h
  · rw [UInt8.toNat_add]
    have : (32 : UInt8).toNat = 32 := rfl
    omega
  · rfl

theorem isDecimal_toUInt16 {c : UInt8} : isDecimal (tolower c).toUInt16 = isDigit c := by
  unfold isDecimal isDigit
  rw [Bool.eq_iff_iff]
  simp only [Bool.and_eq_true, decide_eq_true_eq, UInt16.le_iff_toNat_le, UInt8.le_iff_toNat_le,
    UInt8.toNat_toUInt16, UInt8.reduceToNat, UInt16.reduceToNat, toNat_tolower]
  split_ifs <;> omega

theorem tolower_p {c : UInt8} : (tolower c).toUInt16 = 112 ↔ c = 112 ∨ c = 80 := by
  rw [← UInt16.toNat_inj, ← UInt8.toNat_inj, ← UInt8.toNat_inj, UInt8.toNat_toUInt16, toNat_tolower]
  simp only [UInt8.reduceToNat, UInt16.reduceToNat]
  split_ifs <;> omega

/-- The pattern's group takes what the C side passes over. -/
theorem davRest_eq : davRest (lowercaseAscii (ascii h)) =
    (shard h).map fun x => lowercaseAscii (ascii x) := by
  cases h with
  | nil => rfl
  | cons c h =>
    have hlow : ∀ s : Chars, lowercaseAscii (ascii s) = s.map fun c => (tolower c).toUInt16 := by
      intro s
      rw [lowercaseAscii_ascii, ascii, List.map_map]
      rfl
    have hdigits : (isDecimal ∘ fun c : UInt8 => (tolower c).toUInt16) = isDigit :=
      funext fun _ => isDecimal_toUInt16
    rw [hlow, List.map_cons]
    unfold davRest
    dsimp only
    by_cases hc : c = 112 ∨ c = 80
    · rw [if_pos (tolower_p.mpr hc), shard_cons_digits hc, List.takeWhile_map, List.dropWhile_map,
        hdigits]
      by_cases hd : h.takeWhile isDigit = []
      · rw [if_pos hd, if_pos (by rw [hd]; rfl)]
        rfl
      · rw [if_neg hd, if_neg (by rwa [List.map_eq_nil_iff])]
        cases h.dropWhile isDigit with
        | nil => rfl
        | cons d r =>
          have h45 : (tolower d).toUInt16 = 45 ↔ d = 45 := by
            rw [← tolower_eq (c := d) (d := 45) (by decide)]
            exact ⟨fun h => toUInt16_inj h, fun h => congrArg UInt8.toUInt16 h⟩
          rw [List.map_cons]
          dsimp only
          by_cases hd45 : d = 45
          · rw [if_pos (h45.mpr hd45), if_pos hd45, Option.map_some, hlow]
          · rw [if_neg fun h => hd45 (h45.mp h), if_neg hd45]
            rfl
    · rw [if_neg fun h => hc (tolower_p.mp h), shard_cons_host hc, Option.map_some, hlow]
      rfl

theorem lowercase_eq_str (lit : String) (hlit : str lit = ascii (cstr lit)) :
    lowercaseAscii (ascii x) = str lit ↔ x.map tolower = cstr lit := by
  rw [lowercaseAscii_ascii, hlit]
  exact ⟨ascii_inj, congrArg ascii⟩

theorem davHost_iff : davHost (lowercaseAscii (ascii h)) = true ↔ ∃ x, shard h = some x ∧
    (x.map tolower = cstr "caldav.icloud.com" ∨ x.map tolower = cstr "contacts.icloud.com") := by
  have hcal := fun x => lowercase_eq_str (x := x) "caldav.icloud.com" (by decide)
  have hcon := fun x => lowercase_eq_str (x := x) "contacts.icloud.com" (by decide)
  unfold davHost
  rw [davRest_eq, Bool.or_eq_true, decide_eq_true_eq, decide_eq_true_eq]
  simp only [Option.map_eq_some_iff, hcal, hcon]
  constructor
  · rintro (⟨x, hx, he⟩ | ⟨x, hx, he⟩)
    · exact ⟨x, hx, Or.inl he⟩
    · exact ⟨x, hx, Or.inr he⟩
  · rintro ⟨x, hx, he | he⟩
    · exact Or.inl ⟨x, hx, he⟩
    · exact Or.inr ⟨x, hx, he⟩

/-- The host's end tells its legacy port. -/
theorem isSuffixOf_host (hx : shard h = some x) (h' : x.map tolower = cstr "caldav.icloud.com" ∨
    x.map tolower = cstr "contacts.icloud.com") :
    (str "caldav.icloud.com").isSuffixOf (lowercaseAscii (ascii h)) = true ↔
      x.map tolower = cstr "caldav.icloud.com" := by
  obtain ⟨pre, rfl, -, -⟩ := shard_prefix hx
  have hsuffix : lowercaseAscii (ascii x) <:+ lowercaseAscii (ascii (pre ++ x)) := by
    rw [lowercaseAscii_ascii, lowercaseAscii_ascii, List.map_append, ascii, ascii, List.map_append]
    exact List.suffix_append _ _
  have hcal := lowercase_eq_str (x := x) "caldav.icloud.com" (by decide)
  have hcon := lowercase_eq_str (x := x) "contacts.icloud.com" (by decide)
  rw [List.isSuffixOf_iff_suffix]
  constructor
  · intro h
    rcases h' with h' | h'
    · exact h'
    · rw [hcon.mpr h'] at hsuffix
      have := List.suffix_of_suffix_length_le h hsuffix (by decide)
      exact absurd this (by decide)
  · intro h
    rw [hcal.mpr h] at hsuffix
    exact hsuffix

end Authority

/-! ### Both sides -/

section Reserved

variable {N : Reader} {S : Services} {url : Chars} {u : NSURL}

/-- The literals of the login services, each with its authority and the text of its port. -/
def loginLiterals : List (String × String × String) :=
  [("https://gsa.apple.com/", "gsa.apple.com", ""),
   ("https://setup.icloud.com/", "setup.icloud.com", ""),
   ("https://profile.ess.apple.com/", "profile.ess.apple.com", ""),
   ("https://service.ess.apple.com/", "service.ess.apple.com", ""),
   ("https://profile.ess.apple.com:443/", "profile.ess.apple.com:443", ":443"),
   ("https://service.ess.apple.com:443/", "service.ess.apple.com:443", ":443"),
   ("https://gsa.apple.com:443/", "gsa.apple.com:443", ":443"),
   ("https://setup.icloud.com:443/", "setup.icloud.com:443", ":443")]

theorem gsaReservedUrl_iff : gsaReservedUrl url = true ↔
    findmyHost url = true ∨ gsaDavUrl url = true ∨ ∃ p ∈ loginLiterals, startsCase url p.1 = true := by
  simp [gsaReservedUrl, loginLiterals, or_assoc]

/-- A literal is `https://`, an authority without a user and a slash, and its port is 443 or left out. -/
theorem loginLiterals_read : loginLiterals.all (fun p =>
    cstr p.1 = cstr "https://" ++ (cstr p.2.1 ++ [47]) ∧ (cstr p.2.1).all inAuthority = true ∧
      64 ∉ cstr p.2.1 ∧ (cstr p.2.1).dropWhile (· ≠ 58) = cstr p.2.2 ∧
      (p.2.2 = "" ∨ p.2.2 = ":443")) = true := by
  decide

theorem spelled_of_literal {p : String × String × String} (hp : p ∈ loginLiterals)
    (hs : startsCase url p.1 = true) : Spelled url := by
  have hread := List.all_eq_true.mp loginLiterals_read p hp
  obtain ⟨hlit, ha, h64, hport, hcases⟩ := of_decide_eq_true hread
  obtain ⟨-, hlow, -⟩ := (startsCase_literal hlit ha).mp hs
  have hd : ∀ d ∈ cstr p.2.2, d < 65 ∨ 122 < d := by
    rcases hcases with he | he <;> rw [he]
    · exact fun d hd => absurd hd List.not_mem_nil
    · have : (cstr ":443").all (fun d => d < 65 ∨ 122 < d) = true := by decide
      simpa only [List.all_eq_true, decide_eq_true_eq] using this
  obtain ⟨hno, htext⟩ := portText_literal hlow h64 hport hd
  refine Or.inr ⟨hno, ?_⟩
  rw [htext]
  rcases hcases with he | he <;> rw [he]
  · exact Or.inl rfl
  · exact Or.inr rfl

/-- The C side takes no other spelling. -/
theorem spelled_of_reserved (h : gsaReservedUrl url = true) : Spelled url := by
  rcases gsaReservedUrl_iff.mp h with h | h | ⟨p, hp, h⟩
  · exact Or.inr (findmy_spelled h)
  · have hs : startsCase url "https://" = true := by
      unfold gsaDavUrl at h
      exact ((Bool.and_eq_true _ _).mp h).1
    obtain ⟨x, hx, h⟩ := (gsaDavUrl_iff hs).mp h
    have hsuffix := isSuffixOf_host hx (h.imp And.left And.left)
    refine Or.inl ⟨davHost_iff.mpr ⟨x, hx, h.imp And.left And.left⟩, ?_⟩
    unfold hostOf
    rcases h with ⟨hc, hp⟩ | ⟨hc, hp⟩
    · rwa [if_pos (hsuffix.mpr hc)]
    · have hne : ¬ x.map tolower = cstr "caldav.icloud.com" := by
        rw [hc]
        decide
      rwa [if_neg fun h => hne (hsuffix.mp h)]
  · exact spelled_of_literal hp h

/-- The hosts of `AQGSAProtocol`. -/
def gsaHosts : List String := ["setup.icloud.com", "profile.ess.apple.com", "service.ess.apple.com"]

theorem setup_host (h : aqSetupUrl u = true) :
    u.isHttps = true ∧ u.lowerHost = some (str "setup.icloud.com") := by
  unfold aqSetupUrl at h
  simp only [Bool.and_eq_true, decide_eq_true_eq] at h
  exact ⟨h.1.1.1.1, h.1.1.1.2⟩

theorem gsaTakes_host (h : GsaTakes S u) :
    u.isHttps = true ∧ (∃ host ∈ gsaHosts, u.lowerHost = some (str host)) ∧ u.path ≠ [] := by
  rcases h with h | h | ⟨req, credentials, rfl, h⟩
  · unfold aqLoginUrl at h
    obtain ⟨hsetup, hpath⟩ := (Bool.and_eq_true _ _).mp h
    refine ⟨(setup_host hsetup).1, ⟨_, by simp [gsaHosts], (setup_host hsetup).2⟩, fun hnil => ?_⟩
    rw [hnil] at hpath
    exact absurd hpath (by decide)
  · unfold aqIdsUrl at h
    simp only [Bool.and_eq_true, Bool.or_eq_true, decide_eq_true_eq] at h
    refine ⟨h.1.1.1.1.1.1.1, ?_, fun hnil => ?_⟩
    · rcases h.1.1.1.1.1.1.2 with hh | hh
      · exact ⟨_, by simp [gsaHosts], hh⟩
      · exact ⟨_, by simp [gsaHosts], hh⟩
    · have := h.2
      rw [hnil] at this
      exact absurd this (by decide)
  · unfold aqSettingsRequest at h
    simp only [Bool.and_eq_true, decide_eq_true_eq] at h
    obtain ⟨⟨⟨hsetup, hpath⟩, -⟩, -⟩ := h
    refine ⟨(setup_host hsetup).1, ⟨_, by simp [gsaHosts], (setup_host hsetup).2⟩, fun hnil => ?_⟩
    rw [hnil] at hpath
    exact absurd hpath (by decide)

theorem read_lowerHost : (N.read url).lowerHost =
    (((afterScheme url).map (List.takeWhile inAuthority)).map fun a => ascii (hostText a)).map
      lowercaseAscii := rfl

/-- The components of an `https` URL with a host, from its text. -/
theorem read_https {host : NSString} (hs : (N.read url).isHttps = true)
    (hh : (N.read url).lowerHost = some host) : startsCase url "https://" = true ∧
      host = hostOf url ∧
      (N.read url).path = N.path ((restOf url).takeWhile fun c => c ≠ 63 && c ≠ 35) := by
  have hscheme : (url.takeWhile (· ≠ 58)).map tolower = cstr "https" := by
    refine (lowercase_eq_str _ (by decide)).mp ?_
    exact Option.some.inj (of_decide_eq_true hs)
  cases ht : afterScheme url with
  | none =>
    rw [read_lowerHost, ht] at hh
    simp at hh
  | some t =>
    have hdrop : url.dropWhile (· ≠ 58) = 58 :: 47 :: 47 :: t := by
      unfold afterScheme at ht
      split at ht
      next c d e t' heq =>
        split_ifs at ht with hc
        obtain ⟨rfl, rfl, rfl⟩ := hc
        rw [heq, Option.some.inj ht]
      next => simp at ht
    have hurl : url = url.takeWhile (· ≠ 58) ++ (58 :: 47 :: 47 :: t) := by
      conv_lhs => rw [← List.takeWhile_append_dropWhile (p := (· ≠ 58)) (l := url), hdrop]
    have hlen : (url.takeWhile (· ≠ 58)).length = 5 := by
      have := congrArg List.length hscheme
      rwa [List.length_map] at this
    have h8 : url.drop 8 = t := by
      conv_lhs => rw [hurl]
      rw [List.drop_append, hlen, List.drop_eq_nil_iff.mpr (by omega)]
      rfl
    refine ⟨?_, ?_, ?_⟩
    · rw [startsCase_iff]
      refine ⟨t.map tolower, ?_⟩
      conv_rhs => rw [hurl]
      rw [List.map_append, hscheme]
      rfl
    · rw [read_lowerHost, ht] at hh
      rw [hostOf, authorityOf, h8]
      exact (Option.some.inj hh).symm
    · show N.path _ = _
      rw [ht, restOf, h8]
      rfl

/-- A slash stands between the authority and a path. -/
theorem slash_of_path (h : N.path ((restOf url).takeWhile fun c => c ≠ 63 && c ≠ 35) ≠ []) :
    (restOf url).head? = some 47 := by
  have hstop : Stops inAuthority (restOf url) := stops_dropWhile
  cases hr : restOf url with
  | nil =>
    rw [hr] at h
    exact (h N.path_nil).elim
  | cons c rest =>
    rw [hr] at h hstop
    have hc := hstop c rfl
    by_cases h47 : c = 47
    · rw [h47]
      rfl
    · refine (h ?_).elim
      rw [List.takeWhile_cons_of_neg, N.path_nil]
      unfold inAuthority at hc
      simpa [h47] using hc

/-- The C side takes the spellings it knows of what a protocol takes. -/
theorem reserved_of_spelled (ht : Taken S (N.read url)) (h : Spelled url) :
    gsaReservedUrl url = true := by
  rcases ht with ht | ht
  · obtain ⟨hs, ⟨host, hmem, hhost⟩, hpath⟩ := gsaTakes_host ht
    obtain ⟨hstarts, heq, hp⟩ := read_https hs hhost
    rw [hp] at hpath
    have hslash := slash_of_path hpath
    rcases h with ⟨hdav, -⟩ | ⟨hno, hport⟩
    · rw [← heq] at hdav
      have : ∀ host ∈ gsaHosts, davHost (str host) = false := by decide
      rw [this host hmem] at hdav
      simp at hdav
    -- without a user the authority is the host and the port
    have htext : authorityOf url = hostText (authorityOf url) ++ portText (authorityOf url) := by
      rw [← afterUser_eq, afterUser_of_not_mem hno]
    have hlit : ∀ host ∈ gsaHosts, str host = ascii (cstr host) := by decide
    have hlow := (lowercase_eq_str _ (hlit host hmem)).mp heq.symm
    obtain ⟨p, hp, hauth⟩ : ∃ p ∈ loginLiterals,
        cstr p.2.1 = cstr host ++ (portText (authorityOf url)).map tolower := by
      have hall : gsaHosts.all (fun host => [[], cstr ":443"].all fun port =>
          loginLiterals.any fun p => cstr p.2.1 = cstr host ++ port) = true := by decide
      have hany := List.all_eq_true.mp (List.all_eq_true.mp hall host hmem)
        ((portText (authorityOf url)).map tolower) ?_
      · obtain ⟨p, hp, he⟩ := List.any_eq_true.mp hany
        exact ⟨p, hp, of_decide_eq_true he⟩
      · rcases hport with hport | hport <;> rw [hport] <;> decide
    have hread := List.all_eq_true.mp loginLiterals_read p hp
    obtain ⟨hspell, ha, -⟩ := of_decide_eq_true hread
    refine gsaReservedUrl_iff.mpr (Or.inr (Or.inr ⟨p, hp, ?_⟩))
    refine (startsCase_literal hspell ha).mpr ⟨hstarts, ?_, hslash⟩
    rw [hauth, htext, List.map_append, hlow, ← htext]
  · unfold aqDavUrl at ht
    rw [Bool.and_eq_true, Bool.and_eq_true] at ht
    obtain ⟨⟨hs, -⟩, ht⟩ := ht
    cases hhost : (N.read url).lowerHost with
    | none =>
      rw [hhost] at ht
      simp at ht
    | some host =>
      rw [hhost] at ht
      obtain ⟨hstarts, rfl, -⟩ := read_https hs hhost
      have hdav := ((Bool.and_eq_true _ _).mp ht).2
      obtain ⟨x, hx, hc⟩ := davHost_iff.mp hdav
      have hsuffix : (str "caldav.icloud.com").isSuffixOf (hostOf url) = true ↔ _ :=
        isSuffixOf_host hx hc
      have hport := h.elim And.right fun h => h.2.imp id Or.inl
      have hgsa : gsaDavUrl url = true := by
        refine (gsaDavUrl_iff hstarts).mpr ⟨x, hx, ?_⟩
        rcases hc with hc | hc
        · rw [if_pos (hsuffix.mpr hc)] at hport
          exact Or.inl ⟨hc, hport⟩
        · have hne : ¬ x.map tolower = cstr "caldav.icloud.com" := by
            rw [hc]
            decide
          rw [if_neg fun h => hne (hsuffix.mp h)] at hport
          exact Or.inr ⟨hc, hport⟩
      exact gsaReservedUrl_iff.mpr (Or.inr (Or.inl hgsa))

/-- **The recognisers agree on a URL that a protocol takes exactly when its port is spelled as the C side
knows it.** -/
theorem reserved_iff (N : Reader) (S : Services) (url : Chars) (h : Taken S (N.read url)) :
    gsaReservedUrl url = true ↔ Spelled url :=
  ⟨spelled_of_reserved, reserved_of_spelled h⟩

/-- A reader that takes the texts as they are. -/
def plainReader : Reader where
  user := fun t => some (ascii t)
  password := fun _ => none
  path := ascii
  path_nil := rfl

def paddedPort : Chars := cstr "https://setup.icloud.com:0443/setup/login_or_create_account"

/-- A port with a leading zero: the protocol takes the URL, and the general rules see it. -/
theorem reserved_paddedPort : ¬ ∀ (N : Reader) (S : Services) (url : Chars),
    Taken S (N.read url) → gsaReservedUrl url = true := by
  intro h
  have htaken : Taken sampleServices (plainReader.read paddedPort) :=
    Or.inl (Or.inl (by decide))
  exact absurd (h plainReader sampleServices paddedPort htaken) (by decide)

theorem reserved_iff_port443 :
    gsaReservedUrl (cstr "https://Setup.iCloud.com:443/setup/iosbuddy/loginDelegates") = true ↔
      Spelled (cstr "https://Setup.iCloud.com:443/setup/iosbuddy/loginDelegates") :=
  reserved_iff plainReader sampleServices _ (Or.inl (Or.inl (by decide)))

end Reserved

end AquaTransport
