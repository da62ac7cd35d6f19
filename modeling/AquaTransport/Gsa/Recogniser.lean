import AquaTransport.Gsa.Reserved
import AquaTransport.Lib.Scan
import Mathlib.Order.CompletePartialOrder

/-!
# AquaTransport.Gsa.Recogniser — the URLs that `gsa_reserved_url` accepts

`Mem` has the recognisers as pointer programs: a pointer is the memory from it on, and there is
nothing to read past the terminator.  `Grammar` says which URLs they are to accept, as a language;
`Parts` is a URL by its generic syntax.
-/

namespace AquaTransport

open Scan

/-! ### Pointers -/

namespace Mem

/-- `strncasecmp` and `strncmp`, as `!f(p, literal, n)`; `f` folds the letters. -/
def compareN (f : UInt8 → UInt8) : Chars → Chars → ℕ → Option Bool
  | _, _, 0 => some true
  | [], _, _ + 1 => none
  | c :: p, literal, n + 1 =>
    if f c ≠ f (literal.headD 0) then some false
    else if c = 0 then some true
    else compareN f p literal.tail n

def strncasecmp (p : Chars) (literal : String) (n : ℕ) : Option Bool :=
  compareN tolower p (cstr literal) n

def strncmp (p : Chars) (literal : String) (n : ℕ) : Option Bool := compareN id p (cstr literal) n

/-- `h + strcspn(h, "/?#")`. -/
def strcspn : Chars → Option Chars
  | [] => none
  | c :: p => if c ≠ 0 ∧ inAuthority c = true then strcspn p else some (c :: p)

/-- `for (p = h; p < end; p++) if (*p == '@') h = p + 1`. -/
def skipUser (stop : Chars) : Chars → Chars → Chars
  | [], h => h
  | c :: p, h =>
    if stop.length < (c :: p).length then skipUser stop p (if c = 64 then p else h) else h

/-- `while (*h >= '0' && *h <= '9') h++`. -/
def skipDigits : Chars → Option Chars
  | [] => none
  | c :: p => if isDigit c then skipDigits p else some (c :: p)

/-- The shard at `h`: nothing where the caller returns 0. -/
def shard (h : Chars) : Option (Option Chars) := do
  let c ← h.head?
  if c = 112 ∨ c = 80 then
    let digits := h.tail
    let h ← skipDigits digits
    if h.length = digits.length then return none
    let d ← h.head?
    if d ≠ 45 then return none
    return some h.tail
  else return some h

/-- What `gsa_dav_url` returns of a host of `n` bytes. -/
def davPort (h : Chars) (n : ℕ) (stop : Chars) (legacy : String) : Option Bool := do
  let h := h.drop n
  if h.length = stop.length then return true
  if h.length = stop.length + 4 then
    if ← strncmp h ":443" 4 then return true
  if h.length = stop.length + 5 then strncmp h legacy 5 else return false

def gsaDavUrl (url : Chars) : Option Bool := do
  if !(← strncasecmp url "https://" 8) then return false
  let h := url.drop 8
  let stop ← strcspn h
  match ← shard (skipUser stop h h) with
  | none => return false
  | some h =>
    if ← strncasecmp h "caldav.icloud.com" 17 then davPort h 17 stop ":8443"
    else if ← strncasecmp h "contacts.icloud.com" 19 then davPort h 19 stop ":8843"
    else return false

def findmyHost (url : Chars) : Option Bool := do
  if !(← strncasecmp url "https://" 8) then return false
  match ← shard (url.drop 8) with
  | none => return false
  | some h =>
    if !(← strncasecmp h "fmip.icloud.com" 15) then return false
    let h := h.drop 15
    let h := if ← strncmp h ":443" 4 then h.drop 4 else h
    return (← h.head?) = 47

/-- The literals that `gsa_reserved_url` compares, with the counts that it passes. -/
def literals : List (String × ℕ) :=
  [("https://gsa.apple.com/", 22), ("https://setup.icloud.com/", 25),
    ("https://profile.ess.apple.com/", 30), ("https://service.ess.apple.com/", 30),
    ("https://profile.ess.apple.com:443/", 34), ("https://service.ess.apple.com:443/", 34),
    ("https://gsa.apple.com:443/", 26), ("https://setup.icloud.com:443/", 29)]

def gsaReservedUrl (url : Chars) : Option Bool := do
  if ← findmyHost url then return true
  if ← gsaDavUrl url then return true
  literals.anyM fun l => strncasecmp url l.1 l.2

end Mem

/-! ### The grammar -/

namespace Grammar

/-- A literal in any case. -/
def word (s : String) : Language UInt8 := fold tolower (cstr s)

def digits : Language UInt8 := {w | w ≠ [] ∧ w ∈ run isDigit}

/-- `(p[0-9]+-)?`. -/
def shardPrefix : Language UInt8 := 1 + word "p" * (digits * word "-")

def httpsPort : Language UInt8 := 1 + word ":443"

def loginNames : Language UInt8 :=
  word "gsa.apple.com" + word "setup.icloud.com" + word "profile.ess.apple.com" +
    word "service.ess.apple.com"

def findmyNames : Language UInt8 := shardPrefix * word "fmip.icloud.com"

def davNames (host : String) : Language UInt8 := shardPrefix * word host

/-- An authority of a DAV host, with whatever user. -/
def davAuthority (host legacy : String) : Language UInt8 :=
  upTo 64 (run inAuthority) * (davNames host * (httpsPort + word legacy))

def reservedUrl : Language UInt8 :=
  word "https://" * (loginNames * httpsPort * word "/" * ⊤ + findmyNames * httpsPort * word "/" * ⊤ +
    (davAuthority "caldav.icloud.com" ":8443" + davAuthority "contacts.icloud.com" ":8843") *
      halt inAuthority)

/-- The hosts of these URLs. -/
def reservedNames : Language UInt8 :=
  loginNames + findmyNames + davNames "caldav.icloud.com" + davNames "contacts.icloud.com"

end Grammar

/-- The characters of a registered name. -/
def inName (c : UInt8) : Bool := inAuthority c && c ≠ 64 && c ≠ 58 && c ≠ 91 && c ≠ 93

/-- A URL with an authority, by the generic syntax: `scheme://user@host:port` and the rest. -/
structure Parts where
  scheme : Chars
  user : Option Chars
  host : Chars
  port : Option Chars
  rest : Chars
  scheme_ok : ∀ c ∈ scheme, inAuthority c = true ∧ c ≠ 58
  user_ok : ∀ u ∈ user, ∀ c ∈ u, inAuthority c = true
  /-- A name, or an address in brackets. -/
  host_ok : (∀ c ∈ host, inName c = true) ∨
    ∃ t, host = 91 :: (t ++ [93]) ∧ ∀ c ∈ t, inAuthority c = true ∧ c ≠ 64
  port_ok : ∀ p ∈ port, ∀ c ∈ p, isDigit c = true
  rest_ok : Stops inAuthority rest

namespace Parts

def userText (u : Parts) : Chars := u.user.elim [] (· ++ [64])
def portText (u : Parts) : Chars := u.port.elim [] (58 :: ·)
def authority (u : Parts) : Chars := u.userText ++ (u.host ++ u.portText)
def text (u : Parts) : Chars := u.scheme ++ (cstr "://" ++ (u.authority ++ u.rest))

end Parts

/-! ### The grammar is what is accepted -/

section Accepted

open Grammar

variable {h x url : Chars} {L : Language UInt8}

theorem startsCase_word {lit : String} : startsCase url lit = true ↔ url ∈ word lit * ⊤ := by
  rw [startsCase_iff, word, mem_fold_mul]
  exact (and_iff_left trivial).symm

/-- A literal is compared, and the rest read behind it. -/
theorem mem_word_mul {lit : String} :
    url ∈ word lit * L ↔ startsCase url lit = true ∧ url.drop (cstr lit).length ∈ L := by
  rw [startsCase_iff, word, mem_fold_mul]

theorem word_append {lit a b : String} (h : cstr lit = cstr a ++ cstr b) :
    word lit = word a * word b := by
  rw [word, h, fold_append]
  rfl

/-- Text without letters. -/
def caseless (t : Chars) : Bool := t.all fun d => d < 65 || 122 < d

theorem map_tolower_caseless {t : Chars} (h : caseless t = true) : x.map tolower = t ↔ x = t :=
  map_tolower_eq fun d hd => by simpa using List.all_eq_true.mp h d hd

theorem mem_word_small {lit : String} (h : caseless (cstr lit) = true) :
    x ∈ word lit ↔ x = cstr lit := map_tolower_caseless h

theorem mem_dash : x ∈ word "-" ↔ x = [45] := mem_word_small (by decide)
theorem mem_slash : x ∈ word "/" ↔ x = [47] := mem_word_small (by decide)

theorem mem_p : x ∈ word "p" ↔ ∃ c, (c = 112 ∨ c = 80) ∧ x = [c] := by
  rw [word, mem_fold]
  constructor
  · intro h
    cases x with
    | nil => simp [cstr] at h
    | cons c x =>
      rw [show cstr "p" = [112] from rfl, List.map_cons, List.cons_eq_cons, List.map_eq_nil_iff] at h
      obtain ⟨hc, rfl⟩ := h
      exact ⟨c, tolower_p.mp (congrArg UInt8.toUInt16 hc), rfl⟩
  · rintro ⟨c, rfl | rfl, rfl⟩ <;> decide

/-- The texts of a shard. -/
theorem mem_shard : x ∈ shardPrefix ↔ x = [] ∨ ∃ c d, (c = 112 ∨ c = 80) ∧ d ≠ [] ∧
    (∀ e ∈ d, isDigit e = true) ∧ x = c :: (d ++ [45]) := by
  rw [shardPrefix, Language.mem_add, Language.mem_one]
  refine or_congr_right ?_
  constructor
  · intro h
    obtain ⟨a, ha, t, ht, rfl⟩ := Language.mem_mul.mp h
    obtain ⟨d, hd, e, he, rfl⟩ := Language.mem_mul.mp ht
    obtain ⟨c, hc, rfl⟩ := mem_p.mp ha
    rw [mem_dash.mp he]
    exact ⟨c, d, hc, hd.1, hd.2, rfl⟩
  · rintro ⟨c, d, hc, hne, hd, rfl⟩
    exact Language.append_mem_mul (a := [c]) (mem_p.mpr ⟨c, hc, rfl⟩)
      (Language.append_mem_mul ⟨hne, hd⟩ (mem_dash.mpr rfl))

theorem digit_not_dash : isDigit 45 = false := by decide

/-- A shard is passed over. -/
theorem shard_append_text (hs : x ∈ shardPrefix) (hh : ∀ c ∈ h.head?, ¬ (c = 112 ∨ c = 80)) :
    shard (x ++ h) = some h := by
  rcases mem_shard.mp hs with rfl | ⟨c, d, hc, hne, hd, rfl⟩
  · cases h with
    | nil => rfl
    | cons c h => exact shard_cons_host (hh c rfl)
  · have hstop : (45 :: h : Chars) ∈ halt isDigit := fun e he => by
      obtain rfl := Option.some.inj he
      exact digit_not_dash
    obtain ⟨h1, h2⟩ := scan_append (p := isDigit) hd hstop
    rw [List.cons_append, List.append_assoc, List.singleton_append, shard_cons_digits hc, h1, h2,
      if_neg hne]
    exact if_pos rfl

/-- What is passed over is a shard. -/
theorem shard_text (hs : shard h = some x) : ∃ s ∈ shardPrefix, s ++ x = h := by
  cases h with
  | nil =>
    obtain rfl := Option.some.inj hs
    exact ⟨[], mem_shard.mpr (Or.inl rfl), rfl⟩
  | cons c h =>
    by_cases hc : c = 112 ∨ c = 80
    · rw [shard_cons_digits hc] at hs
      have hsplit := List.takeWhile_append_dropWhile (p := isDigit) (l := h)
      split_ifs at hs with hd
      cases hdrop : h.dropWhile isDigit with
      | nil =>
        rw [hdrop] at hs
        simp at hs
      | cons e t =>
        rw [hdrop] at hs hsplit
        dsimp only at hs
        split_ifs at hs with he
        obtain rfl := Option.some.inj hs
        refine ⟨_, mem_shard.mpr (Or.inr ⟨c, h.takeWhile isDigit, hc, hd, takeWhile_mem_run, rfl⟩), ?_⟩
        rw [List.cons_append, List.append_assoc, List.singleton_append, ← he, hsplit]
    · rw [shard_cons_host hc] at hs
      obtain rfl := Option.some.inj hs
      exact ⟨[], mem_shard.mpr (Or.inl rfl), rfl⟩

/-- The host is read behind the shard. -/
theorem mem_shard_mul (hL : ∀ b ∈ L, ∀ c ∈ b.head?, ¬ (c = 112 ∨ c = 80)) :
    h ∈ shardPrefix * L ↔ ∃ x, shard h = some x ∧ x ∈ L := by
  rw [Language.mem_mul]
  constructor
  · rintro ⟨s, hs, x, hx, rfl⟩
    exact ⟨x, shard_append_text hs (hL x hx), hx⟩
  · rintro ⟨x, hs, hx⟩
    obtain ⟨s, hs, he⟩ := shard_text hs
    exact ⟨s, hs, x, hx, he⟩

/-- A literal that starts with another letter than a shard. -/
theorem word_head {lit : String} {d : UInt8} (hlit : (cstr lit).head? = some d) (hd : d ≠ 112)
    (hx : x ∈ word lit * L) : ∀ c ∈ x.head?, ¬ (c = 112 ∨ c = 80) := by
  obtain ⟨⟨v, hv⟩, -⟩ := mem_fold_mul.mp hx
  intro c hc hp
  cases x with
  | nil => simp at hc
  | cons b x =>
    obtain rfl := Option.some.inj hc
    have : tolower b = d := by
      cases hl : cstr lit with
      | nil =>
        rw [hl] at hlit
        simp at hlit
      | cons a l =>
        rw [hl] at hv hlit
        obtain rfl := Option.some.inj hlit
        rw [List.cons_append, List.map_cons, List.cons_eq_cons] at hv
        exact hv.1.symm
    rcases hp with rfl | rfl
    · exact hd this.symm
    · exact hd this.symm

/-- A literal of `gsa_reserved_url`, cut at its pieces. -/
theorem literal_word {lit host : String}
    (h : cstr lit = cstr "https://" ++ (cstr host ++ cstr "/")) :
    startsCase url lit = true ↔ url ∈ word "https://" * (word host * (word "/" * ⊤)) := by
  rw [startsCase_word, word, h, fold_append, fold_append, mul_assoc, mul_assoc]
  rfl

theorem literal_port {lit host : String}
    (h : cstr lit = cstr "https://" ++ (cstr host ++ (cstr ":443" ++ cstr "/"))) :
    startsCase url lit = true ↔
      url ∈ word "https://" * (word host * (word ":443" * (word "/" * ⊤))) := by
  rw [startsCase_word, word, h, fold_append, fold_append, fold_append, mul_assoc, mul_assoc,
    mul_assoc]
  rfl

/-- Four names, each with and without a port. -/
theorem mem_names (A B C D P S W : Language UInt8) :
    url ∈ W * ((A + B + C + D) * (1 + P) * S * ⊤) ↔
      url ∈ W * (A * (S * ⊤)) ∨ url ∈ W * (B * (S * ⊤)) ∨ url ∈ W * (C * (S * ⊤)) ∨
      url ∈ W * (D * (S * ⊤)) ∨ url ∈ W * (C * (P * (S * ⊤))) ∨ url ∈ W * (D * (P * (S * ⊤))) ∨
      url ∈ W * (A * (P * (S * ⊤))) ∨ url ∈ W * (B * (P * (S * ⊤))) := by
  simp only [add_mul, mul_add, mul_one, mul_assoc, Language.mem_add]
  tauto

/-- The fixed hosts. -/
theorem login_iff : url ∈ word "https://" * (loginNames * httpsPort * word "/" * ⊤) ↔
    startsCase url "https://gsa.apple.com/" = true ∨
    startsCase url "https://setup.icloud.com/" = true ∨
    startsCase url "https://profile.ess.apple.com/" = true ∨
    startsCase url "https://service.ess.apple.com/" = true ∨
    startsCase url "https://profile.ess.apple.com:443/" = true ∨
    startsCase url "https://service.ess.apple.com:443/" = true ∨
    startsCase url "https://gsa.apple.com:443/" = true ∨
    startsCase url "https://setup.icloud.com:443/" = true :=
  (mem_names (word "gsa.apple.com") (word "setup.icloud.com") (word "profile.ess.apple.com")
    (word "service.ess.apple.com") (word ":443") (word "/") (word "https://")).trans
    (or_congr (literal_word (by decide)) <| or_congr (literal_word (by decide)) <|
      or_congr (literal_word (by decide)) <| or_congr (literal_word (by decide)) <|
      or_congr (literal_port (by decide)) <| or_congr (literal_port (by decide)) <|
      or_congr (literal_port (by decide)) (literal_port (by decide))).symm

/-- What follows the host of Find My. -/
theorem findmy_port : ((if starts h ":443" then h.drop 4 else h).head? = some 47) ↔
    h ∈ httpsPort * word "/" * ⊤ := by
  have hslash : ∀ t : Chars, t ∈ word "/" * ⊤ ↔ t.head? = some 47 := by
    intro t
    rw [← startsCase_word, startsCase_iff]
    cases t with
    | nil => simp [cstr]
    | cons c t =>
      rw [show cstr "/" = [47] from rfl, List.map_cons, List.cons_prefix_cons,
        List.head?_cons, Option.some.injEq, eq_comm, tolower_eq (by decide)]
      exact and_iff_left List.nil_prefix
  have hport : h ∈ word ":443" * (word "/" * ⊤) ↔
      starts h ":443" = true ∧ (h.drop 4).head? = some 47 := by
    rw [mem_word_mul, hslash, startsCase_iff, starts_iff, List.prefix_iff_eq_take,
      List.prefix_iff_eq_take, ← List.map_take, eq_comm, map_tolower_caseless (by decide), eq_comm]
    rfl
  rw [mul_assoc, httpsPort, add_mul, one_mul, Language.mem_add, hport, hslash]
  by_cases hs : starts h ":443" = true
  · rw [if_pos hs]
    refine ⟨fun h => Or.inr ⟨hs, h⟩, fun h => h.elim (fun h => ?_) And.right⟩
    -- a slash is not the colon of a port
    obtain ⟨t, ht⟩ := starts_iff.mp hs
    rw [← ht] at h
    exact absurd (Option.some.inj h) (by decide)
  · rw [if_neg hs]
    exact ⟨Or.inl, fun h => h.elim id fun h => absurd h.1 hs⟩

theorem findmy_iff : url ∈ word "https://" * (findmyNames * httpsPort * word "/" * ⊤) ↔
    findmyHost url = true := by
  have hhead : ∀ b ∈ word "fmip.icloud.com" * (httpsPort * word "/" * ⊤), ∀ c ∈ b.head?,
      ¬ (c = 112 ∨ c = 80) := fun b hb => word_head (d := 102) rfl (by decide) hb
  unfold findmyHost
  rw [mem_word_mul, Bool.and_eq_true, findmyNames, mul_assoc, mul_assoc, mul_assoc,
    ← mul_assoc httpsPort, mem_shard_mul hhead]
  refine and_congr_right fun _ => ?_
  show _ ↔ (match shard (url.drop 8) with
    | none => false
    | some h => startsCase h "fmip.icloud.com" &&
        decide ((if starts (h.drop 15) ":443" then (h.drop 15).drop 4 else h.drop 15).head? =
          some 47)) = true
  rw [show (cstr "https://").length = 8 from rfl]
  cases shard (url.drop 8) with
  | none => simp
  | some x =>
    dsimp only
    rw [Bool.and_eq_true, decide_eq_true_eq, findmy_port]
    constructor
    · rintro ⟨y, hy, h⟩
      obtain rfl := Option.some.inj hy
      exact mem_word_mul.mp h
    · intro h
      exact ⟨x, rfl, mem_word_mul.mpr h⟩

/-! ### The letters of the pieces -/

theorem word_run {p : UInt8 → Bool} {lit : String} (hp : ∀ c, p (tolower c) = p c)
    (h : (cstr lit).all p = true) : ∀ w ∈ word lit, w ∈ run p := by
  intro w hw c hc
  rw [← hp]
  refine List.all_eq_true.mp h _ ?_
  rw [← mem_fold.mp hw]
  exact List.mem_map_of_mem hc

theorem tolower_bracket {c d : UInt8} (hd : d = 91 ∨ d = 93) : tolower c = d ↔ c = d := by
  unfold tolower
  have hc := c.toNat_lt
  rw [← UInt8.toNat_inj, ← UInt8.toNat_inj]
  split_ifs with h
  · simp only [UInt8.le_iff_toNat_le, UInt8.reduceToNat] at h
    rw [UInt8.toNat_add]
    rcases hd with rfl | rfl <;> simp only [UInt8.reduceToNat] <;> omega
  · rfl

theorem inName_tolower (c : UInt8) : inName (tolower c) = inName c := by
  unfold inName
  rw [inAuthority_tolower]
  congr 1
  · congr 1
    · congr 1
      · congr 1
        rw [decide_eq_decide, ne_eq, ne_eq, tolower_eq (by decide)]
      · rw [decide_eq_decide, ne_eq, ne_eq, tolower_eq (by decide)]
    · rw [decide_eq_decide, ne_eq, ne_eq, tolower_bracket (Or.inl rfl)]
  · rw [decide_eq_decide, ne_eq, ne_eq, tolower_bracket (Or.inr rfl)]

theorem inName_iff {c : UInt8} : inName c = true ↔
    inAuthority c = true ∧ c ≠ 64 ∧ c ≠ 58 ∧ c ≠ 91 ∧ c ≠ 93 := by
  unfold inName
  simp only [Bool.and_eq_true, decide_eq_true_eq, and_assoc]

theorem digit_inName {c : UInt8} (h : isDigit c = true) : inName c = true := by
  rw [inName_iff]
  refine ⟨?_, ?_, ?_, ?_, ?_⟩
  · unfold inAuthority
    simp only [Bool.and_eq_true, decide_eq_true_eq]
    refine ⟨⟨?_, ?_⟩, ?_⟩ <;> rintro rfl <;> exact absurd h (by decide)
  all_goals
    rintro rfl
    exact absurd h (by decide)

theorem shardPrefix_run : ∀ w ∈ shardPrefix, w ∈ run inName :=
  run_add run_one (run_mul (word_run inName_tolower (by decide))
    (run_mul (fun _ hw => run_mono (fun _ => digit_inName) hw.2)
      (word_run inName_tolower (by decide))))

theorem loginNames_run : ∀ w ∈ loginNames, w ∈ run inName :=
  run_add (run_add (run_add (word_run inName_tolower (by decide))
    (word_run inName_tolower (by decide))) (word_run inName_tolower (by decide)))
    (word_run inName_tolower (by decide))

theorem findmyNames_run : ∀ w ∈ findmyNames, w ∈ run inName :=
  run_mul shardPrefix_run (word_run inName_tolower (by decide))

theorem davNames_run {host : String} (h : (cstr host).all inName = true) :
    ∀ w ∈ davNames host, w ∈ run inName :=
  run_mul shardPrefix_run (word_run inName_tolower h)

theorem reservedNames_run : ∀ w ∈ reservedNames, w ∈ run inName :=
  run_add (run_add (run_add loginNames_run findmyNames_run) (davNames_run (by decide)))
    (davNames_run (by decide))

/-! ### The authority -/

/-- What may stand behind a host: a colon and digits. -/
def ports : Language UInt8 := 1 + word ":" * run isDigit

theorem mem_colon : x ∈ word ":" ↔ x = [58] := mem_word_small (by decide)

theorem mem_ports : x ∈ ports ↔ x = [] ∨ ∃ d, x = 58 :: d ∧ ∀ c ∈ d, isDigit c = true := by
  rw [ports, Language.mem_add, Language.mem_one]
  refine or_congr_right ?_
  constructor
  · intro h
    obtain ⟨a, ha, d, hd, rfl⟩ := Language.mem_mul.mp h
    rw [mem_colon.mp ha]
    exact ⟨d, rfl, hd⟩
  · rintro ⟨d, rfl, hd⟩
    exact Language.append_mem_mul (a := [58]) (mem_colon.mpr rfl) hd

theorem port_ports {lit : String} (hlow : caseless (cstr lit) = true)
    (h : ∃ d, cstr lit = 58 :: d ∧ d.all isDigit = true) : word lit ≤ ports := by
  intro w hw
  rw [(mem_word_small hlow).mp hw]
  obtain ⟨d, hd, hdigits⟩ := h
  exact mem_ports.mpr (Or.inr ⟨d, hd, List.all_eq_true.mp hdigits⟩)

theorem ports_halt : ∀ w ∈ ports, w ∈ halt fun c : UInt8 => decide (c ≠ 58) := by
  intro w hw c hc
  rcases mem_ports.mp hw with rfl | ⟨d, rfl, -⟩
  · simp at hc
  · obtain rfl := Option.some.inj hc
    simp

theorem ports_run : ∀ w ∈ ports, w ∈ run fun c => inAuthority c && c ≠ 64 := by
  intro w hw c hc
  rcases mem_ports.mp hw with rfl | ⟨d, rfl, hd⟩
  · simp at hc
  · rcases List.mem_cons.mp hc with rfl | hc
    · decide
    · obtain ⟨h1, h2, -⟩ := inName_iff.mp (digit_inName (hd c hc))
      simp [h1, h2]

theorem httpsPort_ports : httpsPort ≤ ports := by
  intro w hw
  rcases (Language.mem_add _ _ _).mp hw with hw | hw
  · exact Or.inl hw
  · exact port_ports (by decide) ⟨cstr "443", by decide, by decide⟩ hw

/-- A host and a port have no `@` and stay in the authority. -/
theorem name_ports_run {N P : Language UInt8} (hN : ∀ w ∈ N, w ∈ run inName) (hP : P ≤ ports) :
    ∀ w ∈ N * P, w ∈ run fun c => inAuthority c && c ≠ 64 := by
  refine run_mul (fun w hw => run_mono (fun c hc => ?_) (hN w hw)) fun w hw => ports_run w (hP hw)
  obtain ⟨h1, h2, -⟩ := inName_iff.mp hc
  simp [h1, h2]

theorem afterUser_eq_afterLast {a : Chars} : afterUser a = afterLast 64 a := by
  unfold afterUser
  split_ifs with h
  · rfl
  · exact (afterLast_of_not_mem h).symm

/-- A URL is read up to the end of its authority. -/
theorem mem_authority_mul {A B : Language UInt8} (hA : ∀ w ∈ A, w ∈ run inAuthority)
    (hB : ∀ w ∈ B, w ∈ halt inAuthority) :
    url ∈ word "https://" * (A * B) ↔
      startsCase url "https://" = true ∧ authorityOf url ∈ A ∧ restOf url ∈ B := by
  rw [mem_word_mul, mem_mul_scan hA hB]
  rfl

/-- An authority is read behind its user, at the colon. -/
theorem mem_user_mul {N P : Language UInt8} (hN : ∀ w ∈ N, w ∈ run inName) (hP : P ≤ ports) :
    authorityOf url ∈ upTo 64 (run inAuthority) * (N * P) ↔
      hostText (authorityOf url) ∈ N ∧ portText (authorityOf url) ∈ P := by
  have hno : ∀ w ∈ N * P, 64 ∉ w := by
    intro w hw h64
    have := name_ports_run hN hP w hw 64 h64
    simp at this
  rw [mem_upTo_mul (show authorityOf url ∈ run inAuthority from takeWhile_mem_run) hno, ← afterUser_eq_afterLast,
    mem_mul_scan (p := fun c => decide (c ≠ 58))
      (fun w hw => run_mono (fun c hc => by simp [(inName_iff.mp hc).2.2.1]) (hN w hw))
      fun w hw => ports_halt w (hP hw)]
  rfl

theorem authority_run {N P : Language UInt8} (hN : ∀ w ∈ N, w ∈ run inName) (hP : P ≤ ports) :
    ∀ w ∈ upTo 64 (run inAuthority) * (N * P), w ∈ run inAuthority := by
  have hat : ∀ w ∈ ({[64]} : Language UInt8), w ∈ run inAuthority := by
    rintro w rfl
    exact List.all_eq_true.mp (by decide)
  refine run_mul (run_add run_one (run_mul (fun _ hw => hw) hat)) fun w hw =>
    run_mono (fun c hc => ?_) (name_ports_run hN hP w hw)
  exact ((Bool.and_eq_true _ _).mp hc).1

theorem dav_ports {legacy : String} (hlow : caseless (cstr legacy) = true)
    (h : ∃ d, cstr legacy = 58 :: d ∧ d.all isDigit = true) :
    httpsPort + word legacy ≤ ports := by
  rintro w (hw | hw)
  · exact httpsPort_ports hw
  · exact port_ports hlow h hw

theorem caldav_ports : httpsPort + word ":8443" ≤ ports :=
  dav_ports (by decide) ⟨cstr "8443", by decide, by decide⟩

theorem contacts_ports : httpsPort + word ":8843" ≤ ports :=
  dav_ports (by decide) ⟨cstr "8843", by decide, by decide⟩

/-- The authority of one DAV host, by its components. -/
theorem davAuthority_iff {host legacy : String} {d : UInt8} (hd : (cstr host).head? = some d)
    (hne : d ≠ 112) (hname : (cstr host).all inName = true)
    (hlow : caseless (cstr legacy) = true) (hP : httpsPort + word legacy ≤ ports) :
    authorityOf url ∈ davAuthority host legacy ↔
      ∃ x, AquaTransport.shard (hostText (authorityOf url)) = some x ∧
        x.map tolower = cstr host ∧ (portText (authorityOf url) = [] ∨
          portText (authorityOf url) = cstr ":443" ∨ portText (authorityOf url) = cstr legacy) := by
  have hhead : ∀ b ∈ word host, ∀ c ∈ b.head?, ¬ (c = 112 ∨ c = 80) := by
    intro b hb
    exact word_head hd hne (L := 1) (by rwa [mul_one])
  have hport : ∀ w : Chars, w ∈ httpsPort + word legacy ↔
      w = [] ∨ w = cstr ":443" ∨ w = cstr legacy := by
    intro w
    rw [httpsPort, Language.mem_add, Language.mem_add, Language.mem_one, mem_word_small hlow,
      mem_word_small (by decide), or_assoc]
  rw [davAuthority, mem_user_mul (davNames_run hname) hP, hport, davNames, mem_shard_mul hhead]
  constructor
  · rintro ⟨⟨x, hs, hx⟩, hp⟩
    exact ⟨x, hs, hx, hp⟩
  · rintro ⟨x, hs, hx, hp⟩
    exact ⟨⟨x, hs, hx⟩, hp⟩

theorem dav_iff : url ∈ word "https://" * ((davAuthority "caldav.icloud.com" ":8443" +
      davAuthority "contacts.icloud.com" ":8843") * halt inAuthority) ↔ gsaDavUrl url = true := by
  have hcal : ∀ w ∈ davNames "caldav.icloud.com", w ∈ run inName := davNames_run (by decide)
  have hcon : ∀ w ∈ davNames "contacts.icloud.com", w ∈ run inName := davNames_run (by decide)
  have hrun := run_add (authority_run hcal caldav_ports) (authority_run hcon contacts_ports)
  rw [show davAuthority "caldav.icloud.com" ":8443" + davAuthority "contacts.icloud.com" ":8843" =
      upTo 64 (run inAuthority) * (davNames "caldav.icloud.com" * (httpsPort + word ":8443")) +
      upTo 64 (run inAuthority) * (davNames "contacts.icloud.com" * (httpsPort + word ":8843"))
    from rfl, mem_authority_mul hrun fun _ h => h]
  show startsCase url "https://" = true ∧ (authorityOf url ∈ davAuthority _ _ ∨
    authorityOf url ∈ davAuthority _ _) ∧ _ ↔ _
  rw [davAuthority_iff (d := 99) rfl (by decide) (by decide) (by decide) caldav_ports,
    davAuthority_iff (d := 99) rfl (by decide) (by decide) (by decide) contacts_ports]
  constructor
  · rintro ⟨hs, h, -⟩
    rw [gsaDavUrl_iff hs]
    rcases h with ⟨x, hx, h⟩ | ⟨x, hx, h⟩
    · exact ⟨x, hx, Or.inl h⟩
    · exact ⟨x, hx, Or.inr h⟩
  · intro h
    have hs : startsCase url "https://" = true := by
      unfold gsaDavUrl at h
      exact ((Bool.and_eq_true _ _).mp h).1
    obtain ⟨x, hx, h⟩ := (gsaDavUrl_iff hs).mp h
    refine ⟨hs, ?_, dropWhile_mem_halt⟩
    rcases h with h | h
    · exact Or.inl ⟨x, hx, h⟩
    · exact Or.inr ⟨x, hx, h⟩

/-- What `gsa_reserved_url` accepts is the language. -/
theorem mem_reservedUrl : url ∈ Grammar.reservedUrl ↔ AquaTransport.gsaReservedUrl url = true := by
  have horder : AquaTransport.gsaReservedUrl url = true ↔ findmyHost url = true ∨
      gsaDavUrl url = true ∨ url ∈ word "https://" * (loginNames * httpsPort * word "/" * ⊤) := by
    rw [login_iff]
    unfold AquaTransport.gsaReservedUrl
    simp only [Bool.or_eq_true, or_assoc]
  rw [horder, reservedUrl, mul_add, mul_add, Language.mem_add, Language.mem_add, findmy_iff,
    dav_iff, or_assoc, or_comm, or_assoc]

/-! ### By the generic syntax -/

/-- Every one of these URLs is some user, one of the names and a port. -/
theorem reservedUrl_le : Grammar.reservedUrl ≤ word "https://" *
    (upTo 64 (run inAuthority) * (reservedNames * ports) * halt inAuthority) := by
  have hone : (1 : Language UInt8) ≤ upTo 64 (run inAuthority) := fun w hw => Or.inl hw
  have hslash : word "/" * ⊤ ≤ halt inAuthority := by
    intro w hw c hc
    obtain ⟨a, ha, b, -, rfl⟩ := Language.mem_mul.mp hw
    rw [mem_slash.mp ha] at hc
    obtain rfl := Option.some.inj hc
    decide
  have hfixed : ∀ N, N ≤ reservedNames → N * httpsPort * word "/" * ⊤ ≤
      upTo 64 (run inAuthority) * (reservedNames * ports) * halt inAuthority := by
    intro N hN
    calc N * httpsPort * word "/" * ⊤ = 1 * (N * httpsPort) * (word "/" * ⊤) := by
          rw [one_mul, mul_assoc (N * httpsPort)]
      _ ≤ _ := mul_le_mul' (mul_le_mul' hone (mul_le_mul' hN httpsPort_ports)) hslash
  have hdav : ∀ host legacy, davNames host ≤ reservedNames → httpsPort + word legacy ≤ ports →
      davAuthority host legacy ≤ upTo 64 (run inAuthority) * (reservedNames * ports) :=
    fun host legacy hN hP => mul_le_mul' le_rfl (mul_le_mul' hN hP)
  refine mul_le_mul' le_rfl ?_
  rintro w ((hw | hw) | hw)
  · exact hfixed _ (fun w hw => Or.inl (Or.inl (Or.inl hw))) hw
  · exact hfixed _ (fun w hw => Or.inl (Or.inl (Or.inr hw))) hw
  · have hsum : davAuthority "caldav.icloud.com" ":8443" +
        davAuthority "contacts.icloud.com" ":8843" ≤
          upTo 64 (run inAuthority) * (reservedNames * ports) := by
      rintro a (ha | ha)
      · exact hdav _ _ (fun w hw => Or.inl (Or.inr hw)) caldav_ports ha
      · exact hdav _ _ (fun w hw => Or.inr hw) contacts_ports ha
    exact mul_le_mul' hsum (le_refl (halt inAuthority)) hw

section Generic

variable {u : Parts}

theorem Parts.userText_cases (u : Parts) :
    u.userText = [] ∨ ∃ v, u.userText = v ++ [64] ∧ ∀ c ∈ v, inAuthority c = true := by
  unfold userText
  cases h : u.user with
  | none => exact Or.inl rfl
  | some v => exact Or.inr ⟨v, rfl, u.user_ok v h⟩

theorem Parts.portText_mem (u : Parts) : u.portText ∈ ports := by
  rw [mem_ports]
  unfold portText
  cases h : u.port with
  | none => exact Or.inl rfl
  | some d => exact Or.inr ⟨d, rfl, u.port_ok d h⟩

theorem Parts.host_run (u : Parts) : u.host ∈ run fun c => inAuthority c && c ≠ 64 := by
  intro c hc
  rcases u.host_ok with h | ⟨t, ht, h⟩
  · obtain ⟨h1, h2, -⟩ := inName_iff.mp (h c hc)
    simp [h1, h2]
  · rw [ht] at hc
    rcases List.mem_cons.mp hc with rfl | hc
    · decide
    · rcases List.mem_append.mp hc with hc | hc
      · obtain ⟨h1, h2⟩ := h c hc
        simp [h1, h2]
      · obtain rfl := List.mem_singleton.mp hc
        decide

theorem Parts.name_run (u : Parts) :
    u.host ++ u.portText ∈ run fun c => inAuthority c && c ≠ 64 := by
  intro c hc
  rcases List.mem_append.mp hc with hc | hc
  · exact u.host_run c hc
  · exact ports_run _ u.portText_mem c hc

theorem Parts.authority_run (u : Parts) : u.authority ∈ run inAuthority := by
  intro c hc
  rcases List.mem_append.mp hc with hc | hc
  · rcases u.userText_cases with h | ⟨v, h, hv⟩
    · rw [h] at hc
      simp at hc
    · rw [h] at hc
      rcases List.mem_append.mp hc with hc | hc
      · exact hv c hc
      · obtain rfl := List.mem_singleton.mp hc
        decide
  · exact ((Bool.and_eq_true _ _).mp (u.name_run c hc)).1

/-- The userinfo is what stands up to the last `@`. -/
theorem Parts.afterUser_authority (u : Parts) : afterUser u.authority = u.host ++ u.portText := by
  have hno : 64 ∉ u.host ++ u.portText := by
    intro h
    have := u.name_run 64 h
    simp at this
  rw [afterUser_eq_afterLast, authority]
  rcases u.userText_cases with h | ⟨v, h, -⟩
  · rw [h, List.nil_append, afterLast_of_not_mem hno]
  · rw [h, List.append_assoc, List.singleton_append, afterLast_append hno]

/-- The characters of a scheme. -/
def inScheme (c : UInt8) : Bool := inAuthority c && c ≠ 58

theorem inScheme_tolower (c : UInt8) : inScheme (tolower c) = inScheme c := by
  unfold inScheme
  rw [inAuthority_tolower, show decide (tolower c ≠ 58) = decide (c ≠ 58) by
    rw [decide_eq_decide, ne_eq, ne_eq, tolower_eq (by decide)]]

/-- An `https` URL is cut by its scheme. -/
theorem Parts.drop_text (hs : startsCase u.text "https://" = true) :
    u.scheme.map tolower = cstr "https" ∧ u.text.drop 8 = u.authority ++ u.rest := by
  have hhalt : ∀ w ∈ word "://" * ⊤, w ∈ halt inScheme := by
    intro w hw c hc
    obtain ⟨a, ha, b, -, rfl⟩ := Language.mem_mul.mp hw
    rw [(mem_word_small (by decide)).mp ha] at hc
    obtain rfl := Option.some.inj hc
    decide
  have hscheme : u.scheme ∈ run inScheme := by
    intro c hc
    obtain ⟨h1, h2⟩ := u.scheme_ok c hc
    simp [inScheme, h1, h2]
  have hrest : cstr "://" ++ (u.authority ++ u.rest) ∈ halt inScheme := by
    intro c hc
    obtain rfl := Option.some.inj hc
    decide
  rw [startsCase_word, word_append (a := "https") (b := "://") (by decide), mul_assoc,
    mem_mul_scan (word_run inScheme_tolower (by decide)) hhalt, text,
    (scan_append hscheme hrest).1] at hs
  have hlen : u.scheme.length = 5 := by
    have := congrArg List.length (mem_fold.mp hs.1)
    rwa [List.length_map] at this
  refine ⟨mem_fold.mp hs.1, ?_⟩
  rw [text, List.drop_append, hlen, List.drop_eq_nil_iff.mpr (by omega)]
  rfl

/-- **The host of an accepted URL is one of the names**, however the URL is written. -/
theorem Parts.host_mem (h : u.text ∈ Grammar.reservedUrl) : u.host ∈ reservedNames := by
  obtain ⟨hs, ha, -⟩ := (mem_authority_mul (AquaTransport.authority_run reservedNames_run le_rfl)
    fun _ h => h).mp (reservedUrl_le h)
  have hauthority : authorityOf u.text = u.authority := by
    rw [authorityOf, (Parts.drop_text hs).2]
    exact (scan_append u.authority_run u.rest_ok).1
  obtain ⟨hname, -⟩ := (mem_user_mul reservedNames_run le_rfl).mp ha
  rw [hauthority, hostText, u.afterUser_authority] at hname
  rcases u.host_ok with hok | ⟨t, ht, -⟩
  · have hcolon : u.host ∈ run fun c => decide (c ≠ 58) :=
      run_mono (fun c hc => by simp [(inName_iff.mp hc).2.2.1]) hok
    rwa [(scan_append hcolon (ports_halt _ u.portText_mem)).1] at hname
  · -- no name starts with a bracket
    have hmem : (91 : UInt8) ∈ (u.host ++ u.portText).takeWhile fun c => decide (c ≠ 58) := by
      rw [ht, List.cons_append, List.takeWhile_cons_of_pos (by decide)]
      exact List.mem_cons_self
    have := reservedNames_run _ hname 91 hmem
    simp [inName] at this

/-- An accepted URL has these parts. -/
theorem exists_parts (h : url ∈ Grammar.reservedUrl) : ∃ u : Parts, u.text = url := by
  obtain ⟨s, hs, t, ht, rfl⟩ := Language.mem_mul.mp (reservedUrl_le h)
  obtain ⟨a, ha, rest, hrest, rfl⟩ := Language.mem_mul.mp ht
  obtain ⟨user, huser, n, hn, rfl⟩ := Language.mem_mul.mp ha
  obtain ⟨host, hhost, port, hport, rfl⟩ := Language.mem_mul.mp hn
  rw [word_append (a := "https") (b := "://") (by decide)] at hs
  obtain ⟨scheme, hscheme, sep, hsep, rfl⟩ := Language.mem_mul.mp hs
  obtain rfl := (mem_word_small (by decide)).mp hsep
  obtain ⟨v, hv, hvok⟩ : ∃ v : Option Chars, v.elim [] (· ++ [64]) = user ∧
      ∀ w ∈ v, ∀ c ∈ w, inAuthority c = true := by
    rcases (Language.mem_add _ _ _).mp huser with hu | hu
    · exact ⟨none, ((Language.mem_one _).mp hu).symm, by simp⟩
    · obtain ⟨w, hw, d, rfl, rfl⟩ := Language.mem_mul.mp hu
      refine ⟨some w, rfl, fun u hu => ?_⟩
      obtain rfl := Option.some.inj hu
      exact hw
  obtain ⟨q, hq, hqok⟩ : ∃ q : Option Chars, q.elim [] (58 :: ·) = port ∧
      ∀ d ∈ q, ∀ c ∈ d, isDigit c = true := by
    rcases mem_ports.mp hport with rfl | ⟨d, rfl, hd⟩
    · exact ⟨none, rfl, by simp⟩
    · refine ⟨some d, rfl, fun e he => ?_⟩
      obtain rfl := Option.some.inj he
      exact hd
  refine ⟨⟨scheme, v, host, q, rest, fun c hc => ?_, hvok, Or.inl (reservedNames_run _ hhost), hqok,
    hrest⟩, ?_⟩
  · have := word_run inScheme_tolower (by decide) _ hscheme c hc
    simpa [inScheme] using this
  · show scheme ++ (cstr "://" ++ (v.elim [] (· ++ [64]) ++ (host ++ q.elim [] (58 :: ·)) ++ rest)) = _
    rw [hv, hq, List.append_assoc scheme]

end Generic

end Accepted

/-! ### The pointer programs -/

section Programs

variable {s h m a stop : Chars} {n : ℕ} {lit legacy : String}

/-- Neither string goes past its terminator. -/
theorem Mem.compareN_text {f : UInt8 → UInt8} {l : Chars} (hf : f 0 = 0)
    (hl : ∀ d ∈ l, d ≠ 0 ∧ f d = d) (hs : 0 ∉ s) :
    Mem.compareN f (s ++ 0 :: m) l l.length = some (l.isPrefixOf (s.map f)) := by
  induction l generalizing s with
  | nil =>
    rw [List.length_nil, List.isPrefixOf_nil_left, Mem.compareN]
  | cons d l ih =>
    rw [List.forall_mem_cons] at hl
    obtain ⟨⟨hd, hfd⟩, hl⟩ := hl
    cases s with
    | nil =>
      show (if f 0 ≠ f d then some false else _) = _
      rw [if_pos (by rw [hf, hfd]; exact hd.symm)]
      rfl
    | cons c s =>
      rw [List.mem_cons, not_or] at hs
      show (if f c ≠ f d then some false else if c = 0 then some true
        else Mem.compareN f (s ++ 0 :: m) l l.length) = _
      rw [List.map_cons, List.isPrefixOf_cons_cons, hfd]
      by_cases hc : f c = d
      · rw [if_neg (not_not_intro hc), if_neg (Ne.symm hs.1), ih hl hs.2, hc, beq_self_eq_true,
          Bool.true_and]
      · rw [if_pos hc, beq_eq_false_iff_ne.mpr (Ne.symm hc), Bool.false_and]

theorem Mem.strncasecmp_text (hs : 0 ∉ s) (hlit : (cstr lit).all (fun d => d ≠ 0 && tolower d = d))
    (hn : n = (cstr lit).length) : Mem.strncasecmp (s ++ 0 :: m) lit n = some (startsCase s lit) := by
  rw [hn]
  refine Mem.compareN_text rfl (fun d hd => ?_) hs
  have := List.all_eq_true.mp hlit d hd
  simpa using this

theorem Mem.strncmp_text (hs : 0 ∉ s) (hlit : 0 ∉ cstr lit) (hn : n = (cstr lit).length) :
    Mem.strncmp (s ++ 0 :: m) lit n = some (starts s lit) := by
  rw [hn]
  refine (Mem.compareN_text rfl (fun d hd => ⟨fun h => hlit (h ▸ hd), rfl⟩) hs).trans ?_
  rw [List.map_id_fun', id]
  rfl

theorem Mem.strcspn_text (hs : 0 ∉ s) :
    Mem.strcspn (s ++ 0 :: m) = some (s.dropWhile inAuthority ++ 0 :: m) := by
  induction s with
  | nil => rfl
  | cons c s ih =>
    rw [List.mem_cons, not_or] at hs
    rw [List.cons_append, Mem.strcspn]
    by_cases hc : inAuthority c = true
    · rw [if_pos ⟨Ne.symm hs.1, hc⟩, ih hs.2, List.dropWhile_cons_of_pos hc]
    · rw [if_neg fun h => hc h.2, List.dropWhile_cons_of_neg hc, List.cons_append]

/-- The scan for `@` ends at `stop`. -/
theorem Mem.skipUser_text :
    Mem.skipUser stop (a ++ stop) (h ++ stop) = AquaTransport.skipUser a h ++ stop := by
  induction a generalizing h with
  | nil =>
    cases stop with
    | nil => rfl
    | cons c stop => exact if_neg (lt_irrefl _)
  | cons c a ih =>
    have hlt : stop.length < (c :: (a ++ stop)).length := by
      rw [List.length_cons, List.length_append]
      omega
    rw [List.cons_append, Mem.skipUser, if_pos hlt, AquaTransport.skipUser, ← ih]
    split_ifs <;> rfl

theorem Mem.skipDigits_text :
    Mem.skipDigits (s ++ 0 :: m) = some (s.dropWhile isDigit ++ 0 :: m) := by
  induction s with
  | nil => rfl
  | cons c s ih =>
    rw [List.cons_append, Mem.skipDigits]
    by_cases hc : isDigit c = true
    · rw [if_pos hc, ih, List.dropWhile_cons_of_pos hc]
    · rw [if_neg hc, List.dropWhile_cons_of_neg hc, List.cons_append]

theorem takeWhile_eq_nil_iff_length {p : UInt8 → Bool} :
    s.takeWhile p = [] ↔ (s.dropWhile p).length = s.length := by
  have := congrArg List.length (List.takeWhile_append_dropWhile (p := p) (l := s))
  rw [List.length_append] at this
  rw [← List.length_eq_zero_iff]
  omega

theorem Mem.shard_text : Mem.shard (s ++ 0 :: m) =
    some ((AquaTransport.shard s).map (· ++ 0 :: m)) := by
  cases s with
  | nil => rfl
  | cons c s =>
    show (if c = 112 ∨ c = 80 then _ else _) = _
    by_cases hc : c = 112 ∨ c = 80
    · rw [if_pos hc, shard_cons_digits hc, List.cons_append, List.tail_cons, Mem.skipDigits_text]
      show (if (s.dropWhile isDigit ++ 0 :: m).length = (s ++ 0 :: m).length then _ else _) = _
      by_cases hd : s.takeWhile isDigit = []
      · rw [if_pos hd, if_pos]
        · rfl
        · rw [List.length_append, List.length_append, takeWhile_eq_nil_iff_length.mp hd]
      · rw [if_neg hd, if_neg]
        · cases s.dropWhile isDigit with
          | nil => rfl
          | cons d t =>
            show (if d ≠ 45 then _ else _) = some ((if d = 45 then some t else none).map _)
            by_cases h45 : d = 45
            · rw [if_neg (not_not_intro h45), if_pos h45]
              rfl
            · rw [if_pos h45, if_neg h45]
              rfl
        · rw [List.length_append, List.length_append]
          exact fun h => hd (takeWhile_eq_nil_iff_length.mpr (by omega))
    · rw [if_neg hc, shard_cons_host hc]
      rfl

theorem not_mem_shard (hs : AquaTransport.shard s = some h) (h0 : 0 ∉ s) : 0 ∉ h := by
  obtain ⟨pre, rfl, -⟩ := shard_prefix hs
  exact fun hm => h0 (List.mem_append_right pre hm)

theorem Mem.davPort_text (hs : 0 ∉ s) (hn : n ≤ s.length) (hlegacy : 0 ∉ cstr legacy)
    (hl : (cstr legacy).length = 5) :
    Mem.davPort (s ++ 0 :: m) n (stop ++ 0 :: m) legacy =
      some (AquaTransport.davPort (s.drop n) stop legacy) := by
  have h0 : 0 ∉ s.drop n := fun hm => hs (List.mem_of_mem_drop hm)
  have hlen : ∀ k, (s.drop n ++ 0 :: m).length = (stop ++ 0 :: m).length + k ↔
      (s.drop n).length = stop.length + k := by
    intro k
    rw [List.length_append, List.length_append]
    omega
  have hsame : (s.drop n ++ 0 :: m).length = (stop ++ 0 :: m).length ↔
      (s.drop n).length = stop.length := hlen 0
  have h443 : Mem.strncmp (s.drop n ++ 0 :: m) ":443" 4 = some (starts (s.drop n) ":443") :=
    Mem.strncmp_text h0 (by decide) rfl
  have hleg : Mem.strncmp (s.drop n ++ 0 :: m) legacy 5 = some (starts (s.drop n) legacy) :=
    Mem.strncmp_text h0 hlegacy hl.symm
  unfold Mem.davPort AquaTransport.davPort
  rw [List.drop_append_of_le_length hn]
  dsimp only
  rw [h443, hleg]
  by_cases hnone : (s.drop n).length = stop.length
  · rw [if_pos (hsame.mpr hnone), decide_eq_true hnone, Bool.true_or, Bool.true_or]
    rfl
  · rw [if_neg fun h => hnone (hsame.mp h)]
    by_cases h4 : (s.drop n).length = stop.length + 4
    · have h5 : ¬ (s.drop n).length = stop.length + 5 := by omega
      rw [if_pos ((hlen 4).mpr h4), if_neg fun h => h5 ((hlen 5).mp h), decide_eq_false hnone,
        decide_eq_true h4, decide_eq_false h5, Bool.false_or, Bool.true_and, Bool.false_and,
        Bool.or_false]
      cases starts (s.drop n) ":443" <;> rfl
    · rw [if_neg fun h => h4 ((hlen 4).mp h), decide_eq_false hnone, decide_eq_false h4,
        Bool.false_or, Bool.false_and, Bool.false_or]
      by_cases h5 : (s.drop n).length = stop.length + 5
      · rw [if_pos ((hlen 5).mpr h5), decide_eq_true h5, Bool.true_and]
      · rw [if_neg fun h => h5 ((hlen 5).mp h), decide_eq_false h5, Bool.false_and]
        rfl

/-- A literal that starts a text is not longer. -/
theorem startsCase_length (h : startsCase s lit = true) : (cstr lit).length ≤ s.length := by
  have := (startsCase_iff.mp h).length_le
  rwa [List.length_map] at this

/-- The text that the scan for `@` leaves has no terminator either. -/
theorem not_mem_afterUser (hs : 0 ∉ a) : 0 ∉ afterUser a := by
  intro h
  rw [afterUser_eq_afterLast] at h
  exact hs (List.mem_reverse.mp ((List.takeWhile_subset _) (List.mem_reverse.mp h)))

theorem Mem.gsaDavUrl_text (hs : 0 ∉ s) :
    Mem.gsaDavUrl (s ++ 0 :: m) = some (AquaTransport.gsaDavUrl s) := by
  have hhttps : Mem.strncasecmp (s ++ 0 :: m) "https://" 8 = some (startsCase s "https://") :=
    Mem.strncasecmp_text hs (by decide) rfl
  unfold Mem.gsaDavUrl AquaTransport.gsaDavUrl
  rw [hhttps]
  cases h8 : startsCase s "https://" with
  | false => rfl
  | true =>
    have h0 : 0 ∉ s.drop 8 := fun hm => hs (List.mem_of_mem_drop hm)
    have hstop := Mem.strcspn_text (m := m) h0
    have huser : Mem.skipUser (restOf s ++ 0 :: m) (s.drop 8 ++ 0 :: m) (s.drop 8 ++ 0 :: m) =
        AquaTransport.skipUser (authorityOf s) (authorityOf s) ++ restOf s ++ 0 :: m := by
      have hsplit : s.drop 8 ++ 0 :: m = authorityOf s ++ (restOf s ++ 0 :: m) := by
        rw [← List.append_assoc, authorityOf, restOf, List.takeWhile_append_dropWhile]
      rw [hsplit, Mem.skipUser_text, List.append_assoc]
    have hlen : 8 ≤ s.length := startsCase_length h8
    rw [List.drop_append_of_le_length hlen]
    show (Mem.strcspn (s.drop 8 ++ 0 :: m) >>= fun stop => _) = _
    rw [hstop]
    show (Mem.shard (Mem.skipUser (restOf s ++ 0 :: m) _ _) >>= fun h => _) = _
    rw [huser, Mem.shard_text]
    show _ = some (match AquaTransport.shard (AquaTransport.skipUser (authorityOf s) (authorityOf s)
        ++ restOf s) with
      | none => false
      | some h =>
        if startsCase h "caldav.icloud.com" then
          AquaTransport.davPort (h.drop 17) (restOf s) ":8443"
        else startsCase h "contacts.icloud.com" &&
          AquaTransport.davPort (h.drop 19) (restOf s) ":8843")
    cases hshard : AquaTransport.shard (AquaTransport.skipUser (authorityOf s) (authorityOf s) ++
      restOf s) with
    | none => rfl
    | some x =>
      have hx : 0 ∉ x := by
        refine not_mem_shard hshard fun hm => ?_
        rcases List.mem_append.mp hm with hm | hm
        · rw [skipUser_self] at hm
          exact not_mem_afterUser (fun h => h0 ((List.takeWhile_subset _) h)) hm
        · exact h0 ((List.dropWhile_subset _) hm)
      have hcal : Mem.strncasecmp (x ++ 0 :: m) "caldav.icloud.com" 17 =
          some (startsCase x "caldav.icloud.com") := Mem.strncasecmp_text hx (by decide) rfl
      have hcon : Mem.strncasecmp (x ++ 0 :: m) "contacts.icloud.com" 19 =
          some (startsCase x "contacts.icloud.com") := Mem.strncasecmp_text hx (by decide) rfl
      have hcaldav : 17 ≤ x.length →
          Mem.davPort (x ++ 0 :: m) 17 (restOf s ++ 0 :: m) ":8443" =
            some (AquaTransport.davPort (x.drop 17) (restOf s) ":8443") :=
        fun h => Mem.davPort_text hx h (by decide) rfl
      have hcontacts : 19 ≤ x.length →
          Mem.davPort (x ++ 0 :: m) 19 (restOf s ++ 0 :: m) ":8843" =
            some (AquaTransport.davPort (x.drop 19) (restOf s) ":8843") :=
        fun h => Mem.davPort_text hx h (by decide) rfl
      show (Mem.strncasecmp (x ++ 0 :: m) "caldav.icloud.com" 17 >>= fun b =>
          if b then Mem.davPort (x ++ 0 :: m) 17 (restOf s ++ 0 :: m) ":8443"
          else Mem.strncasecmp (x ++ 0 :: m) "contacts.icloud.com" 19 >>= fun b =>
            if b then Mem.davPort (x ++ 0 :: m) 19 (restOf s ++ 0 :: m) ":8843"
            else pure false) = some
        (if startsCase x "caldav.icloud.com" then
          AquaTransport.davPort (x.drop 17) (restOf s) ":8443"
        else startsCase x "contacts.icloud.com" &&
          AquaTransport.davPort (x.drop 19) (restOf s) ":8843")
      rw [hcal, hcon]
      cases hc : startsCase x "caldav.icloud.com" with
      | true => exact hcaldav (startsCase_length hc)
      | false =>
        cases hc : startsCase x "contacts.icloud.com" with
        | true => exact hcontacts (startsCase_length hc)
        | false => rfl

theorem Mem.findmyHost_text (hs : 0 ∉ s) :
    Mem.findmyHost (s ++ 0 :: m) = some (AquaTransport.findmyHost s) := by
  have hhttps : Mem.strncasecmp (s ++ 0 :: m) "https://" 8 = some (startsCase s "https://") :=
    Mem.strncasecmp_text hs (by decide) rfl
  unfold Mem.findmyHost AquaTransport.findmyHost
  rw [hhttps]
  cases h8 : startsCase s "https://" with
  | false => rfl
  | true =>
    have hlen : 8 ≤ s.length := startsCase_length h8
    rw [List.drop_append_of_le_length hlen, Mem.shard_text]
    cases hshard : AquaTransport.shard (s.drop 8) with
    | none => rfl
    | some x =>
      have hx : 0 ∉ x := not_mem_shard hshard fun hm => hs (List.mem_of_mem_drop hm)
      have hfmip : Mem.strncasecmp (x ++ 0 :: m) "fmip.icloud.com" 15 =
          some (startsCase x "fmip.icloud.com") := Mem.strncasecmp_text hx (by decide) rfl
      show (Mem.strncasecmp (x ++ 0 :: m) "fmip.icloud.com" 15 >>= fun b => _) = some
        (startsCase x "fmip.icloud.com" && decide ((if starts (x.drop 15) ":443" then
          (x.drop 15).drop 4 else x.drop 15).head? = some 47))
      rw [hfmip]
      cases hc : startsCase x "fmip.icloud.com" with
      | false => rfl
      | true =>
        have hlen : 15 ≤ x.length := startsCase_length hc
        have hx15 : 0 ∉ x.drop 15 := fun hm => hx (List.mem_of_mem_drop hm)
        have h443 : Mem.strncmp ((x ++ 0 :: m).drop 15) ":443" 4 =
            some (starts (x.drop 15) ":443") := by
          rw [List.drop_append_of_le_length hlen]
          exact Mem.strncmp_text hx15 (by decide) rfl
        show (Mem.strncmp ((x ++ 0 :: m).drop 15) ":443" 4 >>= fun b =>
          (if b then ((x ++ 0 :: m).drop 15).drop 4 else (x ++ 0 :: m).drop 15).head? >>=
            fun c => pure (decide (c = 47))) = _
        rw [h443, List.drop_append_of_le_length hlen]
        -- the byte behind the host, the terminator at the latest
        have hhead : ∀ t : Chars, (t ++ 0 :: m).head?.bind (fun c => some (decide (c = 47))) =
            some (decide (t.head? = some 47)) := by
          intro t
          cases t with
          | nil => rfl
          | cons c t => simp
        cases hp : starts (x.drop 15) ":443" with
        | false => exact hhead _
        | true =>
          have hlen4 : 4 ≤ (x.drop 15).length := (starts_iff.mp hp).length_le
          refine (congrArg (fun t : Chars => t.head?.bind fun c => some (decide (c = 47)))
            (List.drop_append_of_le_length hlen4)).trans (hhead _)

theorem Mem.literals_text (hs : 0 ∉ s) :
    (Mem.literals.anyM fun l => Mem.strncasecmp (s ++ 0 :: m) l.1 l.2) =
      some (Mem.literals.any fun l => startsCase s l.1) := by
  have hlit : ∀ l ∈ Mem.literals, Mem.strncasecmp (s ++ 0 :: m) l.1 l.2 = some (startsCase s l.1) := by
    have hall : Mem.literals.all (fun l => (cstr l.1).all (fun d => d ≠ 0 && tolower d = d) &&
        l.2 = (cstr l.1).length) = true := by decide
    intro l hl
    have := List.all_eq_true.mp hall l hl
    rw [Bool.and_eq_true, decide_eq_true_eq] at this
    exact Mem.strncasecmp_text hs this.1 this.2
  revert hlit
  induction Mem.literals with
  | nil => intro _; rfl
  | cons l ls ih =>
    intro hlit
    rw [List.forall_mem_cons] at hlit
    rw [List.anyM, hlit.1, List.any_cons]
    show (match startsCase s l.1 with
      | true => some true
      | false => ls.anyM _) = _
    cases startsCase s l.1 with
    | true => rfl
    | false => exact ih hlit.2

/-- The pointer program computes what the text says, within the text and its terminator. -/
theorem Mem.gsaReservedUrl_text (hs : 0 ∉ s) :
    Mem.gsaReservedUrl (s ++ 0 :: m) = some (AquaTransport.gsaReservedUrl s) := by
  have horder : AquaTransport.gsaReservedUrl s = (AquaTransport.findmyHost s ||
      (AquaTransport.gsaDavUrl s || Mem.literals.any fun l => startsCase s l.1)) := by
    unfold AquaTransport.gsaReservedUrl
    simp only [Mem.literals, List.any_cons, List.any_nil, Bool.or_false, Bool.or_assoc]
  unfold Mem.gsaReservedUrl
  rw [Mem.findmyHost_text hs, Mem.gsaDavUrl_text hs, Mem.literals_text hs, horder]
  cases AquaTransport.findmyHost s <;> cases AquaTransport.gsaDavUrl s <;> rfl

/-- **The recogniser of reserved URLs**: at a terminated string it reads nothing past the terminator,
accepts exactly the language, and every URL that it accepts has one of the names for its host. -/
theorem reservedUrl_exact (url m : Chars) (h : 0 ∉ url) :
    ∃ b, Mem.gsaReservedUrl (url ++ 0 :: m) = some b ∧
      (b = true ↔ url ∈ Grammar.reservedUrl) ∧
      (b = true → (∃ u : Parts, u.text = url) ∧
        ∀ u : Parts, u.text = url → u.host ∈ Grammar.reservedNames) := by
  refine ⟨_, Mem.gsaReservedUrl_text h, mem_reservedUrl.symm, fun hb => ?_⟩
  have hurl := mem_reservedUrl.mpr hb
  refine ⟨exists_parts hurl, ?_⟩
  rintro u rfl
  exact Parts.host_mem hurl

theorem reservedUrl_exact_user :
    ∃ b, Mem.gsaReservedUrl (cstr "HTTPS://me@x:1@P12-caldav.icloud.com:8443" ++ 0 :: [58]) = some b ∧
      (b = true ↔ cstr "HTTPS://me@x:1@P12-caldav.icloud.com:8443" ∈ Grammar.reservedUrl) ∧
      (b = true → (∃ u : Parts, u.text = cstr "HTTPS://me@x:1@P12-caldav.icloud.com:8443") ∧
        ∀ u : Parts, u.text = cstr "HTTPS://me@x:1@P12-caldav.icloud.com:8443" →
          u.host ∈ Grammar.reservedNames) :=
  reservedUrl_exact _ _ (by decide)

example : AquaTransport.gsaReservedUrl (cstr "HTTPS://me@x:1@P12-caldav.icloud.com:8443") = true := by
  decide

end Programs

end AquaTransport
