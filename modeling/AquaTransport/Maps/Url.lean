import AquaTransport.Lib.Base64
import AquaTransport.Lib.Utf
import AquaTransport.Gsa.Absolute
import AquaTransport.Rewrite.Requests

/-!
# AquaTransport.Maps.Url — map URLs, rewritten and signed

`aq_map_url`, with `URLWithString:` as the string it is given.  `mapUrl_mapped`: what is accepted goes
to the mapped host with its path, fragment and query, less the keys of an old signature; where it is
signed, the text that is encrypted is what is sent up to `&accessKey=`; and what comes of it is not
accepted again.
-/

namespace AquaTransport

/-! ### The model -/

/-- What the adapter takes from Foundation and CommonCrypto. -/
structure MapServices where
  /-- `stringByReplacingPercentEscapesUsingEncoding:` of UTF-8. -/
  unescape : NSString → Option NSString
  /-- A character of `alphanumericCharacterSet`. -/
  alphanumeric : Char → Bool
  sha256 : NSData → NSData
  /-- `CCCrypt`: AES-256-CBC with padding and a zero vector, by key. -/
  ccEncrypt : NSData → NSData → Option NSData

def AQMapSession : NSString := str "6942069420694206942069420694206942067676"

/-- `stringByReplacingOccurrencesOfString:withString:`; `n` units are still those of a match. -/
def replacing (target replacement : NSString) : ℕ → NSString → NSString
  | _, [] => []
  | n + 1, _ :: s => replacing target replacement n s
  | 0, c :: s =>
    if hasPrefix (c :: s) target then
      replacement ++ replacing target replacement (target.length - 1) s
    else c :: replacing target replacement 0 s

def aqMapBytes (s : NSString) : NSData := (Utf.toUtf8 s).getD []

def aqMapEscape (s : NSString) : NSString :=
  replacing (str "=") (str "%3D") 0
    (replacing (str "/") (str "%2F") 0 (replacing (str "+") (str "%2B") 0 s))

/-- `%lld`. -/
def lld (n : Int64) : NSString :=
  (if n < 0 then str "-" else []) ++
    (Nat.toDigits 10 n.toInt.natAbs).map fun c => UInt16.ofNat c.toNat

def gspa35 : NSString := str "gspa35-ssl.ls.apple.com"

def mapHostNames : List NSString :=
  [gspa35, str "gspa21.ls.apple.com", str "gspa19.ls.apple.com", str "gspa12.ls.apple.com",
    str "gspa11.ls.apple.com"]

/-- The port of a scheme. -/
def mapPort (scheme : Option NSString) : ℤ := if scheme = some (str "http") then 80 else 443

/-- The host that a URL is accepted for. -/
def mapHostOf (original : NSURL) : Option NSString :=
  let scheme := original.scheme.map lowercaseAscii
  original.lowerHost.bind fun host =>
    if host ∉ mapHostNames ∨ (scheme ≠ some (str "http") ∧ scheme ≠ some (str "https")) ∨
        original.user.isSome ∨ original.password.isSome ∨
        original.port.any (intValue · ≠ mapPort scheme) then none
    else some host

/-- Path, query and fragment, cut out of the string; the fragment has its `#`. -/
def mapPieces (absolute : NSString) : Option (NSString × NSString × NSString) :=
  (cut (str "://") absolute).map fun authority =>
    let tail := authority.2.dropWhile Uri.inAuthority
    let hash := cut (str "#") tail
    let fragment := (hash.map fun p => str "#" ++ p.2).getD []
    let tail := (hash.map Prod.fst).getD tail
    let question := cut (str "?") tail
    let path := (question.map Prod.fst).getD tail
    let path := if path = [] then str "/" else path
    let query := (question.map Prod.snd).getD []
    (path, query, fragment)

section Model

variable (S : MapServices)

def removedKeys : List NSString := [str "tk", str "mapkey", str "sid", str "accessKey"]

/-- The key of a pair is one of an old signature. -/
def mapRemoved (pair : NSString) : Bool :=
  removedKeys.contains ((S.unescape ((pair.splitOn 61).headD [])).getD [])

/-- The loop over the pairs of a query. -/
def mapKept (query : NSString) : List NSString :=
  (query.splitOn 38).filter fun pair => pair ≠ [] && !mapRemoved S pair

def mapNewHost (host : NSString) : NSString :=
  let newHost := replacing (str "gspa") (str "gspe") 0 host
  if (cut (str "-ssl") newHost).isNone then
    replacing (str ".ls.apple.com") (str "-ssl.ls.apple.com") 0 newHost
  else newHost

def mapNonce (nonce : NSString) : Bool :=
  nonce.length = 16 && (Utf.chars nonce).any fun cs => cs.all S.alphanumeric

def mapKey (nonce : NSString) : NSData :=
  S.sha256 (aqMapBytes (str "4cjLaD4jGRwlQ9U72xIzEBe0vHBmf9" ++ nonce))

/-- The text that is encrypted. -/
def mapPlain (path clean : NSString) (expiry : Int64) (nonce : NSString) : NSString :=
  let pathQuery := if clean ≠ [] then path ++ str "?" ++ clean ++ str "&" else path ++ str "?"
  pathQuery ++ str "sid=" ++ AQMapSession ++ lld expiry ++ nonce

def mapAccess (expiry : Int64) (nonce : NSString) (encrypted : NSData) : NSString :=
  lld expiry ++ str "_" ++ nonce ++ str "_" ++
    aqMapEscape ((Base64.encode encrypted).map UInt8.toUInt16)

/-- The query with its signature. -/
def mapSigned (path clean : NSString) (expiry : Int64) (nonce : NSString) : Option NSString :=
  if mapNonce S nonce = false then none
  else
    (S.ccEncrypt (mapKey S nonce) (aqMapBytes (mapPlain path clean expiry nonce))).map fun e =>
      clean ++ (if clean ≠ [] then str "&" else []) ++ str "sid=" ++ AQMapSession ++
        str "&accessKey=" ++ mapAccess expiry nonce e

/-- `aq_map_url`. -/
def aqMapUrl (original : NSURL) (expiry : Int64) (nonce : NSString) : Option NSString :=
  match mapHostOf original with
  | none => none
  | some host =>
    if 65536 < original.absoluteString.length then none
    else
      match mapPieces original.absoluteString with
      | none => none
      | some (path, query, fragment) =>
        let clean := (str "&").intercalate (mapKept S query)
        let clean := if host ≠ gspa35 then mapSigned S path clean expiry nonce else some clean
        clean.map fun clean =>
          str "https://" ++ mapNewHost host ++ path ++ (if clean ≠ [] then str "?" else []) ++
            clean ++ fragment

end Model

/-! ### What a rewritten URL should be -/

/-- The hosts, and those they are mapped to. -/
def mappedHosts : List (NSString × NSString) :=
  [(gspa35, str "gspe35-ssl.ls.apple.com"),
    (str "gspa21.ls.apple.com", str "gspe21-ssl.ls.apple.com"),
    (str "gspa19.ls.apple.com", str "gspe19-ssl.ls.apple.com"),
    (str "gspa12.ls.apple.com", str "gspe12-ssl.ls.apple.com"),
    (str "gspa11.ls.apple.com", str "gspe11-ssl.ls.apple.com")]

/-- The pairs of a query that are not empty. -/
def pairsOf (query : Option NSString) : List NSString :=
  ((query.getD []).splitOn 38).filter (· ≠ [])

/-- The query of some pairs. -/
def queryOf (pairs : List NSString) : Option NSString :=
  if pairs = [] then none else some ((str "&").intercalate pairs)

/-- The key of a pair, decoded, is one of an old signature. -/
def OldSignature (S : MapServices) (pair : NSString) : Prop :=
  ∃ key ∈ removedKeys, S.unescape (pair.takeWhile (· ≠ 61)) = some key

instance (S : MapServices) (pair : NSString) : Decidable (OldSignature S pair) :=
  inferInstanceAs (Decidable (∃ key ∈ removedKeys, _))

/-- The pairs of a URL without its old signature. -/
def keptPairs (S : MapServices) (u : Uri) : List NSString :=
  (pairsOf u.query).filter fun pair => ¬ OldSignature S pair

/-- The pairs that sign a URL: what is encrypted is what is sent before `&accessKey=`, the expiry and the
nonce. -/
def Signature (S : MapServices) (v : Uri) (expiry : Int64) (nonce : NSString)
    (added : List NSString) : Prop :=
  ∃ covered bytes encrypted,
    v.pathQuery = covered ++ str "&accessKey=" ++ mapAccess expiry nonce encrypted ∧
    38 ∉ mapAccess expiry nonce encrypted ∧
    Utf.toUtf8 (covered ++ lld expiry ++ nonce) = some bytes ∧
    S.ccEncrypt (mapKey S nonce) bytes = some encrypted ∧
    added = [str "sid=" ++ AQMapSession, str "accessKey=" ++ mapAccess expiry nonce encrypted]

/-- What `u` is rewritten to, for its host. -/
structure Mapped (S : MapServices) (host : NSString) (u : Uri) (expiry : Int64) (nonce : NSString)
    (v : Uri) : Prop where
  wellFormed : v.WellFormed
  scheme : v.scheme = str "https"
  authority : (host, v.authority) ∈ mappedHosts
  path : v.path = if u.path = [] then str "/" else u.path
  fragment : v.fragment = u.fragment
  query : ∃ added, v.query = queryOf (keptPairs S u ++ added) ∧
    pairsOf v.query = keptPairs S u ++ added ∧
    (host = gspa35 → added = []) ∧ (host ≠ gspa35 → Signature S v expiry nonce added)

/-! ### Characters -/

/-- What ends neither a pair nor a query. -/
def InPair (c : UInt16) : Prop := c ≠ 38 ∧ c ≠ 35

theorem inPair_of_all {s : NSString} (h : s.all (fun c => c != 38 && c != 35) = true) :
    ∀ c ∈ s, InPair c := by
  intro c hc
  simpa [InPair] using List.all_eq_true.mp h c hc

theorem mem_replacing {target replacement s : NSString} {n : ℕ} {c : UInt16}
    (h : c ∈ replacing target replacement n s) : c ∈ replacement ∨ c ∈ s := by
  fun_induction replacing target replacement n s with
  | case1 => exact absurd h List.not_mem_nil
  | case2 n x s ih => exact (ih h).imp_right (List.mem_cons_of_mem x)
  | case3 x s hx ih =>
    rcases List.mem_append.mp h with h | h
    · exact .inl h
    · exact (ih h).imp_right (List.mem_cons_of_mem x)
  | case4 x s hx ih =>
    rcases List.mem_cons.mp h with rfl | h
    · exact .inr List.mem_cons_self
    · exact (ih h).imp_right (List.mem_cons_of_mem x)

theorem inPair_replacing {target replacement s : NSString}
    (hr : replacement.all (fun c => c != 38 && c != 35) = true) (hs : ∀ c ∈ s, InPair c) :
    ∀ c ∈ replacing target replacement 0 s, InPair c := by
  intro c hc
  rcases mem_replacing hc with h | h
  · exact inPair_of_all hr c h
  · exact hs c h

theorem inPair_base64 (d : NSData) :
    ∀ c ∈ (Base64.encode d).map UInt8.toUInt16, InPair c := by
  have hsym : ∀ v : Fin 64, (Base64.symbol v).toUInt16 ≠ 38 ∧ (Base64.symbol v).toUInt16 ≠ 35 := by
    decide
  intro c hc
  obtain ⟨b, hb, rfl⟩ := List.mem_map.mp hc
  rcases Base64.char64_of_mem_encode hb with rfl | ⟨v, hv, rfl⟩
  · exact ⟨by decide, by decide⟩
  · exact hsym ⟨v, hv⟩

theorem mem_lld {n : Int64} {c : UInt16} (h : c ∈ lld n) : c = 45 ∨ 48 ≤ c.toNat ∧ c.toNat ≤ 57 := by
  rcases List.mem_append.mp h with h | h
  · left
    split at h
    · exact List.mem_singleton.mp h
    · exact absurd h List.not_mem_nil
  · right
    obtain ⟨d, hd, rfl⟩ := List.mem_map.mp h
    have hdig := Char.isDigit_iff_toNat.mp
      (Nat.isDigit_of_mem_toDigits (by decide) (by decide) hd)
    have h0 : '0'.toNat = 48 := rfl
    have h9 : '9'.toNat = 57 := rfl
    rw [UInt16.toNat_ofNat']
    omega

theorem inPair_lld (n : Int64) : ∀ c ∈ lld n, InPair c := by
  intro c hc
  rcases mem_lld hc with rfl | h
  · exact ⟨by decide, by decide⟩
  · constructor
    · rintro rfl
      exact absurd h.1 (by decide)
    · rintro rfl
      exact absurd h.1 (by decide)

section Rewritten

variable {S : MapServices} {N : UrlReader} {url : NSURL} {u : Uri} {a : Authority} {host : NSString}
  {expiry : Int64} {nonce : NSString}

theorem inPair_nonce (hS : ∀ c : Char, c.toNat < 128 → S.alphanumeric c = c.isAlphanum)
    (h : mapNonce S nonce = true) : ∀ c ∈ nonce, InPair c := by
  intro c hc
  have hn : (Utf.chars nonce).any (fun cs => cs.all S.alphanumeric) = true :=
    (Bool.and_eq_true_iff.mp h).2
  obtain ⟨cs, hcs, hall⟩ := (Option.any_eq_true _ _).mp hn
  rw [← Utf.units_of_chars hcs] at hc
  obtain ⟨d, hd, hcd⟩ := List.mem_flatMap.mp hc
  -- `&` and `#` are not alphanumeric
  have hbad : ∀ x : Char, x.toNat < 128 → x.isAlphanum = false → d.toNat ≠ x.toNat := by
    intro x hx hxa he
    obtain rfl := Char.toNat_inj.mp he
    have := hS d hx
    rw [List.all_eq_true.mp hall d hd, hxa] at this
    exact absurd this (by decide)
  constructor
  · rintro rfl
    exact hbad '&' (by decide) (by decide) (Utf.toNat_of_mem_unitsOf hcd (by decide))
  · rintro rfl
    exact hbad '#' (by decide) (by decide) (Utf.toNat_of_mem_unitsOf hcd (by decide))

theorem inPair_access (hnonce : ∀ c ∈ nonce, InPair c) (encrypted : NSData) :
    ∀ c ∈ mapAccess expiry nonce encrypted, InPair c := by
  have hline : ∀ c ∈ str "_", InPair c := inPair_of_all (by decide)
  have hescaped : ∀ c ∈ aqMapEscape ((Base64.encode encrypted).map UInt8.toUInt16), InPair c :=
    inPair_replacing (by decide) (inPair_replacing (by decide)
      (inPair_replacing (by decide) (inPair_base64 encrypted)))
  intro c hc
  simp only [mapAccess, List.mem_append] at hc
  rcases hc with (((hc | hc) | hc) | hc) | hc
  · exact inPair_lld expiry c hc
  · exact hline c hc
  · exact hnonce c hc
  · exact hline c hc
  · exact hescaped c hc

/-! ### The pieces of what is rewritten -/

theorem mapHostOf_some (h : mapHostOf url = some host) :
    url.lowerHost = some host ∧ host ∈ mapHostNames := by
  obtain ⟨host', hl, h⟩ := Option.bind_eq_some_iff.mp h
  split at h
  · exact absurd h (by simp)
  · rename_i hc
    obtain rfl := Option.some.inj h
    exact ⟨hl, not_not.mp fun hm => hc (.inl hm)⟩

theorem mapNewHost_mem (h : host ∈ mapHostNames) : (host, mapNewHost host) ∈ mappedHosts := by
  have hall : mapHostNames.all (fun host => mappedHosts.contains (host, mapNewHost host)) = true := by
    decide +kernel
  simpa using List.all_eq_true.mp hall host h

theorem mapPieces_eq (hu : u.WellFormed) : mapPieces u.text =
    some (if u.path = [] then str "/" else u.path, u.query.getD [],
      Uri.behind Uri.hash u.fragment) := by
  have hscheme : cut (str "://") u.text = some (u.scheme, u.authority ++ u.rest) := hu.cut_scheme
  have hhash : cut (str "#") u.rest = u.fragment.map fun f => (u.pathQuery, f) := hu.cut_hash
  have hquestion : cut (str "?") u.pathQuery = u.query.map fun q => (u.path, q) := hu.cut_question
  have htail : ((u.fragment.map fun f => (u.pathQuery, f)).map Prod.fst).getD u.rest =
      u.pathQuery := by
    cases hf : u.fragment with
    | some f => rfl
    | none =>
      show u.rest = u.pathQuery
      rw [Uri.rest, hf]
      exact List.append_nil _
  have hpath : ((u.query.map fun q => (u.path, q)).map Prod.fst).getD u.pathQuery = u.path := by
    cases hq : u.query with
    | some q => rfl
    | none =>
      show u.pathQuery = u.path
      rw [Uri.pathQuery, hq]
      exact List.append_nil _
  unfold mapPieces
  rw [hscheme, Option.map_some]
  simp only [hu.dropWhile_authority, hhash, htail, hquestion, hpath]
  cases u.fragment <;> cases u.query <;> rfl

theorem mapRemoved_iff {pair : NSString} : mapRemoved S pair = true ↔ OldSignature S pair := by
  unfold mapRemoved OldSignature
  rw [List.contains_iff_mem, headD_splitOn]
  cases S.unescape (pair.takeWhile (· ≠ 61)) with
  | some key => simp
  | none =>
    have hnil : [] ∉ removedKeys := by decide
    simpa using hnil

theorem mapKept_eq (u : Uri) : mapKept S (u.query.getD []) = keptPairs S u := by
  unfold mapKept keptPairs pairsOf
  rw [List.filter_filter]
  refine List.filter_congr fun pair _ => ?_
  rw [Bool.and_comm]
  congr 1
  rw [Bool.eq_iff_iff]
  simp [← mapRemoved_iff]

/-! ### The query that is sent -/

/-- Pairs, as a query holds them. -/
def Pairs (pairs : List NSString) : Prop := ∀ pair ∈ pairs, pair ≠ [] ∧ ∀ c ∈ pair, InPair c

theorem intercalate_eq_nil {pairs : List NSString} (h : Pairs pairs) :
    (str "&").intercalate pairs = [] ↔ pairs = [] := by
  refine ⟨fun hnil => ?_, fun h => by rw [h]; rfl⟩
  cases pairs with
  | nil => rfl
  | cons pair pairs =>
    have hne := (h pair List.mem_cons_self).1
    by_cases hp : pairs = []
    · rw [hp, List.intercalate_singleton] at hnil
      exact absurd hnil hne
    · rw [List.intercalate_cons_of_ne_nil hp, List.append_eq_nil_iff] at hnil
      exact absurd (List.append_eq_nil_iff.mp hnil.1).1 hne

theorem behind_queryOf {pairs : List NSString} (h : Pairs pairs) :
    Uri.behind Uri.question (queryOf pairs) =
      (if (str "&").intercalate pairs ≠ [] then str "?" else []) ++ (str "&").intercalate pairs := by
  unfold queryOf
  by_cases hp : pairs = []
  · rw [if_pos hp, hp]
    rfl
  · rw [if_neg hp, if_pos (mt (intercalate_eq_nil h).mp hp)]
    rfl

theorem pairsOf_queryOf {pairs : List NSString} (h : Pairs pairs) : pairsOf (queryOf pairs) = pairs := by
  unfold queryOf pairsOf
  by_cases hp : pairs = []
  · rw [if_pos hp, hp]
    rfl
  · have hsplit : ((str "&").intercalate pairs).splitOn 38 = pairs :=
      List.splitOn_intercalate 38 (fun pair hpair hc => ((h pair hpair).2 38 hc).1 rfl) hp
    rw [if_neg hp, Option.getD_some, hsplit]
    exact List.filter_eq_self.mpr fun pair hpair => by simpa using (h pair hpair).1

theorem hash_queryOf {pairs : List NSString} (h : Pairs pairs) {q : NSString}
    (hq : queryOf pairs = some q) : Uri.hash ∉ q := by
  unfold queryOf at hq
  split at hq
  · exact absurd hq (by simp)
  · obtain rfl := Option.some.inj hq
    intro hc
    rcases mem_intercalate hc with hc | ⟨pair, hpair, hc⟩
    · exact absurd hc (by decide)
    · exact ((h pair hpair).2 _ hc).2 rfl

theorem pairs_kept (hu : u.WellFormed) : Pairs (keptPairs S u) := by
  intro pair hpair
  obtain ⟨hpair, -⟩ := List.mem_filter.mp hpair
  obtain ⟨hsplit, hne⟩ := List.mem_filter.mp hpair
  obtain ⟨hamp, hsub⟩ := mem_splitOn hsplit
  refine ⟨by simpa using hne, fun c hc => ⟨fun he => hamp (he ▸ hc), fun he => ?_⟩⟩
  cases hq : u.query with
  | none =>
    rw [hq] at hsub
    exact absurd (hsub hc) List.not_mem_nil
  | some q =>
    rw [hq] at hsub
    have hmem : c ∈ q := hsub hc
    exact hu.query q hq (he ▸ hmem : (35 : UInt16) ∈ q)

/-- The pairs of a signature come last. -/
theorem intercalate_signed {kept : List NSString} (h : Pairs kept) (a b : NSString) :
    (str "&").intercalate (kept ++ [a, b]) = (str "&").intercalate kept ++
      (if (str "&").intercalate kept ≠ [] then str "&" else []) ++ a ++ str "&" ++ b := by
  have hab : (str "&").intercalate [a, b] = a ++ str "&" ++ b := by
    rw [List.intercalate_cons_cons, List.intercalate_singleton]
  by_cases hk : kept = []
  · rw [hk, List.nil_append, hab]
    rfl
  · rw [if_pos (mt (intercalate_eq_nil h).mp hk), intercalate_append hk (by simp), hab]
    simp only [List.append_assoc]

/-! ### What is rewritten -/

/-- What `u` is rewritten to with these pairs. -/
def mapTo (host : NSString) (u : Uri) (pairs : List NSString) : Uri where
  scheme := str "https"
  authority := mapNewHost host
  path := if u.path = [] then str "/" else u.path
  query := queryOf pairs
  fragment := u.fragment

variable (u host) in
theorem mapTo_text {pairs : List NSString} (h : Pairs pairs) :
    (mapTo host u pairs).text = str "https://" ++ mapNewHost host ++
      (if u.path = [] then str "/" else u.path) ++
      (if (str "&").intercalate pairs ≠ [] then str "?" else []) ++ (str "&").intercalate pairs ++
      Uri.behind Uri.hash u.fragment := by
  show str "https" ++ str "://" ++ (mapNewHost host ++ ((if u.path = [] then str "/" else u.path) ++
    Uri.behind Uri.question (queryOf pairs) ++ Uri.behind Uri.hash u.fragment)) = _
  have hstr : str "https://" = str "https" ++ str "://" := rfl
  rw [behind_queryOf h, hstr]
  simp only [List.append_assoc]

/-- The mapped hosts are plain names. -/
theorem mapNewHost_plain (h : host ∈ mapHostNames) :
    ∀ c ∈ mapNewHost host, Uri.inAuthority c = true ∧ c ∉ str "@:%" := by
  have hall : mapHostNames.all (fun host => (mapNewHost host).all fun c =>
      Uri.inAuthority c && !(str "@:%").contains c) = true := by decide +kernel
  intro c hc
  have := List.all_eq_true.mp (List.all_eq_true.mp hall host h) c hc
  simpa using this

theorem mapTo_wellFormed (hu : u.WellFormed) (hhost : host ∈ mapHostNames) {pairs : List NSString}
    (h : Pairs pairs) : (mapTo host u pairs).WellFormed := by
  refine ⟨(by decide : Uri.colon ∉ str "https"), fun c hc => (mapNewHost_plain hhost c hc).1, .inr ?_, ?_,
    fun q hq => hash_queryOf h hq⟩
  · show (if u.path = [] then str "/" else u.path).head? = some Uri.slash
    split
    · rfl
    · exact hu.absolute.resolve_left ‹_›
  · show Uri.question ∉ (if u.path = [] then str "/" else u.path) ∧
      Uri.hash ∉ (if u.path = [] then str "/" else u.path)
    split
    · decide
    · exact hu.path

/-- An accepted URL, and what the loop and the signature make of it. -/
theorem aqMapUrl_some {r : NSString} (hu : N.Reads url u a)
    (h : aqMapUrl S url expiry nonce = some r) :
    ∃ host clean, url.lowerHost = some host ∧ host ∈ mapHostNames ∧
      (if host ≠ gspa35 then mapSigned S (if u.path = [] then str "/" else u.path)
        ((str "&").intercalate (keptPairs S u)) expiry nonce
        else some ((str "&").intercalate (keptPairs S u))) = some clean ∧
      r = str "https://" ++ mapNewHost host ++ (if u.path = [] then str "/" else u.path) ++
        (if clean ≠ [] then str "?" else []) ++ clean ++ Uri.behind Uri.hash u.fragment := by
  unfold aqMapUrl at h
  cases hhost : mapHostOf url with
  | none =>
    rw [hhost] at h
    exact absurd h (by simp)
  | some host =>
    rw [hhost] at h
    dsimp only at h
    split at h
    · exact absurd h (by simp)
    · rw [hu.text, mapPieces_eq hu.wellFormed] at h
      dsimp only at h
      rw [mapKept_eq] at h
      obtain ⟨clean, hclean, rfl⟩ := Option.map_eq_some_iff.mp h
      obtain ⟨hl, hm⟩ := mapHostOf_some hhost
      exact ⟨host, clean, hl, hm, hclean, rfl⟩

/-- ASCII text, and behind it a nonce. -/
theorem toUtf8_nonce (hnonce : mapNonce S nonce = true) {s : NSString} (hs : ∀ c ∈ s, c < 128) :
    ∃ bytes, Utf.toUtf8 (s ++ nonce) = some bytes := by
  have hn : (Utf.chars nonce).any (fun cs => cs.all S.alphanumeric) = true :=
    (Bool.and_eq_true_iff.mp hnonce).2
  obtain ⟨ds, hds, -⟩ := (Option.any_eq_true _ _).mp hn
  refine ⟨(s.map (fun c => Char.ofNat c.toNat) ++ ds).flatMap String.utf8EncodeChar, ?_⟩
  rw [Utf.toUtf8, Utf.chars_append (Utf.chars_of_ascii hs), hds]
  rfl

theorem ascii_lld (n : Int64) : ∀ c ∈ lld n, c < 128 := by
  intro c hc
  rw [UInt16.lt_iff_toNat_lt]
  rcases mem_lld hc with rfl | h
  · decide
  · exact Nat.lt_of_le_of_lt h.2 (by decide)

/-- What is signed: the text before `&accessKey=`. -/
def covered (u : Uri) (clean : NSString) : NSString :=
  (if u.path = [] then str "/" else u.path) ++ str "?" ++
    (clean ++ (if clean ≠ [] then str "&" else [])) ++ str "sid=" ++ AQMapSession

theorem mapPlain_eq (clean : NSString) :
    mapPlain (if u.path = [] then str "/" else u.path) clean expiry nonce =
      covered u clean ++ lld expiry ++ nonce := by
  unfold mapPlain covered
  by_cases hc : clean = []
  · rw [if_neg (not_not.mpr hc), if_neg (not_not.mpr hc), hc]
    simp only [List.append_nil]
  · rw [if_pos hc, if_pos hc]
    simp only [List.append_assoc]

theorem ascii_covered (hascii : ∀ c ∈ u.text, c < 128) :
    ∀ c ∈ covered u ((str "&").intercalate (keptPairs S u)), c < 128 := by
  have hlit : ∀ {s : NSString}, s.all (fun c => c < 128) = true → ∀ c ∈ s, c < 128 := by
    intro s hs c hc
    simpa using List.all_eq_true.mp hs c hc
  have hrest : ∀ c ∈ u.rest, c < 128 := fun c hc =>
    hascii c (List.mem_append_right _ (List.mem_append_right _ hc))
  have hpath : ∀ c ∈ u.path, c < 128 := fun c hc =>
    hrest c (List.mem_append_left _ (List.mem_append_left _ hc))
  have hquery : ∀ c ∈ u.query.getD [], c < 128 := by
    intro c hc
    cases hq : u.query with
    | none =>
      rw [hq] at hc
      exact absurd hc List.not_mem_nil
    | some q =>
      rw [hq] at hc
      refine hrest c (List.mem_append_left _ (List.mem_append_right _ ?_))
      rw [hq]
      exact List.mem_cons_of_mem _ hc
  have hkept : ∀ c ∈ (str "&").intercalate (keptPairs S u), c < 128 := by
    intro c hc
    rcases mem_intercalate hc with hc | ⟨pair, hpair, hc⟩
    · exact hlit (by decide) c hc
    · have hsplit := (List.mem_filter.mp (List.mem_filter.mp hpair).1).1
      exact hquery c ((mem_splitOn hsplit).2 hc)
  intro c hc
  simp only [covered, List.mem_append] at hc
  rcases hc with (((hc | hc) | hc | hc) | hc) | hc
  · split at hc
    · exact hlit (by decide) c hc
    · exact hpath c hc
  · exact hlit (by decide) c hc
  · exact hkept c hc
  · split at hc
    · exact hlit (by decide) c hc
    · exact absurd hc List.not_mem_nil
  · exact hlit (by decide) c hc
  · exact hlit (by decide) c hc

/-- **The signature covers what is sent.** -/
theorem mapSigned_signature (hS : ∀ c : Char, c.toNat < 128 → S.alphanumeric c = c.isAlphanum)
    (hu : u.WellFormed) (hascii : ∀ c ∈ u.text, c < 128) {clean : NSString}
    (h : mapSigned S (if u.path = [] then str "/" else u.path)
      ((str "&").intercalate (keptPairs S u)) expiry nonce = some clean) (host : NSString) :
    ∃ added, clean = (str "&").intercalate (keptPairs S u ++ added) ∧
      Pairs (keptPairs S u ++ added) ∧
      Signature S (mapTo host u (keptPairs S u ++ added)) expiry nonce added := by
  unfold mapSigned at h
  split at h
  · exact absurd h (by simp)
  rename_i hnonce
  rw [Bool.not_eq_false] at hnonce
  obtain ⟨e, he, rfl⟩ := Option.map_eq_some_iff.mp h
  have haccess : ∀ c ∈ mapAccess expiry nonce e, InPair c := inPair_access (inPair_nonce hS hnonce) e
  have hkey : ∀ c ∈ str "accessKey=", InPair c := inPair_of_all (by decide)
  have hpairs : Pairs (keptPairs S u ++
      [str "sid=" ++ AQMapSession, str "accessKey=" ++ mapAccess expiry nonce e]) := by
    intro pair hpair
    rcases List.mem_append.mp hpair with hpair | hpair
    · exact pairs_kept hu pair hpair
    · simp only [List.mem_cons, List.not_mem_nil, or_false] at hpair
      rcases hpair with rfl | rfl
      · exact ⟨by decide, inPair_of_all (by decide)⟩
      · refine ⟨List.append_ne_nil_of_left_ne_nil (by decide) _, fun c hc => ?_⟩
        rcases List.mem_append.mp hc with hc | hc
        · exact hkey c hc
        · exact haccess c hc
  have hjoin := intercalate_signed (pairs_kept (S := S) hu) (str "sid=" ++ AQMapSession)
    (str "accessKey=" ++ mapAccess expiry nonce e)
  have hamp : str "&accessKey=" = str "&" ++ str "accessKey=" := rfl
  refine ⟨[str "sid=" ++ AQMapSession, str "accessKey=" ++ mapAccess expiry nonce e], ?_, hpairs, ?_⟩
  · rw [hjoin, hamp]
    simp only [List.append_assoc]
  · have hplain : ∀ c ∈ covered u ((str "&").intercalate (keptPairs S u)) ++ lld expiry, c < 128 := by
      intro c hc
      rcases List.mem_append.mp hc with hc | hc
      · exact ascii_covered hascii c hc
      · exact ascii_lld expiry c hc
    obtain ⟨bytes, hbytes⟩ := toUtf8_nonce hnonce hplain
    refine ⟨covered u ((str "&").intercalate (keptPairs S u)), bytes, e, ?_,
      fun hc => (haccess 38 hc).1 rfl, hbytes, ?_, rfl⟩
    · show (if u.path = [] then str "/" else u.path) ++ Uri.behind Uri.question (queryOf _) = _
      have hne : (str "&").intercalate (keptPairs S u ++
          [str "sid=" ++ AQMapSession, str "accessKey=" ++ mapAccess expiry nonce e]) ≠ [] :=
        mt (intercalate_eq_nil hpairs).mp (by simp)
      rw [behind_queryOf hpairs, if_pos hne, hjoin, covered, hamp]
      simp only [List.append_assoc]
    · rw [mapPlain_eq, aqMapBytes, hbytes] at he
      exact he

/-! ### A second pass -/

theorem mapHostOf_mapped {v : Uri} (hv : v.WellFormed) (hhost : (host, v.authority) ∈ mappedHosts)
    {url' : NSURL} {u' : Uri} {a' : Authority} (hu' : N.Reads url' u' a')
    (htext : url'.absoluteString = v.text) : mapHostOf url' = none := by
  obtain rfl : u' = v := Uri.text_inj hu'.wellFormed hv (hu'.text.symm.trans htext)
  have hall : mappedHosts.all (fun p => (p.2 ≠ [] && p.2.all fun c => !(str "@:%").contains c) &&
      !mapHostNames.contains (lowercaseAscii p.2)) = true := by decide +kernel
  have hp := List.all_eq_true.mp hall _ hhost
  rw [Bool.and_eq_true, Bool.and_eq_true] at hp
  have hh : url'.lowerHost = some (lowercaseAscii u'.authority) := by
    have hplain := hu'.host_of_plain (by simpa using hp.1.1)
      fun c hc => by simpa using List.all_eq_true.mp hp.1.2 c hc
    rw [NSURL.lowerHost, hplain]
    rfl
  have hn : lowercaseAscii u'.authority ∉ mapHostNames := by simpa using hp.2
  cases hm : mapHostOf url' with
  | none => rfl
  | some host' =>
    obtain ⟨hl, hmem⟩ := mapHostOf_some hm
    rw [hh] at hl
    exact absurd (Option.some.inj hl ▸ hmem) hn

theorem mapsHost_gspe (s : List UInt8) : Rewrite.mapsHost (cstr "https://gspe" ++ s) = false := rfl

theorem tfMapsRewriteUrl_mapped {v : Uri} (hs : v.scheme = str "https")
    (hhost : (host, v.authority) ∈ mappedHosts) {bytes : NSData}
    (hb : Utf.toUtf8 v.text = some bytes) (P : Rewrite.Platform) (i : ℕ) :
    Rewrite.tfMapsRewriteUrl P i bytes = none := by
  have hall : mappedHosts.all (fun p => hasPrefix p.2 (str "gspe")) = true := by decide
  obtain ⟨rest, hrest⟩ := List.isPrefixOf_iff_prefix.mp (List.all_eq_true.mp hall _ hhost)
  have hauth : str "gspe" ++ rest = v.authority := hrest
  have htext : v.text = str "https://gspe" ++ (rest ++ v.rest) := by
    show v.scheme ++ str "://" ++ (v.authority ++ v.rest) = _
    have hstr : str "https://gspe" = str "https" ++ str "://" ++ str "gspe" := rfl
    rw [hs, ← hauth, hstr]
    simp only [List.append_assoc]
  have hascii : (str "https://gspe").all (fun c => c < 128) = true := by decide
  have hlit := Utf.chars_of_ascii (s := str "https://gspe") fun c hc => by
    simpa using List.all_eq_true.mp hascii c hc
  obtain ⟨cs, hcs, rfl⟩ := Option.map_eq_some_iff.mp hb
  rw [htext, Utf.chars_append hlit] at hcs
  obtain ⟨ds, -, rfl⟩ := Option.map_eq_some_iff.mp hcs
  have hbytes : ((str "https://gspe").map fun c => Char.ofNat c.toNat).flatMap
      String.utf8EncodeChar = cstr "https://gspe" := by decide +kernel
  rw [List.flatMap_append, hbytes, Rewrite.tfMapsRewriteUrl, mapsHost_gspe, if_neg (by decide)]

end Rewritten

/-- **Map URLs are rewritten faithfully.**  An accepted URL goes to the mapped host, and neither
`aq_map_url` nor `tf_maps_rewrite_url` accepts what comes of it. -/
theorem mapUrl_mapped (S : MapServices)
    (hS : ∀ c : Char, c.toNat < 128 → S.alphanumeric c = c.isAlphanum) {N : UrlReader}
    {url : NSURL} {u : Uri} {a : Authority} (hu : N.Reads url u a)
    (hascii : ∀ c ∈ url.absoluteString, c < 128) {expiry : Int64} {nonce r : NSString}
    (h : aqMapUrl S url expiry nonce = some r) :
    ∃ host v, url.lowerHost = some host ∧ r = v.text ∧ Mapped S host u expiry nonce v ∧
      (∀ url' u' a', N.Reads url' u' a' → url'.absoluteString = r →
        ∀ expiry' nonce', aqMapUrl S url' expiry' nonce' = none) ∧
      ∀ bytes, Utf.toUtf8 r = some bytes → ∀ P i, Rewrite.tfMapsRewriteUrl P i bytes = none := by
  obtain ⟨host, clean, hl, hm, hclean, rfl⟩ := aqMapUrl_some hu h
  rw [hu.text] at hascii
  -- the pairs that are added, and what is sent of them
  obtain ⟨added, hjoin, hpairs, hbare, hsigned⟩ : ∃ added,
      clean = (str "&").intercalate (keptPairs S u ++ added) ∧ Pairs (keptPairs S u ++ added) ∧
      (host = gspa35 → added = []) ∧ (host ≠ gspa35 →
        Signature S (mapTo host u (keptPairs S u ++ added)) expiry nonce added) := by
    by_cases h35 : host = gspa35
    · rw [if_neg (not_not.mpr h35)] at hclean
      refine ⟨[], ?_, ?_, fun _ => rfl, fun hne => absurd h35 hne⟩
      · rw [List.append_nil]
        exact (Option.some.inj hclean).symm
      · rw [List.append_nil]
        exact pairs_kept hu.wellFormed
    · rw [if_pos h35] at hclean
      obtain ⟨added, hj, hp, hsig⟩ := mapSigned_signature hS hu.wellFormed hascii hclean host
      exact ⟨added, hj, hp, fun he => absurd he h35, fun _ => hsig⟩
  have htext := mapTo_text u host hpairs
  rw [← hjoin] at htext
  have hwf := mapTo_wellFormed hu.wellFormed hm hpairs
  have hauth : (host, (mapTo host u (keptPairs S u ++ added)).authority) ∈ mappedHosts :=
    mapNewHost_mem hm
  refine ⟨host, mapTo host u (keptPairs S u ++ added), hl, htext.symm,
    ⟨hwf, rfl, hauth, rfl, rfl, added, rfl, pairsOf_queryOf hpairs, hbare, hsigned⟩, ?_, ?_⟩
  · intro url' u' a' hu' he expiry' nonce'
    unfold aqMapUrl
    rw [mapHostOf_mapped hwf hauth hu' (he.trans htext.symm)]
  · intro bytes hb P i
    rw [← htext] at hb
    exact tfMapsRewriteUrl_mapped rfl hauth hb P i

/-! ### A tile -/

def tileUri : Uri where
  scheme := str "http"
  authority := str "gspa21.ls.apple.com"
  path := str "/t%2F1"
  query := some (str "x=1&%74k=2&&q=a+b")
  fragment := some (str "f")

def tileUrl : NSURL where
  absoluteString := tileUri.text
  scheme := some (str "http")
  user := none
  password := none
  host := some (str "gspa21.ls.apple.com")
  port := none
  path := str "/t/1"
  query := some (str "x=1&%74k=2&&q=a+b")
  fragment := some (str "f")

def tileAuthority : Authority := ⟨none, str "gspa21.ls.apple.com", none⟩

theorem tileUrl_reads : UrlReader.unescaped.Reads tileUrl tileUri tileAuthority := by
  refine ⟨⟨by decide, ?_, .inr rfl, by decide, ?_⟩, ⟨?_, by decide, ?_⟩, rfl, rfl, rfl, rfl, rfl,
    rfl, rfl⟩
  · exact List.all_eq_true.mp (by decide)
  · rintro q ⟨⟩
    decide
  · rintro x ⟨⟩
  · rintro x ⟨⟩

/-- The digest and the ciphertext for the tile. -/
def tileServices : MapServices where
  unescape := fun s => some (if s = str "%74k" then str "tk" else s)
  alphanumeric := Char.isAlphanum
  sha256 := fun _ =>
    [121, 192, 51, 12, 85, 62, 8, 218, 30, 162, 255, 11, 182, 73, 24, 180, 237, 156, 34, 190, 133,
      97, 151, 193, 50, 48, 103, 115, 216, 144, 47, 140]
  ccEncrypt := fun _ _ => some
    [130, 32, 87, 216, 36, 240, 241, 217, 146, 9, 156, 181, 51, 239, 223, 155, 69, 255, 216, 239,
      66, 60, 159, 128, 77, 189, 164, 207, 184, 188, 102, 253, 51, 194, 68, 120, 250, 9, 184, 248,
      102, 163, 5, 176, 41, 241, 204, 114, 97, 252, 88, 103, 118, 192, 251, 223, 112, 85, 239, 113,
      123, 73, 83, 230, 119, 12, 96, 42, 81, 124, 225, 134, 101, 73, 149, 33, 84, 60, 23, 147, 75,
      76, 145, 99, 16, 206, 95, 245, 106, 119, 126, 228, 15, 26, 61, 43]

theorem mapUrl_tile : ∃ r,
    aqMapUrl tileServices tileUrl 1700004200 (str "0123456789abcdef") = some r ∧
    ∃ host v, tileUrl.lowerHost = some host ∧ r = v.text ∧
      Mapped tileServices host tileUri 1700004200 (str "0123456789abcdef") v ∧
      (∀ url' u' a', UrlReader.unescaped.Reads url' u' a' → url'.absoluteString = r →
        ∀ expiry' nonce', aqMapUrl tileServices url' expiry' nonce' = none) ∧
      ∀ bytes, Utf.toUtf8 r = some bytes → ∀ P i, Rewrite.tfMapsRewriteUrl P i bytes = none := by
  have hsome : (aqMapUrl tileServices tileUrl 1700004200 (str "0123456789abcdef")).isSome := by
    decide +kernel
  obtain ⟨r, hr⟩ := Option.isSome_iff_exists.mp hsome
  have hascii : tileUrl.absoluteString.all (fun c => c < 128) = true := by decide
  refine ⟨r, hr, mapUrl_mapped tileServices (fun _ _ => rfl) tileUrl_reads (fun c hc => ?_) hr⟩
  simpa using List.all_eq_true.mp hascii c hc

end AquaTransport
