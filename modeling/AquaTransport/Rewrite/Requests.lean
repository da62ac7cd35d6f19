import AquaTransport.Rewrite.Rules

/-!
# AquaTransport.Rewrite.Requests — the hooks on requests and messages

A hook is the list of what it does to the request it is given and to the log.  Each of the four entries
has a check of its own for the URLs of the authentication services (`reserved_untouched`), and the same
request goes through more than one of them (`rewrite_idempotent`, `owner_agrees`).
-/

namespace AquaTransport.Rewrite

open Glob

/-- On whose account a header is written. -/
inductive Origin
  | rule
  /-- The host went with a redirect. -/
  | redirect
  /-- `AQFindMyAdapter`. -/
  | adapter
  | caller
  deriving DecidableEq

inductive Effect
  | setURL (url : Chars)
  /-- No value removes the header. -/
  | setHeader (origin : Origin) (name : Chars) (value : Option Chars)
  | setBody (body : Chars)
  | log (line : Chars)
  deriving DecidableEq

/-- A request or a message.  Headers are found by their name in lower case. -/
structure Request where
  url : Option Chars
  headers : Chars → Option Chars := fun _ => none
  body : Chars := []

def Request.apply (m : Request) : Effect → Request
  | .setURL url => { m with url := some url }
  | .setHeader _ name value =>
    { m with headers := Function.update m.headers (name.map tolower) value }
  | .setBody body => { m with body := body }
  | .log _ => m

def Request.after (m : Request) (es : List Effect) : Request := es.foldl Request.apply m

/-! ### The adapters -/

/-- What the process has of Core Foundation, CFNetwork and the two adapters. -/
structure Platform where
  F : CoreFoundation
  resolved : Bool := true
  msgResolved : Bool := true
  /-- `copyRewrittenURL:` with the clock and the nonce of a call; none also when the class is not there
  or the string makes no URL. -/
  copyRewrittenURL : ℕ → Chars → Option Chars := fun _ _ => none
  /-- The body that `rewriteRequest:` sets, when it changes the request. -/
  findmyBody : Request → Option Chars := fun _ => none

def mapsHosts : List String :=
  ["gspa35-ssl.ls.apple.com", "gspa21.ls.apple.com", "gspa19.ls.apple.com", "gspa12.ls.apple.com",
    "gspa11.ls.apple.com"]

/-- The prefilter of `tf_maps_rewrite_url`. -/
def mapsHost (url : Chars) : Bool :=
  let host := if startsCase url "https://" then some (url.drop 8)
    else if startsCase url "http://" then some (url.drop 7) else none
  match host with
  | none => false
  | some host => mapsHosts.any fun h =>
      startsCase host h && ((host.drop h.length).head?.all fun c => c = 58 || !inAuthority c)

/-- `tf_maps_rewrite_url`. -/
def tfMapsRewriteUrl (P : Platform) (i : ℕ) (url : Chars) : Option Chars :=
  if mapsHost url then P.copyRewrittenURL i url else none

/-- `rewrite_findmy`. -/
def rewriteFindmy (P : Platform) (m : Request) : List Effect × Bool :=
  match P.findmyBody m with
  | none => ([], false)
  | some body => ([.setBody body, .setHeader .adapter (cstr "Content-Length") none], true)

/-! ### The hooks -/

/-- The flag leaves the URL to the authentication module. -/
def Config.reserved (C : Config) (url : Chars) : Bool := !C.disableIcloudGsa && gsaReservedUrl url

/-- `tf_log`. -/
def tfLog (C : Config) (line : Chars) : List Effect := if C.debug then [.log line] else []

def applyHeaderRule (F : CoreFoundation) (C : Config) (hr : TfHeaderrule) : List Effect :=
  hr.lines.flatMap fun line =>
    match headerLine F line with
    | none => []
    | some (name, value, val) =>
      .setHeader .rule name value :: tfLog C (cstr "header " ++ name ++ cstr ": " ++ val)

/-- `if (hr) apply_header_rule(hr, ...)`. -/
def applyHeaders (F : CoreFoundation) (C : Config) : Option TfHeaderrule → List Effect
  | none => []
  | some hr => applyHeaderRule F C hr

/-- What the adapter or the first redirect rule makes of a URL. -/
def rewriteURL (P : Platform) (C : Config) (i : ℕ) (before : Chars) : Option Chars :=
  match tfMapsRewriteUrl P i before with
  | some after => some after
  | none => tfApplyRedirect C before

def rewriteLine (P : Platform) (i : ℕ) (before after : Chars) : Chars :=
  if (tfMapsRewriteUrl P i before).isSome then cstr "rewrote legacy map service URL"
  else cstr "rewrite " ++ before ++ cstr " -> " ++ after

/-- The block `if (after)` of `apply_rules`: a host that the request names goes with the old URL. -/
def setRewritten (P : Platform) (C : Config) (i : ℕ) (before : Chars) : Option Chars → List Effect
  | none => []
  | some after =>
    (if P.F.url after then [.setURL after, .setHeader .redirect (cstr "Host") none] else []) ++
      tfLog C (rewriteLine P i before after)

/-- `apply_rules`, and what it returns. -/
def applyRules (P : Platform) (C : Config) (i : ℕ) (m : Request) : List Effect × Bool :=
  if P.resolved = false then ([], false)
  else
    match m.url with
    | none => ([], false)
    | some before =>
      if !C.disableIcloudGsa && findmyHost before then rewriteFindmy P m
      else if C.reserved before then ([], false)
      else
        let after := rewriteURL P C i before
        let hr := matchHeaders C (after.getD before)
        if after.isNone && hr.isNone then ([], false)
        else (setRewritten P C i before after ++ applyHeaders P.F C hr, true)

/-- `rewritten`: the copy, when something changed. -/
def rewritten (P : Platform) (C : Config) (i : ℕ) (m : Request) : Option Request :=
  if (applyRules P C i m).2 then some (m.after (applyRules P C i m).1) else none

/-- The request that `my_SendSync`, `my_CreateWithProps` and `my_Create` hand on. -/
def myCreate (P : Platform) (C : Config) (i : ℕ) (m : Request) : Request :=
  (rewritten P C i m).getD m

def myMutableCopy (P : Platform) (C : Config) (i : ℕ) (m : Request) : Request :=
  m.after (applyRules P C i m).1

/-- `my_MsgCreate`, on the message that the caller's URL makes. -/
def myMsgCreate (P : Platform) (C : Config) (i : ℕ) (before : Chars) : List Effect :=
  if P.msgResolved = false then []
  else if C.reserved before then []
  else
    let after := rewriteURL P C i before
    let hr := matchHeaders C (after.getD before)
    (match after with
      | none => []
      | some u => if P.F.url u then .setURL u :: tfLog C (rewriteLine P i before u) else []) ++
      applyHeaders P.F C hr

/-- The message that `my_MsgCreate` returns. -/
def message (P : Platform) (C : Config) (i : ℕ) (before : Chars) : Request :=
  Request.after { url := some before } (myMsgCreate P C i before)

def myMsgSetHeader (P : Platform) (C : Config) (msg : Request) (name : Chars)
    (value : Option Chars) : List Effect :=
  if P.msgResolved = false then [.setHeader .caller name value]
  else
    match msg.url with
    | none => [.setHeader .caller name value]
    | some before =>
      if C.reserved before then [.setHeader .caller name value]
      else
        match matchHeaders C ((tfApplyRedirect C before).getD before) with
        | none => [.setHeader .caller name value]
        | some hr =>
          if ruleSetsHeader hr name then
            tfLog C (cstr "header " ++ name ++ cstr " kept from rule, caller overruled")
          else [.setHeader .caller name value]

/-- `WKExternalURLRewrite`; `setURL` is a URL returned.  `headers` is whether there is a dictionary. -/
def WKExternalURLRewrite (F : CoreFoundation) (C : Config) (before : Chars) (headers : Bool) :
    List Effect :=
  let after := tfApplyRedirect C before
  (if headers then applyHeaders F C (matchHeaders C (after.getD before)) else []) ++
    match after with
    | none => []
    | some u =>
      (if F.url u then [.setURL u] else []) ++
        tfLog C (cstr "wk rewrite " ++ before ++ cstr " -> " ++ u)

/-! ### The URLs of the authentication services -/

section Reserved

variable {F : CoreFoundation} {P : Platform} {C : Config} {hr : TfHeaderrule} {e : Effect}
  {url line : Chars}

/-- No URL, no header rule's write and no text with the URL. -/
def Effect.Quiet (url : Chars) : Effect → Prop
  | .setURL _ => False
  | .setHeader origin _ _ => origin ≠ .rule ∧ origin ≠ .redirect
  | .setBody _ => True
  | .log line => ¬ url <:+: line

theorem mem_tfLog : e ∈ tfLog C line ↔ C.debug = true ∧ e = .log line := by
  unfold tfLog
  split_ifs with h <;> simp [h]

/-- What a header rule writes are the headers of its lines. -/
theorem setHeader_mem_rule {origin : Origin} {name : Chars} {value : Option Chars} :
    .setHeader origin name value ∈ applyHeaderRule F C hr ↔
      origin = .rule ∧ ∃ line ∈ hr.lines, ∃ val, headerLine F line = some (name, value, val) := by
  unfold applyHeaderRule
  rw [List.mem_flatMap]
  constructor
  · rintro ⟨line, hline, hmem⟩
    cases h : headerLine F line with
    | none => simp [h] at hmem
    | some x =>
      obtain ⟨n, v, val⟩ := x
      simp only [h, List.mem_cons, mem_tfLog, reduceCtorEq, and_false, or_false,
        Effect.setHeader.injEq] at hmem
      obtain ⟨rfl, rfl, rfl⟩ := hmem
      exact ⟨rfl, line, hline, val, h⟩
  · rintro ⟨rfl, line, hline, val, h⟩
    refine ⟨line, hline, ?_⟩
    rw [h]
    exact List.mem_cons_self

theorem applyHeaderRule_nil :
    applyHeaderRule F C hr = [] ↔ ∀ line ∈ hr.lines, headerLine F line = none := by
  unfold applyHeaderRule
  rw [List.flatMap_eq_nil_iff]
  refine forall_congr' fun line => forall_congr' fun _ => ?_
  cases headerLine F line <;> simp

/-- A rule that does anything writes a header. -/
theorem applyHeaderRule_quiet (h : ∀ e ∈ applyHeaderRule F C hr, e.Quiet url) :
    ∀ line ∈ hr.lines, headerLine F line = none := by
  intro line hline
  by_contra hne
  obtain ⟨⟨name, value, val⟩, hx⟩ := Option.ne_none_iff_exists'.mp hne
  exact (h _ (setHeader_mem_rule.mpr ⟨rfl, line, hline, val, hx⟩)).1 rfl

theorem rewriteFindmy_quiet {m : Request} : ∀ e ∈ (rewriteFindmy P m).1, e.Quiet url := by
  intro e he
  unfold rewriteFindmy at he
  split at he
  · cases he
  · simp only [List.mem_cons, List.not_mem_nil, or_false] at he
    rcases he with rfl | rfl
    · exact trivial
    · exact ⟨by decide, by decide⟩

/-- No rule has anything to do for the WebKit entry: a redirect is refused and not logged, a header
rule has no line that sets. -/
def WebKitIdle (F : CoreFoundation) (C : Config) (url : Chars) (headers : Bool) : Prop :=
  (∀ u, tfApplyRedirect C url = some u → F.url u = false ∧ C.debug = false) ∧
    (headers = true → ∀ hr, matchHeaders C ((tfApplyRedirect C url).getD url) = some hr →
      ∀ line ∈ hr.lines, headerLine F line = none)

theorem webkit_quiet {headers : Bool} :
    (∀ e ∈ WKExternalURLRewrite F C url headers, e.Quiet url) ↔ WebKitIdle F C url headers := by
  unfold WKExternalURLRewrite WebKitIdle
  dsimp only
  simp only [List.mem_append, or_imp, forall_and]
  rw [and_comm]
  refine and_congr ?_ ?_
  · cases hu : tfApplyRedirect C url with
    | none => simp
    | some u =>
      simp only [Option.some.injEq, forall_eq', List.mem_append, or_imp, forall_and]
      refine and_congr ?_ ?_
      · cases F.url u <;> simp [Effect.Quiet]
      · simp only [mem_tfLog, and_imp]
        constructor
        · intro h
          by_contra hd
          refine h _ (by simpa using hd) rfl ?_
          exact ⟨cstr "wk rewrite ", cstr " -> " ++ u, by simp⟩
        · intro h e hd
          rw [h] at hd
          cases hd
  · cases headers with
    | false => simp
    | true =>
      simp only [if_true, true_imp_iff]
      cases hm : matchHeaders C ((tfApplyRedirect C url).getD url) with
      | none => simp [applyHeaders]
      | some hr =>
        simp only [Option.some.injEq, forall_eq', applyHeaders]
        refine ⟨applyHeaderRule_quiet, fun h => ?_⟩
        rw [applyHeaderRule_nil.mpr h]
        simp

/-- **Authentication URLs and the general rules.**  On the CFNetwork entries a reserved URL keeps its
URL, its headers and its caller's writes, and is not logged; on the WebKit entry exactly when no rule
has anything to do. -/
theorem reserved_untouched (P : Platform) (C : Config) (hoff : C.disableIcloudGsa = false)
    {url : Chars} (hres : gsaReservedUrl url = true) :
    (∀ i m, m.url = some url → ∀ e ∈ (applyRules P C i m).1, e.Quiet url) ∧
      (∀ i, myMsgCreate P C i url = []) ∧
      (∀ m name value, m.url = some url →
        myMsgSetHeader P C m name value = [.setHeader .caller name value]) ∧
      ∀ headers, (∀ e ∈ WKExternalURLRewrite P.F C url headers, e.Quiet url) ↔
        WebKitIdle P.F C url headers := by
  have hC : C.reserved url = true := by simp [Config.reserved, hoff, hres]
  refine ⟨fun i m hm e he => ?_, fun i => ?_, fun m name value hm => ?_, fun _ => webkit_quiet⟩
  · unfold applyRules at he
    rw [hm] at he
    split_ifs at he with h1
    · cases he
    · simp only [hC, if_true] at he
      split_ifs at he with h2
      · exact rewriteFindmy_quiet e he
      · cases he
  · unfold myMsgCreate
    rw [hC, if_pos rfl, ite_self]
  · unfold myMsgSetHeader
    rw [hm]
    simp only [hC, if_true, ite_self]

end Reserved

/-- Core Foundation on strings of ASCII. -/
def asciiFoundation : CoreFoundation where
  utf8 s := s.all (· < 128)
  url s := s.all fun c => 32 < c && c < 127
  utf8_tolower s := by
    rw [List.all_map]
    refine congrArg s.all (funext fun c => ?_)
    have hlt : tolower c < 128 ↔ c < 128 := by
      unfold tolower
      split_ifs with h
      · have h90 : c.toNat ≤ 90 := UInt8.le_iff_toNat_le.mp h.2
        rw [UInt8.lt_iff_toNat_lt, UInt8.lt_iff_toNat_lt, UInt8.toNat_add]
        simp only [UInt8.reduceToNat]
        omega
      · rfl
    exact decide_eq_decide.mpr hlt

def plainPlatform : Platform where
  F := asciiFoundation

def redirectAll (fromUrl toUrl : String) : TfRedirect := ⟨cstr "*", cstr fromUrl, cstr toUrl⟩

/-- A rule on the login host. -/
def loginRedirected : Config where
  redirects := [redirectAll "https://gsa.apple.com/" "https://example.net/"]

theorem login_leads_away : .setURL (cstr "https://example.net/grandslam") ∈
    WKExternalURLRewrite asciiFoundation loginRedirected (cstr "https://gsa.apple.com/grandslam")
      true := by
  decide +kernel

theorem login_reserved : gsaReservedUrl (cstr "https://gsa.apple.com/grandslam") = true := by
  decide

/-- A patched WebKit takes a login request to another host. -/
theorem login_redirected :
    ¬ ∀ (F : CoreFoundation) (C : Config) (url : Chars) (headers : Bool),
      C.disableIcloudGsa = false → gsaReservedUrl url = true →
        ∀ e ∈ WKExternalURLRewrite F C url headers, e.Quiet url := by
  intro h
  exact h _ _ _ _ rfl login_reserved _ login_leads_away

theorem reserved_untouched_login :
    myMsgCreate plainPlatform loginRedirected 0 (cstr "https://gsa.apple.com/grandslam") = [] ∧
      ¬ WebKitIdle asciiFoundation loginRedirected (cstr "https://gsa.apple.com/grandslam") true := by
  obtain ⟨-, hmsg, -, hwk⟩ := reserved_untouched plainPlatform loginRedirected rfl login_reserved
  exact ⟨hmsg 0, fun hidle => (hwk true).mpr hidle _ login_leads_away⟩

/-! ### The same request twice -/

section Twice

variable {P : Platform} {C : Config} {m : Request} {es : List Effect} {i j : ℕ} {u v w : Chars}

theorem Request.after_append (m : Request) (es es' : List Effect) :
    m.after (es ++ es') = (m.after es).after es' :=
  List.foldl_append

/-- Only a `setURL` changes the URL. -/
theorem Request.url_after (h : ∀ u, .setURL u ∉ es) : (m.after es).url = m.url := by
  induction es generalizing m with
  | nil => rfl
  | cons e es ih =>
    have he : (m.apply e).url = m.url := by
      cases e with
      | setURL u => exact absurd List.mem_cons_self (h u)
      | setHeader origin name value => rfl
      | setBody body => rfl
      | log line => rfl
    show ((m.apply e).after es).url = m.url
    rw [ih fun u hu => h u (List.mem_cons_of_mem _ hu), he]

theorem setURL_not_mem_tfLog {line : Chars} : .setURL u ∉ tfLog C line := by
  rw [mem_tfLog]
  simp

theorem setURL_not_mem_headers {F : CoreFoundation} {hr : Option TfHeaderrule} :
    .setURL u ∉ applyHeaders F C hr := by
  cases hr with
  | none => simp [applyHeaders]
  | some hr =>
    unfold applyHeaders applyHeaderRule
    rw [List.mem_flatMap]
    rintro ⟨line, -, h⟩
    split at h
    · cases h
    · rw [List.mem_cons, mem_tfLog] at h
      rcases h with h | ⟨-, h⟩ <;> cases h

/-- The URL that one pass of the rules leaves. -/
def carried (P : Platform) (C : Config) (i : ℕ) (before : Chars) : Chars :=
  match rewriteURL P C i before with
  | none => before
  | some u => if P.F.url u then u else before

/-- One pass over a request. -/
theorem url_of_pass (hm : m.url = some u) : (myMutableCopy P C i m).url =
    some (if P.resolved = true ∧ C.reserved u = false then carried P C i u else u) := by
  unfold myMutableCopy applyRules
  rw [hm]
  by_cases hP : P.resolved = true
  swap
  · rw [if_pos (by simpa using hP), if_neg fun h => hP h.1]
    exact hm
  rw [if_neg (by simp [hP])]
  by_cases hfm : (!C.disableIcloudGsa && findmyHost u) = true
  · -- the adapter's request keeps its URL
    have hres : C.reserved u = true := by
      rw [Bool.and_eq_true] at hfm
      simp [Config.reserved, gsaReservedUrl, hfm.1, hfm.2]
    rw [if_neg fun h => by rw [hres] at h; exact absurd h.2 (by decide)]
    simp only [if_pos hfm]
    rw [Request.url_after, hm]
    intro v hv
    exact (rewriteFindmy_quiet _ hv : (Effect.setURL v).Quiet u)
  simp only [if_neg hfm]
  cases hres : C.reserved u with
  | true => simpa [Request.after] using hm
  | false =>
    simp only [Bool.false_eq_true, if_false, hP, and_self, if_true, carried]
    cases hr : rewriteURL P C i u with
    | none =>
      split_ifs with hno
      · exact hm
      · rw [setRewritten, List.nil_append, Request.url_after fun v => setURL_not_mem_headers]
        exact hm
    | some v =>
      rw [Option.isNone_some, Bool.false_and, if_neg (by decide), setRewritten,
        Request.after_append, Request.url_after fun w => setURL_not_mem_headers,
        Request.after_append, Request.url_after fun w => setURL_not_mem_tfLog]
      show _ = some (if P.F.url v = true then v else u)
      split_ifs with hv
      · rfl
      · exact hm

/-- What the map adapter puts in the place of `u`, or else the first rule that applies. -/
inductive Replaces (P : Platform) (C : Config) (i : ℕ) (u : Chars) : Chars → Prop
  | adapter {t : Chars} (h : tfMapsRewriteUrl P i u = some t) : Replaces P C i u t
  | rule {r : TfRedirect} {w rest : Chars} (hno : tfMapsRewriteUrl P i u = none)
      (h : Redirected C u r w rest) : Replaces P C i u (r.toUrl ++ rest)

/-- No rule in scope has a pattern that `u` starts with. -/
def Unmatched (C : Config) (u : Chars) : Prop := ∀ r ∈ C.redirects, r.applies C.who u = false

/-- The map adapter makes nothing of `u`, whatever its clock and its nonce. -/
def Silent (P : Platform) (u : Chars) : Prop := ∀ i, tfMapsRewriteUrl P i u = none

theorem rewriteURL_iff : rewriteURL P C i u = some v ↔ Replaces P C i u v := by
  unfold rewriteURL
  constructor
  · intro h
    cases hmap : tfMapsRewriteUrl P i u with
    | some t =>
      rw [hmap] at h
      exact Option.some.inj h ▸ .adapter hmap
    | none =>
      rw [hmap] at h
      obtain ⟨r, w, rest, hr, rfl⟩ := tfApplyRedirect_some.mp h
      exact .rule hmap hr
  · rintro (hmap | ⟨hmap, hr⟩)
    · rw [hmap]
    · rw [hmap]
      exact hr.applied

theorem rewriteURL_none :
    rewriteURL P C i u = none ↔ tfMapsRewriteUrl P i u = none ∧ Unmatched C u := by
  unfold rewriteURL
  cases tfMapsRewriteUrl P i u with
  | some t => simp
  | none =>
    simp only [true_and]
    exact tfApplyRedirect_none

theorem carried_of_replaces (h : Replaces P C i u v) :
    carried P C i u = if P.F.url v then v else u := by
  unfold carried
  rw [rewriteURL_iff.mpr h]

theorem carried_of_unmatched (hmap : tfMapsRewriteUrl P i u = none) (h : Unmatched C u) :
    carried P C i u = u := by
  unfold carried
  rw [rewriteURL_none.mpr ⟨hmap, h⟩]

/-- No pattern in scope matches a target with what the pattern before left of the URL: the rules are
through with a request after one pass. -/
inductive Ends (P : Platform) (C : Config) (i : ℕ) (u : Chars) : Prop
  /-- CFNetwork's functions were not found. -/
  | unresolved (h : P.resolved = false)
  | untouched (hs : Silent P u) (h : Unmatched C u)
  /-- Target and rest make no `CFURL`. -/
  | refused {r : TfRedirect} {w rest : Chars} (hs : Silent P u) (h : Redirected C u r w rest)
      (hno : P.F.url (r.toUrl ++ rest) = false)
  | reserved {t : Chars} (h : Replaces P C i u t) (hurl : P.F.url t = true)
      (hres : C.reserved t = true)
  | last {t : Chars} (h : Replaces P C i u t) (hurl : P.F.url t = true) (hs : Silent P t)
      (hno : Unmatched C t)

/-- No rule in scope puts back the word that it takes, and what follows the word in a URL makes a URL
with the target; what the map adapter rewrites once it rewrites at every call, to another URL. -/
structure Moves (P : Platform) (C : Config) : Prop where
  rules : ∀ r ∈ C.redirects, tfScopeMatches C.who r.scope = true →
    ∀ w, InLang 42 47 r.fromUrl w →
      r.toUrl ≠ w ∧ ∀ rest, P.F.url (w ++ rest) = true → P.F.url (r.toUrl ++ rest) = true
  adapter : ∀ i v t, tfMapsRewriteUrl P i v = some t →
    ∀ j, ∃ t', tfMapsRewriteUrl P j v = some t' ∧ t' ≠ v ∧ P.F.url t' = true

theorem Moves.silent (h : Moves P C) (hmap : tfMapsRewriteUrl P i u = none) : Silent P u := by
  intro j
  by_contra hne
  obtain ⟨t, ht⟩ := Option.ne_none_iff_exists'.mp hne
  obtain ⟨t', ht', -⟩ := h.adapter j u t ht i
  rw [hmap] at ht'
  cases ht'

/-- A URL that a rule in scope matches does not stay. -/
theorem Moves.carried_ne (h : Moves P C) (hurl : P.F.url u = true)
    (hon : ¬ (Silent P u ∧ Unmatched C u)) : carried P C j u ≠ u := by
  cases hr : rewriteURL P C j u with
  | none =>
    obtain ⟨hmap, hno⟩ := rewriteURL_none.mp hr
    exact absurd ⟨h.silent hmap, hno⟩ hon
  | some t =>
    rw [rewriteURL_iff] at hr
    have ht : t ≠ u ∧ P.F.url t = true := by
      cases hr with
      | adapter hmap =>
        obtain ⟨t', ht', hne⟩ := h.adapter j u t hmap j
        obtain rfl := Option.some.inj (hmap.symm.trans ht')
        exact hne
      | rule hno hred =>
        obtain ⟨hne, hgood⟩ := h.rules _ hred.mem hred.scope _ hred.word
        rw [hred.split] at hurl ⊢
        exact ⟨fun heq => hne (List.append_cancel_right heq), hgood _ hurl⟩
    rw [carried_of_replaces hr, if_pos ht.2]
    exact ht.1

/-- The URL after one pass is final. -/
theorem Ends.carried (h : Ends P C i u) (hP : P.resolved = true)
    (hfree : C.reserved (carried P C i u) = false) :
    carried P C j (carried P C i u) = carried P C i u := by
  cases h with
  | unresolved hno => exact absurd (hno.symm.trans hP) (by decide)
  | untouched hs hno =>
    rw [carried_of_unmatched (hs i) hno]
    exact carried_of_unmatched (hs j) hno
  | refused hs hred hno =>
    have hstay : ∀ k, Rewrite.carried P C k u = u := fun k => by
      rw [carried_of_replaces (.rule (hs k) hred), hno, if_neg Bool.false_ne_true]
    rw [hstay, hstay]
  | reserved ht hurl hres =>
    rw [carried_of_replaces ht, if_pos hurl, hres] at hfree
    cases hfree
  | last ht hurl hs hno =>
    rw [carried_of_replaces ht, if_pos hurl]
    exact carried_of_unmatched (hs j) hno

theorem Moves.ends (h : Moves P C)
    (hstay : C.reserved (carried P C i u) = false →
      carried P C j (carried P C i u) = carried P C i u) : Ends P C i u := by
  cases hr : rewriteURL P C i u with
  | none =>
    obtain ⟨hmap, hno⟩ := rewriteURL_none.mp hr
    exact .untouched (h.silent hmap) hno
  | some t =>
    rw [rewriteURL_iff] at hr
    rw [carried_of_replaces hr] at hstay
    cases hurl : P.F.url t with
    | false =>
      cases hr with
      | adapter hmap =>
        obtain ⟨t', ht', -, hurl'⟩ := h.adapter i u t hmap i
        obtain rfl := Option.some.inj (hmap.symm.trans ht')
        exact absurd (hurl.symm.trans hurl') (by decide)
      | rule hmap hred => exact .refused (h.silent hmap) hred hurl
    | true =>
      rw [hurl, if_pos rfl] at hstay
      cases hres : C.reserved t with
      | true => exact .reserved hr hurl hres
      | false =>
        by_cases hon : Silent P t ∧ Unmatched C t
        · exact .last hr hurl hon.1 hon.2
        · exact absurd (hstay hres) (h.carried_ne hurl hon)

/-- A request that `apply_rules` reports as unchanged is. -/
theorem applyRules_unchanged (h : (applyRules P C i m).2 = false) : (applyRules P C i m).1 = [] := by
  unfold applyRules at h ⊢
  split_ifs at h ⊢ with h1
  · rfl
  · cases hm : m.url with
    | none => rfl
    | some before =>
      rw [hm] at h
      dsimp only at h ⊢
      split_ifs at h ⊢ with h2 h3 h4
      · unfold rewriteFindmy at h ⊢
        cases hb : P.findmyBody m with
        | none => rfl
        | some body => simp [hb] at h
      · rfl
      · rfl

theorem myCreate_eq (P : Platform) (C : Config) (i : ℕ) (m : Request) :
    myCreate P C i m = myMutableCopy P C i m := by
  unfold myCreate rewritten myMutableCopy
  split_ifs with h
  · rfl
  · rw [applyRules_unchanged (by simpa using h)]
    rfl

end Twice

/-- **Idempotence of the rules.**  A request that goes through the rules twice, in two mutable copies or
in a copy and a connection, has the URL of a request that goes through them once when no pattern in
scope matches the first target with its rest; and only then, where every rule moves what it matches. -/
theorem rewrite_idempotent (P : Platform) (C : Config) (i j : ℕ) {m : Request} {u : Chars}
    (hm : m.url = some u) (hres : C.reserved u = false) :
    (Ends P C i u →
      (myMutableCopy P C j (myMutableCopy P C i m)).url = (myMutableCopy P C i m).url ∧
        (myCreate P C j (myMutableCopy P C i m)).url = (myMutableCopy P C i m).url) ∧
    (Moves P C →
      (myMutableCopy P C j (myMutableCopy P C i m)).url = (myMutableCopy P C i m).url ∨
        (myCreate P C j (myMutableCopy P C i m)).url = (myMutableCopy P C i m).url →
      Ends P C i u) := by
  rw [myCreate_eq, and_self, or_self]
  have h1 := url_of_pass (P := P) (C := C) (i := i) hm
  rw [url_of_pass h1, h1, Option.some.injEq]
  cases hP : P.resolved with
  | false =>
    simp only [Bool.false_eq_true, false_and, if_false, implies_true, forall_const, true_and]
    exact fun _ => .unresolved hP
  | true =>
    simp only [hres, true_and, and_self, if_true]
    constructor
    · intro h
      split_ifs with hfree
      · exact h.carried hP hfree
      · rfl
    · intro h hstay
      refine h.ends (j := j) fun hfree => ?_
      rwa [if_pos hfree] at hstay

/-- A rule whose target its own pattern matches. -/
def intoItself : Config where
  redirects := [redirectAll "https://example.com/" "https://example.com/v2/"]

def unversioned : Request := { url := some (cstr "https://example.com/x") }

theorem unversioned_free : intoItself.reserved (cstr "https://example.com/x") = false := by
  decide

/-- Each pass adds to the URL. -/
theorem unversioned_grows :
    (myMutableCopy plainPlatform intoItself 0 (myMutableCopy plainPlatform intoItself 0
      unversioned)).url ≠ (myMutableCopy plainPlatform intoItself 0 unversioned).url := by
  decide +kernel

theorem rewrite_grows : ¬ ∀ (P : Platform) (C : Config) (i j : ℕ) (m : Request) (u : Chars),
    m.url = some u → C.reserved u = false →
      (myMutableCopy P C j (myMutableCopy P C i m)).url = (myMutableCopy P C i m).url := by
  intro h
  exact unversioned_grows (h _ _ _ _ _ _ rfl unversioned_free)

theorem intoItself_moves : Moves plainPlatform intoItself where
  rules := by
    intro r hr _ w hw
    obtain rfl := List.mem_singleton.mp hr
    obtain rfl := (inLang_literal (by decide)).mp hw
    refine ⟨by decide, fun rest hurl => ?_⟩
    simp only [plainPlatform, asciiFoundation, List.all_append, Bool.and_eq_true] at hurl ⊢
    exact ⟨by decide, hurl.2⟩
  adapter := by
    intro i v t h
    unfold tfMapsRewriteUrl at h
    split_ifs at h with hmap
    exact absurd h (by simp [plainPlatform])

/-- The rules are through with a URL of another host, and never with one of this host. -/
theorem rewrite_idempotent_intoItself :
    Ends plainPlatform intoItself 0 (cstr "https://example.org/x") ∧
      ¬ Ends plainPlatform intoItself 0 (cstr "https://example.com/x") := by
  constructor
  · have h := rewrite_idempotent plainPlatform intoItself 0 0
      (m := { url := some (cstr "https://example.org/x") }) rfl (by decide)
    exact h.2 intoItself_moves (.inl (by decide +kernel))
  · intro hends
    have h := rewrite_idempotent plainPlatform intoItself 0 0 (m := unversioned) rfl
      unversioned_free
    exact unversioned_grows (h.1 hends).1

/-! ### Who owns a header -/

section Owner

variable {F : CoreFoundation} {P : Platform} {C : Config} {hr : TfHeaderrule} {i : ℕ}
  {u v name n line : Chars} {value : Option Chars} {msg : Request}

theorem headerLine_name : (∃ value val, headerLine F line = some (n, value, val)) ↔
    58 ∈ line ∧ n = line.takeWhile (· ≠ 58) ∧ n ≠ [] ∧ n.length < 128 ∧ F.utf8 n = true := by
  unfold headerLine
  constructor
  · rintro ⟨value, val, h⟩
    dsimp only at h
    split_ifs at h with h1 h2 h3
    all_goals
      rw [not_or] at h2
      obtain ⟨rfl, -⟩ := Prod.mk.inj (Option.some.inj h)
      exact ⟨h1, rfl, h2.1, by omega, h3⟩
  · rintro ⟨h1, rfl, h2, h3, h4⟩
    rw [if_pos h1]
    dsimp only
    rw [if_neg (by rw [not_or]; exact ⟨h2, by omega⟩), if_pos h4]
    exact ⟨_, _, rfl⟩

theorem ruleSetsHeader_iff : ruleSetsHeader hr name = true ↔
    ∃ line ∈ hr.lines, 58 ∈ line ∧ (line.takeWhile (· ≠ 58)).map tolower = name.map tolower := by
  unfold ruleSetsHeader
  rw [List.any_eq_true]
  refine exists_congr fun line => and_congr_right fun _ => ?_
  split_ifs with h
  · simp only [Bool.and_eq_true, decide_eq_true_iff, h, true_and]
    refine ⟨fun h => h.2, fun h => ⟨?_, h⟩⟩
    simpa using congrArg List.length h
  · simp [h]

/-- The names that a rule writes are those that it lists, less the empty one and those of 128 bytes and
more. -/
theorem writes_iff (hname : F.utf8 name = true) :
    (∃ n value, .setHeader .rule n value ∈ applyHeaderRule F C hr ∧
        n.map tolower = name.map tolower) ↔
      ruleSetsHeader hr name = true ∧ name ≠ [] ∧ name.length < 128 := by
  have hlen : ∀ {n : Chars}, n.map tolower = name.map tolower → n.length = name.length := fun h => by
    simpa using congrArg List.length h
  rw [ruleSetsHeader_iff]
  constructor
  · rintro ⟨n, value, hmem, hn⟩
    obtain ⟨-, line, hline, val, h⟩ := setHeader_mem_rule.mp hmem
    obtain ⟨h1, rfl, h2, h3, -⟩ := headerLine_name.mp ⟨value, val, h⟩
    refine ⟨⟨line, hline, h1, hn⟩, ?_, hlen hn ▸ h3⟩
    rintro rfl
    exact h2 (List.length_eq_zero_iff.mp (hlen hn))
  · rintro ⟨⟨line, hline, h1, hn⟩, h2, h3⟩
    have hutf : F.utf8 (line.takeWhile (· ≠ 58)) = true := by
      rw [← F.utf8_tolower, hn, F.utf8_tolower, hname]
    have hne : line.takeWhile (· ≠ 58) ≠ [] := fun h0 =>
      h2 (List.length_eq_zero_iff.mp (by rw [← hlen hn, h0]; rfl))
    obtain ⟨value, val, h⟩ := headerLine_name.mpr ⟨h1, rfl, hne, by rw [hlen hn]; exact h3, hutf⟩
    exact ⟨_, value, setHeader_mem_rule.mpr ⟨rfl, line, hline, val, h⟩, hn⟩

/-- The header rule for `t` has a line with the name. -/
def Owns (C : Config) (t name : Chars) : Prop :=
  ∃ hr, matchHeaders C t = some hr ∧ ruleSetsHeader hr name = true

/-- The header rule that `my_MsgCreate` applied wrote the header. -/
def WroteHeader (P : Platform) (C : Config) (i : ℕ) (u name : Chars) : Prop :=
  ∃ n value, .setHeader .rule n value ∈ myMsgCreate P C i u ∧ n.map tolower = name.map tolower

theorem wroteHeader_iff (hP : P.msgResolved = true) (hres : C.reserved u = false)
    (hname : P.F.utf8 name = true) : WroteHeader P C i u name ↔
      Owns C ((rewriteURL P C i u).getD u) name ∧ name ≠ [] ∧ name.length < 128 := by
  have hmem : ∀ n value, .setHeader .rule n value ∈ myMsgCreate P C i u ↔
      .setHeader .rule n value ∈
        applyHeaders P.F C (matchHeaders C ((rewriteURL P C i u).getD u)) := by
    intro n value
    unfold myMsgCreate
    rw [if_neg (by simp [hP]), if_neg (by simp [hres]), List.mem_append, or_iff_right]
    cases rewriteURL P C i u with
    | none => simp
    | some w =>
      dsimp only
      split_ifs <;> simp [mem_tfLog]
  unfold WroteHeader Owns
  simp only [hmem]
  cases matchHeaders C ((rewriteURL P C i u).getD u) with
  | none => simp [applyHeaders]
  | some hr =>
    simp only [applyHeaders, Option.some.injEq, exists_eq_left']
    exact writes_iff hname

/-- The setter takes the header for a rule's. -/
def Ours (P : Platform) (C : Config) (msg : Request) (name : Chars) : Prop :=
  P.msgResolved = true ∧ ∃ v, msg.url = some v ∧ C.reserved v = false ∧
    Owns C ((tfApplyRedirect C v).getD v) name

theorem myMsgSetHeader_ours (h : Ours P C msg name) :
    .setHeader .caller name value ∉ myMsgSetHeader P C msg name value := by
  obtain ⟨hP, v, hv, hres, hr, hm, hs⟩ := h
  unfold myMsgSetHeader
  rw [if_neg (by simp [hP]), hv]
  dsimp only
  rw [if_neg (by simp [hres]), hm]
  simp only [hs, if_true, mem_tfLog, reduceCtorEq, and_false, not_false_eq_true]

theorem myMsgSetHeader_theirs (h : ¬ Ours P C msg name) :
    myMsgSetHeader P C msg name value = [.setHeader .caller name value] := by
  unfold myMsgSetHeader
  split_ifs with hP
  · rfl
  · cases hv : msg.url with
    | none => rfl
    | some v =>
      dsimp only
      split_ifs with hres
      · rfl
      · cases hm : matchHeaders C ((tfApplyRedirect C v).getD v) with
        | none => rfl
        | some hr =>
          refine if_neg fun hs => h ⟨by simpa using hP, v, hv, by simpa using hres, hr, hm, hs⟩

/-- The URL of the message that the hook returns. -/
theorem message_url (hP : P.msgResolved = true) (hres : C.reserved u = false) :
    (message P C i u).url = some (carried P C i u) := by
  unfold message myMsgCreate
  rw [if_neg (by simp [hP]), if_neg (by simp [hres])]
  dsimp only
  rw [Request.after_append, Request.url_after fun w => setURL_not_mem_headers]
  unfold carried
  cases rewriteURL P C i u with
  | none => rfl
  | some w =>
    dsimp only
    split_ifs with hw
    · exact Request.url_after (m := { url := some w }) fun x => setURL_not_mem_tfLog
    · rfl

/-- A name that `apply_header_rule` has room for. -/
def Writable (name : Chars) : Prop := name ≠ [] ∧ name.length < 128

/-- The message has `v`, from which no redirect goes on. -/
inductive Rests (P : Platform) (C : Config) (i : ℕ) (u : Chars) : Chars → Prop
  | untouched (hmap : tfMapsRewriteUrl P i u = none) (hno : Unmatched C u) : Rests P C i u u
  | last {t : Chars} (h : Replaces P C i u t) (hurl : P.F.url t = true) (hno : Unmatched C t) :
    Rests P C i u t

/-- What the creation does to the URL and to the name leaves the setter the same rule. -/
inductive OneOwner (P : Platform) (C : Config) (i : ℕ) (u name : Chars) : Prop
  | unresolved (h : P.msgResolved = false)
  | unlisted (h : ∀ hr ∈ C.headerrules, tfScopeMatches C.who hr.scope = true →
      ruleSetsHeader hr name = false)
  /-- The message keeps `u`, and the setter redirects it again. -/
  | refused {r : TfRedirect} {w rest : Chars} (hname : Writable name)
      (hmap : tfMapsRewriteUrl P i u = none) (h : Redirected C u r w rest)
      (hno : P.F.url (r.toUrl ++ rest) = false)
  | rests {v : Chars} (hname : Writable name) (h : Rests P C i u v) (hfree : C.reserved v = false)

/-- The setter matches the header rules with `v`. -/
inductive Sought (P : Platform) (C : Config) (i : ℕ) (u : Chars) : Chars → Prop
  | rests {v : Chars} (h : Rests P C i u v) (hfree : C.reserved v = false) : Sought P C i u v
  | refused {r : TfRedirect} {w rest : Chars} (hmap : tfMapsRewriteUrl P i u = none)
      (h : Redirected C u r w rest) (hno : P.F.url (r.toUrl ++ rest) = false) :
    Sought P C i u (r.toUrl ++ rest)
  | onward {t : Chars} {r : TfRedirect} {w rest : Chars} (h : Replaces P C i u t)
      (hurl : P.F.url t = true) (hfree : C.reserved t = false) (hon : Redirected C t r w rest) :
    Sought P C i u (r.toUrl ++ rest)

/-- The target is reserved, a redirect goes on from it to a rule that differs on the name, or the name
is listed and not written. -/
inductive Strays (P : Platform) (C : Config) (i : ℕ) (u name : Chars) : Prop
  | reserved {t : Chars} (hname : Writable name) (h : Replaces P C i u t) (hurl : P.F.url t = true)
      (hres : C.reserved t = true) (hown : Owns C t name)
  | onward {t : Chars} {r : TfRedirect} {w rest : Chars} (hname : Writable name)
      (h : Replaces P C i u t) (hurl : P.F.url t = true) (hfree : C.reserved t = false)
      (hon : Redirected C t r w rest) (hdiff : ¬ (Owns C (r.toUrl ++ rest) name ↔ Owns C t name))
  | unwritable {v : Chars} (hname : ¬ Writable name) (h : Sought P C i u v) (hown : Owns C v name)

theorem Rests.carried (h : Rests P C i u v) : carried P C i u = v := by
  cases h with
  | untouched hmap hno => exact carried_of_unmatched hmap hno
  | last ht hurl hno => rw [carried_of_replaces ht, if_pos hurl]

theorem Rests.effective (h : Rests P C i u v) : (rewriteURL P C i u).getD u = v := by
  cases h with
  | untouched hmap hno => rw [rewriteURL_none.mpr ⟨hmap, hno⟩, Option.getD_none]
  | last ht hurl hno => rw [rewriteURL_iff.mpr ht, Option.getD_some]

theorem Rests.unmatched (h : Rests P C i u v) : (tfApplyRedirect C v).getD v = v := by
  have hno : Unmatched C v := by
    cases h with
    | untouched hmap hno => exact hno
    | last ht hurl hno => exact hno
  rw [tfApplyRedirect_none.mpr hno, Option.getD_none]

theorem not_owns (h : ∀ hr ∈ C.headerrules, tfScopeMatches C.who hr.scope = true →
    ruleSetsHeader hr name = false) : ¬ Owns C v name := by
  rintro ⟨hr, hm, hs⟩
  have hp := List.find?_some hm
  rw [Bool.and_eq_true] at hp
  exact absurd (hs.symm.trans (h hr (List.mem_of_find?_eq_some hm) hp.1)) (by decide)

/-- The setter looks at the URL of the message, the creation at what was made of the caller's. -/
theorem ours_iff_wrote (hP : P.msgResolved = true) (hres : C.reserved u = false)
    (hname : P.F.utf8 name = true) (hv : carried P C i u = v) :
    (Ours P C (message P C i u) name ↔ WroteHeader P C i u name) ↔
      (C.reserved v = false ∧ Owns C ((tfApplyRedirect C v).getD v) name ↔
        Owns C ((rewriteURL P C i u).getD u) name ∧ Writable name) := by
  rw [wroteHeader_iff hP hres hname, ← hv]
  unfold Ours
  rw [message_url hP hres]
  simp only [hP, true_and, Option.some.injEq, exists_eq_left']
  rfl

theorem Sought.looked (h : Sought P C i u v) (hres : C.reserved u = false) :
    C.reserved (carried P C i u) = false ∧
      (tfApplyRedirect C (carried P C i u)).getD (carried P C i u) = v := by
  cases h with
  | rests hrest hfree =>
    rw [hrest.carried]
    exact ⟨hfree, hrest.unmatched⟩
  | refused hmap hred hno =>
    rw [carried_of_replaces (.rule hmap hred), hno, if_neg Bool.false_ne_true, hred.applied]
    exact ⟨hres, rfl⟩
  | onward ht hurl hfree hon =>
    rw [carried_of_replaces ht, if_pos hurl, hon.applied]
    exact ⟨hfree, rfl⟩

theorem OneOwner.agree (h : OneOwner P C i u name) (hres : C.reserved u = false)
    (hname : P.F.utf8 name = true) :
    Ours P C (message P C i u) name ↔ WroteHeader P C i u name := by
  cases hP : P.msgResolved with
  | false =>
    have hno : myMsgCreate P C i u = [] := if_pos hP
    simp [Ours, WroteHeader, hno, hP]
  | true =>
    cases h with
    | unresolved hno => exact absurd (hP.symm.trans hno) (by decide)
    | unlisted hno =>
      rw [ours_iff_wrote hP hres hname rfl]
      exact iff_of_false (fun h => not_owns hno h.2) fun h => not_owns hno h.1
    | refused hw hmap hred hno =>
      have hrep := Replaces.rule hmap hred
      have hv : carried P C i u = u := by
        rw [carried_of_replaces hrep, hno, if_neg Bool.false_ne_true]
      rw [ours_iff_wrote hP hres hname hv, hred.applied, rewriteURL_iff.mpr hrep,
        Option.getD_some]
      simp only [hres, hw, true_and, and_true]
    | rests hw hrest hfree =>
      rw [ours_iff_wrote hP hres hname hrest.carried, hrest.effective, hrest.unmatched]
      simp only [hfree, hw, true_and, and_true]

theorem Strays.disagree (h : Strays P C i u name) (hP : P.msgResolved = true)
    (hres : C.reserved u = false) (hname : P.F.utf8 name = true) :
    ¬ (Ours P C (message P C i u) name ↔ WroteHeader P C i u name) := by
  cases h with
  | reserved hw ht hurl hr hown =>
    have hv := carried_of_replaces ht
    rw [if_pos hurl] at hv
    rw [ours_iff_wrote hP hres hname hv, rewriteURL_iff.mpr ht, Option.getD_some]
    exact fun h => absurd (hr.symm.trans (h.mpr ⟨hown, hw⟩).1) (by decide)
  | onward hw ht hurl hfree hon hdiff =>
    have hv := carried_of_replaces ht
    rw [if_pos hurl] at hv
    rw [ours_iff_wrote hP hres hname hv, rewriteURL_iff.mpr ht, hon.applied, Option.getD_some,
      Option.getD_some]
    simpa only [hfree, hw, true_and, and_true] using hdiff
  | unwritable hw hlook hown =>
    obtain ⟨hfree, hv⟩ := hlook.looked hres
    rw [ours_iff_wrote hP hres hname rfl, hv]
    exact fun h => hw (h.mp ⟨hfree, hown⟩).2

/-- Where the map adapter makes URLs, `Strays` is all that can go wrong. -/
theorem agree_of_not_strays (h : ¬ Strays P C i u name) (hP : P.msgResolved = true)
    (hadapter : ∀ t, tfMapsRewriteUrl P i u = some t → P.F.url t = true)
    (hres : C.reserved u = false) (hname : P.F.utf8 name = true) :
    Ours P C (message P C i u) name ↔ WroteHeader P C i u name := by
  -- a name that cannot be written is not listed where the setter looks
  have hunlisted : ∀ v, ¬ Writable name → Sought P C i u v →
      (Ours P C (message P C i u) name ↔ WroteHeader P C i u name) := by
    intro v hw hlook
    obtain ⟨-, hv⟩ := hlook.looked hres
    rw [ours_iff_wrote hP hres hname rfl, hv]
    exact iff_of_false (fun ho => h (.unwritable hw hlook ho.2)) fun ho => hw ho.2
  have hrests : ∀ v, Rests P C i u v → C.reserved v = false →
      (Ours P C (message P C i u) name ↔ WroteHeader P C i u name) := by
    intro v hrest hfree
    by_cases hw : Writable name
    · exact (OneOwner.rests hw hrest hfree).agree hres hname
    · exact hunlisted v hw (.rests hrest hfree)
  cases hr : rewriteURL P C i u with
  | none =>
    obtain ⟨hmap, hno⟩ := rewriteURL_none.mp hr
    exact hrests u (.untouched hmap hno) hres
  | some t =>
    have ht := rewriteURL_iff.mp hr
    cases hurl : P.F.url t with
    | false =>
      cases ht with
      | adapter hmap => exact absurd ((hadapter t hmap).symm.trans hurl) (by decide)
      | rule hmap hred =>
        by_cases hw : Writable name
        · exact (OneOwner.refused hw hmap hred hurl).agree hres hname
        · exact hunlisted _ hw (.refused hmap hred hurl)
    | true =>
      have hv := carried_of_replaces ht
      rw [if_pos hurl] at hv
      cases hfree : C.reserved t with
      | true =>
        rw [ours_iff_wrote hP hres hname hv, hr, Option.getD_some]
        refine iff_of_false (fun ho => ?_) fun ho => h (.reserved ho.2 ht hurl hfree ho.1)
        exact absurd (hfree.symm.trans ho.1) (by decide)
      | false =>
        cases hon : tfApplyRedirect C t with
        | none => exact hrests t (.last ht hurl (tfApplyRedirect_none.mp hon)) hfree
        | some x =>
          obtain ⟨r, w, rest, hred, rfl⟩ := tfApplyRedirect_some.mp hon
          by_cases hw : Writable name
          · have hsame : Owns C (r.toUrl ++ rest) name ↔ Owns C t name :=
              not_not.mp fun hdiff => h (.onward hw ht hurl hfree hred hdiff)
            rw [ours_iff_wrote hP hres hname hv, hr, hon, Option.getD_some, Option.getD_some]
            simpa only [hfree, hw, true_and, and_true] using hsame
          · exact hunlisted _ hw (.onward ht hurl hfree hred)

end Owner

/-- The caller's write is dropped just for a header that the rule at creation wrote, and any other
header has the caller's value. -/
def Agree (P : Platform) (C : Config) (i : ℕ) (u name : Chars) (value : Option Chars) : Prop :=
  (.setHeader .caller name value ∉ myMsgSetHeader P C (message P C i u) name value ↔
      WroteHeader P C i u name) ∧
    (¬ WroteHeader P C i u name →
      ((message P C i u).after (myMsgSetHeader P C (message P C i u) name value)).headers
        (name.map tolower) = value)

theorem agree_iff {P : Platform} {C : Config} {i : ℕ} {u name : Chars} {value : Option Chars} :
    Agree P C i u name value ↔ (Ours P C (message P C i u) name ↔ WroteHeader P C i u name) := by
  have hdrop : .setHeader .caller name value ∉ myMsgSetHeader P C (message P C i u) name value ↔
      Ours P C (message P C i u) name := by
    by_cases h : Ours P C (message P C i u) name
    · exact ⟨fun _ => h, fun _ => myMsgSetHeader_ours h⟩
    · rw [myMsgSetHeader_theirs h]
      simpa using h
  unfold Agree
  rw [hdrop]
  refine ⟨fun h => h.1, fun h => ⟨h, fun hno => ?_⟩⟩
  rw [myMsgSetHeader_theirs fun ho => hno (h.mp ho)]
  show Function.update (message P C i u).headers (name.map tolower) value (name.map tolower) = value
  rw [Function.update_self]

/-- **Creation and setter on a header's owner.**  They agree when the message's URL is free and no
redirect goes on from it, for every name that can be written, and for every name that no rule lists;
they do not when the target is reserved and its rule lists the name, when a redirect goes on from it to
a rule that differs on the name, or when the rule lists a name that cannot be written; and these are all
the cases in which they do not, if what the map adapter makes is a URL. -/
theorem owner_agrees (P : Platform) (C : Config) (i : ℕ) {u name : Chars} (value : Option Chars)
    (hres : C.reserved u = false) (hname : P.F.utf8 name = true) :
    (OneOwner P C i u name → Agree P C i u name value) ∧
      (P.msgResolved = true → Strays P C i u name → ¬ Agree P C i u name value) ∧
      ((∀ t, tfMapsRewriteUrl P i u = some t → P.F.url t = true) → ¬ Strays P C i u name →
        Agree P C i u name value) := by
  rw [agree_iff]
  refine ⟨fun h => h.agree hres hname, fun hP h => h.disagree hP hres hname, fun hadapter h => ?_⟩
  cases hP : P.msgResolved with
  | false => exact (OneOwner.unresolved hP).agree hres hname
  | true => exact agree_of_not_strays h hP hadapter hres hname

/-- A redirect that goes on from the target of another one, and a header rule on that target. -/
def chained : Config where
  redirects := [redirectAll "https://a.example/" "https://b.example/",
    redirectAll "https://b.example/" "https://c.example/"]
  headerrules := [⟨cstr "*", cstr "https://b.example/", [cstr "User-Agent: Something Else"]⟩]

theorem chained_wrote :
    WroteHeader plainPlatform chained 0 (cstr "https://a.example/x") (cstr "user-agent") :=
  ⟨cstr "User-Agent", some (cstr "Something Else"), by decide +kernel, by decide +kernel⟩

/-- The application's own header goes over the rule's. -/
theorem chained_passes : .setHeader .caller (cstr "user-agent") none ∈ myMsgSetHeader plainPlatform
    chained (message plainPlatform chained 0 (cstr "https://a.example/x")) (cstr "user-agent")
      none := by
  decide +kernel

theorem chained_free : chained.reserved (cstr "https://a.example/x") = false := by
  decide

theorem rule_overruled : ¬ ∀ (P : Platform) (C : Config) (i : ℕ) (u name : Chars)
    (value : Option Chars), C.reserved u = false → P.F.utf8 name = true →
      Agree P C i u name value := by
  intro h
  exact (h _ _ _ _ _ none chained_free (by decide)).1.mpr chained_wrote chained_passes

theorem chained_first : Replaces plainPlatform chained 0 (cstr "https://a.example/x")
    (cstr "https://b.example/x") :=
  rewriteURL_iff.mp (by decide +kernel)

theorem chained_rests : Rests plainPlatform chained 0 (cstr "https://b.example/x")
    (cstr "https://c.example/x") := by
  refine .last (rewriteURL_iff.mp (by decide +kernel)) (by decide) ?_
  unfold Unmatched
  decide +kernel

/-- The second redirect goes on to a URL that has no rule. -/
theorem chained_strays :
    Strays plainPlatform chained 0 (cstr "https://a.example/x") (cstr "user-agent") := by
  have ht : tfApplyRedirect chained (cstr "https://b.example/x") =
      some (cstr "https://c.example/x") := by decide +kernel
  obtain ⟨r, w, rest, hred, heq⟩ := tfApplyRedirect_some.mp ht
  refine .onward ⟨by decide, by decide⟩ chained_first (by decide) (by decide) hred ?_
  rw [← heq]
  have hb : Owns chained (cstr "https://b.example/x") (cstr "user-agent") := by
    have hany : (matchHeaders chained (cstr "https://b.example/x")).any
        (fun hr => ruleSetsHeader hr (cstr "user-agent")) = true := by decide +kernel
    obtain ⟨hr, hm, hs⟩ := (Option.any_eq_true _ _).mp hany
    exact ⟨hr, hm, hs⟩
  rintro ⟨-, h⟩
  obtain ⟨hr, hm, -⟩ := h hb
  have hc : matchHeaders chained (cstr "https://c.example/x") = none := by
    rw [← Option.isNone_iff_eq_none]
    decide +kernel
  rw [hc] at hm
  cases hm

/-- The chain is outside the condition; a request that takes its last step only is not. -/
theorem owner_agrees_chained :
    ¬ OneOwner plainPlatform chained 0 (cstr "https://a.example/x") (cstr "user-agent") ∧
      ¬ Agree plainPlatform chained 0 (cstr "https://a.example/x") (cstr "user-agent") none ∧
      Agree plainPlatform chained 0 (cstr "https://b.example/x") (cstr "user-agent") none := by
  have hname : plainPlatform.F.utf8 (cstr "user-agent") = true := by decide
  obtain ⟨hone, hstray, -⟩ := owner_agrees plainPlatform chained 0 none chained_free hname
  obtain ⟨hlast, -⟩ := owner_agrees plainPlatform chained 0 none
    (show chained.reserved (cstr "https://b.example/x") = false by decide) hname
  exact ⟨fun h => hstray rfl chained_strays (hone h), hstray rfl chained_strays,
    hlast (.rests ⟨by decide, by decide⟩ chained_rests (by decide))⟩

/-! ### The headers and the URL that is sent -/

section Follow

variable {P : Platform} {F : CoreFoundation} {C : Config} {i : ℕ} {m : Request} {u : Chars}
  {after : Option Chars}

def Effect.ofRule : Effect → Bool
  | .setHeader .rule _ _ => true
  | _ => false

/-- What is written on the account of a header rule. -/
def ruleWrites (es : List Effect) : List Effect := es.filter Effect.ofRule

/-- What the first header rule for a URL writes. -/
def writesFor (F : CoreFoundation) (C : Config) (url : Chars) : List Effect :=
  ruleWrites (applyHeaders F C (matchHeaders C url))

/-- The URL that a request has in the end, when `after` is made of its own. -/
def kept (F : CoreFoundation) (before : Chars) (after : Option Chars) : Chars :=
  match after with
  | none => before
  | some u => if F.url u then u else before

/-- Where what is made of the URL is no URL, the header rules do for both the same. -/
def RefusedAlike (F : CoreFoundation) (C : Config) (before : Chars) (after : Option Chars) : Prop :=
  ∀ u, after = some u → F.url u = false → writesFor F C u = writesFor F C before

theorem ruleWrites_append (es es' : List Effect) :
    ruleWrites (es ++ es') = ruleWrites es ++ ruleWrites es' := List.filter_append ..

theorem ruleWrites_tfLog {line : Chars} : ruleWrites (tfLog C line) = [] := by
  unfold tfLog
  split_ifs <;> rfl

theorem writesFor_kept_iff :
    writesFor F C (after.getD u) = writesFor F C (kept F u after) ↔ RefusedAlike F C u after := by
  unfold kept RefusedAlike
  cases after with
  | none => simp
  | some w => cases hw : F.url w <;> simp [hw]

theorem carried_eq_kept : carried P C i u = kept P.F u (rewriteURL P C i u) := rfl

theorem applyRules_writes (hP : P.resolved = true) (hm : m.url = some u)
    (hres : C.reserved u = false) :
    ruleWrites (applyRules P C i m).1 = writesFor P.F C ((rewriteURL P C i u).getD u) := by
  have hfm : ¬ (!C.disableIcloudGsa && findmyHost u) = true := by
    intro hfm
    rw [Bool.and_eq_true] at hfm
    simp [Config.reserved, gsaReservedUrl, hfm.1, hfm.2] at hres
  unfold applyRules writesFor
  rw [if_neg (by simp [hP]), hm]
  simp only [if_neg hfm, hres, Bool.false_eq_true, if_false]
  cases hr : rewriteURL P C i u with
  | none =>
    split_ifs with hno
    · rw [Option.isNone_none, Bool.true_and, Option.isNone_iff_eq_none] at hno
      rw [hno]
      rfl
    · rfl
  | some w =>
    rw [Option.isNone_some, Bool.false_and, if_neg (by decide), ruleWrites_append, setRewritten,
      ruleWrites_append, ruleWrites_tfLog]
    split_ifs <;> rfl

theorem myMsgCreate_writes (hP : P.msgResolved = true) (hres : C.reserved u = false) :
    ruleWrites (myMsgCreate P C i u) = writesFor P.F C ((rewriteURL P C i u).getD u) := by
  unfold myMsgCreate writesFor
  rw [if_neg (by simp [hP]), if_neg (by simp [hres]), ruleWrites_append]
  cases rewriteURL P C i u with
  | none => rfl
  | some w =>
    dsimp only
    split_ifs
    · show ruleWrites (tfLog C _) ++ _ = _
      rw [ruleWrites_tfLog]
      rfl
    · rfl

theorem webkit_writes :
    ruleWrites (WKExternalURLRewrite F C u true) = writesFor F C ((tfApplyRedirect C u).getD u) := by
  unfold WKExternalURLRewrite writesFor
  dsimp only
  rw [if_pos rfl, ruleWrites_append]
  cases tfApplyRedirect C u with
  | none => exact List.append_nil _
  | some w =>
    dsimp only
    rw [ruleWrites_append, ruleWrites_tfLog]
    split_ifs <;> exact List.append_nil _

/-- The URL that WebKit goes on with. -/
theorem webkit_url : (Request.after { url := some u } (WKExternalURLRewrite F C u true)).url =
    some (kept F u (tfApplyRedirect C u)) := by
  unfold WKExternalURLRewrite kept
  dsimp only
  rw [if_pos rfl, Request.after_append]
  have hhead : ∀ hr, (Request.after { url := some u } (applyHeaders F C hr)).url = some u :=
    fun _ => Request.url_after fun w => setURL_not_mem_headers
  cases tfApplyRedirect C u with
  | none => exact hhead _
  | some w =>
    dsimp only
    rw [Request.after_append, Request.url_after fun x => setURL_not_mem_tfLog]
    split_ifs
    · rfl
    · exact hhead _

/-- A request goes on with `v` and has the headers that the rules have for it. -/
def Follows (F : CoreFoundation) (C : Config) (m : Request) (es : List Effect) : Prop :=
  ∃ v, (m.after es).url = some v ∧ ruleWrites es = writesFor F C v

theorem follows_iff {es : List Effect} {v : Chars} (hv : (m.after es).url = some v) :
    Follows F C m es ↔ ruleWrites es = writesFor F C v := by
  unfold Follows
  rw [hv]
  simp

end Follow

/-- **Headers follow the URL that is sent.**  With CFNetwork resolved, on each of the three entries an
unreserved URL's request has the headers that the first rule in scope for the URL it goes on with writes
exactly when either what is made of the URL is accepted as one, or the rules have the same headers for
it as for the URL that is kept. -/
theorem headers_follow {P : Platform} {C : Config} (hP : P.resolved = true)
    (hM : P.msgResolved = true) {u : Chars} (hres : C.reserved u = false) (i : ℕ) :
    (∀ m : Request, m.url = some u →
      (Follows P.F C m (applyRules P C i m).1 ↔ RefusedAlike P.F C u (rewriteURL P C i u))) ∧
    (Follows P.F C { url := some u } (myMsgCreate P C i u) ↔
      RefusedAlike P.F C u (rewriteURL P C i u)) ∧
    (Follows P.F C { url := some u } (WKExternalURLRewrite P.F C u true) ↔
      RefusedAlike P.F C u (tfApplyRedirect C u)) := by
  refine ⟨fun m hm => ?_, ?_, ?_⟩
  · have hurl := url_of_pass (P := P) (C := C) (i := i) hm
    rw [if_pos ⟨hP, hres⟩, carried_eq_kept] at hurl
    rw [follows_iff hurl, applyRules_writes hP hm hres, writesFor_kept_iff]
  · have hurl := message_url (i := i) hM hres
    rw [carried_eq_kept] at hurl
    rw [follows_iff hurl, myMsgCreate_writes hM hres, writesFor_kept_iff]
  · rw [follows_iff webkit_url, webkit_writes, writesFor_kept_iff]

/-- A redirect whose target has a blank in it and so is no URL, and a header rule on that target. -/
def misspelt : Config where
  redirects := [redirectAll "https://a.example/" "https://b.example/ x"]
  headerrules := [⟨cstr "*", cstr "https://b.example/", [cstr "Cookie: token=1"]⟩]

theorem misspelt_free : misspelt.reserved (cstr "https://a.example/x") = false := by
  decide

/-- The header for the other host goes to the one that the request stays with. -/
theorem misspelt_refused :
    ¬ RefusedAlike asciiFoundation misspelt (cstr "https://a.example/x")
      (tfApplyRedirect misspelt (cstr "https://a.example/x")) := by
  intro h
  have hto : tfApplyRedirect misspelt (cstr "https://a.example/x") =
      some (cstr "https://b.example/ xx") := by decide +kernel
  have heq := h _ hto (by decide)
  revert heq
  decide +kernel

theorem headers_stray : ¬ ∀ (P : Platform) (C : Config) (i : ℕ) (m : Request) (u : Chars),
    P.resolved = true → P.msgResolved = true → C.reserved u = false → m.url = some u →
      Follows P.F C m (applyRules P C i m).1 := by
  intro h
  have hf := h plainPlatform misspelt 0 { url := some (cstr "https://a.example/x") } _ rfl rfl
    misspelt_free rfl
  obtain ⟨v, hv, hw⟩ := hf
  have hurl : v = cstr "https://a.example/x" := by
    have hkeep : (Request.after { url := some (cstr "https://a.example/x") } (applyRules
        plainPlatform misspelt 0 { url := some (cstr "https://a.example/x") }).1).url =
          some (cstr "https://a.example/x") := by decide +kernel
    exact Option.some.inj (hv.symm.trans hkeep)
  subst hurl
  revert hw
  decide +kernel

theorem headers_follow_misspelt :
    ¬ Follows asciiFoundation misspelt { url := some (cstr "https://a.example/x") }
      (WKExternalURLRewrite asciiFoundation misspelt (cstr "https://a.example/x") true) := by
  intro hf
  have h := headers_follow (P := plainPlatform) (C := misspelt) rfl rfl misspelt_free 0
  exact misspelt_refused (h.2.2.mp hf)

end AquaTransport.Rewrite
