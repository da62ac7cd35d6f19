import AquaTransport.Gsa.Absolute

/-!
# AquaTransport.Gsa.Dav — DAV requests, and where redirects take them

`AQDAVProtocol` sends a request that it takes to port 443 with the device's headers, and hands a
redirected request back to the client, which may load it in the same way.  `chain` is a request and the
redirects that follow; `chain_confined` says where each request goes and what each redirected one keeps.
-/

namespace AquaTransport

namespace Dav

/-! ### The model -/

/-- A request, with its `AQHandled` property. -/
structure DavRequest extends Original where
  handled : Bool := false
  cookies : Bool := true

/-- `aq_device_header_names`. -/
def deviceHeaderNames : List String :=
  ["X-Apple-I-MD", "X-Apple-I-MD-M", "X-Apple-I-MD-LU", "X-Apple-I-MD-RINFO", "X-Mme-Device-Id",
    "X-Apple-I-SRL-NO", "X-MMe-Client-Info", "X-Apple-I-Client-Time", "X-Apple-I-TimeZone",
    "X-Apple-Locale"]

def canInitWithRequest (disabled : Bool) (r : DavRequest) : Bool :=
  !disabled && !r.handled && aqDavUrl r.url

section Model

-- `URLWithString:`, of strings that are URLs
variable (F : NSString → NSURL)

/-- `aq_dav_transport_url`; `none` when it raises. -/
def aqDavTransportUrl (url : NSURL) : Option NSURL :=
  if !aqDavUrl url || url.port.all (integerValue · = 443) then some url
  else
    (cut (str "://") url.absoluteString).map fun p =>
      let authority := p.2.takeWhile Uri.inAuthority
      let rest := p.2.dropWhile Uri.inAuthority
      match cutLast Uri.colon authority with
      | none => url
      | some (name, _) => F (p.1 ++ str "://" ++ name ++ str ":443" ++ rest)

/-- The request that `begin:` makes of the protocol's own. -/
def transportRequest (r : DavRequest) (headers : Headers) : Option DavRequest :=
  (aqDavTransportUrl F r.url).map fun url =>
    { r with handled := true, cookies := false, url := url, headers := r.headers.setAll headers }

/-- What `willSendRequest:redirectResponse:` hands to the client for a redirected request `r`. -/
def redirectedRequest (asked r : DavRequest) : Option DavRequest :=
  (aqDavTransportUrl F asked.url).map fun origin =>
    let target := r.url
    let headers := deviceHeaderNames.foldl (fun h k => Headers.setValue h k none) r.headers
    let keep := (origin.host.isSome && origin.host = target.host) &&
      (origin.scheme.isSome && origin.scheme = target.scheme) && target.port.all (integerValue · = 443)
    { r with
      handled := false
      headers := if keep then headers else Headers.setValue headers "Authorization" none }

/-- What happens to one load: what `prepare` got from the device, whether there was a connection, and
the request that a redirect proposes. -/
structure Hop where
  disabled : Bool := false
  result : Except NSError Anisette
  connection : Bool := true
  redirect : Option DavRequest := none

/-- What a load does for the request it was asked for. -/
inductive Event
  | failed (asked : DavRequest) (error : NSError)
  | raised (asked : DavRequest)
  /-- `sent` goes on the wire. -/
  | wire (asked sent : DavRequest)
  /-- The client is told of the redirect. -/
  | redirected (asked sent next : DavRequest)

/-- One load, and the request that the client goes on with. -/
def load (r : DavRequest) (hop : Hop) : List Event × Option DavRequest :=
  match hop.result with
  | .error e => ([.failed r e], none)
  | .ok a =>
    match transportRequest F r a.headers with
    | none => ([.raised r], none)
    | some sent =>
      if hop.connection = false then
        ([.failed r (aqError 43 "Could not start iCloud service request.")], none)
      else
        match hop.redirect with
        | none => ([.wire r sent], none)
        | some proposed =>
          match redirectedRequest F r proposed with
          | none => ([.wire r sent, .raised r], none)
          | some next => ([.wire r sent, .redirected r sent next], some next)

/-- A request and the redirects that follow, as long as the protocol takes them. -/
def chain : DavRequest → List Hop → List Event
  | _, [] => []
  | r, hop :: hops =>
    if canInitWithRequest hop.disabled r then
      (load F r hop).1 ++ match (load F r hop).2 with
        | none => []
        | some next => chain next hops
    else []

end Model

/-! ### What a chain should do -/

/-- The port that a URL is loaded from. -/
def effectivePort (url : NSURL) : Option ℤ :=
  match url.port with
  | some n => some (integerValue n)
  | none =>
    if url.scheme.map lowercaseAscii = some (str "https") then some 443
    else if url.scheme.map lowercaseAscii = some (str "http") then some 80
    else none

def SameOrigin (url url' : NSURL) : Prop :=
  url.scheme = url'.scheme ∧ url.host = url'.host ∧ effectivePort url = effectivePort url'

/-- `url'` is `url` in all but the port. -/
def SameButPort (N : UrlReader) (url url' : NSURL) : Prop :=
  ∃ u u' a a', N.Reads url u a ∧ N.Reads url' u' a' ∧ u'.scheme = u.scheme ∧ a'.user = a.user ∧
    a'.host = a.host ∧ u'.path = u.path ∧ u'.query = u.query ∧ u'.fragment = u.fragment

/-- The field is not there, however it is spelled. -/
def Lacks (h : Headers) (k : NSString) : Prop := ∀ p ∈ h, sameField p.1 k = false

/-- What is sent goes by https to port 443 of an accepted host, with the rest of the URL as it was asked
for; what is handed back has no device header and no mark, and keeps its authorization for the same
origin only. -/
def Event.Confined (N : UrlReader) : Event → Prop
  | .failed _ _ => True
  | .raised _ => False
  | .wire asked sent => asked.handled = false ∧ aqDavUrl asked.url = true ∧
      aqDavUrl sent.url = true ∧ sent.url.scheme.map lowercaseAscii = some (str "https") ∧
      effectivePort sent.url = some 443 ∧ SameButPort N asked.url sent.url
  | .redirected _ sent next => next.handled = false ∧
      (∀ (a : Anisette), ∀ p ∈ a.headers, Lacks next.headers p.1) ∧
      ((next.headers.value "Authorization").isSome → SameOrigin sent.url next.url)

/-! ### The transport URL -/

section Transport

variable {N : UrlReader} {F : NSString → NSURL} {url : NSURL} {u : Uri} {a : Authority}

theorem inAuthority_digit {c : UInt16} (h : Authority.isDigit c = true) : Uri.inAuthority c = true := by
  simp only [Authority.isDigit, Bool.and_eq_true, decide_eq_true_eq, UInt16.le_iff_toNat_le] at h
  have h48 : 48 ≤ c.toNat := h.1
  have hne : ∀ x : UInt16, x.toNat < 48 ∨ 57 < x.toNat → c ≠ x := by
    rintro x hx rfl
    have h57 : c.toNat ≤ 57 := h.2
    omega
  simp [Uri.inAuthority, hne Uri.slash (.inl (by decide)), hne Uri.question (.inr (by decide)),
    hne Uri.hash (.inl (by decide))]

/-- The pieces of a URL with another port. -/
def withPort (u : Uri) (a : Authority) (p : NSString) : Uri :=
  { u with authority := { a with port := some p }.text }

theorem withPort_wellFormed (hu : u.WellFormed) (hau : u.authority = a.text) {p : NSString}
    (hp : ∀ c ∈ p, Authority.isDigit c = true) : (withPort u a p).WellFormed := by
  refine ⟨hu.scheme, fun c hc => ?_, hu.absolute, hu.path, hu.query⟩
  rcases List.mem_append.mp hc with hc | hc
  · exact hu.authority c (hau ▸ List.mem_append_left _ hc)
  · rcases List.mem_cons.mp hc with rfl | hc
    · decide
    · exact inAuthority_digit (hp c hc)

/-- **The port changes, and nothing else.** -/
theorem aqDavTransportUrl_eq
    (hF : ∀ u a, u.WellFormed → a.WellFormed → u.authority = a.text → N.Reads (F u.text) u a)
    (hr : N.Reads url u a) (hd : aqDavUrl url = true) :
    ∃ url', aqDavTransportUrl F url = some url' ∧ SameButPort N url url' ∧
      url'.port.all (integerValue · = 443) = true := by
  unfold aqDavTransportUrl
  rw [hd, Bool.not_true, Bool.false_or]
  by_cases h443 : url.port.all (integerValue · = 443) = true
  · rw [if_pos h443]
    exact ⟨url, rfl, ⟨u, u, a, a, hr, hr, rfl, rfl, rfl, rfl, rfl, rfl⟩, h443⟩
  · rw [if_neg h443]
    -- there is a port, so the authority has one
    obtain ⟨p, hp⟩ : ∃ p, a.port = some p := by
      cases hp : a.port with
      | some p => exact ⟨p, rfl⟩
      | none =>
        rw [hr.port, Authority.number, hp] at h443
        exact absurd rfl h443
    have hnew : Authority.WellFormed { a with port := some (str "443") } := by
      refine ⟨hr.valid.user, hr.valid.host, ?_⟩
      rintro q ⟨⟩
      exact List.all_eq_true.mp (by decide)
    have hwf : (withPort u a (str "443")).WellFormed :=
      withPort_wellFormed hr.wellFormed hr.authority (List.all_eq_true.mp (by decide))
    have htext : u.scheme ++ str "://" ++ a.name ++ str ":443" ++ u.rest =
        (withPort u a (str "443")).text := by
      show _ = u.scheme ++ str "://" ++ (a.name ++ str ":443" ++ u.rest)
      simp only [List.append_assoc]
    have hread : N.Reads (F (withPort u a (str "443")).text) (withPort u a (str "443"))
        { a with port := some (str "443") } := hF _ _ hwf hnew rfl
    refine ⟨F (withPort u a (str "443")).text, ?_, ⟨u, withPort u a (str "443"), a,
      { a with port := some (str "443") }, hr, hread, rfl, rfl, rfl, rfl, rfl, rfl⟩, ?_⟩
    · have hcut : cut (str "://") u.text = some (u.scheme, u.authority ++ u.rest) :=
        hr.wellFormed.cut_scheme
      have htake : (u.authority ++ u.rest).takeWhile Uri.inAuthority = a.text :=
        hr.wellFormed.takeWhile_authority.trans hr.authority
      rw [hr.text, hcut, Option.map_some]
      simp only [htake, hr.wellFormed.dropWhile_authority, hr.valid.cutLast_text hp, htext]
    · have hn : Authority.number { a with port := some (str "443") } = some 443 := rfl
      rw [hread.port, hn]
      decide

end Transport

/-! ### Headers -/

section Fields

variable {h : Headers} {k : NSString}

theorem Lacks.filter (hk : Lacks h k) (q : NSString × NSString → Bool) : Lacks (h.filter q) k :=
  fun p hp => hk p (List.mem_filter.mp hp).1

theorem setValue_none (h : Headers) (k : String) :
    h.setValue k none = h.filter fun p => !sameField p.1 (str k) := rfl

theorem lacks_setValue_none (h : Headers) (k : String) : Lacks (h.setValue k none) (str k) := by
  intro p hp
  rw [setValue_none] at hp
  simpa using (List.mem_filter.mp hp).2

/-- Fields that are taken out one after the other are all gone. -/
theorem lacks_foldl {names : List String} {h : Headers} {n : String} (hn : n ∈ names) :
    Lacks (names.foldl (fun h k => Headers.setValue h k none) h) (str n) := by
  have hkeep : ∀ (names : List String) {h : Headers}, Lacks h (str n) →
      Lacks (names.foldl (fun h k => Headers.setValue h k none) h) (str n) := by
    intro names
    induction names with
    | nil => exact fun hh => hh
    | cons k names ih =>
      intro h hh
      exact ih (hh.filter _)
  induction names generalizing h with
  | nil => exact absurd hn List.not_mem_nil
  | cons k names ih =>
    rcases List.mem_cons.mp hn with rfl | hn
    · exact hkeep names (lacks_setValue_none h n)
    · exact ih hn

/-- Each field that `aq_anisette` makes is a name that is taken out. -/
theorem names_of_anisette (a : Anisette) {p : NSString × NSString} (hp : p ∈ a.headers) :
    ∃ n ∈ deviceHeaderNames, p.1 = str n := by
  have hkeys : ∀ k ∈ a.headers.map Prod.fst, k ∈ deviceHeaderNames.map str := by
    have hall : (List.map str ["X-Apple-I-MD-M", "X-Apple-I-MD", "X-Apple-I-MD-RINFO",
        "X-Mme-Device-Id", "X-Apple-I-MD-LU", "X-MMe-Client-Info", "X-Apple-I-Client-Time",
        "X-Apple-I-TimeZone", "X-Apple-Locale"]).all (fun k => (deviceHeaderNames.map str).contains k)
        = true := by decide +kernel
    intro k hk
    simpa using List.all_eq_true.mp hall k hk
  obtain ⟨n, hn, he⟩ := List.mem_map.mp (hkeys p.1 (List.mem_map_of_mem hp))
  exact ⟨n, hn, he.symm⟩

theorem value_of_lacks {k : String} (hk : Lacks h (str k)) : h.value k = none := by
  rw [Headers.value, Option.map_eq_none_iff, List.find?_eq_none]
  intro p hp
  rw [hk p hp]
  decide

end Fields

/-! ### One load -/

section Load

variable {N : UrlReader} {F : NSString → NSURL} {r : DavRequest}

/-- An accepted URL has components that are as they should be. -/
def Usual (N : UrlReader) (url : NSURL) : Prop := aqDavUrl url = true → ∃ u a, N.Reads url u a

theorem isHttps_of_dav {url : NSURL} (h : aqDavUrl url = true) :
    url.scheme.map lowercaseAscii = some (str "https") := by
  unfold aqDavUrl at h
  rw [Bool.and_eq_true, Bool.and_eq_true] at h
  exact decide_eq_true_eq.mp h.1.1

theorem effectivePort_of_all {url : NSURL}
    (hs : url.scheme.map lowercaseAscii = some (str "https"))
    (hp : url.port.all (integerValue · = 443) = true) : effectivePort url = some 443 := by
  unfold effectivePort
  cases hn : url.port with
  | none => exact if_pos hs
  | some n =>
    rw [hn, Option.all_some, decide_eq_true_eq] at hp
    exact congrArg some hp

/-- The same URL at another port is accepted too, if the port is. -/
theorem SameButPort.dav {url url' : NSURL} (h : SameButPort N url url') (hd : aqDavUrl url = true)
    (hp : url'.port.all (integerValue · = 443) = true) : aqDavUrl url' = true := by
  obtain ⟨u, u', a, a', hr, hr', hs, hu, hh, -⟩ := h
  have hscheme : url'.isHttps = url.isHttps := by
    rw [NSURL.isHttps, NSURL.isHttps, hr.scheme, hr'.scheme, hs]
  have hpass : url'.password = url.password := by rw [hr.password, hr'.password, hu]
  have hhost : url'.lowerHost = url.lowerHost := by
    rw [NSURL.lowerHost, NSURL.lowerHost, hr.host, hr'.host, hh]
  unfold aqDavUrl at hd ⊢
  rw [hscheme, hpass, hhost]
  rw [Bool.and_eq_true] at hd ⊢
  refine ⟨hd.1, ?_⟩
  cases hl : url.lowerHost with
  | none =>
    rw [hl] at hd
    exact absurd hd.2 Bool.false_ne_true
  | some host =>
    rw [hl] at hd
    have hdav := (Bool.and_eq_true_iff.mp hd.2).2
    dsimp only
    rw [Bool.and_eq_true]
    refine ⟨?_, hdav⟩
    cases hn : url'.port with
    | none => rfl
    | some n =>
      rw [hn, Option.all_some, decide_eq_true_eq] at hp
      rw [Option.all_some, hp]
      rfl

/-- **What goes on the wire.** -/
theorem transportRequest_confined
    (hF : ∀ u a, u.WellFormed → a.WellFormed → u.authority = a.text → N.Reads (F u.text) u a)
    (hr : Usual N r.url) {disabled : Bool} (hc : canInitWithRequest disabled r = true)
    (headers : Headers) : ∃ sent, transportRequest F r headers = some sent ∧
      aqDavTransportUrl F r.url = some sent.url ∧ (Event.wire r sent).Confined N := by
  unfold canInitWithRequest at hc
  rw [Bool.and_eq_true, Bool.and_eq_true, Bool.not_eq_true'] at hc
  obtain ⟨⟨-, hh⟩, hd⟩ := hc
  rw [Bool.not_eq_true'] at hh
  obtain ⟨u, a, hreads⟩ := hr hd
  obtain ⟨url', hurl, hsame, hport⟩ := aqDavTransportUrl_eq hF hreads hd
  have hd' := hsame.dav hd hport
  refine ⟨_, congrArg (Option.map _) hurl, hurl, hh, hd, hd', isHttps_of_dav hd', ?_, hsame⟩
  exact effectivePort_of_all (isHttps_of_dav hd') hport

/-- **What is handed back.** -/
theorem redirectedRequest_confined {proposed next sent : DavRequest}
    (hurl : aqDavTransportUrl F r.url = some sent.url)
    (hsent : (Event.wire r sent).Confined N)
    (hn : redirectedRequest F r proposed = some next) :
    (Event.redirected r sent next).Confined N ∧ next.url = proposed.url := by
  obtain ⟨-, -, -, hhttps, hport, -⟩ := hsent
  unfold redirectedRequest at hn
  rw [hurl] at hn
  obtain rfl := Option.some.inj hn
  have hdevice : ∀ n ∈ deviceHeaderNames, Lacks
      (deviceHeaderNames.foldl (fun h k => Headers.setValue h k none) proposed.headers) (str n) :=
    fun n hn => lacks_foldl hn
  refine ⟨⟨rfl, fun a p hp => ?_, fun hauth => ?_⟩, rfl⟩
  · obtain ⟨n, hn, hpn⟩ := names_of_anisette a hp
    rw [hpn]
    dsimp only
    split
    · exact hdevice n hn
    · rw [setValue_none]
      exact (hdevice n hn).filter _
  · dsimp only at hauth
    split at hauth
    · rename_i hkeep
      simp only [Bool.and_eq_true, decide_eq_true_eq] at hkeep
      obtain ⟨⟨⟨-, hhost⟩, -, hscheme⟩, hp⟩ := hkeep
      refine ⟨hscheme, hhost, hport.trans (Eq.symm ?_)⟩
      exact effectivePort_of_all (hscheme ▸ hhttps) hp
    · rw [value_of_lacks (lacks_setValue_none _ _)] at hauth
      exact absurd hauth (by decide)

/-- One load is confined, and goes on with the URL of the redirect. -/
theorem load_confined
    (hF : ∀ u a, u.WellFormed → a.WellFormed → u.authority = a.text → N.Reads (F u.text) u a)
    (hr : Usual N r.url) {hop : Hop} (hc : canInitWithRequest hop.disabled r = true) :
    (∀ e ∈ (load F r hop).1, e.Confined N) ∧ ∀ next, (load F r hop).2 = some next →
      ∃ proposed, hop.redirect = some proposed ∧ next.url = proposed.url := by
  unfold load
  cases hop.result with
  | error e => exact ⟨List.forall_mem_singleton.mpr trivial, by simp⟩
  | ok a =>
    obtain ⟨sent, hsent, hurl, hwire⟩ := transportRequest_confined hF hr hc a.headers
    dsimp only
    rw [hsent]
    dsimp only
    split
    · exact ⟨List.forall_mem_singleton.mpr trivial, by simp⟩
    · cases hop.redirect with
      | none => exact ⟨List.forall_mem_singleton.mpr hwire, by simp⟩
      | some proposed =>
        obtain ⟨next, hnext⟩ : ∃ next, redirectedRequest F r proposed = some next := by
          unfold redirectedRequest
          rw [hurl]
          exact ⟨_, rfl⟩
        obtain ⟨hred, hto⟩ := redirectedRequest_confined hurl hwire hnext
        dsimp only
        rw [hnext]
        refine ⟨List.forall_mem_cons.mpr ⟨hwire, List.forall_mem_singleton.mpr hred⟩, ?_⟩
        rintro next' ⟨⟩
        exact ⟨proposed, rfl, hto⟩

end Load

/-- **DAV requests and redirects stay confined**, through every chain of redirects. -/
theorem chain_confined {N : UrlReader} {F : NSString → NSURL}
    (hF : ∀ u a, u.WellFormed → a.WellFormed → u.authority = a.text → N.Reads (F u.text) u a)
    {r : DavRequest} (hr : Usual N r.url) {hops : List Hop}
    (hhops : ∀ hop ∈ hops, ∀ proposed, hop.redirect = some proposed → Usual N proposed.url) :
    ∀ e ∈ chain F r hops, e.Confined N := by
  induction hops generalizing r with
  | nil => exact fun e he => absurd he List.not_mem_nil
  | cons hop hops ih =>
    rw [List.forall_mem_cons] at hhops
    unfold chain
    split
    · rename_i hc
      obtain ⟨hall, hnext⟩ := load_confined hF hr hc
      intro e he
      rcases List.mem_append.mp he with he | he
      · exact hall e he
      · cases hn : (load F r hop).2 with
        | none =>
          rw [hn] at he
          exact absurd he List.not_mem_nil
        | some next =>
          rw [hn] at he
          obtain ⟨proposed, hp, hurl⟩ := hnext next hn
          exact ih (hurl ▸ hhops.1 proposed hp) hhops.2 e he
    · exact fun e he => absurd he List.not_mem_nil

/-! ### A calendar that moves -/

def calendarAuthority : Authority := ⟨some (str "ann:"), str "p01-caldav.icloud.com", some (str "8443")⟩

def calendarUri : Uri where
  scheme := str "https"
  authority := calendarAuthority.text
  path := str "/a:1/"
  query := some (str "x=:80")
  fragment := none

def movedAuthority : Authority := ⟨none, str "p02-caldav.icloud.com", none⟩

def movedUri : Uri := { calendarUri with authority := movedAuthority.text }

def elsewhereAuthority : Authority := ⟨none, str "example.com", none⟩

def elsewhereUri : Uri := { calendarUri with authority := elsewhereAuthority.text }

def davRequest (u : Uri) (headers : Headers) : DavRequest where
  method := "PROPFIND"
  url := UrlReader.unescaped.url u.text
  headers := headers
  body := none
  stream := false

def authorized : Headers := [(str "authorization", str "X-MobileMe-AuthToken t")]

def calendarDevice : Anisette where
  machine := str "m"
  oneTime := str "o"
  routing := str "17106176"
  device := str "D"
  device64 := str "RA=="
  clientTime := str "2024-01-01T00:00:00Z"
  timeZone := str "UTC"
  locale := str "en_US"

def calendarHops : List Hop :=
  [⟨false, .ok calendarDevice, true, some (davRequest movedUri (authorized ++ calendarDevice.headers))⟩,
    ⟨false, .ok calendarDevice, true, some (davRequest elsewhereUri authorized)⟩]

theorem usual_unescaped {u : Uri} {a : Authority} (hu : u.WellFormed) (ha : a.WellFormed)
    (h : u.authority = a.text) (headers : Headers) :
    Usual UrlReader.unescaped (davRequest u headers).url :=
  fun _ => ⟨u, a, UrlReader.unescaped.url_reads hu ha h⟩

theorem calendarUri_wellFormed {s : NSString} (h : s.all Uri.inAuthority = true) :
    { calendarUri with authority := s }.WellFormed := by
  have hc : calendarUri.WellFormed := by
    refine ⟨by decide, List.all_eq_true.mp (by decide), .inr rfl, by decide, ?_⟩
    rintro q ⟨⟩
    decide
  exact ⟨hc.scheme, List.all_eq_true.mp h, hc.absolute, hc.path, hc.query⟩

theorem chain_calendar :
    (chain UrlReader.unescaped.url (davRequest calendarUri authorized) calendarHops).length = 4 ∧
    ∀ e ∈ chain UrlReader.unescaped.url (davRequest calendarUri authorized) calendarHops,
      e.Confined UrlReader.unescaped := by
  have hmoved : Usual UrlReader.unescaped (davRequest movedUri
      (authorized ++ calendarDevice.headers)).url := by
    refine usual_unescaped (calendarUri_wellFormed (by decide)) ⟨?_, by decide, ?_⟩
      (a := movedAuthority) rfl _
    · rintro x ⟨⟩
    · rintro p ⟨⟩
  have helsewhere : Usual UrlReader.unescaped (davRequest elsewhereUri authorized).url := by
    refine usual_unescaped (calendarUri_wellFormed (by decide)) ⟨?_, by decide, ?_⟩
      (a := elsewhereAuthority) rfl _
    · rintro x ⟨⟩
    · rintro p ⟨⟩
  have hcalendar : Usual UrlReader.unescaped (davRequest calendarUri authorized).url := by
    refine usual_unescaped (calendarUri_wellFormed (by decide)) ⟨?_, by decide, ?_⟩
      (a := calendarAuthority) rfl _
    · rintro x ⟨⟩
      decide
    · rintro p ⟨⟩
      exact List.all_eq_true.mp (by decide)
  refine ⟨by decide +kernel,
    chain_confined (fun u a hu ha h => UrlReader.unescaped.url_reads hu ha h) hcalendar ?_⟩
  rintro hop hmem proposed hp
  rcases List.mem_cons.mp hmem with rfl | hmem
  · obtain rfl := Option.some.inj hp
    exact hmoved
  · obtain rfl := List.mem_singleton.mp hmem
    obtain rfl := Option.some.inj hp
    exact helsewhere

end Dav

end AquaTransport
