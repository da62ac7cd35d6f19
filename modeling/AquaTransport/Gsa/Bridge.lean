import AquaTransport.Gsa.Login

/-!
# AquaTransport.Gsa.Bridge — `aq_bridge`

Credentials as `aq_credentials` reads them, and the requests that `aq_bridge` makes with the tokens
it gets for them, in its four branches.
-/

namespace AquaTransport

open Gsa Program

section Credentials

variable (S : Services)

def Original.length (req : Original) : ℕ := (req.body.getD []).length

/-- `aq_request_plist`. -/
def aqRequestPlist (req : Original) : Option NSDictionary :=
  if req.stream = true ∨ req.length = 0 ∨ 1024 * 1024 < req.length then none
  else
    let encoding := ((req.headers.value "Content-Encoding").map S.lowercase).getD []
    if encoding = [] ∨ encoding = str "identity" then aqPlist S (req.body.getD [])
    else if encoding = str "gzip" then (S.gunzip (req.body.getD [])).bind (aqPlist S)
    else none

/-- What `aq_credentials` finds in a `Basic` field: an answer, or `none` to look in the body. -/
def basicCredentials (auth : NSString) : Option (Option (NSString × NSString)) :=
  let ascii := (asciiData (auth.drop 6)).getD []
  if ascii = [] ∨ 16384 < ascii.length ∨ ascii.length % 4 ≠ 0 then some none
  else
    match S.decode64 ascii with
    | none => some none
    | some out =>
      let pad := (if ascii.getLast? = some 61 then 1 else 0) +
        if ascii.dropLast.getLast? = some 61 then 1 else 0
      match S.ofUtf8 (out.take (out.length - pad)) with
      | none => some none
      | some decoded =>
        let user := decoded.takeWhile (· ≠ 58)
        let password := decoded.drop (user.length + 1)
        if user ≠ [] ∧ password ≠ [] then some (some (user, password)) else none

def bodyCredentials (body : Option NSDictionary) : Option (NSString × NSString) :=
  let user := (aqString (keyOf body "apple-id")).orElse fun _ => aqString (keyOf body "username")
  user.bind fun u => (aqString (keyOf body "password")).map fun p => (u, p)

def aqCredentials (req : Original) : Option (NSString × NSString) :=
  if 1024 * 1024 < req.length then none
  else
    match if req.isBasic S then basicCredentials S ((req.headers.value "Authorization").getD [])
      else none with
    | some c => c
    | none => bodyCredentials (aqRequestPlist S req)

/-- The credentials of an IDS profile request. -/
def idsCredentials (body : Option NSDictionary) : Option (NSString × NSString) :=
  (aqString (keyOf body "username")).bind fun u =>
    (aqString (keyOf body "password")).map fun p => (u, p)

/-- What `aq_bridge` takes for the credentials. -/
def bridgeCredentials (req : Original) : Option (NSString × NSString) :=
  if aqIdsUrl req.url then idsCredentials (aqRequestPlist S req) else aqCredentials S req

/-- `canInitWithRequest:`, of a request that is not the adapter's own. -/
def canInitWithRequest (req : Original) : Bool :=
  if aqIdsUrl req.url then req.method = "POST"
  else !req.stream && aqSetupUrl req.url && (aqCredentials S req).isSome &&
    (aqLoginUrl req.url || aqSettingsRequest S req (aqCredentials S req))

end Credentials

section Model

variable {σ : Type} (S : Services) (P : Srp σ) (io : Outside)

/-- `aq_result`. -/
structure Result where
  statusCode : ℤ
  data : Body

/-- `aq_basic`; without UTF-8 it raises. -/
def aqBasic (user password : NSString) : Gsa NSString :=
  orFail ((joined64 S user password).map fun b => str "Basic " ++ b) unexpected

/-- The password-equivalent token of a session. -/
def petOf (session : NSDictionary) : Option NSString :=
  aqString (keyOf (aqDict (keyOf (aqDict (NSDictionary.objectForKey session "t"))
    "com.apple.gs.idms.pet")) "token")

/-- The IDS branch: the PET for the legacy Madrid delegate. -/
def aqMadrid (user pet : NSString) (session : NSDictionary) (headers : Headers) : Gsa Result := do
  let auth ← aqBasic S user pet
  let req := aqAppleRequest (str "https://setup.icloud.com/setup/iosbuddy/loginDelegates") headers
  let h := Headers.setValue req.headers "Authorization" (some auth)
  let h := match aqString (NSDictionary.objectForKey session "adsid") with
    | some adsid => Headers.setValue h "X-Apple-ADSID" (some adsid)
    | none => h
  -- a missing device would end the list of pairs
  let device := ((Headers.objectForKey headers "X-Mme-Device-Id").map fun d =>
    [(str "client-id", Plist.string d),
      (str "delegates", .dict [(str "com.apple.madrid", .dict [])])]).getD []
  let body : NSDictionary :=
    [(str "apple-id", .string user), (str "password", .string pet)] ++ device
  let r ← aqSend io { req with method := "POST", headers := h, body := some (.encoded (.dict body)) }
  let reply := aqPlist S r.data
  let delegate := aqDict (keyOf (aqDict (keyOf reply "delegates")) "com.apple.madrid")
  let service := aqDict (keyOf delegate "service-data")
  let none45 := aqError 45 "Apple did not issue iMessage service credentials."
  check (r.statusCode = 200 ∧ aqNumber (keyOf reply "status") = some 0 ∧
    aqNumber (keyOf delegate "status") = some 0) none45
  let profile ← orFail (aqString (keyOf service "profile-id")) none45
  let token ← orFail (aqString (keyOf service "auth-token")) none45
  pure ⟨r.statusCode, .encoded (.dict [(str "status", .number 0),
    (str "profile-id", .string profile), (str "auth-token", .string token)])⟩

/-- The `loginDelegates` branch: the original request with the PET in place of the password. -/
def aqDelegates (original : Original) (pet : NSString) (session : NSDictionary) (headers : Headers) :
    Gsa Result := do
  let body ← orFail (aqPlist S (original.body.getD []))
    (aqError 32 "Unsupported loginDelegates body.")
  let body := NSDictionary.setObject body "password" (.string pet)
  let body := match aqString (NSDictionary.objectForKey session "adsid") with
    | some dsid => NSDictionary.setObject body "apple-id" (.string dsid)
    | none => body
  let h := Headers.setValue original.headers "Content-Length" none
  let h := Headers.setValue h "Authorization" none
  let r ← aqSend io { method := original.method, url := original.url.absoluteString
                      headers := Headers.setAll h headers, body := some (.encoded (.dict body)) }
  pure ⟨r.statusCode, .raw r.data⟩

/-- The fields of the original request that the settings request keeps. -/
def settingsFields : List String :=
  ["User-Agent", "X-Mme-Client-Info", "X-Mme-Country", "X-Mme-Timezone", "X-APNS-Token",
    "Accept-Language"]

def keepFields (original h : Headers) : Headers :=
  settingsFields.foldl (fun h k =>
    match original.value k with
    | some v => Headers.setValue h k (some v)
    | none => h) h

/-- The account's number and token in Apple's answer to `authenticate`. -/
def dsidOf (account : Option NSDictionary) : Option NSString :=
  aqString (keyOf (aqDict (keyOf account "appleAccountInfo")) "dsid")

def mmeTokenOf (account : Option NSDictionary) : Option NSString :=
  aqString (keyOf (aqDict (keyOf account "tokens")) "mmeAuthToken")

/-- The `authenticate` branch, with the settings request of `login_or_create_account`. -/
def aqAuthenticate (original : Original) (user pet : NSString) (headers : Headers) : Gsa Result := do
  let escaped ← orFail (S.percentEscape user) unexpected
  let auth ← aqBasic S user pet
  let req := aqAppleRequest (str "https://setup.icloud.com/setup/authenticate/" ++ escaped) headers
  let r ← aqSend io { req with
    headers := Headers.setValue req.headers "Authorization" (some auth) }
  if original.url.path ≠ str "/setup/login_or_create_account" ∨ r.statusCode ≠ 200 then
    pure ⟨r.statusCode, .raw r.data⟩
  else
    let missing := aqError 33 "Apple did not return iCloud account credentials."
    let dsid ← orFail (dsidOf (aqPlist S r.data)) missing
    let token ← orFail (mmeTokenOf (aqPlist S r.data)) missing
    let auth ← aqBasic S dsid token
    let req := aqAppleRequest (str "https://setup.icloud.com/setup/get_account_settings") headers
    let h := Headers.setValue req.headers "Authorization" (some auth)
    let h := Headers.setValue (keepFields original.headers h) "X-Aos-Accept-Tos" (some (str "false"))
    let r ← aqSend io { req with method := "POST", headers := h }
    pure ⟨r.statusCode, .raw r.data⟩

/-- The settings refresh: the original request with the device's headers. -/
def aqRefresh (original : Original) : Gsa Result := do
  let headers ← aqAnisette io
  let r ← aqSend io { method := original.method, url := original.url.absoluteString
                      headers := Headers.setAll original.headers headers
                      body := original.body.map .raw }
  pure ⟨r.statusCode, .raw r.data⟩

def aqBridge (original : Original) : Gsa Result := do
  let credentials ← orFail (bridgeCredentials S original)
    (aqError 30 "Unsupported iCloud credential format.")
  if aqSettingsRequest S original (some credentials) then aqRefresh io original
  else
    let user := S.lowercase credentials.1
    let session ← aqLogin S P io user credentials.2
    let pet ← orFail (petOf session)
      (aqError 31 "Apple did not issue an iCloud password-equivalent token.")
    let headers ← aqAnisette io
    if aqIdsUrl original.url then aqMadrid S io user pet session headers
    else if original.url.path = str "/setup/iosbuddy/loginDelegates" then
      aqDelegates S io original pet session headers
    else aqAuthenticate S io original user pet headers

end Model

end AquaTransport
