import AquaTransport.Gsa.Foundation

/-!
# AquaTransport.Gsa.Url — which requests the protocols take over

`aq_setup_url`, `aq_ids_url`, `aq_login_url`, `aq_settings_request` and `aq_dav_url`, over the
components that `NSURL` has.
-/

namespace AquaTransport

structure NSURL where
  absoluteString : NSString
  scheme : Option NSString
  user : Option NSString
  password : Option NSString
  host : Option NSString
  port : Option ℕ
  path : NSString
  query : Option NSString
  fragment : Option NSString

/-- `intValue` and `integerValue` of a number keep 32 and 64 bits. -/
def intValue (n : ℕ) : ℤ := Int.bmod n (2 ^ 32)
def integerValue (n : ℕ) : ℤ := Int.bmod n (2 ^ 64)

/-- `lowercaseString`, of a URL's ASCII. -/
def lowercaseAscii (s : NSString) : NSString := s.map lowerAscii

def hasPrefix (s p : NSString) : Bool := p.isPrefixOf s

namespace NSURL

def isHttps (url : NSURL) : Bool := url.scheme.map lowercaseAscii = some (str "https")

def lowerHost (url : NSURL) : Option NSString := url.host.map lowercaseAscii

/-- `![url port] || [[url port] intValue] == 443`. -/
def port443 (url : NSURL) : Bool := url.port.all fun n => intValue n = 443

end NSURL

def aqSetupUrl (url : NSURL) : Bool :=
  url.isHttps && url.lowerHost = some (str "setup.icloud.com") && url.port443 &&
    url.user.isNone && url.password.isNone

def aqIdsUrl (url : NSURL) : Bool :=
  url.isHttps && (url.lowerHost = some (str "profile.ess.apple.com") ||
      url.lowerHost = some (str "service.ess.apple.com")) &&
    url.port443 && url.user.isNone && url.password.isNone &&
    url.query.isNone && url.fragment.isNone &&
    url.path = str "/WebObjects/VCProfileService.woa/wa/authenticateUser"

def aqLoginUrl (url : NSURL) : Bool :=
  aqSetupUrl url && (url.path = str "/setup/login_or_create_account" ||
    url.path = str "/setup/iosbuddy/loginDelegates" ||
    url.path = str "/setup/authenticate/$APPLE_ID$" ||
    (hasPrefix url.path (str "/setup/authenticate/") &&
      (str "/setup/authenticate/").length < url.path.length))

/-- A request that the system loads. -/
structure Original where
  method : String
  url : NSURL
  headers : Headers
  body : Option NSData
  stream : Bool

def isDigits (s : NSString) : Bool := s.all fun c => 48 ≤ c && c ≤ 57

/-- The `Authorization` field starts with `Basic`. -/
def Original.isBasic (S : Services) (req : Original) : Bool :=
  (req.headers.value "Authorization").any fun auth => hasPrefix (S.lowercase auth) (str "basic ")

/-- The credentials are the account's number and its token. -/
def aqSettingsRequest (S : Services) (req : Original) (credentials : Option (NSString × NSString)) :
    Bool :=
  aqSetupUrl req.url && req.url.path = str "/setup/get_account_settings" && req.isBasic S &&
    credentials.any fun c => c.1 ≠ [] && c.2 ≠ [] && isDigits c.1

def isDecimal (c : UInt16) : Bool := 48 ≤ c && c ≤ 57

/-- A host after the group `(p[0-9]+-)?`. -/
def davRest : NSString → Option NSString
  | [] => some []
  | c :: host =>
    if c = 112 then
      if host.takeWhile isDecimal = [] then none
      else
        match host.dropWhile isDecimal with
        | [] => none
        | d :: rest => if d = 45 then some rest else none
    else some (c :: host)

/-- `^(p[0-9]+-)?(caldav|contacts)\.icloud\.com$`. -/
def davHost (host : NSString) : Bool :=
  davRest host = some (str "caldav.icloud.com") || davRest host = some (str "contacts.icloud.com")

def aqDavUrl (url : NSURL) : Bool :=
  url.isHttps && url.password.isNone &&
    match url.lowerHost with
    | none => false
    | some host =>
      let legacy : ℤ := if (str "caldav.icloud.com").isSuffixOf host then 8443 else 8843
      (url.port.all fun n => integerValue n = 443 || integerValue n = legacy) && davHost host

end AquaTransport
