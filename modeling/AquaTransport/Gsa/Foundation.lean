import AquaTransport.Lib.Program
import Mathlib.Algebra.Order.Ring.Rat
import Mathlib.Data.List.Basic
import Mathlib.Data.List.Find

/-!
# AquaTransport.Gsa.Foundation — strings, property lists, requests and what answers them

The Foundation values that the iCloud adapter handles.  An `NSString` is its UTF-16 code units, and a
dictionary the list of its pairs.  `Services` is what the adapter takes from Foundation, zlib and
OpenSSL; `Outside` is what the device and Apple answer during one attempt, by the number of the
question.  `Gsa` is a task that asks: its log has every request sent.
-/

namespace AquaTransport

/-! ### Strings and property lists -/

abbrev NSString := List UInt16

/-- An ASCII literal. -/
def str (s : String) : NSString := s.toList.map fun c => UInt16.ofNat c.toNat

inductive Plist
  | string (s : NSString)
  | data (d : List UInt8)
  | number (n : ℤ)
  | date
  | array (a : List Plist)
  | dict (d : List (NSString × Plist))

abbrev NSData := List UInt8
abbrev NSDictionary := List (NSString × Plist)

namespace NSDictionary

def objectForKey (d : NSDictionary) (k : String) : Option Plist :=
  (d.find? fun p => p.1 = str k).map Prod.snd

/-- `[d setObject:v forKey:k]`. -/
def setObject (d : NSDictionary) (k : String) (v : Plist) : NSDictionary :=
  (str k, v) :: d.filter fun p => p.1 ≠ str k

end NSDictionary

def aqDict : Option Plist → Option NSDictionary
  | some (.dict d) => some d
  | _ => none

def aqString : Option Plist → Option NSString
  | some (.string s) => if s = [] then none else some s
  | _ => none

def aqData : Option Plist → Option NSData
  | some (.data d) => some d
  | _ => none

/-- `[v isKindOfClass:[NSNumber class]]`, with its `integerValue`. -/
def aqNumber : Option Plist → Option ℤ
  | some (.number n) => some n
  | _ => none

/-- A key of an optional dictionary; `nil` of `nil`. -/
def keyOf (d : Option NSDictionary) (k : String) : Option Plist := d.bind fun d => d.objectForKey k

/-! ### Errors -/

structure NSError where
  domain : String
  code : ℤ
  message : String
  deriving DecidableEq

def AQErrorDomain : String := "AquaTransport.iCloud"

def aqError (code : ℤ) (message : String) : NSError := ⟨AQErrorDomain, code, message⟩

/-- What `work` reports for an exception. -/
def unexpected : NSError := aqError 40 "Unexpected authentication response."

/-! ### Requests -/

abbrev Headers := List (NSString × NSString)

def lowerAscii (c : UInt16) : UInt16 := if 65 ≤ c ∧ c ≤ 90 then c + 32 else c

/-- Header fields are compared without case. -/
def sameField (a b : NSString) : Bool := a.map lowerAscii == b.map lowerAscii

namespace Headers

/-- `valueForHTTPHeaderField:`. -/
def value (h : Headers) (k : String) : Option NSString :=
  (h.find? fun p => sameField p.1 (str k)).map Prod.snd

/-- `setValue:forHTTPHeaderField:`; a `nil` value takes the field out. -/
def setField (h : Headers) (k : NSString) (v : Option NSString) : Headers :=
  (v.map fun v => (k, v)).toList ++ h.filter fun p => !sameField p.1 k

def setValue (h : Headers) (k : String) (v : Option NSString) : Headers := setField h (str k) v

/-- `for (k in headers) [r setValue:headers[k] forHTTPHeaderField:k]`. -/
def setAll (h : Headers) (headers : Headers) : Headers :=
  headers.foldl (fun h p => setField h p.1 (some p.2)) h

/-- A key of a header dictionary: with its case. -/
def objectForKey (h : Headers) (k : String) : Option NSString :=
  (h.find? fun p => p.1 = str k).map Prod.snd

theorem sameField_self (k : NSString) : sameField k k = true := beq_self_eq_true _

theorem value_set {h : Headers} {k : String} (w : NSString) : value (setValue h k (some w)) k = some w := by
  unfold value setValue setField
  rw [Option.map_some, Option.toList_some, List.singleton_append,
    List.find?_cons_of_pos (by exact sameField_self (str k))]
  rfl

theorem value_set_ne {h : Headers} {k l : String} {v : Option NSString}
    (hk : sameField (str k) (str l) = false) : value (setValue h k v) l = h.value l := by
  have hrest : (h.filter fun p => !sameField p.1 (str k)).find? (fun p => sameField p.1 (str l)) =
      h.find? fun p => sameField p.1 (str l) := by
    rw [List.find?_filter]
    refine List.find?_congr fun p _ => ?_
    by_cases hp : sameField p.1 (str l) = true
    · have hne : sameField p.1 (str k) = false := by
        unfold sameField at hp hk ⊢
        rw [eq_of_beq hp, Bool.eq_false_iff]
        intro heq
        rw [eq_of_beq heq, beq_self_eq_true] at hk
        simp at hk
      simp [hp, hne]
    · simp [hp]
  unfold value setValue setField
  cases v with
  | none => rw [Option.map_none, Option.toList_none, List.nil_append, hrest]
  | some w =>
    rw [Option.map_some, Option.toList_some, List.singleton_append,
      List.find?_cons_of_neg (by simpa using hk), hrest]

end Headers

/-- A body: bytes as they came, or a property list as `aq_encode` writes it. -/
inductive Body
  | raw (d : NSData)
  | encoded (p : Plist)

structure Request where
  method : String := "GET"
  url : NSString
  headers : Headers := []
  body : Option Body := none

structure Response where
  statusCode : ℤ
  data : NSData

/-- What the adapter takes from Foundation, zlib and OpenSSL. -/
structure Services where
  /-- `propertyListWithData:` of a nonempty data. -/
  plist : NSData → Option Plist
  /-- `dataUsingEncoding:NSUTF8StringEncoding`; an unpaired surrogate has none. -/
  utf8 : NSString → Option NSData
  ofUtf8 : NSData → Option NSString
  lowercase : NSString → NSString
  /-- `integerValue` of a string. -/
  integerValue : NSString → ℤ
  encode64 : NSData → NSString
  /-- `EVP_DecodeBlock`: three bytes for each four characters. -/
  decode64 : NSData → Option NSData
  /-- `inflate` of a whole gzip stream, at most a megabyte of it. -/
  gunzip : NSData → Option NSData
  hmac : NSData → NSData → Option NSData
  /-- AES-256-CBC with padding, by key and initialization vector. -/
  aesDecrypt : NSData → NSData → NSData → Option NSData
  /-- `CFURLCreateStringByAddingPercentEscapes` of the reserved characters too. -/
  percentEscape : NSString → Option NSString

/-- `dataUsingEncoding:NSASCIIStringEncoding`. -/
def asciiData (s : NSString) : Option NSData :=
  if s.all fun c => c < 128 then some (s.map UInt16.toUInt8) else none

variable (S : Services)

def aqPlist (d : NSData) : Option NSDictionary := if d = [] then none else aqDict (S.plist d)

def aqBase64 (d : Option NSData) : Option NSString :=
  d.bind fun d => if 1024 * 1024 < d.length then none else some (S.encode64 d)

/-- `[NSString stringWithFormat:@"%@:%@", a, b]` in UTF-8 and base64. -/
def joined64 (a b : NSString) : Option NSString := aqBase64 S (S.utf8 (a ++ str ":" ++ b))

/-! ### What the outside answers -/

abbrev Time := ℚ

/-- The device's answers to one `aq_anisette`. -/
structure Anisette where
  machine : NSString
  oneTime : NSString
  routing : NSString
  device : NSString
  device64 : NSString
  clientTime : NSString
  timeZone : NSString
  locale : NSString

/-- The answers during one attempt.  A cancelled attempt gets errors. -/
structure Outside where
  /-- What the device answers, at each time it is asked. -/
  anisette : ℕ → Except NSError Anisette
  /-- What `aq_send` makes of Apple's reply to each request. -/
  reply : ℕ → Except NSError Response
  /-- The clock when the purge looks at an account's entry. -/
  purgeClock : NSString → Time
  /-- The clock when a pending entry is made. -/
  clock : Time
  random : NSData

/-- What `AQPending` holds for an account. -/
structure PendingEntry where
  identity : NSString
  passwordLength : ℕ
  expires : Time
  deriving DecidableEq

/-- What an attempt asks: the device for its headers, and Apple. -/
inductive GsaObs
  | anisette
  | sent (r : Request)

structure GsaState where
  /-- `AQPending`; `none` is an entry without keys. -/
  pending : List (NSString × Option PendingEntry) := []
  log : List GsaObs := []

abbrev Gsa := Program GsaState NSError

def AQClient : String :=
  "<MacBookPro13,2> <macOS;13.1;22C65> <com.apple.AuthKit/1 (com.apple.akd/1.0)>"

/-- The headers that `aq_anisette` makes of the answers. -/
def Anisette.headers (a : Anisette) : Headers :=
  [(str "X-Apple-I-MD-M", a.machine), (str "X-Apple-I-MD", a.oneTime),
    (str "X-Apple-I-MD-RINFO", a.routing), (str "X-Mme-Device-Id", a.device),
    (str "X-Apple-I-MD-LU", a.device64), (str "X-MMe-Client-Info", str AQClient),
    (str "X-Apple-I-Client-Time", a.clientTime), (str "X-Apple-I-TimeZone", a.timeZone),
    (str "X-Apple-Locale", a.locale)]

namespace Gsa

/-- How many requests have been sent. -/
def sends (log : List GsaObs) : ℕ := log.countP fun | .sent _ => true | _ => false

/-- How often the device has been asked. -/
def asks (log : List GsaObs) : ℕ := log.countP fun | .anisette => true | _ => false

/-- `aq_anisette`. -/
def aqAnisette (io : Outside) : Gsa Headers := fun s =>
  ((io.anisette (asks s.log)).map Anisette.headers, { s with log := .anisette :: s.log })

/-- `aq_send`. -/
def aqSend (io : Outside) (r : Request) : Gsa Response := fun s =>
  (io.reply (sends s.log), { s with log := .sent r :: s.log })

/-- The requests sent, newest first. -/
def requests (log : List GsaObs) : List Request :=
  log.filterMap fun
    | .sent r => some r
    | _ => none

theorem sends_eq (log : List GsaObs) : sends log = (requests log).length := by
  induction log with
  | nil => rfl
  | cons x log ih =>
    cases x with
    | anisette => exact ih
    | sent r =>
      show sends (.sent r :: log) = (requests log).length + 1
      rw [← ih, sends, List.countP_cons_of_pos rfl]
      rfl

end Gsa

def aqAppleRequest (url : NSString) (headers : Headers) : Request :=
  { url := url
    headers := Headers.setAll
      [(str "Content-Type", str "text/x-xml-plist"), (str "Accept", str "text/x-xml-plist"),
        (str "User-Agent", str "akd/1.0 CFNetwork/978.0.7 Darwin/18.7.0"),
        (str "X-Mme-Client-Info", str AQClient)] headers }

end AquaTransport
