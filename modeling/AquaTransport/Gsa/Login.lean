import AquaTransport.Gsa.Url
import AquaTransport.Lib.Run
import Mathlib.Data.List.Find
import Mathlib.Data.List.Nodup

/-!
# AquaTransport.Gsa.Login — `aq_login`

`aqLogin` is one attempt, a step on `AQPending`; `Srp` stands for the functions of
`aquatransport_gsa_crypto.h`.
-/

namespace AquaTransport

/-- The interface of `aquatransport_gsa_crypto.c`; a `NULL` pointer is `none`. -/
structure Srp (σ : Type) where
  new : NSData → Option (σ × NSData)
  challenge (s : σ) (user password protocol salt : Option NSData) (iterations : ℕ)
    (server : Option NSData) : σ × Option NSData
  verify : σ → Option NSData → Option NSData

section Model

variable {σ : Type} (S : Services) (P : Srp σ) (io : Outside)

open Gsa Program

/-! ### GrandSlam -/

/-- The request of `aq_exchange`. -/
def exchangeRequest (payload : NSDictionary) (headers : Headers) : Request :=
  let cpd : NSDictionary := headers.map fun p => (p.1, .string p.2)
  let cpd := NSDictionary.setObject cpd "bootstrap" (.number 1)
  let cpd := NSDictionary.setObject cpd "icscrec" (.number 1)
  let cpd := NSDictionary.setObject cpd "pbe" (.number 0)
  let cpd := NSDictionary.setObject cpd "prkgen" (.number 1)
  let cpd := NSDictionary.setObject cpd "svct" (.string (str "iCloud"))
  let cpd := NSDictionary.setObject cpd "loc" (.string (str "en_US"))
  let outer := [(str "Header", .dict [(str "Version", .string (str "1.0.1"))]),
    (str "Request", .dict (NSDictionary.setObject payload "cpd" (.dict cpd)))]
  let httpHeaders : Headers :=
    ["X-Apple-I-MD-M", "X-Mme-Device-Id", "X-MMe-Client-Info"].filterMap fun k =>
      (Headers.objectForKey headers k).map fun v => (str k, v)
  let req := aqAppleRequest (str "https://gsa.apple.com/grandslam/GsService2") httpHeaders
  { req with
    method := "POST"
    headers := Headers.setValue req.headers "Accept" (some (str "*/*"))
    body := some (.encoded (.dict outer)) }

def aqExchange (payload : NSDictionary) (headers : Headers) : Gsa NSDictionary := do
  let r ← aqSend io (exchangeRequest payload headers)
  let result := aqDict (keyOf (aqPlist S r.data) "Response")
  let status := aqDict (keyOf result "Status")
  check (r.statusCode = 200 ∧ status.isSome ∧ aqNumber (keyOf status "ec") = some 0)
    (aqError 20 "Apple rejected the GrandSlam exchange.")
  orFail result (aqError 20 "Apple rejected the GrandSlam exchange.")

def aqDecrypt (encrypted : Option NSData) (key : NSData) : Option NSDictionary :=
  encrypted.bind fun d =>
    if d = [] ∨ 1024 * 1024 < d.length ∨ d.length % 16 ≠ 0 then none
    else do
      let aes ← S.hmac key ((str "extra data key:").map UInt16.toUInt8)
      let iv ← S.hmac key ((str "extra data iv:").map UInt16.toUInt8)
      let plain ← S.aesDecrypt aes iv d
      (aqPlist S plain).orElse fun _ =>
        aqPlist S ((str "<plist version=\"1.0\">").map UInt16.toUInt8 ++ plain ++
          (str "</plist>").map UInt16.toUInt8)

def validateUrl : NSString := str "https://gsa.apple.com/grandslam/GsService2/validate"
def trustedDeviceUrl : NSString := str "https://gsa.apple.com/auth/verify/trusteddevice"

/-- The request of `aq_second_factor`. -/
def secondFactorRequest (identity code : Option NSString) (headers : Headers) : Request :=
  let req := aqAppleRequest (if code.isSome then validateUrl else trustedDeviceUrl) headers
  let h := Headers.setValue req.headers "X-Apple-Identity-Token" identity
  let h := Headers.setValue h "X-Apple-App-Info" (some (str "com.apple.gs.xcode.auth"))
  let h := Headers.setValue h "X-Xcode-Version" (some (str "11.2 (11B41)"))
  { req with headers := if code.isSome then Headers.setValue h "security-code" code else h }

/-- `integerValue`, of what responds to it. -/
def integerOf : Plist → Option ℤ
  | .number n => some n
  | .string s => some (S.integerValue s)
  | _ => none

def aqSecondFactor (identity code : Option NSString) : Gsa Unit := do
  let headers ← aqAnisette io
  let r ← aqSend io (secondFactorRequest identity code headers)
  let status := aqDict (keyOf (aqPlist S r.data) "Status")
  let ec := keyOf status "ec"
  check (r.statusCode = 200 ∧ (ec.isNone ∨ ec.bind (integerOf S) = some 0))
    (aqError 21 "Apple rejected the verification request.")

/-! ### `AQPending` -/

abbrev Pending := List (NSString × Option PendingEntry)

namespace Pending

def find (t : Pending) (account : NSString) : Option (Option PendingEntry) :=
  (List.find? (fun p => p.1 = account) t).map Prod.snd

def remove (t : Pending) (account : NSString) : Pending :=
  List.filter (fun p => p.1 ≠ account) t

/-- `[AQPending setObject:forKey:]`, with the flush before it. -/
def put (t : Pending) (account : NSString) (e : Option PendingEntry) : Pending :=
  (account, e) :: remove (if 32 ≤ t.length then [] else t) account

/-- The entry is still valid; one without keys has `nil` for its date, and 0 seconds left. -/
def unexpired (io : Outside) (account : NSString) : Option PendingEntry → Bool
  | some e => decide (0 < e.expires - io.purgeClock account)
  | none => false

def purge (t : Pending) : Pending := List.filter (fun p => unexpired io p.1 p.2) t

end Pending

/-- The code at the end of a password that is six units longer than the one proved before. -/
def submittedCode (password : NSString) : Option PendingEntry → Option NSString
  | some e =>
    if 6 < password.length ∧ password.length - 6 = e.passwordLength ∧
        isDigits (password.drop (password.length - 6)) then
      some (password.drop (password.length - 6))
    else none
  | none => none

/-! ### `aq_login` -/

/-- `aq_login` from the server's proof on. -/
def aqSettle (account password : NSString) (reply : NSDictionary) (key : NSData) :
    Gsa NSDictionary := do
  let status := aqDict (keyOf reply "Status")
  let secondary := aqString (keyOf status "au")
  let spd ← orFail (aqDecrypt S (aqData (keyOf reply "spd")) key)
    (aqError 25 "Invalid encrypted GrandSlam session data.")
  if secondary = some (str "trustedDeviceSecondaryAuth") then
    let missing := aqError 26 "Missing verification session."
    let dsid ← orFail (aqString (keyOf spd "adsid")) missing
    let token ← orFail (aqString (keyOf spd "GsIdmsToken")) missing
    let identity := joined64 S dsid token
    aqSecondFactor S io identity none
    modify fun s => { s with pending := Pending.put s.pending account (identity.map fun i =>
      { identity := i, passwordLength := password.length, expires := io.clock + 300 }) }
    fail (aqError 401 ("Approve sign-in on your trusted device, then enter your password " ++
      "followed by the six-digit code."))
  else
    let unsupported :=
      aqError 27 "This account requires an unsupported verification method (such as SMS)."
    check secondary.isNone unsupported
    match keyOf status "hsc" with
    | none => fail unsupported
    | some v =>
      let hsc ← orFail (integerOf S v) unexpected
      check (hsc = 200) unsupported
      pure spd

/-- `aq_login` from the SRP exchange on. -/
def aqProve (account user password : NSString) : Gsa NSDictionary := do
  let headers ← aqAnisette io
  let srp ← orFail (P.new io.random) (aqError 22 "Could not initialize SRP.")
  let challenge ← aqExchange S io [(str "A2k", .data srp.2),
    (str "ps", .array [.string (str "s2k"), .string (str "s2k_fo")]),
    (str "u", .string user), (str "o", .string (str "init"))] headers
  let invalid := aqError 23 "Invalid GrandSlam SRP challenge."
  let iterations ← orFail (aqNumber (keyOf challenge "i")) invalid
  check (1 ≤ iterations ∧ iterations ≤ 1000000) invalid
  let continuation ← orFail (aqString (keyOf challenge "c")) invalid
  let r := P.challenge srp.1 (S.utf8 user) (S.utf8 password)
    ((aqString (keyOf challenge "sp")).bind S.utf8) (aqData (keyOf challenge "s"))
    iterations.toNat (aqData (keyOf challenge "B"))
  let M ← orFail r.2 invalid
  let reply ← aqExchange S io [(str "c", .string continuation), (str "M1", .data M),
    (str "u", .string user), (str "o", .string (str "complete"))] headers
  let key ← orFail (P.verify r.1 (aqData (keyOf reply "M2")))
    (aqError 24 "GrandSlam server proof did not verify.")
  aqSettle S io account password reply key

def aqLogin (user password : NSString) : Gsa NSDictionary := do
  modify fun s => { s with pending := Pending.purge io s.pending }
  let account := S.lowercase user
  let s ← get
  match Pending.find s.pending account with
  | none => aqProve S P io account user password
  | some pending =>
    match submittedCode password pending with
    | some code =>
      aqSecondFactor S io (pending.map PendingEntry.identity) (some code)
      modify fun s => { s with pending := Pending.remove s.pending account }
      aqProve S P io account user (password.take (password.length - 6))
    | none =>
      modify fun s => { s with pending := Pending.remove s.pending account }
      aqProve S P io account user password

end Model

/-! ### The table -/

namespace Pending

variable {t : Pending} {account : NSString} {v e : Option PendingEntry}

/-- No account has two entries, and a recorded length is that of some password. -/
structure Ok (t : Pending) : Prop where
  nodup : (List.map Prod.fst t).Nodup
  positive : ∀ account e, (account, some e) ∈ t → 0 < e.passwordLength

theorem find_iff (h : t.Ok) : t.find account = some v ↔ (account, v) ∈ t := by
  unfold find
  constructor
  · intro hf
    obtain ⟨p, hp, rfl⟩ := Option.map_eq_some_iff.mp hf
    obtain rfl : p.1 = account := by simpa using List.find?_some hp
    exact List.mem_of_find?_eq_some hp
  · intro hm
    cases hf : List.find? (fun p => p.1 = account) t with
    | none => simpa using List.find?_eq_none.mp hf _ hm
    | some p =>
      have hp : p.1 = account := by simpa using List.find?_some hf
      have heq : p = (account, v) :=
        List.inj_on_of_nodup_map h.nodup (List.mem_of_find?_eq_some hf) hm hp
      rw [heq, Option.map_some]

theorem Ok.filter (h : t.Ok) (f : NSString × Option PendingEntry → Bool) :
    Ok (List.filter f t) := by
  refine ⟨?_, fun account e hm => h.positive account e (List.mem_of_mem_filter hm)⟩
  exact h.nodup.sublist (List.Sublist.map Prod.fst List.filter_sublist)

theorem Ok.empty : Ok [] := ⟨List.nodup_nil, by simp⟩

theorem Ok.put (h : t.Ok) (he : ∀ r, e = some r → 0 < r.passwordLength) :
    Ok (put t account e) := by
  have hrest : Ok (remove (if 32 ≤ t.length then [] else t) account) := by
    split_ifs
    · exact Ok.empty
    · exact h.filter _
  refine ⟨?_, fun a r hm => ?_⟩
  · refine List.nodup_cons.mpr ⟨fun hm => ?_, hrest.nodup⟩
    obtain ⟨p, hp, hpa⟩ := List.mem_map.mp hm
    have hne := (List.mem_filter.mp hp).2
    simp [hpa] at hne
  · rcases List.mem_cons.mp hm with hp | hp
    · obtain ⟨-, hr⟩ := Prod.mk.inj hp
      exact he r hr.symm
    · exact hrest.positive a r hp

end Pending

/-! ### Services for runs -/

/-- Services that know the property lists of the replies below by their bytes. -/
def sampleServices : Services where
  plist := fun d => match d with
    | [1] => some (.dict [(str "Response", .dict [(str "Status", .dict [(str "ec", .number 0)]),
        (str "i", .number 1000), (str "c", .string (str "next")), (str "sp", .string (str "s2k")),
        (str "s", .data [5]), (str "B", .data [6])])])
    | [2] => some (.dict [(str "Response", .dict [(str "Status", .dict [(str "ec", .number 0),
        (str "au", .string (str "trustedDeviceSecondaryAuth"))]),
        (str "M2", .data [7]), (str "spd", .data (List.replicate 16 8))])])
    | [3] => some (.dict [(str "Status", .dict [(str "ec", .number 0)])])
    | [4] => some (.dict [(str "Response", .dict [(str "Status", .dict [(str "ec", .number 0),
        (str "hsc", .number 200)]), (str "M2", .data [7]), (str "spd", .data (List.replicate 16 9))])])
    | [5] => some (.dict [(str "appleAccountInfo", .dict [(str "dsid", .string (str "1"))]),
        (str "tokens", .dict [(str "mmeAuthToken", .string (str "mme"))])])
    | 8 :: _ => some (.dict [(str "adsid", .string (str "1")),
        (str "GsIdmsToken", .string (str "t"))])
    | 9 :: _ => some (.dict [(str "t", .dict [(str "com.apple.gs.idms.pet", .dict
        [(str "token", .string (str "pet"))])])])
    | _ => none
  utf8 := fun s => some (s.map UInt16.toUInt8)
  ofUtf8 := fun d => some (d.map UInt8.toUInt16)
  lowercase := fun s => s.map lowerAscii
  integerValue := fun _ => 0
  encode64 := fun d => d.map UInt8.toUInt16
  decode64 := fun s => some s
  gunzip := fun d => some d
  hmac := fun _ _ => some []
  aesDecrypt := fun _ _ d => some d
  percentEscape := some

/-- A proof that is a sum of the password's bytes. -/
def sampleSrp : Srp Unit where
  new := fun _ => some ((), [4])
  challenge := fun s _ password _ _ _ _ => (s, password.map fun p => [p.foldl (· + ·) 0])
  verify := fun _ _ => some [10]

def sampleAnisette : Anisette where
  machine := str "m"
  oneTime := str "o"
  routing := str "17106176"
  device := str "d"
  device64 := str "ZA=="
  clientTime := str "2024-01-01T00:00:00Z"
  timeZone := str "GMT"
  locale := str "en_US"

end AquaTransport
