import AquaTransport.Lib.Base64
import AquaTransport.Lib.Utf
import AquaTransport.Gsa.Bridge

/-!
# AquaTransport.Gsa.Credentials — credentials into a `Basic` field and out of it

`Services.coded` has Foundation's UTF-8 and OpenSSL's base64.  `credentials_basic`: what `aq_basic`
writes for a user and a password, `aq_credentials` reads from a request that carries it.
-/

namespace AquaTransport

/-- Services with UTF-8 and base64 as they are. -/
def Services.coded (S : Services) : Services :=
  { S with
    utf8 := Utf.toUtf8
    ofUtf8 := Utf.ofUtf8
    encode64 := fun d => (Base64.encode d).map UInt8.toUInt16
    decode64 := Base64.decode }

/-- The base64 of a user and a password. -/
def encodedForm (user password : NSString) : Option NSData :=
  (Utf.toUtf8 (user ++ str ":" ++ password)).map Base64.encode

/-! ### Writing -/

section Writing

variable {user password : NSString}

/-- Valid text has UTF-8 bytes. -/
theorem toUtf8_joined (hu : (Utf.chars user).isSome) (hp : (Utf.chars password).isSome) :
    ∃ d, Utf.toUtf8 (user ++ str ":" ++ password) = some d ∧ d ≠ [] := by
  obtain ⟨cs, hcs⟩ := Option.isSome_iff_exists.mp hu
  obtain ⟨ds, hds⟩ := Option.isSome_iff_exists.mp hp
  have hcolon : Utf.chars (str ":") = some [':'] := rfl
  have hj : Utf.chars (user ++ str ":" ++ password) = some (cs ++ ([':'] ++ ds)) := by
    rw [List.append_assoc, Utf.chars_append hcs, Utf.chars_append hcolon, hds]
    rfl
  refine ⟨(cs ++ ([':'] ++ ds)).flatMap String.utf8EncodeChar, by rw [Utf.toUtf8, hj]; rfl, ?_⟩
  intro hnil
  have hmem : ':' ∈ cs ++ ([':'] ++ ds) := List.mem_append_right cs List.mem_cons_self
  exact absurd (List.flatMap_eq_nil_iff.mp hnil ':' hmem) (by decide)

/-- What is at most 16384 characters in base64 is not too long for it. -/
theorem joined64_coded (S : Services) {d : NSData}
    (hd : Utf.toUtf8 (user ++ str ":" ++ password) = some d)
    (hlen : (Base64.encode d).length ≤ 16384) :
    joined64 S.coded user password = some ((Base64.encode d).map UInt8.toUInt16) := by
  rw [Base64.length_encode] at hlen
  show aqBase64 S.coded (Utf.toUtf8 (user ++ str ":" ++ password)) = _
  rw [hd, aqBase64, Option.bind_some, if_neg (by omega)]
  rfl

end Writing

/-! ### Reading -/

/-- The characters of an encoding are ASCII, and are its bytes. -/
theorem asciiData_encode (d : NSData) :
    asciiData ((Base64.encode d).map UInt8.toUInt16) = some (Base64.encode d) := by
  have hall : ((Base64.encode d).map UInt8.toUInt16).all (fun c => c < 128) = true := by
    rw [List.all_map, List.all_eq_true]
    intro c hc
    have := (Base64.char64_of_mem_encode hc).lt
    simpa [UInt16.lt_iff_toNat_lt, UInt8.lt_iff_toNat_lt] using this
  rw [asciiData, if_pos hall, List.map_map]
  have hid : UInt16.toUInt8 ∘ UInt8.toUInt16 = id := by
    ext1 c
    exact UInt8.toUInt8_toUInt16 c
  rw [hid, List.map_id]

theorem lower_lt {c : UInt16} (h : lowerAscii c < 128) : c < 128 := by
  unfold lowerAscii at h
  split at h
  · rename_i hc
    rw [UInt16.le_iff_toNat_le, UInt16.le_iff_toNat_le] at hc
    rw [UInt16.lt_iff_toNat_lt]
    exact Nat.lt_of_le_of_lt hc.2 (by decide)
  · exact h

/-- A user before the first colon, and the password behind it. -/
theorem split_colon {user : NSString} (h : 58 ∉ user) (password : NSString) :
    (user ++ str ":" ++ password).takeWhile (· ≠ 58) = user ∧
      (user ++ str ":" ++ password).drop (user.length + 1) = password := by
  rw [List.append_assoc]
  constructor
  · rw [List.takeWhile_append_of_pos]
    · exact List.append_nil user
    · intro c hc
      simpa using fun he : c = 58 => h (he ▸ hc)
  · rw [← List.drop_drop, List.drop_left]
    rfl

/-- **A `Basic` field is read as what it was made of.** -/
theorem basicCredentials_coded (S : Services) {user password : NSString} (hu : user ≠ [])
    (hcolon : 58 ∉ user) (hp : password ≠ []) {d : NSData} (hne : d ≠ [])
    (hd : Utf.toUtf8 (user ++ str ":" ++ password) = some d)
    (hlen : (Base64.encode d).length ≤ 16384) {scheme : NSString} (hs : scheme.length = 6) :
    basicCredentials S.coded (scheme ++ (Base64.encode d).map UInt8.toUInt16) =
      some (some (user, password)) := by
  have hpos := List.length_pos_iff.mpr hne
  have hl := Base64.length_encode d
  have hne' : Base64.encode d ≠ [] := List.ne_nil_of_length_pos (by omega)
  obtain ⟨htake, hdrop⟩ := split_colon hcolon password
  have hlenpad : (d ++ List.replicate (Base64.pad d) 0).length - Base64.pad d = d.length := by
    simp
  unfold basicCredentials
  rw [← hs, List.drop_left, asciiData_encode]
  dsimp only [Option.getD_some]
  rw [if_neg (by
    rintro (h | h | h)
    · exact hne' h
    · omega
    · omega)]
  have hdec : S.coded.decode64 (Base64.encode d) = some (d ++ List.replicate (Base64.pad d) 0) :=
    Base64.decode_encode d
  have hpad : (if (Base64.encode d).getLast? = some 61 then 1 else 0) +
      (if (Base64.encode d).dropLast.getLast? = some 61 then 1 else 0) = Base64.pad d :=
    Base64.pad_eq d
  have hutf : S.coded.ofUtf8 d = some (user ++ str ":" ++ password) := Utf.ofUtf8_toUtf8 hd
  rw [hdec]
  dsimp only
  rw [hpad, hlenpad, List.take_left, hutf]
  dsimp only
  rw [htake, hdrop, if_pos ⟨hu, hp⟩]

/-- The field starts with the scheme, whatever its case. -/
theorem isBasic_coded {S : Services}
    (hlower : ∀ s : NSString, (∀ c ∈ s, c < 128) → S.lowercase s = s.map lowerAscii)
    {req : Original} {scheme : NSString} (hs : scheme.map lowerAscii = str "basic") (d : NSData)
    (hreq : req.headers.value "Authorization" =
      some (scheme ++ str " " ++ (Base64.encode d).map UInt8.toUInt16)) :
    req.isBasic S.coded = true := by
  have hascii : ∀ c ∈ scheme ++ str " " ++ (Base64.encode d).map UInt8.toUInt16, c < 128 := by
    intro c hc
    simp only [List.mem_append] at hc
    rcases hc with (hc | hc) | hc
    · apply lower_lt
      have hmem : lowerAscii c ∈ str "basic" := hs ▸ List.mem_map_of_mem hc
      have hall : (str "basic").all (fun c => c < 128) = true := by decide
      simpa using List.all_eq_true.mp hall _ hmem
    · obtain rfl := List.mem_singleton.mp hc
      decide
    · obtain ⟨x, hx, rfl⟩ := List.mem_map.mp hc
      have := (Base64.char64_of_mem_encode hx).lt
      simpa [UInt16.lt_iff_toNat_lt, UInt8.lt_iff_toNat_lt] using this
  have hlow : S.coded.lowercase (scheme ++ str " " ++ (Base64.encode d).map UInt8.toUInt16) =
      str "basic " ++ ((Base64.encode d).map UInt8.toUInt16).map lowerAscii := by
    show S.lowercase _ = _
    rw [hlower _ hascii, List.map_append, List.map_append, hs]
    rfl
  unfold Original.isBasic
  rw [hreq, Option.any_some, hlow]
  exact List.isPrefixOf_iff_prefix.mpr (List.prefix_append _ _)

/-- **Basic credentials round-trip**: for a request whose body is at most a megabyte. -/
theorem credentials_basic (S : Services)
    (hlower : ∀ s : NSString, (∀ c ∈ s, c < 128) → S.lowercase s = s.map lowerAscii)
    {user password : NSString} (hu : user ≠ []) (hcolon : 58 ∉ user) (hp : password ≠ [])
    (hvu : (Utf.chars user).isSome) (hvp : (Utf.chars password).isSome)
    (hlen : ∀ e ∈ encodedForm user password, e.length ≤ 16384) :
    ∃ b, (∀ s, aqBasic S.coded user password s = (.ok (str "Basic " ++ b), s)) ∧
      ∀ (req : Original) (scheme : NSString), scheme.map lowerAscii = str "basic" →
        req.headers.value "Authorization" = some (scheme ++ str " " ++ b) →
        req.length ≤ 1024 * 1024 → aqCredentials S.coded req = some (user, password) := by
  obtain ⟨d, hd, hne⟩ := toUtf8_joined hvu hvp
  have hl : (Base64.encode d).length ≤ 16384 := hlen _ (by rw [encodedForm, hd]; rfl)
  refine ⟨(Base64.encode d).map UInt8.toUInt16, fun s => ?_, fun req scheme hs hreq hbody => ?_⟩
  · rw [aqBasic, joined64_coded S hd hl]
    rfl
  · have hsix : (scheme ++ str " ").length = 6 := by
      have := congrArg List.length hs
      rw [List.length_map] at this
      rw [List.length_append, this]
      rfl
    unfold aqCredentials
    rw [if_neg (by omega), if_pos (isBasic_coded hlower hs d hreq), hreq, Option.getD_some,
      basicCredentials_coded S hu hcolon hp hne hd hl hsix]

/-- A user and a password of one, two and three bytes each. -/
theorem credentials_basic_sample : ∃ b,
    (∀ s, aqBasic sampleServices.coded (str "u") [0xE9, 58, 0x20AC] s =
      (.ok (str "Basic " ++ b), s)) ∧
    ∀ (req : Original) (scheme : NSString), scheme.map lowerAscii = str "basic" →
      req.headers.value "Authorization" = some (scheme ++ str " " ++ b) →
      req.length ≤ 1024 * 1024 →
      aqCredentials sampleServices.coded req = some (str "u", [0xE9, 58, 0x20AC]) := by
  refine credentials_basic sampleServices (fun _ _ => rfl) (by decide) (by decide) (by decide)
    (by decide) (by decide) ?_
  decide

/-- A request that carries `u` and `p`, with a body of a megabyte and a byte. -/
def longRequest : Original where
  method := "POST"
  url :=
    { absoluteString := str "https://setup.icloud.com/setup/login_or_create_account"
      scheme := some (str "https")
      user := none
      password := none
      host := some (str "setup.icloud.com")
      port := none
      path := str "/setup/login_or_create_account"
      query := none
      fragment := none }
  headers := [(str "Authorization", str "Basic dTpw")]
  body := some (List.replicate (1024 * 1024 + 1) 0)
  stream := false

/-- It has no credentials, for its length alone. -/
theorem credentials_longRequest :
    (∀ s, aqBasic sampleServices.coded (str "u") (str "p") s = (.ok (str "Basic dTpw"), s)) ∧
      longRequest.headers.value "Authorization" = some (str "Basic dTpw") ∧
      aqCredentials sampleServices.coded longRequest = none := by
  have hlong : 1024 * 1024 < longRequest.length := by
    show _ < (List.replicate (1024 * 1024 + 1) (0 : UInt8)).length
    rw [List.length_replicate]
    omega
  exact ⟨fun s => rfl, rfl, if_pos hlong⟩

end AquaTransport
