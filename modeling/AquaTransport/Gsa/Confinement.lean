import AquaTransport.Gsa.Bridge
import AquaTransport.Gsa.TwoFactor
import Mathlib.Data.List.Forall2

/-!
# AquaTransport.Gsa.Confinement — where a password goes

`password_confined` is about two runs of `aq_bridge` for the same request with two passwords of one
length and one ending, and the same answers: every request sent is the same but for `M1`.  It also
says which tokens stand where the original has its credentials.
-/

namespace AquaTransport

open Gsa Program

/-! ### The same request with another password -/

/-- Passwords of one length that end in the same six units. -/
def Alike (p p' : NSString) : Prop :=
  p.length = p'.length ∧ (6 < p.length → p.drop (p.length - 6) = p'.drop (p'.length - 6))

/-- The same dictionary, or no dictionary, but for its password. -/
inductive DictAlike : Option NSDictionary → Option NSDictionary → Prop
  | none : DictAlike none none
  | same {d d' : NSDictionary}
      (h : (d.filter fun p => p.1 ≠ str "password") = d'.filter fun p => p.1 ≠ str "password")
      (hp : NSDictionary.objectForKey d "password" = NSDictionary.objectForKey d' "password") :
      DictAlike (some d) (some d')
  | alike {d d' : NSDictionary} {p p' : NSString}
      (h : (d.filter fun p => p.1 ≠ str "password") = d'.filter fun p => p.1 ≠ str "password")
      (hd : NSDictionary.objectForKey d "password" = some (.string p))
      (hd' : NSDictionary.objectForKey d' "password" = some (.string p')) (hp : Alike p p') :
      DictAlike (some d) (some d')

/-- The same header fields but for `Authorization`. -/
def HeadersAlike (h h' : Headers) : Prop :=
  (h.filter fun p => !sameField p.1 (str "Authorization")) =
    h'.filter fun p => !sameField p.1 (str "Authorization")

/-- The same `Authorization`, or `Basic` credentials with another password. -/
def BasicAlike (S : Services) (o o' : Original) : Prop :=
  o.headers.value "Authorization" = o'.headers.value "Authorization" ∨
    ∃ u p p', Alike p p' ∧ o.isBasic S = true ∧ o'.isBasic S = true ∧
      basicCredentials S ((o.headers.value "Authorization").getD []) = some (some (u, p)) ∧
      basicCredentials S ((o'.headers.value "Authorization").getD []) = some (some (u, p'))

/-- The same request but for the password, in the header or in the body. -/
structure SameButPassword (S : Services) (o o' : Original) : Prop where
  method : o.method = o'.method
  url : o.url = o'.url
  headers : HeadersAlike o.headers o'.headers
  basic : BasicAlike S o o'
  tooLong : 1024 * 1024 < o.length ↔ 1024 * 1024 < o'.length
  /-- The body as `aq_request_plist` reads it. -/
  request : DictAlike (aqRequestPlist S o) (aqRequestPlist S o')
  /-- The body as the `loginDelegates` branch reads it. -/
  body : DictAlike (aqPlist S (o.body.getD [])) (aqPlist S (o'.body.getD []))

section Alike

variable {S : Services} {o o' : Original} {d d' : Option NSDictionary} {h h' : Headers}
  {p p' : NSString}

theorem str_ne {a b : String} (h : (str a == str b) = false) : str a ≠ str b := by
  simpa using h

theorem objectForKey_filter {d : NSDictionary} {k : String} (hk : str k ≠ str "password") :
    NSDictionary.objectForKey (d.filter fun p => p.1 ≠ str "password") k =
      NSDictionary.objectForKey d k := by
  unfold NSDictionary.objectForKey
  rw [List.find?_filter]
  congr 1
  refine List.find?_congr fun p _ => ?_
  by_cases hp : p.1 = str k <;> simp [hp, hk]

/-- All other keys are the same. -/
theorem DictAlike.key (h : DictAlike d d') {k : String} (hk : str k ≠ str "password") :
    keyOf d k = keyOf d' k := by
  cases h with
  | none => rfl
  | same h _ | alike h _ _ _ =>
    show NSDictionary.objectForKey _ k = NSDictionary.objectForKey _ k
    rw [← objectForKey_filter hk, h, objectForKey_filter hk]

theorem DictAlike.isSome (h : DictAlike d d') : d.isSome = d'.isSome := by
  cases h <;> rfl

/-- What is left after the password is replaced. -/
theorem DictAlike.setPassword {d d' : NSDictionary} (h : DictAlike (some d) (some d')) (v : Plist) :
    NSDictionary.setObject d "password" v = NSDictionary.setObject d' "password" v := by
  unfold NSDictionary.setObject
  cases h with
  | same h _ | alike h _ _ _ => rw [h]

/-- Credentials with one user, and passwords alike. -/
inductive CredentialsAlike : Option (NSString × NSString) → Option (NSString × NSString) → Prop
  | none : CredentialsAlike none none
  | some {u p p' : NSString} (h : Alike p p') : CredentialsAlike (some (u, p)) (some (u, p'))

theorem Alike.refl (p : NSString) : Alike p p := ⟨rfl, fun _ => rfl⟩

theorem CredentialsAlike.refl (c : Option (NSString × NSString)) : CredentialsAlike c c := by
  cases c with
  | none => exact .none
  | some c => exact .some (Alike.refl c.2)

/-- A user, and what stands under the password key. -/
theorem DictAlike.credentials (h : DictAlike d d') (user : Option NSString) :
    CredentialsAlike (user.bind fun u => (aqString (keyOf d "password")).map fun p => (u, p))
      (user.bind fun u => (aqString (keyOf d' "password")).map fun p => (u, p)) := by
  cases user with
  | none => exact .none
  | some u =>
    show CredentialsAlike ((aqString (keyOf d "password")).map fun p => (u, p))
      ((aqString (keyOf d' "password")).map fun p => (u, p))
    cases h with
    | none => exact .none
    | same _ hp =>
      have heq : keyOf (some _) "password" = keyOf (some _) "password" := hp
      rw [heq]
      exact CredentialsAlike.refl _
    | @alike d d' p p' _ hd hd' hp =>
      have h1 : keyOf (some d) "password" = some (.string p) := hd
      have h2 : keyOf (some d') "password" = some (.string p') := hd'
      rw [h1, h2]
      -- of one length: both are empty or neither is
      have hnil : p = [] ↔ p' = [] := by
        rw [← List.length_eq_zero_iff, ← List.length_eq_zero_iff, hp.1]
      unfold aqString
      dsimp only
      by_cases he : p = []
      · rw [if_pos he, if_pos (hnil.mp he)]
        exact .none
      · rw [if_neg he, if_neg fun h => he (hnil.mpr h)]
        exact .some hp

theorem DictAlike.idsCredentials (h : DictAlike d d') :
    CredentialsAlike (idsCredentials d) (idsCredentials d') := by
  have hu : aqString (keyOf d "username") = aqString (keyOf d' "username") := by
    rw [h.key (str_ne (by decide))]
  unfold AquaTransport.idsCredentials
  rw [hu]
  exact h.credentials _

theorem DictAlike.bodyCredentials (h : DictAlike d d') :
    CredentialsAlike (bodyCredentials d) (bodyCredentials d') := by
  have hu : aqString (keyOf d "username") = aqString (keyOf d' "username") := by
    rw [h.key (str_ne (by decide))]
  have ha : aqString (keyOf d "apple-id") = aqString (keyOf d' "apple-id") := by
    rw [h.key (str_ne (by decide))]
  unfold AquaTransport.bodyCredentials
  rw [hu, ha]
  exact h.credentials _

theorem BasicAlike.isBasic (h : BasicAlike S o o') : o.isBasic S = o'.isBasic S := by
  rcases h with h | ⟨_, _, _, _, h, h', _⟩
  · unfold Original.isBasic
    rw [h]
  · rw [h, h']

theorem SameButPassword.aqCredentials (h : SameButPassword S o o') :
    CredentialsAlike (aqCredentials S o) (aqCredentials S o') := by
  unfold AquaTransport.aqCredentials
  by_cases hl : 1024 * 1024 < o.length
  · rw [if_pos hl, if_pos (h.tooLong.mp hl)]
    exact .none
  rw [if_neg hl, if_neg fun h' => hl (h.tooLong.mpr h'), ← h.basic.isBasic]
  rcases h.basic with ha | ⟨u, p, p', hp, hb, -, hc, hc'⟩
  · rw [ha]
    split
    next => exact CredentialsAlike.refl _
    next => exact h.request.bodyCredentials
  · rw [if_pos hb, if_pos hb, hc, hc']
    exact .some hp

theorem SameButPassword.bridgeCredentials (h : SameButPassword S o o') :
    CredentialsAlike (bridgeCredentials S o) (bridgeCredentials S o') := by
  unfold AquaTransport.bridgeCredentials
  rw [← h.url]
  split_ifs
  · exact h.request.idsCredentials
  · exact h.aqCredentials

theorem SameButPassword.settings (h : SameButPassword S o o') {u : NSString} (hp : Alike p p') :
    aqSettingsRequest S o (some (u, p)) = aqSettingsRequest S o' (some (u, p')) := by
  have hnil : decide (p ≠ []) = decide (p' ≠ []) := by
    rw [decide_eq_decide, ← List.length_pos_iff, ← List.length_pos_iff, hp.1]
  unfold aqSettingsRequest
  rw [← h.url, ← h.basic.isBasic, Option.any_some, Option.any_some, hnil]

/-- All other fields are the same. -/
theorem HeadersAlike.value (hh : HeadersAlike h h') {k : String}
    (hk : sameField (str k) (str "Authorization") = false) : h.value k = h'.value k := by
  have hdrop : ∀ h : Headers, h.value k =
      Headers.value (h.filter fun p => !sameField p.1 (str "Authorization")) k := by
    intro h
    unfold Headers.value
    rw [List.find?_filter]
    congr 1
    refine List.find?_congr fun p _ => ?_
    by_cases hp : sameField p.1 (str k) = true
    · have hne : sameField p.1 (str "Authorization") = false := by
        unfold sameField at hp hk ⊢
        rwa [eq_of_beq hp]
      simp [hp, hne]
    · simp [hp]
  rw [hdrop h, hdrop h', hh]

theorem HeadersAlike.removed (hh : HeadersAlike h h') (k : String) :
    Headers.setValue (Headers.setValue h k none) "Authorization" none =
      Headers.setValue (Headers.setValue h' k none) "Authorization" none := by
  have hcomm : ∀ h : Headers, Headers.setValue (Headers.setValue h k none) "Authorization" none =
      (h.filter fun p => !sameField p.1 (str "Authorization")).filter fun p =>
        !sameField p.1 (str k) := by
    intro h
    show List.filter _ (List.filter _ h) = _
    rw [List.filter_filter, List.filter_filter]
    refine List.filter_congr fun p _ => ?_
    rw [Bool.and_comm]
  rw [hcomm, hcomm, hh]

theorem HeadersAlike.keepFields (hh : HeadersAlike h h') (r : Headers) :
    keepFields h r = keepFields h' r := by
  have hsame : ∀ k ∈ settingsFields, h.value k = h'.value k := by
    intro k hk
    refine hh.value ?_
    revert k
    decide
  unfold AquaTransport.keepFields
  refine List.foldl_ext _ _ _ fun r k hk => ?_
  rw [hsame k hk]

end Alike

/-! ### Two runs -/

/-- The same request, or completions of the exchange with two proofs. -/
def SameButM1 (r r' : Request) : Prop :=
  r = r' ∨ ∃ continuation user headers M M',
    r = exchangeRequest (completion continuation user M) headers ∧
    r' = exchangeRequest (completion continuation user M') headers

/-- What two runs may log at the same place. -/
inductive GsaObs.Like : GsaObs → GsaObs → Prop
  | same (x : GsaObs) : Like x x
  | sent {r r' : Request} (h : SameButM1 r r') : Like (.sent r) (.sent r')

/-- The same table, and logs alike. -/
structure Same (s s' : GsaState) : Prop where
  pending : s.pending = s'.pending
  log : List.Forall₂ GsaObs.Like s.log s'.log

/-- The runs are alike, and have sent `n` requests. -/
def At (n : ℕ) (s s' : GsaState) : Prop := Same s s' ∧ sends s.log = n

/-- The runs end with the same error. -/
def Fail (e e' : NSError) (s s' : GsaState) : Prop := e = e' ∧ Same s s'

/-- SRP takes or refuses Apple's challenge in reply `n` alike with the two passwords. -/
def SameTaken {σ : Type} (S : Services) (P : Srp σ) (io : Outside) (user pw pw' : NSString) (n : ℕ) :
    Prop :=
  ∀ srp r c i, P.new io.random = some srp → io.reply n = .ok r → grandSlam S r = some c →
    aqNumber (NSDictionary.objectForKey c "i") = some i →
    (challenged S P srp.1 user pw c i).2.isSome = (challenged S P srp.1 user pw' c i).2.isSome

/-- Of the reply to the completing request it verifies the proof alike, and gives keys that open the same
session. -/
def SameVerified {σ : Type} (S : Services) (P : Srp σ) (io : Outside) (user pw pw' : NSString) (n : ℕ) :
    Prop :=
  ∀ srp r c i, P.new io.random = some srp → io.reply n = .ok r → grandSlam S r = some c →
    aqNumber (NSDictionary.objectForKey c "i") = some i →
    ∀ r' d, io.reply (n + 1) = .ok r' → grandSlam S r' = some d →
      (P.verify (challenged S P srp.1 user pw c i).1 (aqData (NSDictionary.objectForKey d "M2"))).map
          (aqDecrypt S (aqData (NSDictionary.objectForKey d "spd"))) =
        (P.verify (challenged S P srp.1 user pw' c i).1
          (aqData (NSDictionary.objectForKey d "M2"))).map
          (aqDecrypt S (aqData (NSDictionary.objectForKey d "spd")))

/-- SRP ends alike with the two passwords. -/
def SameProof {σ : Type} (S : Services) (P : Srp σ) (io : Outside) (user pw pw' : NSString) (n : ℕ) :
    Prop :=
  SameTaken S P io user pw pw' n ∧ SameVerified S P io user pw pw' n

section Twins

variable {σ : Type} {S : Services} {P : Srp σ} {io : Outside} {n : ℕ} {pw pw' user account : NSString}
  {headers : Headers} {r r' : Request} {x y : GsaObs} {log log' : List GsaObs}

theorem sends_like (h : List.Forall₂ GsaObs.Like log log') : sends log = sends log' := by
  induction h with
  | nil => rfl
  | cons h _ ih =>
    unfold sends at ih ⊢
    rw [List.countP_cons, List.countP_cons, ih]
    cases h <;> rfl

theorem asks_like (h : List.Forall₂ GsaObs.Like log log') : asks log = asks log' := by
  induction h with
  | nil => rfl
  | cons h _ ih =>
    unfold asks at ih ⊢
    rw [List.countP_cons, List.countP_cons, ih]
    cases h <;> rfl

theorem requests_like (h : List.Forall₂ GsaObs.Like log log') :
    List.Forall₂ SameButM1 (requests log) (requests log') := by
  induction h with
  | nil => exact .nil
  | @cons x _ _ _ h _ ih =>
    cases h with
    | same =>
      cases x with
      | sent r => exact .cons (Or.inl rfl) ih
      | _ => exact ih
    | sent h => exact .cons h ih

theorem twins_anisette :
    Twins (At n) (aqAnisette io) (aqAnisette io) (fun a a' s s' => a = a' ∧ At n s s') Fail := by
  intro s s' h
  have hn : At n { s with log := .anisette :: s.log } { s' with log := .anisette :: s'.log } :=
    ⟨⟨h.1.pending, .cons (.same .anisette) h.1.log⟩, h.2⟩
  unfold aqAnisette
  rw [← asks_like h.1.log]
  cases io.anisette (asks s.log) with
  | ok a => exact ⟨rfl, hn⟩
  | error e => exact ⟨rfl, hn.1⟩

theorem twins_send (hr : SameButM1 r r') : Twins (At n) (aqSend io r) (aqSend io r')
    (fun a a' s s' => a = a' ∧ io.reply n = .ok a ∧ At (n + 1) s s') Fail := by
  intro s s' h
  have hn : At (n + 1) { s with log := .sent r :: s.log } { s' with log := .sent r' :: s'.log } := by
    refine ⟨⟨h.1.pending, .cons (.sent hr) h.1.log⟩, ?_⟩
    show sends (.sent r :: s.log) = n + 1
    rw [← h.2, sends, List.countP_cons_of_pos rfl]
    rfl
  unfold aqSend
  rw [← sends_like h.1.log, h.2]
  cases io.reply n with
  | ok a => exact ⟨rfl, rfl, hn⟩
  | error e => exact ⟨rfl, hn.1⟩

theorem twins_need {α : Type} {o : Option α} {e : NSError} :
    Twins (At n) (orFail o e) (orFail o e) (fun a a' s s' => a = a' ∧ o = some a ∧ At n s s') Fail :=
  twins_orFail (fun a ha => ⟨a, ha, fun _ _ h => ⟨rfl, ha, h⟩⟩) id fun _ _ h => ⟨rfl, h.1⟩

theorem twins_require {b : Bool} {e : NSError} :
    Twins (At n) (check b e) (check b e) (fun _ _ s s' => b = true ∧ At n s s') Fail := by
  cases b with
  | true => exact twins_pure fun _ _ h => ⟨rfl, h⟩
  | false => exact twins_fail fun _ _ h => ⟨rfl, h.1⟩

theorem twins_exchange {payload payload' : NSDictionary}
    (hr : SameButM1 (exchangeRequest payload headers) (exchangeRequest payload' headers)) :
    Twins (At n) (aqExchange S io payload headers) (aqExchange S io payload' headers)
      (fun c c' s s' => c = c' ∧ (∃ r, io.reply n = .ok r ∧ grandSlam S r = some c) ∧
        At (n + 1) s s') Fail := by
  unfold aqExchange
  refine (twins_send hr).bindEq fun r => twins_of fun hreply => ?_
  refine twins_require.bind fun _ _ => twins_of fun hstatus => ?_
  refine twins_need.mono (fun _ _ h => h) ?_ fun _ _ _ _ h => h
  rintro c _ s s' ⟨rfl, hc, hs⟩
  refine ⟨rfl, ⟨r, hreply, ?_⟩, hs⟩
  unfold grandSlam
  rw [if_pos (by simpa using hstatus), hc]

theorem twins_secondFactor {identity code : Option NSString} :
    Twins (At n) (aqSecondFactor S io identity code) (aqSecondFactor S io identity code)
      (fun _ _ => At (n + 1)) Fail := by
  unfold aqSecondFactor
  refine twins_anisette.bindEq fun headers => ?_
  refine (twins_send (Or.inl rfl)).bindEq fun r => twins_of fun _ => ?_
  exact twins_require.mono (fun _ _ h => h) (fun _ _ _ _ h => h.2) fun _ _ _ _ h => h

theorem twins_pending (f : Pending → Pending) :
    Twins (At n) (modify fun s => { s with pending := f s.pending })
      (modify fun s => { s with pending := f s.pending }) (fun _ _ => At n) Fail := by
  refine twins_modify fun s s' h => ⟨⟨?_, h.1.log⟩, h.2⟩
  show f s.pending = f s'.pending
  rw [h.1.pending]

/-- Two keys that open the same session data. -/
theorem twins_settle {d : NSDictionary} {key key' : NSData} (hlen : pw.length = pw'.length)
    (hopen : aqDecrypt S (aqData (keyOf d "spd")) key = aqDecrypt S (aqData (keyOf d "spd")) key') :
    Twins (At n) (aqSettle S io account pw d key) (aqSettle S io account pw' d key')
      (fun d d' s s' => d = d' ∧ Same s s') Fail := by
  unfold aqSettle
  rw [hopen]
  refine twins_need.bindEq fun spd => twins_of fun _ => ?_
  split_ifs
  · refine twins_need.bindEq fun dsid => twins_of fun _ => ?_
    refine twins_need.bindEq fun token => twins_of fun _ => ?_
    refine twins_secondFactor.bind fun _ _ => ?_
    rw [hlen]
    refine (twins_pending fun t => Pending.put t account _).bind fun _ _ => ?_
    exact twins_fail fun _ _ h => ⟨rfl, h.1⟩
  · refine twins_require.bind fun _ _ => twins_of fun _ => ?_
    split
    next => exact twins_fail fun _ _ h => ⟨rfl, h.1⟩
    next v hv =>
      refine twins_need.bindEq fun hsc => twins_of fun _ => ?_
      exact twins_require.bind fun _ _ => twins_of fun _ => twins_pure fun _ _ h => ⟨rfl, h.1⟩

/-- The exchange for two passwords of one length. -/
theorem twins_prove (hproof : SameProof S P io user pw pw' n) (hlen : pw.length = pw'.length) :
    Twins (At n) (aqProve S P io account user pw) (aqProve S P io account user pw')
      (fun d d' s s' => d = d' ∧ Same s s') Fail := by
  unfold aqProve
  refine twins_anisette.bindEq fun headers => ?_
  refine twins_need.bindEq fun srp => twins_of fun hsrp => ?_
  refine (twins_exchange (Or.inl rfl)).bindEq fun c => twins_of fun hc => ?_
  obtain ⟨r, hr, hc⟩ := hc
  refine twins_need.bindEq fun i => twins_of fun hi => ?_
  refine twins_require.bind fun _ _ => twins_of fun _ => ?_
  refine twins_need.bindEq fun continuation => twins_of fun _ => ?_
  have hsome := hproof.1 srp r c i hsrp hr hc hi
  have hverify := hproof.2 srp r c i hsrp hr hc hi
  refine (twins_orFail (V := fun _ _ => At (n + 1)) (fun M hM => ?_) (fun hM => ?_)
    fun _ _ h => ⟨rfl, h.1⟩).bind fun M M' => ?_
  · -- both passwords give a proof
    have hM' : (challenged S P srp.1 user pw' c i).2.isSome = true := by
      rw [← hsome]
      exact Option.isSome_iff_exists.mpr ⟨M, hM⟩
    obtain ⟨M', hM'⟩ := Option.isSome_iff_exists.mp hM'
    exact ⟨M', hM', fun _ _ h => h⟩
  · have hM' : (challenged S P srp.1 user pw' c i).2.isSome = false := by
      rw [← hsome, Option.isSome_eq_false_iff, Option.isNone_iff_eq_none]
      exact hM
    rwa [Option.isSome_eq_false_iff, Option.isNone_iff_eq_none] at hM'
  have hcomplete : SameButM1 (exchangeRequest (completion continuation user M) headers)
      (exchangeRequest (completion continuation user M') headers) :=
    Or.inr ⟨continuation, user, headers, M, M', rfl, rfl⟩
  refine (twins_exchange hcomplete).bindEq fun d => twins_of fun hd => ?_
  obtain ⟨r', hr', hd⟩ := hd
  have hkeys := hverify r' d hr' hd
  refine (twins_orFail (V := fun key key' s s' => aqDecrypt S (aqData (keyOf d "spd")) key =
    aqDecrypt S (aqData (keyOf d "spd")) key' ∧ At (n + 1 + 1) s s') (fun key hkey => ?_)
    (fun hkey => ?_) fun _ _ h => ⟨rfl, h.1⟩).bind fun key key' => twins_of fun hopen => ?_
  · obtain ⟨key', hkey', heq⟩ := Option.map_eq_some_iff.mp
      (hkeys.symm.trans (congrArg (Option.map _) hkey))
    exact ⟨key', hkey', fun _ _ h => ⟨heq.symm, h⟩⟩
  · exact Option.map_eq_none_iff.mp (hkeys.symm.trans (congrArg (Option.map _) hkey))
  exact twins_settle hlen hopen

/-- The code that an attempt submits. -/
def codeOf (S : Services) (io : Outside) (t : Pending) (user pw : NSString) : Option NSString :=
  (Pending.find (Pending.purge io t) (S.lowercase user)).bind (submittedCode pw)

theorem Alike.submittedCode (h : Alike pw pw') (e : Option PendingEntry) :
    submittedCode pw e = submittedCode pw' e := by
  unfold AquaTransport.submittedCode
  cases e with
  | none => rfl
  | some e =>
    dsimp only
    rw [← h.1]
    by_cases h6 : 6 < pw.length
    · rw [h.2 h6, ← h.1]
    · rw [if_neg fun hc => h6 hc.1, if_neg fun hc => h6 hc.1]

/-- SRP ends alike with the passwords that the attempt proves: the units before the code after the
validate request, or else the whole passwords. -/
def SameOutcome {σ : Type} (S : Services) (P : Srp σ) (io : Outside) (t : Pending)
    (user pw pw' : NSString) : Prop :=
  match codeOf S io t user pw with
  | some _ => SameProof S P io user (pw.take (pw.length - 6)) (pw'.take (pw'.length - 6)) 1
  | none => SameProof S P io user pw pw' 0

theorem twins_login {t : Pending} (hpw : Alike pw pw') (hout : SameOutcome S P io t user pw pw') :
    Twins (fun s s' => s.pending = t ∧ At 0 s s') (aqLogin S P io user pw) (aqLogin S P io user pw')
      (fun d d' s s' => d = d' ∧ Same s s') Fail := by
  rintro s s' ⟨hs, hat⟩
  have hpurged : At 0 { s with pending := Pending.purge io t }
      { s' with pending := Pending.purge io t } := ⟨⟨rfl, hat.1.log⟩, hat.2⟩
  rw [aqLogin_eq, aqLogin_eq, ← hat.1.pending, hs]
  unfold SameOutcome codeOf at hout
  cases hv : Pending.find (Pending.purge io t) (S.lowercase user) with
  | none =>
    rw [hv] at hout
    exact twins_prove hout hpw.1 _ _ hpurged
  | some v =>
    rw [hv, Option.bind_some] at hout
    dsimp only
    rw [← hpw.submittedCode]
    cases hc : submittedCode pw v with
    | none =>
      rw [hc] at hout
      refine Twins.bind ?_ (fun _ _ => twins_prove hout hpw.1) _ _ hpurged
      exact twins_pending fun t => Pending.remove t (S.lowercase user)
    | some code =>
      rw [hc] at hout
      refine Twins.bind twins_secondFactor (fun _ _ => ?_) _ _ hpurged
      refine Twins.bind (twins_pending fun t => Pending.remove t (S.lowercase user)) fun _ _ => ?_
      refine twins_prove hout ?_
      rw [List.length_take, List.length_take, hpw.1]

/-- However many requests the runs have sent. -/
theorem twins_same {α : Type} {m m' : Gsa α} {V : α → α → GsaState → GsaState → Prop}
    (h : ∀ n, Twins (At n) m m' V Fail) : Twins Same m m' V Fail :=
  fun s s' hs => h (sends s.log) s s' ⟨hs, rfl⟩

theorem twins_result {a : Result} : Twins (At n) (pure a : Gsa Result) (pure a)
    (fun d d' s s' => d = d' ∧ Same s s') Fail := twins_pure fun _ _ h => ⟨rfl, h.1⟩

theorem twins_madrid {pet : NSString} {session : NSDictionary} :
    Twins (At n) (aqMadrid S io user pet session headers) (aqMadrid S io user pet session headers)
      (fun d d' s s' => d = d' ∧ Same s s') Fail := by
  unfold aqMadrid aqBasic
  refine twins_need.bindEq fun auth => twins_of fun _ => ?_
  refine (twins_send (Or.inl rfl)).bindEq fun r => twins_of fun _ => ?_
  refine twins_require.bind fun _ _ => twins_of fun _ => ?_
  refine twins_need.bindEq fun profile => twins_of fun _ => ?_
  exact twins_need.bindEq fun token => twins_of fun _ => twins_result

/-- The body and the fields that are sent have nothing of the password left. -/
theorem twins_delegates {o o' : Original} (h : SameButPassword S o o') {pet : NSString}
    {session : NSDictionary} :
    Twins (At n) (aqDelegates S io o pet session headers) (aqDelegates S io o' pet session headers)
      (fun d d' s s' => d = d' ∧ Same s s') Fail := by
  unfold aqDelegates
  dsimp only
  rw [h.headers.removed, ← h.url, ← h.method]
  have hbody := h.body
  refine (twins_orFail (V := fun b b' s s' => NSDictionary.setObject b "password" (.string pet) =
    NSDictionary.setObject b' "password" (.string pet) ∧ At n s s') (fun b hb => ?_) (fun hb => ?_)
    fun _ _ hs => ⟨rfl, hs.1⟩).bind fun b b' => twins_of fun heq => ?_
  · rw [hb] at hbody
    cases hb' : aqPlist S (o'.body.getD []) with
    | none =>
      rw [hb'] at hbody
      exact (Bool.noConfusion hbody.isSome)
    | some b' =>
      rw [hb'] at hbody
      exact ⟨b', rfl, fun _ _ hs => ⟨hbody.setPassword _, hs⟩⟩
  · have hsome := hbody.isSome
    rw [hb] at hsome
    exact Option.isNone_iff_eq_none.mp (Option.isSome_eq_false_iff.mp hsome.symm)
  rw [heq]
  exact (twins_send (Or.inl rfl)).bindEq fun r => twins_of fun _ => twins_result

theorem twins_authenticate {o o' : Original} (h : SameButPassword S o o') {pet : NSString} :
    Twins (At n) (aqAuthenticate S io o user pet headers) (aqAuthenticate S io o' user pet headers)
      (fun d d' s s' => d = d' ∧ Same s s') Fail := by
  unfold aqAuthenticate aqBasic
  rw [← h.url]
  refine twins_need.bindEq fun escaped => twins_of fun _ => ?_
  refine twins_need.bindEq fun auth => twins_of fun _ => ?_
  refine (twins_send (Or.inl rfl)).bindEq fun r => twins_of fun _ => ?_
  split_ifs
  · exact twins_result
  refine twins_need.bindEq fun dsid => twins_of fun _ => ?_
  refine twins_need.bindEq fun token => twins_of fun _ => ?_
  refine twins_need.bindEq fun auth => twins_of fun _ => ?_
  dsimp only
  rw [h.headers.keepFields]
  exact (twins_send (Or.inl rfl)).bindEq fun r => twins_of fun _ => twins_result

/-- Two runs of `aq_bridge` for requests that differ in the password. -/
theorem twins_bridge {t : Pending} {o o' : Original} (h : SameButPassword S o o')
    (hset : ∀ c, bridgeCredentials S o = some c → aqSettingsRequest S o (some c) = false)
    (hout : ∀ u p p', bridgeCredentials S o = some (u, p) → bridgeCredentials S o' = some (u, p') →
      SameOutcome S P io t (S.lowercase u) p p') :
    Twins (fun s s' => s.pending = t ∧ At 0 s s') (aqBridge S P io o) (aqBridge S P io o')
      (fun d d' s s' => d = d' ∧ Same s s') Fail := by
  unfold aqBridge
  have hc := h.bridgeCredentials
  generalize hco : bridgeCredentials S o = c at hc hset hout ⊢
  generalize hco' : bridgeCredentials S o' = c' at hc hout ⊢
  cases hc with
  | none =>
    refine Twins.bind (V := fun _ _ _ _ => False) ?_ fun _ _ _ _ h => h.elim
    exact twins_fail fun _ _ hs => ⟨rfl, hs.2.1⟩
  | @some u p p' hp =>
    refine Twins.bind (V := fun c c' s s' => c = (u, p) ∧ c' = (u, p') ∧ s.pending = t ∧ At 0 s s')
      (twins_pure fun _ _ hs => ⟨rfl, rfl, hs⟩) fun c c' => twins_of ?_
    rintro rfl
    refine twins_of ?_
    rintro rfl
    rw [hset (u, p) rfl, ← h.settings hp, hset (u, p) rfl, ← h.url]
    refine (twins_login hp (hout u p p' rfl rfl)).bindEq fun session => twins_same fun n => ?_
    refine twins_need.bindEq fun pet => twins_of fun _ => ?_
    refine twins_anisette.bindEq fun headers => ?_
    split_ifs
    · exact twins_madrid
    · exact twins_delegates h
    · exact twins_authenticate h

end Twins

/-! ### What is sent in place of the credentials -/

namespace Headers

variable {h : Headers} {k q : NSString} {v : Option NSString}

/-- No field is `Authorization`. -/
def Plain (h : Headers) : Prop := ∀ k ∈ h.map Prod.fst, sameField k (str "Authorization") = false

theorem Plain.setField (hh : h.Plain) (hk : sameField k (str "Authorization") = false) :
    Plain (setField h k v) := by
  intro q hq
  obtain ⟨p, hp, rfl⟩ := List.mem_map.mp hq
  rcases List.mem_append.mp hp with hp | hp
  · obtain ⟨w, -, rfl⟩ : ∃ w, v = some w ∧ (k, w) = p := by simpa using hp
    exact hk
  · exact hh p.1 (List.mem_map_of_mem (List.mem_of_mem_filter hp))

theorem Plain.setAll {headers : Headers} (hh : h.Plain) (hs : headers.Plain) :
    Plain (setAll h headers) := by
  unfold Headers.setAll
  induction headers generalizing h with
  | nil => exact hh
  | cons p headers ih =>
    refine ih (hh.setField (hs p.1 List.mem_cons_self)) fun k hk => hs k ?_
    exact List.mem_cons_of_mem p.1 hk

/-- The field is taken out. -/
theorem plain_removed : Plain (setValue h "Authorization" none) := by
  intro q hq
  obtain ⟨p, hp, rfl⟩ := List.mem_map.mp hq
  have := (List.mem_filter.mp hp).2
  simpa using this

theorem Plain.value (hh : h.Plain) : h.value "Authorization" = none := by
  unfold Headers.value
  rw [Option.map_eq_none_iff, List.find?_eq_none]
  intro p hp
  rw [hh p.1 (List.mem_map_of_mem hp)]
  simp

theorem value_keepFields {original : Headers} :
    value (keepFields original h) "Authorization" = h.value "Authorization" := by
  have hk : ∀ k ∈ settingsFields, sameField (str k) (str "Authorization") = false := by
    decide
  unfold keepFields
  generalize settingsFields = ks at hk ⊢
  induction ks generalizing h with
  | nil => rfl
  | cons k ks ih =>
    rw [List.foldl_cons, ih fun k hk' => hk k (List.mem_cons_of_mem _ hk')]
    split
    · exact value_set_ne (hk k List.mem_cons_self)
    · rfl

end Headers

theorem Anisette.plain (a : Anisette) : a.headers.Plain := by
  show ∀ k ∈ [str "X-Apple-I-MD-M", str "X-Apple-I-MD", str "X-Apple-I-MD-RINFO",
    str "X-Mme-Device-Id", str "X-Apple-I-MD-LU", str "X-MMe-Client-Info",
    str "X-Apple-I-Client-Time", str "X-Apple-I-TimeZone", str "X-Apple-Locale"],
    sameField k (str "Authorization") = false
  decide

theorem aqAppleRequest_plain {url : NSString} {headers : Headers} (h : headers.Plain) :
    (aqAppleRequest url headers).headers.Plain := by
  refine Headers.Plain.setAll ?_ h
  show ∀ k ∈ [str "Content-Type", str "Accept", str "User-Agent", str "X-Mme-Client-Info"],
    sameField k (str "Authorization") = false
  decide

theorem exchangeRequest_plain {payload : NSDictionary} {headers : Headers} :
    (exchangeRequest payload headers).headers.Plain := by
  have hkeys : ∀ k ∈ ["X-Apple-I-MD-M", "X-Mme-Device-Id", "X-MMe-Client-Info"],
      sameField (str k) (str "Authorization") = false := by decide
  refine Headers.Plain.setField (aqAppleRequest_plain ?_) (by decide)
  intro k hk
  obtain ⟨p, hp, rfl⟩ := List.mem_map.mp hk
  obtain ⟨q, hq, hqp⟩ := List.mem_filterMap.mp hp
  obtain ⟨v, -, rfl⟩ := Option.map_eq_some_iff.mp hqp
  exact hkeys q hq

theorem secondFactorRequest_plain {identity code : Option NSString} {headers : Headers}
    (h : headers.Plain) : (secondFactorRequest identity code headers).headers.Plain := by
  have h0 : (aqAppleRequest (if code.isSome then validateUrl else trustedDeviceUrl)
      headers).headers.Plain := aqAppleRequest_plain h
  have h1 := h0.setField (k := str "X-Apple-Identity-Token") (v := identity) (by decide)
  have h2 := h1.setField (k := str "X-Apple-App-Info") (v := some (str "com.apple.gs.xcode.auth"))
    (by decide)
  have h3 := h2.setField (k := str "X-Xcode-Version") (v := some (str "11.2 (11B41)"))
    (by decide)
  cases code with
  | none => exact h3
  | some code => exact h3.setField (k := str "security-code") (by decide)

/-- A token in one of Apple's replies: the PET of a session that it encrypted, or the account's token
in its answer to `authenticate`. -/
def Issued (S : Services) (io : Outside) (token : NSString) : Prop :=
  (∃ n r d key session, io.reply n = .ok r ∧ grandSlam S r = some d ∧
    aqDecrypt S (aqData (keyOf (some d) "spd")) key = some session ∧ petOf session = some token) ∨
  ∃ n r, io.reply n = .ok r ∧ mmeTokenOf (aqPlist S r.data) = some token

/-- The request carries tokens in place of credentials. -/
structure Request.Clean (S : Services) (io : Outside) (r : Request) : Prop where
  authorization : ∀ v, r.headers.value "Authorization" = some v → ∃ user token b,
    Issued S io token ∧ joined64 S user token = some b ∧ v = str "Basic " ++ b
  body : ∀ d, r.body ≠ some (.raw d)
  password : ∀ b v, r.body = some (.encoded (.dict b)) →
    NSDictionary.objectForKey b "password" = some v → ∃ pet, Issued S io pet ∧ v = .string pet

def AllClean (S : Services) (io : Outside) (s : GsaState) : Prop :=
  ∀ r, .sent r ∈ s.log → r.Clean S io

section Clean

variable {σ : Type} {S : Services} {P : Srp σ} {io : Outside} {pw user account : NSString}
  {headers : Headers} {r : Request}

theorem clean_of_plain (h : r.headers.Plain) (hb : r.body = none) : r.Clean S io := by
  refine ⟨fun v hv => ?_, fun d => ?_, fun b v hd => ?_⟩
  · rw [h.value] at hv
    simp at hv
  · rw [hb]
    simp
  · rw [hb] at hd
    simp at hd

theorem exchangeRequest_clean {payload : NSDictionary} :
    (exchangeRequest payload headers).Clean S io := by
  refine ⟨fun v hv => ?_, fun d hd => ?_, fun b v hd hv => ?_⟩
  · rw [exchangeRequest_plain.value] at hv
    simp at hv
  · simp [exchangeRequest] at hd
  · obtain rfl := Plist.dict.inj (Body.encoded.inj (Option.some.inj hd))
    exact absurd hv (by simp [NSDictionary.objectForKey, str])

theorem clean_anisette : Holds (AllClean S io) (aqAnisette io)
    (fun h s => h.Plain ∧ AllClean S io s) (fun _ => AllClean S io) := by
  intro s hs
  have hs' : AllClean S io { s with log := .anisette :: s.log } := fun r hr => hs r (by simpa using hr)
  refine ⟨fun h t hr => ?_, fun e t hr => ?_⟩
  · obtain ⟨hio, rfl⟩ := Prod.mk.inj hr
    cases ha : io.anisette (asks s.log) with
    | ok a =>
      rw [ha] at hio
      obtain rfl : a.headers = h := Except.ok.inj hio
      exact ⟨a.plain, hs'⟩
    | error e =>
      rw [ha] at hio
      cases hio
  · obtain ⟨-, rfl⟩ := Prod.mk.inj hr
    exact hs'

theorem clean_send (hr : r.Clean S io) : Holds (AllClean S io) (aqSend io r)
    (fun a s => (∃ n, io.reply n = .ok a) ∧ AllClean S io s) (fun _ => AllClean S io) := by
  intro s hs
  have hs' : AllClean S io { s with log := .sent r :: s.log } := by
    intro q hq
    rcases List.mem_cons.mp hq with h | h
    · obtain rfl := GsaObs.sent.inj h
      exact hr
    · exact hs q h
  refine ⟨fun a t h => ?_, fun e t h => ?_⟩
  · obtain ⟨hio, rfl⟩ := Prod.mk.inj h
    exact ⟨⟨_, hio⟩, hs'⟩
  · obtain ⟨-, rfl⟩ := Prod.mk.inj h
    exact hs'

theorem clean_need {α : Type} {o : Option α} {e : NSError} : Holds (AllClean S io) (orFail o e)
    (fun a s => o = some a ∧ AllClean S io s) (fun _ => AllClean S io) :=
  holds_orFail (fun _ ha _ hs => ⟨ha, hs⟩) fun _ _ hs => hs

theorem clean_require {b : Bool} {e : NSError} : Holds (AllClean S io) (check b e)
    (fun _ s => b = true ∧ AllClean S io s) (fun _ => AllClean S io) :=
  holds_check (fun hb _ hs => ⟨hb, hs⟩) fun _ _ hs => hs

theorem clean_exchange {payload : NSDictionary} : Holds (AllClean S io)
    (aqExchange S io payload headers)
    (fun d s => (∃ n r, io.reply n = .ok r ∧ grandSlam S r = some d) ∧ AllClean S io s)
    (fun _ => AllClean S io) := by
  unfold aqExchange
  refine (clean_send exchangeRequest_clean).bind fun r => holds_of fun hr => ?_
  obtain ⟨n, hr⟩ := hr
  refine clean_require.bind fun _ => holds_of fun hstatus => ?_
  refine clean_need.mono (fun _ hs => hs) ?_ fun _ _ hs => hs
  rintro d s ⟨hd, hs⟩
  refine ⟨⟨n, r, hr, ?_⟩, hs⟩
  unfold grandSlam
  rw [if_pos (by simpa using hstatus), hd]

theorem clean_secondFactor {identity code : Option NSString} : Holds (AllClean S io)
    (aqSecondFactor S io identity code) (fun _ => AllClean S io) (fun _ => AllClean S io) := by
  unfold aqSecondFactor
  refine clean_anisette.bind fun headers => holds_of fun hplain => ?_
  refine (clean_send (clean_of_plain (secondFactorRequest_plain hplain) ?_)).bind fun r =>
    holds_of fun _ => ?_
  · rfl
  exact clean_require.mono (fun _ hs => hs) (fun _ _ hs => hs.2) fun _ _ hs => hs

theorem clean_pending (f : Pending → Pending) : Holds (AllClean S io)
    (modify fun s => { s with pending := f s.pending } : Gsa Unit) (fun _ => AllClean S io)
    (fun _ => AllClean S io) := holds_modify fun _ hs => hs

/-- A session from one of the replies. -/
def FromReply (S : Services) (io : Outside) (session : NSDictionary) : Prop :=
  ∃ n r d key, io.reply n = .ok r ∧ grandSlam S r = some d ∧
    aqDecrypt S (aqData (keyOf (some d) "spd")) key = some session

theorem clean_settle {n : ℕ} {r : Response} {d : NSDictionary} {key : NSData}
    (hr : io.reply n = .ok r) (hd : grandSlam S r = some d) :
    Holds (AllClean S io) (aqSettle S io account pw d key)
      (fun session s => FromReply S io session ∧ AllClean S io s) (fun _ => AllClean S io) := by
  unfold aqSettle
  refine clean_need.bind fun session => holds_of fun hsession => ?_
  split_ifs
  · refine clean_need.bind fun dsid => holds_of fun _ => ?_
    refine clean_need.bind fun token => holds_of fun _ => ?_
    refine clean_secondFactor.bind fun _ => ?_
    exact (clean_pending fun t => Pending.put t account _).bind fun _ => holds_fail fun _ hs => hs
  · refine clean_require.bind fun _ => holds_of fun _ => ?_
    split
    next => exact holds_fail fun _ hs => hs
    next v hv =>
      refine clean_need.bind fun hsc => holds_of fun _ => ?_
      refine clean_require.bind fun _ => holds_of fun _ => ?_
      exact holds_pure fun _ hs => ⟨⟨n, r, d, key, hr, hd, hsession⟩, hs⟩

theorem clean_prove : Holds (AllClean S io) (aqProve S P io account user pw)
    (fun session s => FromReply S io session ∧ AllClean S io s) (fun _ => AllClean S io) := by
  unfold aqProve
  refine clean_anisette.bind fun headers => holds_of fun _ => ?_
  refine clean_need.bind fun srp => holds_of fun _ => ?_
  refine clean_exchange.bind fun c => holds_of fun _ => ?_
  refine clean_need.bind fun i => holds_of fun _ => ?_
  refine clean_require.bind fun _ => holds_of fun _ => ?_
  refine clean_need.bind fun continuation => holds_of fun _ => ?_
  refine clean_need.bind fun M => holds_of fun _ => ?_
  refine clean_exchange.bind fun d => holds_of fun hd => ?_
  obtain ⟨n, r, hr, hd⟩ := hd
  refine clean_need.bind fun key => holds_of fun _ => ?_
  exact clean_settle hr hd

theorem clean_login : Holds (AllClean S io) (aqLogin S P io user pw)
    (fun session s => FromReply S io session ∧ AllClean S io s) (fun _ => AllClean S io) := by
  intro s hs
  have hpurged : AllClean S io { s with pending := Pending.purge io s.pending } := hs
  rw [aqLogin_eq]
  have hforget : Holds (AllClean S io)
      (modify fun s => { s with pending := Pending.remove s.pending (S.lowercase user) } : Gsa Unit)
      (fun _ => AllClean S io) (fun _ => AllClean S io) :=
    clean_pending fun t => Pending.remove t (S.lowercase user)
  cases Pending.find (Pending.purge io s.pending) (S.lowercase user) with
  | none => exact clean_prove _ hpurged
  | some v =>
    dsimp only
    cases submittedCode pw v with
    | none => exact (hforget.bind fun _ => clean_prove) _ hpurged
    | some code =>
      exact (clean_secondFactor.bind fun _ => hforget.bind fun _ => clean_prove) _ hpurged

theorem FromReply.issued {session : NSDictionary} (h : FromReply S io session) {pet : NSString}
    (hp : petOf session = some pet) : Issued S io pet := by
  obtain ⟨n, r, d, key, hr, hd, hs⟩ := h
  exact Or.inl ⟨n, r, d, key, session, hr, hd, hs, hp⟩

/-- An `aq_basic` of an issued token. -/
theorem basic_issued {token v : NSString} (ht : Issued S io token)
    (hv : ((joined64 S user token).map fun b => str "Basic " ++ b) = some v) :
    ∃ user token b, Issued S io token ∧ joined64 S user token = some b ∧ v = str "Basic " ++ b := by
  obtain ⟨b, hb, rfl⟩ := Option.map_eq_some_iff.mp hv
  exact ⟨user, token, b, ht, hb, rfl⟩

theorem objectForKey_set {d : NSDictionary} {v : Plist} :
    NSDictionary.objectForKey (NSDictionary.setObject d "password" v) "password" = some v := by
  unfold NSDictionary.objectForKey NSDictionary.setObject
  rw [List.find?_cons_of_pos (by simp)]
  rfl

theorem objectForKey_set_dsid {d : NSDictionary} {v : Plist} :
    NSDictionary.objectForKey (NSDictionary.setObject d "apple-id" v) "password" =
      NSDictionary.objectForKey d "password" := by
  have hne : str "apple-id" ≠ str "password" := str_ne (by decide)
  unfold NSDictionary.objectForKey NSDictionary.setObject
  rw [List.find?_cons_of_neg (by simpa using hne), List.find?_filter]
  congr 1
  refine List.find?_congr fun p _ => ?_
  by_cases hp : p.1 = str "password" <;> simp [hp, hne.symm]

theorem clean_madrid {pet : NSString} {session : NSDictionary} (ht : Issued S io pet) :
    Holds (AllClean S io) (aqMadrid S io user pet session headers) (fun _ => AllClean S io)
      (fun _ => AllClean S io) := by
  unfold aqMadrid aqBasic
  refine clean_need.bind fun auth => holds_of fun hauth => ?_
  refine (clean_send ⟨fun v hv => ?_, fun d hd => ?_, fun b v hb hv => ?_⟩).bind fun r =>
    holds_of fun _ => ?_
  · obtain rfl : auth = v := by
      dsimp only at hv
      split at hv
      · rw [Headers.value_set_ne (by decide), Headers.value_set] at hv
        exact Option.some.inj hv
      · rw [Headers.value_set] at hv
        exact Option.some.inj hv
    exact basic_issued ht hauth
  · simp at hd
  · obtain rfl := Plist.dict.inj (Body.encoded.inj (Option.some.inj hb))
    refine ⟨pet, ht, ?_⟩
    have hne : str "apple-id" ≠ str "password" := str_ne (by decide)
    unfold NSDictionary.objectForKey at hv
    rw [List.cons_append, List.find?_cons_of_neg (by simpa using hne), List.cons_append,
      List.find?_cons_of_pos (by simp)] at hv
    exact (Option.some.inj hv).symm
  refine clean_require.bind fun _ => holds_of fun _ => ?_
  refine clean_need.bind fun profile => holds_of fun _ => ?_
  exact clean_need.bind fun token => holds_of fun _ => holds_pure fun _ hs => hs

theorem clean_delegates {o : Original} {pet : NSString} {session : NSDictionary}
    (ht : Issued S io pet) (hh : headers.Plain) :
    Holds (AllClean S io) (aqDelegates S io o pet session headers) (fun _ => AllClean S io)
      (fun _ => AllClean S io) := by
  unfold aqDelegates
  refine clean_need.bind fun body => holds_of fun _ => ?_
  refine (clean_send ⟨fun v hv => ?_, fun d hd => ?_, fun b v hb hv => ?_⟩).bind fun r =>
    holds_of fun _ => holds_pure fun _ hs => hs
  · have hplain := Headers.plain_removed.setAll hh
      (h := Headers.setValue (Headers.setValue o.headers "Content-Length" none) "Authorization" none)
    rw [hplain.value] at hv
    simp at hv
  · simp at hd
  · obtain rfl := Plist.dict.inj (Body.encoded.inj (Option.some.inj hb))
    refine ⟨pet, ht, ?_⟩
    split at hv
    · rw [objectForKey_set_dsid, objectForKey_set] at hv
      exact (Option.some.inj hv).symm
    · rw [objectForKey_set] at hv
      exact (Option.some.inj hv).symm

/-- A request without a body whose `Authorization` is that of an issued token. -/
theorem clean_of_basic {auth : NSString} (hb : r.body = none)
    (ha : r.headers.value "Authorization" = some auth) (h : ∃ user token b, Issued S io token ∧
      joined64 S user token = some b ∧ auth = str "Basic " ++ b) : r.Clean S io := by
  refine ⟨fun v hv => ?_, fun d hd => ?_, fun b v hd _ => ?_⟩
  · obtain rfl := Option.some.inj (ha.symm.trans hv)
    exact h
  · rw [hb] at hd
    simp at hd
  · rw [hb] at hd
    simp at hd

theorem clean_authenticate {o : Original} {pet : NSString} (ht : Issued S io pet) :
    Holds (AllClean S io) (aqAuthenticate S io o user pet headers) (fun _ => AllClean S io)
      (fun _ => AllClean S io) := by
  unfold aqAuthenticate aqBasic
  refine clean_need.bind fun escaped => holds_of fun _ => ?_
  refine clean_need.bind fun auth => holds_of fun hauth => ?_
  refine (clean_send (clean_of_basic rfl (Headers.value_set _) (basic_issued ht hauth))).bind fun r =>
    holds_of fun hr => ?_
  obtain ⟨n, hr⟩ := hr
  split_ifs
  · exact holds_pure fun _ hs => hs
  refine clean_need.bind fun dsid => holds_of fun _ => ?_
  refine clean_need.bind fun token => holds_of fun htoken => ?_
  refine clean_need.bind fun auth => holds_of fun hauth => ?_
  refine (clean_send (clean_of_basic rfl ?_ (basic_issued (Or.inr ⟨n, r, hr, htoken⟩) hauth))).bind
    fun _ => holds_of fun _ => holds_pure fun _ hs => hs
  dsimp only
  rw [Headers.value_set_ne (by decide), Headers.value_keepFields, Headers.value_set]

theorem clean_bridge {o : Original}
    (hset : ∀ c, bridgeCredentials S o = some c → aqSettingsRequest S o (some c) = false) :
    Holds (AllClean S io) (aqBridge S P io o) (fun _ => AllClean S io) (fun _ => AllClean S io) := by
  unfold aqBridge
  refine clean_need.bind fun c => holds_of fun hc => ?_
  rw [hset c hc]
  refine clean_login.bind fun session => holds_of fun hsession => ?_
  refine clean_need.bind fun pet => holds_of fun hpet => ?_
  refine clean_anisette.bind fun headers => holds_of fun hplain => ?_
  have ht := hsession.issued hpet
  split_ifs
  · exact clean_madrid ht
  · exact clean_delegates ht hplain
  · exact clean_authenticate ht

end Clean

/-- **Password confinement**: for two requests that differ in the password, and the same answers, the
requests sent are the same but for `M1`, and carry Apple's tokens in place of the credentials. -/
theorem password_confined {σ : Type} (S : Services) (P : Srp σ) (io : Outside) (t : Pending)
    (o o' : Original) (h : SameButPassword S o o')
    (hset : ∀ c, bridgeCredentials S o = some c → aqSettingsRequest S o (some c) = false)
    (hout : ∀ u p p', bridgeCredentials S o = some (u, p) → bridgeCredentials S o' = some (u, p') →
      SameOutcome S P io t (S.lowercase u) p p') :
    List.Forall₂ SameButM1 (requests (aqBridge S P io o { pending := t }).2.log)
        (requests (aqBridge S P io o' { pending := t }).2.log) ∧
      (aqBridge S P io o { pending := t }).2.pending =
        (aqBridge S P io o' { pending := t }).2.pending ∧
      ∀ r ∈ requests (aqBridge S P io o { pending := t }).2.log, r.Clean S io := by
  have hsame : Same (aqBridge S P io o { pending := t }).2 (aqBridge S P io o' { pending := t }).2 := by
    have htwins := twins_bridge h hset hout { pending := t } { pending := t }
      ⟨rfl, ⟨rfl, .nil⟩, rfl⟩
    rcases hr : aqBridge S P io o { pending := t } with ⟨e | d, s⟩ <;>
      rcases hr' : aqBridge S P io o' { pending := t } with ⟨e' | d', s'⟩ <;>
      rw [hr, hr'] at htwins
    · exact htwins.2
    · exact htwins.elim
    · exact htwins.elim
    · exact htwins.2
  have hclean : AllClean S io (aqBridge S P io o { pending := t }).2 := by
    have hholds : Holds (AllClean S io) (aqBridge S P io o) (fun _ => AllClean S io)
        (fun _ => AllClean S io) := clean_bridge hset
    have hbridge := hholds { pending := t } (by simp [AllClean])
    rcases hr : aqBridge S P io o { pending := t } with ⟨e | d, s⟩
    · exact hbridge.2 e s hr
    · exact hbridge.1 d s hr
  refine ⟨requests_like hsame.log, hsame.pending, fun r hr => hclean r ?_⟩
  obtain ⟨x, hx, hxr⟩ := List.mem_filterMap.mp hr
  cases x with
  | sent q =>
    obtain rfl := Option.some.inj hxr
    exact hx
  | _ => simp at hxr

/-- An account that is set up with the credentials `auth`. -/
def setupRequest (auth : String) : Original where
  method := "POST"
  url := { absoluteString := str "https://setup.icloud.com/setup/login_or_create_account"
           scheme := some (str "https"), user := none, password := none
           host := some (str "setup.icloud.com"), port := none
           path := str "/setup/login_or_create_account", query := none, fragment := none }
  headers := [(str "Authorization", str auth)]
  body := none
  stream := false

def setupOutside : Outside where
  anisette := fun _ => .ok sampleAnisette
  reply := fun n => .ok ⟨200, [[1], [4], [5]].getD n []⟩
  purgeClock := fun _ => 0
  clock := 0
  random := []

theorem setupRequest_alike : SameButPassword sampleServices
    (setupRequest "Basic me@icloud.com:secrABCDEF")
    (setupRequest "Basic me@icloud.com:huntABCDEF") := by
  have hlength : ∀ auth, (setupRequest auth).length = 0 := fun _ => rfl
  have hbody : ∀ auth, aqRequestPlist sampleServices (setupRequest auth) = none := fun auth =>
    if_pos (Or.inr (Or.inl (hlength auth)))
  refine ⟨rfl, rfl, ?_, Or.inr ⟨str "me@icloud.com", str "secrABCDEF", str "huntABCDEF", ⟨?_, ?_⟩,
    ?_, ?_, ?_, ?_⟩, ?_, ?_, .none⟩
  · show List.filter _ _ = List.filter _ _
    decide
  · decide
  · decide
  · decide
  · decide
  · decide
  · decide
  · rw [hlength, hlength]
  · rw [hbody, hbody]
    exact .none

theorem setupRequest_settings (auth : String) (c : NSString × NSString) :
    aqSettingsRequest sampleServices (setupRequest auth) (some c) = false := by
  have hpath : ((setupRequest auth).url.path = str "/setup/get_account_settings") = False := by
    show (str "/setup/login_or_create_account" = str "/setup/get_account_settings") = False
    exact eq_false (by decide)
  unfold aqSettingsRequest
  simp [hpath]

theorem sampleSrp_same (user pw pw' : NSString) (t : Pending) :
    SameOutcome sampleServices sampleSrp setupOutside t user pw pw' := by
  have hproof : ∀ p p' n, SameProof sampleServices sampleSrp setupOutside user p p' n :=
    fun _ _ _ => ⟨fun _ _ _ _ _ _ _ _ => rfl, fun _ _ _ _ _ _ _ _ _ _ _ _ => rfl⟩
  unfold SameOutcome
  split
  · exact hproof _ _ 1
  · exact hproof _ _ 0

theorem password_confined_setupRun :
    List.Forall₂ SameButM1
        (requests (aqBridge sampleServices sampleSrp setupOutside
          (setupRequest "Basic me@icloud.com:secrABCDEF") { pending := [] }).2.log)
        (requests (aqBridge sampleServices sampleSrp setupOutside
          (setupRequest "Basic me@icloud.com:huntABCDEF") { pending := [] }).2.log) ∧
      (requests (aqBridge sampleServices sampleSrp setupOutside
        (setupRequest "Basic me@icloud.com:secrABCDEF") { pending := [] }).2.log).length = 4 := by
  refine ⟨(password_confined sampleServices sampleSrp setupOutside [] _ _ setupRequest_alike
    (fun c _ => setupRequest_settings _ c) fun u p p' _ _ => sampleSrp_same _ p p' []).1, ?_⟩
  decide

/-! ### A password that SRP refuses -/

/-- Two bodies, one with a password that has an unpaired surrogate and so no UTF-8. -/
def surrogateServices : Services :=
  { sampleServices with
    plist := fun d => match d with
      | [20] => some (.dict [(str "username", .string (str "me@icloud.com")),
          (str "password", .string (0xD800 :: str "ABCDEF"))])
      | [21] => some (.dict [(str "username", .string (str "me@icloud.com")),
          (str "password", .string (str "xABCDEF"))])
      | _ => sampleServices.plist d
    utf8 := fun s => if 0xD800 ∈ s then none else sampleServices.utf8 s }

def bodyRequest (b : UInt8) : Original where
  method := "POST"
  url := (setupRequest "").url
  headers := []
  body := some [b]
  stream := false

theorem bodyRequest_alike : SameButPassword surrogateServices (bodyRequest 20) (bodyRequest 21) := by
  have hdict : DictAlike (aqPlist surrogateServices [20]) (aqPlist surrogateServices [21]) :=
    .alike rfl rfl rfl (⟨rfl, fun _ => rfl⟩ : Alike (0xD800 :: str "ABCDEF") (str "xABCDEF"))
  exact ⟨rfl, rfl, rfl, Or.inl rfl, Iff.rfl, hdict, hdict⟩

/-- With a password that SRP refuses the exchange is not completed: the requests tell such a password
from another one, although their lengths and their ends are the same. -/
theorem password_told_apart : SameButPassword surrogateServices (bodyRequest 20) (bodyRequest 21) ∧
    (∀ c, aqSettingsRequest surrogateServices (bodyRequest 20) (some c) = false) ∧
    (∀ user pw pw' n, SameVerified surrogateServices sampleSrp setupOutside user pw pw' n) ∧
    ¬ List.Forall₂ SameButM1
      (requests
        (aqBridge surrogateServices sampleSrp setupOutside (bodyRequest 20) { pending := [] }).2.log)
      (requests
        (aqBridge surrogateServices sampleSrp setupOutside (bodyRequest 21) { pending := [] }).2.log) := by
  have hsame : ∀ user pw pw' n, SameVerified surrogateServices sampleSrp setupOutside user pw pw' n :=
    fun _ _ _ _ _ _ _ _ _ _ _ _ _ _ _ _ => rfl
  refine ⟨bodyRequest_alike, fun c => ?_, hsame, fun h => ?_⟩
  · have hpath : ((bodyRequest 20).url.path = str "/setup/get_account_settings") = False := by
      show (str "/setup/login_or_create_account" = str "/setup/get_account_settings") = False
      exact eq_false (by decide)
    unfold aqSettingsRequest
    simp [hpath]
  · have hlength := h.length_eq
    have hrefused : (requests (aqBridge surrogateServices sampleSrp setupOutside (bodyRequest 20)
      { pending := [] }).2.log).length = 1 := by decide
    have htaken : (requests (aqBridge surrogateServices sampleSrp setupOutside (bodyRequest 21)
      { pending := [] }).2.log).length = 4 := by decide
    omega

end AquaTransport
