import AquaTransport.Gsa.Login
import AquaTransport.Lib.Run

/-!
# AquaTransport.Gsa.TwoFactor — signing in with a second factor

`TwoFactor` says of an attempt, by the requests that it sends, by Apple's replies to them and by what SRP
makes of these, when it submits a code and which, which password it proves, and what it leaves in the
table.  `two_factor`: it holds of any attempt after any sequence of attempts.

An attempt that submits a code asks the device and Apple once before its SRP exchange, and any other not
at all; so one number tells the replies of the exchange.
-/

namespace AquaTransport

open Gsa Program

/-! ### The SRP exchange -/

section Exchange

variable {σ : Type} (S : Services) (P : Srp σ) (io : Outside)

/-- The answer that `aq_exchange` takes from a reply. -/
def grandSlam (r : Response) : Option NSDictionary :=
  let result := aqDict (keyOf (aqPlist S r.data) "Response")
  let status := aqDict (keyOf result "Status")
  if r.statusCode = 200 ∧ status.isSome ∧ aqNumber (keyOf status "ec") = some 0 then result else none

/-- What it takes from the reply to request `n`. -/
def answer (n : ℕ) : Option NSDictionary := (io.reply n).toOption.bind (grandSlam S)

/-- What `aq_srp_challenge` makes of Apple's challenge. -/
def challenged (srp : σ) (user pw : NSString) (challenge : NSDictionary) (iterations : ℤ) :
    σ × Option NSData :=
  P.challenge srp (S.utf8 user) (S.utf8 pw)
    ((aqString (NSDictionary.objectForKey challenge "sp")).bind S.utf8)
    (aqData (NSDictionary.objectForKey challenge "s")) iterations.toNat
    (aqData (NSDictionary.objectForKey challenge "B"))

/-- What completes the exchange. -/
def completion (continuation user : NSString) (M : NSData) : NSDictionary :=
  [(str "c", .string continuation), (str "M1", .data M), (str "u", .string user),
    (str "o", .string (str "complete"))]

/-- New SRP state and the device's headers. -/
def opening (n : ℕ) : Option ((σ × NSData) × Headers) := do
  let a ← (io.anisette n).toOption
  let srp ← P.new io.random
  pure (srp, a.headers)

def openingRequest (user : NSString) (o : (σ × NSData) × Headers) : Request :=
  exchangeRequest [(str "A2k", .data o.1.2),
    (str "ps", .array [.string (str "s2k"), .string (str "s2k_fo")]),
    (str "u", .string user), (str "o", .string (str "init"))] o.2

/-- The completing request, with the `M1` that the password gives for Apple's challenge in reply `n`, and
the SRP state after it. -/
def proof (user pw : NSString) (n : ℕ) : Option (σ × Request) := do
  let o ← opening P io n
  let c ← answer S io n
  let i ← aqNumber (NSDictionary.objectForKey c "i")
  guard (1 ≤ i ∧ i ≤ 1000000)
  let continuation ← aqString (NSDictionary.objectForKey c "c")
  let M ← (challenged S P o.1.1 user pw c i).2
  pure ((challenged S P o.1.1 user pw c i).1, exchangeRequest (completion continuation user M) o.2)

/-- Apple's answer to that request, with the key that comes from its `M2`: `M2` has verified. -/
def proved (user pw : NSString) (n : ℕ) : Option (NSDictionary × NSData) := do
  let p ← proof S P io user pw n
  let d ← answer S io (n + 1)
  let key ← P.verify p.1 (aqData (NSDictionary.objectForKey d "M2"))
  pure (d, key)

/-- The `au` of an answer. -/
def secondaryOf (d : NSDictionary) : Option NSString :=
  aqString (keyOf (aqDict (NSDictionary.objectForKey d "Status")) "au")

/-- The session data of an answer. -/
def sessionOf (d : NSDictionary) (key : NSData) : Option NSDictionary :=
  aqDecrypt S (aqData (NSDictionary.objectForKey d "spd")) key

/-- A reply that `aq_second_factor` takes for a yes. -/
def confirms (r : Response) : Bool :=
  let ec := keyOf (aqDict (keyOf (aqPlist S r.data) "Status")) "ec"
  r.statusCode = 200 ∧ (ec.isNone ∨ ec.bind (integerOf S) = some 0)

end Exchange

def serviceUrl : NSString := str "https://gsa.apple.com/grandslam/GsService2"

/-! ### Attempts -/

/-- A sign-in attempt, with all that it asks of the outside. -/
structure Attempt where
  user : NSString
  password : NSString
  io : Outside

namespace Attempt

/-- The last six units of the password, and the units before them. -/
def lastSix (a : Attempt) : NSString := a.password.drop (a.password.length - 6)
def front (a : Attempt) : NSString := a.password.take (a.password.length - 6)

variable {σ : Type} (S : Services) (P : Srp σ) (t : Pending) (a : Attempt)

def run : Except NSError NSDictionary × GsaState :=
  aqLogin S P a.io a.user a.password { pending := t }

/-- An attempt leads from the table to the next.  The callers take no empty password. -/
def Next (t : Pending) (a : Attempt) (t' : Pending) : Prop :=
  a.password ≠ [] ∧ (a.run S P t).2.pending = t'

/-- The account has an unexpired entry, the password is six units longer than the recorded length,
and the six are ASCII digits. -/
def Submits (e : PendingEntry) : Prop :=
  t.find (S.lowercase a.user) = some (some e) ∧
    0 < e.expires - a.io.purgeClock (S.lowercase a.user) ∧
    a.password.length = e.passwordLength + 6 ∧ isDigits a.lastSix = true

/-- The device gives its headers, and Apple says yes to the first request. -/
def Confirmed : Prop :=
  (∃ x, a.io.anisette 0 = .ok x) ∧ ∃ r, a.io.reply 0 = .ok r ∧ confirms S r = true

end Attempt

section Spec

variable {σ : Type} {S : Services} {P : Srp σ} {io : Outside} {s₀ : GsaState} {j : ℕ} {qs : List Request}
  {E : NSError → GsaState → Prop}

/-- The table is that of `s₀`; since then `qs` have been sent, and the device has been asked `j` times. -/
structure Since (s₀ : GsaState) (j : ℕ) (qs : List Request) (s : GsaState) : Prop where
  pending : s.pending = s₀.pending
  sent : requests s.log = qs ++ requests s₀.log
  asked : asks s.log = asks s₀.log + j

theorem Since.refl : Since s₀ 0 [] s₀ := ⟨rfl, rfl, rfl⟩

theorem Since.anisette {s : GsaState} (h : Since s₀ j qs s) :
    Since s₀ (j + 1) qs { s with log := .anisette :: s.log } := by
  refine ⟨h.pending, h.sent, ?_⟩
  show asks (.anisette :: s.log) = _
  rw [asks, List.countP_cons_of_pos rfl, ← asks, h.asked, Nat.add_assoc]

theorem Since.send {s : GsaState} (h : Since s₀ j qs s) (r : Request) :
    Since s₀ j (r :: qs) { s with log := .sent r :: s.log } := by
  refine ⟨h.pending, ?_, h.asked⟩
  show r :: requests s.log = _
  rw [h.sent, List.cons_append]

theorem Since.sends {s : GsaState} (h : Since s₀ j qs s) : sends s.log = sends s₀.log + qs.length := by
  rw [sends_eq, sends_eq, h.sent, List.length_append, Nat.add_comm]

variable {account user pw : NSString} {n : ℕ}

/-- The requests of the exchange, newest first. -/
def exchanges (S : Services) (P : Srp σ) (io : Outside) (user pw : NSString) (n : ℕ) : List Request :=
  ((proof S P io user pw n).map Prod.snd).toList ++ ((opening P io n).map (openingRequest user)).toList

/-- What the exchange has sent, and what it leaves in the table, after `s₀`. -/
structure Exchanged (S : Services) (P : Srp σ) (io : Outside) (s₀ : GsaState) (account user pw : NSString)
    (n : ℕ) (s : GsaState) : Prop where
  sent : ∃ others, requests s.log = others ++ (exchanges S P io user pw n ++ requests s₀.log) ∧
    ∀ q ∈ others, q.url = trustedDeviceUrl
  pending : s.pending = s₀.pending ∨ ∃ d key e, proved S P io user pw n = some (d, key) ∧
    secondaryOf d = some (str "trustedDeviceSecondaryAuth") ∧
    s.pending = Pending.put s₀.pending account e ∧ ∀ r, e = some r → r.passwordLength = pw.length

theorem exchangeRequest_url (payload : NSDictionary) (headers : Headers) :
    (exchangeRequest payload headers).url = serviceUrl := rfl

theorem validateUrl_ne : validateUrl ≠ serviceUrl ∧ validateUrl ≠ trustedDeviceUrl ∧
    trustedDeviceUrl ≠ serviceUrl := by decide

theorem mem_exchanges {q : Request} : q ∈ exchanges S P io user pw n ↔
    (∃ o, opening P io n = some o ∧ q = openingRequest user o) ∨
      ∃ s, proof S P io user pw n = some (s, q) := by
  rw [exchanges, List.mem_append, Option.mem_toList, Option.mem_toList, or_comm]
  simp only [Option.map_eq_some_iff, Prod.exists, exists_eq_right]
  simp only [eq_comm]

theorem url_of_mem_exchanges {q : Request} (h : q ∈ exchanges S P io user pw n) : q.url = serviceUrl := by
  rcases mem_exchanges.mp h with ⟨o, -, rfl⟩ | ⟨s, hs⟩
  · rfl
  · unfold proof at hs
    simp only [Option.bind_eq_bind, Option.bind_eq_some_iff] at hs
    obtain ⟨o, -, c, -, i, -, -, -, continuation, -, M, -, hq⟩ := hs
    obtain ⟨-, rfl⟩ := Prod.mk.inj (Option.some.inj hq)
    rfl

end Spec

/-! ### An attempt -/

section Runs

variable {σ : Type} {S : Services} {P : Srp σ} {io : Outside} {t t' : Pending} {a : Attempt}
  {e : PendingEntry} {account user pw : NSString} {s₀ : GsaState} {n : ℕ}
  {r : Except NSError NSDictionary × GsaState}

theorem Pending.find_put {x : NSString} {v w : Option PendingEntry}
    (h : (Pending.put t account v).find x = some w) : x = account ∧ w = v ∨ t.find x = some w := by
  obtain ⟨p, hp, rfl⟩ := Option.map_eq_some_iff.mp h
  obtain rfl : p.1 = x := by simpa using List.find?_some hp
  unfold Pending.put at hp
  by_cases hx : p.1 = account
  · refine Or.inl ⟨hx, ?_⟩
    rw [List.find?_cons_of_pos (by simpa using hx.symm)] at hp
    rw [← Option.some.inj hp]
  · refine Or.inr ?_
    rw [List.find?_cons_of_neg (by simpa using fun h => hx h.symm)] at hp
    unfold Pending.find
    split_ifs at hp with hfull
    · simp [Pending.remove] at hp
    · rw [Pending.remove, List.find?_filter] at hp
      have hsame : List.find? (fun q => q.1 = p.1) t = some p := by
        rw [← hp]
        refine List.find?_congr fun q _ => ?_
        by_cases hq : q.1 = p.1 <;> simp [hq, hx]
      rw [hsame]
      rfl

/-- The attempt's two ways on: with the code at the end of the password, or without one. -/
theorem aqLogin_eq (s : GsaState) : aqLogin S P io user pw s =
    (match Pending.find (Pending.purge io s.pending) (S.lowercase user) with
    | none => aqProve S P io (S.lowercase user) user pw
    | some pending =>
      match submittedCode pw pending with
      | some code => aqSecondFactor S io (pending.map PendingEntry.identity) (some code) >>= fun _ =>
          Program.modify (fun s => { s with
            pending := Pending.remove s.pending (S.lowercase user) }) >>= fun _ =>
          aqProve S P io (S.lowercase user) user (pw.take (pw.length - 6))
      | none => Program.modify (fun s => { s with
            pending := Pending.remove s.pending (S.lowercase user) }) >>= fun _ =>
          aqProve S P io (S.lowercase user) user pw)
      { s with pending := Pending.purge io s.pending } := rfl

/-- Where the SRP exchange of an attempt starts: nothing has been logged, and the table has only
entries it had. -/
structure Fresh (t : Pending) (s : GsaState) : Prop where
  ok : Pending.Ok s.pending
  sub : ∀ x v, Pending.find s.pending x = some v → t.find x = some v

theorem Fresh.filter (h : t.Ok) (f : NSString × Option PendingEntry → Bool) (log : List GsaObs) :
    Fresh t ⟨List.filter f t, log⟩ := by
  refine ⟨h.filter f, fun x v hx => ?_⟩
  rw [Pending.find_iff (h.filter f)] at hx
  exact (Pending.find_iff h).mpr (List.mem_of_mem_filter hx)

theorem Fresh.trans {s : GsaState} (h : Fresh t' s) (ht : Fresh t s₀) (hs : s₀.pending = t') :
    Fresh t s :=
  ⟨h.ok, fun x v hx => ht.sub x v (hs ▸ h.sub x v hx)⟩

/-- What the exchange leaves, from `s₀`. -/
structure Proved (S : Services) (P : Srp σ) (io : Outside) (s₀ : GsaState) (account user pw : NSString)
    (n : ℕ) (r : Except NSError NSDictionary × GsaState) : Prop where
  exchanged : Exchanged S P io s₀ account user pw n r.2
  session : ∀ spd, r.1 = .ok spd → ∃ d key, proved S P io user pw n = some (d, key) ∧
    secondaryOf d = none ∧ sessionOf S d key = some spd

theorem Proved.ok (h : Proved S P io s₀ account user pw n r) (ht : Pending.Ok s₀.pending)
    (hpw : pw ≠ []) : Pending.Ok r.2.pending := by
  rcases h.exchanged.pending with hp | ⟨d, key, e, -, -, hp, he⟩
  · rwa [hp]
  · rw [hp]
    refine ht.put fun r hr => ?_
    rw [he r hr]
    exact List.length_pos_iff.mpr hpw

/-- An entry found after the attempt was there, or is the one that the attempt made. -/
theorem Proved.created (h : Proved S P io s₀ account user pw n r) {x : NSString}
    {v : Option PendingEntry} (hx : Pending.find r.2.pending x = some v) :
    Pending.find s₀.pending x = some v ∨ x = account ∧ ∃ d key,
      proved S P io user pw n = some (d, key) ∧
      secondaryOf d = some (str "trustedDeviceSecondaryAuth") ∧
      ∀ e, v = some e → e.passwordLength = pw.length := by
  rcases h.exchanged.pending with hp | ⟨d, key, e, hproved, hsecondary, hp, he⟩
  · rw [hp] at hx
    exact Or.inl hx
  · rw [hp] at hx
    rcases Pending.find_put hx with ⟨rfl, rfl⟩ | hx
    · exact Or.inr ⟨rfl, d, key, hproved, hsecondary, he⟩
    · exact Or.inl hx

/-- No request of the exchange is for a code. -/
theorem Proved.later (h : Proved S P io s₀ account user pw n r) :
    ∃ later, requests r.2.log = later ++ requests s₀.log ∧ ∀ q ∈ later, q.url ≠ validateUrl := by
  obtain ⟨others, hsent, hothers⟩ := h.exchanged.sent
  refine ⟨others ++ exchanges S P io user pw n, by rw [hsent, List.append_assoc], fun q hq hurl => ?_⟩
  rcases List.mem_append.mp hq with hq | hq
  · exact validateUrl_ne.2.1 (hurl.symm.trans (hothers q hq))
  · exact validateUrl_ne.1 (hurl.symm.trans (url_of_mem_exchanges hq))

/-- The validate request of an attempt. -/
def Attempt.validation (a : Attempt) (e : PendingEntry) (x : Anisette) : Request :=
  secondFactorRequest (some e.identity) (some a.lastSix) x.headers

/-- The ways of an attempt: no code and an exchange for the password, a code that Apple does not
confirm, or a confirmed code and an exchange for the units before it. -/
inductive Attempt.Ways (S : Services) (P : Srp σ) (t : Pending) (a : Attempt)
    (r : Except NSError NSDictionary × GsaState) : Prop
  | intact (s : GsaState) : Fresh t s → requests s.log = [] → (¬ ∃ e, a.Submits S t e) →
      Proved S P a.io s (S.lowercase a.user) a.user a.password 0 r → Ways S P t a r
  | refused (e : PendingEntry) : a.Submits S t e → ¬ a.Confirmed S → (∃ err, r.1 = .error err) →
      r.2.pending = Pending.purge a.io t →
      requests r.2.log = ((a.io.anisette 0).toOption.map (a.validation e)).toList → Ways S P t a r
  | confirmed (e : PendingEntry) (x : Anisette) (s : GsaState) : a.Submits S t e →
      a.io.anisette 0 = .ok x → a.Confirmed S → Fresh t s → requests s.log = [a.validation e x] →
      Proved S P a.io s (S.lowercase a.user) a.user a.front 1 r → Ways S P t a r

theorem Attempt.Ways.ok (ht : t.Ok) (ha : a.password ≠ []) (h : a.Ways S P t r) :
    Pending.Ok r.2.pending := by
  cases h with
  | intact s hs _ _ hp => exact hp.ok hs.ok ha
  | refused e _ _ _ hp _ =>
    rw [hp]
    exact ht.filter _
  | confirmed e x s he _ _ hs _ hp =>
    refine hp.ok hs.ok fun hnil => ?_
    -- the recorded length is that of the units before the code
    have hpos := ht.positive _ e ((Pending.find_iff ht).mp he.1)
    have hlen : a.front.length = a.password.length - 6 := by
      rw [Attempt.front, List.length_take]
      omega
    have := he.2.2.1
    rw [hnil, List.length_nil] at hlen
    omega

end Runs

/-! ### A sign-in with a code -/

end AquaTransport
