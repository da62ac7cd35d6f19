import AquaTransport.Gsa.Login
import Mathlib.Tactic.Linarith

/-!
# AquaTransport.Gsa.Adi — native device provisioning

`aq_adi_headers` and what it calls, over the record that `anisette.plist` holds, the native routines
and Apple's replies.
-/

namespace AquaTransport

/-! ### Values -/

/-- The value of ASCII digits. -/
def decimalValue (s : NSString) : ℕ := s.foldl (fun n c => 10 * n + (c.toNat - 48)) 0

/-- `aq_adi_routing`. -/
def aqAdiRouting (value : Option Plist) : Option NSString :=
  let s := match aqNumber value with
    | some n => some (str (toString n))
    | none => aqString value
  match s with
  | some s =>
    if s = [] ∨ 20 < s.length ∨ isDigits s = false then none
    else if decimalValue s = 0 ∨ 2 ^ 64 ≤ decimalValue s then none
    else some s
  | none => none

section Values

variable (S : Services)

/-- `aq_adi_decode`. -/
def aqAdiDecode (value : Option Plist) : Option NSData :=
  let ascii := ((aqString value).bind asciiData).getD []
  if ascii = [] ∨ ascii.length % 4 ≠ 0 ∨ 1024 * 1024 < ascii.length then none
  else
    match S.decode64 ascii with
    | none => none
    | some out =>
      let pad := (if ascii.getLast? = some 61 then 1 else 0) +
        if ascii.dropLast.getLast? = some 61 then 1 else 0
      if out = [] ∨ out.length - pad = 0 then none else some (out.take (out.length - pad))

end Values

/-- `aq_adi_url`, where `U` is `URLWithString:`. -/
def aqAdiUrl (U : NSString → Option NSURL) (s : Option NSString) : Bool :=
  match s.bind U with
  | some u =>
    u.scheme = some (str "https") && u.host = some (str "gsa.apple.com") && u.port443 &&
      u.user.isNone && u.password.isNone && u.query.isNone && u.fragment.isNone &&
      hasPrefix u.path (str "/grandslam/")
  | none => false

/-! ### The record, and the outside -/

/-- The keys of `anisette.plist`, as far as they have the types that are looked for. -/
structure AdiRecord where
  device : Option NSString := none
  lastAttempt : Option Time := none
  routing : Option Plist := none

/-- An XML property list has its dates in whole seconds. -/
def AdiRecord.encoded (r : AdiRecord) : AdiRecord :=
  { r with lastAttempt := r.lastAttempt.map fun t => (t.floor : Time) }

/-- How a call ends without a value: with an `NSError`, or for an exception. -/
inductive AdiFailure
  | error (e : NSError)
  | raised

/-- What the native routines answer to one call, and Apple, and the system. -/
structure AdiOutside where
  /-- `pread` gives the contents. -/
  reads : Bool := true
  /-- `AQADI.state`. -/
  state : ℤ
  /-- The clock when the last attempt's date is looked at. -/
  now : Time
  /-- The clock when the new attempt's date is taken. -/
  date : Time
  /-- Whether each save comes through: encoding, `pwrite`, `ftruncate` and `fsync`. -/
  saves : ℕ → Bool := fun _ => true
  reply : ℕ → Except AdiFailure Response
  /-- `isStopped`, before the routing is saved. -/
  stopped : Bool := false
  startStatus : ℤ := 0
  /-- The buffer of `AQADI.start`; `none` is `NULL`. -/
  cpim : Option NSData
  session : UInt32
  finishStatus : ℤ := 0
  otpStatus : ℤ := 0
  machine : Option NSData := none
  otp : Option NSData := none

/-- What a call does, besides reading. -/
inductive AdiObs
  | state (code : ℤ)
  /-- The record is on the disk. -/
  | saved (r : AdiRecord)
  | sent (r : Request)
  | start (status : ℤ) (session : UInt32)
  | finish (session : UInt32) (ptm tk : NSData) (status : ℤ)
  | destroy (session : UInt32)
  | otp
  | dispose (buffer : NSData)

structure AdiState where
  /-- What the file holds. -/
  record : AdiRecord
  log : List AdiObs := []

abbrev Adi := Program AdiState AdiFailure

/-- The code of `AQADI.state` for a device that is not provisioned. -/
def notProvisioned : ℤ := -45061

def adiError (code : ℤ) (message : String) : AdiFailure := .error (aqError code message)

def lookupUrl : NSString := str "https://gsa.apple.com/grandslam/GsService2/lookup"

namespace AdiObs

def isSaved : AdiObs → Bool
  | .saved _ => true
  | _ => false

def isSent : AdiObs → Bool
  | .sent _ => true
  | _ => false

end AdiObs

section Model

open Program

variable (S : Services) (U : NSString → Option NSURL) (io : AdiOutside)

namespace Adi

def note (x : AdiObs) : Adi Unit := modify fun s => { s with log := x :: s.log }

/-- `AQADI.dispose`, of what is not `NULL`. -/
def disposed (buffer : Option NSData) (s : AdiState) : AdiState :=
  { s with log := (buffer.map AdiObs.dispose).toList ++ s.log }

def destroyed (s : AdiState) : AdiState := { s with log := .destroy io.session :: s.log }

end Adi

/-- `aq_adi_read`. -/
def aqAdiRead : Adi AdiRecord := fun s => (.ok (if io.reads then s.record else {}), s)

/-- `aq_adi_save`. -/
def aqAdiSave (r : AdiRecord) (e : AdiFailure) : Adi Unit := fun s =>
  if io.saves (s.log.countP AdiObs.isSaved) then
    (.ok (), { record := r.encoded, log := .saved r.encoded :: s.log })
  else (.error e, s)

/-- `aq_send`. -/
def aqAdiSend (r : Request) : Adi Response := fun s =>
  (io.reply (s.log.countP AdiObs.isSent), { s with log := .sent r :: s.log })

/-- The request of `aq_adi_request`.  The list of its headers ends at a `nil`. -/
def adiRequest (url : NSString) (payload : Option NSDictionary) (device : NSString) : Request :=
  let more : Headers := match aqBase64 S (S.utf8 device) with
    | some d => [(str "X-Apple-I-MD-LU", d), (str "X-Apple-Client-App-Name", str "Setup")]
    | none => []
  let req := aqAppleRequest url ((str "X-Mme-Device-Id", device) :: more)
  let req := { req with
    headers := Headers.setValue req.headers "Content-Type"
      (some (str "application/x-www-form-urlencoded")) }
  match payload with
  | some p =>
    { req with
      method := "POST"
      body := some (.encoded (.dict [(str "Header", .dict []), (str "Request", .dict p)])) }
  | none => req

/-- `aq_adi_request`. -/
def aqAdiRequest (url : Option NSString) (payload : Option NSDictionary) (device : NSString) :
    Adi NSDictionary := do
  check (aqAdiUrl U url) (adiError 15 "Apple returned an invalid device provisioning URL.")
  let r ← aqAdiSend io (adiRequest S (url.getD []) payload device)
  check (r.statusCode = 200) (adiError 15 "Apple device provisioning failed.")
  orFail (aqPlist S r.data) (adiError 15 "Apple device provisioning failed.")

/-- `AQADI.start` gave a session and a buffer of a usable length. -/
def AdiOutside.usable (io : AdiOutside) : Option NSData :=
  if io.startStatus = 0 then io.cpim.filter fun d => d ≠ [] ∧ d.length ≤ 1024 * 1024 else none

/-- The `@try` block of `aq_adi_provision`. -/
def aqAdiCommit (device : NSString) (record : AdiRecord) (finishUrl : Option NSString) :
    Adi NSString := do
  let cpim ← orFail io.usable (adiError 16 "Native device provisioning could not start.")
  let encoded ← orFail (aqBase64 S (some cpim)) .raised
  Adi.note (.dispose cpim)
  let result ← aqAdiRequest S U io finishUrl (some [(str "cpim", .string encoded)]) device
  let reply := aqDict (result.objectForKey "Response")
  let invalid := adiError 15 "Apple returned invalid provisioning data or routing."
  let ptm ← orFail (aqAdiDecode S (keyOf reply "ptm")) invalid
  let tk ← orFail (aqAdiDecode S (keyOf reply "tk")) invalid
  let routing ← orFail (aqAdiRouting (keyOf reply "X-Apple-I-MD-RINFO")) invalid
  check (!io.stopped) (adiError 3072 "Sign-in cancelled.")
  aqAdiSave io { record with routing := some (.string routing) }
    (adiError 14 "Could not save Apple's device routing information.")
  Adi.note (.finish io.session ptm tk io.finishStatus)
  check (io.finishStatus = 0) (adiError 16 "Native device provisioning could not finish.")
  pure routing

/-- The `@finally` block of `aq_adi_provision`.  A buffer that was not usable is still to be disposed
of; `finished` is set at the end of the `@try` block. -/
def adiCleanup (finished : Bool) (s : AdiState) : AdiState :=
  let s := Adi.disposed (if io.usable.isSome then none else io.cpim) s
  if io.startStatus = 0 ∧ finished = false then Adi.destroyed io s else s

/-- `aq_adi_provision`. -/
def aqAdiProvision (device : NSString) (record : AdiRecord) : Adi NSString := do
  let lookup ← aqAdiRequest S U io (some lookupUrl) none device
  let bag := aqDict (lookup.objectForKey "urls")
  let begin := aqString (keyOf bag "midStartProvisioning")
  let finish := aqString (keyOf bag "midFinishProvisioning")
  check (aqAdiUrl U begin && aqAdiUrl U finish)
    (adiError 15 "Apple returned an invalid device provisioning lookup.")
  let reply ← aqAdiRequest S U io begin (some []) device
  let _spim ← orFail (aqAdiDecode S (keyOf (aqDict (reply.objectForKey "Response")) "spim"))
    (adiError 15 "Apple returned invalid provisioning data.")
  Adi.note (.start io.startStatus io.session)
  tryFinally (aqAdiCommit S U io device record finish) (adiCleanup io)

/-- The OTP part of `aq_adi_headers`. -/
def aqAdiOtp (routing : NSString) : Adi Headers := do
  Adi.note .otp
  tryFinally (do
    let unusable := adiError 12 "Native device authentication returned no usable OTP."
    check (io.otpStatus = 0) unusable
    let machine ← orFail (io.machine.filter fun d => d ≠ [] ∧ d.length ≤ 12288) unusable
    let otp ← orFail (io.otp.filter fun d => d ≠ [] ∧ d.length ≤ 12288) unusable
    pure [(str "X-Apple-MD-M", S.encode64 machine), (str "X-Apple-MD", S.encode64 otp),
      (str "X-Apple-I-MD-RINFO", routing)])
    fun _ s => Adi.disposed io.otp (Adi.disposed io.machine s)

/-- The date of the last attempt is less than 24 hours old. -/
def AdiOutside.cooling (io : AdiOutside) (r : AdiRecord) : Bool :=
  r.lastAttempt.any fun t => decide (-86400 < t - io.now)

/-- The routing in `aq_adi_headers`, from an attempt where the device is not provisioned. -/
def adiRoute (device : NSString) (record : AdiRecord) : Adi (Option NSString) :=
  if io.state = notProvisioned then do
    check (!io.cooling record) (adiError 17 ("Local device provisioning was already " ++
      "attempted. It can be retried after 24 hours."))
    let record : AdiRecord := { device := some device, lastAttempt := some io.date }
    aqAdiSave io record (adiError 14 "Could not save the device provisioning attempt.")
    some <$> aqAdiProvision S U io device record
  else do
    check (io.state = 0) (adiError 12 "Native device provisioning state is unavailable.")
    pure (if record.device = some device then aqAdiRouting record.routing else none)

/-- `aq_adi_headers`. -/
def aqAdiHeaders (device : NSString) : Adi Headers := do
  let record ← aqAdiRead io
  Adi.note (.state io.state)
  let routing ← adiRoute S U io device record
  let routing ← orFail routing (adiError 18 ("This device is provisioned but its Apple routing " ++
    "record is missing. Existing native state has been preserved."))
  aqAdiOtp S io routing

end Model

/-! ### The course of a call -/

/-- What the OTP and the buffers leave in the log. -/
def AdiObs.IsBuffer : AdiObs → Prop
  | .otp | .dispose _ => True
  | _ => False

section Course

variable (S : Services) (device : NSString) (io : AdiOutside)

/-- The record of an attempt. -/
def attemptRecord : AdiRecord :=
  { device := some device, lastAttempt := some (io.date.floor : Time) }

/-- The record with the routing. -/
def routedRecord (routing : NSString) : AdiRecord :=
  { attemptRecord device io with routing := some (.string routing) }

/-- The log of an attempt that has sent `rs`, newest first, and has not come to `AQADI.start`. -/
def asked (rs : List Request) : List AdiObs :=
  rs.map AdiObs.sent ++ [.saved (attemptRecord device io), .state io.state]

/-- The log when `AQADI.start` has returned. -/
def begun (a b : Request) : List AdiObs := .start io.startStatus io.session :: asked device io [b, a]

/-- What an attempt takes from Apple's third reply. -/
def Provisioned (ptm tk : NSData) (routing : NSString) : Prop :=
  ∃ r result, io.reply 2 = .ok r ∧ aqPlist S r.data = some result ∧
    let reply := aqDict (NSDictionary.objectForKey result "Response")
    aqAdiDecode S (keyOf reply "ptm") = some ptm ∧ aqAdiDecode S (keyOf reply "tk") = some tk ∧
      aqAdiRouting (keyOf reply "X-Apple-I-MD-RINFO") = some routing

/-- The log when `AQADI.finish` has returned. -/
def committed (a b c : Request) (buffers : List AdiObs) (ptm tk : NSData) (routing : NSString) :
    List AdiObs :=
  .finish io.session ptm tk io.finishStatus :: .saved (routedRecord device io routing) ::
    .sent c :: (buffers ++ begun device io a b)

/-- What an attempt may log, newest first, and leave on the disk. -/
inductive Exchange : List AdiObs → AdiRecord → Prop
  | asked (rs : List Request) (h : rs.length ≤ 2) :
      Exchange (asked device io rs) (attemptRecord device io)
  | unstarted (a b : Request) (buffers : List AdiObs) (hb : ∀ x ∈ buffers, x.IsBuffer)
      (h : io.startStatus ≠ 0) :
      Exchange (buffers ++ begun device io a b) (attemptRecord device io)
  | broken (a b : Request) (third : List Request) (buffers : List AdiObs)
      (hb : ∀ x ∈ buffers, x.IsBuffer) (h : io.startStatus = 0) (h3 : third.length ≤ 1) :
      Exchange (.destroy io.session :: (third.map AdiObs.sent ++ (buffers ++ begun device io a b)))
        (attemptRecord device io)
  | unfinished (a b c : Request) (buffers : List AdiObs) (ptm tk : NSData) (routing : NSString)
      (hb : ∀ x ∈ buffers, x.IsBuffer) (h : io.startStatus = 0) (hf : io.finishStatus ≠ 0)
      (hp : Provisioned S io ptm tk routing) :
      Exchange (.destroy io.session :: committed device io a b c buffers ptm tk routing)
        (routedRecord device io routing)
  | finished (a b c : Request) (buffers tail : List AdiObs) (ptm tk : NSData) (routing : NSString)
      (hb : ∀ x ∈ buffers, x.IsBuffer) (ht : ∀ x ∈ tail, x.IsBuffer) (h : io.startStatus = 0)
      (hf : io.finishStatus = 0) (hp : Provisioned S io ptm tk routing) :
      Exchange (tail ++ committed device io a b c buffers ptm tk routing)
        (routedRecord device io routing)

/-- What a call may log, and leave on the disk, where it found the record `r₀`. -/
inductive Course (r₀ : AdiRecord) : List AdiObs → AdiRecord → Prop
  /-- No attempt is made, or its date is not saved. -/
  | kept (tail : List AdiObs) (h : ∀ x ∈ tail, x.IsBuffer) : Course r₀ (tail ++ [.state io.state]) r₀
  | attempted {log : List AdiObs} {r : AdiRecord} (hs : io.state = notProvisioned)
      (hc : io.cooling (if io.reads then r₀ else {}) = false) (hd : io.saves 0 = true)
      (h : Exchange S device io log r) : Course r₀ log r

/-- Where the `@try` block of a provisioning ends without a routing. -/
inductive Halted (a b : Request) : List AdiObs → AdiRecord → Prop
  | unusable (h : io.usable = none) : Halted a b (begun device io a b) (attemptRecord device io)
  | broken (third : List Request) (cpim : NSData) (h : io.usable = some cpim) (h3 : third.length ≤ 1) :
      Halted a b (third.map AdiObs.sent ++ ([.dispose cpim] ++ begun device io a b))
        (attemptRecord device io)
  | unfinished (c : Request) (cpim ptm tk : NSData) (routing : NSString) (h : io.usable = some cpim)
      (hf : io.finishStatus ≠ 0) (hp : Provisioned S io ptm tk routing) :
      Halted a b (committed device io a b c [.dispose cpim] ptm tk routing)
        (routedRecord device io routing)

end Course

section Spec

open Program

variable {S : Services} {U : NSString → Option NSURL} {device : NSString} {io : AdiOutside}
  {r : AdiRecord} {log : List AdiObs} {E : AdiFailure → AdiState → Prop}

theorem AdiOutside.usable_start {cpim : NSData} (h : io.usable = some cpim) :
    io.startStatus = 0 ∧ cpim.length ≤ 1024 * 1024 := by
  unfold AdiOutside.usable at h
  split_ifs at h with hs
  refine ⟨hs, ?_⟩
  have := Option.filter_eq_some_iff.mp h
  simp at this
  omega

theorem aqAdiRouting_string {v : Option Plist} {s : NSString} (h : aqAdiRouting v = some s) :
    aqAdiRouting (some (.string s)) = some s := by
  unfold aqAdiRouting at h
  dsimp only at h
  split at h
  · rename_i t _
    split_ifs at h with h1 h2
    obtain rfl : t = s := Option.some.inj h
    have hne : t ≠ [] := fun he => h1 (Or.inl he)
    show (match aqString (some (.string t)) with
      | some s => if s = [] ∨ 20 < s.length ∨ isDigits s = false then none
        else if decimalValue s = 0 ∨ 2 ^ 64 ≤ decimalValue s then none else some s
      | none => none) = some t
    have hs : aqString (some (.string t)) = some t := if_neg hne
    rw [hs]
    dsimp only
    rw [if_neg h1, if_neg h2]
  · simp at h

theorem holds_adiNote {x : AdiObs} :
    Holds (fun s => s = ⟨r, log⟩) (Adi.note x) (fun _ s => s = ⟨r, x :: log⟩) E :=
  holds_modify fun s hs => by rw [hs]

theorem holds_adiSend {q : Request} (hE : ∀ e, E e ⟨r, .sent q :: log⟩) :
    Holds (fun s => s = ⟨r, log⟩) (aqAdiSend io q)
      (fun a s => io.reply (log.countP AdiObs.isSent) = .ok a ∧ s = ⟨r, .sent q :: log⟩) E := by
  rintro s rfl
  refine ⟨fun a t h => ?_, fun e t h => ?_⟩
  · obtain ⟨ha, rfl⟩ := Prod.mk.inj h
    exact ⟨ha, rfl⟩
  · obtain ⟨-, rfl⟩ := Prod.mk.inj h
    exact hE e

theorem holds_adiSave {r' : AdiRecord} {e : AdiFailure} (hE : E e ⟨r, log⟩) :
    Holds (fun s => s = ⟨r, log⟩) (aqAdiSave io r' e)
      (fun _ s => io.saves (log.countP AdiObs.isSaved) = true ∧
        s = ⟨r'.encoded, .saved r'.encoded :: log⟩) E := by
  rintro s rfl
  unfold aqAdiSave
  split_ifs with h
  · refine ⟨fun a t hr => ?_, fun e' t hr => ?_⟩
    · obtain ⟨-, rfl⟩ := Prod.mk.inj hr
      exact ⟨h, rfl⟩
    · simp at hr
  · refine ⟨fun a t hr => ?_, fun e' t hr => ?_⟩
    · simp at hr
    · obtain ⟨he, rfl⟩ := Prod.mk.inj hr
      exact Except.error.inj he ▸ hE

/-- A request goes out once, or not at all. -/
theorem holds_adiRequest {url : Option NSString} {payload : Option NSDictionary}
    (h0 : ∀ e, E e ⟨r, log⟩) (h1 : ∀ e q, E e ⟨r, .sent q :: log⟩) :
    Holds (fun s => s = ⟨r, log⟩) (aqAdiRequest S U io url payload device)
      (fun a s => (∃ resp, io.reply (log.countP AdiObs.isSent) = .ok resp ∧
        aqPlist S resp.data = some a) ∧ ∃ q, s = ⟨r, .sent q :: log⟩) E := by
  unfold aqAdiRequest
  refine Holds.bind (holds_check (Q := fun _ s => s = ⟨r, log⟩) (fun _ s hs => hs)
    fun _ s hs => hs ▸ h0 _) fun _ => ?_
  refine Holds.bind (holds_adiSend fun e => h1 e _) fun resp => holds_of fun hresp => ?_
  refine Holds.bind (holds_check
    (Q := fun _ s => s = ⟨r, .sent (adiRequest S (url.getD []) payload device) :: log⟩)
    (fun _ s hs => hs) fun _ s hs => hs ▸ h1 _ _) fun _ => ?_
  exact holds_orFail (fun a ha s hs => ⟨⟨resp, hresp, ha⟩, _, hs⟩) fun _ s hs => hs ▸ h1 _ _

section Commit

variable {a b : Request}

theorem isSent_asked {rs : List Request} :
    (asked device io rs).countP AdiObs.isSent = rs.length := by
  unfold asked
  rw [List.countP_append, List.countP_map]
  have h : List.countP (AdiObs.isSent ∘ AdiObs.sent) rs = rs.length :=
    List.countP_eq_length.mpr fun _ _ => rfl
  rw [h]
  rfl

theorem commit_spec {finishUrl : Option NSString} :
    Holds (fun s => s = ⟨attemptRecord device io, begun device io a b⟩)
      (aqAdiCommit S U io device { device := some device, lastAttempt := some io.date } finishUrl)
      (fun routing s => io.finishStatus = 0 ∧ ∃ c cpim ptm tk, io.usable = some cpim ∧
        Provisioned S io ptm tk routing ∧ s = ⟨routedRecord device io routing,
          committed device io a b c [.dispose cpim] ptm tk routing⟩)
      (fun _ s => Halted S device io a b s.log s.record) := by
  unfold aqAdiCommit
  cases hc : io.usable with
  | none =>
    exact Holds.bind (Q := fun _ _ => False) (holds_fail fun s hs => hs ▸ .unusable hc)
      fun _ _ hs => hs.elim
  | some cpim =>
    have hlen := (AdiOutside.usable_start hc).2
    have h3 : ∀ third : List Request, third.length ≤ 1 → Halted S device io a b
        (third.map AdiObs.sent ++ (.dispose cpim :: begun device io a b)) (attemptRecord device io) :=
      fun third h => .broken third cpim hc h
    have hbase : aqBase64 S (some cpim) = some (S.encode64 cpim) := if_neg (Nat.not_lt.mpr hlen)
    refine Holds.bind (Q := fun d s => d = cpim ∧ s = ⟨attemptRecord device io, begun device io a b⟩)
      (holds_pure fun s hs => ⟨rfl, hs⟩) fun d => holds_of ?_
    rintro rfl
    rw [hbase]
    refine Holds.bind (Q := fun _ s => s = ⟨attemptRecord device io, begun device io a b⟩)
      (holds_pure fun s hs => hs) fun encoded => ?_
    refine Holds.bind holds_adiNote fun _ => ?_
    refine Holds.bind (holds_adiRequest (fun _ => h3 [] (Nat.zero_le 1)) fun _ q => h3 [q] le_rfl)
      fun result => holds_of fun hr => holds_exists fun c => ?_
    -- up to the save, the log is that of the third request
    have hE : ∀ s : AdiState, s = ⟨attemptRecord device io, .sent c :: .dispose d :: begun device io a b⟩ →
        Halted S device io a b s.log s.record := fun s hs => hs ▸ h3 [c] le_rfl
    refine Holds.bind (holds_orFail (Q := fun ptm s => aqAdiDecode S _ = some ptm ∧ s = _)
      (fun ptm h s hs => ⟨h, hs⟩) fun _ => hE) fun ptm => holds_of fun hptm => ?_
    refine Holds.bind (holds_orFail (Q := fun tk s => aqAdiDecode S _ = some tk ∧ s = _)
      (fun tk h s hs => ⟨h, hs⟩) fun _ => hE) fun tk => holds_of fun htk => ?_
    refine Holds.bind (holds_orFail (Q := fun routing s => aqAdiRouting _ = some routing ∧ s = _)
      (fun routing h s hs => ⟨h, hs⟩) fun _ => hE) fun routing => holds_of fun hrouting => ?_
    refine Holds.bind (holds_check (Q := fun _ s => s = _) (fun _ s hs => hs) fun _ => hE) fun _ => ?_
    refine Holds.bind (holds_adiSave (h3 [c] le_rfl)) fun _ => holds_of fun _ => ?_
    refine Holds.bind holds_adiNote fun _ => ?_
    have hp : Provisioned S io ptm tk routing := by
      obtain ⟨resp, hresp, hplist⟩ := hr
      exact ⟨resp, result, hresp, hplist, hptm, htk, hrouting⟩
    refine Holds.bind (holds_check (Q := fun _ s => io.finishStatus = 0 ∧ s = _)
      (fun hf s hs => ⟨by simpa using hf, hs⟩) fun hf s hs => ?_) fun _ => ?_
    · rw [hs]
      exact .unfinished c d ptm tk routing hc (by simpa using hf) hp
    · exact holds_pure fun s hs => ⟨hs.1, c, d, ptm, tk, rfl, hp, hs.2⟩

/-- The `@finally` block closes the session of a `@try` block that was halted. -/
theorem Halted.cleanup {s : AdiState} (h : Halted S device io a b s.log s.record) :
    Exchange S device io (adiCleanup io false s).log (adiCleanup io false s).record := by
  obtain ⟨r, log⟩ := s
  unfold adiCleanup
  cases h with
  | unusable h =>
    have hb : ∀ x ∈ (io.cpim.map AdiObs.dispose).toList, x.IsBuffer := by
      intro x hx
      obtain ⟨d, -, rfl⟩ := by simpa using hx
      trivial
    rw [h]
    by_cases hs : io.startStatus = 0
    · rw [if_pos ⟨hs, rfl⟩]
      exact .broken a b [] _ hb hs (Nat.zero_le 1)
    · rw [if_neg fun h => hs h.1]
      exact .unstarted a b _ hb hs
  | broken third cpim h h3 =>
    have hs := (AdiOutside.usable_start h).1
    rw [h, if_pos ⟨hs, rfl⟩]
    exact .broken a b third [.dispose cpim] (by simp [AdiObs.IsBuffer]) hs h3
  | unfinished c cpim ptm tk routing h hf hp =>
    have hs := (AdiOutside.usable_start h).1
    rw [h, if_pos ⟨hs, rfl⟩]
    exact .unfinished a b c [.dispose cpim] ptm tk routing (by simp [AdiObs.IsBuffer]) hs hf hp

theorem provision_spec :
    Holds (fun s => s = ⟨attemptRecord device io, asked device io []⟩)
      (aqAdiProvision S U io device { device := some device, lastAttempt := some io.date })
      (fun routing s => io.finishStatus = 0 ∧ ∃ a b c cpim ptm tk, io.usable = some cpim ∧
        Provisioned S io ptm tk routing ∧ s = ⟨routedRecord device io routing,
          committed device io a b c [.dispose cpim] ptm tk routing⟩)
      (fun _ s => Exchange S device io s.log s.record) := by
  have hasked : ∀ rs : List Request, rs.length ≤ 2 →
      Exchange S device io (asked device io rs) (attemptRecord device io) := fun rs h => .asked rs h
  unfold aqAdiProvision
  refine Holds.bind (holds_adiRequest (fun _ => hasked [] (Nat.zero_le 2))
    fun _ q => hasked [q] (by simp)) fun lookup => holds_of fun _ => holds_exists fun a => ?_
  refine Holds.bind (holds_check (Q := fun _ s => s = ⟨attemptRecord device io, asked device io [a]⟩)
    (fun _ s hs => hs) fun _ s hs => hs ▸ hasked [a] (by simp)) fun _ => ?_
  refine Holds.bind (holds_adiRequest (fun _ => hasked [a] (by simp))
    fun _ q => hasked [q, a] le_rfl) fun reply => holds_of fun _ => holds_exists fun b => ?_
  refine Holds.bind (holds_orFail
    (Q := fun _ s => s = ⟨attemptRecord device io, asked device io [b, a]⟩)
    (fun _ _ s hs => hs) fun _ s hs => hs ▸ hasked [b, a] le_rfl) fun _ => ?_
  refine Holds.bind holds_adiNote fun _ => ?_
  refine Holds.tryFinally (commit_spec (a := a) (b := b)) ?_ fun e s hs => hs.cleanup
  rintro routing s ⟨hf, c, cpim, ptm, tk, hc, hp, rfl⟩
  refine ⟨hf, a, b, c, cpim, ptm, tk, hc, hp, ?_⟩
  unfold adiCleanup
  rw [hc]
  exact if_neg (by simp)

theorem otp_spec {routing : NSString} {s₀ : AdiState} {Q : Headers → AdiState → Prop}
    (hQ : ∀ h tail, (∀ x ∈ tail, x.IsBuffer) → Q h ⟨s₀.record, tail ++ s₀.log⟩)
    (hE : ∀ e tail, (∀ x ∈ tail, x.IsBuffer) → E e ⟨s₀.record, tail ++ s₀.log⟩) :
    Holds (fun s => s = s₀) (aqAdiOtp S io routing) Q E := by
  have hbuf : ∀ x ∈ (io.otp.map AdiObs.dispose).toList ++
      ((io.machine.map AdiObs.dispose).toList ++ [.otp]), x.IsBuffer := by
    intro x hx
    simp only [List.mem_append, Option.mem_toList, Option.map_eq_some_iff,
      List.mem_singleton] at hx
    rcases hx with ⟨d, -, rfl⟩ | ⟨d, -, rfl⟩ | rfl <;> trivial
  have hlog : Adi.disposed io.otp (Adi.disposed io.machine ⟨s₀.record, .otp :: s₀.log⟩) =
      ⟨s₀.record, ((io.otp.map AdiObs.dispose).toList ++
        ((io.machine.map AdiObs.dispose).toList ++ [.otp])) ++ s₀.log⟩ := by
    simp [Adi.disposed, List.append_assoc]
  unfold aqAdiOtp
  refine Holds.bind (Q := fun _ s => s = ⟨s₀.record, .otp :: s₀.log⟩)
    (holds_modify fun s hs => by rw [hs]) fun _ => ?_
  refine Holds.tryFinally (Q := fun _ s => s = ⟨s₀.record, .otp :: s₀.log⟩)
    (E := fun _ s => s = ⟨s₀.record, .otp :: s₀.log⟩) ?_ ?_ ?_
  · refine Holds.bind (holds_check (Q := fun _ s => s = _) (fun _ s hs => hs) fun _ s hs => hs) fun _ => ?_
    refine Holds.bind (holds_orFail (Q := fun _ s => s = _) (fun _ _ s hs => hs) fun _ s hs => hs)
      fun _ => ?_
    refine Holds.bind (holds_orFail (Q := fun _ s => s = _) (fun _ _ s hs => hs) fun _ s hs => hs)
      fun _ => ?_
    exact holds_pure fun s hs => hs
  · rintro h s rfl
    rw [hlog]
    exact hQ h _ hbuf
  · rintro e s rfl
    rw [hlog]
    exact hE e _ hbuf

/-- Where a routing is known, only buffers are added to the log. -/
def Routed (S : Services) (device : NSString) (io : AdiOutside) (r₀ : AdiRecord)
    (routing : Option NSString) (s : AdiState) : Prop :=
  Course S device io r₀ s.log s.record ∧ (routing.isSome →
    ∀ tail : List AdiObs, (∀ x ∈ tail, x.IsBuffer) → Course S device io r₀ (tail ++ s.log) s.record)

theorem route_spec {r₀ record : AdiRecord} (hr : record = if io.reads then r₀ else {}) :
    Holds (fun s => s = ⟨r₀, [.state io.state]⟩) (adiRoute S U io device record)
      (Routed S device io r₀) (fun _ s => Course S device io r₀ s.log s.record) := by
  have hkept : Course S device io r₀ [.state io.state] r₀ := .kept [] (by simp)
  unfold adiRoute
  by_cases hs : io.state = notProvisioned
  · rw [if_pos hs]
    refine Holds.bind (holds_check (Q := fun _ s => io.cooling record = false ∧ s = _)
      (fun hc s hs => ⟨by simpa using hc, hs⟩) fun _ s hs => hs ▸ hkept) fun _ =>
      holds_of fun hc => ?_
    rw [hr] at hc
    refine Holds.bind (holds_adiSave hkept) fun _ => holds_of fun hd => ?_
    refine Holds.bind (provision_spec.mono (fun s hs => hs) (fun a s hq => hq)
      fun e s he => .attempted hs hc hd he) fun routing => ?_
    refine holds_pure ?_
    rintro s ⟨hf, a, b, c, cpim, ptm, tk, hu, hp, rfl⟩
    have hfin : ∀ tail : List AdiObs, (∀ x ∈ tail, x.IsBuffer) → Course S device io r₀
        (tail ++ committed device io a b c [.dispose cpim] ptm tk routing)
        (routedRecord device io routing) := fun tail ht =>
      .attempted hs hc hd (.finished a b c [.dispose cpim] tail ptm tk routing
        (by simp [AdiObs.IsBuffer]) ht (AdiOutside.usable_start hu).1 hf hp)
    exact ⟨hfin [] (by simp), fun _ => hfin⟩
  · rw [if_neg hs]
    refine Holds.bind (holds_check (Q := fun _ s => s = _) (fun _ s hs => hs)
      fun _ s hs => hs ▸ hkept) fun _ => ?_
    refine holds_pure ?_
    rintro s rfl
    exact ⟨hkept, fun _ => .kept⟩

/-- **Every call takes one of the courses.** -/
theorem headers_course {r₀ : AdiRecord} : Holds (fun s => s = ⟨r₀, []⟩)
    (aqAdiHeaders S U io device) (fun _ s => Course S device io r₀ s.log s.record)
    (fun _ s => Course S device io r₀ s.log s.record) := by
  unfold aqAdiHeaders
  refine Holds.bind (Q := fun record s => record = (if io.reads then r₀ else {}) ∧ s = ⟨r₀, []⟩)
    ?_ fun record => holds_of fun hr => ?_
  · rintro s rfl
    refine ⟨fun a t h => ?_, fun e t h => ?_⟩
    · obtain ⟨ha, rfl⟩ := Prod.mk.inj h
      exact ⟨(Except.ok.inj ha).symm, rfl⟩
    · simp [aqAdiRead] at h
  refine Holds.bind holds_adiNote fun _ => ?_
  refine Holds.bind (route_spec hr) fun routing => ?_
  cases routing with
  | none =>
    exact Holds.bind (Q := fun _ _ => False) (holds_fail fun s hs => hs.1) fun _ _ hs => hs.elim
  | some routing =>
    refine Holds.bind (Q := fun _ s => ∀ tail : List AdiObs, (∀ x ∈ tail, x.IsBuffer) →
      Course S device io r₀ (tail ++ s.log) s.record) (holds_pure fun s hs => hs.2 rfl) fun _ => ?_
    intro s₀ hs
    exact otp_spec (fun _ tail ht => hs tail ht) (fun _ tail ht => hs tail ht) s₀ rfl

end Commit

end Spec

/-! ### Runs -/

/-- A call, with what it logged, newest first. -/
structure AdiCall where
  device : NSString
  io : AdiOutside
  /-- The record on the disk when it started. -/
  before : AdiRecord
  obs : List AdiObs

structure AdiRun where
  /-- What the file holds. -/
  record : AdiRecord
  /-- The calls so far, newest first. -/
  history : List AdiCall := []

namespace AdiObs

/-- The session is closed: finished with success, or destroyed. -/
def closes (session : UInt32) : AdiObs → Bool
  | .finish s _ _ status => s = session && status = 0
  | .destroy s => s = session
  | _ => false

/-- A provisioning request, start, finish or destroy. -/
def IsProvisioning : AdiObs → Prop
  | .sent _ | .start _ _ | .finish _ _ _ _ | .destroy _ => True
  | _ => False

end AdiObs

namespace AdiCall

/-- The date that an attempt of the call has in the record. -/
def recorded (c : AdiCall) : Time := (c.io.date.floor : Time)

/-- The call made an attempt: the date of one was saved. -/
def Attempted (c : AdiCall) : Prop := AdiObs.saved (attemptRecord c.device c.io) ∈ c.obs

/-- The call's `AQADI.finish` succeeded, for a reply with this routing. -/
def Finished (S : Services) (c : AdiCall) (routing : NSString) : Prop :=
  ∃ ptm tk, AdiObs.finish c.io.session ptm tk 0 ∈ c.obs ∧ Provisioned S c.io ptm tk routing

/-- Where the device is not provisioned, and the record has a date of the last 24 hours, and the next
date could be saved, the record is read. -/
def Readable (c : AdiCall) : Prop :=
  c.io.state = notProvisioned → c.io.cooling c.before = true → c.io.saves 0 = true →
    c.io.reads = true

/-- What a call may do. -/
structure Orderly (S : Services) (c : AdiCall) : Prop where
  /-- At most three requests are sent. -/
  bounded : c.obs.countP AdiObs.isSent ≤ 3
  /-- A request is sent after the attempt's date is saved. -/
  dated : ∀ later q past, c.obs = later ++ .sent q :: past →
    AdiObs.saved (attemptRecord c.device c.io) ∈ past
  /-- `AQADI.finish` is called when the last record saved names the device and has the valid routing
  that came with what it is given. -/
  committed : ∀ later session ptm tk status past,
    c.obs = later ++ .finish session ptm tk status :: past →
      ∃ routing rest, past = .saved (routedRecord c.device c.io routing) :: rest ∧
        aqAdiRouting (some (.string routing)) = some routing ∧ Provisioned S c.io ptm tk routing
  /-- A session that was started is closed once. -/
  closed : ∀ later session past, c.obs = later ++ .start 0 session :: past →
    later.countP (AdiObs.closes session) = 1
  /-- An attempt is made where the device is not provisioned. -/
  unprovisioned : c.Attempted → c.io.state = notProvisioned
  /-- Elsewhere nothing is provisioned. -/
  preserved : c.io.state ≠ notProvisioned → ∀ x ∈ c.obs, ¬ x.IsProvisioning

end AdiCall

/-! ### What the courses have in common -/

section Orderly

variable {S : Services} {device : NSString} {io : AdiOutside} {r₀ r : AdiRecord}
  {log buffers : List AdiObs} {rs : List Request}

theorem AdiObs.IsBuffer.not_isProvisioning {x : AdiObs} (h : x.IsBuffer) : ¬ x.IsProvisioning := by
  cases x <;> simp_all [AdiObs.IsBuffer, AdiObs.IsProvisioning]

/-- Buffers count for nothing. -/
theorem countP_buffers {p : AdiObs → Bool} (hb : ∀ x ∈ buffers, x.IsBuffer)
    (hp : ∀ x : AdiObs, x.IsBuffer → p x = false) : buffers.countP p = 0 :=
  List.countP_eq_zero.mpr fun x hx => by rw [hp x (hb x hx)]; exact Bool.false_ne_true

theorem isSent_buffer (x : AdiObs) (h : x.IsBuffer) : x.isSent = false := by
  cases x <;> first | rfl | exact h.elim

theorem closes_buffer (session : UInt32) (x : AdiObs) (h : x.IsBuffer) :
    x.closes session = false := by
  cases x <;> first | rfl | exact h.elim

theorem start_notMem_asked {status : ℤ} {session : UInt32} :
    AdiObs.start status session ∉ asked device io rs := by
  simp [asked]

theorem finish_notMem_asked {status : ℤ} {session : UInt32} {ptm tk : NSData} :
    AdiObs.finish session ptm tk status ∉ asked device io rs := by
  simp [asked]

theorem asked_suffix : [.saved (attemptRecord device io), .state io.state] <:+ asked device io rs :=
  List.suffix_append _ _

theorem begun_suffix {a b : Request} :
    [.saved (attemptRecord device io), .state io.state] <:+ begun device io a b :=
  asked_suffix.trans (List.suffix_cons _ _)

theorem committed_suffix {a b c : Request} {ptm tk : NSData} {routing : NSString} :
    begun device io a b <:+ committed device io a b c buffers ptm tk routing :=
  (((List.suffix_append _ _).trans (List.suffix_cons _ _)).trans (List.suffix_cons _ _)).trans
    (List.suffix_cons _ _)

/-- Every exchange is on top of the save of the attempt's date. -/
theorem Exchange.base (h : Exchange S device io log r) :
    [.saved (attemptRecord device io), .state io.state] <:+ log := by
  cases h with
  | asked rs h => exact asked_suffix
  | unstarted a b buffers hb h => exact begun_suffix.trans (List.suffix_append _ _)
  | broken a b third buffers hb h h3 =>
    exact ((begun_suffix.trans (List.suffix_append _ _)).trans (List.suffix_append _ _)).trans
      (List.suffix_cons _ _)
  | unfinished a b c buffers ptm tk routing hb h hf hp =>
    exact (begun_suffix.trans committed_suffix).trans (List.suffix_cons _ _)
  | finished a b c buffers tail ptm tk routing hb ht h hf hp =>
    exact (begun_suffix.trans committed_suffix).trans (List.suffix_append _ _)

theorem isSent_begun {a b : Request} : (begun device io a b).countP AdiObs.isSent = 2 := by
  rw [begun, List.countP_cons_of_neg (by simp [AdiObs.isSent]), isSent_asked]
  rfl

theorem isSent_committed {a b c : Request} {ptm tk : NSData} {routing : NSString}
    (hb : ∀ x ∈ buffers, x.IsBuffer) :
    (committed device io a b c buffers ptm tk routing).countP AdiObs.isSent = 3 := by
  rw [committed, List.countP_cons_of_neg (by simp [AdiObs.isSent]),
    List.countP_cons_of_neg (by simp [AdiObs.isSent]), List.countP_cons_of_pos rfl,
    List.countP_append, countP_buffers hb isSent_buffer, isSent_begun]

theorem Exchange.bounded (h : Exchange S device io log r) : log.countP AdiObs.isSent ≤ 3 := by
  cases h with
  | asked rs h =>
    rw [isSent_asked]
    omega
  | unstarted a b buffers hb h =>
    rw [List.countP_append, countP_buffers hb isSent_buffer, isSent_begun]
    omega
  | broken a b third buffers hb h h3 =>
    have hthird : (third.map AdiObs.sent).countP AdiObs.isSent ≤ third.length := by
      rw [← List.length_map AdiObs.sent]
      exact List.countP_le_length
    rw [List.countP_cons_of_neg (by simp [AdiObs.isSent]), List.countP_append, List.countP_append,
      countP_buffers hb isSent_buffer, isSent_begun]
    omega
  | unfinished a b c buffers ptm tk routing hb h hf hp =>
    rw [List.countP_cons_of_neg (by simp [AdiObs.isSent]), isSent_committed hb]
  | finished a b c buffers tail ptm tk routing hb ht h hf hp =>
    rw [List.countP_append, countP_buffers ht isSent_buffer, isSent_committed hb]

/-- A request is on top of the save of the attempt's date. -/
theorem Exchange.dated (h : Exchange S device io log r) {later past : List AdiObs} {q : Request}
    (hl : log = later ++ .sent q :: past) : AdiObs.saved (attemptRecord device io) ∈ past := by
  have hq : (.sent q :: past) <:+ log := hl ▸ List.suffix_append _ _
  rcases List.suffix_or_suffix_of_suffix h.base hq with hs | hs
  · rcases List.suffix_cons_iff.mp hs with heq | hs
    · simp at heq
    · exact hs.subset List.mem_cons_self
  · simpa using hs.subset List.mem_cons_self

theorem finish_notMem_begun {a b : Request} {status : ℤ} {session : UInt32} {ptm tk : NSData}
    (hb : ∀ x ∈ buffers, x.IsBuffer) :
    AdiObs.finish session ptm tk status ∉ buffers ++ begun device io a b := by
  intro hm
  rcases List.mem_append.mp hm with hm | hm
  · exact hb _ hm
  · rcases List.mem_cons.mp hm with hm | hm
    · simp at hm
    · exact finish_notMem_asked hm

/-- `AQADI.finish` is right on top of the save of the routing. -/
theorem committed_split {a b c : Request} {tail later past : List AdiObs} {ptm tk ptm' tk' : NSData}
    {routing : NSString} {session : UInt32} {status : ℤ} (hb : ∀ x ∈ buffers, x.IsBuffer)
    (ht : .finish session ptm' tk' status ∉ tail) (hp : Provisioned S io ptm tk routing)
    (hl : tail ++ committed device io a b c buffers ptm tk routing =
      later ++ .finish session ptm' tk' status :: past) :
    ∃ routing rest, past = .saved (routedRecord device io routing) :: rest ∧
      aqAdiRouting (some (.string routing)) = some routing ∧ Provisioned S io ptm' tk' routing := by
  have hrest : AdiObs.finish session ptm' tk' status ∉ .saved (routedRecord device io routing) ::
      .sent c :: (buffers ++ begun device io a b) := by
    simp only [List.mem_cons, reduceCtorEq, false_or]
    exact finish_notMem_begun hb
  obtain ⟨-, hx, rfl⟩ := (List.append_cons_inj_of_notMem ht hrest).mp hl
  obtain ⟨-, rfl, rfl, -⟩ := AdiObs.finish.inj hx
  obtain ⟨resp, result, hresp, hplist, hptm, htk, hrouting⟩ := id hp
  exact ⟨routing, _, rfl, aqAdiRouting_string hrouting, hp⟩

theorem Exchange.committed (h : Exchange S device io log r) {later past : List AdiObs}
    {session : UInt32} {ptm tk : NSData} {status : ℤ}
    (hl : log = later ++ .finish session ptm tk status :: past) :
    ∃ routing rest, past = .saved (routedRecord device io routing) :: rest ∧
      aqAdiRouting (some (.string routing)) = some routing ∧ Provisioned S io ptm tk routing := by
  have hm : AdiObs.finish session ptm tk status ∈ log := hl ▸ List.mem_append_right _ List.mem_cons_self
  cases h with
  | asked rs h => exact absurd hm finish_notMem_asked
  | unstarted a b buffers hb h => exact absurd hm (finish_notMem_begun hb)
  | broken a b third buffers hb h h3 =>
    simp only [List.mem_cons, reduceCtorEq, false_or, List.mem_append, List.mem_map, and_false,
      exists_false] at hm
    exact absurd (List.mem_append.mpr hm) (finish_notMem_begun hb)
  | unfinished a b c buffers ptm' tk' routing hb h hf hp =>
    have hnot : AdiObs.finish session ptm tk status ∉ [AdiObs.destroy io.session] := by simp
    exact committed_split hb hnot hp hl
  | finished a b c buffers tail ptm tk routing hb ht h hf hp =>
    exact committed_split hb (fun hm => ht _ hm) hp hl

theorem start_notMem_buffers {status : ℤ} {session : UInt32} (hb : ∀ x ∈ buffers, x.IsBuffer) :
    AdiObs.start status session ∉ buffers := fun hm => hb _ hm

/-- What is on top of a start is what closes its session. -/
theorem begun_split {a b : Request} (pre : List AdiObs) {later past : List AdiObs} {session : UInt32}
    (hpre : ∀ status session, AdiObs.start status session ∉ pre)
    (hl : pre ++ begun device io a b = later ++ .start 0 session :: past) :
    later = pre ∧ session = io.session ∧ io.startStatus = 0 := by
  obtain ⟨rfl, hx, -⟩ := (List.append_cons_inj_of_notMem (hpre 0 session) start_notMem_asked).mp hl
  obtain ⟨h0, hs⟩ := AdiObs.start.inj hx
  exact ⟨rfl, hs.symm, h0⟩

theorem Exchange.closed (h : Exchange S device io log r) {later past : List AdiObs}
    {session : UInt32} (hl : log = later ++ .start 0 session :: past) :
    later.countP (AdiObs.closes session) = 1 := by
  cases h with
  | asked rs h =>
    exact absurd (hl ▸ List.mem_append_right _ List.mem_cons_self) start_notMem_asked
  | unstarted a b buffers hb h =>
    exact absurd (begun_split buffers (fun _ _ => start_notMem_buffers hb) hl).2.2 h
  | broken a b third buffers hb h h3 =>
    obtain ⟨rfl, rfl, -⟩ := begun_split (.destroy io.session ::
      (third.map AdiObs.sent ++ buffers)) (by simp [start_notMem_buffers hb]) (by simpa using hl)
    have hthird : (third.map AdiObs.sent).countP (AdiObs.closes io.session) = 0 := by
      rw [List.countP_map]
      exact List.countP_eq_zero.mpr fun _ _ => Bool.false_ne_true
    rw [List.countP_cons_of_pos (by simp [AdiObs.closes]), List.countP_append, hthird,
      countP_buffers hb (closes_buffer _)]
  | unfinished a b c buffers ptm tk routing hb h hf hp =>
    obtain ⟨rfl, rfl, -⟩ := begun_split (.destroy io.session ::
      .finish io.session ptm tk io.finishStatus :: .saved (routedRecord device io routing) ::
        .sent c :: buffers) (by simp [start_notMem_buffers hb]) hl
    rw [List.countP_cons_of_pos (by simp [AdiObs.closes]),
      List.countP_cons_of_neg (by simp [AdiObs.closes, hf]),
      List.countP_cons_of_neg (by simp [AdiObs.closes]),
      List.countP_cons_of_neg (by simp [AdiObs.closes]), countP_buffers hb (closes_buffer _)]
  | finished a b c buffers tail ptm tk routing hb ht h hf hp =>
    obtain ⟨rfl, rfl, -⟩ := begun_split (tail ++
      (.finish io.session ptm tk io.finishStatus :: .saved (routedRecord device io routing) ::
        .sent c :: buffers)) (by simp [start_notMem_buffers hb, start_notMem_buffers ht])
      (by simpa [AquaTransport.committed] using hl)
    rw [List.countP_append, countP_buffers ht (closes_buffer _),
      List.countP_cons_of_pos (by simp [AdiObs.closes, hf]),
      List.countP_cons_of_neg (by simp [AdiObs.closes]),
      List.countP_cons_of_neg (by simp [AdiObs.closes]), countP_buffers hb (closes_buffer _)]

/-- The log of a call without an attempt. -/
theorem kept_mem {tail : List AdiObs} (ht : ∀ x ∈ tail, x.IsBuffer) {x : AdiObs}
    (hx : x ∈ tail ++ [.state io.state]) : x.IsBuffer ∨ x = .state io.state := by
  rcases List.mem_append.mp hx with hx | hx
  · exact Or.inl (ht x hx)
  · exact Or.inr (List.mem_singleton.mp hx)

/-- **Every course is orderly.** -/
theorem Course.orderly (h : Course S device io r₀ log r) :
    AdiCall.Orderly S ⟨device, io, r₀, log⟩ := by
  cases h with
  | kept tail ht =>
    have hmem := fun x (hx : x ∈ tail ++ [AdiObs.state io.state]) => kept_mem ht hx
    have hno : ∀ x : AdiObs, x ∈ tail ++ [AdiObs.state io.state] → ¬ x.IsProvisioning := by
      intro x hx
      rcases hmem x hx with hb | rfl
      · exact hb.not_isProvisioning
      · exact id
    have hsplit : ∀ later x past, tail ++ [AdiObs.state io.state] = later ++ x :: past →
        ¬ x.IsProvisioning := fun later x past hl =>
      hno x (hl ▸ List.mem_append_right _ List.mem_cons_self)
    refine ⟨?_, ?_, ?_, ?_, ?_, fun _ => hno⟩
    · show List.countP AdiObs.isSent (tail ++ [.state io.state]) ≤ 3
      rw [List.countP_append, countP_buffers ht isSent_buffer]
      exact Nat.zero_le 3
    · exact fun later q past hl => absurd trivial (hsplit later (.sent q) past hl)
    · exact fun later session ptm tk status past hl =>
        absurd trivial (hsplit later (.finish session ptm tk status) past hl)
    · exact fun later session past hl => absurd trivial (hsplit later (.start 0 session) past hl)
    · intro ha
      rcases hmem _ ha with hb | hx
      · exact hb.elim
      · simp at hx
  | attempted hs hc hd h =>
    exact ⟨h.bounded, fun _ _ _ => h.dated, fun _ _ _ _ _ _ => h.committed, fun _ _ _ => h.closed,
      fun _ => hs, fun hne => absurd hs hne⟩

theorem Exchange.attempted (h : Exchange S device io log r) :
    AdiCall.Attempted ⟨device, io, r₀, log⟩ :=
  h.base.subset List.mem_cons_self

/-- The date stays in the record. -/
theorem Exchange.lastAttempt (h : Exchange S device io log r) :
    r.lastAttempt = some (io.date.floor : Time) := by
  cases h <;> rfl

/-- A call without an attempt leaves the record as it was. -/
theorem Course.record (h : Course S device io r₀ log r) :
    r = r₀ ∧ ¬ AdiCall.Attempted ⟨device, io, r₀, log⟩ ∨
      io.state = notProvisioned ∧ io.cooling (if io.reads then r₀ else {}) = false ∧
        io.saves 0 = true ∧ Exchange S device io log r := by
  cases h with
  | kept tail ht =>
    refine Or.inl ⟨rfl, fun ha => ?_⟩
    rcases kept_mem ht ha with hb | hx
    · exact hb
    · simp at hx
  | attempted hs hc hd h => exact Or.inr ⟨hs, hc, hd, h⟩

/-- The reply has one routing. -/
theorem Provisioned.unique {ptm tk ptm' tk' : NSData} {routing routing' : NSString}
    (h : Provisioned S io ptm tk routing) (h' : Provisioned S io ptm' tk' routing') :
    routing = routing' := by
  obtain ⟨resp, result, hresp, hplist, -, -, hrouting⟩ := h
  obtain ⟨resp', result', hresp', hplist', -, -, hrouting'⟩ := h'
  obtain rfl : resp = resp' := Except.ok.inj (hresp.symm.trans hresp')
  obtain rfl : result = result' := Option.some.inj (hplist.symm.trans hplist')
  exact Option.some.inj (hrouting.symm.trans hrouting')

/-- When `AQADI.finish` has succeeded, its routing is on the disk. -/
theorem Exchange.routed (h : Exchange S device io log r) {routing : NSString}
    (hf : AdiCall.Finished S ⟨device, io, r₀, log⟩ routing) : r = routedRecord device io routing := by
  obtain ⟨ptm, tk, hm, hp⟩ := hf
  obtain ⟨later, past, hl⟩ := List.append_of_mem hm
  cases h with
  | asked rs h => exact absurd hm finish_notMem_asked
  | unstarted a b buffers hb h => exact absurd hm (finish_notMem_begun hb)
  | broken a b third buffers hb h h3 =>
    simp only [List.mem_cons, reduceCtorEq, false_or, List.mem_append, List.mem_map, and_false,
      exists_false] at hm
    exact absurd (List.mem_append.mpr hm) (finish_notMem_begun hb)
  | unfinished a b c buffers ptm' tk' routing' hb h hf hp' => rw [hp.unique hp']
  | finished a b c buffers tail ptm' tk' routing' hb ht h hf hp' => rw [hp.unique hp']

theorem Course.routed (h : Course S device io r₀ log r) {routing : NSString}
    (hf : AdiCall.Finished S ⟨device, io, r₀, log⟩ routing) : r = routedRecord device io routing := by
  cases h with
  | kept tail ht =>
    obtain ⟨ptm, tk, hm, -⟩ := hf
    rcases kept_mem ht hm with hb | hx
    · exact hb.elim
    · simp at hx
  | attempted hs hc hd h => exact h.routed hf

end Orderly

section Runs

variable (S : Services) (U : NSString → Option NSURL)

/-- The call for a device, with these answers. -/
def AdiRun.call (s : AdiRun) (device : NSString) (io : AdiOutside) : AdiRun :=
  let t := (aqAdiHeaders S U io device ⟨s.record, []⟩).2
  { record := t.record, history := ⟨device, io, s.record, t.log⟩ :: s.history }

/-- A call under the lock, on a clock that does not go back. -/
def AdiRun.Next (s : AdiRun) (e : NSString × AdiOutside) (t : AdiRun) : Prop :=
  t = s.call S U e.1 e.2 ∧ e.2.now ≤ e.2.date ∧ ∀ c ∈ s.history, c.io.date ≤ e.2.now

/-- What a history of calls may be, over the record that it ends with. -/
structure Provisioning (s : AdiRun) : Prop where
  orderly : ∀ c ∈ s.history, c.Orderly S
  /-- Attempts are 24 hours apart. -/
  spaced : ∀ later c past, s.history = later ++ c :: past → c.Attempted →
    ∀ p ∈ past, p.Attempted → p.recorded + 86400 ≤ c.io.now
  /-- Until another attempt, the record has the routing of the native state. -/
  routed : ∀ later c past routing, s.history = later ++ c :: past → c.Finished S routing →
    (∀ d ∈ later, ¬ d.Attempted) → s.record = routedRecord c.device c.io routing

variable {S U} {s t : AdiRun} {device : NSString} {io : AdiOutside}

theorem AdiRun.call_course : Course S device io s.record
    (aqAdiHeaders S U io device ⟨s.record, []⟩).2.log
    (aqAdiHeaders S U io device ⟨s.record, []⟩).2.record := by
  have hholds : Program.Holds (fun t => t = ⟨s.record, []⟩) (aqAdiHeaders S U io device)
      (fun _ t => Course S device io s.record t.log t.record)
      (fun _ t => Course S device io s.record t.log t.record) := headers_course
  obtain ⟨hok, herr⟩ := hholds _ rfl
  rcases h : aqAdiHeaders S U io device ⟨s.record, []⟩ with ⟨e | a, t⟩
  · exact herr e t h
  · exact hok a t h

/-- What is so at every time: the record has a date that is no earlier than that of any attempt. -/
structure AdiRun.Ok (S : Services) (s : AdiRun) : Prop extends Provisioning S s where
  dates : ∀ c ∈ s.history, c.Attempted → ∃ d, s.record.lastAttempt = some d ∧ c.recorded ≤ d

theorem AdiOutside.not_cooling {r : AdiRecord} {d : Time} (h : io.cooling r = false)
    (hd : r.lastAttempt = some d) : d + 86400 ≤ io.now := by
  unfold AdiOutside.cooling at h
  rw [hd] at h
  have : ¬ -86400 < d - io.now := by simpa using h
  linarith

theorem AdiRun.Ok.spaced_call (h : s.Ok S) {log : List AdiObs} {r : AdiRecord}
    (hcourse : Course S device io s.record log r)
    (hread : AdiCall.Readable ⟨device, io, s.record, log⟩)
    (ha : AdiCall.Attempted ⟨device, io, s.record, log⟩) {p : AdiCall} (hp : p ∈ s.history)
    (hpa : p.Attempted) : p.recorded + 86400 ≤ io.now := by
  rcases hcourse.record with ⟨-, hno⟩ | ⟨hs, hc, hd, -⟩
  · exact absurd ha hno
  have hcool : io.cooling s.record = false := by
    by_contra hcool
    rw [Bool.not_eq_false] at hcool
    rw [if_pos (hread hs hcool hd)] at hc
    simp [hcool] at hc
  obtain ⟨d, hd, hle⟩ := h.dates p hp hpa
  have := AdiOutside.not_cooling hcool hd
  linarith

theorem AdiRun.Ok.dates_call (h : s.Ok S) {log : List AdiObs} {r : AdiRecord}
    (hcourse : Course S device io s.record log r) (hclock : io.now ≤ io.date)
    (hpast : ∀ c ∈ s.history, c.io.date ≤ io.now) :
    ∀ c ∈ ⟨device, io, s.record, log⟩ :: s.history, c.Attempted →
      ∃ d, r.lastAttempt = some d ∧ c.recorded ≤ d := by
  rcases hcourse.record with ⟨rfl, hno⟩ | ⟨-, -, -, hex⟩
  · rintro c hc hca
    rcases List.mem_cons.mp hc with rfl | hc
    · exact absurd hca hno
    · exact h.dates c hc hca
  · rintro c hc -
    refine ⟨_, hex.lastAttempt, ?_⟩
    rcases List.mem_cons.mp hc with rfl | hc
    · exact le_rfl
    · exact Rat.intCast_le_intCast.mpr (Rat.floor_monotone ((hpast c hc).trans hclock))

theorem AdiRun.Ok.routed_call (h : s.Ok S) {log : List AdiObs} {r : AdiRecord}
    (hcourse : Course S device io s.record log r) : ∀ later c past routing,
    ⟨device, io, s.record, log⟩ :: s.history = later ++ c :: past → c.Finished S routing →
      (∀ d ∈ later, ¬ d.Attempted) → r = routedRecord c.device c.io routing := by
  intro later c past routing he hf hl
  cases later with
  | nil =>
    obtain ⟨rfl, -⟩ := List.cons_eq_cons.mp he
    exact hcourse.routed hf
  | cons d later =>
    obtain ⟨rfl, hpast⟩ := List.cons_eq_cons.mp he
    rw [List.forall_mem_cons] at hl
    rcases hcourse.record with ⟨rfl, -⟩ | ⟨-, -, -, hex⟩
    · exact h.routed later c past routing hpast hf hl.2
    · exact absurd hex.attempted hl.1

/-- **Every call keeps the order.** -/
theorem AdiRun.Ok.call (h : s.Ok S) (hn : s.Next S U (device, io) t)
    (hread : ∀ c ∈ t.history, c.Readable) : t.Ok S := by
  obtain ⟨rfl, hclock, hpast⟩ := hn
  have hcourse : Course S device io s.record _ _ := AdiRun.call_course (U := U)
  refine ⟨⟨?_, ?_, h.routed_call hcourse⟩, h.dates_call hcourse hclock hpast⟩
  · exact List.forall_mem_cons.mpr ⟨hcourse.orderly, h.orderly⟩
  · intro later c past he hc p hp hpa
    cases later with
    | nil =>
      obtain ⟨rfl, rfl⟩ := List.cons_eq_cons.mp he
      exact h.spaced_call hcourse (hread _ List.mem_cons_self) hc hp hpa
    | cons d later => exact h.spaced later c past (List.cons_eq_cons.mp he).2 hc p hp hpa

/-- Calls are only added to the history. -/
theorem AdiRun.history_mem {evs : List (NSString × AdiOutside)} {c : AdiCall}
    (h : Path (AdiRun.Next S U) s evs t) (hc : c ∈ s.history) : c ∈ t.history := by
  induction h with
  | nil _ => exact hc
  | cons h1 _ ih =>
    obtain ⟨rfl, -⟩ := h1
    exact ih (List.mem_cons_of_mem _ hc)

/-- **Device provisioning is bounded and keeps its record**, when no read of the record fails that
the 24 hours depend on. -/
theorem adi_provisioning {r₀ : AdiRecord} {evs : List (NSString × AdiOutside)}
    (h : Path (AdiRun.Next S U) ⟨r₀, []⟩ evs t) (hread : ∀ c ∈ t.history, c.Readable) :
    Provisioning S t := by
  suffices hok : t.Ok S from hok.toProvisioning
  have h₀ : AdiRun.Ok S ⟨r₀, []⟩ := ⟨⟨by simp, by simp, by simp⟩, by simp⟩
  generalize (⟨r₀, []⟩ : AdiRun) = s at h h₀
  induction h with
  | nil _ => exact h₀
  | cons h1 h2 ih =>
    exact ih hread (h₀.call h1 fun c hc => hread c (AdiRun.history_mem h2 hc))

end Runs

/-! ### An attempt that comes through, and two that are a minute apart -/

/-- Services that know the property lists of Apple's three replies by their bytes. -/
def adiServices : Services :=
  { sampleServices with
    plist := fun d => match d with
      | [1] => some (.dict [(str "urls", .dict
          [(str "midStartProvisioning", .string (str "https://gsa.apple.com/grandslam/start")),
            (str "midFinishProvisioning", .string (str "https://gsa.apple.com/grandslam/finish"))])])
      | [2] => some (.dict [(str "Response", .dict [(str "spim", .string (str "QUFB"))])])
      | [3] => some (.dict [(str "Response", .dict [(str "ptm", .string (str "QUFB")),
          (str "tk", .string (str "QUFB")), (str "X-Apple-I-MD-RINFO", .string (str "17106176"))])])
      | _ => none
    encode64 := fun d => if d = [65, 65, 65] then str "QUFB" else str "ZA=="
    decode64 := fun _ => some [65, 65, 65] }

/-- `URLWithString:`, of a path at `https://gsa.apple.com`. -/
def gsaUrl (s : NSString) : Option NSURL :=
  if hasPrefix s (str "https://gsa.apple.com/") then
    some { absoluteString := s
           scheme := some (str "https")
           user := none
           password := none
           host := some (str "gsa.apple.com")
           port := none
           path := s.drop 21
           query := none
           fragment := none }
  else none

/-- The device is not provisioned, at time 0, and Apple answers. -/
def answered : AdiOutside where
  state := notProvisioned
  now := 0
  date := 0
  reply := fun n => .ok ⟨200, [UInt8.ofNat (n + 1)]⟩
  cpim := some [65, 65, 65]
  session := 7
  machine := some [1]
  otp := some [2]

/-- A minute later it is. -/
def provisioned : AdiOutside := { answered with state := 0, now := 60, date := 60 }

/-- The device is not provisioned, and cannot reach Apple. -/
def offline : AdiOutside :=
  { answered with reply := fun _ => .error (adiError 19 "Authentication cancelled or timed out.") }

/-- A minute later the record cannot be read. -/
def unread : AdiOutside := { offline with reads := false, now := 60, date := 60 }

def firstRun (io : AdiOutside) : AdiRun := AdiRun.call adiServices gsaUrl ⟨{}, []⟩ (str "d") io

def secondRun (io io' : AdiOutside) : AdiRun :=
  AdiRun.call adiServices gsaUrl (firstRun io) (str "d") io'

theorem secondRun_path {io io' : AdiOutside} (h : io.now ≤ io.date) (h' : io'.now ≤ io'.date)
    (hd : io.date ≤ io'.now) : Path (AdiRun.Next adiServices gsaUrl) ⟨{}, []⟩
      [(str "d", io), (str "d", io')] (secondRun io io') := by
  refine .cons ⟨rfl, h, by simp⟩ (.cons ⟨rfl, h', fun c hc => ?_⟩ (.nil _))
  obtain rfl := List.mem_singleton.mp hc
  exact hd

theorem adi_provisioning_freshRun : Provisioning adiServices (secondRun answered provisioned) ∧
    (secondRun answered provisioned).history.map (fun c => c.obs.countP AdiObs.isSent) = [0, 3] ∧
      aqAdiRouting (secondRun answered provisioned).record.routing = some (str "17106176") := by
  refine ⟨adi_provisioning (secondRun_path le_rfl le_rfl (by decide)) fun c hc _ _ _ => ?_,
    by decide, by decide⟩
  rcases List.mem_cons.mp hc with rfl | hc
  · rfl
  · obtain rfl := List.mem_singleton.mp hc
    rfl

/-- A call that saved something made an attempt. -/
theorem Course.attempted_of_saved {S : Services} {device : NSString} {io : AdiOutside}
    {r₀ r : AdiRecord} {log : List AdiObs} (h : Course S device io r₀ log r)
    (hs : log.countP AdiObs.isSaved ≠ 0) : AdiCall.Attempted ⟨device, io, r₀, log⟩ := by
  cases h with
  | kept tail ht =>
    refine absurd (List.countP_eq_zero.mpr fun x hx => ?_) hs
    rcases kept_mem ht hx with hb | rfl
    · cases x <;> first | exact hb.elim | exact Bool.false_ne_true
    · exact Bool.false_ne_true
  | attempted _ _ _ h => exact h.attempted

/-- **The 24 hours are lost with a read that fails.** -/
theorem adi_provisioning_unread : Path (AdiRun.Next adiServices gsaUrl) ⟨{}, []⟩
      [(str "d", offline), (str "d", unread)] (secondRun offline unread) ∧
    ¬ Provisioning adiServices (secondRun offline unread) := by
  refine ⟨secondRun_path le_rfl le_rfl (by decide), fun h => ?_⟩
  have hc : Course adiServices (str "d") unread (firstRun offline).record _ _ :=
    AdiRun.call_course (U := gsaUrl)
  have hp : Course adiServices (str "d") offline {} _ _ :=
    AdiRun.call_course (U := gsaUrl) (s := ⟨{}, []⟩)
  have hspaced := h.spaced [] _ _ rfl (hc.attempted_of_saved (by decide)) _
    List.mem_cons_self (hp.attempted_of_saved (by decide))
  have : ¬ (0 : Time).floor + 86400 ≤ (60 : Time) := by decide +kernel
  exact this hspaced

end AquaTransport
