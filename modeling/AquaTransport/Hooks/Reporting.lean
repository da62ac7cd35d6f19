import AquaTransport.Hooks.StateMachine
import Mathlib.Data.Finset.Max

/-!
# AquaTransport.Hooks.Reporting — what a connection says it has negotiated

The application is told what its native context is configured for, never what is on the wire.
`captureReporting` asks the native context once for each SSL object; `Frozen` is that the shadow still
has what it got then, through every native setter and every later entry (`Context.frozen_step`).
`report_exact` says what that is: the highest version enabled, and the first enabled suite that fits it.
-/

namespace AquaTransport

/-! ### The native context -/

def errSSLNegotiation : OSStatus := -9801
def errSecAllocate : OSStatus := -108

/-- The versions that a native context can enable, DTLS apart. -/
inductive SSLProtocol
  | ssl2
  | ssl3
  | tls1
  | tls11
  | tls12
  deriving DecidableEq

def kSSLProtocolUnknown : ℕ := 0

/-- The number of a version.  The last two are not in the headers. -/
def SSLProtocol.code : SSLProtocol → ℕ
  | .ssl2 => 1
  | .ssl3 => 2
  | .tls1 => 4
  | .tls11 => 7
  | .tls12 => 8

/-- A later version has a greater number. -/
instance : LinearOrder SSLProtocol :=
  LinearOrder.lift' SSLProtocol.code fun p q h => by cases p <;> cases q <;> simp_all [SSLProtocol.code]

/-- The answers of Security's getters for a context.  Before 10.8 there are none for the range of
versions. -/
structure Getters where
  protocolMin : Option (OSStatus × ℕ)
  protocolMax : Option (OSStatus × ℕ)
  protocolVersionEnabled : ℕ → OSStatus × Bool
  numberEnabledCiphers : OSStatus × ℕ
  enabledCiphers : OSStatus × List ℕ

/-- The versions asked for one by one, from the highest on. -/
def firstEnabled (G : Getters) : List ℕ → OSStatus × ℕ
  | [] => (errSSLNegotiation, kSSLProtocolUnknown)
  | v :: vs =>
    if (G.protocolVersionEnabled v).1 ≠ noErr then
      ((G.protocolVersionEnabled v).1, kSSLProtocolUnknown)
    else if (G.protocolVersionEnabled v).2 then (noErr, v)
    else firstEnabled G vs

/-- `reporting_protocol`: the status and `*protocol`. -/
def reportingProtocol (G : Getters) : OSStatus × ℕ :=
  match G.protocolMin, G.protocolMax with
  | some (r, lo), some (r', hi) =>
    if r ≠ noErr then (r, kSSLProtocolUnknown)
    else if r' ≠ noErr then (r', kSSLProtocolUnknown)
    else if hi < lo ∨ hi ≠ 2 ∧ hi ≠ 4 ∧ hi ≠ 7 ∧ hi ≠ 8 then (errSSLNegotiation, kSSLProtocolUnknown)
    else (noErr, hi)
  | _, _ => firstEnabled G [4, 2, 1]

/-- `reporting_cipher_fits`. -/
def reportingCipherFits (cipher protocol : ℕ) : Bool :=
  if cipher = 0 ∨ cipher = 0x00ff ∨ cipher = 0xffff then false
  else if protocol = 1 then
    cipher = 0x0003 || cipher = 0x0004 || cipher = 0x0006 || (0xff80 ≤ cipher && cipher ≤ 0xff83)
  else if 0xff00 ≤ cipher then false
  else if 0x003b ≤ cipher ∧ cipher ≤ 0x0040 ∨ 0x0067 ≤ cipher ∧ cipher ≤ 0x006d ∨
      0x009c ≤ cipher ∧ cipher ≤ 0x00ad ∨ 0xc023 ≤ cipher ∧ cipher ≤ 0xc032 then
    protocol = 8
  else if 0xc000 ≤ cipher ∨ 0x002c ≤ cipher ∧ cipher ≤ 0x002e ∨ 0x008a ≤ cipher ∧ cipher ≤ 0x00b9 then
    4 ≤ protocol
  else true

/-- As many suites as `size_t` can count the bytes of. -/
def maxCiphers : ℕ := (2 ^ 64 - 1) / 4

/-- `reporting_cipher`: the status and `*cipher`.  `alloc` is whether `malloc` delivers. -/
def reportingCipher (alloc : Bool) (G : Getters) (protocol : ℕ) : OSStatus × ℕ :=
  if G.numberEnabledCiphers.1 ≠ noErr then (G.numberEnabledCiphers.1, 0)
  else if G.numberEnabledCiphers.2 = 0 then (errSSLNegotiation, 0)
  else if maxCiphers < G.numberEnabledCiphers.2 ∨ alloc = false then (errSecAllocate, 0)
  else if G.enabledCiphers.1 ≠ noErr then (G.enabledCiphers.1, 0)
  else
    match G.enabledCiphers.2.find? fun cipher => reportingCipherFits cipher protocol with
    | some cipher => (noErr, cipher)
    | none => (errSSLNegotiation, 0)

/-- `capture_reporting`. -/
def captureReporting (alloc : Bool) (G : Getters) : Reported :=
  { protocol := (reportingProtocol G).2
    protocolStatus := (reportingProtocol G).1
    cipher := if (reportingProtocol G).1 = noErr then
      (reportingCipher alloc G (reportingProtocol G).2).2 else 0
    cipherStatus := if (reportingProtocol G).1 = noErr then
      (reportingCipher alloc G (reportingProtocol G).2).1 else (reportingProtocol G).1 }

/-- `my_SSLGetNegotiatedProtocolVersion` with a place for the answer: the status and what is written.
`none` is the native stack's answer. -/
def mySSLGetNegotiatedProtocolVersion (s : Shadow) : Option (OSStatus × ℕ) :=
  if s.state = .connected ∨ s.state = .peerAuth then
    some (s.reported.protocolStatus, s.reported.protocol)
  else none

/-- `my_SSLGetNegotiatedCipher` with a place for the answer. -/
def mySSLGetNegotiatedCipher (s : Shadow) : Option (OSStatus × ℕ) :=
  if s.state = .connected ∨ s.state = .peerAuth then some (s.reported.cipherStatus, s.reported.cipher)
  else none

/-! ### A configuration -/

/-- What a native context is configured for: the versions enabled and the suites enabled, in order.
TLS 1.1 and 1.2 came with the getters of the range, in 10.8. -/
structure NativeConfig where
  ranged : Bool
  enabled : Finset SSLProtocol
  ciphers : List ℕ
  known : ranged = false → ∀ p ∈ enabled, p ≤ .tls1
  room : ciphers.length ≤ maxCiphers

/-- The getters succeed and say what the configuration is. -/
def NativeConfig.getters (N : NativeConfig) : Getters where
  protocolMin :=
    if N.ranged then some (if h : N.enabled.Nonempty then (noErr, (N.enabled.min' h).code)
      else (noErr, kSSLProtocolUnknown))
    else none
  protocolMax :=
    if N.ranged then some (if h : N.enabled.Nonempty then (noErr, (N.enabled.max' h).code)
      else (noErr, kSSLProtocolUnknown))
    else none
  protocolVersionEnabled v := (noErr, decide (∃ p ∈ N.enabled, p.code = v))
  numberEnabledCiphers := (noErr, N.ciphers.length)
  enabledCiphers := (noErr, N.ciphers)

variable {N : NativeConfig}

/-- A version above SSL 2 is enabled. -/
def NativeConfig.Usable (N : NativeConfig) : Prop := ∃ p ∈ N.enabled, p ≠ .ssl2

theorem SSLProtocol.code_inj {p q : SSLProtocol} (h : p.code = q.code) : p = q := by
  cases p <;> cases q <;> simp_all [SSLProtocol.code]

theorem SSLProtocol.le_iff {p q : SSLProtocol} : p ≤ q ↔ p.code ≤ q.code := Iff.rfl

theorem SSLProtocol.reportable {p q : SSLProtocol} (hq : q ≠ .ssl2) (h : q ≤ p) :
    p.code = 2 ∨ p.code = 4 ∨ p.code = 7 ∨ p.code = 8 := by
  rw [SSLProtocol.le_iff] at h
  cases p <;> cases q <;> simp_all [SSLProtocol.code]

/-- The version asked for is enabled. -/
theorem enabled_iff (p : SSLProtocol) :
    (N.getters.protocolVersionEnabled p.code).2 = true ↔ p ∈ N.enabled := by
  show decide (∃ q ∈ N.enabled, q.code = p.code) = true ↔ _
  rw [decide_eq_true_iff]
  constructor
  · rintro ⟨q, hq, hcode⟩
    exact SSLProtocol.code_inj hcode ▸ hq
  · exact fun h => ⟨p, h, rfl⟩

/-- **The version reported is the highest one enabled.** -/
theorem reportingProtocol_usable (h : N.Usable) :
    ∃ p, IsGreatest (N.enabled : Set SSLProtocol) p ∧ reportingProtocol N.getters = (noErr, p.code) := by
  obtain ⟨q, hq, hne⟩ := h
  have hN : N.enabled.Nonempty := ⟨q, hq⟩
  cases hr : N.ranged with
  | true =>
    refine ⟨N.enabled.max' hN, N.enabled.isGreatest_max' hN, ?_⟩
    have hle : (N.enabled.min' hN).code ≤ (N.enabled.max' hN).code :=
      SSLProtocol.le_iff.mp (N.enabled.min'_le_max' hN)
    have hhi := SSLProtocol.reportable hne (N.enabled.le_max' q hq)
    have hmin : N.getters.protocolMin = some (noErr, (N.enabled.min' hN).code) := by
      simp [NativeConfig.getters, hr, hN]
    have hmax : N.getters.protocolMax = some (noErr, (N.enabled.max' hN).code) := by
      simp [NativeConfig.getters, hr, hN]
    unfold reportingProtocol
    rw [hmin, hmax]
    dsimp only
    rw [if_neg (by simp), if_neg (by simp), if_neg (by omega)]
  | false =>
    have hmin : N.getters.protocolMin = none := by simp [NativeConfig.getters, hr]
    have hasked : ∀ v, (N.getters.protocolVersionEnabled v).1 = noErr := fun _ => rfl
    have htls : reportingProtocol N.getters =
        if (N.getters.protocolVersionEnabled SSLProtocol.tls1.code).2 then (noErr, 4)
        else if (N.getters.protocolVersionEnabled SSLProtocol.ssl3.code).2 then (noErr, 2)
        else firstEnabled N.getters [1] := by
      unfold reportingProtocol
      rw [hmin]
      simp only [firstEnabled, hasked, ne_eq, not_true_eq_false, if_false, SSLProtocol.code]
    rw [htls]
    by_cases h1 : SSLProtocol.tls1 ∈ N.enabled
    · rw [if_pos ((enabled_iff _).mpr h1)]
      exact ⟨.tls1, ⟨h1, fun p hp => N.known hr p hp⟩, rfl⟩
    · -- SSL 3 is what is left
      have hssl3 : ∀ p ∈ N.enabled, p = .ssl2 ∨ p = .ssl3 := by
        intro p hp
        have hle := SSLProtocol.le_iff.mp (N.known hr p hp)
        cases p with
        | ssl2 => exact Or.inl rfl
        | ssl3 => exact Or.inr rfl
        | tls1 => exact absurd hp h1
        | tls11 | tls12 => simp [SSLProtocol.code] at hle
      have h3 : SSLProtocol.ssl3 ∈ N.enabled := (hssl3 q hq).resolve_left hne ▸ hq
      rw [if_neg (mt (enabled_iff _).mp h1), if_pos ((enabled_iff _).mpr h3)]
      refine ⟨.ssl3, ⟨h3, fun p hp => ?_⟩, rfl⟩
      rcases hssl3 p hp with rfl | rfl
      · exact SSLProtocol.le_iff.mpr (by decide)
      · exact le_rfl

/-- **The suite reported is the first that fits.** -/
theorem reportingCipher_eq (N : NativeConfig) (protocol : ℕ) :
    reportingCipher true N.getters protocol =
      match N.ciphers.find? fun cipher => reportingCipherFits cipher protocol with
      | some cipher => (noErr, cipher)
      | none => (errSSLNegotiation, 0) := by
  have hcount : N.getters.numberEnabledCiphers = (noErr, N.ciphers.length) := rfl
  have hlist : N.getters.enabledCiphers = (noErr, N.ciphers) := rfl
  unfold reportingCipher
  rw [hcount, hlist]
  dsimp only
  rw [if_neg (by simp)]
  by_cases h0 : N.ciphers.length = 0
  · rw [if_pos h0, List.length_eq_zero_iff.mp h0]
    rfl
  · rw [if_neg h0, if_neg (by have := N.room; simp; omega), if_neg (by simp)]

/-- No suite comes with an error exactly when none fits. -/
theorem reportingCipher_zero (N : NativeConfig) (protocol : ℕ) :
    (∃ status, reportingCipher true N.getters protocol = (status, 0) ∧ status ≠ noErr) ↔
      ∀ d ∈ N.ciphers, reportingCipherFits d protocol = false := by
  rw [reportingCipher_eq]
  cases hf : N.ciphers.find? fun cipher => reportingCipherFits cipher protocol with
  | none =>
    refine iff_of_true ⟨_, rfl, by decide⟩ ?_
    simpa using hf
  | some cipher =>
    refine iff_of_false ?_ fun hnone => ?_
    · rintro ⟨status, he, hne⟩
      exact hne (congrArg Prod.fst he).symm
    · have hfits := List.find?_some hf
      rw [hnone cipher (List.mem_of_find?_eq_some hf)] at hfits
      simp at hfits

/-! ### Runs -/

/-- A connection with the configuration of its native context, and that at the last `SSLHandshake`
which found no SSL object, the first one of the object there is; with whether the suites could be
copied then. -/
structure Configured where
  native : NativeConfig
  conn : Conn := {}
  entered : Option (NativeConfig × Bool) := none

inductive ReportEvent
  /-- A setter of the native context's versions or suites. -/
  | native (N : NativeConfig)
  | act (a : Act) (alloc : Bool)

def Act.isEnter : Act → Bool
  | .enter _ => true
  | _ => false

/-- An entry that captures gets the answers of the native context as it is.  The world is whatever the
other connections have made of it. -/
def Configured.Next (c : Ctx) (sid : Sid) (q : Configured) (e : ReportEvent) (q' : Configured) : Prop :=
  match e with
  | .native N => q' = { q with native := N }
  | .act a alloc =>
    (∀ env, a = .enter env → env.reported = captureReporting alloc q.native.getters) ∧
    (∃ w w', Conn.step c sid a w q.conn = some (w', q'.conn)) ∧ q'.native = q.native ∧
    q'.entered = if a.isEnter ∧ q.conn.sh.ssl = none then some (q.native, alloc) else q.entered

section Runs

variable {c : Ctx} {sid : Sid} {w w' : World} {k k' : Conn} {a : Act}

theorem restart_reported (s : Shadow) : s.restart.reported = s.reported := by
  unfold Shadow.restart
  split_ifs <;> rfl

theorem Setter.apply_reported (f : Setter) (s : Shadow) : (f.apply s).reported = s.reported := by
  cases f with
  | setPeerDomainName name =>
    simp only [Setter.apply, mySSLSetPeerDomainName]
    split_ifs
    · rfl
    · exact restart_reported _
  | setCertificate serverTls disableMtls identity =>
    obtain ⟨b, x, he, -⟩ := mySSLSetCertificate_eq serverTls disableMtls identity s
    simp only [Setter.apply, he]
    exact restart_reported _
  | setPeerID peerID =>
    simp only [Setter.apply, mySSLSetPeerID]
    split_ifs <;> rfl
  | setIOFuncs | setConnection | setClientSideAuthenticate | setBreakOnServerAuth
  | setBreakOnClientAuth | setEnableCertVerify => rfl

/-- An object comes with what its first entry was given, and keeps it. -/
theorem Effect.reported (hk : Shaped k) (he : Effect c sid w k a w' k')
    (hs : k'.sh.ssl.isSome = true) :
    k.sh.ssl.isSome = true ∧ k'.sh.reported = k.sh.reported ∨
      ∃ env, a = .enter env ∧ k.sh.ssl = none ∧ k'.sh.reported = env.reported := by
  have hbusy : ∀ {call}, k.call = some call → k.sh.ssl.isSome = true :=
    fun h => (hk.up (hk.busy (by simp [h]))).2
  cases he with
  | set _ f =>
    have hp := f.apply_place k.sh
    unfold Shadow.place at hp
    dsimp only at hs
    split_ifs at hp <;> simp only [Prod.mk.injEq] at hp
    · rw [hp.2.2.1] at hs
      simp at hs
    · rw [hp.2.2.1] at hs
      exact Or.inl ⟨hs, f.apply_reported k.sh⟩
  | io _ _ _ _ lasting =>
    refine Or.inl ⟨?_, (congrArg Shadow.reported lasting :)⟩
    rwa [← Shadow.ssl_isSome_of_lasting lasting]
  | refused => simp [Shadow.refused] at hs
  | driven _ _ inited native =>
    exact Or.inl ⟨(hk.up (hk.isUp_of_inited inited (Shadow.state_of_native native))).2, rfl⟩
  | started _ env new => exact Or.inr ⟨env, rfl, hk.bare new, rfl⟩
  | server | datagram | same => exact Or.inl ⟨hs, rfl⟩
  | verify busy | resume busy | suspend busy | noCert busy | give busy | dropped busy | stored busy
  | bwrite busy | paused busy | connected busy | blocked busy | broken busy | finish busy =>
    exact Or.inl ⟨hbusy busy, rfl⟩

/-- The object there is reports what the native context was configured for at its first entry. -/
structure Configured.Frozen (q : Configured) : Prop where
  shaped : Shaped q.conn
  captured : q.conn.sh.ssl.isSome = true → ∃ N alloc, q.entered = some (N, alloc) ∧
    q.conn.sh.reported = captureReporting alloc N.getters

theorem Configured.Frozen.step {q q' : Configured} {e : ReportEvent} (h : q.Frozen)
    (hs : q.Next c sid e q') : q'.Frozen := by
  cases e with
  | native N =>
    obtain rfl : q' = { q with native := N } := hs
    exact ⟨h.shaped, h.captured⟩
  | act a alloc =>
    obtain ⟨henv, ⟨w, w', hact⟩, -, hentered⟩ := hs
    have he := step_effect hact
    refine ⟨h.shaped.effect he, fun hssl => ?_⟩
    rcases he.reported h.shaped hssl with ⟨hold, hrep⟩ | ⟨env, rfl, hnone, hrep⟩
    · have hno : ¬ (a.isEnter = true ∧ q.conn.sh.ssl = none) := by
        rintro ⟨-, hx⟩
        rw [hx] at hold
        simp at hold
      rw [hentered, if_neg hno, hrep]
      exact h.captured hold
    · rw [hentered, if_pos ⟨rfl, hnone⟩, hrep]
      exact ⟨q.native, alloc, rfl, henv env rfl⟩

end Runs

/-- **The compatibility report.**  In every run of acts of a connection and of setters of its native
context, the pair that a connected or paused shadow reports is the one computed from the configuration
at the first handshake entry of its SSL object; where a version above SSL 2 was enabled there, the
version is the highest one enabled, the suite is the first in the list that fits it, and suite 0 with an
error is reported exactly when none fits. -/
theorem report_exact {c : Ctx} {sid : Sid} {N₀ : NativeConfig} {es : List ReportEvent} {q : Configured}
    (h : Path (Configured.Next c sid) { native := N₀ } es q)
    (hst : q.conn.sh.state = .connected ∨ q.conn.sh.state = .peerAuth) :
    ∃ N alloc, q.entered = some (N, alloc) ∧
      mySSLGetNegotiatedProtocolVersion q.conn.sh = some (reportingProtocol N.getters) ∧
      (N.Usable → ∃ p, IsGreatest (N.enabled : Set SSLProtocol) p ∧
        mySSLGetNegotiatedProtocolVersion q.conn.sh = some (noErr, p.code) ∧
        mySSLGetNegotiatedCipher q.conn.sh = some (reportingCipher alloc N.getters p.code) ∧
        (alloc = true →
          (∀ pre cipher post, N.ciphers = pre ++ cipher :: post →
            reportingCipherFits cipher p.code = true →
            (∀ d ∈ pre, reportingCipherFits d p.code = false) →
            mySSLGetNegotiatedCipher q.conn.sh = some (noErr, cipher)) ∧
          ((∃ status, mySSLGetNegotiatedCipher q.conn.sh = some (status, 0) ∧ status ≠ noErr) ↔
            ∀ d ∈ N.ciphers, reportingCipherFits d p.code = false))) := by
  have hfrozen : q.Frozen := h.invariant (fun _ _ _ hi hs => hi.step hs)
    ⟨Shaped.blank, fun h => by simp at h⟩
  have hup : q.conn.sh.state.isUp := hst.elim (fun h => Or.inr (Or.inr h)) fun h => Or.inr (Or.inl h)
  obtain ⟨N, alloc, hentered, hrep⟩ := hfrozen.captured (hfrozen.shaped.up hup).2
  have hversion : mySSLGetNegotiatedProtocolVersion q.conn.sh = some (reportingProtocol N.getters) := by
    unfold mySSLGetNegotiatedProtocolVersion
    rw [if_pos hst, hrep]
    rfl
  refine ⟨N, alloc, hentered, hversion, fun husable => ?_⟩
  obtain ⟨p, hp, heq⟩ := reportingProtocol_usable husable
  have hcipher : mySSLGetNegotiatedCipher q.conn.sh = some (reportingCipher alloc N.getters p.code) := by
    unfold mySSLGetNegotiatedCipher
    rw [if_pos hst, hrep]
    unfold captureReporting
    simp only [heq, if_true]
  refine ⟨p, hp, by rw [hversion, heq], hcipher, ?_⟩
  rintro rfl
  rw [hcipher]
  refine ⟨fun pre cipher post hsplit hfits hpre => ?_, ?_⟩
  · have hfind : N.ciphers.find? (fun cipher => reportingCipherFits cipher p.code) = some cipher := by
      refine List.find?_eq_some_iff_append.mpr ⟨hfits, pre, post, hsplit, fun d hd => ?_⟩
      rw [hpre d hd]
      rfl
    rw [reportingCipher_eq, hfind]
  · simp only [Option.some.injEq]
    exact reportingCipher_zero N p.code

/-- TLS 1.0 to 1.2, with a suite of TLS 1.2 behind one that no version fits. -/
def modernConfig : NativeConfig where
  ranged := true
  enabled := {.tls1, .tls11, .tls12}
  ciphers := [0x00ff, 0xc02f, 0x002f]
  known := by decide
  room := by decide

/-- SSL 3 alone, set on the native context in the middle of the handshake. -/
def olderConfig : NativeConfig where
  ranged := true
  enabled := {.ssl3}
  ciphers := [0x0005]
  known := by decide
  room := by decide

/-- An act, with what its entry captures. -/
def Act.capturing (reported : Reported) : Act → Act
  | .enter env => .enter { env with reported := reported }
  | a => a

/-- `Configured.Next`, as a function, with the world. -/
def Configured.step (c : Ctx) (sid : Sid) (r : World × Configured) :
    ReportEvent → Option (World × Configured)
  | .native N => some (r.1, { r.2 with native := N })
  | .act a alloc =>
    (Conn.step c sid (a.capturing (captureReporting alloc r.2.native.getters)) r.1 r.2.conn).map
      fun p => (p.1,
        { r.2 with
          conn := p.2
          entered := if a.isEnter ∧ r.2.conn.sh.ssl.isNone then some (r.2.native, alloc)
            else r.2.entered })

theorem Configured.path {c : Ctx} {sid : Sid} {es : List ReportEvent} {r r' : World × Configured}
    (h : Path (fun r e r' => Configured.step c sid r e = some r') r es r') :
    ∃ es', Path (Configured.Next c sid) r.2 es' r'.2 := by
  induction h with
  | nil r => exact ⟨[], .nil r.2⟩
  | @cons r r₁ r' e es h1 _ ih =>
    obtain ⟨es', hp⟩ := ih
    cases e with
    | native N =>
      obtain rfl := Option.some.inj h1
      exact ⟨.native N :: es', .cons rfl hp⟩
    | act a alloc =>
      obtain ⟨p, hact, rfl⟩ := Option.map_eq_some_iff.mp h1
      refine ⟨.act (a.capturing (captureReporting alloc r.2.native.getters)) alloc :: es',
        Path.cons ?_ hp⟩
      refine ⟨fun env henv => ?_, ⟨r.1, p.1, hact⟩, rfl, ?_⟩
      · cases a with
        | enter env₀ =>
          obtain rfl := Act.enter.inj henv
          rfl
        | _ => simp [Act.capturing] at henv
      · have hsame : (a.capturing (captureReporting alloc r.2.native.getters)).isEnter = a.isEnter := by
          cases a <;> rfl
        simp only [hsame, Option.isNone_iff_eq_none]

/-- A handshake that is entered twice, with the native context set to SSL 3 in between. -/
def laterRun : List ReportEvent :=
  [.act (.set (.setIOFuncs 1 1)) true, .act (.set (.setConnection 1)) true, .act (.enter {}) true,
    .act (.leave .wantReadWrite) true, .native olderConfig, .act (.enter {}) true,
    .act (.verify (.evaluated true)) true, .act (.leave .done) true]

theorem laterRun_isSome :
    (exec (Configured.step 1 0) ({}, { native := modernConfig }) laterRun).isSome = true := by
  decide

theorem laterRun_connected : ((exec (Configured.step 1 0) ({}, { native := modernConfig }) laterRun).get
      laterRun_isSome).2.conn.sh.state = .connected ∧
    ((exec (Configured.step 1 0) ({}, { native := modernConfig }) laterRun).get
      laterRun_isSome).2.entered.map (fun e => (e.1.ciphers, e.2)) = some ([0x00ff, 0xc02f, 0x002f], true) ∧
    mySSLGetNegotiatedProtocolVersion ((exec (Configured.step 1 0) ({}, { native := modernConfig })
      laterRun).get laterRun_isSome).2.conn.sh = some (noErr, 8) := by
  decide

theorem report_exact_laterRun : ∃ es q, Path (Configured.Next 1 0) { native := modernConfig } es q ∧
    q.native.ciphers = [0x0005] ∧ ∃ N alloc, q.entered = some (N, alloc) ∧
      mySSLGetNegotiatedProtocolVersion q.conn.sh = some (reportingProtocol N.getters) ∧
      mySSLGetNegotiatedProtocolVersion q.conn.sh = some (noErr, 8) := by
  obtain ⟨es, hp⟩ := Configured.path (exec_path_get laterRun_isSome)
  obtain ⟨hst, -, hversion⟩ := laterRun_connected
  obtain ⟨N, alloc, hentered, hrep, -⟩ := report_exact hp (Or.inl hst)
  exact ⟨es, _, hp, by decide, N, alloc, hentered, hrep, hversion⟩

end AquaTransport
