import AquaTransport.Gsa.Login
import AquaTransport.Lib.BigEndian
import Mathlib.Algebra.Field.ZMod
import Mathlib.Data.Nat.Prime.Basic
import Mathlib.Tactic.NormNum.Prime

/-!
# AquaTransport.Gsa.Srp — `aquatransport_gsa_crypto.c`

SRP-6a as the client computes it, over any hash and key derivation.  `srp_agreement` is the exchange
with a server that knows the verifier: both have the secret `(B - k·v)^(a + u·x) = (A·v^u)^b`, and
accept each other's proof.
-/

namespace AquaTransport

/-- What a 256-bit hash gives. -/
def Digest : Type := { d : NSData // d.length = 32 }

/-- SHA-256 and PBKDF2, of which nothing is used but the length. -/
structure Crypto where
  sha256 : NSData → Digest
  pbkdf2 : NSData → NSData → ℕ → Digest

/-- `SRP_get_default_gN("2048")`. -/
structure SrpGroup where
  N : ℕ
  g : ℕ
  prime : N.Prime
  /-- `N` has 256 bytes. -/
  fits : N ≤ 256 ^ 256
  g_pos : 0 < g
  g_lt : g < N

structure AqSrp where
  a : ℕ
  A : ℕ
  key : NSData := List.replicate 32 0
  expected : NSData := List.replicate 32 0
  challenged : ℤ := 0

/-- A C string: the bytes before the first zero. -/
def cText (s : NSData) : NSData := s.takeWhile (· ≠ 0)

def bytesOf (s : String) : NSData := (str s).map UInt16.toUInt8

section Model

variable (G : SrpGroup) (C : Crypto)

/-- What `hash_bn` adds of a padded number. -/
def padded (n : ℕ) : NSData := if n < 256 ^ 256 then toBytes 256 n else []

/-- `aq_srp_new`, with 256 random bits of which the top one is set. -/
def aqSrpNew (random : NSData) : Option (AqSrp × NSData) :=
  let a := 2 ^ 255 + ofBytes random % 2 ^ 255
  let A := G.g ^ a % G.N
  some ({ a := a, A := A }, toBytes 256 A)

def hexDigit (n : UInt8) : UInt8 := (bytesOf "0123456789abcdef").getD n.toNat 0

def hexOf (d : NSData) : NSData := d.flatMap fun c : UInt8 => [hexDigit (c >>> 4), hexDigit (c &&& 15)]

/-- The private key of the password. -/
def privateKey (password protocol salt : NSData) (iterations : ℕ) : ℕ :=
  let digest := (C.sha256 password).1
  let fo := cText protocol = bytesOf "s2k_fo"
  let derived := (C.pbkdf2 (if fo then hexOf digest else digest) salt iterations).1
  let digest := (C.sha256 (bytesOf ":" ++ derived)).1
  ofBytes (C.sha256 (salt ++ digest)).1

/-- `u`, of the two public keys. -/
def scrambler (A B : ℕ) : ℕ := ofBytes (C.sha256 (padded A ++ padded B)).1

/-- `k`. -/
def multiplier : ℕ := ofBytes (C.sha256 (padded G.N ++ padded G.g)).1

/-- `base` of the exponentiation: `B - k·v`. -/
def clientBase (B v : ℕ) : ℕ := (((B : ℤ) - ↑(multiplier G C * v % G.N)) % G.N).toNat

def clientSecret (a B x u : ℕ) : ℕ :=
  clientBase G C B (G.g ^ x % G.N) ^ (u * x + a) % G.N

/-- The session key that is hashed of a secret. -/
def keyOfSecret (secret : ℕ) : NSData := (C.sha256 (padded secret)).1

/-- The client's proof, `M1`. -/
def proofOf (user salt : NSData) (A B : ℕ) (key : NSData) : NSData :=
  let hn := (C.sha256 (padded G.N)).1
  let hg := (C.sha256 (padded G.g)).1
  let mix := List.zipWith (· ^^^ ·) hn hg
  (C.sha256 (mix ++ (C.sha256 user).1 ++ salt ++ padded A ++ padded B ++ key)).1

/-- The server's proof, `M2`. -/
def expectedOf (A : ℕ) (proof key : NSData) : NSData := (C.sha256 (padded A ++ proof ++ key)).1

/-- `aq_srp_challenge`. -/
def aqSrpChallenge (s : AqSrp) (user password protocol salt : Option NSData) (iterations : ℕ)
    (server : Option NSData) : AqSrp × Option NSData :=
  match user, password, protocol, salt, server with
  | some user, some password, some protocol, some salt, some server =>
    if s.challenged ≠ 0 ∨ salt.length = 0 ∨ 1024 < salt.length ∨ server.length = 0 ∨
        256 < server.length ∨ iterations = 0 ∨ 1000000 < iterations ∨
        1024 * 1024 < password.length ∨
        (cText protocol ≠ bytesOf "s2k" ∧ cText protocol ≠ bytesOf "s2k_fo") then (s, none)
    else
      let s := { s with challenged := -1 }
      let B := ofBytes server
      let x := privateKey C password protocol salt iterations
      let u := scrambler C s.A B
      if B = 0 ∨ G.N ≤ B then (s, none)
      else if u = 0 then (s, none)
      else if clientBase G C B (G.g ^ x % G.N) = 0 then (s, none)
      else if clientSecret G C s.a B x u = 0 then (s, none)
      else
        let key := keyOfSecret C (clientSecret G C s.a B x u)
        let proof := proofOf G C (cText user) salt s.A B key
        ({ s with key := key, expected := expectedOf C s.A proof key, challenged := 1 }, some proof)
  | _, _, _, _, _ => (s, none)

/-- `aq_srp_verify`. -/
def aqSrpVerify (s : AqSrp) (proof : Option NSData) : AqSrp × Option NSData :=
  if s.challenged ≠ 1 then (s, none)
  else
    let t := { s with challenged := -1 }
    match proof with
    | none => (t, none)
    | some proof =>
      if proof.length ≠ 32 ∨ proof ≠ s.expected then (t, none)
      else ({ t with key := List.replicate 32 0 }, some s.key)

/-- The functions that `aq_login` uses. -/
def aqSrp : Srp AqSrp where
  new := aqSrpNew G
  challenge := aqSrpChallenge G C
  verify := fun s proof => (aqSrpVerify s proof).2

end Model

/-! ### The server -/

section Server

variable (G : SrpGroup) (C : Crypto)

/-- What a server keeps of a password, and its public key for the exponent `b`. -/
def verifier (x : ℕ) : ℕ := G.g ^ x % G.N
def serverPublic (x b : ℕ) : ℕ := (multiplier G C * verifier G x + G.g ^ b) % G.N

/-- The server's secret, of the client's public key. -/
def serverSecret (A x u b : ℕ) : ℕ := (A * verifier G x ^ u) ^ b % G.N

def serverKey (A x b : ℕ) : NSData :=
  keyOfSecret C (serverSecret G A x (scrambler C A (serverPublic G C x b)) b)

/-- The proof that the server expects of the client, and its own. -/
def serverM1 (user salt : NSData) (A x b : ℕ) : NSData :=
  proofOf G C (cText user) salt A (serverPublic G C x b) (serverKey G C A x b)
def serverM2 (user salt : NSData) (A x b : ℕ) : NSData :=
  expectedOf C A (serverM1 G C user salt A x b) (serverKey G C A x b)

end Server

/-! ### Agreement -/

section Agreement

variable {G : SrpGroup} {C : Crypto} {a b x u B v : ℕ}

/-- The secret of an exchange with exponents `a` and `b`, from either side. -/
theorem secret_agrees {M : Type*} [CommMonoid M] (g : M) (a b x u : ℕ) :
    (g ^ b) ^ (u * x + a) = (g ^ a * (g ^ x) ^ u) ^ b := by
  have hright : g ^ a * (g ^ x) ^ u = g ^ (u * x + a) := by
    rw [← pow_mul, ← pow_add, add_comm, mul_comm x u]
  rw [hright, ← pow_mul, ← pow_mul, mul_comm b]

instance : Fact G.N.Prime := ⟨G.prime⟩

theorem g_ne_zero : (G.g : ZMod G.N) ≠ 0 := by
  intro h
  have := Nat.le_of_dvd G.g_pos ((ZMod.natCast_eq_zero_iff G.g G.N).mp h)
  exact absurd G.g_lt (by omega)

theorem cast_clientBase :
    (clientBase G C B v : ZMod G.N) = B - multiplier G C * v := by
  have hpos : 0 ≤ ((B : ℤ) - ↑(multiplier G C * v % G.N)) % G.N :=
    Int.emod_nonneg _ (by exact_mod_cast G.prime.ne_zero)
  have hcast : ((clientBase G C B v : ℤ) : ZMod G.N) =
      (((B : ℤ) - ↑(multiplier G C * v % G.N) : ℤ) : ZMod G.N) := by
    unfold clientBase
    rw [Int.toNat_of_nonneg hpos, ZMod.intCast_mod]
  rw [Int.cast_natCast] at hcast
  rw [hcast]
  push_cast
  rfl

/-- Against the server's public key the subtraction leaves `g ^ b`. -/
theorem cast_clientBase_server : (clientBase G C (serverPublic G C x b) (G.g ^ x % G.N) : ZMod G.N) =
    (G.g : ZMod G.N) ^ b := by
  rw [cast_clientBase, serverPublic, verifier, ZMod.natCast_mod]
  push_cast
  ring

theorem eq_of_cast {m n : ℕ} (h : ((m % G.N : ℕ) : ZMod G.N) = ((n % G.N : ℕ) : ZMod G.N)) :
    m % G.N = n % G.N := by
  rw [ZMod.natCast_eq_natCast_iff'] at h
  rwa [Nat.mod_mod, Nat.mod_mod] at h

theorem clientSecret_eq : clientSecret G C a (serverPublic G C x b) x u =
    serverSecret G (G.g ^ a % G.N) x u b := by
  refine eq_of_cast ?_
  rw [ZMod.natCast_mod, ZMod.natCast_mod]
  push_cast
  rw [cast_clientBase_server, verifier, ZMod.natCast_mod, ZMod.natCast_mod]
  push_cast
  exact secret_agrees (G.g : ZMod G.N) a b x u

theorem clientBase_ne_zero : clientBase G C (serverPublic G C x b) (G.g ^ x % G.N) ≠ 0 := by
  intro h
  have := cast_clientBase_server (G := G) (C := C) (x := x) (b := b)
  rw [h, Nat.cast_zero] at this
  exact pow_ne_zero b g_ne_zero this.symm

theorem clientSecret_ne_zero : clientSecret G C a (serverPublic G C x b) x u ≠ 0 := by
  intro h
  have hcast : ((clientSecret G C a (serverPublic G C x b) x u : ℕ) : ZMod G.N) =
      ((G.g : ZMod G.N) ^ b) ^ (u * x + a) := by
    unfold clientSecret
    rw [ZMod.natCast_mod]
    push_cast
    rw [cast_clientBase_server]
  rw [h, Nat.cast_zero] at hcast
  exact pow_ne_zero _ (pow_ne_zero b g_ne_zero) hcast.symm

/-- The parameters of a challenge. -/
structure Acceptable (protocol salt : NSData) (iterations : ℕ) : Prop where
  protocol : cText protocol = bytesOf "s2k" ∨ cText protocol = bytesOf "s2k_fo"
  salt_pos : 0 < salt.length
  salt_le : salt.length ≤ 1024
  iterations_pos : 0 < iterations
  iterations_le : iterations ≤ 1000000

/-- A context of `aq_srp_new` with the exponent `a`. -/
def freshSrp (G : SrpGroup) (a : ℕ) : AqSrp := { a := a, A := G.g ^ a % G.N }

/-- The bytes that `aq_srp_new` gives for the server are the public key that it keeps. -/
theorem aqSrpNew_public {random bytes : NSData} {s : AqSrp}
    (h : aqSrpNew G random = some (s, bytes)) :
    s = freshSrp G s.a ∧ bytes.length = 256 ∧ ofBytes bytes = s.A := by
  obtain ⟨rfl, rfl⟩ := Prod.mk.inj (Option.some.inj h)
  refine ⟨rfl, length_toBytes, ofBytes_toBytes ?_⟩
  exact (Nat.mod_lt _ G.prime.pos).trans_le G.fits

theorem length_expectedOf {A : ℕ} {proof key : NSData} : (expectedOf C A proof key).length = 32 :=
  (C.sha256 (padded A ++ proof ++ key)).2

theorem serverPublic_lt : serverPublic G C x b < G.N := Nat.mod_lt _ G.prime.pos

/-- The challenge of an honest server is taken, and answered with the proof that it expects. -/
theorem challenge_honest {user password protocol salt server : NSData} {iterations : ℕ}
    (h : Acceptable protocol salt iterations) (hpw : password.length ≤ 1024 * 1024)
    (hx : privateKey C password protocol salt iterations = x)
    (hB : serverPublic G C x b ≠ 0)
    (hu : scrambler C (G.g ^ a % G.N) (serverPublic G C x b) ≠ 0)
    (hserver : ofBytes server = serverPublic G C x b) (hlen : server.length ≤ 256) :
    aqSrpChallenge G C (freshSrp G a) (some user) (some password) (some protocol) (some salt)
      iterations (some server) =
    ({ freshSrp G a with
        key := serverKey G C (G.g ^ a % G.N) x b
        expected := serverM2 G C user salt (G.g ^ a % G.N) x b
        challenged := 1 }, some (serverM1 G C user salt (G.g ^ a % G.N) x b)) := by
  have hpos : server.length ≠ 0 := by
    intro h0
    rw [List.length_eq_zero_iff.mp h0, ofBytes_nil] at hserver
    exact hB hserver.symm
  have hguard : ¬ ((freshSrp G a).challenged ≠ 0 ∨ salt.length = 0 ∨ 1024 < salt.length ∨
      server.length = 0 ∨ 256 < server.length ∨ iterations = 0 ∨ 1000000 < iterations ∨
      1024 * 1024 < password.length ∨
      (cText protocol ≠ bytesOf "s2k" ∧ cText protocol ≠ bytesOf "s2k_fo")) := by
    have h0 : (freshSrp G a).challenged = 0 := rfl
    have h1 := h.salt_pos
    have h2 := h.salt_le
    have h3 := h.iterations_pos
    have h4 := h.iterations_le
    rintro (hc | hc | hc | hc | hc | hc | hc | hc | ⟨hc, hc'⟩)
    · exact hc h0
    all_goals first | omega | exact h.protocol.elim hc hc'
  have hrange : ¬ (serverPublic G C x b = 0 ∨ G.N ≤ serverPublic G C x b) := by
    rintro (h | h)
    · exact hB h
    · have := serverPublic_lt (G := G) (C := C) (x := x) (b := b)
      omega
  unfold aqSrpChallenge
  dsimp only
  rw [if_neg hguard, hserver, hx, if_neg hrange, show (freshSrp G a).A = G.g ^ a % G.N from rfl,
    show (freshSrp G a).a = a from rfl, if_neg hu, if_neg clientBase_ne_zero,
    if_neg clientSecret_ne_zero]
  unfold serverM1 serverM2 serverM1 serverKey
  rw [← clientSecret_eq]

/-- The server's proof is taken once the challenge was. -/
theorem verify_expected {s : AqSrp} (h : s.challenged = 1) (hl : s.expected.length = 32) :
    (aqSrpVerify s (some s.expected)).2 = some s.key := by
  unfold aqSrpVerify
  rw [if_neg (not_not.mpr h)]
  dsimp only
  rw [if_neg]
  rintro (hc | hc)
  · exact hc hl
  · exact hc rfl

/-- A public key of 0, one out of range and a scrambler of 0 are refused. -/
theorem challenge_rejects {s : AqSrp} {user password protocol salt : Option NSData} {iterations : ℕ}
    {server : NSData} (h : ofBytes server = 0 ∨ G.N ≤ ofBytes server ∨
      scrambler C s.A (ofBytes server) = 0) :
    (aqSrpChallenge G C s user password protocol salt iterations (some server)).2 = none := by
  cases user <;> cases password <;> cases protocol <;> cases salt <;> try rfl
  unfold aqSrpChallenge
  dsimp only
  split_ifs with h1 h2 h3 h4 h5 <;> try rfl
  rcases h with h | h | h
  · exact (h2 (Or.inl h)).elim
  · exact (h2 (Or.inr h)).elim
  · exact (h3 h).elim

/-- **SRP agreement**: with an honest server and a password of at most a megabyte the challenge is taken,
the secrets, the proofs and the keys are the server's; an invalid public key or scrambler is
refused. -/
theorem srp_agreement (G : SrpGroup) (C : Crypto) :
    (∀ (a b : ℕ) (user password protocol salt server : NSData) (iterations : ℕ),
      let x := privateKey C password protocol salt iterations
      let A := G.g ^ a % G.N
      let B := serverPublic G C x b
      let r := aqSrpChallenge G C (freshSrp G a) (some user) (some password) (some protocol)
        (some salt) iterations (some server)
      Acceptable protocol salt iterations → password.length ≤ 1024 * 1024 →
      B ≠ 0 → scrambler C A B ≠ 0 → ofBytes server = B → server.length ≤ 256 →
      r.1.key = keyOfSecret C (clientSecret G C a B x (scrambler C A B)) ∧
        clientSecret G C a B x (scrambler C A B) = serverSecret G A x (scrambler C A B) b ∧
        r.2 = some (serverM1 G C user salt A x b) ∧
        (aqSrpVerify r.1 (some (serverM2 G C user salt A x b))).2 = some (serverKey G C A x b)) ∧
    ∀ (s : AqSrp) (user password protocol salt : Option NSData) (iterations : ℕ) (server : NSData),
      ofBytes server = 0 ∨ G.N ≤ ofBytes server ∨ scrambler C s.A (ofBytes server) = 0 →
      (aqSrpChallenge G C s user password protocol salt iterations (some server)).2 = none := by
  refine ⟨?_, fun s user password protocol salt iterations server => challenge_rejects⟩
  intro a b user password protocol salt server iterations x A B r h hpw hB hu hserver hlen
  have hr : r = _ := challenge_honest h hpw rfl hB hu hserver hlen
  refine ⟨?_, clientSecret_eq, ?_, ?_⟩
  · rw [hr, clientSecret_eq]
    rfl
  · rw [hr]
  · rw [hr]
    exact verify_expected rfl length_expectedOf

/-! ### Over a small group -/

def sampleGroup : SrpGroup where
  N := 23
  g := 5
  prime := by norm_num
  fits := by decide
  g_pos := by decide
  g_lt := by decide

/-- A hash with the value 1. -/
def sampleCrypto : Crypto where
  sha256 := fun _ => ⟨List.replicate 31 0 ++ [1], rfl⟩
  pbkdf2 := fun _ _ _ => ⟨List.replicate 32 0, rfl⟩

theorem acceptable_s2k : Acceptable (bytesOf "s2k") [1] 1 :=
  ⟨Or.inl (by decide), by decide, by decide, by decide, by decide⟩

/-- A password of more than a megabyte is refused, honest as the server is. -/
theorem srp_longPassword : ¬ ∀ (G : SrpGroup) (C : Crypto) (a b : ℕ)
    (user password protocol salt server : NSData) (iterations : ℕ),
    Acceptable protocol salt iterations →
    serverPublic G C (privateKey C password protocol salt iterations) b ≠ 0 →
    scrambler C (G.g ^ a % G.N)
      (serverPublic G C (privateKey C password protocol salt iterations) b) ≠ 0 →
    ofBytes server = serverPublic G C (privateKey C password protocol salt iterations) b →
    server.length ≤ 256 →
    (aqSrpChallenge G C (freshSrp G a) (some user) (some password) (some protocol) (some salt)
      iterations (some server)).2.isSome = true := by
  intro h
  have hx : ∀ password, privateKey sampleCrypto password (bytesOf "s2k") [1] 1 = 1 := fun _ => rfl
  have hB : serverPublic sampleGroup sampleCrypto 1 1 = 10 := by decide
  have hsome := h sampleGroup sampleCrypto 1 1 [] (List.replicate (1024 * 1024 + 1) 0)
    (bytesOf "s2k") [1] [10] 1 acceptable_s2k (by rw [hx, hB]; decide)
    (by rw [hx, hB]; decide) (by rw [hx, hB]; rfl) (by decide)
  have hlong : 1024 * 1024 < (List.replicate (1024 * 1024 + 1) (0 : UInt8)).length := by
    rw [List.length_replicate]
    omega
  unfold aqSrpChallenge at hsome
  dsimp only at hsome
  rw [if_pos (by simp only [hlong, true_or, or_true])] at hsome
  simp at hsome

theorem srp_agreement_sample :
    (aqSrpChallenge sampleGroup sampleCrypto (freshSrp sampleGroup 3) (some []) (some [7])
      (some (bytesOf "s2k")) (some [1]) 1 (some [0, 10])).2 =
        some (serverM1 sampleGroup sampleCrypto [] [1] (5 ^ 3 % 23) 1 1) :=
  ((srp_agreement sampleGroup sampleCrypto).1 3 1 [] [7] (bytesOf "s2k") [1] [0, 10] 1
    acceptable_s2k (by decide) (by decide) (by decide) (by decide)
    (by decide)).2.2.1

end Agreement

end AquaTransport
