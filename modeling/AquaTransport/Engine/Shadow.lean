import AquaTransport.Lib.Coding
import Mathlib.Data.Int.Basic
import Mathlib.Data.List.Basic
import Mathlib.Data.List.OfFn
import Mathlib.Data.List.TakeWhile

/-!
# AquaTransport.Engine.Shadow — the `Shadow` record, the SSL object under it, and status codes

The fields are those of `aquatransport.h`, less the table's own (`ctx`, `lastUse`, `refcount`, in
`AquaTransport.Entry`).  `Ssl` is what the engine can tell of an OpenSSL connection object: which
session it was offered, what its callbacks answered, and what its writer has taken.
-/

namespace AquaTransport

abbrev Bytes := List UInt8

/-! ### Status codes -/

abbrev OSStatus := ℤ

def noErr : OSStatus := 0
def errSSLProtocol : OSStatus := -9800
def errSSLWouldBlock : OSStatus := -9803
def ST_ClosedGraceful : OSStatus := -9805
def ST_ClosedAbort : OSStatus := -9806
def errSSLXCertChainInvalid : OSStatus := -9807
def ST_PeerAuth : OSStatus := -9841

/-! ### C strings and buffers of 256 bytes -/

/-- A C string, less its terminator. -/
structure CString where
  bytes : Bytes
  noNul : (0 : UInt8) ∉ bytes
  deriving DecidableEq

instance : Inhabited CString := ⟨⟨[], by simp⟩⟩

/-- A terminated string tells where the text after it starts. -/
theorem CString.append_inj (a : CString) {b : CString} {u v : Bytes}
    (h : a.bytes ++ 0 :: u = b.bytes ++ 0 :: v) : a = b ∧ u = v := by
  obtain ⟨x, hx⟩ := a
  obtain ⟨y, hy⟩ := b
  obtain ⟨rfl, h2⟩ := terminated_inj hx hy h
  exact ⟨rfl, h2⟩

/-- The C string that starts a terminated buffer. -/
def CString.ofBuffer (b : Bytes) : CString :=
  ⟨b.takeWhile (· ≠ 0), fun h => by simpa using List.mem_takeWhile_imp h⟩

abbrev Buf256 := Fin 256 → UInt8

/-- `memcpy(dst, src, n)` between two buffers. -/
def Buf256.memcpy (dst src : Buf256) (n : ℕ) : Buf256 := fun i => if i.val < n then src i else dst i

/-- `memcpy` of a whole blob. -/
def Buf256.store (dst : Buf256) (blob : Bytes) : Buf256 := fun i => blob.getD i.val (dst i)

/-- `!memcmp(a, b, n)`. -/
def Buf256.memeq (a b : Buf256) (n : ℕ) : Bool := decide (∀ i : Fin 256, i.val < n → a i = b i)

/-- The first `n` bytes. -/
def Buf256.bytes (b : Buf256) (n : ℕ) : Bytes := (List.ofFn b).take n

theorem Buf256.memeq_iff {a b : Buf256} {n : ℕ} : a.memeq b n = true ↔ a.bytes n = b.bytes n := by
  unfold memeq bytes
  rw [decide_eq_true_iff, List.ext_getElem_iff]
  simp only [List.length_take, List.length_ofFn, List.getElem_take, List.getElem_ofFn, true_and]
  constructor
  · intro h i h1 _
    exact h ⟨i, by omega⟩ (by simpa using (by omega : i < n))
  · intro h i hi
    have := i.isLt
    simpa using h i.val (by omega) (by omega)

theorem Buf256.bytes_length {b : Buf256} {n : ℕ} (hn : n ≤ 256) : (b.bytes n).length = n := by
  rw [bytes, List.length_take, List.length_ofFn]
  omega

/-- A copy has the bytes of its source, whatever the buffer held before. -/
theorem Buf256.bytes_memcpy (dst src : Buf256) (n : ℕ) : (dst.memcpy src n).bytes n = src.bytes n := by
  rw [← memeq_iff]
  unfold memeq memcpy
  rw [decide_eq_true_iff]
  intro i hi
  rw [if_pos hi]

theorem Buf256.bytes_store (dst : Buf256) {blob : Bytes} (h : blob.length ≤ 256) :
    (dst.store blob).bytes blob.length = blob := by
  refine List.ext_getElem (bytes_length h) ?_
  intro i h1 h2
  simp only [bytes, List.getElem_take, List.getElem_ofFn, store]
  rw [List.getD_eq_getElem?_getD, List.getElem?_eq_getElem h2, Option.getD_some]

/-! ### The SSL object -/

abbrev SslId := ℕ
abbrev SessId := ℕ

/-- How `verify_chain` let a chain pass: by looking at it, by `SecTrustEvaluate` or in the chain
cache, or unlooked because the check is the caller's. -/
inductive VerifyWay
  | evaluated
  | cached
  | breakAuth
  | noCertVerify
  deriving DecidableEq

def VerifyWay.looked : VerifyWay → Bool
  | evaluated | cached => true
  | breakAuth | noCertVerify => false

/-- OpenSSL's side of `SSL_write`: the bytes of the calls that completed, the buffer of a call that
blocked with how much of it is consumed, and whether a call broke the retry rule. -/
structure Writer where
  taken : Bytes := []
  retry : Option (Bytes × ℕ) := none
  badRetry : Bool := false

structure Ssl where
  id : SslId
  /-- What `SSL_set_session` was given. -/
  offered : Option SessId := none
  resumed : Bool := false
  /-- `verify_chain`'s last answer, when it was 1. -/
  verify : Option VerifyWay := none
  /-- `client_cert_cb` answered -1 in the `SSL_do_handshake` call in progress. -/
  suspended : Bool := false
  wr : Writer := {}

/-! ### The shadow -/

inductive ShadowState
  | failed
  | new
  | handshaking
  | connected
  | peerAuth
  deriving DecidableEq

/-- A C pointer that the code only stores and compares with `NULL`, which is 0. -/
abbrev Ptr := ℕ

/-- What `capture_reporting` froze. -/
structure Reported where
  protocol : ℕ := 0
  cipher : ℕ := 0
  protocolStatus : OSStatus := 0
  cipherStatus : OSStatus := 0

inductive SSLAuthenticate
  | never
  | always
  | try
  deriving DecidableEq

/-- `Shadow`.  `host` is the C string in the buffer.  `clientX509` stands for the three fields of
the client identity, which `capture_identity` sets together.  `wpend` carries its length. -/
structure Shadow where
  rf : Ptr := 0
  wf : Ptr := 0
  conn : Ptr := 0
  host : CString := default
  peerID : Buf256 := fun _ => 0
  peerIDLen : ℕ := 0
  inited : Bool := false
  state : ShadowState := .new
  reported : Reported := {}
  breakAuth : Bool := false
  noCertVerify : Bool := false
  approved : Bool := false
  clientBypass : Bool := false
  serverSide : Bool := false
  serverAuth : SSLAuthenticate := .never
  serverBypass : UInt32 := 0
  clientX509 : Option ℕ := none
  ssl : Option Ssl := none
  trust : Option ℕ := none
  wblocked : Bool := false
  wpend : Option Bytes := none

/-- The caller's peer id, the key of the session cache. -/
def Shadow.peerKey (s : Shadow) : Bytes := s.peerID.bytes s.peerIDLen

end AquaTransport
