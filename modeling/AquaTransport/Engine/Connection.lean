import AquaTransport.Engine.SessionCache
import AquaTransport.Engine.VerifyChain
import AquaTransport.Engine.WriteQueue

/-!
# AquaTransport.Engine.Connection — what the hooks and the OpenSSL callbacks do to one connection

`Conn` is a shadow with the OpenSSL call in progress on it; `World` is what all connections share,
with `hist`, everything observable so far, newest first.  `Conn.step` is one act on a connection: a
setter, an entry of the caller (`SSLHandshake`, `SSLRead`, ..), one callback that OpenSSL makes during
the call in progress, or the return of that call.  It is undefined where OpenSSL would not act so: its
documented contract is in the guards of the callbacks and of `leave`.

The acts of an `SSLRead` or `SSLWrite` on the write queue are taken together, at its entry; the
callbacks that OpenSSL makes meanwhile do not touch the queue.
-/

namespace AquaTransport

/-! ### Settings -/

/-- What the setters decide of a handshake. -/
structure Config where
  serverSide : Bool := false
  host : CString := default
  breakAuth : Bool := false
  noCertVerify : Bool := false
  clientBypass : Bool := false
  rf : Ptr := 0
  wf : Ptr := 0
  conn : Ptr := 0
  deriving DecidableEq

def Shadow.config (s : Shadow) : Config :=
  ⟨s.serverSide, s.host, s.breakAuth, s.noCertVerify, s.clientBypass, s.rf, s.wf, s.conn⟩

def mySSLSetIOFuncs (rf wf : Ptr) (s : Shadow) : Shadow := { s with rf := rf, wf := wf }

def mySSLSetConnection (conn : Ptr) (s : Shadow) : Shadow := { s with conn := conn }

/-- The shadow has an SSL object that a late setter has to take down. -/
def Shadow.restarts (s : Shadow) : Bool := s.inited && s.state ≠ .failed

/-- The block that `my_SSLSetPeerDomainName` and `my_SSLSetCertificate` share. -/
def Shadow.restart (s : Shadow) : Shadow :=
  if s.restarts then
    shResetWrite { s with ssl := none, inited := false, state := .new, trust := none }
  else s

/-- `name` is empty when it is `NULL` or `len` is 0. -/
def mySSLSetPeerDomainName (name : Bytes) (s : Shadow) : Shadow :=
  if name = [] then s else { s with host := CString.ofBuffer (name.take 255) }.restart

def mySSLSetPeerID (peerID : Bytes) (s : Shadow) : Shadow :=
  if peerID = [] ∨ 256 < peerID.length then { s with peerIDLen := 0 }
  else { s with peerID := s.peerID.store peerID, peerIDLen := peerID.length }

def mySSLSetClientSideAuthenticate (auth : SSLAuthenticate) (s : Shadow) : Shadow :=
  { s with serverAuth := auth }

def setBreakOnServerAuth (val : Bool) (s : Shadow) : Shadow := { s with breakAuth := val }

def setBreakOnClientAuth (val : Bool) (s : Shadow) : Shadow :=
  { s with serverBypass := (s.serverBypass &&& ~~~1) ||| if val then 1 else 0 }

def mySSLSetEnableCertVerify (enable : Bool) (s : Shadow) : Shadow :=
  { s with noCertVerify := !enable }

/-- `identity` is what the argument holds for this engine: an RSA identity with its key. -/
def captureIdentity (identity : Option ℕ) (s : Shadow) : Shadow :=
  match identity with
  | none => { s with clientBypass := true }
  | some x => { s with clientX509 := some x, clientBypass := false }

/-- `serverTls` is `server_tls_enabled()`, `disableMtls` the flag `disable-mtls`. -/
def mySSLSetCertificate (serverTls disableMtls : Bool) (identity : Option ℕ) (s : Shadow) : Shadow :=
  (if !s.serverSide || serverTls then
    if !s.serverSide && disableMtls then { s with clientBypass := true }
    else captureIdentity identity s
  else s).restart

/-- A setter's call that reaches the shadow, with its arguments. -/
inductive Setter
  | setIOFuncs (rf wf : Ptr)
  | setConnection (conn : Ptr)
  | setPeerDomainName (name : Bytes)
  | setPeerID (peerID : Bytes)
  | setClientSideAuthenticate (auth : SSLAuthenticate)
  | setBreakOnServerAuth (val : Bool)
  | setBreakOnClientAuth (val : Bool)
  | setEnableCertVerify (enable : Bool)
  | setCertificate (serverTls disableMtls : Bool) (identity : Option ℕ)
  deriving DecidableEq

def Setter.apply : Setter → Shadow → Shadow
  | .setIOFuncs rf wf => mySSLSetIOFuncs rf wf
  | .setConnection conn => mySSLSetConnection conn
  | .setPeerDomainName name => mySSLSetPeerDomainName name
  | .setPeerID peerID => mySSLSetPeerID peerID
  | .setClientSideAuthenticate auth => mySSLSetClientSideAuthenticate auth
  | .setBreakOnServerAuth val => AquaTransport.setBreakOnServerAuth val
  | .setBreakOnClientAuth val => AquaTransport.setBreakOnClientAuth val
  | .setEnableCertVerify enable => mySSLSetEnableCertVerify enable
  | .setCertificate serverTls disableMtls identity =>
    mySSLSetCertificate serverTls disableMtls identity

/-- The setters that take down the SSL object of a shadow that has one. -/
def Setter.restarts : Setter → Bool
  | .setPeerDomainName name => name ≠ []
  | .setCertificate .. => true
  | _ => false

/-! ### Observations -/

/-- The calls into OpenSSL with a shadow's `ssl`. -/
inductive SslOp
  | doHandshake
  | read
  | write
  | shutdown
  | pending
  | peerChain
  | free
  deriving DecidableEq

inductive Obs
  /-- `SSLCreateContext` or `SSLNewContext` made a context. -/
  | created (c : Ctx) (server : Bool)
  | called (c : Ctx) (f : Setter)
  /-- `SSLHandshake` drives the context with OpenSSL under this configuration. -/
  | driven (c : Ctx) (cfg : Config)
  /-- `ossl_init` makes an object; `identity` when the shadow has a client identity. -/
  | sslNew (s : Sid) (o : SslId) (identity : Bool)
  /-- A call into OpenSSL with `s->ssl`, which is `o`. -/
  | use (s : Sid) (o : Option SslId) (op : SslOp)
  /-- `ossl_init` offers a session; `verifying` when the engine is to verify the connection. -/
  | offered (c : Ctx) (o : SslId) (key : Bytes) (sess : SessId) (verifying : Bool)
  | verified (o : SslId) (way : VerifyWay)
  | resumed (o : SslId) (sess : SessId)
  /-- `client_cert_cb` gives OpenSSL the client certificate. -/
  | certGiven (o : SslId) (breakAuth : Bool)
  | stored (c : Ctx) (o : SslId) (key : Bytes) (sess : SessId)
  /-- `SSLHandshake`, driven on `o`, returns. -/
  | returned (o : SslId) (rv : OSStatus)
  /-- The state becomes `CONNECTED`. -/
  | connected (o : SslId) (server : Bool)
  deriving DecidableEq

structure World where
  sess : SessTable := {}
  nextSsl : SslId := 0
  nextSess : SessId := 0
  hist : List Obs := []

/-- Add observations, newest first. -/
def World.log (w : World) (obs : List Obs) : World := { w with hist := obs ++ w.hist }

/-- The OpenSSL call during which callbacks come. -/
inductive SslCall
  | doHandshake
  | io
  deriving DecidableEq

structure Conn where
  sh : Shadow := {}
  call : Option SslCall := none

def Shadow.sslId (s : Shadow) : Option SslId := s.ssl.map Ssl.id

/-! ### OpenSSL's callbacks -/

inductive CertAnswer
  | none
  | suspend
  | give
  deriving DecidableEq

/-- `client_cert_cb`: 0, -1 and 1.  `keyOk` is whether the OpenSSL key objects can be made. -/
def clientCertCb (keyOk : Bool) (s : Shadow) : CertAnswer :=
  if s.clientX509.isNone then .none
  else if !s.serverSide && s.breakAuth && !s.approved then .suspend
  else if keyOk then .give
  else .none

/-- `new_session_cb`, for the session `w.nextSess`. -/
def newSessionCb (c : Ctx) (x : Ssl) (s : Shadow) (w : World) : World :=
  if s.peerIDLen = 0 ∨ s.clientX509.isSome then { w with nextSess := w.nextSess + 1 }
  else
    { w with
      sess := sessPut w.sess s.peerID s.peerIDLen w.nextSess
      nextSess := w.nextSess + 1 }.log [.stored c x.id s.peerKey w.nextSess]

/-- How a chain passed, by `verify_chain`'s verdict. -/
def Verdict.way (s : Shadow) : Verdict → Option VerifyWay
  | .unlooked => some (if s.noCertVerify then .noCertVerify else .breakAuth)
  | .refused => none
  | .cached => some .cached
  | .evaluated ok => if ok then some .evaluated else none

/-- The verdicts that `verify_chain` can reach on this shadow. -/
def Verdict.fits (s : Shadow) (v : Verdict) : Bool :=
  decide (v = .unlooked) == s.unlooked && !(decide (v = .cached) && s.serverSide)

/-- `bio_bwrite`: a would-block of the caller's callback latches. -/
def bioBwrite (os : OSStatus) (s : Shadow) : Shadow :=
  { s with wblocked := s.wblocked || os == errSSLWouldBlock }

/-! ### `SSLHandshake` -/

/-- `SSL_new`, `BIO_new`, the key objects and their installation succeed. -/
structure InitEnv where
  sslNew : Bool := true
  bioNew : Bool := true
  keyOk : Bool := true
  installed : Bool := true

/-- `ossl_init`: the new object is `w.nextSsl`.  `none` is -1, with `s->ssl` back at `NULL`. -/
def osslInit (env : InitEnv) (c : Ctx) (sid : Sid) (w : World) (s : Shadow) :
    World × Option Shadow :=
  if !env.sslNew then (w, none)
  else if !env.bioNew ||
      (s.serverSide && !(clientCertCb env.keyOk s == .give && env.installed)) then
    ({ w with nextSsl := w.nextSsl + 1 }.log
      [.use sid (some w.nextSsl) .free, .sslNew sid w.nextSsl s.clientX509.isSome], none)
  else if !s.serverSide && s.clientX509.isNone && s.peerIDLen ≠ 0 then
    match sessGet w.sess s.peerID s.peerIDLen with
    | (sess, none) =>
      ({ w with sess := sess, nextSsl := w.nextSsl + 1 }.log [.sslNew sid w.nextSsl s.clientX509.isSome],
        some { s with ssl := some { id := w.nextSsl }, inited := true })
    | (sess, some cached) =>
      ({ w with sess := sess, nextSsl := w.nextSsl + 1 }.log
          [.offered c w.nextSsl s.peerKey cached (!s.breakAuth && !s.noCertVerify),
            .sslNew sid w.nextSsl s.clientX509.isSome],
        some { s with ssl := some { id := w.nextSsl, offered := some cached }, inited := true })
  else
    ({ w with nextSsl := w.nextSsl + 1 }.log [.sslNew sid w.nextSsl s.clientX509.isSome],
      some { s with ssl := some { id := w.nextSsl }, inited := true })

/-- The handshake is the native stack's. -/
def Shadow.native (serverTls : Bool) (s : Shadow) : Bool :=
  s.rf == 0 || s.wf == 0 || s.conn == 0 || s.clientBypass ||
    (s.serverSide && (!serverTls || s.serverBypass ≠ 0 || s.clientX509.isNone)) ||
    decide (s.state = .failed)

structure HsEnv where
  serverTls : Bool := false
  reported : Reported := {}
  init : InitEnv := {}

/-- `my_SSLHandshake` from the `PEER_AUTH` test to `SSL_do_handshake`. -/
def driveHandshake (c : Ctx) (sid : Sid) (w : World) (s : Shadow) : World × Conn :=
  (w.log [.use sid s.sslId .doHandshake, .driven c s.config],
    { sh := { s with
        approved := s.approved || decide (s.state = .peerAuth)
        ssl := s.ssl.map fun x => { x with suspended := false } }
      call := some .doHandshake })

/-- `my_SSLHandshake` up to `SSL_do_handshake`, or up to its return when it does not get there. -/
def handshakeEnter (env : HsEnv) (c : Ctx) (sid : Sid) (w : World) (s : Shadow) : World × Conn :=
  if s.native env.serverTls then (w, { sh := s })
  else if s.inited then driveHandshake c sid w (shUnblockWrite s)
  else
    match osslInit env.init c sid w { shUnblockWrite s with reported := env.reported } with
    | (w', none) =>
      (w', { sh := { shUnblockWrite s with
        reported := env.reported, ssl := none, state := .failed } })
    | (w', some s') => driveHandshake c sid w' { s' with state := .handshaking }

/-- `kAlertStatus`: the native status of a received alert, 0 where it has none. -/
def kAlertStatus : ℕ → OSStatus
  | 10 => -9819 | 20 => -9820 | 21 => -9821 | 22 => -9822 | 30 => -9823 | 40 => -9824
  | 41 => ST_ClosedAbort | 42 => -9825 | 43 => -9826 | 44 => -9827 | 45 => -9828 | 46 => -9829
  | 47 => -9830 | 48 => -9831 | 49 => -9832 | 50 => -9833 | 51 => -9834 | 60 => -9835
  | 70 => -9836 | 71 => -9837 | 80 => -9838 | 90 => -9839 | 100 => -9840
  | _ => 0

def ERR_LIB_SSL : ℕ := 20
def SSL_R_CERTIFICATE_VERIFY_FAILED : ℕ := 134
def SSL_R_WRONG_VERSION_NUMBER : ℕ := 267
def SSL_AD_REASON_OFFSET : ℕ := 1000
def errSSLFatalAlert : OSStatus := -9802

def handshakeFailureStatus (lib reason : ℕ) : OSStatus :=
  if lib ≠ ERR_LIB_SSL then ST_ClosedAbort
  else if reason = SSL_R_CERTIFICATE_VERIFY_FAILED then errSSLXCertChainInvalid
  else if reason = SSL_R_WRONG_VERSION_NUMBER then errSSLProtocol
  else if reason ≤ SSL_AD_REASON_OFFSET ∨ SSL_AD_REASON_OFFSET + 255 < reason then ST_ClosedAbort
  else if kAlertStatus (reason - SSL_AD_REASON_OFFSET) = 0 then errSSLFatalAlert
  else kAlertStatus (reason - SSL_AD_REASON_OFFSET)

/-- How `SSL_do_handshake` ends, by `SSL_get_error`; `error` with the last error's library and
reason. -/
inductive HsRet
  | done
  | wantX509Lookup
  | wantReadWrite
  | error (lib reason : ℕ)

/-- OpenSSL completes a client's handshake only past its certificate callback or on a resumption, and
waits for a certificate only when the callback suspended it. -/
def HsRet.allowed (s : Shadow) (x : Ssl) : HsRet → Bool
  | .done => s.serverSide || x.verify.isSome || x.resumed
  | .wantX509Lookup => x.suspended
  | _ => true

/-- `my_SSLHandshake` from the return of `SSL_do_handshake` on. -/
def handshakeLeave (x : Ssl) (s : Shadow) : HsRet → Shadow × List Obs
  | .done =>
    if !s.serverSide && s.breakAuth && !s.approved then
      ({ s with state := .peerAuth }, [.returned x.id ST_PeerAuth])
    else
      ({ s with state := .connected }, [.connected x.id s.serverSide, .returned x.id noErr])
  | .wantX509Lookup => ({ s with state := .peerAuth }, [.returned x.id ST_PeerAuth])
  | .wantReadWrite => (s, [.returned x.id errSSLWouldBlock])
  | .error lib reason =>
    ({ s with state := .failed },
      [.returned x.id (if s.serverSide then ST_ClosedAbort else handshakeFailureStatus lib reason)])

/-! ### The other entries -/

/-- The `SSL_write` of a flush. -/
def flushUses (sid : Sid) (s : Shadow) : List Obs :=
  if s.wpend.isSome then [.use sid s.sslId .write] else []

def readEnter (sid : Sid) (len : ℕ) (flush : WriteReply) (r : ReadReply) (w : World) (s : Shadow) :
    World × Conn :=
  match mySSLRead flush r s len with
  | none => (w, { sh := s })
  | some (s', _) =>
    if (shFlushWrite (shUnblockWrite s) flush).2 < 0 ∨ len = 0 then
      (w.log (flushUses sid s), { sh := s' })
    else (w.log (.use sid s.sslId .read :: flushUses sid s), { sh := s', call := some .io })

def writeEnter (sid : Sid) (data : Bytes) (alloc : Bool) (replies : ℕ → WriteReply) (w : World)
    (s : Shadow) : World × Conn :=
  match mySSLWrite alloc replies s data with
  | none => (w, { sh := s })
  | some (s', _) =>
    if (shFlushWrite (shUnblockWrite s) (replies 0)).2 ≤ 0 ∨ data = [] then
      (w.log (flushUses sid s), { sh := s' })
    else (w.log (.use sid s.sslId .write :: flushUses sid s), { sh := s', call := some .io })

/-- The part of `my_SSLClose` on the shadow. -/
def closeShadow (sid : Sid) (flush : WriteReply) (w : World) (s : Shadow) : World × Shadow :=
  if s.state = .connected ∧ s.ssl.isSome then
    (w.log (.use sid s.sslId .shutdown :: flushUses sid s),
      (shFlushWrite (shUnblockWrite s) flush).1)
  else (w, s)

/-- `my_SSLGetBufferedReadSize`: `SSL_pending`. -/
def bufferedReadSizeUses (sid : Sid) (s : Shadow) : List Obs :=
  if s.state = .connected then [.use sid s.sslId .pending] else []

/-- `my_SSLCopyPeerTrust` through `sh_build_trust`; `built` is the trust it can make. -/
def copyPeerTrust (sid : Sid) (built : Option ℕ) (w : World) (s : Shadow) : World × Shadow :=
  if (s.state = .connected ∨ s.state = .peerAuth) ∧ s.trust.isNone then
    (w.log [.use sid s.sslId .peerChain], { s with trust := built })
  else (w, s)

/-- `my_SSLCopyPeerCertificates` through `sh_cert_array`. -/
def copyPeerCertificatesUses (sid : Sid) (s : Shadow) : List Obs :=
  if s.state = .connected ∨ s.state = .peerAuth then [.use sid s.sslId .peerChain] else []

/-! ### Acts -/

/-- One act on a connection. -/
inductive Act
  | markServerSide
  | markDatagram
  | set (f : Setter)
  | enter (env : HsEnv)
  | read (len : ℕ) (flush : WriteReply) (r : ReadReply)
  | write (data : Bytes) (alloc : Bool) (replies : ℕ → WriteReply)
  | getBufferedReadSize
  | copyPeerTrust (built : Option ℕ)
  | copyPeerCertificates
  | close (flush : WriteReply)
  | verify (v : Verdict)
  | resume
  | clientCert (keyOk : Bool)
  | newSession
  | bwrite (os : OSStatus)
  | leave (ret : HsRet)
  | finish

/-- What a setter frees. -/
def Setter.frees (f : Setter) (sid : Sid) (s : Shadow) : List Obs :=
  if f.restarts && s.restarts then [.use sid s.sslId .free] else []

/-- The acts of the caller's entries, made when no call is in progress on the connection. -/
def Conn.entry (c : Ctx) (sid : Sid) (w : World) (s : Shadow) : Act → World × Conn
  | .markServerSide => (w, { sh := { s with serverSide := true } })
  | .markDatagram => (w, { sh := { s with serverBypass := s.serverBypass ||| 2 } })
  | .set f => (w.log (f.frees sid s), { sh := f.apply s })
  | .enter env => handshakeEnter env c sid w s
  | .read len flush r => readEnter sid len flush r w s
  | .write data alloc replies => writeEnter sid data alloc replies w s
  | .getBufferedReadSize => (w.log (bufferedReadSizeUses sid s), { sh := s })
  | .copyPeerTrust built =>
    ((AquaTransport.copyPeerTrust sid built w s).1, { sh := (AquaTransport.copyPeerTrust sid built w s).2 })
  | .copyPeerCertificates => (w.log (copyPeerCertificatesUses sid s), { sh := s })
  | .close flush => ((closeShadow sid flush w s).1, { sh := (closeShadow sid flush w s).2 })
  | _ => (w, { sh := s })

/-- The acts of OpenSSL during a call on the object `x`. -/
def Conn.reply (c : Ctx) (w : World) (s : Shadow) (x : Ssl) (call : SslCall) :
    Act → Option (World × Conn)
  | .verify v =>
    if v.fits s then
      some (w.log ((v.way s).map (Obs.verified x.id)).toList,
        { sh := { s with ssl := some { x with verify := v.way s } }, call := call })
    else none
  | .resume =>
    match x.offered with
    | some sess =>
      some (w.log [.resumed x.id sess],
        { sh := { s with ssl := some { x with resumed := true } }, call := call })
    | none => none
  | .clientCert keyOk =>
    if s.serverSide then none
    else
      match clientCertCb keyOk s with
      | .none => some (w, { sh := s, call := call })
      | .suspend =>
        some (w, { sh := { s with ssl := some { x with suspended := true } }, call := call })
      | .give => some (w.log [.certGiven x.id s.breakAuth], { sh := s, call := call })
  | .newSession =>
    if !s.serverSide && (x.verify.isSome || x.resumed) then
      some (newSessionCb c x s w, { sh := s, call := call })
    else none
  | .bwrite os => some (w, { sh := bioBwrite os s, call := call })
  | .leave ret =>
    if call = .doHandshake ∧ ret.allowed s x then
      some (w.log (handshakeLeave x s ret).2, { sh := (handshakeLeave x s ret).1 })
    else none
  | .finish => if call = .io then some (w, { sh := s }) else none
  | _ => none

/-- The acts of the caller. -/
def Act.isEntry : Act → Bool
  | .verify _ | .resume | .clientCert _ | .newSession | .bwrite _ | .leave _ | .finish => false
  | _ => true

/-- One act on a connection: the caller's while no call is in progress, OpenSSL's during one. -/
def Conn.step (c : Ctx) (sid : Sid) (a : Act) (w : World) (k : Conn) : Option (World × Conn) :=
  match k.call with
  | none => if a.isEntry then some (Conn.entry c sid w k.sh a) else none
  | some call =>
    match k.sh.ssl with
    | some x => Conn.reply c w k.sh x call a
    | none => none

end AquaTransport
