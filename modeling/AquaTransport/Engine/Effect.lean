import AquaTransport.Engine.Connection

/-!
# AquaTransport.Engine.Effect — what one act can do to a connection

`Effect` lists the outcomes of `Conn.step`, each with what the act found; `step_effect` says there are
no others.  What the acts keep is proved by cases on it, here and in the modules on the hooks.
-/

namespace AquaTransport

/-- A shadow less its write side and its cached trust. -/
def Shadow.lasting (s : Shadow) : Shadow := { s.core with trust := none }

theorem Shadow.state_of_lasting {s s' : Shadow} (h : s'.lasting = s.lasting) : s'.state = s.state :=
  (congrArg Shadow.state h : s'.lasting.state = s.lasting.state)

theorem Shadow.inited_of_lasting {s s' : Shadow} (h : s'.lasting = s.lasting) :
    s'.inited = s.inited :=
  (congrArg Shadow.inited h : s'.lasting.inited = s.lasting.inited)

theorem Shadow.sslId_lasting (s : Shadow) : s.lasting.sslId = s.sslId := by
  unfold Shadow.lasting Shadow.core Shadow.sslId
  rw [Option.map_map]
  rfl

theorem Shadow.sslId_of_lasting {s s' : Shadow} (h : s'.lasting = s.lasting) :
    s'.sslId = s.sslId := by
  rw [← s'.sslId_lasting, h, s.sslId_lasting]

theorem Shadow.ssl_isSome (s : Shadow) : s.ssl.isSome = s.sslId.isSome := by
  simp [Shadow.sslId]

theorem Shadow.ssl_isSome_of_lasting {s s' : Shadow} (h : s'.lasting = s.lasting) :
    s'.ssl.isSome = s.ssl.isSome := by
  rw [s'.ssl_isSome, s.ssl_isSome, Shadow.sslId_of_lasting h]

/-- The object of a shadow that reads and writes alone have changed. -/
theorem Shadow.ssl_of_lasting {s s' : Shadow} (h : s'.lasting = s.lasting) {x' : Ssl}
    (hx : s'.ssl = some x') : ∃ x, s.ssl = some x ∧ { x with wr := {} } = { x' with wr := {} } := by
  have hm : s'.ssl.map (fun x : Ssl => { x with wr := {} }) =
      s.ssl.map fun x : Ssl => { x with wr := {} } :=
    (congrArg Shadow.ssl h : s'.lasting.ssl = s.lasting.ssl)
  rw [hx, Option.map_some] at hm
  exact Option.map_eq_some_iff.mp hm.symm

/-- The shadow that `ossl_init` leaves to a new handshake. -/
def Shadow.started (s : Shadow) (reported : Reported) (x : Ssl) : Shadow :=
  { shUnblockWrite s with
    reported := reported, ssl := some x, inited := true, state := .handshaking }

/-- The shadow whose `ossl_init` failed. -/
def Shadow.refused (s : Shadow) (reported : Reported) : Shadow :=
  { shUnblockWrite s with reported := reported, ssl := none, state := .failed }

/-- The outcomes of an act on the connection `k` of the context `c`. -/
inductive Effect (c : Ctx) (sid : Sid) (w : World) (k : Conn) : Act → World → Conn → Prop
  | server (idle : k.call = none) :
      Effect c sid w k .markServerSide w { sh := { k.sh with serverSide := true } }
  | datagram (idle : k.call = none) :
      Effect c sid w k .markDatagram w
        { sh := { k.sh with serverBypass := k.sh.serverBypass ||| 2 } }
  | set (idle : k.call = none) (f : Setter) :
      Effect c sid w k (.set f) (w.log (f.frees sid k.sh)) { sh := f.apply k.sh }
  /-- The native stack's, or nothing to do. -/
  | same (idle : k.call = none) (a : Act) : Effect c sid w k a w k
  /-- A read, a write, a close, or a getter on a shadow past its handshake. -/
  | io (idle : k.call = none) (a : Act) {obs : List Obs} {sh' : Shadow} {call' : Option SslCall}
      (past : k.sh.state = .connected ∨ k.sh.state = .peerAuth)
      (call : call' ≠ some .doHandshake) (lasting : sh'.lasting = k.sh.lasting)
      (uses : ∀ x ∈ obs, ∃ op, x = .use sid k.sh.sslId op ∧ op ≠ .free ∧ op ≠ .doHandshake) :
      Effect c sid w k a (w.log obs) { sh := sh', call := call' }
  | refused (idle : k.call = none) (env : HsEnv) (new : k.sh.inited = false)
      (native : k.sh.native env.serverTls = false) {w₁ : World}
      (made : w₁ = w ∨ w₁ = { w with nextSsl := w.nextSsl + 1 }.log
        [.use sid (some w.nextSsl) .free, .sslNew sid w.nextSsl k.sh.clientX509.isSome]) :
      Effect c sid w k (.enter env) w₁ { sh := k.sh.refused env.reported }
  | driven (idle : k.call = none) (env : HsEnv) (inited : k.sh.inited = true)
      (native : k.sh.native env.serverTls = false) :
      Effect c sid w k (.enter env) (driveHandshake c sid w (shUnblockWrite k.sh)).1
        (driveHandshake c sid w (shUnblockWrite k.sh)).2
  | started (idle : k.call = none) (env : HsEnv) (new : k.sh.inited = false)
      (native : k.sh.native env.serverTls = false) {sess : SessTable} {obs : List Obs}
      {offered : Option SessId} (hsess : sess.look = w.sess.look)
      (hoffered : offered = none ∧ obs = [] ∨ ∃ cached, offered = some cached ∧
        obs = [.offered c w.nextSsl k.sh.peerKey cached (!k.sh.breakAuth && !k.sh.noCertVerify)] ∧
        k.sh.clientX509 = none ∧ k.sh.peerIDLen ≠ 0 ∧
        ∃ i, w.sess.look i = some (k.sh.peerKey, cached)) :
      Effect c sid w k (.enter env)
        (driveHandshake c sid ({ w with sess := sess, nextSsl := w.nextSsl + 1 }.log
            (obs ++ [Obs.sslNew sid w.nextSsl k.sh.clientX509.isSome]))
          (k.sh.started env.reported { id := w.nextSsl, offered := offered })).1
        (driveHandshake c sid ({ w with sess := sess, nextSsl := w.nextSsl + 1 }.log
            (obs ++ [Obs.sslNew sid w.nextSsl k.sh.clientX509.isSome]))
          (k.sh.started env.reported { id := w.nextSsl, offered := offered })).2
  | verify {call : SslCall} {x : Ssl} (busy : k.call = some call) (ssl : k.sh.ssl = some x)
      (v : Verdict) (fits : v.fits k.sh = true) :
      Effect c sid w k (.verify v) (w.log ((v.way k.sh).map (Obs.verified x.id)).toList)
        { sh := { k.sh with ssl := some { x with verify := v.way k.sh } }, call := some call }
  | resume {call : SslCall} {x : Ssl} {sess : SessId} (busy : k.call = some call)
      (ssl : k.sh.ssl = some x) (offered : x.offered = some sess) :
      Effect c sid w k .resume (w.log [.resumed x.id sess])
        { sh := { k.sh with ssl := some { x with resumed := true } }, call := some call }
  | noCert {call : SslCall} (busy : k.call = some call) (keyOk : Bool) :
      Effect c sid w k (.clientCert keyOk) w k
  | suspend {call : SslCall} {x : Ssl} (busy : k.call = some call) (ssl : k.sh.ssl = some x)
      (keyOk : Bool) :
      Effect c sid w k (.clientCert keyOk) w
        { sh := { k.sh with ssl := some { x with suspended := true } }, call := some call }
  | give {call : SslCall} {x : Ssl} (busy : k.call = some call) (ssl : k.sh.ssl = some x)
      (keyOk : Bool) (client : k.sh.serverSide = false) (identity : k.sh.clientX509.isSome = true)
      (approved : k.sh.breakAuth = true → k.sh.approved = true) :
      Effect c sid w k (.clientCert keyOk) (w.log [.certGiven x.id k.sh.breakAuth]) k
  | dropped {call : SslCall} (busy : k.call = some call) :
      Effect c sid w k .newSession { w with nextSess := w.nextSess + 1 } k
  | stored {call : SslCall} {x : Ssl} (busy : k.call = some call) (ssl : k.sh.ssl = some x)
      (client : k.sh.serverSide = false) (checked : x.verify.isSome = true ∨ x.resumed = true)
      (keyed : k.sh.peerIDLen ≠ 0) (bare : k.sh.clientX509 = none) :
      Effect c sid w k .newSession
        ({ w with
          sess := sessPut w.sess k.sh.peerID k.sh.peerIDLen w.nextSess
          nextSess := w.nextSess + 1 }.log [.stored c x.id k.sh.peerKey w.nextSess]) k
  | bwrite {call : SslCall} (busy : k.call = some call) (os : OSStatus) :
      Effect c sid w k (.bwrite os) w { sh := bioBwrite os k.sh, call := some call }
  /-- The handshake waits for the application's approval. -/
  | paused {x : Ssl} (busy : k.call = some .doHandshake) (ssl : k.sh.ssl = some x) (ret : HsRet) :
      Effect c sid w k (.leave ret) (w.log [.returned x.id ST_PeerAuth])
        { sh := { k.sh with state := .peerAuth } }
  | connected {x : Ssl} (busy : k.call = some .doHandshake) (ssl : k.sh.ssl = some x)
      (checked : k.sh.serverSide = true ∨ x.verify.isSome = true ∨ x.resumed = true)
      (approved : k.sh.serverSide = false → k.sh.breakAuth = true → k.sh.approved = true) :
      Effect c sid w k (.leave .done)
        (w.log [.connected x.id k.sh.serverSide, .returned x.id noErr])
        { sh := { k.sh with state := .connected } }
  | blocked {x : Ssl} (busy : k.call = some .doHandshake) (ssl : k.sh.ssl = some x) :
      Effect c sid w k (.leave .wantReadWrite) (w.log [.returned x.id errSSLWouldBlock]) { sh := k.sh }
  | broken {x : Ssl} (busy : k.call = some .doHandshake) (ssl : k.sh.ssl = some x) (ret : HsRet)
      (rv : OSStatus) :
      Effect c sid w k (.leave ret) (w.log [.returned x.id rv])
        { sh := { k.sh with state := .failed } }
  | finish (busy : k.call = some .io) : Effect c sid w k .finish w { sh := k.sh }

section Inversion

variable {c : Ctx} {sid : Sid} {w : World} {k : Conn}

theorem lasting_of_core {s s' : Shadow} (h : s'.core = s.core) : s'.lasting = s.lasting := by
  unfold Shadow.lasting
  rw [h]

theorem mem_flushUses {x : Obs} {s : Shadow} (h : x ∈ flushUses sid s) :
    x = .use sid s.sslId .write := by
  unfold flushUses at h
  split_ifs at h
  · simpa using h
  · simp at h

theorem enter_effect (idle : k.call = none) (env : HsEnv) :
    Effect c sid w k (.enter env) (handshakeEnter env c sid w k.sh).1
      (handshakeEnter env c sid w k.sh).2 := by
  obtain ⟨sh, call⟩ := k
  obtain rfl : call = none := idle
  unfold handshakeEnter
  by_cases hn : sh.native env.serverTls = true
  · rw [if_pos hn]
    exact .same rfl _
  rw [if_neg hn]
  have hnative : sh.native env.serverTls = false := by simpa using hn
  by_cases hinit : sh.inited = true
  · rw [if_pos hinit]
    exact .driven rfl env hinit hnative
  rw [if_neg hinit]
  have hnew : sh.inited = false := by simpa using hinit
  unfold osslInit
  by_cases h1 : (!env.init.sslNew) = true
  · rw [if_pos h1]
    exact .refused rfl env hnew hnative (Or.inl rfl)
  rw [if_neg h1]
  split_ifs with h2 h3
  · exact .refused rfl env hnew hnative (Or.inr rfl)
  · have hlook := sessGet_look w.sess sh.peerID sh.peerIDLen
    split
    next sess w' hr =>
      split at hr
      next sess' hg =>
        obtain ⟨-, hw⟩ := Prod.mk.inj hr
        simp at hw
      next sess' cached hg =>
        obtain ⟨-, hw⟩ := Prod.mk.inj hr
        simp at hw
    next w' s' hr =>
      split at hr
      next sess' hg =>
        obtain ⟨rfl, hs⟩ := Prod.mk.inj hr
        obtain rfl := Option.some.inj hs
        replace hg : sessGet w.sess sh.peerID sh.peerIDLen = (sess', none) := hg
        rw [hg] at hlook
        exact .started rfl env hnew hnative hlook (Or.inl ⟨rfl, rfl⟩)
      next sess' cached hg =>
        obtain ⟨rfl, hs⟩ := Prod.mk.inj hr
        obtain rfl := Option.some.inj hs
        replace hg : sessGet w.sess sh.peerID sh.peerIDLen = (sess', some cached) := hg
        rw [hg] at hlook
        obtain ⟨hlen, hi⟩ := sessGet_some (by rw [hg])
        have hx : sh.clientX509 = none := by
          rw [Bool.and_eq_true, Bool.and_eq_true] at h3
          exact Option.isNone_iff_eq_none.mp h3.1.2
        exact .started (k := { sh := sh, call := none }) rfl env hnew hnative hlook
          (Or.inr ⟨cached, rfl, rfl, hx, hlen, hi⟩)
  · exact .started rfl env hnew hnative rfl (Or.inl ⟨rfl, rfl⟩)

theorem read_effect (idle : k.call = none) (len : ℕ) (flush : WriteReply) (r : ReadReply) :
    Effect c sid w k (.read len flush r) (readEnter sid len flush r w k.sh).1
      (readEnter sid len flush r w k.sh).2 := by
  obtain ⟨sh, call⟩ := k
  obtain rfl : call = none := idle
  unfold readEnter mySSLRead
  by_cases hc : sh.state = .connected
  · simp only [if_pos hc]
    have hcore := lasting_of_core (readConnected_core flush r sh len)
    split_ifs
    · refine .io rfl _ (Or.inl hc) (by simp) hcore fun x hx => ⟨.write, mem_flushUses hx, ?_⟩
      simp
    · refine .io rfl _ (Or.inl hc) (by simp) hcore fun x hx => ?_
      rcases List.mem_cons.mp hx with rfl | hx
      · exact ⟨.read, rfl, by simp⟩
      · exact ⟨.write, mem_flushUses hx, by simp⟩
  · simp only [if_neg hc]
    exact .same rfl _

theorem write_effect (idle : k.call = none) (data : Bytes) (alloc : Bool) (replies : ℕ → WriteReply) :
    Effect c sid w k (.write data alloc replies) (writeEnter sid data alloc replies w k.sh).1
      (writeEnter sid data alloc replies w k.sh).2 := by
  obtain ⟨sh, call⟩ := k
  obtain rfl : call = none := idle
  unfold writeEnter mySSLWrite
  by_cases hc : sh.state = .connected
  · simp only [if_pos hc]
    have hcore := lasting_of_core (writeConnected_core alloc replies sh data)
    split_ifs
    · refine .io rfl _ (Or.inl hc) (by simp) hcore fun x hx => ⟨.write, mem_flushUses hx, ?_⟩
      simp
    · refine .io rfl _ (Or.inl hc) (by simp) hcore fun x hx => ?_
      rcases List.mem_cons.mp hx with rfl | hx
      · exact ⟨.write, rfl, by simp⟩
      · exact ⟨.write, mem_flushUses hx, by simp⟩
  · simp only [if_neg hc]
    exact .same rfl _

theorem close_effect (idle : k.call = none) (flush : WriteReply) :
    Effect c sid w k (.close flush) (closeShadow sid flush w k.sh).1
      { sh := (closeShadow sid flush w k.sh).2 } := by
  obtain ⟨sh, call⟩ := k
  obtain rfl : call = none := idle
  unfold closeShadow
  split_ifs with hc
  · have hcore : (shFlushWrite (shUnblockWrite sh) flush).1.core = sh.core := shFlushWrite_core _ _
    refine .io rfl _ (Or.inl hc.1) (by simp) (lasting_of_core hcore) fun x hx => ?_
    rcases List.mem_cons.mp hx with rfl | hx
    · exact ⟨.shutdown, rfl, by simp⟩
    · exact ⟨.write, mem_flushUses hx, by simp⟩
  · exact .same rfl _

theorem bufferedReadSize_effect (idle : k.call = none) :
    Effect c sid w k .getBufferedReadSize (w.log (bufferedReadSizeUses sid k.sh))
      { sh := k.sh } := by
  obtain ⟨sh, call⟩ := k
  obtain rfl : call = none := idle
  unfold bufferedReadSizeUses
  split_ifs with hc
  · exact .io rfl _ (Or.inl hc) (by simp) rfl (by simp)
  · exact .same rfl _

theorem copyPeerTrust_effect (idle : k.call = none) (built : Option ℕ) :
    Effect c sid w k (.copyPeerTrust built) (copyPeerTrust sid built w k.sh).1
      { sh := (copyPeerTrust sid built w k.sh).2 } := by
  obtain ⟨sh, call⟩ := k
  obtain rfl : call = none := idle
  unfold copyPeerTrust
  split_ifs with hc
  · exact .io rfl _ hc.1 (by simp) rfl (by simp)
  · exact .same rfl _

theorem copyPeerCertificates_effect (idle : k.call = none) :
    Effect c sid w k .copyPeerCertificates (w.log (copyPeerCertificatesUses sid k.sh))
      { sh := k.sh } := by
  obtain ⟨sh, call⟩ := k
  obtain rfl : call = none := idle
  unfold copyPeerCertificatesUses
  split_ifs with hc
  · exact .io rfl _ hc (by simp) rfl (by simp)
  · exact .same rfl _

theorem entry_effect (idle : k.call = none) (a : Act) :
    Effect c sid w k a (Conn.entry c sid w k.sh a).1 (Conn.entry c sid w k.sh a).2 := by
  have hsame : ∀ a', Effect c sid w k a' w { sh := k.sh } := by
    intro a'
    obtain ⟨sh, call⟩ := k
    obtain rfl : call = none := idle
    exact .same rfl a'
  cases a with
  | markServerSide => exact .server idle
  | markDatagram => exact .datagram idle
  | set f => exact .set idle f
  | enter env => exact enter_effect idle env
  | read len flush r => exact read_effect idle len flush r
  | write data alloc replies => exact write_effect idle data alloc replies
  | getBufferedReadSize => exact bufferedReadSize_effect idle
  | copyPeerTrust built => exact copyPeerTrust_effect idle built
  | copyPeerCertificates => exact copyPeerCertificates_effect idle
  | close flush => exact close_effect idle flush
  | verify v => exact hsame _
  | resume => exact hsame _
  | clientCert keyOk => exact hsame _
  | newSession => exact hsame _
  | bwrite os => exact hsame _
  | leave ret => exact hsame _
  | finish => exact hsame _

/-- When `client_cert_cb` gives the certificate, there is one, and the application has approved the
server if it asked to. -/
theorem clientCertCb_give {keyOk : Bool} {s : Shadow} (h : clientCertCb keyOk s = .give) :
    s.clientX509.isSome = true ∧ (s.serverSide = false → s.breakAuth = true → s.approved = true) := by
  unfold clientCertCb at h
  split_ifs at h with h1 h2
  refine ⟨by simpa [Option.isSome_iff_ne_none, Option.isNone_iff_eq_none] using h1, ?_⟩
  intro hs hb
  simpa [hs, hb] using h2

theorem leave_effect {x : Ssl} (busy : k.call = some .doHandshake) (ssl : k.sh.ssl = some x)
    {ret : HsRet} (allowed : ret.allowed k.sh x = true) :
    Effect c sid w k (.leave ret) (w.log (handshakeLeave x k.sh ret).2)
      { sh := (handshakeLeave x k.sh ret).1 } := by
  cases ret with
  | done =>
    by_cases h : (!k.sh.serverSide && k.sh.breakAuth && !k.sh.approved) = true
    · simp only [handshakeLeave, if_pos h]
      exact .paused busy ssl _
    · simp only [handshakeLeave, if_neg h]
      refine .connected busy ssl ?_ fun hs hb => ?_
      · simpa [HsRet.allowed, or_assoc] using allowed
      · simpa [hs, hb] using h
  | wantX509Lookup => exact .paused busy ssl _
  | wantReadWrite => exact .blocked busy ssl
  | error lib reason => exact .broken busy ssl _ _

theorem reply_effect {call : SslCall} {x : Ssl} (busy : k.call = some call) (ssl : k.sh.ssl = some x)
    {a : Act} {w' : World} {k' : Conn}
    (h : Conn.reply c w k.sh x call a = some (w', k')) : Effect c sid w k a w' k' := by
  have hk : k = { sh := k.sh, call := some call } := by
    rw [← busy]
  unfold Conn.reply at h
  split at h
  next v =>
    split_ifs at h with hf
    obtain ⟨rfl, rfl⟩ := Prod.mk.inj (Option.some.inj h)
    exact .verify busy ssl v hf
  next =>
    split at h
    next sess ho =>
      obtain ⟨rfl, rfl⟩ := Prod.mk.inj (Option.some.inj h)
      exact .resume busy ssl ho
    next => simp at h
  next keyOk =>
    split_ifs at h with hs
    split at h
    next =>
      obtain ⟨rfl, rfl⟩ := Prod.mk.inj (Option.some.inj h)
      rw [← hk]
      exact .noCert busy keyOk
    next =>
      obtain ⟨rfl, rfl⟩ := Prod.mk.inj (Option.some.inj h)
      exact .suspend busy ssl keyOk
    next hg =>
      obtain ⟨rfl, rfl⟩ := Prod.mk.inj (Option.some.inj h)
      have hs' : k.sh.serverSide = false := by simpa using hs
      obtain ⟨hx, ha⟩ := clientCertCb_give hg
      rw [← hk]
      exact .give busy ssl keyOk hs' hx (ha hs')
  next =>
    split_ifs at h with hc
    obtain ⟨rfl, rfl⟩ := Prod.mk.inj (Option.some.inj h)
    rw [Bool.and_eq_true, Bool.or_eq_true] at hc
    rw [← hk]
    unfold newSessionCb
    split_ifs with hn
    · exact .dropped busy
    · rw [not_or, Option.not_isSome_iff_eq_none] at hn
      exact .stored busy ssl (by simpa using hc.1) hc.2 hn.1 hn.2
  next os =>
    obtain ⟨rfl, rfl⟩ := Prod.mk.inj (Option.some.inj h)
    exact .bwrite busy os
  next ret =>
    split_ifs at h with hr
    obtain ⟨rfl, rfl⟩ := Prod.mk.inj (Option.some.inj h)
    exact leave_effect (hr.1 ▸ busy) ssl hr.2
  next =>
    split_ifs at h with hc
    obtain ⟨rfl, rfl⟩ := Prod.mk.inj (Option.some.inj h)
    exact .finish (hc ▸ busy)
  next => simp at h

/-- **The outcomes of an act are those of `Effect`.** -/
theorem step_effect {a : Act} {w' : World} {k' : Conn}
    (h : Conn.step c sid a w k = some (w', k')) : Effect c sid w k a w' k' := by
  unfold Conn.step at h
  split at h
  next hc =>
    split_ifs at h
    have he : Effect c sid w k a _ _ := entry_effect hc a
    rw [Option.some.inj h] at he
    exact he
  next call hc =>
    split at h
    next x hx => exact reply_effect hc hx h
    next => simp at h

end Inversion

/-! ### Setters -/

/-- The part of a shadow that says where its connection is. -/
def Shadow.place (s : Shadow) : Bool × ShadowState × Option Ssl × Option ℕ × Bool × Option Bytes :=
  (s.inited, s.state, s.ssl, s.trust, s.wblocked, s.wpend)

theorem restart_place {s s' : Shadow} (h : s'.place = s.place) : s'.restart.place =
    if s.restarts then (false, .new, none, none, false, none) else s.place := by
  have hi : s'.inited = s.inited := congrArg Prod.fst h
  have hs : s'.state = s.state := congrArg (·.2.1) h
  have hr : s'.restarts = s.restarts := by
    unfold Shadow.restarts
    rw [hi, hs]
  unfold Shadow.restart
  rw [hr]
  split_ifs
  · rfl
  · exact h

/-- What `my_SSLSetCertificate` writes before it takes the connection down. -/
theorem mySSLSetCertificate_eq (serverTls disableMtls : Bool) (identity : Option ℕ) (s : Shadow) :
    ∃ b x, mySSLSetCertificate serverTls disableMtls identity s =
        Shadow.restart { s with clientBypass := b, clientX509 := x } ∧
      (x = s.clientX509 ∨ x = identity ∧ identity.isSome = true) := by
  unfold mySSLSetCertificate
  by_cases h1 : (!s.serverSide || serverTls) = true
  · rw [if_pos h1]
    by_cases h2 : (!s.serverSide && disableMtls) = true
    · rw [if_pos h2]
      exact ⟨true, s.clientX509, rfl, Or.inl rfl⟩
    · rw [if_neg h2]
      cases identity with
      | none => exact ⟨true, s.clientX509, rfl, Or.inl rfl⟩
      | some x => exact ⟨false, some x, rfl, Or.inr ⟨rfl, rfl⟩⟩
  · rw [if_neg h1]
    exact ⟨s.clientBypass, s.clientX509, rfl, Or.inl rfl⟩

/-- A setter leaves the connection where it is, or takes it down to the start. -/
theorem Setter.apply_place (f : Setter) (s : Shadow) :
    (f.apply s).place =
      if f.restarts && s.restarts then (false, .new, none, none, false, none) else s.place := by
  cases f with
  | setPeerDomainName name =>
    by_cases hn : name = []
    · simp [Setter.apply, mySSLSetPeerDomainName, Setter.restarts, hn]
    · have hr : (Setter.setPeerDomainName name).restarts = true := by simp [Setter.restarts, hn]
      rw [hr, Bool.true_and]
      simp only [Setter.apply, mySSLSetPeerDomainName, if_neg hn]
      exact restart_place rfl
  | setCertificate serverTls disableMtls identity =>
    obtain ⟨b, x, he, -⟩ := mySSLSetCertificate_eq serverTls disableMtls identity s
    simp only [Setter.restarts, Bool.true_and, Setter.apply, he]
    exact restart_place rfl
  | setPeerID peerID =>
    simp only [Setter.apply, mySSLSetPeerID, Setter.restarts, Bool.false_and, Bool.false_eq_true,
      if_false]
    split_ifs <;> rfl
  | setIOFuncs | setConnection | setClientSideAuthenticate | setBreakOnServerAuth
  | setBreakOnClientAuth | setEnableCertVerify => rfl

theorem restart_trust (s : Shadow) : s.restart.approved = s.approved ∧
    s.restart.serverSide = s.serverSide ∧ s.restart.breakAuth = s.breakAuth := by
  unfold Shadow.restart
  split_ifs <;> exact ⟨rfl, rfl, rfl⟩

/-- What a setter can change of the flags behind a trust decision. -/
theorem Setter.apply_trust (f : Setter) (s : Shadow) :
    (f.apply s).approved = s.approved ∧ (f.apply s).serverSide = s.serverSide ∧
      ((f.apply s).breakAuth = s.breakAuth ∨
        ∃ val, f = .setBreakOnServerAuth val ∧ (f.apply s).breakAuth = val) := by
  cases f with
  | setPeerDomainName name =>
    simp only [Setter.apply, mySSLSetPeerDomainName]
    split_ifs
    · exact ⟨rfl, rfl, Or.inl rfl⟩
    · obtain ⟨ha, hs, hb⟩ := restart_trust { s with host := CString.ofBuffer (name.take 255) }
      exact ⟨ha, hs, Or.inl hb⟩
  | setCertificate serverTls disableMtls identity =>
    obtain ⟨b, x, he, -⟩ := mySSLSetCertificate_eq serverTls disableMtls identity s
    obtain ⟨ha, hs, hb⟩ := restart_trust { s with clientBypass := b, clientX509 := x }
    simp only [Setter.apply, he]
    exact ⟨ha, hs, Or.inl hb⟩
  | setPeerID peerID =>
    simp only [Setter.apply, mySSLSetPeerID]
    split_ifs <;> exact ⟨rfl, rfl, Or.inl rfl⟩
  | setBreakOnServerAuth val => exact ⟨rfl, rfl, Or.inr ⟨val, rfl, rfl⟩⟩
  | setIOFuncs | setConnection | setClientSideAuthenticate | setBreakOnClientAuth
  | setEnableCertVerify => exact ⟨rfl, rfl, Or.inl rfl⟩

/-! ### History only grows -/

/-- Notes about the caller, which no connection made. -/
def Obs.isNote : Obs → Bool
  | .created .. | .called .. => true
  | _ => false

/-- A later world. -/
def World.Le (w w' : World) : Prop := w.nextSsl ≤ w'.nextSsl ∧ ∃ obs, w'.hist = obs ++ w.hist

theorem World.le_log (w : World) (obs : List Obs) : w.Le (w.log obs) := ⟨le_rfl, obs, rfl⟩

/-- An act makes the world later, without a note. -/
theorem Effect.adds {c : Ctx} {sid : Sid} {w w' : World} {k k' : Conn} {a : Act}
    (h : Effect c sid w k a w' k') : w.nextSsl ≤ w'.nextSsl ∧
      ∃ obs, w'.hist = obs ++ w.hist ∧ ∀ x ∈ obs, x.isNote = false := by
  cases h with
  | set _ f =>
    refine ⟨le_rfl, _, rfl, fun x hx => ?_⟩
    unfold Setter.frees at hx
    split_ifs at hx
    · obtain rfl := List.mem_singleton.mp hx
      rfl
    · simp at hx
  | io _ _ _ _ _ uses =>
    refine ⟨le_rfl, _, rfl, fun x hx => ?_⟩
    obtain ⟨op, rfl, -⟩ := uses x hx
    rfl
  | refused _ _ _ _ made =>
    rcases made with rfl | rfl
    · exact ⟨le_rfl, [], rfl, by simp⟩
    · exact ⟨Nat.le_succ _, [_, _], rfl, by simp [Obs.isNote]⟩
  | driven => exact ⟨le_rfl, [_, _], rfl, by simp [Obs.isNote]⟩
  | started _ _ _ _ _ hoffered =>
    rcases hoffered with ⟨-, rfl⟩ | ⟨cached, -, rfl, -⟩
    · exact ⟨Nat.le_succ _, [_, _, _], rfl, by simp [Obs.isNote]⟩
    · exact ⟨Nat.le_succ _, [_, _, _, _], rfl, by simp [Obs.isNote]⟩
  | verify _ _ v =>
    refine ⟨le_rfl, _, rfl, fun x hx => ?_⟩
    obtain ⟨way, -, rfl⟩ := Option.map_eq_some_iff.mp (Option.mem_toList.mp hx)
    rfl
  | resume => exact ⟨le_rfl, [_], rfl, by simp [Obs.isNote]⟩
  | give => exact ⟨le_rfl, [_], rfl, by simp [Obs.isNote]⟩
  | stored => exact ⟨le_rfl, [_], rfl, by simp [Obs.isNote]⟩
  | paused => exact ⟨le_rfl, [_], rfl, by simp [Obs.isNote]⟩
  | connected => exact ⟨le_rfl, [_, _], rfl, by simp [Obs.isNote]⟩
  | blocked => exact ⟨le_rfl, [_], rfl, by simp [Obs.isNote]⟩
  | broken => exact ⟨le_rfl, [_], rfl, by simp [Obs.isNote]⟩
  | server | datagram | same | noCert | suspend | dropped | bwrite | finish =>
    exact ⟨le_rfl, [], rfl, by simp⟩

theorem Effect.le {c : Ctx} {sid : Sid} {w w' : World} {k k' : Conn} {a : Act}
    (h : Effect c sid w k a w' k') : w.Le w' :=
  let ⟨hn, obs, hobs, _⟩ := h.adds
  ⟨hn, obs, hobs⟩

end AquaTransport
