import AquaTransport.Hooks.StateMachine

/-!
# AquaTransport.Hooks.TrustGate — what stands behind a connection and behind a client certificate

A client's connection is to be `Trusted`: `verify_chain` passed the chain for a reason of its own, or
a session was resumed, or the application approved this very SSL object.  The decision is spread over
`verify_chain`, `client_cert_cb`, `my_SSLHandshake` and the setters that restart the handshake, and
`approved` outlives the object it was given for.  `trust_gate` holds of the runs whose setters are
`Careful`; `trust_gate_fails` has a run for each way in which a setter is not.
-/

namespace AquaTransport

/-! ### Trust, in the history -/

/-- `verify_chain` looked at the chain of `o`, or the caller verifies no certificates; or `o` resumed
a session. -/
def Passed (h : List Obs) (o : SslId) : Prop :=
  (∃ way, way ≠ .breakAuth ∧ .verified o way ∈ h) ∨ ∃ sess, .resumed o sess ∈ h

/-- `SSLHandshake` returned `errSSLPeerAuthCompleted` for `o`, and the caller entered it again. -/
def Approved (h : List Obs) (o : SslId) : Prop :=
  ∃ later s past, h = later ++ .use s (some o) .doHandshake :: past ∧ .returned o ST_PeerAuth ∈ past

def Trusted (h : List Obs) (o : SslId) : Prop := Passed h o ∨ Approved h o

/-- A client connects, or gives its certificate under the break, on a trusted object only. -/
def Obs.Gated (past : List Obs) (x : Obs) : Prop :=
  ∀ o, x = .connected o false ∨ x = .certGiven o true → Trusted past o

theorem Passed.append {h : List Obs} {o : SslId} (hp : Passed h o) (later : List Obs) :
    Passed (later ++ h) o := by
  rcases hp with ⟨way, hw, hm⟩ | ⟨sess, hm⟩
  · exact Or.inl ⟨way, hw, List.mem_append_right later hm⟩
  · exact Or.inr ⟨sess, List.mem_append_right later hm⟩

theorem Approved.append {h : List Obs} {o : SslId} (ha : Approved h o) (later : List Obs) :
    Approved (later ++ h) o := by
  obtain ⟨l, s, past, rfl, hm⟩ := ha
  exact ⟨later ++ l, s, past, (List.append_assoc ..).symm, hm⟩

theorem Trusted.append {h : List Obs} {o : SslId} (ht : Trusted h o) (later : List Obs) :
    Trusted (later ++ h) o :=
  ht.imp (fun h => h.append later) fun h => h.append later

theorem approved_cons {h : List Obs} {o : SslId} {x : Obs} : Approved (x :: h) o ↔
    (∃ s, x = .use s (some o) .doHandshake ∧ .returned o ST_PeerAuth ∈ h) ∨ Approved h o := by
  constructor
  · rintro ⟨later, s, past, he, hm⟩
    cases later with
    | nil =>
      obtain ⟨rfl, rfl⟩ := List.cons_eq_cons.mp he
      exact Or.inl ⟨s, rfl, hm⟩
    | cons y later => exact Or.inr ⟨later, s, past, (List.cons_eq_cons.mp he).2, hm⟩
  · rintro (⟨s, rfl, hm⟩ | ha)
    · exact ⟨[], s, h, rfl, hm⟩
    · exact ha.append [x]

theorem not_approved_nil {o : SslId} : ¬ Approved [] o := by
  rintro ⟨later, s, past, he, -⟩
  simp at he

/-- The entry that may come after an approval. -/
def Obs.reenters (o : SslId) : Obs → Bool
  | .use _ (some o') .doHandshake => o' == o
  | _ => false

theorem reenters_iff {o : SslId} {x : Obs} :
    x.reenters o = true ↔ ∃ s, x = .use s (some o) .doHandshake := by
  constructor
  · intro h
    unfold Obs.reenters at h
    split at h
    next s o' => exact ⟨s, by rw [beq_iff_eq.mp h]⟩
    next => simp at h
  · rintro ⟨s, rfl⟩
    simp [Obs.reenters]

instance Approved.decidable : ∀ (h : List Obs) (o : SslId), Decidable (Approved h o)
  | [], _ => isFalse not_approved_nil
  | x :: h, o =>
    have := Approved.decidable h o
    decidable_of_iff ((x.reenters o = true ∧ .returned o ST_PeerAuth ∈ h) ∨ Approved h o) <| by
      rw [approved_cons, reenters_iff, exists_and_right]

/-- What lets a connection pass without the application. -/
def Obs.passes (o : SslId) : Obs → Bool
  | .verified o' way => o' == o && way != .breakAuth
  | .resumed o' _ => o' == o
  | _ => false

theorem passed_iff {h : List Obs} {o : SslId} : Passed h o ↔ ∃ x ∈ h, x.passes o = true := by
  constructor
  · rintro (⟨way, hw, hm⟩ | ⟨sess, hm⟩)
    · exact ⟨_, hm, by simp [Obs.passes, hw]⟩
    · exact ⟨_, hm, by simp [Obs.passes]⟩
  · rintro ⟨x, hm, hx⟩
    unfold Obs.passes at hx
    split at hx
    next o' way =>
      obtain ⟨rfl, hw⟩ : o' = o ∧ way ≠ .breakAuth := by simpa using hx
      exact Or.inl ⟨way, hw, hm⟩
    next o' sess =>
      obtain rfl : o' = o := by simpa using hx
      exact Or.inr ⟨sess, hm⟩
    next => simp at hx

instance (h : List Obs) (o : SslId) : Decidable (Trusted h o) :=
  have : Decidable (Passed h o) := decidable_of_iff _ passed_iff.symm
  inferInstanceAs (Decidable (_ ∨ _))

/-! ### The invariant of a connection -/

/-- A setter under which an approval stays with its object: it does not take down an approved
connection, and it does not lift the break once `verify_chain` has left the chain of the handshake in
progress to the application. -/
def Careful (a : Act) (k : Conn) : Prop :=
  ∀ f, a = .set f →
    (f.restarts && k.sh.restarts && k.sh.approved) = false ∧
    (f = .setBreakOnServerAuth false → k.sh.state = .handshaking → k.sh.serverSide = false →
      k.sh.approved = false → ∀ x, k.sh.ssl = some x → x.verify ≠ some .breakAuth)

/-- The object of a shadow with what passed its chain and whether it resumed. -/
def Shadow.proof (s : Shadow) : Option (SslId × Option VerifyWay × Bool) :=
  s.ssl.map fun x => (x.id, x.verify, x.resumed)

theorem Shadow.proof_of_lasting {s s' : Shadow} (h : s'.lasting = s.lasting) :
    s'.proof = s.proof := by
  have hl : ∀ s : Shadow, s.lasting.proof = s.proof := by
    intro s
    unfold Shadow.lasting Shadow.core Shadow.proof
    rw [Option.map_map]
    rfl
  rw [← hl s', h, hl s]

/-- What the object of a connection says of the history. -/
structure Recorded (h : List Obs) (k : Conn) : Prop where
  verified : ∀ o way r, k.sh.proof = some (o, some way, r) → .verified o way ∈ h
  resumed : ∀ o v, k.sh.proof = some (o, v, true) → ∃ sess, .resumed o sess ∈ h

/-- What the flags of a connection say of the history. -/
structure Gate (h : List Obs) (k : Conn) : Prop where
  approved : k.sh.approved = true → ∃ q, k.sh.proof = some q ∧ Approved h q.1
  paused : ∀ q, k.sh.proof = some q → k.sh.state = .peerAuth → .returned q.1 ST_PeerAuth ∈ h
  driven : k.call = some .doHandshake → k.sh.state = .peerAuth → k.sh.approved = true
  connected : ∀ q, k.sh.proof = some q → k.sh.state = .connected → k.sh.serverSide = false →
    Trusted h q.1
  unbroken : ∀ q, k.sh.proof = some q → k.sh.state = .handshaking → k.sh.serverSide = false →
    k.sh.breakAuth = false → k.sh.approved = false → q.2.1 ≠ some .breakAuth

variable {c : Ctx} {sid : Sid} {w w' : World} {h : List Obs} {k k' : Conn} {a : Act}

theorem proof_of_ssl {x : Ssl} (ssl : k.sh.ssl = some x) :
    k.sh.proof = some (x.id, x.verify, x.resumed) := by
  rw [Shadow.proof, ssl, Option.map_some]

theorem Recorded.append (hr : Recorded h k) (later : List Obs) : Recorded (later ++ h) k where
  verified o way r hp := List.mem_append_right later (hr.verified o way r hp)
  resumed o v hp := (hr.resumed o v hp).imp fun _ hm => List.mem_append_right later hm

theorem Gate.append (hg : Gate h k) (later : List Obs) : Gate (later ++ h) k where
  approved ha := (hg.approved ha).imp fun _ hq => ⟨hq.1, hq.2.append later⟩
  paused q hp hs := List.mem_append_right later (hg.paused q hp hs)
  driven := hg.driven
  connected q hp hs hc := (hg.connected q hp hs hc).append later
  unbroken := hg.unbroken

theorem Recorded.down (hx : k.sh.ssl = none) : Recorded h k := by
  have hp : k.sh.proof = none := by rw [Shadow.proof, hx, Option.map_none]
  refine ⟨?_, ?_⟩ <;> simp [hp]

/-- A connection without an object or an approval. -/
theorem Gate.down (hx : k.sh.ssl = none) (ha : k.sh.approved = false)
    (hs : k.sh.state ≠ .peerAuth) : Gate h k := by
  have hp : k.sh.proof = none := by rw [Shadow.proof, hx, Option.map_none]
  refine ⟨?_, ?_, fun _ h => absurd h hs, ?_, ?_⟩ <;> simp [hp, ha]

theorem Recorded.same (hr : Recorded h k) (hp : k'.sh.proof = k.sh.proof) : Recorded h k' where
  verified o way r h' := hr.verified o way r (hp ▸ h')
  resumed o v h' := hr.resumed o v (hp ▸ h')

/-- A change outside what the gate looks at. -/
theorem Gate.same (hg : Gate h k) (hp : k'.sh.proof = k.sh.proof) (hs : k'.sh.state = k.sh.state)
    (ha : k'.sh.approved = k.sh.approved) (hb : k'.sh.breakAuth = k.sh.breakAuth)
    (hc : k'.sh.serverSide = false → k.sh.serverSide = false)
    (hcall : k'.call = some .doHandshake → k.call = some .doHandshake) : Gate h k' where
  approved h' := by
    rw [hp]
    exact hg.approved (ha ▸ h')
  paused q h' hs' := hg.paused q (hp ▸ h') (hs ▸ hs')
  driven h' hs' := ha ▸ hg.driven (hcall h') (hs ▸ hs')
  connected q h' hs' hc' := hg.connected q (hp ▸ h') (hs ▸ hs') (hc hc')
  unbroken q h' hs' hc' hb' ha' := hg.unbroken q (hp ▸ h') (hs ▸ hs') (hc hc') (hb ▸ hb') (ha ▸ ha')

/-! ### The record of verifications and resumptions -/

theorem Recorded.set (hr : Recorded h k) (f : Setter) : Recorded h { sh := f.apply k.sh } := by
  have hp := f.apply_place k.sh
  split_ifs at hp
  · exact .down (congrArg (·.2.2.1) hp)
  · have hx : (f.apply k.sh).ssl = k.sh.ssl := congrArg (·.2.2.1) hp
    exact hr.same (by rw [Shadow.proof, hx, Shadow.proof])

/-- **Every act keeps the record of its connection.** -/
theorem Recorded.effect (hr : Recorded w.hist k) (he : Effect c sid w k a w' k') :
    Recorded w'.hist k' := by
  cases he with
  | set _ f => exact (hr.set f).append _
  | io _ _ _ _ lasting => exact (hr.same (Shadow.proof_of_lasting lasting)).append _
  | refused => exact .down rfl
  | driven =>
    refine (hr.same ?_).append [_, _]
    simp [driveHandshake, shUnblockWrite, Shadow.proof, Function.comp_def]
  | started => exact ⟨by simp [driveHandshake, Shadow.proof, Shadow.started],
      by simp [driveHandshake, Shadow.proof, Shadow.started]⟩
  | @verify _ x _ ssl v =>
    have hold := hr.append ((v.way k.sh).map (Obs.verified x.id)).toList
    refine ⟨fun o way r h' => ?_, fun o u h' => ?_⟩
    · obtain ⟨rfl, hw, -⟩ : x.id = o ∧ v.way k.sh = some way ∧ x.resumed = r := by
        simpa [Shadow.proof] using h'
      rw [hw]
      exact List.mem_cons_self
    · obtain ⟨rfl, -, hr'⟩ : x.id = o ∧ v.way k.sh = u ∧ x.resumed = true := by
        simpa [Shadow.proof] using h'
      exact hold.resumed _ _ (by rw [proof_of_ssl ssl, hr'])
  | @resume _ x sess _ ssl =>
    have hold := hr.append [.resumed x.id sess]
    refine ⟨fun o way r h' => ?_, fun o u h' => ?_⟩
    · obtain ⟨rfl, hv, -⟩ : x.id = o ∧ x.verify = some way ∧ true = r := by
        simpa [Shadow.proof] using h'
      exact hold.verified _ way x.resumed (by rw [proof_of_ssl ssl, hv])
    · obtain ⟨rfl, -⟩ : x.id = o ∧ x.verify = u := by simpa [Shadow.proof] using h'
      exact ⟨sess, List.mem_cons_self⟩
  | suspend _ ssl => exact hr.same (by simp [Shadow.proof, ssl])
  | give | stored | paused | connected | blocked | broken => exact (hr.append _).same rfl
  | server | datagram | same | noCert | dropped | bwrite | finish => exact hr.same rfl

/-! ### The gate of a connection -/

theorem Gate.set (hg : Gate h k) {f : Setter} (hC : Careful (.set f) k) :
    Gate h { sh := f.apply k.sh } := by
  obtain ⟨hrest, hbreak⟩ := hC f rfl
  obtain ⟨ha, hs, hb⟩ := f.apply_trust k.sh
  have hp := f.apply_place k.sh
  by_cases hr : (f.restarts && k.sh.restarts) = true
  · -- the connection goes down, and by the condition without an approval
    rw [if_pos hr] at hp
    refine .down (congrArg (·.2.2.1) hp) ?_ ?_
    · rw [ha]
      simpa [hr] using hrest
    · rw [show (f.apply k.sh).state = .new from congrArg (·.2.1) hp]
      simp
  · rw [if_neg hr] at hp
    have hst : (f.apply k.sh).state = k.sh.state := congrArg (·.2.1) hp
    have hx : (f.apply k.sh).ssl = k.sh.ssl := congrArg (·.2.2.1) hp
    have hpr : (f.apply k.sh).proof = k.sh.proof := by rw [Shadow.proof, hx, Shadow.proof]
    rcases hb with hb | ⟨val, rfl, hb⟩
    · exact hg.same hpr hst ha hb (fun h => hs ▸ h) (by simp)
    · refine ⟨hg.approved, hg.paused, by simp, hg.connected, ?_⟩
      intro q hq hs' hc' hb' ha' hv
      obtain rfl : val = false := hb'
      obtain ⟨x, hx', rfl⟩ := Option.map_eq_some_iff.mp hq
      exact hbreak rfl hs' hc' ha' x hx' hv

/-- Entering the handshake in the pause approves the object. -/
theorem Gate.drive (hg : Gate w.hist k) (hk : Shaped k) (hup : k.sh.state.isUp) :
    Gate (driveHandshake c sid w (shUnblockWrite k.sh)).1.hist
      (driveHandshake c sid w (shUnblockWrite k.sh)).2 := by
  have hold : Gate (driveHandshake c sid w (shUnblockWrite k.sh)).1.hist k := hg.append [_, _]
  have hp : (driveHandshake c sid w (shUnblockWrite k.sh)).2.sh.proof = k.sh.proof := by
    simp [driveHandshake, shUnblockWrite, Shadow.proof, Function.comp_def]
  have ha : (driveHandshake c sid w (shUnblockWrite k.sh)).2.sh.approved =
      (k.sh.approved || decide (k.sh.state = .peerAuth)) := rfl
  refine ⟨fun h' => ?_, fun q h' => hold.paused q (hp ▸ h'), fun _ hs => ?_,
    fun q h' => hold.connected q (hp ▸ h'), fun q h' hs hc hb ha' => ?_⟩
  · rw [ha, Bool.or_eq_true, decide_eq_true_eq] at h'
    rcases h' with h' | hs
    · rw [hp]
      exact hold.approved h'
    · obtain ⟨x, hx⟩ := Option.isSome_iff_exists.mp (hk.up hup).2
      have hq := proof_of_ssl hx
      refine ⟨_, hp.trans hq, approved_cons.mpr (Or.inl ⟨sid, ?_, ?_⟩)⟩
      · simp [Shadow.sslId, shUnblockWrite, hx]
      · exact List.mem_cons_of_mem _ (hg.paused _ hq hs)
  · rw [ha, show k.sh.state = .peerAuth from hs]
    simp
  · rw [ha, Bool.or_eq_false_iff] at ha'
    exact hold.unbroken q (hp ▸ h') hs hc hb ha'.1

/-- `verify_chain` passes a chain for the application alone only under the break. -/
theorem way_breakAuth {s : Shadow} {v : Verdict} (hf : v.fits s = true)
    (hw : v.way s = some .breakAuth) : s.breakAuth = true := by
  cases v with
  | unlooked =>
    have hu : s.unlooked = true := by simpa [Verdict.fits] using hf
    have hn : s.noCertVerify = false := by simpa [Verdict.way] using hw
    rw [Shadow.unlooked, hn, Bool.or_false, Bool.and_eq_true] at hu
    exact hu.2
  | refused => simp [Verdict.way] at hw
  | cached => simp [Verdict.way] at hw
  | evaluated ok => cases ok <;> simp [Verdict.way] at hw

/-- A new answer of `verify_chain`, or a resumption. -/
theorem Gate.object (hg : Gate h k) {x : Ssl} (ssl : k.sh.ssl = some x) {v : Option VerifyWay}
    {r : Bool} (hb : k.sh.breakAuth = false → v = some .breakAuth → x.verify = some .breakAuth) :
    Gate h { k with sh := { k.sh with ssl := some { x with verify := v, resumed := r } } } := by
  have hq := proof_of_ssl ssl
  refine ⟨?_, ?_, hg.driven, ?_, ?_⟩
  · intro ha
    obtain ⟨q, hq', hap⟩ := hg.approved ha
    obtain rfl := Option.some.inj (hq.symm.trans hq')
    exact ⟨_, rfl, hap⟩
  · intro q h' hs
    obtain rfl := Option.some.inj h'
    have hm := hg.paused _ hq hs
    exact hm
  · intro q h' hs hc
    obtain rfl := Option.some.inj h'
    have ht := hg.connected _ hq hs hc
    exact ht
  · intro q h' hs hc hb' ha hw
    obtain rfl := Option.some.inj h'
    exact hg.unbroken _ hq hs hc hb' ha (hb hb' hw)

/-- What stands behind a client's connection when OpenSSL completes its handshake. -/
theorem Gate.trusted (hg : Gate h k) (hr : Recorded h k) (hk : Shaped k) {x : Ssl}
    (busy : k.call = some .doHandshake) (ssl : k.sh.ssl = some x) (client : k.sh.serverSide = false)
    (checked : k.sh.serverSide = true ∨ x.verify.isSome = true ∨ x.resumed = true)
    (approved : k.sh.serverSide = false → k.sh.breakAuth = true → k.sh.approved = true) :
    Trusted h x.id := by
  have hq := proof_of_ssl ssl
  by_cases ha : k.sh.approved = true
  · obtain ⟨q, hq', hap⟩ := hg.approved ha
    obtain rfl := Option.some.inj (hq.symm.trans hq')
    exact Or.inr hap
  have ha' : k.sh.approved = false := by simpa using ha
  have hb : k.sh.breakAuth = false := by
    by_contra hb
    exact ha (approved client (by simpa using hb))
  rcases checked with hs | hv | hres
  · rw [client] at hs
    simp at hs
  · obtain ⟨way, hw⟩ := Option.isSome_iff_exists.mp hv
    by_cases hway : way = .breakAuth
    · -- the state tells when the break was lifted
      rcases hk.busy (by simp [busy]) with hs | hs | hs
      · exact absurd (hw.trans (congrArg some hway)) (hg.unbroken _ hq hs client hb ha')
      · exact absurd (hg.driven busy hs) ha
      · have ht := hg.connected _ hq hs client
        exact ht
    · exact Or.inl (Or.inl ⟨way, hway, hr.verified x.id way x.resumed (by rw [hq, hw])⟩)
  · exact Or.inl (Or.inr (hr.resumed x.id x.verify (by rw [hq, hres])))

/-- **Every careful act keeps the gate of its connection.** -/
theorem Gate.effect (hg : Gate w.hist k) (hr : Recorded w.hist k) (hk : Shaped k) (hC : Careful a k)
    (he : Effect c sid w k a w' k') : Gate w'.hist k' := by
  have hbare : k.sh.inited = false → k.sh.ssl = none ∧ k.sh.approved = false := by
    intro hi
    refine ⟨hk.bare hi, ?_⟩
    by_contra ha
    obtain ⟨q, hq, -⟩ := hg.approved (by simpa using ha)
    simp [Shadow.proof, hk.bare hi] at hq
  cases he with
  | server => exact hg.same rfl rfl rfl rfl (by simp) (by simp)
  | datagram => exact hg.same rfl rfl rfl rfl (fun h => h) (by simp)
  | set _ f => exact (hg.set hC).append _
  | same => exact hg
  | io _ _ _ call lasting =>
    refine (hg.same ?_ (Shadow.state_of_lasting lasting) ?_ ?_ (fun h => ?_) fun h => ?_).append _
    · exact Shadow.proof_of_lasting lasting
    · exact (congrArg Shadow.approved lasting : _)
    · exact (congrArg Shadow.breakAuth lasting : _)
    · exact (congrArg Shadow.serverSide lasting).symm.trans h
    · exact absurd h call
  | refused _ _ new => exact .down rfl (hbare new).2 (by simp [Shadow.refused])
  | driven _ _ inited native =>
    exact hg.drive hk (hk.isUp_of_inited inited (Shadow.state_of_native native))
  | started _ _ new =>
    refine ⟨?_, ?_, ?_, ?_, ?_⟩
    · simp [driveHandshake, Shadow.started, shUnblockWrite, (hbare new).2]
    · simp [driveHandshake, Shadow.started]
    · simp [driveHandshake, Shadow.started]
    · simp [driveHandshake, Shadow.started]
    · intro q hq _ _ _ _
      obtain rfl := Option.some.inj hq
      simp
  | verify busy ssl v fits =>
    rw [← busy]
    refine (hg.object ssl fun hb hw => ?_).append _
    rw [way_breakAuth fits hw] at hb
    simp at hb
  | resume busy ssl =>
    rw [← busy]
    exact (hg.object ssl fun _ hw => hw).append _
  | noCert => exact hg
  | suspend busy ssl =>
    refine hg.same ?_ rfl rfl rfl (fun h => h) fun h => busy.trans h
    simp [Shadow.proof, ssl]
  | give => exact hg.append _
  | dropped => exact hg
  | stored => exact hg.append [_]
  | bwrite busy => exact hg.same rfl rfl rfl rfl (fun h => h) fun h => busy.trans h
  | @paused x busy ssl =>
    have hold := hg.append [.returned x.id ST_PeerAuth]
    refine ⟨hold.approved, ?_, by simp, by simp, by simp⟩
    intro q hq _
    obtain ⟨x', hx, rfl⟩ := Option.map_eq_some_iff.mp hq
    obtain rfl := Option.some.inj (ssl.symm.trans hx)
    exact List.mem_cons_self
  | @connected x busy ssl checked approved =>
    have hold := hg.append [.connected x.id k.sh.serverSide, .returned x.id noErr]
    refine ⟨hold.approved, by simp, by simp, ?_, by simp⟩
    intro q hq _ hc
    obtain ⟨x', hx, rfl⟩ := Option.map_eq_some_iff.mp hq
    obtain rfl := Option.some.inj (ssl.symm.trans hx)
    exact hold.trusted (hr.append _) hk busy ssl hc checked approved
  | @blocked x busy =>
    have hold := hg.append [.returned x.id errSSLWouldBlock]
    exact hold.same rfl rfl rfl rfl (fun h => h) (by simp)
  | @broken x busy _ _ rv =>
    have hold := hg.append [.returned x.id rv]
    exact ⟨hold.approved, by simp, by simp, by simp, by simp⟩
  | finish => exact hg.same rfl rfl rfl rfl (fun h => h) (by simp)

/-- **Every act of a gated connection is gated.** -/
theorem Gate.gated (hg : Gate w.hist k) (hr : Recorded w.hist k) (hk : Shaped k)
    (hw : Along Obs.Gated w.hist) (he : Effect c sid w k a w' k') : Along Obs.Gated w'.hist := by
  have hfree : ∀ obs : List Obs, (∀ o, .connected o false ∉ obs ∧ .certGiven o true ∉ obs) →
      Along Obs.Gated (obs ++ w.hist) := by
    intro obs hobs
    refine hw.append_mem ?_
    rintro x hx past o (rfl | rfl)
    · exact absurd hx (hobs o).1
    · exact absurd hx (hobs o).2
  cases he with
  | set _ f =>
    refine hfree _ fun o => ?_
    unfold Setter.frees
    split_ifs <;> simp
  | io _ _ _ _ _ uses =>
    refine hfree _ fun o => ⟨fun hm => ?_, fun hm => ?_⟩
    · obtain ⟨op, h, -⟩ := uses _ hm
      simp at h
    · obtain ⟨op, h, -⟩ := uses _ hm
      simp at h
  | refused _ _ _ _ made =>
    rcases made with rfl | rfl
    · exact hw
    · exact hfree [_, _] (by simp)
  | driven => exact hfree [_, _] (by simp)
  | started _ _ _ _ _ hoffered =>
    rcases hoffered with ⟨-, rfl⟩ | ⟨cached, -, rfl, -⟩
    · exact hfree [_, _, _] (by simp)
    · exact hfree [_, _, _, _] (by simp)
  | @verify _ x _ _ v =>
    refine hfree _ fun o => ?_
    cases v.way k.sh <;> simp
  | resume => exact hfree [_] (by simp)
  | @give _ x _ ssl _ _ _ approved =>
    refine ⟨?_, hw⟩
    rintro o (h' | h')
    · simp at h'
    · obtain ⟨rfl, hb⟩ : x.id = o ∧ k.sh.breakAuth = true := by simpa using h'
      obtain ⟨q, hq, hap⟩ := hg.approved (approved hb)
      obtain rfl := Option.some.inj ((proof_of_ssl ssl).symm.trans hq)
      exact Or.inr hap
  | stored => exact hfree [_] (by simp)
  | paused => exact hfree [_] (by simp)
  | @connected x busy ssl checked approved =>
    refine ⟨?_, hfree [_] (by simp)⟩
    rintro o (h' | h')
    · obtain ⟨rfl, hc⟩ : x.id = o ∧ k.sh.serverSide = false := by simpa using h'
      exact (hg.trusted hr hk busy ssl hc checked approved).append [_]
    · simp at h'
  | blocked => exact hfree [_] (by simp)
  | broken => exact hfree [_] (by simp)
  | server | datagram | same | noCert | suspend | dropped | bwrite | finish => exact hw

/-! ### The gate over runs -/

theorem recorded_kept : Kept anyAct (fun w => w.NoNull ∧ True)
    fun w k => Shaped k ∧ Recorded w.hist k :=
  shaped_kept.over trivial (fun _ => .down rfl)
    (fun hle hk => by
      obtain ⟨-, obs, hobs⟩ := hle
      rw [hobs]
      exact hk.append obs)
    (fun _ _ => trivial) (fun _ _ => trivial) (fun _ _ _ _ hk he => ⟨trivial, hk.effect he⟩)

theorem trust_kept : Kept Careful (fun w => (w.NoNull ∧ True) ∧ Along Obs.Gated w.hist)
    fun w k => (Shaped k ∧ Recorded w.hist k) ∧ Gate w.hist k := by
  refine recorded_kept.over trivial (fun _ => .down rfl rfl (by simp)) ?_ ?_ ?_ ?_
  · intro w w' k hle hk
    obtain ⟨-, obs, hobs⟩ := hle
    rw [hobs]
    exact hk.append obs
  · intro w x hx hw
    refine hw.append_mem fun y hy past o h => ?_
    obtain rfl := List.mem_singleton.mp hy
    rcases h with rfl | rfl <;> simp [Obs.isNote] at hx
  · intro w s k hw _
    refine hw.append_mem fun y hy past o h => ?_
    unfold Proc.frees at hy
    rcases h with rfl | rfl <;> simp at hy
  · intro c s w k a w' k' hC _ hB hw hk he
    exact ⟨hk.gated hB.2 hB.1 hw he, hk.effect hB.2 hB.1 hC he⟩

theorem mild_careful : Mild Careful where
  set f g hg := by
    obtain rfl := Act.set.inj hg
    exact ⟨by simp [Shadow.restarts], fun _ hs => by simp at hs⟩
  server k f hf := by simp at hf
  datagram k f hf := by simp at hf

/-- **Trust gate.**  In every run of the hooks and of OpenSSL's callbacks whose setters are careful,
whenever a client's state becomes `CONNECTED` and whenever its certificate is given under the break,
the SSL object is trusted by what happened on that very object; and an approval in force is one that
was given for the object in place. -/
theorem trust_gate {evs : List Event} {p : Proc} (h : Path (Proc.NextIf Careful) {} evs p) :
    (∀ later past o, (p.world.hist = later ++ .connected o false :: past ∨
      p.world.hist = later ++ .certGiven o true :: past) → Trusted past o) ∧
    ∀ s c k, p.conc.tab.look s = some (c, k) → k.sh.approved = true →
      ∃ x, k.sh.ssl = some x ∧ Approved p.world.hist x.id := by
  obtain ⟨-, ⟨-, hw⟩, hL⟩ := trust_kept.invariant mild_careful h
  have hall := along_iff.mp hw
  refine ⟨fun later past o ho => ?_, fun s c k hl ha => ?_⟩
  · rcases ho with ho | ho
    · exact hall later _ past ho o (Or.inl rfl)
    · exact hall later _ past ho o (Or.inr rfl)
  · obtain ⟨q, hq, hap⟩ := (hL s c k hl).2.approved ha
    obtain ⟨x, hx, rfl⟩ := Option.map_eq_some_iff.mp hq
    exact ⟨x, hx, hap⟩

/-- The handshake pauses for the application, which approves the server and goes on. -/
def approvedRun : List Event :=
  [.create 1 false false true, .set 1 (.setIOFuncs 1 1) true, .set 1 (.setConnection 1) true,
    .set 1 (.setBreakOnServerAuth true) true, .call 1 (.enter {}), .cont 1 (.verify .unlooked),
    .cont 1 (.leave .done), .call 1 (.enter {}), .cont 1 (.leave .done)]

theorem approvedRun_isSome : (exec Proc.step {} approvedRun).isSome = true := by
  decide +kernel

theorem trust_gate_approvedRun : ∃ past, Path (Proc.NextIf Careful) {} approvedRun
    ((exec Proc.step {} approvedRun).get approvedRun_isSome) ∧
    ((exec Proc.step {} approvedRun).get approvedRun_isSome).world.hist =
      .connected 0 false :: past ∧ Trusted past 0 := by
  have h : Path (Proc.NextIf Careful) {} approvedRun
      ((exec Proc.step {} approvedRun).get approvedRun_isSome) := by
    refine Path.obeys (exec_path_get approvedRun_isSome) fun e he c a ha k f hf => ?_
    subst hf
    simp only [approvedRun, List.mem_cons, List.not_mem_nil, or_false] at he
    rcases he with rfl | rfl | rfl | rfl | rfl | rfl | rfl | rfl | rfl <;>
      simp [Event.act] at ha <;> obtain ⟨-, rfl⟩ := ha <;> exact ⟨rfl, by simp⟩
  refine ⟨((exec Proc.step {} approvedRun).get approvedRun_isSome).world.hist.tail, h, ?_, ?_⟩
  · decide +kernel
  · exact (trust_gate h).1 [] _ 0 (Or.inl (by decide +kernel))

/-! ### Where the gate is open -/

/-- The application approves the first server, and its certificate goes out; then the peer's name is
set late, and the second server gets the certificate and the connection unasked. -/
def approvalCarriedRun : List Event :=
  [.create 1 false false true, .set 1 (.setIOFuncs 1 1) true, .set 1 (.setConnection 1) true,
    .set 1 (.setBreakOnServerAuth true) true, .set 1 (.setCertificate false false (some 5)) true,
    .call 1 (.enter {}), .cont 1 (.verify .unlooked), .cont 1 (.clientCert true),
    .cont 1 (.leave .wantX509Lookup), .call 1 (.enter {}), .cont 1 (.clientCert true),
    .cont 1 (.leave .wantReadWrite), .set 1 (.setPeerDomainName [104]) true, .call 1 (.enter {}),
    .cont 1 (.verify .unlooked), .cont 1 (.clientCert true), .cont 1 (.leave .done)]

/-- The break is lifted between `verify_chain`'s answer and the end of the handshake. -/
def breakLiftedRun : List Event :=
  [.create 1 false false true, .set 1 (.setIOFuncs 1 1) true, .set 1 (.setConnection 1) true,
    .set 1 (.setBreakOnServerAuth true) true, .call 1 (.enter {}), .cont 1 (.verify .unlooked),
    .cont 1 (.leave .wantReadWrite), .set 1 (.setBreakOnServerAuth false) true, .call 1 (.enter {}),
    .cont 1 (.leave .done)]

theorem approvalCarriedRun_isSome : (exec Proc.step {} approvalCarriedRun).isSome = true := by
  decide +kernel

theorem breakLiftedRun_isSome : (exec Proc.step {} breakLiftedRun).isSome = true := by
  decide +kernel

/-- Without care a client connects, and gives its certificate, on an object that nobody trusted. -/
theorem trust_gate_fails :
    (∃ p later past past', Path Proc.Next {} approvalCarriedRun p ∧
      p.world.hist = .connected 1 false :: past ∧ ¬ Trusted past 1 ∧
      p.world.hist = later ++ .certGiven 1 true :: past' ∧ ¬ Trusted past' 1) ∧
    ∃ p past, Path Proc.Next {} breakLiftedRun p ∧
      p.world.hist = .connected 0 false :: past ∧ ¬ Trusted past 0 := by
  constructor
  · let p := (exec Proc.step {} approvalCarriedRun).get approvalCarriedRun_isSome
    refine ⟨p, p.world.hist.take 2, p.world.hist.tail, p.world.hist.drop 3,
      exec_path_get approvalCarriedRun_isSome, ?_, ?_, ?_, ?_⟩
    · decide +kernel
    · decide +kernel
    · decide +kernel
    · decide +kernel
  · let p := (exec Proc.step {} breakLiftedRun).get breakLiftedRun_isSome
    refine ⟨p, p.world.hist.tail, exec_path_get breakLiftedRun_isSome, ?_, ?_⟩
    · decide +kernel
    · decide +kernel

end AquaTransport
