import AquaTransport.Hooks.TrustGate

/-!
# AquaTransport.Hooks.Resumption — which sessions the cache hands out, and to whom

A resumed connection is not verified again, so an offered session has to be `Sound`: a connection
stored it after `verify_chain` had looked at its chain, or after it had itself resumed a sound one.
`new_session_cb` does not look at how `verify_chain` answered; `resumption_sound` holds of the runs
in which it is not called on an unlooked chain (`Vetted`), and `resumption_fails` has a run in which
it is.
-/

namespace AquaTransport

variable {c : Ctx} {sid : Sid} {w w' : World} {h : List Obs} {k k' : Conn} {a : Act}

/-! ### Sound sessions -/

/-- The session was stored by a connection whose chain `verify_chain` had looked at, or that had
resumed a sound session. -/
inductive Sound : List Obs → SessId → Prop
  | looked {past : List Obs} {c : Ctx} {o : SslId} {key : Bytes} {sess : SessId} {way : VerifyWay}
      (verified : .verified o way ∈ past) (look : way.looked = true) :
      Sound (.stored c o key sess :: past) sess
  | resumed {past : List Obs} {c : Ctx} {o : SslId} {key : Bytes} {sess sess' : SessId}
      (resumed : .resumed o sess' ∈ past) (sound : Sound past sess') :
      Sound (.stored c o key sess :: past) sess
  | later {past : List Obs} {sess : SessId} (x : Obs) (sound : Sound past sess) :
      Sound (x :: past) sess

theorem Sound.append {sess : SessId} (hs : Sound h sess) (later : List Obs) :
    Sound (later ++ h) sess := by
  induction later with
  | nil => exact hs
  | cons x later ih => exact .later x ih

/-- Behind a sound session, however often it was resumed and stored again, there is a chain that
`verify_chain` looked at. -/
theorem Sound.root {sess : SessId} (hs : Sound h sess) :
    ∃ o way, way.looked = true ∧ .verified o way ∈ h := by
  induction hs with
  | looked verified look => exact ⟨_, _, look, List.mem_cons_of_mem _ verified⟩
  | resumed _ _ ih =>
    obtain ⟨o, way, hl, hm⟩ := ih
    exact ⟨o, way, hl, List.mem_cons_of_mem _ hm⟩
  | later x _ ih =>
    obtain ⟨o, way, hl, hm⟩ := ih
    exact ⟨o, way, hl, List.mem_cons_of_mem _ hm⟩

/-- A session comes to a connection whose chain was looked at, or that resumed, or that does not
store it. -/
def Vetted : Act → Conn → Prop
  | .newSession, k => k.sh.peerIDLen ≠ 0 → k.sh.clientX509 = none →
      ∀ x ∈ k.sh.ssl, x.resumed = true ∨ x.verify.any VerifyWay.looked = true
  | _, _ => True

instance : ∀ a k, Decidable (Vetted a k)
  | .newSession, _ => inferInstanceAs (Decidable (_ → _ → _))
  | .markServerSide, _ | .markDatagram, _ | .set _, _ | .enter _, _ | .read .., _ | .write .., _
  | .getBufferedReadSize, _ | .copyPeerTrust _, _ | .copyPeerCertificates, _ | .close _, _
  | .verify _, _ | .resume, _ | .clientCert _, _ | .bwrite _, _ | .leave _, _ | .finish, _ =>
    inferInstanceAs (Decidable True)

/-- An offered session is sound, and one that is stored has a reason to be. -/
def Obs.Vouched (past : List Obs) (x : Obs) : Prop :=
  (∀ c o key sess v, x = .offered c o key sess v → Sound past sess) ∧
  ∀ c o key sess, x = .stored c o key sess →
    (∃ way, way.looked = true ∧ .verified o way ∈ past) ∨
      ∃ sess', .resumed o sess' ∈ past ∧ Sound past sess'

/-- The sessions in the cache and those resumed are sound. -/
structure World.Vouched (w : World) : Prop where
  cache : ∀ i key sess, w.sess.look i = some (key, sess) → Sound w.hist sess
  resumed : ∀ o sess, .resumed o sess ∈ w.hist → Sound w.hist sess
  along : Along Obs.Vouched w.hist

/-- The session that a connection offers is sound. -/
def Offers (h : List Obs) (k : Conn) : Prop :=
  ∀ x sess, k.sh.ssl = some x → x.offered = some sess → Sound h sess

theorem Offers.append (ho : Offers h k) (later : List Obs) : Offers (later ++ h) k :=
  fun x sess hx hs => (ho x sess hx hs).append later

/-- An observation about a session. -/
def Obs.session : Obs → Bool
  | .resumed .. | .offered .. | .stored .. => true
  | _ => false

theorem vouched_of_not_session {x : Obs} (hx : x.session = false) (past : List Obs) :
    x.Vouched past := by
  constructor
  · rintro c o key sess v rfl
    simp [Obs.session] at hx
  · rintro c o key sess rfl
    simp [Obs.session] at hx

/-- The world after observations that are not about sessions. -/
theorem World.Vouched.quiet (hw : w.Vouched) (obs : List Obs) (hh : w'.hist = obs ++ w.hist)
    (hs : w'.sess.look = w.sess.look) (hobs : ∀ x ∈ obs, x.session = false) : w'.Vouched := by
  refine ⟨fun i key sess hi => ?_, fun o sess hm => ?_, ?_⟩
  · rw [hh]
    exact (hw.cache i key sess (hs ▸ hi)).append obs
  · rw [hh] at hm ⊢
    rcases List.mem_append.mp hm with hm | hm
    · have := hobs _ hm
      simp [Obs.session] at this
    · exact (hw.resumed o sess hm).append obs
  · rw [hh]
    exact hw.along.append_mem fun x hx past => vouched_of_not_session (hobs x hx) _

theorem World.Vouched.resume (hw : w.Vouched) {o : SslId} {sess : SessId}
    (hs : Sound w.hist sess) : (w.log [.resumed o sess]).Vouched := by
  refine ⟨fun i key s hi => (hw.cache i key s hi).append [_], fun o' s hm => ?_, ?_, hw.along⟩
  · rcases List.mem_cons.mp hm with h' | hm
    · obtain ⟨-, rfl⟩ := Obs.resumed.inj h'
      exact hs.append [_]
    · exact (hw.resumed o' s hm).append [_]
  · exact ⟨by simp, by simp⟩

theorem World.Vouched.offer (hw : w.Vouched) {o : SslId} {key : Bytes} {sess : SessId} {v : Bool}
    (hs : Sound w.hist sess) : (w.log [.offered c o key sess v]).Vouched := by
  refine ⟨fun i key s hi => (hw.cache i key s hi).append [_], fun o' s hm => ?_, ?_, hw.along⟩
  · rcases List.mem_cons.mp hm with h' | hm
    · simp at h'
    · exact (hw.resumed o' s hm).append [_]
  · refine ⟨?_, by simp⟩
    intro c' o' key' s v' he
    obtain ⟨-, -, -, rfl, -⟩ := Obs.offered.inj he
    exact hs

theorem World.Vouched.store (hw : w.Vouched) {x : Ssl} {key : Buf256} {len : ℕ} {bytes : Bytes}
    (hx : (∃ way, way.looked = true ∧ .verified x.id way ∈ w.hist) ∨
      ∃ sess, .resumed x.id sess ∈ w.hist) :
    ({ w with
      sess := sessPut w.sess key len w.nextSess
      nextSess := w.nextSess + 1 }.log [.stored c x.id bytes w.nextSess]).Vouched := by
  have hx' : (∃ way, way.looked = true ∧ .verified x.id way ∈ w.hist) ∨
      ∃ sess', .resumed x.id sess' ∈ w.hist ∧ Sound w.hist sess' :=
    hx.imp_right fun ⟨sess, hm⟩ => ⟨sess, hm, hw.resumed x.id sess hm⟩
  have hnew : Sound (.stored c x.id bytes w.nextSess :: w.hist) w.nextSess := by
    rcases hx' with ⟨way, hl, hm⟩ | ⟨sess, hm, hs⟩
    · exact .looked hm hl
    · exact .resumed hm hs
  refine ⟨fun i k s hi => ?_, fun o s hm => ?_, ⟨by simp, ?_⟩, hw.along⟩
  · rcases sessPut_look w.sess key len w.nextSess with hl | ⟨j, hl⟩
    · exact (hw.cache i k s (hl ▸ hi)).append [_]
    · have hi' : (sessPut w.sess key len w.nextSess).look i = some (k, s) := hi
      rw [hl] at hi'
      rcases update_eq_some_iff.mp hi' with ⟨-, h'⟩ | ⟨-, h'⟩
      · obtain ⟨-, rfl⟩ := Prod.mk.inj (Option.some.inj h')
        exact hnew
      · exact (hw.cache i k s h').append [_]
  · rcases List.mem_cons.mp hm with h' | hm
    · simp at h'
    · exact (hw.resumed o s hm).append [_]
  · intro c' o key' s he
    obtain ⟨-, rfl, -, -⟩ := Obs.stored.inj he
    exact hx'

/-- **Every vetted act keeps the sessions vouched for.** -/
theorem World.Vouched.effect (hw : w.Vouched) (ho : Offers w.hist k) (hr : Recorded w.hist k)
    (hC : Vetted a k) (he : Effect c sid w k a w' k') : w'.Vouched ∧ Offers w'.hist k' := by
  have hsame : ∀ {k' : Conn}, k'.sh.ssl = k.sh.ssl → Offers w.hist k' := by
    intro k' hx x sess h hs
    exact ho x sess (hx ▸ h) hs
  have hquiet : ∀ {obs : List Obs}, (∀ x ∈ obs, x.session = false) → (w.log obs).Vouched :=
    fun h => hw.quiet _ rfl rfl h
  cases he with
  | set _ f =>
    refine ⟨hquiet fun x hx => ?_, Offers.append (fun x sess hx hs => ?_) _⟩
    · unfold Setter.frees at hx
      split_ifs at hx
      · obtain rfl := List.mem_singleton.mp hx
        rfl
      · simp at hx
    · have hp := f.apply_place k.sh
      split_ifs at hp
      · have hnone : (f.apply k.sh).ssl = none := congrArg (·.2.2.1) hp
        exact absurd (hnone.symm.trans hx) (by simp)
      · have hold : (f.apply k.sh).ssl = k.sh.ssl := congrArg (·.2.2.1) hp
        exact ho x sess (hold.symm.trans hx) hs
  | io _ _ _ _ lasting uses =>
    refine ⟨hquiet fun x hx => ?_, Offers.append (fun x sess hx hs => ?_) _⟩
    · obtain ⟨op, rfl, -⟩ := uses x hx
      rfl
    · obtain ⟨y, hy, he⟩ := Shadow.ssl_of_lasting lasting hx
      have hoff : y.offered = x.offered := by simpa using congrArg Ssl.offered he
      exact ho y sess hy (hoff.trans hs)
  | refused _ _ _ _ made =>
    rcases made with rfl | rfl
    · exact ⟨hw, by simp [Offers, Shadow.refused]⟩
    · exact ⟨hw.quiet [_, _] rfl rfl (by simp [Obs.session]), by simp [Offers, Shadow.refused]⟩
  | driven =>
    refine ⟨hquiet (by simp [Obs.session]), Offers.append (fun x sess hx hs => ?_) [_, _]⟩
    obtain ⟨y, hy, rfl⟩ := Option.map_eq_some_iff.mp hx
    exact ho y sess hy hs
  | @started _ env _ _ sess obs offered hsess hoffered =>
    have hnew : ({ w with sess := sess, nextSsl := w.nextSsl + 1 }.log
        [.sslNew sid w.nextSsl k.sh.clientX509.isSome]).Vouched :=
      hw.quiet [_] rfl hsess (by simp [Obs.session])
    rcases hoffered with ⟨rfl, rfl⟩ | ⟨cached, rfl, rfl, -, -, i, hi⟩
    · refine ⟨hnew.quiet [_, _] rfl rfl (by simp [Obs.session]), fun x s hx hs => ?_⟩
      obtain rfl := Option.some.inj hx
      simp at hs
    · have hs := (hw.cache i _ _ hi).append [.sslNew sid w.nextSsl k.sh.clientX509.isSome]
      refine ⟨(hnew.offer hs).quiet [_, _] rfl rfl (by simp [Obs.session]),
        fun x s hx hs' => ?_⟩
      obtain rfl := Option.some.inj hx
      obtain rfl := Option.some.inj hs'
      exact hs.append [_, _, _]
  | verify _ ssl v =>
    refine ⟨hquiet fun x hx => ?_, Offers.append (fun x sess hx hs => ?_) _⟩
    · obtain ⟨way, -, rfl⟩ := Option.map_eq_some_iff.mp (Option.mem_toList.mp hx)
      rfl
    · obtain rfl := Option.some.inj hx
      exact ho _ sess ssl hs
  | resume _ ssl offered =>
    refine ⟨hw.resume (ho _ _ ssl offered), Offers.append (fun x sess hx hs => ?_) [_]⟩
    obtain rfl := Option.some.inj hx
    exact ho _ sess ssl hs
  | suspend _ ssl =>
    refine ⟨hw, fun x sess hx hs => ?_⟩
    obtain rfl := Option.some.inj hx
    exact ho _ sess ssl hs
  | @stored _ x _ ssl _ _ keyed bare =>
    refine ⟨hw.store ?_, ho.append [_]⟩
    have hq := proof_of_ssl ssl
    rcases hC keyed bare x ssl with hres | hany
    · exact Or.inr (hr.resumed x.id x.verify (by rw [hq, hres]))
    · cases hv : x.verify with
      | none => simp [hv] at hany
      | some way =>
        have hl : way.looked = true := by simpa [hv] using hany
        exact Or.inl ⟨way, hl, hr.verified x.id way x.resumed (by rw [hq, hv])⟩
  | dropped => exact ⟨⟨hw.cache, hw.resumed, hw.along⟩, ho⟩
  | give | paused | connected | blocked | broken =>
    exact ⟨hquiet (by simp [Obs.session]), Offers.append (hsame rfl) _⟩
  | server | datagram | same | noCert | bwrite | finish => exact ⟨hw, hsame rfl⟩

/-! ### Resumption over runs -/

theorem vouched_kept : Kept Vetted (fun w => (w.NoNull ∧ True) ∧ w.Vouched)
    fun w k => (Shaped k ∧ Recorded w.hist k) ∧ Offers w.hist k := by
  refine recorded_kept.over ⟨?_, ?_, trivial⟩ ?_ ?_ ?_ ?_ ?_
  · simp [SessTable.look]
  · simp
  · intro w x sess hx
    simp at hx
  · intro w w' k hle hk
    obtain ⟨-, obs, hobs⟩ := hle
    rw [hobs]
    exact hk.append obs
  · intro w x hx hw
    refine hw.quiet [x] rfl rfl ?_
    cases x <;> simp_all [Obs.session, Obs.isNote]
  · intro w s k hw _
    refine hw.quiet _ rfl rfl fun x hx => ?_
    obtain ⟨o, -, rfl⟩ := Option.map_eq_some_iff.mp (Option.mem_toList.mp hx)
    rfl
  · intro c s w k a w' k' hC _ hB hw hk he
    exact hw.effect hk hB.2 hC he

theorem mild_vetted : Mild Vetted := ⟨by simp [Vetted], by simp [Vetted], by simp [Vetted]⟩

/-- **Resumption.**  In every run of any number of connections in which sessions come to vetted
connections only, every session that `ossl_init` offers is sound, every one that is stored has a
reason to be, and so every connection that resumes rests on a chain that `verify_chain` looked at. -/
theorem resumption_sound {evs : List Event} {p : Proc} (h : Path (Proc.NextIf Vetted) {} evs p) :
    (∀ later past c o key sess v, p.world.hist = later ++ .offered c o key sess v :: past →
      Sound past sess) ∧
    (∀ later past c o key sess, p.world.hist = later ++ .stored c o key sess :: past →
      (∃ way, way.looked = true ∧ .verified o way ∈ past) ∨
        ∃ sess', .resumed o sess' ∈ past ∧ Sound past sess') ∧
    ∀ o sess, .resumed o sess ∈ p.world.hist → Sound p.world.hist sess := by
  obtain ⟨-, ⟨-, hw⟩, -⟩ := vouched_kept.invariant mild_vetted h
  have hall := along_iff.mp hw.along
  refine ⟨fun later past c o key sess v he => ?_, fun later past c o key sess he => ?_, hw.resumed⟩
  · exact (hall later _ past he).1 c o key sess v rfl
  · exact (hall later _ past he).2 c o key sess rfl

/-- A connection that verifies stores a session for the peer id `[7]`, and a second one resumes it. -/
def resumedRun : List Event :=
  [.create 1 false false true, .set 1 (.setIOFuncs 1 1) true, .set 1 (.setConnection 1) true,
    .set 1 (.setPeerID [7]) true, .call 1 (.enter {}), .cont 1 (.verify (.evaluated true)),
    .cont 1 .newSession, .cont 1 (.leave .done),
    .create 2 false false true, .set 2 (.setIOFuncs 2 2) true, .set 2 (.setConnection 2) true,
    .set 2 (.setPeerID [7]) true, .call 2 (.enter {}), .cont 2 .resume, .cont 2 (.leave .done)]

theorem resumedRun_isSome : (exec (Proc.stepIf Vetted) {} resumedRun).isSome = true := by
  decide +kernel

theorem resumption_sound_resumedRun : ∃ p, Path (Proc.NextIf Vetted) {} resumedRun p ∧
    .resumed 1 0 ∈ p.world.hist ∧ Sound p.world.hist 0 := by
  have h := (exec_path_get resumedRun_isSome).mono_mem fun _ _ _ _ hs => Proc.stepIf_next hs
  have hm : .resumed 1 0 ∈
      ((exec (Proc.stepIf Vetted) {} resumedRun).get resumedRun_isSome).world.hist := by
    decide +kernel
  exact ⟨_, h, hm, (resumption_sound h).2.2 1 0 hm⟩

/-- The same, but the first connection verifies no certificates. -/
def lentSessionRun : List Event :=
  [.create 1 false false true, .set 1 (.setIOFuncs 1 1) true, .set 1 (.setConnection 1) true,
    .set 1 (.setPeerID [7]) true, .set 1 (.setEnableCertVerify false) true, .call 1 (.enter {}),
    .cont 1 (.verify .unlooked), .cont 1 .newSession, .cont 1 (.leave .done),
    .create 2 false false true, .set 2 (.setIOFuncs 2 2) true, .set 2 (.setConnection 2) true,
    .set 2 (.setPeerID [7]) true, .call 2 (.enter {}), .cont 2 .resume, .cont 2 (.leave .done)]

theorem lentSessionRun_isSome : (exec Proc.step {} lentSessionRun).isSome = true := by
  decide +kernel

/-- A look of `verify_chain` at a chain. -/
def Obs.looked : Obs → Bool
  | .verified _ way => way.looked
  | _ => false

theorem not_sound_of_unlooked {sess : SessId} (hh : ∀ x ∈ h, x.looked = false) : ¬ Sound h sess := by
  intro hs
  obtain ⟨o, way, hl, hm⟩ := hs.root
  exact absurd hl (by simpa [Obs.looked] using hh _ hm)

/-- Without the condition a verifying connection is offered, and resumes, a session of a peer whose
chain nobody looked at. -/
theorem resumption_fails : ∃ p later past, Path Proc.Next {} lentSessionRun p ∧
    p.world.hist = later ++ .offered 2 1 [7] 0 true :: past ∧ ¬ Sound past 0 ∧
    .resumed 1 0 ∈ later ∧ .connected 1 false ∈ later := by
  let p := (exec Proc.step {} lentSessionRun).get lentSessionRun_isSome
  refine ⟨p, p.world.hist.take 5, p.world.hist.drop 6, exec_path_get lentSessionRun_isSome, ?_,
    not_sound_of_unlooked ?_, ?_, ?_⟩
  · decide +kernel
  · decide +kernel
  · decide +kernel
  · decide +kernel

end AquaTransport
