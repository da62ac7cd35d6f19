import AquaTransport.Hooks.Resumption
import AquaTransport.Hooks.Tracked

/-!
# AquaTransport.Hooks.Identity — client identities and the key of the session cache

`Keeps` ties the client identity of a shadow to the SSL object that was made for it: the identity is
written in the history when the object is made, and a setter that changes it takes the object down.
So an object that stores or is offered a session never presents one.  `keyTracked` ties the peer id
of a shadow to the caller's latest `SSLSetPeerID`, across eviction and re-creation of its entry.
`identity_isolation` puts the two together.
-/

namespace AquaTransport

variable {c : Ctx} {sid : Sid} {w w' : World} {h : List Obs} {k k' : Conn} {a : Act}

/-! ### The identity of an object -/

/-- The object was made for a shadow with a client identity, or without one. -/
def Made (h : List Obs) (o : SslId) (identity : Bool) : Prop := ∃ s, .sslNew s o identity ∈ h

theorem Made.append {o : SslId} {b : Bool} (hm : Made h o b) (later : List Obs) :
    Made (later ++ h) o b :=
  hm.imp fun _ h => List.mem_append_right later h

/-- What a history says of identities and of the sessions stored and offered. -/
structure World.Isolated (w : World) : Prop where
  fresh : ∀ o b, Made w.hist o b → o < w.nextSsl
  once : ∀ o b b', Made w.hist o b → Made w.hist o b' → b = b'
  stored : ∀ c o key sess, .stored c o key sess ∈ w.hist → Made w.hist o false
  offered : ∀ c o key sess v, .offered c o key sess v ∈ w.hist → Made w.hist o false
  given : ∀ o b, .certGiven o b ∈ w.hist → Made w.hist o true
  cache : ∀ i key sess, w.sess.look i = some (key, sess) → ∃ c o, .stored c o key sess ∈ w.hist
  origin : Along (fun past x => ∀ c o key sess v, x = .offered c o key sess v →
    ∃ c' o', .stored c' o' key sess ∈ past) w.hist

/-- The object of a shadow that has not failed was made with the shadow's identity. -/
def Keeps (h : List Obs) (k : Conn) : Prop :=
  ∀ x, k.sh.ssl = some x → k.sh.state ≠ .failed → Made h x.id k.sh.clientX509.isSome

theorem Keeps.append (hk : Keeps h k) (later : List Obs) : Keeps (later ++ h) k :=
  fun x hx hs => (hk x hx hs).append later

/-- What has to be behind an observation other than the making of an object. -/
def Obs.Fair (past : List Obs) : Obs → Prop
  | .sslNew .. => False
  | .stored _ o _ _ => Made past o false
  | .offered _ o key sess _ => Made past o false ∧ ∃ c' o', .stored c' o' key sess ∈ past
  | .certGiven o _ => Made past o true
  | _ => True

theorem World.Isolated.observe (hw : w.Isolated) (obs : List Obs) (hh : w'.hist = obs ++ w.hist)
    (hn : w.nextSsl ≤ w'.nextSsl) (hobs : ∀ x ∈ obs, x.Fair w.hist)
    (hcache : ∀ i key sess, w'.sess.look i = some (key, sess) →
      w.sess.look i = some (key, sess) ∨ ∃ c o, .stored c o key sess ∈ obs) : w'.Isolated := by
  have hmade : ∀ o b, Made w'.hist o b → Made w.hist o b := by
    rintro o b ⟨s, hm⟩
    rw [hh] at hm
    exact ⟨s, (List.mem_append.mp hm).resolve_left fun hm => hobs _ hm⟩
  have hold : ∀ {o b}, Made w.hist o b → Made w'.hist o b := by
    intro o b hm
    rw [hh]
    exact hm.append obs
  have hin : ∀ {x}, x ∈ w'.hist → x ∈ obs ∨ x ∈ w.hist := by
    intro x hm
    rwa [hh, List.mem_append] at hm
  refine ⟨fun o b hm => (hw.fresh o b (hmade o b hm)).trans_le hn,
    fun o b b' hm hm' => hw.once o b b' (hmade o b hm) (hmade o b' hm'),
    fun c o key sess hm => hold ?_, fun c o key sess v hm => hold ?_, fun o b hm => hold ?_,
    fun i key sess hi => ?_, ?_⟩
  · exact (hin hm).elim (fun h' => hobs _ h') (hw.stored c o key sess)
  · exact (hin hm).elim (fun h' => (hobs _ h').1) (hw.offered c o key sess v)
  · exact (hin hm).elim (fun h' => hobs _ h') (hw.given o b)
  · rw [hh]
    rcases hcache i key sess hi with hi | ⟨c, o, hm⟩
    · obtain ⟨c, o, hm⟩ := hw.cache i key sess hi
      exact ⟨c, o, List.mem_append_right obs hm⟩
    · exact ⟨c, o, List.mem_append_left _ hm⟩
  · rw [hh]
    refine hw.origin.append_mem ?_
    rintro x hx past c o key sess v rfl
    obtain ⟨-, c', o', hm⟩ := hobs _ hx
    exact ⟨c', o', List.mem_append_right past hm⟩

/-- A new object. -/
theorem World.Isolated.make (hw : w.Isolated) (s : Sid) (identity : Bool) {t : SessTable}
    (ht : t.look = w.sess.look) :
    ({ w with sess := t, nextSsl := w.nextSsl + 1 }.log [.sslNew s w.nextSsl identity]).Isolated := by
  have hmade : ∀ o b, Made (.sslNew s w.nextSsl identity :: w.hist) o b →
      o = w.nextSsl ∧ b = identity ∨ Made w.hist o b := by
    rintro o b ⟨s', hm⟩
    rcases List.mem_cons.mp hm with h' | hm
    · obtain ⟨-, rfl, rfl⟩ := Obs.sslNew.inj h'
      exact Or.inl ⟨rfl, rfl⟩
    · exact Or.inr ⟨s', hm⟩
  have hold : ∀ x, x ∈ .sslNew s w.nextSsl identity :: w.hist → (∀ s o b, x ≠ .sslNew s o b) →
      x ∈ w.hist := by
    intro x hm hx
    exact (List.mem_cons.mp hm).resolve_left (hx _ _ _)
  refine ⟨fun o b hm => ?_, fun o b b' hm hm' => ?_, fun c o key sess hm => ?_,
    fun c o key sess v hm => ?_, fun o b hm => ?_, fun i key sess hi => ?_, ?_⟩
  · rcases hmade o b hm with ⟨rfl, -⟩ | hm
    · exact Nat.lt_succ_self _
    · exact Nat.lt_succ_of_lt (hw.fresh o b hm)
  · rcases hmade o b hm with ⟨ho, hb⟩ | hold₁
    · rcases hmade o b' hm' with ⟨-, hb'⟩ | hold₂
      · rw [hb, hb']
      · exact absurd ho (hw.fresh o b' hold₂).ne
    · rcases hmade o b' hm' with ⟨ho, -⟩ | hold₂
      · exact absurd ho (hw.fresh o b hold₁).ne
      · exact hw.once o b b' hold₁ hold₂
  · exact (hw.stored c o key sess (hold _ hm (by simp))).append [_]
  · exact (hw.offered c o key sess v (hold _ hm (by simp))).append [_]
  · exact (hw.given o b (hold _ hm (by simp))).append [_]
  · obtain ⟨c, o, hm⟩ := hw.cache i key sess (ht ▸ hi)
    exact ⟨c, o, List.mem_cons_of_mem _ hm⟩
  · exact ⟨by simp, hw.origin⟩

/-! ### What an act keeps -/

/-- A setter changes the identity only of a shadow whose object it takes down. -/
theorem Setter.apply_identity (f : Setter) (s : Shadow) :
    (f.apply s).clientX509 = s.clientX509 ∨ f.restarts = true := by
  cases f with
  | setPeerDomainName name =>
    left
    simp only [Setter.apply, mySSLSetPeerDomainName]
    split_ifs
    · rfl
    · unfold Shadow.restart
      split_ifs <;> rfl
  | setCertificate => exact Or.inr rfl
  | setPeerID peerID =>
    left
    simp only [Setter.apply, mySSLSetPeerID]
    split_ifs <;> rfl
  | setIOFuncs | setConnection | setClientSideAuthenticate | setBreakOnServerAuth
  | setBreakOnClientAuth | setEnableCertVerify => exact Or.inl rfl

theorem Keeps.set (hk : Keeps h k) (hs : Shaped k) (f : Setter) :
    Keeps h { sh := f.apply k.sh } := by
  intro x hx hst
  have hp := f.apply_place k.sh
  by_cases hr : (f.restarts && k.sh.restarts) = true
  · rw [if_pos hr] at hp
    have hnone : (f.apply k.sh).ssl = none := congrArg (·.2.2.1) hp
    exact absurd (hnone.symm.trans hx) (by simp)
  · rw [if_neg hr] at hp
    have hssl : (f.apply k.sh).ssl = k.sh.ssl := congrArg (·.2.2.1) hp
    have hstate : (f.apply k.sh).state = k.sh.state := congrArg (·.2.1) hp
    have hx' : k.sh.ssl = some x := hssl.symm.trans hx
    have hst' : k.sh.state ≠ .failed := fun h => hst (hstate.trans h)
    rcases f.apply_identity k.sh with hid | hf
    · show Made h x.id (f.apply k.sh).clientX509.isSome
      rw [hid]
      exact hk x hx' hst'
    · -- the setter takes an object down, and there is one
      have hi : k.sh.inited = true := by
        by_contra hi
        rw [hs.bare (by simpa using hi)] at hx'
        simp at hx'
      exact absurd (by simp [hf, Shadow.restarts, hi, hst']) hr

/-- **Every act keeps identities isolated.** -/
theorem World.Isolated.effect (hw : w.Isolated) (hk : Keeps w.hist k) (hs : Shaped k)
    (he : Effect c sid w k a w' k') : w'.Isolated ∧ Keeps w'.hist k' := by
  have hlog : ∀ {obs : List Obs}, (∀ x ∈ obs, x.Fair w.hist) → (w.log obs).Isolated :=
    fun h => hw.observe _ rfl le_rfl h fun _ _ _ hi => Or.inl hi
  have hbusy : ∀ {call} {x : Ssl}, k.call = some call → k.sh.ssl = some x →
      Made w.hist x.id k.sh.clientX509.isSome := by
    intro call x hc hx
    refine hk x hx fun hf => ?_
    have hup := hs.busy (by simp [hc])
    rw [hf] at hup
    simp [ShadowState.isUp] at hup
  have hup : ∀ {call} {x : Ssl}, k.call = some call → k.sh.ssl = some x →
      ∀ {k' : Conn}, k'.sh.sslId = some x.id → k'.sh.clientX509 = k.sh.clientX509 →
        Keeps w.hist k' := by
    intro call x hc hx k' hx' hid y hy _
    rw [Shadow.sslId, hy, Option.map_some, Option.some.injEq] at hx'
    rw [hx', hid]
    exact hbusy hc hx
  cases he with
  | set _ f =>
    refine ⟨hlog fun x hx => ?_, (hk.set hs f).append _⟩
    unfold Setter.frees at hx
    split_ifs at hx
    · obtain rfl := List.mem_singleton.mp hx
      trivial
    · simp at hx
  | io _ _ _ _ lasting uses =>
    refine ⟨hlog fun x hx => ?_, Keeps.append (fun x hx hst => ?_) _⟩
    · obtain ⟨op, rfl, -⟩ := uses x hx
      trivial
    · obtain ⟨y, hy, hyx⟩ := Shadow.ssl_of_lasting lasting hx
      have hid : y.id = x.id := by simpa using congrArg Ssl.id hyx
      have hcert := congrArg Shadow.clientX509 lasting
      have hm := hk y hy (by rwa [← Shadow.state_of_lasting lasting])
      rw [hid] at hm
      exact (show _ = k.sh.clientX509 from hcert) ▸ hm
  | refused _ _ _ _ made =>
    refine ⟨?_, by simp [Keeps, Shadow.refused]⟩
    rcases made with rfl | rfl
    · exact hw
    · refine (hw.make sid k.sh.clientX509.isSome rfl).observe [_] rfl le_rfl ?_ fun _ _ _ hi => ?_
      · simp [Obs.Fair]
      · exact Or.inl hi
  | driven =>
    refine ⟨hlog (by simp [Obs.Fair]), Keeps.append (fun x hx hst => ?_) [_, _]⟩
    obtain ⟨y, hy, rfl⟩ := Option.map_eq_some_iff.mp hx
    have hm := hk y hy hst
    exact hm
  | @started _ env _ _ t obs offered hsess hoffered =>
    have hmade : Made ({ w with sess := t, nextSsl := w.nextSsl + 1 }.log
        [.sslNew sid w.nextSsl k.sh.clientX509.isSome]).hist w.nextSsl k.sh.clientX509.isSome :=
      ⟨sid, List.mem_cons_self⟩
    have hnew := hw.make sid k.sh.clientX509.isSome hsess
    rcases hoffered with ⟨rfl, rfl⟩ | ⟨cached, rfl, rfl, bare, -, i, hi⟩
    · refine ⟨hnew.observe [_, _] rfl le_rfl (by simp [Obs.Fair]) fun _ _ _ hi => Or.inl hi, ?_⟩
      intro x hx _
      obtain rfl := Option.some.inj hx
      exact hmade.append [_, _]
    · obtain ⟨c', o', hst⟩ := hw.cache i _ _ hi
      have hbare : Made ({ w with sess := t, nextSsl := w.nextSsl + 1 }.log
          [.sslNew sid w.nextSsl k.sh.clientX509.isSome]).hist w.nextSsl false := by
        rw [bare] at hmade ⊢
        exact hmade
      refine ⟨hnew.observe [_, _, _] rfl le_rfl ?_ fun _ _ _ hi => Or.inl hi, ?_⟩
      · intro x hx
        simp only [List.mem_cons, List.not_mem_nil, or_false] at hx
        rcases hx with rfl | rfl | rfl
        · trivial
        · trivial
        · exact ⟨hbare, c', o', List.mem_cons_of_mem _ hst⟩
      · intro x hx _
        obtain rfl := Option.some.inj hx
        exact hmade.append [_, _, _]
  | verify busy ssl v =>
    refine ⟨hlog fun x hx => ?_, Keeps.append ?_ _⟩
    · obtain ⟨way, -, rfl⟩ := Option.map_eq_some_iff.mp (Option.mem_toList.mp hx)
      trivial
    · exact hup busy ssl (by simp [Shadow.sslId]) rfl
  | resume busy ssl =>
    refine ⟨hlog (by simp [Obs.Fair]), Keeps.append ?_ [_]⟩
    exact hup busy ssl (by simp [Shadow.sslId]) rfl
  | suspend busy ssl => exact ⟨hw, hup busy ssl (by simp [Shadow.sslId]) rfl⟩
  | give busy ssl _ _ identity =>
    have hm := hbusy busy ssl
    rw [identity] at hm
    exact ⟨hlog (by simpa [Obs.Fair] using hm), hk.append [_]⟩
  | stored busy ssl _ _ _ bare =>
    have hm := hbusy busy ssl
    rw [bare] at hm
    refine ⟨hw.observe [_] rfl le_rfl (by simpa [Obs.Fair] using hm) fun i key sess hi => ?_,
      hk.append [_]⟩
    rcases sessPut_look w.sess k.sh.peerID k.sh.peerIDLen w.nextSess with hl | ⟨j, hl⟩
    · exact Or.inl (hl ▸ hi)
    · have hi' : (sessPut w.sess k.sh.peerID k.sh.peerIDLen w.nextSess).look i =
          some (key, sess) := hi
      rw [hl] at hi'
      rcases update_eq_some_iff.mp hi' with ⟨-, h'⟩ | ⟨-, h'⟩
      · obtain ⟨rfl, rfl⟩ := Prod.mk.inj (Option.some.inj h')
        exact Or.inr ⟨c, _, List.mem_singleton.mpr rfl⟩
      · exact Or.inl h'
  | dropped => exact ⟨hw.observe [] rfl le_rfl (by simp) fun _ _ _ hi => Or.inl hi, hk⟩
  | paused busy ssl | connected busy ssl | blocked busy ssl | broken busy ssl =>
    refine ⟨hlog (by simp [Obs.Fair]), Keeps.append ?_ _⟩
    exact hup busy ssl (by simp [Shadow.sslId, ssl]) rfl
  | server | datagram | same | noCert | bwrite | finish => exact ⟨hw, hk⟩

theorem isolated_kept : Kept anyAct (fun w => w.NoNull ∧ w.Isolated)
    fun w k => Shaped k ∧ Keeps w.hist k := by
  refine shaped_kept.over ⟨?_, ?_, ?_, ?_, ?_, ?_, trivial⟩ ?_ ?_ ?_ ?_ ?_
  · simp [Made]
  · simp [Made]
  · simp
  · simp
  · simp
  · simp [SessTable.look]
  · intro w x hx
    simp at hx
  · intro w w' k hle hk
    obtain ⟨-, obs, hobs⟩ := hle
    rw [hobs]
    exact hk.append obs
  · intro w x hx hw
    refine hw.observe [x] rfl le_rfl ?_ fun _ _ _ hi => Or.inl hi
    cases x <;> simp_all [Obs.Fair, Obs.isNote]
  · intro w s k hw _
    refine hw.observe _ rfl le_rfl (fun x hx => ?_) fun _ _ _ hi => Or.inl hi
    obtain ⟨o, -, rfl⟩ := Option.map_eq_some_iff.mp (Option.mem_toList.mp hx)
    trivial
  · intro c s w k a w' k' _ _ hs hw hk he
    exact hw.effect hk hs he

/-! ### The peer id in force -/

/-- What an entry of the history makes of the peer id of `c`. -/
def peerIdAfter (c : Ctx) (x : Obs) (id : Option Bytes) : Option Bytes :=
  match x with
  | .created c' _ => if c' = c then none else id
  | .called c' (.setPeerID peerID) =>
    if c' = c then if peerID = [] ∨ 256 < peerID.length then none else some peerID else id
  | _ => id

/-- The peer id of the caller's latest `SSLSetPeerID` for `c`. -/
def peerIdOf (h : List Obs) (c : Ctx) : Option Bytes := h.foldr (peerIdAfter c) none

theorem peerIdAfter_of_not_about {x : Obs} (hx : x.about c = false) (id : Option Bytes) :
    peerIdAfter c x id = id := by
  unfold peerIdAfter
  split
  next => exact if_neg (not_about_created.mp hx)
  next => exact if_neg (not_about_called.mp hx)
  next => rfl

theorem peerIdOf_append {obs : List Obs} (hobs : ∀ x ∈ obs, x.about c = false) :
    peerIdOf (obs ++ h) c = peerIdOf h c :=
  foldr_append_of_id fun x hx => peerIdAfter_of_not_about (hobs x hx)

/-- The shadow has no peer id, or the one in force. -/
def Keyed (h : List Obs) (c : Ctx) (k : Conn) : Prop :=
  k.sh.peerIDLen = 0 ∨ peerIdOf h c = some k.sh.peerKey

/-- An offered or stored session goes with the peer id in force. -/
def Obs.Keyed (past : List Obs) (x : Obs) : Prop :=
  ∀ c o key sess, (x = .stored c o key sess ∨ ∃ v, x = .offered c o key sess v) →
    peerIdOf past c = some key

theorem Setter.apply_peerID {f : Setter} (hf : ∀ peerID, f ≠ .setPeerID peerID) (s : Shadow) :
    (f.apply s).peerID = s.peerID ∧ (f.apply s).peerIDLen = s.peerIDLen := by
  have hr : ∀ s : Shadow, s.restart.peerID = s.peerID ∧ s.restart.peerIDLen = s.peerIDLen := by
    intro s
    unfold Shadow.restart
    split_ifs <;> exact ⟨rfl, rfl⟩
  cases f with
  | setPeerDomainName name =>
    simp only [Setter.apply, mySSLSetPeerDomainName]
    split_ifs
    · exact ⟨rfl, rfl⟩
    · exact hr _
  | setCertificate serverTls disableMtls identity =>
    obtain ⟨b, x, he, -⟩ := mySSLSetCertificate_eq serverTls disableMtls identity s
    simp only [Setter.apply, he]
    exact hr _
  | setPeerID peerID => exact absurd rfl (hf peerID)
  | setIOFuncs | setConnection | setClientSideAuthenticate | setBreakOnServerAuth
  | setBreakOnClientAuth | setEnableCertVerify => exact ⟨rfl, rfl⟩

theorem Keyed.set (hk : Keyed h c k) (f : Setter) :
    Keyed (.called c f :: h) c { sh := f.apply k.sh } := by
  by_cases hf : ∃ peerID, f = .setPeerID peerID
  · obtain ⟨peerID, rfl⟩ := hf
    unfold Keyed
    show (mySSLSetPeerID peerID k.sh).peerIDLen = 0 ∨
      peerIdAfter c (.called c (.setPeerID peerID)) (peerIdOf h c) =
        some (mySSLSetPeerID peerID k.sh).peerKey
    unfold mySSLSetPeerID
    simp only [peerIdAfter, if_true]
    split_ifs with hlen
    · exact Or.inl rfl
    · -- the buffer keeps the tail of a longer id, the key does not
      rw [not_or, not_lt] at hlen
      exact Or.inr (congrArg some (Buf256.bytes_store k.sh.peerID hlen.2).symm)
  · obtain ⟨hid, hlen⟩ := Setter.apply_peerID (not_exists.mp hf) k.sh
    have hold : peerIdOf (.called c f :: h) c = peerIdOf h c := by
      show peerIdAfter c (.called c f) _ = _
      cases f <;> first | rfl | exact absurd ⟨_, rfl⟩ hf
    unfold Keyed Shadow.peerKey at hk ⊢
    rw [hid, hlen, hold]
    exact hk

theorem keyTracked : Tracked (fun _ _ => True) Obs.Keyed Keyed where
  silent := by
    rintro h x hx c o key sess (rfl | ⟨v, rfl⟩) <;> simp [Obs.speaks] at hx
  frame := by
    intro h c k obs hobs hk
    unfold Keyed
    rwa [peerIdOf_append hobs]
  born := Or.inl rfl
  set _ _ hk := hk.set _
  blank _ _ := Keyed.set (k := {}) (Or.inl rfl) _
  keep := by
    intro h c k k' hset hk
    have hid : k'.sh.peerID = k.sh.peerID := congrArg (·.2.1) hset
    have hlen : k'.sh.peerIDLen = k.sh.peerIDLen := congrArg (·.2.2) hset
    unfold Keyed Shadow.peerKey
    rw [hid, hlen]
    exact hk
  tell := by
    rintro h c k x hk hx c' o key sess (rfl | ⟨v, rfl⟩) <;>
      · obtain ⟨rfl, rfl, hlen⟩ := hx
        exact hk.resolve_left hlen

/-! ### Isolation over runs -/

/-- The object was made for no identity, and presents none. -/
def Bare (h : List Obs) (o : SslId) : Prop :=
  Made h o false ∧ ¬ Made h o true ∧ ∀ b, .certGiven o b ∉ h

theorem World.Isolated.bare (hw : w.Isolated) {o : SslId} (hm : Made w.hist o false) :
    Bare w.hist o := by
  have hno : ¬ Made w.hist o true := fun ht => by simpa using hw.once o false true hm ht
  exact ⟨hm, hno, fun b hb => hno (hw.given o b hb)⟩

/-- **Isolation of client identities.**  In every run of any number of contexts an object is made
with the identity that its shadow has for as long as it is driven, no object that stores a session or
is offered one is made with an identity or presents one, and a session is stored and offered under
the peer id in force, the same on both sides. -/
theorem identity_isolation {evs : List Event} {p : Proc} (h : Path Proc.Next {} evs p) :
    (∀ s c k x, p.conc.tab.look s = some (c, k) → k.sh.ssl = some x → k.sh.state ≠ .failed →
      Made p.world.hist x.id k.sh.clientX509.isSome) ∧
    (∀ c o key sess, .stored c o key sess ∈ p.world.hist → Bare p.world.hist o) ∧
    (∀ c o key sess v, .offered c o key sess v ∈ p.world.hist → Bare p.world.hist o) ∧
    (∀ later past c o key sess, p.world.hist = later ++ .stored c o key sess :: past →
      peerIdOf past c = some key) ∧
    ∀ later past c o key sess v, p.world.hist = later ++ .offered c o key sess v :: past →
      peerIdOf past c = some key ∧ ∃ c' o', .stored c' o' key sess ∈ past := by
  obtain ⟨-, ⟨-, hw⟩, hconns⟩ := isolated_kept.invariant mild_anyAct h.anyAct
  have hkeyed := along_iff.mp (keyTracked.invariant (h.mono_mem fun _ _ _ _ hs => ⟨hs, trivial⟩)).2.1
  refine ⟨fun s c k x hl hx hst => (hconns s c k hl).2 x hx hst,
    fun c o key sess hm => hw.bare (hw.stored c o key sess hm),
    fun c o key sess v hm => hw.bare (hw.offered c o key sess v hm),
    fun later past c o key sess he => ?_, fun later past c o key sess v he => ⟨?_, ?_⟩⟩
  · exact hkeyed later _ past he c o key sess (Or.inl rfl)
  · exact hkeyed later _ past he c o key sess (Or.inr ⟨v, rfl⟩)
  · exact along_iff.mp hw.origin later _ past he c o key sess v rfl

/-- Context 1 stores a session under a peer id shorter than its first one; context 2 is offered it,
gets its certificate and starts over, with an object that is offered none and stores none. -/
def lateIdentityRun : List Event :=
  [.create 1 false false true, .set 1 (.setIOFuncs 1 1) true, .set 1 (.setConnection 1) true,
    .set 1 (.setPeerID [7, 8]) true, .set 1 (.setPeerID [7]) true, .call 1 (.enter {}),
    .cont 1 (.verify (.evaluated true)), .cont 1 .newSession, .cont 1 (.leave .done),
    .create 2 false false true, .set 2 (.setIOFuncs 2 2) true, .set 2 (.setConnection 2) true,
    .set 2 (.setPeerID [7]) true, .call 2 (.enter {}), .cont 2 (.leave .wantReadWrite),
    .set 2 (.setCertificate false false (some 5)) true, .call 2 (.enter {}),
    .cont 2 (.verify (.evaluated true)), .cont 2 (.clientCert true), .cont 2 .newSession,
    .cont 2 (.leave .done)]

theorem lateIdentityRun_isSome : (exec Proc.step {} lateIdentityRun).isSome = true := by
  decide +kernel

theorem identity_isolation_lateIdentityRun : ∃ p, Path Proc.Next {} lateIdentityRun p ∧
    .offered 2 1 [7] 0 true ∈ p.world.hist ∧ .certGiven 2 false ∈ p.world.hist ∧
    Bare p.world.hist 1 ∧ ¬ Bare p.world.hist 2 := by
  have h := exec_path_get lateIdentityRun_isSome
  have hm : .offered 2 1 [7] 0 true ∈
      ((exec Proc.step {} lateIdentityRun).get lateIdentityRun_isSome).world.hist := by
    decide +kernel
  have hg : .certGiven 2 false ∈
      ((exec Proc.step {} lateIdentityRun).get lateIdentityRun_isSome).world.hist := by
    decide +kernel
  exact ⟨_, h, hm, hg, (identity_isolation h).2.2.1 2 1 [7] 0 true hm, fun hb => hb.2.2 false hg⟩

end AquaTransport
