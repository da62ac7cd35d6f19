import AquaTransport.Hooks.Setters

/-!
# AquaTransport.Hooks.PeerName — the host name that an accepted chain was evaluated for

`SSLSetPeerDomainName` keeps a name in a buffer of 256 bytes, as a C string; `verify_chain` makes a
`CFString` of it for `SecPolicyCreateSSL`.  `Bound` is the process with the calls of `verify_chain`
that its handshakes make: a call reads the shadow of the OpenSSL call it is made in, and its answer
goes back to that call.  `under` keeps, for each digest, the policy of the evaluation that recorded it.

`Bound.Inv` says that what is accepted for a client was evaluated under the policy for the host that
the calls for it give; `policyName_ofBuffer` says which names that policy holds.
-/

namespace AquaTransport

variable {D : Type} {c : Ctx} {h : List Obs}

/-! ### From a name to a policy -/

/-- The arguments of `SecPolicyCreateSSL`. -/
structure SslPolicy where
  server : Bool
  name : Option Bytes
  deriving DecidableEq

/-- The `CFString` of a host.  `utf8` is what `CFStringCreateWithCString` can decode. -/
def policyName (utf8 : Bytes → Bool) (host : CString) : Option Bytes :=
  if host.bytes ≠ [] ∧ utf8 host.bytes then some host.bytes else none

theorem policyName_ne_nil (utf8 : Bytes → Bool) (host : CString) :
    policyName utf8 host ≠ some [] := by
  unfold policyName
  split_ifs with h
  · simpa using h.1
  · simp

/-- The policy that `verify_chain` evaluates under. -/
def verifyPolicy (utf8 : Bytes → Bool) (p : Peer) : SslPolicy :=
  ⟨!p.server, policyName utf8 p.host⟩

/-- A name that the engine can represent. -/
def Representable (utf8 : Bytes → Bool) (name : Bytes) : Prop :=
  name ≠ [] ∧ name.length ≤ 255 ∧ 0 ∉ name ∧ utf8 name = true

/-- The policy names exactly the names that the engine can represent. -/
theorem policyName_ofBuffer (utf8 : Bytes → Bool) (name : Bytes) :
    policyName utf8 (CString.ofBuffer (name.take 255)) = some name ↔ Representable utf8 name := by
  unfold policyName
  constructor
  · intro hp
    split_ifs at hp with hok
    have hb := Option.some.inj hp
    rw [hb] at hok
    refine ⟨hok.1, ?_, ?_, hok.2⟩
    · -- the C string is no longer than the buffer it starts
      have hle := (List.takeWhile_prefix (p := (· ≠ 0)) (l := name.take 255)).length_le
      have hlen : ((name.take 255).takeWhile (· ≠ 0)).length = name.length := congrArg List.length hb
      have htake := List.length_take_le 255 name
      omega
    · rw [← hb]
      exact (CString.ofBuffer (name.take 255)).noNul
  · rintro ⟨hne, hlen, hnul, hutf⟩
    rw [List.take_of_length_le hlen, ofBuffer_of_noNul hnul, if_pos ⟨hne, hutf⟩]

/-- The last name given for `c` since its creation. -/
def nameAfter (c : Ctx) (x : Obs) (name : Option Bytes) : Option Bytes :=
  match x with
  | .created c' _ => if c' = c then none else name
  | .called c' (.setPeerDomainName n) => if c' = c then some n else name
  | _ => name

def nameOf (h : List Obs) (c : Ctx) : Option Bytes := h.foldr (nameAfter c) none

theorem nameAfter_of_not_about {x : Obs} (hx : x.about c = false) (name : Option Bytes) :
    nameAfter c x name = name := by
  unfold nameAfter
  split
  next => exact if_neg (not_about_created.mp hx)
  next => exact if_neg (not_about_called.mp hx)
  next => rfl

/-! ### What the setters leave of the calls -/

/-- What an entry of the history makes of the configuration of `c`. -/
def configAfter (c : Ctx) (x : Obs) (cfg : Config) : Config :=
  match x with
  | .created c' server => if c' = c then { serverSide := server } else cfg
  | .called c' f => if c' = c then f.config cfg else cfg
  | _ => cfg

/-- The configuration that a shadow has from the calls for `c`, if none is forgotten. -/
def configOf (h : List Obs) (c : Ctx) : Config := h.foldr (configAfter c) {}

theorem configAfter_of_not_about {x : Obs} (hx : x.about c = false) (cfg : Config) :
    configAfter c x cfg = cfg := by
  unfold configAfter
  split
  next => exact if_neg (not_about_created.mp hx)
  next => exact if_neg (not_about_called.mp hx)
  next => rfl

theorem configOf_append {obs : List Obs} (hobs : ∀ x ∈ obs, x.about c = false) :
    configOf (obs ++ h) c = configOf h c :=
  foldr_append_of_id fun x hx => configAfter_of_not_about (hobs x hx)

@[simp] theorem configOf_created (server : Bool) :
    configOf (.created c server :: h) c = { serverSide := server } := by
  simp [configOf, configAfter]

@[simp] theorem configOf_called (f : Setter) :
    configOf (.called c f :: h) c = f.config (configOf h c) := by
  simp [configOf, configAfter]

/-- Only a call with a name changes the host. -/
theorem Setter.config_host (f : Setter) (cfg : Config) : (f.config cfg).host =
    match f with
    | .setPeerDomainName name => if name = [] then cfg.host else CString.ofBuffer (name.take 255)
    | _ => cfg.host := by
  cases f with
  | setPeerDomainName name =>
    simp only [Setter.config]
    split_ifs <;> rfl
  | setCertificate =>
    simp only [Setter.config]
    split_ifs <;> rfl
  | _ => rfl

theorem Setter.config_host_congr (f : Setter) {cfg cfg' : Config} (hc : cfg.host = cfg'.host) :
    (f.config cfg).host = (f.config cfg').host := by
  rw [f.config_host, f.config_host, hc]

theorem Setter.config_serverSide (f : Setter) (cfg : Config) :
    (f.config cfg).serverSide = cfg.serverSide := by
  unfold Setter.config
  split <;> try rfl
  all_goals split_ifs <;> rfl

/-- A name that is not empty gives the host. -/
theorem host_of_name {name : Bytes} (hn : nameOf h c = some name) (hne : name ≠ []) :
    (configOf h c).host = CString.ofBuffer (name.take 255) := by
  induction h with
  | nil => simp [nameOf] at hn
  | cons x h ih =>
    by_cases hx : x.about c = true
    · cases x with
      | created c' server =>
        obtain rfl : c' = c := by simpa [Obs.about] using hx
        simp [nameOf, nameAfter] at hn
      | called c' f =>
        obtain rfl : c' = c := by simpa [Obs.about] using hx
        rw [configOf_called, f.config_host]
        cases f with
        | setPeerDomainName n =>
          obtain rfl : n = name := by simpa [nameOf, nameAfter] using hn
          exact if_neg hne
        | _ => exact ih hn
      | _ => simp [Obs.about] at hx
    · have hx' : x.about c = false := Bool.eq_false_iff.mpr hx
      have hc : configOf (x :: h) c = configOf h c := configAfter_of_not_about hx' _
      rw [hc]
      refine ih ?_
      rw [← hn]
      exact (nameAfter_of_not_about hx' _).symm

/-! ### The host of a shadow -/

/-- A setter that makes a new entry for a client loses no name: there was none, or it gives one. -/
def KeepsName (p : Proc) : Event → Prop
  | .set c f true => p.conc.tab.find c = none → (configOf p.world.hist c).serverSide = false →
      (f.config (configOf p.world.hist c)).host = (f.config {}).host
  | _ => True

instance (p : Proc) : ∀ e, Decidable (KeepsName p e)
  | .set _ _ true => inferInstanceAs (Decidable (_ → _ → _))
  | .set _ _ false | .create .. | .call .. | .cont .. | .close .. | .dispose _ | .freeMem _ =>
    inferInstanceAs (Decidable True)

theorem hostTracked : Tracked KeepsName (fun _ _ => True) fun h c k =>
    (configOf h c).serverSide = false →
      k.sh.config.serverSide = false ∧ k.sh.config.host = (configOf h c).host where
  silent _ := trivial
  frame hobs hk := by
    rw [configOf_append hobs]
    exact hk
  born := by simp
  set := by
    intro p c f alloc k _ _ hk hs
    rw [configOf_called] at hs ⊢
    obtain ⟨hserver, hhost⟩ := hk (f.config_serverSide _ ▸ hs)
    rw [f.apply_config]
    exact ⟨(f.config_serverSide _).trans hserver, f.config_host_congr hhost⟩
  blank := by
    intro p c f hD hno hs
    rw [configOf_called] at hs ⊢
    rw [f.apply_config]
    refine ⟨f.config_serverSide _, ?_⟩
    exact (hD (Proc.find_of_noEntry hno) (f.config_serverSide _ ▸ hs)).symm
  keep := by
    intro h c k k' hset hk hs
    have hcfg : k'.sh.config = k.sh.config := congrArg Prod.fst hset
    rw [hcfg]
    exact hk hs
  tell _ _ := trivial

/-! ### Steps beside a call in progress -/

attribute [local irreducible] Conc.get Conc.create Conc.free

namespace Proc

variable {p p' p'' : Proc} {c' : Ctx} {s : Sid} {a : Act}

/-- What is done leaves the call of `c` in progress, and notes nothing about `c`. -/
def Beside (c : Ctx) (p p' : Proc) : Prop :=
  p'.calls c = p.calls c ∧
    ∃ obs, p'.world.hist = obs ++ p.world.hist ∧ ∀ x ∈ obs, x.about c = false

theorem Beside.refl (c : Ctx) (p : Proc) : Beside c p p := ⟨rfl, [], rfl, by simp⟩

theorem Beside.trans (h : Beside c p p') (h' : Beside c p' p'') : Beside c p p'' := by
  obtain ⟨hc, obs, hobs, hq⟩ := h
  obtain ⟨hc', obs', hobs', hq'⟩ := h'
  refine ⟨hc'.trans hc, obs' ++ obs, by rw [hobs', hobs, List.append_assoc], fun x hx => ?_⟩
  exact (List.mem_append.mp hx).elim (hq' x) (hq x)

theorem Beside.configOf (h : Beside c p p') :
    configOf p'.world.hist c = configOf p.world.hist c := by
  obtain ⟨-, obs, hobs, hq⟩ := h
  rw [hobs, configOf_append hq]

theorem beside_log {x : Obs} (hx : x.about c = false) : Beside c p (p.log [x]) :=
  ⟨rfl, [x], rfl, by simpa using hx⟩

theorem act_beside (ha : p.act c' s a = some p') : Beside c p p' := by
  obtain ⟨q, -, hs⟩ := Option.bind_eq_some_iff.mp ha
  obtain ⟨r, hr, rfl⟩ := Option.map_eq_some_iff.mp hs
  obtain ⟨-, obs, hobs, hn⟩ := (step_effect hr).adds
  exact ⟨rfl, obs, hobs, fun x hx => about_of_not_note (hn x hx)⟩

theorem settle_beside (hne : c' ≠ c) : Beside c p (p.settle c' s) := by
  unfold settle
  split_ifs
  · exact ⟨Function.update_of_ne hne.symm .., [], rfl, by simp⟩
  · exact ⟨Function.update_of_ne hne.symm .., [], rfl, by simp⟩

theorem viaCreate_beside {alloc : Bool} (hs : p.viaCreate c' alloc a = some p') :
    Beside c p p' := by
  unfold viaCreate at hs
  split at hs
  next =>
    obtain rfl := Option.some.inj hs
    exact Beside.refl c p
  next =>
    obtain ⟨p₁, hact, rfl⟩ := Option.map_eq_some_iff.mp hs
    have h₁ := act_beside (c := c) hact
    exact h₁

theorem viaGet_beside (hne : c' ≠ c) (hs : p.viaGet c' a = some p') : Beside c p p' := by
  unfold viaGet at hs
  split at hs
  next =>
    obtain rfl := Option.some.inj hs
    exact Beside.refl c p
  next s _ =>
    obtain ⟨p₁, hact, rfl⟩ := Option.map_eq_some_iff.mp hs
    have h₁ := (act_beside (c := c) hact).trans (settle_beside (s := s) hne)
    exact h₁

/-- While a call of `c` is in progress, a step is one of that call or beside it. -/
theorem step_beside (h : p.Ok) (hc : p.calls c = some s) {e : Event} (hs : p.step e = some p')
    (he : ∀ a, e ≠ .cont c a) : Beside c p p' := by
  have hbusy : ∀ c', p.idle c' = true → c' ≠ c := by
    rintro c' hidle rfl
    obtain ⟨-, hnone⟩ := idle_iff.mp hidle
    rw [hc] at hnone
    simp at hnone
  cases e with
  | create c' server datagram alloc =>
    by_cases hnew : c' ∈ p.created
    · simp [step, hnew] at hs
    have hne : c' ≠ c := by
      rintro rfl
      exact hnew (h.made c' s hc)
    have hborn : Beside c p (p.born c' server) :=
      ⟨rfl, [.created c' server], rfl, by simpa [Obs.about] using hne⟩
    cases server with
    | false =>
      simp only [step, if_neg hnew, Bool.false_eq_true, if_false, Option.some.injEq] at hs
      exact hs ▸ hborn
    | true =>
      simp only [step, if_neg hnew, if_true] at hs
      obtain ⟨p₁, hcreate, hrest⟩ := Option.bind_eq_some_iff.mp hs
      have h₁ := hborn.trans (viaCreate_beside hcreate)
      cases datagram with
      | true => exact h₁.trans (viaGet_beside hne hrest)
      | false => exact Option.some.inj hrest ▸ h₁
  | set c' f alloc =>
    simp only [step] at hs
    split_ifs at hs with hidle
    have hne : (Obs.called c' f).about c = false := by simpa [Obs.about] using hbusy c' hidle
    exact (beside_log hne).trans (viaCreate_beside hs)
  | call c' a =>
    simp only [step] at hs
    split_ifs at hs with hidle
    exact viaGet_beside (hbusy c' (Bool.and_eq_true_iff.mp hidle).1) hs
  | cont c' a =>
    have hne : c' ≠ c := by
      rintro rfl
      exact he a rfl
    simp only [step] at hs
    split_ifs at hs
    obtain ⟨s', -, hs⟩ := Option.bind_eq_some_iff.mp hs
    obtain ⟨p₁, hact, rfl⟩ := Option.map_eq_some_iff.mp hs
    exact (act_beside hact).trans (settle_beside hne)
  | close c' flush =>
    simp only [step] at hs
    split_ifs at hs with hidle
    obtain ⟨p₁, hget, rfl⟩ := Option.map_eq_some_iff.mp hs
    have h₁ := viaGet_beside (hbusy c' hidle) hget
    exact h₁
  | dispose c' =>
    simp only [step] at hs
    split_ifs at hs
    obtain rfl := Option.some.inj hs
    exact Beside.refl c p
  | freeMem s' =>
    simp only [step] at hs
    split_ifs at hs
    obtain rfl := Option.some.inj hs
    refine ⟨rfl, _, rfl, fun x hx => ?_⟩
    cases hl : p.conc.tab.look s' with
    | none => simp [hl] at hx
    | some q =>
      obtain ⟨o, -, rfl⟩ : ∃ o, q.2.sh.sslId = some o ∧ Obs.use s' (some o) .free = x := by
        simpa [hl, frees] using hx
      rfl

end Proc

/-! ### The process and its calls of `verify_chain` -/

/-- A chain that `verify_chain` let pass by its evaluation or from its cache: the context, what had
been done until then, and the policy of the evaluation. -/
structure Acceptance where
  ctx : Ctx
  past : List Obs
  policy : Option SslPolicy
  deriving DecidableEq

structure Bound (D : Type) where
  proc : Proc := {}
  verify : VerifyState D
  /-- The policy of the evaluation that last recorded a digest. -/
  under : D → Option SslPolicy := fun _ => none
  /-- The calls of `verify_chain` so far, newest first. -/
  trace : List VerifyEvent := []
  accepted : List Acceptance := []

inductive BoundEvent
  | hook (e : Event)
  | wait (t : ℤ)
  /-- OpenSSL calls `verify_chain` during the call in progress on `c`. -/
  | enter (c : Ctx) (chain : List (Option Bytes))
  /-- The call for `c` has the lock of `chain_ok_get`. -/
  | look (c : Ctx)
  /-- The trust evaluation of the call for `c` answers. -/
  | evaluate (c : Ctx) (ok : Bool)
  /-- The call for `c` is in `chain_ok_put`. -/
  | record (c : Ctx)

/-- The shadow of the call in progress on `c`. -/
def Proc.callShadow (p : Proc) (c : Ctx) : Option Shadow :=
  ((p.calls c).bind p.conc.tab.look).map fun q => q.2.sh

/-- The answer for `c`, when its call of `verify_chain` has ended. -/
def VerifyState.answered (st : VerifyState D) (c : Ctx) : Option Answer :=
  if (st.busy c).isNone then st.log.head? else none

/-- Every hook may run, but OpenSSL does nothing on a connection whose chain it waits for. -/
def Bound.admits (st : Bound D) : Event → Bool
  | .cont _ (.verify _) => false
  | .cont c _ => (st.verify.busy c).isNone
  | _ => true

section Steps

variable [DecidableEq D] (sha : Bytes → D) (utf8 : Bytes → Bool)

/-- The policy that an answer rests on. -/
def Bound.policy (st : Bound D) (a : Answer) : Option SslPolicy :=
  if a.verdict = .cached then (verifyDigest sha a.peer).bind st.under
  else some (verifyPolicy utf8 a.peer)

/-- What `chain_ok_put` leaves under a digest. -/
def Bound.recorded (st : Bound D) : VerifyEvent → D → Option SslPolicy
  | .record tid =>
    match st.verify.busy tid with
    | some ⟨p, .records dg _⟩ => Function.update st.under dg (some (verifyPolicy utf8 p))
    | _ => st.under
  | _ => st.under

/-- A step of `verify_chain`. -/
def Bound.verifies (st : Bound D) (e : VerifyEvent) : Option (Bound D) :=
  (verifyStep sha st.verify e).map fun v =>
    { st with verify := v, under := st.recorded utf8 e, trace := e :: st.trace }

/-- OpenSSL gets the answer for `c`, if there is one. -/
def Bound.answers (st : Bound D) (c : Ctx) : Option (Bound D) :=
  match st.verify.answered c with
  | none => some st
  | some a => (st.proc.step (.cont c (.verify a.verdict))).map fun p => { st with
      proc := p
      accepted :=
        if a.verdict = .cached ∨ a.verdict = .evaluated true then
          ⟨c, st.proc.world.hist, st.policy sha utf8 a⟩ :: st.accepted
        else st.accepted }

/-- A step of the call for `c`, and its answer. -/
def Bound.calls (st : Bound D) (c : Ctx) (e : VerifyEvent) : Option (Bound D) :=
  (st.verifies sha utf8 e).bind fun st' => st'.answers sha utf8 c

def Bound.step (st : Bound D) : BoundEvent → Option (Bound D)
  | .hook e => if st.admits e then (st.proc.step e).map fun p => { st with proc := p } else none
  | .wait t => st.verifies sha utf8 (.wait t)
  | .enter c chain => (st.proc.callShadow c).bind fun s => st.calls sha utf8 c (.enter c s chain)
  | .look c => st.calls sha utf8 c (.look c)
  | .evaluate c ok => st.calls sha utf8 c (.evaluate c ok)
  | .record c => st.calls sha utf8 c (.record c)

variable {sha utf8} {st st' : Bound D}

theorem Bound.verifies_trace {e : VerifyEvent} (h : st.verifies sha utf8 e = some st') :
    st'.trace = e :: st.trace := by
  obtain ⟨v, -, rfl⟩ := Option.map_eq_some_iff.mp h
  rfl

omit [DecidableEq D] in
theorem Bound.answers_trace (h : st.answers sha utf8 c = some st') : st'.trace = st.trace := by
  unfold answers at h
  split at h
  next => exact Option.some.inj h ▸ rfl
  next =>
    obtain ⟨p, -, rfl⟩ := Option.map_eq_some_iff.mp h
    rfl

theorem Bound.calls_trace {e : VerifyEvent} (h : st.calls sha utf8 c e = some st') :
    st'.trace = e :: st.trace := by
  obtain ⟨st₁, hv, h⟩ := Option.bind_eq_some_iff.mp h
  rw [answers_trace h, verifies_trace hv]

theorem Bound.step_trace {e : BoundEvent} (h : st.step sha utf8 e = some st') :
    st.trace ⊆ st'.trace := by
  have hcalls : ∀ {c e}, st.calls sha utf8 c e = some st' → st.trace ⊆ st'.trace := fun h => by
    rw [calls_trace h]
    exact List.subset_cons_self ..
  cases e with
  | hook e =>
    simp only [step] at h
    split_ifs at h
    obtain ⟨p, -, rfl⟩ := Option.map_eq_some_iff.mp h
    exact List.Subset.refl _
  | wait t =>
    rw [verifies_trace h]
    exact List.subset_cons_self ..
  | enter c chain =>
    obtain ⟨s, -, h⟩ := Option.bind_eq_some_iff.mp h
    exact hcalls h
  | look c => exact hcalls h
  | evaluate c ok => exact hcalls h
  | record c => exact hcalls h

variable (sha utf8)

/-- A step in which no client loses its name. -/
def Bound.Next (st : Bound D) (e : BoundEvent) (st' : Bound D) : Prop :=
  st.step sha utf8 e = some st' ∧ ∀ x, e = .hook x → KeepsName st.proc x

end Steps

/-! ### The invariant -/

/-- What a client's call of `verify_chain` reads is what the calls for its context give. -/
def Peer.Of (h : List Obs) (c : Ctx) (p : Peer) : Prop :=
  (configOf h c).serverSide = false → p.server = false ∧ p.host = (configOf h c).host

structure Bound.Inv (sha : Bytes → D) (utf8 : Bytes → Bool) (evs : List VerifyEvent)
    (st : Bound D) : Prop where
  ok : st.proc.Ok
  host : st.proc.Tracks (fun _ _ => True) fun h c k =>
    (configOf h c).serverSide = false →
      k.sh.config.serverSide = false ∧ k.sh.config.host = (configOf h c).host
  cache : VerifyInv sha evs st.verify
  busy : ∀ c w, st.verify.busy c = some w →
    (∃ s, st.proc.calls c = some s) ∧ w.peer.Of st.proc.world.hist c
  under : ∀ i d w, st.verify.cache.look i = some (d, w) → ∃ p, Presented evs p ∧
    verifyDigest sha p = some d ∧ st.under d = some (verifyPolicy utf8 p)
  accepted : ∀ a ∈ st.accepted, (configOf a.past a.ctx).serverSide = false →
    a.policy = some ⟨true, policyName utf8 (configOf a.past a.ctx).host⟩

namespace Bound.Inv

variable {sha : Bytes → D} {utf8 : Bytes → Bool} {evs : List VerifyEvent}
  {st st₁ st' : Bound D}

theorem init {cache : ChainOk D} (hempty : ∀ i, cache.look i = none) :
    ({ verify := { cache := cache } } : Bound D).Inv sha utf8 evs where
  ok := Proc.Ok.init
  host := ⟨trivial, fun c s k hc => absurd (hc.1.resolve_right (by simp)) (Table.not_inTable_init s)⟩
  cache := VerifyInv.init hempty
  busy := by simp
  under := by simp [hempty]
  accepted := by simp

/-- A step of the process beside the calls that wait for their evaluation. -/
theorem proc (h : st.Inv sha utf8 evs) {e : Event} {p : Proc} (hs : st.proc.step e = some p)
    (hk : KeepsName st.proc e) (hbusy : ∀ c, st.verify.busy c ≠ none → ∀ a, e ≠ .cont c a) :
    ({ st with proc := p } : Bound D).Inv sha utf8 evs := by
  obtain ⟨hok, -⟩ := Proc.step_fleet mild_anyAct h.ok (Proc.Next.anyAct hs).2 hs
  refine ⟨hok, hostTracked.step h.ok h.host hk hs, h.cache, ?_, h.under, h.accepted⟩
  intro c w hw
  obtain ⟨⟨s, hc⟩, hof⟩ := h.busy c w hw
  have hb := Proc.step_beside h.ok hc hs (hbusy c (Option.ne_none_iff_exists'.mpr ⟨w, hw⟩))
  refine ⟨⟨s, hb.1.trans hc⟩, ?_⟩
  unfold Peer.Of
  rw [hb.configOf]
  exact hof

/-- The answer of a call is accepted under the policy for what the call read. -/
theorem answers (hs : st.answers sha utf8 c = some st') (h : st.Inv sha utf8 evs)
    (ha : ∀ a, st.verify.answered c = some a → a.peer.Of st.proc.world.hist c ∧
      (a.verdict = .cached →
        (verifyDigest sha a.peer).bind st.under = some (verifyPolicy utf8 a.peer))) :
    st'.Inv sha utf8 evs := by
  unfold Bound.answers at hs
  split at hs
  next => exact Option.some.inj hs ▸ h
  next a hans =>
    obtain ⟨hof, hcached⟩ := ha a hans
    have hidle : st.verify.busy c = none := by
      unfold VerifyState.answered at hans
      split_ifs at hans with hb
      exact Option.isNone_iff_eq_none.mp hb
    obtain ⟨p, hp, rfl⟩ := Option.map_eq_some_iff.mp hs
    have hproc := h.proc hp trivial (by
      rintro c' hb a ⟨⟩
      exact hb hidle)
    refine ⟨hproc.ok, hproc.host, hproc.cache, hproc.busy, hproc.under, ?_⟩
    have hpol : st.policy sha utf8 a = some (verifyPolicy utf8 a.peer) := by
      unfold Bound.policy
      split_ifs with hv
      · exact hcached hv
      · rfl
    dsimp only
    split_ifs
    · intro b hb hclient
      rcases List.mem_cons.mp hb with rfl | hb
      · obtain ⟨hserver, hhost⟩ := hof hclient
        dsimp only
        rw [hpol]
        unfold verifyPolicy
        rw [hserver, hhost]
        rfl
      · exact h.accepted b hb hclient
    · exact h.accepted

/-- A call reads what the calls for its context give. -/
theorem callShadow (h : st.Inv sha utf8 evs) {s : Shadow} (hs : st.proc.callShadow c = some s)
    (chain : List (Option Bytes)) :
    (verifyPeer s chain).Of st.proc.world.hist c ∧ ∃ sid, st.proc.calls c = some sid := by
  obtain ⟨q, hq, rfl⟩ := Option.map_eq_some_iff.mp hs
  obtain ⟨sid, hc, hl⟩ := Option.bind_eq_some_iff.mp hq
  obtain ⟨k, hk⟩ := h.ok.ctx c sid hc
  obtain rfl : (c, k) = q := Option.some.inj (hk.symm.trans hl)
  exact ⟨h.host.2 c sid k ⟨Or.inr hc, hk⟩, sid, hc⟩

/-- A call of `verify_chain` for `c` goes on or ends; an answer from the cache has the policy that its
digest was recorded under. -/
theorem calls (h : st.Inv sha utf8 evs) {v : VerifyState D} {under : D → Option SslPolicy}
    {trace : List VerifyEvent} {p : Peer} (cache : ChainOk D) (hcache : VerifyInv sha evs v)
    (hof : p.Of st.proc.world.hist c) (hcall : ∃ sid, st.proc.calls c = some sid)
    (hunder : ∀ i d w, cache.look i = some (d, w) → ∃ p, Presented evs p ∧
      verifyDigest sha p = some d ∧ under d = some (verifyPolicy utf8 p))
    (hv : (∃ since a, v = { st.verify with cache := cache }.answer c p since a ∧
        (a = .cached → (verifyDigest sha p).bind under = some (verifyPolicy utf8 p))) ∨
      ∃ stage, v = { st.verify with cache := cache }.stay c p stage)
    (hs : ({ st with verify := v, under := under, trace := trace } : Bound D).answers sha utf8 c =
      some st') : st'.Inv sha utf8 evs := by
  obtain ⟨since, a, rfl, hhit⟩ | ⟨stage, rfl⟩ := hv
  · refine answers hs ⟨h.ok, h.host, hcache, ?_, hunder, h.accepted⟩ ?_
    · intro c' w hw
      rcases update_eq_some_iff.mp hw with ⟨-, h'⟩ | ⟨-, h'⟩
      · cases h'
      · exact h.busy c' w h'
    · intro b hb
      have hb' : (⟨p, since, st.verify.clock, a⟩ : Answer) = b := by
        unfold VerifyState.answered at hb
        split_ifs at hb
        exact Option.some.inj hb
      subst hb'
      exact ⟨hof, hhit⟩
  · refine answers hs ⟨h.ok, h.host, hcache, ?_, hunder, h.accepted⟩ ?_
    · intro c' w hw
      rcases update_eq_some_iff.mp hw with ⟨rfl, h'⟩ | ⟨-, h'⟩
      · obtain rfl := Option.some.inj h'
        exact ⟨hcall, hof⟩
      · exact h.busy c' w h'
    · intro b hb
      simp [VerifyState.answered, VerifyState.stay] at hb

variable [DecidableEq D]

theorem enter (h : st.Inv sha utf8 evs) (hsha : Set.InjOn sha (messages evs))
    (hder : PrefixFree (certs evs)) {s : Shadow} {chain : List (Option Bytes)}
    (hshadow : st.proc.callShadow c = some s) (hmem : .enter c s chain ∈ evs)
    (hs : st.calls sha utf8 c (.enter c s chain) = some st') : st'.Inv sha utf8 evs := by
  obtain ⟨hof, hcall⟩ := h.callShadow hshadow chain
  obtain ⟨st₁, hv, hs⟩ := Option.bind_eq_some_iff.mp hs
  obtain ⟨v, hstep, rfl⟩ := Option.map_eq_some_iff.mp hv
  have hcache := h.cache.step hsha hder hmem hstep
  simp only [verifyStep] at hstep
  split_ifs at hstep
  obtain rfl := Option.some.inj hstep
  refine h.calls st.verify.cache hcache hof hcall h.under ?_ hs
  obtain ⟨a, he, hne⟩ | ⟨stage, he, -⟩ := verifyEnter_cases sha st.verify c s chain
  · exact Or.inl ⟨_, a, he, fun ha => absurd ha hne⟩
  · exact Or.inr ⟨stage, he⟩

theorem look (h : st.Inv sha utf8 evs) (hsha : Set.InjOn sha (messages evs))
    (hder : PrefixFree (certs evs)) (hs : st.calls sha utf8 c (.look c) = some st') :
    st'.Inv sha utf8 evs := by
  obtain ⟨st₁, hv, hs⟩ := Option.bind_eq_some_iff.mp hs
  obtain ⟨v, hstep, rfl⟩ := Option.map_eq_some_iff.mp hv
  obtain ⟨p, dg, now, hw, rfl⟩ := verifyStep_look.mp hstep
  obtain ⟨hcall, hof⟩ := h.busy c _ hw
  obtain ⟨hp, hdg, -⟩ := h.cache.busy c _ hw
  obtain ⟨cache, hc, hcases⟩ := verifyLook_cases st.verify c p dg now
  refine h.calls cache (h.cache.look hsha hder hw) hof hcall ?_ ?_ hs
  · intro i d w hi
    rcases hc with hc | ⟨j, hc⟩
    · exact h.under i d w (hc ▸ hi)
    · rw [hc] at hi
      rcases update_eq_some_iff.mp hi with ⟨-, h'⟩ | ⟨-, h'⟩
      · cases h'
      · exact h.under i d w h'
  · obtain ⟨he, i, w, hi, -⟩ | he := hcases
    · refine Or.inl ⟨now, .cached, he, fun _ => ?_⟩
      -- the entry that was hit was put there for this peer
      obtain ⟨q, hq, hqd, hpol⟩ := h.under i dg w hi
      obtain ⟨rfl, -⟩ := verifyDigest_inj hsha hder hq hp hqd (hdg dg rfl)
      rw [hdg dg rfl]
      exact hpol
    · exact Or.inr ⟨_, he⟩

theorem evaluate (h : st.Inv sha utf8 evs) {ok : Bool}
    (hs : st.calls sha utf8 c (.evaluate c ok) = some st') : st'.Inv sha utf8 evs := by
  obtain ⟨st₁, hv, hs⟩ := Option.bind_eq_some_iff.mp hs
  obtain ⟨v, hstep, rfl⟩ := Option.map_eq_some_iff.mp hv
  obtain ⟨p, dg, hw, rfl⟩ := verifyStep_evaluate.mp hstep
  obtain ⟨hcall, hof⟩ := h.busy c _ hw
  refine h.calls st.verify.cache (h.cache.evaluate hw ok) hof hcall h.under ?_ hs
  obtain he | ⟨-, d, -, he⟩ := verifyEvaluate_cases st.verify c p dg ok
  · exact Or.inl ⟨_, _, he, by simp⟩
  · exact Or.inr ⟨_, he⟩

/-- An entry is recorded with the policy of its own evaluation. -/
theorem record (h : st.Inv sha utf8 evs) (hs : st.calls sha utf8 c (.record c) = some st') :
    st'.Inv sha utf8 evs := by
  obtain ⟨st₁, hv, hs⟩ := Option.bind_eq_some_iff.mp hs
  obtain ⟨v, hstep, rfl⟩ := Option.map_eq_some_iff.mp hv
  obtain ⟨p, dg, since, hw, rfl⟩ := verifyStep_record.mp hstep
  obtain ⟨hcall, hof⟩ := h.busy c _ hw
  obtain ⟨hp, hdg, -⟩ := h.cache.busy c _ hw
  have hrec : st.recorded utf8 (.record c) =
      Function.update st.under dg (some (verifyPolicy utf8 p)) := by
    simp [recorded, hw]
  refine h.calls (chainOkPut st.verify.cache st.verify.clock dg) (h.cache.record hw) hof
    hcall ?_ (Or.inl ⟨since, _, rfl, by simp⟩) hs
  intro i d t hi
  rw [hrec]
  by_cases hd : d = dg
  · subst hd
    exact ⟨p, hp, hdg d rfl, Function.update_self ..⟩
  · rw [Function.update_of_ne hd]
    rw [chainOkPut_look] at hi
    rcases update_eq_some_iff.mp hi with ⟨-, h'⟩ | ⟨-, h'⟩
    · exact absurd (Prod.mk.inj (Option.some.inj h')).1.symm hd
    · exact h.under i d t h'

theorem step (h : st.Inv sha utf8 evs) (hsha : Set.InjOn sha (messages evs))
    (hder : PrefixFree (certs evs)) {e : BoundEvent} (hs : st.Next sha utf8 e st')
    (hsub : st'.trace ⊆ evs) : st'.Inv sha utf8 evs := by
  obtain ⟨hs, hk⟩ := hs
  cases e with
  | hook e =>
    simp only [Bound.step] at hs
    split_ifs at hs with hadm
    obtain ⟨p, hp, rfl⟩ := Option.map_eq_some_iff.mp hs
    refine h.proc hp (hk e rfl) ?_
    rintro c hb a rfl
    unfold Bound.admits at hadm
    split at hadm <;> simp_all
  | wait t =>
    obtain ⟨v, hstep, rfl⟩ := Option.map_eq_some_iff.mp hs
    have hcache := h.cache.step hsha hder (hsub List.mem_cons_self) hstep
    simp only [verifyStep] at hstep
    split_ifs at hstep
    obtain rfl := Option.some.inj hstep
    exact ⟨h.ok, h.host, hcache, h.busy, h.under, h.accepted⟩
  | enter c chain =>
    obtain ⟨s, hshadow, hs⟩ := Option.bind_eq_some_iff.mp hs
    refine h.enter hsha hder hshadow (hsub ?_) hs
    rw [calls_trace hs]
    exact List.mem_cons_self
  | look c => exact h.look hsha hder hs
  | evaluate c ok => exact h.evaluate hs
  | record c => exact h.record hs

end Bound.Inv

/-! ### Runs -/

section Runs

variable [DecidableEq D] {sha : Bytes → D} {utf8 : Bytes → Bool} {cache : ChainOk D}
  {evs : List BoundEvent} {st : Bound D}

theorem Bound.Inv.run (hempty : ∀ i, cache.look i = none)
    (h : Path (Bound.Next sha utf8) { verify := { cache := cache } } evs st)
    (hsha : Set.InjOn sha (messages st.trace)) (hder : PrefixFree (certs st.trace)) :
    st.Inv sha utf8 st.trace := by
  -- an older state is judged by the calls of the whole run
  have key : ∀ es, st.trace ⊆ es → Set.InjOn sha (messages es) → PrefixFree (certs es) →
      st.Inv sha utf8 es := by
    refine h.invariant (I := fun st => ∀ es, st.trace ⊆ es → Set.InjOn sha (messages es) →
      PrefixFree (certs es) → st.Inv sha utf8 es) ?_ fun es _ _ _ => Bound.Inv.init hempty
    intro s e t hs hst es hsub hsha hder
    exact (hs es (List.Subset.trans (Bound.step_trace hst.1) hsub) hsha hder).step hsha hder hst hsub
  exact key st.trace (List.Subset.refl _) hsha hder

/-- **Host-name binding.**  In every run of any number of contexts in which no setter loses a client's
name, with a hash that is collision-free on the run's messages and certificates that mark their own
ends: a chain that `verify_chain` accepts for a client, by its own evaluation or from the cache, was
evaluated under the policy for exactly the last name given, if and only if that name is not empty, has
at most 255 bytes and no NUL among them, and is UTF-8. -/
theorem accepted_name (hempty : ∀ i, cache.look i = none)
    (h : Path (Bound.Next sha utf8) { verify := { cache := cache } } evs st)
    (hsha : Set.InjOn sha (messages st.trace)) (hder : PrefixFree (certs st.trace))
    {a : Acceptance} (ha : a ∈ st.accepted) (hclient : (configOf a.past a.ctx).serverSide = false)
    {name : Bytes} (hname : nameOf a.past a.ctx = some name) :
    a.policy = some ⟨true, some name⟩ ↔ Representable utf8 name := by
  have hpol := (Bound.Inv.run hempty h hsha hder).accepted a ha hclient
  rw [hpol, Option.some.injEq, SslPolicy.mk.injEq]
  by_cases hne : name = []
  · subst hne
    simp [policyName_ne_nil, Representable]
  · rw [host_of_name hname hne, policyName_ofBuffer]
    simp

end Runs

/-- What `CFStringCreateWithCString` decodes. -/
def isUtf8 (b : Bytes) : Bool := ByteArray.validateUTF8 ⟨b.toArray⟩

/-- A client is set up for `name` and its handshake is under way. -/
def clientSetup (c : Ctx) (name : Bytes) : List BoundEvent :=
  [.hook (.create c false false true), .hook (.set c (.setIOFuncs 1 1) true),
    .hook (.set c (.setConnection 1) true), .hook (.set c (.setPeerDomainName name) true),
    .hook (.call c (.enter {}))]

/-- Two clients for one host meet the same chain. -/
def sameHostRun : List BoundEvent :=
  clientSetup 1 [97, 98] ++ [.enter 1 [some [48]], .look 1, .evaluate 1 true, .record 1] ++
    clientSetup 2 [97, 98] ++ [.enter 2 [some [48]], .look 2]

/-- `Bound.step`, guarded by `KeepsName`. -/
def Bound.stepKeeping [DecidableEq D] (sha : Bytes → D) (utf8 : Bytes → Bool) (st : Bound D) :
    BoundEvent → Option (Bound D)
  | .hook e => if KeepsName st.proc e then st.step sha utf8 (.hook e) else none
  | e => st.step sha utf8 e

theorem Bound.stepKeeping_next [DecidableEq D] {sha : Bytes → D} {utf8 : Bytes → Bool}
    {st st' : Bound D} {e : BoundEvent} (h : st.stepKeeping sha utf8 e = some st') :
    st.Next sha utf8 e st' := by
  cases e with
  | hook e =>
    simp only [stepKeeping] at h
    split_ifs at h with hk
    exact ⟨h, fun x hx => BoundEvent.hook.inj hx ▸ hk⟩
  | _ => exact ⟨h, by simp⟩

/-- The chain of a call. -/
def VerifyEvent.chain? : VerifyEvent → Option (List (Option Bytes))
  | .enter _ _ chain => some chain
  | _ => none

/-- A run whose calls all have the same certificate marks the ends of its certificates. -/
theorem prefixFree_certs {evs : List VerifyEvent} {b : Bytes}
    (h : ∀ chain ∈ evs.filterMap VerifyEvent.chain?, chain = [some b]) :
    PrefixFree (certs evs) := by
  have hb : ∀ x ∈ certs evs, x = b := by
    rintro x ⟨p, ⟨tid, s, hm, -⟩, hx⟩
    rw [h p.chain (List.mem_filterMap.mpr ⟨_, hm, rfl⟩)] at hx
    simpa using hx
  intro x hx y hy _
  rw [hb x hx, hb y hy]

theorem sameHostRun_isSome : (exec (Bound.stepKeeping id isUtf8)
    { verify := { cache := noChains } } sameHostRun).isSome = true := by
  decide +kernel

theorem accepted_name_sameHostRun : ∃ st : Bound Bytes, Path (Bound.Next id isUtf8)
    { verify := { cache := noChains } } sameHostRun st ∧
    st.accepted.map Acceptance.ctx = [2, 1] ∧
    st.verify.log.map Answer.verdict = [.cached, .evaluated true] ∧
    ∀ a ∈ st.accepted, a.policy = some ⟨true, some [97, 98]⟩ := by
  have hpath := (exec_path_get sameHostRun_isSome).mono_mem fun _ _ _ _ hs =>
    Bound.stepKeeping_next hs
  have hchains : ((exec (Bound.stepKeeping id isUtf8) { verify := { cache := noChains } }
      sameHostRun).get sameHostRun_isSome).trace.filterMap VerifyEvent.chain? =
        [[some [48]], [some [48]]] := by
    decide +kernel
  have hlog : ((exec (Bound.stepKeeping id isUtf8) { verify := { cache := noChains } }
      sameHostRun).get sameHostRun_isSome).verify.log.map Answer.verdict =
        [.cached, .evaluated true] := by
    decide +kernel
  have hnames : ((exec (Bound.stepKeeping id isUtf8) { verify := { cache := noChains } }
      sameHostRun).get sameHostRun_isSome).accepted.map (fun a =>
        (a.ctx, (configOf a.past a.ctx).serverSide, nameOf a.past a.ctx)) =
        [(2, false, some [97, 98]), (1, false, some [97, 98])] := by
    decide +kernel
  generalize (exec (Bound.stepKeeping id isUtf8) { verify := { cache := noChains } }
    sameHostRun).get sameHostRun_isSome = st at hpath hchains hlog hnames
  refine ⟨st, hpath, ?_, hlog, fun a ha => ?_⟩
  · have hctx := congrArg (List.map Prod.fst) hnames
    rwa [List.map_map] at hctx
  · have hder : PrefixFree (certs st.trace) := prefixFree_certs (b := [48]) (by simp [hchains])
    have hmem := List.mem_map_of_mem (f := fun a : Acceptance =>
      (a.ctx, (configOf a.past a.ctx).serverSide, nameOf a.past a.ctx)) ha
    rw [hnames] at hmem
    obtain ⟨-, hclient, hname⟩ : (a.ctx = 2 ∨ a.ctx = 1) ∧
        (configOf a.past a.ctx).serverSide = false ∧ nameOf a.past a.ctx = some [97, 98] := by
      simpa [← or_and_right] using hmem
    refine (accepted_name (by simp [ChainOk.look, noChains]) hpath (Set.injOn_id _) hder ha hclient
      hname).mpr ?_
    exact ⟨by simp, by simp, by decide, by decide +kernel⟩

/-! ### Names that do not come through -/

/-- A client whose name is not UTF-8, and one whose name has a NUL in it. -/
def lossyRun : List BoundEvent :=
  clientSetup 1 [255] ++ [.enter 1 [some [48]], .look 1, .evaluate 1 true, .record 1] ++
    clientSetup 2 [97, 0, 98] ++ [.enter 2 [some [48]], .look 2, .evaluate 2 true, .record 2]

theorem lossyRun_isSome : (exec (Bound.stepKeeping id isUtf8)
    { verify := { cache := noChains } } lossyRun).isSome = true := by
  decide +kernel

/-- Without the condition on the name a chain is accepted for no name at all, or for a shorter
one. -/
theorem accepted_lossy : ∃ st : Bound Bytes, Path (Bound.Next id isUtf8)
    { verify := { cache := noChains } } lossyRun st ∧ ∃ a ∈ st.accepted, ∃ b ∈ st.accepted,
      ((configOf a.past a.ctx).serverSide = false ∧ nameOf a.past a.ctx = some [255] ∧
        a.policy = some ⟨true, none⟩) ∧
      ((configOf b.past b.ctx).serverSide = false ∧ nameOf b.past b.ctx = some [97, 0, 98] ∧
        b.policy = some ⟨true, some [97]⟩) := by
  have hpath := (exec_path_get lossyRun_isSome).mono_mem fun _ _ _ _ hs =>
    Bound.stepKeeping_next hs
  have hnames : ((exec (Bound.stepKeeping id isUtf8) { verify := { cache := noChains } }
      lossyRun).get lossyRun_isSome).accepted.map (fun a =>
        ((configOf a.past a.ctx).serverSide, nameOf a.past a.ctx, a.policy)) =
        [(false, some [97, 0, 98], some ⟨true, some [97]⟩), (false, some [255], some ⟨true, none⟩)] := by
    decide +kernel
  generalize (exec (Bound.stepKeeping id isUtf8) { verify := { cache := noChains } }
    lossyRun).get lossyRun_isSome = st at hpath hnames
  have hmem : ∀ x ∈ st.accepted.map (fun a =>
      ((configOf a.past a.ctx).serverSide, nameOf a.past a.ctx, a.policy)), ∃ a ∈ st.accepted,
      (configOf a.past a.ctx).serverSide = x.1 ∧ nameOf a.past a.ctx = x.2.1 ∧
        a.policy = x.2.2 := by
    intro x hx
    obtain ⟨a, ha, rfl⟩ := List.mem_map.mp hx
    exact ⟨a, ha, rfl, rfl, rfl⟩
  rw [hnames] at hmem
  obtain ⟨a, ha, hof⟩ := hmem (false, some [255], some ⟨true, none⟩) (by simp)
  obtain ⟨b, hb, hof'⟩ := hmem (false, some [97, 0, 98], some ⟨true, some [97]⟩) (by simp)
  exact ⟨st, hpath, a, ha, b, hb, hof, hof'⟩

end AquaTransport
