import AquaTransport.Hooks.Eviction

/-!
# AquaTransport.Hooks.Setters — the configuration that a handshake is driven under

`askedOf h c` is what the calls made for `c` since its creation ask for, call by call.  A shadow keeps
what its setters wrote, but of a name only what fits its buffer, and `sh_create` makes a blank one when
the context has none left, whatever was set before: `setters_complete` holds of the runs in which
nothing is lost either way (`Remembers`).
-/

namespace AquaTransport

variable {c : Ctx} {h : List Obs} {k : Conn}

/-! ### What the calls give -/

/-- What the calls for a context ask for.  The name is the one given, whatever becomes of it. -/
structure Asked where
  serverSide : Bool := false
  name : Bytes := []
  breakAuth : Bool := false
  noCertVerify : Bool := false
  clientBypass : Bool := false
  rf : Ptr := 0
  wf : Ptr := 0
  conn : Ptr := 0
  deriving DecidableEq

/-- What a call asks for, over what the calls before it asked for. -/
def Setter.asked (a : Asked) : Setter → Asked
  | .setIOFuncs rf wf => { a with rf := rf, wf := wf }
  | .setConnection conn => { a with conn := conn }
  | .setPeerDomainName name => { a with name := name }
  | .setBreakOnServerAuth val => { a with breakAuth := val }
  | .setEnableCertVerify enable => { a with noCertVerify := !enable }
  | .setCertificate serverTls disableMtls identity =>
    if a.serverSide then
      if serverTls then { a with clientBypass := identity.isNone } else a
    else { a with clientBypass := disableMtls || identity.isNone }
  | .setPeerID _ | .setClientSideAuthenticate _ | .setBreakOnClientAuth _ => a

/-- What an entry of the history makes of what is asked for `c`. -/
def askedAfter (c : Ctx) (x : Obs) (a : Asked) : Asked :=
  match x with
  | .created c' server => if c' = c then { serverSide := server } else a
  | .called c' f => if c' = c then f.asked a else a
  | _ => a

/-- What the latest calls for `c` since its creation ask for. -/
def askedOf (h : List Obs) (c : Ctx) : Asked := h.foldr (askedAfter c) {}

theorem askedAfter_of_not_about {x : Obs} (hx : x.about c = false) (a : Asked) :
    askedAfter c x a = a := by
  unfold askedAfter
  split
  next => exact if_neg (not_about_created.mp hx)
  next => exact if_neg (not_about_called.mp hx)
  next => rfl

theorem askedOf_append {obs : List Obs} (hobs : ∀ x ∈ obs, x.about c = false) :
    askedOf (obs ++ h) c = askedOf h c :=
  foldr_append_of_id fun x hx => askedAfter_of_not_about (hobs x hx)

@[simp] theorem askedOf_created (server : Bool) :
    askedOf (.created c server :: h) c = { serverSide := server } := by
  simp [askedOf, askedAfter]

@[simp] theorem askedOf_called (f : Setter) :
    askedOf (.called c f :: h) c = f.asked (askedOf h c) := by
  simp [askedOf, askedAfter]

/-! ### What the setters keep -/

/-- What a setter makes of the configuration of a shadow: of a name its first 255 bytes, up to a NUL,
and of no name nothing. -/
def Setter.config (cfg : Config) : Setter → Config
  | .setIOFuncs rf wf => { cfg with rf := rf, wf := wf }
  | .setConnection conn => { cfg with conn := conn }
  | .setPeerDomainName name =>
    if name = [] then cfg else { cfg with host := CString.ofBuffer (name.take 255) }
  | .setBreakOnServerAuth val => { cfg with breakAuth := val }
  | .setEnableCertVerify enable => { cfg with noCertVerify := !enable }
  | .setCertificate serverTls disableMtls identity =>
    if cfg.serverSide then
      if serverTls then { cfg with clientBypass := identity.isNone } else cfg
    else { cfg with clientBypass := disableMtls || identity.isNone }
  | .setPeerID _ | .setClientSideAuthenticate _ | .setBreakOnClientAuth _ => cfg

theorem restart_config (s : Shadow) : s.restart.config = s.config := by
  unfold Shadow.restart
  split_ifs <;> rfl

/-- A setter writes into the shadow what its call gives. -/
theorem Setter.apply_config (f : Setter) (s : Shadow) : (f.apply s).config = f.config s.config := by
  cases f with
  | setPeerDomainName name =>
    by_cases hn : name = []
    · simp [Setter.apply, mySSLSetPeerDomainName, Setter.config, hn]
    · simp only [Setter.apply, mySSLSetPeerDomainName, if_neg hn, restart_config]
      simp [Setter.config, Shadow.config, hn]
  | setCertificate serverTls disableMtls identity =>
    simp only [Setter.apply, mySSLSetCertificate, restart_config]
    cases hs : s.serverSide <;> cases serverTls <;> cases disableMtls <;> cases identity <;>
      simp [Setter.config, Shadow.config, captureIdentity, hs]
  | setPeerID peerID =>
    simp only [Setter.apply, mySSLSetPeerID]
    split_ifs <;> rfl
  | setIOFuncs | setConnection | setClientSideAuthenticate | setBreakOnServerAuth
  | setBreakOnClientAuth | setEnableCertVerify => rfl

/-- What a configuration does of what can be asked for. -/
def Config.does (cfg : Config) : Asked :=
  ⟨cfg.serverSide, cfg.host.bytes, cfg.breakAuth, cfg.noCertVerify, cfg.clientBypass, cfg.rf, cfg.wf,
    cfg.conn⟩

theorem ofBuffer_of_noNul {b : Bytes} (hb : 0 ∉ b) : (CString.ofBuffer b).bytes = b := by
  refine List.takeWhile_eq_self_iff.mpr fun x hx => ?_
  rw [decide_eq_true_iff]
  rintro rfl
  exact hb hx

/-- A name that `my_SSLSetPeerDomainName` keeps as it is given.  No name leaves the one before. -/
def Setter.Keeps (a : Asked) : Setter → Prop
  | .setPeerDomainName name => name.length ≤ 255 ∧ 0 ∉ name ∧ (name = [] → a.name = [])
  | _ => True

instance (a : Asked) : ∀ f : Setter, Decidable (f.Keeps a)
  | .setPeerDomainName _ => inferInstanceAs (Decidable (_ ∧ _ ∧ _))
  | .setIOFuncs .. | .setConnection _ | .setBreakOnServerAuth _ | .setEnableCertVerify _
  | .setCertificate .. | .setPeerID _ | .setClientSideAuthenticate _ | .setBreakOnClientAuth _ =>
    inferInstanceAs (Decidable True)

/-- A setter makes of a configuration what its call asks for. -/
theorem Setter.config_does (f : Setter) (cfg : Config) (h : f.Keeps cfg.does) :
    (f.config cfg).does = f.asked cfg.does := by
  cases f with
  | setPeerDomainName name =>
    obtain ⟨hlen, hnul, hempty⟩ := h
    by_cases hn : name = []
    · have hhost : cfg.host.bytes = [] := hempty hn
      simp [Setter.config, Setter.asked, Config.does, hn, hhost]
    · have hbytes : (CString.ofBuffer (name.take 255)).bytes = name := by
        rw [List.take_of_length_le hlen, ofBuffer_of_noNul hnul]
      simp [Setter.config, Setter.asked, Config.does, hn, hbytes]
  | setCertificate serverTls disableMtls identity =>
    cases hs : cfg.serverSide <;> cases serverTls <;> simp [Setter.config, Setter.asked, Config.does, hs]
  | setIOFuncs | setConnection | setPeerID | setClientSideAuthenticate | setBreakOnServerAuth
  | setBreakOnClientAuth | setEnableCertVerify => rfl

/-! ### Completeness over runs -/

/-- A setter loses nothing: a name is kept as it is given, and where the context has no entry in the
table and gets a blank one, all that the calls before asked for is at its default or given anew. -/
def Remembers (p : Proc) : Event → Prop
  | .set c f alloc =>
    ((p.conc.tab.find c).isSome → f.Keeps (askedOf p.world.hist c)) ∧
    ((p.conc.tab.find c).isNone → alloc = true →
      f.Keeps {} ∧ f.asked (askedOf p.world.hist c) = f.asked {})
  | _ => True

instance (p : Proc) : ∀ e, Decidable (Remembers p e)
  | .set .. => inferInstanceAs (Decidable ((_ → _) ∧ (_ → _ → _ ∧ _)))
  | .create .. | .call .. | .cont .. | .close .. | .dispose _ | .freeMem _ =>
    inferInstanceAs (Decidable True)

/-- A handshake is driven under what is asked for. -/
def Obs.Configured (past : List Obs) (x : Obs) : Prop :=
  ∀ c cfg, x = .driven c cfg → cfg.does = askedOf past c ∧ cfg.Drivable

theorem configTracked :
    Tracked Remembers Obs.Configured fun h c k => k.sh.config.does = askedOf h c where
  silent := by
    rintro h x hx c cfg rfl
    simp [Obs.speaks] at hx
  frame hobs hk := hk.trans (askedOf_append hobs).symm
  born := (askedOf_created true).symm
  set := by
    intro p c f alloc k hD hfind hk
    have hkeeps : f.Keeps (askedOf p.world.hist c) := hD.1 hfind
    rw [askedOf_called, ← hk]
    exact (congrArg Config.does (f.apply_config k.sh)).trans (f.config_does _ (hk ▸ hkeeps))
  blank := by
    intro p c f hD hno
    obtain ⟨hkeeps, hasked⟩ := hD.2 (Option.isNone_iff_eq_none.mpr (Proc.find_of_noEntry hno)) rfl
    rw [askedOf_called, hasked]
    exact (congrArg Config.does (f.apply_config {})).trans (f.config_does _ hkeeps)
  keep hset hk := (congrArg (fun q => Config.does q.1) hset).trans hk
  tell := by
    rintro h c k x hk hx c' cfg rfl
    obtain ⟨rfl, rfl, hd⟩ := hx
    exact ⟨hk, hd⟩

/-- **Setters are complete.**  In every run of any number of contexts in which the setters lose
nothing, every handshake that the engine drives is driven under what the latest calls for its context
ask for, and with its callbacks known. -/
theorem setters_complete {evs : List Event} {p : Proc}
    (h : Path (fun p e p' => p.Next e p' ∧ Remembers p e) {} evs p) :
    ∀ later past c cfg, p.world.hist = later ++ .driven c cfg :: past →
      cfg.does = askedOf past c ∧ cfg.Drivable := by
  obtain ⟨-, hP, -⟩ := configTracked.invariant h
  intro later past c cfg he
  exact along_iff.mp hP later _ past he c cfg rfl

/-- Two contexts, a client and a server, set up in different orders and driven. -/
def twoContextsRun : List Event :=
  [.create 1 false false true, .set 1 (.setBreakOnServerAuth true) true,
    .create 2 true false true, .set 2 (.setCertificate true false (some 5)) true,
    .set 1 (.setIOFuncs 1 1) true, .set 1 (.setConnection 1) true,
    .set 1 (.setPeerDomainName [97, 98]) true, .call 1 (.enter {}),
    .set 2 (.setIOFuncs 2 2) true, .set 2 (.setConnection 2) true,
    .call 2 (.enter { serverTls := true })]

/-- `Proc.step`, guarded by `Remembers`. -/
def Proc.stepRemembering (p : Proc) (e : Event) : Option Proc :=
  if Remembers p e then p.step e else none

theorem Proc.stepRemembering_next {p p' : Proc} {e : Event}
    (h : p.stepRemembering e = some p') : p.Next e p' ∧ Remembers p e := by
  unfold stepRemembering at h
  split_ifs at h with hr
  exact ⟨h, hr⟩

theorem twoContextsRun_isSome : (exec Proc.stepRemembering {} twoContextsRun).isSome = true := by
  decide +kernel

/-- The configuration given for context 1. -/
def askedConfig : Config :=
  { host := ⟨[97, 98], by decide⟩, breakAuth := true, rf := 1, wf := 1, conn := 1 }

theorem twoContextsRun_path : ∃ p, Path (fun p e p' => p.Next e p' ∧ Remembers p e) {}
    twoContextsRun p ∧ ∃ later past, p.world.hist = later ++ .driven 1 askedConfig :: past := by
  have hhist : ((exec Proc.stepRemembering {} twoContextsRun).get twoContextsRun_isSome).world.hist =
      ((exec Proc.stepRemembering {} twoContextsRun).get twoContextsRun_isSome).world.hist.take 6 ++
        .driven 1 askedConfig ::
      ((exec Proc.stepRemembering {} twoContextsRun).get twoContextsRun_isSome).world.hist.drop 7 := by
    decide +kernel
  have h := (exec_path_get twoContextsRun_isSome).mono_mem fun _ _ _ _ hs =>
    Proc.stepRemembering_next hs
  exact ⟨_, h, _, _, hhist⟩

theorem setters_complete_twoContextsRun : ∃ p,
    Path (fun p e p' => p.Next e p' ∧ Remembers p e) {} twoContextsRun p ∧
    ∃ later past, p.world.hist = later ++ .driven 1 askedConfig :: past ∧
      askedConfig.does = askedOf past 1 := by
  obtain ⟨p, h, later, past, he⟩ := twoContextsRun_path
  exact ⟨p, h, later, past, he, (setters_complete h later past 1 askedConfig he).1⟩

/-! ### A forgotten setting -/

/-- A context whose application is to approve the server gets its callbacks, and its handshake, after
256 other contexts. -/
def forgottenRun : List Event :=
  arrival 0 (.setBreakOnServerAuth true) ++ ((List.range' 1 256).flatMap newcomer ++
    [.set 0 (.setIOFuncs 1 1) true, .set 0 (.setConnection 1) true, .call 0 (.enter {})])

/-- The first context of a process leaves room for 255 more. -/
theorem filling_first (f : Setter) : ∃ p, Path Proc.Next {} (arrival 0 f) p ∧ p.Filling 0 255 ∧
    p.created = [0] ∧ p.world.hist = [.called 0 f, .created 0 false] := by
  obtain ⟨p, hpath, hok, hg, ha, hclock, hlook, -, hcalls, hlive, hcreated, hhist⟩ :=
    Proc.arrival_path (c := 0) Proc.Ok.init List.not_mem_nil rfl f
  have hidlest : (shInsert ({} : Conn) ({} : Proc).conc.tab 0).1.Idlest 0 0 := by
    refine ⟨?_, ?_, ?_⟩
    · decide +kernel
    · decide +kernel
    · decide +kernel
  have hroom : (shInsert ({} : Conn) ({} : Proc).conc.tab 0).1.room = 255 := by decide +kernel
  refine ⟨p, hpath, ⟨hok, fun c => ?_, ?_,
    ⟨0, 0, { sh := f.apply {} }, hidlest.congr hg ha hclock, ?_⟩, ?_, ?_⟩,
    hcreated, hhist⟩
  · rw [hcalls]
  · rw [hlive]
    rfl
  · rw [hlook]
    exact Function.update_self ..
  · unfold Table.room at hroom ⊢
    rw [hg]
    exact hroom
  · rw [hclock]
    decide +kernel

/-- Without the condition a context that the table has forgotten is driven without the approval that
its application asked for. -/
theorem setters_forgotten : ∃ p later past cfg, Path Proc.Next {} forgottenRun p ∧
    p.world.hist = later ++ .driven 0 cfg :: past ∧
    cfg.breakAuth = false ∧ (askedOf past 0).breakAuth = true := by
  obtain ⟨p₁, hpath₁, hfill, hcreated, hhist₁⟩ := filling_first (.setBreakOnServerAuth true)
  have hnew : ∀ c ∈ List.range' 1 256, c ∉ p₁.created := by
    intro c hc
    rw [hcreated, List.mem_singleton]
    have := (List.mem_range'_1.mp hc).1
    omega
  obtain ⟨p₂, hpath₂, hok₂, hno, hidle₂, obs, hhist₂, hquiet⟩ :=
    hfill.forgets List.length_range' List.nodup_range' hnew
  obtain ⟨p₃, hset₃, hok₃, -, -, -, hlook₃, hin₃, -, hcalls₃, hlive₃, -, hhist₃⟩ :=
    p₂.set_new hok₂ hno hidle₂ (.setIOFuncs 1 1)
  have hl₃ : p₃.conc.tab.look p₂.conc.tab.next =
      some (0, { sh := (Setter.setIOFuncs 1 1).apply {} }) := hlook₃ ▸ Function.update_self ..
  have hidle₃ : p₃.idle 0 = true := by
    unfold Proc.idle
    rw [hcalls₃, hlive₃]
    exact hidle₂
  obtain ⟨p₄, hset₄, hok₄, hidle₄, hin₄, hl₄, hhist₄⟩ :=
    p₃.set_again hok₃ hidle₃ hin₃ hl₃ rfl (.setConnection 1)
  obtain ⟨p₅, henter, hworld⟩ := p₄.step_enter hok₄ hidle₄ hin₄ hl₄ rfl {}
  have hasked : askedOf p₄.world.hist 0 = { breakAuth := true, rf := 1, wf := 1, conn := 1 } := by
    rw [hhist₄, hhist₃, hhist₂, hhist₁]
    show askedOf (.called 0 _ :: .called 0 _ :: (obs ++ [.called 0 _, .created 0 false])) 0 = _
    rw [askedOf_called, askedOf_called, askedOf_append hquiet, askedOf_called]
    rfl
  refine ⟨p₅, [.use p₂.conc.tab.next (some p₄.world.nextSsl) .doHandshake],
    .sslNew p₂.conc.tab.next p₄.world.nextSsl false :: p₄.world.hist,
    { rf := 1, wf := 1, conn := 1 }, hpath₁.append (hpath₂.append
      (.cons hset₃ (.cons hset₄ (.cons henter (.nil _))))), ?_, rfl, ?_⟩
  · rw [hworld]
    rfl
  · show (askedOf p₄.world.hist 0).breakAuth = true
    rw [hasked]

end AquaTransport
