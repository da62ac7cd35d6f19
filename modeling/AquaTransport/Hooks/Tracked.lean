import AquaTransport.Hooks.Process

/-!
# AquaTransport.Hooks.Tracked — what the current shadow of a context keeps of its caller's calls

The calls that a caller made for a context are notes in the history; the shadow that stands for the
context is the one in the table, or the one that its call in progress holds (`Proc.Cur`).  `Tracked`
lists what a relation between the two has to keep: a setter notes and writes, an act of the engine
notes nothing, and `sh_create` may put a blank shadow in the place of one that is gone.
`Tracked.step` says that the steps of the process then keep it, whatever the table evicts.
-/

namespace AquaTransport

/-! ### What a hook does through `sh_create` and `sh_get` -/

attribute [local irreducible] Conc.get Conc.create Conc.free

namespace Proc

variable {p p' : Proc} {c : Ctx} {s : Sid} {a : Act} {k : Conn}

/-- The shadow `s` stands for the context `c` and holds `k`. -/
def Cur (p : Proc) (c : Ctx) (s : Sid) (k : Conn) : Prop :=
  (p.conc.tab.InTable s ∨ p.calls c = some s) ∧ p.conc.tab.look s = some (c, k)

/-- A hook acted on the shadow `s` of its context. -/
structure Acted (p : Proc) (c : Ctx) (s : Sid) (a : Act) (k : Conn) (p' : Proc) : Prop where
  step : ∃ k', Conn.step c s a p.world k = some (p'.world, k') ∧
    p'.conc.tab.look = Function.update p.conc.tab.look s (some (c, k'))
  inTable : ∀ s', p'.conc.tab.InTable s' → s' = s ∨ p.conc.tab.InTable s'
  calls : ∀ c' s', p'.calls c' = some s' → p.calls c' = some s' ∨ c' = c ∧ s' = s

/-- A hook that did nothing to a shadow. -/
structure Idle (p p' : Proc) : Prop where
  look : p'.conc.tab.look = p.conc.tab.look
  inTable : ∀ s', p'.conc.tab.InTable s' → p.conc.tab.InTable s'
  calls : p'.calls = p.calls
  world : p'.world = p.world

/-- The context has no entry in the table. -/
def NoEntry (p : Proc) (c : Ctx) : Prop :=
  ∀ s k, p.conc.tab.InTable s → p.conc.tab.look s ≠ some (c, k)

theorem find_of_noEntry (h : p.NoEntry c) : p.conc.tab.find c = none := by
  cases hf : p.conc.tab.find c with
  | none => rfl
  | some s =>
    obtain ⟨hin, k, hl⟩ := Table.find_look hf
    exact absurd hl (h s k hin)

/-- An act changes what its shadow holds and the world, and no entry of the table. -/
theorem act_acted {p₁ : Proc} (hl : p.conc.tab.look s = some (c, k)) (ha : p.act c s a = some p₁) :
    (∃ k', Conn.step c s a p.world k = some (p₁.world, k') ∧
      p₁.conc.tab.look = Function.update p.conc.tab.look s (some (c, k'))) ∧
    (∀ s', p₁.conc.tab.InTable s' ↔ p.conc.tab.InTable s') ∧ p₁.calls = p.calls := by
  obtain ⟨w', k', hstep, rfl⟩ := act_eq hl ha
  exact ⟨⟨k', hstep, write_look_eq hl k'⟩, fun _ => Iff.rfl, rfl⟩

theorem viaCreate_cases (h : p.Ok) {alloc : Bool} (hs : p.viaCreate c alloc a = some p') :
    (∃ s k, p.conc.tab.InTable s ∧ p.conc.tab.look s = some (c, k) ∧ p.Acted c s a k p') ∨
    p.NoEntry c ∧ alloc = false ∧ p.Idle p' ∨
    p.NoEntry c ∧ alloc = true ∧ p.Acted c p.conc.tab.next a {} p' := by
  unfold viaCreate at hs
  rcases Conc.create_cases h.refs c alloc {} c with
    ⟨s₀, k₀, hr, hin₀, hk₀, hlook, -, hin⟩ | ⟨hr, hst, halloc, hno⟩ |
    ⟨hr, halloc, -, hno, hlook, -, -, hin⟩
  · refine Or.inl ⟨s₀, k₀, hin₀, hk₀, ?_⟩
    rw [hr] at hs
    obtain ⟨p₁, hact, rfl⟩ := Option.map_eq_some_iff.mp hs
    obtain ⟨⟨k', hstep, hl⟩, hin₁, hcalls⟩ := act_acted (hlook ▸ hk₀) hact
    refine ⟨⟨k', hstep, ?_⟩, fun s' hs' => Or.inr ((hin s').mp ((hin₁ s').mp hs')), fun c' s' hc' => ?_⟩
    · rw [← hlook, ← hl]
      exact Conc.release_look
    · exact Or.inl (hcalls ▸ hc')
  · refine Or.inr (Or.inl ⟨hno, halloc, ?_⟩)
    rw [hr] at hs
    obtain rfl := Option.some.inj hs
    rw [hst]
    exact ⟨rfl, fun _ h => h, rfl, rfl⟩
  · refine Or.inr (Or.inr ⟨hno, halloc, ?_⟩)
    rw [hr] at hs
    obtain ⟨p₁, hact, rfl⟩ := Option.map_eq_some_iff.mp hs
    have hl₀ : (p.conc.create c alloc {} c).1.tab.look p.conc.tab.next = some (c, {}) := by
      rw [hlook, Function.update_self]
    obtain ⟨⟨k', hstep, hl⟩, hin₁, hcalls⟩ := act_acted hl₀ hact
    refine ⟨⟨k', hstep, ?_⟩, fun s' hs' => hin s' ((hin₁ s').mp hs'), fun c' s' hc' => ?_⟩
    · refine Conc.release_look.trans (hl.trans ?_)
      show Function.update (p.conc.create c alloc {} c).1.tab.look _ _ = _
      rw [hlook, Function.update_idem]
    · exact Or.inl (hcalls ▸ hc')

/-- The end of an act leaves the table as it is, and at most the call on its own shadow. -/
theorem settle_acted (p : Proc) (c : Ctx) (s : Sid) :
    (p.settle c s).conc.tab.look = p.conc.tab.look ∧ (p.settle c s).world = p.world ∧
    (∀ s', (p.settle c s).conc.tab.InTable s' ↔ p.conc.tab.InTable s') ∧
    ∀ c' s', (p.settle c s).calls c' = some s' → p.calls c' = some s' ∨ c' = c ∧ s' = s := by
  unfold settle
  split_ifs
  · refine ⟨rfl, rfl, fun _ => Iff.rfl, fun c' s' hc' => ?_⟩
    rcases update_eq_some_iff.mp hc' with ⟨rfl, h'⟩ | ⟨-, h'⟩
    · exact Or.inr ⟨rfl, (Option.some.inj h').symm⟩
    · exact Or.inl h'
  · refine ⟨Conc.release_look, rfl, fun _ => Iff.rfl, fun c' s' hc' => ?_⟩
    rcases update_eq_some_iff.mp hc' with ⟨-, h'⟩ | ⟨-, h'⟩
    · simp at h'
    · exact Or.inl h'

/-- A caller's act is made while no call is in progress. -/
theorem step_entry {w w' : World} {k' : Conn} (ha : a.isEntry = true)
    (h : Conn.step c s a w k = some (w', k')) :
    k.call = none ∧ Conn.entry c s w k.sh a = (w', k') := by
  unfold Conn.step at h
  split at h
  next hc =>
    rw [if_pos ha] at h
    exact ⟨hc, Option.some.inj h⟩
  next call hc =>
    split at h
    next x hx => cases a <;> simp [Conn.reply, Act.isEntry] at h ha
    next => simp at h

/-- A setter for a context that has an entry writes into that entry. -/
theorem set_entry (h : p.Ok) {f : Setter} {alloc : Bool} (hs : p.step (.set c f alloc) = some p')
    (hin : p.conc.tab.InTable s) (hl : p.conc.tab.look s = some (c, k)) :
    p'.conc.tab.look = Function.update p.conc.tab.look s (some (c, { sh := f.apply k.sh })) ∧
      p'.world = (p.world.log [.called c f]).log (f.frees s k.sh) := by
  simp only [step] at hs
  split_ifs at hs
  rcases viaCreate_cases (h.log _) hs with ⟨s₀, k₀, hin₀, hl₀, hact⟩ | ⟨hno, -⟩ | ⟨hno, -⟩
  · obtain rfl := h.refs.inTable_inj hin hin₀ hl hl₀
    obtain ⟨-, rfl⟩ := Prod.mk.inj (Option.some.inj (hl.symm.trans hl₀))
    obtain ⟨k', hstep, hlook⟩ := hact.step
    obtain ⟨hw, rfl⟩ := Prod.mk.inj (step_entry rfl hstep).2
    exact ⟨hlook, hw.symm⟩
  · exact absurd hl (hno s k hin)
  · exact absurd hl (hno s k hin)

theorem viaGet_cases (hs : p.viaGet c a = some p') :
    (∃ s k, p.conc.tab.InTable s ∧ p.conc.tab.look s = some (c, k) ∧ p.Acted c s a k p') ∨
    p.Idle p' := by
  unfold viaGet at hs
  split at hs
  next =>
    obtain rfl := Option.some.inj hs
    refine Or.inr ⟨Conc.get_look true, fun s' hs' => ?_, rfl, rfl⟩
    exact (Conc.get_inTable true).mp hs'
  next s hr =>
    obtain ⟨p₁, hact, rfl⟩ := Option.map_eq_some_iff.mp hs
    obtain ⟨hin, k, hl⟩ := Conc.get_returns hr
    have hl₀ : (p.conc.get c true c).1.tab.look s = some (c, k) := by
      rw [Conc.get_look]
      exact hl
    obtain ⟨⟨k', hstep, hl₁⟩, hin₁, hcalls⟩ := act_acted hl₀ hact
    obtain ⟨hl₂, hw, hin₂, hcalls₂⟩ := settle_acted p₁ c s
    refine Or.inl ⟨s, k, hin, hl, ⟨k', ?_, ?_⟩, fun s' hs' => Or.inr ?_, fun c' s' hc' => ?_⟩
    · rw [hw]
      exact hstep
    · rw [hl₂, hl₁]
      show Function.update (p.conc.get c true c).1.tab.look _ _ = _
      rw [Conc.get_look]
    · exact (Conc.get_inTable true).mp ((hin₁ s').mp ((hin₂ s').mp hs'))
    · exact (hcalls₂ c' s' hc').imp (fun h => hcalls ▸ h) id

/-- An entry through `sh_get` acts on the entry of its context. -/
theorem viaGet_entry (h : p.Ok) (hin : p.conc.tab.InTable s) (hl : p.conc.tab.look s = some (c, k)) :
    (∀ p', p.viaGet c a = some p' → ∃ k', Conn.step c s a p.world k = some (p'.world, k') ∧
      p'.conc.tab.look = Function.update p.conc.tab.look s (some (c, k'))) ∧
    ∀ r, Conn.step c s a p.world k = some r → ∃ p', p.viaGet c a = some p' := by
  have hr : (p.conc.get c true c).2 = some s := by
    cases hr : (p.conc.get c true c).2 with
    | none => exact absurd hl ((Conc.get_missing hr).2 s k hin)
    | some s' =>
      obtain ⟨hin', k', hl'⟩ := Conc.get_returns hr
      exact congrArg some (h.refs.inTable_inj hin' hin hl' hl)
  have hl' : (p.conc.get c true c).1.tab.look s = some (c, k) := by
    rw [Conc.get_look]
    exact hl
  have hvia : p.viaGet c a = (act { p with conc := (p.conc.get c true c).1 } c s a).map
      fun p' => p'.settle c s := by
    unfold viaGet
    rw [hr]
  rw [hvia]
  constructor
  · intro p' hs
    obtain ⟨p₁, hact, rfl⟩ := Option.map_eq_some_iff.mp hs
    obtain ⟨⟨k', hstep, hl₁⟩, -, -⟩ := act_acted hl' hact
    obtain ⟨hl₂, hw, -, -⟩ := settle_acted p₁ c s
    refine ⟨k', by rw [hw]; exact hstep, ?_⟩
    rw [hl₂, hl₁]
    show Function.update (p.conc.get c true c).1.tab.look _ _ = _
    rw [Conc.get_look]
  · intro r hstep
    dsimp only [act]
    rw [hl', Option.bind_some, hstep]
    exact ⟨_, rfl⟩

end Proc

/-! ### Relations between a caller's calls and the shadow -/

/-- What the setters write that a history can tell: the configuration and the peer id. -/
def Shadow.settings (s : Shadow) : Config × Buf256 × ℕ := (s.config, s.peerID, s.peerIDLen)

/-- Settings with which the engine drives a handshake: the callbacks are known, and the client
identity, if any, is one that it can carry. -/
def Config.Drivable (cfg : Config) : Prop :=
  cfg.rf ≠ 0 ∧ cfg.wf ≠ 0 ∧ cfg.conn ≠ 0 ∧ cfg.clientBypass = false

theorem drivable_of_native {serverTls : Bool} {s : Shadow} (h : s.native serverTls = false) :
    s.config.Drivable := by
  unfold Shadow.native at h
  simp only [Bool.or_eq_false_iff, beq_eq_false_iff_ne] at h
  obtain ⟨⟨⟨⟨⟨hrf, hwf⟩, hconn⟩, hbypass⟩, -⟩, -⟩ := h
  exact ⟨hrf, hwf, hconn, hbypass⟩

/-- What an observation made on a connection tells of its settings. -/
def Obs.Tells (c : Ctx) (s : Shadow) : Obs → Prop
  | .created .. | .called .. => False
  | .driven c' cfg => c' = c ∧ cfg = s.config ∧ cfg.Drivable
  | .offered c' _ key _ _ | .stored c' _ key _ => c' = c ∧ key = s.peerKey ∧ s.peerIDLen ≠ 0
  | _ => True

def Obs.speaks : Obs → Bool
  | .driven .. | .offered .. | .stored .. => true
  | _ => false

/-- A note about the context. -/
def Obs.about (c : Ctx) : Obs → Bool
  | .created c' _ | .called c' _ => c' == c
  | _ => false

theorem not_about_created {c c' : Ctx} {server : Bool} :
    (Obs.created c' server).about c = false ↔ c' ≠ c := by
  simp [Obs.about]

theorem not_about_called {c c' : Ctx} {f : Setter} : (Obs.called c' f).about c = false ↔ c' ≠ c := by
  simp [Obs.about]

theorem about_of_not_note {c : Ctx} {x : Obs} (h : x.isNote = false) : x.about c = false := by
  cases x <;> first | rfl | simp [Obs.isNote] at h

theorem about_of_tells {c c' : Ctx} {s : Shadow} {x : Obs} (h : x.Tells c s) :
    x.about c' = false := by
  cases x <;> first | rfl | exact h.elim

/-- The acts that a note goes with. -/
def Act.isNoted : Act → Bool
  | .markServerSide | .set _ => true
  | _ => false

theorem Shadow.settings_of_lasting {s s' : Shadow} (h : s'.lasting = s.lasting) :
    s'.settings = s.settings :=
  (congrArg Shadow.settings h : s'.lasting.settings = s.lasting.settings)

/-- An act that is no setter's keeps the settings, and tells of them. -/
theorem Effect.tells {c : Ctx} {sid : Sid} {w w' : World} {k k' : Conn} {a : Act}
    (h : Effect c sid w k a w' k') (hn : a.isNoted = false) :
    k'.sh.settings = k.sh.settings ∧
      ∃ obs, w'.hist = obs ++ w.hist ∧ ∀ x ∈ obs, x.Tells c k.sh := by
  cases h with
  | server => simp [Act.isNoted] at hn
  | set => simp [Act.isNoted] at hn
  | io _ _ _ _ lasting uses =>
    refine ⟨Shadow.settings_of_lasting lasting, _, rfl, fun x hx => ?_⟩
    obtain ⟨op, rfl, -⟩ := uses x hx
    trivial
  | refused _ _ _ _ made =>
    rcases made with rfl | rfl
    · exact ⟨rfl, [], rfl, by simp⟩
    · exact ⟨rfl, [_, _], rfl, by simp [Obs.Tells]⟩
  | driven _ _ _ native =>
    have hd := drivable_of_native native
    refine ⟨rfl, [_, _], rfl, ?_⟩
    simpa [Obs.Tells, Shadow.config, shUnblockWrite] using hd
  | started _ _ _ native _ hoffered =>
    have hd := drivable_of_native native
    rcases hoffered with ⟨-, rfl⟩ | ⟨cached, -, rfl, -, hlen, -⟩
    · refine ⟨rfl, [_, _, _], rfl, ?_⟩
      simpa [Obs.Tells, Shadow.config, Shadow.started, shUnblockWrite] using hd
    · refine ⟨rfl, [_, _, _, _], rfl, ?_⟩
      simpa [Obs.Tells, Shadow.config, Shadow.started, shUnblockWrite, hlen] using hd
  | verify _ _ v =>
    refine ⟨rfl, _, rfl, fun x hx => ?_⟩
    obtain ⟨way, -, rfl⟩ := Option.map_eq_some_iff.mp (Option.mem_toList.mp hx)
    trivial
  | stored _ _ _ _ keyed => exact ⟨rfl, [_], rfl, by simp [Obs.Tells, keyed]⟩
  | connected => exact ⟨rfl, [_, _], rfl, by simp [Obs.Tells]⟩
  | resume | give | paused | blocked | broken => exact ⟨rfl, [_], rfl, by simp [Obs.Tells]⟩
  | datagram | same | noCert | suspend | dropped | bwrite | finish => exact ⟨rfl, [], rfl, by simp⟩

/-- What `P` of the history and `Q` of the history and a current shadow have to keep.  `D` is the
condition under which a setter may write into the entry of its context, or make one. -/
structure Tracked (D : Proc → Event → Prop) (P : List Obs → Obs → Prop)
    (Q : List Obs → Ctx → Conn → Prop) : Prop where
  silent : ∀ {h x}, x.speaks = false → P h x
  frame : ∀ {h c k obs}, (∀ x ∈ obs, x.about c = false) → Q h c k → Q (obs ++ h) c k
  born : ∀ {h c}, Q (.created c true :: h) c { sh := { serverSide := true } }
  set : ∀ {p c f alloc k}, D p (.set c f alloc) → (p.conc.tab.find c).isSome → Q p.world.hist c k →
    Q (.called c f :: p.world.hist) c { sh := f.apply k.sh }
  blank : ∀ {p c f}, D p (.set c f true) → p.NoEntry c →
    Q (.called c f :: p.world.hist) c { sh := f.apply {} }
  keep : ∀ {h c k k'}, k'.sh.settings = k.sh.settings → Q h c k → Q h c k'
  tell : ∀ {h c k x}, Q h c k → x.Tells c k.sh → P h x

/-- `P` holds along the history and `Q` of every current shadow. -/
def Proc.Tracks (P : List Obs → Obs → Prop) (Q : List Obs → Ctx → Conn → Prop) (p : Proc) : Prop :=
  Along P p.world.hist ∧ ∀ c s k, p.Cur c s k → Q p.world.hist c k

namespace Tracked

variable {D : Proc → Event → Prop} {P : List Obs → Obs → Prop} {Q : List Obs → Ctx → Conn → Prop}
  {p p' : Proc} {c : Ctx} {s : Sid} {a : Act} {k : Conn}

/-- A step after which every current shadow was one before. -/
theorem shrink (hi : p.Tracks P Q) (hw : p'.world = p.world)
    (hcur : ∀ c s k, p'.Cur c s k → p.Cur c s k) : p'.Tracks P Q := by
  unfold Proc.Tracks
  rw [hw]
  exact ⟨hi.1, fun c s k h => hi.2 c s k (hcur c s k h)⟩

theorem idle (hi : p.Tracks P Q) (h : p.Idle p') : p'.Tracks P Q := by
  refine shrink hi h.world fun c s k ⟨hs, hl⟩ => ⟨hs.imp (h.inTable s) fun hc => ?_, ?_⟩
  · rwa [h.calls] at hc
  · rwa [h.look] at hl

/-- What becomes of the current shadows when one of them was acted on. -/
theorem acted_cur (h : p.Acted c s a k p') {k' : Conn}
    (hl : p'.conc.tab.look = Function.update p.conc.tab.look s (some (c, k')))
    {c₁ : Ctx} {s₁ : Sid} {k₁ : Conn} (hc : p'.Cur c₁ s₁ k₁) :
    s₁ = s ∧ c₁ = c ∧ k₁ = k' ∨ s₁ ≠ s ∧ p.Cur c₁ s₁ k₁ := by
  obtain ⟨hs, hk⟩ := hc
  rw [hl] at hk
  rcases update_eq_some_iff.mp hk with ⟨rfl, h'⟩ | ⟨hne, h'⟩
  · obtain ⟨rfl, rfl⟩ := Prod.mk.inj (Option.some.inj h')
    exact Or.inl ⟨rfl, rfl, rfl⟩
  · refine Or.inr ⟨hne, ?_, h'⟩
    rcases hs with hs | hs
    · exact Or.inl ((h.inTable s₁ hs).resolve_left hne)
    · exact Or.inr ((h.calls c₁ s₁ hs).resolve_right fun h => hne h.2)

/-- An act without a note, on a current shadow. -/
theorem acted (ht : Tracked D P Q) (hi : p.Tracks P Q) (hn : a.isNoted = false) (hcur : p.Cur c s k)
    (h : p.Acted c s a k p') : p'.Tracks P Q := by
  obtain ⟨k', hstep, hl⟩ := h.step
  obtain ⟨hset, obs, hobs, htells⟩ := (step_effect hstep).tells hn
  have hQ := hi.2 c s k hcur
  unfold Proc.Tracks
  rw [hobs]
  refine ⟨hi.1.append fun l x r he => ?_, fun c₁ s₁ k₁ hc => ?_⟩
  · -- what `x` tells was so before the observations of this act
    have hr : ∀ y ∈ r, y.about c = false := by
      intro y hy
      exact about_of_tells (htells y (he ▸ List.mem_append_right l (List.mem_cons_of_mem x hy)))
    exact ht.tell (ht.frame hr hQ) (htells x (he ▸ List.mem_append_right l List.mem_cons_self))
  · have hquiet : ∀ y ∈ obs, y.about c₁ = false := fun y hy => about_of_tells (htells y hy)
    rcases acted_cur h hl hc with ⟨-, rfl, rfl⟩ | ⟨-, hold⟩
    · exact ht.frame hquiet (ht.keep hset hQ)
    · exact ht.frame hquiet (hi.2 c₁ s₁ k₁ hold)

/-- A note for a context and the act that goes with it, on the only shadow of the context. -/
theorem noted (ht : Tracked D P Q) (hi : p.Tracks P Q) {x : Obs} (hx : x.speaks = false)
    (habout : ∀ c₁, c₁ ≠ c → x.about c₁ = false) (honly : ∀ s₁ k₁, p.Cur c s₁ k₁ → s₁ = s)
    (h : (p.log [x]).Acted c s a k p') {obs : List Obs} {k' : Conn}
    (hlook : p'.conc.tab.look = Function.update p.conc.tab.look s (some (c, k')))
    (hhist : p'.world.hist = obs ++ x :: p.world.hist)
    (hobs : ∀ y ∈ obs, y.isNote = false ∧ ∀ past, P past y)
    (hQ : Q (x :: p.world.hist) c k') : p'.Tracks P Q := by
  have hP : Along P (x :: p.world.hist) := ⟨ht.silent hx, hi.1⟩
  have hquiet : ∀ c₁, ∀ y ∈ obs, y.about c₁ = false :=
    fun c₁ y hy => about_of_not_note (hobs y hy).1
  unfold Proc.Tracks
  rw [hhist]
  refine ⟨hP.append_mem fun y hy past => (hobs y hy).2 _, fun c₁ s₁ k₁ hc => ?_⟩
  rcases acted_cur h hlook hc with ⟨-, rfl, rfl⟩ | ⟨hne, hold⟩
  · exact ht.frame (hquiet _) hQ
  · have hc₁ : c₁ ≠ c := by
      rintro rfl
      exact hne (honly s₁ k₁ hold)
    have hx₁ : ∀ y ∈ [x], y.about c₁ = false := by simpa using habout c₁ hc₁
    have hq : Q ([x] ++ p.world.hist) c₁ k₁ := ht.frame hx₁ (hi.2 c₁ s₁ k₁ hold)
    exact ht.frame (hquiet c₁) hq

/-- A note for a context that has no shadow. -/
theorem log (ht : Tracked D P Q) (hi : p.Tracks P Q) {x : Obs} (hx : x.speaks = false)
    (habout : ∀ c₁, c₁ ≠ c → x.about c₁ = false) (hnone : ∀ s k, ¬ p.Cur c s k) :
    (p.log [x]).Tracks P Q := by
  refine ⟨⟨ht.silent hx, hi.1⟩, fun c₁ s₁ k₁ hc => ?_⟩
  have hold : p.Cur c₁ s₁ k₁ := hc
  have hc₁ : c₁ ≠ c := by
    rintro rfl
    exact hnone s₁ k₁ hold
  have hx₁ : ∀ y ∈ [x], y.about c₁ = false := by simpa using habout c₁ hc₁
  have hq : Q ([x] ++ p.world.hist) c₁ k₁ := ht.frame hx₁ (hi.2 c₁ s₁ k₁ hold)
  exact hq

/-! ### Steps and runs -/

theorem viaGet (ht : Tracked D P Q) (hi : p.Tracks P Q) (hn : a.isNoted = false)
    (hs : p.viaGet c a = some p') : p'.Tracks P Q := by
  rcases Proc.viaGet_cases hs with ⟨s, k, hin, hl, hact⟩ | hidle
  · exact ht.acted hi hn ⟨Or.inl hin, hl⟩ hact
  · exact idle hi hidle

theorem set_step (ht : Tracked D P Q) (hok : p.Ok) (hi : p.Tracks P Q) {f : Setter} {alloc : Bool}
    (hD : D p (.set c f alloc)) (hs : p.step (.set c f alloc) = some p') : p'.Tracks P Q := by
  simp only [Proc.step] at hs
  split_ifs at hs with hidle
  obtain ⟨-, hcalls⟩ := Proc.idle_iff.mp hidle
  have habout : ∀ c₁, c₁ ≠ c → (Obs.called c f).about c₁ = false := by
    intro c₁ hne
    simpa [Obs.about] using hne.symm
  have hentry : ∀ {s k}, p.Cur c s k → p.conc.tab.InTable s := by
    intro s k hc
    refine hc.1.resolve_right ?_
    rw [hcalls]
    simp
  have hwrite : ∀ {s k}, Q (.called c f :: p.world.hist) c { sh := f.apply k.sh } →
      (∀ s₁ k₁, p.Cur c s₁ k₁ → s₁ = s) →
      (p.log [.called c f]).Acted c s (.set f) k p' → p'.Tracks P Q := by
    intro s k hQ honly hact
    obtain ⟨k', hstep, hlook⟩ := hact.step
    obtain ⟨hw, rfl⟩ := Prod.mk.inj (Proc.step_entry rfl hstep).2
    refine ht.noted hi rfl habout honly hact hlook (congrArg World.hist hw.symm) ?_ hQ
    intro y hy
    unfold Setter.frees at hy
    split_ifs at hy
    · obtain rfl := List.mem_singleton.mp hy
      exact ⟨rfl, fun past => ht.silent rfl⟩
    · simp at hy
  rcases Proc.viaCreate_cases (hok.log _) hs with
    ⟨s, k, hin, hl, hact⟩ | ⟨hno, -, hidle'⟩ | ⟨hno, rfl, hact⟩
  · have hfind : (p.conc.tab.find c).isSome := by
      by_contra hf
      exact Table.find_none_look (Option.not_isSome_iff_eq_none.mp hf) hin hl
    refine hwrite (ht.set hD hfind (hi.2 c s k ⟨Or.inl hin, hl⟩)) (fun s₁ k₁ hc => ?_) hact
    exact hok.refs.inTable_inj (hentry hc) hin hc.2 hl
  · refine idle (ht.log hi rfl habout fun s k hc => ?_) hidle'
    exact hno s k (hentry hc) hc.2
  · refine hwrite (ht.blank hD hno) (fun s₁ k₁ hc => ?_) hact
    exact absurd hc.2 (hno s₁ k₁ (hentry hc))

theorem create_step (ht : Tracked D P Q) (hok : p.Ok) (hi : p.Tracks P Q)
    {server datagram alloc : Bool} (hs : p.step (.create c server datagram alloc) = some p') :
    p'.Tracks P Q := by
  have habout : ∀ c₁, c₁ ≠ c → (Obs.created c server).about c₁ = false := by
    intro c₁ hne
    simpa [Obs.about] using hne.symm
  by_cases hnew : c ∈ p.created
  · simp [Proc.step, hnew] at hs
  have hnone : ∀ s k, ¬ p.Cur c s k := by
    rintro s k ⟨hin | hc, hl⟩
    · exact hnew (hok.known s c k hin hl)
    · exact hnew (hok.made c s hc)
  have hlog : (p.born c server).Tracks P Q := ht.log hi rfl habout hnone
  have hok' : (p.born c server).Ok := hok.born c server
  cases server with
  | false =>
    simp only [Proc.step, if_neg hnew, Bool.false_eq_true, if_false, Option.some.injEq] at hs
    exact hs ▸ hlog
  | true =>
    simp only [Proc.step, if_neg hnew, if_true] at hs
    obtain ⟨p₁, hcreate, hrest⟩ := Option.bind_eq_some_iff.mp hs
    have h₁ : p₁.Tracks P Q := by
      rcases Proc.viaCreate_cases hok' hcreate with ⟨s, k, hin, hl, -⟩ | ⟨-, -, hidle⟩ | ⟨-, -, hact⟩
      · exact absurd ⟨Or.inl hin, hl⟩ (hnone s k)
      · exact idle hlog hidle
      · obtain ⟨k', hstep, hlook⟩ := hact.step
        obtain ⟨hw, rfl⟩ := Prod.mk.inj (Proc.step_entry rfl hstep).2
        have hact' : (p.log [.created c true]).Acted c _ .markServerSide {} p₁ :=
          ⟨hact.step, hact.inTable, hact.calls⟩
        have hhist : p₁.world.hist = [] ++ .created c true :: p.world.hist :=
          congrArg World.hist hw.symm
        exact ht.noted hi rfl habout (fun s₁ k₁ hc => absurd hc (hnone s₁ k₁)) hact' hlook hhist
          (by simp) ht.born
    split_ifs at hrest
    · exact ht.viaGet h₁ rfl hrest
    · exact Option.some.inj hrest ▸ h₁

/-- **Every step of the process keeps what is tracked.** -/
theorem step (ht : Tracked D P Q) (hok : p.Ok) (hi : p.Tracks P Q) {e : Event} (hD : D p e)
    (hs : p.step e = some p') : p'.Tracks P Q := by
  cases e with
  | create c server datagram alloc => exact ht.create_step hok hi hs
  | set c f alloc => exact ht.set_step hok hi hD hs
  | call c a =>
    simp only [Proc.step] at hs
    split_ifs at hs with hidle
    rw [Bool.and_eq_true] at hidle
    refine ht.viaGet hi ?_ hs
    cases a <;> first | rfl | simp [Act.isCall] at hidle
  | cont c a =>
    simp only [Proc.step] at hs
    split_ifs at hs with hentry
    obtain ⟨s, hc, hs⟩ := Option.bind_eq_some_iff.mp hs
    obtain ⟨p₁, hact, rfl⟩ := Option.map_eq_some_iff.mp hs
    obtain ⟨k, hl⟩ := hok.ctx c s hc
    obtain ⟨⟨k', hstep, hl₁⟩, hin₁, hcalls⟩ := Proc.act_acted hl hact
    have hn : a.isNoted = false := by
      cases a <;> first | rfl | simp [Act.isEntry] at hentry
    have h₁ : p₁.Tracks P Q := ht.acted hi hn ⟨Or.inr hc, hl⟩
      ⟨⟨k', hstep, hl₁⟩, fun s' hs' => Or.inr ((hin₁ s').mp hs'),
        fun c' s' hc' => Or.inl (hcalls ▸ hc')⟩
    obtain ⟨hl₂, hw, hin₂, hcalls₂⟩ := Proc.settle_acted p₁ c s
    refine shrink h₁ hw ?_
    rintro c₁ s₁ k₁ ⟨hs₁, hk₁⟩
    refine ⟨?_, hl₂ ▸ hk₁⟩
    refine hs₁.imp (hin₂ s₁).mp fun h' => ?_
    rcases hcalls₂ c₁ s₁ h' with h' | ⟨rfl, rfl⟩
    · exact h'
    · rw [hcalls]
      exact hc
  | close c flush =>
    simp only [Proc.step] at hs
    split_ifs at hs
    obtain ⟨p₁, hget, rfl⟩ := Option.map_eq_some_iff.mp hs
    refine shrink (ht.viaGet hi rfl hget) rfl ?_
    rintro c₁ s₁ k₁ ⟨hs₁, hk₁⟩
    refine ⟨?_, ?_⟩
    · exact hs₁.imp_left fun h => Conc.free_inTable true h
    · rwa [show _ = _ from Conc.free_look true] at hk₁
  | dispose c =>
    simp only [Proc.step] at hs
    split_ifs at hs
    obtain rfl := Option.some.inj hs
    refine shrink hi rfl ?_
    rintro c₁ s₁ k₁ ⟨hs₁, hk₁⟩
    refine ⟨?_, ?_⟩
    · exact hs₁.imp_left fun h => Conc.free_inTable true h
    · rwa [show _ = _ from Conc.free_look true] at hk₁
  | freeMem s =>
    simp only [Proc.step] at hs
    split_ifs at hs
    obtain rfl := Option.some.inj hs
    have hobs : ∀ y ∈ ((p.conc.tab.look s).map fun q => Proc.frees s q.2).toList.flatten,
        ∃ s o op, y = .use s o op := by
      intro y hy
      obtain ⟨l, hl, hy⟩ := List.mem_flatten.mp hy
      obtain ⟨q, -, rfl⟩ := Option.map_eq_some_iff.mp (Option.mem_toList.mp hl)
      obtain ⟨o, -, rfl⟩ := Option.map_eq_some_iff.mp (Option.mem_toList.mp hy)
      exact ⟨s, some o, .free, rfl⟩
    refine ⟨hi.1.append_mem fun y hy past => ?_, ?_⟩
    · obtain ⟨s', o, op, rfl⟩ := hobs y hy
      exact ht.silent rfl
    rintro c₁ s₁ k₁ ⟨hs₁, hk₁⟩
    refine ht.frame (fun y hy => ?_) ?_
    · obtain ⟨s', o, op, rfl⟩ := hobs y hy
      rfl
    · have hk : Function.update p.conc.tab.look s none s₁ = some (c₁, k₁) := by
        rw [← Conc.freeMem_look]
        exact hk₁
      rcases update_eq_some_iff.mp hk with ⟨-, h'⟩ | ⟨-, h'⟩
      · simp at h'
      · exact hi.2 c₁ s₁ k₁ ⟨hs₁, h'⟩

/-- **What is tracked holds in every state of a run whose setters meet the condition.** -/
theorem invariant (ht : Tracked D P Q) {evs : List Event}
    (h : Path (fun p e p' => p.Next e p' ∧ D p e) {} evs p) : p.Ok ∧ p.Tracks P Q := by
  refine h.invariant (I := fun p => p.Ok ∧ p.Tracks P Q) ?_ ⟨Proc.Ok.init, trivial, ?_⟩
  · rintro p e p' ⟨hok, hi⟩ ⟨hs, hD⟩
    exact ⟨(Proc.step_fleet mild_anyAct hok hs.anyAct.2 hs).1, ht.step hok hi hD hs⟩
  · rintro c s k ⟨-, hl⟩
    exact absurd (hl.symm.trans (Table.look_init s)) (by simp)

end Tracked

end AquaTransport
