import AquaTransport.Hooks.Tracked
import AquaTransport.Lib.Ledger

/-!
# AquaTransport.Hooks.StateMachine — the states of a shadow and the life of its SSL object

`Shaped` is what the six entries that trust `state` alone rely on; every act keeps it, and so does
every run (`shaped_kept`).  `FAILED` is for good (`Fleet.Dead`).  The SSL objects of a process are a
`Ledger`: `Fleet.Step.ledger` says that a step makes one, frees one with its owner, or neither, so no
object is freed twice, whichever of the setters, the failing `ossl_init` and `sh_free_mem` frees it.
-/

namespace AquaTransport

/-! ### The shape of a shadow -/

/-- The state of a connection whose object OpenSSL may be called with. -/
def ShadowState.isUp (st : ShadowState) : Prop :=
  st = .handshaking ∨ st = .peerAuth ∨ st = .connected

/-- What the state of a shadow says of the rest. -/
structure Shaped (k : Conn) : Prop where
  up : k.sh.state.isUp → k.sh.inited = true ∧ k.sh.ssl.isSome = true
  new : k.sh.state = .new → k.sh.inited = false ∧ k.sh.wpend = none ∧ k.sh.wblocked = false ∧
    k.sh.trust = none
  bare : k.sh.inited = false → k.sh.ssl = none
  busy : k.call.isSome = true → k.sh.state.isUp

variable {c : Ctx} {sid : Sid} {w w' : World} {k k' : Conn} {a : Act}

theorem Shaped.blank : Shaped {} := ⟨by simp [ShadowState.isUp], by simp, by simp, by simp⟩

theorem Shaped.sslId (h : Shaped k) (hs : k.sh.state.isUp) : ∃ o, k.sh.sslId = some o := by
  obtain ⟨x, hx⟩ := Option.isSome_iff_exists.mp (h.up hs).2
  exact ⟨x.id, by simp [Shadow.sslId, hx]⟩

/-- An object that is neither failed nor torn down is up. -/
theorem Shaped.isUp_of_inited (h : Shaped k) (hi : k.sh.inited = true) (hf : k.sh.state ≠ .failed) :
    k.sh.state.isUp := by
  cases hs : k.sh.state with
  | failed => exact absurd hs hf
  | new =>
    have := (h.new hs).1
    rw [hi] at this
    simp at this
  | handshaking => exact Or.inl rfl
  | connected => exact Or.inr (Or.inr rfl)
  | peerAuth => exact Or.inr (Or.inl rfl)

/-- The shape depends on the place alone. -/
theorem Shaped.of_place {sh : Shadow} (h : Shaped k) (hp : sh.place = k.sh.place) :
    Shaped { sh := sh } := by
  simp only [Shadow.place, Prod.mk.injEq] at hp
  obtain ⟨hi, hs, hx, ht, hb, hw⟩ := hp
  refine ⟨?_, ?_, ?_, by simp⟩
  · simpa only [hs, hi, hx] using h.up
  · simpa only [hs, hi, ht, hb, hw] using h.new
  · simpa only [hi, hx] using h.bare

/-- A connection that is up is shaped, whatever its write side and trust. -/
theorem Shaped.of_up (hs : k.sh.state.isUp) (hi : k.sh.inited = true) (hx : k.sh.ssl.isSome = true) :
    Shaped k := by
  refine ⟨fun _ => ⟨hi, hx⟩, fun hn => ?_, fun h => ?_, fun _ => hs⟩
  · rw [hn] at hs
    simp [ShadowState.isUp] at hs
  · rw [hi] at h
    simp at h

theorem Shadow.state_of_native {serverTls : Bool} {s : Shadow} (h : s.native serverTls = false) :
    s.state ≠ .failed := by
  intro hs
  simp [Shadow.native, hs] at h

theorem Shaped.set (hk : Shaped k) (f : Setter) : Shaped { sh := f.apply k.sh } := by
  have hp := f.apply_place k.sh
  split_ifs at hp
  · exact Shaped.blank.of_place hp
  · exact hk.of_place hp

/-- **Every act keeps the shape.** -/
theorem Shaped.effect (hk : Shaped k) (he : Effect c sid w k a w' k') : Shaped k' := by
  have hbusy : ∀ {call}, k.call = some call →
      k.sh.state.isUp ∧ k.sh.inited = true ∧ k.sh.ssl.isSome = true := by
    intro call h
    have hup := hk.busy (by simp [h])
    exact ⟨hup, hk.up hup⟩
  cases he with
  | server => exact hk.of_place rfl
  | datagram => exact hk.of_place rfl
  | set _ f => exact hk.set f
  | same => exact hk
  | io _ _ past _ lasting =>
    have hup : k.sh.state.isUp := past.elim (fun h => Or.inr (Or.inr h)) fun h => Or.inr (Or.inl h)
    obtain ⟨hi, hx⟩ := hk.up hup
    refine .of_up ?_ ?_ ?_
    · rwa [Shadow.state_of_lasting lasting]
    · rwa [Shadow.inited_of_lasting lasting]
    · rwa [Shadow.ssl_isSome_of_lasting lasting]
  | refused => exact ⟨by simp [Shadow.refused, ShadowState.isUp], by simp [Shadow.refused],
      by simp [Shadow.refused], by simp⟩
  | driven _ _ inited native =>
    have hup := hk.isUp_of_inited inited (Shadow.state_of_native native)
    refine .of_up hup inited ?_
    simpa [driveHandshake, shUnblockWrite] using (hk.up hup).2
  | started => exact .of_up (Or.inl rfl) rfl rfl
  | verify busy => exact .of_up (hbusy busy).1 (hbusy busy).2.1 rfl
  | resume busy => exact .of_up (hbusy busy).1 (hbusy busy).2.1 rfl
  | noCert => exact hk
  | suspend busy => exact .of_up (hbusy busy).1 (hbusy busy).2.1 rfl
  | give => exact hk
  | dropped => exact hk
  | stored => exact hk
  | bwrite busy => exact .of_up (hbusy busy).1 (hbusy busy).2.1 (hbusy busy).2.2
  | paused busy => exact .of_up (Or.inr (Or.inl rfl)) (hbusy busy).2.1 (hbusy busy).2.2
  | connected busy => exact .of_up (Or.inr (Or.inr rfl)) (hbusy busy).2.1 (hbusy busy).2.2
  | blocked busy => exact .of_up (hbusy busy).1 (hbusy busy).2.1 (hbusy busy).2.2
  | broken busy =>
    refine ⟨by simp [ShadowState.isUp], by simp, fun h => ?_, by simp⟩
    exact absurd ((hbusy busy).2.1.symm.trans h) (by simp)
  | finish busy => exact .of_up (hbusy busy).1 (hbusy busy).2.1 (hbusy busy).2.2

/-! ### What an act calls -/

theorem Shaped.frees_eq (hk : Shaped k) (sid : Sid) (f : Setter) :
    (f.restarts && k.sh.restarts) = false ∧ f.frees sid k.sh = [] ∨
      ∃ o, (f.restarts && k.sh.restarts) = true ∧ k.sh.sslId = some o ∧
        f.frees sid k.sh = [.use sid (some o) .free] := by
  unfold Setter.frees
  by_cases h : (f.restarts && k.sh.restarts) = true
  · obtain ⟨hi, hf⟩ : k.sh.inited = true ∧ k.sh.state ≠ .failed := by
      simpa [Shadow.restarts] using (Bool.and_eq_true_iff.mp h).2
    obtain ⟨o, ho⟩ := hk.sslId (hk.isUp_of_inited hi hf)
    exact Or.inr ⟨o, h, ho, by rw [if_pos h, ho]⟩
  · exact Or.inl ⟨by simpa using h, if_neg h⟩

/-- An act calls OpenSSL for its own connection only, with an object, and past a failure not at
all. -/
theorem Shaped.uses (hk : Shaped k) (he : Effect c sid w k a w' k') :
    ∃ obs, w'.hist = obs ++ w.hist ∧ ∀ s o op, .use s o op ∈ obs →
      s = sid ∧ o.isSome = true ∧ (op ≠ .free → k.sh.state ≠ .failed) := by
  have hbusy : ∀ {call}, k.call = some call → k.sh.state ≠ .failed := by
    intro call h hf
    have hup := hk.busy (by simp [h])
    rw [hf] at hup
    simp [ShadowState.isUp] at hup
  have hnone : ∀ obs : List Obs, (∀ s o op, .use s o op ∉ obs) → ∀ s o op, .use s o op ∈ obs →
      s = sid ∧ o.isSome = true ∧ (op ≠ .free → k.sh.state ≠ .failed) :=
    fun obs h s o op hm => absurd hm (h s o op)
  cases he with
  | set _ f =>
    refine ⟨_, rfl, ?_⟩
    rcases hk.frees_eq sid f with ⟨-, hfr⟩ | ⟨o, -, -, hfr⟩
    · rw [hfr]
      exact hnone _ (by simp)
    · rw [hfr]
      intro s o' op hm
      obtain ⟨rfl, rfl, rfl⟩ := by simpa using hm
      exact ⟨rfl, rfl, fun h => absurd rfl h⟩
  | io _ _ past _ _ uses =>
    have hup : k.sh.state.isUp := past.elim (fun h => Or.inr (Or.inr h)) fun h => Or.inr (Or.inl h)
    obtain ⟨o', ho'⟩ := hk.sslId hup
    refine ⟨_, rfl, fun s o op hm => ?_⟩
    obtain ⟨op', h, -, -⟩ := uses _ hm
    obtain ⟨rfl, rfl, rfl⟩ := by simpa using h
    refine ⟨rfl, by simp [ho'], fun _ hf => ?_⟩
    rw [hf] at hup
    simp [ShadowState.isUp] at hup
  | refused _ _ _ _ made =>
    rcases made with rfl | rfl
    · exact ⟨[], rfl, by simp⟩
    · refine ⟨_, rfl, fun s o op hm => ?_⟩
      obtain ⟨rfl, rfl, rfl⟩ := by simpa using hm
      exact ⟨rfl, rfl, fun h => absurd rfl h⟩
  | driven _ _ inited native =>
    have hnf := Shadow.state_of_native native
    obtain ⟨o', ho'⟩ := hk.sslId (hk.isUp_of_inited inited hnf)
    refine ⟨_, rfl, fun s o op hm => ?_⟩
    obtain ⟨rfl, rfl, rfl⟩ := by simpa using hm
    exact ⟨rfl, by simpa [shUnblockWrite, Shadow.sslId] using Option.isSome_of_eq_some ho', fun _ => hnf⟩
  | started _ _ _ native _ hoffered =>
    have hnf := Shadow.state_of_native native
    refine ⟨_ :: _ :: (_ ++ [_]), rfl, fun s o op hm => ?_⟩
    rcases hoffered with ⟨-, rfl⟩ | ⟨cached, -, rfl, -⟩
    · obtain ⟨rfl, rfl, rfl⟩ := by simpa using hm
      exact ⟨rfl, rfl, fun _ => hnf⟩
    · obtain ⟨rfl, rfl, rfl⟩ := by simpa using hm
      exact ⟨rfl, rfl, fun _ => hnf⟩
  | stored => exact ⟨_, rfl, hnone _ (by simp)⟩
  | verify => exact ⟨_, rfl, hnone _ (by simp)⟩
  | resume => exact ⟨_, rfl, hnone _ (by simp)⟩
  | give => exact ⟨_, rfl, hnone _ (by simp)⟩
  | paused => exact ⟨_, rfl, hnone _ (by simp)⟩
  | connected => exact ⟨_, rfl, hnone _ (by simp)⟩
  | blocked => exact ⟨_, rfl, hnone _ (by simp)⟩
  | broken => exact ⟨_, rfl, hnone _ (by simp)⟩
  | server | datagram | same | noCert | suspend | dropped | bwrite | finish =>
    exact ⟨[], rfl, by simp⟩

/-- A failed connection stays failed. -/
theorem Shaped.failed (hk : Shaped k) (hf : k.sh.state = .failed) (he : Effect c sid w k a w' k') :
    k'.sh.state = .failed := by
  have hbusy : ∀ {call}, k.call ≠ some call := by
    intro call h
    have hup := hk.busy (by simp [h])
    rw [hf] at hup
    simp [ShadowState.isUp] at hup
  cases he with
  | set _ f =>
    have hp := f.apply_place k.sh
    rw [show k.sh.restarts = false by simp [Shadow.restarts, hf]] at hp
    exact (congrArg (·.2.1) hp).trans (by simpa [Shadow.place] using hf)
  | io _ _ _ _ lasting => rwa [Shadow.state_of_lasting lasting]
  | refused => rfl
  | driven _ _ _ native => exact absurd hf (Shadow.state_of_native native)
  | started _ _ _ native => exact absurd hf (Shadow.state_of_native native)
  | server | datagram | same => exact hf
  | verify busy | resume busy | noCert busy | suspend busy | give busy | dropped busy
  | stored busy | bwrite busy | paused busy | connected busy | blocked busy | broken busy | finish busy =>
    exact absurd busy hbusy

/-! ### The shape in every run -/

/-- No call into OpenSSL was made with `NULL`. -/
def World.NoNull (w : World) : Prop := ∀ s op, Obs.use s none op ∉ w.hist

theorem noNull_append {obs : List Obs} (h : w.NoNull)
    (hobs : ∀ s o op, .use s o op ∈ obs → o.isSome = true) (hw : w'.hist = obs ++ w.hist) :
    w'.NoNull := by
  intro s op hm
  rw [hw] at hm
  rcases List.mem_append.mp hm with hm | hm
  · have := hobs s none op hm
    simp at this
  · exact h s op hm

theorem shaped_kept : Kept anyAct World.NoNull fun _ k => Shaped k where
  init := by simp [World.NoNull]
  blank := fun _ => Shaped.blank
  mono := fun _ hk => hk
  note := by
    intro w x hx h
    refine noNull_append h ?_ rfl
    intro s o op hm
    rw [← List.mem_singleton.mp hm] at hx
    simp [Obs.isNote] at hx
  reap := by
    intro w s k h _
    refine noNull_append h ?_ rfl
    intro s' o op hm
    unfold Proc.frees at hm
    cases hx : k.sh.sslId with
    | none => simp [hx] at hm
    | some o' =>
      obtain ⟨rfl, rfl, rfl⟩ := by simpa [hx] using hm
      rfl
  act := by
    intro c s w k a w' k' _ hw hk he
    obtain ⟨obs, hobs, huse⟩ := hk.uses he
    exact ⟨noNull_append hw (fun s o op hm => (huse s o op hm).2.1) hobs, hk.effect he⟩

/-- **Every connection that a run reaches is shaped, and no call was made with `NULL`.** -/
theorem shaped_run {evs : List Event} {p : Proc} (h : Path Proc.Next {} evs p) :
    p.Ok ∧ p.world.NoNull ∧ ∀ s c k, p.conc.tab.look s = some (c, k) → Shaped k :=
  shaped_kept.invariant mild_anyAct h.anyAct

/-! ### A failure is for good -/

/-- Every connection of the fleet is shaped. -/
def Fleet.Shaped (F : Fleet) : Prop := F.Each World.NoNull fun _ k => AquaTransport.Shaped k

variable {F F' : Fleet} {s : Sid}

theorem mem_frees {o : Option SslId} {op : SslOp} {s' : Sid}
    (h : .use s' o op ∈ Proc.frees s k) : op = .free := by
  unfold Proc.frees at h
  cases hx : k.sh.sslId with
  | none => simp [hx] at h
  | some o' => exact (by simpa [hx] using h : s' = s ∧ o = some o' ∧ op = .free).2.2

/-- A step of the fleet calls OpenSSL for connections that are there and not failed, except to
free. -/
theorem Fleet.Step.uses (hF : F.Shaped) (hs : Fleet.Step anyAct F F') :
    ∃ obs, F'.world.hist = obs ++ F.world.hist ∧ ∀ s o op, .use s o op ∈ obs → op ≠ .free →
      ∃ c k, F.conns s = some (c, k) ∧ k.sh.state ≠ .failed := by
  cases hs with
  | note hx =>
    refine ⟨_, rfl, fun s o op hm => ?_⟩
    rw [← List.mem_singleton.mp hm] at hx
    simp [Obs.isNote] at hx
  | spawn => exact ⟨[], rfl, by simp⟩
  | act hk _ ha =>
    obtain ⟨obs, hobs, huse⟩ := (hF.2 _ _ _ hk).uses (step_effect ha)
    refine ⟨obs, hobs, fun s o op hm hop => ?_⟩
    obtain ⟨rfl, -, hst⟩ := huse s o op hm
    exact ⟨_, _, hk, hst hop⟩
  | reap => exact ⟨_, rfl, fun s o op hm hop => absurd (mem_frees hm) hop⟩

/-- The shadow `s` has failed or is gone, and since `past` OpenSSL is called for it only to free. -/
structure Fleet.Over (s : Sid) (past : List Obs) (F : Fleet) : Prop where
  shaped : F.Shaped
  old : s < F.next
  failed : ∀ c k, F.conns s = some (c, k) → k.sh.state = .failed
  quiet : ∃ later, F.world.hist = later ++ past ∧ ∀ o op, .use s o op ∈ later → op = .free

theorem Fleet.Over.step {past : List Obs} (h : F.Over s past) (hs : Fleet.Step anyAct F F') :
    F'.Over s past := by
  obtain ⟨later, hl, hq⟩ := h.quiet
  obtain ⟨obs, hobs, huse⟩ := hs.uses h.shaped
  have hquiet : ∃ later, F'.world.hist = later ++ past ∧ ∀ o op, .use s o op ∈ later → op = .free := by
    refine ⟨obs ++ later, by rw [hobs, hl, List.append_assoc], fun o op hm => ?_⟩
    rcases List.mem_append.mp hm with hm | hm
    · by_contra hop
      obtain ⟨c, k, hk, hst⟩ := huse s o op hm hop
      exact hst (h.failed c k hk)
    · exact hq o op hm
  refine ⟨shaped_kept.step h.shaped hs, ?_, ?_, hquiet⟩
  · cases hs with
    | spawn => exact Nat.lt_succ_of_lt h.old
    | note | act | reap => exact h.old
  · intro c k hk
    cases hs with
    | note => exact h.failed c k hk
    | spawn =>
      rcases update_eq_some_iff.mp hk with ⟨rfl, -⟩ | ⟨-, h'⟩
      · exact absurd h.old (Nat.lt_irrefl _)
      · exact h.failed c k h'
    | act hk₀ _ ha =>
      rcases update_eq_some_iff.mp hk with ⟨rfl, h'⟩ | ⟨-, h'⟩
      · obtain ⟨-, rfl⟩ := Prod.mk.inj (Option.some.inj h')
        exact (h.shaped.2 _ _ _ hk₀).failed (h.failed _ _ hk₀) (step_effect ha)
      · exact h.failed c k h'
    | reap =>
      rcases update_eq_some_iff.mp hk with ⟨-, h'⟩ | ⟨-, h'⟩
      · simp at h'
      · exact h.failed c k h'

/-! ### The ledger of SSL objects -/

/-- The object that an observation frees. -/
def Obs.freed : Obs → Option SslId
  | .use _ (some o) .free => some o
  | _ => none

/-- The objects freed so far, newest first. -/
def World.freed (w : World) : List SslId := w.hist.filterMap Obs.freed

theorem World.freed_log (w : World) (obs : List Obs) :
    (w.log obs).freed = obs.filterMap Obs.freed ++ w.freed := List.filterMap_append

/-- The shadows own their objects. -/
def Fleet.ledger (F : Fleet) : Ledger Sid :=
  ⟨fun s => (F.conns s).bind fun q => q.2.sh.sslId, F.world.nextSsl, F.world.freed⟩

theorem freed_log_of_none {obs : List Obs} (h : ∀ x ∈ obs, x.freed = none) :
    (w.log obs).freed = w.freed := by
  rw [World.freed_log, List.filterMap_eq_nil_iff.mpr h, List.nil_append]

theorem freed_frees : (Proc.frees sid k).filterMap Obs.freed = k.sh.sslId.toList := by
  unfold Proc.frees
  cases k.sh.sslId <;> rfl

/-- An act keeps the object of its connection, makes it one, or frees it. -/
theorem Shaped.ledger (hk : Shaped k) (he : Effect c sid w k a w' k') (own : Sid → Option SslId)
    (ho : own sid = k.sh.sslId) : Ledger.Step ⟨own, w.nextSsl, w.freed⟩
      ⟨Function.update own sid k'.sh.sslId, w'.nextSsl, w'.freed⟩ := by
  have hkeep : ∀ {w' : World} {k' : Conn}, k'.sh.sslId = k.sh.sslId → w'.nextSsl = w.nextSsl →
      w'.freed = w.freed → Ledger.Step ⟨own, w.nextSsl, w.freed⟩
        ⟨Function.update own sid k'.sh.sslId, w'.nextSsl, w'.freed⟩ := by
    intro w' k' h1 h2 h3
    rw [h1, ← ho, Function.update_eq_self, h2, h3]
    exact .keep _
  have hbare : k.sh.inited = false → own sid = none := by
    intro h
    rw [ho, Shadow.sslId, hk.bare h, Option.map_none]
  cases he with
  | server => exact hkeep rfl rfl rfl
  | datagram => exact hkeep rfl rfl rfl
  | set _ f =>
    have hp := f.apply_place k.sh
    rcases hk.frees_eq sid f with ⟨hr, hfr⟩ | ⟨o, hr, hx, hfr⟩
    · rw [hr] at hp
      refine hkeep ?_ rfl (by rw [hfr]; rfl)
      exact congrArg (fun q => q.2.2.1.map Ssl.id) hp
    · rw [hr] at hp
      have hx' : (f.apply k.sh).sslId = none := congrArg (fun q => q.2.2.1.map Ssl.id) hp
      rw [hfr, hx', World.freed_log]
      exact .free (ho.trans hx)
  | same => exact hkeep rfl rfl rfl
  | io _ _ _ _ lasting uses =>
    refine hkeep (Shadow.sslId_of_lasting lasting) rfl (freed_log_of_none fun x hx => ?_)
    obtain ⟨op, rfl, hop, -⟩ := uses x hx
    cases k.sh.sslId with
    | none => rfl
    | some o => cases op <;> first | rfl | exact absurd rfl hop
  | refused _ _ new _ made =>
    have hx : (k.sh.refused ‹HsEnv›.reported).sslId = own sid := (hbare new).symm
    rw [hx, Function.update_eq_self]
    rcases made with rfl | rfl
    · exact .keep _
    · exact .spoil _
  | driven =>
    refine hkeep ?_ rfl ?_
    · simp [driveHandshake, shUnblockWrite, Shadow.sslId, Function.comp_def]
    · refine freed_log_of_none fun x hx => ?_
      rcases List.mem_cons.mp hx with rfl | hx
      · cases (shUnblockWrite k.sh).sslId <;> rfl
      · obtain rfl := List.mem_singleton.mp hx
        rfl
  | started _ _ new _ _ hoffered =>
    have hstep := Ledger.Step.make (L := ⟨own, w.nextSsl, w.freed⟩) (hbare new)
    rcases hoffered with ⟨-, rfl⟩ | ⟨cached, -, rfl, -⟩
    · exact hstep
    · exact hstep
  | verify _ ssl v =>
    refine hkeep (by simp [Shadow.sslId, ssl]) rfl (freed_log_of_none fun x hx => ?_)
    obtain ⟨way, -, rfl⟩ := Option.map_eq_some_iff.mp (Option.mem_toList.mp hx)
    rfl
  | resume _ ssl => exact hkeep (by simp [Shadow.sslId, ssl]) rfl rfl
  | noCert => exact hkeep rfl rfl rfl
  | suspend _ ssl => exact hkeep (by simp [Shadow.sslId, ssl]) rfl rfl
  | give => exact hkeep rfl rfl rfl
  | dropped => exact hkeep rfl rfl rfl
  | stored => exact hkeep rfl rfl rfl
  | bwrite => exact hkeep rfl rfl rfl
  | paused => exact hkeep rfl rfl rfl
  | connected => exact hkeep rfl rfl rfl
  | blocked => exact hkeep rfl rfl rfl
  | broken => exact hkeep rfl rfl rfl
  | finish => exact hkeep rfl rfl rfl

/-- **A step of the fleet is a step of the ledger.** -/
theorem Fleet.Step.ledger (hF : F.Shaped) (hs : Fleet.Step anyAct F F') :
    Ledger.Step F.ledger F'.ledger := by
  have hown : ∀ (s : Sid) (q : Option (Ctx × Conn)),
      (fun s' => (Function.update F.conns s q s').bind fun q => q.2.sh.sslId) =
        Function.update F.ledger.owner s (q.bind fun q => q.2.sh.sslId) := by
    intro s q
    funext s'
    by_cases h : s' = s
    · subst h
      simp
    · simp [h, Fleet.ledger]
  cases hs with
  | @note x hx =>
    have : (F.world.log [x]).freed = F.world.freed := freed_log_of_none fun y hm => by
      rw [← List.mem_singleton.mp hm] at hx
      cases y <;> first | rfl | simp [Obs.isNote] at hx
    unfold Fleet.ledger
    rw [this]
    exact .keep _
  | spawn c hnone =>
    unfold Fleet.ledger at hown ⊢
    rw [hown, show (some (c, ({} : Conn))).bind (fun q => q.2.sh.sslId) = none from rfl]
    have : Function.update (fun s => (F.conns s).bind fun q => q.2.sh.sslId) F.next none =
        fun s => (F.conns s).bind fun q => q.2.sh.sslId := by
      rw [Function.update_eq_self_iff]
      simp [hnone]
    rw [this]
    exact .keep _
  | act hk _ ha =>
    have h := (hF.2 _ _ _ hk).ledger (step_effect ha) F.ledger.owner (by simp [Fleet.ledger, hk])
    unfold Fleet.ledger at hown h ⊢
    rw [hown]
    exact h
  | @reap s c k hk =>
    have hs : F.ledger.owner s = k.sh.sslId := by simp [Fleet.ledger, hk]
    unfold Fleet.ledger at hown hs ⊢
    rw [hown, World.freed_log, freed_frees]
    cases hx : k.sh.sslId with
    | none =>
      have h := Function.update_eq_self s fun s => (F.conns s).bind fun q => q.2.sh.sslId
      rw [show (F.conns s).bind (fun q => q.2.sh.sslId) = none from hs.trans hx] at h
      rw [Option.bind_none, h]
      exact .keep _
    | some o => exact .free (hs.trans hx)

/-! ### The state machine -/

/-- Every shadow of a run is shaped, with its object in the ledger. -/
theorem ledger_run {evs : List Event} {p : Proc} (h : Path Proc.Next {} evs p) :
    p.fleet.ledger.Once := by
  have h0 : ({} : Fleet).Shaped := ⟨by simp [World.NoNull], by simp⟩
  have hL : ({} : Fleet).ledger.Once := Ledger.Once.init
  refine (fleet_invariant (I := fun F => F.Shaped ∧ F.ledger.Once) mild_anyAct ?_ Proc.Ok.init
    ⟨h0, hL⟩ h.anyAct).2.2
  rintro F F' ⟨hF, hO⟩ hs
  exact ⟨shaped_kept.step hF hs, hO.step (hs.ledger hF)⟩

/-- From a failed shadow on, the run calls OpenSSL for it only to free its object. -/
theorem failed_run {evs evs' : List Event} {p p' : Proc} {s : Sid} {c : Ctx} {k : Conn}
    (h : Path Proc.Next {} evs p) (hl : p.conc.tab.look s = some (c, k))
    (hf : k.sh.state = .failed) (h' : Path Proc.Next p evs' p') :
    p'.fleet.Over s p.world.hist := by
  obtain ⟨hok, hnull, hsh⟩ := shaped_run h
  have hold : s < p.conc.tab.next := by
    by_contra hge
    have := hok.refs.fresh s (Nat.le_of_not_lt hge)
    rw [← Table.look_none, hl] at this
    simp at this
  refine (fleet_invariant mild_anyAct (fun F F' hF hs => hF.step hs) hok ?_ h'.anyAct).2
  refine ⟨⟨hnull, hsh⟩, hold, fun c' k' hk' => ?_, [], rfl, by simp⟩
  obtain ⟨-, rfl⟩ := Prod.mk.inj (Option.some.inj (hl.symm.trans hk'))
  exact hf

/-- A setter that takes a connection down frees its object and clears everything of it. -/
theorem restart_run {evs : List Event} {p p' : Proc} {s : Sid} {c : Ctx} {k : Conn} {f : Setter}
    {alloc : Bool} (h : Path Proc.Next {} evs p) (hs : p.Next (.set c f alloc) p')
    (hin : p.conc.tab.InTable s) (hl : p.conc.tab.look s = some (c, k))
    (hr : f.restarts = true ∧ k.sh.restarts = true) :
    ∃ o k', k.sh.sslId = some o ∧ o ∉ p.world.freed ∧ p'.world.freed = o :: p.world.freed ∧
      p'.conc.tab.look s = some (c, k') ∧
      k'.sh.place = (false, .new, none, none, false, none) := by
  obtain ⟨hok, -, hsh⟩ := shaped_run h
  obtain ⟨hlook, hw⟩ := Proc.set_entry hok hs hin hl
  have hp := f.apply_place k.sh
  rw [hr.1, hr.2] at hp
  rcases (hsh s c k hl).frees_eq s f with ⟨hno, -⟩ | ⟨o, -, ho, hfr⟩
  · simp [hr.1, hr.2] at hno
  · have hkept : o ∉ p.world.freed := (ledger_run h).kept s o (by simp [Fleet.ledger, Proc.fleet, hl, ho])
    refine ⟨o, _, ho, hkept, ?_, by rw [hlook, Function.update_self], hp⟩
    rw [hw, hfr]
    rfl

/-- **State machine.**  In every state that a run of hook calls and callbacks reaches: a shadow that
is handshaking, paused or connected has an SSL object, and a new one has no object, no queue, no
latch and no trust; no call into OpenSSL was made with `NULL`; a failed shadow stays so in every
continuation of the run, and OpenSSL is called for it only to free its object; a setter that takes a
connection down frees its object, for the first time, and clears the rest; and no object is ever
freed twice. -/
theorem state_machine {evs : List Event} {p : Proc} (h : Path Proc.Next {} evs p) :
    (∀ s c k, p.conc.tab.look s = some (c, k) →
      (k.sh.state = .handshaking ∨ k.sh.state = .peerAuth ∨ k.sh.state = .connected →
        k.sh.inited = true ∧ k.sh.ssl.isSome = true) ∧
      (k.sh.state = .new → k.sh.ssl = none ∧ k.sh.inited = false ∧ k.sh.wpend = none ∧
        k.sh.wblocked = false ∧ k.sh.trust = none)) ∧
    (∀ s op, Obs.use s none op ∉ p.world.hist) ∧
    (∀ s c k, p.conc.tab.look s = some (c, k) → k.sh.state = .failed →
      ∀ evs' p', Path Proc.Next p evs' p' →
        (∀ c' k', p'.conc.tab.look s = some (c', k') → k'.sh.state = .failed) ∧
        ∃ later, p'.world.hist = later ++ p.world.hist ∧
          ∀ o op, .use s o op ∈ later → op = .free) ∧
    (∀ c f alloc p' s k, p.Next (.set c f alloc) p' → p.conc.tab.InTable s →
      p.conc.tab.look s = some (c, k) → f.restarts = true ∧ k.sh.restarts = true →
      ∃ o k', k.sh.sslId = some o ∧ o ∉ p.world.freed ∧ p'.world.freed = o :: p.world.freed ∧
        p'.conc.tab.look s = some (c, k') ∧
        k'.sh.place = (false, .new, none, none, false, none)) ∧
    p.world.freed.Nodup := by
  obtain ⟨-, hnull, hsh⟩ := shaped_run h
  refine ⟨?_, hnull, ?_, ?_, (ledger_run h).once⟩
  · intro s c k hl
    have hk := hsh s c k hl
    refine ⟨hk.up, fun hn => ?_⟩
    obtain ⟨hi, hq, hb, ht⟩ := hk.new hn
    exact ⟨hk.bare hi, hi, hq, hb, ht⟩
  · intro s c k hl hf evs' p' h'
    obtain ⟨-, -, hfailed, hquiet⟩ := failed_run h hl hf h'
    exact ⟨hfailed, hquiet⟩
  · intro c f alloc p' s k hs hin hl hr
    exact restart_run h hs hin hl hr

/-- A peer name set in the middle of a handshake, and the second handshake refused by the peer. -/
def lateNameRun : List Event :=
  [.create 1 false false true, .set 1 (.setIOFuncs 1 1) true, .set 1 (.setConnection 1) true,
    .call 1 (.enter {}), .cont 1 (.bwrite errSSLWouldBlock), .cont 1 (.leave .wantReadWrite),
    .set 1 (.setPeerDomainName [104]) true, .call 1 (.enter {}), .cont 1 (.leave (.error 20 1040))]

theorem lateNameRun_isSome : (exec Proc.step {} lateNameRun).isSome = true := by
  decide +kernel

theorem state_machine_lateNameRun :
    ((exec Proc.step {} lateNameRun).get lateNameRun_isSome).world.freed.Nodup ∧
      ((exec Proc.step {} lateNameRun).get lateNameRun_isSome).world.freed = [0] :=
  ⟨(state_machine (exec_path_get lateNameRun_isSome)).2.2.2.2, by decide +kernel⟩

end AquaTransport
