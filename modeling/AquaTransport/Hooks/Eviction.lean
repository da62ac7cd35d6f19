import AquaTransport.Engine.Idlest
import AquaTransport.Hooks.Tracked

/-!
# AquaTransport.Hooks.Eviction — a full table forgets the context that was idle longest

A setter for a new context takes a free slot while there is one, and the idlest shadow's slot when
there is none.  So a context that is left alone while others come is forgotten after as many of them
as the table has room for, and one (`Filling.forgets`).
-/

namespace AquaTransport

open SlotTable

/-! ### Hooks on a known shadow -/

attribute [local irreducible] Conc.get Conc.create Conc.free

namespace Proc

variable {p : Proc} {c : Ctx} {s : Sid} {k : Conn}

/-- A setter on the shadow that `sh_create` returns. -/
theorem viaCreate_some {alloc : Bool} {a : Act} (hr : (p.conc.create c alloc {} c).2 = some s) :
    p.viaCreate c alloc a =
      (act { p with conc := (p.conc.create c alloc {} c).1 } c s a).map fun p' => p'.release c s := by
  unfold viaCreate
  rw [hr]

theorem step_set {alloc : Bool} (f : Setter) (hidle : p.idle c = true)
    (hr : (p.conc.create c alloc {} c).2 = some s)
    (hl : (p.conc.create c alloc {} c).1.tab.look s = some (c, k)) (hcall : k.call = none) :
    p.step (.set c f alloc) = some { p with
      conc := ((p.conc.create c alloc {} c).1.write s fun _ => { sh := f.apply k.sh }).release c s
      world := (p.world.log [.called c f]).log (f.frees s k.sh) } := by
  have hstep : Conn.step c s (.set f) (p.world.log [.called c f]) k =
      some ((p.world.log [.called c f]).log (f.frees s k.sh), { sh := f.apply k.sh }) := by
    unfold Conn.step
    rw [hcall]
    rfl
  have hact : act { p.log [.called c f] with conc := (p.conc.create c alloc {} c).1 } c s (.set f) =
      some { p with
        conc := (p.conc.create c alloc {} c).1.write s fun _ => { sh := f.apply k.sh }
        world := (p.world.log [.called c f]).log (f.frees s k.sh) } := by
    unfold act
    rw [hl, Option.bind_some]
    show (Conn.step c s (.set f) (p.world.log [.called c f]) k).map _ = _
    rw [hstep]
    rfl
  have heq : p.step (.set c f alloc) =
      if p.idle c then (p.log [.called c f]).viaCreate c alloc (.set f) else none := rfl
  have hvia : (p.log [.called c f]).viaCreate c alloc (.set f) =
      (act { p.log [.called c f] with conc := (p.conc.create c alloc {} c).1 } c s (.set f)).map
        fun p' => p'.release c s := viaCreate_some hr
  rw [heq, if_pos hidle, hvia, hact]
  rfl

/-- `SSLHandshake` on a shadow in the table. -/
theorem step_enter (h : p.Ok) (hidle : p.idle c = true) (hin : p.conc.tab.InTable s)
    (hl : p.conc.tab.look s = some (c, k)) (hcall : k.call = none) (env : HsEnv) :
    ∃ p', p.step (.call c (.enter env)) = some p' ∧
      p'.world = (handshakeEnter env c s p.world k.sh).1 := by
  have hstep : Conn.step c s (.enter env) p.world k = some (handshakeEnter env c s p.world k.sh) := by
    unfold Conn.step
    rw [hcall]
    rfl
  have heq : p.step (.call c (.enter env)) =
      if p.idle c && Act.isCall (.enter env) then p.viaGet c (.enter env) else none := rfl
  obtain ⟨hacts, hruns⟩ := viaGet_entry (a := .enter env) h hin hl
  obtain ⟨p', hvia⟩ := hruns _ hstep
  obtain ⟨k', hstep', -⟩ := hacts p' hvia
  rw [heq, hidle]
  exact ⟨p', hvia, (congrArg Prod.fst (Option.some.inj (hstep.symm.trans hstep'))).symm⟩

end Proc

/-! ### Newcomers -/

/-- A new context, with one setter. -/
def arrival (c : Ctx) (f : Setter) : List Event := [.create c false false true, .set c f true]

def newcomer (c : Ctx) : List Event := arrival c (.setConnection 1)

namespace Proc

variable {p p' : Proc} {c c₀ : Ctx} {s : Sid} {k : Conn} {n : ℕ}

theorem Ok.noEntry (h : p.Ok) (hc : c ∉ p.created) : p.NoEntry c :=
  fun s k hin hl => hc (h.known s c k hin hl)

/-- A setter for a context without an entry inserts one into the table. -/
theorem set_new (h : p.Ok) (hno : p.NoEntry c) (hidle : p.idle c = true) (f : Setter) :
    ∃ p', p.Next (.set c f true) p' ∧ p'.Ok ∧
      p'.conc.tab.gTab = (shInsert {} p.conc.tab c).1.gTab ∧
      p'.conc.tab.age = (shInsert {} p.conc.tab c).1.age ∧
      p'.conc.tab.gClock = (shInsert {} p.conc.tab c).1.gClock ∧
      p'.conc.tab.look = Function.update p.conc.tab.look p.conc.tab.next
        (some (c, { sh := f.apply {} })) ∧
      p'.conc.tab.InTable p.conc.tab.next ∧
      (∀ s, p'.conc.tab.InTable s → s = p.conc.tab.next ∨ p.conc.tab.InTable s) ∧
      p'.calls = p.calls ∧ p'.live = p.live ∧ p'.created = p.created ∧
      p'.world.hist = .called c f :: p.world.hist := by
  have hfind : p.conc.tab.find c = none := find_of_noEntry hno
  rcases Conc.create_cases h.refs c true {} c with
    ⟨s₀, k₀, -, hin, hk₀, -⟩ | ⟨-, -, halloc, -⟩ | ⟨hr, -, -, -, hlook, -, hnext, hin⟩
  · exact absurd hk₀ (hno s₀ k₀ hin)
  · simp at halloc
  · have hl : (p.conc.create c true {} c).1.tab.look p.conc.tab.next = some (c, {}) := by
      rw [hlook, Function.update_self]
    have hset : p.Next (.set c f true) _ := p.step_set f hidle hr hl rfl
    have hnew := Conc.create_new c ({} : Conn) hfind
    have hok := (step_fleet mild_anyAct h hset.anyAct.2 hset).1
    refine ⟨_, hset, hok, ?_, ?_, ?_, ?_, hnext, hin, rfl, rfl, rfl, ?_⟩
    · show (p.conc.create c true {} c).1.tab.gTab = _
      rw [hnew]
    · show Table.age (Table.drop (Table.write (p.conc.create c true {} c).1.tab _ _) _) = _
      rw [Table.drop_age, Table.write_age, hnew]
    · show (p.conc.create c true {} c).1.tab.gClock = _
      rw [hnew]
    · refine Conc.release_look.trans ?_
      refine (write_look_eq (p := { p with conc := (p.conc.create c true {} c).1 }) hl _).trans ?_
      show Function.update (p.conc.create c true {} c).1.tab.look _ _ = _
      rw [hlook, Function.update_idem]
    · -- a blank shadow has no object to free
      have hfree : f.frees p.conc.tab.next {} = [] := by
        simp [Setter.frees, Shadow.restarts]
      show f.frees p.conc.tab.next {} ++ _ = _
      rw [hfree]
      rfl

/-- A setter for a context with an entry writes into it. -/
theorem set_again (h : p.Ok) (hidle : p.idle c = true) (hin : p.conc.tab.InTable s)
    (hl : p.conc.tab.look s = some (c, k)) (hcall : k.call = none) (f : Setter) :
    ∃ p', p.Next (.set c f true) p' ∧ p'.Ok ∧ p'.idle c = true ∧ p'.conc.tab.InTable s ∧
      p'.conc.tab.look s = some (c, { sh := f.apply k.sh }) ∧
      p'.world.hist = f.frees s k.sh ++ .called c f :: p.world.hist := by
  rcases Conc.create_cases h.refs c true {} c with
    ⟨s₀, k₀, hr, hin₀, hk₀, hlook, -, hiff⟩ | ⟨-, -, halloc, -⟩ | ⟨-, -, -, hno, -⟩
  · obtain rfl := h.refs.inTable_inj hin₀ hin hk₀ hl
    have hset : p.Next (.set c f true) _ := p.step_set f hidle hr (hlook ▸ hl) hcall
    have hok := (step_fleet mild_anyAct h hset.anyAct.2 hset).1
    obtain ⟨hl', hw⟩ := set_entry h hset hin hl
    refine ⟨_, hset, hok, hidle, ?_, ?_, congrArg World.hist hw⟩
    · exact (hiff s₀).mpr hin
    · rw [hl', Function.update_self]
  · simp at halloc
  · exact absurd hl (hno s k hin)

/-- The shadow of a new context is inserted into the table. -/
theorem arrival_path (h : p.Ok) (hc : c ∉ p.created) (hcalls : p.calls c = none) (f : Setter) :
    ∃ p', Path Next p (arrival c f) p' ∧ p'.Ok ∧
      p'.conc.tab.gTab = (shInsert {} p.conc.tab c).1.gTab ∧
      p'.conc.tab.age = (shInsert {} p.conc.tab c).1.age ∧
      p'.conc.tab.gClock = (shInsert {} p.conc.tab c).1.gClock ∧
      p'.conc.tab.look = Function.update p.conc.tab.look p.conc.tab.next
        (some (c, { sh := f.apply {} })) ∧
      (∀ s, p'.conc.tab.InTable s → s = p.conc.tab.next ∨ p.conc.tab.InTable s) ∧
      p'.calls = p.calls ∧ p'.live = Function.update p.live c true ∧
      p'.created = c :: p.created ∧
      p'.world.hist = .called c f :: .created c false :: p.world.hist := by
  have hborn : p.Next (.create c false false true) (p.born c false) := by
    simp [Next, step, hc]
  have hidle : (p.born c false).idle c = true := by
    rw [idle_iff]
    exact ⟨Function.update_self .., hcalls⟩
  obtain ⟨p', hset, hok, hg, ha, hclock, hlook, -, hin, hcalls', hlive, hcreated, hhist⟩ :=
    (p.born c false).set_new (h.born c false) (h.noEntry hc) hidle f
  have hconc : (p.born c false).conc = p.conc := rfl
  rw [hconc] at hg ha hclock hlook
  exact ⟨p', .cons hborn (.cons hset (.nil _)), hok, hg, ha, hclock, hlook, hin, hcalls', hlive,
    hcreated, hhist⟩

/-- The table has room for `n` more before it forgets `c₀`, and no call is in progress. -/
structure Filling (p : Proc) (c₀ : Ctx) (n : ℕ) : Prop where
  ok : p.Ok
  calls : ∀ c, p.calls c = none
  live : p.live c₀ = true
  idlest : ∃ i s k, p.conc.tab.Idlest i s ∧ p.conc.tab.look s = some (c₀, k)
  room : p.conc.tab.room = n
  clock : p.conc.tab.gClock.toNat + n < 2 ^ 32

/-- The notes of a newcomer are not about `c₀`. -/
theorem newcomer_notes {h : List Obs} (hne : c ≠ c₀)
    (hh : p'.world.hist = .called c (.setConnection 1) :: .created c false :: h) :
    ∃ obs, p'.world.hist = obs ++ h ∧ ∀ x ∈ obs, x.about c₀ = false :=
  ⟨[_, _], hh, by simp [Obs.about, hne]⟩

theorem Filling.ne (h : p.Filling c₀ n) (hc : c ∉ p.created) : c ≠ c₀ := by
  rintro rfl
  exact hc (h.ok.live c h.live)

/-- While there is room, a newcomer leaves one slot less. -/
theorem Filling.step (h : p.Filling c₀ (n + 1)) (hc : c ∉ p.created) :
    ∃ p', Path Next p (newcomer c) p' ∧ p'.Filling c₀ n ∧ p'.created = c :: p.created ∧
      ∃ obs, p'.world.hist = obs ++ p.world.hist ∧ ∀ x ∈ obs, x.about c₀ = false := by
  obtain ⟨p', hpath, hok, hg, ha, hclock, hlook, -, hcalls, hlive, hcreated, hhist⟩ :=
    arrival_path h.ok hc (h.calls c) (.setConnection 1)
  obtain ⟨i, s, k, hidlest, hl⟩ := h.idlest
  have hnext : p.conc.tab.look p.conc.tab.next = none :=
    Table.look_none.mpr (h.ok.refs.fresh _ le_rfl)
  have hs : s ≠ p.conc.tab.next := by
    rintro rfl
    rw [hnext] at hl
    simp at hl
  have hnew : ∀ j, p.conc.tab.gTab j ≠ some p.conc.tab.next := by
    intro j hj
    obtain ⟨c', k₁, hk₁⟩ := h.ok.refs.look_of_inTable (Table.inTable_of_gTab hj)
    rw [hnext] at hk₁
    simp at hk₁
  have hroom := h.room
  have hbound := h.clock
  obtain ⟨hidlest', hroom', htick⟩ := hidlest.insert_free (c := c) ({} : Conn) (by omega) hnew
    (by omega)
  refine ⟨p', hpath, ⟨hok, fun c => ?_, ?_, ⟨i, s, k, hidlest'.congr hg ha hclock, ?_⟩, ?_, ?_⟩,
    hcreated, newcomer_notes (h.ne hc) hhist⟩
  · rw [hcalls]
    exact h.calls c
  · rw [hlive, Function.update_of_ne (h.ne hc).symm]
    exact h.live
  · rw [hlook, Function.update_of_ne hs]
    exact hl
  · unfold Table.room at hroom' hroom ⊢
    rw [hg]
    omega
  · rw [hclock]
    omega

/-- When there is none, a newcomer takes the slot of `c₀`. -/
theorem Filling.forget (h : p.Filling c₀ 0) (hc : c ∉ p.created) :
    ∃ p', Path Next p (newcomer c) p' ∧ p'.Ok ∧ p'.NoEntry c₀ ∧ p'.idle c₀ = true ∧
      ∃ obs, p'.world.hist = obs ++ p.world.hist ∧ ∀ x ∈ obs, x.about c₀ = false := by
  obtain ⟨p', hpath, hok, hg, -, -, hlook, hin, hcalls, hlive, -, hhist⟩ :=
    arrival_path h.ok hc (h.calls c) (.setConnection 1)
  obtain ⟨i, s, k, hidlest, hl⟩ := h.idlest
  have hs : s ≠ p.conc.tab.next := by
    rintro rfl
    rw [Table.look_none.mpr (h.ok.refs.fresh _ le_rfl)] at hl
    simp at hl
  have hgone : ¬ p'.conc.tab.InTable s := by
    have := hidlest.insert_full (c := c) ({} : Conn) h.room
      (fun j hj => h.ok.refs.slots j i s hj hidlest.slot) hs
    unfold Table.InTable at this ⊢
    rwa [hg]
  refine ⟨p', hpath, hok, fun s' k₁ hin' hl' => ?_, ?_, newcomer_notes (h.ne hc) hhist⟩
  · rw [hlook] at hl'
    rcases update_eq_some_iff.mp hl' with ⟨-, h'⟩ | ⟨hne, h'⟩
    · exact h.ne hc (Prod.mk.inj (Option.some.inj h')).1
    · have hold := (hin s' hin').resolve_left hne
      have hin₀ : p.conc.tab.InTable s := Table.inTable_of_gTab hidlest.slot
      obtain rfl := h.ok.refs.inTable_inj hold hin₀ h' hl
      exact hgone hin'
  · rw [idle_iff, hcalls, hlive, Function.update_of_ne (h.ne hc).symm]
    exact ⟨h.live, h.calls c₀⟩

/-- **Eviction.**  A context that is left alone is forgotten after as many newcomers as the table has
room for, and one. -/
theorem Filling.forgets {cs : List Ctx} (h : p.Filling c₀ n) (hlen : cs.length = n + 1)
    (hnodup : cs.Nodup) (hnew : ∀ c ∈ cs, c ∉ p.created) :
    ∃ p', Path Next p (cs.flatMap newcomer) p' ∧ p'.Ok ∧ p'.NoEntry c₀ ∧ p'.idle c₀ = true ∧
      ∃ obs, p'.world.hist = obs ++ p.world.hist ∧ ∀ x ∈ obs, x.about c₀ = false := by
  induction n generalizing p cs with
  | zero =>
    obtain ⟨c, rfl⟩ := List.length_eq_one_iff.mp hlen
    rw [List.flatMap_singleton]
    exact h.forget (hnew c List.mem_cons_self)
  | succ n ih =>
    cases cs with
    | nil => simp at hlen
    | cons c cs =>
      obtain ⟨hc, hcs⟩ := List.nodup_cons.mp hnodup
      obtain ⟨p₁, hpath₁, h₁, hcreated, obs₁, hobs₁, hquiet₁⟩ := h.step (hnew c List.mem_cons_self)
      have hnew₁ : ∀ c' ∈ cs, c' ∉ p₁.created := by
        intro c' hc'
        rw [hcreated, List.mem_cons, not_or]
        refine ⟨fun he => hc (he ▸ hc'), hnew c' (List.mem_cons_of_mem c hc')⟩
      obtain ⟨p₂, hpath₂, hok, hno, hidle, obs₂, hobs₂, hquiet₂⟩ :=
        ih h₁ (Nat.succ.inj hlen) hcs hnew₁
      refine ⟨p₂, hpath₁.append hpath₂, hok, hno, hidle, obs₂ ++ obs₁, ?_, fun x hx => ?_⟩
      · rw [hobs₂, hobs₁, List.append_assoc]
      · exact (List.mem_append.mp hx).elim (hquiet₂ x) (hquiet₁ x)

end Proc

end AquaTransport
