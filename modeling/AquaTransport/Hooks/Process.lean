import AquaTransport.Engine.Effect
import AquaTransport.Engine.TableView
import Mathlib.Logic.Relation

/-!
# AquaTransport.Hooks.Process — the hooks of one process, over the shadow table

`Proc` is the table of connections, the calls in progress on contexts, and the shared `World`.  An
`Event` is one hook call, or one step of a hook call that waits in OpenSSL; calls on different
contexts interleave, and calls on one context do not overlap.  The hooks are active (`tf_on()`) and
the engine is ready throughout.

`Fleet` forgets the table: it is a set of shadows that appear blank, act, and vanish.  `step_fleet`
says that a step of the process is a few steps of the fleet, so what the fleet keeps the process
keeps (`fleet_invariant`).
-/

namespace AquaTransport

/-! ### The process -/

structure Proc where
  conc : Conc Conn := {}
  /-- The shadow of the call in progress on a context. -/
  calls : Ctx → Option Sid := fun _ => none
  created : List Ctx := []
  live : Ctx → Bool := fun _ => false
  world : World := {}

inductive Event
  /-- `my_SSLCreateContext`, `my_SSLNewContext`.  `alloc` is whether `calloc` can deliver. -/
  | create (c : Ctx) (server datagram alloc : Bool)
  /-- A setter: `sh_create`, the write, `sh_release`. -/
  | set (c : Ctx) (f : Setter) (alloc : Bool)
  /-- An entry that begins with `sh_get`. -/
  | call (c : Ctx) (a : Act)
  /-- A step of the call in progress. -/
  | cont (c : Ctx) (a : Act)
  | close (c : Ctx) (flush : WriteReply)
  | dispose (c : Ctx)
  | freeMem (s : Sid)

/-- The entries that begin with `sh_get` and end with `sh_release`. -/
def Act.isCall : Act → Bool
  | .enter _ | .read .. | .write .. | .getBufferedReadSize | .copyPeerTrust _
  | .copyPeerCertificates => true
  | _ => false

namespace Proc

def log (p : Proc) (obs : List Obs) : Proc := { p with world := p.world.log obs }

/-- An act on the shadow `s`, held for the context `c`. -/
def act (p : Proc) (c : Ctx) (s : Sid) (a : Act) : Option Proc :=
  (p.conc.tab.look s).bind fun q => (Conn.step c s a p.world q.2).map fun r =>
    { p with conc := p.conc.write s fun _ => r.2, world := r.1 }

def release (p : Proc) (c : Ctx) (s : Sid) : Proc := { p with conc := p.conc.release c s }

/-- The shadow has a call of OpenSSL in progress on it. -/
def inCall (p : Proc) (s : Sid) : Bool :=
  match p.conc.tab.look s with
  | some q => q.2.call.isSome
  | none => false

/-- The end of an act: the hook returns, or its call goes on. -/
def settle (p : Proc) (c : Ctx) (s : Sid) : Proc :=
  if p.inCall s then { p with calls := Function.update p.calls c (some s) }
  else { p.release c s with calls := Function.update p.calls c none }

/-- `sh_create`, one act, `sh_release`. -/
def viaCreate (p : Proc) (c : Ctx) (alloc : Bool) (a : Act) : Option Proc :=
  match (p.conc.create c alloc {} c).2 with
  | none => some { p with conc := (p.conc.create c alloc {} c).1 }
  | some s =>
    (act { p with conc := (p.conc.create c alloc {} c).1 } c s a).map fun p' => p'.release c s

/-- `sh_get` and one act; `sh_release` unless OpenSSL keeps the call. -/
def viaGet (p : Proc) (c : Ctx) (a : Act) : Option Proc :=
  match (p.conc.get c true c).2 with
  | none => some { p with conc := (p.conc.get c true c).1 }
  | some s => (act { p with conc := (p.conc.get c true c).1 } c s a).map fun p' => p'.settle c s

/-- What `sh_free_mem` frees of a shadow. -/
def frees (s : Sid) (k : Conn) : List Obs := (k.sh.sslId.map fun o => Obs.use s (some o) .free).toList

/-- A hook may be called on a live context that has no call in progress. -/
def idle (p : Proc) (c : Ctx) : Bool := p.live c && (p.calls c).isNone

/-- A new context. -/
def born (p : Proc) (c : Ctx) (server : Bool) : Proc :=
  { p with created := c :: p.created, live := Function.update p.live c true }.log
    [.created c server]

def step (p : Proc) : Event → Option Proc
  | .create c server datagram alloc =>
    if c ∈ p.created then none
    else if server then
      ((p.born c server).viaCreate c alloc .markServerSide).bind fun p' =>
        if datagram then p'.viaGet c .markDatagram else some p'
    else some (p.born c server)
  | .set c f alloc =>
    if p.idle c then (p.log [.called c f]).viaCreate c alloc (.set f) else none
  | .call c a => if p.idle c && a.isCall then p.viaGet c a else none
  | .cont c a =>
    if a.isEntry then none
    else (p.calls c).bind fun s => (p.act c s a).map fun p' => p'.settle c s
  | .close c flush =>
    if p.idle c then
      (p.viaGet c (.close flush)).map fun p' => { p' with conc := p'.conc.free true c }
    else none
  | .dispose c =>
    if p.idle c then
      some { p with conc := p.conc.free true c, live := Function.update p.live c false }
    else none
  | .freeMem s =>
    if s ∈ p.conc.dying then
      some { p with
        conc := p.conc.freeMem s
        world := p.world.log ((p.conc.tab.look s).map fun q => frees s q.2).toList.flatten }
    else none

end Proc

/-! ### The fleet -/

/-- The connections, each with its context, and the world they share. -/
structure Fleet where
  conns : Sid → Option (Ctx × Conn) := fun _ => none
  next : Sid := 0
  world : World := {}

/-- One step of the fleet.  `C` limits the acts, by the connection they are made on. -/
inductive Fleet.Step (C : Act → Conn → Prop) : Fleet → Fleet → Prop
  | note {F : Fleet} {x : Obs} (h : x.isNote = true) : Step C F { F with world := F.world.log [x] }
  | spawn {F : Fleet} (c : Ctx) (h : F.conns F.next = none) :
      Step C F { F with
        conns := Function.update F.conns F.next (some (c, {}))
        next := F.next + 1 }
  | act {F : Fleet} {s : Sid} {c : Ctx} {a : Act} {k k' : Conn} {w' : World}
      (hk : F.conns s = some (c, k)) (hC : C a k) (h : Conn.step c s a F.world k = some (w', k')) :
      Step C F { F with conns := Function.update F.conns s (some (c, k')), world := w' }
  | reap {F : Fleet} {s : Sid} {c : Ctx} {k : Conn} (hk : F.conns s = some (c, k)) :
      Step C F { F with
        conns := Function.update F.conns s none
        world := F.world.log (Proc.frees s k) }

def Proc.fleet (p : Proc) : Fleet := ⟨p.conc.tab.look, p.conc.tab.next, p.world⟩

/-! ### The process keeps its books -/

attribute [local irreducible] Conc.get Conc.create Conc.free

/-- What holds of the table, the calls in progress and the contexts in every state. -/
structure Proc.Ok (p : Proc) : Prop where
  refs : RefInv p.conc
  held : ∀ c s, p.calls c = some s → (c, s) ∈ p.conc.held
  ctx : ∀ c s, p.calls c = some s → ∃ k, p.conc.tab.look s = some (c, k)
  live : ∀ c, p.live c = true → c ∈ p.created
  made : ∀ c s, p.calls c = some s → c ∈ p.created
  known : ∀ s c k, p.conc.tab.InTable s → p.conc.tab.look s = some (c, k) → c ∈ p.created

/-- `C` holds of the setters' acts on a new shadow and of the marks of a server. -/
structure Mild (C : Act → Conn → Prop) : Prop where
  set : ∀ f, C (.set f) {}
  server : ∀ k, C .markServerSide k
  datagram : ∀ k, C .markDatagram k

/-- The act that an event makes, and the context it is made for. -/
def Event.act : Event → Option (Ctx × Act)
  | .set c f _ => some (c, .set f)
  | .call c a => some (c, a)
  | .cont c a => some (c, a)
  | .close c flush => some (c, .close flush)
  | _ => none

/-- The event's act satisfies `C` on the connection that it is made on. -/
def Proc.Obeys (C : Act → Conn → Prop) (p : Proc) (e : Event) : Prop :=
  ∀ c a, e.act = some (c, a) → ∀ s k, p.conc.tab.InTable s ∨ p.calls c = some s →
    p.conc.tab.look s = some (c, k) → C a k

namespace Proc

variable {C : Act → Conn → Prop} {p p' : Proc} {c : Ctx} {s : Sid} {a : Act} {k : Conn}

theorem Ok.init : ({} : Proc).Ok where
  refs := RefInv.init
  held := by simp
  ctx := by simp
  live := by simp
  made := by simp
  known := fun s _ _ hs => absurd hs (Table.not_inTable_init s)

theorem Ok.log (h : p.Ok) (obs : List Obs) : (p.log obs).Ok :=
  ⟨h.refs, h.held, h.ctx, h.live, h.made, h.known⟩

/-- An act changes the connection it is made on and the world. -/
theorem act_eq (hl : p.conc.tab.look s = some (c, k)) (ha : p.act c s a = some p') :
    ∃ w' k', Conn.step c s a p.world k = some (w', k') ∧
      p' = { p with conc := p.conc.write s fun _ => k', world := w' } := by
  unfold act at ha
  rw [hl, Option.bind_some, Option.map_eq_some_iff] at ha
  obtain ⟨⟨w', k'⟩, hs, rfl⟩ := ha
  exact ⟨w', k', hs, rfl⟩

theorem write_look_eq (hl : p.conc.tab.look s = some (c, k)) (k' : Conn) :
    (p.conc.write s fun _ => k').tab.look =
      Function.update p.conc.tab.look s (some (c, k')) := by
  funext s'
  rw [Conc.write_look]
  by_cases hs : s' = s
  · subst hs; simp [hl]
  · simp [hs]

theorem Ok.act (h : p.Ok) (hl : p.conc.tab.look s = some (c, k)) (ha : p.act c s a = some p') :
    p'.Ok := by
  obtain ⟨w', k', -, rfl⟩ := act_eq hl ha
  refine ⟨h.refs.write s _, h.held, ?_, h.live, h.made, ?_⟩
  · intro c' s' hc
    obtain ⟨k₀, hk₀⟩ := h.ctx c' s' hc
    dsimp only
    rw [write_look_eq hl]
    by_cases hs : s' = s
    · subst hs
      rw [hl] at hk₀
      obtain ⟨rfl, -⟩ := Prod.mk.inj (Option.some.inj hk₀)
      exact ⟨k', Function.update_self ..⟩
    · exact ⟨k₀, by rw [Function.update_of_ne hs, hk₀]⟩
  · intro s' c' k₀ hin hk₀
    dsimp only at hin hk₀
    rw [write_look_eq hl] at hk₀
    by_cases hs : s' = s
    · subst hs
      rw [Function.update_self, Option.some.injEq, Prod.mk.injEq] at hk₀
      obtain ⟨rfl, -⟩ := hk₀
      exact h.known s' c k hin hl
    · rw [Function.update_of_ne hs] at hk₀
      exact h.known s' c' k₀ hin hk₀

/-- An act is an act of the fleet. -/
theorem act_fleet (hC : C a k) (hl : p.conc.tab.look s = some (c, k))
    (ha : p.act c s a = some p') : Fleet.Step C p.fleet p'.fleet := by
  obtain ⟨w', k', hs, rfl⟩ := act_eq hl ha
  have hstep := Fleet.Step.act (F := p.fleet) hl hC hs
  unfold fleet at hstep ⊢
  dsimp only at hstep ⊢
  rw [write_look_eq hl]
  exact hstep

/-- A reference that no call in progress holds may be released. -/
theorem Ok.release (h : p.Ok) (hs : (c, s) ∈ p.conc.held) (hc : p.calls c ≠ some s) :
    (p.release c s).Ok := by
  refine ⟨h.refs.release hs, ?_, ?_, h.live, h.made, ?_⟩
  · intro c' s' hc'
    refine (List.mem_erase_of_ne ?_).mpr (h.held c' s' hc')
    rintro ⟨⟩
    exact hc hc'
  · intro c' s' hc'
    obtain ⟨k, hk⟩ := h.ctx c' s' hc'
    exact ⟨k, by rw [← hk]; exact congrFun Conc.release_look s'⟩
  · intro s' c' k hin hk
    refine h.known s' c' k hin ?_
    rw [← hk]
    exact (congrFun Conc.release_look s').symm

theorem release_fleet : (p.release c s).fleet = p.fleet := by
  unfold fleet release
  dsimp only
  rw [Conc.release_look]
  rfl

/-- The end of a call takes it off the books. -/
theorem Ok.endCall (h : p.Ok) (c : Ctx) : { p with calls := Function.update p.calls c none }.Ok := by
  have hc : ∀ c' s', Function.update p.calls c none c' = some s' → p.calls c' = some s' := by
    intro c' s' hc'
    rcases update_eq_some_iff.mp hc' with ⟨-, h'⟩ | ⟨-, h'⟩
    · simp at h'
    · exact h'
  exact ⟨h.refs, fun c' s' hc' => h.held c' s' (hc c' s' hc'),
    fun c' s' hc' => h.ctx c' s' (hc c' s' hc'), h.live, fun c' s' hc' => h.made c' s' (hc c' s' hc'),
    h.known⟩

theorem Ok.settle (h : p.Ok) (hs : (c, s) ∈ p.conc.held) (hl : p.conc.tab.look s = some (c, k))
    (hm : c ∈ p.created) : (p.settle c s).Ok := by
  unfold Proc.settle
  split_ifs
  · refine ⟨h.refs, ?_, ?_, h.live, ?_, h.known⟩
    · intro c' s' hc'
      rcases update_eq_some_iff.mp hc' with ⟨rfl, h'⟩ | ⟨-, h'⟩
      · exact Option.some.inj h' ▸ hs
      · exact h.held c' s' h'
    · intro c' s' hc'
      rcases update_eq_some_iff.mp hc' with ⟨rfl, h'⟩ | ⟨-, h'⟩
      · exact ⟨k, Option.some.inj h' ▸ hl⟩
      · exact h.ctx c' s' h'
    · intro c' s' hc'
      rcases update_eq_some_iff.mp hc' with ⟨rfl, -⟩ | ⟨-, h'⟩
      · exact hm
      · exact h.made c' s' h'
  · have h1 := (h.endCall c).release (c := c) (s := s) hs (by simp)
    exact h1

theorem settle_fleet : (p.settle c s).fleet = p.fleet := by
  unfold settle
  split_ifs
  · rfl
  · exact release_fleet (p := p)

theorem idle_iff : p.idle c = true ↔ p.live c = true ∧ p.calls c = none := by
  unfold idle
  rw [Bool.and_eq_true, Option.isNone_iff_eq_none]

/-! ### Hooks through `sh_get` and `sh_create` -/

theorem act_created (ha : p.act c s a = some p') : p'.created = p.created := by
  obtain ⟨q, -, hs⟩ := Option.bind_eq_some_iff.mp ha
  obtain ⟨r, -, rfl⟩ := Option.map_eq_some_iff.mp hs
  rfl

theorem viaCreate_created {alloc : Bool} (hs : p.viaCreate c alloc a = some p') :
    p'.created = p.created := by
  unfold viaCreate at hs
  split at hs
  next =>
    obtain rfl := Option.some.inj hs
    rfl
  next =>
    obtain ⟨p₁, hact, rfl⟩ := Option.map_eq_some_iff.mp hs
    have hc := act_created hact
    exact hc

theorem Ok.get (h : p.Ok) (c : Ctx) : { p with conc := (p.conc.get c true c).1 }.Ok := by
  refine ⟨h.refs.get c true c, ?_, ?_, h.live, h.made, ?_⟩
  · intro c' s' hc'
    dsimp only
    rw [Conc.get_held]
    exact List.mem_append_right _ (h.held c' s' hc')
  · intro c' s' hc'
    dsimp only
    rw [Conc.get_look]
    exact h.ctx c' s' hc'
  · intro s' c' k hin hk
    dsimp only at hin hk
    rw [Conc.get_inTable] at hin
    rw [Conc.get_look] at hk
    exact h.known s' c' k hin hk

theorem get_fleet (p : Proc) (c : Ctx) :
    { p with conc := (p.conc.get c true c).1 }.fleet = p.fleet := by
  unfold fleet
  dsimp only
  rw [Conc.get_look, Conc.get_next]

theorem Ok.create (h : p.Ok) (hm : c ∈ p.created) (alloc : Bool) :
    { p with conc := (p.conc.create c alloc {} c).1 }.Ok := by
  have hheld : ∀ c' s', p.calls c' = some s' → (c', s') ∈ (p.conc.create c alloc {} c).1.held := by
    intro c' s' hc'
    rw [Conc.create_held]
    exact List.mem_append_right _ (h.held c' s' hc')
  rcases Conc.create_cases h.refs c alloc {} c with
    ⟨s₀, k₀, -, -, -, hlook, -, hin⟩ | ⟨-, hst, -, -⟩ | ⟨-, -, hnone, -, hlook, -, -, hin⟩
  · refine ⟨h.refs.create c alloc {} c, hheld, ?_, h.live, h.made, ?_⟩
    · dsimp only
      rw [hlook]
      exact h.ctx
    · intro s' c' k hs hk
      dsimp only at hs hk
      rw [hlook] at hk
      exact h.known s' c' k ((hin s').mp hs) hk
  · rw [hst]
    exact h
  · refine ⟨h.refs.create c alloc {} c, hheld, ?_, h.live, h.made, ?_⟩
    · intro c' s' hc'
      obtain ⟨k, hk⟩ := h.ctx c' s' hc'
      refine ⟨k, ?_⟩
      dsimp only
      rw [hlook, Function.update_of_ne]
      · exact hk
      · rintro rfl
        rw [hnone] at hk
        simp at hk
    · intro s' c' k hs hk
      dsimp only at hs hk
      rw [hlook] at hk
      rcases update_eq_some_iff.mp hk with ⟨-, h'⟩ | ⟨hne, h'⟩
      · obtain ⟨rfl, -⟩ := Prod.mk.inj (Option.some.inj h')
        exact hm
      · exact h.known s' c' k ((hin s' hs).resolve_left hne) h'

/-- `sh_create` adds at most a blank shadow to the fleet, and returns a shadow of the context. -/
theorem create_fleet (h : p.Ok) (c : Ctx) (alloc : Bool) :
    Relation.ReflTransGen (Fleet.Step C) p.fleet
      { p with conc := (p.conc.create c alloc {} c).1 }.fleet ∧
    ∀ s, (p.conc.create c alloc {} c).2 = some s →
      ∃ k, (p.conc.create c alloc {} c).1.tab.look s = some (c, k) ∧
        (k = {} ∨ p.conc.tab.InTable s ∧ p.conc.tab.look s = some (c, k)) := by
  rcases Conc.create_cases h.refs c alloc {} c with
    ⟨s₀, k₀, hr, hin, hk₀, hlook, hnext, -⟩ | ⟨hr, hst, -, -⟩ |
    ⟨hr, -, hnone, -, hlook, hnext, -, -⟩
  · constructor
    · have hF : { p with conc := (p.conc.create c alloc {} c).1 }.fleet = p.fleet := by
        unfold fleet
        dsimp only
        rw [hlook, hnext]
      rw [hF]
    · intro s hs
      rw [hr, Option.some.injEq] at hs
      subst hs
      rw [hlook]
      exact ⟨k₀, hk₀, Or.inr ⟨hin, hk₀⟩⟩
  · constructor
    · rw [hst]
    · intro s hs
      rw [hr] at hs
      simp at hs
  · constructor
    · have hstep := Fleet.Step.spawn (C := C) (F := p.fleet) c hnone
      refine Relation.ReflTransGen.single ?_
      unfold fleet at hstep ⊢
      dsimp only at hstep ⊢
      rw [hlook, hnext]
      exact hstep
    · intro s hs
      rw [hr, Option.some.injEq] at hs
      subst hs
      rw [hlook]
      exact ⟨{}, Function.update_self .., Or.inl rfl⟩

/-- A step of the process on its books, and in the fleet. -/
def Sim (C : Act → Conn → Prop) (p p' : Proc) : Prop :=
  p'.Ok ∧ Relation.ReflTransGen (Fleet.Step C) p.fleet p'.fleet

theorem viaGet_sim (h : p.Ok) (hm : c ∈ p.created)
    (hC : ∀ s k, p.conc.tab.InTable s → p.conc.tab.look s = some (c, k) → C a k)
    (hs : p.viaGet c a = some p') : Sim C p p' := by
  unfold viaGet at hs
  split at hs
  next =>
    obtain rfl := Option.some.inj hs
    exact ⟨h.get c, by rw [get_fleet]⟩
  next s hr =>
    obtain ⟨p₁, hact, rfl⟩ := Option.map_eq_some_iff.mp hs
    obtain ⟨hin, k, hl⟩ := Conc.get_returns hr
    have hl' : (p.conc.get c true c).1.tab.look s = some (c, k) := by
      rw [Conc.get_look]
      exact hl
    have h₁ := (h.get c).act hl' hact
    have hf := act_fleet (hC s k hin hl) hl' hact
    rw [get_fleet] at hf
    refine ⟨?_, by rw [settle_fleet]; exact Relation.ReflTransGen.single hf⟩
    obtain ⟨w', k', -, rfl⟩ := act_eq hl' hact
    refine h₁.settle (k := k') ?_ ?_ hm
    · show (c, s) ∈ (p.conc.get c true c).1.held
      rw [Conc.get_held, hr]
      simp
    · exact (congrFun (write_look_eq hl' k') s).trans (Function.update_self ..)

theorem viaCreate_sim (h : p.Ok) (hm : c ∈ p.created) (hcall : p.calls c = none) {alloc : Bool}
    (hblank : C a {}) (hC : ∀ s k, p.conc.tab.InTable s → p.conc.tab.look s = some (c, k) → C a k)
    (hs : p.viaCreate c alloc a = some p') : Sim C p p' := by
  obtain ⟨hf, hr⟩ := create_fleet (C := C) h c alloc
  unfold viaCreate at hs
  split at hs
  next =>
    obtain rfl := Option.some.inj hs
    exact ⟨h.create hm alloc, hf⟩
  next s hret =>
    obtain ⟨p₁, hact, rfl⟩ := Option.map_eq_some_iff.mp hs
    obtain ⟨k, hl, hk⟩ := hr s hret
    have hCk : C a k := by
      rcases hk with rfl | ⟨hin, hl₀⟩
      · exact hblank
      · exact hC s k hin hl₀
    have h₁ := (h.create hm alloc).act hl hact
    have hf' := act_fleet hCk hl hact
    obtain ⟨w', k', -, rfl⟩ := act_eq hl hact
    refine ⟨h₁.release ?_ ?_, ?_⟩
    · show (c, s) ∈ (p.conc.create c alloc {} c).1.held
      rw [Conc.create_held, hret]
      simp
    · show p.calls c ≠ some s
      rw [hcall]
      simp
    · rw [release_fleet]
      exact hf.tail hf'

theorem Ok.free (h : p.Ok) (c : Ctx) : { p with conc := p.conc.free true c }.Ok := by
  refine ⟨h.refs.free true c, ?_, ?_, h.live, h.made, ?_⟩
  · intro c' s' hc'
    rw [Conc.free_held]
    exact h.held c' s' hc'
  · dsimp only
    rw [Conc.free_look]
    exact h.ctx
  · intro s' c' k hin hk
    dsimp only at hin hk
    rw [Conc.free_look] at hk
    exact h.known s' c' k (Conc.free_inTable true hin) hk

theorem free_fleet : { p with conc := p.conc.free true c }.fleet = p.fleet := by
  unfold fleet
  dsimp only
  rw [Conc.free_look, Conc.free_next]

theorem Ok.freeMem (h : p.Ok) (hd : s ∈ p.conc.dying) (w : World) :
    { p with conc := p.conc.freeMem s, world := w }.Ok := by
  refine ⟨h.refs.freeMem hd, h.held, ?_, h.live, h.made, ?_⟩
  · intro c' s' hc'
    obtain ⟨k, hk⟩ := h.ctx c' s' hc'
    refine ⟨k, ?_⟩
    dsimp only
    rw [Conc.freeMem_look, Function.update_of_ne]
    · exact hk
    · rintro rfl
      exact h.refs.not_dying_of_held (h.held c' s' hc') hd
  · intro s' c' k hin hk
    dsimp only at hin hk
    rw [Conc.freeMem_look] at hk
    rcases update_eq_some_iff.mp hk with ⟨-, h'⟩ | ⟨-, h'⟩
    · simp at h'
    · exact h.known s' c' k hin h'

theorem Ok.born (h : p.Ok) (c : Ctx) (server : Bool) : (p.born c server).Ok := by
  refine ⟨h.refs, h.held, h.ctx, ?_, ?_, ?_⟩
  · intro c' hc'
    by_cases hcc : c' = c
    · exact hcc ▸ List.mem_cons_self
    · refine List.mem_cons_of_mem c (h.live c' ?_)
      simpa [Proc.born, Proc.log, hcc] using hc'
  · intro c' s' hc'
    exact List.mem_cons_of_mem c (h.made c' s' hc')
  · intro s' c' k hin hk
    exact List.mem_cons_of_mem c (h.known s' c' k hin hk)

theorem note_fleet {x : Obs} (hx : x.isNote = true) : Fleet.Step C p.fleet (p.log [x]).fleet :=
  Fleet.Step.note (F := p.fleet) hx

/-- **Every step of the process is a few steps of the fleet.** -/
theorem step_fleet (hmild : Mild C) (h : p.Ok) {e : Event} (hob : p.Obeys C e)
    (hs : p.step e = some p') : Sim C p p' := by
  cases e with
  | create c server datagram alloc =>
    by_cases hnew : c ∈ p.created
    · simp [step, hnew] at hs
    have hb : (p.born c server).Ok := h.born c server
    have hnote : Fleet.Step C p.fleet (p.born c server).fleet :=
      Fleet.Step.note (F := p.fleet) (x := .created c server) rfl
    cases server with
    | false =>
      simp only [step, if_neg hnew, Bool.false_eq_true, if_false, Option.some.injEq] at hs
      subst hs
      exact ⟨hb, Relation.ReflTransGen.single hnote⟩
    | true =>
      simp only [step, if_neg hnew, if_true] at hs
      have hcall : (p.born c true).calls c = none := by
        cases hc : p.calls c with
        | none => exact hc
        | some s => exact absurd (h.made c s hc) hnew
      obtain ⟨p₁, hcreate, hrest⟩ := Option.bind_eq_some_iff.mp hs
      obtain ⟨h₁, hf₁⟩ := viaCreate_sim (C := C) hb List.mem_cons_self hcall (hmild.server _)
        (fun _ k _ _ => hmild.server k) hcreate
      cases datagram with
      | true =>
        have hm : c ∈ p₁.created := viaCreate_created hcreate ▸ List.mem_cons_self
        obtain ⟨h₂, hf₂⟩ := viaGet_sim (C := C) h₁ hm (fun _ k _ _ => hmild.datagram k) hrest
        exact ⟨h₂, (hf₁.trans hf₂).head hnote⟩
      | false =>
        obtain rfl := Option.some.inj hrest
        exact ⟨h₁, hf₁.head hnote⟩
  | set c f alloc =>
    simp only [step] at hs
    split_ifs at hs with hidle
    obtain ⟨hlive, hcall⟩ := idle_iff.mp hidle
    obtain ⟨h₁, hf₁⟩ := viaCreate_sim (C := C) (h.log [.called c f]) (h.live c hlive) hcall
      (hmild.set f) (fun s k hin hl => hob c (.set f) rfl s k (Or.inl hin) hl) hs
    exact ⟨h₁, hf₁.head (note_fleet rfl)⟩
  | call c a =>
    simp only [step] at hs
    split_ifs at hs with hidle
    rw [Bool.and_eq_true] at hidle
    obtain ⟨hlive, -⟩ := idle_iff.mp hidle.1
    exact viaGet_sim h (h.live c hlive) (fun s k hin hl => hob c a rfl s k (Or.inl hin) hl) hs
  | cont c a =>
    simp only [step] at hs
    split_ifs at hs
    obtain ⟨s, hc, hs⟩ := Option.bind_eq_some_iff.mp hs
    obtain ⟨p₁, hact, rfl⟩ := Option.map_eq_some_iff.mp hs
    obtain ⟨k, hl⟩ := h.ctx c s hc
    have h₁ := h.act hl hact
    have hf := act_fleet (hob c a rfl s k (Or.inr hc) hl) hl hact
    obtain ⟨w', k', -, rfl⟩ := act_eq hl hact
    refine ⟨h₁.settle (k := k') (h.held c s hc) ?_ (h.made c s hc),
      by rw [settle_fleet]; exact Relation.ReflTransGen.single hf⟩
    exact (congrFun (write_look_eq hl k') s).trans (Function.update_self ..)
  | close c flush =>
    simp only [step] at hs
    split_ifs at hs with hidle
    obtain ⟨hlive, -⟩ := idle_iff.mp hidle
    obtain ⟨p₁, hget, rfl⟩ := Option.map_eq_some_iff.mp hs
    obtain ⟨h₁, hf₁⟩ := viaGet_sim (C := C) h (h.live c hlive)
      (fun s k hin hl => hob c (.close flush) rfl s k (Or.inl hin) hl) hget
    exact ⟨h₁.free c, by rw [free_fleet]; exact hf₁⟩
  | dispose c =>
    simp only [step] at hs
    split_ifs at hs with hidle
    obtain rfl := Option.some.inj hs
    have h₁ := h.free c
    refine ⟨⟨h₁.refs, h₁.held, h₁.ctx, ?_, h₁.made, h₁.known⟩, ?_⟩
    · intro c' hc'
      by_cases hcc : c' = c
      · subst hcc; simp at hc'
      · exact h.live c' (by simpa [hcc] using hc')
    · have : ({ p with conc := p.conc.free true c, live := Function.update p.live c false } :
          Proc).fleet = p.fleet := free_fleet (p := p)
      rw [this]
  | freeMem s =>
    simp only [step] at hs
    split_ifs at hs with hd
    obtain rfl := Option.some.inj hs
    refine ⟨h.freeMem hd _, ?_⟩
    obtain ⟨e, he, -⟩ := Table.isDead_iff.mp ((h.refs.dying s).mp hd)
    have hl : p.conc.tab.look s = some (e.ctx, e.body) := by simp [Table.look, he]
    have hstep := Fleet.Step.reap (C := C) (F := p.fleet) hl
    refine Relation.ReflTransGen.single ?_
    unfold fleet at hstep ⊢
    dsimp only at hstep ⊢
    rw [Conc.freeMem_look, hl, Conc.freeMem_next]
    simpa using hstep

end Proc

/-- One event of a run. -/
def Proc.Next (p : Proc) (e : Event) (p' : Proc) : Prop := p.step e = some p'

/-- One event of a run whose acts obey a condition. -/
def Proc.NextIf (C : Act → Conn → Prop) (p : Proc) (e : Event) (p' : Proc) : Prop :=
  p.step e = some p' ∧ p.Obeys C e

/-- No condition. -/
def anyAct (_ : Act) (_ : Conn) : Prop := True

theorem mild_anyAct : Mild anyAct := ⟨fun _ => trivial, fun _ => trivial, fun _ => trivial⟩

theorem Proc.Next.anyAct {p p' : Proc} {e : Event} (h : p.Next e p') : p.NextIf anyAct e p' :=
  ⟨h, fun _ _ _ _ _ _ _ => trivial⟩

/-- A run is a run without a condition. -/
theorem Path.anyAct {evs : List Event} {p p' : Proc} (h : Path Proc.Next p evs p') :
    Path (Proc.NextIf anyAct) p evs p' :=
  h.mono_mem fun _ _ _ _ hs => hs.anyAct

/-- A run obeys a condition that its acts meet on every connection. -/
theorem Path.obeys {C : Act → Conn → Prop} {evs : List Event} {p p' : Proc}
    (h : Path Proc.Next p evs p') (hC : ∀ e ∈ evs, ∀ c a, e.act = some (c, a) → ∀ k, C a k) :
    Path (Proc.NextIf C) p evs p' :=
  h.mono_mem fun _ e _ he hs => ⟨hs, fun c a ha _ k _ _ => hC e he c a ha k⟩

theorem Proc.obeys_iff {C : Act → Conn → Prop} {p : Proc} {e : Event} : p.Obeys C e ↔
    ∀ q ∈ e.act, (∀ i, ∀ s ∈ p.conc.tab.gTab i, ∀ r ∈ p.conc.tab.look s, r.1 = q.1 → C q.2 r.2) ∧
      ∀ s ∈ p.calls q.1, ∀ r ∈ p.conc.tab.look s, r.1 = q.1 → C q.2 r.2 := by
  constructor
  · rintro h ⟨c, a⟩ he
    refine ⟨fun i s hs r hr hc => ?_, fun s hs r hr hc => ?_⟩
    · obtain rfl : r.1 = c := hc
      exact h r.1 a he s r.2 (Or.inl ⟨i, hs⟩) hr
    · obtain rfl : r.1 = c := hc
      exact h r.1 a he s r.2 (Or.inr hs) hr
  · rintro h c a he s k (⟨i, hs⟩ | hs) hl
    · exact (h (c, a) he).1 i s hs (c, k) hl rfl
    · exact (h (c, a) he).2 s hs (c, k) hl rfl

instance (C : Act → Conn → Prop) [∀ a k, Decidable (C a k)] (p : Proc) (e : Event) :
    Decidable (p.Obeys C e) :=
  decidable_of_iff _ Proc.obeys_iff.symm

/-- A step that checks the condition. -/
def Proc.stepIf (C : Act → Conn → Prop) [∀ a k, Decidable (C a k)] (p : Proc) (e : Event) :
    Option Proc :=
  if p.Obeys C e then p.step e else none

theorem Proc.stepIf_next {C : Act → Conn → Prop} [∀ a k, Decidable (C a k)] {p p' : Proc}
    {e : Event} (h : p.stepIf C e = some p') : p.NextIf C e p' := by
  unfold Proc.stepIf at h
  split_ifs at h with hob
  exact ⟨h, hob⟩

/-- What the fleet keeps, under a condition on its acts, holds in every state of the process that
steps under the condition reach. -/
theorem fleet_invariant {C : Act → Conn → Prop} (hmild : Mild C) {I : Fleet → Prop}
    (hI : ∀ F F', I F → Fleet.Step C F F' → I F') {evs : List Event} {p p' : Proc} (hok : p.Ok)
    (h0 : I p.fleet) (h : Path (Proc.NextIf C) p evs p') : p'.Ok ∧ I p'.fleet := by
  refine h.invariant (I := fun p => p.Ok ∧ I p.fleet) ?_ ⟨hok, h0⟩
  rintro p e p' ⟨hok, hi⟩ ⟨hs, hob⟩
  obtain ⟨hok', hsim⟩ := Proc.step_fleet hmild hok hob hs
  refine ⟨hok', ?_⟩
  generalize p'.fleet = F' at hsim
  induction hsim with
  | refl => exact hi
  | tail _ hF ih => exact hI _ _ ih hF

/-! ### Invariants by connection -/

/-- `G` of the world and `L` of each connection, as far as they are kept by every effect that `C`
allows.  What the other connections do only makes the world later. -/
structure Kept (C : Act → Conn → Prop) (G : World → Prop) (L : World → Conn → Prop) : Prop where
  init : G {}
  blank : ∀ w, L w {}
  mono : ∀ {w w' k}, w.Le w' → L w k → L w' k
  note : ∀ {w x}, x.isNote = true → G w → G (w.log [x])
  reap : ∀ {w s k}, G w → L w k → G (w.log (Proc.frees s k))
  act : ∀ {c s w k a w' k'}, C a k → G w → L w k → Effect c s w k a w' k' → G w' ∧ L w' k'

/-- `G` holds of the fleet's world and `L` of each of its connections. -/
def Fleet.Each (G : World → Prop) (L : World → Conn → Prop) (F : Fleet) : Prop :=
  G F.world ∧ ∀ s c k, F.conns s = some (c, k) → L F.world k

variable {C : Act → Conn → Prop} {G : World → Prop} {L : World → Conn → Prop}

theorem Kept.step (h : Kept C G L) {F F' : Fleet} (hF : F.Each G L) (hs : Fleet.Step C F F') :
    F'.Each G L := by
  obtain ⟨hG, hL⟩ := hF
  cases hs with
  | note hx => exact ⟨h.note hx hG, fun s c k hk => h.mono (F.world.le_log _) (hL s c k hk)⟩
  | spawn c hnone =>
    refine ⟨hG, fun s c' k hk => ?_⟩
    rcases update_eq_some_iff.mp hk with ⟨-, h'⟩ | ⟨-, h'⟩
    · obtain ⟨-, rfl⟩ := Prod.mk.inj (Option.some.inj h')
      exact h.blank F.world
    · exact hL s c' k h'
  | act hk hC ha =>
    have he := step_effect ha
    obtain ⟨hG', hL'⟩ := h.act hC hG (hL _ _ _ hk) he
    refine ⟨hG', fun s c k hs => ?_⟩
    rcases update_eq_some_iff.mp hs with ⟨-, h'⟩ | ⟨-, h'⟩
    · obtain ⟨-, rfl⟩ := Prod.mk.inj (Option.some.inj h')
      exact hL'
    · exact h.mono he.le (hL s c k h')
  | reap hk =>
    refine ⟨h.reap hG (hL _ _ _ hk), fun s c k hs => ?_⟩
    rcases update_eq_some_iff.mp hs with ⟨-, h'⟩ | ⟨-, h'⟩
    · simp at h'
    · exact h.mono (F.world.le_log _) (hL s c k h')

/-- What is kept on top of what is kept without a condition. -/
theorem Kept.over {A : World → Prop} {B : World → Conn → Prop} (h : Kept anyAct A B)
    (init : G {}) (blank : ∀ w, L w {}) (mono : ∀ {w w' k}, w.Le w' → L w k → L w' k)
    (note : ∀ {w x}, x.isNote = true → G w → G (w.log [x]))
    (reap : ∀ {w s k}, G w → L w k → G (w.log (Proc.frees s k)))
    (act : ∀ {c s w k a w' k'}, C a k → A w → B w k → G w → L w k → Effect c s w k a w' k' →
      G w' ∧ L w' k') :
    Kept C (fun w => A w ∧ G w) fun w k => B w k ∧ L w k where
  init := ⟨h.init, init⟩
  blank w := ⟨h.blank w, blank w⟩
  mono hle hk := ⟨h.mono hle hk.1, mono hle hk.2⟩
  note hx hw := ⟨h.note hx hw.1, note hx hw.2⟩
  reap hw hk := ⟨h.reap hw.1 hk.1, reap hw.2 hk.2⟩
  act hC hw hk he := by
    obtain ⟨hA, hB⟩ := h.act trivial hw.1 hk.1 he
    obtain ⟨hG, hL⟩ := act hC hw.1 hk.1 hw.2 hk.2 he
    exact ⟨⟨hA, hG⟩, hB, hL⟩

/-- **What each connection keeps holds in every state that a run reaches.** -/
theorem Kept.invariant (hmild : Mild C) (h : Kept C G L) {evs : List Event} {p : Proc}
    (hp : Path (Proc.NextIf C) {} evs p) : p.Ok ∧ p.fleet.Each G L :=
  have h0 : Fleet.Each G L {} := ⟨h.init, by simp⟩
  fleet_invariant hmild (fun _ _ hF hs => h.step hF hs) Proc.Ok.init h0 hp

end AquaTransport
