import AquaTransport.Lib.Threads
import Mathlib.Data.Finset.Insert
import Mathlib.Data.Finset.Card

/-!
# AquaTransport.AirDrop.Radio — who has the radio inside sharingd

An owner joins in one section of `radio_lock` and the radio comes up in another; when the last owner
goes a timer is set, which the generation calls off.  `Owned`: a radio that is on has an owner or a timer
to end it.  `Timed`: what a timer that fires in its own generation knows.
-/

namespace AquaTransport.Radio

/-- A release timer; `number` tells it from the others. -/
structure Timer where
  number : ℕ
  generation : ℕ
  deriving DecidableEq

/-- What was done, each at the section that does it. -/
inductive Event
  /-- The first section of `acquire_radio`. -/
  | entered (o : ℕ)
  | granted (o : ℕ)
  | refused (o : ℕ)
  | released (o : ℕ)
  | deallocated (o : ℕ)
  | forced
  | scheduled (n : ℕ)
  /-- The timer has sent the helper the stop. -/
  | stopped (n : ℕ)
  deriving DecidableEq

/-- The sections of `radio_lock`. -/
inductive Section
  | enter (o : ℕ)
  /-- `ensure_radio`, for an owner. -/
  | raise (o : ℕ)
  | refuse (o : ℕ)
  /-- `ensure_radio`, for nobody. -/
  | ensure
  | release (o : ℕ)
  | timer (τ : Timer)
  /-- The heartbeat's source is there and fires. -/
  | due
  | beat
  | force
  | dealloc (o : ℕ)
  deriving DecidableEq

/-- What the machine decides in a section: the helper's replies to a start and to a heartbeat, Wi-Fi's
power and whether `tap0` is there. -/
structure Choice where
  up : Bool := true
  beats : Bool := true
  wifi : Bool := true
  tap : Bool := true

structure Shared where
  running : Bool := false
  owners : Finset ℕ := ∅
  /-- A `uint64_t`. -/
  generation : ℕ := 0
  heartbeat : Bool := false
  timers : List Timer := []
  nextTimer : ℕ := 0
  log : List Event := []

namespace Shared

variable (r : Shared)

def note (e : Event) : Shared := { r with log := e :: r.log }

def bump : Shared := { r with generation := (r.generation + 1) % 2 ^ 64 }

/-- `start_radio_session`, and the heartbeat if there is none. -/
def raised (c : Choice) : Shared :=
  if !r.running && c.wifi then { r with running := c.up, heartbeat := r.heartbeat || c.up } else r

/-- Without an owner the radio is to be stopped after a while. -/
def schedule : Shared :=
  let r := r.bump
  { r with
    timers := ⟨r.nextTimer, r.generation⟩ :: r.timers
    nextTimer := r.nextTimer + 1
    log := .scheduled r.nextTimer :: r.log }

def release (o : ℕ) : Shared :=
  let r := { r with owners := r.owners.erase o }.note (.released o)
  if r.owners = ∅ then r.schedule else r

/-- The block of a release timer. -/
def expire (τ : Timer) : Shared :=
  let r := { r with timers := r.timers.erase τ }
  if τ.generation = r.generation ∧ r.owners = ∅ then
    { r with
      heartbeat := false
      running := false
      log := if r.running then .stopped τ.number :: r.log else r.log }
  else r

/-- The heartbeat's handler. -/
def beat (c : Choice) : Shared :=
  let r := if r.running && !c.beats then { r with running := false } else r
  if !r.running && r.owners ≠ ∅ && c.wifi then { r with running := c.up } else r

/-- `force_stop_radio`. -/
def force : Shared := { r.bump with heartbeat := false, running := false }.note .forced

end Shared

/-- What a section does, and what its thread has to run next. -/
def sec (x : Section) (c : Choice) (r : Shared) : Option (Shared × List Section) :=
  match x with
  | .enter o => some ({ r.bump with owners := insert o r.owners }.note (.entered o), [.raise o])
  | .raise o =>
    let r := r.raised c
    if r.running && c.tap then some (r.note (.granted o), []) else some (r, [.refuse o])
  | .refuse o => some ({ r with owners := r.owners.erase o }.note (.refused o), [])
  | .ensure => some (r.raised c, [])
  | .release o => some (r.release o, [])
  | .timer τ => if τ ∈ r.timers then some (r.expire τ, []) else none
  | .due => if r.heartbeat then some (r, [.beat]) else none
  | .beat => some (r.beat c, [])
  | .force => some (r.force, [])
  -- The table does not keep its owners alive.
  | .dealloc o => some ({ r with owners := r.owners.erase o }.note (.deallocated o), [])

inductive Call
  | acquireRadio (o : ℕ)
  | releaseRadio (o : ℕ)
  /-- From the hooks of DNS-SD and of CFNetService. -/
  | ensureRadio
  | releaseTimer (τ : Timer)
  | heartbeat
  | forceStopRadio
  | dealloc (o : ℕ)

def Call.body : Call → List Section
  | .acquireRadio o => [.enter o]
  | .releaseRadio o => [.release o]
  | .ensureRadio => [.ensure]
  | .releaseTimer τ => [.timer τ]
  | .heartbeat => [.due]
  | .forceStopRadio => [.force]
  | .dealloc o => [.dealloc o]

def code : Code Shared Section Choice Call := ⟨Call.body, fun _ => false, sec⟩

/-- sharingd before anything is started, with `n` threads beside the main one. -/
def install (n : ℕ) : Threads Shared Section := ⟨{}, [], List.replicate n []⟩

/-! ### A radio that is on -/

/-- A timer of the generation that is current is pending. -/
def Shared.ending (r : Shared) : Bool := r.timers.any fun τ => τ.generation = r.generation

/-- The radio is off, or has an owner, or will be stopped. -/
def Shared.Owned (r : Shared) : Prop := r.running = true → r.owners = ∅ → r.ending = true

/-- The radio comes up for an owner, or while it is to be stopped; and the last owner is not struck out,
by a failed `acquire_radio` or with its life, while the radio is on and not to be stopped. -/
def Shared.keepsOwned (r : Shared) (x : Section) (c : Choice) : Bool :=
  match x with
  | .raise _ | .ensure => r.running || !(r.raised c).running || r.owners ≠ ∅ || r.ending
  | .refuse o | .dealloc o => !r.running || r.owners.erase o ≠ ∅ || r.ending
  | _ => true

section Owned

variable {r r' : Shared} {x : Section} {c : Choice} {new : List Section}

theorem owned_release (r : Shared) (o : ℕ) : (r.release o).Owned := by
  unfold Shared.release
  dsimp only
  split
  · intro _ _
    simp [Shared.ending, Shared.schedule]
  · next hne => exact fun _ he => absurd he hne

theorem owned_expire {τ : Timer} (h : r.Owned) : (r.expire τ).Owned := by
  unfold Shared.expire
  dsimp only
  split
  · intro hr
    cases hr
  · next hne =>
    intro hr he
    obtain ⟨σ, hσ, hg⟩ := List.any_eq_true.mp (h hr he)
    have hg : σ.generation = r.generation := by simpa using hg
    have hne' : σ ≠ τ := fun hst => hne ⟨hst ▸ hg, he⟩
    exact List.any_eq_true.mpr ⟨σ, (List.mem_erase_of_ne hne').mpr hσ, by simpa using hg⟩

theorem owned_beat (h : r.Owned) : (r.beat c).Owned := by
  unfold Shared.beat
  dsimp only
  have h0 : Shared.Owned (if r.running && !c.beats then { r with running := false } else r) := by
    split
    · intro hr
      cases hr
    · exact h
  generalize (if r.running && !c.beats then { r with running := false } else r) = q at h0 ⊢
  split
  · next hc =>
    intro _ he
    simp only [Bool.and_eq_true, decide_eq_true_eq] at hc
    exact absurd he hc.1.2
  · exact h0

theorem owned_raised (h : r.Owned) :
    (r.raised c).Owned ↔ (r.running || !(r.raised c).running || r.owners ≠ ∅ || r.ending) = true := by
  have howners : (r.raised c).owners = r.owners := by unfold Shared.raised; split <;> rfl
  have hending : (r.raised c).ending = r.ending := by unfold Shared.raised; split <;> rfl
  have hrunning : r.running = true → (r.raised c).running = true := fun hr => by
    unfold Shared.raised
    rw [if_neg (by simp [hr])]
    exact hr
  rw [Shared.Owned, howners, hending]
  simp only [Bool.or_eq_true, Bool.not_eq_true', decide_eq_true_eq]
  constructor
  · intro hI
    by_contra hn
    simp only [not_or, Bool.not_eq_false, Bool.not_eq_true, not_not] at hn
    have := hI hn.1.1.2 hn.1.2
    rw [hn.2] at this
    cases this
  · rintro (((hr | hr) | hr) | hr) hon he
    · exact h hr he
    · rw [hr] at hon
      cases hon
    · exact absurd he hr
    · exact hr

theorem owned_erase {o : ℕ} {e : Event} :
    ({ r with owners := r.owners.erase o }.note e : Shared).Owned ↔
      (!r.running || r.owners.erase o ≠ ∅ || r.ending) = true := by
  have hending : ({ r with owners := r.owners.erase o }.note e : Shared).ending = r.ending := rfl
  rw [Shared.Owned, hending]
  show (r.running = true → r.owners.erase o = ∅ → r.ending = true) ↔ _
  cases r.running <;> cases r.ending <;> simp

/-- **A section leaves the radio owned, or to be stopped, just where the condition holds.** -/
theorem sec_owned (h : r.Owned) (hs : sec x c r = some (r', new)) :
    r'.Owned ↔ r.keepsOwned x c = true := by
  cases x with
  | enter o =>
    obtain ⟨rfl, -⟩ := Prod.mk.inj (Option.some.inj hs)
    exact iff_of_true (fun _ he => absurd he (Finset.insert_ne_empty o r.owners)) rfl
  | raise o =>
    simp only [sec] at hs
    split at hs <;> obtain ⟨rfl, -⟩ := Prod.mk.inj (Option.some.inj hs)
    · exact owned_raised h
    · exact owned_raised h
  | refuse o | dealloc o =>
    obtain ⟨rfl, -⟩ := Prod.mk.inj (Option.some.inj hs)
    exact owned_erase
  | ensure =>
    obtain ⟨rfl, -⟩ := Prod.mk.inj (Option.some.inj hs)
    exact owned_raised h
  | release o =>
    obtain ⟨rfl, -⟩ := Prod.mk.inj (Option.some.inj hs)
    exact iff_of_true (owned_release r o) rfl
  | timer τ =>
    simp only [sec, Option.ite_none_right_eq_some] at hs
    obtain ⟨rfl, -⟩ := Prod.mk.inj (Option.some.inj hs.2)
    exact iff_of_true (owned_expire h) rfl
  | due =>
    simp only [sec, Option.ite_none_right_eq_some] at hs
    obtain ⟨rfl, -⟩ := Prod.mk.inj (Option.some.inj hs.2)
    exact iff_of_true h rfl
  | beat =>
    obtain ⟨rfl, -⟩ := Prod.mk.inj (Option.some.inj hs)
    exact iff_of_true (owned_beat h) rfl
  | force =>
    obtain ⟨rfl, -⟩ := Prod.mk.inj (Option.some.inj hs)
    exact iff_of_true (fun hr => by cases hr) rfl

end Owned

section Runs

variable {n : ℕ} {ls : List (Threads.Label Choice Call)} {t : Threads Shared Section}

/-- A radio that is on has no owner, after an `acquire_radio` that failed: the release that it called off
is not set again. -/
def strandedRadio : List (Threads.Label Choice Call) :=
  [.call 0 (.acquireRadio 1), .run 0 {}, .run 0 {}, .call 0 (.releaseRadio 1), .run 0 {},
    .call 0 (.acquireRadio 2), .run 0 {}, .run 0 { tap := false }, .run 0 {}]

theorem strandedRadio_runs : (exec code.step (install 1) strandedRadio).isSome := by decide

theorem radio_stranded :
    ¬ ∀ n ls t, Path (code.Step fun _ _ _ _ => True) (install n) ls t → t.all = 0 →
      t.shared.Owned := by
  intro h
  have hend := h 1 strandedRadio _
    ((exec_path_get strandedRadio_runs).mono_mem fun _ _ _ _ => Code.Step.free)
  exact absurd (hend (by decide) (by decide) (by decide)) (by decide)

/-- **The radio is not left on without an owner**, in a run that keeps the condition; and a step that
does not keep it does leave it so. -/
theorem radio_owned
    (run : Path (code.Step fun r _ x c => r.keepsOwned x c = true) (install n) ls t) :
    t.shared.Owned ∧
    ∀ (r : Shared) x c r' new, r.Owned → sec x c r = some (r', new) →
      (r'.Owned ↔ r.keepsOwned x c = true) := by
  refine ⟨?_, fun r x c r' new h hs => sec_owned h hs⟩
  refine run.invariant (I := fun t => t.shared.Owned) (fun t l t' h hs => ?_) fun hr => by cases hr
  refine hs.invariant (I := fun r _ _ => r.Owned) (fun _ _ _ h => h) (fun _ _ _ _ _ h => h) ?_ ?_ h
  · intro r x rest P c r' new h hG hsec
    exact (sec_owned h hsec).mpr hG
  · intro r m x P c r' new h hG hsec
    exact (sec_owned h hsec).mpr hG

/-- A browser is replaced, and the last one goes. -/
def replacedBrowser : List (Threads.Label Choice Call) :=
  [.call 0 (.acquireRadio 1), .run 0 {}, .run 0 {}, .call 0 (.releaseRadio 1), .run 0 {},
    .call 0 (.acquireRadio 2), .run 0 {}, .run 0 {}, .call 0 (.releaseRadio 2), .run 0 {}]

theorem replacedBrowser_runs :
    (exec (code.stepIf fun r _ x c => r.keepsOwned x c) (install 1) replacedBrowser).isSome := by
  decide

theorem radio_owned_replacedBrowser :
    ((exec (code.stepIf fun r _ x c => r.keepsOwned x c) (install 1) replacedBrowser).get
      replacedBrowser_runs).shared.ending = true ∧
    ((({} : Shared).raised {}).Owned ↔ ({} : Shared).keepsOwned .ensure {} = true) := by
  obtain ⟨h1, h2⟩ := radio_owned
    ((exec_path_get replacedBrowser_runs).mono_mem fun _ _ _ _ => Code.Step.of_stepIf)
  exact ⟨h1 (by decide) (by decide),
    h2 {} .ensure {} _ [] (fun hr => by cases hr) rfl⟩

end Runs

/-! ### What a timer takes -/

namespace Event

/-- The first section of an acquire, a release or a forced stop. -/
def enters : Event → Bool
  | .entered _ | .released _ | .forced => true
  | _ => false

/-- The generation goes on. -/
def bumps : Event → Bool
  | .entered _ | .forced | .scheduled _ => true
  | _ => false

end Event

/-- The owner has passed the first section of an `acquire_radio`, and was not released or deallocated
since, nor an acquire of it refused. -/
def holds (o : ℕ) : List Event → Bool
  | [] => false
  | .entered p :: past => p = o || holds o past
  | .released p :: past | .deallocated p :: past | .refused p :: past => p ≠ o && holds o past
  | _ :: past => holds o past

/-- A timer that stops the radio takes it from nobody, and nothing has come between, or so much that the
generation came round. -/
def Event.Spares (past : List Event) : Event → Prop
  | .stopped n => (∀ o, holds o past = false) ∧
      ∃ since before, past = since ++ .scheduled n :: before ∧
        (since.countP Event.enters = 0 ∨ 2 ^ 64 ≤ since.countP Event.enters)
  | _ => True

/-- What has come since a timer that is pending was set. -/
structure Timer.Sound (r : Shared) (τ : Timer) (since : List Event) : Prop where
  log : ∃ before, r.log = since ++ .scheduled τ.number :: before
  generation : (τ.generation + since.countP Event.bumps) % 2 ^ 64 = r.generation
  bound : τ.generation < 2 ^ 64
  fewer : since.countP Event.bumps ≤ since.countP Event.enters
  still : since.countP Event.bumps = 0 → r.owners = ∅ ∧ since.countP Event.enters = 0

/-- Every timer has a number of its own. -/
def Numbered (next : ℕ) (log : List Event) : Prop :=
  ∀ k, log.count (.scheduled k) ≤ 1 ∧ (next ≤ k → log.count (.scheduled k) = 0)

theorem Numbered.cons {next : ℕ} {log : List Event} {e : Event} (h : Numbered next log)
    (he : ∀ k, e ≠ .scheduled k) : Numbered next (e :: log) := fun k => by
  rw [List.count_cons_of_ne (he k)]
  exact h k

theorem Numbered.schedule {next : ℕ} {log : List Event} (h : Numbered next log) :
    Numbered (next + 1) (.scheduled next :: log) := fun k => by
  obtain ⟨h1, h2⟩ := h k
  rcases eq_or_ne next k with rfl | hne
  · rw [List.count_cons_self]
    have := h2 le_rfl
    omega
  · rw [List.count_cons_of_ne (by simpa using hne)]
    exact ⟨h1, fun hk => h2 (by omega)⟩

/-- The history of the radio, its owners and its timers. -/
structure Timed (r : Shared) : Prop where
  owners : ∀ o, o ∈ r.owners ↔ holds o r.log = true
  generation : r.generation < 2 ^ 64
  timers : ∀ τ ∈ r.timers, ∃ since, τ.Sound r since
  numbers : Numbered r.nextTimer r.log
  spares : Along Event.Spares r.log

section Timed

variable {r r' : Shared} {x : Section} {c : Choice} {new : List Section} {τ : Timer}

/-- New events that leave the generation alone, while nobody joins. -/
theorem Timer.Sound.quiet {since es : List Event} (h : τ.Sound r since) (hlog : r'.log = es ++ r.log)
    (hgen : r'.generation = r.generation) (hes : ∀ e ∈ es, e.bumps = false)
    (howners : r.owners = ∅ → r'.owners = ∅ ∧ ∀ e ∈ es, e.enters = false) :
    τ.Sound r' (es ++ since) := by
  obtain ⟨before, hb⟩ := h.log
  have hzero : es.countP Event.bumps = 0 := List.countP_eq_zero.mpr fun e he => by simp [hes e he]
  refine ⟨⟨before, by rw [hlog, hb, List.append_assoc]⟩, ?_, h.bound, ?_, fun h0 => ?_⟩
  · rw [List.countP_append, hzero, Nat.zero_add, hgen]
    exact h.generation
  · rw [List.countP_append, List.countP_append, hzero]
    have := h.fewer
    omega
  · rw [List.countP_append, hzero, Nat.zero_add] at h0
    obtain ⟨he, hs⟩ := h.still h0
    obtain ⟨he', hen⟩ := howners he
    refine ⟨he', ?_⟩
    rw [List.countP_append, hs, List.countP_eq_zero.mpr fun e hm => by simp [hen e hm]]

/-- The generation goes on by one. -/
theorem Timer.Sound.bump {since es : List Event} (h : τ.Sound r since) (hlog : r'.log = es ++ r.log)
    (hgen : r'.generation = (r.generation + 1) % 2 ^ 64) (hes : es.countP Event.bumps = 1)
    (hen : es.countP Event.enters = 1) : τ.Sound r' (es ++ since) := by
  obtain ⟨before, hb⟩ := h.log
  have hfewer := h.fewer
  refine ⟨⟨before, by rw [hlog, hb, List.append_assoc]⟩, ?_, h.bound, ?_, fun h0 => ?_⟩
  · rw [List.countP_append, hes, hgen, ← h.generation]
    omega
  · rw [List.countP_append, List.countP_append, hes, hen]
    omega
  · rw [List.countP_append, hes] at h0
    omega

/-- A timer of the generation that is current has seen nothing come, or very much. -/
theorem Timer.Sound.current {since : List Event} (h : τ.Sound r since)
    (hg : τ.generation = r.generation) :
    since.countP Event.enters = 0 ∨ 2 ^ 64 ≤ since.countP Event.enters := by
  have hgen := h.generation
  have hbound := h.bound
  have hfewer := h.fewer
  rcases Nat.eq_zero_or_pos (since.countP Event.bumps) with h0 | hpos
  · exact .inl (h.still h0).2
  · right
    rw [hg] at hgen hbound
    have : since.countP Event.bumps % 2 ^ 64 = 0 := by omega
    omega

/-- Owners go, but none comes. -/
theorem Timed.erase {o : ℕ} {e : Event} (h : Timed r)
    (he : e = .refused o ∨ e = .deallocated o) :
    Timed ({ r with owners := r.owners.erase o }.note e) := by
  have hbumps : e.bumps = false := by rcases he with rfl | rfl <;> rfl
  have henters : e.enters = false := by rcases he with rfl | rfl <;> rfl
  refine ⟨fun p => ?_, h.generation, fun τ hτ => ?_, h.numbers.cons fun k => ?_, ?_, h.spares⟩
  · have hp : holds p (e :: r.log) = (o ≠ p && holds p r.log) := by rcases he with rfl | rfl <;> rfl
    show p ∈ r.owners.erase o ↔ holds p (e :: r.log) = true
    rw [hp, Finset.mem_erase, h.owners p]
    simp [ne_comm]
  · obtain ⟨since, hs⟩ := h.timers τ hτ
    refine ⟨[e] ++ since, hs.quiet rfl rfl (by simp [hbumps]) fun h0 => ⟨?_, by simp [henters]⟩⟩
    show r.owners.erase o = ∅
    rw [h0]
    rfl
  · rcases he with rfl | rfl <;> simp
  · rcases he with rfl | rfl <;> trivial

/-- The radio goes on or off, and no more. -/
theorem Timed.congr (h : Timed r)
    (hr : (r'.owners, r'.generation, r'.timers, r'.nextTimer, r'.log) =
      (r.owners, r.generation, r.timers, r.nextTimer, r.log)) : Timed r' := by
  simp only [Prod.mk.injEq] at hr
  obtain ⟨h1, h2, h3, h5, h4⟩ := hr
  refine ⟨h1 ▸ h4 ▸ h.owners, h2 ▸ h.generation, fun τ hτ => ?_, h5 ▸ h4 ▸ h.numbers, h4 ▸ h.spares⟩
  obtain ⟨since, hs⟩ := h.timers τ (h3 ▸ hτ)
  exact ⟨since, ⟨h4 ▸ hs.log, h2 ▸ hs.generation, hs.bound, hs.fewer, h1 ▸ hs.still⟩⟩

theorem Timed.release {o : ℕ} (h : Timed r) : Timed (r.release o) := by
  have hown : ∀ p, p ∈ r.owners.erase o ↔ holds p (.released o :: r.log) = true := fun p => by
    show _ ↔ (decide (o ≠ p) && holds p r.log) = true
    rw [Finset.mem_erase, h.owners p]
    simp [ne_comm]
  unfold Shared.release
  dsimp only
  split
  · next he =>
    have he : r.owners.erase o = ∅ := he
    refine ⟨hown, Nat.mod_lt _ (by omega), fun τ hτ => ?_, (h.numbers.cons (by simp)).schedule, trivial,
      trivial, h.spares⟩
    rcases List.mem_cons.mp hτ with rfl | hτ
    · exact ⟨[], ⟨⟨_, rfl⟩, Nat.mod_mod (r.generation + 1) _, Nat.mod_lt _ (by omega), le_rfl,
        fun _ => ⟨he, rfl⟩⟩⟩
    · obtain ⟨since, hs⟩ := h.timers τ hτ
      exact ⟨[.scheduled r.nextTimer, .released o] ++ since, hs.bump rfl rfl rfl rfl⟩
  · next hne =>
    have hne : r.owners.erase o ≠ ∅ := hne
    refine ⟨hown, h.generation, fun τ hτ => ?_, h.numbers.cons (by simp), trivial, h.spares⟩
    obtain ⟨since, hs⟩ := h.timers τ hτ
    refine ⟨[.released o] ++ since, hs.quiet rfl rfl (by simp [Event.bumps]) fun h0 => ?_⟩
    exact absurd (by rw [h0]; rfl) hne

theorem Timed.expire (h : Timed r) (hτ : τ ∈ r.timers) : Timed (r.expire τ) := by
  have hsub : ∀ σ ∈ r.timers.erase τ, σ ∈ r.timers := fun σ hσ => List.mem_of_mem_erase hσ
  unfold Shared.expire
  dsimp only
  split
  · next hc =>
    obtain ⟨hg, he⟩ := hc
    have hg : τ.generation = r.generation := hg
    have he : r.owners = ∅ := he
    cases hr : r.running with
    | false =>
      refine ⟨h.owners, h.generation, fun σ hσ => ?_, h.numbers, h.spares⟩
      obtain ⟨since, hs⟩ := h.timers σ (hsub σ hσ)
      exact ⟨since, ⟨hs.log, hs.generation, hs.bound, hs.fewer, hs.still⟩⟩
    | true =>
      refine ⟨h.owners, h.generation, fun σ hσ => ?_, h.numbers.cons (by simp), ⟨fun o => ?_, ?_⟩,
        h.spares⟩
      · obtain ⟨since, hs⟩ := h.timers σ (hsub σ hσ)
        exact ⟨[.stopped τ.number] ++ since,
          hs.quiet rfl rfl (by simp [Event.bumps]) fun h0 => ⟨h0, by simp [Event.enters]⟩⟩
      · by_contra ho
        have := (h.owners o).mpr (by simpa using ho)
        rw [he] at this
        exact absurd this (Finset.notMem_empty o)
      · obtain ⟨since, hs⟩ := h.timers τ hτ
        obtain ⟨before, hb⟩ := hs.log
        exact ⟨since, before, hb, hs.current hg⟩
  · refine ⟨h.owners, h.generation, fun σ hσ => ?_, h.numbers, h.spares⟩
    obtain ⟨since, hs⟩ := h.timers σ (hsub σ hσ)
    exact ⟨since, ⟨hs.log, hs.generation, hs.bound, hs.fewer, hs.still⟩⟩

/-- **Every section keeps the history.** -/
theorem Timed.sec (h : Timed r) (hs : sec x c r = some (r', new)) : Timed r' := by
  have hraised : Timed (r.raised c) := h.congr (by unfold Shared.raised; split <;> rfl)
  cases x with
  | enter o =>
    obtain ⟨rfl, -⟩ := Prod.mk.inj (Option.some.inj hs)
    refine ⟨fun p => ?_, Nat.mod_lt _ (by omega), fun τ hτ => ?_, h.numbers.cons (by simp), trivial,
      h.spares⟩
    · show p ∈ insert o r.owners ↔ (decide (o = p) || holds p r.log) = true
      rw [Finset.mem_insert, h.owners p, Bool.or_eq_true, decide_eq_true_eq, eq_comm]
    · obtain ⟨since, hs⟩ := h.timers τ hτ
      exact ⟨[.entered o] ++ since, hs.bump rfl rfl rfl rfl⟩
  | raise o =>
    simp only [Radio.sec] at hs
    split at hs <;> obtain ⟨rfl, -⟩ := Prod.mk.inj (Option.some.inj hs)
    · refine ⟨hraised.owners, hraised.generation, fun τ hτ => ?_, hraised.numbers.cons (by simp),
        trivial, hraised.spares⟩
      obtain ⟨since, hs⟩ := hraised.timers τ hτ
      exact ⟨[.granted o] ++ since,
        hs.quiet rfl rfl (by simp [Event.bumps]) fun h0 => ⟨h0, by simp [Event.enters]⟩⟩
    · exact hraised
  | refuse o =>
    obtain ⟨rfl, -⟩ := Prod.mk.inj (Option.some.inj hs)
    exact h.erase (.inl rfl)
  | ensure =>
    obtain ⟨rfl, -⟩ := Prod.mk.inj (Option.some.inj hs)
    exact hraised
  | release o =>
    obtain ⟨rfl, -⟩ := Prod.mk.inj (Option.some.inj hs)
    exact h.release
  | timer τ =>
    simp only [Radio.sec, Option.ite_none_right_eq_some] at hs
    obtain ⟨rfl, -⟩ := Prod.mk.inj (Option.some.inj hs.2)
    exact h.expire hs.1
  | due =>
    simp only [Radio.sec, Option.ite_none_right_eq_some] at hs
    obtain ⟨rfl, -⟩ := Prod.mk.inj (Option.some.inj hs.2)
    exact h
  | beat =>
    obtain ⟨rfl, -⟩ := Prod.mk.inj (Option.some.inj hs)
    refine h.congr ?_
    unfold Shared.beat
    dsimp only
    split <;> split <;> rfl
  | force =>
    obtain ⟨rfl, -⟩ := Prod.mk.inj (Option.some.inj hs)
    refine ⟨h.owners, Nat.mod_lt _ (by omega), fun τ hτ => ?_, h.numbers.cons (by simp), trivial,
      h.spares⟩
    obtain ⟨since, hs⟩ := h.timers τ hτ
    exact ⟨[.forced] ++ since, hs.bump rfl rfl rfl rfl⟩
  | dealloc o =>
    obtain ⟨rfl, -⟩ := Prod.mk.inj (Option.some.inj hs)
    exact h.erase (.inr rfl)

end Timed

section ReleaseTimers

variable {n : ℕ} {ls : List (Threads.Label Choice Call)} {t : Threads Shared Section}

theorem timed_run (run : Path (code.Step fun _ _ _ _ => True) (install n) ls t) : Timed t.shared := by
  refine run.invariant (I := fun t => Timed t.shared) (fun t l t' h hs => ?_)
    ⟨by simp [install, holds], by simp [install], by simp [install], fun k => ?_, by simp [install]⟩
  · exact hs.invariant (I := fun r _ _ => Timed r) (fun _ _ _ h => h) (fun _ _ _ _ _ h => h)
      (fun _ _ _ _ _ _ _ h _ hsec => h.sec hsec) (fun _ _ _ _ _ _ _ h _ hsec => h.sec hsec) h
  · simp [install]

/-- An owner that has the radio acquires it again and is refused; another comes and goes. -/
def acquiredAgain : List (Threads.Label Choice Call) :=
  [.call 0 (.acquireRadio 1), .run 0 {}, .run 0 {},
    .call 0 (.acquireRadio 1), .run 0 {}, .run 0 { tap := false }, .run 0 {},
    .call 0 (.acquireRadio 2), .run 0 {}, .run 0 {}, .call 0 (.releaseRadio 2), .run 0 {},
    .call 0 (.releaseTimer ⟨0, 4⟩), .run 0 {}]

theorem acquiredAgain_runs : (exec code.step (install 1) acquiredAgain).isSome := by decide

/-- An idle thread stops the radio by force, over and over. -/
theorem forced_path (k : ℕ) (r : Shared) : ∃ ls, Path (code.Step fun _ _ _ _ => True)
    ⟨r, [], [[]]⟩ ls ⟨Shared.force^[k] r, [], [[]]⟩ := by
  induction k generalizing r with
  | zero => exact ⟨[], .nil _⟩
  | succ k ih =>
    obtain ⟨ls, hls⟩ := ih r.force
    have hcall : code.step ⟨r, [], [[]]⟩ (.call 0 .forceStopRadio) = some ⟨r, [], [[.force]]⟩ := rfl
    have hrun : code.step ⟨r, [], [[.force]]⟩ (.run 0 {}) = some ⟨r.force, [], [[]]⟩ := rfl
    exact ⟨_, .cons (.free hcall) (.cons (.free hrun) hls)⟩

theorem forced_fields (k : ℕ) {r : Shared} (hg : r.generation < 2 ^ 64) :
    (Shared.force^[k] r).generation = (r.generation + k) % 2 ^ 64 ∧
    (Shared.force^[k] r).owners = r.owners ∧ (Shared.force^[k] r).timers = r.timers ∧
    (Shared.force^[k] r).log = List.replicate k .forced ++ r.log := by
  induction k with
  | zero => exact ⟨(Nat.mod_eq_of_lt hg).symm, rfl, rfl, rfl⟩
  | succ k ih =>
    rw [Function.iterate_succ_apply']
    obtain ⟨h1, h2, h3, h4⟩ := ih
    refine ⟨?_, h2, h3, ?_⟩
    · show ((Shared.force^[k] r).generation + 1) % 2 ^ 64 = _
      rw [h1]
      omega
    · show Event.forced :: (Shared.force^[k] r).log = _
      rw [h4]
      rfl

/-- The radio after one owner has come and gone. -/
def leftBehind : Shared where
  running := true
  generation := 2
  heartbeat := true
  timers := [⟨0, 2⟩]
  nextTimer := 1
  log := [.scheduled 0, .released 1, .granted 1, .entered 1]

def cameAndWent : List (Threads.Label Choice Call) :=
  [.call 0 (.acquireRadio 1), .run 0 {}, .run 0 {}, .call 0 (.releaseRadio 1), .run 0 {}]

theorem cameAndWent_path : Path (code.Step fun _ _ _ _ => True) (install 1) cameAndWent
    ⟨leftBehind, [], [[]]⟩ := by
  have h : exec code.step (install 1) cameAndWent = some ⟨leftBehind, [], [[]]⟩ := rfl
  exact (exec_path h).mono_mem fun _ _ _ _ => Code.Step.free

/-- The radio comes up for nobody, and the old timer fires. -/
theorem stopped_path {r : Shared} (hg : r.generation = 2) (ho : r.owners = ∅)
    (ht : r.timers = [⟨0, 2⟩]) : ∃ ls t, Path (code.Step fun _ _ _ _ => True) ⟨r, [], [[]]⟩ ls t ∧
      t.shared.log = .stopped 0 :: r.log := by
  have hup : (r.raised {}).running = true ∧ (r.raised {}).generation = 2 ∧ (r.raised {}).owners = ∅ ∧
      (r.raised {}).timers = [⟨0, 2⟩] ∧ (r.raised {}).log = r.log := by
    unfold Shared.raised
    cases hr : r.running <;> simp [hr, hg, ho, ht]
  obtain ⟨h1, h2, h3, h4, h5⟩ := hup
  have hcall : code.step ⟨r, [], [[]]⟩ (.call 0 .ensureRadio) = some ⟨r, [], [[.ensure]]⟩ := rfl
  have hrun : code.step ⟨r, [], [[.ensure]]⟩ (.run 0 {}) = some ⟨r.raised {}, [], [[]]⟩ := rfl
  generalize r.raised {} = q at *
  have hcall' : code.step ⟨q, [], [[]]⟩ (.call 0 (.releaseTimer ⟨0, 2⟩)) =
      some ⟨q, [], [[.timer ⟨0, 2⟩]]⟩ := rfl
  have hrun' : code.step ⟨q, [], [[.timer ⟨0, 2⟩]]⟩ (.run 0 {}) =
      some ⟨q.expire ⟨0, 2⟩, [], [[]]⟩ := by
    simp [Code.step, code, sec, h4]
  refine ⟨_, _, .cons (.free hcall) (.cons (.free hrun) (.cons (.free hcall')
    (.cons (.free hrun') (.nil _)))), ?_⟩
  simp [Shared.expire, h1, h2, h3, h5]

/-- A timer takes the radio from an owner that was refused it a second time; and one that fires after
2^64 forced stops takes it for its own. -/
theorem timer_takes :
    (¬ ∀ n ls t, Path (code.Step fun _ _ _ _ => True) (install n) ls t →
      ∀ later k past, t.shared.log = later ++ .stopped k :: past →
        ∀ o after before, past = after ++ .granted o :: before →
          .released o ∈ after ∨ .deallocated o ∈ after) ∧
    ¬ ∀ n ls t, Path (code.Step fun _ _ _ _ => True) (install n) ls t →
      ∀ later k past, t.shared.log = later ++ .stopped k :: past →
        ∃ since before, past = since ++ .scheduled k :: before ∧ since.countP Event.enters = 0 := by
  constructor
  · intro h
    have hend := h 1 acquiredAgain _
      ((exec_path_get acquiredAgain_runs).mono_mem fun _ _ _ _ => Code.Step.free) [] 0
      [.scheduled 0, .released 2, .granted 2, .entered 2, .refused 1, .entered 1, .granted 1, .entered 1]
      (by decide) 1
      [.scheduled 0, .released 2, .granted 2, .entered 2, .refused 1, .entered 1] [.entered 1] rfl
    revert hend
    decide
  · intro h
    obtain ⟨ls, hforced⟩ := forced_path (2 ^ 64) leftBehind
    obtain ⟨h1, h2, h3, h4⟩ := forced_fields (2 ^ 64) (r := leftBehind) (by decide)
    obtain ⟨ls', t, hstop, hlog⟩ := stopped_path (h1.trans (Nat.add_mod_right ..)) h2 h3
    obtain ⟨since, before, hpast, h0⟩ := h 1 _ t ((cameAndWent_path.append hforced).append hstop)
      [] 0 _ hlog
    rw [h4, show 2 ^ 64 = (2 ^ 64 - 1) + 1 by omega, List.replicate_succ] at hpast
    cases since with
    | nil => cases (List.cons_eq_cons.mp hpast).1
    | cons e since =>
      obtain ⟨rfl, -⟩ := List.cons_eq_cons.mp hpast
      simp [Event.enters] at h0

/-- **A release timer takes the radio from no owner**, in every run. -/
theorem timer_spares (run : Path (code.Step fun _ _ _ _ => True) (install n) ls t) :
    ∀ k, t.shared.log.count (.scheduled k) ≤ 1 ∧
      ∀ later past, t.shared.log = later ++ .stopped k :: past →
        (∀ o, holds o past = false) ∧
        ∃ since before, past = since ++ .scheduled k :: before ∧
          (since.countP Event.enters = 0 ∨ 2 ^ 64 ≤ since.countP Event.enters) := by
  have h := timed_run run
  exact fun k => ⟨(h.numbers k).1, fun later past he => along_iff.mp h.spares later _ past he⟩

/-- An owner goes, and the radio after it. -/
def stoppedLater : List (Threads.Label Choice Call) :=
  [.call 0 (.acquireRadio 1), .run 0 {}, .run 0 {}, .call 0 (.releaseRadio 1), .run 0 {},
    .call 0 (.releaseTimer ⟨0, 2⟩), .run 0 {}]

theorem stoppedLater_runs : (exec code.step (install 1) stoppedLater).isSome := by decide

theorem timer_spares_stoppedLater :
    holds 1 [.scheduled 0, .released 1, .granted 1, .entered 1] = false := by
  have h := timer_spares ((exec_path_get stoppedLater_runs).mono_mem fun _ _ _ _ => Code.Step.free)
  exact ((h 0).2 [] _ (by decide)).1 1

end ReleaseTimers

end AquaTransport.Radio
