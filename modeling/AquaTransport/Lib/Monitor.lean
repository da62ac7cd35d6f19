import AquaTransport.Lib.Run
import Mathlib.Data.List.Basic

/-!
# AquaTransport.Lib.Monitor — threads that run methods under one recursive lock

A `Method` takes and leaves the lock, reads and writes the shared state, and calls out; while it is
out, its thread may start another method.  A `Discipline` says what holds always and when the lock is
free, what the other threads may do to the state, and what a call out may bring back.  When every
method meets it (`Meets`), every run keeps it (`Meets.run`).
-/

namespace AquaTransport

/-- The body of a method over the shared state `σ`. -/
inductive Method (σ : Type*)
  | ret
  | enter (k : Method σ)
  | leave (k : Method σ)
  | test (p : σ → Bool) (yes no : Method σ)
  | act (f : σ → σ) (k : Method σ)
  /-- A call out, which `f` records. -/
  | call (f : σ → σ) (k : Method σ)

/-- What a thread does: run a body, or wait for a call to come back. -/
inductive Frame (σ : Type*)
  | runs (m : Method σ)
  | waits (k : Method σ)

structure Monitor (σ τ : Type*) where
  shared : σ
  /-- Who has the lock, and how many times over. -/
  lock : Option (τ × ℕ) := none
  stack : τ → List (Frame σ) := fun _ => []

/-- The methods `γ` that can be started: on a thread, in a state. -/
structure Interface (σ τ γ : Type*) where
  start : γ → τ → σ → Option (σ × Method σ)
  /-- It may be started during a call out. -/
  nested : γ → Bool

/-- The second body, when the first returns. -/
def Method.andThen {σ : Type*} (m k : Method σ) : Method σ :=
  match m with
  | .ret => k
  | .enter m => .enter (m.andThen k)
  | .leave m => .leave (m.andThen k)
  | .test p yes no => .test p (yes.andThen k) (no.andThen k)
  | .act f m => .act f (m.andThen k)
  | .call f m => .call f (m.andThen k)

namespace Monitor

variable {σ τ γ : Type*}

inductive Label (τ γ : Type*)
  | start (t : τ) (c : γ)
  | run (t : τ)
  /-- A call out comes back. -/
  | back (t : τ)

section Step

variable [DecidableEq τ]

/-- How many times over the thread has the lock. -/
def depth (m : Monitor σ τ) (t : τ) : ℕ :=
  match m.lock with
  | some (u, n) => if u = t then n else 0
  | none => 0

def push (m : Monitor σ τ) (t : τ) (l : List (Frame σ)) : Monitor σ τ :=
  { m with stack := Function.update m.stack t l }

/-- The next instruction of the body that thread `t` runs; `below` waits for it. -/
def instr (m : Monitor σ τ) (t : τ) (below : List (Frame σ)) : Method σ → Option (Monitor σ τ)
  | .ret => some (m.push t below)
  | .enter k =>
    match m.lock with
    | none => some { m.push t (.runs k :: below) with lock := some (t, 1) }
    | some (u, n) =>
      if u = t then some { m.push t (.runs k :: below) with lock := some (t, n + 1) } else none
  | .leave k =>
    match m.lock with
    | some (u, n + 1) =>
      if u = t then
        some { m.push t (.runs k :: below) with lock := if n = 0 then none else some (t, n) }
      else none
    | _ => none
  | .test p yes no => some (m.push t (.runs (if p m.shared then yes else no) :: below))
  | .act f k => some { m.push t (.runs k :: below) with shared := f m.shared }
  | .call f k => some { m.push t (.waits k :: below) with shared := f m.shared }

def step (P : Interface σ τ γ) (m : Monitor σ τ) : Label τ γ → Option (Monitor σ τ)
  | .start t c =>
    if (match m.stack t with
      | [] => true
      | .waits _ :: _ => P.nested c
      | .runs _ :: _ => false) then
      (P.start c t m.shared).map fun r =>
        { m.push t (.runs r.2 :: m.stack t) with shared := r.1 }
    else none
  | .run t =>
    match m.stack t with
    | .runs b :: below => m.instr t below b
    | _ => none
  | .back t =>
    match m.stack t with
    | .waits k :: below => some (m.push t (.runs k :: below))
    | _ => none

theorem depth_of_lock {m : Monitor σ τ} {t : τ} {n : ℕ} (h : m.lock = some (t, n)) :
    m.depth t = n := by
  simp [depth, h]

theorem depth_of_free {m : Monitor σ τ} (h : m.lock = none) (t : τ) : m.depth t = 0 := by
  simp [depth, h]

theorem depth_of_ne {m : Monitor σ τ} {t u : τ} {n : ℕ} (h : m.lock = some (t, n)) (hu : u ≠ t) :
    m.depth u = 0 := by
  simp [depth, h, hu.symm]

/-- Only one thread has the lock. -/
theorem lock_of_depth {m : Monitor σ τ} {t : τ} (h : m.depth t ≠ 0) :
    m.lock = some (t, m.depth t) := by
  unfold depth at h ⊢
  split at h
  · rename_i u n hl
    split at h
    · rename_i hu
      rw [hl, hu]
      simp
    · exact absurd rfl h
  · exact absurd rfl h

end Step

end Monitor

/-! ### Disciplines -/

/-- What the methods rely on, and what they guarantee. -/
structure Discipline (σ τ : Type*) where
  /-- It always holds. -/
  glob : σ → Prop
  /-- It holds when the lock is free. -/
  inv : σ → Prop
  /-- It holds during a call out. -/
  out : σ → Prop
  /-- What the others of a thread may do. -/
  le : τ → σ → σ → Prop
  /-- What they may do while the thread has the lock. -/
  rely : τ → σ → σ → Prop
  /-- What may have happened when a call out comes back. -/
  again : τ → σ → σ → Prop
  le_refl : ∀ t s, le t s s
  le_trans : ∀ {t s s' s''}, le t s s' → le t s' s'' → le t s s''
  rely_refl : ∀ t s, rely t s s
  rely_trans : ∀ {t s s' s''}, rely t s s' → rely t s' s'' → rely t s s''
  rely_le : ∀ {t s s'}, rely t s s' → le t s s'
  rely_out : ∀ {t s s'}, rely t s s' → out s → out s'
  rely_again : ∀ {t s s'}, rely t s s' → again t s s'
  again_trans : ∀ {t s s' s''}, again t s s' → again t s' s'' → again t s s''

namespace Discipline

variable {σ τ : Type*} (D : Discipline σ τ) (t : τ)

/-- What the others may do while the thread has the lock that often. -/
def env : ℕ → σ → σ → Prop
  | 0 => D.le t
  | _ + 1 => D.rely t

/-- What the thread itself may do then. -/
def guar : ℕ → σ → σ → Prop
  | 0, s, s' => (D.inv s → D.inv s') ∧ ∀ u, u ≠ t → D.rely u s s'
  | _ + 1, s, s' => ∀ u, u ≠ t → D.le u s s'

/-- From `s`, with the lock taken `n` times, the body keeps the discipline and returns in `Q`. -/
def Wp (Q : ℕ → σ → Prop) : Method σ → ℕ → σ → Prop
  | .ret, n, s => ∀ s', D.glob s' → D.env t n s s' → Q n s'
  | .enter k, 0, s => ∀ s', D.glob s' → D.le t s s' → D.inv s' → Wp Q k 1 s'
  | .enter k, n + 1, s => ∀ s', D.glob s' → D.rely t s s' → Wp Q k (n + 2) s'
  | .leave _, 0, _ => False
  | .leave k, n + 1, s => ∀ s', D.glob s' → D.rely t s s' → (n = 0 → D.inv s') ∧ Wp Q k n s'
  | .test p yes no, n, s => ∀ s', D.glob s' → D.env t n s s' →
      if p s' then Wp Q yes n s' else Wp Q no n s'
  | .act f k, n, s => ∀ s', D.glob s' → D.env t n s s' →
      D.glob (f s') ∧ D.guar t n s' (f s') ∧ Wp Q k n (f s')
  | .call _ _, 0, _ => False
  | .call f k, n + 1, s => ∀ s', D.glob s' → D.rely t s s' →
      (D.glob (f s') ∧ D.out (f s')) ∧ (∀ u, u ≠ t → D.le u s' (f s')) ∧
        ∀ s'', D.glob s'' → D.out s'' → D.again t (f s') s'' → Wp Q k (n + 1) s''

variable {D t} {Q Q' : ℕ → σ → Prop} {m k : Method σ} {n : ℕ} {s s' : σ}

theorem env_refl (n : ℕ) (s : σ) : D.env t n s s := by
  cases n with
  | zero => exact D.le_refl t s
  | succ n => exact D.rely_refl t s

theorem env_trans {u : σ} (h : D.env t n s s') (h' : D.env t n s' u) : D.env t n s u := by
  cases n with
  | zero => exact D.le_trans h h'
  | succ n => exact D.rely_trans h h'

theorem env_of_rely (n : ℕ) (h : D.rely t s s') : D.env t n s s' := by
  cases n with
  | zero => exact D.rely_le h
  | succ n => exact h

theorem guar_refl (n : ℕ) (s : σ) : D.guar t n s s := by
  cases n with
  | zero => exact ⟨id, fun u _ => D.rely_refl u s⟩
  | succ n => exact fun u _ => D.le_refl u s

theorem guar_of_zero (n : ℕ) (h : D.guar t 0 s s') : D.guar t n s s' := by
  cases n with
  | zero => exact h
  | succ n => exact fun u hu => D.rely_le (h.2 u hu)

/-- What the others do changes nothing. -/
theorem Wp.env (h : D.Wp t Q m n s) (he : D.env t n s s') : D.Wp t Q m n s' := by
  cases m with
  | ret => exact fun u hg hu => h u hg (env_trans he hu)
  | enter k =>
    cases n with
    | zero => exact fun u hg hu => h u hg (D.le_trans he hu)
    | succ n => exact fun u hg hu => h u hg (D.rely_trans he hu)
  | leave k =>
    cases n with
    | zero => exact h
    | succ n => exact fun u hg hu => h u hg (D.rely_trans he hu)
  | test p yes no => exact fun u hg hu => h u hg (env_trans he hu)
  | act f k => exact fun u hg hu => h u hg (env_trans he hu)
  | call f k =>
    cases n with
    | zero => exact h
    | succ n => exact fun u hg hu => h u hg (D.rely_trans he hu)

theorem Wp.mono (hQ : ∀ n s, Q n s → Q' n s) (h : D.Wp t Q m n s) : D.Wp t Q' m n s := by
  induction m generalizing n s with
  | ret => exact fun u hg hu => hQ n u (h u hg hu)
  | enter k ih =>
    cases n with
    | zero => exact fun u hg hu hi => ih (h u hg hu hi)
    | succ n => exact fun u hg hu => ih (h u hg hu)
  | leave k ih =>
    cases n with
    | zero => exact h
    | succ n => exact fun u hg hu => ⟨(h u hg hu).1, ih (h u hg hu).2⟩
  | test p yes no ihy ihn =>
    intro u hg hu
    have hu := h u hg hu
    split at hu
    · rename_i hp
      rw [if_pos hp]
      exact ihy hu
    · rename_i hp
      rw [if_neg hp]
      exact ihn hu
  | act f k ih =>
    intro u hg hu
    obtain ⟨hglob, hguar, hk⟩ := h u hg hu
    exact ⟨hglob, hguar, ih hk⟩
  | call f k ih =>
    cases n with
    | zero => exact h
    | succ n =>
      intro u hg hu
      obtain ⟨hglob, hle, hk⟩ := h u hg hu
      exact ⟨hglob, hle, fun v hv ho ha => ih (hk v hv ho ha)⟩

/-- One body after the other. -/
theorem Wp.andThen (h : D.Wp t (D.Wp t Q k) m n s) (hs : D.glob s) :
    D.Wp t Q (m.andThen k) n s := by
  induction m generalizing n s with
  | ret => exact h s hs (env_refl n s)
  | enter m ih =>
    cases n with
    | zero => exact fun u hg hu hi => ih (h u hg hu hi) hg
    | succ n => exact fun u hg hu => ih (h u hg hu) hg
  | leave m ih =>
    cases n with
    | zero => exact h
    | succ n => exact fun u hg hu => ⟨(h u hg hu).1, ih (h u hg hu).2 hg⟩
  | test p yes no ihy ihn =>
    intro u hg hu
    have hu := h u hg hu
    split at hu
    · rename_i hp
      rw [if_pos hp]
      exact ihy hu hg
    · rename_i hp
      rw [if_neg hp]
      exact ihn hu hg
  | act f m ih =>
    intro u hg hu
    obtain ⟨hglob, hguar, hk⟩ := h u hg hu
    exact ⟨hglob, hguar, ih hk hglob⟩
  | call f m ih =>
    cases n with
    | zero => exact h
    | succ n =>
      intro u hg hu
      obtain ⟨hglob, hle, hk⟩ := h u hg hu
      exact ⟨hglob, hle, fun v hv ho ha => ih (hk v hv ho ha) hv⟩

/-! ### Rules with the lock held -/

/-- What goes on without the lock does not change it. -/
def Stable (D : Discipline σ τ) (t : τ) (P : σ → Prop) : Prop :=
  ∀ s s', D.rely t s s' → P s → P s'

variable {P : σ → Prop} {f : σ → σ} {p : σ → Bool} {yes no : Method σ}

theorem wp_enter (hP : D.Stable t P) (hs : P s)
    (hk : ∀ s, D.glob s → P s → D.Wp t Q k (n + 2) s) : D.Wp t Q (.enter k) (n + 1) s :=
  fun s' hg h => hk s' hg (hP s s' h hs)

theorem wp_leave (hP : D.Stable t P) (hs : P s) (hi : ∀ s, D.glob s → P s → n = 0 → D.inv s)
    (hk : ∀ s, D.glob s → P s → D.Wp t Q k n s) : D.Wp t Q (.leave k) (n + 1) s :=
  fun s' hg h => ⟨hi s' hg (hP s s' h hs), hk s' hg (hP s s' h hs)⟩

theorem wp_test (hP : D.Stable t P) (hs : P s)
    (hyes : ∀ s, D.glob s → P s → p s = true → D.Wp t Q yes (n + 1) s)
    (hno : ∀ s, D.glob s → P s → p s = false → D.Wp t Q no (n + 1) s) :
    D.Wp t Q (.test p yes no) (n + 1) s := by
  intro s' hg h
  split
  · rename_i hp
    exact hyes s' hg (hP s s' h hs) hp
  · rename_i hp
    exact hno s' hg (hP s s' h hs) (Bool.not_eq_true _ ▸ hp)

theorem wp_act (hP : D.Stable t P) (hs : P s)
    (hf : ∀ s, D.glob s → P s → D.glob (f s) ∧ ∀ u, u ≠ t → D.le u s (f s))
    (hk : ∀ s, D.glob s → P s → D.Wp t Q k (n + 1) (f s)) : D.Wp t Q (.act f k) (n + 1) s :=
  fun s' hg h => ⟨(hf s' hg (hP s s' h hs)).1, (hf s' hg (hP s s' h hs)).2,
    hk s' hg (hP s s' h hs)⟩

theorem wp_call (hP : D.Stable t P) (hs : P s)
    (hf : ∀ s, D.glob s → P s → (D.glob (f s) ∧ D.out (f s)) ∧ ∀ u, u ≠ t → D.le u s (f s))
    (hk : ∀ s s', D.glob s → P s → D.glob s' → D.out s' → D.again t (f s) s' →
      D.Wp t Q k (n + 1) s') :
    D.Wp t Q (.call f k) (n + 1) s :=
  fun s' hg h => ⟨(hf s' hg (hP s s' h hs)).1, (hf s' hg (hP s s' h hs)).2,
    fun u hu ho ha => hk s' u hg (hP s s' h hs) hu ho ha⟩

/-! ### Runs -/

variable (D t) in
/-- A thread's frames, the topmost first, keep the discipline from the state `s`. -/
def Stack : List (Frame σ) → ℕ → σ → Prop
  | [], n, _ => n = 0
  | .runs m :: below, n, s => D.Wp t (Stack below) m n s
  | .waits k :: below, n, s =>
    n ≠ 0 ∧ D.out s ∧ ∀ s', D.glob s' → D.out s' → D.again t s s' → D.Wp t (Stack below) k n s'

theorem Stack.env {l : List (Frame σ)} (h : D.Stack t l n s) (he : D.env t n s s') :
    D.Stack t l n s' := by
  cases l with
  | nil => exact h
  | cons a l =>
    cases a with
    | runs m => exact Wp.env h he
    | waits k =>
      obtain ⟨hn, hout, h⟩ := h
      obtain ⟨n, rfl⟩ := Nat.exists_eq_succ_of_ne_zero hn
      refine ⟨hn, D.rely_out he hout, fun u hg ho hu => ?_⟩
      exact h u hg ho (D.again_trans (D.rely_again he) hu)

variable {γ : Type*}

/-- Every method keeps the discipline, wherever it may be started. -/
structure Meets (D : Discipline σ τ) (P : Interface σ τ γ) : Prop where
  start : ∀ c t s s' m, D.glob s → P.start c t s = some (s', m) →
    D.glob s' ∧ D.guar t 0 s s' ∧ D.Wp t (fun n _ => n = 0) m 0 s'
  nested : ∀ c t s s' m n, D.glob s → D.out s → P.nested c = true →
    P.start c t s = some (s', m) →
    D.Wp t (fun i s'' => i = n + 1 ∧ D.out s'' ∧ D.again t s s'') m (n + 1) s'

variable [DecidableEq τ]

structure Sound (D : Discipline σ τ) (m : Monitor σ τ) : Prop where
  glob : D.glob m.shared
  free : m.lock = none → D.inv m.shared
  held : ∀ t, m.lock ≠ some (t, 0)
  frames : ∀ t, D.Stack t (m.stack t) (m.depth t) m.shared

/-- What one thread does, seen from the others. -/
theorem Sound.of_thread {m m' : Monitor σ τ} (h : D.Sound m) {l : List (Frame σ)}
    (hl : m'.stack = Function.update m.stack t l) (hd : ∀ u, u ≠ t → m'.depth u = m.depth u)
    (he : ∀ u, u ≠ t → D.env u (m.depth u) m.shared m'.shared) (hglob : D.glob m'.shared)
    (hfree : m'.lock = none → D.inv m'.shared) (hheld : ∀ u, m'.lock ≠ some (u, 0))
    (hown : D.Stack t l (m'.depth t) m'.shared) : D.Sound m' := by
  refine ⟨hglob, hfree, hheld, fun u => ?_⟩
  by_cases hu : u = t
  · rw [hu, hl, Function.update_self]
    exact hown
  · rw [hl, Function.update_of_ne hu, hd u hu]
    exact (h.frames u).env (he u hu)

/-- A step that leaves the lock as it is. -/
theorem Sound.of_push {m : Monitor σ τ} (h : D.Sound m) {l : List (Frame σ)} {s : σ}
    (hglob : D.glob s) (he : D.guar t (m.depth t) m.shared s)
    (hown : D.Stack t l (m.depth t) s) : D.Sound { m.push t l with shared := s } := by
  cases hd : m.depth t with
  | zero =>
    rw [hd] at he
    refine h.of_thread rfl (fun _ _ => rfl) (fun u hu => ?_) hglob ?_ h.held hown
    · exact env_of_rely _ (he.2 u hu)
    · exact fun hfree => he.1 (h.free hfree)
  | succ n =>
    rw [hd] at he
    have hlock := Monitor.lock_of_depth (m := m) (t := t) (by omega)
    refine h.of_thread rfl (fun _ _ => rfl) (fun u hu => ?_) hglob ?_ h.held hown
    · rw [Monitor.depth_of_ne hlock hu]
      exact he u hu
    · intro (hfree : m.lock = none)
      rw [hfree] at hlock
      cases hlock

/-- The lock is taken or left; nothing else changes. -/
theorem Sound.of_lock {m : Monitor σ τ} (h : D.Sound m) {l : List (Frame σ)} {n : ℕ}
    (hl : m.lock = none ∨ ∃ k, m.lock = some (t, k)) (hinv : n = 0 → D.inv m.shared)
    (hown : D.Stack t l n m.shared) :
    D.Sound { m.push t l with lock := if n = 0 then none else some (t, n) } := by
  have hothers : ∀ u, u ≠ t → m.depth u = 0 := by
    intro u hu
    rcases hl with hl | ⟨k, hl⟩
    · exact Monitor.depth_of_free hl u
    · exact Monitor.depth_of_ne hl hu
  have hsame : ∀ u, u ≠ t → D.env u (m.depth u) m.shared m.shared := fun u _ => env_refl _ _
  rcases Nat.eq_zero_or_pos n with rfl | hpos
  · rw [if_pos rfl]
    refine h.of_thread (t := t) rfl (fun u hu => ?_) hsame h.glob (fun _ => hinv rfl) nofun ?_
    · exact (hothers u hu).symm
    · exact hown
  · have hn : n ≠ 0 := Nat.ne_of_gt hpos
    rw [if_neg hn]
    refine h.of_thread (t := t) rfl (fun u hu => ?_) hsame h.glob nofun ?_ ?_
    · rw [hothers u hu]
      exact Monitor.depth_of_ne rfl hu
    · rintro u hu
      exact hn (Prod.mk.inj (Option.some.inj hu)).2
    · rw [Monitor.depth_of_lock (m := { m.push t l with lock := some (t, n) }) rfl]
      exact hown

/-- **One instruction.** -/
theorem Sound.instr {m m' : Monitor σ τ} (h : D.Sound m) {b : Method σ} {below : List (Frame σ)}
    (hs : m.stack t = .runs b :: below) (hstep : m.instr t below b = some m') : D.Sound m' := by
  have hb : D.Wp t (D.Stack t below) b (m.depth t) m.shared := by
    have := h.frames t
    rwa [hs] at this
  cases b with
  | ret =>
    obtain rfl := Option.some.inj hstep
    exact h.of_push h.glob (guar_refl _ _) (hb _ h.glob (env_refl _ _))
  | enter k =>
    unfold Monitor.instr at hstep
    dsimp only at hstep
    split at hstep
    · rename_i hl
      obtain rfl := Option.some.inj hstep
      rw [Monitor.depth_of_free hl t] at hb
      exact h.of_lock (n := 1) (.inl hl) nofun (hb _ h.glob (D.le_refl _ _) (h.free hl))
    · rename_i u n hl
      rw [Option.ite_none_right_eq_some] at hstep
      obtain ⟨rfl, hstep⟩ := hstep
      obtain rfl := Option.some.inj hstep
      have hn : n ≠ 0 := fun hz => h.held u (hz ▸ hl)
      obtain ⟨i, rfl⟩ := Nat.exists_eq_succ_of_ne_zero hn
      rw [Monitor.depth_of_lock hl] at hb
      exact h.of_lock (n := i + 2) (.inr ⟨_, hl⟩) nofun (hb _ h.glob (D.rely_refl _ _))
  | leave k =>
    unfold Monitor.instr at hstep
    dsimp only at hstep
    split at hstep
    · rename_i u n hl
      rw [Option.ite_none_right_eq_some] at hstep
      obtain ⟨rfl, hstep⟩ := hstep
      obtain rfl := Option.some.inj hstep
      rw [Monitor.depth_of_lock hl] at hb
      obtain ⟨hinv, hk⟩ := hb _ h.glob (D.rely_refl _ _)
      exact h.of_lock (.inr ⟨_, hl⟩) hinv hk
    · cases hstep
  | test p yes no =>
    obtain rfl := Option.some.inj hstep
    refine h.of_push h.glob (guar_refl _ _) ?_
    have hb := hb _ h.glob (env_refl _ _)
    show D.Wp t _ (if p m.shared then yes else no) _ _
    split at hb
    · rename_i hp
      rwa [if_pos hp]
    · rename_i hp
      rwa [if_neg hp]
  | act f k =>
    obtain rfl := Option.some.inj hstep
    obtain ⟨hglob, hg, hk⟩ := hb _ h.glob (env_refl _ _)
    exact h.of_push hglob hg hk
  | call f k =>
    obtain rfl := Option.some.inj hstep
    cases hd : m.depth t with
    | zero =>
      rw [hd] at hb
      exact hb.elim
    | succ n =>
      rw [hd] at hb
      obtain ⟨⟨hglob, hout⟩, hle, hk⟩ := hb _ h.glob (D.rely_refl _ _)
      refine h.of_push hglob (hd ▸ hle) ?_
      rw [hd]
      exact ⟨Nat.succ_ne_zero n, hout, hk⟩

/-- **One step.** -/
theorem Meets.step {P : Interface σ τ γ} (hP : D.Meets P) {m m' : Monitor σ τ} (h : D.Sound m)
    {l : Monitor.Label τ γ} (hstep : m.step P l = some m') : D.Sound m' := by
  cases l with
  | start t c =>
    unfold Monitor.step at hstep
    rw [Option.ite_none_right_eq_some] at hstep
    obtain ⟨hstart, hstep⟩ := hstep
    obtain ⟨⟨s', b⟩, hc, rfl⟩ := Option.map_eq_some_iff.mp hstep
    obtain ⟨hglob, hguar, hb⟩ := hP.start c t _ s' b h.glob hc
    refine h.of_push hglob (guar_of_zero _ hguar) ?_
    have hown := h.frames t
    cases hst : m.stack t with
    | nil =>
      rw [hst] at hown
      have hd : m.depth t = 0 := hown
      rw [hd]
      exact hb
    | cons a below =>
      rw [hst] at hstart hown
      cases a with
      | runs k => exact absurd hstart Bool.false_ne_true
      | waits k =>
        obtain ⟨hd, hout, hk⟩ := hown
        obtain ⟨n, hn⟩ := Nat.exists_eq_succ_of_ne_zero hd
        rw [hn] at hk ⊢
        refine (hP.nested c t _ s' b n h.glob hout hstart hc).mono ?_
        rintro i s'' ⟨rfl, hout', hagain⟩
        refine ⟨Nat.succ_ne_zero n, hout', fun u hg ho hu => ?_⟩
        exact hk u hg ho (D.again_trans hagain hu)
  | run t =>
    unfold Monitor.step at hstep
    dsimp only at hstep
    split at hstep
    · rename_i b below hs
      exact h.instr hs hstep
    · cases hstep
  | back t =>
    unfold Monitor.step at hstep
    dsimp only at hstep
    split at hstep
    · rename_i k below hs
      obtain rfl := Option.some.inj hstep
      have hown := h.frames t
      rw [hs] at hown
      obtain ⟨-, hout, hk⟩ := hown
      have hagain := D.rely_again (D.rely_refl t m.shared)
      exact h.of_push h.glob (guar_refl _ _) (hk _ h.glob hout hagain)
    · cases hstep

/-- **Every run keeps the discipline.** -/
theorem Meets.run {P : Interface σ τ γ} (hP : D.Meets P) {s : σ} (hg : D.glob s) (hs : D.inv s)
    {m : Monitor σ τ} {evs : List (Monitor.Label τ γ)}
    (h : Path (fun m l m' => Monitor.step P m l = some m') { shared := s } evs m) : D.Sound m :=
  h.invariant (fun _ _ _ hm hstep => hP.step hm hstep) ⟨hg, fun _ => hs, nofun, fun _ => rfl⟩

end Discipline

end AquaTransport
