import AquaTransport.Lib.Threads
import AquaTransport.Rewrite.Rules

/-!
# AquaTransport.Rewrite.Reload — the rule tables, their readers and the reload

`tf_redirects` and `tf_headerrules` hand out the array that they have loaded, and the lock is gone when
a caller walks it.  A reload frees the array and makes the next one; `gen` counts them.  A reader's
thread reads one thing of an element in each section.
-/

namespace AquaTransport.Rewrite

/-! ### The tables -/

/-- A rule file as `read_blocks` cuts it up. -/
structure RuleFile where
  mtime : ℕ
  blocks : List (List Chars)

/-- scope, from, to -/
def redirectOf : List Chars → Option TfRedirect
  | scope :: fromUrl :: toUrl :: _ => some ⟨scope, fromUrl, toUrl⟩
  | _ => none

/-- scope, pattern, one or more headers -/
def headerruleOf : List Chars → Option TfHeaderrule
  | scope :: pattern :: line :: lines => some ⟨scope, pattern, line :: lines⟩
  | _ => none

/-- `gRed`, `gNRed`, `gRedMtime`, `gRedLoaded`, `gRedCheck`, and the same for the headers. -/
structure Table (ρ : Type) where
  rules : List ρ := []
  gen : ℕ := 0
  loaded : Bool := false
  mtime : ℕ := 0
  check : ℕ := 0

/-- What a section finds outside: the time, and for a reload whether the file was edited after the
`stat`, and whether it opens. -/
structure Choice where
  now : ℕ := 0
  edited : Option (Option RuleFile) := none
  opens : Bool := true

/-- The array is freed: nothing is loaded yet, or the check is due and finds another mtime or no file. -/
def Table.reloads {ρ : Type} (t : Table ρ) (file : Option RuleFile) (now : ℕ) : Bool :=
  if t.loaded then
    now ≠ t.check &&
      match file with
      | some f => f.mtime ≠ t.mtime
      | none => !t.rules.isEmpty
  else true

/-- `read_blocks`, and the mtime that it leaves. -/
def readBlocks (file : Option RuleFile) (opens : Bool) : List (List Chars) × ℕ :=
  match file with
  | none => ([], 0)
  | some f => (if opens then f.blocks else [], f.mtime)

/-- `tf_redirects` and `tf_headerrules`. -/
def Table.load {ρ : Type} (parse : List Chars → Option ρ) (t : Table ρ) (file : Option RuleFile)
    (x : Choice) : Table ρ :=
  let check := if t.loaded then x.now else t.check
  if t.reloads file x.now then
    let found := readBlocks (x.edited.getD file) x.opens
    { rules := found.1.filterMap parse
      gen := t.gen + 1
      loaded := true
      mtime := found.2
      check := check }
  else { t with check := check }

inductive Which
  | redirects
  | headerrules
  deriving DecidableEq

/-- An element was read, or a string of it, by a caller that had been given array `gen`. -/
structure Read where
  which : Which
  gen : ℕ
  index : ℕ
  freed : Bool

structure Shared where
  redirects : Table TfRedirect := {}
  headerrules : Table TfHeaderrule := {}
  redirectsFile : Option RuleFile := none
  headersFile : Option RuleFile := none
  reads : List Read := []

namespace Shared

def gen (s : Shared) : Which → ℕ
  | .redirects => s.redirects.gen
  | .headerrules => s.headerrules.gen

def count (s : Shared) : Which → ℕ
  | .redirects => s.redirects.rules.length
  | .headerrules => s.headerrules.rules.length

def reloads (s : Shared) : Which → ℕ → Bool
  | .redirects => s.redirects.reloads s.redirectsFile
  | .headerrules => s.headerrules.reloads s.headersFile

/-- An edit between the `stat` and the opening stays. -/
def load (s : Shared) (x : Choice) : Which → Shared
  | .redirects =>
    { s with
      redirects := s.redirects.load redirectOf s.redirectsFile x
      redirectsFile := x.edited.getD s.redirectsFile }
  | .headerrules =>
    { s with
      headerrules := s.headerrules.load headerruleOf s.headersFile x
      headersFile := x.edited.getD s.headersFile }

def edit (s : Shared) (file : Option RuleFile) : Which → Shared
  | .redirects => { s with redirectsFile := file }
  | .headerrules => { s with headersFile := file }

/-- The strings of an element that the walk compares. -/
def element (s : Shared) (i : ℕ) : Which → Option (Chars × Chars)
  | .redirects => s.redirects.rules[i]?.map fun r => (r.scope, r.fromUrl)
  | .headerrules => s.headerrules.rules[i]?.map fun r => (r.scope, r.pattern)

def note (s : Shared) (w : Which) (gen i : ℕ) : Shared :=
  { s with reads := ⟨w, gen, i, decide (gen ≠ s.gen w)⟩ :: s.reads }

end Shared

/-! ### The readers -/

inductive Use
  /-- `tf_apply_redirect`. -/
  | redirect (url : Chars)
  /-- `match_headers`, and `apply_header_rule` on what it returns. -/
  | apply (url : Chars)
  /-- `match_headers`, and `rule_sets_header` on what it returns. -/
  | sets (url name : Chars)

def Use.which : Use → Which
  | .redirect _ => .redirects
  | .apply _ | .sets _ _ => .headerrules

def Use.url : Use → Chars
  | .redirect url | .apply url | .sets url _ => url

inductive Section
  | load (u : Use)
  | scope (u : Use) (gen n i : ℕ)
  | pattern (u : Use) (gen n i : ℕ)
  | target (u : Use) (gen i : ℕ)
  | line (u : Use) (gen i j : ℕ)
  | edit (w : Which) (file : Option RuleFile)

inductive Call
  | use (u : Use)
  | edit (w : Which) (file : Option RuleFile)

/-- The loop head: `i < n`. -/
def walk (u : Use) (gen n i : ℕ) : List Section := if i < n then [.scope u gen n i] else []

/-- What follows a match. -/
def hit (u : Use) (gen i : ℕ) : List Section :=
  match u with
  | .redirect _ => [.target u gen i]
  | .apply _ | .sets _ _ => [.line u gen i 0]

/-- A read of element `i` of array `gen`, and how the thread goes on.  What freed memory gives is
anybody's guess, and such a thread is not followed any further. -/
def readElement (s : Shared) (w : Which) (gen i : ℕ) (next : Shared → List Section) :
    Shared × List Section :=
  (s.note w gen i, if gen = s.gen w then next s else [])

/-- After the scope of an element. -/
def afterScope (who : Identity) (u : Use) (gen n i : ℕ) (s : Shared) : List Section :=
  match s.element i u.which with
  | none => []
  | some (scope, _) =>
    if tfScopeMatches who scope then [.pattern u gen n i] else walk u gen n (i + 1)

/-- After the pattern of an element in scope. -/
def afterPattern (u : Use) (gen n i : ℕ) (s : Shared) : List Section :=
  match s.element i u.which with
  | none => []
  | some (_, pattern) =>
    if tfGlobPrefix pattern u.url then hit u gen i else walk u gen n (i + 1)

/-- After `hr->nlines` and, when there is one, line `j`. -/
def afterLine (u : Use) (gen i j : ℕ) (s : Shared) : List Section :=
  match s.headerrules.rules[i]?.bind fun hr => hr.lines[j]? with
  | none => []
  | some line =>
    match u with
    | .sets _ name =>
      if ruleSetsHeader ⟨[], [], [line]⟩ name then [] else [.line u gen i (j + 1)]
    | _ => [.line u gen i (j + 1)]

def runSection (who : Identity) (sec : Section) (x : Choice) (s : Shared) : Shared × List Section :=
  match sec with
  | .load u =>
    let s' := s.load x u.which
    (s', walk u (s'.gen u.which) (s'.count u.which) 0)
  | .scope u gen n i => readElement s u.which gen i (afterScope who u gen n i)
  | .pattern u gen n i => readElement s u.which gen i (afterPattern u gen n i)
  | .target u gen i => readElement s u.which gen i fun _ => []
  | .line u gen i j => readElement s u.which gen i (afterLine u gen i j)
  | .edit w file => (s.edit file w, [])

def readers (who : Identity) : Code Shared Section Choice Call where
  body
    | .use u => [.load u]
    | .edit w file => [.edit w file]
  sec i x s := some (runSection who i x s)

/-! ### Readers and reloads -/

/-- The array that the section's thread has been given and reads. -/
def Section.array : Section → Option (Which × ℕ)
  | .scope u gen _ _ | .pattern u gen _ _ | .target u gen _ | .line u gen _ _ => some (u.which, gen)
  | .load _ | .edit _ _ => none

/-- A call that frees a table's array finds no thread reading it. -/
def Undisturbed (s : Shared) (P : Multiset Section) (i : Section) (x : Choice) : Prop :=
  ∀ u, i = .load u → s.reloads u.which x.now = true →
    ∀ j ∈ P, ∀ gen, j.array ≠ some (u.which, gen)

/-- Readers hold the arrays that there are. -/
structure Held (s : Shared) (P : Multiset Section) : Prop where
  current : ∀ j ∈ P, ∀ w gen, j.array = some (w, gen) → gen = s.gen w
  sound : ∀ r ∈ s.reads, r.freed = false

section Steps

variable {who : Identity} {s s' : Shared} {i j : Section} {x : Choice} {w w' : Which} {u : Use}
  {gen n k : ℕ} {P : Multiset Section} {new : List Section}

theorem gen_load : (s.load x w).gen w' =
    if w' = w ∧ s.reloads w x.now = true then s.gen w' + 1 else s.gen w' := by
  have htable : ∀ {ρ : Type} (parse : List Chars → Option ρ) (t : Table ρ) (file : Option RuleFile),
      (t.load parse file x).gen = if t.reloads file x.now = true then t.gen + 1 else t.gen := by
    intro ρ parse t file
    unfold Table.load
    dsimp only
    split_ifs <;> rfl
  cases w <;> cases w' <;>
    simp [Shared.load, Shared.gen, Shared.reloads, htable]

theorem reads_load : (s.load x w).reads = s.reads := by
  cases w <;> rfl

theorem array_of_walk (h : j ∈ walk u gen n k) : j.array = some (u.which, gen) := by
  unfold walk at h
  split_ifs at h
  · rw [List.mem_singleton.mp h]
    rfl
  · cases h

theorem array_of_hit (h : j ∈ hit u gen k) : j.array = some (u.which, gen) := by
  unfold hit at h
  cases u with
  | redirect url | apply url | sets url name =>
    rw [List.mem_singleton.mp h]
    rfl

/-- A section that reads an array is followed by sections that read it. -/
theorem runSection_read (who : Identity) (x : Choice) (s : Shared) (h : i.array = some (w, gen)) : ∃ k next,
    runSection who i x s = readElement s w gen k next ∧ ∀ j ∈ next s, j.array = some (w, gen) := by
  cases i with
  | load u | edit w file => cases h
  | scope u g n k =>
    obtain ⟨rfl, rfl⟩ := Prod.mk.inj (Option.some.inj h)
    refine ⟨k, afterScope who u g n k, rfl, fun j hj => ?_⟩
    unfold afterScope at hj
    split at hj
    · cases hj
    · split_ifs at hj
      · rw [List.mem_singleton.mp hj]
        rfl
      · exact array_of_walk hj
  | pattern u g n k =>
    obtain ⟨rfl, rfl⟩ := Prod.mk.inj (Option.some.inj h)
    refine ⟨k, afterPattern u g n k, rfl, fun j hj => ?_⟩
    unfold afterPattern at hj
    split at hj
    · cases hj
    · split_ifs at hj
      · exact array_of_hit hj
      · exact array_of_walk hj
  | target u g k =>
    obtain ⟨rfl, rfl⟩ := Prod.mk.inj (Option.some.inj h)
    exact ⟨k, fun _ => [], rfl, fun j hj => absurd hj List.not_mem_nil⟩
  | line u g k l =>
    obtain ⟨rfl, rfl⟩ := Prod.mk.inj (Option.some.inj h)
    refine ⟨k, afterLine u g k l, rfl, fun j hj => ?_⟩
    unfold afterLine at hj
    split at hj
    · cases hj
    · split at hj
      · split_ifs at hj
        · cases hj
        · rw [List.mem_singleton.mp hj]
          rfl
      · rw [List.mem_singleton.mp hj]
        rfl

/-- What a load does to the readers. -/
theorem held_load (h : Held s (.load u ::ₘ P)) (hund : Undisturbed s P (.load u) x) :
    Held (s.load x u.which)
      (walk u ((s.load x u.which).gen u.which) ((s.load x u.which).count u.which) 0 + P) := by
  refine ⟨fun j hj w g hw => ?_, fun r hr => h.sound r (reads_load ▸ hr)⟩
  rcases Multiset.mem_add.mp hj with hj | hj
  · rw [array_of_walk (Multiset.mem_coe.mp hj)] at hw
    obtain ⟨rfl, rfl⟩ := Prod.mk.inj (Option.some.inj hw)
    rfl
  · have hcur := h.current j (Multiset.mem_cons_of_mem hj) w g hw
    rw [gen_load]
    split_ifs with hrel
    · obtain ⟨rfl, hrel⟩ := hrel
      exact absurd hw (hund u rfl hrel j hj g)
    · exact hcur

/-- A read of an array that is there is sound, and leaves the arrays as they are. -/
theorem held_read (h : Held s (i ::ₘ P)) (harr : i.array = some (w, gen)) :
    Held (runSection who i x s).1 ((runSection who i x s).2 + P) := by
  have hgen := h.current i (Multiset.mem_cons_self i P) w gen harr
  obtain ⟨k, next, hrun, hnext⟩ := runSection_read who x s harr
  rw [hrun]
  have hnote : ∀ w', (s.note w gen k).gen w' = s.gen w' := fun w' => by cases w' <;> rfl
  refine ⟨fun j hj w' g hw => ?_, fun r hr => ?_⟩
  · rw [show (readElement s w gen k next).1 = s.note w gen k from rfl, hnote]
    rcases Multiset.mem_add.mp hj with hj | hj
    · have hj' : j ∈ next s := by simpa [readElement, hgen] using hj
      rw [hnext j hj'] at hw
      obtain ⟨rfl, rfl⟩ := Prod.mk.inj (Option.some.inj hw)
      exact hgen
    · exact h.current j (Multiset.mem_cons_of_mem hj) w' g hw
  · rcases List.mem_cons.mp hr with rfl | hr
    · simp [hgen]
    · exact h.sound r hr

/-- **One section.** -/
theorem held_section (h : Held s (i ::ₘ P)) (hund : Undisturbed s P i x)
    (hsec : (readers who).sec i x s = some (s', new)) : Held s' (new + P) := by
  obtain ⟨rfl, rfl⟩ := Prod.mk.inj (Option.some.inj hsec)
  cases harr : i.array with
  | some a =>
    obtain ⟨w, gen⟩ := a
    exact held_read h harr
  | none =>
    cases i with
    | scope u g n k | pattern u g n k | target u g k | line u g k l => cases harr
    | load u => exact held_load h hund
    | edit w file =>
      have hedit : ∀ w', (s.edit file w).gen w' = s.gen w' := fun w' => by
        cases w <;> cases w' <;> rfl
      refine ⟨fun j hj w' g hw => ?_, fun r hr => h.sound r ?_⟩
      · show g = (s.edit file w).gen w'
        rw [hedit]
        refine h.current j (Multiset.mem_cons_of_mem ?_) w' g hw
        simpa [runSection] using hj
      · cases w <;> exact hr

end Steps

/-- Threads with nothing to run. -/
def idle (s : Shared) (threads : ℕ) : Threads Shared Section :=
  { shared := s, others := List.replicate threads [] }

theorem all_idle (s : Shared) (threads : ℕ) : (idle s threads).all = 0 := by
  simp [idle, Threads.all, Threads.pending]

/-- A thread whose array is freed under it reads freed memory next. -/
theorem reads_freed {who : Identity} {s : Shared} {u : Use} {P : Multiset Section} {j : Section}
    {x : Choice} {gen : ℕ} (h : Held s (.load u ::ₘ P)) (hrel : s.reloads u.which x.now = true)
    (hj : j ∈ P) (harr : j.array = some (u.which, gen)) (y : Choice) :
    ∃ r ∈ (runSection who j y (s.load x u.which)).1.reads, r.freed = true := by
  have hgen := h.current j (Multiset.mem_cons_of_mem hj) u.which gen harr
  obtain ⟨k, next, hrun, -⟩ := runSection_read who y (s.load x u.which) harr
  rw [hrun]
  refine ⟨_, List.mem_cons_self, ?_⟩
  show decide (gen ≠ (s.load x u.which).gen u.which) = true
  rw [gen_load, if_pos ⟨rfl, hrel⟩, hgen, decide_eq_true_iff]
  omega

/-- **Rules and their readers.**  In a run of any number of callers and editors in which no array is
freed while a thread reads it, everything read is of an array that has not been freed since the
reader was given it; and where one is freed under a reader, the reader's next read is of freed
memory. -/
theorem reads_sound (who : Identity) {s : Shared} (hs : s.reads = []) {threads : ℕ}
    {evs : List (Threads.Label Choice Call)} {t : Threads Shared Section}
    (h : Path (fun t l t' => (readers who).step t l = some t' ∧ Code.MeetsAll Undisturbed t l)
      (idle s threads) evs t) :
    (∀ r ∈ t.shared.reads, r.freed = false) ∧
      ∀ u P x, t.all = .load u ::ₘ P → t.shared.reloads u.which x.now = true →
        ∀ j ∈ P, ∀ gen, j.array = some (u.which, gen) → ∀ y,
          ∃ r ∈ (runSection who j y (t.shared.load x u.which)).1.reads, r.freed = true := by
  have hheld : Held t.shared t.all := by
    refine h.invariant (I := fun t => Held t.shared t.all) ?_ ?_
    · intro t l t' hI hstep
      refine Code.invariant_meets (J := Held) ?_ ?_ hstep.1 hstep.2 hI
      · intro s P c hJ
        refine ⟨fun j hj w g hw => ?_, hJ.sound⟩
        rcases Multiset.mem_add.mp hj with hj | hj
        · cases c with
          | use u | edit w file =>
            rw [List.mem_singleton.mp (Multiset.mem_coe.mp hj)] at hw
            cases hw
        · exact hJ.current j hj w g hw
      · intro s i P x s' new hJ hund hsec
        exact held_section hJ hund hsec
    · rw [all_idle]
      refine ⟨fun j hj => absurd hj (Multiset.notMem_zero j), fun r hr => ?_⟩
      rw [show (idle s threads).shared.reads = [] from hs] at hr
      cases hr
  refine ⟨hheld.sound, fun u P x hall hrel j hj gen harr y => ?_⟩
  exact reads_freed (hall ▸ hheld) hrel hj harr y

def oneRedirect (mtime : ℕ) : RuleFile :=
  ⟨mtime, [[cstr "*", cstr "https://a.example/", cstr "https://b.example/"]]⟩

def aRequest : Call := .use (.redirect (cstr "https://a.example/x"))

/-- One thread has the array, the file is edited, and the next request is another thread's. -/
def editedDuringWalk : List (Threads.Label Choice Call) :=
  [.call 0 aRequest, .run 0 {}, .call 1 (.edit .redirects (some (oneRedirect 2))), .run 1 {},
    .call 1 aRequest, .run 1 { now := 1 }, .run 0 {}]

theorem editedDuringWalk_runs :
    (exec (readers {}).step (idle { redirectsFile := some (oneRedirect 1) } 2)
      editedDuringWalk).isSome := by
  decide

theorem read_after_free : ¬ ∀ who s threads evs t, s.reads = [] →
    Path (fun t l t' => (readers who).step t l = some t') (idle s threads) evs t →
      ∀ r ∈ t.shared.reads, r.freed = false := by
  intro h
  have hall := h {} _ 2 editedDuringWalk _ rfl (exec_path_get editedDuringWalk_runs)
  exact absurd hall (by decide)

/-- The condition on a list of what else is to run. -/
def undisturbed (s : Shared) (rest : List Section) (i : Section) (x : Choice) : Bool :=
  match i with
  | .load u => !s.reloads u.which x.now || rest.all fun j => j.array.map Prod.fst ≠ some u.which
  | _ => true

theorem undisturbed_of {s : Shared} {rest : List Section} {i : Section} {x : Choice}
    (h : undisturbed s rest i x = true) : Undisturbed s rest i x := by
  rintro u rfl hrel j hj gen harr
  simp only [undisturbed, hrel, Bool.not_true, Bool.false_or, List.all_eq_true] at h
  simpa [harr] using h j (Multiset.mem_coe.mp hj)

/-- The walk is over when the other thread comes. -/
def editedAfterWalk : List (Threads.Label Choice Call) :=
  [.call 0 aRequest, .run 0 {}, .call 1 (.edit .redirects (some (oneRedirect 2))), .run 1 {},
    .run 0 {}, .run 0 {}, .run 0 {}, .call 1 aRequest, .run 1 { now := 1 }, .run 1 {}]

theorem editedAfterWalk_runs :
    (exec ((readers {}).stepWhere undisturbed) (idle { redirectsFile := some (oneRedirect 1) } 2)
      editedAfterWalk).isSome := by
  decide +kernel

theorem reads_sound_editedAfterWalk :
    let t := (exec ((readers {}).stepWhere undisturbed)
      (idle { redirectsFile := some (oneRedirect 1) } 2) editedAfterWalk).get editedAfterWalk_runs
    (∀ r ∈ t.shared.reads, r.freed = false) ∧ t.shared.reads.length = 4 := by
  have h := reads_sound {} (s := { redirectsFile := some (oneRedirect 1) }) rfl
    ((exec_path_get editedAfterWalk_runs).mono_mem fun _ _ _ _ =>
      Code.of_stepWhere fun _ _ _ _ => undisturbed_of)
  exact ⟨h.1, by decide +kernel⟩

end AquaTransport.Rewrite
