import AquaTransport.Lib.Run
import AquaTransport.Rewrite.Lines
import AquaTransport.Rewrite.Reload

/-!
# AquaTransport.Rewrite.Cache — what is loaded is what the files say

`tf_redirects` and `tf_headerrules` take a file's mtime twice, before and in `read_blocks`, and `tf_flag`
takes it once; what they read stands in the file a moment later.  Files are edited, removed and made
again between the calls and between the file operations of one call.  `Fresh` is the invariant: where
the file still has the mtime that was recorded, what is loaded is what it says.
-/

namespace AquaTransport.RuleFiles

open Rewrite

/-! ### One call -/

/-- A file after some edits, the last of which counts. -/
def after (edits : List (Option File)) (disk : Option File) : Option File := edits.getLastD disk

/-- The rules of a file, none where there is no file. -/
def rulesOf {ρ : Type} (parse : List Chars → Option ρ) (file : Option File) : List ρ :=
  ((file.map fun f => readLoop f.content).getD []).filterMap parse

/-- `!gRedLoaded || recheck_due(&gRedCheck)` -/
def due {ρ : Type} (t : Rewrite.Table ρ) (now : ℕ) : Bool := !t.loaded || now ≠ t.check

/-- Nothing is loaded yet, the file has another mtime, or it is gone and rules are there. -/
def reloads {ρ : Type} (t : Rewrite.Table ρ) (atStat : Option File) : Bool :=
  !t.loaded || match atStat with
    | some f => f.mtime ≠ t.mtime
    | none => !t.rules.isEmpty

/-- `tf_redirects` and `tf_headerrules` on a file that is edited between `stat_mtime` and `read_blocks`
and, where the `stat` of `read_blocks` finds it, before its `fopen`: the table, and the file as the last
of these operations finds it. -/
def tfRules {ρ : Type} (parse : List Chars → Option ρ) (t : Rewrite.Table ρ) (now : ℕ) (disk : Option File)
    (edits edits' : List (Option File)) : Rewrite.Table ρ × Option File :=
  if due t now then
    let check := if t.loaded then now else t.check
    if reloads t disk then
      let atStat := after edits disk
      let atOpen := if atStat.isSome then after edits' atStat else atStat
      let found := readBlocks atStat atOpen
      ({ rules := (found.1.getD []).filterMap parse
         gen := t.gen + 1
         loaded := true
         mtime := found.2
         check := check }, atOpen)
    else ({ t with check := check }, disk)
  else (t, disk)

def tfRedirects := tfRules redirectOf
def tfHeaderrules := tfRules headerruleOf

/-- `tf_flag` is asked for a flag. -/
def asks (name : Option Chars) : Bool := name.any fun name => name ≠ []

/-- `tf_flag` on a file that is edited between its `stat` and its `fopen`. -/
def tfFlagOn (t : FlagTable) (now : ℕ) (disk : Option File) (edits : List (Option File))
    (name : Option Chars) : FlagTable × Option File :=
  ((tfFlag t now disk (after edits disk) name).1,
    if asks name && t.due now && t.reloads disk then after edits disk else disk)

section OneCall

variable {ρ : Type} {parse : List Chars → Option ρ} {t : Rewrite.Table ρ} {now : ℕ} {disk : Option File}
  {edits edits' : List (Option File)}

/-- A rule file as the readers of the tables see it. -/
def cut (f : File) : RuleFile := ⟨f.mtime, readLoop f.content⟩

/-- A call whose file is not edited behind the second `stat` is a load of the table by the file as
`read_blocks` cuts it up. -/
theorem tfRules_eq_load :
    (tfRules parse t now disk edits []).1 =
      t.load parse (disk.map cut) { now := now, edited := some ((after edits disk).map cut) } := by
  have hrel : t.reloads (disk.map cut) now = (due t now && reloads t disk) := by
    unfold Rewrite.Table.reloads due reloads
    cases t.loaded <;> cases disk <;> simp [cut]
  unfold tfRules Rewrite.Table.load
  dsimp only
  rw [hrel]
  by_cases hdue : due t now = true
  · rw [if_pos hdue, hdue, Bool.true_and]
    by_cases hr : reloads t disk = true
    · rw [if_pos hr, if_pos hr, Option.getD_some]
      cases after edits disk <;> rfl
    · rw [if_neg hr, if_neg hr]
  · rw [if_neg hdue, if_neg (by simp [hdue])]
    have hloaded : t.loaded = true := by
      by_contra h
      simp [due, h] at hdue
    have hnow : now = t.check := by
      simpa [due, hloaded] using hdue
    rw [if_pos hloaded, hnow]

/-- What a table says of the present file, where the mtime has not changed. -/
def FreshRules (parse : List Chars → Option ρ) (t : Rewrite.Table ρ) (disk : Option File) : Prop :=
  ∀ f, disk = some f → t.loaded = true → f.mtime = t.mtime → t.rules = rulesOf parse (some f)

theorem of_not_reloads (h : ¬ reloads t disk = true) : t.loaded = true ∧
    (∀ f, disk = some f → f.mtime = t.mtime) ∧ (disk = none → t.rules = []) := by
  unfold reloads at h
  cases hl : t.loaded with
  | false => simp [hl] at h
  | true =>
    cases disk with
    | none => exact ⟨rfl, fun f hf => absurd hf (by simp), fun _ => by simpa [hl] using h⟩
    | some f =>
      refine ⟨rfl, fun g hg => ?_, fun hn => absurd hn (by simp)⟩
      obtain rfl := Option.some.inj hg
      simpa [hl] using h

/-- **A call**: without a check it leaves all as it is; a check makes the rules those of the file. -/
theorem tfRules_spec (h : FreshRules parse t disk) :
    let r := tfRules parse t now disk edits edits'
    FreshRules parse r.1 r.2 ∧
      (due t now = true → r.1.rules = rulesOf parse r.2) ∧ (due t now = false → r = (t, disk)) := by
  unfold tfRules
  dsimp only
  by_cases hdue : due t now = true
  · have hno : ∀ {P : Prop}, due t now = false → P := fun h => by
      rw [hdue] at h
      cases h
    rw [if_pos hdue]
    by_cases hr : reloads t disk = true
    · -- a reload reads the rules of the file that it opens, or finds none at its second `stat`
      rw [if_pos hr]
      dsimp only
      cases hstat : after edits disk with
      | none => exact ⟨fun f hf => absurd hf (by simp), fun _ => rfl, hno⟩
      | some st =>
        rw [Option.isSome_some, if_pos rfl]
        exact ⟨fun f hf _ _ => hf ▸ rfl, fun _ => rfl, hno⟩
    · obtain ⟨hloaded, hsame, hgone⟩ := of_not_reloads hr
      rw [if_neg hr]
      refine ⟨fun f hf hl hm => h f hf hl hm, fun _ => ?_, hno⟩
      cases hd : disk with
      | none => exact hgone hd
      | some f => exact h f hd hloaded (hsame f hd)
  · rw [if_neg hdue]
    exact ⟨h, fun h => absurd h hdue, fun _ => rfl⟩

/-! ### The flags -/

variable {u : FlagTable} {name : Option Chars}

def namesOf (file : Option File) : List Chars := (file.map fun f => flagNames f.content).getD []

def FreshFlags (t : FlagTable) (disk : Option File) : Prop :=
  ∀ f, disk = some f → t.loaded = true → f.mtime = t.mtime → t.names = namesOf (some f)

theorem FlagTable.of_not_reloads (h : ¬ u.reloads disk = true) : u.loaded = true ∧
    (∀ f, disk = some f → f.mtime = u.mtime) ∧ (disk = none → u.names = []) := by
  unfold FlagTable.reloads at h
  cases hl : u.loaded with
  | false => simp [hl] at h
  | true =>
    cases disk with
    | none => exact ⟨rfl, fun f hf => absurd hf (by simp), fun _ => by simpa [hl] using h⟩
    | some f =>
      refine ⟨rfl, fun g hg => ?_, fun hn => absurd hn (by simp)⟩
      obtain rfl := Option.some.inj hg
      simpa [hl] using h

theorem tfFlagOn_spec (h : FreshFlags u disk) :
    let r := tfFlagOn u now disk edits name
    FreshFlags r.1 r.2 ∧ ((asks name && u.due now) = true → r.1.names = namesOf r.2) ∧
      ((asks name && u.due now) = false → r = (u, disk)) := by
  unfold tfFlagOn
  dsimp only
  match name with
  | none | some [] => exact ⟨h, fun h => absurd h Bool.false_ne_true, fun _ => rfl⟩
  | some (c :: cs) =>
    rw [show asks (some (c :: cs)) = true from rfl, Bool.true_and]
    rw [show (tfFlag u now disk (after edits disk) (some (c :: cs))).1 =
      if u.due now = true then u.recheck now disk (after edits disk) else u from rfl]
    cases hdue : u.due now with
    | false => exact ⟨h, fun h => (by cases h), fun _ => rfl⟩
    | true =>
      have hno : ∀ {P : Prop}, true = false → P := fun h => by cases h
      rw [if_pos rfl, Bool.true_and]
      unfold FlagTable.recheck
      dsimp only
      by_cases hr : u.reloads disk = true
      · rw [if_pos hr, if_pos hr]
        exact ⟨fun f hf _ _ => hf ▸ rfl, fun _ => rfl, hno⟩
      · obtain ⟨hloaded, hsame, hgone⟩ := FlagTable.of_not_reloads hr
        rw [if_neg hr, if_neg hr]
        refine ⟨fun f hf hl hm => h f hf hl hm, fun _ => ?_, hno⟩
        cases hd : disk with
        | none => exact hgone hd
        | some f => exact h f hd hloaded (hsame f hd)

end OneCall

/-! ### Runs -/

inductive Name
  | redirects
  | headers
  | flags

/-- The files and what is loaded of them. -/
structure World where
  redirectsFile : Option File := none
  headersFile : Option File := none
  flagsFile : Option File := none
  redirects : Rewrite.Table TfRedirect := {}
  headerrules : Rewrite.Table TfHeaderrule := {}
  flags : FlagTable := {}

inductive Event
  /-- A file is edited, made or removed between the calls. -/
  | edit (w : Name) (file : Option File)
  | redirects (now : ℕ) (edits edits' : List (Option File))
  | headerrules (now : ℕ) (edits edits' : List (Option File))
  | flag (name : Option Chars) (now : ℕ) (edits : List (Option File))

/-- What is loaded of a file, and what a parse makes of it. -/
inductive Parsed
  | redirects (rules : List TfRedirect)
  | headers (rules : List TfHeaderrule)
  | flags (names : List Chars)

def parsed : Name → Option File → Parsed
  | .redirects, file => .redirects (rulesOf redirectOf file)
  | .headers, file => .headers (rulesOf headerruleOf file)
  | .flags, file => .flags (namesOf file)

namespace World

def file (s : World) : Name → Option File
  | .redirects => s.redirectsFile
  | .headers => s.headersFile
  | .flags => s.flagsFile

def cached (s : World) : Name → Parsed
  | .redirects => .redirects s.redirects.rules
  | .headers => .headers s.headerrules.rules
  | .flags => .flags s.flags.names

/-- The mtime last recorded. -/
def recorded (s : World) : Name → Option ℕ
  | .redirects => if s.redirects.loaded then some s.redirects.mtime else none
  | .headers => if s.headerrules.loaded then some s.headerrules.mtime else none
  | .flags => if s.flags.loaded then some s.flags.mtime else none

def step (s : World) : Event → World
  | .edit .redirects file => { s with redirectsFile := file }
  | .edit .headers file => { s with headersFile := file }
  | .edit .flags file => { s with flagsFile := file }
  | .redirects now edits edits' =>
    let r := tfRedirects s.redirects now s.redirectsFile edits edits'
    { s with redirects := r.1, redirectsFile := r.2 }
  | .headerrules now edits edits' =>
    let r := tfHeaderrules s.headerrules now s.headersFile edits edits'
    { s with headerrules := r.1, headersFile := r.2 }
  | .flag name now edits =>
    let r := tfFlagOn s.flags now s.flagsFile edits name
    { s with flags := r.1, flagsFile := r.2 }

/-- The event is a call that checks the file. -/
def checks (s : World) : Event → Name → Bool
  | .redirects now _ _, .redirects => due s.redirects now
  | .headerrules now _ _, .headers => due s.headerrules now
  | .flag name now _, .flags => (asks name && s.flags.due now)
  | _, _ => false

/-- A change gives the file another mtime than the one last recorded. -/
def Noticed (s : World) : Event → Prop
  | .edit w file => ∀ f, file = some f → s.recorded w ≠ some f.mtime
  | _ => True

/-- Nothing is loaded. -/
def Unloaded (s : World) : Prop := ∀ w, s.recorded w = none

/-- Where the file has the mtime that was recorded, what is loaded is what it says. -/
def Fresh (s : World) : Prop :=
  ∀ w f, s.file w = some f → s.recorded w = some f.mtime → s.cached w = parsed w (some f)

variable {s t : World} {e : Event} {w : Name}

theorem Fresh.redirects (h : s.Fresh) : FreshRules redirectOf s.redirects s.redirectsFile := by
  intro f hf hl hm
  have hc := h .redirects f hf (by rw [recorded, if_pos hl, hm])
  exact Parsed.redirects.inj hc

theorem Fresh.headers (h : s.Fresh) : FreshRules headerruleOf s.headerrules s.headersFile := by
  intro f hf hl hm
  have hc := h .headers f hf (by rw [recorded, if_pos hl, hm])
  exact Parsed.headers.inj hc

theorem Fresh.flags (h : s.Fresh) : FreshFlags s.flags s.flagsFile := by
  intro f hf hl hm
  have hc := h .flags f hf (by rw [recorded, if_pos hl, hm])
  exact Parsed.flags.inj hc

theorem loaded_of_some {loaded : Bool} {m m' : ℕ}
    (h : (if loaded = true then some m else none) = some m') : loaded = true ∧ m = m' := by
  cases loaded with
  | false => cases h
  | true => exact ⟨rfl, Option.some.inj h⟩

/-- The three facts of which `Fresh` is made. -/
theorem fresh_of (hr : FreshRules redirectOf s.redirects s.redirectsFile)
    (hh : FreshRules headerruleOf s.headerrules s.headersFile)
    (hf : FreshFlags s.flags s.flagsFile) : s.Fresh := by
  intro w f hfile hrec
  cases w with
  | redirects =>
    obtain ⟨hl, hm⟩ := loaded_of_some hrec
    exact congrArg Parsed.redirects (hr f hfile hl hm.symm)
  | headers =>
    obtain ⟨hl, hm⟩ := loaded_of_some hrec
    exact congrArg Parsed.headers (hh f hfile hl hm.symm)
  | flags =>
    obtain ⟨hl, hm⟩ := loaded_of_some hrec
    exact congrArg Parsed.flags (hf f hfile hl hm.symm)

/-- **One event.** -/
theorem fresh_step (h : s.Fresh) (he : s.Noticed e) : (s.step e).Fresh := by
  cases e with
  | edit w file =>
    -- the edited file has another mtime, and the other two are as they were
    intro w' f hfile hrec
    have hsame : ∀ w', (s.step (.edit w file)).recorded w' = s.recorded w' ∧
        (s.step (.edit w file)).cached w' = s.cached w' := by
      intro w'
      cases w <;> cases w' <;> exact ⟨rfl, rfl⟩
    rw [(hsame w').1] at hrec
    rw [(hsame w').2]
    by_cases hw : w' = w
    · subst hw
      have hdisk : (s.step (.edit w' file)).file w' = file := by cases w' <;> rfl
      rw [hdisk] at hfile
      exact absurd hrec (he f hfile)
    · have hdisk : (s.step (.edit w file)).file w' = s.file w' := by
        cases w <;> cases w' <;> first | rfl | exact absurd rfl hw
      rw [hdisk] at hfile
      exact h w' f hfile hrec
  | redirects now edits edits' => exact fresh_of (tfRules_spec h.redirects).1 h.headers h.flags
  | headerrules now edits edits' => exact fresh_of h.redirects (tfRules_spec h.headers).1 h.flags
  | flag name now edits => exact fresh_of h.redirects h.headers (tfFlagOn_spec h.flags).1

theorem step_checks (h : s.Fresh) (hc : s.checks e w = true) :
    (s.step e).cached w = parsed w ((s.step e).file w) := by
  cases e with
  | edit w' file => cases w <;> cases hc
  | redirects now edits edits' =>
    cases w with
    | redirects => exact congrArg Parsed.redirects ((tfRules_spec h.redirects).2.1 hc)
    | headers | flags => cases hc
  | headerrules now edits edits' =>
    cases w with
    | headers => exact congrArg Parsed.headers ((tfRules_spec h.headers).2.1 hc)
    | redirects | flags => cases hc
  | flag name now edits =>
    cases w with
    | flags => exact congrArg Parsed.flags ((tfFlagOn_spec h.flags).2.1 hc)
    | redirects | headers => cases hc

theorem step_keeps (h : s.Fresh) (hc : s.checks e w = false) : (s.step e).cached w = s.cached w := by
  cases e with
  | edit w' file => cases w' <;> cases w <;> rfl
  | redirects now edits edits' =>
    cases w with
    | redirects =>
      have hr : tfRedirects s.redirects now s.redirectsFile edits edits' =
          (s.redirects, s.redirectsFile) := (tfRules_spec h.redirects).2.2 hc
      exact congrArg (fun r => Parsed.redirects r.1.rules) hr
    | headers | flags => rfl
  | headerrules now edits edits' =>
    cases w with
    | headers =>
      have hr : tfHeaderrules s.headerrules now s.headersFile edits edits' =
          (s.headerrules, s.headersFile) := (tfRules_spec h.headers).2.2 hc
      exact congrArg (fun r => Parsed.headers r.1.rules) hr
    | redirects | flags => rfl
  | flag name now edits =>
    cases w with
    | flags =>
      have hr : tfFlagOn s.flags now s.flagsFile edits name = (s.flags, s.flagsFile) :=
        (tfFlagOn_spec h.flags).2.2 hc
      exact congrArg (fun r => Parsed.flags r.1.names) hr
    | redirects | headers => rfl

end World

/-- **Cached rules are a fresh parse.**  In every run from unloaded tables whose edits between the
calls change the mtime, a call that checks its file leaves what a parse of the file gives, however the
file was edited before the call's last look at it; and until the next check nothing changes what is
loaded, so that a call without one returns what the last check left. -/
theorem cached_fresh {s t : World} {evs : List Event} (hs : s.Unloaded)
    (h : Path (fun s e t => s.Noticed e ∧ t = s.step e) s evs t) :
    (∀ e w, t.checks e w = true → (t.step e).cached w = parsed w ((t.step e).file w)) ∧
    ∀ w evs' u, Path (fun s e t => (s.Noticed e ∧ t = s.step e) ∧ s.checks e w = false) t evs' u →
      u.cached w = t.cached w := by
  have hfresh : t.Fresh := by
    refine h.invariant (I := World.Fresh) ?_ ?_
    · rintro s e t hI ⟨hn, rfl⟩
      exact World.fresh_step hI hn
    · intro w f _ hrec
      rw [hs w] at hrec
      cases hrec
  refine ⟨fun e w hc => World.step_checks hfresh hc, fun w evs' u hp => ?_⟩
  refine (hp.invariant (I := fun u => u.Fresh ∧ u.cached w = t.cached w) ?_ ⟨hfresh, rfl⟩).2
  rintro s e u ⟨hF, hc⟩ ⟨⟨hn, rfl⟩, hno⟩
  exact ⟨World.fresh_step hF hn, (World.step_keeps hF hno).trans hc⟩

def rules (host : String) : Chars := cstr ("*\nhttp://" ++ host ++ "/\nhttps://" ++ host ++ "/\n")

/-- A file that is read, removed and made again. -/
def remade : List Event :=
  [.edit .redirects (some ⟨7, rules "a"⟩), .redirects 10 [] [], .edit .redirects none,
    .edit .redirects (some ⟨8, rules "b"⟩)]

/-- It is edited once more before the call's second look. -/
def editedBetween : Event := .redirects 11 [some ⟨9, rules "c"⟩] []

theorem cached_fresh_remade :
    ((remade.foldl World.step {}).step editedBetween).cached .redirects =
      parsed .redirects (some ⟨9, rules "c"⟩) := by
  have hrun : Path (fun s e t => s.Noticed e ∧ t = s.step e) {} remade
      (remade.foldl World.step {}) := by
    refine .cons ⟨?_, rfl⟩ (.cons ⟨trivial, rfl⟩ (.cons ⟨?_, rfl⟩ (.cons ⟨?_, rfl⟩ (.nil _))))
    · exact fun f _ h => by cases h
    · exact fun f h => by cases h
    · rintro f hf h
      obtain rfl := Option.some.inj hf
      exact absurd (Option.some.inj h) (by decide)
  exact (cached_fresh (fun w => by cases w <;> rfl) hrun).1 editedBetween .redirects rfl

end AquaTransport.RuleFiles
