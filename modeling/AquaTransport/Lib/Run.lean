import Mathlib.Logic.Basic

/-!
# AquaTransport.Lib.Run — runs of labelled transition systems, and their histories

`Path step s evs t`: the events `evs`, oldest first, take `s` to `t`.  `exec` runs a partial step
function over a list of events, and `exec_path` turns such a run into a `Path`.

A system that records what it does keeps its history newest first.  `Along P h` says that every
entry `x` of `h` satisfies `P past x`, where `past` is the history before `x`.
-/

namespace AquaTransport

variable {σ ε α β : Type*}

/-- The events `evs`, oldest first, lead from one state to another. -/
inductive Path (step : σ → ε → σ → Prop) : σ → List ε → σ → Prop
  | nil (s : σ) : Path step s [] s
  | cons {s t u : σ} {e : ε} {evs : List ε} : step s e t → Path step t evs u →
      Path step s (e :: evs) u

namespace Path

variable {step : σ → ε → σ → Prop}

/-- What every step keeps, on the events of the run, holds at its end when it holds at its start. -/
theorem invariant_mem {I : σ → Prop} {s t : σ} {evs : List ε} (h : Path step s evs t)
    (hstep : ∀ s e t, e ∈ evs → I s → step s e t → I t) (hs : I s) : I t := by
  induction h with
  | nil _ => exact hs
  | cons h1 _ ih =>
    exact ih (fun s e t he => hstep s e t (List.mem_cons_of_mem _ he))
      (hstep _ _ _ List.mem_cons_self hs h1)

/-- What every step keeps holds at the end of a run that starts with it. -/
theorem invariant {I : σ → Prop} (hstep : ∀ s e t, I s → step s e t → I t) {s t : σ}
    {evs : List ε} (h : Path step s evs t) (hs : I s) : I t :=
  h.invariant_mem (fun s e t _ => hstep s e t) hs

theorem append {s t u : σ} {es fs : List ε} (h : Path step s es t) (h' : Path step t fs u) :
    Path step s (es ++ fs) u := by
  induction h with
  | nil _ => exact h'
  | cons h1 _ ih => exact .cons h1 (ih h')

/-- A run is one of another system that takes its steps too. -/
theorem mono_mem {step' : σ → ε → σ → Prop} {s t : σ} {evs : List ε} (h : Path step s evs t)
    (hm : ∀ s e t, e ∈ evs → step s e t → step' s e t) : Path step' s evs t := by
  induction h with
  | nil s => exact .nil s
  | cons h1 _ ih =>
    exact .cons (hm _ _ _ List.mem_cons_self h1)
      (ih fun s e t he => hm s e t (List.mem_cons_of_mem _ he))

end Path

/-- Run a partial step function over a list of events. -/
def exec (step : σ → ε → Option σ) : σ → List ε → Option σ
  | s, [] => some s
  | s, e :: evs => (step s e).bind fun t => exec step t evs

theorem exec_path {step : σ → ε → Option σ} {evs : List ε} {s t : σ}
    (h : exec step s evs = some t) : Path (fun s e t => step s e = some t) s evs t := by
  induction evs generalizing s with
  | nil =>
    obtain rfl : s = t := by simpa [exec] using h
    exact .nil s
  | cons e evs ih =>
    obtain ⟨u, hu, ht⟩ := Option.bind_eq_some_iff.mp h
    exact .cons hu (ih ht)

theorem exec_path_get {step : σ → ε → Option σ} {evs : List ε} {s : σ}
    (h : (exec step s evs).isSome) :
    Path (fun s e t => step s e = some t) s evs ((exec step s evs).get h) :=
  exec_path (Option.some_get h).symm

/-- Every entry of a history, newest first, satisfies `P` over the history before it. -/
def Along (P : List α → α → Prop) : List α → Prop
  | [] => True
  | x :: past => P past x ∧ Along P past

@[simp] theorem along_nil (P : List α → α → Prop) : Along P [] := trivial

@[simp] theorem along_cons {P : List α → α → Prop} {x : α} {past : List α} :
    Along P (x :: past) ↔ P past x ∧ Along P past := Iff.rfl

theorem along_iff {P : List α → α → Prop} {h : List α} :
    Along P h ↔ ∀ later x past, h = later ++ x :: past → P past x := by
  induction h with
  | nil => simp
  | cons y h ih =>
    constructor
    · rintro ⟨hy, hh⟩ later x past he
      cases later with
      | nil =>
        obtain ⟨rfl, rfl⟩ := List.cons_eq_cons.mp he
        exact hy
      | cons z later => exact ih.mp hh later x past (List.cons_eq_cons.mp he).2
    · intro hall
      refine ⟨hall [] y h rfl, ih.mpr fun later x past he => ?_⟩
      exact hall (y :: later) x past (by rw [he]; rfl)

/-- An older history. -/
theorem Along.of_append {P : List α → α → Prop} {h later : List α} (hP : Along P (later ++ h)) :
    Along P h := by
  induction later with
  | nil => exact hP
  | cons x later ih => exact ih hP.2

/-- New entries, each over those before it. -/
theorem Along.append {P : List α → α → Prop} {h later : List α} (hP : Along P h)
    (hl : ∀ l x r, later = l ++ x :: r → P (r ++ h) x) : Along P (later ++ h) := by
  induction later with
  | nil => exact hP
  | cons x later ih =>
    refine ⟨hl [] x later rfl, ih fun l y r he => hl (x :: l) y r ?_⟩
    rw [he, List.cons_append]

/-- New entries that need no more than the history before them all. -/
theorem Along.append_mem {P : List α → α → Prop} {h later : List α} (hP : Along P h)
    (hl : ∀ x ∈ later, ∀ past, P (past ++ h) x) : Along P (later ++ h) :=
  hP.append fun l x r he => hl x (he ▸ List.mem_append_right l List.mem_cons_self) r

/-- Entries that change nothing are as good as absent. -/
theorem foldr_append_of_id {f : α → β → β} {b : β} {h later : List α}
    (hl : ∀ x ∈ later, ∀ b, f x b = b) : (later ++ h).foldr f b = h.foldr f b := by
  induction later with
  | nil => rfl
  | cons x later ih =>
    show f x ((later ++ h).foldr f b) = _
    rw [hl x List.mem_cons_self, ih fun y hy => hl y (List.mem_cons_of_mem x hy)]

end AquaTransport
