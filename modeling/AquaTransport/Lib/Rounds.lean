import AquaTransport.Lib.Run
import Mathlib.Data.Set.Basic
import Mathlib.Logic.Function.Basic

/-!
# AquaTransport.Lib.Rounds — stations that decide on what they last heard

Every station `v` has a claim of its own and, for every other station `u`, perhaps the claim it last
heard from `u`.  In any order, a station hears another one's claim of that moment, or drops some of
what it heard and makes a new claim, any one that `E v` allows on what is left.

A *round* is a stretch of a run in which every station decides and then everyone hears every
neighbour, with whatever else happens in between.  `Contracts.leads` is the one argument that results
about such runs need: when a decision taken on claims in `P k` is in `P (k + 1)`, and these shrink, then
`n` rounds take any state in `P 0` to one in `P n`, for good.
-/

namespace AquaTransport

/-- A step that brings `J` about, in a run that keeps it, leaves it true at the end. -/
theorem Path.settles {σ ε : Type*} {step : σ → ε → σ → Prop} {I J : σ → Prop} {s t : σ}
    {evs : List ε} {e : ε} (h : Path step s evs t) (he : e ∈ evs) (hs : I s)
    (hI : ∀ s x t, x ∈ evs → I s → step s x t → I t) (hset : ∀ s t, I s → step s e t → J t)
    (hkeep : ∀ s x t, x ∈ evs → I s → J s → step s x t → J t) : J t := by
  induction h with
  | nil => exact absurd he List.not_mem_nil
  | @cons s u t x evs h1 h2 ih =>
    have hu : I u := hI _ _ _ List.mem_cons_self hs h1
    have hI' : ∀ s x t, x ∈ evs → I s → step s x t → I t := fun s x t hx =>
      hI s x t (List.mem_cons_of_mem _ hx)
    have hkeep' : ∀ s x t, x ∈ evs → I s → J s → step s x t → J t := fun s x t hx =>
      hkeep s x t (List.mem_cons_of_mem _ hx)
    rcases List.mem_cons.mp he with rfl | he
    · have hJ := h2.invariant_mem (I := fun s => I s ∧ J s)
        (fun s x t hx hs h => ⟨hI' s x t hx hs.1 h, hkeep' s x t hx hs.1 hs.2 h⟩) ⟨hu, hset _ _ hs h1⟩
      exact hJ.2
    · exact ih he hu hI' hkeep'

/-- The two parts of a run. -/
theorem Path.split {σ ε : Type*} {step : σ → ε → σ → Prop} {s t : σ} {es fs : List ε}
    (h : Path step s (es ++ fs) t) : ∃ u, Path step s es u ∧ Path step u fs t := by
  induction es generalizing s with
  | nil => exact ⟨s, .nil s, h⟩
  | cons e es ih =>
    cases h with
    | cons h1 h2 =>
      obtain ⟨u, hu1, hu2⟩ := ih h2
      exact ⟨u, .cons h1 hu1, hu2⟩

/-- What every station claims, and what it last heard from each of the others. -/
structure Rounds (V C : Type*) where
  own : V → C
  heard : V → V → Option C

namespace Rounds

variable {V C : Type*}

inductive Act (V : Type*)
  | hear (v u : V)
  /-- `v` forgets the stations of `drop`, and decides. -/
  | decide (v : V) (drop : Set V)
  | idle

section Steps

variable [DecidableEq V] (E : V → (V → Option C) → C → Prop)

inductive Step : Rounds V C → Act V → Rounds V C → Prop
  | hear (s : Rounds V C) (v u : V) : Step s (.hear v u)
      { s with heard := Function.update s.heard v (Function.update (s.heard v) u (some (s.own u))) }
  | decide {s : Rounds V C} {v : V} {drop : Set V} {T : V → Option C} {c : C}
      (hdrop : ∀ u ∈ drop, T u = none) (hkeep : ∀ u, u ∉ drop → T u = s.heard v u) (hE : E v T c) :
      Step s (.decide v drop)
        { own := Function.update s.own v c, heard := Function.update s.heard v T }
  | idle (s : Rounds V C) : Step s .idle s

end Steps

section Boxes

variable (St : Set V) (adj : V → V → Prop)

/-- Only neighbours are heard, and a decision forgets none. -/
def Fair : Act V → Prop
  | .hear v u => adj v u
  | .decide v drop => ∀ u, adj v u → u ∉ drop
  | .idle => True

/-- Every station has heard its neighbours, and nobody else. -/
def Covers (s : Rounds V C) : Prop := ∀ v ∈ St, ∀ u, (s.heard v u).isSome ↔ adj v u

/-- Every claim that is made, or remembered, is in `P`. -/
structure Within (P : V → C → Prop) (s : Rounds V C) : Prop where
  own : ∀ v ∈ St, P v (s.own v)
  heard : ∀ v ∈ St, ∀ u c, s.heard v u = some c → P u c

/-- A decision taken on neighbours' claims in `P` is in `Q`, which is a part of `P`. -/
structure Contracts (E : V → (V → Option C) → C → Prop) (P Q : V → C → Prop) : Prop where
  le : ∀ v c, Q v c → P v c
  decide : ∀ v ∈ St, ∀ T c, (∀ u, (T u).isSome ↔ adj v u) → (∀ u d, T u = some d → P u d) →
    E v T c → Q v c

/-- Every station decides, and then hears every neighbour. -/
def Round (acts : List (Act V)) : Prop :=
  ∃ as bs, acts = as ++ bs ∧ (∀ v ∈ St, ∃ drop, .decide v drop ∈ as) ∧
    ∀ v ∈ St, ∀ u, adj v u → .hear v u ∈ bs

/-- `n` rounds, one after another, and anything after them. -/
def Lasts : ℕ → List (Act V) → Prop
  | 0, _ => True
  | n + 1, acts => ∃ as bs, acts = as ++ bs ∧ Round St adj as ∧ Lasts n bs

/-- Every station forgets whoever is not its neighbour, and hears every neighbour. -/
structure Prelude (acts : List (Act V)) : Prop where
  forgets : ∀ v ∈ St, ∃ drop, (∀ u, ¬ adj v u → u ∈ drop) ∧ .decide v drop ∈ acts
  hears : ∀ v ∈ St, ∀ u, adj v u → .hear v u ∈ acts

variable {St adj} {E : V → (V → Option C) → C → Prop} {P Q : V → C → Prop}

theorem Contracts.source (h : Contracts St adj E P Q) : Contracts St adj E P P where
  le := fun _ _ hP => hP
  decide := fun v hv T c hT hP hE => h.le v c (h.decide v hv T c hT hP hE)

theorem Contracts.target (h : Contracts St adj E P Q) : Contracts St adj E Q Q where
  le := fun _ _ hQ => hQ
  decide := fun v hv T c hT hQ hE => h.decide v hv T c hT (fun u d hd => h.le u d (hQ u d hd)) hE

theorem Lasts.split {m n : ℕ} {acts : List (Act V)} (h : Lasts St adj (m + n) acts) :
    ∃ as bs, acts = as ++ bs ∧ Lasts St adj m as ∧ Lasts St adj n bs := by
  induction m generalizing acts with
  | zero => exact ⟨[], acts, rfl, trivial, by rwa [Nat.zero_add] at h⟩
  | succ m ih =>
    rw [Nat.add_right_comm] at h
    obtain ⟨a, b, rfl, hr, hl⟩ := h
    obtain ⟨as, bs, rfl, has, hbs⟩ := ih hl
    exact ⟨a ++ as, bs, (List.append_assoc a as bs).symm, ⟨a, as, rfl, hr, has⟩, hbs⟩

/-- The same round again and again. -/
theorem Lasts.replicate {acts : List (Act V)} (h : Round St adj acts) (n : ℕ) :
    Lasts St adj n (List.replicate n acts).flatten := by
  induction n with
  | zero => trivial
  | succ n ih => exact ⟨acts, _, rfl, h, ih⟩

end Boxes

section Results

variable [DecidableEq V] {E : V → (V → Option C) → C → Prop} {St : Set V} {adj : V → V → Prop}
  {s t : Rounds V C} {acts : List (Act V)} {P Q : V → C → Prop}

theorem Step.own_of_ne {a : Act V} {v : V} (h : Step E s a t) (hv : ∀ drop, a ≠ .decide v drop) :
    t.own v = s.own v := by
  cases h with
  | hear | idle => rfl
  | @decide w drop =>
    have hne : v ≠ w := fun he => hv drop (he ▸ rfl)
    exact Function.update_of_ne hne _ _

/-- Who is remembered after a fair step. -/
theorem Step.isSome {a : Act V} {v u : V} (h : Step E s a t) (hf : Fair adj a) (hu : adj v u)
    (hs : (s.heard v u).isSome) : (t.heard v u).isSome := by
  cases h with
  | idle => exact hs
  | hear w x =>
    by_cases hw : v = w
    · subst hw
      by_cases hx : u = x
      · subst hx
        simp
      · simpa [Function.update_of_ne hx] using hs
    · simpa [Function.update_of_ne hw] using hs
  | @decide w drop T c hdrop hkeep hE =>
    by_cases hw : v = w
    · subst hw
      simp only [Function.update_self]
      rwa [hkeep u (hf u hu)]
    · simpa [Function.update_of_ne hw] using hs

theorem Step.eq_none {a : Act V} {v u : V} (h : Step E s a t) (hf : Fair adj a) (hu : ¬ adj v u)
    (hs : s.heard v u = none) : t.heard v u = none := by
  cases h with
  | idle => exact hs
  | hear w x =>
    have hne : ¬ (v = w ∧ u = x) := fun he => hu (he.1 ▸ he.2 ▸ hf)
    by_cases hw : v = w
    · subst hw
      have hx : u ≠ x := fun he => hne ⟨rfl, he⟩
      simpa [Function.update_of_ne hx] using hs
    · simpa [Function.update_of_ne hw] using hs
  | @decide w drop T c hdrop hkeep hE =>
    by_cases hw : v = w
    · subst hw
      simp only [Function.update_self]
      by_cases hd : u ∈ drop
      · exact hdrop u hd
      · rw [hkeep u hd, hs]
    · simpa [Function.update_of_ne hw] using hs

theorem Covers.step {a : Act V} (h : Covers St adj s) (hs : Step E s a t) (hf : Fair adj a) :
    Covers St adj t := by
  intro v hv u
  by_cases hu : adj v u
  · have hsome := hs.isSome hf hu ((h v hv u).mpr hu)
    exact ⟨fun _ => hu, fun _ => hsome⟩
  · have hnone : s.heard v u = none := by
      rw [← Option.not_isSome_iff_eq_none, h v hv u]
      exact hu
    rw [hs.eq_none hf hu hnone]
    exact ⟨fun hn => absurd hn (by simp), fun hn => absurd hn hu⟩

/-- After everyone has forgotten the strangers and heard the neighbours, nothing else is remembered. -/
theorem Prelude.covers (hp : Prelude St adj acts) (h : Path (Step E) s acts t)
    (hf : ∀ a ∈ acts, Fair adj a) : Covers St adj t := by
  intro v hv u
  by_cases hu : adj v u
  · have hsome : (t.heard v u).isSome := by
      refine h.settles (I := fun _ => True) (J := fun s => (s.heard v u).isSome)
        (hp.hears v hv u hu) trivial (fun _ _ _ _ _ _ => trivial) ?_ ?_
      · intro s t _ hst
        cases hst
        simp
      · intro s a t ha _ hs hst
        exact hst.isSome (hf a ha) hu hs
    exact ⟨fun _ => hu, fun _ => hsome⟩
  · obtain ⟨drop, hdrop, hmem⟩ := hp.forgets v hv
    have hnone : t.heard v u = none := by
      refine h.settles (I := fun _ => True) (J := fun s => s.heard v u = none) hmem trivial
        (fun _ _ _ _ _ _ => trivial) ?_ ?_
      · intro s t _ hst
        cases hst with
        | decide hd hk hE =>
          simpa using hd u (hdrop u hu)
      · intro s a t ha _ hs hst
        exact hst.eq_none (hf a ha) hu hs
    rw [hnone]
    exact ⟨fun hn => absurd hn (by simp), fun hn => absurd hn hu⟩

/-- What is decided on, in a state where only neighbours are remembered. -/
theorem Within.decided {v : V} {drop : Set V} (hw : Within St P s) (hc : Covers St adj s)
    (h : Contracts St adj E P Q) (hs : Step E s (.decide v drop) t)
    (hf : Fair adj (.decide v drop)) (hv : v ∈ St) : Q v (t.own v) := by
  have hcov := (hc.step hs hf) v hv
  cases hs with
  | @decide _ _ T c hdrop hkeep hE =>
    simp only [Function.update_self] at hcov ⊢
    refine h.decide v hv T c hcov (fun u d hd => ?_) hE
    by_cases hu : u ∈ drop
    · rw [hdrop u hu] at hd
      cases hd
    · exact hw.heard v hv u d (by rw [← hkeep u hu, hd])

/-- What is remembered after a step was remembered, or is somebody's claim. -/
theorem Step.heard_cases {a : Act V} {v u : V} {c : C} (h : Step E s a t)
    (hc : t.heard v u = some c) : s.heard v u = some c ∨ (a = .hear v u ∧ c = s.own u) := by
  cases h with
  | idle => exact .inl hc
  | hear w x =>
    by_cases hw : v = w
    · subst hw
      by_cases hx : u = x
      · subst hx
        simp only [Function.update_self, Option.some.injEq] at hc
        exact .inr ⟨rfl, hc.symm⟩
      · exact .inl (by simpa [Function.update_of_ne hx] using hc)
    · exact .inl (by simpa [Function.update_of_ne hw] using hc)
  | @decide w drop T d hdrop hkeep hE =>
    by_cases hw : v = w
    · subst hw
      simp only [Function.update_self] at hc
      by_cases hd : u ∈ drop
      · rw [hdrop u hd] at hc
        cases hc
      · exact .inl (by rw [← hkeep u hd, hc])
    · exact .inl (by simpa [Function.update_of_ne hw] using hc)

variable (hadj : ∀ v u, adj v u → v ∈ St ∧ u ∈ St)

include hadj

theorem Within.step {a : Act V} (hw : Within St P s) (hc : Covers St adj s)
    (h : Contracts St adj E P P) (hs : Step E s a t) (hf : Fair adj a) : Within St P t where
  own := by
    intro v hv
    by_cases ha : ∃ drop, a = .decide v drop
    · obtain ⟨drop, rfl⟩ := ha
      exact hw.decided hc h hs hf hv
    · rw [hs.own_of_ne fun drop he => ha ⟨drop, he⟩]
      exact hw.own v hv
  heard := by
    intro v hv u c hu
    rcases hs.heard_cases hu with hu | ⟨rfl, rfl⟩
    · exact hw.heard v hv u c hu
    · exact hw.own u (hadj v u hf).2

theorem Within.path (hw : Within St P s) (hc : Covers St adj s) (h : Contracts St adj E P P)
    (hp : Path (Step E) s acts t) (hf : ∀ a ∈ acts, Fair adj a) :
    Within St P t ∧ Covers St adj t :=
  hp.invariant_mem (I := fun s => Within St P s ∧ Covers St adj s)
    (fun _ a _ ha hs hst => ⟨hs.1.step hadj hs.2 h hst (hf a ha), hs.2.step hst (hf a ha)⟩) ⟨hw, hc⟩

/-- A round takes every claim, made or remembered, from `P` to `Q`. -/
theorem Within.round (hw : Within St P s) (hc : Covers St adj s) (h : Contracts St adj E P Q)
    (hr : Round St adj acts) (hp : Path (Step E) s acts t) (hf : ∀ a ∈ acts, Fair adj a) :
    Within St Q t ∧ Covers St adj t := by
  obtain ⟨as, bs, rfl, hdec, hhear⟩ := hr
  have hPP : Contracts St adj E P P := h.source
  obtain ⟨u, hp1, hp2⟩ := hp.split
  have hf1 : ∀ a ∈ as, Fair adj a := fun a ha => hf a (List.mem_append_left bs ha)
  have hf2 : ∀ a ∈ bs, Fair adj a := fun a ha => hf a (List.mem_append_right as ha)
  have hI : ∀ evs : List (Act V), (∀ a ∈ evs, Fair adj a) → ∀ s a t, a ∈ evs →
      (Within St P s ∧ Covers St adj s) → Step E s a t → (Within St P t ∧ Covers St adj t) :=
    fun evs hevs _ a _ ha hs hst =>
      ⟨hs.1.step hadj hs.2 hPP hst (hevs a ha), hs.2.step hst (hevs a ha)⟩
  -- everyone decides on claims in `P`: all own claims are in `Q`
  have hown : ∀ v ∈ St, Q v (u.own v) := by
    intro v hv
    obtain ⟨drop, hmem⟩ := hdec v hv
    refine hp1.settles (I := fun s => Within St P s ∧ Covers St adj s)
      (J := fun s => Q v (s.own v)) hmem ⟨hw, hc⟩ (hI as hf1) ?_ ?_
    · intro s t hs hst
      exact hs.1.decided hs.2 h hst (hf1 _ hmem) hv
    · intro s a t ha hs hQ hst
      by_cases hd : ∃ drop, a = .decide v drop
      · obtain ⟨drop, rfl⟩ := hd
        exact hs.1.decided hs.2 h hst (hf1 _ ha) hv
      · rw [hst.own_of_ne fun drop he => hd ⟨drop, he⟩]
        exact hQ
  obtain ⟨hwu, hcu⟩ := hw.path hadj hc hPP hp1 hf1
  have hII : ∀ s a t, a ∈ bs → ((Within St P s ∧ Covers St adj s) ∧ ∀ v ∈ St, Q v (s.own v)) →
      Step E s a t → ((Within St P t ∧ Covers St adj t) ∧ ∀ v ∈ St, Q v (t.own v)) := by
    intro s a t ha hs hst
    refine ⟨hI bs hf2 s a t ha hs.1 hst, fun v hv => ?_⟩
    by_cases hd : ∃ drop, a = .decide v drop
    · obtain ⟨drop, rfl⟩ := hd
      exact hs.1.1.decided hs.1.2 h hst (hf2 _ ha) hv
    · rw [hst.own_of_ne fun drop he => hd ⟨drop, he⟩]
      exact hs.2 v hv
  -- and everyone hears them: all remembered claims are
  obtain ⟨⟨_, hct⟩, hownt⟩ := hp2.invariant_mem hII ⟨⟨hwu, hcu⟩, hown⟩
  refine ⟨⟨hownt, fun v hv w c hw => ?_⟩, hct⟩
  have hvw : adj v w := (hct v hv w).mp (by rw [hw]; rfl)
  have hJ : ∀ d, t.heard v w = some d → Q w d := by
    refine hp2.settles (J := fun s => ∀ d, s.heard v w = some d → Q w d) (hhear v hv w hvw)
      ⟨⟨hwu, hcu⟩, hown⟩ hII ?_ ?_
    · intro s t hs hst d hd
      cases hst
      simp only [Function.update_self, Option.some.injEq] at hd
      exact hd ▸ hs.2 w (hadj v w hvw).2
    · intro s a t ha hs hQ hst d hd
      rcases hst.heard_cases hd with hd | ⟨rfl, rfl⟩
      · exact hQ d hd
      · exact hs.2 w (hadj v w hvw).2
  exact hJ c hw

/-- From claims in `P`, `n` rounds of a fair run lead to claims in `Q`, for good. -/
def Leads (St : Set V) (adj : V → V → Prop) (E : V → (V → Option C) → C → Prop) (n : ℕ)
    (P Q : V → C → Prop) : Prop :=
  ∀ s acts t, Within St P s → Covers St adj s → Path (Step E) s acts t → (∀ a ∈ acts, Fair adj a) →
    Lasts St adj n acts → Within St Q t ∧ Covers St adj t

/-- **Rounds.**  When a decision on claims in `P k` is in `P (k + 1)`, `n` rounds lead to `P n`. -/
theorem Contracts.leads {P : ℕ → V → C → Prop} (hP : ∀ k, Contracts St adj E (P k) (P (k + 1)))
    (n : ℕ) : Leads St adj E n (P 0) (P n) := by
  suffices hgen : ∀ m, Leads St adj E n (P m) (P (m + n)) by
    simpa using hgen 0
  induction n with
  | zero => exact fun m s acts t hw hc hp hf _ => hw.path hadj hc (hP m).source hp hf
  | succ n ih =>
    intro m s acts t hw hc hp hf hl
    obtain ⟨as, bs, rfl, hr, hl⟩ := hl
    obtain ⟨u, hp1, hp2⟩ := hp.split
    have hf1 : ∀ a ∈ as, Fair adj a := fun a ha => hf a (List.mem_append_left bs ha)
    have hf2 : ∀ a ∈ bs, Fair adj a := fun a ha => hf a (List.mem_append_right as ha)
    obtain ⟨hwu, hcu⟩ := hw.round hadj hc (hP m) hr hp1 hf1
    have := ih (m + 1) u bs t hwu hcu hp2 hf2 hl
    rwa [Nat.add_assoc, Nat.add_comm 1 n] at this

omit hadj

theorem Leads.trans {m n : ℕ} {R : V → C → Prop} (h : Leads St adj E m P Q)
    (h' : Leads St adj E n Q R) : Leads St adj E (m + n) P R := by
  intro s acts t hw hc hp hf hl
  obtain ⟨as, bs, rfl, hl1, hl2⟩ := hl.split
  obtain ⟨u, hp1, hp2⟩ := hp.split
  obtain ⟨hwu, hcu⟩ := h s as u hw hc hp1 (fun a ha => hf a (List.mem_append_left bs ha)) hl1
  exact h' u bs t hwu hcu hp2 (fun a ha => hf a (List.mem_append_right as ha)) hl2

theorem Leads.imp {n : ℕ} {R : V → C → Prop} (h : Leads St adj E n P Q)
    (hQ : ∀ v ∈ St, ∀ c, Q v c → R v c) (hadj : ∀ v u, adj v u → v ∈ St ∧ u ∈ St) :
    Leads St adj E n P R := by
  intro s acts t hw hc hp hf hl
  obtain ⟨hwt, hct⟩ := h s acts t hw hc hp hf hl
  refine ⟨⟨fun v hv => hQ v hv _ (hwt.own v hv), fun v hv u c hu => ?_⟩, hct⟩
  have hvu : adj v u := (hct v hv u).mp (by rw [hu]; rfl)
  exact hQ u (hadj v u hvu).2 c (hwt.heard v hv u c hu)

/-- One contraction, one round. -/
theorem Contracts.leads_one (h : Contracts St adj E P Q)
    (hadj : ∀ v u, adj v u → v ∈ St ∧ u ∈ St) : Leads St adj E 1 P Q := by
  intro s acts t hw hc hp hf hl
  obtain ⟨as, bs, rfl, hr, -⟩ := hl
  obtain ⟨u, hp1, hp2⟩ := hp.split
  obtain ⟨hwu, hcu⟩ := hw.round hadj hc h hr hp1 fun a ha => hf a (List.mem_append_left bs ha)
  exact hwu.path hadj hcu h.target hp2 fun a ha => hf a (List.mem_append_right as ha)

end Results

end Rounds

end AquaTransport
