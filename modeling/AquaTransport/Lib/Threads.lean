import AquaTransport.Lib.Run
import Mathlib.Algebra.Order.Group.Multiset

/-!
# AquaTransport.Lib.Threads — threads that run critical sections over shared memory

`Code` gives for each call the sections that it starts with, and for each section what it does to the
shared state and which sections its thread has to run next.  `Threads` is the shared state with what
each thread has still to run; the main thread is apart, since some calls are only made there.  An
invariant of runs speaks of the sections of the other threads as a multiset: any of them may be next.
-/

namespace AquaTransport

/-- The calls `γ`, and the sections `ι` with the choices `κ` of the environment. -/
structure Code (σ ι κ γ : Type*) where
  body : γ → List ι
  mainOnly : γ → Bool := fun _ => false
  sec : ι → κ → σ → Option (σ × List ι)

structure Threads (σ ι : Type*) where
  shared : σ
  main : List ι := []
  others : List (List ι) := []

namespace Threads

variable {σ ι κ γ : Type*}

inductive Label (κ γ : Type*)
  | mainCall (c : γ)
  | call (k : ℕ) (c : γ)
  | mainRun (x : κ)
  | run (k : ℕ) (x : κ)

/-- What the other threads have still to run. -/
def pending (t : Threads σ ι) : Multiset ι := (t.others.flatten : Multiset ι)

/-- Everything that is still to run. -/
def all (t : Threads σ ι) : Multiset ι := t.main + t.pending

/-- A thread's work, taken out of the others'. -/
theorem flatten_set {w : List ι} {k : ℕ} {l : List (List ι)} (h : l[k]? = some w) :
    ∃ R : Multiset ι, (l.flatten : Multiset ι) = w + R ∧
      ∀ w' : List ι, ((l.set k w').flatten : Multiset ι) = w' + R := by
  induction l generalizing k with
  | nil => simp at h
  | cons v l ih =>
    cases k with
    | zero =>
      obtain rfl : v = w := by simpa using h
      exact ⟨l.flatten, by simp, fun w' => by simp⟩
    | succ k =>
      obtain ⟨R, h1, h2⟩ := ih (by simpa using h)
      refine ⟨v + R, ?_, fun w' => ?_⟩
      · rw [List.flatten_cons, ← Multiset.coe_add, h1, add_left_comm]
      · rw [List.set_cons_succ, List.flatten_cons, ← Multiset.coe_add, h2, add_left_comm]

/-- The section that a step runs, if it runs one, and the environment's choice. -/
def next (t : Threads σ ι) : Label κ γ → Option (ι × κ)
  | .mainCall _ | .call _ _ => none
  | .mainRun x => t.main.head?.map fun i => (i, x)
  | .run k x => (t.others[k]?.bind List.head?).map fun i => (i, x)

/-- A thread, the main one or another, is to run `w` first. -/
def push (t : Threads σ ι) (w : List ι) : Option ℕ → Option (Threads σ ι)
  | none => some { t with main := w ++ t.main }
  | some k => t.others[k]?.map fun v => { t with others := t.others.set k (w ++ v) }

theorem push_all {t t' : Threads σ ι} {w : List ι} {k : Option ℕ} (h : t.push w k = some t') :
    t'.shared = t.shared ∧ t'.all = w + t.all := by
  cases k with
  | none =>
    obtain rfl := Option.some.inj h
    exact ⟨rfl, by rw [all, all, ← Multiset.coe_add, add_assoc]; rfl⟩
  | some k =>
    obtain ⟨v, hv, rfl⟩ := Option.map_eq_some_iff.mp h
    obtain ⟨R, h1, h2⟩ := flatten_set hv
    refine ⟨rfl, ?_⟩
    show (t.main : Multiset ι) + ((t.others.set k (w ++ v)).flatten : List ι) = w + (t.main + t.pending)
    rw [h2, pending, h1, ← Multiset.coe_add, add_assoc, add_left_comm]

end Threads

namespace Code

variable {σ ι κ γ : Type*} (C : Code σ ι κ γ)

def step (t : Threads σ ι) : Threads.Label κ γ → Option (Threads σ ι)
  | .mainCall c => if t.main.isEmpty then some { t with main := C.body c } else none
  | .call k c =>
    match t.others[k]?, C.mainOnly c with
    | some [], false => some { t with others := t.others.set k (C.body c) }
    | _, _ => none
  | .mainRun x =>
    match t.main with
    | i :: rest => (C.sec i x t.shared).map fun r => { t with shared := r.1, main := r.2 ++ rest }
    | [] => none
  | .run k x =>
    match t.others[k]? with
    | some (i :: rest) =>
      (C.sec i x t.shared).map fun r =>
        { t with shared := r.1, others := t.others.set k (r.2 ++ rest) }
    | _ => none

/-- The section that a step runs meets `G`, which may look at the shared state, at what the main
thread has still to run, and at the environment's choice. -/
def Meets (G : σ → List ι → ι → κ → Prop) (t : Threads σ ι) : Threads.Label κ γ → Prop
  | .mainCall _ | .call _ _ => True
  | .mainRun x => ∀ i rest, t.main = i :: rest → G t.shared t.main i x
  | .run k x => ∀ i rest, t.others[k]? = some (i :: rest) → G t.shared t.main i x

/-- The section that a step runs and everything else that is still to run meet `H`. -/
def MeetsAll (H : σ → Multiset ι → ι → κ → Prop) (t : Threads σ ι) : Threads.Label κ γ → Prop
  | .mainCall _ | .call _ _ => True
  | .mainRun x => ∀ i rest P, t.main = i :: rest → t.all = i ::ₘ P → H t.shared P i x
  | .run k x => ∀ i rest P, t.others[k]? = some (i :: rest) → t.all = i ::ₘ P → H t.shared P i x

/-- The steps that meet a condition. -/
def Step (G : σ → List ι → ι → κ → Prop) (t : Threads σ ι) (l : Threads.Label κ γ)
    (t' : Threads σ ι) : Prop := C.step t l = some t' ∧ Meets G t l

/-- A step that is taken only where a decidable condition is met. -/
def stepIf (g : σ → List ι → ι → κ → Bool) (t : Threads σ ι) (l : Threads.Label κ γ) :
    Option (Threads σ ι) :=
  match l with
  | .mainRun x =>
    if (t.main.head?.map fun i => g t.shared t.main i x).getD true then C.step t l else none
  | .run k x =>
    if ((t.others[k]?.bind List.head?).map fun i => g t.shared t.main i x).getD true then C.step t l
    else none
  | _ => C.step t l

/-- A step that is taken only where a decidable condition on what else is to run is met. -/
def stepWhere (h : σ → List ι → ι → κ → Bool) (t : Threads σ ι) (l : Threads.Label κ γ) :
    Option (Threads σ ι) :=
  match l with
  | .mainRun x =>
    match t.main with
    | i :: rest => if h t.shared (rest ++ t.others.flatten) i x then C.step t l else none
    | [] => none
  | .run k x =>
    match t.others[k]? with
    | some (i :: rest) =>
      if h t.shared (t.main ++ (t.others.set k rest).flatten) i x then C.step t l else none
    | _ => none
  | _ => C.step t l

variable {C} {I : σ → List ι → Multiset ι → Prop} {G : σ → List ι → ι → κ → Prop}

theorem Step.of_stepIf {g : σ → List ι → ι → κ → Bool} {t t' : Threads σ ι}
    {l : Threads.Label κ γ} (h : C.stepIf g t l = some t') :
    C.Step (fun s m i x => g s m i x = true) t l t' := by
  cases l with
  | mainCall c => exact ⟨h, trivial⟩
  | call k c => exact ⟨h, trivial⟩
  | mainRun x =>
    simp only [stepIf, Option.ite_none_right_eq_some] at h
    exact ⟨h.2, fun i rest hm => by simpa [hm] using h.1⟩
  | run k x =>
    simp only [stepIf, Option.ite_none_right_eq_some] at h
    exact ⟨h.2, fun i rest hk => by simpa [hk] using h.1⟩

theorem of_stepWhere {H : σ → Multiset ι → ι → κ → Prop} {h : σ → List ι → ι → κ → Bool}
    (hh : ∀ s w i x, h s w i x = true → H s w i x) {t t' : Threads σ ι} {l : Threads.Label κ γ}
    (hs : C.stepWhere h t l = some t') : C.step t l = some t' ∧ MeetsAll H t l := by
  cases l with
  | mainCall c => exact ⟨hs, trivial⟩
  | call k c => exact ⟨hs, trivial⟩
  | mainRun x =>
    simp only [stepWhere] at hs
    split at hs
    · next i rest hm =>
      rw [Option.ite_none_right_eq_some] at hs
      refine ⟨hs.2, fun j rest' P hj hall => ?_⟩
      obtain ⟨rfl, rfl⟩ := List.cons.inj (hm.symm.trans hj)
      have hP : i ::ₘ P = i ::ₘ ((rest ++ t.others.flatten : List ι) : Multiset ι) := by
        rw [← hall, Threads.all, Threads.pending, hm, Multiset.coe_add, List.cons_append,
          Multiset.cons_coe]
      rw [(Multiset.cons_inj_right i).mp hP]
      exact hh _ _ _ _ hs.1
    · cases hs
  | run k x =>
    simp only [stepWhere] at hs
    split at hs
    · next i rest hk =>
      rw [Option.ite_none_right_eq_some] at hs
      refine ⟨hs.2, fun j rest' P hj hall => ?_⟩
      obtain ⟨rfl, rfl⟩ := List.cons.inj (Option.some.inj (hk.symm.trans hj))
      obtain ⟨R, h1, h2⟩ := Threads.flatten_set hk
      have hP : i ::ₘ P =
          i ::ₘ ((t.main ++ (t.others.set k rest).flatten : List ι) : Multiset ι) := by
        rw [← hall, Threads.all, Threads.pending, h1, ← Multiset.coe_add, h2, ← Multiset.cons_coe,
          Multiset.cons_add, Multiset.add_cons]
      rw [(Multiset.cons_inj_right i).mp hP]
      exact hh _ _ _ _ hs.1
    · cases hs

/-- Every step meets no condition. -/
theorem Step.free {t t' : Threads σ ι} {l : Threads.Label κ γ} (h : C.step t l = some t') :
    C.Step (fun _ _ _ _ => True) t l t' := by
  refine ⟨h, ?_⟩
  cases l <;> simp [Meets]

/-- The rule for the invariants of one step, where it matters which call it makes. -/
theorem Step.invariant_of {t t' : Threads σ ι} {l : Threads.Label κ γ} (h : C.Step G t l t')
    (hmainCall : ∀ s P c, l = .mainCall c → I s [] P → I s (C.body c) P)
    (hcall : ∀ s m P k c, l = .call k c → C.mainOnly c = false → I s m P → I s m (C.body c + P))
    (hmain : ∀ s i rest P x s' new, I s (i :: rest) P → G s (i :: rest) i x →
      C.sec i x s = some (s', new) → I s' (new ++ rest) P)
    (hrun : ∀ s m i P x s' new, I s m (i ::ₘ P) → G s m i x →
      C.sec i x s = some (s', new) → I s' m (new + P))
    (hI : I t.shared t.main t.pending) : I t'.shared t'.main t'.pending := by
  obtain ⟨hs, hG⟩ := h
  cases l with
  | mainCall c =>
    simp only [step, Option.ite_none_right_eq_some, Option.some.injEq, List.isEmpty_iff] at hs
    obtain ⟨hm, rfl⟩ := hs
    exact hmainCall _ _ c rfl (hm ▸ hI)
  | call k c =>
    simp only [step] at hs
    split at hs
    · next hk hc =>
      obtain rfl := Option.some.inj hs
      obtain ⟨R, h1, h2⟩ := Threads.flatten_set hk
      have hp : t.pending = R := by simpa [Threads.pending] using h1
      show I t.shared t.main (((t.others.set k (C.body c)).flatten : List ι) : Multiset ι)
      rw [h2]
      exact hcall _ _ _ k c rfl hc (hp ▸ hI)
    · cases hs
  | mainRun x =>
    simp only [step] at hs
    split at hs
    · next i rest hm =>
      obtain ⟨⟨s', new⟩, hsec, rfl⟩ := Option.map_eq_some_iff.mp hs
      have hg := hG i rest hm
      rw [hm] at hg hI
      exact hmain _ i rest _ x s' new hI hg hsec
    · cases hs
  | run k x =>
    simp only [step] at hs
    split at hs
    · next i rest hk =>
      obtain ⟨⟨s', new⟩, hsec, rfl⟩ := Option.map_eq_some_iff.mp hs
      obtain ⟨R, h1, h2⟩ := Threads.flatten_set hk
      have hp : t.pending = i ::ₘ ((rest : Multiset ι) + R) := by
        rw [← Multiset.cons_add, Multiset.cons_coe]
        exact h1
      show I s' t.main (((t.others.set k (new ++ rest)).flatten : List ι) : Multiset ι)
      rw [h2, ← Multiset.coe_add, add_assoc]
      exact hrun _ _ i _ x s' new (hp ▸ hI) (hG i rest hk) hsec
    · cases hs

/-- **The rule for invariants of threads**: a call adds what it starts with, and a section that is run
is replaced by what comes next. -/
theorem Step.invariant (hmainCall : ∀ s P c, I s [] P → I s (C.body c) P)
    (hcall : ∀ s m P c, C.mainOnly c = false → I s m P → I s m (C.body c + P))
    (hmain : ∀ s i rest P x s' new, I s (i :: rest) P → G s (i :: rest) i x →
      C.sec i x s = some (s', new) → I s' (new ++ rest) P)
    (hrun : ∀ s m i P x s' new, I s m (i ::ₘ P) → G s m i x →
      C.sec i x s = some (s', new) → I s' m (new + P))
    {t t' : Threads σ ι} {l : Threads.Label κ γ} (h : C.Step G t l t')
    (hI : I t.shared t.main t.pending) : I t'.shared t'.main t'.pending :=
  h.invariant_of (fun s P c _ => hmainCall s P c) (fun s m P _ c _ => hcall s m P c) hmain hrun hI

/-- **What a step can do**: a call adds what it starts with, and a section that is run is replaced by what
comes next. -/
theorem step_cases {t t' : Threads σ ι} {l : Threads.Label κ γ} (h : C.step t l = some t') :
    (∃ c, (l = .mainCall c ∨ ∃ k, l = .call k c) ∧ t.next l = none ∧ t'.shared = t.shared ∧
      t'.all = C.body c + t.all) ∨
    ∃ i x P new, t.next l = some (i, x) ∧ t.all = i ::ₘ P ∧
      C.sec i x t.shared = some (t'.shared, new) ∧ t'.all = new + P := by
  cases l with
  | mainCall c =>
    simp only [step, Option.ite_none_right_eq_some, Option.some.injEq, List.isEmpty_iff] at h
    obtain ⟨hm, rfl⟩ := h
    exact .inl ⟨c, .inl rfl, rfl, rfl, by simp [Threads.all, hm, Threads.pending]⟩
  | call k c =>
    simp only [step] at h
    split at h
    · next hk hc =>
      obtain rfl := Option.some.inj h
      obtain ⟨R, h1, h2⟩ := Threads.flatten_set hk
      refine .inl ⟨c, .inr ⟨k, rfl⟩, rfl, rfl, ?_⟩
      show (t.main : Multiset ι) + ((t.others.set k (C.body c)).flatten : List ι) = _
      rw [h2, Threads.all, Threads.pending, h1, Multiset.coe_nil, zero_add, add_left_comm]
    · cases h
  | mainRun x =>
    simp only [step] at h
    split at h
    · next i rest hm =>
      obtain ⟨⟨s', new⟩, hsec, rfl⟩ := Option.map_eq_some_iff.mp h
      refine .inr ⟨i, x, rest + t.pending, new, by simp [Threads.next, hm], ?_, hsec, ?_⟩
      · rw [Threads.all, hm, ← Multiset.cons_coe, Multiset.cons_add]
      · show ((new ++ rest : List ι) : Multiset ι) + t.pending = _
        rw [← Multiset.coe_add, add_assoc]
    · cases h
  | run k x =>
    simp only [step] at h
    split at h
    · next i rest hk =>
      obtain ⟨⟨s', new⟩, hsec, rfl⟩ := Option.map_eq_some_iff.mp h
      obtain ⟨R, h1, h2⟩ := Threads.flatten_set hk
      refine .inr ⟨i, x, t.main + (rest + R), new, by simp [Threads.next, hk], ?_, hsec, ?_⟩
      · rw [Threads.all, Threads.pending, h1, ← Multiset.cons_coe, Multiset.cons_add, Multiset.add_cons]
      · show (t.main : Multiset ι) + ((t.others.set k (new ++ rest)).flatten : List ι) = _
        rw [h2, ← Multiset.coe_add, add_assoc, add_left_comm]
    · cases h

/-- The shared state changes by a section only. -/
theorem Step.shared {t t' : Threads σ ι} {l : Threads.Label κ γ} (h : C.Step G t l t') :
    t'.shared = t.shared ∨ ∃ i ∈ t.all, ∃ x new, C.sec i x t.shared = some (t'.shared, new) := by
  rcases step_cases h.1 with ⟨c, -, -, hshared, -⟩ | ⟨i, x, P, new, -, hall, hsec, -⟩
  · exact .inl hshared
  · exact .inr ⟨i, hall ▸ Multiset.mem_cons_self i P, x, new, hsec⟩

/-- The main thread waits, is called, or runs its next section. -/
theorem Step.main {t t' : Threads σ ι} {l : Threads.Label κ γ} (h : C.Step G t l t') :
    t'.main = t.main ∨ t.main = [] ∨ ∃ i rest x new, t.main = i :: rest ∧
      C.sec i x t.shared = some (t'.shared, new) ∧ t'.main = new ++ rest := by
  obtain ⟨hs, -⟩ := h
  cases l with
  | mainCall c =>
    simp only [step, Option.ite_none_right_eq_some, List.isEmpty_iff] at hs
    exact .inr (.inl hs.1)
  | call k c =>
    simp only [step] at hs
    split at hs
    · exact .inl (Option.some.inj hs ▸ rfl)
    · cases hs
  | mainRun x =>
    simp only [step] at hs
    split at hs
    · next i rest hm =>
      obtain ⟨⟨s', new⟩, hsec, rfl⟩ := Option.map_eq_some_iff.mp hs
      exact .inr (.inr ⟨i, rest, x, new, hm, hsec, rfl⟩)
    · cases hs
  | run k x =>
    simp only [step] at hs
    split at hs
    · obtain ⟨⟨s', new⟩, -, rfl⟩ := Option.map_eq_some_iff.mp hs
      exact .inl rfl
    · cases hs

/-- The condition on the section that a step runs. -/
theorem MeetsAll.of_next {H : σ → Multiset ι → ι → κ → Prop} {t : Threads σ ι}
    {l : Threads.Label κ γ} (h : MeetsAll H t l) {i : ι} {x : κ} {P : Multiset ι}
    (hnext : t.next l = some (i, x)) (hall : t.all = i ::ₘ P) : H t.shared P i x := by
  cases l with
  | mainCall c | call k c => cases hnext
  | mainRun y =>
    obtain ⟨j, hj, he⟩ := Option.map_eq_some_iff.mp hnext
    obtain ⟨rfl, rfl⟩ := Prod.mk.inj he
    obtain ⟨rest, hm⟩ := List.head?_eq_some_iff.mp hj
    exact h j rest P hm hall
  | run k y =>
    obtain ⟨j, hj, he⟩ := Option.map_eq_some_iff.mp hnext
    obtain ⟨rfl, rfl⟩ := Prod.mk.inj he
    obtain ⟨w, hk, hw⟩ := Option.bind_eq_some_iff.mp hj
    obtain ⟨rest, rfl⟩ := List.head?_eq_some_iff.mp hw
    exact h j rest P hk hall

/-- The rule where the main thread is one of many, and a condition looks at what else is still to run. -/
theorem invariant_meets {J : σ → Multiset ι → Prop} {H : σ → Multiset ι → ι → κ → Prop}
    (hcall : ∀ s P c, J s P → J s (C.body c + P))
    (hrun : ∀ s i P x s' new, J s (i ::ₘ P) → H s P i x → C.sec i x s = some (s', new) →
      J s' (new + P))
    {t t' : Threads σ ι} {l : Threads.Label κ γ} (h : C.step t l = some t') (hH : MeetsAll H t l)
    (hJ : J t.shared t.all) : J t'.shared t'.all := by
  rcases step_cases h with ⟨c, -, -, hshared, hall⟩ | ⟨i, x, P, new, hnext, hP, hsec, hall⟩
  · rw [hshared, hall]
    exact hcall _ _ c hJ
  · rw [hall]
    exact hrun _ i P x _ new (hP ▸ hJ) (hH.of_next hnext hP) hsec

/-- The same without a condition. -/
theorem Step.invariant_all {J : σ → Multiset ι → Prop}
    (hcall : ∀ s P c, J s P → J s (C.body c + P))
    (hrun : ∀ s i P x s' new, J s (i ::ₘ P) → C.sec i x s = some (s', new) → J s' (new + P))
    {t t' : Threads σ ι} {l : Threads.Label κ γ} (h : C.Step G t l t') (hJ : J t.shared t.all) :
    J t'.shared t'.all := by
  refine invariant_meets (H := fun _ _ _ _ => True) hcall ?_ h.1 ?_ hJ
  · intro s i P x s' new hI _ hsec
    exact hrun s i P x s' new hI hsec
  · cases l <;> simp [MeetsAll]

end Code

end AquaTransport
