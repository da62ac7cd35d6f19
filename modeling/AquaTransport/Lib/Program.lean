import Mathlib.Data.List.Basic

/-!
# AquaTransport.Lib.Program — programs that can fail and keep their state when they do

A `Program` ends with a value or an error, and in a state either way.  `Holds` is its Hoare triple, with
a postcondition for each end; `Twins` is the triple of two runs that end alike.
-/

namespace AquaTransport

/-- A program over the state `σ` with errors `ε`. -/
def Program (σ ε α : Type) : Type := σ → Except ε α × σ

namespace Program

variable {σ ε α β : Type}

instance : Monad (Program σ ε) where
  pure a := fun s => (.ok a, s)
  bind m f := fun s =>
    match m s with
    | (.ok a, t) => f a t
    | (.error e, t) => (.error e, t)

/-- End with an error. -/
def fail (e : ε) : Program σ ε α := fun s => (.error e, s)

def modify (f : σ → σ) : Program σ ε Unit := fun s => (.ok (), f s)

def get : Program σ ε σ := fun s => (.ok s, s)

/-- The value, or an error where there is none. -/
def orFail (o : Option α) (e : ε) : Program σ ε α :=
  match o with
  | some a => pure a
  | none => fail e

/-- End with an error unless the condition holds. -/
def check (b : Bool) (e : ε) : Program σ ε Unit := if b then pure () else fail e

/-- `@try m @finally f`; `f` is told whether `m` ended with a value. -/
def tryFinally (m : Program σ ε α) (f : Bool → σ → σ) : Program σ ε α := fun s =>
  match m s with
  | (.ok a, t) => (.ok a, f true t)
  | (.error e, t) => (.error e, f false t)

section Bind

variable {m : Program σ ε α} {f : α → Program σ ε β} {s t : σ}

theorem bind_ok {a : α} (h : m s = (.ok a, t)) : (m >>= f) s = f a t := by
  show (match m s with | (.ok a, t) => f a t | (.error e, t) => (.error e, t)) = f a t
  rw [h]

theorem bind_error {e : ε} (h : m s = (.error e, t)) : (m >>= f) s = (.error e, t) := by
  show (match m s with | (.ok a, t) => f a t | (.error e, t) => (.error e, t)) = (.error e, t)
  rw [h]

end Bind

/-! ### Triples -/

/-- From a state in `P` the task ends with a value in `Q` or an error in `E`. -/
def Holds (P : σ → Prop) (m : Program σ ε α) (Q : α → σ → Prop) (E : ε → σ → Prop) : Prop :=
  ∀ s, P s → (∀ a t, m s = (.ok a, t) → Q a t) ∧ ∀ e t, m s = (.error e, t) → E e t

variable {P P' : σ → Prop} {Q Q' : α → σ → Prop} {E E' : ε → σ → Prop} {R : β → σ → Prop}

theorem holds_pure {a : α} (h : ∀ s, P s → Q a s) : Holds P (pure a : Program σ ε α) Q E := by
  intro s hs
  refine ⟨?_, ?_⟩
  · rintro b t ⟨⟩
    exact h s hs
  · rintro e t ⟨⟩

theorem holds_fail {e : ε} (h : ∀ s, P s → E e s) : Holds P (fail e : Program σ ε α) Q E := by
  intro s hs
  refine ⟨?_, ?_⟩
  · rintro b t ⟨⟩
  · rintro e' t ⟨⟩
    exact h s hs

theorem holds_modify {f : σ → σ} {Q : Unit → σ → Prop} (h : ∀ s, P s → Q () (f s)) :
    Holds P (modify f : Program σ ε Unit) Q E := by
  intro s hs
  refine ⟨?_, ?_⟩
  · rintro b t ⟨⟩
    exact h s hs
  · rintro e t ⟨⟩

theorem Holds.bind {m : Program σ ε α} {f : α → Program σ ε β} (hm : Holds P m Q E)
    (hf : ∀ a, Holds (Q a) (f a) R E) : Holds P (m >>= f) R E := by
  intro s hs
  obtain ⟨hok, herr⟩ := hm s hs
  rcases hr : m s with ⟨e | a, t⟩
  · rw [bind_error hr]
    refine ⟨?_, ?_⟩
    · rintro b t' ⟨⟩
    · rintro e t' ⟨⟩
      exact herr _ _ hr
  · rw [bind_ok hr]
    exact hf a t (hok a t hr)

theorem Holds.mono {m : Program σ ε α} (h : Holds P m Q E) (hP : ∀ s, P' s → P s)
    (hQ : ∀ a s, Q a s → Q' a s) (hE : ∀ e s, E e s → E' e s) : Holds P' m Q' E' := by
  intro s hs
  obtain ⟨hok, herr⟩ := h s (hP s hs)
  exact ⟨fun a t hr => hQ a t (hok a t hr), fun e t hr => hE e t (herr e t hr)⟩

theorem holds_getBind {f : σ → Program σ ε β}
    (h : ∀ a, Holds (fun s => s = a ∧ P s) (f a) R E) : Holds P (get >>= f) R E :=
  fun s hs => h s s ⟨rfl, hs⟩

/-- A fact about no state may be taken out of the precondition. -/
theorem holds_of {p : Prop} {m : Program σ ε α} (h : p → Holds P m Q E) :
    Holds (fun s => p ∧ P s) m Q E := fun s hs => h hs.1 s hs.2

theorem holds_exists {ι : Type} {P : ι → σ → Prop} {m : Program σ ε α}
    (h : ∀ i, Holds (P i) m Q E) : Holds (fun s => ∃ i, P i s) m Q E := fun s ⟨i, hs⟩ => h i s hs

theorem holds_orFail {o : Option α} {e : ε} (hs : ∀ a, o = some a → ∀ s, P s → Q a s)
    (hn : o = none → ∀ s, P s → E e s) : Holds P (orFail o e : Program σ ε α) Q E := by
  unfold orFail
  cases o with
  | some a => exact holds_pure (hs a rfl)
  | none => exact holds_fail (hn rfl)

theorem holds_check {b : Bool} {e : ε} {Q : Unit → σ → Prop}
    (ht : b = true → ∀ s, P s → Q () s) (hf : b = false → ∀ s, P s → E e s) :
    Holds P (check b e : Program σ ε Unit) Q E := by
  unfold check
  cases b with
  | true => exact holds_pure (ht rfl)
  | false => exact holds_fail (hf rfl)

theorem Holds.tryFinally {m : Program σ ε α} {f : Bool → σ → σ} (hm : Holds P m Q E)
    (hQ : ∀ a s, Q a s → Q' a (f true s)) (hE : ∀ e s, E e s → E' e (f false s)) :
    Holds P (tryFinally m f) Q' E' := by
  intro s hs
  obtain ⟨hok, herr⟩ := hm s hs
  unfold Program.tryFinally
  rcases hr : m s with ⟨e | a, t⟩
  · refine ⟨?_, ?_⟩
    · rintro b t' ⟨⟩
    · rintro e t' ⟨⟩
      exact hE _ _ (herr _ _ hr)
  · refine ⟨?_, ?_⟩
    · rintro b t' ⟨⟩
      exact hQ _ _ (hok _ _ hr)
    · rintro e t' ⟨⟩

/-! ### Two runs -/

/-- From states related by `R` the two programs end alike: both with values, related with the states
by `V`, or both with errors, related with the states by `F`. -/
def Twins (R : σ → σ → Prop) (m m' : Program σ ε α) (V : α → α → σ → σ → Prop)
    (F : ε → ε → σ → σ → Prop) : Prop :=
  ∀ s s', R s s' → match m s, m' s' with
    | (.ok a, t), (.ok a', t') => V a a' t t'
    | (.error e, t), (.error e', t') => F e e' t t'
    | _, _ => False

variable {S S' : σ → σ → Prop} {V V' : α → α → σ → σ → Prop} {W : β → β → σ → σ → Prop}
  {F F' : ε → ε → σ → σ → Prop}

theorem twins_pure {a a' : α} (h : ∀ s s', S s s' → V a a' s s') :
    Twins S (pure a : Program σ ε α) (pure a') V F := fun s s' hs => h s s' hs

theorem twins_fail {e e' : ε} (h : ∀ s s', S s s' → F e e' s s') :
    Twins S (fail e : Program σ ε α) (fail e') V F := fun s s' hs => h s s' hs

theorem twins_modify {f f' : σ → σ} {V : Unit → Unit → σ → σ → Prop}
    (h : ∀ s s', S s s' → V () () (f s) (f' s')) :
    Twins S (modify f : Program σ ε Unit) (modify f') V F := fun s s' hs => h s s' hs

theorem Twins.bind {m m' : Program σ ε α} {f f' : α → Program σ ε β} (hm : Twins S m m' V F)
    (hf : ∀ a a', Twins (V a a') (f a) (f' a') W F) : Twins S (m >>= f) (m' >>= f') W F := by
  intro s s' hs
  have h := hm s s' hs
  rcases hr : m s with ⟨e | a, t⟩ <;> rcases hr' : m' s' with ⟨e' | a', t'⟩ <;> rw [hr, hr'] at h
  · rw [bind_error hr, bind_error hr']
    exact h
  · exact h.elim
  · exact h.elim
  · rw [bind_ok hr, bind_ok hr']
    exact hf a a' t t' h

theorem Twins.mono {m m' : Program σ ε α} (h : Twins S m m' V F) (hS : ∀ s s', S' s s' → S s s')
    (hV : ∀ a a' s s', V a a' s s' → V' a a' s s') (hF : ∀ e e' s s', F e e' s s' → F' e e' s s') :
    Twins S' m m' V' F' := by
  intro s s' hs
  have h := h s s' (hS s s' hs)
  rcases hr : m s with ⟨e | a, t⟩ <;> rcases hr' : m' s' with ⟨e' | a', t'⟩ <;> rw [hr, hr'] at h
  · exact hF e e' t t' h
  · exact h.elim
  · exact h.elim
  · exact hV a a' t t' h

/-- The programs may be chosen by what relates the states. -/
theorem twins_of {p : Prop} {m m' : Program σ ε α} (h : p → Twins S m m' V F) :
    Twins (fun s s' => p ∧ S s s') m m' V F := fun s s' hs => h hs.1 s s' hs.2

/-- After equal values. -/
theorem Twins.bindEq {m m' : Program σ ε α} {f f' : α → Program σ ε β} {T : α → σ → σ → Prop}
    (hm : Twins S m m' (fun a a' s s' => a = a' ∧ T a s s') F)
    (hf : ∀ a, Twins (T a) (f a) (f' a) W F) : Twins S (m >>= f) (m' >>= f') W F := by
  refine hm.bind fun a a' => twins_of ?_
  rintro rfl
  exact hf a

theorem twins_orFail {o o' : Option α} {e : ε}
    (h : ∀ a, o = some a → ∃ a', o' = some a' ∧ ∀ s s', S s s' → V a a' s s')
    (hn : o = none → o' = none) (hF : ∀ s s', S s s' → F e e s s') :
    Twins S (orFail o e : Program σ ε α) (orFail o' e) V F := by
  cases o with
  | some a =>
    obtain ⟨a', rfl, hv⟩ := h a rfl
    exact twins_pure hv
  | none =>
    obtain rfl := hn rfl
    exact twins_fail hF

end Program

end AquaTransport
