import AquaTransport.Lib.Run
import Mathlib.Data.List.Basic
import Mathlib.Tactic.SplitIfs

/-!
# AquaTransport.Lib.Epochs — one end an epoch

Events have keys.  Some open an epoch of their key and some end it.  A filter is to let the first end of
each epoch through, and everything else.  `ended` is what it would have to remember of every key;
`endedAlone` is what is left when it remembers one key only, and forgets it as soon as another speaks.
`kept_once_iff` says on which histories that is enough.  Histories are newest first.
-/

namespace AquaTransport.Epochs

/-- Events with keys; none opens and ends at once. -/
structure Signals (ε κ : Type*) where
  key : ε → κ
  opens : ε → Bool
  ends : ε → Bool
  apart : ∀ e, ends e = true → opens e = false

variable {ε κ : Type*} [DecidableEq κ] (S : Signals ε κ)

/-! ### Memories -/

/-- An end of the key has come, and no opening since. -/
def ended (k : κ) : List ε → Bool
  | [] => false
  | e :: past => if S.key e = k then !S.opens e && (S.ends e || ended k past) else ended k past

/-- The same, of the events since another key's. -/
def endedAlone (k : κ) : List ε → Bool
  | [] => false
  | e :: past => if S.key e = k then !S.opens e && (S.ends e || endedAlone k past) else false

/-- The epoch of a key, if one was opened, and whether it has ended. -/
def epoch (k : κ) : List ε → Option Bool
  | [] => none
  | e :: past =>
    if S.key e = k then
      if S.opens e then some false else if S.ends e then (epoch k past).map fun _ => true
      else epoch k past
    else epoch k past

/-- What a filter lets through that knows of a key what `M` says. -/
def kept (M : κ → List ε → Bool) : List ε → List ε
  | [] => []
  | e :: past => if S.ends e && M (S.key e) past then kept M past else e :: kept M past

/-- Only ends of epochs that have ended are left out. -/
inductive Spares : List ε → List ε → Prop
  | nil : Spares [] []
  | keep {past ds : List ε} (e : ε) (h : Spares past ds) : Spares (e :: past) (e :: ds)
  | drop {past ds : List ε} (e : ε) (he : S.ends e = true) (hp : ended S (S.key e) past = true)
      (h : Spares past ds) : Spares (e :: past) ds

variable {S} {k : κ} {past L : List ε} {e : ε}

theorem ended_of_alone (h : endedAlone S k past = true) : ended S k past = true := by
  induction past with
  | nil => cases h
  | cons e past ih =>
    unfold endedAlone at h
    unfold ended
    split_ifs at h ⊢ with hk
    rw [Bool.and_eq_true, Bool.or_eq_true] at h ⊢
    exact ⟨h.1, h.2.imp_right ih⟩

theorem kept_spares {M : κ → List ε → Bool} (hM : ∀ k past, M k past = true → ended S k past = true) :
    ∀ h, Spares S h (kept S M h) := by
  intro h
  induction h with
  | nil => exact .nil
  | cons e past ih =>
    unfold kept
    split_ifs with hd
    · rw [Bool.and_eq_true] at hd
      exact .drop e hd.1 (hM _ _ hd.2) ih
    · exact .keep e ih

theorem epoch_cons (e : ε) (past : List ε) : epoch S k (e :: past) =
    if S.key e = k then
      if S.opens e then some false else if S.ends e then (epoch S k past).map fun _ => true
      else epoch S k past
    else epoch S k past := rfl

theorem endedAlone_cons (e : ε) (past : List ε) : endedAlone S k (e :: past) =
    if S.key e = k then !S.opens e && (S.ends e || endedAlone S k past) else false := rfl

theorem epoch_end (hk : S.key e = k) (he : S.ends e = true) :
    epoch S k (e :: past) = (epoch S k past).map fun _ => true := by
  rw [epoch_cons, if_pos hk, S.apart e he, he]
  rfl

/-- An epoch that has ended alone has ended. -/
theorem epoch_of_alone (h : endedAlone S k past = true) : epoch S k past ≠ some false := by
  induction past with
  | nil => cases h
  | cons e past ih =>
    rw [endedAlone_cons] at h
    rw [epoch_cons]
    split_ifs at h ⊢ with hk ho he
    · rw [ho] at h
      cases h
    · cases epoch S k past <;> simp
    · rw [Bool.and_eq_true, Bool.or_eq_true] at h
      exact ih (h.2.resolve_left he)

/-! ### One key remembered -/

variable (S)

/-- An end that comes when its epoch has not ended. -/
def First (past : List ε) (e : ε) : Prop := S.ends e = true → epoch S (S.key e) past ≠ some true

/-- An end of an epoch that has ended comes with nothing of another key since. -/
def Unforgotten (past : List ε) (e : ε) : Prop :=
  S.ends e = true → epoch S (S.key e) past = some true → endedAlone S (S.key e) past = true

variable {S}

/-- An end that is left out is not missed. -/
theorem epoch_kept (h : List ε) : epoch S k (kept S (endedAlone S) h) = epoch S k h := by
  induction h generalizing k with
  | nil => rfl
  | cons e past ih =>
    unfold kept
    split_ifs with hd
    · rw [Bool.and_eq_true] at hd
      rw [ih]
      by_cases hk : S.key e = k
      · subst hk
        rw [epoch_end rfl hd.1]
        cases he : epoch S (S.key e) past with
        | none => rfl
        | some b =>
          cases b with
          | false => exact absurd he (epoch_of_alone hd.2)
          | true => rfl
      · rw [epoch_cons, if_neg hk]
    · rw [epoch_cons, epoch_cons, ih]

/-- **The step and the run**: what is let through has one end an epoch where no ended one is forgotten. -/
theorem along_kept_iff (h : List ε) :
    Along (First S) (kept S (endedAlone S) h) ↔ Along (Unforgotten S) h := by
  induction h with
  | nil => exact Iff.rfl
  | cons e past ih =>
    unfold kept
    by_cases hd : (S.ends e && endedAlone S (S.key e) past) = true
    · rw [if_pos hd, ih, along_cons, and_iff_right]
      rw [Bool.and_eq_true] at hd
      exact fun _ _ => hd.2
    · rw [if_neg hd, along_cons, along_cons, ih]
      refine and_congr_left fun _ => ?_
      unfold First Unforgotten
      rw [epoch_kept]
      refine forall_congr' fun he => ?_
      rw [Bool.and_eq_true, not_and] at hd
      exact ⟨fun hn hs => absurd hs hn, fun hu hs => hd he (hu hs)⟩

/-! ### Two ends of one epoch -/

/-- Events that do not open leave the epoch ended. -/
theorem epoch_append (hL : ∀ x ∈ L, S.key x = k → S.opens x = false)
    (h : epoch S k past = some true) : epoch S k (L ++ past) = some true := by
  induction L with
  | nil => exact h
  | cons x L ih =>
    rw [List.forall_mem_cons] at hL
    rw [List.cons_append, epoch_cons, ih hL.2]
    split_ifs with hk ho he
    · rw [hL.1 hk] at ho
      cases ho
    all_goals rfl

theorem isSome_epoch_append (hL : ∀ x ∈ L, S.key x = k → S.opens x = false)
    (h : (epoch S k past).isSome) : (epoch S k (L ++ past)).isSome := by
  induction L with
  | nil => exact h
  | cons x L ih =>
    rw [List.forall_mem_cons] at hL
    rw [List.cons_append, epoch_cons]
    split_ifs with hk ho he
    · rfl
    · rw [Option.isSome_map]
      exact ih hL.2
    · exact ih hL.2
    · exact ih hL.2

/-- Behind an epoch there is its opening. -/
theorem exists_opening (h : (epoch S k past).isSome) : ∃ A o pre, past = A ++ o :: pre ∧
    S.opens o = true ∧ S.key o = k ∧ ∀ x ∈ A, S.key x = k → S.opens x = false := by
  induction past with
  | nil => cases h
  | cons x past ih =>
    rw [epoch_cons] at h
    by_cases hx : S.key x = k ∧ S.opens x = true
    · exact ⟨[], x, past, rfl, hx.2, hx.1, fun y hy => absurd hy List.not_mem_nil⟩
    · have hpast : (epoch S k past).isSome := by
        split_ifs at h with hk ho he
        · exact absurd ⟨hk, ho⟩ hx
        · rwa [Option.isSome_map] at h
        · exact h
        · exact h
      obtain ⟨A, o, pre, rfl, ho, hko, hno⟩ := ih hpast
      refine ⟨x :: A, o, pre, rfl, ho, hko, List.forall_mem_cons.mpr ⟨fun hk => ?_, hno⟩⟩
      simpa [hk] using hx

variable (S)

/-- Two ends of one epoch: `A` is between its opening and the first, and `B` between the two. -/
structure Twice (h : List ε) (k : κ) (A B : List ε) : Prop where
  found : ∃ later e' e o pre, h = later ++ e' :: (B ++ e :: (A ++ o :: pre)) ∧ S.opens o = true ∧
    S.ends e = true ∧ S.ends e' = true ∧ S.key o = k ∧ S.key e = k ∧ S.key e' = k
  unopened : ∀ x ∈ B ++ A, S.key x = k → S.opens x = false

variable {S}

/-- Before the second end the epoch has ended. -/
theorem epoch_twice {A B pre : List ε} {o : ε} (ho : S.opens o = true) (he : S.ends e = true)
    (hko : S.key o = k) (hke : S.key e = k) (hno : ∀ x ∈ B ++ A, S.key x = k → S.opens x = false) :
    epoch S k (B ++ e :: (A ++ o :: pre)) = some true := by
  have hopen : (epoch S k (o :: pre)).isSome := by
    rw [epoch_cons, if_pos hko, if_pos ho]
    rfl
  have hA := isSome_epoch_append (fun x hx => hno x (List.mem_append_right B hx)) hopen
  refine epoch_append (fun x hx => hno x (List.mem_append_left A hx)) ?_
  obtain ⟨b, hb⟩ := Option.isSome_iff_exists.mp hA
  rw [epoch_end hke he, hb]
  rfl

/-- Behind an ended epoch there are its opening and an end. -/
theorem exists_of_epoch (h : epoch S k past = some true) : ∃ B e A o pre,
    past = B ++ e :: (A ++ o :: pre) ∧ S.opens o = true ∧ S.ends e = true ∧ S.key o = k ∧
      S.key e = k ∧ ∀ x ∈ B ++ A, S.key x = k → S.opens x = false := by
  induction past with
  | nil => cases h
  | cons x past ih =>
    by_cases hx : S.key x = k ∧ S.ends x = true
    · -- the epoch was open, and this is an end of it
      rw [epoch_end hx.1 hx.2] at h
      obtain ⟨b, hb, -⟩ := Option.map_eq_some_iff.mp h
      obtain ⟨A, o, pre, rfl, ho, hko, hno⟩ := exists_opening (Option.isSome_iff_exists.mpr ⟨b, hb⟩)
      exact ⟨[], x, A, o, pre, rfl, ho, hx.2, hko, hx.1, hno⟩
    · have hpast : epoch S k past = some true ∧ (S.key x = k → S.opens x = false) := by
        rw [epoch_cons] at h
        split_ifs at h with hk ho he
        · cases h
        · exact absurd ⟨hk, he⟩ hx
        · exact ⟨h, fun _ => by simpa using ho⟩
        · exact ⟨h, fun hk' => absurd hk' hk⟩
      obtain ⟨B, e, A, o, pre, rfl, ho, he, hko, hke, hno⟩ := ih hpast.1
      exact ⟨x :: B, e, A, o, pre, rfl, ho, he, hko, hke, List.forall_mem_cons.mpr ⟨hpast.2, hno⟩⟩

/-- One end an epoch, at each event. -/
theorem first_iff {h : List ε} : Along (First S) h ↔ ∀ k A B, ¬ Twice S h k A B := by
  rw [along_iff]
  constructor
  · rintro hf k A B ⟨⟨later, e', e, o, pre, rfl, ho, he, he', hko, hke, rfl⟩, hno⟩
    exact hf later e' _ rfl he' (epoch_twice ho he hko hke hno)
  · rintro ht later e past rfl he hepoch
    obtain ⟨B, e', A, o, pre, rfl, ho, he', hko, hke, hno⟩ := exists_of_epoch hepoch
    exact ht (S.key e) A B ⟨⟨later, e, e', o, pre, rfl, ho, he', he, hko, hke, rfl⟩, hno⟩

/-- Once an ended epoch is forgotten, its next end comes unexpected. -/
theorem forgotten {e' : ε} (h : Along (Unforgotten S) (e' :: (L ++ past)))
    (hp : epoch S k past = some true) (ha : endedAlone S k past = false)
    (hL : ∀ x ∈ L, S.key x = k → S.opens x = false) (he : S.ends e' = true) (hk : S.key e' = k) :
    False := by
  subst hk
  -- no end of the key can be next
  have hnext : endedAlone S (S.key e') (L ++ past) = false := by
    replace h := h.2
    induction L with
    | nil => exact ha
    | cons x L ih =>
      rw [List.forall_mem_cons] at hL
      have halone := ih hL.2 h.2
      rw [List.cons_append, endedAlone_cons]
      split_ifs with hkx
      · rw [halone, Bool.or_false, Bool.and_eq_false_iff]
        by_contra hend
        have hepoch := epoch_append hL.2 hp
        rw [← hkx] at hepoch halone
        have hx := h.1 (by simpa using fun hc => hend (Or.inr hc)) hepoch
        exact Bool.false_ne_true (halone.symm.trans hx)
      · rfl
  exact Bool.false_ne_true (hnext.symm.trans (h.1 he (epoch_append hL hp)))

theorem alone_append (hL : ∀ x ∈ L, S.key x = k ∧ S.opens x = false)
    (h : endedAlone S k past = true) : endedAlone S k (L ++ past) = true := by
  induction L with
  | nil => exact h
  | cons x L ih =>
    rw [List.forall_mem_cons] at hL
    rw [List.cons_append, endedAlone_cons, if_pos hL.1.1, hL.1.2, ih hL.2, Bool.or_true]
    rfl

/-- Ended epochs are not forgotten exactly where nothing comes between two ends of one. -/
theorem unforgotten_iff {h : List ε} : Along (Unforgotten S) h ↔
    ∀ k A B, Twice S h k A B → ∀ x ∈ B, S.key x = k := by
  constructor
  · rintro hu k A B ⟨⟨later, e', e, o, pre, rfl, ho, he, he', hko, hke, hke'⟩, hno⟩ x hx
    by_contra hkx
    obtain ⟨B, B', rfl⟩ := List.append_of_mem hx
    have hsplit : B ++ x :: B' ++ e :: (A ++ o :: pre) = B ++ (x :: (B' ++ e :: (A ++ o :: pre))) := by
      simp
    rw [hsplit] at hu
    refine forgotten hu.of_append ?_ ?_ (fun y hy => hno y ?_) he' hke'
    · rw [epoch_cons, if_neg hkx]
      refine epoch_twice ho he hko hke fun y hy => hno y ?_
      simp only [List.mem_append, List.mem_cons] at hy ⊢
      tauto
    · rw [endedAlone_cons, if_neg hkx]
    · exact List.mem_append_left _ (List.mem_append_left _ hy)
  · intro ht
    rw [along_iff]
    rintro later e past rfl he hepoch
    obtain ⟨B, e', A, o, pre, rfl, ho, he', hko, hke, hno⟩ := exists_of_epoch hepoch
    have hB := ht (S.key e) A B ⟨⟨later, e, e', o, pre, rfl, ho, he', he, hko, hke, rfl⟩, hno⟩
    refine alone_append (fun x hx => ⟨hB x hx, hno x (List.mem_append_left A hx) (hB x hx)⟩) ?_
    rw [endedAlone_cons, if_pos hke, S.apart e' he', he']
    rfl

/-- **One end an epoch**: what the filter lets through that remembers one key has it, on the histories
in which nothing comes between two ends of one epoch. -/
theorem kept_once_iff {h : List ε} : (∀ k A B, ¬ Twice S (kept S (endedAlone S) h) k A B) ↔
    ∀ k A B, Twice S h k A B → ∀ x ∈ B, S.key x = k :=
  first_iff.symm.trans ((along_kept_iff h).trans unforgotten_iff)

end AquaTransport.Epochs
