import Mathlib.Computability.Language
import Mathlib.Data.List.TakeWhile

/-!
# AquaTransport.Lib.Scan — languages that a left-to-right scan recognises

A text that is the concatenation of pieces is cut by a scan where each piece says at which letter it
ends: a run of letters in `p` before something that does not start in `p`, a literal up to a folding
of its letters, and whatever stands before the last `c`.
-/

namespace AquaTransport.Scan

variable {α β : Type*} {p : α → Bool} {f : α → β} {A B : Language α} {w : List α}

/-- Words of letters in `p`. -/
def run (p : α → Bool) : Language α := {w | ∀ c ∈ w, p c = true}

/-- Texts at which a scan for `p` stops at once. -/
def halt (p : α → Bool) : Language α := {w | ∀ c ∈ w.head?, p c = false}

/-- Words whose letters fold to a literal. -/
def fold (f : α → β) (v : List β) : Language α := {w | w.map f = v}

theorem mem_fold {v : List β} : w ∈ fold f v ↔ w.map f = v := Iff.rfl

theorem takeWhile_mem_run : w.takeWhile p ∈ run p := fun _ hc => List.mem_takeWhile_imp hc

theorem dropWhile_mem_halt : w.dropWhile p ∈ halt p := by
  intro c hc
  have := List.head?_dropWhile_not p w
  rw [Option.mem_def.mp hc] at this
  simpa using this

theorem takeWhile_halt (h : w ∈ halt p) : w.takeWhile p = [] := by
  cases w with
  | nil => rfl
  | cons c w => exact List.takeWhile_cons_of_neg (by simp [h c rfl])

theorem dropWhile_halt (h : w ∈ halt p) : w.dropWhile p = w := by
  cases w with
  | nil => rfl
  | cons c w => exact List.dropWhile_cons_of_neg (by simp [h c rfl])

/-- A scan cuts between a run and what stops it. -/
theorem scan_append {a b : List α} (ha : a ∈ run p) (hb : b ∈ halt p) :
    (a ++ b).takeWhile p = a ∧ (a ++ b).dropWhile p = b := by
  refine ⟨?_, ?_⟩
  · rw [List.takeWhile_append_of_pos ha, takeWhile_halt hb, List.append_nil]
  · rw [List.dropWhile_append_of_pos ha, dropWhile_halt hb]

/-- A concatenation is recognised by one scan when the letters tell the pieces apart. -/
theorem mem_mul_scan (hA : ∀ a ∈ A, a ∈ run p) (hB : ∀ b ∈ B, b ∈ halt p) :
    w ∈ A * B ↔ w.takeWhile p ∈ A ∧ w.dropWhile p ∈ B := by
  rw [Language.mem_mul]
  constructor
  · rintro ⟨a, ha, b, hb, rfl⟩
    obtain ⟨h1, h2⟩ := scan_append (hA a ha) (hB b hb)
    rw [h1, h2]
    exact ⟨ha, hb⟩
  · rintro ⟨ha, hb⟩
    exact ⟨_, ha, _, hb, List.takeWhile_append_dropWhile⟩

theorem fold_append {u v : List β} : fold f (u ++ v) = fold f u * fold f v := by
  ext w
  rw [mem_fold, List.map_eq_append_iff, Language.mem_mul]
  constructor
  · rintro ⟨a, b, rfl, ha, hb⟩
    exact ⟨a, ha, b, hb, rfl⟩
  · rintro ⟨a, ha, b, hb, rfl⟩
    exact ⟨a, b, rfl, ha, hb⟩

/-- A literal is compared first, and the rest read behind it. -/
theorem mem_fold_mul {v : List β} :
    w ∈ fold f v * B ↔ v <+: w.map f ∧ w.drop v.length ∈ B := by
  rw [Language.mem_mul]
  constructor
  · rintro ⟨a, ha, b, hb, rfl⟩
    obtain rfl := mem_fold.mp ha
    refine ⟨?_, ?_⟩
    · rw [List.map_append]
      exact List.prefix_append _ _
    · rwa [List.length_map, List.drop_left]
  · rintro ⟨⟨u, hu⟩, hb⟩
    obtain ⟨a, b, rfl, ha, -⟩ := List.map_eq_append_iff.mp hu.symm
    refine ⟨a, ha, b, ?_, rfl⟩
    rwa [← ha, List.length_map, List.drop_left] at hb

/-! ### Letters of a concatenation -/

theorem run_mul (hA : ∀ a ∈ A, a ∈ run p) (hB : ∀ b ∈ B, b ∈ run p) : ∀ w ∈ A * B, w ∈ run p := by
  intro w hw c hc
  obtain ⟨a, ha, b, hb, rfl⟩ := Language.mem_mul.mp hw
  rcases List.mem_append.mp hc with hc | hc
  · exact hA a ha c hc
  · exact hB b hb c hc

theorem run_add (hA : ∀ a ∈ A, a ∈ run p) (hB : ∀ b ∈ B, b ∈ run p) : ∀ w ∈ A + B, w ∈ run p := by
  intro w hw
  rcases (Language.mem_add _ _ _).mp hw with hw | hw
  · exact hA w hw
  · exact hB w hw

theorem run_one : ∀ w ∈ (1 : Language α), w ∈ run p := by
  intro w hw
  rw [(Language.mem_one w).mp hw]
  exact fun c hc => absurd hc List.not_mem_nil

theorem run_mono {q : α → Bool} (h : ∀ c, p c = true → q c = true) (hw : w ∈ run p) : w ∈ run q :=
  fun c hc => h c (hw c hc)

theorem run_prefix {a b : List α} (h : a ++ b ∈ run p) : a ∈ run p :=
  fun c hc => h c (List.mem_append_left b hc)

section Last

variable [DecidableEq α] {c : α}

/-- What stands behind the last `c`, or all. -/
def afterLast (c : α) (w : List α) : List α := (w.reverse.takeWhile (· ≠ c)).reverse

/-- Texts that end in `c`, or nothing. -/
def upTo (c : α) (A : Language α) : Language α := 1 + A * {[c]}

theorem afterLast_of_not_mem (h : c ∉ w) : afterLast c w = w := by
  unfold afterLast
  rw [List.takeWhile_eq_self_iff.mpr, List.reverse_reverse]
  intro d hd
  simp only [ne_eq, decide_eq_true_eq]
  rintro rfl
  exact h (List.mem_reverse.mp hd)

theorem afterLast_append {u v : List α} (h : c ∉ v) : afterLast c (u ++ c :: v) = v := by
  have hv : ∀ d ∈ v.reverse, decide (d ≠ c) = true := by
    intro d hd
    simp only [ne_eq, decide_eq_true_eq]
    rintro rfl
    exact h (List.mem_reverse.mp hd)
  unfold afterLast
  rw [List.reverse_append, List.reverse_cons, List.append_assoc, List.takeWhile_append_of_pos hv,
    List.singleton_append, List.takeWhile_cons_of_neg (by simp), List.append_nil,
    List.reverse_reverse]

/-- A text is what stands up to its last `c` and what follows. -/
theorem split_afterLast : w = afterLast c w ∨ ∃ u, w = u ++ c :: afterLast c w := by
  by_cases h : c ∈ w
  · right
    have hr := (List.takeWhile_append_dropWhile (p := fun d => decide (d ≠ c)) (l := w.reverse)).symm
    have hne : w.reverse.dropWhile (fun d => decide (d ≠ c)) ≠ [] := by
      intro hnil
      have := (List.dropWhile_eq_nil_iff.mp hnil) c (List.mem_reverse.mpr h)
      simp at this
    obtain ⟨d, t, ht⟩ := List.exists_cons_of_ne_nil hne
    have hd : d = c := by
      have hhalt : d :: t ∈ halt fun d => decide (d ≠ c) := ht ▸ dropWhile_mem_halt
      have := hhalt d rfl
      simpa using this
    refine ⟨t.reverse, ?_⟩
    rw [← List.reverse_reverse w]
    conv_lhs => rw [hr, ht, hd]
    rw [List.reverse_append, List.reverse_cons, List.append_assoc, List.singleton_append,
      List.reverse_reverse]
    rfl
  · exact Or.inl (afterLast_of_not_mem h).symm

/-- What is read behind the last `c`. -/
theorem mem_upTo_mul (hw : w ∈ run p) (hB : ∀ b ∈ B, c ∉ b) :
    w ∈ upTo c (run p) * B ↔ afterLast c w ∈ B := by
  rw [Language.mem_mul]
  constructor
  · rintro ⟨u, hu, b, hb, rfl⟩
    rcases (Language.mem_add _ _ _).mp hu with hu | hu
    · obtain rfl := (Language.mem_one _).mp hu
      rwa [List.nil_append, afterLast_of_not_mem (hB b hb)]
    · obtain ⟨a, -, d, rfl, rfl⟩ := Language.mem_mul.mp hu
      rwa [List.append_assoc, List.singleton_append, afterLast_append (hB b hb)]
  · intro h
    rcases split_afterLast (c := c) (w := w) with he | ⟨u, he⟩
    · exact ⟨[], Or.inl rfl, _, h, by rw [List.nil_append, ← he]⟩
    · refine ⟨u ++ [c], Or.inr (Language.append_mem_mul ?_ rfl), _, h, ?_⟩
      · exact run_prefix (b := c :: afterLast c w) (he ▸ hw)
      · rw [List.append_assoc, List.singleton_append, ← he]

end Last

end AquaTransport.Scan
