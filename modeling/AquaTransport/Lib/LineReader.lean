import AquaTransport.Lib.Scan
import Mathlib.Data.List.DropRight

/-!
# AquaTransport.Lib.LineReader — lines read through a buffer of fixed size

A text is read in pieces of at most `room` letters, each up to and with the first separator; blanks at
the right end of a piece are cut off, and empty pieces part the others into blocks.  `blocks_buffers_iff`
and `mem_buffers_iff` say for which texts the pieces serve for the lines.
-/

namespace AquaTransport.LineReader

variable {α : Type*} {sep : α} {room : ℕ} {l f rest : List α}

theorem trim_append {blank : α → Bool} {a b : List α} : (a ++ b).rdropWhile blank =
    if b.rdropWhile blank = [] then a.rdropWhile blank else a ++ b.rdropWhile blank := by
  unfold List.rdropWhile
  rw [List.reverse_append, List.dropWhile_append]
  cases h : b.reverse.dropWhile blank with
  | nil => simp
  | cons c t => simp

theorem length_trim_le {blank : α → Bool} : (l.rdropWhile blank).length ≤ l.length :=
  (List.rdropWhile_prefix blank l).length_le

theorem take_drop_append {e : List α} (hroom : room ≤ l.length) :
    l ++ e = l.take room ++ (l.drop room ++ e) ∧ (l.take room).length = room := by
  rw [← List.append_assoc, List.take_append_drop]
  exact ⟨rfl, List.length_take_of_le hroom⟩

theorem not_mem_drop {n : ℕ} (hl : sep ∉ l) : sep ∉ l.drop n :=
  fun h => hl (List.mem_of_mem_drop h)

variable [DecidableEq α]

/-! ### Buffers -/

/-- At most `room` letters, up to and with the first separator, and what is not read. -/
def readBuffer (sep : α) : ℕ → List α → List α × List α
  | 0, f => ([], f)
  | _ + 1, [] => ([], [])
  | room + 1, c :: f =>
    if c = sep then ([c], f)
    else
      let r := readBuffer sep room f
      (c :: r.1, r.2)

theorem readBuffer_lt (hf : f ≠ []) (hroom : room ≠ 0) : (readBuffer sep room f).2.length < f.length := by
  have hle : ∀ room (f : List α), (readBuffer sep room f).2.length ≤ f.length := by
    intro room
    induction room with
    | zero => exact fun f => le_rfl
    | succ room ih =>
      intro f
      cases f with
      | nil => exact le_rfl
      | cons c f =>
        rw [readBuffer]
        split_ifs
        · exact Nat.le_succ f.length
        · exact (ih f).trans (Nat.le_succ f.length)
  obtain ⟨room, rfl⟩ := Nat.exists_eq_succ_of_ne_zero hroom
  obtain ⟨c, f, rfl⟩ := List.exists_cons_of_ne_nil hf
  rw [readBuffer]
  split_ifs
  · exact Nat.lt_succ_self f.length
  · exact Nat.lt_succ_of_le (hle room f)

/-- The buffers that a text is read into. -/
def buffers (sep : α) (room : ℕ) (f : List α) : List (List α) :=
  if _h : f ≠ [] ∧ room ≠ 0 then
    (readBuffer sep room f).1 :: buffers sep room (readBuffer sep room f).2
  else []
termination_by f.length
decreasing_by exact readBuffer_lt _h.1 _h.2

theorem buffers_nil : buffers sep room [] = [] := by
  rw [buffers, dif_neg fun h => h.1 rfl]

/-- A line that fits is read with its separator. -/
theorem readBuffer_line (hl : sep ∉ l) (hroom : l.length < room) :
    readBuffer sep room (l ++ sep :: rest) = (l ++ [sep], rest) := by
  induction l generalizing room with
  | nil =>
    obtain ⟨room, rfl⟩ := Nat.exists_eq_succ_of_ne_zero (Nat.ne_of_gt hroom)
    rw [List.nil_append, readBuffer, if_pos rfl]
    rfl
  | cons c l ih =>
    rw [List.mem_cons, not_or] at hl
    obtain ⟨room, rfl⟩ := Nat.exists_eq_succ_of_ne_zero (Nat.ne_zero_of_lt hroom)
    rw [List.cons_append, readBuffer, if_neg (Ne.symm hl.1), ih hl.2 (Nat.lt_of_succ_lt_succ hroom)]
    rfl

/-- Of one that does not fit the buffer takes what it can. -/
theorem readBuffer_long (hl : sep ∉ l) (hroom : room ≤ l.length) :
    readBuffer sep room (l ++ rest) = (l.take room, l.drop room ++ rest) := by
  induction l generalizing room with
  | nil =>
    obtain rfl : room = 0 := Nat.le_zero.mp hroom
    rfl
  | cons c l ih =>
    rw [List.mem_cons, not_or] at hl
    cases room with
    | zero => rfl
    | succ room =>
      rw [List.cons_append, readBuffer, if_neg (Ne.symm hl.1), ih hl.2 (Nat.le_of_succ_le_succ hroom)]
      rfl

/-- A last line without a separator. -/
theorem readBuffer_last (hl : sep ∉ l) (hroom : l.length ≤ room) : readBuffer sep room l = (l, []) := by
  induction l generalizing room with
  | nil => cases room <;> rfl
  | cons c l ih =>
    rw [List.mem_cons, not_or] at hl
    obtain ⟨room, rfl⟩ := Nat.exists_eq_succ_of_ne_zero (Nat.ne_zero_of_lt (Nat.lt_of_succ_le hroom))
    rw [readBuffer, if_neg (Ne.symm hl.1), ih hl.2 (Nat.le_of_succ_le_succ hroom)]

theorem buffers_line (hl : sep ∉ l) (hroom : l.length < room) :
    buffers sep room (l ++ sep :: rest) = (l ++ [sep]) :: buffers sep room rest := by
  rw [buffers, dif_pos ⟨by simp, by omega⟩, readBuffer_line hl hroom]

theorem buffers_long (hl : sep ∉ l) (hpos : room ≠ 0) (hroom : room ≤ l.length) :
    buffers sep room (l ++ rest) = l.take room :: buffers sep room (l.drop room ++ rest) := by
  have hne : l ++ rest ≠ [] := by
    intro h
    rw [(List.append_eq_nil_iff.mp h).1, List.length_nil] at hroom
    omega
  rw [buffers, dif_pos ⟨hne, hpos⟩, readBuffer_long hl hroom]

theorem buffers_last (hl : sep ∉ l) (hne : l ≠ []) (hroom : l.length ≤ room) :
    buffers sep room l = [l] := by
  have hpos := List.length_pos_iff.mpr hne
  rw [buffers, dif_pos ⟨hne, by omega⟩, readBuffer_last hl hroom, buffers_nil]

/-- Lines are read one after another. -/
theorem buffers_append (hl : sep ∉ l) (hpos : room ≠ 0) :
    buffers sep room (l ++ sep :: rest) = buffers sep room (l ++ [sep]) ++ buffers sep room rest := by
  induction hn : l.length using Nat.strong_induction_on generalizing l with
  | _ n ih =>
    by_cases hroom : l.length < room
    · rw [buffers_line hl hroom, buffers_line hl hroom, buffers_nil]
      rfl
    · have hle : room ≤ l.length := by omega
      rw [buffers_long hl hpos hle, buffers_long hl hpos hle, List.cons_append,
        ih (l.drop room).length (by rw [List.length_drop]; omega) (not_mem_drop hl) rfl]

/-! ### The pieces of one line -/

section Trim

variable {blank : α → Bool}

/-- The line with its separator, or the last one without. -/
def Ends (sep : α) (e : List α) : Prop := e = [sep] ∨ e = []

variable {e : List α}

/-- What the buffers of a line are, with one buffer taken off. -/
theorem buffers_ends (he : Ends sep e) (hl : sep ∉ l) (hpos : room ≠ 0) :
    (l ++ e = [] ∧ buffers sep room (l ++ e) = []) ∨
      (l ++ e ≠ [] ∧ (l ++ e).length ≤ room ∧ buffers sep room (l ++ e) = [l ++ e]) ∨
      (room < (l ++ e).length ∧ room ≤ l.length ∧
        buffers sep room (l ++ e) = l.take room :: buffers sep room (l.drop room ++ e)) := by
  rcases he with rfl | rfl
  · by_cases hroom : l.length < room
    · refine Or.inr (Or.inl ⟨by simp, by rw [List.length_append]; exact hroom, ?_⟩)
      rw [buffers_line hl hroom, buffers_nil]
    · refine Or.inr (Or.inr ⟨by simp; omega, by omega, buffers_long hl hpos (by omega)⟩)
  · rw [List.append_nil]
    by_cases hnil : l = []
    · subst hnil
      exact Or.inl ⟨rfl, buffers_nil⟩
    · by_cases hroom : l.length ≤ room
      · exact Or.inr (Or.inl ⟨hnil, hroom, buffers_last hl hnil hroom⟩)
      · refine Or.inr (Or.inr ⟨by omega, by omega, ?_⟩)
        have hlong : buffers sep room (l ++ []) = l.take room :: buffers sep room (l.drop room ++ []) :=
          buffers_long hl hpos (by omega)
        rwa [List.append_nil] at hlong

/-- No piece is longer than the buffer. -/
theorem length_piece_le (he : Ends sep e) (hl : sep ∉ l) (hpos : room ≠ 0) :
    ∀ p ∈ buffers sep room (l ++ e), p.length ≤ room := by
  induction hn : l.length using Nat.strong_induction_on generalizing l with
  | _ n ih =>
    intro p hp
    rcases buffers_ends he hl hpos with ⟨-, hb⟩ | ⟨-, hlen, hb⟩ | ⟨-, hroom, hb⟩
    · rw [hb] at hp
      cases hp
    · rw [hb, List.mem_singleton] at hp
      exact hp ▸ hlen
    · rw [hb, List.mem_cons] at hp
      rcases hp with rfl | hp
      · exact (take_drop_append (e := e) hroom).2.le
      · exact ih _ (by rw [List.length_drop]; omega) (not_mem_drop hl) rfl p hp

/-- The pieces of a blank line are blank. -/
theorem trim_pieces_blank (he : Ends sep e) (hl : sep ∉ l) (hpos : room ≠ 0)
    (ht : (l ++ e).rdropWhile blank = []) :
    ∀ p ∈ buffers sep room (l ++ e), p.rdropWhile blank = [] := by
  induction hn : l.length using Nat.strong_induction_on generalizing l with
  | _ n ih =>
    intro p hp
    rcases buffers_ends he hl hpos with ⟨-, hb⟩ | ⟨-, -, hb⟩ | ⟨-, hroom, hb⟩
    · rw [hb] at hp
      cases hp
    · rw [hb, List.mem_singleton] at hp
      exact hp ▸ ht
    · obtain ⟨hsplit, hlen⟩ := take_drop_append (e := e) hroom
      rw [hsplit, trim_append] at ht
      have hrest : (l.drop room ++ e).rdropWhile blank = [] := by
        by_contra hne
        rw [if_neg hne, List.append_eq_nil_iff] at ht
        exact hne ht.2
      rw [if_pos hrest] at ht
      rw [hb, List.mem_cons] at hp
      rcases hp with rfl | hp
      · exact ht
      · exact ih _ (by rw [List.length_drop]; omega) (not_mem_drop hl) hrest rfl p hp

/-- A line whose letters fit is its first piece, and what the buffer leaves of it is blank. -/
theorem trim_pieces_fit (he : Ends sep e) (hl : sep ∉ l) (hpos : room ≠ 0)
    (ht : (l ++ e).rdropWhile blank ≠ []) (hfit : ((l ++ e).rdropWhile blank).length ≤ room) :
    ∃ k, (buffers sep room (l ++ e)).map (·.rdropWhile blank) =
      (l ++ e).rdropWhile blank :: List.replicate k [] ∧ (k = 0 ↔ (l ++ e).length ≤ room) := by
  rcases buffers_ends he hl hpos with ⟨hnil, -⟩ | ⟨-, hlen, hb⟩ | ⟨hlen, hroom, hb⟩
  · rw [hnil] at ht
    exact absurd rfl ht
  · exact ⟨0, by rw [hb]; rfl, by omega⟩
  · obtain ⟨hsplit, hlen'⟩ := take_drop_append (e := e) hroom
    -- letters behind the first buffer would make the line too long
    have hrest : (l.drop room ++ e).rdropWhile blank = [] := by
      by_contra hne
      have hpos' := List.length_pos_iff.mpr hne
      rw [hsplit, trim_append, if_neg hne, List.length_append] at hfit
      omega
    have hblank := trim_pieces_blank he (not_mem_drop hl) hpos hrest
    refine ⟨(buffers sep room (l.drop room ++ e)).length, ?_, ?_⟩
    · rw [hb, List.map_cons]
      congr 1
      · conv_rhs => rw [hsplit, trim_append, if_pos hrest]
      · rw [List.eq_replicate_iff, List.length_map]
        refine ⟨rfl, fun p hp => ?_⟩
        obtain ⟨q, hq, rfl⟩ := List.mem_map.mp hp
        exact hblank q hq
    · have hne : l.drop room ++ e ≠ [] := by
        intro hnil
        have := congrArg List.length hsplit
        rw [hnil, List.append_nil] at this
        omega
      refine iff_of_false ?_ (by omega)
      rw [List.length_eq_zero_iff, buffers, dif_pos ⟨hne, hpos⟩]
      exact List.cons_ne_nil _ _

/-- A line with letters has a piece with letters. -/
theorem exists_piece (he : Ends sep e) (hl : sep ∉ l) (hpos : room ≠ 0)
    (ht : (l ++ e).rdropWhile blank ≠ []) :
    ∃ p ∈ buffers sep room (l ++ e), p.rdropWhile blank ≠ [] := by
  induction hn : l.length using Nat.strong_induction_on generalizing l with
  | _ n ih =>
    rcases buffers_ends he hl hpos with ⟨hnil, -⟩ | ⟨-, -, hb⟩ | ⟨-, hroom, hb⟩
    · rw [hnil] at ht
      exact absurd rfl ht
    · rw [hb]
      exact ⟨_, List.mem_singleton_self _, ht⟩
    · rw [hb]
      obtain ⟨hsplit, -⟩ := take_drop_append (e := e) hroom
      by_cases hrest : (l.drop room ++ e).rdropWhile blank = []
      · refine ⟨_, List.mem_cons_self, ?_⟩
        rwa [hsplit, trim_append, if_pos hrest] at ht
      · obtain ⟨p, hp, hne⟩ := ih _ (by rw [List.length_drop]; omega) (not_mem_drop hl) hrest rfl
        exact ⟨p, List.mem_cons_of_mem _ hp, hne⟩

end Trim

/-! ### Blocks -/

section Blocks

variable {X Y : List (List α)} {o o' : Bool}

/-- The runs of lines with letters. -/
def blocks (X : List (List α)) : List (List (List α)) := (X.splitOn []).filter (· ≠ [])

/-- The lines with letters, each with whether a block starts there; `o` is whether one is open. -/
def mark (o : Bool) : List (List α) → List (List α × Bool)
  | [] => []
  | l :: X => if l = [] then mark false X else (l, !o) :: mark true X

/-- Whether a block is open behind the lines. -/
def openAfter (o : Bool) : List (List α) → Bool
  | [] => o
  | l :: X => openAfter (l ≠ []) X

omit [DecidableEq α] in
theorem mark_append : mark o (X ++ Y) = mark o X ++ mark (openAfter o X) Y := by
  induction X generalizing o with
  | nil => rfl
  | cons l X ih =>
    rw [List.cons_append, mark, mark, openAfter]
    by_cases hl : l = []
    · rw [if_pos hl, if_pos hl, ih]
      simp [hl]
    · rw [if_neg hl, if_neg hl, ih, List.cons_append]
      simp [hl]

omit [DecidableEq α] in
theorem length_mark : (mark o X).length = X.countP (· ≠ []) := by
  induction X generalizing o with
  | nil => rfl
  | cons l X ih =>
    rw [mark]
    by_cases hl : l = []
    · rw [if_pos hl, ih, List.countP_cons_of_neg (by simpa using hl)]
    · rw [if_neg hl, List.length_cons, ih, List.countP_cons_of_pos (by simpa using hl)]

/-- The lines of a block, where it starts and not. -/
def markBlock : List (List α) → List (List α × Bool)
  | [] => []
  | l :: b => (l, true) :: b.map fun l => (l, false)

theorem mark_splitOn : ∃ b B, X.splitOn [] = b :: B ∧
    mark true X = (b.map fun l => (l, false)) ++ B.flatMap markBlock ∧
    mark false X = markBlock b ++ B.flatMap markBlock := by
  induction X with
  | nil => exact ⟨[], [], List.splitOn_nil [], rfl, rfl⟩
  | cons l X ih =>
    obtain ⟨b, B, hs, ht, hf⟩ := ih
    rw [List.splitOn_cons_eq_if_modifyHead, hs]
    by_cases hl : l = []
    · refine ⟨[], b :: B, by simp [hl], ?_, ?_⟩ <;>
      · rw [mark, if_pos hl, hf]
        rfl
    · refine ⟨l :: b, B, by simp [hl], ?_, ?_⟩ <;>
      · rw [mark, if_neg hl, ht]
        rfl

theorem mark_eq_flatMap : mark false X = (blocks X).flatMap markBlock := by
  obtain ⟨b, B, hs, -, hf⟩ := mark_splitOn (X := X)
  have hdrop : ∀ B : List (List (List α)),
      B.flatMap markBlock = (B.filter (· ≠ [])).flatMap markBlock := by
    intro B
    induction B with
    | nil => rfl
    | cons b B ih =>
      by_cases hb : b = []
      · subst hb
        rw [List.flatMap_cons, List.filter_cons_of_neg (by simp), ih]
        rfl
      · rw [List.filter_cons_of_pos (by simpa using hb), List.flatMap_cons, List.flatMap_cons, ih]
  rw [hf, blocks, hs, ← hdrop]
  rfl

omit [DecidableEq α] in
/-- Blocks are read back from the marks. -/
theorem flatMap_markBlock_inj {B B' : List (List (List α))} (hB : ∀ b ∈ B, b ≠ [])
    (hB' : ∀ b ∈ B', b ≠ []) (h : B.flatMap markBlock = B'.flatMap markBlock) : B = B' := by
  have hhalt : ∀ B : List (List (List α)), (∀ b ∈ B, b ≠ []) →
      B.flatMap markBlock ∈ Scan.halt fun m : List α × Bool => !m.2 := by
    intro B hB m hm
    cases B with
    | nil => cases hm
    | cons b B =>
      obtain ⟨l, t, rfl⟩ := List.exists_cons_of_ne_nil (hB b List.mem_cons_self)
      obtain rfl := Option.some.inj hm
      rfl
  have hrun : ∀ t : List (List α), (t.map fun l => (l, false)) ∈
      Scan.run fun m : List α × Bool => !m.2 := by
    intro t m hm
    obtain ⟨l, -, rfl⟩ := List.mem_map.mp hm
    rfl
  induction B generalizing B' with
  | nil =>
    cases B' with
    | nil => rfl
    | cons b' B' =>
      obtain ⟨l', t', rfl⟩ := List.exists_cons_of_ne_nil (hB' b' List.mem_cons_self)
      cases h
  | cons b B ih =>
    obtain ⟨l, t, rfl⟩ := List.exists_cons_of_ne_nil (hB b List.mem_cons_self)
    cases B' with
    | nil => cases h
    | cons b' B' =>
      obtain ⟨l', t', rfl⟩ := List.exists_cons_of_ne_nil (hB' b' List.mem_cons_self)
      rw [List.forall_mem_cons] at hB hB'
      obtain ⟨hhead, htail⟩ := List.cons.inj h
      obtain ⟨ht, hd⟩ := Scan.scan_append (hrun t) (hhalt B hB.2)
      obtain ⟨ht', hd'⟩ := Scan.scan_append (hrun t') (hhalt B' hB'.2)
      have htail' : (t.map fun l => (l, false)) ++ B.flatMap markBlock =
          (t'.map fun l => (l, false)) ++ B'.flatMap markBlock := htail
      rw [htail'] at ht hd
      have hmap := ht.symm.trans ht'
      have hinj : Function.Injective fun l : List α => (l, false) := fun _ _ h => (Prod.mk.inj h).1
      rw [(Prod.mk.inj hhead).1, List.map_injective_iff.mpr hinj hmap,
        ih hB.2 hB'.2 (hd.symm.trans hd')]

theorem blocks_eq_iff : blocks X = blocks Y ↔ mark false X = mark false Y := by
  have hne : ∀ X : List (List α), ∀ b ∈ blocks X, b ≠ [] := by
    intro X b hb
    simpa using (List.mem_filter.mp hb).2
  rw [mark_eq_flatMap, mark_eq_flatMap]
  exact ⟨fun h => by rw [h], flatMap_markBlock_inj (hne X) (hne Y)⟩

end Blocks

/-! ### Pieces for lines -/

section Exact

variable {blank : α → Bool} {e : List α} {ls : List (List α)} {o o' : Bool}

omit [DecidableEq α] in
theorem mark_blanks {X : List (List α)} (hX : ∀ l ∈ X, l = []) :
    mark o X = [] ∧ (X ≠ [] → openAfter o X = false) := by
  induction X generalizing o with
  | nil => exact ⟨rfl, fun h => absurd rfl h⟩
  | cons l X ih =>
    rw [List.forall_mem_cons] at hX
    obtain ⟨rfl, hX⟩ := hX
    refine ⟨(ih hX).1, fun _ => ?_⟩
    by_cases hnil : X = []
    · subst hnil
      rfl
    · exact (ih hX).2 hnil

variable (blank o) in
/-- The marks of a line that fits. -/
theorem mark_pieces_fit (he : Ends sep e) (hl : sep ∉ l) (hpos : room ≠ 0)
    (ht : (l ++ e).rdropWhile blank ≠ []) (hfit : ((l ++ e).rdropWhile blank).length ≤ room) :
    let ps := (buffers sep room (l ++ e)).map (·.rdropWhile blank)
    mark o ps = [((l ++ e).rdropWhile blank, !o)] ∧
      openAfter o ps = decide ((l ++ e).length ≤ room) := by
  obtain ⟨k, hk, hk0⟩ := trim_pieces_fit he hl hpos ht hfit
  intro ps
  rw [show ps = _ from hk, mark, if_neg ht, openAfter]
  obtain ⟨hm, hopen⟩ := mark_blanks (o := true) (X := List.replicate k ([] : List α))
    fun l hl => List.eq_of_mem_replicate hl
  have hdec : (decide ((l ++ e).rdropWhile blank ≠ [])) = true := decide_eq_true ht
  refine ⟨by rw [hm], ?_⟩
  rw [hdec]
  cases k with
  | zero => exact (decide_eq_true (hk0.mp rfl)).symm
  | succ k =>
    rw [hopen (by simp)]
    exact (decide_eq_false fun h => absurd (hk0.mpr h) (Nat.succ_ne_zero k)).symm

variable (blank o o') in
/-- One line: its pieces serve for it exactly when its letters fit and the block is as open. -/
theorem mark_pieces_iff (he : Ends sep e) (hl : sep ∉ l) (hpos : room ≠ 0) :
    mark o ((buffers sep room (l ++ e)).map (·.rdropWhile blank)) =
        mark o' [(l ++ e).rdropWhile blank] ↔
      (l ++ e).rdropWhile blank = [] ∨ ((l ++ e).rdropWhile blank).length ≤ room ∧ o = o' := by
  set t := (l ++ e).rdropWhile blank with htdef
  by_cases ht : t = []
  · rw [mark, if_pos ht]
    refine iff_of_true (mark_blanks fun p hp => ?_).1 (Or.inl ht)
    obtain ⟨q, hq, rfl⟩ := List.mem_map.mp hp
    exact trim_pieces_blank he hl hpos ht q hq
  · rw [mark, if_neg ht, or_iff_right ht]
    by_cases hfit : t.length ≤ room
    · rw [(mark_pieces_fit blank o he hl hpos ht hfit).1, and_iff_right hfit]
      cases o <;> cases o' <;> simp [mark, t]
    · refine iff_of_false (fun h => hfit ?_) fun h => hfit h.1
      -- the marked piece is no longer than a buffer
      have hmem : ∀ (X : List (List α)) (o : Bool), ∀ m ∈ mark o X, m.1 ∈ X := by
        intro X
        induction X with
        | nil => exact fun o m hm => absurd hm List.not_mem_nil
        | cons l X ih =>
          intro o m hm
          rw [mark] at hm
          split_ifs at hm
          · exact List.mem_cons_of_mem l (ih _ m hm)
          · rcases List.mem_cons.mp hm with rfl | hm
            · exact List.mem_cons_self
            · exact List.mem_cons_of_mem l (ih _ m hm)
      have hin := hmem _ _ (t, !o') (h ▸ List.mem_cons_self)
      obtain ⟨p, hp, hpt⟩ := List.mem_map.mp hin
      rw [show t = _ from hpt.symm]
      exact length_trim_le.trans (length_piece_le he hl hpos p hp)

variable (blank) in
theorem countP_pieces (he : Ends sep e) (hl : sep ∉ l) (hpos : room ≠ 0) :
    [(l ++ e).rdropWhile blank].countP (· ≠ []) ≤
      ((buffers sep room (l ++ e)).map (·.rdropWhile blank)).countP (· ≠ []) := by
  by_cases ht : (l ++ e).rdropWhile blank = []
  · rw [ht]
    exact Nat.zero_le _
  · obtain ⟨p, hp, hne⟩ := exists_piece he hl hpos ht
    refine Nat.succ_le_of_lt (List.countP_pos_iff.mpr ⟨_, List.mem_map_of_mem hp, ?_⟩) |>.trans' ?_
    · simpa using hne
    · exact List.countP_le_length

omit [DecidableEq α] in
theorem trim_sep (hsep : blank sep = true) (he : Ends sep e) :
    (l ++ e).rdropWhile blank = l.rdropWhile blank := by
  rcases he with rfl | rfl
  · exact List.rdropWhile_concat_pos _ _ _ hsep
  · rw [List.append_nil]

/-- No line has a separator. -/
theorem not_mem_of_splitOn : ∀ l ∈ f.splitOn sep, sep ∉ l := by
  induction f with
  | nil =>
    intro l hl
    rw [List.splitOn_nil, List.mem_singleton] at hl
    rw [hl]
    exact List.not_mem_nil
  | cons c f ih =>
    intro l hl
    rw [List.splitOn_cons_eq_if_modifyHead] at hl
    by_cases hc : c = sep
    · rw [if_pos (by simpa using hc), List.mem_cons] at hl
      rcases hl with rfl | hl
      · exact List.not_mem_nil
      · exact ih l hl
    · rw [if_neg (by simpa using hc)] at hl
      obtain ⟨l', ls, hls⟩ := List.exists_cons_of_ne_nil (List.splitOn_ne_nil sep f)
      rw [hls, List.forall_mem_cons] at ih
      rw [hls, List.modifyHead_cons, List.mem_cons] at hl
      rcases hl with rfl | hl
      · rw [List.mem_cons, not_or]
        exact ⟨fun h => hc h.symm, ih.1⟩
      · exact ih.2 l hl

/-- The text of some lines. -/
def text (sep : α) (ls : List (List α)) : List α := [sep].intercalate ls

theorem buffers_text_cons (hl : sep ∉ l) (hpos : room ≠ 0) {l' : List α} :
    buffers sep room (text sep (l :: l' :: ls)) =
      buffers sep room (l ++ [sep]) ++ buffers sep room (text sep (l' :: ls)) := by
  rw [text, List.intercalate_cons_cons, List.append_assoc, List.singleton_append,
    buffers_append hl hpos]
  rfl

/-- A buffer is of one line, and those of a line are among the buffers. -/
theorem mem_buffers_text (hls : ∀ l ∈ ls, sep ∉ l) (hpos : room ≠ 0) :
    (∀ p ∈ buffers sep room (text sep ls),
      ∃ l ∈ ls, ∃ e, Ends sep e ∧ p ∈ buffers sep room (l ++ e)) ∧
    ∀ l ∈ ls, ∃ e, Ends sep e ∧ ∀ p ∈ buffers sep room (l ++ e), p ∈ buffers sep room (text sep ls) := by
  induction ls with
  | nil =>
    refine ⟨fun p hp => ?_, fun l hl => absurd hl List.not_mem_nil⟩
    rw [show text sep ([] : List (List α)) = [] from rfl, buffers_nil] at hp
    cases hp
  | cons l ls ih =>
    rw [List.forall_mem_cons] at hls
    obtain ⟨hmem, hall⟩ := ih hls.2
    cases ls with
    | nil =>
      have htext : text sep [l] = l ++ [] := by simp [text]
      rw [htext]
      refine ⟨fun p hp => ⟨l, List.mem_singleton_self l, [], Or.inr rfl, hp⟩, fun l' hl' => ?_⟩
      rw [List.mem_singleton.mp hl']
      exact ⟨[], Or.inr rfl, fun p hp => hp⟩
    | cons l' ls =>
      rw [buffers_text_cons hls.1 hpos]
      refine ⟨fun p hp => ?_, fun k hk => ?_⟩
      · rcases List.mem_append.mp hp with hp | hp
        · exact ⟨l, List.mem_cons_self, [sep], Or.inl rfl, hp⟩
        · obtain ⟨k, hk, he⟩ := hmem p hp
          exact ⟨k, List.mem_cons_of_mem l hk, he⟩
      · rcases List.mem_cons.mp hk with rfl | hk
        · exact ⟨[sep], Or.inl rfl, fun p hp => List.mem_append_left _ hp⟩
        · obtain ⟨e, he, hin⟩ := hall k hk
          exact ⟨e, he, fun p hp => List.mem_append_right _ (hin p hp)⟩

theorem countP_text (hsep : blank sep = true) (hls : ∀ l ∈ ls, sep ∉ l) (hpos : room ≠ 0) :
    (ls.map (·.rdropWhile blank)).countP (· ≠ []) ≤
      ((buffers sep room (text sep ls)).map (·.rdropWhile blank)).countP (· ≠ []) := by
  induction ls with
  | nil => exact Nat.zero_le _
  | cons l ls ih =>
    rw [List.forall_mem_cons] at hls
    cases ls with
    | nil =>
      have h := countP_pieces blank (Or.inr rfl : Ends sep ([] : List α)) hls.1 hpos
      rw [List.append_nil] at h
      simpa [text] using h
    | cons l' ls =>
      have h := countP_pieces blank (Or.inl rfl : Ends sep [sep]) hls.1 hpos
      rw [trim_sep hsep (Or.inl rfl)] at h
      rw [buffers_text_cons hls.1 hpos, List.map_append, List.countP_append, List.map_cons,
        ← List.singleton_append, List.countP_append]
      exact Nat.add_le_add h (ih hls.2)

/-- The letters of every line fit into a buffer, and only before a line without letters, or where
there are none to separate, does a line go beyond it with its separator. -/
def Fits (blank : α → Bool) (room : ℕ) (ls : List (List α)) : Prop :=
  (∀ l ∈ ls, (l.rdropWhile blank).length ≤ room) ∧
    ls.IsChain fun a b => a.length < room ∨ a.rdropWhile blank = [] ∨ b.rdropWhile blank = []

omit [DecidableEq α] in
theorem append_eq_iff {β : Type*} {a a' b b' : List β} (ha : a'.length ≤ a.length)
    (hb : b'.length ≤ b.length) : a ++ b = a' ++ b' ↔ a = a' ∧ b = b' := by
  constructor
  · intro h
    have hlen := congrArg List.length h
    rw [List.length_append, List.length_append] at hlen
    exact List.append_inj h (by omega)
  · rintro ⟨rfl, rfl⟩
    rfl

/-- **The step and the run over the lines.** -/
theorem mark_text_iff (hsep : blank sep = true) (hls : ∀ l ∈ ls, sep ∉ l) (hpos : room ≠ 0)
    {l : List α} (hl : sep ∉ l) :
    mark o ((buffers sep room (text sep (l :: ls))).map (·.rdropWhile blank)) =
        mark o' ((l :: ls).map (·.rdropWhile blank)) ↔
      (l.rdropWhile blank = [] ∨ o = o') ∧ Fits blank room (l :: ls) := by
  induction ls generalizing l o o' with
  | nil =>
    have h := mark_pieces_iff blank o o' (Or.inr rfl : Ends sep ([] : List α)) hl hpos
    rw [List.append_nil] at h
    rw [show text sep [l] = l by simp [text], List.map_singleton, h]
    by_cases ht : l.rdropWhile blank = []
    · simp [Fits, ht]
    · simp [Fits, ht, and_comm]
  | cons l' ls ih =>
    rw [List.forall_mem_cons] at hls
    have hends : Ends sep [sep] := Or.inl rfl
    have hone := mark_pieces_iff blank o o' hends hl hpos
    have hcount := countP_pieces blank hends hl hpos
    have hrest := countP_text hsep (List.forall_mem_cons.mpr hls : ∀ k ∈ l' :: ls, sep ∉ k) hpos
    rw [trim_sep hsep hends] at hone hcount
    rw [buffers_text_cons hl hpos, List.map_append, mark_append, List.map_cons,
      ← List.singleton_append (l := (l' :: ls).map _), mark_append (X := [_])]
    rw [append_eq_iff (by rw [length_mark, length_mark]; exact hcount)
      (by rw [length_mark, length_mark]; exact hrest), hone, ih hls.2 hls.1]
    unfold Fits
    rw [List.forall_mem_cons (a := l), List.isChain_cons_cons]
    by_cases ht : l.rdropWhile blank = []
    · -- the pieces of a blank line close the block, as the line does
      have hne : (buffers sep room (l ++ [sep])).map (·.rdropWhile blank) ≠ [] := by
        rw [ne_eq, List.map_eq_nil_iff, buffers, dif_pos ⟨by simp, hpos⟩]
        exact List.cons_ne_nil _ _
      have hopen := (mark_blanks (o := o) (X := (buffers sep room (l ++ [sep])).map
        (·.rdropWhile blank)) fun p hp => by
          obtain ⟨q, hq, rfl⟩ := List.mem_map.mp hp
          exact trim_pieces_blank hends hl hpos (by rw [trim_sep hsep hends]; exact ht) q hq).2 hne
      rw [hopen]
      simp [openAfter, ht]
    · by_cases hfit : (l.rdropWhile blank).length ≤ room
      · have hopen := (mark_pieces_fit blank o hends hl hpos
          (by rw [trim_sep hsep hends]; exact ht) (by rw [trim_sep hsep hends]; exact hfit)).2
        rw [hopen]
        simp only [openAfter, ht, hfit, ne_eq, not_false_eq_true, decide_true, true_and, false_or,
          decide_eq_true_iff, List.length_append, List.length_singleton, Nat.succ_le_iff]
        tauto
      · simp [ht, hfit]

variable (sep room f blank) in
/-- **The blocks of the pieces are the blocks of the lines exactly where the lines fit.** -/
theorem blocks_buffers_iff (hsep : blank sep = true) (hpos : room ≠ 0) :
    blocks ((buffers sep room f).map (·.rdropWhile blank)) =
        blocks ((f.splitOn sep).map (·.rdropWhile blank)) ↔ Fits blank room (f.splitOn sep) := by
  have htext : text sep (f.splitOn sep) = f := List.intercalate_splitOn sep
  have hno : ∀ l ∈ f.splitOn sep, sep ∉ l := not_mem_of_splitOn
  obtain ⟨l, ls, hls⟩ := List.exists_cons_of_ne_nil (List.splitOn_ne_nil sep f)
  rw [hls] at htext hno
  rw [List.forall_mem_cons] at hno
  have h : mark false ((buffers sep room (text sep (l :: ls))).map (·.rdropWhile blank)) =
        mark false ((l :: ls).map (·.rdropWhile blank)) ↔
      (l.rdropWhile blank = [] ∨ false = false) ∧ Fits blank room (l :: ls) :=
    mark_text_iff hsep hno.2 hpos hno.1
  rw [htext] at h
  rw [blocks_eq_iff, hls, h]
  simp

variable (sep room f blank) in
/-- The pieces have the lines among them, and no others, exactly where the letters fit. -/
theorem mem_buffers_iff (hsep : blank sep = true) (hpos : room ≠ 0) :
    (∀ name ≠ [], name ∈ (buffers sep room f).map (·.rdropWhile blank) ↔
        name ∈ (f.splitOn sep).map (·.rdropWhile blank)) ↔
      ∀ l ∈ f.splitOn sep, (l.rdropWhile blank).length ≤ room := by
  have htext : text sep (f.splitOn sep) = f := List.intercalate_splitOn sep
  have hno : ∀ l ∈ f.splitOn sep, sep ∉ l := not_mem_of_splitOn
  obtain ⟨hmem, hall⟩ := mem_buffers_text hno hpos
  rw [htext] at hmem hall
  constructor
  · intro h l hl
    by_cases ht : l.rdropWhile blank = []
    · rw [ht]
      exact Nat.zero_le room
    · obtain ⟨p, hp, hpt⟩ := List.mem_map.mp ((h _ ht).mpr (List.mem_map_of_mem hl))
      obtain ⟨l', hl', e, he, hp⟩ := hmem p hp
      rw [← hpt]
      exact length_trim_le.trans (length_piece_le he (hno l' hl') hpos p hp)
  · intro hfit name hname
    have hline : ∀ l ∈ f.splitOn sep, ∀ e, Ends sep e →
        (name ∈ (buffers sep room (l ++ e)).map (·.rdropWhile blank) ↔
          name = l.rdropWhile blank) := by
      intro l hl e he
      have htrim := trim_sep (l := l) hsep he
      by_cases ht : l.rdropWhile blank = []
      · refine iff_of_false (fun hin => ?_) fun heq => hname (heq.trans ht)
        obtain ⟨p, hp, rfl⟩ := List.mem_map.mp hin
        exact hname (trim_pieces_blank he (hno l hl) hpos (htrim.trans ht) p hp)
      · obtain ⟨k, hk, -⟩ := trim_pieces_fit he (hno l hl) hpos (fun h => ht (htrim.symm.trans h))
          (htrim ▸ hfit l hl)
        rw [hk, htrim, List.mem_cons, or_iff_left]
        exact fun hin => hname (List.eq_of_mem_replicate hin)
    rw [List.mem_map, List.mem_map]
    constructor
    · rintro ⟨p, hp, rfl⟩
      obtain ⟨l, hl, e, he, hp⟩ := hmem p hp
      exact ⟨l, hl, ((hline l hl e he).mp (List.mem_map_of_mem hp)).symm⟩
    · rintro ⟨l, hl, hln⟩
      obtain ⟨e, he, hin⟩ := hall l hl
      obtain ⟨p, hp, hpn⟩ := List.mem_map.mp ((hline l hl e he).mpr hln.symm)
      exact ⟨p, hin p hp, hpn⟩

end Exact

end AquaTransport.LineReader
