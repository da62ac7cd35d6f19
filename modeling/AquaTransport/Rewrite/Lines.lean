import AquaTransport.Lib.Cursor
import AquaTransport.Lib.LineReader
import AquaTransport.Rewrite.Rules

/-!
# AquaTransport.Rewrite.Lines — `read_blocks`, `tf_flag` and `tf_name_listed`

The rule and flag files are read by `fgets` into buffers of 2048 and 512 bytes, and what a buffer holds
is taken for a line.  `lines_exact` says for which files it is one.
-/

namespace AquaTransport.RuleFiles

open Cursor LineReader

/-! ### The readers -/

structure File where
  mtime : ℕ
  content : Chars

/-- The contents of `buf` in `while (fgets(buf, sizeof buf, f))`. -/
def fgetsAll (size : ℕ) (content : Chars) : List Chars := buffers 10 (size - 1) content

/-- What the trimming takes off a buffer's end. -/
def isTrail (c : UInt8) : Bool := c = 10 || c = 13 || c = 32 || c = 9

/-- `l = strlen(buf); while (l && ..) buf[--l] = 0` -/
def trimBuf (buf : Chars) : Chars :=
  let text := buf.takeWhile (· ≠ 0)
  slice text 0 (retreat isTrail text 0 text.length)

/-- One buffer: the blocks that are closed, and `cur`. -/
def readStep (s : List (List Chars) × List Chars) (buf : Chars) : List (List Chars) × List Chars :=
  let line := trimBuf buf
  if line = [] then
    if s.2 ≠ [] then (s.1 ++ [s.2], []) else s
  else (s.1, s.2 ++ [line])

/-- `if (cur.n)` behind the loop. -/
def readEnd (s : List (List Chars) × List Chars) : List (List Chars) :=
  if s.2 ≠ [] then s.1 ++ [s.2] else s.1

def readLoop (content : Chars) : List (List Chars) :=
  readEnd ((fgetsAll 2048 content).foldl readStep ([], []))

/-- `read_blocks`, with what its `stat` and its `fopen` find: the blocks, or `none` for -1, and the
mtime that it leaves, 0 where it sets none. -/
def readBlocks (atStat atOpen : Option File) : Option (List (List Chars)) × ℕ :=
  match atStat with
  | none => (none, 0)
  | some st => (atOpen.map fun f => readLoop f.content, st.mtime)

/-- `gFlagName`, `gFlagMtime`, `gFlagCheck`, `gFlagLoaded`. -/
structure FlagTable where
  names : List Chars := []
  mtime : ℕ := 0
  check : ℕ := 0
  loaded : Bool := false

/-- The names of a flag file: `if (!l) continue`. -/
def flagNames (content : Chars) : List Chars :=
  ((fgetsAll 512 content).map trimBuf).filter (· ≠ [])

/-- Nothing is loaded yet, the file has another mtime, or it is gone and names are there. -/
def FlagTable.reloads (t : FlagTable) (atStat : Option File) : Bool :=
  !t.loaded || match atStat with
    | some f => f.mtime ≠ t.mtime
    | none => t.names ≠ []

/-- `!gFlagLoaded || recheck_due(&gFlagCheck)` -/
def FlagTable.due (t : FlagTable) (now : ℕ) : Bool := !t.loaded || now ≠ t.check

/-- What `tf_flag` does under it, with what its `stat` and its `fopen` find. -/
def FlagTable.recheck (t : FlagTable) (now : ℕ) (atStat atOpen : Option File) : FlagTable :=
  -- before the first load `recheck_due` is not called
  let check := if t.loaded then now else t.check
  if t.reloads atStat then
    { names := (atOpen.map fun f => flagNames f.content).getD []
      mtime := (atStat.map File.mtime).getD 0
      check := check
      loaded := true }
  else { t with check := check }

/-- `tf_flag`. -/
def tfFlag (t : FlagTable) (now : ℕ) (atStat atOpen : Option File) (name : Option Chars) :
    FlagTable × Bool :=
  match name with
  | none | some [] => (t, false)
  | some (c :: cs) =>
    let t := if t.due now then t.recheck now atStat atOpen else t
    (t, t.names.any (· = c :: cs))

/-- `tf_name_listed`, with what its `fopen` finds. -/
def tfNameListed (atOpen : Option File) (name : Option Chars) : Bool :=
  match name with
  | none | some [] => false
  | some (c :: cs) =>
    match atOpen with
    | none => false
    | some f => (fgetsAll 512 f.content).any fun buf => trimBuf buf ≠ [] && trimBuf buf = c :: cs

/-! ### The lines -/

/-- Blanks, tabs and CRs at the end. -/
def trimLine (line : Chars) : Chars := line.rdropWhile fun c => c = 13 || c = 32 || c = 9

/-- The lines of a file, trimmed. -/
def fileLines (content : Chars) : List Chars := (content.splitOn 10).map trimLine

/-- The letters of every line fit into a buffer of `size` bytes. -/
def LinesFit (size : ℕ) (content : Chars) : Prop :=
  ∀ line ∈ content.splitOn 10, (trimLine line).length < size

/-- A line that does not fit with its newline, by its trailing blanks, is blank or has a blank line or
nothing behind it. -/
def BreaksHarmless (size : ℕ) (content : Chars) : Prop :=
  (content.splitOn 10).IsChain fun a b => a.length + 1 < size ∨ trimLine a = [] ∨ trimLine b = []

instance (size : ℕ) (content : Chars) : Decidable (LinesFit size content) :=
  inferInstanceAs (Decidable (∀ line ∈ content.splitOn 10, (trimLine line).length < size))

instance (size : ℕ) (content : Chars) : Decidable (BreaksHarmless size content) :=
  inferInstanceAs (Decidable ((content.splitOn 10).IsChain fun a b =>
    a.length + 1 < size ∨ trimLine a = [] ∨ trimLine b = []))

section Readers

variable {content : Chars} {size : ℕ}

theorem trimBuf_eq {buf : Chars} (h0 : (0 : UInt8) ∉ buf) : trimBuf buf = buf.rdropWhile isTrail := by
  have htext : buf.takeWhile (· ≠ 0) = buf := by
    rw [List.takeWhile_eq_self_iff]
    intro c hc
    simp only [ne_eq, decide_eq_true_eq]
    exact fun h => h0 (h ▸ hc)
  unfold trimBuf
  dsimp only
  rw [htext, slice_retreat le_rfl, slice_to_length, List.drop_zero]

/-- A line has no newline to trim. -/
theorem trimLine_eq {line : Chars} (h : (10 : UInt8) ∉ line) :
    trimLine line = line.rdropWhile isTrail := by
  unfold trimLine List.rdropWhile
  congr 1
  have hcongr : ∀ w : Chars, (10 : UInt8) ∉ w →
      (w.dropWhile fun c => c = 13 || c = 32 || c = 9) = w.dropWhile isTrail := by
    intro w hw
    induction w with
    | nil => rfl
    | cons c w ih =>
      rw [List.mem_cons, not_or] at hw
      have hc : isTrail c = (c = 13 || c = 32 || c = 9) := by
        simp [isTrail, Ne.symm hw.1]
      rw [List.dropWhile_cons, List.dropWhile_cons, hc, ih hw.2]
  exact hcongr _ fun hr => h (List.mem_reverse.mp hr)

theorem fileLines_eq :
    fileLines content = (content.splitOn 10).map (·.rdropWhile isTrail) :=
  List.map_congr_left fun line hline => trimLine_eq (not_mem_of_splitOn line hline)

/-- Buffers hold bytes of the file. -/
theorem mem_of_buffers {room : ℕ} : ∀ buf ∈ buffers 10 room content, ∀ c ∈ buf, c ∈ content := by
  have hread : ∀ room (f : Chars), (readBuffer 10 room f).1 ++ (readBuffer 10 room f).2 = f := by
    intro room
    induction room with
    | zero => exact fun f => rfl
    | succ room ih =>
      intro f
      cases f with
      | nil => rfl
      | cons c f =>
        rw [readBuffer]
        split_ifs
        · rfl
        · exact congrArg (c :: ·) (ih f)
  induction content using buffers.induct (10 : UInt8) room with
  | case1 f h ih =>
    intro buf hbuf c hc
    rw [buffers, dif_pos h, List.mem_cons] at hbuf
    rw [← hread room f]
    rcases hbuf with rfl | hbuf
    · exact List.mem_append_left _ hc
    · exact List.mem_append_right _ (ih buf hbuf c hc)
  | case2 f h =>
    intro buf hbuf
    rw [buffers, dif_neg h] at hbuf
    cases hbuf

theorem trimmed_eq (h0 : (0 : UInt8) ∉ content) :
    (fgetsAll size content).map trimBuf =
      (buffers 10 (size - 1) content).map (·.rdropWhile isTrail) :=
  List.map_congr_left fun buf hbuf => trimBuf_eq fun h => h0 (mem_of_buffers buf hbuf 0 h)

/-- The loop makes the blocks of what it is given. -/
theorem foldl_readStep (bufs : List Chars) (done : List (List Chars)) (cur : List Chars) :
    readEnd (bufs.foldl readStep (done, cur)) =
      done ++ (((bufs.map trimBuf).splitOn []).modifyHead (cur ++ ·)).filter (· ≠ []) := by
  induction bufs generalizing done cur with
  | nil =>
    rw [List.foldl_nil, List.map_nil, List.splitOn_nil, List.modifyHead_cons, List.append_nil]
    by_cases hcur : cur = []
    · simp [readEnd, hcur]
    · simp [readEnd, hcur]
  | cons buf bufs ih =>
    obtain ⟨b, B, hB⟩ := List.exists_cons_of_ne_nil (List.splitOn_ne_nil [] (bufs.map trimBuf))
    rw [List.foldl_cons, List.map_cons, List.splitOn_cons_eq_if_modifyHead]
    by_cases hline : trimBuf buf = []
    · by_cases hcur : cur = []
      · rw [show readStep (done, cur) buf = (done, []) by simp [readStep, hline, hcur], ih]
        simp [hline, hcur, hB]
      · rw [show readStep (done, cur) buf = (done ++ [cur], []) by simp [readStep, hline, hcur], ih]
        simp [hline, hcur, hB]
    · rw [show readStep (done, cur) buf = (done, cur ++ [trimBuf buf]) by simp [readStep, hline], ih]
      simp [hline, hB]

theorem readLoop_eq : readLoop content = LineReader.blocks ((fgetsAll 2048 content).map trimBuf) := by
  have h := foldl_readStep (fgetsAll 2048 content) [] []
  obtain ⟨b, B, hB⟩ :=
    List.exists_cons_of_ne_nil (List.splitOn_ne_nil [] ((fgetsAll 2048 content).map trimBuf))
  rw [hB, List.modifyHead_cons, List.nil_append, List.nil_append, ← hB] at h
  exact h

theorem linesFit_iff : LinesFit (size + 1) content ↔
    ∀ line ∈ content.splitOn 10, (line.rdropWhile isTrail).length ≤ size := by
  unfold LinesFit
  refine forall₂_congr fun line hline => ?_
  rw [trimLine_eq (not_mem_of_splitOn line hline), Nat.lt_succ_iff]

theorem breaksHarmless_iff : BreaksHarmless (size + 1) content ↔
    (content.splitOn 10).IsChain fun a b =>
      a.length < size ∨ a.rdropWhile isTrail = [] ∨ b.rdropWhile isTrail = [] := by
  unfold BreaksHarmless
  have hno : ∀ l ∈ content.splitOn (10 : UInt8), (10 : UInt8) ∉ l := not_mem_of_splitOn
  revert hno
  generalize content.splitOn 10 = ls
  intro hno
  induction ls with
  | nil => simp
  | cons a ls ih =>
    rw [List.forall_mem_cons] at hno
    cases ls with
    | nil => simp
    | cons b ls =>
      rw [List.isChain_cons_cons, List.isChain_cons_cons]
      refine and_congr ?_ (ih hno.2)
      rw [trimLine_eq hno.1, trimLine_eq (List.forall_mem_cons.mp hno.2).1,
        Nat.add_lt_add_iff_right]

/-- `read_blocks` on a file. -/
theorem readLoop_iff (h0 : (0 : UInt8) ∉ content) :
    readLoop content = LineReader.blocks (fileLines content) ↔
      LinesFit 2048 content ∧ BreaksHarmless 2048 content := by
  have hiff := blocks_buffers_iff (10 : UInt8) 2047 content isTrail rfl (by decide)
  rw [readLoop_eq, trimmed_eq h0, fileLines_eq]
  exact hiff.trans (and_congr linesFit_iff.symm breaksHarmless_iff.symm)

/-- The names that the readers of 512 bytes compare. -/
theorem mem_flagNames_iff (h0 : (0 : UInt8) ∉ content) :
    (∀ name ≠ [], (name ∈ flagNames content ↔ name ∈ fileLines content)) ↔ LinesFit 512 content := by
  have hiff := mem_buffers_iff (10 : UInt8) 511 content isTrail rfl (by decide)
  rw [linesFit_iff, ← hiff, fileLines_eq]
  refine forall₂_congr fun name hname => ?_
  rw [flagNames, trimmed_eq h0, List.mem_filter, and_iff_left (by simpa using hname)]

/-- A flag that is asked for first. -/
theorem tfFlag_fresh {now : ℕ} {f : File} {name : Chars} (hname : name ≠ []) :
    (tfFlag {} now (some f) (some f) (some name)).2 = true ↔ name ∈ flagNames f.content := by
  obtain ⟨c, cs, rfl⟩ := List.exists_cons_of_ne_nil hname
  have hnames : (tfFlag {} now (some f) (some f) (some (c :: cs))).2 =
      (flagNames f.content).any (· = c :: cs) := rfl
  rw [hnames, List.any_eq_true]
  simp

theorem tfNameListed_iff {f : File} {name : Chars} (hname : name ≠ []) :
    tfNameListed (some f) (some name) = true ↔ name ∈ flagNames f.content := by
  obtain ⟨c, cs, rfl⟩ := List.exists_cons_of_ne_nil hname
  unfold tfNameListed flagNames
  dsimp only
  rw [List.any_eq_true, List.mem_filter, List.mem_map]
  constructor
  · rintro ⟨buf, hbuf, h⟩
    rw [Bool.and_eq_true, decide_eq_true_iff, decide_eq_true_iff] at h
    exact ⟨⟨buf, hbuf, h.2⟩, by simp⟩
  · rintro ⟨⟨buf, hbuf, h⟩, -⟩
    refine ⟨buf, hbuf, ?_⟩
    rw [h]
    simp

end Readers

/-- **Files are parsed by their lines** exactly where the lines fit into the buffers: for
`read_blocks`, where no line is longer than 2047 bytes without its trailing blanks, and where none that
is longer with them parts a block; for `tf_flag` and `tf_name_listed`, where none is longer than 511. -/
theorem lines_exact (now : ℕ) (f : File) (h0 : (0 : UInt8) ∉ f.content) :
    ((readBlocks (some f) (some f)).1 = some (LineReader.blocks (fileLines f.content)) ↔
      LinesFit 2048 f.content ∧ BreaksHarmless 2048 f.content) ∧
    ((∀ name ≠ [], ((tfFlag {} now (some f) (some f) (some name)).2 = true ↔
      name ∈ fileLines f.content)) ↔ LinesFit 512 f.content) ∧
    ((∀ name ≠ [], (tfNameListed (some f) (some name) = true ↔ name ∈ fileLines f.content)) ↔
      LinesFit 512 f.content) ∧
    (tfFlag {} now (some f) (some f) (some [])).2 = false ∧ tfNameListed (some f) (some []) = false := by
  refine ⟨?_, ?_, ?_, rfl, rfl⟩
  · rw [← readLoop_iff h0]
    exact Option.some_inj
  · rw [← mem_flagNames_iff h0]
    exact forall₂_congr fun name hname => by rw [tfFlag_fresh hname]
  · rw [← mem_flagNames_iff h0]
    exact forall₂_congr fun name hname => by rw [tfNameListed_iff hname]

/-- A rule of two lines, and a flag. -/
def shortFile : File := ⟨1, cstr "a \nb\n\n"⟩

theorem lines_exact_shortFile : (readBlocks (some shortFile) (some shortFile)).1 =
    some (LineReader.blocks (fileLines shortFile.content)) :=
  (lines_exact 0 shortFile (by decide)).1.mpr ⟨by decide, by decide⟩

/-- One line, which is cut behind 511, 1022, 1533, 2044 and 2047 bytes. -/
def longFile : File := ⟨1, List.replicate 2044 120 ++ cstr "debug"⟩

theorem splitOn_longFile : longFile.content.splitOn 10 = [longFile.content] := by
  refine List.splitOn_eq_singleton fun h => ?_
  rcases List.mem_append.mp h with h | h
  · exact absurd (List.eq_of_mem_replicate h) (by decide)
  · exact absurd h (by decide)

theorem zero_notMem_longFile : (0 : UInt8) ∉ longFile.content := by
  intro h
  rcases List.mem_append.mp h with h | h
  · exact absurd (List.eq_of_mem_replicate h) (by decide)
  · exact absurd h (by decide)

theorem not_linesFit_longFile {size : ℕ} (hsize : size ≤ 2048) : ¬ LinesFit size longFile.content := by
  intro h
  have hfit := h longFile.content (by rw [splitOn_longFile]; exact List.mem_singleton_self _)
  have hlast : longFile.content = (List.replicate 2044 120 ++ cstr "debu") ++ [103] := by
    rw [List.append_assoc]
    rfl
  have htrim : trimLine longFile.content = longFile.content := by
    rw [trimLine, hlast, List.rdropWhile_concat_neg _ _ _ (by decide)]
  have hlen : longFile.content.length = 2049 := by
    rw [longFile, List.length_append, List.length_replicate]
    rfl
  rw [htrim, hlen] at hfit
  omega

theorem lines_cut : ¬ ∀ (now : ℕ) (f : File), (0 : UInt8) ∉ f.content →
    (readBlocks (some f) (some f)).1 = some (LineReader.blocks (fileLines f.content)) ∧
    (∀ name ≠ [], ((tfFlag {} now (some f) (some f) (some name)).2 = true ↔
      name ∈ fileLines f.content)) ∧
    ∀ name ≠ [], (tfNameListed (some f) (some name) = true ↔ name ∈ fileLines f.content) := by
  intro h
  have hblocks := Option.some_inj.mp (h 0 longFile zero_notMem_longFile).1
  exact not_linesFit_longFile le_rfl ((readLoop_iff zero_notMem_longFile).mp hblocks).1

end AquaTransport.RuleFiles
