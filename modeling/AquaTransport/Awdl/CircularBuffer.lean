import Mathlib.Data.List.Basic
import Mathlib.Logic.Function.Basic

/-!
# AquaTransport.Awdl.CircularBuffer — circular_buffer.c

The buffer of the frames that wait for a multicast window: an array, the place where the next entry goes
and the place of the oldest one.  `head = tail` when it is empty and when it is full, which `full` tells
apart.  `refines`: whatever is done to it, it is a queue that a put into the full buffer takes the oldest
entry from.
-/

namespace AquaTransport.Awdl

/-- `struct circular_buf`; entries that were never written are whatever the memory held. -/
structure CircularBuf (α : Type) where
  buffer : ℕ → α
  head : ℕ
  tail : ℕ
  max : ℕ
  full : Bool
  head_lt : head < max
  tail_lt : tail < max
  full_eq : full = true → head = tail

namespace CircularBuf

variable {α : Type} (c : CircularBuf α)

theorem max_pos : 0 < c.max := Nat.zero_lt_of_lt c.head_lt

/-- `circular_buf_reset`. -/
def reset : CircularBuf α where
  buffer := c.buffer
  head := 0
  tail := 0
  max := c.max
  full := false
  head_lt := c.max_pos
  tail_lt := c.max_pos
  full_eq := fun _ => rfl

/-- `circular_buf_init`, on the memory it gets. -/
def init (memory : ℕ → α) (size : ℕ) (h : 0 < size) : CircularBuf α where
  buffer := memory
  head := 0
  tail := 0
  max := size
  full := false
  head_lt := h
  tail_lt := h
  full_eq := fun _ => rfl

/-- `circular_buf_size`. -/
def size : ℕ :=
  if c.full then c.max
  else if c.tail ≤ c.head then c.head - c.tail
  else c.max + c.head - c.tail

/-- `circular_buf_empty`. -/
def empty : Bool := !c.full && c.head = c.tail

/-- `advance_pointer`, after the entry of the head was written. -/
def advancePointer : CircularBuf α where
  buffer := c.buffer
  head := (c.head + 1) % c.max
  tail := if c.full then (c.tail + 1) % c.max else c.tail
  max := c.max
  full := (c.head + 1) % c.max = if c.full then (c.tail + 1) % c.max else c.tail
  head_lt := Nat.mod_lt _ c.max_pos
  tail_lt := by
    split
    · exact Nat.mod_lt _ c.max_pos
    · exact c.tail_lt
  full_eq := of_decide_eq_true

/-- `retreat_pointer`. -/
def retreatPointer : CircularBuf α where
  buffer := c.buffer
  head := c.head
  tail := (c.tail + 1) % c.max
  max := c.max
  full := false
  head_lt := c.head_lt
  tail_lt := Nat.mod_lt _ c.max_pos
  full_eq := fun h => absurd h Bool.false_ne_true

/-- `circular_buf_put`. -/
def put (x : α) : CircularBuf α :=
  { c with buffer := Function.update c.buffer c.head x }.advancePointer

/-- `circular_buf_put2`: nothing is put into the full buffer. -/
def put2 (x : α) : Option (CircularBuf α) := if c.full then none else some (c.put x)

/-- `circular_buf_get`. -/
def get (peek : Bool) : Option (α × CircularBuf α) :=
  if c.empty then none
  else some (c.buffer c.tail, if peek then c else c.retreatPointer)

/-- What is in the buffer, the oldest entry first. -/
def toList : List α := (List.range c.size).map fun i => c.buffer ((c.tail + i) % c.max)

/-! ### Sizes and places -/

@[simp] theorem length_toList : c.toList.length = c.size := by
  rw [toList, List.length_map, List.length_range]

theorem size_le : c.size ≤ c.max := by
  have := c.head_lt
  have := c.tail_lt
  unfold size
  split_ifs <;> omega

theorem size_eq_max : c.size = c.max ↔ c.full = true := by
  have := c.head_lt
  have := c.tail_lt
  unfold size
  cases c.full with
  | true => simp
  | false =>
    rw [if_neg Bool.false_ne_true]
    refine ⟨fun h => ?_, fun h => absurd h Bool.false_ne_true⟩
    split_ifs at h <;> omega

theorem size_eq_zero : c.size = 0 ↔ c.empty = true := by
  have := c.head_lt
  have := c.tail_lt
  unfold size empty
  cases hf : c.full with
  | false =>
    rw [if_neg Bool.false_ne_true, Bool.not_false, Bool.true_and, decide_eq_true_eq]
    split_ifs <;> omega
  | true =>
    rw [if_pos rfl, Bool.not_true, Bool.false_and]
    exact ⟨fun h => by omega, fun h => absurd h Bool.false_ne_true⟩

/-- A place less than a round after the tail: it wraps once or not at all. -/
theorem mod_of_le {m t i : ℕ} (ht : t < m) (hi : i ≤ m) :
    (t + i) % m = if t + i < m then t + i else t + i - m := by
  split_ifs with h
  · exact Nat.mod_eq_of_lt h
  · rw [Nat.mod_eq_sub_mod (by omega), Nat.mod_eq_of_lt (by omega)]

/-- The head is where the next entry goes. -/
theorem head_eq : c.head = (c.tail + c.size) % c.max := by
  have hh := c.head_lt
  have ht := c.tail_lt
  have hf := c.full_eq
  rw [mod_of_le ht c.size_le]
  unfold size
  cases h : c.full with
  | false =>
    rw [if_neg Bool.false_ne_true]
    split_ifs <;> omega
  | true =>
    have := hf h
    rw [if_pos rfl, if_neg (by omega)]
    omega

theorem put_size (x : α) : (c.put x).size = if c.full then c.max else c.size + 1 := by
  have hh := c.head_lt
  have ht := c.tail_lt
  have hfe := c.full_eq
  have hadv : ∀ p, p < c.max → (p + 1) % c.max = if p + 1 < c.max then p + 1 else 0 := by
    intro p hp
    rw [mod_of_le hp (by omega)]
    split_ifs <;> omega
  simp only [put, advancePointer, size, hadv c.head hh, hadv c.tail ht, decide_eq_true_eq]
  cases h : c.full with
  | false =>
    simp only [Bool.false_eq_true, if_false]
    split_ifs <;> omega
  | true =>
    have := hfe h
    simp only [if_true, this]

/-! ### The operations on the list -/

theorem toList_put (x : α) (h : c.full = false) : (c.put x).toList = c.toList ++ [x] := by
  have hsize := c.put_size x
  rw [h, if_neg Bool.false_ne_true] at hsize
  have hlt : c.size < c.max := Nat.lt_of_le_of_ne c.size_le fun he => by
    rw [c.size_eq_max, h] at he
    exact Bool.false_ne_true he
  have htail : (c.put x).tail = c.tail := by
    simp only [put, advancePointer, h, Bool.false_eq_true, if_false]
  rw [toList, hsize, List.range_succ, List.map_append, List.map_singleton, htail]
  refine congrArg₂ _ (List.map_congr_left fun i hi => ?_) (congrArg (fun y => [y]) ?_)
  · -- an older place is not the head
    have hi : i < c.size := List.mem_range.mp hi
    have hne : (c.tail + i) % c.max ≠ c.head := by
      have ht := c.tail_lt
      rw [c.head_eq, mod_of_le ht (by omega), mod_of_le ht c.size_le]
      split_ifs <;> omega
    exact Function.update_of_ne hne _ _
  · show Function.update c.buffer c.head x ((c.tail + c.size) % c.max) = x
    rw [← c.head_eq, Function.update_self]

theorem toList_put_full (x : α) (h : c.full = true) : (c.put x).toList = c.toList.tail ++ [x] := by
  have hsize := c.put_size x
  rw [h, if_pos rfl] at hsize
  have ht := c.tail_lt
  have hhead : c.head = c.tail := c.full_eq h
  obtain ⟨n, hn⟩ : ∃ n, c.max = n + 1 := ⟨c.max - 1, by omega⟩
  have hold : c.size = n + 1 := (c.size_eq_max.mpr h).trans hn
  have htail : (c.put x).tail = (c.tail + 1) % c.max := by
    simp only [put, advancePointer, h, if_true]
  -- the places move up by one, and the last one is the old head
  have hplace : ∀ i, ((c.tail + 1) % c.max + i) % c.max = (c.tail + (i + 1)) % c.max := by
    intro i
    rw [Nat.mod_add_mod]
    exact congrArg (· % c.max) (by omega)
  rw [toList, toList, hsize, hn, hold, List.range_succ, List.map_append, List.map_singleton, htail,
    ← List.range_succ, List.range_succ_eq_map, List.map_cons, List.tail_cons, List.map_map]
  refine congrArg₂ _ (List.map_congr_left fun i hi => ?_) (congrArg (fun y => [y]) ?_)
  · have hi : i < n := List.mem_range.mp hi
    have hne : (c.tail + (i + 1)) % c.max ≠ c.head := by
      rw [hhead, mod_of_le ht (by omega)]
      split_ifs <;> omega
    show Function.update c.buffer c.head x (((c.tail + 1) % c.max + i) % c.max) = _
    rw [hplace, Function.update_of_ne hne, Function.comp_apply, ← hn]
  · show Function.update c.buffer c.head x (((c.tail + 1) % c.max + n) % c.max) = x
    rw [hplace, ← hn, Nat.add_mod_right, Nat.mod_eq_of_lt ht, ← hhead, Function.update_self]

theorem retreat_size (h : c.empty = false) : c.size = c.retreatPointer.size + 1 := by
  have hh := c.head_lt
  have ht := c.tail_lt
  have hfe := c.full_eq
  have hadv : (c.tail + 1) % c.max = if c.tail + 1 < c.max then c.tail + 1 else 0 := by
    rw [mod_of_le ht (by omega)]
    split_ifs <;> omega
  simp only [retreatPointer, size, hadv, Bool.false_eq_true, if_false]
  unfold empty at h
  cases hf : c.full with
  | false =>
    rw [hf, Bool.not_false, Bool.true_and, decide_eq_false_iff_not] at h
    simp only [Bool.false_eq_true, if_false]
    split_ifs <;> omega
  | true =>
    have := hfe hf
    simp only [if_true]
    split_ifs <;> omega

theorem toList_retreat (h : c.empty = false) :
    c.toList = c.buffer c.tail :: c.retreatPointer.toList := by
  rw [toList, toList, c.retreat_size h, List.range_succ_eq_map, List.map_cons, List.map_map, Nat.add_zero,
    Nat.mod_eq_of_lt c.tail_lt]
  refine congrArg (List.cons _) (List.map_congr_left fun i _ => congrArg c.buffer ?_)
  show (c.tail + (i + 1)) % c.max = ((c.tail + 1) % c.max + i) % c.max
  rw [Nat.mod_add_mod]
  exact congrArg (· % c.max) (by omega)

theorem toList_of_get {x : α} {c' : CircularBuf α} (h : c.get false = some (x, c')) :
    c.toList = x :: c'.toList := by
  cases hempty : c.empty with
  | true => simp [get, hempty] at h
  | false =>
    simp only [get, hempty, Bool.false_eq_true, if_false, Option.some.injEq, Prod.mk.injEq] at h
    obtain ⟨rfl, rfl⟩ := h
    exact c.toList_retreat hempty

/-! ### Any use of it -/

/-- The calls of circular_buffer.h. -/
inductive Op (α : Type)
  | put (x : α)
  | put2 (x : α)
  | get (peek : Bool)
  | reset
  | size
  | empty
  | full

/-- What a call returns: an entry, a number, or no more than whether it succeeded. -/
inductive Reply (α : Type)
  | done
  | failed
  | entry (x : α)
  | number (n : ℕ)
  | truth (b : Bool)

def call (c : CircularBuf α) : Op α → Reply α × CircularBuf α
  | .put x => (.done, c.put x)
  | .put2 x =>
    match c.put2 x with
    | some c' => (.done, c')
    | none => (.failed, c)
  | .get peek =>
    match c.get peek with
    | some (x, c') => (.entry x, c')
    | none => (.failed, c)
  | .reset => (.done, c.reset)
  | .size => (.number c.size, c)
  | .empty => (.truth c.empty, c)
  | .full => (.truth c.full, c)

/-- The same calls on a queue of at most `cap` entries. -/
def queueCall (cap : ℕ) (l : List α) : Op α → Reply α × List α
  | .put x => (.done, if l.length = cap then l.tail ++ [x] else l ++ [x])
  | .put2 x => if l.length = cap then (.failed, l) else (.done, l ++ [x])
  | .get peek =>
    match l with
    | [] => (.failed, [])
    | x :: l => (.entry x, if peek then x :: l else l)
  | .reset => (.done, [])
  | .size => (.number l.length, l)
  | .empty => (.truth (l.length = 0), l)
  | .full => (.truth (l.length = cap), l)

/-- The replies to calls made one after another, and what they leave. -/
def calls {σ : Type} (f : σ → Op α → Reply α × σ) (s : σ) : List (Op α) → List (Reply α) × σ
  | [] => ([], s)
  | op :: ops =>
    let (r, s) := f s op
    let (rs, s) := calls f s ops
    (r :: rs, s)

theorem call_toList (op : Op α) : (c.call op).1 = (queueCall c.max c.toList op).1 ∧
    (c.call op).2.toList = (queueCall c.max c.toList op).2 ∧ (c.call op).2.max = c.max := by
  have hfull : c.toList.length = c.max ↔ c.full = true := c.length_toList ▸ c.size_eq_max
  cases op with
  | put x =>
    refine ⟨rfl, ?_, rfl⟩
    show (c.put x).toList = if c.toList.length = c.max then _ else _
    by_cases h : c.full = true
    · rw [if_pos (hfull.mpr h), c.toList_put_full x h]
    · rw [if_neg (mt hfull.mp h), c.toList_put x (Bool.eq_false_iff.mpr h)]
  | put2 x =>
    by_cases h : c.full = true
    · simp [call, queueCall, put2, h, hfull.mpr h]
    · have hl := mt hfull.mp h
      simp only [call, queueCall, put2, h, hl, if_false, Bool.false_eq_true]
      exact ⟨trivial, c.toList_put x (Bool.eq_false_iff.mpr h), rfl⟩
  | get peek =>
    cases h : c.empty with
    | true =>
      have hnil : c.toList = [] := List.length_eq_zero_iff.mp (c.length_toList.trans (c.size_eq_zero.mpr h))
      simp [call, queueCall, get, h, hnil]
    | false =>
      have hcons := c.toList_retreat h
      simp only [call, queueCall, get, h, Bool.false_eq_true, if_false, hcons]
      cases peek with
      | false => exact ⟨trivial, rfl, rfl⟩
      | true => exact ⟨trivial, hcons, rfl⟩
  | reset => exact ⟨rfl, rfl, rfl⟩
  | size => exact ⟨congrArg Reply.number c.length_toList.symm, rfl, rfl⟩
  | empty =>
    refine ⟨congrArg Reply.truth ?_, rfl, rfl⟩
    rw [length_toList, Bool.eq_iff_iff, decide_eq_true_eq]
    exact c.size_eq_zero.symm
  | full =>
    refine ⟨congrArg Reply.truth ?_, rfl, rfl⟩
    rw [Bool.eq_iff_iff, decide_eq_true_eq]
    exact hfull.symm

/-- **The buffer is a queue**: any calls of it return what they return of the queue of its entries. -/
theorem refines (ops : List (Op α)) :
    (calls call c ops).1 = (calls (queueCall c.max) c.toList ops).1 ∧
      (calls call c ops).2.toList = (calls (queueCall c.max) c.toList ops).2 := by
  induction ops generalizing c with
  | nil => exact ⟨rfl, rfl⟩
  | cons op ops ih =>
    obtain ⟨hr, hl, hm⟩ := c.call_toList op
    have := ih (c.call op).2
    rw [hm, hl] at this
    exact ⟨congrArg₂ List.cons hr this.1, this.2⟩

end CircularBuf

end AquaTransport.Awdl
