import Mathlib.Data.List.Basic
import Mathlib.Tactic.Common

/-!
# AquaTransport.Lib.Transfer — loops that move a memory over a stream, with short counts

A `Transfer` has a memory, the position up to which it is moved, and the length that is left.  Each turn
of its loop makes an `Attempt`; `loop_ends` says when the loop ends, whatever the counts are.  Sending to
a stream and receiving from one keep what is moved and what is left of the stream in order.
-/

namespace AquaTransport

/-- What an attempt to move some of the rest comes to. -/
inductive Transfer.Attempt (β : Type*)
  | moved (x : β)
  | again
  | ended

def Transfer.Attempt.map {β γ : Type*} (f : β → γ) : Attempt β → Attempt γ
  | .moved x => .moved (f x)
  | .again => .again
  | .ended => .ended

/-- A count is positive and no more than what is asked for. -/
def Transfer.Attempt.fits (n : ℕ) : Attempt ℕ → Bool
  | .moved c => 0 < c && c ≤ n
  | _ => true

/-- A memory, of which the first `pos` units have been moved. -/
structure Transfer (α : Type*) where
  memory : List α
  pos : ℕ
  length : ℕ
  valid : pos + length = memory.length

namespace Transfer

variable {α β : Type*}

def new (memory : List α) : Transfer α := ⟨memory, 0, memory.length, Nat.zero_add _⟩

/-- What has been moved. -/
def front (t : Transfer α) : List α := t.memory.take t.pos

/-- A send of that many units, or of all that is left. -/
def send (c : ℕ) (t : Transfer α) : Transfer α where
  memory := t.memory
  pos := t.pos + min c t.length
  length := t.length - min c t.length
  valid := by
    have := t.valid
    omega

/-- A receipt of these units, or of as many as are asked for. -/
def recv (chunk : List α) (t : Transfer α) : Transfer α where
  memory := t.front ++ chunk.take t.length ++ t.memory.drop (t.pos + min t.length chunk.length)
  pos := t.pos + min t.length chunk.length
  length := t.length - min t.length chunk.length
  valid := by
    have := t.valid
    simp only [front, List.length_append, List.length_take, List.length_drop]
    omega

/-- A turn of the loop: it returns whether all is moved, or goes on. -/
def turn (move : β → Transfer α → Transfer α) (t : Transfer α) (a : Attempt β) : Bool ⊕ Transfer α :=
  if t.length = 0 then .inl true
  else
    match a with
    | .moved x => .inr (move x t)
    | .again => .inr t
    | .ended => .inl false

/-- So many turns. -/
def loop (move : β → Transfer α → Transfer α) (attempts : ℕ → Attempt β) (t : Transfer α) :
    ℕ → Bool ⊕ Transfer α
  | 0 => .inr t
  | k + 1 =>
    match loop move attempts t k with
    | .inl b => .inl b
    | .inr t => t.turn move (attempts k)

/-! ### The loop ends -/

section Loop

variable {move : β → Transfer α → Transfer α} {attempts : ℕ → Attempt β} {t t' : Transfer α}

theorem turn_done (h : t.length = 0) (a : Attempt β) : t.turn move a = .inl true := if_pos h

theorem turn_moved (h : t.length ≠ 0) (x : β) : t.turn move (.moved x) = .inr (move x t) := if_neg h

theorem turn_ended (h : t.length ≠ 0) : t.turn move .ended = .inl false := if_neg h

theorem loop_succ {k : ℕ} (h : loop move attempts t k = .inr t') :
    loop move attempts t (k + 1) = t'.turn move (attempts k) := by
  simp only [loop, h]

/-- What is left grows less, with every attempt that moves something. -/
theorem loop_length (hmove : ∀ x (t : Transfer α), (move x t).length ≤ t.length) {k : ℕ}
    (h : loop move attempts t k = .inr t') {i : ℕ} {t'' : Transfer α}
    (h' : loop move attempts t (k + i) = .inr t'') : t''.length ≤ t'.length := by
  induction i generalizing t'' with
  | zero =>
    obtain rfl := Sum.inr.inj (h.symm.trans h')
    exact Nat.le_refl _
  | succ i ih =>
    unfold loop at h'
    split at h'
    · cases h'
    · rename_i u hu
      refine Nat.le_trans ?_ (ih hu)
      unfold turn at h'
      split at h'
      · cases h'
      · split at h'
        · rw [← Sum.inr.inj h']
          exact hmove _ u
        · exact Sum.inr.inj h' ▸ Nat.le_refl _
        · cases h'

/-- **The loop ends**, when an attempt fails or units are moved again and again. -/
theorem loop_ends {P : β → Prop} (hmove : ∀ x (t : Transfer α), (move x t).length ≤ t.length)
    (hless : ∀ x (t : Transfer α), P x → t.length ≠ 0 → (move x t).length < t.length)
    (h : (∃ k, attempts k = .ended) ∨ ∀ k, ∃ i, k ≤ i ∧ ∃ x, attempts i = .moved x ∧ P x)
    (t : Transfer α) : ∃ k b, loop move attempts t k = .inl b := by
  by_contra hnot
  have hgoes : ∀ k, ∃ t', loop move attempts t k = .inr t' := by
    intro k
    cases hk : loop move attempts t k with
    | inl b => exact absurd ⟨k, b, hk⟩ hnot
    | inr t' => exact ⟨t', rfl⟩
  have hleft : ∀ k u, loop move attempts t k = .inr u → u.length ≠ 0 := by
    intro k u hu hz
    obtain ⟨t', ht'⟩ := hgoes (k + 1)
    rw [loop_succ hu, turn_done hz] at ht'
    cases ht'
  rcases h with ⟨k, hk⟩ | h
  · obtain ⟨u, hu⟩ := hgoes k
    obtain ⟨t', ht'⟩ := hgoes (k + 1)
    rw [loop_succ hu, hk, turn_ended (hleft k u hu)] at ht'
    cases ht'
  · -- the length that is left would decrease for ever
    have hdown : ∀ n k u, loop move attempts t k = .inr u → u.length ≤ n → False := by
      intro n
      induction n with
      | zero => exact fun k u hu hn => hleft k u hu (Nat.le_zero.mp hn)
      | succ n ih =>
        intro k u hu hn
        obtain ⟨i, hi, x, hx, hP⟩ := h k
        obtain ⟨j, rfl⟩ := Nat.exists_eq_add_of_le hi
        obtain ⟨v, hv⟩ := hgoes (k + j)
        have hle := loop_length hmove hu hv
        have hlt := hless x v hP (hleft _ v hv)
        refine ih (k + j + 1) (move x v) ?_ (by omega)
        rw [loop_succ hv, hx, turn_moved (hleft _ v hv)]
    obtain ⟨u, hu⟩ := hgoes 0
    exact hdown u.length 0 u hu (Nat.le_refl _)

theorem send_length_le (c : ℕ) (t : Transfer α) : (t.send c).length ≤ t.length := Nat.sub_le ..

theorem send_length_lt {c : ℕ} (hc : 0 < c) (h : t.length ≠ 0) : (t.send c).length < t.length := by
  show t.length - min c t.length < t.length
  omega

theorem recv_length_le (chunk : List α) (t : Transfer α) : (t.recv chunk).length ≤ t.length :=
  Nat.sub_le ..

theorem recv_length_lt {chunk : List α} (hc : chunk ≠ []) (h : t.length ≠ 0) :
    (t.recv chunk).length < t.length := by
  have := List.length_pos_iff.mpr hc
  show t.length - min t.length chunk.length < t.length
  omega

end Loop

/-! ### Streams -/

/-- A turn that sends to a stream; the count is one that `send` may return. -/
def sendOn (t : Transfer α) (a : Attempt ℕ) (stream : List α) :
    Option ((Bool ⊕ Transfer α) × List α) :=
  match t.turn send a with
  | .inl b => some (.inl b, stream)
  | .inr t' =>
    if a.fits t.length then
      some (.inr t', stream ++ (t.memory.drop t.pos).take (t'.pos - t.pos))
    else none

/-- A turn that receives from a stream; the count is one that `recv` may return. -/
def recvFrom (t : Transfer α) (a : Attempt ℕ) (stream : List α) :
    Option ((Bool ⊕ Transfer α) × List α) :=
  match t.turn recv (a.map stream.take) with
  | .inl b => some (.inl b, stream)
  | .inr t' =>
    if a.fits (min t.length stream.length) then some (.inr t', stream.drop (t'.pos - t.pos)) else none

section Streams

variable {t t' : Transfer α} {a : Attempt ℕ} {stream stream' : List α}

theorem front_new (memory : List α) : (new memory).front = [] := rfl

/-- When nothing is left, all has been moved. -/
theorem front_of_done (h : t.length = 0) : t.front = t.memory := by
  have := t.valid
  exact List.take_of_length_le (by omega)

theorem turn_cases {move : β → Transfer α → Transfer α} {a : Attempt β} {r : Bool ⊕ Transfer α}
    (h : t.turn move a = r) :
    (t.length = 0 ∧ r = .inl true) ∨ (t.length ≠ 0 ∧ a = .ended ∧ r = .inl false) ∨
    (t.length ≠ 0 ∧ a = .again ∧ r = .inr t) ∨
    ∃ x, t.length ≠ 0 ∧ a = .moved x ∧ r = .inr (move x t) := by
  by_cases hz : t.length = 0
  · exact .inl ⟨hz, h.symm.trans (turn_done hz a)⟩
  · cases a with
    | moved x => exact .inr (.inr (.inr ⟨x, hz, rfl, h.symm.trans (turn_moved hz x)⟩))
    | again => exact .inr (.inr (.inl ⟨hz, rfl, h.symm.trans (if_neg hz)⟩))
    | ended => exact .inr (.inl ⟨hz, rfl, h.symm.trans (turn_ended hz)⟩)

/-- A loop that returns `true` has moved all. -/
theorem front_of_turn {move : β → Transfer α → Transfer α} {a : Attempt β} {b : Bool}
    (h : t.turn move a = .inl b) (hb : b = true) : t.front = t.memory := by
  rcases turn_cases h with ⟨hz, -⟩ | ⟨-, -, h⟩ | ⟨-, -, h⟩ | ⟨x, -, -, h⟩
  · exact front_of_done hz
  · exact absurd (hb.symm.trans (Sum.inl.inj h)) (by decide)
  · cases h
  · cases h

/-- A turn of a sending loop that goes on. -/
theorem sendOn_inr (h : t.sendOn a stream = some (.inr t', stream')) :
    t'.memory = t.memory ∧ ∃ chunk, stream' = stream ++ chunk ∧ t'.front = t.front ++ chunk := by
  unfold sendOn at h
  split at h
  · cases h
  · rename_i u hu
    rw [Option.ite_none_right_eq_some, Option.some.injEq, Prod.mk.injEq, Sum.inr.injEq] at h
    obtain ⟨-, rfl, rfl⟩ := h
    rcases turn_cases hu with ⟨-, h⟩ | ⟨-, -, h⟩ | ⟨-, -, h⟩ | ⟨c, -, -, h⟩
    · cases h
    · cases h
    · obtain rfl := Sum.inr.inj h
      exact ⟨rfl, [], by simp, by simp⟩
    · obtain rfl := Sum.inr.inj h
      refine ⟨rfl, _, rfl, ?_⟩
      show t.memory.take (t.pos + min c t.length) = t.memory.take t.pos ++ _
      rw [List.take_add]
      congr 2
      show min c t.length = t.pos + min c t.length - t.pos
      omega

theorem sendOn_inl {b : Bool} (h : t.sendOn a stream = some (.inl b, stream')) :
    stream' = stream ∧ (b = true → t.front = t.memory) := by
  unfold sendOn at h
  split at h
  · rename_i b' hb
    rw [Option.some.injEq, Prod.mk.injEq, Sum.inl.injEq] at h
    obtain ⟨rfl, rfl⟩ := h
    exact ⟨rfl, front_of_turn hb⟩
  · rw [Option.ite_none_right_eq_some, Option.some.injEq, Prod.mk.injEq] at h
    cases h.2.1

/-- A turn of a receiving loop that goes on. -/
theorem recvFrom_inr (h : t.recvFrom a stream = some (.inr t', stream')) :
    t'.memory.length = t.memory.length ∧
      ∃ chunk, stream = chunk ++ stream' ∧ t'.front = t.front ++ chunk := by
  unfold recvFrom at h
  split at h
  · cases h
  · rename_i u hu
    rw [Option.ite_none_right_eq_some, Option.some.injEq, Prod.mk.injEq, Sum.inr.injEq] at h
    obtain ⟨hfits, rfl, rfl⟩ := h
    have hvalid := t.valid
    rcases turn_cases hu with ⟨-, h⟩ | ⟨-, -, h⟩ | ⟨-, -, h⟩ | ⟨x, -, ha, h⟩
    · cases h
    · cases h
    · obtain rfl := Sum.inr.inj h
      exact ⟨rfl, [], by simp, by simp⟩
    · obtain rfl := Sum.inr.inj h
      cases a with
      | again => cases ha
      | ended => cases ha
      | moved c =>
        obtain rfl := Attempt.moved.inj ha
        obtain ⟨-, hc⟩ : 0 < c ∧ c ≤ min t.length stream.length := by
          simpa [Attempt.fits] using hfits
        have hlen : (stream.take c).length = c := by
          rw [List.length_take]
          omega
        have hmin : min t.length (stream.take c).length = c := by
          rw [hlen]
          omega
        have hpos : (t.recv (stream.take c)).pos = t.pos + c := congrArg (t.pos + ·) hmin
        refine ⟨?_, stream.take c, ?_, ?_⟩
        · show (t.recv (stream.take c)).memory.length = _
          have := (t.recv (stream.take c)).valid
          have hl : (t.recv (stream.take c)).length = t.length - c := congrArg (t.length - ·) hmin
          omega
        · rw [hpos, Nat.add_sub_cancel_left, List.take_append_drop]
        · have hmem : (t.recv (stream.take c)).memory =
              t.front ++ (stream.take c).take t.length ++ t.memory.drop (t.pos + c) := by
            show _ ++ _ ++ t.memory.drop (t.pos + min t.length (stream.take c).length) = _
            rw [hmin]
          have hfront : t.front.length = t.pos := by
            rw [front, List.length_take]
            omega
          have htake : (stream.take c).take t.length = stream.take c :=
            List.take_of_length_le (by omega)
          rw [front, hpos, hmem, htake]
          refine List.take_left' ?_
          rw [List.length_append, hfront, hlen]

theorem recvFrom_inl {b : Bool} (h : t.recvFrom a stream = some (.inl b, stream')) :
    stream' = stream ∧ (b = true → t.front = t.memory) := by
  unfold recvFrom at h
  split at h
  · rename_i b' hb
    rw [Option.some.injEq, Prod.mk.injEq, Sum.inl.injEq] at h
    obtain ⟨rfl, rfl⟩ := h
    exact ⟨rfl, front_of_turn hb⟩
  · rw [Option.ite_none_right_eq_some, Option.some.injEq, Prod.mk.injEq] at h
    cases h.2.1

end Streams

end Transfer

end AquaTransport
