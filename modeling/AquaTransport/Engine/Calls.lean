import AquaTransport.Engine.WriteQueue

/-!
# AquaTransport.Engine.Calls — the calls into OpenSSL that a read or a write makes

`writeCalls` and `readCall` follow the two entries call by call, with the length that each call is
given; `writeConnected_replay` says that these calls are all that an entry does besides the queue.

`Unsent` is what holds of the queue whatever OpenSSL answers and whatever the allocator does: what
the blocked call presented is a prefix of the queue.  `flush_any` and `loop_holds` are what a flush
and a loop make of it.
-/

namespace AquaTransport

/-! ### The calls -/

/-- A call of `SSL_write`: the buffer from the pointer on, the `size_t` that its length is made of,
and its number among the entry's answers. -/
structure WriteCall where
  buf : Bytes
  len : ℕ
  turn : ℕ

def WriteCall.num (call : WriteCall) : ℤ := intOf call.len

/-- The call of `sh_flush_write`. -/
def flushCalls (s : Shadow) : List WriteCall := (s.wpend.map fun p => ⟨p, p.length, 0⟩).toList

/-- The calls of the loop of `my_SSLWrite`. -/
def loopCalls (replies : ℕ → WriteReply) (data : Bytes) (s : Shadow) (i off : ℕ) : List WriteCall :=
  if off < data.length then
    ⟨data.drop off, min (data.length - off) IO_RUN_MAX, i⟩ ::
      match s.sslWrite (data.drop off) (intOf (min (data.length - off) IO_RUN_MAX)) (replies i) with
      | (s', .ok n) => if 0 < n then loopCalls replies data s' (i + 1) (off + n) else []
      | _ => []
  else []
termination_by data.length - off

def writeCalls (replies : ℕ → WriteReply) (s : Shadow) (data : Bytes) : List WriteCall :=
  flushCalls s ++
    match shFlushWrite (shUnblockWrite s) (replies 0) with
    | (s', f) => if f < 0 ∨ f = 0 ∨ data.length = 0 then [] else loopCalls replies data s' 1 0

/-- The `size_t` that the length of `SSL_read` is made of, when it is called. -/
def readCall (flush : WriteReply) (s : Shadow) (len : ℕ) : Option ℕ :=
  if (shFlushWrite (shUnblockWrite s) flush).2 < 0 ∨ len = 0 then none else some (min len IO_RUN_MAX)

/-- What calls of `SSL_write` do. -/
def Shadow.replay (replies : ℕ → WriteReply) (s : Shadow) (calls : List WriteCall) : Shadow :=
  calls.foldl (fun s call => (s.sslWrite call.buf call.num (replies call.turn)).1) s

/-- A shadow less its queue. -/
def Shadow.unqueued (s : Shadow) : Shadow := { s with wpend := none }

section Replay

variable {replies : ℕ → WriteReply} {data : Bytes} {s : Shadow}

theorem sslWrite_unqueued (s : Shadow) (buf : Bytes) (num : ℤ) (r : WriteReply) :
    (s.unqueued.sslWrite buf num r).1 = (s.sslWrite buf num r).1.unqueued := by
  cases hx : s.ssl with
  | none => simp only [Shadow.sslWrite, Shadow.unqueued, hx]
  | some x => simp only [Shadow.sslWrite, Shadow.unqueued, hx]

theorem replay_cons (s : Shadow) (buf : Bytes) (len turn : ℕ) (calls : List WriteCall) :
    s.replay replies (⟨buf, len, turn⟩ :: calls) =
      (s.sslWrite buf (intOf len) (replies turn)).1.replay replies calls := rfl

theorem replay_unqueued (s : Shadow) (calls : List WriteCall) :
    s.unqueued.replay replies calls = (s.replay replies calls).unqueued := by
  induction calls generalizing s with
  | nil => rfl
  | cons call calls ih =>
    show Shadow.replay replies (s.unqueued.sslWrite call.buf call.num (replies call.turn)).1 calls = _
    rw [sslWrite_unqueued, ih]
    rfl

theorem shFlushWrite_replay (s : Shadow) (replies : ℕ → WriteReply) :
    (shFlushWrite s (replies 0)).1.unqueued = (s.replay replies (flushCalls s)).unqueued := by
  unfold shFlushWrite flushCalls
  cases hp : s.wpend with
  | none => rfl
  | some p =>
    show _ = (s.sslWrite p (intOf p.length) (replies 0)).1.unqueued
    dsimp only
    split
    all_goals
      next he =>
        rw [he]
        try rfl

theorem shHoldWrite_unqueued (alloc : Bool) (s : Shadow) (data : Bytes) :
    (shHoldWrite alloc s data).1.unqueued = s.unqueued := by
  unfold shHoldWrite
  split_ifs <;> rfl

theorem writeLoop_replay (alloc : Bool) (replies : ℕ → WriteReply) (data : Bytes) (s : Shadow)
    (i off : ℕ) : (writeLoop alloc replies data s i off).1.unqueued =
      (s.replay replies (loopCalls replies data s i off)).unqueued := by
  induction s, i, off using writeLoop.induct alloc replies data with
  | case6 s i off hlt =>
    rw [writeLoop, if_neg hlt, loopCalls, if_neg hlt]
    rfl
  | case1 s i off hlt s' n he hn ih =>
    rw [writeLoop, if_pos hlt, loopCalls, if_pos hlt, replay_cons, he]
    simp only [if_pos hn]
    exact ih
  | case2 s i off hlt s' n he hn =>
    rw [writeLoop, if_pos hlt, loopCalls, if_pos hlt, replay_cons, he]
    simp only [if_neg hn]
    rfl
  | case3 s i off hlt s' he =>
    rw [writeLoop, if_pos hlt, loopCalls, if_pos hlt, replay_cons, he]
    rfl
  | case4 s i off hlt s' he s'' hh | case5 s i off hlt s' he s'' hh =>
    have hhold := shHoldWrite_unqueued alloc s' (data.drop off)
    rw [hh] at hhold
    rw [writeLoop, if_pos hlt, loopCalls, if_pos hlt, replay_cons, he]
    simp only [hh]
    exact hhold

/-- Besides the queue, a write does what its calls of `SSL_write` do, in their order. -/
theorem writeConnected_replay (alloc : Bool) (replies : ℕ → WriteReply) (s : Shadow) (data : Bytes) :
    (writeConnected alloc replies s data).1.unqueued =
      ((shUnblockWrite s).replay replies (writeCalls replies s data)).unqueued := by
  have hf := shFlushWrite_replay (shUnblockWrite s) replies
  have hq : flushCalls (shUnblockWrite s) = flushCalls s := rfl
  rw [hq] at hf
  have hcalls : ∀ calls, ((shUnblockWrite s).replay replies (flushCalls s ++ calls)).unqueued =
      ((shFlushWrite (shUnblockWrite s) (replies 0)).1.replay replies calls).unqueued := by
    intro calls
    rw [Shadow.replay, List.foldl_append]
    show (Shadow.replay replies ((shUnblockWrite s).replay replies (flushCalls s)) calls).unqueued = _
    rw [← replay_unqueued, ← hf, replay_unqueued]
  unfold writeConnected writeCalls
  rw [hcalls]
  generalize shFlushWrite (shUnblockWrite s) (replies 0) = fl
  obtain ⟨s', f⟩ := fl
  dsimp only
  by_cases h1 : f < 0
  · simp [h1, Shadow.replay]
  by_cases h2 : f = 0
  · simp [h2, Shadow.replay]
  by_cases h3 : data.length = 0
  · simp [h1, h2, h3, Shadow.replay]
  rw [if_neg h1, if_neg h2, if_neg h3, if_neg (by simp [h1, h2, h3])]
  exact writeLoop_replay alloc replies data s' 1 0

end Replay

/-! ### Lengths -/

/-- `(int)n` is positive and `n`. -/
def IntExact (n : ℕ) : Prop := 0 < intOf n ∧ intOf n = n

theorem intOf_lt (n : ℕ) : intOf n < 2 ^ 31 := by
  have h := Int.bmod_lt (x := n) (m := 2 ^ 32) (by omega)
  unfold intOf
  omega

theorem intExact_iff {n : ℕ} : IntExact n ↔ 0 < n ∧ n < 2 ^ 31 := by
  have hlt := intOf_lt n
  unfold IntExact
  constructor
  · rintro ⟨hpos, heq⟩
    omega
  · rintro ⟨hpos, hn⟩
    rw [intOf_eq hn]
    omega

/-- A run of a buffer. -/
theorem intExact_run {n : ℕ} (hn : 0 < n) : IntExact (min n IO_RUN_MAX) := by
  rw [intExact_iff]
  unfold IO_RUN_MAX
  omega

theorem loopCalls_exact (replies : ℕ → WriteReply) (data : Bytes) (s : Shadow) (i off : ℕ) :
    ∀ call ∈ loopCalls replies data s i off, IntExact call.len := by
  induction s, i, off using loopCalls.induct data with
  | case1 s i off hlt ih =>
    have hrun : IntExact (min (data.length - off) IO_RUN_MAX) := intExact_run (by omega)
    rw [loopCalls, if_pos hlt]
    rintro call hc
    rcases List.mem_cons.mp hc with rfl | hc
    · exact hrun
    · split at hc
      next s' n he =>
        split_ifs at hc with hn
        · exact ih s' n hn call hc
        · simp at hc
      next => simp at hc
  | case2 s i off hlt =>
    rw [loopCalls, if_neg hlt]
    simp

/-- Every call of a write but the flush has an exact length. -/
theorem writeCalls_exact {replies : ℕ → WriteReply} {s : Shadow} {data : Bytes} :
    (∀ call ∈ writeCalls replies s data, IntExact call.len) ↔
      ∀ p, s.wpend = some p → IntExact p.length := by
  have hloop : ∀ call ∈ (match shFlushWrite (shUnblockWrite s) (replies 0) with
      | (s', f) => if f < 0 ∨ f = 0 ∨ data.length = 0 then [] else loopCalls replies data s' 1 0),
      IntExact call.len := by
    generalize shFlushWrite (shUnblockWrite s) (replies 0) = fl
    obtain ⟨s', f⟩ := fl
    dsimp only
    split_ifs
    · simp
    · exact loopCalls_exact replies data s' 1 0
  have hflush : (∀ call ∈ flushCalls s, IntExact call.len) ↔
      ∀ p, s.wpend = some p → IntExact p.length := by
    unfold flushCalls
    cases s.wpend <;> simp
  rw [← hflush]
  constructor
  · exact fun h call hc => h call (List.mem_append_left _ hc)
  · intro h call hc
    exact (List.mem_append.mp hc).elim (h call) (hloop call)

theorem readCall_exact {flush : WriteReply} {s : Shadow} {len n : ℕ}
    (h : readCall flush s len = some n) : IntExact n := by
  unfold readCall at h
  split_ifs at h with hc
  obtain rfl := Option.some.inj h
  exact intExact_run (by omega)

/-! ### The queue, whatever happens -/

/-- What the blocked call presented is a prefix of the queue, and it did not consume more. -/
structure Unsent (wpend : Option Bytes) (wr : Writer) : Prop where
  within : ∀ prev k, wr.retry = some (prev, k) → k ≤ prev.length
  held : ∀ p, wpend = some p → p ≠ [] ∧ ∃ prev k, wr.retry = some (prev, k) ∧ prev <+: p

theorem Unsent.new : Unsent none {} := ⟨by simp, by simp⟩

/-- The blocked call, if there is one, presented a prefix of this. -/
def Writer.Agrees (wr : Writer) (buf : Bytes) : Prop :=
  ∀ prev k, wr.retry = some (prev, k) → prev <+: buf

/-- `SSL_write` of `num` bytes, by how it is answered. -/
theorem Writer.write_cases {wr : Writer} (hk : ∀ prev k, wr.retry = some (prev, k) → k ≤ prev.length)
    (buf : Bytes) (num : ℤ) (o : WriteOutcome) :
    (wr.write buf num o).2 = .fatal ∧ (wr.write buf num o).1.retry = wr.retry ∧
        (wr.write buf num o).1.taken = wr.taken ∧
        (num ≤ 0 ∨ ¬ wr.Agrees (buf.take num.toNat) ∨ o = .fatal) ∨
      0 < num ∧ wr.Agrees (buf.take num.toNat) ∧
        ((o = .done ∧ (wr.write buf num o).2 = .ok (buf.take num.toNat).length ∧
            (wr.write buf num o).1.retry = none ∧
            (wr.write buf num o).1.taken = wr.taken ++ buf.take num.toNat) ∨
          ∃ n, o = .want n ∧ (wr.write buf num o).2 = .want ∧
            (wr.write buf num o).1.taken = wr.taken ∧
            ∃ k, (wr.write buf num o).1.retry = some (buf.take num.toNat, k) ∧
              k ≤ (buf.take num.toNat).length) := by
  have hput : ∀ prev k, prev <+: buf.take num.toNat → k ≤ prev.length →
      (wr.put (buf.take num.toNat) prev k o).2 = .fatal ∧
          (wr.put (buf.take num.toNat) prev k o).1.retry = wr.retry ∧
          (wr.put (buf.take num.toNat) prev k o).1.taken = wr.taken ∧ o = .fatal ∨
        (o = .done ∧ (wr.put (buf.take num.toNat) prev k o).2 = .ok (buf.take num.toNat).length ∧
            (wr.put (buf.take num.toNat) prev k o).1.retry = none ∧
            (wr.put (buf.take num.toNat) prev k o).1.taken = wr.taken ++ buf.take num.toNat) ∨
          ∃ n, o = .want n ∧ (wr.put (buf.take num.toNat) prev k o).2 = .want ∧
            (wr.put (buf.take num.toNat) prev k o).1.taken = wr.taken ∧
            ∃ k', (wr.put (buf.take num.toNat) prev k o).1.retry = some (buf.take num.toNat, k') ∧
              k' ≤ (buf.take num.toNat).length := by
    intro prev k hpre hle
    cases o with
    | fatal => exact Or.inl ⟨rfl, rfl, rfl, rfl⟩
    | done =>
      refine Or.inr (Or.inl ⟨rfl, rfl, rfl, ?_⟩)
      simp only [Writer.put]
      rw [prev_append_drop hpre hle]
    | want n =>
      have hl := hpre.length_le
      exact Or.inr (Or.inr ⟨n, rfl, rfl, rfl, _, rfl, by omega⟩)
  unfold Writer.write
  by_cases hnum : num ≤ 0
  · rw [if_pos hnum]
    exact Or.inl ⟨rfl, rfl, rfl, Or.inl hnum⟩
  rw [if_neg hnum]
  rw [not_le] at hnum
  cases hr : wr.retry with
  | none =>
    have hag : wr.Agrees (buf.take num.toNat) := by
      intro prev k h
      rw [hr] at h
      simp at h
    rcases hput [] 0 (List.nil_prefix) le_rfl with ⟨h1, h2, h3, h4⟩ | h
    · exact Or.inl ⟨h1, h2.trans hr, h3, Or.inr (Or.inr h4)⟩
    · exact Or.inr ⟨hnum, hag, h⟩
  | some e =>
    obtain ⟨prev, k⟩ := e
    by_cases hpre : prev <+: buf.take num.toNat
    · have hag : wr.Agrees (buf.take num.toNat) := by
        intro prev' k' h
        rw [hr] at h
        obtain ⟨rfl, -⟩ := Prod.mk.inj (Option.some.inj h)
        exact hpre
      simp only [if_pos hpre]
      rcases hput prev k hpre (hk prev k hr) with ⟨h1, h2, h3, h4⟩ | h
      · exact Or.inl ⟨h1, h2.trans hr, h3, Or.inr (Or.inr h4)⟩
      · exact Or.inr ⟨hnum, hag, h⟩
    · dsimp only
      rw [if_neg hpre]
      exact Or.inl ⟨rfl, rfl, rfl, Or.inr (Or.inl fun hag => hpre (hag prev k hr))⟩

section Specs

variable {s : Shadow} {x : Ssl}

/-- A flush keeps the queue, or OpenSSL took as much of it as the length it was given says. -/
theorem flush_any (hx : s.ssl = some x) (hq : Unsent s.wpend x.wr) (r : WriteReply) :
    ∃ x', (shFlushWrite s r).1.ssl = some x' ∧ Unsent (shFlushWrite s r).1.wpend x'.wr ∧
      ((shFlushWrite s r).1.wpend = s.wpend ∧ x'.wr.taken = x.wr.taken ∧
          (s.wpend = none ∧ (shFlushWrite s r).2 = 1 ∧ x' = x ∨
            ∃ p, s.wpend = some p ∧ (shFlushWrite s r).2 ≤ 0 ∧
              (r.outcome = .done → ¬ p.length < 2 ^ 31)) ∨
        ∃ p, s.wpend = some p ∧ (shFlushWrite s r).1.wpend = none ∧ (shFlushWrite s r).2 = 1 ∧
          r.outcome = .done ∧ 0 < intOf p.length ∧ x'.wr.retry = none ∧
          x'.wr.taken = x.wr.taken ++ p.take (intOf p.length).toNat) := by
  cases hp : s.wpend with
  | none =>
    have hf : shFlushWrite s r = (s, 1) := by simp only [shFlushWrite, hp]
    rw [hf]
    exact ⟨x, hx, hq, Or.inl ⟨hp, rfl, Or.inl ⟨rfl, rfl, rfl⟩⟩⟩
  | some p =>
    obtain ⟨hne, prev, k, hr, hpre⟩ := hq.held p hp
    have hsw : s.sslWrite p (intOf p.length) r =
        ({ s with
            ssl := some { x with wr := (x.wr.write p (intOf p.length) r.outcome).1 }
            wblocked := s.wblocked || r.latched },
          (x.wr.write p (intOf p.length) r.outcome).2) := by
      simp only [Shadow.sslWrite, hx]
    have hcases := Writer.write_cases hq.within p (intOf p.length) r.outcome
    unfold shFlushWrite
    rw [hp]
    dsimp only
    rw [hsw]
    generalize x.wr.write p (intOf p.length) r.outcome = res at hcases
    obtain ⟨wr', ret⟩ := res
    dsimp only at hcases
    rcases hcases with ⟨rfl, hret, htaken, hwhy⟩ |
      ⟨hpos, hag, ⟨ho, rfl, hret, htaken⟩ | ⟨n, ho, rfl, htaken, k', hret, hk'⟩⟩
    · refine ⟨_, rfl, ⟨fun prev k h => hq.within prev k (hret ▸ h), fun p' hp' => ?_⟩,
        Or.inl ⟨hp, htaken, Or.inr ⟨p, rfl, ?_, fun hdone hlt => ?_⟩⟩⟩
      · rw [hret]
        exact hq.held p' hp'
      · show (-1 : ℤ) ≤ 0
        omega
      · -- nothing else makes the call fail
        have hlen : 0 < p.length := List.length_pos_iff.mpr hne
        rw [intOf_eq hlt, Int.toNat_natCast, List.take_length, hdone] at hwhy
        rcases hwhy with h | h | h
        · omega
        · refine h fun prev' k' h' => ?_
          obtain ⟨rfl, -⟩ := Prod.mk.inj (Option.some.inj (hr.symm.trans h'))
          exact hpre
        · simp at h
    · refine ⟨_, rfl, ⟨?_, by simp⟩, Or.inr ⟨p, rfl, rfl, rfl, ho, hpos, hret, htaken⟩⟩
      intro prev k h
      rw [hret] at h
      simp at h
    · refine ⟨_, rfl, ⟨?_, ?_⟩, Or.inl ⟨hp, htaken, Or.inr ⟨p, rfl, le_rfl, ?_⟩⟩⟩
      · intro prev k h
        rw [hret] at h
        obtain ⟨rfl, rfl⟩ := Prod.mk.inj (Option.some.inj h)
        exact hk'
      · intro p' hp'
        obtain rfl : p = p' := Option.some.inj (hp.symm.trans hp')
        exact ⟨hne, _, k', hret, List.take_prefix _ _⟩
      · rw [ho]
        simp

/-- OpenSSL has all of the queue after a flush exactly when there was none, or it took the call and
the length is below 2^31. -/
theorem flush_takes_all (hx : s.ssl = some x) (hq : Unsent s.wpend x.wr) (r : WriteReply) :
    (∃ x', (shFlushWrite s r).1.ssl = some x' ∧ x'.wr.taken = x.wr.taken ++ s.queue) ↔
      s.wpend = none ∨ r.outcome = .done ∧ s.queue.length < 2 ^ 31 := by
  obtain ⟨x', hx', -, hcase⟩ := flush_any hx hq r
  simp only [hx', Option.some.injEq, exists_eq_left']
  rcases hcase with ⟨-, htaken, ⟨hp, -⟩ | ⟨p, hp, -, hwhy⟩⟩ | ⟨p, hp, -, -, ho, hpos, -, htaken⟩
  · simp [htaken, hp, Shadow.queue]
  · have hne := (hq.held p hp).1
    have hqueue : s.queue = p := by simp [Shadow.queue, hp]
    rw [htaken, hqueue, hp]
    constructor
    · intro h
      exact absurd (List.self_eq_append_right.mp h) hne
    · rintro (h | ⟨hdone, hlt⟩)
      · simp at h
      · exact absurd hlt (hwhy hdone)
  · have hqueue : s.queue = p := by simp [Shadow.queue, hp]
    have hlt := intOf_lt p.length
    rw [htaken, hqueue, hp, List.append_cancel_left_eq, List.take_eq_self_iff]
    constructor
    · intro h
      exact Or.inr ⟨ho, by omega⟩
    · rintro (h | ⟨-, h⟩)
      · simp at h
      · rw [intOf_eq h]
        omega

/-- The outcome is a retry. -/
def WriteOutcome.wants : WriteOutcome → Bool
  | .want _ => true
  | _ => false

/-- The loop from `off` on, whose runs are answered from `i` on, blocks in its run `j`. -/
def BlocksAt (replies : ℕ → WriteReply) (data : Bytes) (i off j : ℕ) : Prop :=
  (∀ m < j, (replies (i + m)).outcome = .done) ∧ (replies (i + j)).outcome.wants = true ∧
    off + IO_RUN_MAX * j < data.length

theorem blocksAt_zero {replies : ℕ → WriteReply} {data : Bytes} {i off : ℕ} :
    BlocksAt replies data i off 0 ↔ (replies i).outcome.wants = true ∧ off < data.length := by
  simp [BlocksAt]

theorem blocksAt_succ {replies : ℕ → WriteReply} {data : Bytes} {i off j : ℕ} :
    BlocksAt replies data i off (j + 1) ↔ (replies i).outcome = .done ∧
      BlocksAt replies data (i + 1) (off + min (data.length - off) IO_RUN_MAX) j := by
  have hidx : ∀ m, i + 1 + m = i + (m + 1) := fun m => by omega
  have hoff : off + IO_RUN_MAX * (j + 1) < data.length ↔
      off + min (data.length - off) IO_RUN_MAX + IO_RUN_MAX * j < data.length := by
    unfold IO_RUN_MAX
    omega
  unfold BlocksAt
  simp only [hoff, hidx]
  constructor
  · rintro ⟨hdone, hrest⟩
    exact ⟨hdone 0 (by omega), fun m hm => hdone (m + 1) (by omega), hrest⟩
  · rintro ⟨h0, hdone, hrest⟩
    refine ⟨fun m hm => ?_, hrest⟩
    cases m with
    | zero => exact h0
    | succ m => exact hdone m (by omega)

theorem not_blocksAt_fatal {replies : ℕ → WriteReply} {data : Bytes} {i off j : ℕ}
    (ho : (replies i).outcome = .fatal) : ¬ BlocksAt replies data i off j := by
  intro hj
  cases j with
  | zero =>
    rw [blocksAt_zero, ho] at hj
    simp [WriteOutcome.wants] at hj
  | succ j =>
    rw [blocksAt_succ, ho] at hj
    simp at hj

/-- After a run that is taken, the run that blocks is one of the rest. -/
theorem exists_blocksAt_done {replies : ℕ → WriteReply} {data q : Bytes} {i off : ℕ}
    (ho : (replies i).outcome = .done) :
    (∃ j, BlocksAt replies data (i + 1) (off + min (data.length - off) IO_RUN_MAX) j ∧
        q = data.drop (off + min (data.length - off) IO_RUN_MAX + IO_RUN_MAX * j)) ↔
      ∃ j, BlocksAt replies data i off j ∧ q = data.drop (off + IO_RUN_MAX * j) := by
  have hshift : ∀ j, BlocksAt replies data (i + 1) (off + min (data.length - off) IO_RUN_MAX) j →
      off + min (data.length - off) IO_RUN_MAX + IO_RUN_MAX * j = off + IO_RUN_MAX * (j + 1) := by
    intro j hj
    have h := hj.2.2
    unfold IO_RUN_MAX at h ⊢
    omega
  constructor
  · rintro ⟨j, hj, rfl⟩
    exact ⟨j + 1, blocksAt_succ.mpr ⟨ho, hj⟩, by rw [hshift j hj]⟩
  · rintro ⟨j, hj, rfl⟩
    cases j with
    | zero =>
      rw [blocksAt_zero, ho] at hj
      simp [WriteOutcome.wants] at hj
    | succ j =>
      obtain ⟨-, hj⟩ := blocksAt_succ.mp hj
      exact ⟨j, hj, by rw [hshift j hj]⟩

/-- A run that blocks is the last one. -/
theorem exists_blocksAt_want {replies : ℕ → WriteReply} {data q : Bytes} {i off n : ℕ}
    (ho : (replies i).outcome = .want n) (hlt : off < data.length) :
    (∃ j, BlocksAt replies data i off j ∧ q = data.drop (off + IO_RUN_MAX * j)) ↔
      q = data.drop off := by
  constructor
  · rintro ⟨j, hj, rfl⟩
    cases j with
    | zero => rfl
    | succ j =>
      rw [blocksAt_succ, ho] at hj
      simp at hj
  · rintro rfl
    refine ⟨0, ?_, rfl⟩
    rw [blocksAt_zero, ho]
    exact ⟨rfl, hlt⟩

/-- What a blocked run leaves is queued, if there is memory for it. -/
theorem hold_rest (alloc : Bool) {s : Shadow} {wr : Writer} {rest : Bytes} {n k : ℕ}
    (hp : s.wpend = none) (hne : rest ≠ []) (hret : wr.retry = some (rest.take n, k))
    (hk : k ≤ (rest.take n).length) :
    (shHoldWrite alloc s rest).1.ssl = s.ssl ∧ Unsent (shHoldWrite alloc s rest).1.wpend wr ∧
      ∀ q, (shHoldWrite alloc s rest).1.wpend = some q ↔ alloc = true ∧ q = rest := by
  have hwithin : ∀ prev k, wr.retry = some (prev, k) → k ≤ prev.length := by
    intro prev k' h
    rw [hret] at h
    obtain ⟨rfl, rfl⟩ := Prod.mk.inj (Option.some.inj h)
    exact hk
  unfold shHoldWrite
  rw [hp]
  cases alloc with
  | false =>
    rw [if_pos (Or.inr rfl)]
    exact ⟨rfl, ⟨hwithin, by simp [hp]⟩, by simp [hp]⟩
  | true =>
    rw [if_neg (by simp [hne]), Option.getD_none, List.nil_append]
    refine ⟨rfl, ⟨hwithin, ?_⟩, fun q => ?_⟩
    · rintro p ⟨⟩
      exact ⟨hne, _, k, hret, List.take_prefix _ _⟩
    · rw [Option.some.injEq, eq_comm]
      exact (and_iff_right rfl).symm

/-- The queue that the loop leaves is the data from the run on that blocked. -/
theorem loop_holds (alloc : Bool) (replies : ℕ → WriteReply) (data : Bytes) (s : Shadow) (i off : ℕ)
    (x : Ssl) (hx : s.ssl = some x) (hp : s.wpend = none)
    (hk : ∀ prev k, x.wr.retry = some (prev, k) → k ≤ prev.length) :
    ∃ x', (writeLoop alloc replies data s i off).1.ssl = some x' ∧
      Unsent (writeLoop alloc replies data s i off).1.wpend x'.wr ∧
      ∀ q, (writeLoop alloc replies data s i off).1.wpend = some q ↔
        alloc = true ∧ x.wr.Agrees ((data.drop off).take IO_RUN_MAX) ∧
          ∃ j, BlocksAt replies data i off j ∧ q = data.drop (off + IO_RUN_MAX * j) := by
  induction hm : data.length - off using Nat.strong_induction_on generalizing s x i off with
  | _ m ih =>
    rw [writeLoop]
    by_cases hlt : off < data.length
    · have hrun : 0 < min (data.length - off) IO_RUN_MAX ∧
          min (data.length - off) IO_RUN_MAX < 2 ^ 31 := by
        unfold IO_RUN_MAX
        omega
      have hbuf : (data.drop off).take (min (data.length - off) IO_RUN_MAX) =
          (data.drop off).take IO_RUN_MAX := by
        rw [min_comm, ← List.length_drop, ← List.take_take, List.take_length]
      have hlen : ((data.drop off).take IO_RUN_MAX).length = min (data.length - off) IO_RUN_MAX := by
        rw [List.length_take, List.length_drop, min_comm]
      have hcases := Writer.write_cases hk (data.drop off)
        (intOf (min (data.length - off) IO_RUN_MAX)) (replies i).outcome
      rw [if_pos hlt]
      simp only [Shadow.sslWrite, hx]
      rw [intOf_eq hrun.2] at hcases ⊢
      rw [Int.toNat_natCast, hbuf, hlen] at hcases
      generalize x.wr.write (data.drop off) _ (replies i).outcome = res at hcases
      obtain ⟨wr', ret⟩ := res
      dsimp only at hcases
      rcases hcases with ⟨rfl, hret, -, hwhy⟩ |
        ⟨-, hag, ⟨ho, rfl, hret, -⟩ | ⟨n, ho, rfl, -, k', hret, hk'⟩⟩
      · -- the call fails, so that nothing is queued
        refine ⟨_, rfl, ⟨fun prev k h => hk prev k (hret ▸ h), by simp [hp]⟩, fun q => ?_⟩
        dsimp only
        rw [hp]
        refine ⟨by simp, ?_⟩
        rintro ⟨-, hag, j, hj, -⟩
        rcases hwhy with h | h | h
        · omega
        · exact absurd hag h
        · exact absurd hj (not_blocksAt_fatal h)
      · -- the run is taken, and the rest is the loop's again
        simp only [if_pos hrun.1]
        have hsub : data.length - (off + min (data.length - off) IO_RUN_MAX) < m := by omega
        obtain ⟨x', hx', hq', hiff⟩ := ih _ hsub
          { s with
            ssl := some { x with wr := wr' }
            wblocked := s.wblocked || (replies i).latched }
          (i + 1) (off + min (data.length - off) IO_RUN_MAX) { x with wr := wr' } rfl hp
          (by simp [hret]) rfl
        have hnone : wr'.Agrees
            ((data.drop (off + min (data.length - off) IO_RUN_MAX)).take IO_RUN_MAX) := by
          intro prev k h
          rw [hret] at h
          simp at h
        refine ⟨x', hx', hq', fun q => (hiff q).trans ?_⟩
        rw [exists_blocksAt_done ho, and_iff_right hnone, and_iff_right hag]
      · -- the rest is queued, if there is memory for it
        have hne : data.drop off ≠ [] := by
          rw [ne_eq, List.drop_eq_nil_iff]
          omega
        obtain ⟨hssl, hunsent, hiff⟩ := hold_rest alloc (s := { s with
          ssl := some { x with wr := wr' }
          wblocked := s.wblocked || (replies i).latched }) hp hne hret (hlen ▸ hk')
        dsimp only
        generalize shHoldWrite alloc _ (data.drop off) = r at hssl hunsent hiff ⊢
        obtain ⟨s'', held⟩ := r
        refine ⟨{ x with wr := wr' }, ?_, ?_, fun q => ?_⟩
        · cases held <;> exact hssl
        · cases held <;> exact hunsent
        · rw [exists_blocksAt_want ho hlt, and_iff_right hag, ← hiff]
          cases held <;> rfl
    · rw [if_neg hlt]
      refine ⟨x, hx, ⟨hk, by simp [hp]⟩, fun q => ?_⟩
      rw [hp]
      refine ⟨by simp, ?_⟩
      rintro ⟨-, -, j, ⟨-, -, hj⟩, -⟩
      omega

/-- What the loop queues it reports as processed. -/
theorem loop_reports {alloc : Bool} {replies : ℕ → WriteReply} {data q : Bytes} {s : Shadow}
    {i off : ℕ} (hp : s.wpend = none) (hq : (writeLoop alloc replies data s i off).1.wpend = some q) :
    (writeLoop alloc replies data s i off).2.2 = data.length ∧ q <:+ data := by
  have hkeep : ∀ {s s' : Shadow} {buf num r ret}, s.sslWrite buf num r = (s', ret) →
      s.wpend = none → s'.wpend = none := by
    intro s s' buf num r ret he hp
    cases hx : s.ssl with
    | none =>
      simp only [Shadow.sslWrite, hx] at he
      obtain ⟨rfl, -⟩ := Prod.mk.inj he
      exact hp
    | some x =>
      simp only [Shadow.sslWrite, hx] at he
      obtain ⟨rfl, -⟩ := Prod.mk.inj he
      exact hp
  revert hq
  induction s, i, off using writeLoop.induct alloc replies data with
  | case6 s i off hlt =>
    rw [writeLoop, if_neg hlt, hp]
    simp
  | case1 s i off hlt s' n he hn ih =>
    rw [writeLoop, if_pos hlt, he]
    simp only [if_pos hn]
    exact ih (hkeep he hp)
  | case2 s i off hlt s' n he hn =>
    rw [writeLoop, if_pos hlt, he]
    simp only [if_neg hn]
    rw [hkeep he hp]
    simp
  | case3 s i off hlt s' he =>
    rw [writeLoop, if_pos hlt, he]
    dsimp only
    rw [hkeep he hp]
    simp
  | case4 s i off hlt s' he s'' hh =>
    rw [writeLoop, if_pos hlt, he]
    simp only [hh]
    intro hq
    refine ⟨trivial, ?_⟩
    unfold shHoldWrite at hh
    split_ifs at hh
    · simp at hh
    · obtain ⟨rfl, -⟩ := Prod.mk.inj hh
      dsimp only at hq
      rw [hkeep he hp, Option.getD_none, List.nil_append, Option.some.injEq] at hq
      exact hq ▸ List.drop_suffix off data
  | case5 s i off hlt s' he s'' hh =>
    rw [writeLoop, if_pos hlt, he]
    simp only [hh]
    intro hq
    unfold shHoldWrite at hh
    split_ifs at hh
    · obtain ⟨rfl, -⟩ := Prod.mk.inj hh
      rw [hkeep he hp] at hq
      simp at hq
    · simp at hh

/-- A write that gets to its data, blocks with 2^31 bytes or more of it left, and has the memory to
keep them. -/
def Overlong (alloc : Bool) (replies : ℕ → WriteReply) (data : Bytes) (s : Shadow) : Prop :=
  alloc = true ∧ (s.wpend ≠ none → (replies 0).outcome = .done) ∧
    (s.wpend = none → ∀ x, s.ssl = some x → x.wr.Agrees (data.take IO_RUN_MAX)) ∧
    ∃ j, BlocksAt replies data 1 0 j ∧ 2 ^ 31 ≤ data.length - IO_RUN_MAX * j

theorem writeConnected_any (hx : s.ssl = some x) (hq : Unsent s.wpend x.wr) (alloc : Bool)
    (replies : ℕ → WriteReply) (data : Bytes) :
    (∃ x', (writeConnected alloc replies s data).1.ssl = some x' ∧
      Unsent (writeConnected alloc replies s data).1.wpend x'.wr) ∧
    (s.queue.length < 2 ^ 31 → ((writeConnected alloc replies s data).1.queue.length < 2 ^ 31 ↔
      ¬ Overlong alloc replies data s)) := by
  obtain ⟨x₁, hx₁, hq₁, hcase⟩ := flush_any (s := shUnblockWrite s) hx hq (replies 0)
  have hwpend : (shUnblockWrite s).wpend = s.wpend := rfl
  rw [hwpend] at hcase
  unfold writeConnected
  generalize shFlushWrite (shUnblockWrite s) (replies 0) = fl at hx₁ hq₁ hcase
  obtain ⟨s₁, f⟩ := fl
  dsimp only at hx₁ hq₁ hcase ⊢
  by_cases hf : f = 1
  · -- the queue is gone
    have hnone : s₁.wpend = none ∧ (s.wpend ≠ none → (replies 0).outcome = .done) ∧
        (x₁.wr.Agrees (data.take IO_RUN_MAX) ↔
          (s.wpend = none → ∀ x, s.ssl = some x → x.wr.Agrees (data.take IO_RUN_MAX))) := by
      rcases hcase with ⟨hsame, -, ⟨hp, -, rfl⟩ | ⟨p, -, hle, -⟩⟩ | ⟨p, hp, hgone, -, ho, -, hret, -⟩
      · exact ⟨hsame.trans hp, fun h => absurd hp h, by simp [hp, hx]⟩
      · omega
      · refine ⟨hgone, fun _ => ho, ⟨fun _ h => ?_, fun _ prev k h => ?_⟩⟩
        · rw [hp] at h
          simp at h
        · rw [hret] at h
          simp at h
    obtain ⟨hp₁, hdone, hagree⟩ := hnone
    subst hf
    rw [if_neg (by decide), if_neg (by decide)]
    by_cases h0 : data.length = 0
    · rw [if_pos h0]
      refine ⟨⟨x₁, hx₁, hq₁⟩, fun _ => ⟨?_, fun _ => by simp [Shadow.queue, hp₁]⟩⟩
      rintro - ⟨-, -, -, j, -, hj⟩
      omega
    · rw [if_neg h0]
      obtain ⟨x', hx', hq', hiff⟩ := loop_holds alloc replies data s₁ 1 0 x₁ hx₁ hp₁ hq₁.within
      refine ⟨⟨x', hx', hq'⟩, fun _ => ?_⟩
      generalize (writeLoop alloc replies data s₁ 1 0).1 = s' at hx' hq' hiff
      rw [List.drop_zero, hagree] at hiff
      constructor
      · rintro hlt ⟨halloc, -, hag, j, hj, hlong⟩
        have hheld := (hiff _).mpr ⟨halloc, hag, j, hj, rfl⟩
        rw [Shadow.queue, hheld, Option.getD_some, List.length_drop] at hlt
        omega
      · intro hshort
        by_contra hlong
        cases hp' : s'.wpend with
        | none =>
          rw [Shadow.queue, hp'] at hlong
          simp at hlong
        | some q =>
          obtain ⟨halloc, hag, j, hj, rfl⟩ := (hiff q).mp hp'
          refine hshort ⟨halloc, hdone, hag, j, hj, ?_⟩
          rw [Shadow.queue, hp', Option.getD_some, List.length_drop] at hlong
          omega
  · -- the queue stays
    obtain ⟨hsame, p, hp, hle, hwhy⟩ : s₁.wpend = s.wpend ∧ ∃ p, s.wpend = some p ∧ f ≤ 0 ∧
        ((replies 0).outcome = .done → ¬ p.length < 2 ^ 31) := by
      rcases hcase with ⟨hsame, -, ⟨-, h, -⟩ | ⟨p, hp, hle, hwhy⟩⟩ | ⟨p, -, -, h, -⟩
      · exact absurd h hf
      · exact ⟨hsame, p, hp, hle, hwhy⟩
      · exact absurd h hf
    have hqueue : s₁.queue = s.queue := by simp [Shadow.queue, hsame]
    have hkept : s.queue.length < 2 ^ 31 →
        (s₁.queue.length < 2 ^ 31 ↔ ¬ Overlong alloc replies data s) := by
      intro hlt
      rw [hqueue]
      refine iff_of_true hlt ?_
      rintro ⟨-, hdone, -⟩
      refine hwhy (hdone (by simp [hp])) ?_
      simpa [Shadow.queue, hp] using hlt
    split_ifs with h1 h2 h3
    · exact ⟨⟨x₁, hx₁, hq₁⟩, hkept⟩
    · exact ⟨⟨x₁, hx₁, hq₁⟩, hkept⟩
    · omega
    · omega

/-- A queue that was not there before is of what the write reported as processed. -/
theorem writeConnected_reports (hx : s.ssl = some x) (hq : Unsent s.wpend x.wr) (alloc : Bool)
    (replies : ℕ → WriteReply) (data : Bytes) {q : Bytes}
    (h : (writeConnected alloc replies s data).1.wpend = some q) :
    (writeConnected alloc replies s data).1.wpend = s.wpend ∨
      (writeConnected alloc replies s data).2.2 = data.length ∧ q <:+ data := by
  obtain ⟨x₁, -, -, hcase⟩ := flush_any (s := shUnblockWrite s) hx hq (replies 0)
  have hwpend : (shUnblockWrite s).wpend = s.wpend := rfl
  rw [hwpend] at hcase
  revert h
  unfold writeConnected
  generalize shFlushWrite (shUnblockWrite s) (replies 0) = fl at hcase
  obtain ⟨s₁, f⟩ := fl
  dsimp only at hcase ⊢
  rcases hcase with ⟨hsame, -, ⟨hp, rfl, -⟩ | ⟨p, hp, hle, -⟩⟩ | ⟨p, -, hgone, rfl, -⟩
  · rw [if_neg (by decide), if_neg (by decide)]
    split_ifs
    · exact fun _ => Or.inl hsame
    · exact fun h => Or.inr (loop_reports (hsame.trans hp) h)
  · intro h
    rcases lt_or_eq_of_le hle with hlt | rfl
    · rw [if_pos hlt]
      exact Or.inl hsame
    · rw [if_neg (by decide), if_pos rfl]
      exact Or.inl hsame
  · rw [if_neg (by decide), if_neg (by decide)]
    split_ifs
    · intro h
      rw [hgone] at h
      simp at h
    · exact fun h => Or.inr (loop_reports hgone h)

theorem readConnected_any (hx : s.ssl = some x) (hq : Unsent s.wpend x.wr) (flush : WriteReply)
    (r : ReadReply) (len : ℕ) : ∃ x', (readConnected flush r s len).1.ssl = some x' ∧
      Unsent (readConnected flush r s len).1.wpend x'.wr ∧
      ((readConnected flush r s len).1.wpend = s.wpend ∨
        (readConnected flush r s len).1.wpend = none) := by
  obtain ⟨x₁, hx₁, hq₁, hcase⟩ := flush_any (s := shUnblockWrite s) hx hq flush
  have hwpend : (shUnblockWrite s).wpend = s.wpend := rfl
  have hor : (shFlushWrite (shUnblockWrite s) flush).1.wpend = s.wpend ∨
      (shFlushWrite (shUnblockWrite s) flush).1.wpend = none := by
    rcases hcase with ⟨hsame, -⟩ | ⟨p, -, hgone, -⟩
    · exact Or.inl (hsame.trans hwpend)
    · exact Or.inr hgone
  unfold readConnected
  split
  next s' f he =>
    rw [he] at hx₁ hq₁ hor
    split_ifs <;> exact ⟨x₁, hx₁, hq₁, hor⟩

end Specs

end AquaTransport
