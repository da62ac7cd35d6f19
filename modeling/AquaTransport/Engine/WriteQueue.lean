import AquaTransport.Engine.Shadow
import AquaTransport.Lib.Run
import Mathlib.Algebra.Order.Ring.Int
import Mathlib.Data.List.Infix

/-!
# AquaTransport.Engine.WriteQueue — `SSLWrite`, `SSLRead` and the queue between them

What `SSL_write` will not take is kept in `wpend` and reported as written; the next entry flushes it
first.  `Writer.write` is OpenSSL's side, without partial writes: a call completes or remembers how
much of its buffer it has consumed, and the call after a blocked one has to present a buffer that
starts with the same bytes.

`Queued` ties the two: there is a queue exactly while OpenSSL waits for a retry, and what it waits
for is a prefix of the queue.  `flush_spec` and `writeLoop_spec` keep it and account for every byte.
-/

namespace AquaTransport

/-- `IO_RUN_MAX`. -/
def IO_RUN_MAX : ℕ := 65536

/-- `(int)n` for a `size_t`. -/
def intOf (n : ℕ) : ℤ := Int.bmod n (2 ^ 32)

theorem intOf_eq {n : ℕ} (h : n < 2 ^ 31) : intOf n = n := by
  unfold intOf
  rw [Int.bmod_eq_of_le] <;> omega

/-! ### OpenSSL's writer -/

/-- How a call of `SSL_write` ends: it took the buffer, it blocked with so much of it consumed, or it
failed. -/
inductive WriteOutcome
  | done
  | want (consumed : ℕ)
  | fatal
  deriving DecidableEq

/-- `latched`: the caller's write callback said would-block during the call (`bio_bwrite`). -/
structure WriteReply where
  outcome : WriteOutcome
  latched : Bool := false

/-- The return value, and `SSL_get_error` when it is not positive. -/
inductive SslRet
  | ok (n : ℕ)
  | want
  | fatal

/-- One record write: `k` bytes of `p` were consumed in earlier calls, when the buffer was `prev`. -/
def Writer.put (w : Writer) (p prev : Bytes) (k : ℕ) : WriteOutcome → Writer × SslRet
  | .done => ({ w with taken := w.taken ++ (prev.take k ++ p.drop k), retry := none }, .ok p.length)
  | .want k' => ({ w with retry := some (p, max k (min k' p.length)) }, .want)
  | .fatal => (w, .fatal)

/-- `SSL_write(ssl, buf, num)`. -/
def Writer.write (w : Writer) (buf : Bytes) (num : ℤ) (o : WriteOutcome) : Writer × SslRet :=
  if num ≤ 0 then (w, .fatal)
  else
    match w.retry with
    | none => w.put (buf.take num.toNat) [] 0 o
    | some (prev, k) =>
      if prev <+: buf.take num.toNat then w.put (buf.take num.toNat) prev k o
      else ({ w with badRetry := true }, .fatal)

/-- `SSL_write` on the shadow's object. -/
def Shadow.sslWrite (s : Shadow) (buf : Bytes) (num : ℤ) (r : WriteReply) : Shadow × SslRet :=
  match s.ssl with
  | none => (s, .fatal)
  | some x =>
    ({ s with
        ssl := some { x with wr := (x.wr.write buf num r.outcome).1 }
        wblocked := s.wblocked || r.latched },
      (x.wr.write buf num r.outcome).2)

/-! ### The engine's queue -/

def shUnblockWrite (s : Shadow) : Shadow := { s with wblocked := false }

def shResetWrite (s : Shadow) : Shadow := { s with wblocked := false, wpend := none }

/-- 1 when the queue is empty, 0 when the socket still will not take it, -1 on a fatal error. -/
def shFlushWrite (s : Shadow) (r : WriteReply) : Shadow × ℤ :=
  match s.wpend with
  | none => (s, 1)
  | some p =>
    match s.sslWrite p (intOf p.length) r with
    | (s', .ok _) => ({ s' with wpend := none }, 1)
    | (s', .want) => (s', 0)
    | (s', .fatal) => (s', -1)

/-- `alloc` is whether `realloc` succeeds. -/
def shHoldWrite (alloc : Bool) (s : Shadow) (data : Bytes) : Shadow × Bool :=
  if data = [] ∨ alloc = false then (s, false)
  else ({ s with wpend := some (s.wpend.getD [] ++ data) }, true)

/-! ### The two entries -/

/-- The loop of `my_SSLWrite`, at run `i` and offset `off`: the shadow, the status and
`*processed`. -/
def writeLoop (alloc : Bool) (replies : ℕ → WriteReply) (data : Bytes) (s : Shadow) (i off : ℕ) :
    Shadow × OSStatus × ℕ :=
  if off < data.length then
    match s.sslWrite (data.drop off) (intOf (min (data.length - off) IO_RUN_MAX)) (replies i) with
    | (s', .ok n) =>
      if 0 < n then writeLoop alloc replies data s' (i + 1) (off + n) else (s', ST_ClosedAbort, 0)
    | (s', .fatal) => (s', ST_ClosedAbort, 0)
    | (s', .want) =>
      -- blocked part-way: keep the rest and report the whole buffer as taken
      match shHoldWrite alloc s' (data.drop off) with
      | (s'', true) => (s'', errSSLWouldBlock, data.length)
      | (s'', false) => (s'', errSSLWouldBlock, off)
  else (s, noErr, data.length)
termination_by data.length - off

/-- The body of `my_SSLWrite`.  `replies` are OpenSSL's answers in the order asked. -/
def writeConnected (alloc : Bool) (replies : ℕ → WriteReply) (s : Shadow) (data : Bytes) :
    Shadow × OSStatus × ℕ :=
  match shFlushWrite (shUnblockWrite s) (replies 0) with
  | (s', f) =>
    if f < 0 then (s', ST_ClosedAbort, 0)
    else if f = 0 then (s', errSSLWouldBlock, 0)
    else if data.length = 0 then (s', noErr, 0)
    else writeLoop alloc replies data s' 1 0

/-- `my_SSLWrite`: only a connected shadow's write is the engine's. -/
def mySSLWrite (alloc : Bool) (replies : ℕ → WriteReply) (s : Shadow) (data : Bytes) :
    Option (Shadow × OSStatus × ℕ) :=
  if s.state = .connected then some (writeConnected alloc replies s data) else none

/-- How `SSL_read` ends. -/
inductive ReadOutcome
  | got (n : ℕ)
  | want
  | zeroReturn
  | fatal

structure ReadReply where
  outcome : ReadOutcome
  latched : Bool := false

/-- The body of `my_SSLRead`. -/
def readConnected (flush : WriteReply) (r : ReadReply) (s : Shadow) (len : ℕ) :
    Shadow × OSStatus × ℕ :=
  match shFlushWrite (shUnblockWrite s) flush with
  | (s', f) =>
    if f < 0 then (s', ST_ClosedAbort, 0)
    else if len = 0 then (s', noErr, 0)
    else
      ({ s' with wblocked := s'.wblocked || r.latched },
        match r.outcome with
        | .got n => (noErr, min n (min len IO_RUN_MAX))
        | .want => (errSSLWouldBlock, 0)
        | .zeroReturn => (ST_ClosedGraceful, 0)
        | .fatal => (ST_ClosedAbort, 0))

/-- `my_SSLRead`: only a connected shadow's read is the engine's. -/
def mySSLRead (flush : WriteReply) (r : ReadReply) (s : Shadow) (len : ℕ) :
    Option (Shadow × OSStatus × ℕ) :=
  if s.state = .connected then some (readConnected flush r s len) else none

/-! ### What reads and writes leave alone -/

/-- A shadow less its write side. -/
def Shadow.core (s : Shadow) : Shadow :=
  { s with wblocked := false, wpend := none, ssl := s.ssl.map fun x => { x with wr := {} } }

theorem Shadow.state_of_core {s s' : Shadow} (h : s'.core = s.core) : s'.state = s.state :=
  (congrArg Shadow.state h : s'.core.state = s.core.state)

theorem sslWrite_core (s : Shadow) (buf : Bytes) (num : ℤ) (r : WriteReply) :
    (s.sslWrite buf num r).1.core = s.core := by
  cases hx : s.ssl with
  | none => simp only [Shadow.sslWrite, hx]
  | some x => simp only [Shadow.sslWrite, Shadow.core, hx, Option.map_some]

theorem shFlushWrite_core (s : Shadow) (r : WriteReply) : (shFlushWrite s r).1.core = s.core := by
  unfold shFlushWrite
  split
  next => rfl
  next p _ =>
    have h := sslWrite_core s p (intOf p.length) r
    split
    all_goals
      next he =>
        rw [he] at h
        exact h

theorem shHoldWrite_core (alloc : Bool) (s : Shadow) (data : Bytes) :
    (shHoldWrite alloc s data).1.core = s.core := by
  unfold shHoldWrite
  split_ifs <;> rfl

theorem writeLoop_core (alloc : Bool) (replies : ℕ → WriteReply) (data : Bytes) (s : Shadow)
    (i off : ℕ) : (writeLoop alloc replies data s i off).1.core = s.core := by
  induction s, i, off using writeLoop.induct alloc replies data with
  | case6 s i off hlt => rw [writeLoop, if_neg hlt]
  | case1 s i off hlt s' n he hn ih =>
    have h := sslWrite_core s (data.drop off) (intOf (min (data.length - off) IO_RUN_MAX)) (replies i)
    rw [he] at h
    rw [writeLoop, if_pos hlt, he]
    simp only [if_pos hn]
    exact ih.trans h
  | case2 s i off hlt s' n he hn =>
    have h := sslWrite_core s (data.drop off) (intOf (min (data.length - off) IO_RUN_MAX)) (replies i)
    rw [he] at h
    rw [writeLoop, if_pos hlt, he]
    simp only [if_neg hn]
    exact h
  | case3 s i off hlt s' he =>
    have h := sslWrite_core s (data.drop off) (intOf (min (data.length - off) IO_RUN_MAX)) (replies i)
    rw [he] at h
    rw [writeLoop, if_pos hlt, he]
    exact h
  | case4 s i off hlt s' he s'' hh | case5 s i off hlt s' he s'' hh =>
    have h := sslWrite_core s (data.drop off) (intOf (min (data.length - off) IO_RUN_MAX)) (replies i)
    have hhold := shHoldWrite_core alloc s' (data.drop off)
    rw [he] at h
    rw [hh] at hhold
    rw [writeLoop, if_pos hlt, he]
    simp only [hh]
    exact hhold.trans h

theorem writeConnected_core (alloc : Bool) (replies : ℕ → WriteReply) (s : Shadow) (data : Bytes) :
    (writeConnected alloc replies s data).1.core = s.core := by
  have h : (shFlushWrite (shUnblockWrite s) (replies 0)).1.core = s.core := shFlushWrite_core _ _
  unfold writeConnected
  split
  next s' f he =>
    rw [he] at h
    split_ifs
    · exact h
    · exact h
    · exact h
    · exact (writeLoop_core ..).trans h

theorem readConnected_core (flush : WriteReply) (r : ReadReply) (s : Shadow) (len : ℕ) :
    (readConnected flush r s len).1.core = s.core := by
  have h : (shFlushWrite (shUnblockWrite s) flush).1.core = s.core := shFlushWrite_core _ _
  unfold readConnected
  split
  next s' f he =>
    rw [he] at h
    split_ifs <;> exact h

/-! ### The queue and the pending retry -/

/-- The bytes in `wpend`. -/
def Shadow.queue (s : Shadow) : Bytes := s.wpend.getD []

/-- There is a queue exactly while OpenSSL waits for a retry, and the retry it waits for is a prefix
of it. -/
structure Queued (wpend : Option Bytes) (wr : Writer) : Prop where
  legal : wr.badRetry = false
  idle : wpend = none ↔ wr.retry = none
  held : ∀ p prev k, wpend = some p → wr.retry = some (prev, k) →
    p ≠ [] ∧ p.length < 2 ^ 31 ∧ prev <+: p ∧ k ≤ prev.length

theorem Queued.new : Queued none {} := ⟨rfl, by simp, by simp⟩

/-- Bytes consumed from a prefix of a buffer are the buffer's own. -/
theorem prev_append_drop {prev p : Bytes} {k : ℕ} (h : prev <+: p)
    (hk : k ≤ prev.length) : prev.take k ++ p.drop k = p := by
  obtain ⟨t, rfl⟩ := h
  rw [List.drop_append_of_le_length hk, ← List.append_assoc, List.take_append_drop]

/-- A first write of a whole buffer. -/
theorem Writer.write_first {w : Writer} {n : ℕ} (buf : Bytes) (o : WriteOutcome)
    (hr : w.retry = none) (hn : 0 < n) (hlt : n < 2 ^ 31) :
    w.write buf (intOf n) o = w.put (buf.take n) [] 0 o := by
  unfold Writer.write
  rw [intOf_eq hlt, if_neg (by omega), hr, Int.toNat_natCast]

/-- A legal retry of a whole buffer. -/
theorem Writer.write_retry {w : Writer} {p prev : Bytes} {k : ℕ} {o : WriteOutcome}
    (hr : w.retry = some (prev, k)) (hp : p ≠ []) (hlt : p.length < 2 ^ 31) (hpre : prev <+: p) :
    w.write p (intOf p.length) o = w.put p prev k o := by
  have hpos : 0 < p.length := List.length_pos_iff.mpr hp
  unfold Writer.write
  rw [intOf_eq hlt, if_neg (by omega), hr, Int.toNat_natCast, List.take_length]
  simp only [hpre, if_true]

section Specs

variable {s : Shadow} {x : Ssl}

/-- A flush either sends the queue whole or keeps it, and no byte is lost. -/
theorem flush_spec (hx : s.ssl = some x) (hq : Queued s.wpend x.wr) {r : WriteReply}
    (hr : r.outcome ≠ .fatal) :
    ∃ x', (shFlushWrite s r).1.ssl = some x' ∧ Queued (shFlushWrite s r).1.wpend x'.wr ∧
      x'.wr.taken ++ (shFlushWrite s r).1.queue = x.wr.taken ++ s.queue ∧
      ((shFlushWrite s r).2 = 1 ∧ (shFlushWrite s r).1.wpend = none ∨
        (shFlushWrite s r).2 = 0 ∧ (shFlushWrite s r).1.wpend = s.wpend ∧ s.wpend ≠ none) := by
  cases hp : s.wpend with
  | none =>
    have hf : shFlushWrite s r = (s, 1) := by simp only [shFlushWrite, hp]
    rw [hf]
    exact ⟨x, hx, hq, rfl, Or.inl ⟨rfl, hp⟩⟩
  | some p =>
    obtain ⟨⟨prev, k⟩, hret⟩ : ∃ y, x.wr.retry = some y := by
      rw [← Option.ne_none_iff_exists', ne_eq, ← hq.idle, hp]
      simp
    obtain ⟨hne, hlt, hpre, hk⟩ := hq.held p prev k hp hret
    have hw := Writer.write_retry (o := r.outcome) hret hne hlt hpre
    cases ho : r.outcome with
    | fatal => exact absurd ho hr
    | done =>
      rw [ho] at hw
      simp only [shFlushWrite, hp, Shadow.sslWrite, hx, hw, ho, Writer.put]
      refine ⟨_, rfl, ⟨hq.legal, by simp, by simp⟩, ?_, Or.inl (by simp)⟩
      simp [Shadow.queue, hp, prev_append_drop hpre hk]
    | want k' =>
      rw [ho] at hw
      simp only [shFlushWrite, hp, Shadow.sslWrite, hx, hw, ho, Writer.put]
      refine ⟨_, rfl, ⟨hq.legal, by simp, ?_⟩, ?_, Or.inr (by simp)⟩
      · intro p' prev' j hp' hj
        obtain rfl := Option.some.inj hp'
        obtain ⟨rfl, rfl⟩ := Prod.mk.inj (Option.some.inj hj)
        have := hpre.length_le
        exact ⟨hne, hlt, List.prefix_rfl, by omega⟩
      · simp [Shadow.queue, hp]

/-- From an empty queue the loop passes on every byte from `off` on: OpenSSL has taken them, or the
queue holds the rest. -/
theorem writeLoop_spec {replies : ℕ → WriteReply} (hr : ∀ i, (replies i).outcome ≠ .fatal)
    {data : Bytes} (hlen : data.length < 2 ^ 31) (i off : ℕ) (hoff : off ≤ data.length)
    (s : Shadow) (x : Ssl) (hx : s.ssl = some x) (hp : s.wpend = none)
    (hret : x.wr.retry = none) (hleg : x.wr.badRetry = false) :
    ∃ x', (writeLoop true replies data s i off).1.ssl = some x' ∧
      Queued (writeLoop true replies data s i off).1.wpend x'.wr ∧
      x'.wr.taken ++ (writeLoop true replies data s i off).1.queue =
        x.wr.taken ++ data.drop off ∧
      (writeLoop true replies data s i off).2.2 = data.length ∧
      ((writeLoop true replies data s i off).2.1 = noErr ∧
          (writeLoop true replies data s i off).1.wpend = none ∨
        (writeLoop true replies data s i off).2.1 = errSSLWouldBlock ∧ off < data.length ∧
          (writeLoop true replies data s i off).1.queue ≠ []) := by
  induction hm : data.length - off using Nat.strong_induction_on generalizing s x i off with
  | _ m ih =>
    rw [writeLoop]
    by_cases hlt : off < data.length
    · rw [if_pos hlt]
      have hn : 0 < min (data.length - off) IO_RUN_MAX := by
        unfold IO_RUN_MAX
        omega
      have hw := Writer.write_first (data.drop off) (replies i).outcome hret hn (by omega)
      have hrun : ((data.drop off).take (min (data.length - off) IO_RUN_MAX)).length =
          min (data.length - off) IO_RUN_MAX := by
        rw [List.length_take, List.length_drop]
        omega
      generalize hrn : min (data.length - off) IO_RUN_MAX = run at hn hw hrun
      have hle : off + run ≤ data.length := by omega
      cases ho : (replies i).outcome with
      | fatal => exact absurd ho (hr i)
      | done =>
        rw [ho] at hw
        simp only [Shadow.sslWrite, hx, hw, ho, Writer.put, hrun, if_pos hn]
        -- the run is taken, and the rest is the loop's again
        obtain ⟨x', hx', hq', hb', hpr', hres'⟩ := ih (data.length - (off + run)) (by omega) (i + 1)
          (off + run) hle
          { s with
            ssl := some { x with wr := { x.wr with
              taken := x.wr.taken ++ (([] : Bytes).take 0 ++
                ((data.drop off).take run).drop 0)
              retry := none } }
            wblocked := s.wblocked || (replies i).latched }
          _ rfl hp rfl hleg rfl
        refine ⟨x', hx', hq', ?_, hpr', ?_⟩
        · rw [hb']
          simp only [List.take_nil, List.nil_append, List.drop_zero, List.append_assoc]
          rw [← List.drop_drop, List.take_append_drop]
        · exact hres'.imp_right fun h => ⟨h.1, hlt, h.2.2⟩
      | want k =>
        have hne : data.drop off ≠ [] := by
          rw [ne_eq, List.drop_eq_nil_iff]
          omega
        rw [ho] at hw
        simp only [Shadow.sslWrite, hx, hw, ho, Writer.put, shHoldWrite, hne, hp, Bool.true_eq_false,
          or_self, if_false, Option.getD_none, List.nil_append]
        refine ⟨_, rfl, ⟨hleg, by simp, ?_⟩, ?_, by simp, Or.inr ⟨by simp, hlt, ?_⟩⟩
        · intro p prev j hp' hj
          obtain rfl := Option.some.inj hp'
          obtain ⟨rfl, rfl⟩ := Prod.mk.inj (Option.some.inj hj)
          refine ⟨hne, by rw [List.length_drop]; omega, List.take_prefix _ _, by omega⟩
        · simp [Shadow.queue]
        · simpa [Shadow.queue] using hne
    · rw [if_neg hlt]
      have hdrop : data.drop off = [] := List.drop_eq_nil_of_le (by omega)
      refine ⟨x, hx, ⟨hleg, by simp [hp, hret], by simp [hp]⟩, ?_, rfl, Or.inl ⟨rfl, hp⟩⟩
      simp [Shadow.queue, hp, hdrop]

/-- One `SSLWrite`: what it reports as processed is taken or queued, new data only behind an empty
queue, and its answer is one of three. -/
theorem writeConnected_spec (hx : s.ssl = some x) (hq : Queued s.wpend x.wr)
    {replies : ℕ → WriteReply} (hr : ∀ i, (replies i).outcome ≠ .fatal) {data : Bytes}
    (hlen : data.length < 2 ^ 31) :
    (∃ x', (writeConnected true replies s data).1.ssl = some x' ∧
      Queued (writeConnected true replies s data).1.wpend x'.wr ∧
      x'.wr.taken ++ (writeConnected true replies s data).1.queue =
        x.wr.taken ++ s.queue ++ data.take (writeConnected true replies s data).2.2) ∧
    (0 < (writeConnected true replies s data).2.2 →
      (shFlushWrite (shUnblockWrite s) (replies 0)).1.wpend = none) ∧
    ((writeConnected true replies s data).2.1 = noErr ∧
        (writeConnected true replies s data).2.2 = data.length ∧
        (writeConnected true replies s data).1.wpend = none ∨
      (writeConnected true replies s data).2.1 = errSSLWouldBlock ∧ 0 < data.length ∧
        (writeConnected true replies s data).2.2 = data.length ∧
        (writeConnected true replies s data).1.queue ≠ [] ∨
      (writeConnected true replies s data).2.1 = errSSLWouldBlock ∧
        (writeConnected true replies s data).2.2 = 0 ∧
        (writeConnected true replies s data).1.wpend = s.wpend ∧
        (writeConnected true replies s data).1.queue ≠ []) := by
  obtain ⟨x₁, hx₁, hq₁, hb₁, hf⟩ := flush_spec (s := shUnblockWrite s) hx hq (hr 0)
  have hsq : (shUnblockWrite s).queue = s.queue := rfl
  rw [hsq] at hb₁
  generalize hfl : shFlushWrite (shUnblockWrite s) (replies 0) = fl at hx₁ hq₁ hb₁ hf
  obtain ⟨s₁, f⟩ := fl
  rcases hf with ⟨hf, hp⟩ | ⟨hf, hp, hne⟩
  · -- the queue went out, so the loop starts from nothing
    dsimp only at hf hp hx₁ hq₁ hb₁
    subst hf
    have hq0 : s₁.queue = [] := by simp [Shadow.queue, hp]
    by_cases h0 : data.length = 0
    · have hw : writeConnected true replies s data = (s₁, noErr, 0) := by
        simp [writeConnected, hfl, h0]
      rw [hw]
      exact ⟨⟨x₁, hx₁, hq₁, by simp [hb₁]⟩, by simp, Or.inl ⟨rfl, h0.symm, hp⟩⟩
    · have hw : writeConnected true replies s data = writeLoop true replies data s₁ 1 0 := by
        simp [writeConnected, hfl, h0]
      rw [hw]
      obtain ⟨x₂, hx₂, hq₂, hb₂, hn, hres⟩ := writeLoop_spec hr hlen 1 0 (Nat.zero_le _) s₁ x₁ hx₁ hp
        (hq₁.idle.mp hp) hq₁.legal
      refine ⟨⟨x₂, hx₂, hq₂, ?_⟩, fun _ => hp, ?_⟩
      · rw [hb₂, hn, List.take_length, ← hb₁, hq0, List.append_nil, List.drop_zero]
      · rcases hres with ⟨h1, h2⟩ | ⟨h1, h2, h3⟩
        · exact Or.inl ⟨h1, hn, h2⟩
        · exact Or.inr (Or.inl ⟨h1, h2, hn, h3⟩)
  · -- still holding: nothing new is taken
    dsimp only at hf hp hx₁ hq₁ hb₁
    subst hf
    have hw : writeConnected true replies s data = (s₁, errSSLWouldBlock, 0) := by
      simp [writeConnected, hfl]
    rw [hw]
    have hs : s.wpend ≠ none := hne
    obtain ⟨p, hp'⟩ := Option.ne_none_iff_exists'.mp hs
    have hp₁ : s₁.wpend = some p := hp.trans hp'
    obtain ⟨⟨prev, k⟩, hret⟩ : ∃ y, x₁.wr.retry = some y := by
      rw [← Option.ne_none_iff_exists', ne_eq, ← hq₁.idle, hp₁]
      simp
    have hne' := (hq₁.held p prev k hp₁ hret).1
    refine ⟨⟨x₁, hx₁, hq₁, by simp [hb₁]⟩, by simp, Or.inr (Or.inr ⟨rfl, rfl, hp, ?_⟩)⟩
    simpa [Shadow.queue, hp₁] using hne'

/-- One `SSLRead` moves bytes from the queue to OpenSSL and loses none. -/
theorem readConnected_spec (hx : s.ssl = some x) (hq : Queued s.wpend x.wr) {flush : WriteReply}
    (hr : flush.outcome ≠ .fatal) (r : ReadReply) (len : ℕ) :
    ∃ x', (readConnected flush r s len).1.ssl = some x' ∧
      Queued (readConnected flush r s len).1.wpend x'.wr ∧
      x'.wr.taken ++ (readConnected flush r s len).1.queue = x.wr.taken ++ s.queue := by
  obtain ⟨x₁, hx₁, hq₁, hb₁, -⟩ := flush_spec (s := shUnblockWrite s) hx hq hr
  unfold readConnected
  split
  next s' f he =>
    rw [he] at hx₁ hq₁ hb₁
    split_ifs
    · exact ⟨x₁, hx₁, hq₁, hb₁⟩
    · exact ⟨x₁, hx₁, hq₁, hb₁⟩
    · exact ⟨x₁, hx₁, hq₁, hb₁⟩

end Specs

/-! ### Runs of reads and writes -/

inductive IoOp
  | write (data : Bytes) (alloc : Bool) (replies : ℕ → WriteReply)
  | read (len : ℕ) (flush : WriteReply) (r : ReadReply)

/-- The allocator delivers, OpenSSL's writes do not fail, and the length is below 2^31. -/
def IoOp.Benign : IoOp → Prop
  | .write data alloc replies =>
    alloc = true ∧ data.length < 2 ^ 31 ∧ ∀ i, (replies i).outcome ≠ .fatal
  | .read _ flush _ => flush.outcome ≠ .fatal

/-- `none` is the native stack's answer. -/
def ioStep (s : Shadow) : IoOp → Option (Shadow × OSStatus × ℕ)
  | .write data alloc replies => mySSLWrite alloc replies s data
  | .read len flush r => mySSLRead flush r s len

/-- What the caller of a write counts as written: the first `*processed` bytes. -/
def IoOp.passed : IoOp → ℕ → Bytes
  | .write data _ _, processed => data.take processed
  | .read _ _ _, _ => []

/-- The shadow after a run, with everything its writes reported as processed. -/
def ioRun : Shadow → List IoOp → Shadow × Bytes
  | s, [] => (s, [])
  | s, op :: ops =>
    match ioStep s op with
    | none => ioRun s ops
    | some (s', _, processed) => ((ioRun s' ops).1, op.passed processed ++ (ioRun s' ops).2)

theorem ioStep_spec {s : Shadow} {x : Ssl} (hc : s.state = .connected) (hx : s.ssl = some x)
    (hq : Queued s.wpend x.wr) {op : IoOp} (hop : op.Benign) :
    ∃ s' st n x', ioStep s op = some (s', st, n) ∧ s'.state = .connected ∧ s'.ssl = some x' ∧
      Queued s'.wpend x'.wr ∧ x'.wr.taken ++ s'.queue = x.wr.taken ++ s.queue ++ op.passed n := by
  cases op with
  | write data alloc replies =>
    obtain ⟨rfl, hlen, hr⟩ := hop
    obtain ⟨⟨x', hx', hq', hb⟩, -⟩ := writeConnected_spec hx hq hr hlen
    have hst := Shadow.state_of_core (writeConnected_core true replies s data)
    exact ⟨(writeConnected true replies s data).1, (writeConnected true replies s data).2.1,
      (writeConnected true replies s data).2.2, x', if_pos hc, hst.trans hc, hx', hq', hb⟩
  | read len flush r =>
    obtain ⟨x', hx', hq', hb⟩ := readConnected_spec hx hq hop r len
    have hst := Shadow.state_of_core (readConnected_core flush r s len)
    refine ⟨(readConnected flush r s len).1, (readConnected flush r s len).2.1,
      (readConnected flush r s len).2.2, x', if_pos hc, hst.trans hc, hx', hq', ?_⟩
    simpa [IoOp.passed] using hb

theorem ioRun_spec {ops : List IoOp} (hops : ∀ op ∈ ops, op.Benign) {s : Shadow} {x : Ssl}
    (hc : s.state = .connected) (hx : s.ssl = some x) (hq : Queued s.wpend x.wr) :
    (ioRun s ops).1.state = .connected ∧ ∃ x', (ioRun s ops).1.ssl = some x' ∧
      Queued (ioRun s ops).1.wpend x'.wr ∧
      x'.wr.taken ++ (ioRun s ops).1.queue = x.wr.taken ++ s.queue ++ (ioRun s ops).2 := by
  induction ops generalizing s x with
  | nil => exact ⟨hc, x, hx, hq, by simp [ioRun]⟩
  | cons op ops ih =>
    obtain ⟨s', st, n, x', hs, hc', hx', hq', hb⟩ :=
      ioStep_spec hc hx hq (hops op List.mem_cons_self)
    obtain ⟨h1, x'', hx'', hq'', hb'⟩ :=
      ih (fun op' h => hops op' (List.mem_cons_of_mem op h)) hc' hx' hq'
    simp only [ioRun, hs]
    exact ⟨h1, x'', hx'', hq'', by rw [hb', hb]; simp⟩

/-- **Exactly-once write stream.**  From a connected shadow with a new SSL object and an empty
queue, over every sequence of writes and reads: what the writes reported as processed is what
OpenSSL's completed calls took, followed by the queue; every retry was legal; a write takes new
data only behind an empty queue; and it answers noErr with everything processed and no queue, or
would-block with everything processed and a queue, or would-block with nothing processed and the
queue as it was. -/
theorem write_stream {s₀ : Shadow} {x₀ : Ssl} (hc : s₀.state = .connected)
    (hx : s₀.ssl = some x₀) (hnew : x₀.wr = {}) (hq : s₀.wpend = none) {ops : List IoOp}
    (hops : ∀ op ∈ ops, op.Benign) :
    (∃ x, (ioRun s₀ ops).1.ssl = some x ∧
      (ioRun s₀ ops).2 = x.wr.taken ++ (ioRun s₀ ops).1.queue ∧ x.wr.badRetry = false) ∧
    ∀ data replies, data.length < 2 ^ 31 → (∀ i, (replies i : WriteReply).outcome ≠ .fatal) →
      ∃ s' status processed,
        mySSLWrite true replies (ioRun s₀ ops).1 data = some (s', status, processed) ∧
        (0 < processed →
          (shFlushWrite (shUnblockWrite (ioRun s₀ ops).1) (replies 0)).1.wpend = none) ∧
        (status = noErr ∧ processed = data.length ∧ s'.wpend = none ∨
          status = errSSLWouldBlock ∧ 0 < data.length ∧ processed = data.length ∧ s'.queue ≠ [] ∨
          status = errSSLWouldBlock ∧ processed = 0 ∧ s'.wpend = (ioRun s₀ ops).1.wpend ∧
            s'.queue ≠ []) := by
  have h0 : Queued s₀.wpend x₀.wr := by
    rw [hq, hnew]
    exact Queued.new
  obtain ⟨hst, x, hx', hq', hb⟩ := ioRun_spec hops hc hx h0
  refine ⟨⟨x, hx', ?_, hq'.legal⟩, fun data replies hlen hr => ?_⟩
  · simpa [hnew, Shadow.queue, hq] using hb.symm
  · obtain ⟨-, hnewdata, hres⟩ := writeConnected_spec hx' hq' hr hlen
    exact ⟨(writeConnected true replies (ioRun s₀ ops).1 data).1,
      (writeConnected true replies (ioRun s₀ ops).1 data).2.1,
      (writeConnected true replies (ioRun s₀ ops).1 data).2.2, if_pos hst, hnewdata, hres⟩

/-- A write that blocks with nothing consumed, a read that cannot flush either, and a pure flush. -/
def blockedRun : List IoOp :=
  [.write [1, 2, 3] true fun _ => ⟨.want 0, true⟩, .read 10 ⟨.want 2, true⟩ ⟨.want, false⟩,
    .write [] true fun _ => ⟨.done, false⟩]

theorem write_stream_blockedRun :
    let s₀ : Shadow := { state := .connected, ssl := some { id := 0 } }
    ∃ x, (ioRun s₀ blockedRun).1.ssl = some x ∧
      (ioRun s₀ blockedRun).2 = x.wr.taken ++ (ioRun s₀ blockedRun).1.queue ∧
      x.wr.badRetry = false :=
  (write_stream rfl rfl rfl rfl (by simp [blockedRun, IoOp.Benign])).1

/-! ### Data already read -/

/-- What OpenSSL promises of `SSL_read` while `SSL_pending` is positive: some of the decrypted data,
whatever the transport does. -/
def ReadReply.Serves (r : ReadReply) (pending : ℕ) : Prop :=
  0 < pending → ∃ n, 0 < n ∧ n ≤ pending ∧ r.outcome = .got n

/-- `SSL_write` of the whole queue `p` ends neither in 1 nor in a retry: its length is no positive
`int`, it does not start with the buffer of the blocked call, or the connection fails. -/
def Writer.Fails (w : Writer) (p : Bytes) (o : WriteOutcome) : Prop :=
  intOf p.length ≤ 0 ∨
    (∃ prev k, w.retry = some (prev, k) ∧ ¬ prev <+: p.take (intOf p.length).toNat) ∨ o = .fatal

/-- A record write fails when the connection does, and says so. -/
theorem Writer.put_fatal {w : Writer} {p prev : Bytes} {k : ℕ} {o : WriteOutcome} :
    (w.put p prev k o).2 = .fatal ↔ o = .fatal := by
  cases o <;> simp [Writer.put]

theorem Writer.write_fatal {w : Writer} {p : Bytes} {o : WriteOutcome} :
    (w.write p (intOf p.length) o).2 = .fatal ↔ w.Fails p o := by
  unfold Writer.write Writer.Fails
  by_cases h0 : intOf p.length ≤ 0
  · rw [if_pos h0]
    simp only [h0, true_or]
  · rw [if_neg h0]
    cases hr : w.retry with
    | none => simp only [Writer.put_fatal, h0, false_or, reduceCtorEq, false_and, exists_false]
    | some e =>
      obtain ⟨prev, k⟩ := e
      by_cases hpre : prev <+: p.take (intOf p.length).toNat
      · simp only [if_pos hpre, Writer.put_fatal, h0, false_or]
        constructor
        · exact Or.inr
        · rintro (⟨_, _, ⟨⟩, hn⟩ | h)
          · exact absurd hpre hn
          · exact h
      · simp only [if_neg hpre, true_iff]
        exact Or.inr (Or.inl ⟨prev, k, rfl, hpre⟩)

/-- The flush fails exactly when there is a queue that `SSL_write` fails on. -/
theorem flush_fails {s : Shadow} {x : Ssl} (hx : s.ssl = some x) (r : WriteReply) :
    (shFlushWrite s r).2 < 0 ↔ ∃ p, s.wpend = some p ∧ x.wr.Fails p r.outcome := by
  cases hp : s.wpend with
  | none => simp [shFlushWrite, hp]
  | some p =>
    have hw := Writer.write_fatal (w := x.wr) (p := p) (o := r.outcome)
    simp only [shFlushWrite, hp, Shadow.sslWrite, hx, Option.some.injEq, exists_eq_left', ← hw]
    cases (x.wr.write p (intOf p.length) r.outcome).2 <;> simp

/-- While the queue and the retry agree, only the connection fails a flush. -/
theorem Queued.fails {wr : Writer} {p : Bytes} (hq : Queued (some p) wr) (o : WriteOutcome) :
    wr.Fails p o ↔ o = .fatal := by
  obtain ⟨⟨prev, k⟩, hr⟩ : ∃ y, wr.retry = some y := by
    rw [← Option.ne_none_iff_exists', ne_eq, ← hq.idle]
    simp
  obtain ⟨hne, hlt, hpre, -⟩ := hq.held p prev k rfl hr
  have hpos : 0 < p.length := List.length_pos_iff.mpr hne
  unfold Writer.Fails
  rw [intOf_eq hlt, hr, Int.toNat_natCast, List.take_length]
  constructor
  · rintro (h | ⟨_, _, ⟨⟩, hn⟩ | h)
    · omega
    · exact absurd hpre hn
    · exact h
  · exact fun h => Or.inr (Or.inr h)

/-- **Buffered data and the other direction's error.**  With decrypted data waiting, a read of some
length delivers of it and answers noErr exactly when no flush of the outgoing queue fails first; a
failed one hides the data behind `errSSLClosedAbort`. -/
theorem read_delivers {s : Shadow} {x : Ssl} (hc : s.state = .connected) (hx : s.ssl = some x)
    {pending : ℕ} (hpend : 0 < pending) (flush : WriteReply) {r : ReadReply} (hr : r.Serves pending)
    {len : ℕ} (hlen : len ≠ 0) :
    (∃ s' processed, mySSLRead flush r s len = some (s', noErr, processed) ∧ 1 ≤ processed) ↔
      ¬ ∃ p, s.wpend = some p ∧ x.wr.Fails p flush.outcome := by
  have hf := flush_fails (s := shUnblockWrite s) hx flush
  rw [show (shUnblockWrite s).wpend = s.wpend from rfl] at hf
  obtain ⟨n, hn, -, ho⟩ := hr hpend
  rw [← hf]
  simp only [mySSLRead, if_pos hc, readConnected]
  generalize shFlushWrite (shUnblockWrite s) flush = fl
  obtain ⟨s', f⟩ := fl
  by_cases h : f < 0
  · -- the queue's error comes first
    simp [h, ST_ClosedAbort, noErr]
  · have hpos : 1 ≤ min n (min len IO_RUN_MAX) := by
      unfold IO_RUN_MAX
      omega
    simp only [if_neg h, if_neg hlen, ho]
    exact ⟨fun _ => h, fun _ => ⟨_, _, rfl, hpos⟩⟩

/-- A server that answered and closed: the rest of the request cannot go out, and the answer is not
handed over. -/
theorem answer_withheld :
    let x : Ssl := { id := 0, wr := { retry := some ([7], 0) } }
    let s : Shadow := { state := .connected, ssl := some x, wpend := some [7] }
    let r : ReadReply := { outcome := .got 3 }
    r.Serves 3 ∧ Queued s.wpend x.wr ∧
      (mySSLRead ⟨.fatal, false⟩ r s 10).map (·.2) = some (ST_ClosedAbort, 0) := by
  refine ⟨fun _ => ⟨3, by decide, le_rfl, rfl⟩, ⟨rfl, by simp, ?_⟩, by decide⟩
  rintro p prev k ⟨⟩ ⟨⟩
  exact ⟨by decide, by decide, List.prefix_rfl, by decide⟩

/-- A queue that stays blocked does not keep the answer back. -/
theorem read_delivers_blocked :
    let x : Ssl := { id := 0, wr := { retry := some ([7], 0) } }
    let s : Shadow := { state := .connected, ssl := some x, wpend := some [7] }
    ∃ s' processed, mySSLRead ⟨.want 0, true⟩ ⟨.got 3, false⟩ s 10 = some (s', noErr, processed) ∧
      1 ≤ processed := by
  intro x s
  have h := @read_delivers s x rfl rfl 3 (by decide) ⟨.want 0, true⟩ ⟨.got 3, false⟩
    (fun _ => ⟨3, by decide, le_rfl, rfl⟩) 10 (by decide)
  refine h.mpr ?_
  rintro ⟨p, ⟨⟩, hp⟩
  have hq : Queued (some [7]) x.wr := by
    refine ⟨rfl, by simp [x], ?_⟩
    rintro p prev k ⟨⟩ ⟨⟩
    exact ⟨by decide, by decide, List.prefix_rfl, by decide⟩
  exact absurd ((hq.fails _).mp hp) (by simp)

end AquaTransport
