import AquaTransport.Hooks.Queue

/-!
# AquaTransport.Hooks.Latch — the BIO between OpenSSL and the caller's callbacks

`bioBwriteAll` and `bioBread` are the two callbacks of the BIO, with what they answer OpenSSL; `bioRun`
is any sequence of them.  An act of a connection has the BIO operations of each of its OpenSSL calls as
its `Traffic`, and `Wire` is a connection with the events of its BIO so far, newest first.

The latch is dropped when an entry begins and nowhere else that a BIO operation could follow
(`Wire.Inv`): while a call is in progress, it says whether the callback has blocked in this entry.
-/

namespace AquaTransport

/-! ### The BIO -/

/-- A call of `bio_bwrite`, whose length is an `int`, and what the caller's write callback would answer:
its status and how many of the bytes it takes. -/
structure BioWrite where
  buf : Bytes
  status : OSStatus
  took : ℕ
  len : buf.length < 2 ^ 31
  le : took ≤ buf.length

/-- An operation of OpenSSL on the BIO.  A read comes with the answer of the caller's read callback. -/
inductive BioOp
  | write (b : BioWrite)
  | read (status : OSStatus) (got : ℕ)

inductive BioEvent
  /-- An entry of the caller has dropped the latch. -/
  | entry
  /-- OpenSSL was answered `ret`, with or without the retry flag.  `asked` is whether the caller's write
  callback was invoked. -/
  | wrote (b : BioWrite) (asked : Bool) (ret : ℤ) (retry : Bool)
  | read (ret : ℤ) (retry : Bool)

/-- `bio_bwrite`, of which `bioBwrite` is the latch. -/
def bioBwriteAll (b : BioWrite) (s : Shadow) : Shadow × BioEvent :=
  if s.wblocked then (s, .wrote b false (-1) true)
  else
    (bioBwrite b.status s,
      if 0 < b.took then .wrote b true (intOf b.took) false
      else if b.status = errSSLWouldBlock ∨ b.status = noErr then .wrote b true (-1) true
      else .wrote b true (-1) false)

/-- `bio_bread`. -/
def bioBread (status : OSStatus) (got : ℕ) : BioEvent :=
  if 0 < got then .read (intOf got) false
  else if status = errSSLWouldBlock ∨ status = noErr then .read (-1) true
  else if status = ST_ClosedGraceful then .read 0 false
  else .read (-1) false

def BioOp.run (s : Shadow) : BioOp → Shadow × BioEvent
  | .write b => bioBwriteAll b s
  | .read status got => (s, bioBread status got)

/-- Operations one after the other, with their events newest first. -/
def bioRun (s : Shadow) : List BioOp → Shadow × List BioEvent
  | [] => (s, [])
  | op :: ops => ((bioRun (op.run s).1 ops).1, (bioRun (op.run s).1 ops).2 ++ [(op.run s).2])

/-- One of the operations meets a callback that would block. -/
def blocks (ops : List BioOp) : Bool :=
  ops.any fun op => match op with
    | .write b => b.status == errSSLWouldBlock
    | .read .. => false

/-- The callback has blocked since the last entry. -/
def latched : List BioEvent → Bool
  | [] => false
  | .entry :: _ => false
  | .wrote b asked _ _ :: past => asked && b.status == errSSLWouldBlock || latched past
  | .read .. :: past => latched past

/-- The callback is asked unless it has blocked in this entry, and OpenSSL is answered what it took, a
retry when it took nothing without an error or was not asked, or else a failure. -/
def BioEvent.Honest (past : List BioEvent) : BioEvent → Prop
  | .wrote b asked ret retry => asked = !latched past ∧
    if asked = true ∧ 0 < b.took then ret = b.took ∧ retry = false
    else ret = -1 ∧
      (retry = true ↔ asked = false ∨ b.status = errSSLWouldBlock ∨ b.status = noErr)
  | _ => True

theorem blocks_append (ops ops' : List BioOp) : blocks (ops ++ ops') = (blocks ops || blocks ops') :=
  List.any_append

theorem BioOp.run_honest {s : Shadow} {past : List BioEvent} (h : s.wblocked = latched past)
    (op : BioOp) : (op.run s).2.Honest past ∧
      (op.run s).1.wblocked = latched ((op.run s).2 :: past) ∧
      (op.run s).1.wblocked = (s.wblocked || blocks [op]) := by
  cases op with
  | read status got =>
    simp only [BioOp.run, bioBread]
    split_ifs <;> simp [BioEvent.Honest, latched, blocks, h]
  | write b =>
    have hb : blocks [.write b] = (b.status == errSSLWouldBlock) := by simp [blocks]
    rw [hb]
    simp only [BioOp.run, bioBwriteAll]
    by_cases hl : s.wblocked = true
    · rw [if_pos hl]
      rw [hl] at h
      refine ⟨⟨by rw [← h]; rfl, ?_⟩, ?_, by simp [hl]⟩
      · rw [if_neg (by simp)]
        exact ⟨rfl, by simp⟩
      · show s.wblocked = (false && _ || latched past)
        rw [← h, hl]
        simp
    · rw [if_neg hl]
      rw [Bool.not_eq_true] at hl
      rw [hl] at h
      have hasked : true = !latched past := by rw [← h]; rfl
      have hlatch : (bioBwrite b.status s).wblocked = (b.status == errSSLWouldBlock) := by
        simp [bioBwrite, hl]
      have hafter : (b.status == errSSLWouldBlock) =
          (true && b.status == errSSLWouldBlock || latched past) := by
        rw [← h, Bool.or_false, Bool.true_and]
      refine ⟨?_, ?_, by rw [hlatch, hl, Bool.false_or]⟩
      · by_cases htook : 0 < b.took
        · have hint : intOf b.took = b.took := intOf_eq (by have := b.len; have := b.le; omega)
          rw [if_pos htook]
          exact ⟨hasked, by rw [if_pos ⟨rfl, htook⟩]; exact ⟨hint, rfl⟩⟩
        · rw [if_neg htook]
          split_ifs with hs
          · refine ⟨hasked, ?_⟩
            rw [if_neg (by simp [htook])]
            exact ⟨rfl, by simp [hs]⟩
          · refine ⟨hasked, ?_⟩
            rw [if_neg (by simp [htook])]
            exact ⟨rfl, by simp [hs]⟩
      · rw [hlatch]
        split_ifs <;> exact hafter

/-- **Any operations, from a latch that is right, are answered right and leave it right.** -/
theorem bioRun_honest {s : Shadow} {past : List BioEvent} (h : s.wblocked = latched past)
    (hpast : Along BioEvent.Honest past) (ops : List BioOp) :
    Along BioEvent.Honest ((bioRun s ops).2 ++ past) ∧
      (bioRun s ops).1.wblocked = latched ((bioRun s ops).2 ++ past) ∧
      (bioRun s ops).1.wblocked = (s.wblocked || blocks ops) := by
  induction ops generalizing s past with
  | nil => exact ⟨hpast, h, by simp [bioRun, blocks]⟩
  | cons op ops ih =>
    obtain ⟨hop, hlatch, hor⟩ := op.run_honest h
    obtain ⟨h1, h2, h3⟩ := ih hlatch ⟨hop, hpast⟩
    have hlist : (bioRun s (op :: ops)).2 ++ past =
        (bioRun (op.run s).1 ops).2 ++ (op.run s).2 :: past := by
      simp [bioRun]
    rw [hlist]
    refine ⟨h1, h2, ?_⟩
    show (bioRun (op.run s).1 ops).1.wblocked = _
    rw [h3, hor, show op :: ops = [op] ++ ops from rfl, blocks_append, Bool.or_assoc]

/-! ### The acts of a connection -/

/-- The BIO operations of the OpenSSL calls of an act, by the number of the call: a flush is 0, and the
`SSL_read`, the `SSL_shutdown` and the runs of a write follow. -/
abbrev Traffic := ℕ → List BioOp

/-- The answers of the act's calls say what the callback did during them. -/
def Act.Carries (T : Traffic) : Act → Prop
  | .read _ flush r => flush.latched = blocks (T 0) ∧ r.latched = blocks (T 1)
  | .write _ _ replies => ∀ i, (replies i).latched = blocks (T i)
  | .close flush => flush.latched = blocks (T 0)
  | .bwrite os => (os == errSSLWouldBlock) = blocks (T 0)
  | _ => True

/-- The BIO operations of an entry, in their order. -/
def Act.ops (T : Traffic) (s : Shadow) : Act → List BioOp
  | .read len flush _ => (flushCalls s).flatMap (fun call => T call.turn) ++
      if (readCall flush s len).isSome then T 1 else []
  | .write data _ replies => (writeCalls replies s data).flatMap fun call => T call.turn
  | .close _ => (flushCalls s).flatMap (fun call => T call.turn) ++ T 1
  | _ => []

/-- What an act adds to the events, newest first: an entry drops the latch before anything else. -/
def Act.events (T : Traffic) (s : Shadow) (a : Act) : List BioEvent :=
  match a with
  | .enter env => if s.native env.serverTls then [] else [.entry]
  | .read .. | .write .. =>
    if s.state = .connected then (bioRun (shUnblockWrite s) (a.ops T s)).2 ++ [.entry] else []
  | .close _ =>
    if s.state = .connected ∧ s.ssl.isSome then (bioRun (shUnblockWrite s) (a.ops T s)).2 ++ [.entry]
    else []
  | .bwrite _ => (bioRun s (T 0)).2
  | _ => []

/-- A connection and the events of its BIO, newest first. -/
structure Wire where
  conn : Conn := {}
  events : List BioEvent := []

/-- An act with its traffic.  The world is whatever the other connections have made of it. -/
def Wire.Next (c : Ctx) (sid : Sid) (q : Wire) (e : Act × Traffic) (q' : Wire) : Prop :=
  e.1.Carries e.2 ∧ (∃ w w', Conn.step c sid e.1 w q.conn = some (w', q'.conn)) ∧
    q'.events = e.1.events e.2 q.conn.sh ++ q.events

/-! ### The latch of an entry -/

section Latch

variable {c : Ctx} {sid : Sid} {w w' : World} {k k' : Conn} {a : Act} {T : Traffic}

theorem sslWrite_wblocked {s : Shadow} (hs : s.ssl.isSome = true) (buf : Bytes) (num : ℤ)
    (r : WriteReply) : (s.sslWrite buf num r).1.wblocked = (s.wblocked || r.latched) ∧
      (s.sslWrite buf num r).1.ssl.isSome = true := by
  obtain ⟨x, hx⟩ := Option.isSome_iff_exists.mp hs
  simp [Shadow.sslWrite, hx]

/-- The latch after calls of `SSL_write`. -/
theorem replay_wblocked {replies : ℕ → WriteReply} (hT : ∀ i, (replies i).latched = blocks (T i))
    {s : Shadow} (hs : s.ssl.isSome = true) (calls : List WriteCall) :
    (s.replay replies calls).wblocked =
      (s.wblocked || blocks (calls.flatMap fun call => T call.turn)) := by
  induction calls generalizing s with
  | nil => simp [Shadow.replay, blocks]
  | cons call calls ih =>
    obtain ⟨hb, hs'⟩ := sslWrite_wblocked hs call.buf call.num (replies call.turn)
    show ((s.sslWrite call.buf call.num (replies call.turn)).1.replay replies calls).wblocked = _
    rw [ih hs', hb, hT, List.flatMap_cons, blocks_append, Bool.or_assoc]

theorem wblocked_of_unqueued {s s' : Shadow} (h : s.unqueued = s'.unqueued) :
    s.wblocked = s'.wblocked :=
  (congrArg Shadow.wblocked h : s.unqueued.wblocked = s'.unqueued.wblocked)

theorem flush_wblocked {s : Shadow} (hs : s.ssl.isSome = true) {flush : WriteReply}
    (hT : flush.latched = blocks (T 0)) : (shFlushWrite (shUnblockWrite s) flush).1.wblocked =
      blocks ((flushCalls s).flatMap fun call => T call.turn) := by
  have hrep := shFlushWrite_replay (shUnblockWrite s) (fun i => ⟨flush.outcome, blocks (T i)⟩)
  have heq : (⟨flush.outcome, blocks (T 0)⟩ : WriteReply) = flush := by rw [← hT]
  rw [heq] at hrep
  have hs' : (shUnblockWrite s).ssl.isSome = true := hs
  rw [wblocked_of_unqueued hrep, replay_wblocked (T := T) (fun _ => rfl) hs']
  rfl

/-- The latch after a read or a write is what its BIO operations leave. -/
theorem write_wblocked {s : Shadow} (hs : s.ssl.isSome = true) {alloc : Bool}
    {replies : ℕ → WriteReply} {data : Bytes} (hT : (Act.write data alloc replies).Carries T) :
    (writeConnected alloc replies s data).1.wblocked =
      blocks ((Act.write data alloc replies).ops T s) := by
  have hs' : (shUnblockWrite s).ssl.isSome = true := hs
  rw [wblocked_of_unqueued (writeConnected_replay alloc replies s data), replay_wblocked hT hs']
  rfl

theorem read_wblocked {s : Shadow} (hs : s.ssl.isSome = true) {len : ℕ} {flush : WriteReply}
    {r : ReadReply} (hT : (Act.read len flush r).Carries T) :
    (readConnected flush r s len).1.wblocked = blocks ((Act.read len flush r).ops T s) := by
  have hf := flush_wblocked hs hT.1
  unfold readConnected Act.ops readCall
  rw [blocks_append, ← hf]
  generalize shFlushWrite (shUnblockWrite s) flush = fl
  obtain ⟨s', f⟩ := fl
  dsimp only
  by_cases h1 : f < 0
  · simp [h1, blocks]
  · by_cases h2 : len = 0
    · simp [h1, h2, blocks]
    · simp [h1, h2, hT.2]

/-- The handshake that is driven begins with the latch dropped. -/
theorem enter_wblocked {env : HsEnv} {s : Shadow} (h : s.native env.serverTls = false) :
    (handshakeEnter env c sid w s).2.sh.wblocked = false := by
  unfold handshakeEnter
  rw [if_neg (by simp [h])]
  split_ifs
  · rfl
  · split
    next => rfl
    next w₁ s' he =>
      obtain ⟨x, rfl, -⟩ := osslInit_some he
      rfl

end Latch

/-! ### Runs -/

/-- While a call is in progress, the latch says whether the callback has blocked in this entry. -/
structure Wire.Inv (q : Wire) : Prop where
  shaped : Shaped q.conn
  honest : Along BioEvent.Honest q.events
  latch : q.conn.call.isSome = true → q.conn.sh.wblocked = latched q.events

section Runs

variable {c : Ctx} {sid : Sid} {w w' : World} {k k' : Conn} {a : Act} {T : Traffic}
  {past : List BioEvent}

theorem honest_entry (h : Along BioEvent.Honest past) : Along BioEvent.Honest (.entry :: past) :=
  ⟨trivial, h⟩

/-- The operations of an entry, which begins with the latch dropped. -/
theorem entry_events (h : Along BioEvent.Honest past) (s : Shadow) (ops : List BioOp) :
    Along BioEvent.Honest ((bioRun (shUnblockWrite s) ops).2 ++ [.entry] ++ past) ∧
      blocks ops = latched ((bioRun (shUnblockWrite s) ops).2 ++ [.entry] ++ past) := by
  have hs : (shUnblockWrite s).wblocked = latched (.entry :: past) := rfl
  obtain ⟨h1, h2, h3⟩ := bioRun_honest hs (honest_entry h) ops
  rw [List.append_assoc]
  exact ⟨h1, h3.symm.trans h2⟩

theorem latch_entry (hk : Shaped k) (hp : Along BioEvent.Honest past) (hT : a.Carries T)
    (ha : a.isEntry = true) (he : Conn.entry c sid w k.sh a = (w', k')) :
    Along BioEvent.Honest (a.events T k.sh ++ past) ∧
      (k'.call.isSome = true → k'.sh.wblocked = latched (a.events T k.sh ++ past)) := by
  have hquiet : a.events T k.sh = [] → k'.call.isSome = false →
      Along BioEvent.Honest (a.events T k.sh ++ past) ∧
        (k'.call.isSome = true → k'.sh.wblocked = latched (a.events T k.sh ++ past)) := by
    intro hno hcall
    rw [hno]
    exact ⟨hp, fun h => by rw [hcall] at h; simp at h⟩
  have hup : k.sh.state = .connected → k.sh.ssl.isSome = true :=
    fun hc => (hk.up (Or.inr (Or.inr hc))).2
  cases a with
  | enter env =>
    by_cases hn : k.sh.native env.serverTls = true
    · refine hquiet (if_pos hn) ?_
      have hk' := congrArg (·.2) he.symm
      simp only [Conn.entry, handshakeEnter, if_pos hn] at hk'
      rw [hk']
      rfl
    · have hev : (Act.enter env).events T k.sh = [.entry] := if_neg hn
      have hk' : k' = (handshakeEnter env c sid w k.sh).2 := congrArg Prod.snd he.symm
      rw [hev, hk']
      exact ⟨honest_entry hp, fun _ => enter_wblocked (by simpa using hn)⟩
  | read len flush r =>
    simp only [Conn.entry, readEnter, mySSLRead] at he
    by_cases hc : k.sh.state = .connected
    · have hev : (Act.read len flush r).events T k.sh =
          (bioRun (shUnblockWrite k.sh) ((Act.read len flush r).ops T k.sh)).2 ++ [.entry] := if_pos hc
      obtain ⟨h1, h2⟩ := entry_events hp k.sh ((Act.read len flush r).ops T k.sh)
      rw [hev]
      refine ⟨h1, fun _ => ?_⟩
      rw [← h2, ← read_wblocked (hup hc) hT]
      simp only [if_pos hc] at he
      split_ifs at he <;> exact congrArg (·.2.sh.wblocked) he.symm
    · simp only [if_neg hc] at he
      obtain ⟨-, rfl⟩ := Prod.mk.inj he
      exact hquiet (if_neg hc) rfl
  | write data alloc replies =>
    simp only [Conn.entry, writeEnter, mySSLWrite] at he
    by_cases hc : k.sh.state = .connected
    · have hev : (Act.write data alloc replies).events T k.sh =
          (bioRun (shUnblockWrite k.sh) ((Act.write data alloc replies).ops T k.sh)).2 ++ [.entry] :=
        if_pos hc
      obtain ⟨h1, h2⟩ := entry_events hp k.sh ((Act.write data alloc replies).ops T k.sh)
      rw [hev]
      refine ⟨h1, fun _ => ?_⟩
      rw [← h2, ← write_wblocked (hup hc) hT]
      simp only [if_pos hc] at he
      split_ifs at he <;> exact congrArg (·.2.sh.wblocked) he.symm
    · simp only [if_neg hc] at he
      obtain ⟨-, rfl⟩ := Prod.mk.inj he
      exact hquiet (if_neg hc) rfl
  | close flush =>
    obtain ⟨-, rfl⟩ := Prod.mk.inj he
    by_cases hc : k.sh.state = .connected ∧ k.sh.ssl.isSome = true
    · have hev : (Act.close flush).events T k.sh =
          (bioRun (shUnblockWrite k.sh) ((Act.close flush).ops T k.sh)).2 ++ [.entry] := if_pos hc
      rw [hev]
      exact ⟨(entry_events hp k.sh _).1, fun h => by simp at h⟩
    · exact hquiet (if_neg hc) rfl
  | verify | resume | clientCert | newSession | bwrite | leave | finish => simp [Act.isEntry] at ha
  | markServerSide | markDatagram | set | getBufferedReadSize | copyPeerTrust | copyPeerCertificates =>
    obtain ⟨-, rfl⟩ := Prod.mk.inj he
    exact hquiet rfl rfl

/-- What OpenSSL does during a call keeps the latch right. -/
theorem latch_reply (hp : Along BioEvent.Honest past) (hT : a.Carries T) {call : SslCall}
    (busy : k.call = some call) (hlatch : k.sh.wblocked = latched past)
    (h : Conn.step c sid a w k = some (w', k')) :
    Along BioEvent.Honest (a.events T k.sh ++ past) ∧
      (k'.call.isSome = true → k'.sh.wblocked = latched (a.events T k.sh ++ past)) := by
  have hne : k.call ≠ none := by simp [busy]
  cases step_effect h with
  | server idle | datagram idle | set idle | same idle | io idle | refused idle | driven idle
  | started idle => exact absurd idle hne
  | bwrite _ os =>
    obtain ⟨h1, h2, h3⟩ := bioRun_honest hlatch hp (T 0)
    refine ⟨h1, fun _ => Eq.trans ?_ h2⟩
    rw [h3, ← show (os == errSSLWouldBlock) = blocks (T 0) from hT]
    rfl
  | verify | resume | suspend | noCert | give | dropped | stored => exact ⟨hp, fun _ => hlatch⟩
  | paused | connected | blocked | broken | finish => exact ⟨hp, fun h => by simp at h⟩

/-- **An act keeps the latch right.** -/
theorem Wire.Inv.step {q q' : Wire} {e : Act × Traffic} (h : q.Inv) (hs : q.Next c sid e q') :
    q'.Inv := by
  obtain ⟨hT, ⟨w, w', hact⟩, hev⟩ := hs
  have hboth : Along BioEvent.Honest (e.1.events e.2 q.conn.sh ++ q.events) ∧
      (q'.conn.call.isSome = true →
        q'.conn.sh.wblocked = latched (e.1.events e.2 q.conn.sh ++ q.events)) := by
    cases hcall : q.conn.call with
    | some call => exact latch_reply h.honest hT hcall (h.latch (by simp [hcall])) hact
    | none =>
      have hact' := hact
      unfold Conn.step at hact'
      rw [hcall] at hact'
      dsimp only at hact'
      split_ifs at hact' with ha
      exact latch_entry h.shaped h.honest hT ha (Option.some.inj hact')
  refine ⟨h.shaped.effect (step_effect hact), ?_, ?_⟩
  · rw [hev]
    exact hboth.1
  · rw [hev]
    exact hboth.2

/-- A latched history has a write that met a full socket, and no entry since. -/
theorem latched_iff {h : List BioEvent} : latched h = true ↔
    ∃ later b ret retry past, h = later ++ .wrote b true ret retry :: past ∧
      b.status = errSSLWouldBlock ∧ .entry ∉ later := by
  induction h with
  | nil => simp [latched]
  | cons x h ih =>
    have hcons : (∃ later b ret retry past, x :: h = later ++ .wrote b true ret retry :: past ∧
        b.status = errSSLWouldBlock ∧ .entry ∉ later) ↔
        (∃ b ret retry, x = .wrote b true ret retry ∧ b.status = errSSLWouldBlock) ∨
          x ≠ .entry ∧ latched h = true := by
      rw [ih]
      constructor
      · rintro ⟨later, b, ret, retry, past, he, hs, hno⟩
        cases later with
        | nil =>
          obtain ⟨rfl, -⟩ := List.cons_eq_cons.mp he
          exact Or.inl ⟨b, ret, retry, rfl, hs⟩
        | cons y later =>
          obtain ⟨rfl, rfl⟩ := List.cons_eq_cons.mp he
          rw [List.mem_cons, not_or] at hno
          exact Or.inr ⟨fun hx => hno.1 hx.symm, later, b, ret, retry, past, rfl, hs, hno.2⟩
      · rintro (⟨b, ret, retry, rfl, hs⟩ | ⟨hx, later, b, ret, retry, past, rfl, hs, hno⟩)
        · exact ⟨[], b, ret, retry, h, rfl, hs, by simp⟩
        · refine ⟨x :: later, b, ret, retry, past, rfl, hs, ?_⟩
          rw [List.mem_cons, not_or]
          exact ⟨fun he => hx he.symm, hno⟩
    rw [hcons]
    cases x with
    | entry => simp [latched]
    | read => simp [latched]
    | wrote b asked ret retry => cases asked <;> simp [latched]

/-- The bytes that the caller's callback took. -/
def BioEvent.taken : BioEvent → Bytes
  | .wrote b asked _ _ => if asked then b.buf.take b.took else []
  | _ => []

/-- The bytes that OpenSSL was told are written. -/
def BioEvent.told : BioEvent → Bytes
  | .wrote b _ ret _ => if 0 < ret then b.buf.take ret.toNat else []
  | _ => []

theorem BioEvent.Honest.told_eq {past : List BioEvent} {x : BioEvent} (h : x.Honest past) :
    x.told = x.taken := by
  cases x with
  | entry | read => rfl
  | wrote b asked ret retry =>
    obtain ⟨-, h⟩ := h
    simp only [BioEvent.told, BioEvent.taken]
    split_ifs at h with hc
    · obtain ⟨rfl, -⟩ := h
      rw [if_pos (by omega), if_pos hc.1, Int.toNat_natCast]
    · obtain ⟨rfl, -⟩ := h
      rw [if_neg (by decide)]
      by_cases hasked : asked = true
      · have h0 : b.took = 0 := by
          by_contra hne
          exact hc ⟨hasked, Nat.pos_of_ne_zero hne⟩
        rw [if_pos hasked, h0, List.take_zero]
      · rw [if_neg hasked]

end Runs

/-- **The write latch.**  Over every sequence of acts on a connection and of BIO operations within
them, with any answers of the callbacks: after the write callback has blocked it is not invoked before
the next entry; OpenSSL is told the count that the callback took, and to retry exactly when the callback
took nothing and said would-block or noErr, or was not invoked, which is exactly when it has blocked in
this entry; and what OpenSSL believes written is what the callback has taken, in order. -/
theorem write_latch {c : Ctx} {sid : Sid} {es : List (Act × Traffic)} {q : Wire}
    (h : Path (Wire.Next c sid) {} es q) :
    (∀ later b' ret' retry' mid b ret retry past,
      q.events = later ++ .wrote b' true ret' retry' :: (mid ++ .wrote b true ret retry :: past) →
        b.status = errSSLWouldBlock → .entry ∈ mid) ∧
    (∀ later b asked ret retry past, q.events = later ++ .wrote b asked ret retry :: past →
      (asked = true → 0 < b.took → ret = b.took ∧ retry = false) ∧
      (ret = -1 ∧ retry = true ↔ asked = false ∨
        b.took = 0 ∧ (b.status = errSSLWouldBlock ∨ b.status = noErr)) ∧
      (asked = false ↔ ∃ mid b₀ ret₀ retry₀ older, past = mid ++ .wrote b₀ true ret₀ retry₀ :: older ∧
        b₀.status = errSSLWouldBlock ∧ .entry ∉ mid)) ∧
    q.events.reverse.flatMap BioEvent.told = q.events.reverse.flatMap BioEvent.taken := by
  have hinv : q.Inv := h.invariant (fun _ _ _ hi hs => hi.step hs)
    ⟨Shaped.blank, trivial, fun h => by simp at h⟩
  have hhonest := along_iff.mp hinv.honest
  refine ⟨fun later b' ret' retry' mid b ret retry past he hs => ?_,
    fun later b asked ret retry past he => ?_, ?_⟩
  · by_contra hno
    obtain ⟨hasked, -⟩ := hhonest later _ _ he
    rw [latched_iff.mpr ⟨mid, b, ret, retry, past, rfl, hs, hno⟩] at hasked
    simp at hasked
  · obtain ⟨hasked, hret⟩ := hhonest later _ _ he
    refine ⟨fun h1 h2 => ?_, ?_, ?_⟩
    · rw [if_pos ⟨h1, h2⟩] at hret
      exact hret
    · split_ifs at hret with hc
      · obtain ⟨rfl, rfl⟩ := hret
        simp [hc.1, hc.2.ne']
      · obtain ⟨rfl, hretry⟩ := hret
        rw [hretry]
        by_cases h1 : asked = false
        · simp [h1]
        · rw [Bool.not_eq_false] at h1
          have h0 : b.took = 0 := by
            by_contra hne
            exact hc ⟨h1, Nat.pos_of_ne_zero hne⟩
          simp [h1, h0]
    · rw [← latched_iff, hasked]
      simp
  · have hmem : ∀ x ∈ q.events.reverse, x.told = x.taken := by
      intro x hx
      obtain ⟨later, past, he⟩ := List.append_of_mem (List.mem_reverse.mp hx)
      exact (hhonest later x past he).told_eq
    exact List.flatMap_congr hmem

/-- `Wire.Next`, as a function, with the world. -/
def Wire.step (c : Ctx) (sid : Sid) (r : World × Wire) (e : Act × Traffic) : Option (World × Wire) :=
  (Conn.step c sid e.1 r.1 r.2.conn).map fun p =>
    (p.1, ⟨p.2, e.1.events e.2 r.2.conn.sh ++ r.2.events⟩)

theorem Wire.path {c : Ctx} {sid : Sid} {es : List (Act × Traffic)} {r r' : World × Wire}
    (h : Path (fun r e r' => Wire.step c sid r e = some r') r es r')
    (hT : ∀ e ∈ es, e.1.Carries e.2) : Path (Wire.Next c sid) r.2 es r'.2 := by
  induction h with
  | nil r => exact .nil r.2
  | @cons r r₁ r' e es h1 _ ih =>
    refine .cons ⟨hT e List.mem_cons_self, ?_⟩ (ih fun e he => hT e (List.mem_cons_of_mem _ he))
    obtain ⟨p, hp, rfl⟩ := Option.map_eq_some_iff.mp h1
    exact ⟨⟨r.1, p.1, hp⟩, rfl⟩

/-- A hello of three bytes of which the callback takes two and blocks, and the rest of it tried twice
at once. -/
def shortRun : List (Act × Traffic) :=
  [(.set (.setIOFuncs 1 1), fun _ => []), (.set (.setConnection 1), fun _ => []),
    (.enter {}, fun _ => []),
    (.bwrite errSSLWouldBlock, fun _ => [.write ⟨[1, 2, 3], errSSLWouldBlock, 2, by decide, by decide⟩,
      .write ⟨[3], noErr, 1, by decide, by decide⟩, .read errSSLWouldBlock 0]),
    (.bwrite noErr, fun _ => [.write ⟨[3], noErr, 1, by decide, by decide⟩])]

theorem shortRun_isSome : (exec (Wire.step 1 0) ({}, {}) shortRun).isSome = true := by
  decide

theorem write_latch_shortRun : ∃ q, Path (Wire.Next 1 0) {} shortRun q ∧
    q.events.reverse.flatMap BioEvent.told = [1, 2] := by
  have hp := Wire.path (exec_path_get shortRun_isSome) (by
    unfold shortRun
    simp only [List.forall_mem_cons]
    exact ⟨trivial, trivial, trivial, rfl, rfl, by simp⟩)
  exact ⟨_, hp, (write_latch hp).2.2.trans (by decide)⟩

end AquaTransport
