import AquaTransport.Engine.Calls
import AquaTransport.Hooks.StateMachine

/-!
# AquaTransport.Hooks.Queue — the write queue of every connection over the runs of a process

`Shadow.Held` is kept by every act (`step_held`), so that it holds of every connection a run reaches.
`lengths_exact` is about what SSL_write and SSL_read are told, and `close_delivers` about what is left
in the queue when a connection is closed.
-/

namespace AquaTransport

/-! ### What an act does to the queue -/

/-- The queue and OpenSSL's writer agree, whatever happened. -/
def Shadow.Held (s : Shadow) : Prop := ∀ x, s.ssl = some x → Unsent s.wpend x.wr

/-- The queue stays or goes, and OpenSSL's writer stays unless it is a new one. -/
structure Still (s s' : Shadow) : Prop where
  queue : s'.wpend = s.wpend ∨ s'.wpend = none
  writer : ∀ x', s'.ssl = some x' → x'.wr = {} ∧ s'.wpend = none ∨
    s'.wpend = s.wpend ∧ ∃ x, s.ssl = some x ∧ x'.wr = x.wr

variable {c : Ctx} {sid : Sid} {w w' : World} {k k' : Conn} {a : Act}

theorem Still.rfl' {s s' : Shadow} (hw : s'.wpend = s.wpend) (hx : s'.ssl = s.ssl) : Still s s' :=
  ⟨Or.inl hw, fun x' h => Or.inr ⟨hw, x', hx ▸ h, rfl⟩⟩

/-- An object that OpenSSL's callbacks have written to. -/
theorem Still.of_ssl {s s' : Shadow} {x x' : Ssl} (hw : s'.wpend = s.wpend) (hx : s.ssl = some x)
    (hx' : s'.ssl = some x') (hwr : x'.wr = x.wr) : Still s s' := by
  refine ⟨Or.inl hw, fun y hy => Or.inr ⟨hw, x, hx, ?_⟩⟩
  obtain rfl := Option.some.inj (hx'.symm.trans hy)
  exact hwr

theorem Still.held {s s' : Shadow} (h : Still s s') (hs : s.Held) : s'.Held := by
  intro x' hx'
  rcases h.writer x' hx' with ⟨hwr, hp⟩ | ⟨hp, x, hx, hwr⟩
  · rw [hwr, hp]
    exact Unsent.new
  · rw [hwr, hp]
    exact hs x hx

theorem Still.sized {s s' : Shadow} (h : Still s s') (hs : s.queue.length < 2 ^ 31) :
    s'.queue.length < 2 ^ 31 := by
  unfold Shadow.queue at hs ⊢
  rcases h.queue with hp | hp
  · rwa [hp]
  · rw [hp]
    decide

theorem Setter.still (f : Setter) (s : Shadow) : Still s (f.apply s) := by
  have hp := f.apply_place s
  unfold Shadow.place at hp
  split_ifs at hp
  · simp only [Prod.mk.injEq] at hp
    refine ⟨Or.inr hp.2.2.2.2.2, fun x' hx' => ?_⟩
    rw [hp.2.2.1] at hx'
    simp at hx'
  · simp only [Prod.mk.injEq] at hp
    exact .rfl' hp.2.2.2.2.2 hp.2.2.1

theorem osslInit_some {env : InitEnv} {s s' : Shadow} (h : osslInit env c sid w s = (w', some s')) :
    ∃ x, s' = { s with ssl := some x, inited := true } ∧ x.wr = {} := by
  unfold osslInit at h
  split_ifs at h
  · simp at h
  · simp at h
  · split at h
    next sess hg =>
      obtain ⟨-, hs⟩ := Prod.mk.inj h
      exact ⟨_, (Option.some.inj hs).symm, rfl⟩
    next sess cached hg =>
      obtain ⟨-, hs⟩ := Prod.mk.inj h
      exact ⟨_, (Option.some.inj hs).symm, rfl⟩
  · obtain ⟨-, hs⟩ := Prod.mk.inj h
    exact ⟨_, (Option.some.inj hs).symm, rfl⟩

theorem driveHandshake_writer (c : Ctx) (sid : Sid) (w : World) {s : Shadow} {x' : Ssl}
    (h : (driveHandshake c sid w s).2.sh.ssl = some x') : ∃ x, s.ssl = some x ∧ x'.wr = x.wr := by
  obtain ⟨x, hx, rfl⟩ := Option.map_eq_some_iff.mp h
  exact ⟨x, hx, rfl⟩

/-- A handshake is begun with an empty queue on a new object, or goes on with its own. -/
theorem enter_still (hk : Shaped k) (env : HsEnv) :
    Still k.sh (handshakeEnter env c sid w k.sh).2.sh := by
  unfold handshakeEnter
  by_cases hn : k.sh.native env.serverTls = true
  · rw [if_pos hn]
    exact .rfl' rfl rfl
  rw [if_neg hn]
  by_cases hi : k.sh.inited = true
  · rw [if_pos hi]
    exact ⟨Or.inl rfl, fun x' hx' => Or.inr ⟨rfl, driveHandshake_writer c sid w hx'⟩⟩
  rw [if_neg hi]
  split
  next w₁ he => exact ⟨Or.inl rfl, by simp⟩
  next w₁ s' he =>
    obtain ⟨x, rfl, hwr⟩ := osslInit_some he
    have hnone : k.sh.wpend = none := by
      by_contra hp
      have hnf := Shadow.state_of_native (by simpa using hn : k.sh.native env.serverTls = false)
      cases hs : k.sh.state with
      | failed => exact hnf hs
      | new => exact hp (hk.new hs).2.1
      | handshaking | connected | peerAuth =>
        have hup := (hk.up (by simp [ShadowState.isUp, hs])).1
        exact hi hup
    refine ⟨Or.inl rfl, fun x' hx' => Or.inl ⟨?_, hnone⟩⟩
    obtain ⟨y, hy, hw⟩ := driveHandshake_writer c sid w₁ hx'
    obtain rfl := Option.some.inj hy
    exact hw.trans hwr

/-- What OpenSSL does during a call leaves the queue alone. -/
theorem reply_still {call : SslCall} (busy : k.call = some call)
    (h : Conn.step c sid a w k = some (w', k')) : Still k.sh k'.sh := by
  have hne : k.call ≠ none := by simp [busy]
  cases step_effect h with
  | server idle | datagram idle | set idle | same idle | io idle | refused idle | driven idle
  | started idle => exact absurd idle hne
  | verify _ ssl => exact .of_ssl rfl ssl rfl rfl
  | resume _ ssl => exact .of_ssl rfl ssl rfl rfl
  | suspend _ ssl => exact .of_ssl rfl ssl rfl rfl
  | noCert | give | dropped | stored | bwrite | paused | connected | blocked | broken | finish =>
    exact .rfl' rfl rfl

/-- The queue is sent and grows in reads, writes and closes alone. -/
theorem step_still (hk : Shaped k) (h : Conn.step c sid a w k = some (w', k')) :
    Still k.sh k'.sh ∨ k.sh.state = .connected ∧
      ((∃ len flush r, a = .read len flush r ∧ k'.sh = (readConnected flush r k.sh len).1) ∨
        (∃ data alloc replies, a = .write data alloc replies ∧
          k'.sh = (writeConnected alloc replies k.sh data).1) ∨
        ∃ flush, a = .close flush ∧ k'.sh = (shFlushWrite (shUnblockWrite k.sh) flush).1) := by
  cases hcall : k.call with
  | some call => exact Or.inl (reply_still hcall h)
  | none =>
    unfold Conn.step at h
    rw [hcall] at h
    dsimp only at h
    split_ifs at h
    replace h := Option.some.inj h
    cases a with
    | read len flush r =>
      simp only [Conn.entry, readEnter, mySSLRead] at h
      by_cases hc : k.sh.state = .connected
      · refine Or.inr ⟨hc, Or.inl ⟨len, flush, r, rfl, ?_⟩⟩
        simp only [if_pos hc] at h
        split_ifs at h <;> exact congrArg (·.2.sh) h.symm
      · simp only [if_neg hc] at h
        obtain ⟨-, rfl⟩ := Prod.mk.inj h
        exact Or.inl (.rfl' rfl rfl)
    | write data alloc replies =>
      simp only [Conn.entry, writeEnter, mySSLWrite] at h
      by_cases hc : k.sh.state = .connected
      · refine Or.inr ⟨hc, Or.inr (Or.inl ⟨data, alloc, replies, rfl, ?_⟩)⟩
        simp only [if_pos hc] at h
        split_ifs at h <;> exact congrArg (·.2.sh) h.symm
      · simp only [if_neg hc] at h
        obtain ⟨-, rfl⟩ := Prod.mk.inj h
        exact Or.inl (.rfl' rfl rfl)
    | close flush =>
      simp only [Conn.entry, closeShadow] at h
      by_cases hc : k.sh.state = .connected ∧ k.sh.ssl.isSome = true
      · refine Or.inr ⟨hc.1, Or.inr (Or.inr ⟨flush, rfl, ?_⟩)⟩
        rw [if_pos hc] at h
        exact congrArg (·.2.sh) h.symm
      · rw [if_neg hc] at h
        obtain ⟨-, rfl⟩ := Prod.mk.inj h
        exact Or.inl (.rfl' rfl rfl)
    | copyPeerTrust built =>
      simp only [Conn.entry, copyPeerTrust] at h
      split_ifs at h <;>
        obtain ⟨-, rfl⟩ := Prod.mk.inj h <;> exact Or.inl (.rfl' rfl rfl)
    | enter env =>
      rw [show k' = (handshakeEnter env c sid w k.sh).2 from congrArg Prod.snd h.symm]
      exact Or.inl (enter_still hk env)
    | set f =>
      obtain ⟨-, rfl⟩ := Prod.mk.inj h
      exact Or.inl (f.still k.sh)
    | markServerSide | markDatagram | getBufferedReadSize | copyPeerCertificates | verify | resume
    | clientCert | newSession | bwrite | leave | finish =>
      obtain ⟨-, rfl⟩ := Prod.mk.inj h
      exact Or.inl (.rfl' rfl rfl)

/-- **Every act keeps the queue and the writer in step.** -/
theorem step_held (hk : Shaped k) (hh : k.sh.Held) (h : Conn.step c sid a w k = some (w', k')) :
    k'.sh.Held := by
  rcases step_still hk h with hs | ⟨hc, hio⟩
  · exact hs.held hh
  obtain ⟨x, hx⟩ := Option.isSome_iff_exists.mp (hk.up (Or.inr (Or.inr hc))).2
  have hq := hh x hx
  intro x' hx'
  rcases hio with ⟨len, flush, r, -, hk'⟩ | ⟨data, alloc, replies, -, hk'⟩ | ⟨flush, -, hk'⟩
  · obtain ⟨y, hy, hyq, -⟩ := readConnected_any hx hq flush r len
    rw [hk'] at hx' ⊢
    obtain rfl := Option.some.inj (hy.symm.trans hx')
    exact hyq
  · obtain ⟨⟨y, hy, hyq⟩, -⟩ := writeConnected_any hx hq alloc replies data
    rw [hk'] at hx' ⊢
    obtain rfl := Option.some.inj (hy.symm.trans hx')
    exact hyq
  · obtain ⟨y, hy, hyq, -⟩ := flush_any (s := shUnblockWrite k.sh) hx hq flush
    rw [hk'] at hx' ⊢
    obtain rfl := Option.some.inj (hy.symm.trans hx')
    exact hyq

/-! ### Lengths -/

/-- Every length that OpenSSL is given for this connection is the number of bytes it stands for, and a
flush takes the queue whole or keeps it. -/
structure Shadow.Untruncated (s : Shadow) : Prop where
  write : ∀ replies data, ∀ call ∈ writeCalls replies s data, IntExact call.len
  read : ∀ flush len, (∀ call ∈ flushCalls s, IntExact call.len) ∧
    ∀ n, readCall flush s len = some n → IntExact n
  flush : ∀ r x, s.ssl = some x → (shFlushWrite s r).1.wpend = s.wpend ∨
    (shFlushWrite s r).1.wpend = none ∧
      ∃ x', (shFlushWrite s r).1.ssl = some x' ∧ x'.wr.taken = x.wr.taken ++ s.queue

theorem untruncated_iff {s : Shadow} {x : Ssl} (hx : s.ssl = some x) (hh : s.Held) :
    s.Untruncated ↔ s.queue.length < 2 ^ 31 := by
  have hqueue : ∀ {p}, s.wpend = some p → s.queue = p := fun hp => by simp [Shadow.queue, hp]
  constructor
  · intro h
    cases hp : s.wpend with
    | none => simp [Shadow.queue, hp]
    | some p =>
      have hlen := writeCalls_exact.mp (h.write (fun _ => ⟨.done, false⟩) []) p hp
      rw [hqueue hp]
      exact (intExact_iff.mp hlen).2
  · intro hlt
    have hlen : ∀ p, s.wpend = some p → IntExact p.length := by
      intro p hp
      rw [hqueue hp] at hlt
      exact intExact_iff.mpr ⟨List.length_pos_iff.mpr ((hh x hx).held p hp).1, hlt⟩
    refine ⟨fun replies data => writeCalls_exact.mpr hlen, fun flush len => ⟨?_, ?_⟩, ?_⟩
    · intro call hc
      obtain ⟨p, hp, rfl⟩ := Option.map_eq_some_iff.mp (Option.mem_toList.mp hc)
      exact hlen p hp
    · exact fun n hn => readCall_exact hn
    · intro r y hy
      obtain rfl := Option.some.inj (hx.symm.trans hy)
      obtain ⟨x', hx', -, ⟨hsame, -⟩ | ⟨p, hp, hgone, -, -, -, -, htaken⟩⟩ := flush_any hx (hh x hx) r
      · exact Or.inl hsame
      · refine Or.inr ⟨hgone, x', hx', ?_⟩
        have hp31 := (intExact_iff.mp (hlen p hp)).2
        rw [htaken, hqueue hp, intOf_eq hp31, Int.toNat_natCast, List.take_length]

/-- The act is no write that leaves a queue of 2^31 bytes or more. -/
def Act.Bounded (a : Act) (k : Conn) : Prop :=
  match a with
  | .write data alloc replies => k.sh.state = .connected → ¬ Overlong alloc replies data k.sh
  | _ => True

theorem mild_bounded : Mild Act.Bounded :=
  ⟨fun _ => trivial, fun _ => trivial, fun _ => trivial⟩

theorem step_sized (hk : Shaped k) (hh : k.sh.Held) (hb : a.Bounded k)
    (hs : k.sh.queue.length < 2 ^ 31) (h : Conn.step c sid a w k = some (w', k')) :
    k'.sh.queue.length < 2 ^ 31 := by
  rcases step_still hk h with hstill | ⟨hc, hio⟩
  · exact hstill.sized hs
  obtain ⟨x, hx⟩ := Option.isSome_iff_exists.mp (hk.up (Or.inr (Or.inr hc))).2
  have hq := hh x hx
  have hsmall : ∀ {s' : Shadow}, s'.wpend = k.sh.wpend ∨ s'.wpend = none →
      s'.queue.length < 2 ^ 31 := by
    rintro s' (h' | h')
    · simpa [Shadow.queue, h'] using hs
    · simp [Shadow.queue, h']
  rcases hio with ⟨len, flush, r, -, hk'⟩ | ⟨data, alloc, replies, rfl, hk'⟩ | ⟨flush, -, hk'⟩
  · obtain ⟨y, -, -, hor⟩ := readConnected_any hx hq flush r len
    rw [hk']
    exact hsmall hor
  · rw [hk']
    exact ((writeConnected_any hx hq alloc replies data).2 hs).mpr (hb hc)
  · obtain ⟨y, -, -, ⟨hsame, -⟩ | ⟨p, -, hgone, -⟩⟩ :=
      flush_any (s := shUnblockWrite k.sh) hx hq flush
    · rw [hk']
      exact hsmall (Or.inl hsame)
    · rw [hk']
      exact hsmall (Or.inr hgone)

/-! ### Runs -/

section Each

variable {C : Act → Conn → Prop} {L : Conn → Prop}

/-- What every act of a connection keeps, a step of the fleet keeps. -/
theorem Fleet.Step.each (blank : L {})
    (act : ∀ {c s a w k w' k'}, C a k → L k → Conn.step c s a w k = some (w', k') → L k')
    {F F' : Fleet} (hs : Fleet.Step C F F') (hF : ∀ s c k, F.conns s = some (c, k) → L k) :
    ∀ s c k, F'.conns s = some (c, k) → L k := by
  intro s₁ c₁ k₁ hk₁
  cases hs with
  | note => exact hF s₁ c₁ k₁ hk₁
  | spawn c =>
    rcases update_eq_some_iff.mp hk₁ with ⟨-, h⟩ | ⟨-, h⟩
    · obtain ⟨-, rfl⟩ := Prod.mk.inj (Option.some.inj h)
      exact blank
    · exact hF s₁ c₁ k₁ h
  | act hk hC ha =>
    rcases update_eq_some_iff.mp hk₁ with ⟨-, h⟩ | ⟨-, h⟩
    · obtain ⟨-, rfl⟩ := Prod.mk.inj (Option.some.inj h)
      exact act hC (hF _ _ _ hk) ha
    · exact hF s₁ c₁ k₁ h
  | reap =>
    rcases update_eq_some_iff.mp hk₁ with ⟨-, h⟩ | ⟨-, h⟩
    · simp at h
    · exact hF s₁ c₁ k₁ h

/-- What every act of a connection keeps holds of each that a run reaches. -/
theorem each_run (hmild : Mild C) (blank : L {})
    (act : ∀ {c s a w k w' k'}, C a k → L k → Conn.step c s a w k = some (w', k') → L k')
    {evs : List Event} {p : Proc} (h : Path (Proc.NextIf C) {} evs p) :
    p.Ok ∧ ∀ s c k, p.conc.tab.look s = some (c, k) → L k := by
  refine fleet_invariant hmild (I := fun F => ∀ s c k, F.conns s = some (c, k) → L k)
    (fun _ _ hF hs => hs.each blank act hF) Proc.Ok.init ?_ h
  intro s c k hl
  exact absurd (hl.symm.trans (Table.look_init s)) (by simp)

end Each

theorem held_run {evs : List Event} {p : Proc} (h : Path Proc.Next {} evs p) :
    p.Ok ∧ ∀ s c k, p.conc.tab.look s = some (c, k) → Shaped k ∧ k.sh.Held := by
  refine each_run (L := fun k => Shaped k ∧ k.sh.Held) mild_anyAct ⟨Shaped.blank, by simp [Shadow.Held]⟩
    ?_ h.anyAct
  rintro c s a w k w' k' - ⟨hk, hh⟩ hs
  exact ⟨hk.effect (step_effect hs), step_held hk hh hs⟩

/-- **No length is truncated.**  In every run without a write that blocks with 2^31 bytes or more left
and queues them, a connection is given exact lengths in all its reads, writes and flushes, and a flush
takes the queue whole or keeps it; and a write that is such a one, and no other, ends this. -/
theorem lengths_exact {evs : List Event} {p : Proc} (h : Path (Proc.NextIf Act.Bounded) {} evs p)
    {s : Sid} {c : Ctx} {k : Conn} (hl : p.conc.tab.look s = some (c, k))
    (hc : k.sh.state = .connected) :
    k.sh.Untruncated ∧ ∀ data alloc replies,
      (writeConnected alloc replies k.sh data).1.Untruncated ↔ ¬ Overlong alloc replies data k.sh := by
  have hall : Shaped k ∧ k.sh.Held ∧ k.sh.queue.length < 2 ^ 31 := by
    refine (each_run (L := fun k => Shaped k ∧ k.sh.Held ∧ k.sh.queue.length < 2 ^ 31) mild_bounded
      ⟨Shaped.blank, by simp [Shadow.Held], by decide⟩ ?_ h).2 s c k hl
    rintro c s a w k w' k' hb ⟨hk, hh, hlt⟩ hs
    exact ⟨hk.effect (step_effect hs), step_held hk hh hs, step_sized hk hh hb hlt hs⟩
  obtain ⟨hk, hh, hlt⟩ := hall
  obtain ⟨x, hx⟩ := Option.isSome_iff_exists.mp (hk.up (Or.inr (Or.inr hc))).2
  refine ⟨(untruncated_iff hx hh).mpr hlt, fun data alloc replies => ?_⟩
  obtain ⟨⟨x', hx', hq'⟩, hiff⟩ := writeConnected_any hx (hh x hx) alloc replies data
  have hh' : (writeConnected alloc replies k.sh data).1.Held := by
    intro y hy
    obtain rfl := Option.some.inj (hx'.symm.trans hy)
    exact hq'
  exact (untruncated_iff hx' hh').trans (hiff hlt)

/-- A client context whose handshake goes through. -/
def connectedRun : List Event :=
  [.create 1 false false true, .set 1 (.setIOFuncs 1 1) true, .set 1 (.setConnection 1) true,
    .call 1 (.enter {}), .cont 1 (.verify (.evaluated true)), .cont 1 (.leave .done)]

/-- A write of three bytes on it, which blocks. -/
def queuedRun : List Event :=
  connectedRun ++ [.call 1 (.write [1, 2, 3] true fun _ => ⟨.want 0, true⟩), .cont 1 .finish]

/-- The connection that a run leaves in the shadow 0. -/
def Proc.first (p : Proc) : Conn := ((p.conc.tab.look 0).map Prod.snd).getD {}

theorem Proc.look_first {p : Proc} (h : (p.conc.tab.look 0).map Prod.fst = some 1) :
    p.conc.tab.look 0 = some (1, p.first) := by
  obtain ⟨⟨c, k⟩, hl, rfl⟩ := Option.map_eq_some_iff.mp h
  simp [Proc.first, hl]

/-- The context 1 has the shadow 0, connected and with no call in progress. -/
def Proc.upFirst (p : Proc) : Bool :=
  p.idle 1 && decide (p.conc.tab.gTab 0 = some 0) &&
    decide ((p.conc.tab.look 0).map Prod.fst = some 1) &&
    decide (p.first.call = none ∧ p.first.sh.state = .connected)

theorem connectedRun_isSome : (exec Proc.step {} connectedRun).isSome = true := by
  decide +kernel

theorem connectedRun_up : ((exec Proc.step {} connectedRun).get connectedRun_isSome).upFirst = true ∧
    ((exec Proc.step {} connectedRun).get connectedRun_isSome).first.sh.wpend = none ∧
    ((exec Proc.step {} connectedRun).get connectedRun_isSome).first.sh.ssl.map (fun x => x.wr.retry) =
      some none := by
  decide +kernel

theorem queuedRun_isSome : (exec Proc.step {} queuedRun).isSome = true := by
  decide +kernel

/-- The process after the write, and what a close makes of it when the socket takes nothing. -/
theorem queuedRun_up : ((exec Proc.step {} queuedRun).get queuedRun_isSome).upFirst = true ∧
    ((exec Proc.step {} queuedRun).get queuedRun_isSome).first.sh.queue = [1, 2, 3] ∧
    (((exec Proc.step {} queuedRun).get queuedRun_isSome).step (.close 1 ⟨.done, false⟩)).isSome = true ∧
    (((exec Proc.step {} queuedRun).get queuedRun_isSome).step (.close 1 ⟨.want 0, true⟩)).map
      (fun p' => p'.first.sh.ssl.map fun x => x.wr.taken) = some (some []) := by
  decide +kernel

theorem Proc.upFirst_spec {p : Proc} (h : p.upFirst = true) : p.idle 1 = true ∧
    p.conc.tab.InTable 0 ∧ p.conc.tab.look 0 = some (1, p.first) ∧ p.first.call = none ∧
    p.first.sh.state = .connected := by
  unfold Proc.upFirst at h
  rw [Bool.and_eq_true, Bool.and_eq_true, Bool.and_eq_true, decide_eq_true_iff, decide_eq_true_iff,
    decide_eq_true_iff] at h
  obtain ⟨⟨⟨hidle, hin⟩, hl⟩, hcall, hc⟩ := h
  exact ⟨hidle, ⟨0, hin⟩, Proc.look_first hl, hcall, hc⟩

/-- The length of the data that an act writes. -/
def Act.dataLength : Act → ℕ
  | .write data _ _ => data.length
  | _ => 0

theorem bounded_of_short (h : a.dataLength < 2 ^ 31) (k : Conn) : a.Bounded k := by
  cases a with
  | write data alloc replies =>
    rintro - ⟨-, -, -, j, -, hj⟩
    have hlt : data.length < 2 ^ 31 := h
    omega
  | _ => trivial

theorem bounded_run {evs : List Event} {p p' : Proc} (h : Path Proc.Next p evs p')
    (hs : evs.all (fun e => (e.act.map fun q => q.2.dataLength).getD 0 < 2 ^ 31) = true) :
    Path (Proc.NextIf Act.Bounded) p evs p' := by
  refine h.obeys fun e he c a ha k => bounded_of_short ?_ k
  have hlt := List.all_eq_true.mp hs e he
  rw [ha] at hlt
  simpa using hlt

theorem lengths_exact_queuedRun :
    ∃ p, Path (Proc.NextIf Act.Bounded) {} queuedRun p ∧ p.first.sh.queue = [1, 2, 3] ∧
      p.first.sh.Untruncated := by
  have hp := bounded_run (exec_path_get queuedRun_isSome) (by decide)
  obtain ⟨-, -, hl, -, hc⟩ := Proc.upFirst_spec queuedRun_up.1
  exact ⟨_, hp, queuedRun_up.2.1, (lengths_exact hp hl hc).1⟩

/-- A write of 2^31 bytes that blocks at its beginning. -/
theorem length_truncated : ¬ ∀ evs p s c k, Path Proc.Next {} evs p →
    p.conc.tab.look s = some (c, k) → k.sh.state = .connected → k.sh.Untruncated := by
  intro hall
  obtain ⟨data, hlen⟩ : ∃ data : Bytes, data.length = 2 ^ 31 :=
    ⟨List.replicate (2 ^ 31) 0, List.length_replicate⟩
  have hpath := exec_path_get connectedRun_isSome
  obtain ⟨hok, hkeep⟩ := held_run hpath
  obtain ⟨hup, hp, hssl⟩ := connectedRun_up
  generalize (exec Proc.step {} connectedRun).get connectedRun_isSome = p at *
  obtain ⟨hidle, hin, hl, hcall, hc⟩ := Proc.upFirst_spec hup
  obtain ⟨hk, hh⟩ := hkeep 0 1 p.first hl
  obtain ⟨x, hx, hret⟩ := Option.map_eq_some_iff.mp hssl
  -- the write goes to the engine and leaves all of its data in the queue
  have hstep : Conn.step 1 0 (.write data true fun _ => ⟨.want 0, true⟩) p.world p.first =
      some (Conn.entry 1 0 p.world p.first.sh (.write data true fun _ => ⟨.want 0, true⟩)) := by
    unfold Conn.step
    rw [hcall]
    rfl
  obtain ⟨hget, hex⟩ := Proc.viaGet_entry (a := .write data true fun _ => ⟨.want 0, true⟩) hok hin hl
  obtain ⟨p', hp'⟩ := hex _ hstep
  obtain ⟨k', hstep', hlook⟩ := hget p' hp'
  have hnext : p.Next (.call 1 (.write data true fun _ => ⟨.want 0, true⟩)) p' := by
    show (if p.idle 1 && true then p.viaGet 1 _ else none) = some p'
    rw [hidle, Bool.and_self, if_pos rfl]
    exact hp'
  have hk' : k'.sh = (writeConnected true (fun _ => ⟨.want 0, true⟩) p.first.sh data).1 := by
    rw [hstep, Option.some.injEq] at hstep'
    have hsh := congrArg (·.2.sh) hstep'.symm
    simp only [Conn.entry, writeEnter, mySSLWrite, if_pos hc] at hsh
    split_ifs at hsh <;> exact hsh
  have hlong : Overlong true (fun _ => ⟨.want 0, true⟩) data p.first.sh := by
    refine ⟨rfl, fun h => absurd hp h, fun _ y hy prev k h => ?_, 0, ?_, ?_⟩
    · obtain rfl := Option.some.inj (hx.symm.trans hy)
      rw [hret] at h
      simp at h
    · exact blocksAt_zero.mpr ⟨rfl, by omega⟩
    · omega
  obtain ⟨⟨x', hx', -⟩, hiff⟩ :=
    writeConnected_any hx (hh x hx) true (fun _ => ⟨.want 0, true⟩) data
  have hshort : (writeConnected true (fun _ => ⟨.want 0, true⟩) p.first.sh data).1.Untruncated := by
    rw [← hk']
    refine hall _ p' 0 1 k' (hpath.append (.cons hnext (.nil p'))) ?_ ?_
    · rw [hlook, Function.update_self]
    · rw [hk']
      exact (Shadow.state_of_core (writeConnected_core true _ p.first.sh data)).trans hc
  have hheld : (writeConnected true (fun _ => ⟨.want 0, true⟩) p.first.sh data).1.Held := by
    rw [← hk']
    exact step_held hk hh hstep'
  exact (hiff (by simp [Shadow.queue, hp])).mp ((untruncated_iff hx' hheld).mp hshort) hlong

/-! ### Closing -/

/-- `my_SSLClose`.  `native` is what the native `SSLClose` answers. -/
def Proc.mySSLClose (p : Proc) (c : Ctx) (flush : WriteReply) (native : OSStatus) :
    Option (Proc × OSStatus) :=
  (p.step (.close c flush)).map fun p' => (p', native)

/-- OpenSSL has taken what was in the queue of the shadow `s`, which held `sh`. -/
def Proc.Delivered (p : Proc) (s : Sid) (sh : Shadow) : Prop :=
  ∃ c k x x', p.conc.tab.look s = some (c, k) ∧ sh.ssl = some x ∧ k.sh.ssl = some x' ∧
    x'.wr.taken = x.wr.taken ++ sh.queue

/-- **What is left at the close.**  In every run, a queue that a write leaves on a connection is the
rest of data that it reported as processed; and the close of a connection whose native part succeeds
has OpenSSL take all of the queue, or else reports an error, exactly when the queue was empty or it is
shorter than 2^31 bytes and the one call of SSL_write takes it. -/
theorem close_delivers {evs : List Event} {p : Proc} (h : Path Proc.Next {} evs p) {s : Sid} {c : Ctx}
    {k : Conn} (hin : p.conc.tab.InTable s) (hl : p.conc.tab.look s = some (c, k))
    (hc : k.sh.state = .connected) :
    (∀ data alloc replies s' status processed q,
      mySSLWrite alloc replies k.sh data = some (s', status, processed) → s'.wpend = some q →
        s'.wpend = k.sh.wpend ∨ processed = data.length ∧ q <:+ data) ∧
    ∀ flush p' status, p.mySSLClose c flush noErr = some (p', status) →
      ((p'.Delivered s k.sh ∨ status ≠ noErr) ↔
        k.sh.wpend = none ∨ flush.outcome = .done ∧ k.sh.queue.length < 2 ^ 31) := by
  obtain ⟨hok, hall⟩ := held_run h
  obtain ⟨hk, hh⟩ := hall s c k hl
  obtain ⟨x, hx⟩ := Option.isSome_iff_exists.mp (hk.up (Or.inr (Or.inr hc))).2
  refine ⟨fun data alloc replies s' status processed q hs hq => ?_, fun flush p' status hs => ?_⟩
  · unfold mySSLWrite at hs
    rw [if_pos hc, Option.some.injEq] at hs
    have hrep := writeConnected_reports (q := q) hx (hh x hx) alloc replies data
    rw [hs] at hrep
    exact hrep hq
  · obtain ⟨p₁, hstep, heq⟩ := Option.map_eq_some_iff.mp hs
    obtain ⟨rfl, rfl⟩ := Prod.mk.inj heq
    simp only [Proc.step] at hstep
    split_ifs at hstep
    obtain ⟨p₀, hget, rfl⟩ := Option.map_eq_some_iff.mp hstep
    obtain ⟨k', hact, hlook⟩ := (Proc.viaGet_entry hok hin hl).1 p₀ hget
    obtain ⟨-, he⟩ := Proc.step_entry rfl hact
    have hsh : k'.sh = (shFlushWrite (shUnblockWrite k.sh) flush).1 := by
      have hk' := congrArg (·.2.sh) he.symm
      simp only [Conn.entry, closeShadow, if_pos (show k.sh.state = .connected ∧ k.sh.ssl.isSome = true
        from ⟨hc, by simp [hx]⟩)] at hk'
      exact hk'
    have hlook' : (p₀.conc.free true c).tab.look s = some (c, k') := by
      rw [show (p₀.conc.free true c).tab.look = p₀.conc.tab.look from Conc.free_look true, hlook,
        Function.update_self]
    have htakes := flush_takes_all (s := shUnblockWrite k.sh) hx (hh x hx) flush
    rw [← hsh] at htakes
    refine Iff.trans ?_ htakes
    constructor
    · rintro (⟨c', k₁, x₁, x', hl', hx₁, hx', htaken⟩ | hne)
      · obtain ⟨-, rfl⟩ := Prod.mk.inj (Option.some.inj (hlook'.symm.trans hl'))
        obtain rfl := Option.some.inj (hx.symm.trans hx₁)
        exact ⟨x', hx', htaken⟩
      · exact absurd rfl hne
    · rintro ⟨x', hx', htaken⟩
      exact Or.inl ⟨c, k', x, x', hlook', hx, hx', htaken⟩

/-- Three bytes in the queue, and a close when the socket takes nothing. -/
theorem close_discards : ¬ ∀ evs p s c k flush p' status, Path Proc.Next {} evs p →
    p.conc.tab.InTable s → p.conc.tab.look s = some (c, k) → k.sh.state = .connected →
    p.mySSLClose c flush noErr = some (p', status) → p'.Delivered s k.sh ∨ status ≠ noErr := by
  intro hall
  obtain ⟨hup, hqueue, -, htaken⟩ := queuedRun_up
  have hpath := exec_path_get queuedRun_isSome
  generalize (exec Proc.step {} queuedRun).get queuedRun_isSome = p at *
  obtain ⟨-, hin, hl, -, hc⟩ := Proc.upFirst_spec hup
  obtain ⟨p', hstep, htaken⟩ := Option.map_eq_some_iff.mp htaken
  have hclose : p.mySSLClose 1 ⟨.want 0, true⟩ noErr = some (p', noErr) := by
    unfold Proc.mySSLClose
    rw [hstep]
    rfl
  rcases hall _ p 0 1 p.first ⟨.want 0, true⟩ p' noErr hpath hin hl hc hclose with
    ⟨c, k, x, x', hl', -, hx', ht⟩ | hne
  · rw [Proc.first, hl', Option.map_some, Option.getD_some, hx', Option.map_some] at htaken
    rw [Option.some.inj htaken, hqueue] at ht
    simp at ht
  · exact hne rfl

theorem close_delivers_queuedRun : ∃ p p', Path Proc.Next {} queuedRun p ∧
    p.first.sh.queue = [1, 2, 3] ∧ p.mySSLClose 1 ⟨.done, false⟩ noErr = some (p', noErr) ∧
    p'.Delivered 0 p.first.sh := by
  obtain ⟨hup, hqueue, hsome, -⟩ := queuedRun_up
  have hpath := exec_path_get queuedRun_isSome
  generalize (exec Proc.step {} queuedRun).get queuedRun_isSome = p at *
  obtain ⟨-, hin, hl, -, hc⟩ := Proc.upFirst_spec hup
  have hclose := congrArg (Option.map fun p' => (p', noErr)) (Option.some_get hsome).symm
  have h := (close_delivers hpath hin hl hc).2 ⟨.done, false⟩ _ noErr hclose
  refine ⟨p, _, hpath, hqueue, hclose, ?_⟩
  refine (h.mpr (Or.inr ⟨rfl, ?_⟩)).resolve_right fun hne => hne rfl
  rw [hqueue]
  decide

end AquaTransport
