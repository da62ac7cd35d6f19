import AquaTransport.AirDrop.Modes

/-!
# AquaTransport.AirDrop.Receivers — what becomes of a receiver whose stop had to wait

`Apart`: receivers are started and stopped on the main thread alone, one call or block at a time.
`Upheld`: an active receiver was started in the mode that is on.  `Spared`: in modern mode, what is owed
to a receiver whose stop was deferred, and that none is stopped under a lease.
-/

namespace AquaTransport.Adapter

namespace Section

/-- The sections of the main thread. -/
def onMain : Section → Bool
  | .block | .transition | .flush | .startServer _ | .resume _ | .originalStart _ => true
  | .stopServer _ | .deferStop _ | .forget _ | .originalStop _ _ => true
  | _ => false

/-- The receiver that the thread is stopping. -/
def stops : Section → Option ℕ
  | .deferStop s | .forget s | .originalStop s _ => some s
  | _ => none

/-- The receiver that the thread is starting. -/
def starts : Section → Option ℕ
  | .resume s | .originalStart s => some s
  | _ => none

end Section

/-! ### The main thread -/

/-- Only the main thread has such sections, and it has one at a time. -/
structure Apart (m : List Section) (P : Multiset Section) : Prop where
  others : ∀ x ∈ P, x.onMain = false
  alone : ∀ x ∈ m, x.onMain = true → m = [x]

section Apart

variable {a b : Shared} {x : Section} {ch : Choice} {m rest new : List Section}
  {P : Multiset Section}

theorem Call.body_onMain {c : Call} (hc : c.mainOnly = false) : ∀ y ∈ c.body, y.onMain = false := by
  intro y hy
  have hentry := c.body_entry y hy
  cases c with
  | mainQueue | startServer | stopServer => cases hc
  | transferStart op throws =>
    rcases List.mem_cons.mp hy with rfl | hy
    · rfl
    · split at hy
      · rw [List.mem_singleton.mp hy]
        rfl
      · cases hy
  | modeRequested value =>
    cases value with
    | none => cases hy
    | some v =>
      rw [List.mem_singleton.mp hy]
      rfl
  | transferStop | dealloc | modeHeartbeat | expireModeOwner =>
    rw [List.mem_singleton.mp hy]
    rfl
  | transferEvent op event | receiveEvent op event =>
    simp only [Call.body] at hy
    split at hy
    · rw [List.mem_singleton.mp hy]
      rfl
    · cases hy
  | receiveStop op ask =>
    simp only [Call.body] at hy
    split at hy
    · cases hy
    · rw [List.mem_singleton.mp hy]
      rfl
  | receivedRequest op path =>
    simp only [Call.body] at hy
    split at hy
    · rw [List.mem_singleton.mp hy]
      rfl
    · cases hy

theorem Call.body_alone (c : Call) : ∀ y ∈ c.body, y.onMain = true → c.body = [y] := by
  intro y hy hon
  cases hc : c.mainOnly with
  | false => rw [Call.body_onMain hc y hy] at hon; cases hon
  | true =>
    cases c with
    | mainQueue | startServer | stopServer => rw [List.mem_singleton.mp hy]; rfl
    | _ => cases hc

end Apart

/-- All that a section of transfers, modes or locks does to what receivers have to do with. -/
structure Aside (a b : Shared) (x : Section) (new : List Section) : Prop where
  roster : (b.activeServers, b.pendingServers, b.started, b.era) =
    (a.activeServers, a.pendingServers, a.started, a.era)
  native : b.nativeMode = a.nativeMode
  servers : b.transferServers = a.transferServers
  deferred : b.deferredTransferServers = a.deferredTransferServers
  log : ∃ l, b.log = l ++ a.log ∧ ∀ e ∈ l, (∃ k, e = .began k) ∨ ∃ k, e = .finished k
  queue : ∀ k ∈ a.queue, k ∈ b.queue
  later : x = .flushLater → .flush ∈ b.queue
  receiving : a.receivingTransfers ≤ b.receivingTransfers ∨ .flushLater ∈ new
  leased : ∀ s, b.leasedTransferServers s ≤ a.leasedTransferServers s ∨
    (∃ op l, x = .activate op true false l) ∧ s ∈ a.transferServers
  onMain : ∀ y ∈ new, y.onMain = false

section Aside

variable {a b : Shared} {x : Section} {ch : Choice} {new : List Section}

/-- A section that leaves the receivers alone altogether. -/
theorem Aside.of (h : (b.activeServers, b.pendingServers, b.started, b.era, b.nativeMode,
      b.transferServers, b.deferredTransferServers, b.log, b.queue, b.receivingTransfers,
      b.leasedTransferServers) =
    (a.activeServers, a.pendingServers, a.started, a.era, a.nativeMode, a.transferServers,
      a.deferredTransferServers, a.log, a.queue, a.receivingTransfers, a.leasedTransferServers))
    (hx : x ≠ .flushLater) (hnew : ∀ y ∈ new, y.onMain = false) : Aside a b x new := by
  simp only [Prod.mk.injEq] at h
  obtain ⟨h1, h2, h3, h4, h5, h6, h7, h8, h9, h10, h11⟩ := h
  exact ⟨by rw [h1, h2, h3, h4], h5, h6, h7, ⟨[], by simp [h8], by simp⟩, by simp [h9],
    fun he => absurd he hx, .inl h10.ge, fun s => .inl (by rw [h11]), hnew⟩

theorem sec_aside (hx : x.onMain = false) (hs : sec x ch a = some (b, new)) : Aside a b x new := by
  cases x with
  | block | transition | flush | startServer | resume | originalStart | stopServer | deferStop
  | forget | originalStop => cases hx
  | own | associate | leave | dissociate | disown | uncount | request | beat =>
    obtain ⟨rfl, rfl⟩ := Prod.mk.inj (Option.some.inj hs)
    exact .of rfl (by simp) (by simp [Section.onMain])
  | beginIn =>
    obtain ⟨-, ⟨-, rfl, rfl⟩ | ⟨-, rfl, rfl⟩⟩ := beginIn_cases hs <;>
      exact .of rfl (by simp) (by simp [Section.onMain])
  | endIn =>
    obtain ⟨-, ⟨-, rfl, rfl⟩ | ⟨l, -, rfl, rfl⟩⟩ := endIn_cases hs <;>
      exact .of rfl (by simp) (by simp [Section.onMain])
  | dealloc =>
    obtain ⟨-, ⟨-, rfl, rfl⟩ | ⟨l, -, rfl, rfl⟩⟩ := dealloc_cases hs <;>
      exact .of rfl (by simp) (by simp [Section.onMain])
  | check =>
    obtain ⟨-, rfl, rfl⟩ | ⟨-, rfl, rfl⟩ := check_cases hs <;>
      exact .of rfl (by simp) (by simp [Section.onMain])
  | expire =>
    obtain ⟨rfl, rfl⟩ | ⟨-, rfl, rfl⟩ := expire_cases hs <;>
      exact .of rfl (by simp) (by simp [Section.onMain])
  | countIn op incoming l =>
    obtain ⟨rfl, rfl⟩ := Prod.mk.inj (Option.some.inj hs)
    refine .of rfl (by simp) fun y hy => ?_
    rw [List.mem_singleton.mp hy]
    split <;> rfl
  | raise op incoming l =>
    obtain ⟨rfl, rfl⟩ := Prod.mk.inj (Option.some.inj hs)
    refine .of rfl (by simp) fun y hy => ?_
    split at hy
    · rw [List.mem_singleton.mp hy]
      rfl
    · rcases (by simpa using hy : y = _ ∨ y = _ ∨ y = _ ∨ y = _) with rfl | rfl | rfl | rfl <;> rfl
  | dispatch =>
    obtain ⟨rfl, rfl⟩ := Prod.mk.inj (Option.some.inj hs)
    exact ⟨rfl, rfl, rfl, rfl, ⟨[], rfl, by simp⟩, fun k hk => List.mem_append_left _ hk, by simp,
      .inl le_rfl, fun s => .inl le_rfl, by simp⟩
  | flushLater =>
    obtain ⟨rfl, rfl⟩ := Prod.mk.inj (Option.some.inj hs)
    exact ⟨rfl, rfl, rfl, rfl, ⟨[], rfl, by simp⟩, fun k hk => List.mem_append_left _ hk,
      fun _ => by simp, .inl le_rfl, fun s => .inl le_rfl, by simp⟩
  | activate op incoming native l =>
    obtain ⟨rfl, rfl⟩ := Prod.mk.inj (Option.some.inj hs)
    unfold Shared.activate
    dsimp only
    split
    · next hin =>
      obtain ⟨rfl, rfl⟩ : incoming = true ∧ native = false := by simpa using hin
      refine ⟨rfl, rfl, rfl, rfl, ⟨[_], rfl, by simp⟩, fun k hk => hk, by simp,
        .inl (Nat.le_succ _), fun s => ?_, by simp [Section.onMain]⟩
      by_cases hm : s ∈ a.transferServers
      · exact .inr ⟨⟨op, l, rfl⟩, hm⟩
      · exact .inl (by simp [hm])
    · exact ⟨rfl, rfl, rfl, rfl, ⟨[_], rfl, by simp⟩, fun k hk => hk, by simp, .inl le_rfl,
        fun s => .inl le_rfl, by simp [Section.onMain]⟩
  | finish l =>
    rcases finish_cases hs with ⟨-, rfl, rfl⟩ | ⟨-, rfl, rfl⟩
    · exact .of rfl (by simp) (by simp)
    · refine ⟨rfl, rfl, rfl, rfl, ⟨[_], rfl, by simp⟩, fun k hk => hk, by simp, .inl le_rfl,
        fun s => .inl le_rfl, fun y hy => ?_⟩
      rcases mem_finish hy with ⟨rfl, -⟩ | rfl | rfl <;> rfl
  | unlist l =>
    obtain ⟨rfl, rfl⟩ := Prod.mk.inj (Option.some.inj hs)
    exact ⟨rfl, rfl, rfl, rfl, ⟨[], rfl, by simp⟩, fun k hk => hk, by simp, .inr (by simp),
      fun s => .inl (Nat.sub_le _ _), by simp [Section.onMain]⟩

/-- Another thread's section adds and takes away none of the main thread's. -/
theorem mem_mainRun_iff {rest : List Section} (hx : x.onMain = false)
    (hs : sec x ch a = some (b, new)) (hy : y.onMain = true) : y ∈ new ++ rest ↔ y ∈ x :: rest := by
  refine ⟨fun hm => ?_, fun hm => ?_⟩
  · rcases List.mem_append.mp hm with hm | hm
    · rw [(sec_aside hx hs).onMain y hm] at hy
      cases hy
    · exact List.mem_cons_of_mem _ hm
  · rcases List.mem_cons.mp hm with rfl | hm
    · rw [hx] at hy
      cases hy
    · exact List.mem_append_right _ hm

/-- A section of the main thread goes on with one more, if at all. -/
theorem sec_alone (hx : x.onMain = true) (hs : sec x ch a = some (b, new)) :
    ∀ y ∈ new, y.onMain = true → new = [y] := by
  have hone : ∀ z : Section, new = [z] → ∀ y ∈ new, y.onMain = true → new = [y] := by
    rintro z rfl y hy -
    rw [List.mem_singleton.mp hy]
  have hnil : new = [] → ∀ y ∈ new, y.onMain = true → new = [y] := by simp +contextual
  cases x with
  | block =>
    obtain ⟨k, rest, -, -, hnew⟩ := block_cases hs
    exact hone _ hnew
  | transition =>
    have hnew : new = (a.transition ch.ups).2 := (Prod.mk.inj (Option.some.inj hs)).2.symm
    rcases a.transition_cases ch.ups with ⟨-, he⟩ | ⟨next, -, -, ⟨-, he⟩ | ⟨-, he⟩⟩ <;> rw [he] at hnew
    · exact hnil hnew
    · exact hnil hnew
    · exact hone _ hnew
  | startServer s =>
    rcases startServer_cases hs with ⟨-, -, hnew⟩ | ⟨-, -, hnew⟩ | ⟨-, -, hnew⟩
    · exact hone _ hnew
    · exact hone _ hnew
    · exact hnil hnew
  | resume | stopServer | forget => exact hone _ (Prod.mk.inj (Option.some.inj hs)).2.symm
  | flush | originalStart => exact hnil (Prod.mk.inj (Option.some.inj hs)).2.symm
  | deferStop s =>
    rcases deferStop_cases hs with ⟨-, -, hnew⟩ | ⟨-, -, hnew⟩
    · exact hone _ hnew
    · exact hnil hnew
  | originalStop s modern =>
    have hnew : new = if modern then [.disown (.server s)] else [] :=
      (Prod.mk.inj (Option.some.inj hs)).2.symm
    cases modern with
    | true => exact hone _ hnew
    | false => exact hnil hnew
  | _ => cases hx

end Aside

section Apart

variable {a b : Shared} {x : Section} {ch : Choice} {m rest new : List Section}
  {P : Multiset Section}

theorem Apart.call (h : Apart m P) {c : Call} (hc : c.mainOnly = false) : Apart m (c.body + P) := by
  refine ⟨fun y hy => ?_, h.alone⟩
  rcases Multiset.mem_add.mp hy with hy | hy
  · exact Call.body_onMain hc y (Multiset.mem_coe.mp hy)
  · exact h.others y hy

theorem Apart.run (h : Apart m (x ::ₘ P)) (hs : sec x ch a = some (b, new)) :
    Apart m (new + P) := by
  refine ⟨fun y hy => ?_, h.alone⟩
  rcases Multiset.mem_add.mp hy with hy | hy
  · exact (sec_aside (h.others x (Multiset.mem_cons_self _ _)) hs).onMain y (Multiset.mem_coe.mp hy)
  · exact h.others y (Multiset.mem_cons_of_mem hy)

/-- What the main thread has after a section that is not its own kind. -/
theorem Apart.remaining (h : Apart (x :: rest) P) : ∀ y ∈ rest, y.onMain = false := by
  intro y hy
  by_contra hon
  have := h.alone y (List.mem_cons_of_mem _ hy) (by simpa using hon)
  obtain ⟨-, rfl⟩ := List.cons_eq_cons.mp this
  cases hy

theorem Apart.mainRun (h : Apart (x :: rest) P) (hs : sec x ch a = some (b, new)) :
    Apart (new ++ rest) P := by
  refine ⟨h.others, fun y hy hon => ?_⟩
  rcases List.mem_append.mp hy with hyn | hy
  · cases hx : x.onMain with
    | false =>
      rw [(sec_aside hx hs).onMain y hyn] at hon
      cases hon
    | true =>
      obtain ⟨-, rfl⟩ := List.cons_eq_cons.mp (h.alone x List.mem_cons_self hx)
      rw [List.append_nil] at hy ⊢
      exact sec_alone hx hs y hy hon
  · rw [h.remaining y hy] at hon
    cases hon

end Apart

/-! ### Receivers that are up -/

/-- An active receiver waits for the radio, was started in the mode that is on, or is being started;
one that is being stopped is not active. -/
structure Upheld (a : Shared) (m : List Section) : Prop where
  stopping : ∀ x ∈ m, ∀ s, x.stops = some s → s ∉ a.activeServers
  up : ∀ s ∈ a.activeServers, s ∈ a.pendingServers ∨ a.started s = some a.era ∨
    ∃ x ∈ m, x.starts = some s

/-- A flush finds no receiver active whose stop was deferred, unless it waits for the radio. -/
def Shared.spares (a : Shared) (x : Section) : Bool :=
  x ≠ .flush || a.receivingTransfers ≠ 0 ||
    a.deferredTransferServers.all fun s => s ∉ a.activeServers || s ∈ a.pendingServers

section Upheld

variable {a b : Shared} {x : Section} {ch : Choice} {m m' new : List Section}

theorem Section.onMain_of_stops {s : ℕ} (hx : x.stops = some s) : x.onMain = true := by
  cases x <;> first | rfl | cases hx

theorem Section.onMain_of_starts {s : ℕ} (hx : x.starts = some s) : x.onMain = true := by
  cases x <;> first | rfl | cases hx

theorem Upheld.congr (h : Upheld a m)
    (ha : (b.activeServers, b.pendingServers, b.started, b.era) =
      (a.activeServers, a.pendingServers, a.started, a.era))
    (hm : ∀ y, y.onMain = true → (y ∈ m' ↔ y ∈ m)) : Upheld b m' := by
  simp only [Prod.mk.injEq] at ha
  obtain ⟨h1, h2, h3, h4⟩ := ha
  refine ⟨fun y hy s hs => ?_, fun s hs => ?_⟩
  · rw [h1]
    exact h.stopping y ((hm y (Section.onMain_of_stops hs)).mp hy) s hs
  · rw [h2, h3, h4]
    rcases h.up s (h1 ▸ hs) with hp | hst | ⟨y, hy, hys⟩
    · exact .inl hp
    · exact .inr (.inl hst)
    · exact .inr (.inr ⟨y, (hm y (Section.onMain_of_starts hys)).mpr hy, hys⟩)

/-- Every active receiver is pending, or started in the mode that is on. -/
def Shared.Up (a : Shared) : Prop :=
  ∀ s ∈ a.activeServers, s ∈ a.pendingServers ∨ a.started s = some a.era

theorem up_startServer {ups : ℕ → Bool} {s : ℕ} (h : a.Up) : (a.startServer ups s).Up := by
  intro r hr
  have hold : r ≠ s → r ∈ (a.enlist s).activeServers →
      r ∈ a.pendingServers ∨ a.started r = some a.era := fun hne hm => by
    rcases List.mem_insert_iff.mp hm with rfl | hm
    · exact absurd rfl hne
    · exact h r hm
  unfold Shared.startServer at hr ⊢
  dsimp only at hr ⊢
  rcases eq_or_ne r s with rfl | hne
  · split
    · exact .inr (Function.update_self ..)
    · split
      · exact .inr (Function.update_self ..)
      · exact .inl (Finset.mem_insert_self ..)
  · split at hr
    · rw [if_pos ‹_›]
      exact (hold hne hr).imp id fun hst => (Function.update_of_ne hne ..).trans hst
    · rw [if_neg ‹_›]
      split at hr
      · rw [if_pos ‹_›]
        exact (hold hne hr).imp (fun hp => Finset.mem_erase.mpr ⟨hne, hp⟩)
          fun hst => (Function.update_of_ne hne ..).trans hst
      · rw [if_neg ‹_›]
        exact (hold hne hr).imp (fun hp => Finset.mem_insert_of_mem hp) id

theorem activeServers_stopServer (a : Shared) (s : ℕ) :
    (a.stopServer s).activeServers = a.activeServers.filter (· ≠ s) := by
  unfold Shared.stopServer
  dsimp only
  split
  · rfl
  · split <;> rfl

theorem activeServers_stopAll (l : List ℕ) (a : Shared) :
    ∀ s ∈ (l.foldl Shared.stopServer a).activeServers, s ∈ a.activeServers ∧ s ∉ l := by
  induction l generalizing a with
  | nil => exact fun s hs => ⟨hs, by simp⟩
  | cons r l ih =>
    intro s hs
    obtain ⟨h1, h2⟩ := ih (a.stopServer r) s hs
    rw [activeServers_stopServer] at h1
    obtain ⟨h1, hne⟩ := List.mem_filter.mp h1
    exact ⟨h1, by simpa [h2] using hne⟩

theorem up_startAll {ups : ℕ → Bool} (l : List ℕ) (h : a.Up) :
    (l.foldl (fun a s => a.startServer ups s) a).Up := by
  induction l generalizing a with
  | nil => exact h
  | cons s l ih => exact ih (up_startServer h)

/-- A switch starts again what it stops. -/
theorem up_switch {next : Bool} {ups : ℕ → Bool} : (a.switch next ups).Up := by
  refine up_startAll _ fun s hs => ?_
  obtain ⟨h1, h2⟩ := activeServers_stopAll a.activeServers a s hs
  exact absurd h1 h2

theorem up_transition (ups : ℕ → Bool) (h : a.Up) : (a.transition ups).1.Up := by
  rcases a.transition_cases ups with ⟨-, he⟩ | ⟨next, -, -, ⟨-, he⟩ | ⟨-, he⟩⟩ <;> rw [he]
  · exact h
  · exact h
  · exact up_switch

theorem started_carryOut (l : List ℕ) (a : Shared) :
    (l.foldl Shared.carryOut a).activeServers = a.activeServers ∧
    (l.foldl Shared.carryOut a).pendingServers = a.pendingServers ∧
    (l.foldl Shared.carryOut a).era = a.era ∧
    ∀ s, (l.foldl Shared.carryOut a).started s = if s ∈ l then none else a.started s := by
  induction l generalizing a with
  | nil => simp
  | cons r l ih =>
    obtain ⟨h1, h2, h3, h4⟩ := ih (a.carryOut r)
    refine ⟨h1, h2, h3, fun s => (h4 s).trans ?_⟩
    show (if s ∈ l then none else Function.update a.started r none s) = _
    rcases eq_or_ne s r with rfl | hne
    · simp
    · simp [hne]

/-- What a flush stops is not up, unless it waits for the radio. -/
theorem up_flush_iff (h : a.Up) : a.flush.Up ↔ a.spares .flush = true := by
  by_cases hr : a.receivingTransfers = 0
  · obtain ⟨h1, h2, h3, h4⟩ := started_carryOut a.deferredTransferServers
      { a with deferredTransferServers := [] }
    have hf : a.flush = a.deferredTransferServers.foldl Shared.carryOut
        { a with deferredTransferServers := [] } := if_neg (not_not.mpr hr)
    simp only [Shared.Up, hf, h1, h2, h3, h4]
    simp only [Shared.spares, hr, ne_eq, not_true_eq_false, decide_false, Bool.false_or,
      List.all_eq_true, Bool.or_eq_true, decide_eq_true_eq]
    constructor
    · intro hup s hd
      by_cases hs : s ∈ a.activeServers
      · exact .inr ((hup s hs).resolve_right (by simp [hd]))
      · exact .inl hs
    · intro hsp s hs
      by_cases hd : s ∈ a.deferredTransferServers
      · exact .inl ((hsp s hd).resolve_left (not_not.mpr hs))
      · rw [if_neg hd]
        exact h s hs
  · have hf : a.flush = a := if_pos hr
    rw [hf]
    exact ⟨fun _ => by simp [Shared.spares, hr], fun _ => h⟩

/-- Between two calls on the main thread. -/
theorem Upheld.idle (h : Upheld a m) (hm : ∀ x ∈ m, x.starts = none) : a.Up := fun s hs => by
  rcases h.up s hs with hp | hst | ⟨x, hx, hxs⟩
  · exact .inl hp
  · exact .inr hst
  · rw [hm x hx] at hxs
    cases hxs

theorem Shared.Up.upheld (h : a.Up) (hm : ∀ x ∈ m, x.stops = none) : Upheld a m :=
  ⟨fun x hx s hs => absurd hs (by simp [hm x hx]), fun s hs => (h s hs).imp id .inl⟩

/-- **Every section of the main thread keeps what it says**, a flush with the condition. -/
theorem Upheld.onMain (h : Upheld a [x]) (hG : a.spares x = true) (hx : x.onMain = true)
    (hs : sec x ch a = some (b, new)) : Upheld b new := by
  have hup : x.starts = none → a.Up := fun hst => h.idle (by simpa using hst)
  cases x with
  | block =>
    obtain ⟨k, rest, -, rfl, rfl⟩ := block_cases hs
    refine Shared.Up.upheld (a := { a with queue := rest }) (hup rfl) fun y hy => ?_
    rw [List.mem_singleton.mp hy]
    cases k <;> rfl
  | transition =>
    have hs : a.transition ch.ups = (b, new) := Option.some.inj hs
    have hb := up_transition ch.ups (hup rfl)
    have hnew : ∀ y ∈ (a.transition ch.ups).2, y.stops = none := by
      rcases a.transition_cases ch.ups with ⟨-, he⟩ | ⟨next, -, -, ⟨-, he⟩ | ⟨-, he⟩⟩ <;> rw [he] <;>
        simp [Section.stops]
    rw [hs] at hb hnew
    exact hb.upheld hnew
  | flush =>
    obtain ⟨rfl, rfl⟩ := Prod.mk.inj (Option.some.inj hs)
    exact ((up_flush_iff (hup rfl)).mpr hG).upheld (by simp)
  | startServer s =>
    have hother : ∀ r ∈ a.activeServers.insert s, r ≠ s → r ∈ a.activeServers := fun r hr hne =>
      (List.mem_insert_iff.mp hr).resolve_left hne
    rcases startServer_cases hs with ⟨-, rfl, rfl⟩ | ⟨-, rfl, rfl⟩ | ⟨-, rfl, rfl⟩
    · refine ⟨by simp [Section.stops], fun r hr => ?_⟩
      rcases eq_or_ne r s with rfl | hne
      · exact .inr (.inr ⟨_, List.mem_singleton_self _, rfl⟩)
      · exact (hup rfl r (hother r hr hne)).imp id .inl
    · refine ⟨by simp [Section.stops], fun r hr => ?_⟩
      rcases eq_or_ne r s with rfl | hne
      · exact .inr (.inr ⟨_, List.mem_singleton_self _, rfl⟩)
      · exact (hup rfl r (hother r hr hne)).imp (fun hp => Finset.mem_erase.mpr ⟨hne, hp⟩) .inl
    · refine ⟨by simp, fun r hr => ?_⟩
      rcases eq_or_ne r s with rfl | hne
      · exact .inl (Finset.mem_insert_self ..)
      · exact (hup rfl r (hother r hr hne)).imp (fun hp => Finset.mem_insert_of_mem hp) .inl
  | resume s =>
    obtain ⟨rfl, rfl⟩ := Prod.mk.inj (Option.some.inj hs)
    refine ⟨by simp [Section.stops], fun r hr => ?_⟩
    rcases h.up r hr with hp | hst | ⟨y, hy, hys⟩
    · exact .inl hp
    · exact .inr (.inl hst)
    · rw [List.mem_singleton.mp hy] at hys
      exact .inr (.inr ⟨_, List.mem_singleton_self _, hys⟩)
  | originalStart s =>
    obtain ⟨rfl, rfl⟩ := Prod.mk.inj (Option.some.inj hs)
    refine ⟨by simp, fun r hr => ?_⟩
    rcases eq_or_ne r s with rfl | hne
    · exact .inr (.inl (Function.update_self ..))
    · have hst : (a.originalStart s).started r = a.started r := Function.update_of_ne hne ..
      rcases h.up r hr with hp | hst' | ⟨y, hy, hys⟩
      · exact .inl hp
      · exact .inr (.inl (hst.trans hst'))
      · rw [List.mem_singleton.mp hy] at hys
        exact absurd (Option.some.inj hys).symm hne
  | stopServer s =>
    obtain ⟨rfl, rfl⟩ := Prod.mk.inj (Option.some.inj hs)
    refine ⟨fun y hy r hr => ?_, fun r hr => ?_⟩
    · obtain rfl : s = r := by
        rw [List.mem_singleton.mp hy] at hr
        split at hr <;> exact Option.some.inj hr
      simp [Shared.retire]
    · obtain ⟨hr, hne⟩ := List.mem_filter.mp hr
      exact (hup rfl r hr).imp (fun hp => Finset.mem_erase.mpr ⟨by simpa using hne, hp⟩) .inl
  | deferStop s =>
    have hoff := h.stopping _ (List.mem_singleton_self _) s rfl
    rcases deferStop_cases hs with ⟨-, rfl, rfl⟩ | ⟨-, rfl, rfl⟩
    · refine ⟨fun y hy r hr => ?_, fun r hr => (hup rfl r hr).imp id .inl⟩
      rw [List.mem_singleton.mp hy] at hr
      exact Option.some.inj hr ▸ hoff
    · exact ⟨by simp, fun r hr => (hup rfl r hr).imp id .inl⟩
  | forget s =>
    have hoff := h.stopping _ (List.mem_singleton_self _) s rfl
    obtain ⟨rfl, rfl⟩ := Prod.mk.inj (Option.some.inj hs)
    refine ⟨fun y hy r hr => ?_, fun r hr => (hup rfl r hr).imp id .inl⟩
    rw [List.mem_singleton.mp hy] at hr
    exact Option.some.inj hr ▸ hoff
  | originalStop s modern =>
    have hoff := h.stopping _ (List.mem_singleton_self _) s rfl
    obtain ⟨rfl, rfl⟩ := Prod.mk.inj (Option.some.inj hs)
    refine ⟨fun y hy r hr => ?_, fun r hr => ?_⟩
    · split at hy
      · rw [List.mem_singleton.mp hy] at hr
        cases hr
      · cases hy
    · have hne : r ≠ s := fun he => hoff (he ▸ hr)
      exact (hup rfl r hr).imp id fun hst => .inl ((Function.update_of_ne hne ..).trans hst)
  | _ => cases hx

end Upheld

section Runs

variable {n : ℕ} {ls : List (Threads.Label Choice Call)} {t : Threads Shared Section}

theorem upheld_run (run : Path (code.Step fun a _ x _ => a.spares x = true) (install n) ls t) :
    Apart t.main t.pending ∧ Upheld t.shared t.main := by
  refine run.invariant (I := fun t => Apart t.main t.pending ∧ Upheld t.shared t.main)
    (fun t l t' h hs => ?_) ⟨⟨?_, ?_⟩, ?_, ?_⟩
  · refine hs.invariant (I := fun a m P => Apart m P ∧ Upheld a m) ?_ ?_ ?_ ?_ h
    · intro a P c ⟨hA, hU⟩
      have hup : a.Up := hU.idle (by simp)
      refine ⟨⟨hA.others, c.body_alone⟩, hup.upheld fun y hy => ?_⟩
      have := c.body_entry y hy
      cases y <;> first | cases this; done | rfl
    · intro a m P c hc ⟨hA, hU⟩
      exact ⟨hA.call hc, hU⟩
    · intro a x rest P ch b new ⟨hA, hU⟩ hG hs
      refine ⟨hA.mainRun hs, ?_⟩
      cases hx : x.onMain with
      | false =>
        exact hU.congr (sec_aside hx hs).roster fun y hy => mem_mainRun_iff hx hs hy
      | true =>
        obtain ⟨-, rfl⟩ := List.cons_eq_cons.mp (hA.alone x List.mem_cons_self hx)
        rw [List.append_nil]
        exact hU.onMain hG hx hs
    · intro a m x P ch b new ⟨hA, hU⟩ _ hs
      have hx := hA.others x (Multiset.mem_cons_self _ _)
      exact ⟨hA.run hs, hU.congr (sec_aside hx hs).roster fun _ _ => Iff.rfl⟩
  all_goals simp [install, Threads.pending]

/-- A receiver is started, a file comes in, and the native mode is asked for.  The file is over, but its
receiver still listed, when the mode switches; then the list is let go of. -/
def stoppedForGood : List (Threads.Label Choice Call) :=
  List.flatten [
    [.mainCall (.startServer 0)], List.replicate 3 (.mainRun {}),
    [.call 0 (.receivedRequest 7 "/Ask")], List.replicate 6 (.run 0 {}),
    [.call 1 (.modeRequested (some true))], List.replicate 2 (.run 1 {}),
    [.call 0 (.receiveStop 7 false)], List.replicate 6 (.run 0 {}), [.mainCall .mainQueue],
    List.replicate 3 (.mainRun {}), List.replicate 4 (.run 0 {}), [.mainCall .mainQueue],
    List.replicate 2 (.mainRun {})]

theorem stoppedForGood_runs : (exec code.step (install 2) stoppedForGood).isSome := by decide

/-- Flushes do not look at the mode: a native receiver is stopped by one and stays so. -/
theorem receiver_stopped_for_good :
    ¬ ∀ n ls t, Path (code.Step fun _ _ _ _ => True) (install n) ls t →
      t.shared.activeTransfers = 0 → t.shared.queue = [] → t.main = [] → t.shared.Up := by
  intro h
  have hup := h 2 stoppedForGood _
    ((exec_path_get stoppedForGood_runs).mono_mem fun _ _ _ _ => Code.Step.free)
    (by decide) (by decide) (by decide)
  exact absurd (hup 0 (by decide)) (by decide)

/-- **Deferred stops agree with the mode, where flushes spare active receivers**; and a flush that does
not leaves one that is active and stopped. -/
theorem receivers_upheld
    (run : Path (code.Step fun a _ x _ => a.spares x = true) (install n) ls t) :
    (t.main = [] → t.shared.Up) ∧
    ∀ a : Shared, a.Up → (a.flush.Up ↔ a.spares .flush = true) := by
  refine ⟨fun hm => ?_, fun a => up_flush_iff⟩
  have h := (upheld_run run).2
  rw [hm] at h
  exact h.idle (by simp)

/-- The same, but the file is over before the native mode is asked for. -/
def startedAgain : List (Threads.Label Choice Call) :=
  List.flatten [
    [.mainCall (.startServer 0)], List.replicate 3 (.mainRun {}),
    [.call 0 (.receivedRequest 7 "/Ask")], List.replicate 6 (.run 0 {}),
    [.call 0 (.receiveStop 7 false)], List.replicate 9 (.run 0 {}), [.mainCall .mainQueue],
    List.replicate 2 (.mainRun {}), [.call 1 (.modeRequested (some true))],
    List.replicate 3 (.run 1 {}), [.mainCall .mainQueue], List.replicate 3 (.mainRun {})]

theorem startedAgain_runs :
    (exec (code.stepIf fun a _ x _ => a.spares x) (install 2) startedAgain).isSome := by
  decide

theorem receivers_upheld_startedAgain :
    ((exec (code.stepIf fun a _ x _ => a.spares x) (install 2) startedAgain).get
      startedAgain_runs).shared.Up ∧
    (({} : Shared).flush.Up ↔ ({} : Shared).spares .flush = true) := by
  obtain ⟨h1, h2⟩ := receivers_upheld
    ((exec_path_get startedAgain_runs).mono_mem fun _ _ _ _ => Code.Step.of_stepIf)
  exact ⟨h1 (by decide), h2 {} (by simp [Shared.Up])⟩

end Runs

end AquaTransport.Adapter
