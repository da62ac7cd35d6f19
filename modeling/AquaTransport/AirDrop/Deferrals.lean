import AquaTransport.AirDrop.Receivers

/-!
# AquaTransport.AirDrop.Deferrals — stops that wait for a lease, in modern mode

`owed` reads off the history whether a deferred stop has still to be carried out.  `Deferrals` says that
the adapter's list has just these, that somebody will flush it, and that what is stopped is under no
lease.
-/

namespace AquaTransport.Adapter

/-- The stop of the receiver was deferred, and neither carried out nor taken back since. -/
def owed (s : ℕ) : List Event → Bool
  | [] => false
  | .deferred r :: past => r = s || owed s past
  | .resumed r :: past | .carried r :: past => r ≠ s && owed s past
  | _ :: past => owed s past

/-- A stop is under no live lease; a deferred one is carried out when it is owed. -/
def Event.Rightly (past : List Event) : Event → Prop
  | .originalStop _ under => under = []
  | .carried s => owed s past = true ∧ ∃ before, past = .originalStop s [] :: before
  | _ => True

/-- The section leaves the mode modern. -/
def Shared.staysModern (a : Shared) : Section → Bool
  | .transition => a.requestedMode ≠ some true || a.activeTransfers ≠ 0
  | _ => true

/-- A lease that takes the receivers that are up takes none that `stop_server` has found free of leases
and has still to forget. -/
def Shared.sparesStopped (a : Shared) (m : List Section) : Section → Bool
  | .activate _ true false _ => m.all fun
    | .forget s => s ∉ a.transferServers
    | _ => true
  | _ => true

/-- What is owed to the receivers in modern mode. -/
structure Deferrals (a : Shared) (m : List Section) (P : Multiset Section) : Prop where
  native : a.nativeMode = false
  free : ∀ s, .forget s ∈ m ∨ (∃ modern, .originalStop s modern ∈ m) → a.leasedTransferServers s = 0
  forgotten : ∀ s modern, .originalStop s modern ∈ m → s ∉ a.transferServers
  nodup : a.deferredTransferServers.Nodup
  owed : ∀ s, s ∈ a.deferredTransferServers ↔ owed s a.log = true
  due : a.deferredTransferServers ≠ [] → 0 < a.receivingTransfers ∨ .flushLater ∈ P ∨
    .flush ∈ a.queue ∨ .flush ∈ m
  rightly : Along Event.Rightly a.log

section Deferrals

variable {a b : Shared} {x : Section} {ch : Choice} {m m' new : List Section}
  {P R : Multiset Section} {s : ℕ}

/-! ### Leases and receivers -/

/-- Where no lease lists the receiver, no live one does. -/
theorem Accounts.under (h : Accounts a P) (h0 : a.leasedTransferServers s = 0) : a.under s = [] := by
  rw [h.leased s] at h0
  refine List.filter_eq_nil_iff.mpr fun l hl hon => ?_
  have := List.countP_eq_zero.mp h0 l hl
  simp only [Bool.and_eq_true] at hon
  exact this hon.2

theorem Accounts.leased_le (h : Accounts a P) (s : ℕ) :
    a.leasedTransferServers s ≤ a.receivingTransfers := by
  rw [h.leased s, h.receiving]
  refine List.countP_mono_left fun l _ hl => ?_
  cases hk : (a.leases l).servers with
  | none => simp [Lease.lists, hk] at hl
  | some w => simp [hk]

/-! ### What the main thread does -/

theorem owed_append {l past : List Event}
    (hl : ∀ e ∈ l, (∃ k, e = .began k) ∨ ∃ k, e = .finished k) :
    Adapter.owed s (l ++ past) = Adapter.owed s past := by
  induction l with
  | nil => rfl
  | cons e l ih =>
    rw [List.cons_append, ← ih fun e he => hl e (List.mem_cons_of_mem _ he)]
    rcases hl e List.mem_cons_self with ⟨k, rfl⟩ | ⟨k, rfl⟩ <;> rfl

/-- Sections of other kinds. -/
theorem Deferrals.aside (h : Deferrals a m (x ::ₘ R)) (hx : x.onMain = false)
    (hs : sec x ch a = some (b, new)) (hG : a.sparesStopped m x = true)
    (hm : ∀ y, y.onMain = true → (y ∈ m' ↔ y ∈ m)) : Deferrals b m' (new + R) := by
  have hb := sec_aside hx hs
  obtain ⟨l, hlog, hl⟩ := hb.log
  have hleased : ∀ s, .forget s ∈ m ∨ (∃ modern, .originalStop s modern ∈ m) →
      b.leasedTransferServers s = 0 := by
    intro s hsm
    rcases hb.leased s with hle | ⟨⟨op, k, rfl⟩, hup⟩
    · exact Nat.le_zero.mp (h.free s hsm ▸ hle)
    · rcases hsm with hf | ⟨modern, ho⟩
      · have := List.all_eq_true.mp hG _ hf
        simp [hup] at this
      · exact absurd hup (h.forgotten s modern ho)
  refine ⟨hb.native.trans h.native, fun s hsm => hleased s ?_, fun s modern ho => ?_, ?_, fun s => ?_,
    fun hd => ?_, ?_⟩
  · exact hsm.imp (hm _ rfl).mp fun ⟨modern, ho⟩ => ⟨modern, (hm _ rfl).mp ho⟩
  · rw [hb.servers]
    exact h.forgotten s modern ((hm _ rfl).mp ho)
  · rw [hb.deferred]
    exact h.nodup
  · rw [hb.deferred, hlog, owed_append hl]
    exact h.owed s
  · rw [hb.deferred] at hd
    rcases h.due hd with h0 | hf | hf | hf
    · exact hb.receiving.imp (fun hle => lt_of_lt_of_le h0 hle) fun hn =>
        .inl (Multiset.mem_add.mpr (.inl hn))
    · rcases Multiset.mem_cons.mp hf with rfl | hf
      · exact .inr (.inr (.inl (hb.later rfl)))
      · exact .inr (.inl (Multiset.mem_add.mpr (.inr hf)))
    · exact .inr (.inr (.inl (hb.queue _ hf)))
    · exact .inr (.inr (.inr ((hm _ rfl).mpr hf)))
  · rw [hlog]
    refine h.rightly.append_mem fun e he past => ?_
    rcases hl e he with ⟨k, rfl⟩ | ⟨k, rfl⟩ <;> trivial

theorem deferrals_carryOut (l : List ℕ) (a : Shared) (hn : l.Nodup) (hu : ∀ s, a.under s = [])
    (ho : ∀ s ∈ l, Adapter.owed s a.log = true) (ha : Along Event.Rightly a.log) :
    Along Event.Rightly (l.foldl Shared.carryOut a).log ∧
    (∀ s, Adapter.owed s (l.foldl Shared.carryOut a).log = (Adapter.owed s a.log && s ∉ l)) ∧
    (l.foldl Shared.carryOut a).nativeMode = a.nativeMode ∧
    (l.foldl Shared.carryOut a).deferredTransferServers = a.deferredTransferServers := by
  induction l generalizing a with
  | nil => exact ⟨ha, by simp, rfl, rfl⟩
  | cons r l ih =>
    obtain ⟨hr, hn⟩ := List.nodup_cons.mp hn
    have hlog : (a.carryOut r).log = .carried r :: .originalStop r [] :: a.log := by
      show Event.carried r :: .originalStop r (a.under r) :: a.log = _
      rw [hu r]
    have howed : ∀ s, Adapter.owed s (a.carryOut r).log = (r ≠ s && Adapter.owed s a.log) := fun s => by
      rw [hlog]
      rfl
    obtain ⟨h1, h2, h3, h4⟩ := ih (a.carryOut r) hn hu
      (fun s hs => by
        rw [howed, ho s (List.mem_cons_of_mem _ hs), Bool.and_true, decide_eq_true_eq]
        exact fun he => hr (he ▸ hs))
      (by
        rw [hlog]
        exact ⟨⟨ho r List.mem_cons_self, _, rfl⟩, rfl, ha⟩)
    refine ⟨h1, fun s => (h2 s).trans ?_, h3, h4⟩
    rw [howed]
    rcases eq_or_ne r s with rfl | hne
    · simp
    · simp [hne, hne.symm]

/-- What is left to show of a section of the main thread that stops nothing and logs nothing. -/
theorem Deferrals.quiet (h : Deferrals a [x] (x ::ₘ R)) (hx : x.onMain = true)
    (ha : (b.nativeMode, b.deferredTransferServers, b.receivingTransfers, b.queue, b.log) =
      (a.nativeMode, a.deferredTransferServers, a.receivingTransfers, a.queue, a.log))
    (hf : x ≠ .flush) (hnew : ∀ y ∈ new, ∀ s, y ≠ .forget s ∧ ∀ modern, y ≠ .originalStop s modern) :
    Deferrals b new (new + R) := by
  simp only [Prod.mk.injEq] at ha
  obtain ⟨h1, h2, h3, h4, h5⟩ := ha
  refine ⟨h1.trans h.native, fun s hs => ?_, fun s modern hs => absurd rfl ((hnew _ hs s).2 modern),
    h2 ▸ h.nodup, fun s => by rw [h2, h5]; exact h.owed s, fun hd => ?_, h5 ▸ h.rightly⟩
  · rcases hs with hs | ⟨modern, hs⟩
    · exact absurd rfl (hnew _ hs s).1
    · exact absurd rfl ((hnew _ hs s).2 modern)
  · rcases h.due (h2 ▸ hd) with h0 | hl | hq | hm
    · exact .inl (h3 ▸ h0)
    · rcases Multiset.mem_cons.mp hl with rfl | hl
      · cases hx
      · exact .inr (.inl (Multiset.mem_add.mpr (.inr hl)))
    · exact .inr (.inr (.inl (h4 ▸ hq)))
    · exact absurd (List.mem_singleton.mp hm).symm hf

/-- **Every section of the main thread keeps the deferrals**, if the mode stays modern. -/
theorem Deferrals.onMain (h : Deferrals a [x] (x ::ₘ R)) (hacc : Accounts a (x ::ₘ R))
    (hx : x.onMain = true) (hG : a.staysModern x = true) (hs : sec x ch a = some (b, new)) :
    Deferrals b new (new + R) := by
  have hnative := h.native
  have hlater : .flushLater ∈ x ::ₘ R → (.flushLater : Section) ∈ R := fun hm => by
    rcases Multiset.mem_cons.mp hm with rfl | hm
    · cases hx
    · exact hm
  cases x with
  | block =>
    obtain ⟨k, rest, hq, rfl, rfl⟩ := block_cases hs
    refine ⟨hnative, fun s hs => ?_, fun s modern hs => ?_, h.nodup, h.owed, fun hd => ?_, h.rightly⟩
    · cases k <;> simp [Block.sec] at hs
    · cases k <;> simp [Block.sec] at hs
    · rcases h.due hd with h0 | hl | hf | hf
      · exact .inl h0
      · exact .inr (.inl (Multiset.mem_add.mpr (.inr (hlater hl))))
      · rw [hq] at hf
        rcases List.mem_cons.mp hf with rfl | hf
        · exact .inr (.inr (.inr (List.mem_singleton_self _)))
        · exact .inr (.inr (.inl hf))
      · simp at hf
  | transition =>
    have hs : a.transition ch.ups = (b, new) := Option.some.inj hs
    have hG : a.requestedMode ≠ some true ∨ a.activeTransfers ≠ 0 := by
      simpa [Shared.staysModern] using hG
    obtain ⟨hb, rfl⟩ : (b.nativeMode, b.deferredTransferServers, b.receivingTransfers, b.queue, b.log) =
        (a.nativeMode, a.deferredTransferServers, a.receivingTransfers, a.queue, a.log) ∧ new = [] := by
      rw [show b = (a.transition ch.ups).1 by rw [hs], show new = (a.transition ch.ups).2 by rw [hs]]
      rcases a.transition_cases ch.ups with ⟨-, he⟩ | ⟨next, hr, h0, ⟨-, he⟩ | ⟨hn, -⟩⟩
      · rw [he]
        exact ⟨rfl, rfl⟩
      · rw [he]
        exact ⟨rfl, rfl⟩
      · obtain rfl : next = true := by simpa [hnative] using hn.symm
        exact absurd hr (hG.resolve_right (not_not.mpr h0))
    exact h.quiet rfl hb (by simp) (by simp)
  | flush =>
    obtain ⟨rfl, rfl⟩ := Prod.mk.inj (Option.some.inj hs)
    by_cases hr : a.receivingTransfers = 0
    · have hf : a.flush = a.deferredTransferServers.foldl Shared.carryOut
          { a with deferredTransferServers := [] } := if_neg (not_not.mpr hr)
      obtain ⟨h1, h2, h3, h4⟩ := deferrals_carryOut a.deferredTransferServers
        { a with deferredTransferServers := [] } h.nodup
        (fun s => hacc.under (Nat.le_zero.mp (hr ▸ hacc.leased_le s))) (fun s hd => (h.owed s).mp hd)
        h.rightly
      rw [hf]
      refine ⟨h3.trans hnative, by simp, by simp, by rw [h4]; exact List.nodup_nil, fun s => ?_,
        fun hd => absurd h4 hd, h1⟩
      rw [h2, h4]
      have howed := h.owed s
      by_cases hd : s ∈ a.deferredTransferServers
      · simp [hd]
      · simp [hd, Bool.eq_false_of_not_eq_true (mt howed.mpr hd)]
    · have hf : a.flush = a := if_pos hr
      rw [hf]
      exact ⟨hnative, by simp, by simp, h.nodup, h.owed, fun _ => .inl (Nat.pos_of_ne_zero hr),
        h.rightly⟩
  | startServer s =>
    rcases startServer_cases hs with ⟨hmode, -, -⟩ | ⟨-, rfl, rfl⟩ | ⟨-, rfl, rfl⟩
    · rw [hnative] at hmode
      cases hmode
    · exact h.quiet rfl rfl (by simp) (by simp)
    · exact h.quiet rfl rfl (by simp) (by simp)
  | resume s =>
    obtain ⟨rfl, rfl⟩ := Prod.mk.inj (Option.some.inj hs)
    refine ⟨hnative, by simp, by simp, h.nodup.filter _, fun r => ?_, fun hd => ?_, trivial, h.rightly⟩
    · show r ∈ a.deferredTransferServers.filter (· ≠ s) ↔
        (decide (s ≠ r) && Adapter.owed r a.log) = true
      rw [List.mem_filter, h.owed r]
      simp [and_comm, ne_comm]
    · have hd' : a.deferredTransferServers ≠ [] := fun he => hd (by simp [Shared.resume, he])
      rcases h.due hd' with h0 | hl | hq | hm
      · exact .inl h0
      · exact .inr (.inl (Multiset.mem_add.mpr (.inr (hlater hl))))
      · exact .inr (.inr (.inl hq))
      · simp at hm
  | originalStart s =>
    obtain ⟨rfl, rfl⟩ := Prod.mk.inj (Option.some.inj hs)
    exact h.quiet rfl rfl (by simp) (by simp)
  | stopServer s =>
    obtain ⟨rfl, rfl⟩ := Prod.mk.inj (Option.some.inj hs)
    have hne : (a.retire s).nativeMode = false := hnative
    exact h.quiet rfl rfl (by simp) (by simp [hne])
  | deferStop s =>
    rcases deferStop_cases hs with ⟨h0, rfl, rfl⟩ | ⟨h0, rfl, rfl⟩
    · refine ⟨hnative, fun r hr => ?_, by simp, h.nodup, h.owed, fun hd => ?_, h.rightly⟩
      · obtain rfl : r = s := by simpa using hr
        exact h0
      · rcases h.due hd with h0 | hl | hq | hm
        · exact .inl h0
        · exact .inr (.inl (Multiset.mem_add.mpr (.inr (hlater hl))))
        · exact .inr (.inr (.inl hq))
        · simp at hm
    · refine ⟨hnative, by simp, by simp, h.nodup.insert, fun r => ?_, fun _ => .inl ?_, trivial,
        h.rightly⟩
      · show r ∈ a.deferredTransferServers.insert s ↔ (decide (s = r) || Adapter.owed r a.log) = true
        rw [List.mem_insert_iff, h.owed r, Bool.or_eq_true, decide_eq_true_eq, eq_comm]
      · exact lt_of_lt_of_le (Nat.pos_of_ne_zero h0) (hacc.leased_le s)
  | forget s =>
    obtain ⟨rfl, rfl⟩ := Prod.mk.inj (Option.some.inj hs)
    have h0 := h.free s (.inl (List.mem_singleton_self _))
    refine ⟨hnative, fun r hr => ?_, fun r modern hr => ?_, h.nodup, h.owed, fun hd => ?_, h.rightly⟩
    · obtain rfl : r = s := by simpa using hr
      exact h0
    · obtain rfl : r = s := (Section.originalStop.inj (List.mem_singleton.mp hr)).1
      exact Finset.notMem_erase r a.transferServers
    · rcases h.due hd with h0 | hl | hq | hm
      · exact .inl h0
      · exact .inr (.inl (Multiset.mem_add.mpr (.inr (hlater hl))))
      · exact .inr (.inr (.inl hq))
      · simp at hm
  | originalStop s modern =>
    obtain ⟨rfl, rfl⟩ := Prod.mk.inj (Option.some.inj hs)
    have h0 := h.free s (.inr ⟨modern, List.mem_singleton_self _⟩)
    have hnew : ∀ y ∈ (if modern then [.disown (.server s)] else [] : List Section),
        ∀ r, y ≠ .forget r ∧ ∀ m, y ≠ .originalStop r m := by
      cases modern <;> simp
    refine ⟨hnative, fun r hr => ?_, fun r m hr => absurd rfl ((hnew _ hr r).2 m), h.nodup, h.owed,
      fun hd => ?_, hacc.under h0, h.rightly⟩
    · rcases hr with hr | ⟨m, hr⟩
      · exact absurd rfl (hnew _ hr r).1
      · exact absurd rfl ((hnew _ hr r).2 m)
    · rcases h.due hd with h0 | hl | hq | hm
      · exact .inl h0
      · exact .inr (.inl (Multiset.mem_add.mpr (.inr (hlater hl))))
      · exact .inr (.inr (.inl hq))
      · simp at hm
  | _ => cases hx

end Deferrals

/-! ### Every run in modern mode -/

/-- The mode stays modern, and no lease lists a receiver between the two sections of its stop. -/
def Shared.undisturbedStops (a : Shared) (m : List Section) (x : Section) : Bool :=
  a.staysModern x && a.sparesStopped m x

structure Deferring (a : Shared) (m : List Section) (P : Multiset Section) : Prop where
  apart : Apart m P
  kept : Kept a (m + P)
  deferrals : Deferrals a m (m + P)

section Runs

variable {n : ℕ} {ls : List (Threads.Label Choice Call)} {t t' : Threads Shared Section}

theorem Deferring.step {l : Threads.Label Choice Call}
    (hs : code.Step (fun a m x _ => a.undisturbedStops m x = true) t l t')
    (h : Deferring t.shared t.main t.pending) : Deferring t'.shared t'.main t'.pending := by
  refine hs.invariant ?_ ?_ ?_ ?_ h
  · intro a P c ⟨hA, hK, hD⟩
    have hbody : ∀ y ∈ c.body, ∀ s, y ≠ .forget s ∧ ∀ modern, y ≠ .originalStop s modern := by
      intro y hy
      have := c.body_entry y hy
      cases y <;> first | cases this; done | simp
    refine ⟨⟨hA.others, c.body_alone⟩, (zero_add P ▸ hK : Kept a P).call c, hD.native, fun s hs => ?_,
      fun s modern hs => absurd rfl ((hbody _ hs s).2 modern), hD.nodup, hD.owed, fun hd => ?_,
      hD.rightly⟩
    · rcases hs with hs | ⟨modern, hs⟩
      · exact absurd rfl (hbody _ hs s).1
      · exact absurd rfl ((hbody _ hs s).2 modern)
    · rcases hD.due hd with h0 | hl | hq | hm
      · exact .inl h0
      · exact .inr (.inl (Multiset.mem_add.mpr (.inr (by simpa using hl))))
      · exact .inr (.inr (.inl hq))
      · cases hm
  · intro a m P c hc ⟨hA, hK, hD⟩
    have hall : (m : Multiset Section) + (code.body c + P) = code.body c + (m + P) := add_left_comm ..
    refine ⟨hA.call hc, hall ▸ hK.call c, hD.native, hD.free, hD.forgotten, hD.nodup, hD.owed,
      fun hd => ?_, hD.rightly⟩
    rw [hall]
    exact (hD.due hd).imp id fun h => h.imp (fun hl => Multiset.mem_add.mpr (.inr hl)) id
  · intro a x rest P ch b new ⟨hA, hK, hD⟩ hG hs
    obtain ⟨hG1, hG2⟩ := Bool.and_eq_true_iff.mp hG
    have hall : ((x :: rest : List Section) : Multiset Section) + P = x ::ₘ (rest + P) := by
      rw [← Multiset.cons_coe, Multiset.cons_add]
    have hall' : ((new ++ rest : List Section) : Multiset Section) + P = new + (rest + P) := by
      rw [← Multiset.coe_add, add_assoc]
    rw [hall] at hK hD
    refine ⟨hA.mainRun hs, hall' ▸ hK.sec hs, ?_⟩
    rw [hall']
    cases hx : x.onMain with
    | false =>
      exact hD.aside hx hs hG2 fun y hy => mem_mainRun_iff hx hs hy
    | true =>
      obtain ⟨-, rfl⟩ := List.cons_eq_cons.mp (hA.alone x List.mem_cons_self hx)
      rw [List.append_nil]
      exact hD.onMain hK.accounts hx hG1 hs
  · intro a m x P ch b new ⟨hA, hK, hD⟩ hG hs
    obtain ⟨-, hG2⟩ := Bool.and_eq_true_iff.mp hG
    have hx := hA.others x (Multiset.mem_cons_self _ _)
    have hall : (m : Multiset Section) + (x ::ₘ P) = x ::ₘ (m + P) := Multiset.add_cons ..
    have hall' : (m : Multiset Section) + (new + P) = new + (m + P) := add_left_comm ..
    rw [hall] at hK hD
    refine ⟨hA.run hs, hall' ▸ hK.sec hs, ?_⟩
    rw [hall']
    exact hD.aside hx hs hG2 fun _ _ => Iff.rfl

theorem deferring_run
    (run : Path (code.Step fun a m x _ => a.undisturbedStops m x = true) (install n) ls t) :
    Deferring t.shared t.main t.pending := by
  refine run.invariant (I := fun t => Deferring t.shared t.main t.pending)
    (fun t l t' h hs => h.step hs) ⟨⟨?_, ?_⟩, kept_install n, ?_⟩
  · simp [install, Threads.pending]
  · simp [install]
  · constructor <;> simp [install, owed]

end Runs

/-! ### A stop that nobody holds up -/

section Log

variable {a b : Shared} {x : Section} {ch : Choice} {new : List Section}

theorem log_foldl {f : Shared → ℕ → Shared} (hf : ∀ a s, a.log <:+ (f a s).log) (l : List ℕ)
    (a : Shared) : a.log <:+ (l.foldl f a).log := by
  induction l generalizing a with
  | nil => exact List.suffix_refl _
  | cons s l ih => exact (hf a s).trans (ih (f a s))

theorem log_stopServer (a : Shared) (s : ℕ) : a.log <:+ (a.stopServer s).log := by
  unfold Shared.stopServer
  dsimp only
  split
  · exact List.suffix_cons _ _
  · split <;> exact List.suffix_cons _ _

theorem log_startServer (ups : ℕ → Bool) (a : Shared) (s : ℕ) :
    a.log <:+ (a.startServer ups s).log := by
  unfold Shared.startServer
  dsimp only
  split
  · exact List.suffix_refl _
  · split
    · exact List.suffix_cons _ _
    · exact List.suffix_refl _

theorem log_switch (a : Shared) (next : Bool) (ups : ℕ → Bool) : a.log <:+ (a.switch next ups).log :=
  let b := a.activeServers.foldl Shared.stopServer a
  (log_foldl log_stopServer a.activeServers a).trans
    (log_foldl (log_startServer ups) a.activeServers { b with nativeMode := next, era := b.era + 1 })

theorem log_transition (ups : ℕ → Bool) : a.log <:+ (a.transition ups).1.log := by
  rcases a.transition_cases ups with ⟨-, he⟩ | ⟨next, -, -, ⟨-, he⟩ | ⟨-, he⟩⟩
  · rw [he]
  · rw [he]
  · rw [he]
    exact log_switch { a with modeTransitionQueued := false, requestedMode := none } _ ups

/-- Every section keeps the history. -/
theorem sec_log (hs : sec x ch a = some (b, new)) : a.log <:+ b.log := by
  cases hx : x.onMain with
  | false =>
    obtain ⟨l, hl, -⟩ := (sec_aside hx hs).log
    exact ⟨l, hl.symm⟩
  | true =>
    cases x with
    | block =>
      obtain ⟨k, rest, -, rfl, -⟩ := block_cases hs
      exact List.suffix_refl _
    | startServer =>
      rcases startServer_cases hs with ⟨-, rfl, -⟩ | ⟨-, rfl, -⟩ | ⟨-, rfl, -⟩ <;>
        exact List.suffix_refl _
    | deferStop =>
      rcases deferStop_cases hs with ⟨-, rfl, -⟩ | ⟨-, rfl, -⟩
      · exact List.suffix_refl _
      · exact List.suffix_cons _ _
    | originalStart | stopServer | forget =>
      obtain ⟨rfl, -⟩ := Prod.mk.inj (Option.some.inj hs)
      exact List.suffix_refl _
    | resume | originalStop =>
      obtain ⟨rfl, -⟩ := Prod.mk.inj (Option.some.inj hs)
      exact List.suffix_cons _ _
    | transition =>
      obtain rfl : (a.transition ch.ups).1 = b := congrArg Prod.fst (Option.some.inj hs)
      exact log_transition ch.ups
    | flush =>
      obtain ⟨rfl, -⟩ := Prod.mk.inj (Option.some.inj hs)
      unfold Shared.flush
      split
      · exact List.suffix_refl _
      · exact log_foldl (fun a s => ⟨[_, _], rfl⟩) a.deferredTransferServers
          { a with deferredTransferServers := [] }
    | _ => cases hx

end Log

section Stops

variable {n : ℕ} {ls : List (Threads.Label Choice Call)} {t t' : Threads Shared Section} {s : ℕ}

/-- The main thread has found the receiver free of leases: it stops it before it does anything else. -/
structure Stopping (s : ℕ) (past : List Event) (t : Threads Shared Section) : Prop where
  log : past <:+ t.shared.log
  stopped : t.main = [.forget s] ∨ t.main = [.originalStop s true] ∨
    ∃ later, t.shared.log = later ++ past ∧ .originalStop s [] ∈ later

theorem Stopping.step {past : List Event} {l : Threads.Label Choice Call} (h : Stopping s past t)
    (hd : Deferring t.shared t.main t.pending)
    (hs : code.Step (fun a m x _ => a.undisturbedStops m x = true) t l t') : Stopping s past t' := by
  have hlog : t.shared.log <:+ t'.shared.log := by
    rcases hs.shared with he | ⟨x, -, ch, new, hsec⟩
    · rw [he]
    · exact sec_log hsec
  refine ⟨h.log.trans hlog, ?_⟩
  have hmain := hs.main
  rcases h.stopped with hm | hm | ⟨later, hl, hmem⟩
  · rcases hmain with he | he | ⟨x, rest, ch, new, he, hsec, hm'⟩
    · exact .inl (he.trans hm)
    · simp [hm] at he
    · obtain ⟨rfl, rfl⟩ := List.cons_eq_cons.mp (hm.symm.trans he)
      obtain ⟨-, rfl⟩ := Prod.mk.inj (Option.some.inj hsec)
      exact .inr (.inl hm')
  · rcases hmain with he | he | ⟨x, rest, ch, new, he, hsec, hm'⟩
    · exact .inr (.inl (he.trans hm))
    · simp [hm] at he
    · obtain ⟨rfl, rfl⟩ := List.cons_eq_cons.mp (hm.symm.trans he)
      obtain ⟨hb, -⟩ := Prod.mk.inj (Option.some.inj hsec)
      obtain ⟨l, hl⟩ := h.log
      have hu := hd.kept.accounts.under
        (hd.deferrals.free s (.inr ⟨true, hm ▸ List.mem_singleton_self _⟩))
      refine .inr (.inr ⟨.originalStop s [] :: l, ?_, List.mem_cons_self⟩)
      rw [← hb, List.cons_append, hl]
      show Event.originalStop s (t.shared.under s) :: t.shared.log = _
      rw [hu]
  · obtain ⟨l, hl'⟩ := hlog
    exact .inr (.inr ⟨l ++ later, by rw [← hl', hl, List.append_assoc], List.mem_append_right l hmem⟩)

theorem stopping_run (h : Deferring t.shared t.main t.pending) {c : Choice} {u : Threads Shared Section}
    (hm : t.main = [.deferStop s]) (h0 : ∀ l < t.shared.nextLease, (t.shared.leases l).lists s = false)
    (hu : code.step t (.mainRun c) = some u)
    (run : Path (code.Step fun a m x _ => a.undisturbedStops m x = true) u ls t') :
    Stopping s t.shared.log t' := by
  have hz : t.shared.leasedTransferServers s = 0 := by
    rw [h.kept.accounts.leased s]
    exact List.countP_eq_zero.mpr fun l hl hs => by simp [h0 l (List.mem_range.mp hl)] at hs
  have hfree : code.Step (fun a m x _ => a.undisturbedStops m x = true) t (.mainRun c) u := by
    refine ⟨hu, fun i rest he => ?_⟩
    obtain ⟨rfl, -⟩ := List.cons_eq_cons.mp (hm.symm.trans he)
    rfl
  have hstart : Stopping s t.shared.log u := by
    have hmain := hfree.main
    simp only [Code.step, hm] at hu
    obtain ⟨⟨b, new⟩, hsec, rfl⟩ := Option.map_eq_some_iff.mp hu
    have hsec : sec (.deferStop s) c t.shared = some (b, new) := hsec
    simp only [sec, hz, if_true] at hsec
    obtain ⟨rfl, rfl⟩ := Prod.mk.inj (Option.some.inj hsec)
    exact ⟨List.suffix_refl _, .inl rfl⟩
  have hrun := run.invariant (I := fun u => Deferring u.shared u.main u.pending ∧
      Stopping s t.shared.log u) (fun u l u' h hs => ⟨h.1.step hs, h.2.step h.1 hs⟩)
    ⟨h.step hfree, hstart⟩
  exact hrun.2

/-- A file comes in between the two sections of a stop. -/
def askedBetween : List (Threads.Label Choice Call) :=
  List.flatten [
    [.mainCall (.startServer 0)], List.replicate 3 (.mainRun {}), [.mainCall (.stopServer 0)],
    List.replicate 2 (.mainRun {}), [.call 0 (.receivedRequest 7 "/Ask")],
    List.replicate 6 (.run 0 {}), List.replicate 2 (.mainRun {})]

theorem askedBetween_runs :
    (exec (code.stepIf fun a _ x _ => a.staysModern x) (install 1) askedBetween).isSome := by
  decide

/-- The stop goes on though the receiver has been taken. -/
theorem stopped_under_transfer :
    ¬ ∀ n ls t, Path (code.Step fun a _ x _ => a.staysModern x = true) (install n) ls t →
      ∀ s under, .originalStop s under ∈ t.shared.log → under = [] := by
  intro h
  have hu := h 1 askedBetween _
    ((exec_path_get askedBetween_runs).mono_mem fun _ _ _ _ => Code.Step.of_stepIf) 0 [0]
    (by decide)
  cases hu

/-- **A receiver in use is not stopped under its transfer, where no lease comes between the sections of
a stop.**  A lease that does takes a receiver that is stopped under it. -/
theorem receiver_in_use
    (run : Path (code.Step fun a m x _ => a.undisturbedStops m x = true) (install n) ls t) :
    (∀ s under, .originalStop s under ∈ t.shared.log → under = []) ∧
    (∀ later s past, t.shared.log = later ++ .carried s :: past →
      owed s past = true ∧ ∃ before, past = .originalStop s [] :: before) ∧
    (t.shared.receivingTransfers = 0 → .flushLater ∉ t.all → .flush ∉ t.shared.queue →
      .flush ∉ t.main → ∀ s, owed s t.shared.log = false) ∧
    (∀ s, t.main = [.deferStop s] → (∀ l < t.shared.nextLease, (t.shared.leases l).lists s = false) →
      ∀ c u ls' t', code.step t (.mainRun c) = some u →
      Path (code.Step fun a m x _ => a.undisturbedStops m x = true) u ls' t' → t'.main = [] →
        ∃ later, t'.shared.log = later ++ t.shared.log ∧ .originalStop s [] ∈ later) ∧
    ∀ (a : Shared) s l, s ∈ a.transferServers → l < a.nextLease →
      l ∈ ((a.activate true false l).forget s).under s := by
  have h := deferring_run run
  have hR := along_iff.mp h.deferrals.rightly
  refine ⟨fun s under hm => ?_, fun later s past he => hR later _ past he,
    fun h0 hl hq hm s => ?_, fun s hm h0 c u ls' t' hu run' hm' => ?_, fun a s l hs hl => ?_⟩
  · obtain ⟨later, past, he⟩ := List.append_of_mem hm
    exact hR later _ past he
  · by_contra ho
    have hd := (h.deferrals.owed s).mpr (by simpa using ho)
    rcases h.deferrals.due (List.ne_nil_of_mem hd) with hr | hf | hf | hf
    · omega
    · exact hl hf
    · exact hq hf
    · exact hm hf
  · have hst := stopping_run h hm h0 hu run'
    rcases hst.stopped with he | he | hdone
    · simp [hm'] at he
    · simp [hm'] at he
    · exact hdone
  · refine List.mem_filter.mpr ⟨List.mem_range.mpr hl, ?_⟩
    simp [Shared.forget, Shared.activate, Shared.setLease, Lease.lists, hs]

/-- A receiver is stopped while a file comes in, and again when none does. -/
def stoppedTwice : List (Threads.Label Choice Call) :=
  List.flatten [
    [.mainCall (.startServer 0)], List.replicate 3 (.mainRun {}),
    [.call 0 (.receivedRequest 7 "/Ask")], List.replicate 6 (.run 0 {}),
    [.mainCall (.stopServer 0)], List.replicate 2 (.mainRun {}), [.call 0 (.receiveStop 7 false)],
    List.replicate 9 (.run 0 {}), [.mainCall .mainQueue], List.replicate 2 (.mainRun {}),
    [.mainCall (.stopServer 0)], List.replicate 1 (.mainRun {})]

theorem stoppedTwice_runs :
    (exec (code.stepIf fun a m x _ => a.undisturbedStops m x) (install 1) stoppedTwice).isSome := by
  decide

def stoppedTwiceEnd : Threads Shared Section :=
  (exec (code.stepIf fun a m x _ => a.undisturbedStops m x) (install 1) stoppedTwice).get
    stoppedTwice_runs

theorem stoppedTwice_stops : (code.step stoppedTwiceEnd (.mainRun {})).isSome := by decide

theorem stoppedTwice_goes_on :
    (exec (code.stepIf fun a m x _ => a.undisturbedStops m x)
      ((code.step stoppedTwiceEnd (.mainRun {})).get stoppedTwice_stops)
      (List.replicate 3 (.mainRun {}))).isSome := by
  decide

theorem receiver_in_use_stoppedTwice :
    owed 0 stoppedTwiceEnd.shared.log = false ∧
    (∃ later, ((exec (code.stepIf fun a m x _ => a.undisturbedStops m x)
      ((code.step stoppedTwiceEnd (.mainRun {})).get stoppedTwice_stops)
      (List.replicate 3 (.mainRun {}))).get stoppedTwice_goes_on).shared.log =
        later ++ stoppedTwiceEnd.shared.log ∧ .originalStop 0 [] ∈ later) ∧
    0 ∈ ((({ transferServers := {5}, nextLease := 1 } : Shared).activate true false 0).forget 5).under
      5 := by
  have run : Path (code.Step fun a m x _ => a.undisturbedStops m x = true) (install 1) stoppedTwice
      stoppedTwiceEnd :=
    (exec_path_get stoppedTwice_runs).mono_mem fun _ _ _ _ => Code.Step.of_stepIf
  obtain ⟨-, -, h3, h4, h5⟩ := receiver_in_use run
  exact ⟨h3 (by decide) (by decide) (by decide) (by decide) 0,
    h4 0 (by decide) (by decide) {} _ _ _ (Option.some_get stoppedTwice_stops).symm
      ((exec_path_get stoppedTwice_goes_on).mono_mem fun _ _ _ _ => Code.Step.of_stepIf)
      (by decide),
    h5 _ 5 0 (by decide) (by decide)⟩

end Stops

end AquaTransport.Adapter
