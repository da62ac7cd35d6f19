import AquaTransport.AirDrop.Custody

/-!
# AquaTransport.AirDrop.Modes — the mode waits for transfers

`Modes`: who has read the mode and still relies on it, and who will look at a request that is waiting.
A switch needs that no transfer is counted; with the accounts that means that nobody relies on the mode.
-/

namespace AquaTransport.Adapter

/-- What a mode request, a transition and the count of transfers have to do with. -/
def Shared.modes (a : Shared) : Bool × Option Bool × Bool × ℕ × Option Bool × List Block :=
  (a.nativeMode, a.requestedMode, a.modeTransitionQueued, a.activeTransfers, a.written, a.queue)

namespace Section

/-- The sections that read or write it. -/
def modal : Section → Bool
  | .countIn _ _ _ | .uncount | .check | .dispatch | .request _ | .expire => true
  | .block | .transition | .flushLater => true
  | _ => false

/-- The mode that the thread begins a transfer in. -/
def mode : Section → Option Bool
  | .own _ _ _ | .raise _ _ _ => some false
  | .activate _ _ native _ => some native
  | _ => none

theorem counted_of_mode {x : Section} {v : Bool} (hx : x.mode = some v) : x.counted = true := by
  cases x <;> first | rfl | cases hx

end Section

section Unmoved

variable {a b : Shared} {x : Section} {ch : Choice} {new : List Section}

theorem modes_stopServer (a : Shared) (s : ℕ) : (a.stopServer s).modes = a.modes := by
  unfold Shared.stopServer
  dsimp only
  split
  · rfl
  · split <;> rfl

theorem modes_startServer (ups : ℕ → Bool) (a : Shared) (s : ℕ) :
    (a.startServer ups s).modes = a.modes := by
  unfold Shared.startServer
  dsimp only
  split
  · rfl
  · split <;> rfl

theorem modes_foldl {f : Shared → ℕ → Shared} (hf : ∀ a s, (f a s).modes = a.modes) (l : List ℕ)
    (a : Shared) : (l.foldl f a).modes = a.modes := by
  induction l generalizing a with
  | nil => rfl
  | cons s l ih => exact (ih (f a s)).trans (hf a s)

theorem modes_flush : a.flush.modes = a.modes := by
  unfold Shared.flush
  split
  · rfl
  · exact (modes_foldl (f := Shared.carryOut) (fun _ _ => rfl) _ _).trans rfl

theorem modes_activate {incoming native : Bool} {l : ℕ} :
    (a.activate incoming native l).modes = a.modes := by
  unfold Shared.activate
  dsimp only
  split <;> rfl

/-- Only a switch changes the mode. -/
theorem modes_switch (next : Bool) (ups : ℕ → Bool) :
    (a.switch next ups).modes = ({ a with nativeMode := next } : Shared).modes := by
  have hstop := modes_foldl modes_stopServer a.activeServers a
  simp only [Shared.modes, Prod.mk.injEq] at hstop
  unfold Shared.switch
  dsimp only
  rw [modes_foldl (modes_startServer ups)]
  simp only [Shared.modes, hstop]

/-- The live leases of two states are the same, up to one that a section begins. -/
theorem leases_activate {incoming native : Bool} {l k : ℕ}
    (hk : ((a.activate incoming native l).leases k).active = true) :
    (a.activate incoming native l).leases k = a.leases k ∨
      ((a.activate incoming native l).leases k).native = native := by
  rcases eq_or_ne k l with rfl | hne
  · refine .inr ?_
    unfold Shared.activate
    dsimp only
    split <;> simp [Shared.setLease]
  · refine .inl ?_
    unfold Shared.activate
    dsimp only
    split <;> simp [Shared.setLease, hne]

/-- **A section of another kind leaves the modes alone**, queues no transition, and a lease that it
begins has the mode that its thread has read. -/
theorem sec_unmoved (hx : x.modal = false) (hs : sec x ch a = some (b, new)) :
    b.modes = a.modes ∧
    (∀ y ∈ new, y ≠ .dispatch ∧ y ≠ .transition ∧ ∀ v, y.mode = some v → x.mode = some v) ∧
    ∀ l, (b.leases l).active = true →
      ((a.leases l).active = true ∧ (a.leases l).native = (b.leases l).native) ∨
      x.mode = some (b.leases l).native := by
  have hkeep : b.leases = a.leases → ∀ l, (b.leases l).active = true →
      ((a.leases l).active = true ∧ (a.leases l).native = (b.leases l).native) ∨
      x.mode = some (b.leases l).native := fun he l hl => .inl (by rw [he] at hl ⊢; exact ⟨hl, rfl⟩)
  cases x with
  | countIn | uncount | check | dispatch | request | expire | block | transition | flushLater =>
    cases hx
  | beginIn op incoming =>
    obtain ⟨-, ⟨-, rfl, rfl⟩ | ⟨-, rfl, rfl⟩⟩ := beginIn_cases hs
    · exact ⟨rfl, by simp, hkeep rfl⟩
    · exact ⟨rfl, by simp [Section.mode], hkeep rfl⟩
  | own | associate | leave | disown | beat | resume | originalStart | forget =>
    obtain ⟨rfl, rfl⟩ := Prod.mk.inj (Option.some.inj hs)
    exact ⟨rfl, by simp [Section.mode], hkeep rfl⟩
  | raise op incoming l =>
    obtain ⟨rfl, rfl⟩ := Prod.mk.inj (Option.some.inj hs)
    refine ⟨rfl, fun y hy => ?_, hkeep rfl⟩
    split at hy
    · rw [List.mem_singleton.mp hy]
      simp [Section.mode]
    · rcases (by simpa using hy : y = _ ∨ y = _ ∨ y = _ ∨ y = _) with rfl | rfl | rfl | rfl <;>
        simp [Section.mode]
  | activate op incoming native l =>
    obtain ⟨rfl, rfl⟩ := Prod.mk.inj (Option.some.inj hs)
    refine ⟨modes_activate, by simp [Section.mode], fun k hk => ?_⟩
    rcases leases_activate hk with he | he
    · exact .inl ⟨he ▸ hk, by rw [he]⟩
    · exact .inr (by rw [he]; rfl)
  | endIn op =>
    obtain ⟨-, ⟨-, rfl, rfl⟩ | ⟨l, -, rfl, rfl⟩⟩ := endIn_cases hs
    · exact ⟨rfl, by simp, hkeep rfl⟩
    · exact ⟨rfl, by simp [Section.mode], hkeep rfl⟩
  | dissociate op l =>
    obtain ⟨rfl, rfl⟩ := Prod.mk.inj (Option.some.inj hs)
    exact ⟨rfl, by simp [Section.mode], hkeep rfl⟩
  | dealloc op =>
    obtain ⟨-, ⟨-, rfl, rfl⟩ | ⟨l, -, rfl, rfl⟩⟩ := dealloc_cases hs
    · exact ⟨rfl, by simp, hkeep rfl⟩
    · exact ⟨rfl, by simp [Section.mode], hkeep rfl⟩
  | finish l =>
    rcases finish_cases hs with ⟨-, rfl, rfl⟩ | ⟨-, rfl, rfl⟩
    · exact ⟨rfl, by simp, hkeep rfl⟩
    · refine ⟨rfl, fun y hy => ?_, fun k hk => ?_⟩
      · rcases mem_finish hy with ⟨rfl, -⟩ | rfl | rfl <;> simp [Section.mode]
      · rcases eq_or_ne k l with rfl | hne
        · simp [Shared.finish, Shared.setLease, Lease.finished] at hk
        · have he : (a.finish l).leases k = a.leases k := Function.update_of_ne hne ..
          exact .inl ⟨he ▸ hk, by rw [he]⟩
  | unlist l =>
    obtain ⟨rfl, rfl⟩ := Prod.mk.inj (Option.some.inj hs)
    refine ⟨rfl, by simp [Section.mode], fun k hk => .inl ?_⟩
    rcases eq_or_ne k l with rfl | hne
    · simpa [Shared.unlist, Shared.setLease, Lease.unlisted] using hk
    · have he : (a.unlist l).leases k = a.leases k := Function.update_of_ne hne ..
      exact ⟨he ▸ hk, by rw [he]⟩
  | flush =>
    obtain ⟨rfl, rfl⟩ := Prod.mk.inj (Option.some.inj hs)
    exact ⟨modes_flush, by simp, hkeep (Prod.mk.inj undisturbed_flush.accounts).1⟩
  | startServer s =>
    rcases startServer_cases hs with ⟨-, rfl, rfl⟩ | ⟨-, rfl, rfl⟩ | ⟨-, rfl, rfl⟩
    · exact ⟨rfl, by simp [Section.mode], hkeep rfl⟩
    · exact ⟨rfl, by simp [Section.mode], hkeep rfl⟩
    · exact ⟨rfl, by simp, hkeep rfl⟩
  | stopServer s =>
    obtain ⟨rfl, rfl⟩ := Prod.mk.inj (Option.some.inj hs)
    refine ⟨rfl, fun y hy => ?_, hkeep rfl⟩
    rw [List.mem_singleton.mp hy]
    split <;> simp [Section.mode]
  | deferStop s =>
    rcases deferStop_cases hs with ⟨-, rfl, rfl⟩ | ⟨-, rfl, rfl⟩
    · exact ⟨rfl, by simp [Section.mode], hkeep rfl⟩
    · exact ⟨rfl, by simp, hkeep rfl⟩
  | originalStop s modern =>
    obtain ⟨rfl, rfl⟩ := Prod.mk.inj (Option.some.inj hs)
    refine ⟨rfl, fun y hy => ?_, hkeep rfl⟩
    split at hy
    · rw [List.mem_singleton.mp hy]
      simp [Section.mode]
    · cases hy

end Unmoved

/-- The mode, over the leases and what is still to run. -/
structure Modes (a : Shared) (P : Multiset Section) : Prop where
  one : a.queue.count .transition + P.count .dispatch + P.count .transition =
    if a.modeTransitionQueued then 1 else 0
  wake : a.requestedMode.isSome = true → a.activeTransfers = 0 →
    a.modeTransitionQueued = true ∨ .check ∈ P
  settled : ∀ v, a.written = some v → a.requestedMode = none → a.nativeMode = v
  last : ∀ v, a.requestedMode = some v → a.written = some v
  sees : ∀ x ∈ P, ∀ v, x.mode = some v → v = a.nativeMode
  live : ∀ l, (a.leases l).active = true → (a.leases l).native = a.nativeMode

section Modes

variable {a b : Shared} {x : Section} {ch : Choice} {new : List Section} {R P : Multiset Section}

/-- Without a transfer that is counted, nobody relies on the mode. -/
theorem Accounts.nobody (h : Accounts a P) (h0 : a.activeTransfers = 0) :
    (∀ l, (a.leases l).active = false) ∧ ∀ x ∈ P, x.mode = none := by
  have hactive := h.active
  refine ⟨fun l => ?_, fun x hx => ?_⟩
  · by_contra hl
    have hon : (a.leases l).active = true := by simpa using hl
    have hmem : l ∈ List.range a.nextLease := List.mem_range.mpr (h.lt_next fun he => by simp [he] at hon)
    have : 0 < a.tally Lease.active := List.countP_pos_iff.mpr ⟨l, hmem, hon⟩
    omega
  · cases hv : x.mode with
    | none => rfl
    | some v =>
      have : 0 < P.countP fun x => x.counted = true :=
        Multiset.countP_pos.mpr ⟨x, hx, Section.counted_of_mode hv⟩
      omega

/-- The sections of a thread go on, and no lease begins or ends. -/
theorem Modes.sees_carry {old : List Section} (h : Modes a (old + R))
    (hn : b.nativeMode = a.nativeMode)
    (hnew : ∀ y ∈ new, ∀ v, y.mode = some v → v = a.nativeMode) :
    ∀ y ∈ (new : Multiset Section) + R, ∀ v, y.mode = some v → v = b.nativeMode := by
  intro y hy v hv
  rw [hn]
  rcases Multiset.mem_add.mp hy with hy | hy
  · exact hnew y (Multiset.mem_coe.mp hy) v hv
  · exact h.sees y (Multiset.mem_add.mpr (.inr hy)) v hv

theorem Modes.unmoved (h : Modes a (x ::ₘ R)) (hx : x.modal = false)
    (hs : sec x ch a = some (b, new)) : Modes b (new + R) := by
  obtain ⟨hm, hnew, hlive⟩ := sec_unmoved hx hs
  simp only [Shared.modes, Prod.mk.injEq] at hm
  obtain ⟨h1, h2, h3, h4, h5, h6⟩ := hm
  have hsees := h.sees x (Multiset.mem_cons_self x R)
  refine ⟨?_, fun hr h0 => ?_, ?_, ?_, ?_, fun l hl => ?_⟩
  · have hone := h.one
    rw [Multiset.count_cons_of_ne (by rintro rfl; cases hx),
      Multiset.count_cons_of_ne (by rintro rfl; cases hx)] at hone
    rw [h6, h3, Multiset.count_add, Multiset.count_add, Multiset.coe_count, Multiset.coe_count,
      List.count_eq_zero.mpr fun hy => (hnew _ hy).1 rfl,
      List.count_eq_zero.mpr fun hy => (hnew _ hy).2.1 rfl, Nat.zero_add, Nat.zero_add]
    exact hone
  · rw [h3]
    refine (h.wake (h2 ▸ hr) (h4 ▸ h0)).imp id fun hc => ?_
    rcases Multiset.mem_cons.mp hc with rfl | hc
    · cases hx
    · exact Multiset.mem_add.mpr (.inr hc)
  · rw [h5, h2, h1]
    exact h.settled
  · rw [h2, h5]
    exact h.last
  · have h' : Modes a (([x] : List Section) + R) := h
    exact h'.sees_carry h1 fun y hy v hv => hsees v ((hnew y hy).2.2 v hv)
  · rw [h1]
    rcases hlive l hl with ⟨hon, he⟩ | hv
    · exact he ▸ h.live l hon
    · exact hsees _ hv

/-- A request, or an expiry. -/
theorem Modes.write {v : Bool} (h : Modes a (x ::ₘ R)) (h1 : x ≠ .dispatch) (h2 : x ≠ .transition)
    (hm : b.modes = (a.write v).modes) (hl : b.leases = a.leases) :
    Modes b ((([.check] : List Section) : Multiset Section) + R) := by
  simp only [Shared.modes, Prod.mk.injEq] at hm
  obtain ⟨e1, e2, e3, e4, e5, e6⟩ := hm
  have hr : b.requestedMode = some v := e2
  have h' : Modes a (([x] : List Section) + R) := h
  refine ⟨?_, fun _ _ => .inr (by simp), fun w _ hw => ?_, fun w hw => ?_,
    h'.sees_carry e1 (by simp [Section.mode]), fun l hon => ?_⟩
  · have hone := h.one
    rw [Multiset.count_cons_of_ne h1.symm, Multiset.count_cons_of_ne h2.symm] at hone
    have e3 : b.modeTransitionQueued = a.modeTransitionQueued := e3
    have e6 : b.queue = a.queue := e6
    rw [e6, e3]
    simpa using hone
  · rw [hr] at hw
    cases hw
  · exact e5.trans (hr.symm.trans hw)
  · rw [hl] at hon ⊢
    rw [e1]
    exact h.live l hon

/-- A transition's section takes the queued block's place. -/
theorem Modes.transition (c : Choice) (h : Modes a (.transition ::ₘ R))
    (hacc : Accounts a (.transition ::ₘ R)) :
    Modes (a.transition c.ups).1 ((a.transition c.ups).2 + R) := by
  have hone := h.one
  rw [Multiset.count_cons_self, Multiset.count_cons_of_ne (by simp)] at hone
  have hzero : a.queue.count .transition + R.count .dispatch + R.count .transition = 0 := by
    split at hone <;> omega
  have hsees : ∀ y ∈ R, ∀ v, y.mode = some v → v = a.nativeMode := fun y hy =>
    h.sees y (Multiset.mem_cons_of_mem hy)
  rcases a.transition_cases c.ups with ⟨hwait, he⟩ | ⟨next, hr, h0, hswitch⟩
  · rw [he]
    refine ⟨by simpa using hzero, fun hs h0 => ?_, h.settled, h.last, by simpa using hsees, h.live⟩
    have hs : a.requestedMode.isSome = true := hs
    rcases hwait with hr | hne
    · rw [hr] at hs
      cases hs
    · exact absurd h0 hne
  · have hlast := h.last next hr
    obtain ⟨hidle, hnone⟩ := hacc.nobody h0
    rcases hswitch with ⟨hn, he⟩ | ⟨hn, he⟩ <;> rw [he]
    · refine ⟨by simpa using hzero, fun hs => by simp at hs, fun v hv _ => ?_, by simp,
        by simpa using hsees, h.live⟩
      exact hn.trans (Option.some.inj (hlast.symm.trans hv))
    · have hm := modes_switch (a := { a with modeTransitionQueued := false, requestedMode := none })
        next c.ups
      have hl : (Shared.switch { a with modeTransitionQueued := false, requestedMode := none }
          next c.ups).leases = a.leases := by
        have := (undisturbed_switch
          { a with modeTransitionQueued := false, requestedMode := none } next c.ups).accounts
        exact (Prod.mk.inj this).1
      generalize Shared.switch { a with modeTransitionQueued := false, requestedMode := none }
        next c.ups = b at hm hl ⊢
      simp only [Shared.modes, Prod.mk.injEq] at hm
      obtain ⟨h1, h2, h3, h4, h5, h6⟩ := hm
      refine ⟨?_, fun hs => by simp [h2] at hs, fun v hv _ => ?_, by simp [h2],
        fun y hy v hv => ?_, fun l hon => ?_⟩
      · rw [h6, h3]
        simpa using hzero
      · rw [h1]
        exact Option.some.inj (hlast.symm.trans (h5 ▸ hv))
      · rcases Multiset.mem_add.mp hy with hy | hy
        · rw [List.mem_singleton.mp (Multiset.mem_coe.mp hy)] at hv
          cases hv
        · rw [hnone y (Multiset.mem_cons_of_mem hy)] at hv
          cases hv
      · rw [hl, hidle l] at hon
        cases hon

/-- **Every section of every thread keeps the modes.** -/
theorem Modes.sec (h : Modes a (x ::ₘ R)) (hacc : Accounts a (x ::ₘ R))
    (hs : sec x ch a = some (b, new)) : Modes b (new + R) := by
  cases hx : x.modal with
  | false => exact h.unmoved hx hs
  | true =>
    have h' : Modes a (([x] : List Section) + R) := h
    have hone := h.one
    cases x with
    | beginIn | own | raise | activate | associate | leave | endIn | dissociate | dealloc | finish
    | unlist | disown | beat | flush | startServer | resume | originalStart | stopServer | deferStop
    | forget | originalStop => cases hx
    | countIn op incoming l =>
      obtain ⟨rfl, rfl⟩ := Prod.mk.inj (Option.some.inj hs)
      refine ⟨?_, fun _ h0 => by simp at h0, h.settled, h.last,
        h'.sees_carry rfl fun y hy v hv => ?_, h.live⟩
      · cases hn : a.nativeMode <;> simpa [hn] using hone
      · rw [List.mem_singleton.mp hy] at hv
        cases hn : a.nativeMode <;> simpa [hn, Section.mode, eq_comm] using hv
    | uncount =>
      obtain ⟨rfl, rfl⟩ := Prod.mk.inj (Option.some.inj hs)
      exact ⟨by simpa using hone, fun _ _ => .inr (by simp), h.settled, h.last,
        h'.sees_carry rfl (by simp [Section.mode]), h.live⟩
    | check =>
      rcases check_cases hs with ⟨hq, rfl, rfl⟩ | ⟨hq, rfl, rfl⟩
      · refine ⟨by simpa using hone, fun hr h0 => .inl ?_, h.settled, h.last,
          h'.sees_carry rfl (by simp), h.live⟩
        obtain ⟨v, hv⟩ := Option.isSome_iff_exists.mp hr
        simpa [hv, h0] using hq
      · refine ⟨?_, fun _ _ => .inl rfl, h.settled, h.last,
          h'.sees_carry rfl (by simp [Section.mode]), h.live⟩
        have hzero : a.queue.count .transition + R.count .dispatch + R.count .transition = 0 := by
          simpa [hq] using hone
        show a.queue.count .transition + (([.dispatch] : List Section) + R : Multiset Section).count
          .dispatch + (([.dispatch] : List Section) + R : Multiset Section).count .transition = 1
        simp
        omega
    | dispatch =>
      obtain ⟨rfl, rfl⟩ := Prod.mk.inj (Option.some.inj hs)
      refine ⟨?_, fun hr h0 => (h.wake hr h0).imp id fun hc => by simpa using hc, h.settled, h.last,
        h'.sees_carry rfl (by simp), h.live⟩
      simp at hone ⊢
      omega
    | request native =>
      obtain ⟨rfl, rfl⟩ := Prod.mk.inj (Option.some.inj hs)
      exact h.write (v := native) (by simp) (by simp) rfl rfl
    | expire =>
      rcases expire_cases hs with ⟨rfl, rfl⟩ | ⟨-, rfl, rfl⟩
      · exact ⟨by simpa using hone, fun hr h0 => (h.wake hr h0).imp id fun hc => by simpa using hc,
          h.settled, h.last, h'.sees_carry rfl (by simp), h.live⟩
      · exact h.write (by simp) (by simp) rfl rfl
    | block =>
      obtain ⟨k, rest, hq, rfl, rfl⟩ := block_cases hs
      refine ⟨?_, fun hr h0 => (h.wake hr h0).imp id fun hc => ?_, h.settled, h.last,
        h'.sees_carry rfl fun y hy v hv => ?_, h.live⟩
      · cases k <;> simp [hq, Block.sec] at hone ⊢ <;> omega
      · rcases Multiset.mem_cons.mp hc with hc | hc
        · cases hc
        · exact Multiset.mem_add.mpr (.inr hc)
      · rw [List.mem_singleton.mp hy] at hv
        cases k <;> cases hv
    | transition =>
      have hs : a.transition ch.ups = (b, new) := Option.some.inj hs
      have := h.transition ch hacc
      rwa [hs] at this
    | flushLater =>
      obtain ⟨rfl, rfl⟩ := Prod.mk.inj (Option.some.inj hs)
      exact ⟨by simpa using hone, fun hr h0 => (h.wake hr h0).imp id fun hc => by simpa using hc,
        h.settled, h.last, h'.sees_carry rfl (by simp), h.live⟩

theorem Modes.call (h : Modes a P) (c : Call) : Modes a (c.body + P) := by
  have hbody : ∀ y ∈ c.body, y ≠ .dispatch ∧ y ≠ .transition ∧ y.mode = none := by
    intro y hy
    have := c.body_entry y hy
    cases y <;> first | cases this; done | exact ⟨by simp, by simp, rfl⟩
  have h' : Modes a (([] : List Section) + P) := by simpa using h
  refine ⟨?_, fun hr h0 => (h.wake hr h0).imp id fun hc => Multiset.mem_add.mpr (.inr hc), h.settled,
    h.last, h'.sees_carry rfl fun y hy v hv => ?_, h.live⟩
  · rw [Multiset.count_add, Multiset.count_add, Multiset.coe_count, Multiset.coe_count,
      List.count_eq_zero.mpr fun hy => (hbody _ hy).1 rfl,
      List.count_eq_zero.mpr fun hy => (hbody _ hy).2.1 rfl, Nat.zero_add, Nat.zero_add]
    exact h.one
  · rw [(hbody y hy).2.2] at hv
    cases hv

end Modes

section Native

variable {a b : Shared} {x : Section} {ch : Choice} {new : List Section} {l : ℕ}

/-- A lease that has begun keeps the mode that it began in, and what it was asked for. -/
theorem sec_origin (hx : x.begins ≠ some l) (hs : sec x ch a = some (b, new))
    (h0 : 0 < a.log.count (.began l)) :
    0 < b.log.count (.began l) ∧ (b.leases l).native = (a.leases l).native ∧
      (b.leases l).asked = (a.leases l).asked := by
  cases hk : x.transfer with
  | false =>
    obtain ⟨hu, -⟩ := sec_other hk hs
    rw [(Prod.mk.inj hu.accounts).1]
    exact ⟨hu.began l ▸ h0, rfl, rfl⟩
  | true =>
    cases x with
    | flushLater | dispatch | beat | forget | request | originalStart | flush | resume | transition
    | check | expire | block | startServer | stopServer | deferStop | originalStop => cases hk
    | beginIn =>
      obtain ⟨-, ⟨-, rfl, -⟩ | ⟨-, rfl, -⟩⟩ := beginIn_cases hs <;> exact ⟨h0, rfl, rfl⟩
    | endIn =>
      obtain ⟨-, ⟨-, rfl, -⟩ | ⟨k, -, rfl, -⟩⟩ := endIn_cases hs <;> exact ⟨h0, rfl, rfl⟩
    | dealloc =>
      obtain ⟨-, ⟨-, rfl, -⟩ | ⟨k, -, rfl, -⟩⟩ := dealloc_cases hs <;> exact ⟨h0, rfl, rfl⟩
    | countIn | own | raise | associate | leave | dissociate | disown | uncount =>
      obtain ⟨rfl, rfl⟩ := Prod.mk.inj (Option.some.inj hs)
      exact ⟨h0, rfl, rfl⟩
    | activate op incoming native k =>
      obtain ⟨rfl, rfl⟩ := Prod.mk.inj (Option.some.inj hs)
      have hne : l ≠ k := fun he => hx (by rw [he]; rfl)
      unfold Shared.activate
      dsimp only
      split
      · exact ⟨by simpa [Shared.setLease, hne.symm] using h0, by simp [Shared.setLease, hne]⟩
      · exact ⟨by simpa [Shared.setLease, hne.symm] using h0, by simp [Shared.setLease, hne]⟩
    | finish k =>
      rcases finish_cases hs with ⟨-, rfl, -⟩ | ⟨-, rfl, -⟩
      · exact ⟨h0, rfl, rfl⟩
      · refine ⟨by simpa [Shared.finish] using h0, ?_⟩
        rcases eq_or_ne l k with rfl | hne
        · simp [Shared.finish, Shared.setLease, Lease.finished]
        · simp [Shared.finish, Shared.setLease, hne]
    | unlist k =>
      obtain ⟨rfl, rfl⟩ := Prod.mk.inj (Option.some.inj hs)
      refine ⟨h0, ?_⟩
      rcases eq_or_ne l k with rfl | hne
      · simp [Shared.unlist, Shared.setLease, Lease.unlisted]
      · simp [Shared.unlist, Shared.setLease, hne]

/-- While a transfer is counted no section changes the mode. -/
theorem sec_nativeMode (hs : sec x ch a = some (b, new)) (h0 : 0 < a.activeTransfers) :
    b.nativeMode = a.nativeMode := by
  cases hx : x.modal with
  | false => exact (Prod.mk.inj (sec_unmoved hx hs).1).1
  | true =>
    cases x with
    | beginIn | own | raise | activate | associate | leave | endIn | dissociate | dealloc | finish
    | unlist | disown | beat | flush | startServer | resume | originalStart | stopServer | deferStop
    | forget | originalStop => cases hx
    | countIn | uncount | dispatch | request | flushLater =>
      obtain ⟨rfl, rfl⟩ := Prod.mk.inj (Option.some.inj hs)
      rfl
    | check => obtain ⟨-, rfl, -⟩ | ⟨-, rfl, -⟩ := check_cases hs <;> rfl
    | expire => obtain ⟨rfl, -⟩ | ⟨-, rfl, -⟩ := expire_cases hs <;> rfl
    | block =>
      obtain ⟨k, rest, -, rfl, -⟩ := block_cases hs
      rfl
    | transition =>
      obtain rfl : (a.transition ch.ups).1 = b := congrArg Prod.fst (Option.some.inj hs)
      rcases a.transition_cases ch.ups with ⟨-, he⟩ | ⟨next, -, hzero, -⟩
      · rw [he]
      · exact absurd hzero h0.ne'

end Native

/-! ### Switches wait for transfers -/

/-- The transition blocks that are queued, about to be or running. -/
def transitions (t : Threads Shared Section) : ℕ :=
  t.shared.queue.count .transition + t.all.count .dispatch + t.all.count .transition

section Runs

variable {n : ℕ} {ls : List (Threads.Label Choice Call)} {t t' : Threads Shared Section}

theorem modes_step {l : Threads.Label Choice Call} (hs : code.Step (fun _ _ _ _ => True) t l t')
    (h : Kept t.shared t.all ∧ Modes t.shared t.all) :
    Kept t'.shared t'.all ∧ Modes t'.shared t'.all := by
  refine hs.invariant_all (J := fun a P => Kept a P ∧ Modes a P) (fun s P c hk => ?_)
    (fun s i P x s' new hk hsec => ?_) h
  · exact ⟨hk.1.call c, hk.2.call c⟩
  · exact ⟨hk.1.sec hsec, hk.2.sec hk.1.accounts hsec⟩

theorem modes_install (n : ℕ) : Modes (install n).shared (install n).all := by
  have hall : (install n).all = 0 := by simp [Threads.all, Threads.pending, install]
  rw [hall]
  constructor <;> simp [install]

theorem modes_run (run : Path (code.Step fun _ _ _ _ => True) (install n) ls t) :
    Kept t.shared t.all ∧ Modes t.shared t.all :=
  run.invariant (I := fun t => Kept t.shared t.all ∧ Modes t.shared t.all)
    (fun _ _ _ h hs => modes_step hs h) ⟨kept_install n, modes_install n⟩

/-- While a transfer is counted no step changes the mode. -/
theorem step_nativeMode (h : code.Step (fun _ _ _ _ => True) t l t')
    (h0 : 0 < t.shared.activeTransfers) : t'.shared.nativeMode = t.shared.nativeMode := by
  rcases h.shared with he | ⟨i, -, x, new, hs⟩
  · rw [he]
  · exact sec_nativeMode hs h0

/-- A lease that is live in two states of a run saw one mode. -/
theorem native_run {l : ℕ} (h : Kept t.shared t.all ∧ Modes t.shared t.all)
    (run : Path (code.Step fun _ _ _ _ => True) t ls t') (hl : (t.shared.leases l).active = true)
    (hl' : (t'.shared.leases l).active = true) : t'.shared.nativeMode = t.shared.nativeMode := by
  have h0 : 0 < t.shared.log.count (.began l) := by
    have := h.1.custody.once l
    rw [if_pos hl] at this
    omega
  have hrun := run.invariant (I := fun u => (Kept u.shared u.all ∧ Modes u.shared u.all) ∧
      0 < u.shared.log.count (.began l) ∧ (u.shared.leases l).native = (t.shared.leases l).native)
    (fun u k u' hu hs => ?_) ⟨h, h0, rfl⟩
  · rw [← h.2.live l hl, ← hrun.1.2.live l hl']
    exact hrun.2.2
  · refine hs.invariant_all (J := fun a P => (Kept a P ∧ Modes a P) ∧ 0 < a.log.count (.began l) ∧
      (a.leases l).native = (t.shared.leases l).native) (fun s P c hk => ?_)
      (fun s i P x s' new hk hsec => ?_) hu
    · exact ⟨⟨hk.1.1.call c, hk.1.2.call c⟩, hk.2⟩
    · have hi : i.begins ≠ some l := by
        intro hi
        have hmade := hk.1.1.custody.made l
        rw [Multiset.countP_cons_of_pos (p := fun x : Section => x.begins = some l) _ hi] at hmade
        have := hk.2.1
        omega
      obtain ⟨h1, h2, -⟩ := sec_origin hi hsec hk.2.1
      exact ⟨⟨hk.1.1.sec hsec, hk.1.2.sec hk.1.1.accounts hsec⟩, h1, h2.trans hk.2.2⟩

/-- **A switch of the mode waits for the transfers, and no request is lost.** -/
theorem mode_waits (run : Path (code.Step fun _ _ _ _ => True) (install n) ls t) :
    (∀ l t', code.step t l = some t' → 0 < t.shared.activeTransfers →
      t'.shared.nativeMode = t.shared.nativeMode) ∧
    (∀ l, (t.shared.leases l).active = true →
      (t.shared.leases l).native = t.shared.nativeMode ∧
      ∀ ls' t', Path (code.Step fun _ _ _ _ => True) t ls' t' →
        (t'.shared.leases l).active = true → t'.shared.nativeMode = t.shared.nativeMode) ∧
    transitions t ≤ 1 ∧
    (transitions t = 0 → .check ∉ t.all →
      (t.shared.requestedMode = none ∨ 0 < t.shared.activeTransfers) ∧
      (t.shared.requestedMode = none → ∀ v, t.shared.written = some v → t.shared.nativeMode = v)) := by
  have h := modes_run run
  have hone : transitions t = if t.shared.modeTransitionQueued then 1 else 0 := h.2.one
  refine ⟨fun l t' hs => step_nativeMode (.free hs), fun l hl => ⟨h.2.live l hl, fun ls' t' run' =>
    native_run h run' hl⟩, ?_, fun h0 hc => ⟨?_, fun hr v hv => h.2.settled v hv hr⟩⟩
  · split at hone <;> omega
  · rcases Nat.eq_zero_or_pos t.shared.activeTransfers with ha | ha
    · left
      by_contra hr
      rcases h.2.wake (Option.isSome_iff_ne_none.mpr hr) ha with hq | hq
      · rw [hq, if_pos rfl] at hone
        omega
      · exact hc hq
    · exact .inr ha

/-- The native mode is asked for while a file is being sent; the mode switches after it. -/
def switchedLater : List (Threads.Label Choice Call) :=
  List.flatten [
    [.call 0 (.transferStart 8 false)], List.replicate 6 (.run 0 {}),
    [.call 1 (.modeRequested (some true))], List.replicate 2 (.run 1 {}),
    [.call 0 (.transferEvent 8 9)], List.replicate 8 (.run 0 {}), [.mainCall .mainQueue],
    List.replicate 3 (.mainRun {})]

theorem switchedLater_runs : (exec code.step (install 2) switchedLater).isSome := by decide

theorem mode_waits_switchedLater :
    ((exec code.step (install 2) switchedLater).get switchedLater_runs).shared.nativeMode = true := by
  obtain ⟨-, -, -, h⟩ := mode_waits
    ((exec_path_get switchedLater_runs).mono_mem fun _ _ _ _ => Code.Step.free)
  exact (h (by decide) (by decide)).2 (by decide) true (by decide)

end Runs

end AquaTransport.Adapter
