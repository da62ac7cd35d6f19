import AquaTransport.AirDrop.Transfers

/-!
# AquaTransport.AirDrop.Custody — whose the leases are

`Locks`: one thread at a time works on an operation.  `Custody`: every live lease is an operation's, and
is finished once.  `Tokens`: what the radio's owners have to do with leases.  With the accounts they say
that the adapter's books balance whenever no transfer is half-way in or out.
-/

namespace AquaTransport.Adapter

namespace Section

/-- The operation whose lock the thread has. -/
def holds : Section → Option ℕ
  | .countIn op _ _ | .own op _ _ | .raise op _ _ | .activate op _ _ _ => some op
  | .associate op _ | .leave op | .dissociate op _ => some op
  | _ => none

/-- The operation that the thread gives a lease. -/
def fills : Section → Option ℕ
  | .countIn op _ _ | .own op _ _ | .raise op _ _ | .activate op _ _ _ | .associate op _ => some op
  | _ => none

/-- The lease for whose token the thread has acquired the radio, or does. -/
def readies : Section → Option ℕ
  | .raise _ _ l | .activate _ _ false l => some l
  | _ => none

end Section

section Locks

variable {x : Section}

theorem Section.other_holds (hx : x.transfer = false) : x.holds = none := by
  cases x <;> first | cases hx; done | rfl

theorem Section.holds_of_fills {op : ℕ} (hx : x.fills = some op) : x.holds = some op := by
  cases x <;> first | exact hx | cases hx

end Locks

/-! ### Locks -/

/-- At most one thread works on an operation, and it knows what the operation has. -/
structure Locks (a : Shared) (P : Multiset Section) : Prop where
  locked : ∀ op, P.countP (fun x => x.holds = some op) = if a.locked op then 1 else 0
  empty : ∀ x ∈ P, ∀ op, x.fills = some op → a.association op = none
  bound : ∀ op l, .dissociate op l ∈ P → a.association op = some l

section Locks

variable {a b : Shared} {x : Section} {ch : Choice} {new : List Section} {R P : Multiset Section}
  {op : ℕ}

/-- The work goes on, or has nothing to do with operations. -/
theorem Locks.carry {old : List Section} (h : Locks a (old + R)) (hl : b.locked = a.locked)
    (ha : b.association = a.association)
    (hh : ∀ op, new.countP (fun y => y.holds = some op) = old.countP fun y => y.holds = some op)
    (hf : ∀ y ∈ new, ∀ op, y.fills = some op → ∃ z ∈ old, z.fills = some op)
    (hd : ∀ op l, .dissociate op l ∉ new) : Locks b (new + R) := by
  refine ⟨fun op => ?_, fun y hy op hyop => ?_, fun op l hm => ?_⟩
  · have := h.locked op
    rw [Multiset.countP_add, Multiset.coe_countP] at this ⊢
    rw [hl, hh op]
    exact this
  · rw [ha]
    rcases Multiset.mem_add.mp hy with hy | hy
    · obtain ⟨z, hz, hzop⟩ := hf y (Multiset.mem_coe.mp hy) op hyop
      exact h.empty z (Multiset.mem_add.mpr (.inl (Multiset.mem_coe.mpr hz))) op hzop
    · exact h.empty y (Multiset.mem_add.mpr (.inr hy)) op hyop
  · rw [ha]
    rcases Multiset.mem_add.mp hm with hm | hm
    · exact absurd (Multiset.mem_coe.mp hm) (hd op l)
    · exact h.bound op l (Multiset.mem_add.mpr (.inr hm))

theorem Locks.pass {old : List Section} (h : Locks a (old + R)) (hl : b.locked = a.locked)
    (ha : b.association = a.association) (hold : ∀ y ∈ old, y.holds = none)
    (hnew : ∀ y ∈ new, y.holds = none) : Locks b (new + R) := by
  refine h.carry hl ha (fun op => ?_) (fun y hy op hf => ?_) fun op l hm => ?_
  · rw [List.countP_eq_zero.mpr fun y hy => by simp [hnew y hy],
      List.countP_eq_zero.mpr fun y hy => by simp [hold y hy]]
  · have := Section.holds_of_fills hf
    rw [hnew y hy] at this
    cases this
  · cases hnew _ hm

/-- The thread that has the lock is the only one that works on the operation. -/
theorem Locks.sole (h : Locks a (x ::ₘ R)) (hx : x.holds = some op) : ∀ y ∈ R, y.holds ≠ some op := by
  have hl := h.locked op
  rw [Multiset.countP_cons_of_pos (p := fun y : Section => y.holds = some op) _ hx] at hl
  refine Multiset.countP_eq_zero.mp ?_
  split at hl <;> omega

theorem Locks.free (h : Locks a P) (hop : a.locked op = false) : ∀ y ∈ P, y.holds ≠ some op := by
  have hl := h.locked op
  rw [hop] at hl
  exact Multiset.countP_eq_zero.mp hl

/-- The thread takes the operation's lock. -/
theorem Locks.take (h : Locks a (x ::ₘ R)) (hop : a.locked op = false) (hx : x.holds = none)
    (hl : b.locked = Function.update a.locked op true) (ha : b.association = a.association)
    (hh : ∀ op', new.countP (fun y => y.holds = some op') = if op' = op then 1 else 0)
    (hf : ∀ y ∈ new, ∀ op', y.fills = some op' → a.association op' = none)
    (hd : ∀ op' l, .dissociate op' l ∈ new → a.association op' = some l) : Locks b (new + R) := by
  refine ⟨fun op' => ?_, fun y hy op' hyop => ?_, fun op' l hm => ?_⟩
  · have hlo := h.locked op'
    rw [Multiset.countP_cons_of_neg _ (by simp [hx])] at hlo
    rw [Multiset.countP_add, Multiset.coe_countP, hh, hlo, hl]
    rcases eq_or_ne op' op with rfl | hne
    · simp [hop]
    · simp [hne]
  · rw [ha]
    rcases Multiset.mem_add.mp hy with hy | hy
    · exact hf y (Multiset.mem_coe.mp hy) op' hyop
    · exact h.empty y (Multiset.mem_cons_of_mem hy) op' hyop
  · rw [ha]
    rcases Multiset.mem_add.mp hm with hm | hm
    · exact hd op' l (Multiset.mem_coe.mp hm)
    · exact h.bound op' l (Multiset.mem_cons_of_mem hm)

/-- The thread lets go of the operation's lock. -/
theorem Locks.release (h : Locks a (x ::ₘ R)) (hx : x.holds = some op)
    (hl : b.locked = Function.update a.locked op false)
    (ha : ∀ op', op' ≠ op → b.association op' = a.association op')
    (hnew : ∀ y ∈ new, y.holds = none) : Locks b (new + R) := by
  have hsole := h.sole hx
  refine ⟨fun op' => ?_, fun y hy op' hyop => ?_, fun op' l hm => ?_⟩
  · rw [Multiset.countP_add, Multiset.coe_countP, List.countP_eq_zero.mpr fun y hy => by
      simp [hnew y hy], zero_add, hl]
    rcases eq_or_ne op' op with rfl | hne
    · rw [Multiset.countP_eq_zero.mpr hsole]
      simp
    · have hlo := h.locked op'
      rw [Multiset.countP_cons_of_neg _ (by simp [hx, hne.symm])] at hlo
      rw [hlo, Function.update_of_ne hne]
  · have hholds := Section.holds_of_fills hyop
    rcases Multiset.mem_add.mp hy with hy | hy
    · rw [hnew y (Multiset.mem_coe.mp hy)] at hholds
      cases hholds
    · rw [ha op' fun he => hsole y hy (he ▸ hholds)]
      exact h.empty y (Multiset.mem_cons_of_mem hy) op' hyop
  · rcases Multiset.mem_add.mp hm with hm | hm
    · cases hnew _ (Multiset.mem_coe.mp hm)
    · rw [ha op' fun he => hsole _ hm (he ▸ rfl)]
      exact h.bound op' l (Multiset.mem_cons_of_mem hm)

/-- **Every section of every thread keeps the locks.** -/
theorem Locks.sec (h : Locks a (x ::ₘ R)) (hs : sec x ch a = some (b, new)) : Locks b (new + R) := by
  have h' : Locks a (([x] : List Section) + R) := h
  cases hx : x.transfer with
  | false =>
    obtain ⟨hu, hnew⟩ := sec_other hx hs
    refine h'.pass hu.locked hu.association (fun y hy => ?_) fun y hy => Section.other_holds (hnew y hy)
    rw [List.mem_singleton.mp hy]
    exact Section.other_holds hx
  | true =>
    cases x with
    | flushLater | dispatch | beat | forget | request | originalStart | flush | resume | transition
    | check | expire | block | startServer | stopServer | deferStop | originalStop => cases hx
    | beginIn op incoming =>
      obtain ⟨hop, ⟨-, rfl, rfl⟩ | ⟨hnone, rfl, rfl⟩⟩ := beginIn_cases hs
      · exact h'.pass rfl rfl (by simp [Section.holds]) (by simp)
      · refine h.take hop rfl rfl rfl (fun op' => ?_) (fun y hy op' hf => ?_) (by simp)
        · rw [List.countP_singleton]
          simp [Section.holds, eq_comm]
        · rw [List.mem_singleton.mp hy] at hf
          exact Option.some.inj hf ▸ hnone
    | countIn op incoming l =>
      obtain ⟨rfl, rfl⟩ := Prod.mk.inj (Option.some.inj hs)
      refine h'.carry rfl rfl (fun op' => ?_) (fun y hy op' hf => ⟨_, List.mem_singleton_self _, ?_⟩)
        fun op' l' => ?_
      · split <;> rfl
      · rw [List.mem_singleton.mp hy] at hf
        split at hf <;> exact hf
      · split <;> simp
    | own op incoming l =>
      obtain ⟨rfl, rfl⟩ := Prod.mk.inj (Option.some.inj hs)
      refine h'.carry rfl rfl (fun _ => rfl) (fun y hy op' hf => ⟨_, List.mem_singleton_self _, ?_⟩)
        (by simp)
      rw [List.mem_singleton.mp hy] at hf
      exact hf
    | raise op incoming l =>
      obtain ⟨rfl, rfl⟩ := Prod.mk.inj (Option.some.inj hs)
      cases ch.up with
      | true =>
        refine h'.carry rfl rfl (fun _ => rfl) (fun y hy op' hf => ⟨_, List.mem_singleton_self _, ?_⟩)
          (by simp)
        rw [List.mem_singleton.mp hy] at hf
        exact hf
      | false =>
        refine h'.carry rfl rfl (fun op' => ?_) (fun y hy op' hf => ?_) (by simp)
        · rfl
        · rcases (by simpa using hy : y = _ ∨ y = _ ∨ y = _ ∨ y = _) with rfl | rfl | rfl | rfl <;>
            cases hf
    | activate op incoming native l =>
      obtain ⟨rfl, rfl⟩ := Prod.mk.inj (Option.some.inj hs)
      refine h'.carry ?_ ?_ (fun _ => rfl) (fun y hy op' hf => ⟨_, List.mem_singleton_self _, ?_⟩)
        (by simp)
      · unfold Shared.activate
        dsimp only
        split <;> rfl
      · unfold Shared.activate
        dsimp only
        split <;> rfl
      · rw [List.mem_singleton.mp hy] at hf
        exact hf
    | associate op l =>
      obtain ⟨rfl, rfl⟩ := Prod.mk.inj (Option.some.inj hs)
      exact h.release rfl rfl (fun op' hne => Function.update_of_ne hne ..) (by simp)
    | leave op =>
      obtain ⟨rfl, rfl⟩ := Prod.mk.inj (Option.some.inj hs)
      exact h.release rfl rfl (fun _ _ => rfl) (by simp)
    | endIn op =>
      obtain ⟨hop, ⟨-, rfl, rfl⟩ | ⟨l, hl, rfl, rfl⟩⟩ := endIn_cases hs
      · exact h'.pass rfl rfl (by simp [Section.holds]) (by simp)
      · refine h.take hop rfl rfl rfl (fun op' => ?_) (fun y hy op' hf => ?_) fun op' l' hm => ?_
        · simp [Section.holds, List.countP_cons, eq_comm]
        · rcases (by simpa using hy : y = _ ∨ y = _) with rfl | rfl <;> cases hf
        · obtain ⟨rfl, rfl⟩ : op' = op ∧ l' = l := by simpa using hm
          exact hl
    | dissociate op l =>
      obtain ⟨rfl, rfl⟩ := Prod.mk.inj (Option.some.inj hs)
      exact h.release rfl rfl (fun op' hne => Function.update_of_ne hne ..) (by simp [Section.holds])
    | dealloc op =>
      obtain ⟨hop, ⟨-, rfl, rfl⟩ | ⟨l, hl, rfl, rfl⟩⟩ := dealloc_cases hs
      · exact h'.pass rfl rfl (by simp [Section.holds]) (by simp)
      · have hfree := h.free hop
        have hne : ∀ op', op' ≠ op → (a.setAssociation op none).association op' =
            a.association op' := fun op' hne => Function.update_of_ne hne ..
        refine ⟨fun op' => ?_, fun y hy op' hyop => ?_, fun op' l' hm => ?_⟩
        · have hlo := h.locked op'
          rw [Multiset.countP_cons_of_neg _ (by simp [Section.holds])] at hlo
          rw [Multiset.countP_add, Multiset.coe_countP, hlo]
          exact Nat.zero_add _
        · have hholds := Section.holds_of_fills hyop
          rcases Multiset.mem_add.mp hy with hy | hy
          · obtain rfl : y = .finish l := by simpa using hy
            cases hyop
          · rw [hne op' fun he => hfree y (Multiset.mem_cons_of_mem hy) (he ▸ hholds)]
            exact h.empty y (Multiset.mem_cons_of_mem hy) op' hyop
        · rcases Multiset.mem_add.mp hm with hm | hm
          · simp at hm
          · rw [hne op' fun he => hfree _ (Multiset.mem_cons_of_mem hm) (he ▸ rfl)]
            exact h.bound op' l' (Multiset.mem_cons_of_mem hm)
    | finish l =>
      rcases finish_cases hs with ⟨-, rfl, rfl⟩ | ⟨-, rfl, rfl⟩
      · exact h'.pass rfl rfl (by simp [Section.holds]) (by simp)
      · refine h'.pass rfl rfl (by simp [Section.holds]) fun y hy => ?_
        rcases mem_finish hy with ⟨rfl, -⟩ | rfl | rfl <;> rfl
    | unlist l =>
      obtain ⟨rfl, rfl⟩ := Prod.mk.inj (Option.some.inj hs)
      exact h'.pass rfl rfl (by simp [Section.holds]) (by simp [Section.holds])
    | disown o =>
      obtain ⟨rfl, rfl⟩ := Prod.mk.inj (Option.some.inj hs)
      exact h'.pass rfl rfl (by simp [Section.holds]) (by simp)
    | uncount =>
      obtain ⟨rfl, rfl⟩ := Prod.mk.inj (Option.some.inj hs)
      exact h'.pass rfl rfl (by simp [Section.holds]) (by simp [Section.holds])

theorem Locks.call (h : Locks a P) (c : Call) : Locks a (c.body + P) := by
  have h' : Locks a (([] : List Section) + P) := by simpa using h
  refine h'.pass rfl rfl (by simp) fun y hy => ?_
  rcases c.body_starts y hy with ⟨op, incoming, rfl⟩ | ⟨op, rfl⟩ | ⟨op, rfl⟩ | hother
  · rfl
  · rfl
  · rfl
  · exact Section.other_holds hother

end Locks

/-- Every live lease is an operation's, or on its way to or from one; it began once, and every lease
that began and is not live was finished once. -/
structure Custody (a : Shared) (P : Multiset Section) : Prop where
  owned : ∀ l, (a.leases l).active = true →
    (∃ op, a.association op = some l) ∨ (∃ op, .associate op l ∈ P) ∨ .finish l ∈ P
  once : ∀ l, a.log.count (.began l) =
    a.log.count (.finished l) + if (a.leases l).active then 1 else 0
  made : ∀ l, a.log.count (.began l) + P.countP (fun x => x.begins = some l) ≤ 1
  unmade : ∀ l, a.nextLease ≤ l → a.log.count (.began l) = 0

section Custody

variable {a b : Shared} {x : Section} {ch : Choice} {new : List Section} {R P : Multiset Section}

/-- No lease begins or ends, and none changes hands. -/
theorem Custody.carry {old : List Section} (h : Custody a (old + R))
    (hlive : ∀ l, (b.leases l).active = (a.leases l).active) (hnext : b.nextLease = a.nextLease)
    (hass : b.association = a.association)
    (hbegan : ∀ l, b.log.count (.began l) = a.log.count (.began l))
    (hfinished : ∀ l, b.log.count (.finished l) = a.log.count (.finished l))
    (hb : ∀ l, new.countP (fun y => y.begins = some l) ≤ old.countP fun y => y.begins = some l)
    (ha : ∀ op l, .associate op l ∉ old)
    (hf : ∀ l, .finish l ∈ old → (a.leases l).active = false ∨ .finish l ∈ new) :
    Custody b (new + R) := by
  refine ⟨fun l hl => ?_, fun l => ?_, fun l => ?_, fun l hl => ?_⟩
  · rw [hlive] at hl
    rcases h.owned l hl with ⟨op, hop⟩ | ⟨op, hop⟩ | hfin
    · exact .inl ⟨op, hass ▸ hop⟩
    · rcases Multiset.mem_add.mp hop with hop | hop
      · exact absurd (Multiset.mem_coe.mp hop) (ha op l)
      · exact .inr (.inl ⟨op, Multiset.mem_add.mpr (.inr hop)⟩)
    · refine .inr (.inr ?_)
      rcases Multiset.mem_add.mp hfin with hfin | hfin
      · rcases hf l (Multiset.mem_coe.mp hfin) with hoff | hnew
        · rw [hoff] at hl
          cases hl
        · exact Multiset.mem_add.mpr (.inl (Multiset.mem_coe.mpr hnew))
      · exact Multiset.mem_add.mpr (.inr hfin)
  · rw [hbegan, hfinished, hlive]
    exact h.once l
  · have := h.made l
    have := hb l
    simp only [Multiset.countP_add, Multiset.coe_countP, hbegan] at *
    omega
  · rw [hbegan]
    exact h.unmade l (hnext ▸ hl)

/-- The same, for sections that carry no lease. -/
theorem Custody.pass {old : List Section} (h : Custody a (old + R)) (hu : Undisturbed a b)
    (hnew : ∀ y ∈ new, y.begins = none) (ha : ∀ op l, .associate op l ∉ old)
    (hf : ∀ l, .finish l ∈ old → (a.leases l).active = false) : Custody b (new + R) := by
  have hacc := hu.accounts
  simp only [Shared.accounts, Prod.mk.injEq] at hacc
  refine h.carry (fun l => by rw [hacc.1]) hacc.2.1 hu.association hu.began hu.finished
    (fun l => ?_) ha fun l hm => .inl (hf l hm)
  rw [List.countP_eq_zero.mpr fun y hy => by simp [hnew y hy]]
  exact Nat.zero_le _

theorem Custody.beginIn {op : ℕ} {incoming : Bool} (h : Custody a (.beginIn op incoming ::ₘ R))
    (hacc : Accounts a (.beginIn op incoming ::ₘ R)) :
    Custody { a.lock op with nextLease := a.nextLease + 1 }
      (.countIn op incoming a.nextLease ::ₘ R) := by
  refine ⟨fun l hl => ?_, h.once, fun l => ?_, fun l hl => ?_⟩
  · rcases h.owned l hl with hop | ⟨op', hop⟩ | hfin
    · exact .inl hop
    · exact .inr (.inl ⟨op', Multiset.mem_cons_of_mem (by simpa using hop)⟩)
    · exact .inr (.inr (Multiset.mem_cons_of_mem (by simpa using hfin)))
  · have hmade := h.made l
    rw [Multiset.countP_cons_of_neg _ (by simp [Section.begins])] at hmade
    rcases eq_or_ne a.nextLease l with rfl | hne
    · have hzero : R.countP (fun x => x.begins = some a.nextLease) = 0 :=
        Multiset.countP_eq_zero.mpr fun x hx =>
          (hacc.fresh _ le_rfl).2 x (Multiset.mem_cons_of_mem hx)
      rw [Multiset.countP_cons, hzero]
      have := h.unmade _ le_rfl
      show a.log.count (.began a.nextLease) + _ ≤ 1
      rw [this]
      split <;> omega
    · rw [Multiset.countP_cons_of_neg _ (by simp [Section.begins, hne])]
      exact hmade
  · have hl : a.nextLease + 1 ≤ l := hl
    exact h.unmade l (by omega)

theorem Custody.activate {op l : ℕ} {incoming native : Bool}
    (h : Custody a (.activate op incoming native l ::ₘ R))
    (hacc : Accounts a (.activate op incoming native l ::ₘ R)) :
    Custody (a.activate incoming native l) (.associate op l ::ₘ R) := by
  have hself : Section.begins (.activate op incoming native l) = some l := rfl
  obtain ⟨hoff, -⟩ := hacc.idle _ (Multiset.mem_cons_self _ _) l hself
  have hl : l < a.nextLease :=
    not_le.mp fun hle => (hacc.fresh l hle).2 _ (Multiset.mem_cons_self _ _) hself
  obtain ⟨hlive, hlog, hass, hnext⟩ :
      (∀ l', ((a.activate incoming native l).leases l').active =
        if l' = l then true else (a.leases l').active) ∧
      (a.activate incoming native l).log = .began l :: a.log ∧
      (a.activate incoming native l).association = a.association ∧
      (a.activate incoming native l).nextLease = a.nextLease := by
    unfold Shared.activate Shared.setLease
    dsimp only
    refine ⟨fun l' => ?_, ?_, ?_, ?_⟩
    · rcases eq_or_ne l' l with rfl | hne
      · split <;> simp
      · split <;> simp [hne]
    all_goals split <;> rfl
  generalize a.activate incoming native l = b at *
  have hbegan : ∀ l', b.log.count (.began l') =
      a.log.count (.began l') + if l' = l then 1 else 0 := fun l' => by
    rw [hlog, List.count_cons]
    rcases eq_or_ne l' l with rfl | hne
    · simp
    · simp [hne, hne.symm]
  have hfinished : ∀ l', b.log.count (.finished l') = a.log.count (.finished l') := fun l' => by
    rw [hlog, List.count_cons]
    simp
  refine ⟨fun l' hl' => ?_, fun l' => ?_, fun l' => ?_, fun l' hl' => ?_⟩
  · rw [hlive] at hl'
    split at hl'
    · next he => exact .inr (.inl ⟨op, he ▸ Multiset.mem_cons_self _ _⟩)
    · rcases h.owned l' hl' with ⟨op', hop⟩ | ⟨op', hop⟩ | hfin
      · exact .inl ⟨op', hass ▸ hop⟩
      · exact .inr (.inl ⟨op', Multiset.mem_cons_of_mem (by simpa using hop)⟩)
      · exact .inr (.inr (Multiset.mem_cons_of_mem (by simpa using hfin)))
  · rw [hbegan, hfinished, hlive, h.once l']
    rcases eq_or_ne l' l with rfl | hne
    · simp [hoff]
    · simp [hne]
  · have hmade := h.made l'
    rw [Multiset.countP_cons_of_neg _ (by simp [Section.begins]), hbegan]
    rw [Multiset.countP_cons, hself] at hmade
    rcases eq_or_ne l' l with rfl | hne
    · simp only [if_true] at *
      omega
    · rw [if_neg (by simpa using hne.symm)] at hmade
      rw [if_neg hne]
      omega
  · rw [hbegan, h.unmade l' (hnext ▸ hl')]
    rw [hnext] at hl'
    rw [if_neg (by omega)]

/-- A lease changes hands from an association to a thread that finishes it, or it came to one. -/
theorem Custody.hand (h : Custody a (x ::ₘ R)) (hx : x.begins = none)
    (hnew : ∀ y ∈ new, y.begins = none)
    (hb : (b.leases, b.nextLease, b.log) = (a.leases, a.nextLease, a.log))
    (howned : ∀ l, (∃ op, a.association op = some l) ∨ (∃ op, x = .associate op l) ∨ x = .finish l →
      (a.leases l).active = true → (∃ op, b.association op = some l) ∨ .finish l ∈ new) :
    Custody b (new + R) := by
  simp only [Prod.mk.injEq] at hb
  obtain ⟨h1, h2, h3⟩ := hb
  refine ⟨fun l hl => ?_, ?_, fun l => ?_, ?_⟩
  · rw [h1] at hl
    have hto : (∃ op, b.association op = some l) ∨ .finish l ∈ new →
        (∃ op, b.association op = some l) ∨ (∃ op, .associate op l ∈ (new : Multiset Section) + R) ∨
          .finish l ∈ (new : Multiset Section) + R := fun ho =>
      ho.imp_right fun hn => .inr (Multiset.mem_add.mpr (.inl (Multiset.mem_coe.mpr hn)))
    rcases h.owned l hl with hop | ⟨op, hop⟩ | hfin
    · exact hto (howned l (.inl hop) hl)
    · rcases Multiset.mem_cons.mp hop with hop | hop
      · exact hto (howned l (.inr (.inl ⟨op, hop.symm⟩)) hl)
      · exact .inr (.inl ⟨op, Multiset.mem_add.mpr (.inr hop)⟩)
    · rcases Multiset.mem_cons.mp hfin with hfin | hfin
      · exact hto (howned l (.inr (.inr hfin.symm)) hl)
      · exact .inr (.inr (Multiset.mem_add.mpr (.inr hfin)))
  · rw [h1, h3]
    exact h.once
  · have hmade := h.made l
    rw [Multiset.countP_cons_of_neg _ (by simp [hx])] at hmade
    rw [h3, Multiset.countP_add, Multiset.coe_countP, List.countP_eq_zero.mpr fun y hy => by
      simp [hnew y hy], zero_add]
    exact hmade
  · rw [h2, h3]
    exact h.unmade

theorem Custody.finish {l : ℕ} (h : Custody a (.finish l ::ₘ R)) (hon : (a.leases l).active = true)
    (hnew : ∀ y ∈ new, y.begins = none) : Custody (a.finish l) (new + R) := by
  have hne : ∀ l', l' ≠ l → (a.finish l).leases l' = a.leases l' := fun l' hl' =>
    Function.update_of_ne hl' ..
  have hself : (a.finish l).leases l = (a.leases l).finished := Function.update_self ..
  refine ⟨fun l' hl' => ?_, fun l' => ?_, fun l' => ?_, fun l' hl' => ?_⟩
  · rcases eq_or_ne l' l with rfl | hll
    · rw [hself] at hl'
      cases hl'
    · rw [hne l' hll] at hl'
      rcases h.owned l' hl' with hop | ⟨op, hop⟩ | hfin
      · exact .inl hop
      · exact .inr (.inl ⟨op, Multiset.mem_add.mpr (.inr (by simpa using hop))⟩)
      · exact .inr (.inr (Multiset.mem_add.mpr (.inr (by simpa [hll] using hfin))))
  · have honce := h.once l'
    rw [show (a.finish l).log = .finished l :: a.log from rfl, List.count_cons, List.count_cons]
    rcases eq_or_ne l' l with rfl | hll
    · rw [hself]
      simpa [Lease.finished, hon] using honce
    · rw [hne l' hll]
      simpa [hll.symm] using honce
  · have hmade := h.made l'
    rw [Multiset.countP_cons_of_neg _ (by simp [Section.begins])] at hmade
    rw [Multiset.countP_add, Multiset.coe_countP, List.countP_eq_zero.mpr fun y hy => by
      simp [hnew y hy], zero_add]
    simpa [Shared.finish] using hmade
  · simpa [Shared.finish] using h.unmade l' hl'

/-- **Every section of every thread keeps custody.** -/
theorem Custody.sec (h : Custody a (x ::ₘ R)) (hacc : Accounts a (x ::ₘ R)) (hlock : Locks a (x ::ₘ R))
    (hs : sec x ch a = some (b, new)) : Custody b (new + R) := by
  have h' : Custody a (([x] : List Section) + R) := h
  cases hx : x.transfer with
  | false =>
    obtain ⟨hu, hnew⟩ := sec_other hx hs
    refine h'.pass hu (fun y hy => (Section.other (hnew y hy)).1) (fun op l hm => ?_) fun l hm => ?_
    · rw [← List.mem_singleton.mp hm] at hx
      cases hx
    · rw [← List.mem_singleton.mp hm] at hx
      cases hx
  | true =>
    cases x with
    | flushLater | dispatch | beat | forget | request | originalStart | flush | resume | transition
    | check | expire | block | startServer | stopServer | deferStop | originalStop => cases hx
    | beginIn op incoming =>
      obtain ⟨-, ⟨-, rfl, rfl⟩ | ⟨-, rfl, rfl⟩⟩ := beginIn_cases hs
      · exact h'.pass (.of rfl) (by simp) (by simp) (by simp)
      · exact h.beginIn hacc
    | countIn op incoming l =>
      obtain ⟨rfl, rfl⟩ := Prod.mk.inj (Option.some.inj hs)
      refine h'.carry (fun _ => rfl) rfl rfl (fun _ => rfl) (fun _ => rfl) (fun l' => ?_) (by simp)
        (by simp)
      split <;> exact le_rfl
    | own op incoming l =>
      obtain ⟨rfl, rfl⟩ := Prod.mk.inj (Option.some.inj hs)
      exact h'.carry (fun _ => rfl) rfl rfl (fun _ => rfl) (fun _ => rfl) (fun _ => le_rfl) (by simp)
        (by simp)
    | raise op incoming l =>
      obtain ⟨rfl, rfl⟩ := Prod.mk.inj (Option.some.inj hs)
      refine h'.carry (fun _ => rfl) rfl rfl (fun _ => rfl) (fun _ => rfl) (fun l' => ?_) (by simp)
        (by simp)
      split
      · exact le_rfl
      · simp [Section.begins]
    | activate op incoming native l =>
      obtain ⟨rfl, rfl⟩ := Prod.mk.inj (Option.some.inj hs)
      exact h.activate hacc
    | associate op l =>
      obtain ⟨rfl, rfl⟩ := Prod.mk.inj (Option.some.inj hs)
      have hnone := hlock.empty _ (Multiset.mem_cons_self _ _) op rfl
      refine h.hand rfl (by simp) rfl fun l' ho _ => .inl ?_
      rcases ho with ⟨op', hop⟩ | ⟨op', he⟩ | he
      · refine ⟨op', (Function.update_of_ne ?_ ..).trans hop⟩
        rintro rfl
        rw [hnone] at hop
        cases hop
      · obtain ⟨rfl, rfl⟩ := Section.associate.inj he
        exact ⟨op, Function.update_self ..⟩
      · cases he
    | leave op =>
      obtain ⟨rfl, rfl⟩ := Prod.mk.inj (Option.some.inj hs)
      refine h.hand rfl (by simp) rfl fun l' ho _ => .inl ?_
      rcases ho with hop | ⟨op', he⟩ | he
      · exact hop
      · cases he
      · cases he
    | endIn op =>
      obtain ⟨-, ⟨-, rfl, rfl⟩ | ⟨l, -, rfl, rfl⟩⟩ := endIn_cases hs
      · exact h'.pass (.of rfl) (by simp) (by simp) (by simp)
      · refine h.hand rfl (by simp [Section.begins]) rfl fun l' ho _ => .inl ?_
        rcases ho with hop | ⟨op', he⟩ | he
        · exact hop
        · cases he
        · cases he
    | dissociate op l =>
      obtain ⟨rfl, rfl⟩ := Prod.mk.inj (Option.some.inj hs)
      have hbound := hlock.bound op l (Multiset.mem_cons_self _ _)
      refine h.hand rfl (by simp [Section.begins]) rfl fun l' ho _ => ?_
      rcases ho with ⟨op', hop⟩ | ⟨op', he⟩ | he
      · rcases eq_or_ne op' op with rfl | hne
        · obtain rfl : l = l' := Option.some.inj (hbound.symm.trans hop)
          exact .inr (List.mem_singleton_self _)
        · exact .inl ⟨op', (Function.update_of_ne hne ..).trans hop⟩
      · cases he
      · cases he
    | dealloc op =>
      obtain ⟨-, ⟨-, rfl, rfl⟩ | ⟨l, hl, rfl, rfl⟩⟩ := dealloc_cases hs
      · exact h'.pass (.of rfl) (by simp) (by simp) (by simp)
      · refine h.hand rfl (by simp [Section.begins]) rfl fun l' ho _ => ?_
        rcases ho with ⟨op', hop⟩ | ⟨op', he⟩ | he
        · rcases eq_or_ne op' op with rfl | hne
          · obtain rfl : l = l' := Option.some.inj (hl.symm.trans hop)
            exact .inr (List.mem_singleton_self _)
          · exact .inl ⟨op', (Function.update_of_ne hne ..).trans hop⟩
        · cases he
        · cases he
    | finish l =>
      rcases finish_cases hs with ⟨hoff, rfl, rfl⟩ | ⟨hon, rfl, rfl⟩
      · refine h'.pass (.of rfl) (by simp) (by simp) fun l' hm => ?_
        obtain rfl : l' = l := by simpa using hm
        exact hoff
      · refine h.finish hon fun y hy => ?_
        rcases mem_finish hy with ⟨rfl, -⟩ | rfl | rfl <;> rfl
    | unlist l =>
      obtain ⟨rfl, rfl⟩ := Prod.mk.inj (Option.some.inj hs)
      refine h'.carry (fun l' => ?_) rfl rfl (fun _ => rfl) (fun _ => rfl)
        (fun l' => by simp [Section.begins]) (by simp) (by simp)
      rcases eq_or_ne l' l with rfl | hne
      · simp [Shared.unlist, Shared.setLease, Lease.unlisted]
      · simp [Shared.unlist, Shared.setLease, hne]
    | disown o =>
      obtain ⟨rfl, rfl⟩ := Prod.mk.inj (Option.some.inj hs)
      exact h'.carry (fun _ => rfl) rfl rfl (fun _ => rfl) (fun _ => rfl) (by simp) (by simp) (by simp)
    | uncount =>
      obtain ⟨rfl, rfl⟩ := Prod.mk.inj (Option.some.inj hs)
      exact h'.carry (fun _ => rfl) rfl rfl (fun _ => rfl) (fun _ => rfl)
        (fun l' => by simp [Section.begins]) (by simp) (by simp)

theorem Custody.call (h : Custody a P) (c : Call) : Custody a (c.body + P) := by
  have h' : Custody a (([] : List Section) + P) := by simpa using h
  refine h'.pass (.of rfl) (fun y hy => ?_) (by simp) (by simp)
  rcases c.body_starts y hy with ⟨op, incoming, rfl⟩ | ⟨op, rfl⟩ | ⟨op, rfl⟩ | hother
  · rfl
  · rfl
  · rfl
  · exact (Section.other hother).1

end Custody

/-- A live lease has its token among the radio's owners, unless it began in native mode; and a token
among them is a live lease's, or a thread has still to give it to one or take it out. -/
structure Tokens (a : Shared) (P : Multiset Section) : Prop where
  kind : ∀ l, (a.leases l).active = true → (a.leases l).token = !(a.leases l).native
  owns : ∀ l, (a.leases l).active = true → (a.leases l).token = true → .token l ∈ a.radioOwners
  ready : ∀ x ∈ P, ∀ l, x.readies = some l → .token l ∈ a.radioOwners
  dropped : ∀ l, .disown (.token l) ∈ P → l < a.nextLease ∧ (a.leases l).active = false ∧
    ∀ x ∈ P, x.begins ≠ some l
  kept : ∀ l, .token l ∈ a.radioOwners →
    ((a.leases l).active = true ∧ (a.leases l).token = true) ∨
      (∃ x ∈ P, x.readies = some l) ∨ .disown (.token l) ∈ P

section Tokens

variable {a b : Shared} {x : Section} {ch : Choice} {new : List Section} {R P : Multiset Section}

theorem Section.begins_of_readies {l : ℕ} (hx : x.readies = some l) : x.begins = some l := by
  cases x with
  | raise => exact hx
  | activate op incoming native l' =>
    cases native with
    | false => exact hx
    | true => cases hx
  | _ => cases hx

/-- The leases and the tokens stay, and what is done about them goes on. -/
theorem Tokens.carry {old : List Section} (h : Tokens a (old + R))
    (hlease : ∀ l, (b.leases l).active = (a.leases l).active ∧ (b.leases l).token = (a.leases l).token ∧
      (b.leases l).native = (a.leases l).native)
    (hnext : b.nextLease = a.nextLease) (ht : ∀ l, .token l ∈ b.radioOwners ↔ .token l ∈ a.radioOwners)
    (hb : ∀ y ∈ new, ∀ l, y.begins = some l → ∃ z ∈ old, z.begins = some l)
    (hr : ∀ y ∈ new, ∀ l, y.readies = some l → ∃ z ∈ old, z.readies = some l)
    (hr' : ∀ z ∈ old, ∀ l, z.readies = some l → ∃ y ∈ new, y.readies = some l)
    (hd : ∀ l, .disown (.token l) ∈ new ↔ .disown (.token l) ∈ old) : Tokens b (new + R) := by
  have hold : ∀ {z : Section}, z ∈ old → z ∈ (old : Multiset Section) + R := fun hz =>
    Multiset.mem_add.mpr (.inl (Multiset.mem_coe.mpr hz))
  have hR : ∀ {z : Section}, z ∈ R → z ∈ (old : Multiset Section) + R := fun hz =>
    Multiset.mem_add.mpr (.inr hz)
  refine ⟨fun l hl => ?_, fun l hl hk => ?_, fun y hy l hyl => ?_, fun l hm => ?_, fun l hl => ?_⟩
  · rw [(hlease l).1] at hl
    rw [(hlease l).2.1, (hlease l).2.2]
    exact h.kind l hl
  · rw [(hlease l).1] at hl
    rw [(hlease l).2.1] at hk
    exact (ht l).mpr (h.owns l hl hk)
  · refine (ht l).mpr ?_
    rcases Multiset.mem_add.mp hy with hy | hy
    · obtain ⟨z, hz, hzl⟩ := hr y (Multiset.mem_coe.mp hy) l hyl
      exact h.ready z (hold hz) l hzl
    · exact h.ready y (hR hy) l hyl
  · have hm' : .disown (.token l) ∈ (old : Multiset Section) + R :=
      (Multiset.mem_add.mp hm).elim (fun hm => hold ((hd l).mp (Multiset.mem_coe.mp hm))) hR
    obtain ⟨h1, h2, h3⟩ := h.dropped l hm'
    refine ⟨hnext ▸ h1, (hlease l).1.trans h2, fun y hy hyl => ?_⟩
    rcases Multiset.mem_add.mp hy with hy | hy
    · obtain ⟨z, hz, hzl⟩ := hb y (Multiset.mem_coe.mp hy) l hyl
      exact h3 z (hold hz) hzl
    · exact h3 y (hR hy) hyl
  · rcases h.kept l ((ht l).mp hl) with hk | ⟨z, hz, hzl⟩ | hm
    · exact .inl (by rwa [(hlease l).1, (hlease l).2.1])
    · refine .inr (.inl ?_)
      rcases Multiset.mem_add.mp hz with hz | hz
      · obtain ⟨y, hy, hyl⟩ := hr' z (Multiset.mem_coe.mp hz) l hzl
        exact ⟨y, Multiset.mem_add.mpr (.inl (Multiset.mem_coe.mpr hy)), hyl⟩
      · exact ⟨z, Multiset.mem_add.mpr (.inr hz), hzl⟩
    · refine .inr (.inr ?_)
      rcases Multiset.mem_add.mp hm with hm | hm
      · exact Multiset.mem_add.mpr (.inl (Multiset.mem_coe.mpr ((hd l).mpr (Multiset.mem_coe.mp hm))))
      · exact Multiset.mem_add.mpr (.inr hm)

/-- The same, for sections that have nothing to do with tokens. -/
theorem Tokens.pass {old : List Section} (h : Tokens a (old + R)) (hleases : b.leases = a.leases)
    (hnext : b.nextLease = a.nextLease) (ht : ∀ l, .token l ∈ b.radioOwners ↔ .token l ∈ a.radioOwners)
    (hold : ∀ y ∈ old, y.begins = none ∧ ∀ l, y ≠ .disown (.token l))
    (hnew : ∀ y ∈ new, y.begins = none ∧ ∀ l, y ≠ .disown (.token l)) : Tokens b (new + R) := by
  refine h.carry (fun l => by simp [hleases]) hnext ht (fun y hy l hb => ?_) (fun y hy l hr => ?_)
    (fun z hz l hr => ?_) fun l => ⟨fun hm => absurd rfl ((hnew _ hm).2 l), fun hm =>
      absurd rfl ((hold _ hm).2 l)⟩
  · rw [(hnew y hy).1] at hb
    cases hb
  · have := Section.begins_of_readies hr
    rw [(hnew y hy).1] at this
    cases this
  · have := Section.begins_of_readies hr
    rw [(hold z hz).1] at this
    cases this

theorem Tokens.beginIn {op : ℕ} {incoming : Bool} (h : Tokens a (.beginIn op incoming ::ₘ R)) :
    Tokens { a.lock op with nextLease := a.nextLease + 1 }
      (.countIn op incoming a.nextLease ::ₘ R) := by
  refine ⟨h.kind, h.owns, fun y hy l hyl => ?_, fun l hm => ?_, fun l hl => ?_⟩
  · rcases Multiset.mem_cons.mp hy with rfl | hy
    · cases hyl
    · exact h.ready y (Multiset.mem_cons_of_mem hy) l hyl
  · obtain ⟨h1, h2, h3⟩ := h.dropped l (Multiset.mem_cons_of_mem (by simpa using hm))
    refine ⟨Nat.lt_succ_of_lt h1, h2, fun y hy hyl => ?_⟩
    rcases Multiset.mem_cons.mp hy with rfl | hy
    · exact absurd (Option.some.inj hyl) h1.ne'
    · exact h3 y (Multiset.mem_cons_of_mem hy) hyl
  · rcases h.kept l hl with hk | ⟨y, hy, hyl⟩ | hm
    · exact .inl hk
    · refine .inr (.inl ?_)
      rcases Multiset.mem_cons.mp hy with rfl | hy
      · cases hyl
      · exact ⟨y, Multiset.mem_cons_of_mem hy, hyl⟩
    · exact .inr (.inr (Multiset.mem_cons_of_mem (by simpa using hm)))

theorem Tokens.own {op l : ℕ} {incoming : Bool} (h : Tokens a (.own op incoming l ::ₘ R)) :
    Tokens { a with radioOwners := insert (.token l) a.radioOwners } (.raise op incoming l ::ₘ R) := by
  refine ⟨h.kind, fun l' hl hk => Finset.mem_insert_of_mem (h.owns l' hl hk), fun y hy l' hyl => ?_,
    fun l' hm => ?_, fun l' hl => ?_⟩
  · rcases Multiset.mem_cons.mp hy with rfl | hy
    · obtain rfl : l = l' := Option.some.inj hyl
      exact Finset.mem_insert_self _ _
    · exact Finset.mem_insert_of_mem (h.ready y (Multiset.mem_cons_of_mem hy) l' hyl)
  · obtain ⟨h1, h2, h3⟩ := h.dropped l' (Multiset.mem_cons_of_mem (by simpa using hm))
    refine ⟨h1, h2, fun y hy hyl => ?_⟩
    rcases Multiset.mem_cons.mp hy with rfl | hy
    · exact h3 _ (Multiset.mem_cons_self _ _) hyl
    · exact h3 y (Multiset.mem_cons_of_mem hy) hyl
  · rcases Finset.mem_insert.mp hl with he | hl
    · obtain rfl : l' = l := Owner.token.inj he
      exact .inr (.inl ⟨_, Multiset.mem_cons_self _ _, rfl⟩)
    · rcases h.kept l' hl with hk | ⟨y, hy, hyl⟩ | hm
      · exact .inl hk
      · refine .inr (.inl ?_)
        rcases Multiset.mem_cons.mp hy with rfl | hy
        · cases hyl
        · exact ⟨y, Multiset.mem_cons_of_mem hy, hyl⟩
      · exact .inr (.inr (Multiset.mem_cons_of_mem (by simpa using hm)))

/-- The radio could not be acquired: the token is on its way out. -/
theorem Tokens.refuse {op l : ℕ} {incoming : Bool} (h : Tokens a (.raise op incoming l ::ₘ R))
    (hacc : Accounts a (.raise op incoming l ::ₘ R)) :
    Tokens a (([.disown (.token l), .uncount, .leave op, .finish l] : List Section) + R) := by
  have hself : Section.begins (.raise op incoming l) = some l := rfl
  obtain ⟨hoff, -⟩ := hacc.idle _ (Multiset.mem_cons_self _ _) l hself
  have hl : l < a.nextLease :=
    not_le.mp fun hle => (hacc.fresh l hle).2 _ (Multiset.mem_cons_self _ _) hself
  have hsole : ∀ x ∈ R, x.begins ≠ some l := by
    have hbegun := hacc.begun l
    rw [Multiset.countP_cons_of_pos (p := fun x : Section => x.begins = some l) _ hself] at hbegun
    exact Multiset.countP_eq_zero.mp (by omega)
  have hnew : ∀ y ∈ ([.disown (.token l), .uncount, .leave op, .finish l] : List Section),
      y.begins = none := by simp [Section.begins]
  refine ⟨h.kind, h.owns, fun y hy l' hyl => ?_, fun l' hm => ?_, fun l' hl' => ?_⟩
  · rcases Multiset.mem_add.mp hy with hy | hy
    · have := Section.begins_of_readies hyl
      rw [hnew y (Multiset.mem_coe.mp hy)] at this
      cases this
    · exact h.ready y (Multiset.mem_cons_of_mem hy) l' hyl
  · rcases eq_or_ne l' l with rfl | hne
    · refine ⟨hl, hoff, fun y hy hyl => ?_⟩
      rcases Multiset.mem_add.mp hy with hy | hy
      · rw [hnew y (Multiset.mem_coe.mp hy)] at hyl
        cases hyl
      · exact hsole y hy hyl
    · have hm' : .disown (.token l') ∈ R := by simpa [hne] using hm
      obtain ⟨h1, h2, h3⟩ := h.dropped l' (Multiset.mem_cons_of_mem hm')
      refine ⟨h1, h2, fun y hy hyl => ?_⟩
      rcases Multiset.mem_add.mp hy with hy | hy
      · rw [hnew y (Multiset.mem_coe.mp hy)] at hyl
        cases hyl
      · exact h3 y (Multiset.mem_cons_of_mem hy) hyl
  · rcases h.kept l' hl' with hk | ⟨y, hy, hyl⟩ | hm
    · exact .inl hk
    · rcases Multiset.mem_cons.mp hy with rfl | hy
      · obtain rfl : l = l' := Option.some.inj hyl
        exact .inr (.inr (by simp))
      · exact .inr (.inl ⟨y, Multiset.mem_add.mpr (.inr hy), hyl⟩)
    · exact .inr (.inr (Multiset.mem_add.mpr (.inr (by simpa using hm))))

theorem Tokens.activate {op l : ℕ} {incoming native : Bool}
    (h : Tokens a (.activate op incoming native l ::ₘ R))
    (hacc : Accounts a (.activate op incoming native l ::ₘ R)) :
    Tokens (a.activate incoming native l) (.associate op l ::ₘ R) := by
  have hself : Section.begins (.activate op incoming native l) = some l := rfl
  have hready := h.ready _ (Multiset.mem_cons_self _ _) l
  have hnodrop : .disown (.token l) ∉ R := fun hm =>
    (h.dropped l (Multiset.mem_cons_of_mem hm)).2.2 _ (Multiset.mem_cons_self _ _) hself
  obtain ⟨k, hk, hleases, howners, hnext⟩ : ∃ k : Lease,
      (k.active = true ∧ k.token = !native ∧ k.native = native) ∧
      (a.activate incoming native l).leases = Function.update a.leases l k ∧
      (a.activate incoming native l).radioOwners = a.radioOwners ∧
      (a.activate incoming native l).nextLease = a.nextLease := by
    unfold Shared.activate
    dsimp only
    split <;> exact ⟨_, ⟨rfl, rfl, rfl⟩, rfl, rfl, rfl⟩
  generalize a.activate incoming native l = b at *
  have hne : ∀ l', l' ≠ l → b.leases l' = a.leases l' := fun l' hl' => by
    rw [hleases, Function.update_of_ne hl']
  have hnew : b.leases l = k := by rw [hleases, Function.update_self]
  refine ⟨fun l' hl => ?_, fun l' hl ht => ?_, fun y hy l' hyl => ?_, fun l' hm => ?_, fun l' hl => ?_⟩
  · rcases eq_or_ne l' l with rfl | hll
    · rw [hnew, hk.2.1, hk.2.2]
    · rw [hne l' hll] at hl ⊢
      exact h.kind l' hl
  · rw [howners]
    rcases eq_or_ne l' l with rfl | hll
    · rw [hnew, hk.2.1] at ht
      cases native with
      | false => exact hready rfl
      | true => cases ht
    · rw [hne l' hll] at hl ht
      exact h.owns l' hl ht
  · rw [howners]
    rcases Multiset.mem_cons.mp hy with rfl | hy
    · cases hyl
    · exact h.ready y (Multiset.mem_cons_of_mem hy) l' hyl
  · have hm' : .disown (.token l') ∈ R := by simpa using hm
    obtain ⟨h1, h2, h3⟩ := h.dropped l' (Multiset.mem_cons_of_mem hm')
    have hll : l' ≠ l := fun he => hnodrop (he ▸ hm')
    refine ⟨hnext ▸ h1, (hne l' hll).symm ▸ h2, fun y hy hyl => ?_⟩
    rcases Multiset.mem_cons.mp hy with rfl | hy
    · cases hyl
    · exact h3 y (Multiset.mem_cons_of_mem hy) hyl
  · rw [howners] at hl
    rcases h.kept l' hl with ⟨hon, ht⟩ | ⟨y, hy, hyl⟩ | hm
    · have hll : l' ≠ l := by
        rintro rfl
        rw [(hacc.idle _ (Multiset.mem_cons_self _ _) l' hself).1] at hon
        cases hon
      exact .inl (by rw [hne l' hll]; exact ⟨hon, ht⟩)
    · rcases Multiset.mem_cons.mp hy with rfl | hy
      · cases native with
        | false =>
          obtain rfl : l = l' := Option.some.inj hyl
          exact .inl (by rw [hnew]; exact ⟨hk.1, hk.2.1⟩)
        | true => cases hyl
      · exact .inr (.inl ⟨y, Multiset.mem_cons_of_mem hy, hyl⟩)
    · exact .inr (.inr (Multiset.mem_cons_of_mem (by simpa using hm)))

theorem Tokens.finish {l : ℕ} (h : Tokens a (.finish l ::ₘ R)) (hacc : Accounts a (.finish l ::ₘ R))
    (hon : (a.leases l).active = true)
    (hnew : new = (if (a.leases l).token then [.disown (.token l)] else []) ++
      .uncount :: if (a.leases l).incoming then [.unlist l] else []) :
    Tokens (a.finish l) (new + R) := by
  have hne : ∀ l', l' ≠ l → (a.finish l).leases l' = a.leases l' := fun l' hl' =>
    Function.update_of_ne hl' ..
  have hself : (a.finish l).leases l = (a.leases l).finished := Function.update_self ..
  have hl : l < a.nextLease := hacc.lt_next fun he => by simp [he] at hon
  have hnone : ∀ y ∈ new, y.begins = none := by
    rw [hnew]
    intro y hy
    rcases mem_finish hy with ⟨rfl, -⟩ | rfl | rfl <;> rfl
  have hdrop : ∀ l', .disown (.token l') ∈ new → l' = l := by
    rw [hnew]
    intro l' hm
    rcases mem_finish hm with ⟨he, -⟩ | he | he
    · exact Owner.token.inj (Section.disown.inj he)
    · cases he
    · cases he
  refine ⟨fun l' hl' => ?_, fun l' hl' ht => ?_, fun y hy l' hyl => ?_, fun l' hm => ?_,
    fun l' hl' => ?_⟩
  · rcases eq_or_ne l' l with rfl | hll
    · rw [hself] at hl'
      cases hl'
    · rw [hne l' hll] at hl' ⊢
      exact h.kind l' hl'
  · rcases eq_or_ne l' l with rfl | hll
    · rw [hself] at hl'
      cases hl'
    · rw [hne l' hll] at hl' ht
      exact h.owns l' hl' ht
  · rcases Multiset.mem_add.mp hy with hy | hy
    · have := Section.begins_of_readies hyl
      rw [hnone y (Multiset.mem_coe.mp hy)] at this
      cases this
    · exact h.ready y (Multiset.mem_cons_of_mem hy) l' hyl
  · rcases eq_or_ne l' l with rfl | hll
    · refine ⟨hl, by rw [hself]; rfl, fun y hy hyl => ?_⟩
      rcases Multiset.mem_add.mp hy with hy | hy
      · rw [hnone y (Multiset.mem_coe.mp hy)] at hyl
        cases hyl
      · rw [(hacc.idle y (Multiset.mem_cons_of_mem hy) l' hyl).1] at hon
        cases hon
    · rcases Multiset.mem_add.mp hm with hm | hm
      · exact absurd (hdrop l' (Multiset.mem_coe.mp hm)) hll
      · obtain ⟨h1, h2, h3⟩ := h.dropped l' (Multiset.mem_cons_of_mem hm)
        refine ⟨h1, (hne l' hll).symm ▸ h2, fun y hy hyl => ?_⟩
        rcases Multiset.mem_add.mp hy with hy | hy
        · rw [hnone y (Multiset.mem_coe.mp hy)] at hyl
          cases hyl
        · exact h3 y (Multiset.mem_cons_of_mem hy) hyl
  · rcases h.kept l' hl' with ⟨hon', ht⟩ | ⟨y, hy, hyl⟩ | hm
    · rcases eq_or_ne l' l with rfl | hll
      · refine .inr (.inr (Multiset.mem_add.mpr (.inl ?_)))
        rw [hnew, if_pos ht]
        simp
      · exact .inl (by rw [hne l' hll]; exact ⟨hon', ht⟩)
    · rcases Multiset.mem_cons.mp hy with rfl | hy
      · cases hyl
      · exact .inr (.inl ⟨y, Multiset.mem_add.mpr (.inr hy), hyl⟩)
    · exact .inr (.inr (Multiset.mem_add.mpr (.inr (by simpa using hm))))

theorem Tokens.drop {l : ℕ} (h : Tokens a (.disown (.token l) ::ₘ R)) :
    Tokens (a.disown (.token l)) R := by
  obtain ⟨-, hoff, hnone⟩ := h.dropped l (Multiset.mem_cons_self _ _)
  have hkeep : ∀ l', l' ≠ l → .token l' ∈ a.radioOwners → .token l' ∈ (a.disown (.token l)).radioOwners :=
    fun l' hne hm => Finset.mem_erase.mpr ⟨fun he => hne (Owner.token.inj he), hm⟩
  refine ⟨h.kind, fun l' hl ht => hkeep l' ?_ (h.owns l' hl ht), fun y hy l' hyl => hkeep l' ?_
    (h.ready y (Multiset.mem_cons_of_mem hy) l' hyl), fun l' hm => ?_, fun l' hl => ?_⟩
  · rintro rfl
    have hl : (a.leases l').active = true := hl
    rw [hoff] at hl
    cases hl
  · rintro rfl
    exact hnone y (Multiset.mem_cons_of_mem hy) (Section.begins_of_readies hyl)
  · obtain ⟨h1, h2, h3⟩ := h.dropped l' (Multiset.mem_cons_of_mem hm)
    exact ⟨h1, h2, fun y hy => h3 y (Multiset.mem_cons_of_mem hy)⟩
  · obtain ⟨hne, hl⟩ := Finset.mem_erase.mp hl
    rcases h.kept l' hl with hk | ⟨y, hy, hyl⟩ | hm
    · exact .inl hk
    · rcases Multiset.mem_cons.mp hy with rfl | hy
      · cases hyl
      · exact .inr (.inl ⟨y, hy, hyl⟩)
    · rcases Multiset.mem_cons.mp hm with hm | hm
      · exact absurd (Section.disown.inj hm) hne
      · exact .inr (.inr hm)

theorem Section.other_token (hx : x.transfer = false) :
    x.begins = none ∧ ∀ l, x ≠ .disown (.token l) := by
  refine ⟨(Section.other hx).1, ?_⟩
  rintro l rfl
  cases hx

/-- **Every section of every thread keeps the tokens.** -/
theorem Tokens.sec (h : Tokens a (x ::ₘ R)) (hacc : Accounts a (x ::ₘ R))
    (hs : sec x ch a = some (b, new)) : Tokens b (new + R) := by
  have h' : Tokens a (([x] : List Section) + R) := h
  cases hx : x.transfer with
  | false =>
    obtain ⟨hu, hnew⟩ := sec_other hx hs
    have hb := hu.accounts
    simp only [Shared.accounts, Prod.mk.injEq] at hb
    refine h'.pass hb.1 hb.2.1 hu.tokens (fun y hy => ?_) fun y hy => Section.other_token (hnew y hy)
    rw [List.mem_singleton.mp hy]
    exact Section.other_token hx
  | true =>
    cases x with
    | flushLater | dispatch | beat | forget | request | originalStart | flush | resume | transition
    | check | expire | block | startServer | stopServer | deferStop | originalStop => cases hx
    | beginIn op incoming =>
      obtain ⟨-, ⟨-, rfl, rfl⟩ | ⟨-, rfl, rfl⟩⟩ := beginIn_cases hs
      · exact h'.pass rfl rfl (fun _ => Iff.rfl) (by simp [Section.begins]) (by simp)
      · exact h.beginIn
    | countIn op incoming l =>
      obtain ⟨rfl, rfl⟩ := Prod.mk.inj (Option.some.inj hs)
      have hcount : ∀ y, y = (if a.nativeMode then Section.activate op incoming true l
          else .own op incoming l) →
          y.begins = some l ∧ y.readies = none ∧ ∀ l', y ≠ .disown (.token l') := by
        rintro y rfl
        split <;> exact ⟨rfl, rfl, by simp⟩
      generalize (if a.nativeMode then Section.activate op incoming true l else .own op incoming l) = y at *
      obtain ⟨h1, h2, h3⟩ := hcount y rfl
      refine h'.carry (fun _ => ⟨rfl, rfl, rfl⟩) rfl (fun _ => Iff.rfl) ?_ ?_ ?_ ?_
      · intro z hz l' hzl
        rw [List.mem_singleton.mp hz, h1] at hzl
        exact ⟨_, List.mem_singleton_self _, hzl⟩
      · intro z hz l' hzl
        rw [List.mem_singleton.mp hz, h2] at hzl
        cases hzl
      · intro z hz l' hzl
        rw [List.mem_singleton.mp hz] at hzl
        cases hzl
      · intro l'
        simp [(h3 l').symm]
    | own op incoming l =>
      obtain ⟨rfl, rfl⟩ := Prod.mk.inj (Option.some.inj hs)
      exact h.own
    | raise op incoming l =>
      obtain ⟨rfl, rfl⟩ := Prod.mk.inj (Option.some.inj hs)
      cases ch.up with
      | true =>
        refine h'.carry (fun _ => ⟨rfl, rfl, rfl⟩) rfl (fun _ => Iff.rfl) ?_ ?_ ?_ (by simp)
        · intro z hz l' hzl
          rw [List.mem_singleton.mp hz] at hzl
          exact ⟨_, List.mem_singleton_self _, hzl⟩
        · intro z hz l' hzl
          rw [List.mem_singleton.mp hz] at hzl
          exact ⟨_, List.mem_singleton_self _, hzl⟩
        · intro z hz l' hzl
          rw [List.mem_singleton.mp hz] at hzl
          exact ⟨_, List.mem_singleton_self _, hzl⟩
      | false => exact h.refuse hacc
    | activate op incoming native l =>
      obtain ⟨rfl, rfl⟩ := Prod.mk.inj (Option.some.inj hs)
      exact h.activate hacc
    | associate op l =>
      obtain ⟨rfl, rfl⟩ := Prod.mk.inj (Option.some.inj hs)
      exact h'.pass rfl rfl (fun _ => Iff.rfl) (by simp [Section.begins]) (by simp)
    | leave op =>
      obtain ⟨rfl, rfl⟩ := Prod.mk.inj (Option.some.inj hs)
      exact h'.pass rfl rfl (fun _ => Iff.rfl) (by simp [Section.begins]) (by simp)
    | endIn op =>
      obtain ⟨-, ⟨-, rfl, rfl⟩ | ⟨l, -, rfl, rfl⟩⟩ := endIn_cases hs
      · exact h'.pass rfl rfl (fun _ => Iff.rfl) (by simp [Section.begins]) (by simp)
      · exact h'.pass rfl rfl (fun _ => Iff.rfl) (by simp [Section.begins]) (by simp [Section.begins])
    | dissociate op l =>
      obtain ⟨rfl, rfl⟩ := Prod.mk.inj (Option.some.inj hs)
      exact h'.pass rfl rfl (fun _ => Iff.rfl) (by simp [Section.begins]) (by simp [Section.begins])
    | dealloc op =>
      obtain ⟨-, ⟨-, rfl, rfl⟩ | ⟨l, -, rfl, rfl⟩⟩ := dealloc_cases hs
      · exact h'.pass rfl rfl (fun _ => Iff.rfl) (by simp [Section.begins]) (by simp)
      · exact h'.pass rfl rfl (fun _ => Iff.rfl) (by simp [Section.begins]) (by simp [Section.begins])
    | finish l =>
      rcases finish_cases hs with ⟨-, rfl, rfl⟩ | ⟨hon, rfl, hnew⟩
      · exact h'.pass rfl rfl (fun _ => Iff.rfl) (by simp [Section.begins]) (by simp)
      · exact h.finish hacc hon hnew
    | unlist l =>
      obtain ⟨rfl, rfl⟩ := Prod.mk.inj (Option.some.inj hs)
      refine h'.carry (fun l' => ?_) rfl (fun _ => Iff.rfl) (by simp [Section.begins])
        (by simp [Section.readies]) (by simp [Section.readies]) (by simp)
      rcases eq_or_ne l' l with rfl | hne
      · simp [Shared.unlist, Shared.setLease, Lease.unlisted]
      · simp [Shared.unlist, Shared.setLease, hne]
    | disown o =>
      cases o with
      | server s => cases hx
      | token l =>
        obtain ⟨rfl, rfl⟩ := Prod.mk.inj (Option.some.inj hs)
        simpa using h.drop
    | uncount =>
      obtain ⟨rfl, rfl⟩ := Prod.mk.inj (Option.some.inj hs)
      exact h'.pass rfl rfl (fun _ => Iff.rfl) (by simp [Section.begins]) (by simp [Section.begins])

theorem Tokens.call (h : Tokens a P) (c : Call) : Tokens a (c.body + P) := by
  have h' : Tokens a (([] : List Section) + P) := by simpa using h
  refine h'.pass rfl rfl (fun _ => Iff.rfl) (by simp) fun y hy => ?_
  rcases c.body_starts y hy with ⟨op, incoming, rfl⟩ | ⟨op, rfl⟩ | ⟨op, rfl⟩ | hother
  · exact ⟨rfl, by simp⟩
  · exact ⟨rfl, by simp⟩
  · exact ⟨rfl, by simp⟩
  · exact Section.other_token hother

end Tokens

/-! ### Transfer accounting -/

/-- The adapter's books balance: every counter is the number of the live leases it stands for, every
live lease is an operation's, and the tokens that own the radio are those of live modern leases. -/
structure Balanced (a : Shared) : Prop where
  active : a.activeTransfers = a.tally Lease.active
  receiving : a.receivingTransfers = a.tally fun k => k.active && (k.asked && !k.native)
  leased : ∀ s, a.leasedTransferServers s =
    a.tally fun k => k.active && (k.asked && !k.native) && k.lists s
  associated : ∀ l, (a.leases l).active = true → ∃ op, a.association op = some l
  owners : ∀ l, .token l ∈ a.radioOwners ↔ (a.leases l).active = true ∧ (a.leases l).native = false

/-- What a begin that fails must leave alone. -/
def Shared.books (a : Shared) :
    ℕ × ℕ × (ℕ → ℕ) × (ℕ → Lease) × (ℕ → Option ℕ) × Finset Owner × Finset ℕ :=
  (a.activeTransfers, a.receivingTransfers, a.leasedTransferServers, a.leases, a.association,
    a.radioOwners, a.transferServers)

structure Kept (a : Shared) (P : Multiset Section) : Prop where
  accounts : Accounts a P
  locks : Locks a P
  custody : Custody a P
  tokens : Tokens a P

section Runs

variable {a : Shared} {P : Multiset Section} {n : ℕ} {ls : List (Threads.Label Choice Call)}
  {t : Threads Shared Section}

theorem kept_install (n : ℕ) : Kept (install n).shared (install n).all := by
  have hall : (install n).all = 0 := by
    simp [Threads.all, Threads.pending, install]
  rw [hall]
  refine ⟨⟨?_, ?_, ?_, ?_, ?_, ?_, ?_, ?_, ?_⟩, ⟨?_, ?_, ?_⟩, ⟨?_, ?_, ?_, ?_⟩, ⟨?_, ?_, ?_, ?_, ?_⟩⟩ <;>
    simp [install, Shared.tally]

theorem Kept.call (h : Kept a P) (c : Call) : Kept a (c.body + P) :=
  ⟨h.accounts.call c, h.locks.call c, h.custody.call c, h.tokens.call c⟩

theorem Kept.sec {b : Shared} {x : Section} {ch : Choice} {new : List Section}
    {R : Multiset Section} (h : Kept a (x ::ₘ R)) (hs : sec x ch a = some (b, new)) :
    Kept b (new + R) :=
  ⟨h.accounts.sec hs, h.locks.sec hs, h.custody.sec h.accounts h.locks hs, h.tokens.sec h.accounts hs⟩

theorem Kept.undisturbed {b : Shared} (h : Kept a P) (hu : Undisturbed a b) : Kept b P := by
  have h' : Kept a (([] : List Section) + P) := by simpa using h
  have hacc := hu.accounts
  simp only [Shared.accounts, Prod.mk.injEq] at hacc
  have hb : Kept b (([] : List Section) + P) :=
    ⟨h'.accounts.pass hu.accounts hu.active (by simp) (by simp),
      h'.locks.pass hu.locked hu.association (by simp) (by simp),
      h'.custody.pass hu (by simp) (by simp) (by simp),
      h'.tokens.pass hacc.1 hacc.2.1 hu.tokens (by simp) (by simp)⟩
  simpa using hb

end Runs

end AquaTransport.Adapter
