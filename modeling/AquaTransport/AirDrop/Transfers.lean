import AquaTransport.AirDrop.Adapter

/-!
# AquaTransport.AirDrop.Transfers — transfer accounting

`tally` counts leases.  `Accounts` relates the adapter's counters to the leases and to the sections that
are still to run, and every section of every thread keeps it.
-/

namespace AquaTransport.Adapter

/-! ### Counting leases -/

/-- The leases with a property, of those made. -/
def Shared.tally (a : Shared) (p : Lease → Bool) : ℕ :=
  (List.range a.nextLease).countP fun l => p (a.leases l)

section Tally

variable {a : Shared} {p q : Lease → Bool} {k : Lease} {l : ℕ}

theorem countP_range_update (f : ℕ → Lease) (n : ℕ) (hl : l < n) :
    (List.range n).countP (fun i => p (Function.update f l k i)) + (if p (f l) then 1 else 0) =
      (List.range n).countP (fun i => p (f i)) + if p k then 1 else 0 := by
  have hbelow : ∀ m ≤ l, (List.range m).countP (fun i => p (Function.update f l k i)) =
      (List.range m).countP fun i => p (f i) := by
    intro m hm
    refine List.countP_congr fun i hi => ?_
    rw [Function.update_of_ne (by have := List.mem_range.mp hi; omega)]
  induction n with
  | zero => omega
  | succ n ih =>
    rw [List.range_succ, List.countP_append, List.countP_append, List.countP_singleton,
      List.countP_singleton]
    rcases Nat.lt_succ_iff_lt_or_eq.mp hl with hlt | rfl
    · rw [Function.update_of_ne (by omega)]
      have := ih hlt
      omega
    · rw [hbelow l le_rfl, Function.update_self]
      omega

/-- A lease made takes another value. -/
theorem tally_setLease (hl : l < a.nextLease) :
    (a.setLease l k).tally p + (if p (a.leases l) then 1 else 0) =
      a.tally p + if p k then 1 else 0 :=
  countP_range_update a.leases a.nextLease hl

end Tally

/-! ### What the sections carry -/

namespace Section

/-- The lease that the thread is beginning. -/
def begins : Section → Option ℕ
  | .countIn _ _ l | .own _ _ l | .raise _ _ l | .activate _ _ _ l => some l
  | _ => none

/-- The thread has raised `active_transfers` for no live lease, or has still to lower it. -/
def counted : Section → Bool
  | .own _ _ _ | .raise _ _ _ | .activate _ _ _ _ | .uncount => true
  | _ => false

end Section

/-- The sections of `begin_transfer`, `end_transfer` and `finish`. -/
def Section.transfer : Section → Bool
  | .beginIn _ _ | .countIn _ _ _ | .own _ _ _ | .raise _ _ _ | .activate _ _ _ _ => true
  | .associate _ _ | .leave _ | .endIn _ | .dissociate _ _ | .dealloc _ => true
  | .finish _ | .unlist _ | .uncount | .disown (.token _) => true
  | _ => false

/-- The sections that a call can start with. -/
def Section.entry : Section → Bool
  | .beginIn _ _ | .endIn _ | .dealloc _ | .request _ | .beat | .expire | .block => true
  | .startServer _ | .stopServer _ => true
  | _ => false

theorem Call.body_entry (c : Call) : ∀ y ∈ c.body, y.entry = true := by
  intro y hy
  cases c with
  | transferStart op throws =>
    rcases List.mem_cons.mp hy with rfl | hy
    · rfl
    · split at hy
      · rw [List.mem_singleton.mp hy]
        rfl
      · cases hy
  | transferEvent op event | receiveEvent op event =>
    simp only [Call.body] at hy
    split at hy
    · rw [List.mem_singleton.mp hy]
      rfl
    · cases hy
  | receiveStop op ask =>
    simp only [Call.body] at hy
    split at hy
    · cases hy
    · rw [List.mem_singleton.mp hy]
      rfl
  | receivedRequest op path =>
    simp only [Call.body] at hy
    split at hy
    · rw [List.mem_singleton.mp hy]
      rfl
    · cases hy
  | modeRequested value =>
    cases value with
    | none => cases hy
    | some v =>
      rw [List.mem_singleton.mp hy]
      rfl
  | transferStop | dealloc | modeHeartbeat | expireModeOwner | mainQueue | startServer | stopServer =>
    rw [List.mem_singleton.mp hy]
    rfl

/-- The leases, and the counters that follow them alone. -/
def Shared.accounts (a : Shared) : (ℕ → Lease) × ℕ × ℕ × (ℕ → ℕ) :=
  (a.leases, a.nextLease, a.receivingTransfers, a.leasedTransferServers)

/-- The counters, over the leases and what is still to run. -/
structure Accounts (a : Shared) (P : Multiset Section) : Prop where
  fresh : ∀ l, a.nextLease ≤ l → a.leases l = {} ∧ ∀ x ∈ P, x.begins ≠ some l
  begun : ∀ l, P.countP (fun x => x.begins = some l) ≤ 1
  idle : ∀ x ∈ P, ∀ l, x.begins = some l →
    (a.leases l).active = false ∧ (a.leases l).servers = none
  ending : ∀ l, P.count (.unlist l) =
    if (a.leases l).active = false ∧ (a.leases l).servers.isSome then 1 else 0
  listed : ∀ l, (a.leases l).active = true → (a.leases l).servers.isSome = (a.leases l).incoming
  kind : ∀ l, (a.leases l).active = true →
    (a.leases l).incoming = ((a.leases l).asked && !(a.leases l).native)
  active : a.activeTransfers = a.tally Lease.active + P.countP fun x => x.counted
  receiving : a.receivingTransfers = a.tally fun k => k.servers.isSome
  leased : ∀ s, a.leasedTransferServers s = a.tally fun k => k.lists s

section Accounts

variable {a b : Shared} {x : Section} {R P : Multiset Section} {old new : List Section} {l : ℕ}

/-- A step that leaves the leases alone: it carries on what it had, or `active_transfers` follows. -/
theorem Accounts.carry (h : Accounts a (old + R)) (ha : b.accounts = a.accounts)
    (hb : ∀ l, new.countP (fun y => y.begins = some l) ≤ old.countP fun y => y.begins = some l)
    (hc : old.countP (fun y => y.counted) ≤ a.activeTransfers →
      b.activeTransfers + old.countP (fun y => y.counted) =
        a.activeTransfers + new.countP fun y => y.counted)
    (hu : ∀ l, new.count (.unlist l) = old.count (.unlist l)) : Accounts b (new + R) := by
  have hmem : ∀ l, ∀ y ∈ (new : Multiset Section) + R, y.begins = some l →
      ∃ z ∈ (old : Multiset Section) + R, z.begins = some l := by
    intro l y hy hl
    rcases Multiset.mem_add.mp hy with hy | hy
    · have hpos : 0 < old.countP fun y => decide (y.begins = some l) :=
        lt_of_lt_of_le (List.countP_pos_iff.mpr ⟨y, Multiset.mem_coe.mp hy, by simpa using hl⟩) (hb l)
      obtain ⟨z, hz, hzl⟩ := List.countP_pos_iff.mp hpos
      exact ⟨z, Multiset.mem_add.mpr (.inl (Multiset.mem_coe.mpr hz)), by simpa using hzl⟩
    · exact ⟨y, Multiset.mem_add.mpr (.inr hy), hl⟩
  simp only [Shared.accounts, Prod.mk.injEq] at ha
  obtain ⟨h1, h2, h4, h5⟩ := ha
  have ht : ∀ p, b.tally p = a.tally p := fun p => by simp only [Shared.tally, h1, h2]
  refine ⟨?_, ?_, ?_, ?_, ?_, ?_, ?_, ?_, ?_⟩
  · intro l hl
    obtain ⟨hd, hP⟩ := h.fresh l (h2 ▸ hl)
    refine ⟨h1 ▸ hd, fun y hy hyl => ?_⟩
    obtain ⟨z, hz, hzl⟩ := hmem l y hy hyl
    exact hP z hz hzl
  · intro l
    have := h.begun l
    have := hb l
    simp only [Multiset.countP_add, Multiset.coe_countP] at *
    omega
  · intro y hy l hl
    obtain ⟨z, hz, hzl⟩ := hmem l y hy hl
    rw [h1]
    exact h.idle z hz l hzl
  · intro l
    have := h.ending l
    have := hu l
    simp only [Multiset.count_add, Multiset.coe_count, h1] at *
    omega
  · rw [h1]
    exact h.listed
  · rw [h1]
    exact h.kind
  · have := h.active
    simp only [Multiset.countP_add, Multiset.coe_countP, Bool.decide_eq_true] at *
    have := hc (by omega)
    rw [ht]
    omega
  · rw [h4, ht]
    exact h.receiving
  · intro s
    rw [h5, ht]
    exact h.leased s

/-! ### What each section does to the accounts -/

theorem Accounts.beginIn {op : ℕ} {incoming : Bool} (h : Accounts a (.beginIn op incoming ::ₘ R)) :
    Accounts { a.lock op with nextLease := a.nextLease + 1 }
      (.countIn op incoming a.nextLease ::ₘ R) := by
  obtain ⟨hd, hP⟩ := h.fresh a.nextLease le_rfl
  have ht : ∀ p, p ({} : Lease) = false →
      Shared.tally { a.lock op with nextLease := a.nextLease + 1 } p = a.tally p := by
    intro p hp
    show (List.range (a.nextLease + 1)).countP _ = _
    rw [List.range_succ, List.countP_append, List.countP_singleton]
    show _ + (if p (a.leases a.nextLease) = true then 1 else 0) = _
    rw [hd, hp]
    rfl
  have hR : ∀ x ∈ R, ∀ l, x.begins = some l → l < a.nextLease := fun x hx l hl =>
    not_le.mp fun hle => (h.fresh l hle).2 x (Multiset.mem_cons_of_mem hx) hl
  refine ⟨?_, ?_, ?_, ?_, h.listed, h.kind, ?_, ?_, ?_⟩
  · intro l hl
    have hl : a.nextLease + 1 ≤ l := hl
    obtain ⟨hd', -⟩ := h.fresh l (by omega)
    refine ⟨hd', fun x hx hxl => ?_⟩
    rcases Multiset.mem_cons.mp hx with rfl | hx
    · obtain rfl : a.nextLease = l := Option.some.inj hxl
      omega
    · have := hR x hx l hxl
      omega
  · intro l
    have hbegun := h.begun l
    rw [Multiset.countP_cons_of_neg _ (by simp [Section.begins])] at hbegun
    by_cases hl : a.nextLease = l
    · subst hl
      rw [Multiset.countP_cons, Multiset.countP_eq_zero.mpr fun x hx hxl =>
        absurd (hR x hx _ hxl) (lt_irrefl _)]
      split <;> omega
    · rw [Multiset.countP_cons_of_neg _ (by simp [Section.begins, hl])]
      exact hbegun
  · intro x hx l hl
    rcases Multiset.mem_cons.mp hx with rfl | hx
    · obtain rfl : a.nextLease = l := Option.some.inj hl
      show (a.leases a.nextLease).active = false ∧ _
      rw [hd]
      exact ⟨rfl, hd ▸ rfl⟩
    · exact h.idle x (Multiset.mem_cons_of_mem hx) l hl
  · intro l
    rw [Multiset.count_cons_of_ne (by simp)]
    have := h.ending l
    rwa [Multiset.count_cons_of_ne (by simp)] at this
  · have := h.active
    rw [Multiset.countP_cons_of_neg _ (by simp [Section.counted])] at this ⊢
    rw [ht _ rfl]
    exact this
  · rw [ht _ rfl]
    exact h.receiving
  · intro s
    rw [ht _ (by simp [Lease.lists])]
    exact h.leased s

theorem Accounts.activate {op : ℕ} {incoming native : Bool}
    (h : Accounts a (.activate op incoming native l ::ₘ R)) :
    Accounts (a.activate incoming native l) (.associate op l ::ₘ R) := by
  have hself : Section.begins (.activate op incoming native l) = some l := rfl
  obtain ⟨hoff, hnone⟩ := h.idle _ (Multiset.mem_cons_self _ _) l hself
  have hl : l < a.nextLease :=
    not_le.mp fun hle => (h.fresh l hle).2 _ (Multiset.mem_cons_self _ _) hself
  have hsole : ∀ x ∈ R, x.begins ≠ some l := by
    have hbegun := h.begun l
    rw [Multiset.countP_cons_of_pos (p := fun x : Section => x.begins = some l) _ hself] at hbegun
    exact Multiset.countP_eq_zero.mp (by omega)
  obtain ⟨k, hleases, hon, hkind, hservers⟩ : ∃ k : Lease,
      (a.activate incoming native l).leases = Function.update a.leases l k ∧ k.active = true ∧
      (k.incoming = (k.asked && !k.native) ∧ k.servers.isSome = k.incoming) ∧
      (a.activate incoming native l).receivingTransfers =
        a.receivingTransfers + (if k.servers.isSome then 1 else 0) ∧
      ∀ s, (a.activate incoming native l).leasedTransferServers s =
        a.leasedTransferServers s + if k.lists s then 1 else 0 := by
    unfold Shared.activate
    dsimp only
    split
    · next hin => exact ⟨_, rfl, rfl, ⟨rfl, hin.symm⟩, rfl, fun s => by simp [Lease.lists]⟩
    · next hin => exact ⟨_, rfl, rfl, ⟨rfl, (Bool.eq_false_of_not_eq_true hin).symm⟩, rfl,
        fun s => by simp [Lease.lists, Shared.setLease]⟩
  have hnext : (a.activate incoming native l).nextLease = a.nextLease := by
    unfold Shared.activate
    dsimp only
    split <;> rfl
  have hactive : (a.activate incoming native l).activeTransfers = a.activeTransfers := by
    unfold Shared.activate
    dsimp only
    split <;> rfl
  have ht : ∀ p, (a.activate incoming native l).tally p + (if p (a.leases l) then 1 else 0) =
      a.tally p + if p k then 1 else 0 := by
    intro p
    have := tally_setLease (p := p) (k := k) hl
    rwa [Shared.tally, show (a.setLease l k).leases = _ from hleases.symm,
      show (a.setLease l k).nextLease = _ from hnext.symm] at this
  generalize a.activate incoming native l = b at *
  have hne : ∀ l', l' ≠ l → b.leases l' = a.leases l' := fun l' hl' => by
    rw [hleases, Function.update_of_ne hl']
  have hnew : b.leases l = k := by rw [hleases, Function.update_self]
  refine ⟨?_, ?_, ?_, ?_, ?_, ?_, ?_, ?_, ?_⟩
  · intro l' hl'
    obtain ⟨hd, hP⟩ := h.fresh l' (hnext ▸ hl')
    refine ⟨(hne l' (by omega)).trans hd, fun x hx => ?_⟩
    rcases Multiset.mem_cons.mp hx with rfl | hx
    · simp [Section.begins]
    · exact hP x (Multiset.mem_cons_of_mem hx)
  · intro l'
    rw [Multiset.countP_cons_of_neg _ (by simp [Section.begins])]
    exact le_trans (Multiset.countP_le_of_le _ (Multiset.le_cons_self _ _)) (h.begun l')
  · intro x hx l' hl'
    rcases Multiset.mem_cons.mp hx with rfl | hxR
    · cases hl'
    · rw [hne l' (fun he => hsole x hxR (he ▸ hl'))]
      exact h.idle x (Multiset.mem_cons_of_mem hxR) l' hl'
  · intro l'
    have := h.ending l'
    rw [Multiset.count_cons_of_ne (by simp)] at this ⊢
    by_cases hl' : l' = l
    · subst hl'
      rw [hnew, hon, this, hnone]
      simp
    · rw [hne l' hl']
      exact this
  · intro l' hon'
    by_cases hl' : l' = l
    · subst hl'
      rw [hnew]
      exact hkind.2
    · rw [hne l' hl'] at hon' ⊢
      exact h.listed l' hon'
  · intro l' hon'
    by_cases hl' : l' = l
    · subst hl'
      rw [hnew]
      exact hkind.1
    · rw [hne l' hl'] at hon' ⊢
      exact h.kind l' hon'
  · have h1 := h.active
    have h2 := ht Lease.active
    rw [Multiset.countP_cons_of_pos (p := fun x : Section => x.counted = true) _ rfl] at h1
    rw [Multiset.countP_cons_of_neg _ (by simp [Section.counted]), hactive]
    simp only [hoff, hon, if_true, Bool.false_eq_true, if_false] at h2
    omega
  · have h1 := h.receiving
    have h2 := ht fun k => k.servers.isSome
    simp only [hnone, Option.isSome_none, Bool.false_eq_true, if_false] at h2
    rw [hservers.1, h1]
    omega
  · intro s
    have h1 := h.leased s
    have h2 := ht fun k => k.lists s
    have h3 : (a.leases l).lists s = false := by simp [Lease.lists, hnone]
    simp only [h3, Bool.false_eq_true, if_false] at h2
    rw [hservers.2, h1]
    omega

/-- A lease changes in its end: it goes out of use, or its list is let go of. -/
theorem tally_end {k : Lease} {p : Lease → Bool} (hl : l < a.nextLease) (hold : p (a.leases l) = true)
    (hnew : p k = false) : (a.setLease l k).tally p + 1 = a.tally p := by
  have := tally_setLease (p := p) (k := k) hl
  simpa [hold, hnew] using this

theorem tally_same {k : Lease} {p : Lease → Bool} (hp : p k = p (a.leases l)) :
    (a.setLease l k).tally p = a.tally p := by
  unfold Shared.tally
  refine List.countP_congr fun i _ => ?_
  show p (Function.update a.leases l k i) = true ↔ _
  rcases eq_or_ne i l with rfl | hne
  · rw [Function.update_self, hp]
  · rw [Function.update_of_ne hne]

theorem Accounts.lt_next (h : Accounts a P) (hl : a.leases l ≠ {}) : l < a.nextLease :=
  not_le.mp fun hle => hl (h.fresh l hle).1

/-- What is still to do after a lease has gone out of use. -/
theorem mem_finish {k : Lease} {y : Section}
    (hy : y ∈ (if k.token then [.disown (.token l)] else []) ++
      .uncount :: if k.incoming then [.unlist l] else []) :
    y = .disown (.token l) ∧ k.token = true ∨ y = .uncount ∨ y = .unlist l := by
  rcases List.mem_append.mp hy with hy | hy
  · split at hy
    · next ht => exact .inl ⟨List.mem_singleton.mp hy, ht⟩
    · cases hy
  · rcases List.mem_cons.mp hy with rfl | hy
    · exact .inr (.inl rfl)
    · split at hy
      · exact .inr (.inr (List.mem_singleton.mp hy))
      · cases hy

theorem Accounts.finish (h : Accounts a (.finish l ::ₘ R)) (hon : (a.leases l).active = true)
    (hnew : new = (if (a.leases l).token then [.disown (.token l)] else []) ++
      .uncount :: if (a.leases l).incoming then [.unlist l] else []) :
    Accounts (a.finish l) (new + R) := by
  have hl : l < a.nextLease := h.lt_next fun he => by simp [he] at hon
  have hbegins : ∀ x ∈ new, x.begins = none := by
    rw [hnew]
    intro x hx
    rcases mem_finish hx with ⟨rfl, -⟩ | rfl | rfl <;> rfl
  have hcounted : new.countP (fun x => x.counted) = 1 := by
    rw [hnew]
    split <;> split <;> rfl
  have hunlist : ∀ l', new.count (.unlist l') =
      if l' = l ∧ (a.leases l).incoming then 1 else 0 := by
    intro l'
    rw [hnew]
    rcases eq_or_ne l' l with rfl | hne
    · cases (a.leases l').token <;> cases (a.leases l').incoming <;> simp
    · have hne' : l ≠ l' := hne.symm
      cases (a.leases l).token <;> cases (a.leases l).incoming <;> simp [hne, hne']
  have hne : ∀ l', l' ≠ l → (a.finish l).leases l' = a.leases l' := fun l' hl' =>
    Function.update_of_ne hl' ..
  have hself : (a.finish l).leases l = (a.leases l).finished :=
    Function.update_self ..
  have ht : ∀ p, (a.finish l).tally p =
      (a.setLease l (a.leases l).finished).tally p := fun _ => rfl
  refine ⟨?_, ?_, ?_, ?_, ?_, ?_, ?_, ?_, ?_⟩
  · intro l' hl'
    obtain ⟨hd, hP⟩ := h.fresh l' hl'
    have hl' : a.nextLease ≤ l' := hl'
    refine ⟨(hne l' (by omega)).trans hd, fun x hx => ?_⟩
    rcases Multiset.mem_add.mp hx with hx | hx
    · simp [hbegins x hx]
    · exact hP x (Multiset.mem_cons_of_mem hx)
  · intro l'
    rw [Multiset.countP_add, Multiset.coe_countP, List.countP_eq_zero.mpr
      (fun x hx => by simp [hbegins x hx]), zero_add]
    exact le_trans (Multiset.countP_le_of_le _ (Multiset.le_cons_self _ _)) (h.begun l')
  · intro x hx l' hl'
    rcases Multiset.mem_add.mp hx with hx | hx
    · rw [hbegins x hx] at hl'
      cases hl'
    · obtain ⟨h1, h2⟩ := h.idle x (Multiset.mem_cons_of_mem hx) l' hl'
      rw [hne l' (by rintro rfl; simp [h1] at hon)]
      exact ⟨h1, h2⟩
  · intro l'
    have h1 := h.ending l'
    rw [Multiset.count_cons_of_ne (by simp)] at h1
    rw [Multiset.count_add, Multiset.coe_count, hunlist, h1]
    rcases eq_or_ne l' l with rfl | hl'
    · simp [hself, Lease.finished, hon, h.listed l' hon]
    · simp [hl', hne l' hl']
  · intro l' hon'
    rcases eq_or_ne l' l with rfl | hl'
    · simp [hself, Lease.finished] at hon'
    · rw [hne l' hl'] at hon' ⊢
      exact h.listed l' hon'
  · intro l' hon'
    rcases eq_or_ne l' l with rfl | hl'
    · simp [hself, Lease.finished] at hon'
    · rw [hne l' hl'] at hon' ⊢
      exact h.kind l' hon'
  · have h1 := h.active
    have h2 := tally_end (k := (a.leases l).finished)
      (p := Lease.active) hl hon rfl
    rw [Multiset.countP_cons_of_neg _ (by simp [Section.counted])] at h1
    rw [Multiset.countP_add, Multiset.coe_countP, ht]
    simp only [Bool.decide_eq_true, hcounted]
    show a.activeTransfers = _
    omega
  · rw [ht, tally_same (k := (a.leases l).finished) rfl]
    exact h.receiving
  · intro s
    rw [ht, tally_same (k := (a.leases l).finished) rfl]
    exact h.leased s

theorem Accounts.unlist (h : Accounts a (.unlist l ::ₘ R)) :
    Accounts (a.unlist l) (.flushLater ::ₘ R) := by
  have hcount := h.ending l
  rw [Multiset.count_cons_self] at hcount
  split at hcount
  case isFalse => omega
  rename_i hend
  obtain ⟨hoff, hsome⟩ := hend
  have hR : R.count (.unlist l) = 0 := by omega
  have hl : l < a.nextLease := h.lt_next fun he => by simp [he] at hsome
  have hne : ∀ l', l' ≠ l → (a.unlist l).leases l' = a.leases l' := fun l' hl' =>
    Function.update_of_ne hl' ..
  have hself : (a.unlist l).leases l = (a.leases l).unlisted :=
    Function.update_self ..
  have ht : ∀ p, (a.unlist l).tally p = (a.setLease l (a.leases l).unlisted).tally p :=
    fun _ => rfl
  refine ⟨?_, ?_, ?_, ?_, ?_, ?_, ?_, ?_, ?_⟩
  · intro l' hl'
    obtain ⟨hd, hP⟩ := h.fresh l' hl'
    have hl' : a.nextLease ≤ l' := hl'
    refine ⟨(hne l' (by omega)).trans hd, fun x hx => ?_⟩
    rcases Multiset.mem_cons.mp hx with rfl | hx
    · simp [Section.begins]
    · exact hP x (Multiset.mem_cons_of_mem hx)
  · intro l'
    rw [Multiset.countP_cons_of_neg _ (by simp [Section.begins])]
    exact le_trans (Multiset.countP_le_of_le _ (Multiset.le_cons_self _ _)) (h.begun l')
  · intro x hx l' hl'
    rcases Multiset.mem_cons.mp hx with rfl | hx
    · cases hl'
    · obtain ⟨h1, h2⟩ := h.idle x (Multiset.mem_cons_of_mem hx) l' hl'
      rw [hne l' (by rintro rfl; simp [h2] at hsome)]
      exact ⟨h1, h2⟩
  · intro l'
    rw [Multiset.count_cons_of_ne (by simp)]
    rcases eq_or_ne l' l with rfl | hl'
    · simp [hself, Lease.unlisted, hR]
    · have h1 := h.ending l'
      rw [Multiset.count_cons_of_ne (by simpa using hl')] at h1
      rw [hne l' hl', h1]
  · intro l' hon'
    rcases eq_or_ne l' l with rfl | hl'
    · simp [hself, Lease.unlisted, hoff] at hon'
    · rw [hne l' hl'] at hon' ⊢
      exact h.listed l' hon'
  · intro l' hon'
    rcases eq_or_ne l' l with rfl | hl'
    · simp [hself, Lease.unlisted, hoff] at hon'
    · rw [hne l' hl'] at hon' ⊢
      exact h.kind l' hon'
  · have h1 := h.active
    rw [Multiset.countP_cons_of_neg _ (by simp [Section.counted])] at h1 ⊢
    rw [ht, tally_same (k := (a.leases l).unlisted) rfl]
    exact h1
  · have h1 := h.receiving
    have h2 := tally_end (k := (a.leases l).unlisted)
      (p := fun k => k.servers.isSome) hl hsome rfl
    rw [ht]
    show a.receivingTransfers - 1 = _
    omega
  · intro s
    have h1 := h.leased s
    have h2 := tally_setLease (p := fun k => k.lists s) (k := (a.leases l).unlisted) hl
    have h3 : Lease.lists (a.leases l).unlisted s = false := by
      simp [Lease.lists, Lease.unlisted]
    rw [ht]
    show a.leasedTransferServers s - (if (a.leases l).lists s then 1 else 0) = _
    simp only [h3, Bool.false_eq_true, if_false] at h2
    omega

end Accounts

/-! ### The other sections -/

/-- Nothing that concerns transfers has changed. -/
structure Undisturbed (a b : Shared) : Prop where
  accounts : b.accounts = a.accounts
  active : b.activeTransfers = a.activeTransfers
  association : b.association = a.association
  locked : b.locked = a.locked
  tokens : ∀ l, .token l ∈ b.radioOwners ↔ .token l ∈ a.radioOwners
  began : ∀ l, b.log.count (.began l) = a.log.count (.began l)
  finished : ∀ l, b.log.count (.finished l) = a.log.count (.finished l)

section Undisturbed

variable {a b c : Shared} {x : Section} {ch : Choice} {new : List Section}

/-- The fields that transfers use have not changed at all. -/
theorem Undisturbed.of (h : (b.accounts, b.activeTransfers, b.association, b.locked, b.radioOwners,
    b.log) = (a.accounts, a.activeTransfers, a.association, a.locked, a.radioOwners, a.log)) :
    Undisturbed a b := by
  simp only [Prod.mk.injEq] at h
  obtain ⟨h1, h2, h3, h4, h5, h6⟩ := h
  exact ⟨h1, h2, h3, h4, by simp [h5], by simp [h6], by simp [h6]⟩

theorem Undisturbed.trans (h : Undisturbed a b) (h' : Undisturbed b c) : Undisturbed a c where
  accounts := h'.accounts.trans h.accounts
  active := h'.active.trans h.active
  association := h'.association.trans h.association
  locked := h'.locked.trans h.locked
  tokens l := (h'.tokens l).trans (h.tokens l)
  began l := (h'.began l).trans (h.began l)
  finished l := (h'.finished l).trans (h.finished l)

theorem Undisturbed.foldl {f : Shared → ℕ → Shared} (hf : ∀ a s, Undisturbed a (f a s))
    (l : List ℕ) (a : Shared) : Undisturbed a (l.foldl f a) := by
  induction l generalizing a with
  | nil => exact .of rfl
  | cons s l ih => exact (hf a s).trans (ih (f a s))

theorem undisturbed_disown (s : ℕ) : Undisturbed a (a.disown (.server s)) :=
  ⟨rfl, rfl, rfl, rfl, fun l => by simp [Shared.disown], fun _ => rfl, fun _ => rfl⟩

theorem undisturbed_originalStop (s : ℕ) : Undisturbed a (a.originalStop s) :=
  ⟨rfl, rfl, rfl, rfl, fun _ => Iff.rfl, fun l => by simp [Shared.originalStop],
    fun l => by simp [Shared.originalStop]⟩

theorem undisturbed_resume (s : ℕ) : Undisturbed a (a.resume s) :=
  ⟨rfl, rfl, rfl, rfl, fun _ => Iff.rfl, fun l => by simp [Shared.resume],
    fun l => by simp [Shared.resume]⟩

theorem undisturbed_deferStop (s : ℕ) : Undisturbed a (a.deferStop s) :=
  ⟨rfl, rfl, rfl, rfl, fun _ => Iff.rfl, fun l => by simp [Shared.deferStop],
    fun l => by simp [Shared.deferStop]⟩

theorem undisturbed_await (s : ℕ) : Undisturbed a (a.await s) :=
  ⟨rfl, rfl, rfl, rfl, fun l => by simp [Shared.await], fun _ => rfl, fun _ => rfl⟩

theorem undisturbed_gain (s : ℕ) : Undisturbed a (a.gain s) :=
  ⟨rfl, rfl, rfl, rfl, fun l => by simp [Shared.gain], fun _ => rfl, fun _ => rfl⟩

theorem undisturbed_stopServer (a : Shared) (s : ℕ) : Undisturbed a (a.stopServer s) := by
  have h0 : Undisturbed a (a.retire s) := .of rfl
  unfold Shared.stopServer
  dsimp only
  split
  · exact h0.trans (undisturbed_originalStop s)
  · split
    · have h1 : Undisturbed (a.retire s) ((a.retire s).forget s) := .of rfl
      exact h0.trans (h1.trans ((undisturbed_originalStop s).trans (undisturbed_disown s)))
    · exact h0.trans (undisturbed_deferStop s)

theorem undisturbed_startServer (ups : ℕ → Bool) (a : Shared) (s : ℕ) :
    Undisturbed a (a.startServer ups s) := by
  have h0 : Undisturbed a (a.enlist s) := .of rfl
  have hstart : ∀ b : Shared, Undisturbed b (b.originalStart s) := fun b => .of rfl
  unfold Shared.startServer
  dsimp only
  split
  · exact h0.trans (hstart _)
  · split
    · exact h0.trans ((undisturbed_gain s).trans ((undisturbed_resume s).trans (hstart _)))
    · exact h0.trans (undisturbed_await s)

theorem undisturbed_flush : Undisturbed a a.flush := by
  unfold Shared.flush
  split
  · exact .of rfl
  · have h0 : Undisturbed a { a with deferredTransferServers := [] } := .of rfl
    refine h0.trans (Undisturbed.foldl (fun b s => ?_) _ _)
    have h1 : Undisturbed b (b.forget s) := .of rfl
    have h2 := h1.trans ((undisturbed_originalStop s).trans (undisturbed_disown s))
    exact ⟨h2.accounts, h2.active, h2.association, h2.locked, h2.tokens,
      fun l => by simpa [Shared.carryOut] using h2.began l,
      fun l => by simpa [Shared.carryOut] using h2.finished l⟩

theorem undisturbed_switch (a : Shared) (next : Bool) (ups : ℕ → Bool) :
    Undisturbed a (a.switch next ups) := by
  have h1 := Undisturbed.foldl undisturbed_stopServer a.activeServers a
  have h2 : ∀ b : Shared, Undisturbed b { b with nativeMode := next, era := b.era + 1 } :=
    fun b => .of rfl
  exact (h1.trans (h2 _)).trans (Undisturbed.foldl (undisturbed_startServer ups) _ _)

theorem undisturbed_transition (ups : ℕ → Bool) : Undisturbed a (a.transition ups).1 := by
  rcases a.transition_cases ups with ⟨-, he⟩ | ⟨next, -, -, ⟨-, he⟩ | ⟨-, he⟩⟩ <;> rw [he]
  · exact .of rfl
  · exact .of rfl
  · have h0 : Undisturbed a { a with modeTransitionQueued := false, requestedMode := none } := .of rfl
    exact h0.trans (undisturbed_switch _ _ ups)

/-- **A section of another kind leaves all that concerns transfers alone.** -/
theorem sec_other (hx : x.transfer = false) (hs : sec x ch a = some (b, new)) :
    Undisturbed a b ∧ ∀ y ∈ new, y.transfer = false := by
  cases x with
  | beginIn | countIn | own | raise | activate | associate | leave | endIn | dissociate | dealloc
  | finish | unlist | uncount => cases hx
  | disown o =>
    cases o with
    | token l => cases hx
    | server s =>
      obtain ⟨rfl, rfl⟩ := Prod.mk.inj (Option.some.inj hs)
      exact ⟨undisturbed_disown s, by simp⟩
  | flushLater | dispatch | beat | forget | request | originalStart =>
    obtain ⟨rfl, rfl⟩ := Prod.mk.inj (Option.some.inj hs)
    exact ⟨.of rfl, by simp [Section.transfer]⟩
  | flush =>
    obtain ⟨rfl, rfl⟩ := Prod.mk.inj (Option.some.inj hs)
    exact ⟨undisturbed_flush, by simp⟩
  | resume s =>
    obtain ⟨rfl, rfl⟩ := Prod.mk.inj (Option.some.inj hs)
    exact ⟨undisturbed_resume s, by simp [Section.transfer]⟩
  | originalStop s modern =>
    obtain ⟨rfl, rfl⟩ := Prod.mk.inj (Option.some.inj hs)
    refine ⟨undisturbed_originalStop s, fun y hy => ?_⟩
    split at hy
    · rw [List.mem_singleton.mp hy]
      rfl
    · cases hy
  | transition =>
    have hs : a.transition ch.ups = (b, new) := Option.some.inj hs
    refine ⟨by simpa [hs] using undisturbed_transition (a := a) ch.ups, fun y hy => ?_⟩
    have hnew : new = (a.transition ch.ups).2 := by rw [hs]
    rw [hnew] at hy
    rcases a.transition_cases ch.ups with ⟨-, he⟩ | ⟨next, -, -, ⟨-, he⟩ | ⟨-, he⟩⟩ <;> rw [he] at hy
    · cases hy
    · cases hy
    · rw [List.mem_singleton.mp hy]
      rfl
  | check =>
    rcases check_cases hs with ⟨-, rfl, rfl⟩ | ⟨-, rfl, rfl⟩
    · exact ⟨.of rfl, by simp⟩
    · exact ⟨.of rfl, by simp [Section.transfer]⟩
  | expire =>
    rcases expire_cases hs with ⟨rfl, rfl⟩ | ⟨-, rfl, rfl⟩
    · exact ⟨.of rfl, by simp⟩
    · exact ⟨.of rfl, by simp [Section.transfer]⟩
  | block =>
    obtain ⟨k, rest, -, rfl, rfl⟩ := block_cases hs
    exact ⟨.of rfl, by cases k <;> simp [Block.sec, Section.transfer]⟩
  | startServer s =>
    have h0 : Undisturbed a (a.enlist s) := .of rfl
    rcases startServer_cases hs with ⟨-, rfl, rfl⟩ | ⟨-, rfl, rfl⟩ | ⟨-, rfl, rfl⟩
    · exact ⟨h0, by simp [Section.transfer]⟩
    · exact ⟨h0.trans (undisturbed_gain s), by simp [Section.transfer]⟩
    · exact ⟨h0.trans (undisturbed_await s), by simp⟩
  | stopServer s =>
    obtain ⟨rfl, rfl⟩ := Prod.mk.inj (Option.some.inj hs)
    refine ⟨.of rfl, fun y hy => ?_⟩
    rw [List.mem_singleton.mp hy]
    split <;> rfl
  | deferStop s =>
    rcases deferStop_cases hs with ⟨-, rfl, rfl⟩ | ⟨-, rfl, rfl⟩
    · exact ⟨.of rfl, by simp [Section.transfer]⟩
    · exact ⟨undisturbed_deferStop s, by simp⟩

end Undisturbed

section Run

variable {a b : Shared} {x : Section} {ch : Choice} {new : List Section} {R P : Multiset Section}

/-- Another kind of section carries nothing. -/
theorem Section.other (hx : x.transfer = false) :
    x.begins = none ∧ x.counted = false ∧ ∀ l, x ≠ .unlist l := by
  cases x <;> first | cases hx; done | exact ⟨rfl, rfl, fun _ => by simp⟩

/-- Sections that carry nothing come and go. -/
theorem Accounts.pass {old : List Section} (h : Accounts a (old + R)) (ha : b.accounts = a.accounts)
    (hc : b.activeTransfers = a.activeTransfers)
    (hold : ∀ y ∈ old, y.counted = false ∧ ∀ l, y ≠ .unlist l)
    (hnew : ∀ y ∈ new, y.begins = none ∧ y.counted = false ∧ ∀ l, y ≠ .unlist l) :
    Accounts b (new + R) := by
  refine h.carry ha (fun l => ?_) (fun _ => ?_) fun l => ?_
  · rw [List.countP_eq_zero.mpr fun y hy => by simp [(hnew y hy).1]]
    exact Nat.zero_le _
  · have hn : new.countP (fun y => y.counted) = 0 :=
      List.countP_eq_zero.mpr fun y hy => by simp [(hnew y hy).2.1]
    have ho : old.countP (fun y => y.counted) = 0 :=
      List.countP_eq_zero.mpr fun y hy => by simp [(hold y hy).1]
    rw [hn, ho, hc]
  · rw [List.count_eq_zero.mpr fun hm => (hnew _ hm).2.2 l rfl,
      List.count_eq_zero.mpr fun hm => (hold _ hm).2 l rfl]

/-- **Every section of every thread keeps the accounts.** -/
theorem Accounts.sec (h : Accounts a (x ::ₘ R)) (hs : sec x ch a = some (b, new)) :
    Accounts b (new + R) := by
  have h' : Accounts a (([x] : List Section) + R) := h
  cases hx : x.transfer with
  | false =>
    obtain ⟨hu, hnew⟩ := sec_other hx hs
    refine h'.pass hu.accounts hu.active (fun y hy => ?_) fun y hy => Section.other (hnew y hy)
    rw [List.mem_singleton.mp hy]
    exact (Section.other hx).2
  | true =>
    cases x with
    | flushLater | dispatch | beat | forget | request | originalStart | flush | resume | transition
    | check | expire | block | startServer | stopServer | deferStop | originalStop => cases hx
    | beginIn op incoming =>
      obtain ⟨-, ⟨-, rfl, rfl⟩ | ⟨-, rfl, rfl⟩⟩ := beginIn_cases hs
      · exact h'.pass rfl rfl (by simp [Section.counted]) (by simp)
      · exact h.beginIn
    | countIn op incoming l =>
      obtain ⟨rfl, rfl⟩ := Prod.mk.inj (Option.some.inj hs)
      refine h'.carry rfl (fun l' => ?_) (fun _ => ?_) fun l' => ?_
      · split <;> exact le_rfl
      · split <;> rfl
      · split <;> simp
    | own op incoming l =>
      obtain ⟨rfl, rfl⟩ := Prod.mk.inj (Option.some.inj hs)
      exact h'.carry rfl (fun _ => le_rfl) (fun _ => rfl) (by simp)
    | raise op incoming l =>
      obtain ⟨rfl, rfl⟩ := Prod.mk.inj (Option.some.inj hs)
      refine h'.carry rfl (fun l' => ?_) (fun _ => ?_) fun l' => ?_
      · split
        · exact le_rfl
        · simp [Section.begins]
      · split <;> rfl
      · split <;> simp
    | activate op incoming native l =>
      obtain ⟨rfl, rfl⟩ := Prod.mk.inj (Option.some.inj hs)
      exact h.activate
    | associate op l =>
      obtain ⟨rfl, rfl⟩ := Prod.mk.inj (Option.some.inj hs)
      exact h'.pass rfl rfl (by simp [Section.counted]) (by simp)
    | leave op =>
      obtain ⟨rfl, rfl⟩ := Prod.mk.inj (Option.some.inj hs)
      exact h'.pass rfl rfl (by simp [Section.counted]) (by simp)
    | endIn op =>
      obtain ⟨-, ⟨-, rfl, rfl⟩ | ⟨l, -, rfl, rfl⟩⟩ := endIn_cases hs
      · exact h'.pass rfl rfl (by simp [Section.counted]) (by simp)
      · exact h'.pass rfl rfl (by simp [Section.counted]) (by simp [Section.begins, Section.counted])
    | dissociate op l =>
      obtain ⟨rfl, rfl⟩ := Prod.mk.inj (Option.some.inj hs)
      exact h'.pass rfl rfl (by simp [Section.counted]) (by simp [Section.begins, Section.counted])
    | dealloc op =>
      obtain ⟨-, ⟨-, rfl, rfl⟩ | ⟨l, -, rfl, rfl⟩⟩ := dealloc_cases hs
      · exact h'.pass rfl rfl (by simp [Section.counted]) (by simp)
      · exact h'.pass rfl rfl (by simp [Section.counted]) (by simp [Section.begins, Section.counted])
    | finish l =>
      rcases finish_cases hs with ⟨-, rfl, rfl⟩ | ⟨hon, rfl, hnew⟩
      · exact h'.pass rfl rfl (by simp [Section.counted]) (by simp)
      · exact h.finish hon hnew
    | unlist l =>
      obtain ⟨rfl, rfl⟩ := Prod.mk.inj (Option.some.inj hs)
      exact h.unlist
    | disown o =>
      obtain ⟨rfl, rfl⟩ := Prod.mk.inj (Option.some.inj hs)
      exact h'.pass rfl rfl (by simp [Section.counted]) (by simp)
    | uncount =>
      obtain ⟨rfl, rfl⟩ := Prod.mk.inj (Option.some.inj hs)
      refine h'.carry rfl (fun _ => le_rfl) (fun hle => ?_) (by simp)
      have hle : 1 ≤ a.activeTransfers := hle
      show a.activeTransfers - 1 + 1 = a.activeTransfers + 0
      omega

/-- What a call starts with asks for a lock first, or has nothing to do with transfers. -/
theorem Section.entry_transfer (hx : x.entry = true) : (∃ op incoming, x = .beginIn op incoming) ∨
    (∃ op, x = .endIn op) ∨ (∃ op, x = .dealloc op) ∨ x.transfer = false := by
  cases x with
  | beginIn op incoming => exact .inl ⟨op, incoming, rfl⟩
  | endIn op => exact .inr (.inl ⟨op, rfl⟩)
  | dealloc op => exact .inr (.inr (.inl ⟨op, rfl⟩))
  | _ => first | cases hx; done | exact .inr (.inr (.inr rfl))

theorem Call.body_starts (c : Call) : ∀ y ∈ c.body, (∃ op incoming, y = .beginIn op incoming) ∨
    (∃ op, y = .endIn op) ∨ (∃ op, y = .dealloc op) ∨ y.transfer = false :=
  fun y hy => Section.entry_transfer (c.body_entry y hy)

theorem Accounts.call (h : Accounts a P) (c : Call) : Accounts a (c.body + P) := by
  have h' : Accounts a (([] : List Section) + P) := by simpa using h
  refine h'.pass rfl rfl (by simp) fun y hy => ?_
  rcases c.body_starts y hy with ⟨op, incoming, rfl⟩ | ⟨op, rfl⟩ | ⟨op, rfl⟩ | hother
  · exact ⟨rfl, rfl, by simp⟩
  · exact ⟨rfl, rfl, by simp⟩
  · exact ⟨rfl, rfl, by simp⟩
  · exact Section.other hother

end Run

end AquaTransport.Adapter
