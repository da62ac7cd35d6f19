import AquaTransport.AirDrop.Receivers

/-!
# AquaTransport.AirDrop.Connections — what a section is about

A connection is an operation of the server that accepted it; `home` says which.  A section hands on the
operation and the server that it is about (`sec_lineage`).  `Asked`: the leases of connections are
incoming ones, so that in modern mode they are counted.  `Gone`: no table brings back a server that none
has.
-/

namespace AquaTransport.Drain

open Adapter

/-- The operation has a live lease. -/
def live (a : Shared) (op : ℕ) : Bool := (a.association op).any fun l => (a.leases l).active

/-- The operation that the thread begins a transfer on. -/
def opening : Section → Option ℕ
  | .beginIn op _ | .countIn op _ _ | .own op _ _ | .raise op _ _ | .activate op _ _ _ => some op
  | .associate op _ | .leave op => some op
  | _ => none

/-- The server that the thread has a reference to. -/
def about : Section → Option ℕ
  | .startServer s | .resume s | .originalStart s | .stopServer s | .deferStop s | .forget s => some s
  | .originalStop s _ | .disown (.server s) => some s
  | _ => none

/-- The server that the thread is starting. -/
def launches : Section → Option ℕ
  | .startServer s | .resume s | .originalStart s => some s
  | _ => none

/-- The operation that the thread begins a transfer on, and whether it is an incoming one. -/
def asks : Section → Option (ℕ × Bool)
  | .beginIn op incoming | .countIn op incoming _ | .own op incoming _ => some (op, incoming)
  | .raise op incoming _ | .activate op incoming _ _ => some (op, incoming)
  | _ => none

/-- A server's weak references are cleared. -/
def vanish (a : Shared) (s : ℕ) : Shared :=
  { a with
    activeServers := a.activeServers.filter (· ≠ s)
    pendingServers := a.pendingServers.erase s
    transferServers := a.transferServers.erase s
    radioOwners := a.radioOwners.erase (.server s) }

/-! ### What comes next -/

section Sections

variable {a b : Shared} {x y : Section} {ch : Choice} {new : List Section} {op s l : ℕ}

theorem about_of_launches (h : launches x = some s) : about x = some s := by
  cases x <;> first | exact h | cases h

/-- What comes next has nothing of the kind. -/
theorem lineage_none {α : Type} {f : Section → Option α} (hy : f y = none) :
    ∀ p, f y = some p → f x = some p := by
  intro p h
  rw [hy] at h
  cases h

/-- What comes next is about nothing. -/
theorem lineage_quiet (h1 : opening y = none) (h2 : about y = none) (h3 : launches y = none)
    (h4 : asks y = none) :
    (∀ op, opening y = some op → opening x = some op) ∧ (∀ s, about y = some s → about x = some s) ∧
      (∀ s, launches y = some s → launches x = some s) ∧ ∀ p, asks y = some p → asks x = some p :=
  ⟨lineage_none h1, lineage_none h2, lineage_none h3, lineage_none h4⟩

/-- What comes next is about the same operation and the same server, if about any. -/
theorem sec_lineage (hs : sec x ch a = some (b, new)) (hy : y ∈ new) :
    (∀ op, opening y = some op → opening x = some op) ∧ (∀ s, about y = some s → about x = some s) ∧
      (∀ s, launches y = some s → launches x = some s) ∧ ∀ p, asks y = some p → asks x = some p := by
  cases x with
  | beginIn op incoming =>
    obtain ⟨-, ⟨-, rfl, rfl⟩ | ⟨-, rfl, rfl⟩⟩ := beginIn_cases hs
    · cases hy
    · rw [List.mem_singleton.mp hy]
      exact ⟨fun _ h => h, lineage_none rfl, lineage_none rfl, fun _ h => h⟩
  | countIn op incoming l =>
    obtain ⟨rfl, rfl⟩ := Prod.mk.inj (Option.some.inj hs)
    rw [List.mem_singleton.mp hy]
    split <;> exact ⟨fun _ h => h, lineage_none rfl, lineage_none rfl, fun _ h => h⟩
  | own =>
    obtain ⟨rfl, rfl⟩ := Prod.mk.inj (Option.some.inj hs)
    rw [List.mem_singleton.mp hy]
    exact ⟨fun _ h => h, lineage_none rfl, lineage_none rfl, fun _ h => h⟩
  | activate =>
    obtain ⟨rfl, rfl⟩ := Prod.mk.inj (Option.some.inj hs)
    rw [List.mem_singleton.mp hy]
    exact ⟨fun _ h => h, lineage_none rfl, lineage_none rfl, lineage_none rfl⟩
  | raise op incoming l =>
    obtain ⟨rfl, rfl⟩ := Prod.mk.inj (Option.some.inj hs)
    split at hy
    · rw [List.mem_singleton.mp hy]
      exact ⟨fun _ h => h, lineage_none rfl, lineage_none rfl, fun _ h => h⟩
    · rcases (by simpa using hy : y = _ ∨ y = _ ∨ y = _ ∨ y = _) with rfl | rfl | rfl | rfl <;>
        first
          | exact lineage_quiet rfl rfl rfl rfl
          | exact ⟨fun _ h => h, lineage_none rfl, lineage_none rfl, lineage_none rfl⟩
  | endIn op =>
    obtain ⟨-, ⟨-, rfl, rfl⟩ | ⟨l, -, rfl, rfl⟩⟩ := endIn_cases hs
    · cases hy
    · rcases List.mem_pair.mp hy with rfl | rfl <;> exact lineage_quiet rfl rfl rfl rfl
  | dealloc op =>
    obtain ⟨-, ⟨-, rfl, rfl⟩ | ⟨l, -, rfl, rfl⟩⟩ := dealloc_cases hs
    · cases hy
    · rw [List.mem_singleton.mp hy]
      exact lineage_quiet rfl rfl rfl rfl
  | finish l =>
    rcases finish_cases hs with ⟨-, rfl, rfl⟩ | ⟨-, rfl, rfl⟩
    · cases hy
    · rcases mem_finish hy with ⟨rfl, -⟩ | rfl | rfl <;> exact lineage_quiet rfl rfl rfl rfl
  | check =>
    rcases check_cases hs with ⟨-, rfl, rfl⟩ | ⟨-, rfl, rfl⟩
    · cases hy
    · rw [List.mem_singleton.mp hy]
      exact lineage_quiet rfl rfl rfl rfl
  | expire =>
    rcases expire_cases hs with ⟨rfl, rfl⟩ | ⟨-, rfl, rfl⟩
    · cases hy
    · rw [List.mem_singleton.mp hy]
      exact lineage_quiet rfl rfl rfl rfl
  | block =>
    obtain ⟨k, rest, -, rfl, rfl⟩ := block_cases hs
    rw [List.mem_singleton.mp hy]
    cases k <;> exact lineage_quiet rfl rfl rfl rfl
  | transition =>
    have hnew : new = (a.transition ch.ups).2 := (Prod.mk.inj (Option.some.inj hs)).2.symm
    rw [hnew] at hy
    rcases a.transition_cases ch.ups with ⟨-, he⟩ | ⟨next, -, -, ⟨-, he⟩ | ⟨-, he⟩⟩ <;> rw [he] at hy
    · cases hy
    · cases hy
    · rw [List.mem_singleton.mp hy]
      exact lineage_quiet rfl rfl rfl rfl
  | startServer s =>
    rcases startServer_cases hs with ⟨-, rfl, rfl⟩ | ⟨-, rfl, rfl⟩ | ⟨-, rfl, rfl⟩
    · rw [List.mem_singleton.mp hy]
      exact ⟨lineage_none rfl, fun _ h => h, fun _ h => h, lineage_none rfl⟩
    · rw [List.mem_singleton.mp hy]
      exact ⟨lineage_none rfl, fun _ h => h, fun _ h => h, lineage_none rfl⟩
    · cases hy
  | resume s =>
    obtain ⟨rfl, rfl⟩ := Prod.mk.inj (Option.some.inj hs)
    rw [List.mem_singleton.mp hy]
    exact ⟨lineage_none rfl, fun _ h => h, fun _ h => h, lineage_none rfl⟩
  | stopServer s =>
    obtain ⟨rfl, rfl⟩ := Prod.mk.inj (Option.some.inj hs)
    rw [List.mem_singleton.mp hy]
    split <;> exact ⟨lineage_none rfl, fun _ h => h, lineage_none rfl, lineage_none rfl⟩
  | deferStop s =>
    rcases deferStop_cases hs with ⟨-, rfl, rfl⟩ | ⟨-, rfl, rfl⟩
    · rw [List.mem_singleton.mp hy]
      exact ⟨lineage_none rfl, fun _ h => h, lineage_none rfl, lineage_none rfl⟩
    · cases hy
  | forget s =>
    obtain ⟨rfl, rfl⟩ := Prod.mk.inj (Option.some.inj hs)
    rw [List.mem_singleton.mp hy]
    exact ⟨lineage_none rfl, fun _ h => h, lineage_none rfl, lineage_none rfl⟩
  | originalStop s modern =>
    obtain ⟨rfl, rfl⟩ := Prod.mk.inj (Option.some.inj hs)
    cases modern with
    | false => cases hy
    | true =>
      rw [if_pos rfl, List.mem_singleton] at hy
      rw [hy]
      exact ⟨lineage_none rfl, fun _ h => h, lineage_none rfl, lineage_none rfl⟩
  | associate | leave | flushLater | disown | dispatch | beat | flush | originalStart =>
    obtain ⟨rfl, rfl⟩ := Prod.mk.inj (Option.some.inj hs)
    cases hy
  | dissociate | unlist | uncount | request =>
    obtain ⟨rfl, rfl⟩ := Prod.mk.inj (Option.some.inj hs)
    rw [List.mem_singleton.mp hy]
    exact lineage_quiet rfl rfl rfl rfl

theorem associate_of_sec (hs : sec x ch a = some (b, new)) (hy : .associate op l ∈ new) :
    ∃ incoming native, x = .activate op incoming native l ∧ b = a.activate incoming native l := by
  have hx := (sec_lineage hs hy).1 op rfl
  cases x with
  | beginIn op incoming =>
    obtain ⟨-, ⟨-, rfl, rfl⟩ | ⟨-, rfl, rfl⟩⟩ := beginIn_cases hs
    · cases hy
    · cases List.mem_singleton.mp hy
  | countIn op incoming l =>
    obtain ⟨rfl, rfl⟩ := Prod.mk.inj (Option.some.inj hs)
    have := List.mem_singleton.mp hy
    split at this <;> cases this
  | raise op incoming l =>
    obtain ⟨rfl, rfl⟩ := Prod.mk.inj (Option.some.inj hs)
    split at hy <;> simp at hy
  | activate op incoming native k =>
    obtain ⟨rfl, rfl⟩ := Prod.mk.inj (Option.some.inj hs)
    obtain ⟨rfl, rfl⟩ := Section.associate.inj (List.mem_singleton.mp hy)
    exact ⟨incoming, native, rfl, rfl⟩
  | own | associate | leave =>
    obtain ⟨rfl, rfl⟩ := Prod.mk.inj (Option.some.inj hs)
    simp at hy
  | _ => cases hx

theorem sec_association (hs : sec x ch a = some (b, new)) (h : b.association op = some l) :
    a.association op = some l ∨ x = .associate op l := by
  cases hk : x.transfer with
  | false =>
    rw [(sec_other hk hs).1.association] at h
    exact Or.inl h
  | true =>
    cases x with
    | flushLater | dispatch | beat | forget | request | originalStart | flush | resume | transition
    | check | expire | block | startServer | stopServer | deferStop | originalStop => cases hk
    | beginIn => obtain ⟨-, ⟨-, rfl, -⟩ | ⟨-, rfl, -⟩⟩ := beginIn_cases hs <;> exact Or.inl h
    | endIn => obtain ⟨-, ⟨-, rfl, -⟩ | ⟨k, -, rfl, -⟩⟩ := endIn_cases hs <;> exact Or.inl h
    | countIn | own | raise | leave | disown | uncount | unlist =>
      obtain ⟨rfl, rfl⟩ := Prod.mk.inj (Option.some.inj hs)
      exact Or.inl h
    | activate op' incoming native k =>
      obtain ⟨rfl, rfl⟩ := Prod.mk.inj (Option.some.inj hs)
      unfold Shared.activate at h
      dsimp only at h
      split at h <;> exact Or.inl h
    | finish k =>
      obtain ⟨-, rfl, -⟩ | ⟨-, rfl, -⟩ := finish_cases hs <;> exact Or.inl h
    | associate op' l' =>
      obtain ⟨rfl, rfl⟩ := Prod.mk.inj (Option.some.inj hs)
      rcases eq_or_ne op op' with rfl | hne
      · right
        have hl : some l' = some l := by simpa [Shared.setAssociation, Shared.unlock] using h
        rw [Option.some.inj hl]
      · left
        simpa [Shared.setAssociation, Shared.unlock, hne] using h
    | dissociate op' l' =>
      obtain ⟨rfl, rfl⟩ := Prod.mk.inj (Option.some.inj hs)
      rcases eq_or_ne op op' with rfl | hne
      · simp [Shared.setAssociation, Shared.unlock] at h
      · left
        simpa [Shared.setAssociation, Shared.unlock, hne] using h
    | dealloc op' =>
      obtain ⟨-, ⟨-, rfl, -⟩ | ⟨k, -, rfl, -⟩⟩ := dealloc_cases hs
      · exact Or.inl h
      · rcases eq_or_ne op op' with rfl | hne
        · simp [Shared.setAssociation] at h
        · left
          simpa [Shared.setAssociation, hne] using h

theorem sec_active (hs : sec x ch a = some (b, new)) (h : (b.leases l).active = true) :
    (a.leases l).active = true ∨ x.begins = some l := by
  cases hk : x.transfer with
  | false =>
    rw [(Prod.mk.inj (sec_other hk hs).1.accounts).1] at h
    exact Or.inl h
  | true =>
    cases x with
    | flushLater | dispatch | beat | forget | request | originalStart | flush | resume | transition
    | check | expire | block | startServer | stopServer | deferStop | originalStop => cases hk
    | beginIn => obtain ⟨-, ⟨-, rfl, -⟩ | ⟨-, rfl, -⟩⟩ := beginIn_cases hs <;> exact Or.inl h
    | endIn => obtain ⟨-, ⟨-, rfl, -⟩ | ⟨k, -, rfl, -⟩⟩ := endIn_cases hs <;> exact Or.inl h
    | dealloc => obtain ⟨-, ⟨-, rfl, -⟩ | ⟨k, -, rfl, -⟩⟩ := dealloc_cases hs <;> exact Or.inl h
    | countIn | own | raise | associate | leave | dissociate | disown | uncount =>
      obtain ⟨rfl, rfl⟩ := Prod.mk.inj (Option.some.inj hs)
      exact Or.inl h
    | activate op incoming native k =>
      obtain ⟨rfl, rfl⟩ := Prod.mk.inj (Option.some.inj hs)
      rcases eq_or_ne l k with rfl | hne
      · exact Or.inr rfl
      · left
        unfold Shared.activate at h
        dsimp only at h
        split at h <;> simpa [Shared.setLease, hne] using h
    | finish k =>
      rcases finish_cases hs with ⟨-, rfl, -⟩ | ⟨-, rfl, -⟩
      · exact Or.inl h
      · rcases eq_or_ne l k with rfl | hne
        · simp [Shared.finish, Shared.setLease, Lease.finished] at h
        · left
          simpa [Shared.finish, Shared.setLease, hne] using h
    | unlist k =>
      obtain ⟨rfl, rfl⟩ := Prod.mk.inj (Option.some.inj hs)
      left
      rcases eq_or_ne l k with rfl | hne
      · simpa [Shared.unlist, Shared.setLease, Lease.unlisted] using h
      · simpa [Shared.unlist, Shared.setLease, hne] using h

end Sections

/-! ### Leases of connections -/

section Leases

variable {home : ℕ → Option ℕ} {a b : Shared} {x : Section} {ch : Choice} {new : List Section}
  {P R : Multiset Section} {op l : ℕ}

/-- The leases of connections are incoming ones. -/
structure Asked (home : ℕ → Option ℕ) (a : Shared) (P : Multiset Section) : Prop where
  asking : ∀ x ∈ P, ∀ p, asks x = some p → (home p.1).isSome = true → p.2 = true
  handed : ∀ op l, .associate op l ∈ P →
    0 < a.log.count (.began l) ∧ ((home op).isSome = true → (a.leases l).asked = true)
  held : ∀ op l, a.association op = some l →
    0 < a.log.count (.began l) ∧ ((home op).isSome = true → (a.leases l).asked = true)

/-- A lease that began does not begin again. -/
theorem not_begins (h : Adapter.Kept a (x ::ₘ R)) (h0 : 0 < a.log.count (.began l)) :
    x.begins ≠ some l := by
  intro hx
  have hmade := h.custody.made l
  rw [Multiset.countP_cons_of_pos (p := fun x : Section => x.begins = some l) _ hx] at hmade
  omega

theorem Asked.sec (h : Asked home a (x ::ₘ R)) (hk : Adapter.Kept a (x ::ₘ R))
    (hs : sec x ch a = some (b, new)) : Asked home b (new + R) := by
  -- a lease that began stays what it is
  have hkeep : ∀ op l, (0 < a.log.count (.began l) ∧
      ((home op).isSome = true → (a.leases l).asked = true)) →
      0 < b.log.count (.began l) ∧ ((home op).isSome = true → (b.leases l).asked = true) := by
    intro op l hl
    obtain ⟨h0, -, hasked⟩ := sec_origin (not_begins hk hl.1) hs hl.1
    exact ⟨h0, fun hop => hasked.trans (hl.2 hop)⟩
  refine ⟨fun y hy p hp hop => ?_, fun op l hm => ?_, fun op l ha => ?_⟩
  · rcases Multiset.mem_add.mp hy with hy | hy
    · exact h.asking x (Multiset.mem_cons_self _ _) p ((sec_lineage hs hy).2.2.2 p hp) hop
    · exact h.asking y (Multiset.mem_cons_of_mem hy) p hp hop
  · rcases Multiset.mem_add.mp hm with hm | hm
    · obtain ⟨incoming, native, rfl, rfl⟩ := associate_of_sec hs hm
      have hin := h.asking _ (Multiset.mem_cons_self _ _) (op, incoming) rfl
      unfold Shared.activate
      dsimp only
      split <;> exact ⟨by simp [Shared.setLease], fun hop => by simpa [Shared.setLease] using hin hop⟩
    · exact hkeep op l (h.handed op l (Multiset.mem_cons_of_mem hm))
  · rcases sec_association hs ha with ha | rfl
    · exact hkeep op l (h.held op l ha)
    · exact hkeep op l (h.handed op l (Multiset.mem_cons_self _ _))

theorem live_iff : live a op = true ↔ ∃ l, a.association op = some l ∧ (a.leases l).active = true := by
  unfold live
  cases a.association op <;> simp

/-- Only a transfer that begins on it gives an operation a live lease. -/
theorem live_sec (h : Asked home a (x ::ₘ R)) (hk : Adapter.Kept a (x ::ₘ R))
    (hs : sec x ch a = some (b, new)) (hl : live b op = true) :
    live a op = true ∨ opening x = some op := by
  obtain ⟨l, ha, hon⟩ := live_iff.mp hl
  rcases sec_association hs ha with ha | rfl
  · left
    rcases sec_active hs hon with hon | hx
    · exact live_iff.mpr ⟨l, ha, hon⟩
    · exact absurd hx (not_begins hk (h.held op l ha).1)
  · exact Or.inr rfl

/-- In modern mode the live leases of connections are counted. -/
theorem live_eq_false (hk : Adapter.Kept a P) (hm : Modes a P) (h : Asked home a P)
    (hop : (home op).isSome = true) (hmode : a.nativeMode = false) (h0 : a.receivingTransfers = 0) :
    live a op = false := by
  by_contra hl
  obtain ⟨l, ha, hon⟩ := live_iff.mp (by simpa using hl)
  have hkind := hk.accounts.kind l hon
  rw [(h.held op l ha).2 hop, hm.live l hon, hmode] at hkind
  have hlisted := hk.accounts.listed l hon
  rw [hkind] at hlisted
  have hlt : l < a.nextLease := hk.accounts.lt_next fun he => by simp [he] at hon
  have hpos : 0 < a.tally fun k => k.servers.isSome :=
    List.countP_pos_iff.mpr ⟨l, List.mem_range.mpr hlt, hlisted⟩
  have := hk.accounts.receiving
  omega

end Leases

/-! ### Servers that are gone -/

section Gone

variable {a b : Shared} {x : Section} {ch : Choice} {new : List Section} {s s' : ℕ}

/-- No table has the server. -/
structure Gone (a : Shared) (s : ℕ) : Prop where
  leased : a.leasedTransferServers s = 0
  servers : s ∉ a.transferServers
  deferred : s ∉ a.deferredTransferServers
  active : s ∉ a.activeServers

theorem Gone.mono (h : Gone a s) (hl : b.leasedTransferServers s = a.leasedTransferServers s)
    (ht : s ∈ b.transferServers → s ∈ a.transferServers)
    (hd : s ∈ b.deferredTransferServers → s ∈ a.deferredTransferServers)
    (ha : s ∈ b.activeServers → s ∈ a.activeServers) : Gone b s :=
  ⟨hl.trans h.leased, fun hm => h.servers (ht hm), fun hm => h.deferred (hd hm),
    fun hm => h.active (ha hm)⟩

theorem gone_forget (h : Gone a s) (s' : ℕ) : Gone (a.forget s') s :=
  h.mono rfl (fun hm => Finset.mem_of_mem_erase hm) id id

theorem gone_vanish (h : Gone a s) (s' : ℕ) : Gone (vanish a s') s :=
  h.mono rfl Finset.mem_of_mem_erase id fun hm => (List.mem_filter.mp hm).1

theorem gone_vanish_self (hl : a.leasedTransferServers s = 0) (hd : s ∉ a.deferredTransferServers) :
    Gone (vanish a s) s :=
  ⟨hl, Finset.notMem_erase s _, hd, by simp [vanish]⟩

theorem undisturbed_vanish (a : Shared) (s : ℕ) : Undisturbed a (vanish a s) :=
  ⟨rfl, rfl, rfl, rfl, fun l => by simp [vanish], fun _ => rfl, fun _ => rfl⟩

theorem gone_retire (h : Gone a s) (s' : ℕ) : Gone (a.retire s') s :=
  h.mono rfl id id fun hm => (List.mem_filter.mp hm).1

theorem gone_deferStop (h : Gone a s) (hs : s' ≠ s) : Gone (a.deferStop s') s :=
  h.mono rfl id (fun hm => (List.mem_insert_iff.mp hm).resolve_left hs.symm) id

theorem gone_stopServer (h : Gone a s) (s' : ℕ) : Gone (a.stopServer s') s := by
  have hr := gone_retire h s'
  unfold Shared.stopServer
  dsimp only
  split_ifs with hmode hleased
  · exact hr.mono rfl id id id
  · exact (gone_forget hr s').mono rfl id id id
  · refine gone_deferStop hr fun he => hleased ?_
    rw [he]
    exact hr.leased

theorem gone_enlist (h : Gone a s) (hs : s' ≠ s) : Gone (a.enlist s') s :=
  h.mono rfl id id fun hm => (List.mem_insert_iff.mp hm).resolve_left hs.symm

theorem gone_resume (h : Gone a s) (hs : s' ≠ s) : Gone (a.resume s') s :=
  h.mono rfl (fun hm => (Finset.mem_insert.mp hm).resolve_left hs.symm)
    (fun hm => (List.mem_filter.mp hm).1) id

theorem gone_startServer {ups : ℕ → Bool} (h : Gone a s) (hs : s' ≠ s) :
    Gone (a.startServer ups s') s := by
  have he := gone_enlist h hs
  unfold Shared.startServer
  dsimp only
  split_ifs with hmode hup
  · exact he.mono rfl id id id
  · exact (gone_resume (he.mono rfl id id id : Gone ((a.enlist s').gain s') s) hs).mono rfl id id id
  · exact he.mono rfl id id id

theorem gone_foldl {f : Shared → ℕ → Shared} {l : List ℕ}
    (hf : ∀ a, ∀ s' ∈ l, Gone a s → Gone (f a s') s) (h : Gone a s) : Gone (l.foldl f a) s := by
  induction l generalizing a with
  | nil => exact h
  | cons s' l ih =>
    exact ih (fun a s'' hm => hf a s'' (List.mem_cons_of_mem s' hm)) (hf a s' List.mem_cons_self h)

theorem gone_transition (h : Gone a s) (ups : ℕ → Bool) : Gone (a.transition ups).1 s := by
  rcases a.transition_cases ups with ⟨-, he⟩ | ⟨next, -, -, ⟨-, he⟩ | ⟨-, he⟩⟩ <;> rw [he]
  · exact h.mono rfl id id id
  · exact h.mono rfl id id id
  · have hstart : ∀ s' ∈ a.activeServers, s' ≠ s := fun s' hm he => h.active (he ▸ hm)
    refine gone_foldl (fun b s' hm hb => gone_startServer hb (hstart s' hm)) ?_
    refine (gone_foldl (fun b s' _ hb => gone_stopServer hb s') ?_ :
      Gone (List.foldl _ _ _) s).mono rfl id id id
    exact h.mono rfl id id id

/-- **A section brings back no server but the one that it starts.** -/
theorem gone_sec (h : Gone a s) (hs : sec x ch a = some (b, new)) (hx : launches x ≠ some s) :
    Gone b s := by
  cases hmain : x.onMain with
  | false =>
    have hb := sec_aside hmain hs
    have hroster : b.activeServers = a.activeServers := (Prod.mk.inj hb.roster).1
    refine ⟨?_, by rw [hb.servers]; exact h.servers, by rw [hb.deferred]; exact h.deferred,
      by rw [hroster]; exact h.active⟩
    rcases hb.leased s with hle | ⟨-, hm⟩
    · have := h.leased
      omega
    · exact absurd hm h.servers
  | true =>
    cases x with
    | block =>
      obtain ⟨k, rest, -, rfl, -⟩ := block_cases hs
      exact h.mono rfl id id id
    | transition =>
      obtain rfl : (a.transition ch.ups).1 = b := congrArg Prod.fst (Option.some.inj hs)
      exact gone_transition h ch.ups
    | flush =>
      obtain ⟨rfl, rfl⟩ := Prod.mk.inj (Option.some.inj hs)
      unfold Shared.flush
      split_ifs with h0
      · exact h
      · refine gone_foldl (fun b s' _ hb => (gone_forget hb s').mono rfl id id id) ?_
        exact h.mono rfl id (fun hm => absurd hm List.not_mem_nil) id
    | startServer s' =>
      have hne : s' ≠ s := fun he => hx (by rw [he]; rfl)
      have he := gone_enlist h hne
      rcases startServer_cases hs with ⟨-, rfl, -⟩ | ⟨-, rfl, -⟩ | ⟨-, rfl, -⟩
      · exact he
      · exact he.mono rfl id id id
      · exact he.mono rfl id id id
    | resume s' =>
      obtain ⟨rfl, rfl⟩ := Prod.mk.inj (Option.some.inj hs)
      exact gone_resume h fun he => hx (by rw [he]; rfl)
    | originalStart s' | originalStop s' modern =>
      obtain ⟨rfl, rfl⟩ := Prod.mk.inj (Option.some.inj hs)
      exact h.mono rfl id id id
    | stopServer s' =>
      obtain ⟨rfl, rfl⟩ := Prod.mk.inj (Option.some.inj hs)
      exact gone_retire h s'
    | deferStop s' =>
      rcases deferStop_cases hs with ⟨-, rfl, -⟩ | ⟨h0, rfl, -⟩
      · exact h
      · refine gone_deferStop h fun he => h0 ?_
        rw [he]
        exact h.leased
    | forget s' =>
      obtain ⟨rfl, rfl⟩ := Prod.mk.inj (Option.some.inj hs)
      exact gone_forget h s'
    | _ => cases hmain

end Gone

end AquaTransport.Drain
