import AquaTransport.Engine.Idlest

/-!
# AquaTransport.Engine.Evicted — the shadows that `sh_create` reads

Inside the lock `sh_create` reads shadows of the table.  When it evicts one and debug logging is on,
it goes on to read that shadow's host after the lock: `Notice` is such a log line under way, and
`Logs` the threads of the table with theirs.  What keeps the evicted shadow until then is that its
count reached zero, so that only `sh_create` itself frees it, or that the thread holds it.
-/

namespace AquaTransport

open SlotTable

/-- A thread between the lock of `sh_create` and the end of its log line. -/
structure Notice where
  tid : Tid
  evicted : Sid
  freeEvicted : Bool
  deriving DecidableEq

structure Logs (α : Type) where
  conc : Conc α := {}
  logging : List Notice := []

/-- What a thread does next.  The host is read byte by byte: any number of reads belong to one line. -/
inductive Move (α : Type)
  | sect (ev : TabEvent α) (debug : Bool)
  | read (n : Notice)
  | logged (n : Notice)

namespace Table

variable {α : Type}

/-- The shadow that `sh_create` evicts. -/
def evicts (t : Table α) (alloc : Bool) (c : Ctx) : Option Sid :=
  if t.find c = none ∧ alloc = true ∧ freeSlot t.gTab = none then t.gTab (oldest t.age) else none

/-- The occupied slots that the search for `c` looks into. -/
def searched (t : Table α) (c : Ctx) : List Sid :=
  match slotOf t.keys c with
  | some i => ((List.finRange MAXSH).filter (· ≤ i)).filterMap t.gTab
  | none => (List.finRange MAXSH).filterMap t.gTab

/-- The shadows whose fields `sh_create` reads in its critical section. -/
def createReads (t : Table α) (alloc : Bool) (c : Ctx) : List Sid :=
  t.searched c ++
    if t.find c = none ∧ alloc = true ∧ freeSlot t.gTab = none then
      (List.finRange MAXSH).filterMap t.gTab ++ (t.evicts alloc c).toList
    else []

end Table

namespace Logs

variable {α : Type}

/-- A thread in a log line does nothing else, and frees what it evicted after it. -/
def blocked (st : Logs α) : TabEvent α → Bool
  | .get tid _ _ => st.logging.any fun n => n.tid = tid
  | .create tid _ _ _ => st.logging.any fun n => n.tid = tid
  | .release tid _ => st.logging.any fun n => n.tid = tid
  | .free _ _ => false
  | .freeMem s => st.logging.any fun n => n.evicted = s && n.freeEvicted

/-- The log line that follows a section, `if (evictedHost && tf_debug())`. -/
def notice (st : Conc α) (debug : Bool) : TabEvent α → Option Notice
  | .create tid alloc blank c =>
    if debug then
      (st.tab.evicts alloc c).map fun ev =>
        ⟨tid, ev, (st.create tid alloc blank c).1.tab.isDead ev⟩
    else none
  | _ => none

def step (st : Logs α) : Move α → Option (Logs α)
  | .sect ev debug =>
    if st.blocked ev then none
    else (st.conc.step ev).map fun conc =>
      { conc, logging := (notice st.conc debug ev).toList ++ st.logging }
  | .read n => if n ∈ st.logging then some st else none
  | .logged n => if n ∈ st.logging then some { st with logging := st.logging.erase n } else none

def Next (st : Logs α) (m : Move α) (st' : Logs α) : Prop := st.step m = some st'

/-- The shadows of which `sh_create` reads a field. -/
def reads (st : Logs α) : Move α → List Sid
  | .sect (.create _ alloc _ c) _ => st.conc.tab.createReads alloc c
  | .sect _ _ => []
  | .read n => [n.evicted]
  | .logged _ => []

/-- When a creation evicts a shadow and logs it, no thread holds that shadow, or this thread does. -/
def Quiet (st : Logs α) : Move α → Prop
  | .sect (.create tid alloc _ c) true => ∀ ev, st.conc.tab.evicts alloc c = some ev →
      (∀ t, (t, ev) ∉ st.conc.held) ∨ (tid, ev) ∈ st.conc.held
  | _ => True

end Logs

/-! ### An eviction -/

section Evict

variable {α : Type} {st st' : Conc α} {tid : Tid} {alloc : Bool} {blank : α} {c : Ctx} {s ev : Sid}

theorem Table.evicts_some {t : Table α} (h : t.evicts alloc c = some ev) : t.find c = none ∧
    alloc = true ∧ freeSlot t.gTab = none ∧ t.gTab (oldest t.age) = some ev := by
  unfold Table.evicts at h
  split_ifs at h with hc
  exact ⟨hc.1, hc.2.1, hc.2.2, h⟩

theorem Table.mem_createReads {t : Table α} (h : s ∈ t.createReads alloc c) : t.InTable s := by
  have hslots : ∀ is : List (Fin MAXSH), s ∈ is.filterMap t.gTab → t.InTable s := by
    intro is hs
    obtain ⟨i, -, hi⟩ := List.mem_filterMap.mp hs
    exact ⟨i, hi⟩
  rcases List.mem_append.mp h with h | h
  · unfold Table.searched at h
    split at h
    · exact hslots _ h
    · exact hslots _ h
  · split_ifs at h with hc
    · rcases List.mem_append.mp h with h | h
      · exact hslots _ h
      · obtain ⟨-, -, -, hev⟩ := Table.evicts_some (Option.mem_toList.mp h)
        exact ⟨_, hev⟩
    · simp at h

/-- What is evicted leaves the table, and nobody but the threads refers to it any more. -/
theorem RefInv.evicted (h : RefInv st) (tid : Tid) (blank : α) (hev : st.tab.evicts alloc c = some ev) :
    (st.create tid alloc blank c).1.held = (tid, st.tab.next) :: st.held ∧ ev ≠ st.tab.next ∧
      ¬ (st.create tid alloc blank c).1.tab.InTable ev := by
  obtain ⟨hf, rfl, hfree, hslot⟩ := Table.evicts_some hev
  have hne : ev ≠ st.tab.next := by
    rintro rfl
    exact h.new_not_seated _ hslot
  refine ⟨?_, hne, ?_⟩
  · rw [Conc.create_held]
    simp only [Conc.create, shCreate_new blank hf]
    rfl
  · have htab : (st.create tid true blank c).1.tab =
        ((st.tab.calloc c blank).drop ev).seat (oldest st.tab.age) st.tab.next := by
      simp only [Conc.create, shCreate_new blank hf, shInsert_evict blank hfree hslot]
    rw [htab]
    exact fun hin => ((inTable_evict h.slots hslot hne).mp hin).2 rfl

/-- The count of an evicted shadow is the number of references that threads hold. -/
theorem RefInv.evicted_count (h : RefInv st) (tid : Tid) (blank : α) (hev : st.tab.evicts alloc c = some ev) :
    ∃ e, (st.create tid alloc blank c).1.tab.mem ev = some e ∧
      e.refcount = st.held.countP fun p => p.2 = ev := by
  obtain ⟨hheld, hne, hout⟩ := h.evicted tid blank hev
  obtain ⟨-, -, -, hslot⟩ := Table.evicts_some hev
  have hin : st.tab.InTable ev := ⟨_, hslot⟩
  obtain ⟨e, he⟩ := h.alloc_of_refs (RefInv.refs_of_inTable hin)
  have hnot : (st.create tid alloc blank c).2 ≠ some ev := by
    intro hr
    have hheld' : (st.create tid alloc blank c).1.held = _ := Conc.create_held alloc blank
    rw [hr, hheld] at hheld'
    obtain ⟨hp, -⟩ := List.cons_eq_cons.mp hheld'
    exact hne (Prod.mk.inj hp).2.symm
  obtain ⟨e', he', -⟩ := create_other h tid alloc blank c he hnot
  refine ⟨e', he', ?_⟩
  have hcount := (h.create tid alloc blank c).count ev e' he'
  rw [hcount, Conc.refs, if_neg hout, hheld, List.countP_cons_of_neg (by simpa using hne.symm),
    zero_add]

/-- The evicted shadow is doomed when no thread holds it. -/
theorem RefInv.evicted_dead (h : RefInv st) (tid : Tid) (blank : α) (hev : st.tab.evicts alloc c = some ev) :
    (st.create tid alloc blank c).1.tab.isDead ev = true ↔ ∀ t, (t, ev) ∉ st.held := by
  obtain ⟨e, he, hc⟩ := h.evicted_count tid blank hev
  rw [Table.isDead_iff]
  constructor
  · rintro ⟨e', he', h0⟩ t ht
    obtain rfl := Option.some.inj (he.symm.trans he')
    have : 0 < st.held.countP fun p => p.2 = ev := List.countP_pos_iff.mpr ⟨_, ht, by simp⟩
    omega
  · intro hno
    refine ⟨e, he, ?_⟩
    rw [hc, Nat.cast_eq_zero, List.countP_eq_zero]
    rintro ⟨t, s⟩ hp hs
    obtain rfl := of_decide_eq_true hs
    exact hno t hp

/-! ### What a step leaves doomed and held -/

theorem dying_step {e : TabEvent α} (hs : st.step e = some st') (hd : s ∈ st.dying)
    (hne : e ≠ .freeMem s) : s ∈ st'.dying := by
  cases e with
  | get tid ready c =>
    obtain rfl := Option.some.inj hs
    exact hd
  | create tid alloc blank c =>
    obtain rfl := Option.some.inj hs
    exact List.mem_append_right _ hd
  | release tid s' =>
    simp only [Conc.step] at hs
    split_ifs at hs
    obtain rfl := Option.some.inj hs
    exact List.mem_append_right _ hd
  | free ready c =>
    obtain rfl := Option.some.inj hs
    exact List.mem_append_right _ hd
  | freeMem s' =>
    simp only [Conc.step] at hs
    split_ifs at hs
    obtain rfl := Option.some.inj hs
    refine (List.mem_erase_of_ne ?_).mpr hd
    rintro rfl
    exact hne rfl

theorem held_step {e : TabEvent α} (hs : st.step e = some st') (hh : (tid, s) ∈ st.held)
    (hne : e ≠ .release tid s) : (tid, s) ∈ st'.held := by
  cases e with
  | get tid ready c =>
    obtain rfl := Option.some.inj hs
    exact List.mem_append_right _ hh
  | create tid alloc blank c =>
    obtain rfl := Option.some.inj hs
    exact List.mem_append_right _ hh
  | release tid' s' =>
    simp only [Conc.step] at hs
    split_ifs at hs
    obtain rfl := Option.some.inj hs
    refine (List.mem_erase_of_ne ?_).mpr hh
    intro he
    obtain ⟨rfl, rfl⟩ := Prod.mk.inj he
    exact hne rfl
  | free ready c =>
    obtain rfl := Option.some.inj hs
    exact hh
  | freeMem s' =>
    simp only [Conc.step] at hs
    split_ifs at hs
    obtain rfl := Option.some.inj hs
    exact hh

end Evict

/-! ### Log lines of quiet evictions -/

attribute [local irreducible] Conc.get Conc.create Conc.free

namespace Logs

variable {α : Type} {st st' : Logs α} {m : Move α} {n : Notice} {ev : TabEvent α} {debug : Bool}

/-- A shadow whose log line is under way is one that `sh_create` itself is to free, or one that its
thread holds. -/
structure Inv (st : Logs α) : Prop where
  refs : RefInv st.conc
  kept : ∀ n ∈ st.logging, if n.freeEvicted then n.evicted ∈ st.conc.dying
    else (n.tid, n.evicted) ∈ st.conc.held

theorem Inv.init : Inv ({} : Logs α) := ⟨RefInv.init, by simp⟩

theorem step_sect (h : st.step (.sect ev debug) = some st') : st.blocked ev = false ∧
    ∃ conc, st.conc.step ev = some conc ∧
      st' = ⟨conc, (notice st.conc debug ev).toList ++ st.logging⟩ := by
  simp only [step] at h
  split_ifs at h with hb
  obtain ⟨conc, hc, rfl⟩ := Option.map_eq_some_iff.mp h
  exact ⟨by simpa using hb, conc, hc, rfl⟩

theorem notice_some (h : notice st.conc debug ev = some n) : ∃ alloc blank c,
    ev = .create n.tid alloc blank c ∧ debug = true ∧ st.conc.tab.evicts alloc c = some n.evicted ∧
      n.freeEvicted = (st.conc.create n.tid alloc blank c).1.tab.isDead n.evicted := by
  cases ev with
  | create tid alloc blank c =>
    simp only [notice] at h
    split_ifs at h with hd
    obtain ⟨s, hs, rfl⟩ := Option.map_eq_some_iff.mp h
    exact ⟨alloc, blank, c, rfl, hd, hs, rfl⟩
  | get tid ready c => simp [notice] at h
  | release tid s => simp [notice] at h
  | free ready c => simp [notice] at h
  | freeMem s => simp [notice] at h

/-- A thread in its log line keeps what it holds, and does not yet free what it evicted. -/
theorem not_blocked (hb : st.blocked ev = false) (hn : n ∈ st.logging) :
    (n.freeEvicted = true → ev ≠ .freeMem n.evicted) ∧ ev ≠ .release n.tid n.evicted := by
  constructor
  · rintro hf rfl
    rw [blocked, List.any_eq_false] at hb
    exact hb n hn (by simp [hf])
  · rintro rfl
    rw [blocked, List.any_eq_false] at hb
    exact hb n hn (by simp)

theorem Inv.step (h : st.Inv) (hs : st.step m = some st') (hq : st.Quiet m) : st'.Inv := by
  cases m with
  | sect ev debug =>
    obtain ⟨hb, conc, hc, rfl⟩ := step_sect hs
    have hrefs := h.refs.step hc
    refine ⟨hrefs, fun n hn => ?_⟩
    rcases List.mem_append.mp hn with hn | hn
    · obtain ⟨alloc, blank, c, rfl, rfl, hev, hfree⟩ := notice_some (Option.mem_toList.mp hn)
      obtain rfl := Option.some.inj hc
      rw [hfree]
      split_ifs with hd
      · exact (hrefs.dying _).mpr hd
      · -- some thread holds it, so this one does
        have hheld := (hq _ hev).resolve_left fun hno =>
          hd ((h.refs.evicted_dead _ _ hev).mpr hno)
        rw [(h.refs.evicted _ _ hev).1]
        exact List.mem_cons_of_mem _ hheld
    · obtain ⟨hfm, hrel⟩ := not_blocked hb hn
      have hk := h.kept n hn
      split_ifs at hk ⊢ with hf
      · exact dying_step hc hk (hfm hf)
      · exact held_step hc hk hrel
  | read n =>
    simp only [Logs.step] at hs
    split_ifs at hs
    obtain rfl := Option.some.inj hs
    exact h
  | logged n =>
    simp only [Logs.step] at hs
    split_ifs at hs
    obtain rfl := Option.some.inj hs
    exact ⟨h.refs, fun n' hn' => h.kept n' (List.mem_of_mem_erase hn')⟩

/-- What a move reads is not freed. -/
theorem Inv.reads (h : st.Inv) (hs : st.step m = some st') {s : Sid} (hr : s ∈ st.reads m) :
    s ∉ st.conc.freed := by
  rw [h.refs.freed]
  rintro ⟨-, hnone⟩
  cases m with
  | sect ev debug =>
    cases ev with
    | create tid alloc blank c =>
      have hin : st.conc.tab.InTable s := Table.mem_createReads hr
      have := h.refs.gone s hnone
      have : 0 < st.conc.refs s := RefInv.refs_of_inTable hin
      omega
    | get tid ready c => simp [Logs.reads] at hr
    | release tid s => simp [Logs.reads] at hr
    | free ready c => simp [Logs.reads] at hr
    | freeMem s => simp [Logs.reads] at hr
  | read n =>
    obtain rfl := List.mem_singleton.mp hr
    simp only [Logs.step] at hs
    split_ifs at hs with hn
    have hk := h.kept n hn
    split_ifs at hk
    · obtain ⟨e, he, -⟩ := Table.isDead_iff.mp ((h.refs.dying _).mp hk)
      simp [hnone] at he
    · have := h.refs.gone _ hnone
      have : 0 < st.conc.refs n.evicted := RefInv.refs_of_held hk
      omega
  | logged n => simp [Logs.reads] at hr

/-! ### The other evictions -/

/-- The other threads end their log lines. -/
theorem path_logged (st : Logs α) (hlog : st.logging = n :: rest) :
    ∃ ms, Path Next st ms { st with logging := [n] } := by
  induction rest generalizing st with
  | nil => exact ⟨[], by rw [← hlog]; exact .nil st⟩
  | cons n' rest ih =>
    have hmem : n' ∈ st.logging := by simp [hlog]
    have herase : st.logging.erase n' = n :: rest := by
      rw [hlog]
      by_cases hne : n = n'
      · rw [hne, List.erase_cons_head]
      · rw [List.erase_cons_tail (by simpa using hne), List.erase_cons_head]
    obtain ⟨ms, hpath⟩ : ∃ ms, Path Next { st with logging := n :: rest } ms
        { st with logging := [n] } := ih _ rfl
    refine ⟨.logged n' :: ms, .cons ?_ hpath⟩
    show (if n' ∈ st.logging then some { st with logging := st.logging.erase n' } else none) = _
    rw [if_pos hmem, herase]

theorem other_tid {t : Tid} (hlog : st.logging = [n]) (ht : t ≠ n.tid) : ∀ n' ∈ st.logging, n'.tid ≠ t := by
  intro n' hn'
  rw [hlog, List.mem_singleton] at hn'
  exact hn' ▸ ht.symm

/-- A thread that is in no log line releases what it holds. -/
theorem release_next {t : Tid} {s : Sid} (hlog : ∀ n ∈ st.logging, n.tid ≠ t)
    (hh : (t, s) ∈ st.conc.held) :
    Next st (.sect (.release t s) false) { st with conc := st.conc.release t s } := by
  have hb : st.blocked (.release t s) = false := by
    rw [blocked, List.any_eq_false]
    exact fun n hn => by simpa using hlog n hn
  show (if st.blocked (.release t s) then none else _) = _
  rw [hb]
  show (Conc.step st.conc (.release t s)).map _ = _
  rw [show Conc.step st.conc (.release t s) = some (st.conc.release t s) from if_pos hh]
  rfl

theorem freeMem_next {s : Sid} (hlog : st.logging = [n]) (hfree : n.freeEvicted = false)
    (hd : s ∈ st.conc.dying) :
    Next st (.sect (.freeMem s) false) { st with conc := st.conc.freeMem s } := by
  have hb : st.blocked (.freeMem s) = false := by
    rw [blocked, hlog]
    simp [hfree]
  show (if st.blocked (.freeMem s) then none else _) = _
  rw [hb]
  show (Conc.step st.conc (.freeMem s)).map _ = _
  rw [show Conc.step st.conc (.freeMem s) = some (st.conc.freeMem s) from if_pos hd]
  rfl

theorem release_count {c : Conc α} {t : Tid} {s : Sid} (hh : (t, s) ∈ c.held) :
    c.held.countP (fun p => p.2 = s) = (c.release t s).held.countP (fun p => p.2 = s) + 1 := by
  show _ = (c.held.erase (t, s)).countP (fun p => p.2 = s) + 1
  rw [(List.perm_cons_erase hh).countP_eq, List.countP_cons_of_pos (by simp)]

theorem holder_of_count {c : Conc α} {s : Sid} {k : ℕ}
    (h : c.held.countP (fun p => p.2 = s) = k + 1) : ∃ t, (t, s) ∈ c.held := by
  have hpos : 0 < c.held.countP (fun p => p.2 = s) := by omega
  obtain ⟨⟨t, s'⟩, hh, hs⟩ := List.countP_pos_iff.mp hpos
  obtain rfl := of_decide_eq_true hs
  exact ⟨t, hh⟩

/-- With the last reference goes the shadow. -/
theorem last_release {c : Conc α} {t : Tid} {s : Sid} (h : RefInv c) (hh : (t, s) ∈ c.held)
    (hout : ¬ c.tab.InTable s) (hone : c.held.countP (fun p => p.2 = s) = 1) :
    s ∈ (c.release t s).dying := by
  have hinv := h.release hh
  have hrefs : (c.release t s).refs s = 0 := by
    have := release_count hh
    unfold Conc.refs
    rw [if_neg (show ¬ (c.release t s).tab.InTable s from hout)]
    omega
  obtain ⟨e, he⟩ := h.alloc_of_refs (RefInv.refs_of_held hh)
  have he' : (c.release t s).tab.mem s = some { e with refcount := e.refcount - 1 } := by
    show (c.tab.drop s).mem s = _
    rw [Table.drop_mem, if_pos rfl, he]
    rfl
  refine (hinv.dying _).mpr (Table.isDead_iff.mpr ⟨_, he', ?_⟩)
  have := hinv.count _ _ he'
  rwa [hrefs] at this

/-- The threads that hold an evicted shadow release it, and the last of them frees it. -/
theorem path_freed {k : ℕ} (st : Logs α) (h : RefInv st.conc) (hlog : st.logging = [n])
    (hfree : n.freeEvicted = false) (hout : ¬ st.conc.tab.InTable n.evicted)
    (hother : ∀ t, (t, n.evicted) ∈ st.conc.held → t ≠ n.tid)
    (hheld : st.conc.held.countP (fun p => p.2 = n.evicted) = k + 1) :
    ∃ ms st', Path Next st ms st' ∧ st'.logging = [n] ∧ n.evicted ∈ st'.conc.freed := by
  induction k generalizing st with
  | zero =>
    obtain ⟨t, hh⟩ := holder_of_count hheld
    have hdead := last_release h hh hout hheld
    exact ⟨_, _, .cons (release_next (other_tid hlog (hother t hh)) hh)
      (.cons (freeMem_next (n := n) hlog hfree hdead) (.nil _)), hlog, List.mem_cons_self⟩
  | succ k ih =>
    obtain ⟨t, hh⟩ := holder_of_count hheld
    have hcount : (st.conc.release t n.evicted).held.countP (fun p => p.2 = n.evicted) = k + 1 := by
      have := release_count hh
      omega
    obtain ⟨ms, st', hpath, hres⟩ :
        ∃ ms st', Path Next { st with conc := st.conc.release t n.evicted } ms st' ∧
          st'.logging = [n] ∧ n.evicted ∈ st'.conc.freed :=
      ih _ (h.release hh) hlog hout (fun t' ht' => hother t' (List.mem_of_mem_erase ht')) hcount
    exact ⟨_, st', .cons (release_next (other_tid hlog (hother t hh)) hh) hpath, hres⟩

/-- An eviction that is not quiet can be followed by a read of the freed shadow. -/
theorem not_quiet (h : RefInv st.conc) (hs : st.step m = some st') (hq : ¬ st.Quiet m) :
    ∃ ms st₁ m₁, Path Next st' ms st₁ ∧ (st₁.step m₁).isSome ∧
      ∃ s ∈ st₁.reads m₁, s ∈ st₁.conc.freed := by
  cases m with
  | read n => exact absurd trivial hq
  | logged n => exact absurd trivial hq
  | sect ev debug =>
    cases ev with
    | get tid ready c => exact absurd trivial hq
    | release tid s => exact absurd trivial hq
    | free ready c => exact absurd trivial hq
    | freeMem s => exact absurd trivial hq
    | create tid alloc blank c =>
      cases debug with
      | false => exact absurd trivial hq
      | true =>
        obtain ⟨s, hs'⟩ := not_forall.mp hq
        obtain ⟨hev, hno⟩ := Classical.not_imp.mp hs'
        obtain ⟨hheld, hself⟩ := not_or.mp hno
        obtain ⟨-, conc, hc, rfl⟩ := step_sect hs
        obtain rfl := Option.some.inj hc
        obtain ⟨hadd, hne, hout⟩ := h.evicted tid blank hev
        have hdead : (st.conc.create tid alloc blank c).1.tab.isDead s = false :=
          Bool.eq_false_iff.mpr fun hd => hheld ((h.evicted_dead _ _ hev).mp hd)
        have hnotice : notice st.conc true (.create tid alloc blank c) = some ⟨tid, s, false⟩ := by
          rw [notice, if_pos rfl, hev, Option.map_some, hdead]
        rw [hnotice]
        obtain ⟨ms₁, hpath₁⟩ := path_logged (n := ⟨tid, s, false⟩)
          ⟨(st.conc.create tid alloc blank c).1, (some ⟨tid, s, false⟩).toList ++ st.logging⟩ rfl
        have hold : ∀ t, (t, s) ∈ (st.conc.create tid alloc blank c).1.held → (t, s) ∈ st.conc.held := by
          intro t ht
          rw [hadd] at ht
          rcases List.mem_cons.mp ht with ht | ht
          · exact absurd (Prod.mk.inj ht).2 hne
          · exact ht
        obtain ⟨t, ht⟩ := not_forall.mp hheld
        have hpos : 0 < (st.conc.create tid alloc blank c).1.held.countP fun p => p.2 = s := by
          refine List.countP_pos_iff.mpr ⟨(t, s), ?_, decide_eq_true rfl⟩
          rw [hadd]
          exact List.mem_cons_of_mem _ (not_not.mp ht)
        obtain ⟨k, hk⟩ := Nat.exists_eq_succ_of_ne_zero hpos.ne'
        obtain ⟨ms₂, st₂, hpath₂, hlog, hfreed⟩ := path_freed (n := ⟨tid, s, false⟩)
          ⟨(st.conc.create tid alloc blank c).1, [⟨tid, s, false⟩]⟩ (h.create tid alloc blank c) rfl
          rfl hout (fun t ht (he : t = tid) => hself (he ▸ hold t ht)) hk
        refine ⟨_, st₂, .read ⟨tid, s, false⟩, hpath₁.append hpath₂, ?_, s, List.mem_cons_self, hfreed⟩
        show (if _ ∈ st₂.logging then some st₂ else none).isSome = true
        rw [if_pos (by rw [hlog]; exact List.mem_cons_self)]
        rfl

/-- **What `sh_create` reads of an evicted shadow.**  In a run whose logged evictions are quiet, every
shadow of which it reads a field is not yet freed, inside the critical section and after it; and the
first eviction that is not quiet can be followed by a read of the freed shadow. -/
theorem evicted_reads {ms : List (Move α)}
    (h : Path (fun s m t => Next s m t ∧ s.Quiet m) {} ms st) :
    (∀ m st', Next st m st' → ∀ s ∈ st.reads m, s ∉ st.conc.freed) ∧
    ∀ m st', Next st m st' → ¬ st.Quiet m → ∃ ms₁ st₁ m₁, Path Next st' ms₁ st₁ ∧
      (st₁.step m₁).isSome ∧ ∃ s ∈ st₁.reads m₁, s ∈ st₁.conc.freed := by
  have hinv : st.Inv := h.invariant (fun _ _ _ hi hs => hi.step hs.1 hs.2) Inv.init
  exact ⟨fun m st' hs s hr => hinv.reads hs hr, fun m st' hs hq => not_quiet hinv.refs hs hq⟩

/-! ### A race -/

/-- Thread `k` creates a shadow for context `k`, with debug logging on. -/
def arrive (k : ℕ) : Move Unit := .sect (.create k true () k) true

/-- Each thread has its own context and holds its shadow; the table has room for `n` more. -/
structure Filling (st : Logs Unit) (n : ℕ) : Prop where
  refs : RefInv st.conc
  idle : st.logging = []
  idlest : ∃ i, st.conc.tab.Idlest i 0
  room : st.conc.tab.room = n
  clock : st.conc.tab.gClock.toNat + n < 2 ^ 32
  ctxs : ∀ s c b, st.conc.tab.InTable s → st.conc.tab.look s = some (c, b) → c < st.conc.tab.next
  own : ∀ t s, (t, s) ∈ st.conc.held → t = s
  one : st.conc.held.countP (fun p => p.2 = 0) = 1

variable {st st' : Logs Unit} {n : ℕ}

theorem Filling.pos (h : st.Filling n) : 0 < st.conc.tab.next := by
  obtain ⟨i, hi⟩ := h.idlest
  have hrefs := RefInv.refs_of_inTable (Table.inTable_of_gTab hi.slot)
  exact Nat.pos_of_ne_zero fun hz => hrefs.ne' (h.refs.gone 0 (h.refs.fresh 0 hz.le))

/-- An arrival that evicts nothing. -/
theorem arrive_next (hidle : st.logging = []) (hfree : freeSlot st.conc.tab.gTab ≠ none) (k : ℕ) :
    Next st (arrive k) ⟨(st.conc.create k true () k).1, []⟩ := by
  have hb : st.blocked (.create k true () k) = false := by
    rw [blocked, hidle]
    rfl
  have hnone : notice st.conc true (.create k true () k) = none := by
    rw [notice, if_pos rfl, Table.evicts, if_neg fun h => hfree h.2.2, Option.map_none]
  show (if st.blocked (.create k true () k) then none else _) = _
  rw [hb]
  show some (Logs.mk _ ((notice st.conc true (.create k true () k)).toList ++ st.logging)) = _
  rw [hnone, hidle]
  rfl

theorem find_missing {t : Table α} {c : Ctx}
    (h : ∀ s b, t.InTable s → t.look s ≠ some (c, b)) : t.find c = none := by
  cases hf : t.find c with
  | none => rfl
  | some s =>
    obtain ⟨hin, b, hb⟩ := Table.find_look hf
    exact absurd hb (h s b hin)

/-- A new context enters the table. -/
theorem arrive_enters (st : Logs Unit) (h : RefInv st.conc) (hidle : st.logging = [])
    (hfree : freeSlot st.conc.tab.gTab ≠ none) {k : ℕ}
    (hmiss : ∀ s b, st.conc.tab.InTable s → st.conc.tab.look s ≠ some (k, b)) :
    ∃ st', Next st (arrive k) st' ∧ RefInv st'.conc ∧ st'.logging = [] ∧
      st'.conc.tab = (shInsert () st.conc.tab k).1 ∧
      st'.conc.tab.look = Function.update st.conc.tab.look st.conc.tab.next (some (k, ())) ∧
      st'.conc.tab.next = st.conc.tab.next + 1 ∧
      st'.conc.held = (k, st.conc.tab.next) :: st.conc.held ∧
      ∀ s, st'.conc.tab.InTable s → s = st.conc.tab.next ∨ st.conc.tab.InTable s := by
  refine ⟨_, arrive_next hidle hfree k, h.create k true () k, rfl,
    Conc.create_new k () (find_missing hmiss), ?_⟩
  rcases Conc.create_cases h k true () k with
    ⟨s, b, -, hin, hl, -⟩ | ⟨-, -, hfalse, -⟩ | ⟨hret, -, -, -, hlook, hnext, -, hin⟩
  · exact absurd hl (hmiss s b hin)
  · exact Bool.noConfusion hfalse
  · have hheld : (st.conc.create k true () k).1.held = _ := Conc.create_held true ()
    rw [hret] at hheld
    exact ⟨hlook, hnext, hheld, hin⟩

/-- An arrival that evicts nothing is quiet. -/
theorem quiet_of_free {k : ℕ} (hfree : freeSlot st.conc.tab.gTab ≠ none) : st.Quiet (arrive k) := by
  intro ev hev
  exact absurd (Table.evicts_some hev).2.2.1 hfree

/-- While there is room, a new context takes a slot. -/
theorem Filling.step (h : st.Filling (n + 1)) : ∃ st', Next st (arrive st.conc.tab.next) st' ∧
    st.Quiet (arrive st.conc.tab.next) ∧ st'.Filling n ∧ st'.conc.tab.next = st.conc.tab.next + 1 := by
  obtain ⟨i, hi⟩ := h.idlest
  have hroom := h.room
  have hclock := h.clock
  have hfree : freeSlot st.conc.tab.gTab ≠ none := fun hf => by
    have := Table.room_eq_zero.mpr hf
    omega
  obtain ⟨hidlest, hroom', htick⟩ := hi.insert_free (c := st.conc.tab.next) () (by omega)
    h.refs.new_not_seated (by omega)
  obtain ⟨st', hstep, hrefs, hidle, htab, hlook, hnext, hheld, hin⟩ :=
    arrive_enters st h.refs h.idle hfree fun s b hs hl => lt_irrefl _ (h.ctxs s _ b hs hl)
  refine ⟨st', hstep, quiet_of_free hfree, ⟨hrefs, hidle, ⟨i, htab ▸ hidlest⟩, ?_, ?_, ?_, ?_, ?_⟩,
    hnext⟩
  · rw [htab]
    omega
  · rw [htab, htick]
    omega
  · intro s c b hs hl
    rw [hlook] at hl
    rw [hnext]
    rcases update_eq_some_iff.mp hl with ⟨-, h'⟩ | ⟨hne, h'⟩
    · rw [← (Prod.mk.inj (Option.some.inj h')).1]
      exact Nat.lt_succ_self _
    · exact Nat.lt_succ_of_lt (h.ctxs s c b ((hin s hs).resolve_left hne) h')
  · intro t s hts
    rw [hheld] at hts
    rcases List.mem_cons.mp hts with he | hts
    · obtain ⟨rfl, rfl⟩ := Prod.mk.inj he
      rfl
    · exact h.own t s hts
  · rw [hheld, List.countP_cons_of_neg (by simpa using h.pos.ne'), h.one]

theorem Filling.fill (h : st.Filling n) : ∃ st', Path (fun s m t => Next s m t ∧ s.Quiet m) st
    ((List.range' st.conc.tab.next n).map arrive) st' ∧ st'.Filling 0 ∧
      st'.conc.tab.next = st.conc.tab.next + n := by
  induction n generalizing st with
  | zero => exact ⟨st, .nil st, h, rfl⟩
  | succ n ih =>
    obtain ⟨st₁, hstep, hquiet, h₁, hnext₁⟩ := h.step
    obtain ⟨st₂, hpath, h₂, hnext₂⟩ := ih h₁
    rw [hnext₁] at hpath hnext₂
    exact ⟨st₂, .cons ⟨hstep, hquiet⟩ hpath, h₂, by rw [hnext₂, Nat.add_assoc, Nat.add_comm 1 n]⟩

theorem filling_first : ∃ st, Next {} (arrive 0) st ∧ st.Filling 255 ∧ st.conc.tab.next = 1 := by
  have hidlest : (shInsert () ({} : Logs Unit).conc.tab 0).1.Idlest 0 0 := by
    refine ⟨?_, ?_, ?_⟩ <;> decide +kernel
  have hroom : (shInsert () ({} : Logs Unit).conc.tab 0).1.room = 255 ∧
      (shInsert () ({} : Logs Unit).conc.tab 0).1.gClock = 1 := by decide +kernel
  obtain ⟨st, hstep, hrefs, hidle, htab, hlook, hnext, hheld, hin⟩ :=
    arrive_enters {} RefInv.init rfl (fun h => freeSlot_none.mp h 0 rfl) (k := 0)
      fun s b hs => absurd hs (Table.not_inTable_init s)
  refine ⟨st, hstep, ⟨hrefs, hidle, ⟨0, ?_⟩, ?_, ?_, ?_, ?_, ?_⟩, hnext⟩
  · rw [htab]
    exact hidlest
  · rw [htab, hroom.1]
  · rw [htab, hroom.2]
    decide
  · intro s c b hs hl
    obtain rfl := (hin s hs).resolve_right (Table.not_inTable_init s)
    rw [hlook, Function.update_self] at hl
    rw [hnext, ← (Prod.mk.inj (Option.some.inj hl)).1]
    exact Nat.lt_succ_self _
  · intro t s hts
    rw [hheld] at hts
    obtain ⟨rfl, rfl⟩ := Prod.mk.inj (List.mem_singleton.mp hts)
    rfl
  · rw [hheld]
    rfl

/-- 256 threads arrive: the table is full, and each holds its shadow. -/
def arrivals : List (Move Unit) := (List.range' 0 256).map arrive

theorem arrivals_path : ∃ st, Path (fun s m t => Next s m t ∧ s.Quiet m) {} arrivals st ∧
    st.Filling 0 ∧ st.conc.tab.next = 256 ∧ (0, 0) ∈ st.conc.held := by
  obtain ⟨st₁, hstep₁, hfill₁, hnext₁⟩ := filling_first
  obtain ⟨st₂, hpath₂, hfull, hnext₂⟩ := hfill₁.fill
  rw [hnext₁] at hpath₂ hnext₂
  obtain ⟨t, ht⟩ := holder_of_count (k := 0) hfull.one
  obtain rfl := hfull.own t 0 ht
  have hquiet : ({} : Logs Unit).Quiet (arrive 0) := quiet_of_free fun h => freeSlot_none.mp h 0 rfl
  exact ⟨st₂, .cons ⟨hstep₁, hquiet⟩ hpath₂, hfull, hnext₂, ht⟩

/-- In a full table a new context evicts the first shadow, whoever holds it. -/
theorem Filling.evicts (h : st.Filling 0) {conc : Conc Unit} {k : ℕ} (hk : st.conc.tab.next ≤ k)
    (hg : conc.tab.gTab = st.conc.tab.gTab) (ha : conc.tab.age = st.conc.tab.age)
    (hc : conc.tab.gClock = st.conc.tab.gClock) (hl : conc.tab.look = st.conc.tab.look) :
    conc.tab.evicts true k = some 0 := by
  obtain ⟨i, hi⟩ := h.idlest
  have hfull : freeSlot conc.tab.gTab = none := hg ▸ Table.room_eq_zero.mp h.room
  have hmiss : ∀ s b, conc.tab.InTable s → conc.tab.look s ≠ some (k, b) := by
    rintro s b ⟨j, hj⟩ hs
    rw [hg] at hj
    rw [hl] at hs
    exact absurd (h.ctxs s k b ⟨j, hj⟩ hs) (not_lt.mpr hk)
  have hi' := hi.congr hg ha hc
  rw [Table.evicts, if_pos ⟨find_missing hmiss, rfl, hfull⟩,
    hi'.oldest (Table.room_eq_zero.mpr hfull), hi'.slot]

/-- An arrival that evicts, and goes on to its log line. -/
theorem arrive_evicts {conc : Conc Unit} {k : ℕ} {ev : Sid} (hev : conc.tab.evicts true k = some ev) :
    Next ⟨conc, []⟩ (arrive k) ⟨(conc.create k true () k).1,
      [⟨k, ev, (conc.create k true () k).1.tab.isDead ev⟩]⟩ := by
  have hnotice : notice conc true (.create k true () k) =
      some ⟨k, ev, (conc.create k true () k).1.tab.isDead ev⟩ := by
    rw [notice, if_pos rfl, hev, Option.map_some]
  show some (Logs.mk _ ((notice conc true (.create k true () k)).toList ++ [])) = _
  rw [hnotice]
  rfl

/-- The first of the threads releases its shadow before another thread's context evicts it. -/
def quietRun : List (Move Unit) := arrivals ++ [.sect (.release 0 0) false, arrive 256]

theorem quietRun_path : ∃ st, Path (fun s m t => Next s m t ∧ s.Quiet m) {} quietRun st ∧
    st.logging = [⟨256, 0, true⟩] := by
  obtain ⟨⟨conc, log⟩, hpath, hfull, hnext, hheld⟩ := arrivals_path
  obtain rfl : log = [] := hfull.idle
  have hrelease : Next ⟨conc, []⟩ (.sect (.release 0 0) false) ⟨conc.release 0 0, []⟩ :=
    @release_next _ ⟨conc, []⟩ 0 0 (by simp) hheld
  have hrefs : RefInv (conc.release 0 0) := hfull.refs.release hheld
  have hage : (conc.release 0 0).tab.age = conc.tab.age := Table.drop_age
  have hev : (conc.release 0 0).tab.evicts true 256 = some 0 :=
    hfull.evicts hnext.le rfl hage rfl Conc.release_look
  have hno : ∀ t, (t, 0) ∉ (conc.release 0 0).held := by
    intro t ht
    have hcount : _ = (conc.release 0 0).held.countP (fun p => p.2 = 0) + 1 := release_count hheld
    have hpos : 0 < (conc.release 0 0).held.countP fun p => p.2 = 0 :=
      List.countP_pos_iff.mpr ⟨_, ht, decide_eq_true rfl⟩
    have hone : conc.held.countP (fun p => p.2 = 0) = 1 := hfull.one
    omega
  have hquiet : (Logs.mk (conc.release 0 0) []).Quiet (arrive 256) := by
    intro ev hev'
    obtain rfl := Option.some.inj (hev'.symm.trans hev)
    exact Or.inl hno
  have hdead : ((conc.release 0 0).create 256 true () 256).1.tab.isDead 0 = true :=
    (hrefs.evicted_dead _ _ hev).mpr hno
  have harrive := arrive_evicts hev
  rw [hdead] at harrive
  exact ⟨_, hpath.append (.cons ⟨hrelease, trivial⟩ (.cons ⟨harrive, hquiet⟩ (.nil _))), rfl⟩

/-- The log line of a quiet eviction is under way, and what it reads is not freed. -/
theorem evicted_reads_quietRun : ∃ st : Logs Unit,
    Path (fun s m t => Next s m t ∧ s.Quiet m) {} quietRun st ∧ st.logging = [⟨256, 0, true⟩] ∧
    0 ∈ st.reads (.read ⟨256, 0, true⟩) ∧ 0 ∉ st.conc.freed ∧
    ∀ m st', Next st m st' → ¬ st.Quiet m → ∃ ms₁ st₁ m₁, Path Next st' ms₁ st₁ ∧
      (st₁.step m₁).isSome ∧ ∃ s ∈ st₁.reads m₁, s ∈ st₁.conc.freed := by
  obtain ⟨st, hpath, hlog⟩ := quietRun_path
  have hread : Next st (.read ⟨256, 0, true⟩) st := by
    show (if _ ∈ st.logging then some st else none) = _
    rw [if_pos (by rw [hlog]; exact List.mem_cons_self)]
  exact ⟨st, hpath, hlog, List.mem_cons_self, (evicted_reads hpath).1 _ st hread 0 List.mem_cons_self,
    (evicted_reads hpath).2⟩

/-- The first thread still holds its shadow when it is evicted, and releases it before the log line is
written. -/
def raceRun : List (Move Unit) :=
  arrivals ++ [arrive 256, .sect (.release 0 0) false, .sect (.freeMem 0) false]

theorem raceRun_path : ∃ st, Path Next {} raceRun st ∧ st.logging = [⟨256, 0, false⟩] ∧
    0 ∈ st.conc.freed := by
  obtain ⟨⟨conc, log⟩, hpath, hfull, hnext, hheld⟩ := arrivals_path
  obtain rfl : log = [] := hfull.idle
  have hev : conc.tab.evicts true 256 = some 0 := hfull.evicts hnext.le rfl rfl rfl rfl
  obtain ⟨hadd, hne, hout⟩ := hfull.refs.evicted 256 () hev
  have hdead : (conc.create 256 true () 256).1.tab.isDead 0 = false :=
    Bool.eq_false_iff.mpr fun hd => (hfull.refs.evicted_dead _ _ hev).mp hd 0 hheld
  have harrive := arrive_evicts hev
  rw [hdead] at harrive
  have hheld' : (0, 0) ∈ (conc.create 256 true () 256).1.held := by
    rw [hadd]
    exact List.mem_cons_of_mem _ hheld
  have hone : (conc.create 256 true () 256).1.held.countP (fun p => p.2 = 0) = 1 := by
    rw [hadd, List.countP_cons_of_neg (by simpa using hne.symm), hfull.one]
  have hdying := last_release (hfull.refs.create 256 true () 256) hheld' hout hone
  have hrelease : Next ⟨(conc.create 256 true () 256).1, [⟨256, 0, false⟩]⟩ (.sect (.release 0 0) false)
      ⟨(conc.create 256 true () 256).1.release 0 0, [⟨256, 0, false⟩]⟩ :=
    @release_next _ ⟨(conc.create 256 true () 256).1, _⟩ 0 0 (by simp) hheld'
  exact ⟨_, (hpath.mono_mem fun _ _ _ _ hs => hs.1).append (.cons harrive (.cons hrelease
    (.cons (freeMem_next (n := ⟨256, 0, false⟩) rfl rfl hdying) (.nil _)))), rfl, List.mem_cons_self⟩

/-- The log line of the last thread reads the host of a freed shadow. -/
theorem evicted_read_freed : ¬ ∀ (ms : List (Move Unit)) (st : Logs Unit), Path Next {} ms st →
    ∀ m st', Next st m st' → ∀ s ∈ st.reads m, s ∉ st.conc.freed := by
  intro h
  obtain ⟨st, hpath, hlog, hfreed⟩ := raceRun_path
  have hread : Next st (.read ⟨256, 0, false⟩) st := by
    show (if _ ∈ st.logging then some st else none) = _
    rw [if_pos (by rw [hlog]; exact List.mem_cons_self)]
  exact h raceRun st hpath _ st hread 0 List.mem_cons_self hfreed

end Logs

end AquaTransport
