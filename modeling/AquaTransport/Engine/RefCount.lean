import AquaTransport.Engine.ShadowTable
import Mathlib.Tactic.SplitIfs

/-!
# AquaTransport.Engine.RefCount — the reference counts of the shadows, over every interleaving

`RefInv` says that a shadow's count is the number of references to it (`Conc.refs`): the table's
own and those that threads hold.  The sections change one reference at a time, so it is enough to
show that raising one (`raise`), lowering one (`lower`) and admitting a new shadow (`enroll`) keep
it; `evict` is a `vacate` followed by an `enroll`.
-/

namespace AquaTransport

open SlotTable

/-! ### The reference-count invariant -/

/-- What every reachable state of the table and its threads satisfies. -/
structure RefInv {α : Type} (st : Conc α) : Prop where
  slots : ∀ i j s, st.tab.gTab i = some s → st.tab.gTab j = some s → i = j
  unique : UniqueKeys st.tab.keys
  count : ∀ s e, st.tab.mem s = some e → e.refcount = st.refs s
  gone : ∀ s, st.tab.mem s = none → st.refs s = 0
  dying : ∀ s, s ∈ st.dying ↔ st.tab.isDead s = true
  freed : ∀ s, s ∈ st.freed ↔ s < st.tab.next ∧ st.tab.mem s = none
  fresh : ∀ s, st.tab.next ≤ s → st.tab.mem s = none
  dyingNodup : st.dying.Nodup
  freedNodup : st.freed.Nodup

namespace RefInv

variable {α : Type} {st st' : Conc α}

theorem init : RefInv ({} : Conc α) where
  slots := by intro i j s h; simp at h
  unique := UniqueKeys.empty
  count := by intro s e h; simp at h
  gone := by intro s _; simp [Conc.refs, Table.InTable]
  dying := by intro s; simp [Table.isDead]
  freed := by intro s; simp
  fresh := by intro s _; rfl
  dyingNodup := List.nodup_nil
  freedNodup := List.nodup_nil

/-- A referenced shadow is allocated. -/
theorem alloc_of_refs (h : RefInv st) {s : Sid} (hr : 0 < st.refs s) :
    ∃ e, st.tab.mem s = some e := by
  cases hm : st.tab.mem s with
  | none => have := h.gone s hm; omega
  | some e => exact ⟨e, rfl⟩

theorem refs_of_inTable {s : Sid} (hs : st.tab.InTable s) : 0 < st.refs s := by
  unfold Conc.refs
  rw [if_pos hs]
  omega

theorem refs_of_held {tid : Tid} {s : Sid} (hs : (tid, s) ∈ st.held) : 0 < st.refs s := by
  have : 0 < st.held.countP fun p => p.2 = s := List.countP_pos_iff.mpr ⟨_, hs, by simp⟩
  unfold Conc.refs
  omega

/-- A referenced shadow is not doomed. -/
theorem not_dead_of_refs (h : RefInv st) {s : Sid} (hr : 0 < st.refs s) :
    st.tab.isDead s = false := by
  rw [Bool.eq_false_iff, ne_eq, Table.isDead_iff]
  rintro ⟨e, he, h0⟩
  have := h.count s e he
  omega

/-- One more reference to a referenced shadow. -/
theorem raise (h : RefInv st) {s : Sid} (hr : 0 < st.refs s)
    (hgTab : st'.tab.gTab = st.tab.gTab) (hmem : st'.tab.mem = (st.tab.touch s).mem)
    (hnext : st'.tab.next = st.tab.next)
    (hrefs : ∀ s', st'.refs s' = st.refs s' + if s' = s then 1 else 0)
    (hdy : st'.dying = st.dying) (hfr : st'.freed = st.freed) : RefInv st' := by
  obtain ⟨e, he⟩ := h.alloc_of_refs hr
  have hm : ∀ s', st'.tab.mem s' = if s' = s then some
      { e with lastUse := st.tab.gClock + 1, refcount := e.refcount + 1 } else st.tab.mem s' := by
    intro s'
    rw [hmem, Table.touch_mem, he]
    rfl
  have hkeys : st'.tab.keys = st.tab.keys := by
    have : (st.tab.touch s).keys = st.tab.keys :=
      Table.modify_keys (t := st.tab) (s := s) (fun _ => rfl)
    rw [← this]
    unfold Table.keys
    rw [hgTab, hmem]
    rfl
  refine ⟨by rw [hgTab]; exact h.slots, by rw [hkeys]; exact h.unique, ?_, ?_, ?_, ?_, ?_,
    by rw [hdy]; exact h.dyingNodup, by rw [hfr]; exact h.freedNodup⟩
  · intro s' e' he'
    rw [hm] at he'
    rw [hrefs]
    split_ifs at he' with hs
    · obtain rfl := Option.some.inj he'
      have := h.count s e he
      simp only [hs, if_true]
      push_cast
      omega
    · have := h.count s' e' he'
      simpa [hs] using this
  · intro s' he'
    rw [hm] at he'
    split_ifs at he' with hs
    rw [hrefs, if_neg hs, h.gone s' he']
  · intro s'
    rw [hdy, h.dying]
    by_cases hs : s' = s
    · subst hs
      have h1 := h.count s' e he
      rw [h.not_dead_of_refs hr, Bool.false_eq_true, false_iff, Table.isDead_iff]
      rintro ⟨e', he', h0⟩
      rw [hm, if_pos rfl] at he'
      obtain rfl := Option.some.inj he'
      simp only at h0
      omega
    · simp only [Table.isDead, hm, if_neg hs]
  · intro s'
    rw [hfr, hnext, h.freed, hm]
    by_cases hs : s' = s
    · subst hs; simp [he]
    · rw [if_neg hs]
  · intro s' hs'
    rw [hnext] at hs'
    rw [hm]
    by_cases hs : s' = s
    · subst hs; have := h.fresh s' hs'; simp [he] at this
    · rw [if_neg hs]; exact h.fresh s' hs'

/-- One reference fewer; the shadow joins the doomed ones when it was the last. -/
theorem lower (h : RefInv st) {s : Sid} {e : Entry α} (he : st.tab.mem s = some e)
    (hmem : st'.tab.mem = (st.tab.drop s).mem) (hnext : st'.tab.next = st.tab.next)
    (hrefs : ∀ s', st.refs s' = st'.refs s' + if s' = s then 1 else 0)
    (hdy : st'.dying = (if st'.tab.isDead s then [s] else []) ++ st.dying)
    (hfr : st'.freed = st.freed)
    (hslots : ∀ i j s', st'.tab.gTab i = some s' → st'.tab.gTab j = some s' → i = j)
    (hunique : UniqueKeys st'.tab.keys) : RefInv st' := by
  have hm : ∀ s', st'.tab.mem s' = if s' = s then some { e with refcount := e.refcount - 1 }
      else st.tab.mem s' := by
    intro s'
    rw [hmem, Table.drop_mem, he]
    rfl
  have hrs := hrefs s
  rw [if_pos rfl] at hrs
  have hnd : s ∉ st.dying := by
    rw [h.dying, h.not_dead_of_refs (by omega)]
    simp
  refine ⟨hslots, hunique, ?_, ?_, ?_, ?_, ?_, ?_, by rw [hfr]; exact h.freedNodup⟩
  · intro s' e' he'
    rw [hm] at he'
    have hr := hrefs s'
    split_ifs at he' with hs
    · obtain rfl := Option.some.inj he'
      subst hs
      have := h.count s' e he
      simp only [if_true] at hr
      simp only
      omega
    · have := h.count s' e' he'
      rw [if_neg hs] at hr
      omega
  · intro s' he'
    rw [hm] at he'
    split_ifs at he' with hs
    have hr := hrefs s'
    have := h.gone s' he'
    omega
  · intro s'
    rw [hdy, List.mem_append]
    by_cases hs : s' = s
    · subst hs
      cases hd : st'.tab.isDead s' <;> simp [hnd]
    · have hd : st'.tab.isDead s' = st.tab.isDead s' := by simp only [Table.isDead, hm, if_neg hs]
      rw [hd, ← h.dying]
      constructor
      · rintro (h1 | h1)
        · split_ifs at h1 <;> simp at h1
          exact absurd h1 hs
        · exact h1
      · exact Or.inr
  · intro s'
    rw [hfr, hnext, h.freed, hm]
    by_cases hs : s' = s
    · subst hs; simp [he]
    · rw [if_neg hs]
  · intro s' hs'
    rw [hnext] at hs'
    rw [hm]
    by_cases hs : s' = s
    · subst hs; have := h.fresh s' hs'; simp [he] at this
    · rw [if_neg hs]; exact h.fresh s' hs'
  · rw [hdy]
    split_ifs
    · exact List.nodup_cons.mpr ⟨hnd, h.dyingNodup⟩
    · exact h.dyingNodup

/-- A shadow without references has no place in the table. -/
theorem not_seated_of_refs {s : Sid} (hr : st.refs s = 0) (j : Fin MAXSH) : st.tab.gTab j ≠ some s := by
  intro hj
  have := refs_of_inTable (Table.inTable_of_gTab hj)
  omega

theorem new_not_seated (h : RefInv st) (j : Fin MAXSH) : st.tab.gTab j ≠ some st.tab.next :=
  not_seated_of_refs (h.gone _ (h.fresh _ le_rfl)) j

/-- The new shadow `e` is in the slot `i`, which was free, and its creator holds it. -/
structure Enrolls (st st' : Conc α) (i : Fin MAXSH) (e : Entry α) (tid : Tid) : Prop where
  free : st.tab.gTab i = none
  gTab : st'.tab.gTab = Function.update st.tab.gTab i (some st.tab.next)
  mem : st'.tab.mem = Function.update st.tab.mem st.tab.next (some e)
  held : st'.held = (tid, st.tab.next) :: st.held

section Enrolls

variable {i : Fin MAXSH} {e : Entry α} {tid : Tid} {s : Sid}

theorem Enrolls.seated_iff (hn : Enrolls st st' i e tid) (j : Fin MAXSH) (s : Sid) :
    st'.tab.gTab j = some s ↔ (j = i ∧ s = st.tab.next) ∨ (j ≠ i ∧ st.tab.gTab j = some s) := by
  rw [hn.gTab]
  by_cases hj : j = i
  · subst hj; simp [eq_comm]
  · simp [hj]

theorem Enrolls.mem_eq (hn : Enrolls st st' i e tid) (s : Sid) :
    st'.tab.mem s = if s = st.tab.next then some e else st.tab.mem s := by
  rw [hn.mem]
  by_cases hs : s = st.tab.next <;> simp [hs]

theorem Enrolls.inTable_iff (hn : Enrolls st st' i e tid) (hs : s ≠ st.tab.next) :
    st'.tab.InTable s ↔ st.tab.InTable s := by
  constructor
  · rintro ⟨j, hj⟩
    rcases (hn.seated_iff j s).mp hj with ⟨-, rfl⟩ | ⟨-, hj'⟩
    · exact absurd rfl hs
    · exact ⟨j, hj'⟩
  · rintro ⟨j, hj⟩
    refine ⟨j, (hn.seated_iff j s).mpr (Or.inr ⟨?_, hj⟩)⟩
    rintro rfl
    simp [hn.free] at hj

/-- The table's reference and the creator's. -/
theorem Enrolls.refs_new (hn : Enrolls st st' i e tid) (h : RefInv st) : st'.refs st.tab.next = 2 := by
  have h0 := h.gone st.tab.next (h.fresh _ le_rfl)
  have hins : st'.tab.InTable st.tab.next := ⟨i, (hn.seated_iff i _).mpr (Or.inl ⟨rfl, rfl⟩)⟩
  unfold Conc.refs at h0 ⊢
  rw [if_pos hins, hn.held, List.countP_cons_of_pos (by simp)]
  omega

theorem Enrolls.refs_other (hn : Enrolls st st' i e tid) (hs : s ≠ st.tab.next) :
    st'.refs s = st.refs s := by
  unfold Conc.refs
  rw [hn.held, List.countP_cons_of_neg (by simpa using fun h => hs h.symm)]
  by_cases hin : st.tab.InTable s
  · rw [if_pos hin, if_pos ((hn.inTable_iff hs).mpr hin)]
  · rw [if_neg hin, if_neg fun h' => hin ((hn.inTable_iff hs).mp h')]

theorem Enrolls.keys (hn : Enrolls st st' i e tid) (h : RefInv st) :
    st'.tab.keys = Function.update st.tab.keys i (some e.ctx) := by
  funext j
  by_cases hj : j = i
  · subst hj
    simp [Table.keys, hn.gTab, hn.mem]
  · rw [Function.update_of_ne hj]
    unfold Table.keys
    rw [hn.gTab, Function.update_of_ne hj]
    cases hjs : st.tab.gTab j with
    | none => rfl
    | some s' =>
      have hne : s' ≠ st.tab.next := by rintro rfl; exact h.new_not_seated j hjs
      simp [hn.mem_eq, hne]

theorem Enrolls.slots (hn : Enrolls st st' i e tid) (h : RefInv st) (a b : Fin MAXSH) (s : Sid)
    (ha : st'.tab.gTab a = some s) (hb : st'.tab.gTab b = some s) : a = b := by
  rcases (hn.seated_iff a s).mp ha with ⟨rfl, rfl⟩ | ⟨-, ha'⟩
  · rcases (hn.seated_iff b _).mp hb with ⟨rfl, -⟩ | ⟨-, hb'⟩
    · rfl
    · exact absurd hb' (h.new_not_seated b)
  · rcases (hn.seated_iff b s).mp hb with ⟨-, rfl⟩ | ⟨-, hb'⟩
    · exact absurd ha' (h.new_not_seated a)
    · exact h.slots a b s ha' hb'

/-- A new shadow, with the table's reference and the creator's, in a free slot. -/
theorem enroll (h : RefInv st) (hn : Enrolls st st' i e tid)
    (hc : ∀ j, st.tab.keys j ≠ some e.ctx) (he : e.refcount = 2)
    (hnext : st'.tab.next = st.tab.next + 1) (hdy : st'.dying = st.dying)
    (hfr : st'.freed = st.freed) : RefInv st' := by
  have hfs : st.tab.mem st.tab.next = none := h.fresh _ le_rfl
  refine ⟨hn.slots h, ?_, ?_, ?_, ?_, ?_, ?_, by rw [hdy]; exact h.dyingNodup,
    by rw [hfr]; exact h.freedNodup⟩
  · rw [hn.keys h]
    refine h.unique.update fun k hk j _ => ?_
    obtain rfl : e.ctx = k := by simpa using hk
    exact hc j
  · intro s e' he'
    rw [hn.mem_eq] at he'
    by_cases hs : s = st.tab.next
    · subst hs
      rw [if_pos rfl] at he'
      obtain rfl := Option.some.inj he'
      rw [he, hn.refs_new h]
      rfl
    · rw [if_neg hs] at he'
      rw [hn.refs_other hs]
      exact h.count s e' he'
  · intro s he'
    rw [hn.mem_eq] at he'
    by_cases hs : s = st.tab.next
    · simp [hs] at he'
    · rw [if_neg hs] at he'
      rw [hn.refs_other hs]
      exact h.gone s he'
  · intro s
    rw [hdy, h.dying]
    by_cases hs : s = st.tab.next
    · subst hs
      simp [Table.isDead, hn.mem_eq, hfs, he]
    · simp only [Table.isDead, hn.mem_eq, if_neg hs]
  · intro s
    rw [hfr, hnext, h.freed, hn.mem_eq]
    by_cases hs : s = st.tab.next
    · simp [hs]
    · rw [if_neg hs]
      constructor
      · rintro ⟨h1, h2⟩
        exact ⟨Nat.lt_succ_of_lt h1, h2⟩
      · rintro ⟨h1, h2⟩
        exact ⟨lt_of_le_of_ne (Nat.lt_succ_iff.mp h1) hs, h2⟩
  · intro s hs
    rw [hnext] at hs
    rw [hn.mem_eq, if_neg (Nat.ne_of_gt hs)]
    exact h.fresh s (Nat.le_of_succ_le hs)

end Enrolls

theorem vacate_keys {t : Table α} {i : Fin MAXSH} {s : Sid} :
    ((t.unseat i).drop s).keys = Function.update t.keys i none := by
  have h1 : ((t.unseat i).drop s).keys = (t.unseat i).keys := Table.modify_keys fun _ => rfl
  rw [h1]
  funext j
  by_cases hj : j = i
  · subst hj; simp [Table.keys, Table.unseat]
  · simp [Table.keys, Table.unseat, hj]

/-- A slot gives up the table's reference. -/
theorem vacate (h : RefInv st) {i : Fin MAXSH} {s : Sid} (hi : st.tab.gTab i = some s)
    (htab : st'.tab = (st.tab.unseat i).drop s) (hheld : st'.held = st.held)
    (hdy : st'.dying = (if st'.tab.isDead s then [s] else []) ++ st.dying)
    (hfr : st'.freed = st.freed) : RefInv st' := by
  have hg : ∀ j, st'.tab.gTab j = if j = i then none else st.tab.gTab j := by
    intro j
    rw [htab]
    by_cases hj : j = i
    · subst hj; simp [Table.drop, Table.unseat]
    · simp [Table.drop, Table.unseat, hj]
  have hins : st.tab.InTable s := ⟨i, hi⟩
  have hout : ¬ st'.tab.InTable s := by
    rintro ⟨j, hj⟩
    rw [hg] at hj
    split_ifs at hj with hji
    exact hji (h.slots j i s hj hi)
  have hin : ∀ s', s' ≠ s → (st'.tab.InTable s' ↔ st.tab.InTable s') := by
    intro s' hs
    constructor
    · rintro ⟨j, hj⟩
      rw [hg] at hj
      split_ifs at hj
      exact ⟨j, hj⟩
    · rintro ⟨j, hj⟩
      refine ⟨j, ?_⟩
      rw [hg, if_neg, hj]
      rintro rfl
      rw [hi] at hj
      exact hs (Option.some.inj hj).symm
  obtain ⟨e, he⟩ := h.alloc_of_refs (refs_of_inTable hins)
  refine h.lower he (by rw [htab]; rfl) (by rw [htab]; rfl) ?_ hdy hfr ?_ ?_
  · intro s'
    unfold Conc.refs
    rw [hheld]
    by_cases hs : s' = s
    · subst hs
      rw [if_pos hins, if_neg hout, if_pos rfl]
      omega
    · simp only [hin s' hs, hs, if_false]
      omega
  · intro a b s' ha hb
    rw [hg] at ha hb
    split_ifs at ha hb
    exact h.slots a b s' ha hb
  · rw [htab, vacate_keys]
    exact h.unique.clear i

theorem refs_touch {tid : Tid} {s s' : Sid} (hg : st'.tab.gTab = st.tab.gTab)
    (hh : st'.held = (tid, s) :: st.held) :
    st'.refs s' = st.refs s' + if s' = s then 1 else 0 := by
  have hin : st'.tab.InTable s' ↔ st.tab.InTable s' := by
    unfold Table.InTable
    rw [hg]
  unfold Conc.refs
  simp only [hin, hh, List.countP_cons]
  by_cases hs : s' = s
  · simp [hs]
    omega
  · simp [hs, Ne.symm hs]

/-! ### Every section keeps it -/

theorem touch (h : RefInv st) {tid : Tid} {c : Ctx} {s : Sid} (hf : st.tab.find c = some s) :
    RefInv { st with tab := st.tab.touch s, held := (tid, s) :: st.held } := by
  obtain ⟨i, -, hi, -⟩ := Table.find_some hf
  exact h.raise (refs_of_inTable ⟨i, hi⟩) rfl rfl rfl (fun s' => refs_touch rfl rfl) rfl rfl

theorem get (h : RefInv st) (tid : Tid) (ready : Bool) (c : Ctx) :
    RefInv (st.get tid ready c).1 := by
  cases ready with
  | false => exact h
  | true =>
    cases hf : st.tab.find c with
    | none =>
      simp only [Conc.get, shGet_missing true hf]
      exact h
    | some s =>
      simp only [Conc.get, shGet_found hf]
      exact h.touch hf

/-- Eviction: the table first gives up its reference to `ev`, then takes the new shadow. -/
theorem evict (h : RefInv st) (tid : Tid) (blank : α) {c : Ctx} {ev : Sid}
    (hno : ∀ j, st.tab.keys j ≠ some c) (hev : st.tab.gTab (oldest st.tab.age) = some ev) :
    RefInv { st with
      tab := ((st.tab.calloc c blank).drop ev).seat (oldest st.tab.age) st.tab.next
      held := (tid, st.tab.next) :: st.held
      dying := (if ((st.tab.calloc c blank).drop ev).isDead ev then [ev] else []) ++ st.dying } := by
  generalize oldest st.tab.age = lru at hev ⊢
  have hne : ev ≠ st.tab.next := by
    rintro rfl
    exact h.new_not_seated lru hev
  have hmem : ((st.tab.calloc c blank).drop ev).mem = Function.update ((st.tab.unseat lru).drop ev).mem
      st.tab.next (some ⟨c, st.tab.gClock + 1, 2, blank⟩) := by
    funext s'
    rw [Table.drop_mem]
    by_cases hs : s' = st.tab.next
    · subst hs
      simp [Ne.symm hne, Table.calloc]
    · rw [Function.update_of_ne hs, Table.drop_mem]
      simp [hne, hs, Table.calloc, Table.unseat]
  have hdead : ((st.tab.calloc c blank).drop ev).isDead ev = ((st.tab.unseat lru).drop ev).isDead ev := by
    simp only [Table.isDead, hmem, Function.update_of_ne hne]
  have h₁ : RefInv { st with
      tab := (st.tab.unseat lru).drop ev
      dying := (if ((st.tab.unseat lru).drop ev).isDead ev then [ev] else []) ++ st.dying } :=
    h.vacate hev rfl rfl rfl rfl
  refine h₁.enroll (i := lru) (e := ⟨c, st.tab.gClock + 1, 2, blank⟩) ⟨?_, ?_, hmem, rfl⟩ ?_ rfl rfl
    (by rw [hdead]) rfl
  · simp [Table.drop, Table.unseat]
  · funext j
    by_cases hj : j = lru
    · subst hj; simp [Table.seat, Table.drop, Table.unseat, Table.calloc]
    · simp [hj, Table.seat, Table.drop, Table.unseat, Table.calloc]
  · intro j hj
    rw [vacate_keys] at hj
    by_cases hjl : j = lru
    · subst hjl; simp at hj
    · rw [Function.update_of_ne hjl] at hj
      exact hno j hj

theorem create (h : RefInv st) (tid : Tid) (alloc : Bool) (blank : α) (c : Ctx) :
    RefInv (st.create tid alloc blank c).1 := by
  cases hf : st.tab.find c with
  | some s =>
    simp only [Conc.create, shCreate_found alloc blank hf]
    exact h.touch hf
  | none =>
    have hno := Table.find_none hf
    cases alloc with
    | false =>
      simp only [Conc.create, shCreate_noMem blank hf]
      exact h
    | true =>
      cases hfree : freeSlot st.tab.gTab with
      | some i =>
        simp only [Conc.create, shCreate_new blank hf, shInsert_free blank hfree]
        exact h.enroll (i := i) (e := ⟨c, st.tab.gClock + 1, 2, blank⟩)
          ⟨freeSlot_some hfree, rfl, rfl, rfl⟩ hno rfl rfl rfl rfl
      | none =>
        obtain ⟨ev, hev⟩ := Option.ne_none_iff_exists'.mp
          (freeSlot_none.mp hfree (oldest st.tab.age))
        simp only [Conc.create, shCreate_new blank hf, shInsert_evict blank hfree hev]
        have := h.evict tid blank hno hev
        split_ifs at this ⊢ with hd <;> exact this

theorem release (h : RefInv st) {tid : Tid} {s : Sid} (hh : (tid, s) ∈ st.held) :
    RefInv (st.release tid s) := by
  obtain ⟨e, he⟩ := h.alloc_of_refs (refs_of_held hh)
  refine h.lower he rfl rfl ?_ rfl rfl h.slots ?_
  · intro s'
    have hin : ∀ x, (st.release tid s).tab.InTable x ↔ st.tab.InTable x := fun x => Iff.rfl
    have hp : st.held.countP (fun p => p.2 = s') =
        (st.held.erase (tid, s)).countP (fun p => p.2 = s') + if s' = s then 1 else 0 := by
      rw [(List.perm_cons_erase hh).countP_eq, List.countP_cons]
      by_cases hs : s' = s
      · simp [hs]
      · simp [hs, Ne.symm hs]
    unfold Conc.refs
    simp only [hin, hp]
    have : (st.release tid s).held = st.held.erase (tid, s) := rfl
    rw [this]
    omega
  · have : (st.release tid s).tab.keys = st.tab.keys := Table.modify_keys fun _ => rfl
    rw [this]
    exact h.unique

theorem free (h : RefInv st) (ready : Bool) (c : Ctx) : RefInv (st.free ready c) := by
  cases ready with
  | false => exact h
  | true =>
    cases hs : slotOf st.tab.keys c with
    | none =>
      simp only [Conc.free, shFree_missing true hs]
      exact h
    | some i =>
      obtain ⟨s, hi, -⟩ := Option.bind_eq_some_iff.mp (slotOf_some hs)
      simp only [Conc.free, shFree_found hs hi]
      refine h.vacate (s := s) hi rfl rfl ?_ rfl
      split_ifs <;> rfl

theorem freeMem (h : RefInv st) {s : Sid} (hd : s ∈ st.dying) : RefInv (st.freeMem s) := by
  obtain ⟨e, he, h0⟩ := Table.isDead_iff.mp ((h.dying s).mp hd)
  have hr : st.refs s = 0 := by
    have := h.count s e he
    omega
  have hm : ∀ s', (st.freeMem s).tab.mem s' = if s' = s then none else st.tab.mem s' := by
    intro s'
    by_cases hs : s' = s
    · simp [Conc.freeMem, shFreeMem, hs]
    · simp [Conc.freeMem, shFreeMem, hs]
  have hnin := not_seated_of_refs hr
  have hkeys : (st.freeMem s).tab.keys = st.tab.keys := by
    funext j
    have hg : (st.freeMem s).tab.gTab = st.tab.gTab := rfl
    unfold Table.keys
    rw [hg]
    cases hj : st.tab.gTab j with
    | none => rfl
    | some s' =>
      have hne : s' ≠ s := by rintro rfl; exact hnin j hj
      simp [hm, hne]
  have hnf : s ∉ st.freed := by
    rw [h.freed]
    rintro ⟨-, hn⟩
    simp [he] at hn
  refine ⟨h.slots, by rw [hkeys]; exact h.unique, ?_, ?_, ?_, ?_, ?_, h.dyingNodup.erase s,
    List.nodup_cons.mpr ⟨hnf, h.freedNodup⟩⟩
  · intro s' e' he'
    rw [hm] at he'
    split_ifs at he'
    exact h.count s' e' he'
  · intro s' he'
    rw [hm] at he'
    split_ifs at he' with hs
    · rw [hs]
      exact hr
    · exact h.gone s' he'
  · intro s'
    have : (st.freeMem s).dying = st.dying.erase s := rfl
    rw [this, h.dyingNodup.mem_erase_iff, h.dying]
    by_cases hs : s' = s
    · simp [hs, Table.isDead, hm]
    · simp [hs, Table.isDead, hm]
  · intro s'
    have : (st.freeMem s).freed = s :: st.freed := rfl
    rw [this, List.mem_cons, h.freed, hm]
    have hlt : s < st.tab.next := by
      by_contra hge
      have := h.fresh s (not_lt.mp hge)
      simp [he] at this
    by_cases hs : s' = s
    · subst hs
      exact ⟨fun _ => ⟨hlt, by simp⟩, fun _ => Or.inl rfl⟩
    · simp only [hs, false_or, if_false]
      exact Iff.rfl
  · intro s' hs'
    rw [hm]
    split_ifs
    · rfl
    · exact h.fresh s' hs'

theorem step (h : RefInv st) {ev : TabEvent α} (hs : st.step ev = some st') : RefInv st' := by
  cases ev with
  | get tid ready c =>
    obtain rfl := Option.some.inj hs
    exact h.get tid ready c
  | create tid alloc blank c =>
    obtain rfl := Option.some.inj hs
    exact h.create tid alloc blank c
  | release tid s =>
    simp only [Conc.step] at hs
    split_ifs at hs with hh
    obtain rfl := Option.some.inj hs
    exact h.release hh
  | free ready c =>
    obtain rfl := Option.some.inj hs
    exact h.free ready c
  | freeMem s =>
    simp only [Conc.step] at hs
    split_ifs at hs with hh
    obtain rfl := Option.some.inj hs
    exact h.freeMem hh

end RefInv

/-! ### Reachable states -/

theorem refInv_of_path {α : Type} {evs : List (TabEvent α)} {st : Conc α}
    (h : Path (fun s e t => Conc.step s e = some t) {} evs st) : RefInv st :=
  h.invariant (I := RefInv) (fun _ _ _ hi hs => hi.step hs) RefInv.init

section Evicting

variable {α : Type} {t : Table α} {c : Ctx} {blank : α} {lru : Fin MAXSH} {ev s : Sid} {e : Entry α}

theorem gTab_evict (j : Fin MAXSH) : (((t.calloc c blank).drop ev).seat lru t.next).gTab j =
    if j = lru then some t.next else t.gTab j := by
  by_cases hj : j = lru
  · subst hj; simp [Table.seat]
  · simp [Table.seat, hj, Table.drop, Table.calloc]

theorem mem_evict (he : t.mem s = some e) (hne : s ≠ t.next) :
    (((t.calloc c blank).drop ev).seat lru t.next).mem s =
      if s = ev then some { e with refcount := e.refcount - 1 } else some e := by
  change ((t.calloc c blank).drop ev).mem s = _
  rw [Table.drop_mem]
  by_cases hse : s = ev
  · subst hse; simp [Table.calloc, hne, he]
  · simp [Table.calloc, hne, he, hse]

/-- An eviction takes the evicted shadow out of the table, and no other. -/
theorem inTable_evict (hslots : ∀ i j s, t.gTab i = some s → t.gTab j = some s → i = j)
    (hev : t.gTab lru = some ev) (hne : s ≠ t.next) :
    (((t.calloc c blank).drop ev).seat lru t.next).InTable s ↔ t.InTable s ∧ s ≠ ev := by
  constructor
  · rintro ⟨j, hj⟩
    rw [gTab_evict] at hj
    split_ifs at hj with hjl
    · exact absurd (Option.some.inj hj).symm hne
    · refine ⟨⟨j, hj⟩, ?_⟩
      rintro rfl
      exact hjl (hslots j lru s hj hev)
  · rintro ⟨⟨j, hj⟩, hse⟩
    refine ⟨j, ?_⟩
    rw [gTab_evict, if_neg, hj]
    rintro rfl
    rw [hev] at hj
    exact hse (Option.some.inj hj).symm

end Evicting

/-- `sh_create` takes at most one reference from a shadow it does not return: the table's. -/
theorem create_other {α : Type} {st : Conc α} (h : RefInv st) (tid : Tid) (alloc : Bool)
    (blank : α) (c : Ctx) {s : Sid} {e : Entry α} (he : st.tab.mem s = some e)
    (hs : (st.create tid alloc blank c).2 ≠ some s) :
    ∃ e', (st.create tid alloc blank c).1.tab.mem s = some e' ∧
      e'.refcount = e.refcount -
        if st.tab.InTable s ∧ ¬ (st.create tid alloc blank c).1.tab.InTable s then 1 else 0 := by
  cases hf : st.tab.find c with
  | some s' =>
    have hne : s ≠ s' := by
      rintro rfl
      exact hs (by simp only [Conc.create, shCreate_found alloc blank hf])
    refine ⟨e, ?_, ?_⟩
    · simp only [Conc.create, shCreate_found alloc blank hf, Table.touch_mem, if_neg hne, he]
    · have hin : (st.create tid alloc blank c).1.tab.InTable s ↔ st.tab.InTable s := by
        simp only [Conc.create, shCreate_found alloc blank hf]
        exact Iff.rfl
      simp only [hin, and_not_self, if_false, sub_zero]
  | none =>
    cases alloc with
    | false =>
      have hst : (st.create tid false blank c).1 = st := by
        simp only [Conc.create, shCreate_noMem blank hf]
        rfl
      rw [hst]
      exact ⟨e, he, by simp⟩
    | true =>
      have hne : s ≠ st.tab.next := by
        rintro rfl
        exact hs (by simp only [Conc.create, shCreate_new blank hf])
      cases hfree : freeSlot st.tab.gTab with
      | some i =>
        refine ⟨e, ?_, ?_⟩
        · simp only [Conc.create, shCreate_new blank hf, shInsert_free blank hfree, Table.seat,
            Table.calloc, Function.update_of_ne hne, he]
        · rw [if_neg, sub_zero]
          rintro ⟨⟨j, hj⟩, hout⟩
          refine hout ⟨j, ?_⟩
          have hji : j ≠ i := by
            rintro rfl
            simp [freeSlot_some hfree] at hj
          simp only [Conc.create, shCreate_new blank hf, shInsert_free blank hfree, Table.seat,
            Function.update_of_ne hji]
          exact hj
      | none =>
        obtain ⟨ev, hev⟩ := Option.ne_none_iff_exists'.mp
          (freeSlot_none.mp hfree (oldest st.tab.age))
        have htab : (st.create tid true blank c).1.tab =
            ((st.tab.calloc c blank).drop ev).seat (oldest st.tab.age) st.tab.next := by
          simp only [Conc.create, shCreate_new blank hf, shInsert_evict blank hfree hev]
        have hin : (((st.tab.calloc c blank).drop ev).seat (oldest st.tab.age) st.tab.next).InTable s ↔
            st.tab.InTable s ∧ s ≠ ev := inTable_evict h.slots hev hne
        rw [htab, mem_evict he hne]
        by_cases hse : s = ev
        · refine ⟨_, if_pos hse, ?_⟩
          rw [if_pos ⟨⟨_, hse ▸ hev⟩, fun hs' => (hin.mp hs').2 hse⟩]
        · refine ⟨e, if_neg hse, ?_⟩
          rw [if_neg fun hs' => hs'.2 (hin.mpr ⟨hs'.1, hse⟩), sub_zero]

/-- **Shadow table and reference counts.**  In every state that any interleaving of the critical
sections and of the frees that follow them can reach: no context is in two slots; a live shadow's
count is one for its place in the table plus the references handed out and not yet released; a
shadow is doomed exactly when its count is zero, and freed exactly once, from there; a shadow that
a thread holds is allocated, counted, neither doomed nor freed; and a creation takes from every
other shadow at most the table's own reference, when it evicts it. -/
theorem shadow_references {α : Type} {evs : List (TabEvent α)} {st : Conc α}
    (h : Path (fun s e t => Conc.step s e = some t) {} evs st) :
    (∀ i j s s' e e', st.tab.gTab i = some s → st.tab.gTab j = some s' → st.tab.mem s = some e →
      st.tab.mem s' = some e' → e.ctx = e'.ctx → i = j) ∧
    (∀ s e, st.tab.mem s = some e → e.refcount =
      (if st.tab.InTable s then 1 else 0) + st.held.countP (fun p => p.2 = s)) ∧
    (∀ s < st.tab.next,
      (∃ e, st.tab.mem s = some e ∧ 0 < e.refcount ∧ st.dying.count s = 0 ∧ st.freed.count s = 0) ∨
      (∃ e, st.tab.mem s = some e ∧ e.refcount = 0 ∧ st.dying.count s = 1 ∧ st.freed.count s = 0) ∨
      (st.tab.mem s = none ∧ st.dying.count s = 0 ∧ st.freed.count s = 1)) ∧
    (∀ tid s, (tid, s) ∈ st.held →
      (∃ e, st.tab.mem s = some e ∧ 0 < e.refcount) ∧ s ∉ st.dying ∧ s ∉ st.freed) ∧
    (∀ tid alloc blank c s e, st.tab.mem s = some e → (st.create tid alloc blank c).2 ≠ some s →
      ∃ e', (st.create tid alloc blank c).1.tab.mem s = some e' ∧
        e'.refcount = e.refcount -
          if st.tab.InTable s ∧ ¬ (st.create tid alloc blank c).1.tab.InTable s then 1 else 0) := by
  have hi := refInv_of_path h
  have hnotFreed : ∀ s e, st.tab.mem s = some e → s ∉ st.freed := by
    intro s e he hf
    have := ((hi.freed s).mp hf).2
    simp [he] at this
  refine ⟨?_, ?_, ?_, ?_, fun tid alloc blank c s e he hs =>
    create_other hi tid alloc blank c he hs⟩
  · intro i j s s' e e' hgi hgj he he' hc
    exact hi.unique i j e.ctx (by simp [Table.keys, hgi, he]) (by simp [Table.keys, hgj, he', hc])
  · intro s e he
    rw [hi.count s e he, Conc.refs]
    push_cast
    rfl
  · intro s hs
    cases he : st.tab.mem s with
    | none =>
      have hd : s ∉ st.dying := by simp [hi.dying, Table.isDead, he]
      exact Or.inr (Or.inr ⟨rfl, List.count_eq_zero.mpr hd,
        List.count_eq_one_of_mem hi.freedNodup ((hi.freed s).mpr ⟨hs, he⟩)⟩)
    | some e =>
      have hf := List.count_eq_zero.mpr (hnotFreed s e he)
      have hc := hi.count s e he
      by_cases h0 : e.refcount = 0
      · have hd : s ∈ st.dying := (hi.dying s).mpr (Table.isDead_iff.mpr ⟨e, he, h0⟩)
        exact Or.inr (Or.inl ⟨e, rfl, h0, List.count_eq_one_of_mem hi.dyingNodup hd, hf⟩)
      · have hd : s ∉ st.dying := by simp [hi.dying, Table.isDead, he, h0]
        exact Or.inl ⟨e, rfl, by omega, List.count_eq_zero.mpr hd, hf⟩
  · intro tid s hh
    have hr := RefInv.refs_of_held hh
    obtain ⟨e, he⟩ := hi.alloc_of_refs hr
    have hc := hi.count s e he
    refine ⟨⟨e, he, by omega⟩, ?_, hnotFreed s e he⟩
    rw [hi.dying, hi.not_dead_of_refs hr]
    simp

/-- Two threads hold the shadow of context 7 when a third closes the context; the last release
dooms the shadow, and it is freed once. -/
def releaseRun : List (TabEvent Unit) :=
  [.create 1 true () 7, .get 2 true 7, .free true 7, .release 1 0, .release 2 0, .freeMem 0]

theorem releaseRun_isSome : (exec Conc.step ({} : Conc Unit) releaseRun).isSome = true := by
  decide +kernel

theorem shadow_references_releaseRun :
    ∃ st : Conc Unit, Path (fun s e t => Conc.step s e = some t) {} releaseRun st ∧
      ((∃ e, st.tab.mem 0 = some e ∧ 0 < e.refcount ∧ st.dying.count 0 = 0 ∧ st.freed.count 0 = 0) ∨
        (∃ e, st.tab.mem 0 = some e ∧ e.refcount = 0 ∧ st.dying.count 0 = 1 ∧
          st.freed.count 0 = 0) ∨
        (st.tab.mem 0 = none ∧ st.dying.count 0 = 0 ∧ st.freed.count 0 = 1)) :=
  ⟨_, exec_path_get releaseRun_isSome,
    (shadow_references (exec_path_get releaseRun_isSome)).2.2.1 0 (by decide +kernel)⟩

end AquaTransport
