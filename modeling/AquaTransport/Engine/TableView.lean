import AquaTransport.Engine.RefCount

/-!
# AquaTransport.Engine.TableView — the table as its users see it

A hook knows a shadow by its context and by what it holds: `Table.look s`.  The sections move
references and slots, and `look` and `InTable` say what is left of them for everyone else:
`sh_get`, `sh_release` and `sh_free` change no shadow's contents, `sh_create` adds at most a blank
one (`create_cases`), `sh_free_mem` takes one away, and `write` is a hook writing into a shadow it
holds.
-/

namespace AquaTransport

open SlotTable

variable {α : Type}

/-- The context and the contents of an allocated shadow. -/
def Table.look (t : Table α) (s : Sid) : Option (Ctx × α) :=
  (t.mem s).map fun e => (e.ctx, e.body)

/-- A hook writes into a shadow. -/
def Table.write (t : Table α) (s : Sid) (f : α → α) : Table α :=
  t.modify s fun e => { e with body := f e.body }

def Conc.write (st : Conc α) (s : Sid) (f : α → α) : Conc α :=
  { st with tab := st.tab.write s f }

namespace Table

variable {t : Table α} {s s' : Sid} {c : Ctx}

theorem look_init (s : Sid) : ({} : Table α).look s = none := rfl

theorem not_inTable_init (s : Sid) : ¬ ({} : Table α).InTable s := by
  rintro ⟨i, hi⟩
  simp at hi

theorem look_some {b : α} (h : t.look s = some (c, b)) :
    ∃ e, t.mem s = some e ∧ e.ctx = c ∧ e.body = b := by
  obtain ⟨e, he, hp⟩ := Option.map_eq_some_iff.mp h
  exact ⟨e, he, congrArg Prod.fst hp, congrArg Prod.snd hp⟩

theorem look_none : t.look s = none ↔ t.mem s = none := by
  simp [look]

/-- Only the context and the contents of an entry count for `look`. -/
theorem modify_look {f : Entry α → Entry α}
    (hf : ∀ e, (f e).ctx = e.ctx ∧ (f e).body = e.body) : (t.modify s f).look = t.look := by
  funext s'
  unfold look
  rw [modify_mem]
  split_ifs with hs
  · subst hs
    cases t.mem s' with
    | none => rfl
    | some e => simp [hf e]
  · rfl

theorem touch_look : (t.touch s).look = t.look :=
  modify_look (t := t) fun _ => ⟨rfl, rfl⟩

theorem drop_look : (t.drop s).look = t.look :=
  modify_look fun _ => ⟨rfl, rfl⟩

theorem write_look (f : α → α) :
    (t.write s f).look s' =
      if s' = s then (t.look s).map fun p => (p.1, f p.2) else t.look s' := by
  unfold look write
  rw [modify_mem]
  split_ifs
  · rw [Option.map_map, Option.map_map]
    rfl
  · rfl

/-- The search by context finds a shadow of that context in the table. -/
theorem find_look (h : t.find c = some s) : t.InTable s ∧ ∃ b, t.look s = some (c, b) := by
  obtain ⟨i, e, hi, he, hc⟩ := find_some h
  exact ⟨⟨i, hi⟩, e.body, by simp [look, he, hc]⟩

theorem find_none_look (h : t.find c = none) {b : α} (hs : t.InTable s) :
    t.look s ≠ some (c, b) := by
  obtain ⟨i, hi⟩ := hs
  intro hl
  obtain ⟨e, he, hc, -⟩ := look_some hl
  exact find_none h i (by simp [keys, hi, he, hc])

end Table

namespace Conc

variable {st : Conc α} {tid : Tid} {c : Ctx} {s s' : Sid}

/-! ### `sh_get` and `sh_release` -/

theorem get_held (ready : Bool) : (st.get tid ready c).1.held =
    ((st.get tid ready c).2.map (Prod.mk tid)).toList ++ st.held := rfl

theorem get_look (ready : Bool) : (st.get tid ready c).1.tab.look = st.tab.look := by
  cases ready with
  | false => rfl
  | true =>
    cases hf : st.tab.find c with
    | none => simp only [get, shGet_missing true hf]
    | some s =>
      simp only [get, shGet_found hf]
      exact Table.touch_look

theorem get_next (ready : Bool) : (st.get tid ready c).1.tab.next = st.tab.next := by
  cases ready with
  | false => rfl
  | true =>
    cases hf : st.tab.find c with
    | none => simp only [get, shGet_missing true hf]
    | some s =>
      simp only [get, shGet_found hf]
      rfl

theorem get_inTable (ready : Bool) :
    (st.get tid ready c).1.tab.InTable s ↔ st.tab.InTable s := by
  cases ready with
  | false => exact Iff.rfl
  | true =>
    cases hf : st.tab.find c with
    | none => simp only [get, shGet_missing true hf]
    | some s =>
      simp only [get, shGet_found hf]
      exact Iff.rfl

/-- What `sh_get` returns is the table's entry for the context. -/
theorem get_returns {ready : Bool} (h : (st.get tid ready c).2 = some s) :
    st.tab.InTable s ∧ ∃ b, st.tab.look s = some (c, b) := by
  cases ready with
  | false => simp [get, shGet] at h
  | true =>
    cases hf : st.tab.find c with
    | none => simp [get, shGet_missing true hf] at h
    | some s' =>
      simp only [get, shGet_found hf] at h
      obtain rfl := Option.some.inj h
      exact Table.find_look hf

/-- A ready `sh_get` that returns nothing leaves the state alone, and the table has no entry. -/
theorem get_missing (h : (st.get tid true c).2 = none) :
    (st.get tid true c).1 = st ∧ ∀ s b, st.tab.InTable s → st.tab.look s ≠ some (c, b) := by
  cases hf : st.tab.find c with
  | none =>
    refine ⟨by simp only [get, shGet_missing true hf]; rfl, fun s b hs => ?_⟩
    exact Table.find_none_look hf hs
  | some s => simp [get, shGet_found hf] at h

theorem release_look : (st.release tid s).tab.look = st.tab.look :=
  Table.drop_look

/-! ### `sh_create` -/

theorem create_held (alloc : Bool) (blank : α) : (st.create tid alloc blank c).1.held =
    ((st.create tid alloc blank c).2.map (Prod.mk tid)).toList ++ st.held := by
  simp only [create]

/-- `sh_create` returns the context's entry and changes no contents; or it fails, for want of
memory, on a context without one; or it returns a new blank shadow, now in the table. -/
theorem create_cases (hi : RefInv st) (tid : Tid) (alloc : Bool) (blank : α) (c : Ctx) :
    (∃ s b, (st.create tid alloc blank c).2 = some s ∧ st.tab.InTable s ∧
      st.tab.look s = some (c, b) ∧ (st.create tid alloc blank c).1.tab.look = st.tab.look ∧
      (st.create tid alloc blank c).1.tab.next = st.tab.next ∧
      ∀ s', (st.create tid alloc blank c).1.tab.InTable s' ↔ st.tab.InTable s') ∨
    ((st.create tid alloc blank c).2 = none ∧ (st.create tid alloc blank c).1 = st ∧
      alloc = false ∧ ∀ s b, st.tab.InTable s → st.tab.look s ≠ some (c, b)) ∨
    ((st.create tid alloc blank c).2 = some st.tab.next ∧ alloc = true ∧
      st.tab.look st.tab.next = none ∧
      (∀ s b, st.tab.InTable s → st.tab.look s ≠ some (c, b)) ∧
      (st.create tid alloc blank c).1.tab.look =
        Function.update st.tab.look st.tab.next (some (c, blank)) ∧
      (st.create tid alloc blank c).1.tab.next = st.tab.next + 1 ∧
      (st.create tid alloc blank c).1.tab.InTable st.tab.next ∧
      ∀ s', (st.create tid alloc blank c).1.tab.InTable s' →
        s' = st.tab.next ∨ st.tab.InTable s') := by
  cases hf : st.tab.find c with
  | some s =>
    obtain ⟨hin, b, hb⟩ := Table.find_look hf
    refine Or.inl ⟨s, b, ?_, hin, hb, ?_, ?_, fun s' => ?_⟩
    · simp only [create, shCreate_found alloc blank hf]
    · simp only [create, shCreate_found alloc blank hf]
      exact Table.touch_look
    · simp only [create, shCreate_found alloc blank hf]
      rfl
    · simp only [create, shCreate_found alloc blank hf]
      exact Iff.rfl
  | none =>
    have hno : ∀ s b, st.tab.InTable s → st.tab.look s ≠ some (c, b) :=
      fun s b hs => Table.find_none_look hf hs
    cases alloc with
    | false =>
      refine Or.inr (Or.inl ⟨?_, ?_, rfl, hno⟩)
      · simp only [create, shCreate_noMem blank hf]
      · simp only [create, shCreate_noMem blank hf]
        rfl
    | true =>
      have hlook : (st.tab.calloc c blank).look =
          Function.update st.tab.look st.tab.next (some (c, blank)) := by
        funext s
        by_cases hs : s = st.tab.next
        · subst hs; simp [Table.look, Table.calloc]
        · simp [Table.look, Table.calloc, hs]
      have hseat : ∀ (t : Table α) (i : Fin MAXSH), (∀ j, t.gTab j = st.tab.gTab j) →
          (t.seat i st.tab.next).InTable st.tab.next ∧
          ∀ s', (t.seat i st.tab.next).InTable s' → s' = st.tab.next ∨ st.tab.InTable s' := by
        intro t i hg
        refine ⟨⟨i, by simp [Table.seat]⟩, ?_⟩
        rintro s' ⟨j, hj⟩
        by_cases hji : j = i
        · subst hji
          simp only [Table.seat, Function.update_self] at hj
          exact Or.inl (Option.some.inj hj).symm
        · simp only [Table.seat, Function.update_of_ne hji, hg] at hj
          exact Or.inr ⟨j, hj⟩
      refine Or.inr (Or.inr ⟨?_, rfl, Table.look_none.mpr (hi.fresh _ le_rfl), hno, ?_⟩)
      · simp only [create, shCreate_new blank hf]
      · cases hfree : freeSlot st.tab.gTab with
        | some i =>
          simp only [create, shCreate_new blank hf, shInsert_free blank hfree]
          exact ⟨hlook, rfl, hseat _ i fun _ => rfl⟩
        | none =>
          obtain ⟨ev, hev⟩ := Option.ne_none_iff_exists'.mp
            (freeSlot_none.mp hfree (oldest st.tab.age))
          simp only [create, shCreate_new blank hf, shInsert_evict blank hfree hev]
          exact ⟨Table.drop_look.trans hlook, rfl, hseat _ _ fun _ => rfl⟩

/-! ### `sh_free`, `sh_free_mem` and writes -/

/-- The context has no shadow, or its shadow leaves its slot and loses the slot's reference. -/
theorem free_cases (st : Conc α) (ready : Bool) (c : Ctx) :
    (ready = true → slotOf st.tab.keys c = none) ∧ (st.free ready c).tab = st.tab ∨
      ∃ i s, slotOf st.tab.keys c = some i ∧ (st.free ready c).tab = (st.tab.unseat i).drop s := by
  cases ready with
  | false => exact .inl ⟨by simp, rfl⟩
  | true =>
    cases hs : slotOf st.tab.keys c with
    | none => exact .inl ⟨fun _ => rfl, by simp only [free, shFree_missing true hs]⟩
    | some i =>
      obtain ⟨s, hgi, -⟩ := Option.bind_eq_some_iff.mp (slotOf_some hs)
      exact .inr ⟨i, s, rfl, by simp only [free, shFree_found hs hgi]⟩

theorem free_look (ready : Bool) : (st.free ready c).tab.look = st.tab.look := by
  obtain ⟨-, he⟩ | ⟨i, s, -, he⟩ := st.free_cases ready c <;> rw [he]
  exact Table.drop_look

theorem free_held (ready : Bool) : (st.free ready c).held = st.held := by
  simp only [free]

theorem free_next (ready : Bool) : (st.free ready c).tab.next = st.tab.next := by
  obtain ⟨-, he⟩ | ⟨i, s, -, he⟩ := st.free_cases ready c <;> rw [he]
  rfl

theorem seated_of_unseat {i j : Fin MAXSH} {s s' : Sid}
    (hj : ((st.tab.unseat i).drop s').gTab j = some s) : j ≠ i ∧ st.tab.gTab j = some s := by
  by_cases hji : j = i
  · subst hji
    simp [Table.drop, Table.unseat] at hj
  · exact ⟨hji, by simpa [Table.drop, Table.unseat, hji] using hj⟩

theorem free_inTable (ready : Bool) (h : (st.free ready c).tab.InTable s) : st.tab.InTable s := by
  obtain ⟨-, he⟩ | ⟨i, s', -, he⟩ := st.free_cases ready c <;> rw [he] at h
  · exact h
  · obtain ⟨j, hj⟩ := h
    exact ⟨j, (seated_of_unseat hj).2⟩

/-- After a ready `sh_free` the table has no entry for the context. -/
theorem free_gone (hi : RefInv st) {b : α} (h : (st.free true c).tab.InTable s) :
    (st.free true c).tab.look s ≠ some (c, b) := by
  rw [free_look]
  intro hl
  obtain ⟨e, he, hc, -⟩ := Table.look_some hl
  obtain ⟨hs, ht⟩ | ⟨i, s', hs, ht⟩ := st.free_cases true c <;> rw [ht] at h
  · obtain ⟨i, hi⟩ := h
    exact slotOf_none.mp (hs rfl) i (by simp [Table.keys, hi, he, hc])
  · obtain ⟨j, hj⟩ := h
    obtain ⟨hji, hj⟩ := seated_of_unseat hj
    exact hji (hi.unique j i c (by simp [Table.keys, hj, he, hc]) (slotOf_some hs))

theorem freeMem_look : (st.freeMem s).tab.look = Function.update st.tab.look s none := by
  funext s'
  by_cases hs : s' = s
  · subst hs; simp [freeMem, shFreeMem, Table.look]
  · simp [freeMem, shFreeMem, Table.look, hs]

theorem freeMem_next : (st.freeMem s).tab.next = st.tab.next := rfl

theorem write_look (f : α → α) :
    (st.write s f).tab.look s' =
      if s' = s then (st.tab.look s).map fun p => (p.1, f p.2) else st.tab.look s' :=
  Table.write_look f

end Conc

/-! ### References and the view -/

namespace RefInv

variable {st : Conc α}

/-- Writing into a shadow moves no reference. -/
theorem write (h : RefInv st) (s : Sid) (f : α → α) : RefInv (st.write s f) := by
  have hm : ∀ s', (st.write s f).tab.mem s' =
      (st.tab.mem s').map fun e => if s' = s then { e with body := f e.body } else e := by
    intro s'
    have := Table.modify_mem st.tab s s' fun e => { e with body := f e.body }
    simp only [Conc.write, Table.write, this]
    split_ifs with hs
    · rw [hs]
    · simp
  have hd : ∀ s', (st.write s f).tab.isDead s' = st.tab.isDead s' := by
    intro s'
    unfold Table.isDead
    rw [hm]
    cases st.tab.mem s' with
    | none => rfl
    | some e =>
      rw [Option.map_some]
      by_cases hs : s' = s <;> simp [hs]
  have hn : ∀ s', (st.write s f).tab.mem s' = none ↔ st.tab.mem s' = none := by
    intro s'
    rw [hm, Option.map_eq_none_iff]
  refine ⟨h.slots, ?_, ?_, ?_, ?_, ?_, ?_, h.dyingNodup, h.freedNodup⟩
  · have : (st.write s f).tab.keys = st.tab.keys := Table.modify_keys fun _ => rfl
    rw [this]
    exact h.unique
  · intro s' e' he'
    rw [hm, Option.map_eq_some_iff] at he'
    obtain ⟨e, he, rfl⟩ := he'
    have := h.count s' e he
    split_ifs <;> exact this
  · intro s' he'
    exact h.gone s' ((hn s').mp he')
  · intro s'
    rw [hd]
    exact h.dying s'
  · intro s'
    rw [hn]
    exact h.freed s'
  · intro s' hs'
    exact (hn s').mpr (h.fresh s' hs')

/-- A shadow in the table, or held by a thread, is there to look at. -/
theorem look_of_inTable (h : RefInv st) {s : Sid} (hs : st.tab.InTable s) :
    ∃ c b, st.tab.look s = some (c, b) := by
  obtain ⟨e, he⟩ := h.alloc_of_refs (refs_of_inTable hs)
  exact ⟨e.ctx, e.body, by simp [Table.look, he]⟩

/-- A held shadow is not doomed. -/
theorem not_dying_of_held (h : RefInv st) {tid : Tid} {s : Sid} (hs : (tid, s) ∈ st.held) :
    s ∉ st.dying := by
  rw [h.dying, h.not_dead_of_refs (refs_of_held hs)]
  simp

/-- A doomed shadow is not in the table. -/
theorem not_inTable_of_dying (h : RefInv st) {s : Sid} (hs : s ∈ st.dying) :
    ¬ st.tab.InTable s := by
  intro hin
  rw [h.dying, h.not_dead_of_refs (refs_of_inTable hin)] at hs
  simp at hs

/-- A context has one entry. -/
theorem inTable_inj (h : RefInv st) {s s' : Sid} {c : Ctx} {b b' : α} (hs : st.tab.InTable s)
    (hs' : st.tab.InTable s') (hl : st.tab.look s = some (c, b))
    (hl' : st.tab.look s' = some (c, b')) : s = s' := by
  obtain ⟨i, hi⟩ := hs
  obtain ⟨j, hj⟩ := hs'
  obtain ⟨e, he, hc, -⟩ := Table.look_some hl
  obtain ⟨e', he', hc', -⟩ := Table.look_some hl'
  obtain rfl := h.unique i j c (by simp [Table.keys, hi, he, hc]) (by simp [Table.keys, hj, he', hc'])
  rw [hi] at hj
  exact Option.some.inj hj

end RefInv

end AquaTransport
