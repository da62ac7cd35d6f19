import AquaTransport.Lib.Run
import AquaTransport.Lib.SlotTable
import Mathlib.Data.List.Basic
import Mathlib.Data.List.Nodup
import Mathlib.Data.Int.Basic
import Mathlib.Tactic.Ring

/-!
# AquaTransport.Engine.ShadowTable — `gTab` and the reference counts of the shadows

`Table` is the static state behind `gLock`: the 256 slots, the use clock, and the shadows that
`calloc` has handed out.  What a shadow holds beyond its table fields is a parameter `α`, so the
same table carries the connections of the engine and the incarnation stamps of
`AquaTransport.Hooks.Lifetime`.

`shGet`, `shCreate`, `shRelease` and `shFree` are the critical sections; a shadow whose count
reaches zero there is freed by a later `shFreeMem`, outside the lock.  `Conc` adds the threads: the
references they hold, the shadows doomed but not yet freed, and the `sh_free_mem` calls so far.
-/

namespace AquaTransport

open SlotTable

/-- An `SSLContextRef`, as the address it is. -/
abbrev Ctx := ℕ

/-- A shadow's identity.  `calloc` never returns memory still in use, so each allocation gets a new
one. -/
abbrev Sid := ℕ

abbrev Tid := ℕ

def MAXSH : ℕ := 256

instance : NeZero MAXSH := ⟨by decide⟩

/-- A shadow as the table sees it. -/
structure Entry (α : Type) where
  ctx : Ctx
  lastUse : UInt32
  refcount : ℤ
  body : α

structure Table (α : Type) where
  gTab : Fin MAXSH → Option Sid := fun _ => none
  gClock : UInt32 := 0
  mem : Sid → Option (Entry α) := fun _ => none
  next : Sid := 0

namespace Table

variable {α : Type}

/-- `gTab[i]->ctx` for the occupied slots. -/
def keys (t : Table α) (i : Fin MAXSH) : Option Ctx :=
  (t.gTab i).bind fun s => (t.mem s).map Entry.ctx

/-- `gTab[i]->lastUse`. -/
def age (t : Table α) (i : Fin MAXSH) : ℕ :=
  (((t.gTab i).bind t.mem).map fun e => e.lastUse.toNat).getD 0

def modify (t : Table α) (s : Sid) (f : Entry α → Entry α) : Table α :=
  { t with mem := Function.update t.mem s ((t.mem s).map f) }

/-- The shadow in the first slot whose context is `c`. -/
def find (t : Table α) (c : Ctx) : Option Sid :=
  (slotOf t.keys c).bind t.gTab

/-- `s->lastUse = ++gClock; s->refcount++`. -/
def touch (t : Table α) (s : Sid) : Table α :=
  { t.modify s fun e => { e with lastUse := t.gClock + 1, refcount := e.refcount + 1 } with
    gClock := t.gClock + 1 }

/-- `--s->refcount`. -/
def drop (t : Table α) (s : Sid) : Table α :=
  t.modify s fun e => { e with refcount := e.refcount - 1 }

/-- A new shadow: its own fields and two references, the table's and the creator's. -/
def calloc (t : Table α) (c : Ctx) (blank : α) : Table α :=
  { t with
    gClock := t.gClock + 1
    mem := Function.update t.mem t.next (some ⟨c, t.gClock + 1, 2, blank⟩)
    next := t.next + 1 }

/-- `gTab[i] = s`. -/
def seat (t : Table α) (i : Fin MAXSH) (s : Sid) : Table α :=
  { t with gTab := Function.update t.gTab i (some s) }

/-- `gTab[i] = NULL`. -/
def unseat (t : Table α) (i : Fin MAXSH) : Table α :=
  { t with gTab := Function.update t.gTab i none }

/-- The count of `s` is zero. -/
def isDead (t : Table α) (s : Sid) : Bool :=
  match t.mem s with
  | some e => decide (e.refcount = 0)
  | none => false

def InTable (t : Table α) (s : Sid) : Prop := ∃ i, t.gTab i = some s

instance (t : Table α) (s : Sid) : Decidable (t.InTable s) :=
  inferInstanceAs (Decidable (∃ i, t.gTab i = some s))

end Table

section Sections

variable {α : Type}

def shGet (ready : Bool) (t : Table α) (c : Ctx) : Table α × Option Sid :=
  if ready then
    match t.find c with
    | some s => (t.touch s, some s)
    | none => (t, none)
  else (t, none)

/-- The part of `sh_create` for a context without a shadow.  The last component is `evicted` when
its count reached zero (`freeEvicted`). -/
def shInsert (blank : α) (t : Table α) (c : Ctx) : Table α × Option Sid :=
  match freeSlot t.gTab with
  | some i => ((t.calloc c blank).seat i t.next, none)
  | none =>
    -- full: the least recently used entry loses the table's reference
    match t.gTab (oldest t.age) with
    | some evicted =>
      (((t.calloc c blank).drop evicted).seat (oldest t.age) t.next,
        if ((t.calloc c blank).drop evicted).isDead evicted then some evicted else none)
    | none => ((t.calloc c blank).seat (oldest t.age) t.next, none)

/-- The critical section of `sh_create`: the table, the shadow returned, and the evicted shadow to
free.  `alloc` is whether `calloc` succeeds and `blank` what a new shadow holds. -/
def shCreate (alloc : Bool) (blank : α) (t : Table α) (c : Ctx) :
    Table α × Option Sid × Option Sid :=
  match t.find c with
  | some s => (t.touch s, some s, none)
  | none =>
    if alloc then ((shInsert blank t c).1, some t.next, (shInsert blank t c).2)
    else (t, none, none)

/-- The second component is `dead`. -/
def shRelease (t : Table α) (s : Sid) : Table α × Bool :=
  (t.drop s, (t.drop s).isDead s)

/-- The second component is the shadow taken out of the table when its count reached zero. -/
def shFree (ready : Bool) (t : Table α) (c : Ctx) : Table α × Option Sid :=
  if ready then
    match slotOf t.keys c with
    | some i =>
      match t.gTab i with
      | some s =>
        ((t.unseat i).drop s, if ((t.unseat i).drop s).isDead s then some s else none)
      | none => (t, none)
    | none => (t, none)
  else (t, none)

def shFreeMem (t : Table α) (s : Sid) : Table α :=
  { t with mem := Function.update t.mem s none }

end Sections

/-! ### Threads over the table -/

/-- The table with its threads.  `held` are the references handed out and not yet released,
`dying` the shadows whose count reached zero and whose `sh_free_mem` has not run, `freed` the
`sh_free_mem` calls made, newest first. -/
structure Conc (α : Type) where
  tab : Table α := {}
  held : List (Tid × Sid) := []
  dying : List Sid := []
  freed : List Sid := []

/-- What a thread does next: one critical section, or the `sh_free_mem` that follows one. -/
inductive TabEvent (α : Type)
  | get (tid : Tid) (ready : Bool) (c : Ctx)
  | create (tid : Tid) (alloc : Bool) (blank : α) (c : Ctx)
  | release (tid : Tid) (s : Sid)
  | free (ready : Bool) (c : Ctx)
  | freeMem (s : Sid)

namespace Conc

variable {α : Type}

def get (st : Conc α) (tid : Tid) (ready : Bool) (c : Ctx) : Conc α × Option Sid :=
  ({ st with
      tab := (shGet ready st.tab c).1
      held := ((shGet ready st.tab c).2.map (Prod.mk tid)).toList ++ st.held },
    (shGet ready st.tab c).2)

def create (st : Conc α) (tid : Tid) (alloc : Bool) (blank : α) (c : Ctx) : Conc α × Option Sid :=
  ({ st with
      tab := (shCreate alloc blank st.tab c).1
      held := ((shCreate alloc blank st.tab c).2.1.map (Prod.mk tid)).toList ++ st.held
      dying := (shCreate alloc blank st.tab c).2.2.toList ++ st.dying },
    (shCreate alloc blank st.tab c).2.1)

def release (st : Conc α) (tid : Tid) (s : Sid) : Conc α :=
  { st with
    tab := (shRelease st.tab s).1
    held := st.held.erase (tid, s)
    dying := (if (shRelease st.tab s).2 then [s] else []) ++ st.dying }

def free (st : Conc α) (ready : Bool) (c : Ctx) : Conc α :=
  { st with
    tab := (shFree ready st.tab c).1
    dying := (shFree ready st.tab c).2.toList ++ st.dying }

def freeMem (st : Conc α) (s : Sid) : Conc α :=
  { st with tab := shFreeMem st.tab s, dying := st.dying.erase s, freed := s :: st.freed }

/-- A thread releases only a reference it holds, and frees only a shadow it was told is dead. -/
def step (st : Conc α) : TabEvent α → Option (Conc α)
  | .get tid ready c => some (st.get tid ready c).1
  | .create tid alloc blank c => some (st.create tid alloc blank c).1
  | .release tid s => if (tid, s) ∈ st.held then some (st.release tid s) else none
  | .free ready c => some (st.free ready c)
  | .freeMem s => if s ∈ st.dying then some (st.freeMem s) else none

/-- The references to `s`: the table's own and those handed out. -/
def refs (st : Conc α) (s : Sid) : ℕ :=
  (if st.tab.InTable s then 1 else 0) + st.held.countP (fun p => p.2 = s)

end Conc

/-! ### What the sections do to one shadow -/

namespace Table

variable {α : Type}

@[simp] theorem modify_gTab (t : Table α) (s : Sid) (f : Entry α → Entry α) :
    (t.modify s f).gTab = t.gTab := rfl

@[simp] theorem modify_next (t : Table α) (s : Sid) (f : Entry α → Entry α) :
    (t.modify s f).next = t.next := rfl

theorem modify_mem (t : Table α) (s s' : Sid) (f : Entry α → Entry α) :
    (t.modify s f).mem s' = if s' = s then (t.mem s).map f else t.mem s' := by
  by_cases h : s' = s
  · subst h; simp [modify]
  · simp [modify, h]

theorem touch_mem (t : Table α) (s s' : Sid) :
    (t.touch s).mem s' = if s' = s then (t.mem s).map fun e =>
      { e with lastUse := t.gClock + 1, refcount := e.refcount + 1 } else t.mem s' :=
  modify_mem t s s' _

theorem drop_mem (t : Table α) (s s' : Sid) :
    (t.drop s).mem s' = if s' = s then (t.mem s).map fun e =>
      { e with refcount := e.refcount - 1 } else t.mem s' :=
  modify_mem t s s' _

/-- Only the context of an entry counts for the keys, and `modify` keeps it when `f` does. -/
theorem modify_keys {t : Table α} {s : Sid} {f : Entry α → Entry α} (hf : ∀ e, (f e).ctx = e.ctx) :
    (t.modify s f).keys = t.keys := by
  funext i
  unfold keys
  rw [modify_gTab]
  cases hi : t.gTab i with
  | none => rfl
  | some s' =>
    rw [Option.bind_some, Option.bind_some, modify_mem]
    by_cases h : s' = s
    · subst h
      simp only [if_true]
      cases t.mem s' <;> simp [hf]
    · rw [if_neg h]

theorem isDead_iff {t : Table α} {s : Sid} :
    t.isDead s = true ↔ ∃ e, t.mem s = some e ∧ e.refcount = 0 := by
  unfold isDead
  cases t.mem s <;> simp

theorem find_some {t : Table α} {c : Ctx} {s : Sid} (h : t.find c = some s) :
    ∃ i e, t.gTab i = some s ∧ t.mem s = some e ∧ e.ctx = c := by
  obtain ⟨i, hi, hs⟩ := Option.bind_eq_some_iff.mp h
  have hk := slotOf_some hi
  simp only [keys, hs, Option.bind_some, Option.map_eq_some_iff] at hk
  obtain ⟨e, he, hc⟩ := hk
  exact ⟨i, e, hs, he, hc⟩

theorem find_none {t : Table α} {c : Ctx} (h : t.find c = none) (i : Fin MAXSH) :
    t.keys i ≠ some c := by
  cases hs : slotOf t.keys c with
  | none => exact slotOf_none.mp hs i
  | some j =>
    have hk := slotOf_some hs
    rw [find, hs, Option.bind_some] at h
    simp [keys, h] at hk

theorem inTable_of_gTab {t : Table α} {i : Fin MAXSH} {s : Sid} (h : t.gTab i = some s) :
    t.InTable s := ⟨i, h⟩

end Table

/-! ### The sections by case -/

section Sections

variable {α : Type} {t : Table α} {c : Ctx} {s : Sid}

theorem shGet_found (h : t.find c = some s) : shGet true t c = (t.touch s, some s) := by
  unfold shGet
  rw [if_pos rfl, h]

theorem shGet_missing (ready : Bool) (h : t.find c = none) : shGet ready t c = (t, none) := by
  unfold shGet
  rw [h]
  split_ifs <;> rfl

theorem shCreate_found (alloc : Bool) (blank : α) (h : t.find c = some s) :
    shCreate alloc blank t c = (t.touch s, some s, none) := by
  unfold shCreate
  rw [h]

theorem shCreate_noMem (blank : α) (h : t.find c = none) :
    shCreate false blank t c = (t, none, none) := by
  unfold shCreate
  rw [h]
  rfl

theorem shCreate_new (blank : α) (h : t.find c = none) :
    shCreate true blank t c = ((shInsert blank t c).1, some t.next, (shInsert blank t c).2) := by
  unfold shCreate
  rw [h]
  rfl

theorem shInsert_free (blank : α) {i : Fin MAXSH} (h : freeSlot t.gTab = some i) :
    shInsert blank t c = ((t.calloc c blank).seat i t.next, none) := by
  unfold shInsert
  rw [h]

theorem shInsert_evict (blank : α) (h : freeSlot t.gTab = none)
    (hs : t.gTab (oldest t.age) = some s) :
    shInsert blank t c = (((t.calloc c blank).drop s).seat (oldest t.age) t.next,
      if ((t.calloc c blank).drop s).isDead s then some s else none) := by
  unfold shInsert
  rw [h]
  simp only [hs]

theorem shFree_found {i : Fin MAXSH} (h : slotOf t.keys c = some i) (hs : t.gTab i = some s) :
    shFree true t c =
      ((t.unseat i).drop s, if ((t.unseat i).drop s).isDead s then some s else none) := by
  unfold shFree
  rw [if_pos rfl, h]
  simp only [hs]

theorem shFree_missing (ready : Bool) (h : slotOf t.keys c = none) :
    shFree ready t c = (t, none) := by
  unfold shFree
  rw [h]
  split_ifs <;> rfl

end Sections

end AquaTransport
