import Mathlib.Data.List.ReduceOption
import Mathlib.Data.List.Iterate
import Mathlib.Data.List.Nodup
import Mathlib.Data.List.Perm.Subperm

/-!
# AquaTransport.Awdl.Hashmap — hashmap.c

Open addressing: an entry is in one of the eight slots from the hash of its key on, and is found there
although slots before it have become free.  `put` takes the first free slot of these, or doubles the
table and puts every entry again, which may double it once more.  It does not look whether the key has an
entry farther on: it is right for a key that has none (`put_spec`).

The hash and whether `calloc` gives memory are parameters.
-/

namespace AquaTransport.Awdl

/-- `hashmap_map`; a slot that is not in use is none. -/
structure Hashmap (K V : Type*) where
  data : List (Option (K × V))
  size : ℕ

namespace Hashmap

variable {K V : Type*}

/-- A table of a size, with no slot in use. -/
def empty (n : ℕ) : Hashmap K V := ⟨List.replicate n none, 0⟩

/-- `hashmap_new`. -/
def new : Hashmap K V := empty 256

def slot (m : Hashmap K V) (i : ℕ) : Option (K × V) := m.data[i]?.join

/-- The entries, as the iterator shows them. -/
def entries (m : Hashmap K V) : List (K × V) := m.data.reduceOption

def fill (m : Hashmap K V) (i : ℕ) (e : K × V) : Hashmap K V := ⟨m.data.set i (some e), m.size + 1⟩

/-- `hashmap_it_remove` at a slot in use. -/
def clear (m : Hashmap K V) (i : ℕ) : Hashmap K V := ⟨m.data.set i none, m.size - 1⟩

/-- The loop over the iterator that removes the entries without `f`. -/
def sweep (m : Hashmap K V) (f : V → Bool) : Hashmap K V :=
  (List.range m.data.length).foldl (fun m i => if (m.slot i).any fun e => !f e.2 then m.clear i else m) m

@[simp] theorem length_clear (m : Hashmap K V) (i : ℕ) : (m.clear i).data.length = m.data.length :=
  List.length_set

@[simp] theorem length_sweep (m : Hashmap K V) (f : V → Bool) : (m.sweep f).data.length = m.data.length := by
  unfold sweep
  generalize List.range m.data.length = l
  induction l generalizing m with
  | nil => rfl
  | cons i l ih =>
    rw [List.foldl_cons, ih]
    split_ifs
    · exact length_clear m i
    · rfl

section Hash

variable [DecidableEq K] (hash : K → ℕ)

/-- The slots that are probed for a key. -/
def chain (m : Hashmap K V) (key : K) : List ℕ :=
  List.iterate (fun curr => (curr + 1) % m.data.length) (hash key % m.data.length) 8

/-- `hashmap_hash`; none is `MAP_FULL`. -/
def place (m : Hashmap K V) (key : K) : Option ℕ :=
  if m.size ≥ m.data.length / 2 then none
  else (m.chain hash key).find? fun i => (m.slot i).all fun e => e.1 = key

/-- The slot where `hashmap_get` finds a key. -/
def find (m : Hashmap K V) (key : K) : Option ℕ :=
  (m.chain hash key).find? fun i => (m.slot i).any fun e => e.1 = key

/-- `hashmap_get`, that keeps the entry. -/
def get (m : Hashmap K V) (key : K) : Option V := ((m.find hash key).bind m.slot).map Prod.snd

/-- `hashmap_get`, that removes the entry. -/
def remove (m : Hashmap K V) (key : K) : Option V × Hashmap K V :=
  match m.find hash key with
  | some i => ((m.slot i).map Prod.snd, m.clear i)
  | none => (none, m)

/-- What is done through a pointer to the value of a key. -/
def update (m : Hashmap K V) (key : K) (f : V → V) : Hashmap K V :=
  match m.find hash key with
  | some i => { m with data := m.data.set i ((m.slot i).map fun e => (e.1, f e.2)) }
  | none => m

@[simp] theorem length_remove (m : Hashmap K V) (key : K) :
    (m.remove hash key).2.data.length = m.data.length := by
  unfold remove
  cases m.find hash key with
  | none => rfl
  | some i => exact length_clear m i

@[simp] theorem length_update (m : Hashmap K V) (key : K) (f : V → V) :
    (m.update hash key f).data.length = m.data.length := by
  unfold update
  cases m.find hash key with
  | none => rfl
  | some i => exact List.length_set

/-- The loop of `hashmap_rehash`, with the first status that is not `MAP_OK`. -/
def moveAll (put : Hashmap K V → K → V → Option (Bool × Hashmap K V)) :
    List (Option (K × V)) → Hashmap K V → Option (Bool × Hashmap K V)
  | [], m => some (true, m)
  | none :: rest, m => moveAll put rest m
  | some e :: rest, m =>
    match put m e.1 e.2 with
    | some (true, m) => moveAll put rest m
    | result => result

/-- `hashmap_put`: whether it returns `MAP_OK`, and the table.  The fuel bounds how often the table is
doubled inside one another, see `put_returns`. -/
def put (calloc : ℕ → Bool) (fuel : ℕ) (m : Hashmap K V) (key : K) (value : V) : Option (Bool × Hashmap K V) :=
  match m.place hash key with
  | some i => some (true, m.fill i (key, value))
  | none =>
    if calloc (2 * m.data.length) then
      match fuel with
      | 0 => none
      | fuel + 1 =>
        match moveAll (put calloc fuel) m.data (empty (2 * m.data.length)) with
        | some (true, m) => put calloc fuel m key value
        | result => result
    else some (false, m)

end Hash

/-! ### Slots and entries -/

section Slots

variable {m : Hashmap K V} {i j : ℕ} {e : K × V}

theorem lt_of_slot (h : m.slot i = some e) : i < m.data.length := by
  by_contra hge
  rw [slot, List.getElem?_eq_none (not_lt.mp hge)] at h
  exact absurd h (by simp)

theorem mem_entries : e ∈ m.entries ↔ ∃ i, m.slot i = some e := by
  rw [entries, List.reduceOption_mem_iff, List.mem_iff_getElem?]
  simp only [slot, Option.join_eq_some_iff]

theorem slot_set (x : Option (K × V)) (n : ℕ) (hi : i < m.data.length) :
    slot ⟨m.data.set i x, n⟩ j = if i = j then x else m.slot j := by
  unfold slot
  rw [List.getElem?_set]
  split_ifs <;> rfl

/-- The entries around a slot. -/
theorem entries_around (hi : i < m.data.length) : ∃ as bs, m.entries = as ++ ((m.slot i).toList ++ bs) ∧
    ∀ x n, entries ⟨m.data.set i x, n⟩ = as ++ (x.toList ++ bs) := by
  have hparts : ∀ x : Option (K × V), (m.data.take i ++ x :: m.data.drop (i + 1)).reduceOption =
      (m.data.take i).reduceOption ++ (x.toList ++ (m.data.drop (i + 1)).reduceOption) := by
    intro x
    rw [List.reduceOption_append]
    cases x <;> rfl
  refine ⟨(m.data.take i).reduceOption, (m.data.drop (i + 1)).reduceOption, ?_, fun x n => ?_⟩
  · rw [← hparts, slot, List.getElem?_eq_getElem hi, Option.join_some, List.getElem_cons_drop hi,
      List.take_append_drop]
    rfl
  · rw [← hparts, entries, List.set_eq_take_append_cons_drop, if_pos hi]

theorem fill_perm (hi : i < m.data.length) (h : m.slot i = none) :
    (m.fill i e).entries.Perm (e :: m.entries) := by
  obtain ⟨as, bs, hm, hset⟩ := entries_around hi
  rw [fill, hset, hm, h]
  exact List.perm_middle

theorem clear_perm (h : m.slot i = some e) : m.entries.Perm (e :: (m.clear i).entries) := by
  obtain ⟨as, bs, hm, hset⟩ := entries_around (lt_of_slot h)
  rw [clear, hset, hm, h]
  exact List.perm_middle

end Slots

/-! ### The invariant -/

section Invariant

variable (hash : K → ℕ)

/-- Every key has one entry, that a probe for it comes by. -/
structure Ok (m : Hashmap K V) : Prop where
  pos : 0 < m.data.length
  nodup : (m.entries.map Prod.fst).Nodup
  home : ∀ i e, m.slot i = some e → i ∈ m.chain hash e.1
  size : m.size = m.entries.length

variable {hash} {m : Hashmap K V} {i : ℕ} {key : K} {value : V}

theorem lt_of_chain (hpos : 0 < m.data.length) (h : i ∈ m.chain hash key) : i < m.data.length := by
  obtain ⟨k, -, rfl⟩ := List.mem_iterate.mp h
  cases k with
  | zero => exact Nat.mod_lt _ hpos
  | succ k =>
    rw [Function.iterate_succ_apply']
    exact Nat.mod_lt _ hpos

theorem chain_congr {m' : Hashmap K V} (h : m'.data.length = m.data.length) (key : K) :
    m'.chain hash key = m.chain hash key := by
  rw [chain, chain, h]

namespace Ok

variable (h : m.Ok hash)

include h

theorem value_unique {v w : V} (hv : (key, v) ∈ m.entries) (hw : (key, w) ∈ m.entries) : v = w :=
  congrArg Prod.snd (List.inj_on_of_nodup_map h.nodup hv hw rfl)

theorem fill (hi : i ∈ m.chain hash key) (hs : m.slot i = none) (hkey : key ∉ m.entries.map Prod.fst) :
    (m.fill i (key, value)).Ok hash := by
  have hlt := lt_of_chain h.pos hi
  have hperm := fill_perm (e := (key, value)) hlt hs
  have hlen : (m.fill i (key, value)).data.length = m.data.length := List.length_set
  refine ⟨hlen ▸ h.pos, ?_, fun j e hj => ?_, ?_⟩
  · rw [(hperm.map Prod.fst).nodup_iff]
    exact List.nodup_cons.mpr ⟨hkey, h.nodup⟩
  · rw [chain_congr hlen]
    rw [Hashmap.fill, slot_set _ _ hlt] at hj
    split_ifs at hj with hij
    · obtain rfl := Option.some.inj hj
      exact hij ▸ hi
    · exact h.home j e hj
  · rw [hperm.length_eq, List.length_cons, ← h.size]
    rfl

theorem clear {e : K × V} (hs : m.slot i = some e) : (m.clear i).Ok hash := by
  have hlt := lt_of_slot hs
  have hperm := clear_perm hs
  have hlen : (m.clear i).data.length = m.data.length := List.length_set
  refine ⟨hlen ▸ h.pos, ?_, fun j e hj => ?_, ?_⟩
  · have hnodup := (hperm.map Prod.fst).nodup_iff.mp h.nodup
    exact (List.nodup_cons.mp hnodup).2
  · rw [chain_congr hlen]
    rw [Hashmap.clear, slot_set _ _ hlt] at hj
    split_ifs at hj
    exact h.home j e hj
  · have hsize := h.size
    rw [hperm.length_eq, List.length_cons] at hsize
    show m.size - 1 = _
    omega

end Ok

theorem ok_empty {n : ℕ} (hn : 0 < n) : (empty n : Hashmap K V).Ok hash := by
  have hentries : (empty n : Hashmap K V).entries = [] := List.reduceOption_replicate_none
  refine ⟨by simpa [empty] using hn, by simp [hentries], fun i e he => ?_, by rw [hentries]; rfl⟩
  have := mem_entries.mpr ⟨i, he⟩
  rw [hentries] at this
  exact absurd this List.not_mem_nil

/-! ### Putting -/

/-- Putting is right for a table and an entry whose key is new to it: the entry is added, or there is no
memory, and some entries may be lost. -/
def PutSpec (hash : K → ℕ) (put : Hashmap K V → K → V → Option (Bool × Hashmap K V)) : Prop :=
  ∀ m key value ok m', m.Ok hash → key ∉ m.entries.map Prod.fst → put m key value = some (ok, m') →
    m'.Ok hash ∧ if ok then m'.entries.Perm ((key, value) :: m.entries)
      else m'.entries.Subperm ((key, value) :: m.entries)

theorem moveAll_spec {put : Hashmap K V → K → V → Option (Bool × Hashmap K V)} (hput : PutSpec hash put)
    (rest : List (Option (K × V))) {m m' : Hashmap K V} {ok : Bool} (h : m.Ok hash)
    (hnew : ((rest.reduceOption ++ m.entries).map Prod.fst).Nodup) (he : moveAll put rest m = some (ok, m')) :
    m'.Ok hash ∧ if ok then m'.entries.Perm (rest.reduceOption ++ m.entries)
      else m'.entries.Subperm (rest.reduceOption ++ m.entries) := by
  induction rest generalizing m with
  | nil =>
    obtain ⟨rfl, rfl⟩ := Prod.mk.inj (Option.some.inj he)
    exact ⟨h, List.Perm.refl _⟩
  | cons x rest ih =>
    cases x with
    | none =>
      rw [List.reduceOption_cons_of_none] at hnew ⊢
      exact ih h hnew he
    | some e =>
      rw [List.reduceOption_cons_of_some, List.cons_append] at hnew ⊢
      rw [List.map_cons, List.nodup_cons, List.map_append, List.mem_append, not_or] at hnew
      obtain ⟨⟨hrest, hkey⟩, hnodup⟩ := hnew
      rw [moveAll] at he
      split at he
      · rename_i m₁ hm₁
        obtain ⟨h₁, hperm⟩ := hput m e.1 e.2 true m₁ h hkey hm₁
        have hmid : (rest.reduceOption ++ m₁.entries).Perm (e :: (rest.reduceOption ++ m.entries)) :=
          (hperm.append_left _).trans List.perm_middle
        have hnew₁ : ((rest.reduceOption ++ m₁.entries).map Prod.fst).Nodup := by
          rw [(hmid.map Prod.fst).nodup_iff, List.map_cons, List.nodup_cons, List.map_append,
            List.mem_append, not_or]
          exact ⟨⟨hrest, hkey⟩, hnodup⟩
        obtain ⟨h', hres⟩ := ih h₁ hnew₁ he
        refine ⟨h', ?_⟩
        split_ifs at hres ⊢
        · exact hres.trans hmid
        · exact List.Subperm.trans hres hmid.subperm
      · rename_i hnot
        cases ok with
        | true => exact absurd he (hnot m')
        | false =>
          obtain ⟨h', hres⟩ := hput m e.1 e.2 false m' h hkey he
          exact ⟨h', List.Subperm.trans hres ((List.sublist_append_right _ _).cons_cons e).subperm⟩

/-- What `hashmap_rehash` makes of a table. -/
theorem Ok.rehash_spec {put : Hashmap K V → K → V → Option (Bool × Hashmap K V)} (h : m.Ok hash)
    (hput : PutSpec hash put) {m' : Hashmap K V} {b : Bool}
    (he : moveAll put m.data (empty (2 * m.data.length)) = some (b, m')) :
    m'.Ok hash ∧ if b then m'.entries.Perm m.entries else m'.entries.Subperm m.entries := by
  have hnil : (empty (2 * m.data.length) : Hashmap K V).entries = [] := List.reduceOption_replicate_none
  have hempty : (empty (2 * m.data.length) : Hashmap K V).Ok hash := by
    have := h.pos
    exact ok_empty (by omega)
  have hmove := moveAll_spec hput m.data hempty (by rw [hnil, List.append_nil]; exact h.nodup) he
  rwa [hnil, List.append_nil] at hmove

/-- Putting returns for a table of this size or a larger one, and does not make it smaller. -/
def Returns (n : ℕ) (put : Hashmap K V → K → V → Option (Bool × Hashmap K V)) : Prop :=
  ∀ m key value, n ≤ m.data.length → ∃ ok m', put m key value = some (ok, m') ∧ n ≤ m'.data.length

theorem moveAll_returns {n : ℕ} {put : Hashmap K V → K → V → Option (Bool × Hashmap K V)}
    (hput : Returns n put) (rest : List (Option (K × V))) {m : Hashmap K V} (hn : n ≤ m.data.length) :
    ∃ ok m', moveAll put rest m = some (ok, m') ∧ n ≤ m'.data.length := by
  induction rest generalizing m with
  | nil => exact ⟨true, m, rfl, hn⟩
  | cons x rest ih =>
    cases x with
    | none => exact ih hn
    | some e =>
      obtain ⟨ok, m₁, hm₁, hn₁⟩ := hput m e.1 e.2 hn
      rw [moveAll, hm₁]
      cases ok with
      | true => exact ih hn₁
      | false => exact ⟨false, m₁, rfl, hn₁⟩

/-! ### The iterator -/

theorem Ok.entries_nodup (h : m.Ok hash) : m.entries.Nodup := List.Nodup.of_map _ h.nodup

/-- The loop of `sweep` has filtered the slots that it has been to. -/
theorem Ok.sweep_loop (f : V → Bool) (l : List ℕ) (h : m.Ok hash) :
    (l.foldl (fun m i => if (m.slot i).any fun e => !f e.2 then m.clear i else m) m).Ok hash ∧
      ∀ j, (l.foldl (fun m i => if (m.slot i).any fun e => !f e.2 then m.clear i else m) m).slot j =
        if j ∈ l then (m.slot j).filter fun e => f e.2 else m.slot j := by
  induction l generalizing m with
  | nil => exact ⟨h, fun j => by simp⟩
  | cons i l ih =>
    obtain ⟨m₁, hm₁⟩ : ∃ m₁, m₁ = if (m.slot i).any fun e => !f e.2 then m.clear i else m := ⟨_, rfl⟩
    have hone : m₁.Ok hash ∧
        ∀ j, m₁.slot j = if j = i then (m.slot j).filter fun e => f e.2 else m.slot j := by
      cases hs : m.slot i with
      | none =>
        rw [hs, Option.any_none, if_neg Bool.false_ne_true] at hm₁
        refine ⟨hm₁ ▸ h, fun j => ?_⟩
        rw [hm₁]
        split_ifs with hj
        · rw [hj, hs, Option.filter_none]
        · rfl
      | some e =>
        rw [hs, Option.any_some] at hm₁
        by_cases hf : f e.2 = true
        · rw [hf, Bool.not_true, if_neg Bool.false_ne_true] at hm₁
          refine ⟨hm₁ ▸ h, fun j => ?_⟩
          rw [hm₁]
          split_ifs with hj
          · rw [hj, hs, Option.filter_some, if_pos hf]
          · rfl
        · rw [Bool.not_eq_true] at hf
          rw [hf, Bool.not_false, if_pos rfl] at hm₁
          refine ⟨hm₁ ▸ h.clear hs, fun j => ?_⟩
          rw [hm₁, Hashmap.clear, slot_set _ _ (lt_of_slot hs)]
          split_ifs with hi hj hj
          · rw [hj, hs, Option.filter_some, hf, if_neg Bool.false_ne_true]
          · exact absurd hi.symm hj
          · exact absurd hj.symm hi
          · rfl
    obtain ⟨hok, hslot⟩ := ih hone.1
    rw [List.foldl_cons, ← hm₁]
    refine ⟨hok, fun j => ?_⟩
    rw [hslot, hone.2]
    by_cases hj : j = i
    · rw [if_pos hj, if_pos (List.mem_cons.mpr (.inl hj))]
      split_ifs
      · rw [Option.filter_filter]
        simp
      · rfl
    · simp only [hj, if_false, List.mem_cons, false_or]

theorem Ok.sweep (h : m.Ok hash) (f : V → Bool) : (m.sweep f).Ok hash ∧
    (m.sweep f).entries.Perm (m.entries.filter fun e => f e.2) := by
  obtain ⟨hok, hslot⟩ := h.sweep_loop f (List.range m.data.length)
  refine ⟨hok, (List.perm_ext_iff_of_nodup hok.entries_nodup (h.entries_nodup.filter _)).mpr fun e => ?_⟩
  rw [mem_entries, List.mem_filter, mem_entries]
  constructor
  · rintro ⟨i, hi⟩
    rw [hslot] at hi
    split_ifs at hi with hmem
    · obtain ⟨hs, hf⟩ := Option.filter_eq_some_iff.mp hi
      exact ⟨⟨i, hs⟩, hf⟩
    · exact absurd (List.mem_range.mpr (lt_of_slot hi)) hmem
  · rintro ⟨⟨i, hs⟩, hf⟩
    refine ⟨i, ?_⟩
    rw [hslot, if_pos (List.mem_range.mpr (lt_of_slot hs)), hs, Option.filter_some, if_pos hf]

end Invariant

section Find

variable [DecidableEq K] {hash : K → ℕ} {m : Hashmap K V} {i : ℕ} {key : K} {value : V}

/-! ### What a key finds -/

theorem find_some (h : m.find hash key = some i) : i ∈ m.chain hash key ∧ ∃ v, m.slot i = some (key, v) := by
  have hi := List.find?_some h
  refine ⟨List.mem_of_find?_eq_some h, ?_⟩
  cases hs : m.slot i with
  | none => simp [hs] at hi
  | some e =>
    obtain rfl : e.1 = key := by simpa [hs] using hi
    exact ⟨e.2, rfl⟩

theorem place_some (h : m.place hash key = some i) : i ∈ m.chain hash key ∧
    ∀ e, m.slot i = some e → e.1 = key := by
  unfold place at h
  split_ifs at h
  refine ⟨List.mem_of_find?_eq_some h, fun e he => ?_⟩
  have hi := List.find?_some h
  simpa [he] using hi

theorem Ok.find_isSome (h : m.Ok hash) (hv : (key, value) ∈ m.entries) : (m.find hash key).isSome = true := by
  obtain ⟨i, hi⟩ := mem_entries.mp hv
  refine List.find?_isSome.mpr ⟨i, h.home i _ hi, ?_⟩
  simp [hi]

theorem Ok.get_eq_some (h : m.Ok hash) : m.get hash key = some value ↔ (key, value) ∈ m.entries := by
  constructor
  · intro hg
    obtain ⟨e, he, rfl⟩ := Option.map_eq_some_iff.mp hg
    obtain ⟨i, hi, hs⟩ := Option.bind_eq_some_iff.mp he
    obtain ⟨-, v, hv⟩ := find_some hi
    obtain rfl := Option.some.inj (hv.symm.trans hs)
    exact mem_entries.mpr ⟨i, hs⟩
  · intro hv
    obtain ⟨i, hi⟩ := Option.isSome_iff_exists.mp (h.find_isSome hv)
    obtain ⟨-, w, hw⟩ := find_some hi
    have hvw := h.value_unique hv (mem_entries.mpr ⟨i, hw⟩)
    rw [get, hi, Option.bind_some, hw, hvw]
    rfl

theorem Ok.get_eq_none (h : m.Ok hash) : m.get hash key = none ↔ key ∉ m.entries.map Prod.fst := by
  rw [← not_iff_not, ← ne_eq, Option.ne_none_iff_exists', not_not, List.mem_map]
  simp only [h.get_eq_some, Prod.exists, exists_and_right, exists_eq_right]

/-- The free slot that `hashmap_hash` finds for a new key. -/
theorem place_spec (h : m.Ok hash) (hkey : key ∉ m.entries.map Prod.fst) (hi : m.place hash key = some i) :
    (m.fill i (key, value)).Ok hash ∧ (m.fill i (key, value)).entries.Perm ((key, value) :: m.entries) := by
  obtain ⟨hchain, hsame⟩ := place_some hi
  have hfree : m.slot i = none := by
    cases hs : m.slot i with
    | none => rfl
    | some e => exact absurd (List.mem_map.mpr ⟨e, mem_entries.mpr ⟨i, hs⟩, hsame e hs⟩) hkey
  exact ⟨h.fill hchain hfree hkey, fill_perm (lt_of_chain h.pos hchain) hfree⟩

theorem put_spec (calloc : ℕ → Bool) (fuel : ℕ) : PutSpec hash (put (V := V) hash calloc fuel) := by
  induction fuel using Nat.strong_induction_on with
  | _ fuel ih =>
    intro m key value ok m' h hkey he
    rw [put.eq_def] at he
    cases hi : m.place hash key with
    | some i =>
      rw [hi] at he
      obtain ⟨rfl, rfl⟩ := Prod.mk.inj (Option.some.inj he)
      exact place_spec h hkey hi
    | none =>
      rw [hi] at he
      dsimp only at he
      split_ifs at he with hcalloc
      · cases fuel with
        | zero => exact absurd he (by simp)
        | succ fuel =>
          have hput := ih fuel (Nat.lt_succ_self fuel)
          dsimp only at he
          split at he
          · rename_i m₁ hm₁
            obtain ⟨h₁, hperm⟩ := h.rehash_spec hput hm₁
            have hkey₁ : key ∉ m₁.entries.map Prod.fst := by
              rwa [(hperm.map Prod.fst).mem_iff]
            obtain ⟨h', hres⟩ := hput m₁ key value ok m' h₁ hkey₁ he
            refine ⟨h', ?_⟩
            split_ifs at hres ⊢
            · exact hres.trans (hperm.cons _)
            · exact List.Subperm.trans hres (hperm.cons _).subperm
          · rename_i hnot
            cases ok with
            | true => exact absurd he (hnot m')
            | false =>
              obtain ⟨h', hres⟩ := h.rehash_spec hput he
              exact ⟨h', List.Subperm.trans hres (List.sublist_cons_self _ _).subperm⟩
      · obtain ⟨rfl, rfl⟩ := Prod.mk.inj (Option.some.inj he)
        exact ⟨h, (List.sublist_cons_self _ _).subperm⟩

/-- Where there is no memory for a table of more than `limit` slots, fuel for the doublings up to it is
enough. -/
theorem put_returns {calloc : ℕ → Bool} {limit : ℕ} (hcalloc : ∀ n, limit < n → calloc n = false) {fuel n : ℕ}
    (hn : 0 < n) (hfuel : limit < n * 2 ^ fuel) : Returns n (put (V := V) hash calloc fuel) := by
  induction fuel generalizing n with
  | zero =>
    intro m key value hm
    rw [put]
    cases m.place hash key with
    | some i => exact ⟨true, _, rfl, hm.trans_eq List.length_set.symm⟩
    | none =>
      have hno : calloc (2 * m.data.length) = false := hcalloc _ (by omega)
      exact ⟨false, m, by simp [hno], hm⟩
  | succ fuel ih =>
    intro m key value hm
    rw [put]
    cases m.place hash key with
    | some i => exact ⟨true, _, rfl, hm.trans_eq List.length_set.symm⟩
    | none =>
      dsimp only
      split_ifs
      · have hpow : limit < 2 * m.data.length * 2 ^ fuel := by
          have hle : n * 2 ^ (fuel + 1) ≤ m.data.length * 2 ^ (fuel + 1) := Nat.mul_le_mul_right _ hm
          have he : m.data.length * 2 ^ (fuel + 1) = 2 * m.data.length * 2 ^ fuel := by
            rw [Nat.pow_succ', ← Nat.mul_assoc, Nat.mul_comm m.data.length]
          omega
        have hput : Returns (2 * m.data.length) (put (V := V) hash calloc fuel) := ih (by omega) hpow
        have hlen : 2 * m.data.length ≤ (empty (2 * m.data.length) : Hashmap K V).data.length := by
          simp [empty]
        obtain ⟨ok, m₁, hm₁, hn₁⟩ := moveAll_returns hput m.data hlen
        rw [hm₁]
        cases ok with
        | true =>
          obtain ⟨ok, m', hm', hn'⟩ := hput m₁ key value hn₁
          exact ⟨ok, m', hm', by omega⟩
        | false => exact ⟨false, m₁, rfl, by omega⟩
      · exact ⟨false, m, rfl, hm⟩

/-! ### Removing, and writing through a pointer -/

theorem find_none (h : m.Ok hash) (hf : m.find hash key = none) : key ∉ m.entries.map Prod.fst := by
  rintro hkey
  obtain ⟨⟨key, v⟩, he, rfl⟩ := List.mem_map.mp hkey
  have := h.find_isSome he
  rw [hf] at this
  exact absurd this Bool.false_ne_true

theorem Ok.remove (h : m.Ok hash) (key : K) : (m.remove hash key).1 = m.get hash key ∧
    (m.remove hash key).2.Ok hash ∧
      (m.remove hash key).2.entries.Perm (m.entries.filter fun e => e.1 ≠ key) := by
  have hkeep : ∀ es : List (K × V), key ∉ es.map Prod.fst → es.filter (fun e => e.1 ≠ key) = es := by
    intro es hes
    refine List.filter_eq_self.mpr fun e he => decide_eq_true ?_
    rintro rfl
    exact hes (List.mem_map_of_mem he)
  unfold Hashmap.remove get
  cases hf : m.find hash key with
  | none =>
    rw [hkeep _ (find_none h hf)]
    exact ⟨rfl, h, List.Perm.refl _⟩
  | some i =>
    obtain ⟨-, v, hs⟩ := find_some hf
    have hperm := clear_perm hs
    have hnew := List.nodup_cons.mp ((hperm.map Prod.fst).nodup_iff.mp h.nodup)
    refine ⟨rfl, h.clear hs, ?_⟩
    have hfilter := hperm.filter fun e => e.1 ≠ key
    rw [List.filter_cons_of_neg (by simp), hkeep _ hnew.1] at hfilter
    exact hfilter.symm

theorem Ok.update (h : m.Ok hash) (key : K) (f : V → V) : (m.update hash key f).Ok hash ∧
    (m.update hash key f).entries = m.entries.map fun e => if e.1 = key then (e.1, f e.2) else e := by
  have hkeep : ∀ es : List (K × V), key ∉ es.map Prod.fst →
      es.map (fun e => if e.1 = key then (e.1, f e.2) else e) = es := by
    intro es hes
    refine (List.map_congr_left fun e he => ?_).trans (List.map_id es)
    rw [if_neg, id]
    rintro rfl
    exact hes (List.mem_map_of_mem he)
  unfold Hashmap.update
  cases hf : m.find hash key with
  | none => exact ⟨h, (hkeep _ (find_none h hf)).symm⟩
  | some i =>
    obtain ⟨hchain, v, hs⟩ := find_some hf
    have hlt := lt_of_slot hs
    obtain ⟨as, bs, hm, hset⟩ := entries_around hlt
    rw [hs] at hm
    have hnodup := h.nodup
    rw [hm, List.map_append, List.map_append, List.nodup_append, Option.toList_some] at hnodup
    have has : key ∉ as.map Prod.fst := fun ha =>
      hnodup.2.2 key ha key (List.mem_cons_self ..) rfl
    have hbs : key ∉ bs.map Prod.fst := (List.nodup_cons.mp hnodup.2.1).1
    have hentries : entries ⟨m.data.set i (some (key, f v)), m.size⟩ =
        m.entries.map fun e => if e.1 = key then (e.1, f e.2) else e := by
      rw [hset, hm, List.map_append, List.map_append, hkeep as has, hkeep bs hbs]
      simp
    dsimp only
    rw [hs, Option.map_some]
    refine ⟨⟨?_, ?_, fun j e hj => ?_, ?_⟩, hentries⟩
    · rw [List.length_set]
      exact h.pos
    · have hfst : ∀ e : K × V, (if e.1 = key then (e.1, f e.2) else e).1 = e.1 := fun e => by split_ifs <;> rfl
      rw [hentries, List.map_map]
      simpa only [Function.comp_def, hfst] using h.nodup
    · rw [slot_set _ _ hlt] at hj
      rw [chain_congr List.length_set]
      split_ifs at hj with hij
      · obtain rfl := Option.some.inj hj
        exact hij ▸ hchain
      · exact h.home j e hj
    · rw [hentries, List.length_map]
      exact h.size

end Find

end Hashmap

end AquaTransport.Awdl
