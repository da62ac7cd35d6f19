import AquaTransport.Engine.SessionCache
import AquaTransport.Lib.Lru
import AquaTransport.Lib.Run

/-!
# AquaTransport.Engine.SessionLru — the session cache over its whole life

Over every sequence of calls the table of `AquaTransport.Engine.SessionCache` is a cache of the 32 keys
used last (`AquaTransport.Lib.Lru`), and OpenSSL's count of a session is the references that its holders
have and those of the slots it is in.  A session is freed where its count comes to zero.
-/

namespace AquaTransport

open SlotTable

/-! ### The table as a cache of stamped slots -/

def SessTable.age (t : SessTable) (i : Fin MAXSESS) : ℕ := (t.gSess i).lastUse.toNat

/-- What the uses so far make of the table, while the clock has not gone round. -/
structure SessTable.Ticked (t : SessTable) (uses : List (Lru.Use Bytes SessId)) : Prop where
  clock : t.gSessClock.toNat = uses.length
  lens : ∀ i, (t.gSess i).keyLen ≤ 256
  holds : Lru.Holds t.look t.age uses

section Slots

variable {t : SessTable} {key : Buf256} {keyLen : ℕ} {sess : SessId} {i : Fin MAXSESS}
  {uses : List (Lru.Use Bytes SessId)}

theorem SessTable.look_isNone : (t.look i).isNone = (t.gSess i).sess.isNone := by
  unfold SessTable.look
  exact Option.isNone_map

/-- The two lengths and the two texts agree exactly when the bytes do. -/
theorem keyEq_iff {e : SessEnt} (he : e.keyLen ≤ 256) (hk : keyLen ≤ 256) :
    keyEq e key keyLen = true ↔ e.key.bytes e.keyLen = key.bytes keyLen := by
  refine ⟨keyEq_bytes, fun h => ?_⟩
  have hlen : e.keyLen = keyLen := by
    have := congrArg List.length h
    rwa [Buf256.bytes_length he, Buf256.bytes_length hk] at this
  unfold keyEq
  rw [Bool.and_eq_true, beq_iff_eq, Buf256.memeq_iff]
  exact ⟨hlen, hlen ▸ h⟩

theorem SessTable.hit_eq (hl : ∀ i, (t.gSess i).keyLen ≤ 256) (hk : keyLen ≤ 256) :
    t.hit key keyLen i = decide ((t.look i).map Prod.fst = some (key.bytes keyLen)) := by
  rw [Bool.eq_iff_iff, decide_eq_true_iff]
  unfold SessTable.hit SessTable.look
  rw [Bool.and_eq_true, keyEq_iff (hl i) hk]
  cases (t.gSess i).sess <;> simp

theorem sessSlot_eq (hl : ∀ i, (t.gSess i).keyLen ≤ 256) (hk : keyLen ≤ 256) :
    sessSlot t key keyLen = putSlot (fun i => (t.look i).map Prod.fst) t.age (key.bytes keyLen) := by
  unfold sessSlot putSlot
  rw [show t.hit key keyLen = _ from funext fun i => t.hit_eq hl hk]
  have hfree : (fun i => (t.gSess i).sess.isNone) = fun i => ((t.look i).map Prod.fst).isNone := by
    funext i
    rw [Option.isNone_map, t.look_isNone]
  rw [hfree]
  rfl

/-- A lookup reads the slot with its key. -/
theorem sessGet_snd (hl : ∀ i, (t.gSess i).keyLen ≤ 256) (h0 : keyLen ≠ 0) (hk : keyLen ≤ 256) :
    (sessGet t key keyLen).2 =
      ((slotOf (fun i => (t.look i).map Prod.fst) (key.bytes keyLen)).bind t.look).map Prod.snd := by
  unfold sessGet slotOf
  rw [if_neg h0, show t.hit key keyLen = _ from funext fun i => t.hit_eq hl hk]
  cases hf : Fin.find? fun i => decide ((t.look i).map Prod.fst = some (key.bytes keyLen)) with
  | none => rfl
  | some i =>
    show (t.gSess i).sess = _
    rw [Option.bind_some]
    unfold SessTable.look
    cases (t.gSess i).sess <;> rfl

/-- A lookup stamps the slot with its key, or leaves the table as it was. -/
theorem sessGet_cases (t : SessTable) (key : Buf256) (keyLen : ℕ) :
    sessGet t key keyLen = (t, none) ∨ ∃ i s, t.look i = some (key.bytes keyLen, s) ∧
      sessGet t key keyLen =
        ({ gSess := Function.update t.gSess i { t.gSess i with lastUse := t.gSessClock + 1 }
           gSessClock := t.gSessClock + 1 }, some s) := by
  unfold sessGet
  by_cases h0 : keyLen = 0
  · rw [if_pos h0]
    exact Or.inl rfl
  rw [if_neg h0]
  cases hf : Fin.find? (t.hit key keyLen) with
  | none => exact Or.inl rfl
  | some i =>
    have hhit : t.hit key keyLen i = true := Fin.eq_true_of_find?_eq_some hf
    unfold SessTable.hit at hhit
    rw [Bool.and_eq_true] at hhit
    obtain ⟨s, hs⟩ := Option.isSome_iff_exists.mp hhit.1
    refine Or.inr ⟨i, s, ?_, ?_⟩
    · unfold SessTable.look
      rw [hs, Option.map_some, keyEq_bytes hhit.2]
    · show (_, (t.gSess i).sess) = _
      rw [hs]

namespace SessTable.Ticked

theorem init : ({} : SessTable).Ticked [] where
  clock := rfl
  lens := fun _ => Nat.zero_le _
  holds := Lru.Holds.init

theorem clock_succ (h : t.Ticked uses) (hlt : uses.length + 1 < 2 ^ 32) :
    (t.gSessClock + 1).toNat = uses.length + 1 := by
  rw [UInt32.toNat_add, h.clock]
  exact Nat.mod_eq_of_lt hlt

/-- A hit is a use of its key. -/
theorem get (h : t.Ticked uses) (hlt : uses.length + 1 < 2 ^ 32) {s : SessId}
    (hi : t.look i = some (key.bytes keyLen, s)) {t' : SessTable} (hlook : t'.look = t.look)
    (ht : t' =
      { gSess := Function.update t.gSess i { t.gSess i with lastUse := t.gSessClock + 1 }
        gSessClock := t.gSessClock + 1 }) : t'.Ticked (.hit (key.bytes keyLen) :: uses) := by
  subst ht
  refine ⟨h.clock_succ hlt, fun j => ?_, ?_⟩
  · by_cases hj : j = i
    · subst hj
      simp only [Function.update_self]
      exact h.lens j
    · simp only [Function.update_of_ne hj]
      exact h.lens j
  · have hhold := h.holds.hit hi
    rw [hlook]
    convert hhold using 1
    funext j
    unfold SessTable.age
    by_cases hj : j = i
    · subst hj
      simp only [Function.update_self]
      exact h.clock_succ hlt
    · simp only [Function.update_of_ne hj]

/-- A store of a key that fits is a use of it. -/
theorem put (h : t.Ticked uses) (hlt : uses.length + 1 < 2 ^ 32) (h0 : keyLen ≠ 0)
    (hk : keyLen ≤ 256) (sess : SessId) :
    (sessPut t key keyLen sess).Ticked (.put (key.bytes keyLen) sess :: uses) := by
  have hput := h.holds.put (key.bytes keyLen) sess
  rw [← sessSlot_eq h.lens hk] at hput
  unfold sessPut
  rw [if_neg (by omega)]
  refine ⟨h.clock_succ hlt, fun j => ?_, ?_⟩
  · by_cases hj : j = sessSlot t key keyLen
    · simp only [hj, Function.update_self]
      exact hk
    · simp only [Function.update_of_ne hj]
      exact h.lens j
  · convert hput using 1
    · funext j
      unfold SessTable.look
      by_cases hj : j = sessSlot t key keyLen
      · simp only [hj, Function.update_self, Option.map_some, Buf256.bytes_memcpy]
      · simp only [Function.update_of_ne hj]
    · funext j
      unfold SessTable.age
      by_cases hj : j = sessSlot t key keyLen
      · simp only [hj, Function.update_self]
        exact h.clock_succ hlt
      · simp only [Function.update_of_ne hj]

end SessTable.Ticked

end Slots

/-! ### References -/

/-- The sessions that OpenSSL has: its count of each, and how many of the references are with holders
outside the table.  A session of count 0 is free memory. -/
structure SessRefs where
  table : SessTable := {}
  count : SessId → ℤ := fun _ => 0
  held : SessId → ℕ := fun _ => 0
  uses : List (Lru.Use Bytes SessId) := []

inductive SessCall
  /-- `sess_put`, with a reference of the caller's. -/
  | put (key : Buf256) (keyLen : ℕ) (sess : SessId)
  | get (key : Buf256) (keyLen : ℕ)
  /-- OpenSSL makes a session. -/
  | make (sess : SessId)
  /-- `SSL_SESSION_up_ref` by a holder. -/
  | upRef (sess : SessId)
  /-- `SSL_SESSION_free` by a holder. -/
  | free (sess : SessId)

/-- The slots that a session is in. -/
def SessTable.stored (t : SessTable) (sess : SessId) : ℕ :=
  (Finset.univ.filter fun i => (t.gSess i).sess = some sess).card

/-- What `sess_put` frees: the session of a key that is refused, or the one whose slot it takes. -/
def sessPutFrees (t : SessTable) (key : Buf256) (keyLen : ℕ) (sess : SessId) : Option SessId :=
  if keyLen = 0 ∨ 256 < keyLen then some sess else (t.gSess (sessSlot t key keyLen)).sess

namespace SessRefs

/-- One reference fewer. -/
def drop (count : SessId → ℤ) : Option SessId → SessId → ℤ
  | none => count
  | some sess => Function.update count sess (count sess - 1)

def step (st : SessRefs) : SessCall → Option SessRefs
  | .put key keyLen sess =>
    if 0 < st.held sess then
      some { st with
        table := sessPut st.table key keyLen sess
        count := drop st.count (sessPutFrees st.table key keyLen sess)
        held := Function.update st.held sess (st.held sess - 1)
        uses := if keyLen = 0 ∨ 256 < keyLen then st.uses
          else .put (key.bytes keyLen) sess :: st.uses }
    else none
  | .get key keyLen =>
    match sessGet st.table key keyLen with
    | (table, none) => some { st with table := table }
    | (table, some sess) =>
      some
        { table := table
          count := Function.update st.count sess (st.count sess + 1)
          held := Function.update st.held sess (st.held sess + 1)
          uses := .hit (key.bytes keyLen) :: st.uses }
  | .make sess =>
    if st.count sess = 0 then
      some { st with
        count := Function.update st.count sess 1
        held := Function.update st.held sess 1 }
    else none
  | .upRef sess =>
    if 0 < st.held sess then
      some { st with
        count := Function.update st.count sess (st.count sess + 1)
        held := Function.update st.held sess (st.held sess + 1) }
    else none
  | .free sess =>
    if 0 < st.held sess then
      some { st with
        count := drop st.count (some sess)
        held := Function.update st.held sess (st.held sess - 1) }
    else none

/-- No reference is lost and none is given up twice. -/
def Balanced (st : SessRefs) : Prop :=
  ∀ s, st.count s = st.held s + st.table.stored s

variable {st st' : SessRefs} {key : Buf256} {keyLen : ℕ} {sess : SessId}

/-- A slot that changes its session takes one reference and gives one up. -/
theorem stored_update (t t' : SessTable) {i : Fin MAXSESS} {e : SessEnt}
    (ht : t'.gSess = Function.update t.gSess i e) (s : SessId) :
    t'.stored s + (if (t.gSess i).sess = some s then 1 else 0) =
      t.stored s + if e.sess = some s then 1 else 0 := by
  have hsplit : ∀ u : SessTable, u.stored s = (if (u.gSess i).sess = some s then 1 else 0) +
      ((Finset.univ.erase i).filter fun j => (u.gSess j).sess = some s).card := by
    intro u
    unfold SessTable.stored
    rw [← Finset.insert_erase (Finset.mem_univ i), Finset.filter_insert]
    split_ifs with hi
    · rw [Finset.card_insert_of_notMem (by simp), Finset.erase_insert (by simp), add_comm]
    · rw [zero_add, Finset.erase_insert (by simp)]
  have hrest : ((Finset.univ.erase i).filter fun j => (t'.gSess j).sess = some s) =
      (Finset.univ.erase i).filter fun j => (t.gSess j).sess = some s := by
    refine Finset.filter_congr fun j hj => ?_
    rw [ht, Function.update_of_ne (Finset.ne_of_mem_erase hj)]
  rw [hsplit t', hsplit t, hrest, ht, Function.update_self]
  omega

theorem stored_congr {t t' : SessTable} (h : t'.look = t.look) (s : SessId) :
    t'.stored s = t.stored s := by
  have hsess : ∀ u : SessTable, ∀ i, (u.gSess i).sess = (u.look i).map Prod.snd := by
    intro u i
    unfold SessTable.look
    cases (u.gSess i).sess <;> rfl
  unfold SessTable.stored
  simp only [hsess, h]

theorem drop_apply {count : SessId → ℤ} {o : Option SessId} {s : SessId} :
    drop count o s + (if o = some s then 1 else 0) = count s := by
  cases o with
  | none => simp [drop]
  | some s' =>
    unfold drop
    by_cases hs : s = s'
    · subst hs
      simp
    · simp [hs, Ne.symm hs]

/-- A holder's reference more, or less. -/
theorem update_apply {β : Type} [DecidableEq β] {f : SessId → β} {s : SessId} {v : β} :
    Function.update f sess v s = if sess = s then v else f s := by
  by_cases hs : s = sess
  · rw [hs, Function.update_self, if_pos rfl]
  · rw [Function.update_of_ne hs, if_neg (Ne.symm hs)]

/-- A store takes a reference of its caller's. -/
theorem put_step (hs : st.step (.put key keyLen sess) = some st') :
    0 < st.held sess ∧ st' = { st with
      table := sessPut st.table key keyLen sess
      count := drop st.count (sessPutFrees st.table key keyLen sess)
      held := Function.update st.held sess (st.held sess - 1)
      uses := if keyLen = 0 ∨ 256 < keyLen then st.uses
        else .put (key.bytes keyLen) sess :: st.uses } := by
  by_cases hheld : 0 < st.held sess
  · refine ⟨hheld, ?_⟩
    simp only [SessRefs.step, if_pos hheld] at hs
    exact (Option.some.inj hs).symm
  · simp only [SessRefs.step, if_neg hheld, reduceCtorEq] at hs

/-- The slots take what `sess_put` does not free. -/
theorem stored_put (t : SessTable) (s : SessId) :
    (sessPut t key keyLen sess).stored s + (if sessPutFrees t key keyLen sess = some s then 1 else 0) =
      t.stored s + if sess = s then 1 else 0 := by
  unfold sessPutFrees sessPut
  by_cases hbad : keyLen = 0 ∨ 256 < keyLen
  · simp only [if_pos hbad, Option.some.injEq]
  · simp only [if_neg hbad]
    have hslot := stored_update t
      { gSess := Function.update t.gSess (sessSlot t key keyLen)
          { key := (t.gSess (sessSlot t key keyLen)).key.memcpy key keyLen
            keyLen := keyLen
            sess := some sess
            lastUse := t.gSessClock + 1 }
        gSessClock := t.gSessClock + 1 } (i := sessSlot t key keyLen) rfl s
    simpa only [Option.some.injEq] using hslot

theorem Balanced.step (h : st.Balanced) {call : SessCall} (hs : st.step call = some st') :
    st'.Balanced := by
  intro s
  have hb := h s
  cases call with
  | put key keyLen sess =>
    obtain ⟨hheld, rfl⟩ := put_step hs
    have hdrop := @drop_apply st.count (sessPutFrees st.table key keyLen sess) s
    have hput := @stored_put key keyLen sess st.table s
    dsimp only
    rw [update_apply]
    split_ifs at * with h1 h2 <;> subst_vars <;> omega
  | get key keyLen =>
    have hlook := sessGet_look st.table key keyLen
    simp only [SessRefs.step] at hs
    split at hs
    next table he =>
      obtain rfl := Option.some.inj hs
      rw [he] at hlook
      dsimp only
      rw [stored_congr hlook s]
      exact hb
    next table sess he =>
      obtain rfl := Option.some.inj hs
      rw [he] at hlook
      dsimp only
      rw [stored_congr hlook s, update_apply, update_apply]
      split_ifs with h1
      · subst h1
        push_cast
        omega
      · exact hb
  | make sess =>
    simp only [SessRefs.step] at hs
    split_ifs at hs with h0
    obtain rfl := Option.some.inj hs
    dsimp only
    rw [update_apply, update_apply]
    split_ifs with h1
    · subst h1
      omega
    · exact hb
  | upRef sess =>
    simp only [SessRefs.step] at hs
    split_ifs at hs with hheld
    obtain rfl := Option.some.inj hs
    dsimp only
    rw [update_apply, update_apply]
    split_ifs with h1
    · subst h1
      push_cast
      omega
    · exact hb
  | free sess =>
    simp only [SessRefs.step] at hs
    split_ifs at hs with hheld
    obtain rfl := Option.some.inj hs
    have hdrop := @drop_apply st.count (some sess) s
    dsimp only
    rw [update_apply]
    simp only [Option.some.injEq] at hdrop
    split_ifs at * with h1
    · subst h1
      omega
    · omega

/-- The uses so far stay in the history. -/
theorem uses_le {call : SessCall} (hs : st.step call = some st') :
    st.uses.length ≤ st'.uses.length := by
  cases call with
  | put key keyLen sess =>
    obtain ⟨-, rfl⟩ := put_step hs
    dsimp only
    split_ifs
    · exact le_rfl
    · exact Nat.le_succ _
  | get key keyLen =>
    simp only [SessRefs.step] at hs
    split at hs <;> obtain rfl := Option.some.inj hs <;> simp
  | make sess | upRef sess | free sess =>
    simp only [SessRefs.step] at hs
    split_ifs at hs
    obtain rfl := Option.some.inj hs
    exact le_rfl

theorem ticked_step (h : st.table.Ticked st.uses) {call : SessCall} (hs : st.step call = some st')
    (hlt : st'.uses.length < 2 ^ 32) : st'.table.Ticked st'.uses := by
  cases call with
  | put key keyLen sess =>
    obtain ⟨-, rfl⟩ := put_step hs
    dsimp only at hlt ⊢
    split_ifs at hlt ⊢ with hbad
    · unfold sessPut
      rwa [if_pos hbad]
    · rw [not_or, not_lt] at hbad
      exact h.put hlt hbad.1 hbad.2 sess
  | get key keyLen =>
    have hlook := sessGet_look st.table key keyLen
    rcases sessGet_cases st.table key keyLen with he | ⟨i, s, hi, he⟩
    · simp only [SessRefs.step, he] at hs
      obtain rfl := Option.some.inj hs
      exact h
    · simp only [SessRefs.step, he] at hs
      obtain rfl := Option.some.inj hs
      rw [he] at hlook
      exact h.get hlt hi hlook rfl
  | make sess | upRef sess | free sess =>
    simp only [SessRefs.step] at hs
    split_ifs at hs
    obtain rfl := Option.some.inj hs
    exact h

end SessRefs

/-- **The session cache.**  In every run of fewer than 2^32 uses of the table, by any holders: a lookup
of a key of 1 to 256 bytes answers with the session stored last under exactly these bytes, as long as
fewer than 32 other keys have been stored or hit since the key was, and with none otherwise; no key is in
two slots; OpenSSL's count of a session is the references of its holders and those of its slots; and so
no session is freed while it is stored or held. -/
theorem session_cache_lru {calls : List SessCall} {st : SessRefs}
    (h : Path (fun s e t => SessRefs.step s e = some t) {} calls st)
    (hticks : st.uses.length < 2 ^ 32) :
    (∀ key keyLen, 0 < keyLen → keyLen ≤ 256 → (sessGet st.table key keyLen).2 =
      Lru.lookup 32 st.uses (key.bytes keyLen)) ∧
    (∀ i j k s s', st.table.look i = some (k, s) → st.table.look j = some (k, s') → i = j) ∧
    (∀ s, st.count s = st.held s + st.table.stored s) ∧
    ∀ s, 0 < st.held s ∨ 0 < st.table.stored s → 0 < st.count s := by
  have hinv : (st.uses.length < 2 ^ 32 → st.table.Ticked st.uses) ∧ st.Balanced := by
    refine h.invariant (I := fun st => (st.uses.length < 2 ^ 32 → st.table.Ticked st.uses) ∧
      st.Balanced) ?_ ⟨fun _ => SessTable.Ticked.init, fun s => ?_⟩
    · rintro st call st' ⟨ht, hb⟩ hs
      refine ⟨fun hlt => ?_, hb.step hs⟩
      exact SessRefs.ticked_step (ht ((SessRefs.uses_le hs).trans_lt hlt)) hs hlt
    · simp [SessTable.stored]
  obtain ⟨ht, hb⟩ := hinv
  have htick := ht hticks
  refine ⟨fun key keyLen h0 hk => ?_, fun i j k s s' hi hj => htick.holds.slot_inj hi hj, hb,
    fun s hs => ?_⟩
  · rw [sessGet_snd htick.lens h0.ne' hk]
    exact htick.holds.lookup _
  · have := hb s
    omega

/-- Thirty-two keys, each a prefix of the next one, a hit of the first one and a thirty-third key. -/
def crowdedRun : List SessCall :=
  ((List.range 32).flatMap fun i => [.make i, .put (fun _ => 0) (i + 1) i]) ++
    [.get (fun _ => 0) 1, .make 32, .put (fun _ => 0) 33 32, .free 0]

def crowdedUses : List (Lru.Use Bytes SessId) :=
  [.put (List.replicate 33 0) 32, .hit [0]] ++
    ((List.range 32).map fun i => .put (List.replicate (i + 1) 0) i).reverse

theorem exec_crowdedRun : (exec SessRefs.step {} crowdedRun).map (fun st =>
    (st.uses, st.held 1 + st.table.stored 1)) = some (crowdedUses, 0) := by
  decide +kernel

/-- The second key has gone, and its session is free; the first one is still found. -/
theorem session_cache_lru_crowdedRun :
    ∃ st, Path (fun s e t => SessRefs.step s e = some t) {} crowdedRun st ∧
      (sessGet st.table (fun _ => 0) 2).2 = none ∧ (sessGet st.table (fun _ => 0) 1).2 = some 0 ∧
      st.count 1 = 0 := by
  obtain ⟨st, hst, hrun⟩ := Option.map_eq_some_iff.mp exec_crowdedRun
  obtain ⟨huses, hone⟩ := Prod.mk.inj hrun
  have hcache := session_cache_lru (exec_path hst) (by rw [huses]; decide)
  have hgone := hcache.1 (fun _ => 0) 2 (by decide) (by decide)
  have hkept := hcache.1 (fun _ => 0) 1 (by decide) (by decide)
  rw [huses] at hgone hkept
  refine ⟨st, exec_path hst, hgone.trans ?_, hkept.trans ?_, (hcache.2.2.1 1).trans (mod_cast hone)⟩
  · decide +kernel
  · decide +kernel

end AquaTransport
