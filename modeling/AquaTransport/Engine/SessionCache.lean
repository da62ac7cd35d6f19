import AquaTransport.Engine.Shadow
import AquaTransport.Lib.SlotTable
import Mathlib.Tactic.SplitIfs

/-!
# AquaTransport.Engine.SessionCache — `sess_get` and `sess_put`

An entry's key is a buffer and a length; the bytes past the length are left from an earlier, longer
key.  `look` is what an entry says: the bytes of its key and its session.
-/

namespace AquaTransport

open SlotTable

def MAXSESS : ℕ := 32

instance : NeZero MAXSESS := ⟨by decide⟩

structure SessEnt where
  key : Buf256 := fun _ => 0
  keyLen : ℕ := 0
  sess : Option SessId := none
  lastUse : UInt32 := 0

structure SessTable where
  gSess : Fin MAXSESS → SessEnt := fun _ => {}
  gSessClock : UInt32 := 0

def keyEq (e : SessEnt) (key : Buf256) (keyLen : ℕ) : Bool :=
  e.keyLen == keyLen && e.key.memeq key keyLen

/-- An occupied entry with the key. -/
def SessTable.hit (t : SessTable) (key : Buf256) (keyLen : ℕ) (i : Fin MAXSESS) : Bool :=
  (t.gSess i).sess.isSome && keyEq (t.gSess i) key keyLen

def sessGet (t : SessTable) (key : Buf256) (keyLen : ℕ) : SessTable × Option SessId :=
  if keyLen = 0 then (t, none)
  else
    match Fin.find? (t.hit key keyLen) with
    | none => (t, none)
    | some i =>
      ({ gSess := Function.update t.gSess i { t.gSess i with lastUse := t.gSessClock + 1 }
         gSessClock := t.gSessClock + 1 }, (t.gSess i).sess)

/-- The slot that `sess_put` fills. -/
def sessSlot (t : SessTable) (key : Buf256) (keyLen : ℕ) : Fin MAXSESS :=
  (scan (t.hit key keyLen) (fun i => (t.gSess i).sess.isNone) (List.finRange MAXSESS) none).getD
    (oldest fun i => (t.gSess i).lastUse.toNat)

def sessPut (t : SessTable) (key : Buf256) (keyLen : ℕ) (sess : SessId) : SessTable :=
  if keyLen = 0 ∨ 256 < keyLen then t
  else
    { gSess := Function.update t.gSess (sessSlot t key keyLen)
        { key := (t.gSess (sessSlot t key keyLen)).key.memcpy key keyLen
          keyLen := keyLen
          sess := some sess
          lastUse := t.gSessClock + 1 }
      gSessClock := t.gSessClock + 1 }

/-- The key's bytes and the session of an occupied entry. -/
def SessTable.look (t : SessTable) (i : Fin MAXSESS) : Option (Bytes × SessId) :=
  (t.gSess i).sess.map fun sess => ((t.gSess i).key.bytes (t.gSess i).keyLen, sess)

theorem keyEq_bytes {e : SessEnt} {key : Buf256} {keyLen : ℕ} (h : keyEq e key keyLen = true) :
    e.key.bytes e.keyLen = key.bytes keyLen := by
  unfold keyEq at h
  rw [Bool.and_eq_true, beq_iff_eq] at h
  rw [h.1]
  exact Buf256.memeq_iff.mp h.2

/-- A lookup changes no entry's key or session. -/
theorem sessGet_look (t : SessTable) (key : Buf256) (keyLen : ℕ) :
    (sessGet t key keyLen).1.look = t.look := by
  unfold sessGet
  split_ifs
  · rfl
  · split
    next => rfl
    next i _ =>
      funext j
      unfold SessTable.look
      by_cases hj : j = i
      · subst hj; simp
      · simp [hj]

/-- A session that is found was stored under these bytes, neither more nor fewer. -/
theorem sessGet_some {t : SessTable} {key : Buf256} {keyLen : ℕ} {sess : SessId}
    (h : (sessGet t key keyLen).2 = some sess) :
    keyLen ≠ 0 ∧ ∃ i, t.look i = some (key.bytes keyLen, sess) := by
  unfold sessGet at h
  split_ifs at h with h0
  refine ⟨h0, ?_⟩
  split at h
  next => simp at h
  next i hi =>
    have hhit : t.hit key keyLen i = true := Fin.eq_true_of_find?_eq_some hi
    unfold SessTable.hit at hhit
    rw [Bool.and_eq_true] at hhit
    refine ⟨i, ?_⟩
    unfold SessTable.look
    dsimp only at h
    rw [h, Option.map_some, keyEq_bytes hhit.2]

/-- A store fills one slot with the key's bytes, whatever its buffer held. -/
theorem sessPut_look (t : SessTable) (key : Buf256) (keyLen : ℕ) (sess : SessId) :
    (sessPut t key keyLen sess).look = t.look ∨ ∃ i, (sessPut t key keyLen sess).look =
      Function.update t.look i (some (key.bytes keyLen, sess)) := by
  unfold sessPut
  split_ifs
  · exact Or.inl rfl
  · refine Or.inr ⟨sessSlot t key keyLen, ?_⟩
    funext j
    unfold SessTable.look
    by_cases hj : j = sessSlot t key keyLen
    · subst hj
      simp only [Function.update_self, Option.map_some, Buf256.bytes_memcpy]
    · simp only [Function.update_of_ne hj]

end AquaTransport
