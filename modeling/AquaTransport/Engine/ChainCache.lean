import AquaTransport.Engine.Shadow
import AquaTransport.Lib.Coding
import AquaTransport.Lib.Run
import AquaTransport.Lib.SlotTable
import Mathlib.Tactic.SplitIfs

/-!
# AquaTransport.Engine.ChainCache — the cache of verified chains

The slots behind `gChainOk`, the digest that keys them, and the two operations on them,
`chain_ok_get` and `chain_ok_put`.  SHA-256 is a parameter `sha`, and a certificate of a chain is
what `i2d_X509` makes of it, `none` when it fails.
-/

namespace AquaTransport

open SlotTable

def MAXCHOK : ℕ := 32
def CHAIN_OK_TTL : ℤ := 600

instance : NeZero MAXCHOK := ⟨by decide⟩

structure ChainOkEnt (D : Type) where
  dg : D
  when : ℤ := 0
  lastUse : UInt32 := 0
  used : Bool := false

structure ChainOk (D : Type) where
  gChainOk : Fin MAXCHOK → ChainOkEnt D
  gChainOkClock : UInt32 := 0

/-! ### The cache -/

section Cache

variable {D : Type}

/-- The digest and the time of a used entry. -/
def ChainOk.look (c : ChainOk D) (i : Fin MAXCHOK) : Option (D × ℤ) :=
  if (c.gChainOk i).used then some ((c.gChainOk i).dg, (c.gChainOk i).when) else none

def ChainOk.keys (c : ChainOk D) (i : Fin MAXCHOK) : Option D := (c.look i).map Prod.fst

def ChainOk.age (c : ChainOk D) (i : Fin MAXCHOK) : ℕ := (c.gChainOk i).lastUse.toNat

/-- The encodings of a chain, all of them nonempty. -/
def encodings : List (Option Bytes) → Option (List Bytes)
  | [] => some []
  | none :: _ => none
  | some der :: chain => if der = [] then none else (encodings chain).map (der :: ·)

/-- What `chain_ok_digest` hashes: the host with its terminator, then the certificates. -/
def hashInput (host : CString) (ders : List Bytes) : Bytes := host.bytes ++ 0 :: ders.flatten

def chainOkDigest (sha : Bytes → D) (chain : List (Option Bytes)) (host : CString) : Option D :=
  if chain = [] then none else (encodings chain).map fun ders => sha (hashInput host ders)

variable [DecidableEq D]

def chainOkGet (c : ChainOk D) (now : ℤ) (dg : D) : ChainOk D × Bool :=
  match slotOf c.keys dg with
  | none => (c, false)
  | some i =>
    if now - (c.gChainOk i).when ≤ CHAIN_OK_TTL then
      ({ gChainOk := Function.update c.gChainOk i
            { c.gChainOk i with lastUse := c.gChainOkClock + 1 }
         gChainOkClock := c.gChainOkClock + 1 }, true)
    else
      -- expired: the next success re-fills it
      ({ c with gChainOk := Function.update c.gChainOk i { c.gChainOk i with used := false } }, false)

def chainOkPut (c : ChainOk D) (now : ℤ) (dg : D) : ChainOk D :=
  { gChainOk := Function.update c.gChainOk (putSlot c.keys c.age dg)
      ⟨dg, now, c.gChainOkClock + 1, true⟩
    gChainOkClock := c.gChainOkClock + 1 }

omit [DecidableEq D] in
theorem ChainOk.keys_update {c c' : ChainOk D} {i : Fin MAXCHOK} {v : Option (D × ℤ)}
    (h : c'.look = Function.update c.look i v) :
    c'.keys = Function.update c.keys i (v.map Prod.fst) := by
  funext j
  unfold keys
  rw [h]
  by_cases hj : j = i
  · subst hj; simp
  · simp [hj]

/-- A hit is on an entry for the digest that has not expired, and changes no entry's digest or
time. -/
theorem chainOkGet_hit {c c' : ChainOk D} {now : ℤ} {dg : D} (h : chainOkGet c now dg = (c', true)) :
    c'.look = c.look ∧ ∃ i w, c.look i = some (dg, w) ∧ now - w ≤ CHAIN_OK_TTL := by
  unfold chainOkGet at h
  split at h
  next => simp at h
  next i hi =>
    split_ifs at h with ht
    · obtain rfl := (Prod.mk.inj h).1
      have hk := slotOf_some hi
      simp only [ChainOk.keys, Option.map_eq_some_iff] at hk
      obtain ⟨⟨d, w⟩, hl, rfl⟩ := hk
      have hw : (c.gChainOk i).when = w := by
        unfold ChainOk.look at hl
        split_ifs at hl
        exact (Prod.mk.inj (Option.some.inj hl)).2
      refine ⟨?_, i, w, hl, hw ▸ ht⟩
      funext j
      unfold ChainOk.look
      by_cases hj : j = i
      · subst hj; simp
      · simp [hj]
    · simp at h

/-- A miss clears at most an expired entry. -/
theorem chainOkGet_miss {c c' : ChainOk D} {now : ℤ} {dg : D}
    (h : chainOkGet c now dg = (c', false)) :
    c'.look = c.look ∨ ∃ i, c'.look = Function.update c.look i none := by
  unfold chainOkGet at h
  split at h
  next =>
    obtain rfl := (Prod.mk.inj h).1
    exact Or.inl rfl
  next i hi =>
    split_ifs at h with ht
    · simp at h
    · obtain rfl := (Prod.mk.inj h).1
      refine Or.inr ⟨i, ?_⟩
      funext j
      unfold ChainOk.look
      by_cases hj : j = i
      · subst hj; simp
      · simp [hj]

theorem chainOkPut_look (c : ChainOk D) (now : ℤ) (dg : D) :
    (chainOkPut c now dg).look =
      Function.update c.look (putSlot c.keys c.age dg) (some (dg, now)) := by
  funext j
  unfold chainOkPut ChainOk.look
  by_cases hj : j = putSlot c.keys c.age dg
  · subst hj; simp
  · simp [hj]

end Cache

/-! ### What is hashed -/

theorem encodings_eq {chain : List (Option Bytes)} {ders : List Bytes}
    (h : encodings chain = some ders) : chain = ders.map some ∧ [] ∉ ders := by
  induction chain generalizing ders with
  | nil =>
    obtain rfl := Option.some.inj h
    simp
  | cons cert chain ih =>
    cases cert with
    | none => simp [encodings] at h
    | some der =>
      simp only [encodings] at h
      split_ifs at h with hne
      obtain ⟨ds, hds, rfl⟩ := Option.map_eq_some_iff.mp h
      obtain ⟨h1, h2⟩ := ih hds
      exact ⟨by rw [h1]; rfl, by simp [h2, Ne.symm hne]⟩

/-- The hashed bytes determine the host and the chain. -/
theorem hashInput_inj {S : Set Bytes} (hS : PrefixFree S) {host host' : CString}
    {ders ders' : List Bytes} (hd : ∀ d ∈ ders, d ∈ S) (hd' : ∀ d ∈ ders', d ∈ S)
    (hne : [] ∉ ders) (hne' : [] ∉ ders') (h : hashInput host ders = hashInput host' ders') :
    host = host' ∧ ders = ders' := by
  obtain ⟨h1, h2⟩ := host.append_inj h
  refine ⟨h1, ?_⟩
  have hS' : PrefixFree (S \ {[]}) := fun a ha b hb => hS a ha.1 b hb.1
  refine hS'.flatten_inj (by simp) (fun d hm => ⟨hd d hm, ?_⟩) (fun d hm => ⟨hd' d hm, ?_⟩) h2
  · rintro rfl
    exact hne hm
  · rintro rfl
    exact hne' hm

end AquaTransport
