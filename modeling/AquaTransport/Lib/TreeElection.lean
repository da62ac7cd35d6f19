import AquaTransport.Lib.Rounds
import Mathlib.Data.Prod.Lex
import Mathlib.Data.Set.Card
import Mathlib.Order.OrderDual

/-!
# AquaTransport.Lib.TreeElection — stations that join the best tree they hear of

Every station has a rank, and claims a root, that root's rank, the parent through which it reaches the
root, and its height.  It compares its own tree with the offers of its neighbours: a better rank wins,
then a smaller height, then a larger address; an offer is refused when the tree would grow above
`lim`, or when the station offering is one's own child (`Elects`).

`settles`: from *any* state, stale claims, loops and forgotten neighbours included, the rounds of
`AquaTransport.Lib.Rounds` lead to one forest.  Its roots are the stations of the best rank
that hear no root of a larger address, and every station within `lim` hops of a root is at its distance
from them, below the neighbour of the largest address that is one hop nearer.
-/

namespace AquaTransport

/-- What a station tells the others about its place. -/
structure TreeElection (R V : Type*) where
  rank : R
  root : V
  parent : V
  height : ℕ

namespace TreeElection

variable {R V : Type*}

/-- A station that is its own root. -/
def alone (ρ : V → R) (v : V) : TreeElection R V := ⟨ρ v, v, v, 0⟩

/-- The place below `u`. -/
def below (u : V) (c : TreeElection R V) : TreeElection R V := ⟨c.rank, c.root, u, c.height + 1⟩

/-- What `u` offers to `v`: a tree that may grow, and that does not hang from `v` itself. -/
structure Offer (lim : ℕ) (T : V → Option (TreeElection R V)) (v u : V) (c : TreeElection R V) :
    Prop where
  heard : T u = some c
  height : c.height < lim
  parent : c.parent ≠ v

section Rule

variable [LinearOrder R] [LinearOrder V]

/-- Better rank first, then nearer, then the larger address. -/
def key (u : V) (c : TreeElection R V) : R ×ₗ ℕᵒᵈ ×ₗ V :=
  toLex (c.rank, toLex (OrderDual.toDual c.height, u))

theorem key_lt {u w : V} {c d : TreeElection R V} : key u c < key w d ↔ c.rank < d.rank ∨
    (c.rank = d.rank ∧ (d.height < c.height ∨ (c.height = d.height ∧ u < w))) := by
  simp [key, Prod.Lex.lt_iff]

theorem key_le {u w : V} {c d : TreeElection R V} : key u c ≤ key w d ↔ c.rank < d.rank ∨
    (c.rank = d.rank ∧ (d.height < c.height ∨ (c.height = d.height ∧ u ≤ w))) := by
  simp [key, Prod.Lex.le_iff]

/-- The best of one's own tree and the offers. -/
inductive Elects (ρ : V → R) (lim : ℕ) (v : V) (T : V → Option (TreeElection R V)) :
    TreeElection R V → Prop
  | alone (hmax : ∀ u c, Offer lim T v u c → key u c ≤ key v (alone ρ v)) : Elects ρ lim v T (alone ρ v)
  | below {u : V} {c : TreeElection R V} (ho : Offer lim T v u c)
      (hlt : key v (TreeElection.alone ρ v) < key u c)
      (hmax : ∀ w d, Offer lim T v w d → key w d ≤ key u c) : Elects ρ lim v T (below u c)

/-- A rule that elects so on all claims it can come across, and never goes above `lim`. -/
structure Rule (ρ : V → R) (lim : ℕ)
    (E : V → (V → Option (TreeElection R V)) → TreeElection R V → Prop) : Prop where
  height : ∀ v T c, E v T c → c.height ≤ lim
  elects : ∀ v T c, E v T c → (∀ u d, T u = some d → d.height ≤ lim) → Elects ρ lim v T c

end Rule

section Forest

variable (adj : V → V → Prop) (ρ : V → R) (best : R) (St S : Set V)

/-- The roots: of the best rank, and no neighbour of a larger address is a root. -/
def IsRoots [LT V] : Prop := ∀ v, v ∈ S ↔ v ∈ St ∧ ρ v = best ∧ ∀ u, adj v u → v < u → u ∉ S

/-- The stations within `d` hops of a root. -/
def Ball : ℕ → Set V
  | 0 => S
  | d + 1 => {v | v ∈ Ball d ∨ ∃ u ∈ Ball d, adj v u}

/-- The stations `d` hops away. -/
def At (d : ℕ) (v : V) : Prop := v ∈ Ball adj S d ∧ ∀ e < d, v ∉ Ball adj S e

/-- The place that a station `d` hops away ends up in. -/
def Final [LE V] : ℕ → V → TreeElection R V → Prop
  | 0, v, c => v ∈ S ∧ c = alone ρ v
  | d + 1, v, c => v ∉ Ball adj S d ∧ ∃ u cu, adj v u ∧ Final d u cu ∧
      (∀ w, adj v w → w ∈ Ball adj S d → w ≤ u) ∧ c = below u cu

variable {adj ρ best St S}

theorem ball_mono {d e : ℕ} (h : d ≤ e) : Ball adj S d ⊆ Ball adj S e := by
  induction h with
  | refl => exact Set.Subset.rfl
  | step _ ih => exact fun v hv => .inl (ih hv)

theorem At.succ {d : ℕ} {v : V} : At adj S (d + 1) v ↔
    v ∉ Ball adj S d ∧ ∃ u, adj v u ∧ u ∈ Ball adj S d := by
  constructor
  · rintro ⟨hv, hne⟩
    have hd := hne d (Nat.lt_succ_self d)
    rcases hv with hv | ⟨u, hu, huv⟩
    · exact absurd hv hd
    · exact ⟨hd, u, huv, hu⟩
  · rintro ⟨hd, u, huv, hu⟩
    refine ⟨.inr ⟨u, hu, huv⟩, fun e he hv => hd ?_⟩
    exact ball_mono (Nat.lt_succ_iff.mp he) hv

/-- One hop nearer: a neighbour in the ball that `v` is just outside of is as near as can be. -/
theorem At.of_adj {d : ℕ} {v u : V} (hv : v ∉ Ball adj S d) (h : adj v u) (hu : u ∈ Ball adj S d) :
    At adj S d u := by
  refine ⟨hu, fun e he hue => hv ?_⟩
  exact ball_mono he (.inr ⟨u, hue, h⟩)

/-- A station's final place tells its rank, height and distance. -/
theorem Final.spec [LE V] (hS : ∀ v ∈ S, ρ v = best) {d : ℕ} {v : V} {c : TreeElection R V}
    (h : Final adj ρ S d v c) : c.rank = best ∧ c.height = d ∧ At adj S d v := by
  induction d generalizing v c with
  | zero =>
    obtain ⟨hv, rfl⟩ := h
    exact ⟨hS v hv, rfl, hv, fun e he => absurd he (Nat.not_lt_zero e)⟩
  | succ d ih =>
    obtain ⟨hv, u, cu, huv, hu, -, rfl⟩ := h
    obtain ⟨hr, hh, hat⟩ := ih hu
    exact ⟨hr, congrArg (· + 1) hh, At.succ.mpr ⟨hv, u, huv, hat.1⟩⟩

/-- The parent of a final place is never farther than one hop nearer. -/
theorem Final.parent_ne [LE V] (hS : ∀ v ∈ S, ρ v = best) {d : ℕ} {u v : V} {c : TreeElection R V}
    (h : Final adj ρ S d u c) (hv : v ∉ Ball adj S d) : c.parent ≠ v := by
  cases d with
  | zero =>
    obtain ⟨hu, rfl⟩ := h
    exact fun he => hv (he ▸ hu)
  | succ d =>
    obtain ⟨-, w, cw, -, hw, -, rfl⟩ := h
    rintro rfl
    exact hv (ball_mono (Nat.le_succ d) (hw.spec hS).2.2.1)

end Forest

section Stages

variable [LinearOrder R]

/-- Only a root has height zero. -/
def Normal (ρ : V → R) (lim : ℕ) (v : V) (c : TreeElection R V) : Prop :=
  c.height ≤ lim ∧ (c.height = 0 → c = alone ρ v)

/-- A rank that nobody has is claimed from far away only. -/
def Flushed (ρ : V → R) (lim : ℕ) (best : R) (k : ℕ) (v : V) (c : TreeElection R V) : Prop :=
  Normal ρ lim v c ∧ (best < c.rank → k ≤ c.height)

/-- After the flush no rank is claimed but those there are. -/
theorem Flushed.rank_le {ρ : V → R} {lim : ℕ} {best : R} {v : V}
    {c : TreeElection R V} (h : Flushed ρ lim best (lim + 1) v c) : c.rank ≤ best := by
  by_contra hb
  have hh := h.2 (not_le.mp hb)
  have hlim := h.1.1
  omega

variable [LinearOrder V] {adj : V → V → Prop} {ρ : V → R} {best : R} {lim : ℕ}
  {St S : Set V} {E : V → (V → Option (TreeElection R V)) → TreeElection R V → Prop}

/-- Of the stations of the best rank, those with fewer than `k` larger addresses are roots, or not, for
good. -/
def Rooted (ρ : V → R) (lim : ℕ) (best : R) (St S : Set V) (k : ℕ) (v : V) (c : TreeElection R V) :
    Prop :=
  Flushed ρ lim best (lim + 1) v c ∧ (ρ v = best → {w ∈ St | v < w}.ncard < k → (v ∈ S ↔ c.height = 0))

/-- The best rank is not claimed from nearer than `k` hops, nor from nearer than it is. -/
def Distant (adj : V → V → Prop) (ρ : V → R) (lim : ℕ) (best : R) (St S : Set V) (k : ℕ) (v : V)
    (c : TreeElection R V) : Prop :=
  Rooted ρ lim best St S St.ncard v c ∧ (c.rank = best → c.height < k → v ∈ Ball adj S c.height)

/-- The stations nearer than `k` hops are in their final places. -/
def Placed (adj : V → V → Prop) (ρ : V → R) (lim : ℕ) (best : R) (St S : Set V) (k : ℕ) (v : V)
    (c : TreeElection R V) : Prop :=
  Distant adj ρ lim best St S (lim + 1) v c ∧ ∀ d < k, At adj S d v → Final adj ρ S d v c

/-- One round leaves no claim above the limit. -/
theorem Rule.bounded (hE : Rule ρ lim E) :
    Rounds.Contracts St adj E (fun _ _ => True) (fun _ c => c.height ≤ lim) where
  le := fun _ _ _ => trivial
  decide := fun v _ T c _ _ hc => hE.height v T c hc

theorem Rule.normal (hE : Rule ρ lim E) :
    Rounds.Contracts St adj E (fun _ c => c.height ≤ lim) (Normal ρ lim) where
  le := fun _ _ h => h.1
  decide := by
    intro v _ T c _ hT hc
    refine ⟨hE.height v T c hc, fun h0 => ?_⟩
    cases hE.elects v T c hc hT with
    | alone => rfl
    | below => exact absurd h0 (Nat.succ_ne_zero _)

theorem Rule.flushed (hE : Rule ρ lim E) (hbest : ∀ v ∈ St, ρ v ≤ best) (k : ℕ) :
    Rounds.Contracts St adj E (Flushed ρ lim best k) (Flushed ρ lim best (k + 1)) where
  le := fun _ _ h => ⟨h.1, fun hb => Nat.le_of_succ_le (h.2 hb)⟩
  decide := by
    intro v hv T c hcov hT hc
    refine ⟨hE.normal.decide v hv T c hcov (fun u d hd => (hT u d hd).1.1) hc, fun hb => ?_⟩
    cases hE.elects v T c hc fun u d hd => (hT u d hd).1.1 with
    | alone => exact absurd hb (not_lt.mpr (hbest v hv))
    | below ho => exact Nat.succ_le_succ ((hT _ _ ho.heard).2 hb)

variable (hadj : ∀ v u, adj v u → v ∈ St ∧ u ∈ St) (hfin : St.Finite)

include hadj hfin

theorem Rule.rooted (hE : Rule ρ lim E) (hbest : ∀ v ∈ St, ρ v ≤ best)
    (hS : IsRoots adj ρ best St S) (hlim : 0 < lim) (k : ℕ) :
    Rounds.Contracts St adj E (Rooted ρ lim best St S k) (Rooted ρ lim best St S (k + 1)) where
  le := fun _ _ h => ⟨h.1, fun hv hk => h.2 hv (Nat.lt_succ_of_lt hk)⟩
  decide := by
    intro v hv T c hcov hT hc
    have hflush := (hE.flushed hbest (lim + 1)).source.decide v hv T c hcov (fun u d hd => (hT u d hd).1) hc
    refine ⟨hflush, fun hb hk => ?_⟩
    -- a neighbour of a larger address has its status already
    have hlt : ∀ u, adj v u → v < u → {w ∈ St | u < w}.ncard < k := by
      intro u hu hvu
      have hsub : {w ∈ St | u < w} ⊂ {w ∈ St | v < w} := by
        refine ⟨fun w hw => ⟨hw.1, hvu.trans hw.2⟩, fun hle => ?_⟩
        exact lt_irrefl u (hle ⟨(hadj v u hu).2, hvu⟩).2
      have hcard := Set.ncard_lt_ncard hsub (hfin.subset (Set.sep_subset _ _))
      omega
    have hel := hE.elects v T c hc fun u d hd => (hT u d hd).1.1.1
    constructor
    · intro hvS
      cases hel with
      | alone => rfl
      | @below u d ho hkey hmax =>
        exfalso
        have hrank := (hT u d ho.heard).1.rank_le
        have huv : adj v u := (hcov u).mp (by rw [ho.heard]; rfl)
        have hown : (alone ρ v : TreeElection R V).rank = best := hb
        rcases key_lt.mp hkey with h | ⟨-, h | ⟨h0, hvu⟩⟩
        · exact absurd hrank (not_le.mpr (hown ▸ h))
        · exact absurd h (Nat.not_lt_zero _)
        · have hd0 : d.height = 0 := h0.symm
          have hd : d = alone ρ u := (hT u d ho.heard).1.1.2 hd0
          have hub : ρ u = best := by
            have := key_lt.mp hkey
            subst hd
            rcases this with h | ⟨h, -⟩
            · exact absurd hrank (not_le.mpr (hown ▸ h))
            · exact h.symm.trans hown
          have huS := ((hT u d ho.heard).2 hub (hlt u huv hvu)).mpr hd0
          exact ((hS v).mp hvS).2.2 u huv hvu huS
    · intro h0
      by_contra hvS
      have hex : ∃ u, adj v u ∧ v < u ∧ u ∈ S := by
        by_contra hno
        refine hvS ((hS v).mpr ⟨hv, hb, fun u hu hvu huS => hno ⟨u, hu, hvu, huS⟩⟩)
      obtain ⟨u, huv, hvu, huS⟩ := hex
      obtain ⟨d, hd⟩ := Option.isSome_iff_exists.mp ((hcov u).mpr huv)
      have hub : ρ u = best := ((hS u).mp huS).2.1
      have hd0 := ((hT u d hd).2 hub (hlt u huv hvu)).mp huS
      have hda : d = alone ρ u := (hT u d hd).1.1.2 hd0
      have ho : Offer lim T v u d := ⟨hd, by omega, by rw [hda]; exact hvu.ne'⟩
      cases hel with
      | below => exact absurd h0 (Nat.succ_ne_zero _)
      | alone hmax =>
        have hkey := hmax u d ho
        subst hda
        refine absurd hkey (not_le.mpr (key_lt.mpr (.inr ⟨hb.trans hub.symm, .inr ⟨rfl, hvu⟩⟩)))

theorem Rule.distant (hE : Rule ρ lim E) (hbest : ∀ v ∈ St, ρ v ≤ best)
    (hS : IsRoots adj ρ best St S) (hlim : 0 < lim) (k : ℕ) :
    Rounds.Contracts St adj E (Distant adj ρ lim best St S k) (Distant adj ρ lim best St S (k + 1)) where
  le := fun _ _ h => ⟨h.1, fun hb hk => h.2 hb (Nat.lt_succ_of_lt hk)⟩
  decide := by
    intro v hv T c hcov hT hc
    have hroot := (hE.rooted hadj hfin hbest hS hlim St.ncard).source.decide v hv T c hcov
      (fun u d hd => (hT u d hd).1) hc
    refine ⟨hroot, fun hb hk => ?_⟩
    have hel := hE.elects v T c hc fun u d hd => (hT u d hd).1.1.1.1
    cases hel with
    | alone =>
      refine (hroot.2 hb (Set.ncard_lt_ncard ⟨Set.sep_subset _ _, fun hle => ?_⟩ hfin)).mpr rfl
      exact lt_irrefl v (hle hv).2
    | @below u d ho =>
      have huv : adj v u := (hcov u).mp (by rw [ho.heard]; rfl)
      exact .inr ⟨u, (hT u d ho.heard).2 hb (Nat.lt_of_succ_lt_succ hk), huv⟩

theorem Rule.placed (hE : Rule ρ lim E) (hbest : ∀ v ∈ St, ρ v ≤ best)
    (hS : IsRoots adj ρ best St S) (hlim : 0 < lim) (k : ℕ) (hk : k ≤ lim) :
    Rounds.Contracts St adj E (Placed adj ρ lim best St S k) (Placed adj ρ lim best St S (k + 1)) where
  le := fun _ _ h => ⟨h.1, fun d hd => h.2 d (Nat.lt_succ_of_lt hd)⟩
  decide := by
    intro v hv T c hcov hT hc
    have hSb : ∀ v ∈ S, ρ v = best := fun v hv => ((hS v).mp hv).2.1
    have hroot := (hE.rooted hadj hfin hbest hS hlim St.ncard).source.decide v hv T c hcov
      (fun u d hd => (hT u d hd).1.1) hc
    have hstatus : ρ v = best → (v ∈ S ↔ c.height = 0) := fun hb =>
      hroot.2 hb (Set.ncard_lt_ncard ⟨Set.sep_subset _ _, fun hle => lt_irrefl v (hle hv).2⟩ hfin)
    refine ⟨(hE.distant hadj hfin hbest hS hlim (lim + 1)).source.decide v hv T c hcov
      (fun u d hd => (hT u d hd).1) hc, fun d hd hat => ?_⟩
    cases d with
    | zero => exact ⟨hat.1, hroot.1.1.2 ((hstatus (hSb v hat.1)).mp hat.1)⟩
    | succ e =>
      obtain ⟨hve, u₀, hu₀, hu₀e⟩ := At.succ.mp hat
      -- what the neighbours one hop nearer offer
      have hoffer : ∀ u, adj v u → u ∈ Ball adj S e → ∃ d, Offer lim T v u d ∧ Final adj ρ S e u d := by
        intro u hu hue
        obtain ⟨d, hd⟩ := Option.isSome_iff_exists.mp ((hcov u).mpr hu)
        have hf : Final adj ρ S e u d := (hT u d hd).2 e (by omega) (At.of_adj hve hu hue)
        have hh : d.height = e := (hf.spec hSb).2.1
        exact ⟨d, ⟨hd, by omega, hf.parent_ne hSb hve⟩, hf⟩
      have hel := hE.elects v T c hc fun u d hd => (hT u d hd).1.1.1.1.1
      obtain ⟨d₀, ho₀, hf₀⟩ := hoffer u₀ hu₀ hu₀e
      obtain ⟨hr₀, hh₀, -⟩ := hf₀.spec hSb
      cases hel with
      | alone hmax =>
        -- then `v` has the best rank, and is a root after all
        exfalso
        have hb : ρ v = best := by
          refine le_antisymm (hbest v hv) ?_
          rcases key_le.mp (hmax u₀ d₀ ho₀) with h | ⟨h, -⟩
          · exact hr₀ ▸ h.le
          · exact (hr₀.symm.trans h).le
        exact hve (ball_mono (Nat.zero_le e) ((hstatus hb).mpr rfl))
      | @below u cu ho hlt hmax =>
        have huv : adj v u := (hcov u).mp (by rw [ho.heard]; rfl)
        have hle := hmax u₀ d₀ ho₀
        have hrank : cu.rank = best := by
          refine le_antisymm (hT u cu ho.heard).1.1.1.rank_le ?_
          rcases key_le.mp hle with h | ⟨h, -⟩
          · exact hr₀ ▸ h.le
          · exact (hr₀.symm.trans h).le
        have hheight : cu.height ≤ e := by
          rcases key_le.mp hle with h | ⟨-, h | ⟨h, -⟩⟩
          · exact absurd h (by rw [hr₀, hrank]; exact lt_irrefl best)
          · omega
          · omega
        have huB : u ∈ Ball adj S cu.height := (hT u cu ho.heard).1.2 hrank (by omega)
        have heq : cu.height = e := by
          by_contra hne
          exact hve (ball_mono (by omega : cu.height + 1 ≤ e) (.inr ⟨u, huB, huv⟩))
        have hue : u ∈ Ball adj S e := heq ▸ huB
        have hf := (hT u cu ho.heard).2 e (by omega) (At.of_adj hve huv hue)
        refine ⟨hve, u, cu, huv, hf, fun w hw hwe => ?_, rfl⟩
        obtain ⟨d, hod, hfd⟩ := hoffer w hw hwe
        obtain ⟨hrd, hhd, -⟩ := hfd.spec hSb
        rcases key_le.mp (hmax w d hod) with h | ⟨-, h | ⟨-, h⟩⟩
        · exact absurd h (by rw [hrd, hrank]; exact lt_irrefl best)
        · omega
        · exact h

/-- The places are filled one distance after another, up to the limit. -/
theorem Rule.placed_min (hE : Rule ρ lim E) (hbest : ∀ v ∈ St, ρ v ≤ best)
    (hS : IsRoots adj ρ best St S) (hlim : 0 < lim) (k : ℕ) : Rounds.Contracts St adj E
      (Placed adj ρ lim best St S (min k (lim + 1)))
      (Placed adj ρ lim best St S (min (k + 1) (lim + 1))) := by
  rcases Nat.lt_or_ge lim k with hk | hk
  · have he : min k (lim + 1) = lim + 1 := by omega
    have he' : min (k + 1) (lim + 1) = lim + 1 := by omega
    rw [he, he']
    exact (hE.placed hadj hfin hbest hS hlim lim le_rfl).target
  · have he : min k (lim + 1) = k := by omega
    have he' : min (k + 1) (lim + 1) = k + 1 := by omega
    rw [he, he']
    exact hE.placed hadj hfin hbest hS hlim k hk

/-- **The forest settles.**  From any state, after the prelude and `St.ncard + 3 * lim + 5` rounds, and
from then on, every station within `lim` hops of a root is in its final place. -/
theorem Rule.settles (hE : Rule ρ lim E) (hbest : ∀ v ∈ St, ρ v ≤ best)
    (hS : IsRoots adj ρ best St S) (hlim : 0 < lim) {s t : Rounds V (TreeElection R V)}
    {pre acts : List (Rounds.Act V)} (hp : Path (Rounds.Step E) s (pre ++ acts) t)
    (hf : ∀ a ∈ pre ++ acts, Rounds.Fair adj a) (hpre : Rounds.Prelude St adj pre)
    (hl : Rounds.Lasts St adj (St.ncard + 3 * lim + 5) acts) {v : V} {d : ℕ} (hv : At adj S d v)
    (hv' : v ∈ St) (hd : d ≤ lim) : Final adj ρ S d v (t.own v) := by
  have h1 : Rounds.Leads St adj E 1 _ _ := hE.bounded.leads_one hadj
  have h2 : Rounds.Leads St adj E 1 (fun _ c => c.height ≤ lim) (Flushed ρ lim best 0) :=
    (hE.normal.leads_one hadj).imp (fun _ _ _ h => ⟨h, fun _ => Nat.zero_le _⟩) hadj
  have h3 : Rounds.Leads St adj E (lim + 1) (Flushed ρ lim best 0) (Rooted ρ lim best St S 0) :=
    (Rounds.Contracts.leads hadj (hE.flushed hbest) (lim + 1)).imp
      (fun _ _ _ h => ⟨h, fun _ hk => absurd hk (Nat.not_lt_zero _)⟩) hadj
  have h4 : Rounds.Leads St adj E St.ncard (Rooted ρ lim best St S 0)
      (Distant adj ρ lim best St S 0) :=
    (Rounds.Contracts.leads hadj (hE.rooted hadj hfin hbest hS hlim) St.ncard).imp
      (fun _ _ _ h => ⟨h, fun _ hk => absurd hk (Nat.not_lt_zero _)⟩) hadj
  have h5 : Rounds.Leads St adj E (lim + 1) (Distant adj ρ lim best St S 0)
      (Placed adj ρ lim best St S (min 0 (lim + 1))) :=
    (Rounds.Contracts.leads hadj (hE.distant hadj hfin hbest hS hlim) (lim + 1)).imp
      (fun _ _ _ h => ⟨h, fun _ hk => absurd hk (by omega)⟩) hadj
  have h6 := Rounds.Contracts.leads hadj (hE.placed_min hadj hfin hbest hS hlim) (lim + 1)
  have hall := ((((h1.trans h2).trans h3).trans h4).trans h5).trans h6
  have hn : 1 + 1 + (lim + 1) + St.ncard + (lim + 1) + (lim + 1) = St.ncard + 3 * lim + 5 := by omega
  rw [hn] at hall
  obtain ⟨u, hp1, hp2⟩ := hp.split
  have hcov := hpre.covers hp1 fun a ha => hf a (List.mem_append_left _ ha)
  obtain ⟨hw, -⟩ := hall u acts t ⟨fun _ _ => trivial, fun _ _ _ _ _ => trivial⟩ hcov hp2
    (fun a ha => hf a (List.mem_append_right _ ha)) hl
  exact (hw.own v hv').2 d (by omega) hv

end Stages

section Roots

variable [LinearOrder V] (adj : V → V → Prop) (ρ : V → R) (best : R)

/-- There are roots, one set of them: a station's status depends on larger addresses only. -/
theorem exists_isRoots {St : Set V} (hfin : St.Finite) (hadj : ∀ v u, adj v u → v ∈ St ∧ u ∈ St) :
    ∃ S, IsRoots adj ρ best St S := by
  have hwf : WellFounded fun u v : V => v < u ∧ u ∈ St := by
    refine Subrelation.wf (r := InvImage (· < ·) fun v : V => {w ∈ St | v < w}.ncard) ?_
      (InvImage.wf _ Nat.lt_wfRel.wf)
    rintro u v ⟨hvu, hu⟩
    have hsub : {w ∈ St | u < w} ⊂ {w ∈ St | v < w} := by
      refine ⟨fun w hw => ⟨hw.1, hvu.trans hw.2⟩, fun hle => lt_irrefl u (hle ⟨hu, hvu⟩).2⟩
    exact Set.ncard_lt_ncard hsub (hfin.subset (Set.sep_subset _ _))
  let f : V → Prop := hwf.fix fun v rec =>
    v ∈ St ∧ ρ v = best ∧ ∀ u, adj v u → ∀ h : v < u ∧ u ∈ St, ¬ rec u h
  have hf : ∀ v, f v ↔ v ∈ St ∧ ρ v = best ∧ ∀ u, adj v u → ∀ _ : v < u ∧ u ∈ St, ¬ f u := fun v =>
    iff_of_eq (hwf.fix_eq _ v)
  refine ⟨{v | f v}, fun v => (hf v).trans ?_⟩
  constructor
  · rintro ⟨hv, hb, h⟩
    exact ⟨hv, hb, fun u hu hvu => h u hu ⟨hvu, (hadj v u hu).2⟩⟩
  · rintro ⟨hv, hb, h⟩
    exact ⟨hv, hb, fun u hu hvu => h u hu hvu.1⟩

end Roots

end TreeElection

end AquaTransport
