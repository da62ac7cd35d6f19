import AquaTransport.Awdl.State
import AquaTransport.Lib.TreeElection

/-!
# AquaTransport.Awdl.Election — election.c

`electionRun` visits the peers in the order of the table's iterator.  `electionRun_best` says that the order
is of no matter: the result is the maximum, over the node itself and the peers it may join, of counter,
metric, smaller height and address.  `elected_rule` makes it a rule of `AquaTransport.Lib.TreeElection`.
Heights are 32-bit numbers in the C code and `height + 1` wraps to zero at the largest one, which a
frame can carry.
-/

namespace AquaTransport.Awdl

/-- `compare`. -/
def compare32 (a b : UInt32) : ℤ := if a < b then -1 else if b < a then 1 else 0

/-- `AWDL_ELECTION_TREE_MAX_HEIGHT`. -/
def electionTreeMaxHeight : UInt32 := 10

namespace ElectionState

/-- `awdl_election_is_sync_master`. -/
def isSyncMaster (state : ElectionState) (addr : EtherAddr) : Bool :=
  compareEtherAddr state.syncAddr addr = 0

/-- `awdl_election_compare_master`. -/
def compareMaster (a b : ElectionState) : ℤ :=
  if compare32 a.masterCounter b.masterCounter = 0 then compare32 a.masterMetric b.masterMetric
  else compare32 a.masterCounter b.masterCounter

/-- The body of the loop over the peers: `master` is the `master_state` so far, and the result is the
peer's state if it is accepted. -/
def visit (state : ElectionState) (master : ElectionState) (peer : Peer) : ElectionState :=
  if !peer.isValid then master
  else if peer.election.height + 1 > electionTreeMaxHeight then master
  else if peer.election.isSyncMaster state.selfAddr then master
  else if compareMaster peer.election master < 0 then master
  else if compareMaster peer.election master = 0 then
    -- same top master: the shorter way, and the larger address where both are as long
    if peer.election.height > master.height then master
    else if peer.election.height = master.height then
      if compareEtherAddr peer.election.selfAddr master.selfAddr ≤ 0 then master else peer.election
    else peer.election
  else peer.election

/-- The peer's tree, one hop farther. -/
def adopt (state master : ElectionState) : ElectionState :=
  { state with
    masterAddr := master.masterAddr
    syncAddr := master.selfAddr
    masterMetric := master.masterMetric
    masterCounter := master.masterCounter
    height := master.height + 1 }

end ElectionState

open ElectionState

/-- `awdl_election_run`.  The C code compares pointers to tell whether a peer was accepted; a peer is
never the node itself, so that its address tells as much. -/
def electionRun (state : ElectionState) (peers : List Peer) : ElectionState :=
  let state := state.resetSelf
  let master := peers.foldl state.visit state
  if master = state then state else state.adopt master

/-! ### What the comparisons say -/

theorem compare32_neg {a b : UInt32} : compare32 a b < 0 ↔ a.toNat < b.toNat := by
  simp only [compare32, UInt32.lt_iff_toNat_lt]
  split_ifs <;> omega

theorem compare32_eq_zero {a b : UInt32} : compare32 a b = 0 ↔ a.toNat = b.toNat := by
  simp only [compare32, UInt32.lt_iff_toNat_lt]
  split_ifs with h h'
  · exact ⟨fun h0 => absurd h0 (by decide), fun h0 => absurd h0 h.ne⟩
  · exact ⟨fun h0 => absurd h0 (by decide), fun h0 => absurd h0 h'.ne'⟩
  · exact ⟨fun _ => by omega, fun _ => rfl⟩

namespace ElectionState

/-- What ranks a master: its counter, then its metric. -/
def rank (e : ElectionState) : ℕ ×ₗ ℕ := toLex (e.masterCounter.toNat, e.masterMetric.toNat)

/-- What a node says about its place. -/
def claim (e : ElectionState) : TreeElection (ℕ ×ₗ ℕ) EtherAddr :=
  ⟨e.rank, e.masterAddr, e.syncAddr, e.height.toNat⟩

/-- The rank a node has of its own. -/
def selfRank (e : ElectionState) : ℕ ×ₗ ℕ := toLex (e.selfCounter.toNat, e.selfMetric.toNat)

/-- How good it is to hang from the node: `TreeElection.key`. -/
def key (e : ElectionState) : (ℕ ×ₗ ℕ) ×ₗ ℕᵒᵈ ×ₗ EtherAddr := TreeElection.key e.selfAddr e.claim

theorem compareMaster_neg {a b : ElectionState} : compareMaster a b < 0 ↔ a.rank < b.rank := by
  unfold compareMaster rank
  rw [Prod.Lex.lt_iff]
  simp only [ofLex_toLex]
  split_ifs with h
  · have := compare32_eq_zero.mp h
    rw [compare32_neg]
    omega
  · have hne := mt compare32_eq_zero.mpr h
    rw [compare32_neg]
    omega

theorem compareMaster_eq_zero {a b : ElectionState} : compareMaster a b = 0 ↔ a.rank = b.rank := by
  unfold compareMaster rank
  rw [toLex_inj, Prod.mk.injEq]
  split_ifs with h
  · have := compare32_eq_zero.mp h
    rw [compare32_eq_zero]
    omega
  · have hne := mt compare32_eq_zero.mpr h
    exact ⟨fun h0 => absurd h0 h, fun h0 => absurd h0.1 hne⟩

/-- A peer that the node of this address may hang from. -/
structure Candidate (addr : EtherAddr) (peer : Peer) : Prop where
  valid : peer.isValid = true
  height : (peer.election.height + 1).toNat ≤ 10
  parent : peer.election.syncAddr ≠ addr

theorem key_lt {a b : ElectionState} : a.key < b.key ↔ a.rank < b.rank ∨
    (a.rank = b.rank ∧ (b.height.toNat < a.height.toNat ∨
      (a.height.toNat = b.height.toNat ∧ a.selfAddr < b.selfAddr))) :=
  TreeElection.key_lt

/-- The loop keeps the better of the two. -/
theorem visit_eq (state master : ElectionState) (peer : Peer) :
    (Candidate state.selfAddr peer ∧ master.key < peer.election.key ∧
        visit state master peer = peer.election) ∨
      (¬ (Candidate state.selfAddr peer ∧ master.key < peer.election.key) ∧
        visit state master peer = master) := by
  have hkey : master.key < peer.election.key ↔ _ := key_lt
  by_cases hacc : Candidate state.selfAddr peer
  · have hv : ¬ (!peer.isValid) = true := by simp [hacc.valid]
    have hh : ¬ peer.election.height + 1 > electionTreeMaxHeight := by
      intro h
      have := UInt32.lt_iff_toNat_lt.mp h
      have := hacc.height
      simp only [electionTreeMaxHeight, UInt32.reduceToNat] at *
      omega
    have hs : ¬ peer.election.isSyncMaster state.selfAddr = true := fun h =>
      hacc.parent (compareEtherAddr_eq_zero.mp (of_decide_eq_true h))
    simp only [visit, hv, hh, hs, if_false]
    rcases lt_trichotomy peer.election.rank master.rank with hr | hr | hr
    · refine .inr ⟨fun h => ?_, if_pos (compareMaster_neg.mpr hr)⟩
      rcases hkey.mp h.2 with h | ⟨h, -⟩
      · exact lt_asymm h hr
      · exact absurd h hr.ne'
    · have hn : ¬ compareMaster peer.election master < 0 := fun h => (compareMaster_neg.mp h).ne hr
      rw [if_neg hn, if_pos (compareMaster_eq_zero.mpr hr)]
      rw [← hr] at hkey
      simp only [lt_irrefl, false_or, true_and] at hkey
      rcases lt_trichotomy peer.election.height.toNat master.height.toNat with ht | ht | ht
      · have hg : ¬ peer.election.height > master.height := fun h => by
          have := UInt32.lt_iff_toNat_lt.mp h
          omega
        have he : peer.election.height ≠ master.height := fun h => ht.ne (congrArg UInt32.toNat h)
        rw [if_neg hg, if_neg he]
        exact .inl ⟨hacc, hkey.mpr (.inl ht), rfl⟩
      · have he : peer.election.height = master.height := UInt32.toNat_inj.mp ht
        have hg : ¬ peer.election.height > master.height := by
          rw [he]
          exact UInt32.lt_irrefl _
        rw [if_neg hg, if_pos he]
        by_cases ha : compareEtherAddr peer.election.selfAddr master.selfAddr ≤ 0
        · rw [if_pos ha]
          refine .inr ⟨fun h => ?_, rfl⟩
          rcases hkey.mp h.2 with h | ⟨-, h⟩
          · omega
          · exact absurd (compareEtherAddr_pos.mpr h) (by omega)
        · rw [if_neg ha]
          exact .inl ⟨hacc, hkey.mpr (.inr ⟨ht.symm, compareEtherAddr_pos.mp (by omega)⟩), rfl⟩
      · rw [if_pos (UInt32.lt_iff_toNat_lt.mpr ht)]
        refine .inr ⟨fun h => ?_, rfl⟩
        rcases hkey.mp h.2 with h | ⟨h, -⟩ <;> omega
    · have hn : ¬ compareMaster peer.election master < 0 := fun h => lt_asymm hr (compareMaster_neg.mp h)
      have hz : ¬ compareMaster peer.election master = 0 := fun h => hr.ne' (compareMaster_eq_zero.mp h)
      rw [if_neg hn, if_neg hz]
      exact .inl ⟨hacc, hkey.mpr (.inl hr), rfl⟩
  · refine .inr ⟨fun h => hacc h.1, ?_⟩
    unfold visit
    split_ifs with hv hh hs <;> try rfl
    all_goals
      exfalso
      refine hacc ⟨by simpa using hv, ?_, fun h => hs (decide_eq_true (compareEtherAddr_eq_zero.mpr h))⟩
      have := mt UInt32.lt_iff_toNat_lt.mpr hh
      simp only [electionTreeMaxHeight, UInt32.reduceToNat] at this
      omega

/-- The best of the peers that may be accepted and the state the loop starts from. -/
theorem foldl_visit (state : ElectionState) (peers : List Peer) (master : ElectionState) :
    (peers.foldl state.visit master = master ∨ ∃ p ∈ peers, Candidate state.selfAddr p ∧
        master.key < p.election.key ∧ peers.foldl state.visit master = p.election) ∧
      master.key ≤ (peers.foldl state.visit master).key ∧
      ∀ p ∈ peers, Candidate state.selfAddr p → p.election.key ≤ (peers.foldl state.visit master).key := by
  induction peers generalizing master with
  | nil => exact ⟨.inl rfl, le_rfl, fun p hp => absurd hp List.not_mem_nil⟩
  | cons q peers ih =>
    rw [List.foldl_cons]
    rcases visit_eq state master q with ⟨hacc, hlt, he⟩ | ⟨hrej, he⟩
    · rw [he]
      obtain ⟨hfrom, hle, hmax⟩ := ih q.election
      refine ⟨.inr ?_, hlt.le.trans hle, fun p hp hp' => ?_⟩
      · rcases hfrom with h | ⟨p, hp, hpa, hpl, h⟩
        · exact ⟨q, List.mem_cons_self, hacc, hlt, h⟩
        · exact ⟨p, List.mem_cons_of_mem q hp, hpa, hlt.trans hpl, h⟩
      · rcases List.mem_cons.mp hp with rfl | hp
        · exact hle
        · exact hmax p hp hp'
    · rw [he]
      obtain ⟨hfrom, hle, hmax⟩ := ih master
      refine ⟨?_, hle, fun p hp hp' => ?_⟩
      · rcases hfrom with h | ⟨p, hp, hpa, hpl, h⟩
        · exact .inl h
        · exact .inr ⟨p, List.mem_cons_of_mem q hp, hpa, hpl, h⟩
      · rcases List.mem_cons.mp hp with rfl | hp
        · exact (not_lt.mp fun hlt => hrej ⟨hp', hlt⟩).trans hle
        · exact hmax p hp hp'

end ElectionState

/-- A node that accepts no peer is its own root; else it hangs from the best peer it may accept. -/
theorem electionRun_cases (state : ElectionState) (peers : List Peer) :
    (electionRun state peers = state.resetSelf ∧
        ∀ p ∈ peers, Candidate state.selfAddr p → p.election.key ≤ state.resetSelf.key) ∨
      ∃ p ∈ peers, Candidate state.selfAddr p ∧ state.resetSelf.key < p.election.key ∧
        (∀ q ∈ peers, Candidate state.selfAddr q → q.election.key ≤ p.election.key) ∧
        electionRun state peers = state.resetSelf.adopt p.election := by
  obtain ⟨hfrom, hle, hmax⟩ := foldl_visit state.resetSelf peers state.resetSelf
  rcases hfrom with h | ⟨p, hp, hpa, hpl, h⟩
  · rw [h] at hmax
    exact .inl ⟨if_pos h, hmax⟩
  · have hne : peers.foldl state.resetSelf.visit state.resetSelf ≠ state.resetSelf := by
      rw [h]
      exact fun he => hpl.ne (congrArg key he).symm
    refine .inr ⟨p, hp, hpa, hpl, ?_, ?_⟩
    · rwa [h] at hmax
    · rw [← h]
      exact if_neg hne

/-- **The election is a choice of the best**, which the order of the table has no part in: the node
hangs from the best of all the peers it may accept, and is its own root if none is better than itself. -/
theorem electionRun_best (state : ElectionState) (peers peers' : Peers)
    (hsame : ∀ p, p ∈ peers.list ↔ p ∈ peers'.list) :
    electionRun state peers.list = electionRun state peers'.list ∧
      ((∀ p ∈ peers.list, Candidate state.selfAddr p → p.election.key ≤ state.resetSelf.key) →
        electionRun state peers.list = state.resetSelf) ∧
      ∀ p ∈ peers.list, Candidate state.selfAddr p → state.resetSelf.key < p.election.key →
        ∃ q ∈ peers.list, Candidate state.selfAddr q ∧ p.election.key ≤ q.election.key ∧
          electionRun state peers.list = state.resetSelf.adopt q.election := by
  refine ⟨?_, fun hmax => ?_, fun p hp hpa hlt => ?_⟩
  · rcases electionRun_cases state peers.list with ⟨he, hmax⟩ | ⟨p, hp, hpa, hpl, hmax, he⟩
    · rcases electionRun_cases state peers'.list with ⟨he', -⟩ | ⟨q, hq, hqa, hql, -, -⟩
      · rw [he, he']
      · exact absurd (hmax q ((hsame q).mpr hq) hqa) (not_le.mpr hql)
    · rcases electionRun_cases state peers'.list with ⟨-, hmax'⟩ | ⟨q, hq, hqa, hql, hmax', he'⟩
      · exact absurd (hmax' p ((hsame p).mp hp) hpa) (not_le.mpr hpl)
      · have hkey := le_antisymm (hmax' p ((hsame p).mp hp) hpa) (hmax q ((hsame q).mpr hq) hqa)
        have haddr : p.addr = q.addr := by
          rw [← p.own, ← q.own]
          exact congrArg (fun k => (ofLex (ofLex k).2).2) hkey
        have hpq : some p = some q := by
          rw [← Peers.get_eq_some.mpr ⟨hp, haddr⟩, ← Peers.get_eq_some.mpr ⟨(hsame q).mpr hq, rfl⟩]
        rw [he, he', Option.some.inj hpq]
  · rcases electionRun_cases state peers.list with ⟨he, -⟩ | ⟨p, hp, hpa, hpl, -, -⟩
    · exact he
    · exact absurd (hmax p hp hpa) (not_le.mpr hpl)
  · rcases electionRun_cases state peers.list with ⟨-, hmax⟩ | ⟨q, hq, hqa, -, hmax, he⟩
    · exact absurd (hmax p hp hpa) (not_le.mpr hlt)
    · exact ⟨q, hq, hqa, hmax p hp hpa, he⟩

theorem electionRun_best_swap :
    let p : Peer := { peerNew ⟨[2, 0, 0, 0, 0, 1], rfl⟩ with isValid := true }
    let q : Peer := { peerNew ⟨[2, 0, 0, 0, 0, 3], rfl⟩ with isValid := true }
    electionRun (electionStateInit ⟨[2, 0, 0, 0, 0, 2], rfl⟩) [p, q] =
      electionRun (electionStateInit ⟨[2, 0, 0, 0, 0, 2], rfl⟩) [q, p] := by
  intro p q
  exact (electionRun_best _ ⟨[p, q], by decide⟩ ⟨[q, p], by decide⟩
    fun _ => (List.Perm.swap q p []).mem_iff).1

/-! ### The election as a rule of the tree -/

/-- What a table tells of the node of an address: the claim of a valid peer. -/
def claims (peers : Peers) (u : EtherAddr) : Option (TreeElection (ℕ ×ₗ ℕ) EtherAddr) :=
  (peers.get u).bind fun p => if p.isValid then some p.election.claim else none

theorem claims_eq_some {peers : Peers} {u : EtherAddr} {c : TreeElection (ℕ ×ₗ ℕ) EtherAddr} :
    claims peers u = some c ↔
      ∃ p ∈ peers.list, p.addr = u ∧ p.isValid = true ∧ p.election.claim = c := by
  simp only [claims, Option.bind_eq_some_iff, Peers.get_eq_some, Option.ite_none_right_eq_some,
    Option.some.injEq]
  constructor
  · rintro ⟨p, ⟨hp, hu⟩, hv, hc⟩
    exact ⟨p, hp, hu, hv, hc⟩
  · rintro ⟨p, hp, hu, hv, hc⟩
    exact ⟨p, ⟨hp, hu⟩, hv, hc⟩

/-- One run of the election, on the claims of the table. -/
def Elected (ρ : EtherAddr → ℕ ×ₗ ℕ) (v : EtherAddr)
    (T : EtherAddr → Option (TreeElection (ℕ ×ₗ ℕ) EtherAddr))
    (c : TreeElection (ℕ ×ₗ ℕ) EtherAddr) : Prop :=
  ∃ (state : ElectionState) (peers : Peers), state.selfAddr = v ∧ state.selfRank = ρ v ∧
    T = claims peers ∧ c = (electionRun state peers.list).claim

/-- The code's election is a rule of the tree with the limit 10, whatever the heights of the claims:
one that wraps makes the node a false root, and is gone at the next election. -/
theorem elected_rule (ρ : EtherAddr → ℕ ×ₗ ℕ) : TreeElection.Rule ρ 10 (Elected ρ) where
  height := by
    rintro v T c ⟨state, peers, rfl, -, -, rfl⟩
    rcases electionRun_cases state peers.list with ⟨he, -⟩ | ⟨p, -, hpa, -, -, he⟩
    · rw [he]
      exact Nat.zero_le 10
    · rw [he]
      exact hpa.height
  elects := by
    rintro v T c ⟨state, peers, rfl, hρ, rfl, rfl⟩ hT
    have hoff : ∀ u c, TreeElection.Offer 10 (claims peers) state.selfAddr u c →
        ∃ p ∈ peers.list, p.addr = u ∧ Candidate state.selfAddr p ∧ p.election.claim = c := by
      rintro u c ⟨hc, hh, hp⟩
      obtain ⟨p, hp', hu, hv, rfl⟩ := claims_eq_some.mp hc
      refine ⟨p, hp', hu, ⟨hv, ?_, hp⟩, rfl⟩
      have hlt : p.election.height.toNat < 10 := hh
      rw [UInt32.toNat_add, UInt32.toNat_one]
      omega
    have hoff' : ∀ p ∈ peers.list, Candidate state.selfAddr p →
        TreeElection.Offer 10 (claims peers) state.selfAddr p.addr p.election.claim := by
      intro p hp hpa
      have hc := claims_eq_some.mpr ⟨p, hp, rfl, hpa.valid, rfl⟩
      have hle : p.election.height.toNat ≤ 10 := hT _ _ hc
      refine ⟨hc, ?_, hpa.parent⟩
      have := hpa.height
      rw [UInt32.toNat_add, UInt32.toNat_one] at this
      show p.election.height.toNat < 10
      omega
    have hown : state.resetSelf.claim = TreeElection.alone ρ state.selfAddr := by
      show (⟨state.selfRank, state.selfAddr, state.selfAddr, 0⟩ : TreeElection _ _) = _
      rw [hρ]
      rfl
    have hkey : ∀ p : Peer, p.election.key = TreeElection.key p.addr p.election.claim := fun p => by
      rw [key, p.own]
    have hself : state.resetSelf.key =
        TreeElection.key state.selfAddr (TreeElection.alone ρ state.selfAddr) := by
      rw [key, hown]
      rfl
    rcases electionRun_cases state peers.list with ⟨he, hmax⟩ | ⟨p, hp, hpa, hpl, hmax, he⟩
    · rw [he, hown]
      refine .alone fun u c ho => ?_
      obtain ⟨q, hq, rfl, hqa, rfl⟩ := hoff u c ho
      rw [← hkey, ← hself]
      exact hmax q hq hqa
    · have hc : (electionRun state peers.list).claim = TreeElection.below p.addr p.election.claim := by
        have hh : (p.election.height + 1).toNat = p.election.height.toNat + 1 := by
          have hle : p.election.height.toNat ≤ 10 := hT _ _ (hoff' p hp hpa).heard
          rw [UInt32.toNat_add, UInt32.toNat_one]
          omega
        rw [he, ← p.own]
        exact congrArg (TreeElection.mk _ _ _) hh
      rw [hc]
      refine .below (hoff' p hp hpa) (by rwa [← hself, ← hkey]) fun w d ho => ?_
      obtain ⟨q, hq, rfl, hqa, rfl⟩ := hoff w d ho
      rw [← hkey, ← hkey]
      exact hmax q hq hqa

end AquaTransport.Awdl
