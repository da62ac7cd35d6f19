import AquaTransport.Awdl.State
import AquaTransport.Lib.Run

/-!
# AquaTransport.Awdl.Peers — peers.c

The hash table under the peers is `AquaTransport.Awdl.Hashmap`; here the table is the list of its
entries.  An entry is put only where there is none, and the daemon's callbacks are called when a peer
turns valid and when a valid one is removed: `Mirrors` says that they always match.
-/

namespace AquaTransport.Awdl

inductive PeersStatus
  | update
  | ok
  | missing
  | internal
deriving DecidableEq

/-- `awdl_peer_is_valid`. -/
def peerIsValid (peer : Peer) : Bool := peer.sentMif && peer.devclass != 0 && peer.version != 0

namespace Peers

/-- `hashmap_put` of a peer that has no entry. -/
def put (peers : Peers) (peer : Peer) (h : peers.get peer.addr = none) : Peers where
  list := peers.list ++ [peer]
  nodup := by
    rw [List.map_append, List.nodup_append]
    refine ⟨peers.nodup, List.nodup_singleton _, ?_⟩
    rintro a ha b hb rfl
    obtain ⟨q, hq, rfl⟩ := List.mem_map.mp ha
    exact get_eq_none.mp h q hq (by simpa using hb)

/-- The entry of the peer's address, written through a pointer to it. -/
def set (peers : Peers) (peer : Peer) : Peers where
  list := peers.list.map fun p => if p.addr = peer.addr then peer else p
  nodup := by
    have hmap : (peers.list.map fun p => if p.addr = peer.addr then peer else p).map Peer.addr =
        peers.list.map Peer.addr := by
      rw [List.map_map]
      refine List.map_congr_left fun p _ => ?_
      by_cases h : p.addr = peer.addr <;> simp [h]
    rw [hmap]
    exact peers.nodup

def filter (peers : Peers) (f : Peer → Bool) : Peers where
  list := peers.list.filter f
  nodup := peers.nodup.sublist (List.filter_sublist.map _)

theorem get_put {peers : Peers} {peer : Peer} {h : peers.get peer.addr = none} (a : EtherAddr) :
    (peers.put peer h).get a = if peer.addr = a then some peer else peers.get a := by
  by_cases ha : peer.addr = a
  · rw [if_pos ha]
    exact get_eq_some.mpr ⟨List.mem_append_right _ List.mem_cons_self, ha⟩
  · rw [if_neg ha, put, get, List.find?_append]
    simp [ha, get]

theorem get_set {peers : Peers} {peer : Peer} (a : EtherAddr) :
    (peers.set peer).get a = if peer.addr = a then (peers.get a).map fun _ => peer else peers.get a := by
  cases h : peers.get a with
  | none =>
    rw [Option.map_none, ite_self]
    refine get_eq_none.mpr fun p hp => ?_
    obtain ⟨q, hq, rfl⟩ := List.mem_map.mp hp
    have hne := get_eq_none.mp h q hq
    by_cases hqa : q.addr = peer.addr
    · rw [if_pos hqa, ← hqa]
      exact hne
    · rw [if_neg hqa]
      exact hne
  | some p =>
    obtain ⟨hp, rfl⟩ := get_eq_some.mp h
    have hmem := List.mem_map_of_mem (f := fun p => if p.addr = peer.addr then peer else p) hp
    by_cases hpa : peer.addr = p.addr
    · rw [if_pos hpa, Option.map_some]
      rw [if_pos hpa.symm] at hmem
      exact get_eq_some.mpr ⟨hmem, hpa⟩
    · rw [if_neg hpa]
      rw [if_neg fun he => hpa he.symm] at hmem
      exact get_eq_some.mpr ⟨hmem, rfl⟩

theorem get_filter {peers : Peers} {f : Peer → Bool} (a : EtherAddr) :
    (peers.filter f).get a = (peers.get a).filter f := by
  cases h : peers.get a with
  | none =>
    refine get_eq_none.mpr fun p hp => ?_
    exact get_eq_none.mp h p (List.mem_filter.mp hp).1
  | some p =>
    obtain ⟨hp, rfl⟩ := get_eq_some.mp h
    by_cases hf : f p
    · rw [Option.filter_some, if_pos hf]
      exact get_eq_some.mpr ⟨List.mem_filter.mpr ⟨hp, hf⟩, rfl⟩
    · rw [Option.filter_some, if_neg hf]
      refine get_eq_none.mpr fun q hq he => ?_
      obtain ⟨hq, hfq⟩ := List.mem_filter.mp hq
      have hqp : some q = some p := by rw [← h, ← get_eq_some.mpr ⟨hq, he⟩]
      exact hf (Option.some.inj hqp ▸ hfq)

end Peers

/-- The peer, heard now. -/
def Peer.heardAt (peer : Peer) (now : UInt64) : Peer := { peer with lastUpdate := now, own := peer.own }

def Peer.turnValid (peer : Peer) : Peer := { peer with isValid := true, own := peer.own }

@[simp] theorem Peer.addr_heardAt (peer : Peer) (now : UInt64) : (peer.heardAt now).addr = peer.addr := rfl
@[simp] theorem Peer.isValid_heardAt (peer : Peer) (now : UInt64) :
    (peer.heardAt now).isValid = peer.isValid := rfl
@[simp] theorem Peer.addr_turnValid (peer : Peer) : peer.turnValid.addr = peer.addr := rfl
@[simp] theorem Peer.isValid_turnValid (peer : Peer) : peer.turnValid.isValid = true := rfl
@[simp] theorem addr_peerNew (addr : EtherAddr) : (peerNew addr).addr = addr := rfl

/-- `awdl_peer_add`: the peer of the address, new or known, is of now; the callback hears of one that
has just turned valid. -/
def peerAdd (peers : Peers) (addr : EtherAddr) (now : UInt64) :
    PeersStatus × Peers × List NeighborCall :=
  match h : peers.get addr with
  | none => (.ok, peers.put ((peerNew addr).heardAt now) (by simpa using h), [])
  | some peer =>
    if !peer.isValid && peerIsValid peer then
      (.update, peers.set (peer.heardAt now).turnValid, [.add peer.addr])
    else (.update, peers.set (peer.heardAt now), [])

/-- The entry that `awdl_peer_add` leaves. -/
def refreshed (old : Option Peer) (addr : EtherAddr) (now : UInt64) : Peer :=
  match old with
  | none => (peerNew addr).heardAt now
  | some peer =>
    if !peer.isValid && peerIsValid peer then (peer.heardAt now).turnValid else peer.heardAt now

theorem refreshed_some (peer : Peer) (addr : EtherAddr) (now : UInt64) : refreshed (some peer) addr now =
    { peer with lastUpdate := now, isValid := peer.isValid || peerIsValid peer, own := peer.own } := by
  rw [refreshed]
  by_cases h : (!peer.isValid && peerIsValid peer) = true
  · have hv : (peer.isValid || peerIsValid peer) = true := by
      simp only [Bool.and_eq_true] at h
      rw [h.2, Bool.or_true]
    rw [if_pos h, hv]
    rfl
  · have hv : (peer.isValid || peerIsValid peer) = peer.isValid := by
      revert h
      cases peer.isValid <;> simp
    rw [if_neg h, hv]
    rfl

theorem get_peerAdd (peers : Peers) (addr : EtherAddr) (now : UInt64) (a : EtherAddr) :
    (peerAdd peers addr now).2.1.get a =
      if addr = a then some (refreshed (peers.get addr) addr now) else peers.get a := by
  unfold peerAdd
  split
  · rename_i hnone
    have hnew : refreshed (peers.get addr) addr now = (peerNew addr).heardAt now := by rw [hnone, refreshed]
    rw [hnew]
    exact @Peers.get_put peers ((peerNew addr).heardAt now) hnone a
  · rename_i peer hget
    have hset : ∀ q : Peer, q.addr = addr →
        (peers.set q).get a = if addr = a then some q else peers.get a := by
      rintro q rfl
      rw [Peers.get_set]
      by_cases ha : q.addr = a
      · rw [if_pos ha, if_pos ha, ← ha, hget, Option.map_some]
      · rw [if_neg ha, if_neg ha]
    have haddr : peer.addr = addr := (Peers.get_eq_some.mp hget).2
    rw [hget, refreshed]
    split
    · exact hset _ haddr
    · exact hset _ haddr

theorem calls_peerAdd (peers : Peers) (addr : EtherAddr) (now : UInt64) :
    (peerAdd peers addr now).2.2 = match peers.get addr with
      | none => []
      | some peer => if !peer.isValid && peerIsValid peer then [.add addr] else [] := by
  unfold peerAdd
  split
  · rename_i hnone
    simp [hnone]
  · rename_i peer hget
    have haddr : peer.addr = addr := (Peers.get_eq_some.mp hget).2
    simp only [hget, haddr]
    split <;> rfl

/-- `awdl_peer_remove`. -/
def peerRemove (peers : Peers) (addr : EtherAddr) : PeersStatus × Peers × List NeighborCall :=
  match peers.get addr with
  | none => (.missing, peers, [])
  | some peer =>
    (.ok, peers.filter (·.addr ≠ addr), if peer.isValid then [.remove addr] else [])

/-- `awdl_peers_remove`: the peers last heard before a moment are removed, one after another. -/
def peersRemove (peers : Peers) (before : UInt64) : Peers × List NeighborCall :=
  (peers.filter fun p => ¬ p.lastUpdate < before,
    ((peers.list.filter fun p => p.lastUpdate < before ∧ p.isValid).map fun p =>
      NeighborCall.remove p.addr).reverse)

/-! ### The callbacks -/

/-- Whether the last call about the address, the newest first, added it. -/
def isAdded : List NeighborCall → EtherAddr → Bool
  | [], _ => false
  | .add b :: past, a => if b = a then true else isAdded past a
  | .remove b :: past, a => if b = a then false else isAdded past a

/-- A neighbour is added when it is not there, and removed when it is. -/
def Turn (past : List NeighborCall) : NeighborCall → Prop
  | .add a => isAdded past a = false
  | .remove a => isAdded past a = true

/-- The neighbours added and not removed are the valid peers, and none was added or removed twice in a
row. -/
structure Mirrors (calls : List NeighborCall) (peers : Peers) : Prop where
  turns : Along Turn calls
  added : ∀ a, isAdded calls a = true ↔ ∃ p, peers.get a = some p ∧ p.isValid = true

/-- Removing neighbours that are there, each once. -/
theorem removed {calls : List NeighborCall} {as : List EtherAddr} (h : Along Turn calls)
    (hnodup : as.Nodup) (hadded : ∀ a ∈ as, isAdded calls a = true) :
    Along Turn ((as.map NeighborCall.remove).reverse ++ calls) ∧
      ∀ a, isAdded ((as.map NeighborCall.remove).reverse ++ calls) a = true ↔
        isAdded calls a = true ∧ a ∉ as := by
  induction as generalizing calls with
  | nil => exact ⟨h, fun a => by simp⟩
  | cons b as ih =>
    obtain ⟨hb, hnodup⟩ := List.nodup_cons.mp hnodup
    have hadd : ∀ a, isAdded (.remove b :: calls) a = true ↔ isAdded calls a = true ∧ a ≠ b := by
      intro a
      by_cases ha : b = a
      · simp [isAdded, ha]
      · have ha' : a ≠ b := fun he => ha he.symm
        simp [isAdded, ha, ha']
    obtain ⟨hturn, hiff⟩ := @ih (.remove b :: calls) ⟨hadded b List.mem_cons_self, h⟩ hnodup
      fun a ha => (hadd a).mpr ⟨hadded a (List.mem_cons_of_mem b ha), fun he => hb (he ▸ ha)⟩
    rw [List.map_cons, List.reverse_cons, List.append_assoc, List.singleton_append]
    refine ⟨hturn, fun a => ?_⟩
    rw [hiff, hadd, List.mem_cons, not_or, and_assoc]

theorem Mirrors.peersRemove {calls : List NeighborCall} {peers : Peers} (h : Mirrors calls peers)
    (before : UInt64) :
    Mirrors ((peersRemove peers before).2 ++ calls) (peersRemove peers before).1 := by
  set gone := (peers.list.filter fun p => p.lastUpdate < before ∧ p.isValid).map Peer.addr with hgone
  have hcalls : (Awdl.peersRemove peers before).2 = (gone.map NeighborCall.remove).reverse := by
    rw [hgone, List.map_map]
    rfl
  have hmem : ∀ a, a ∈ gone ↔ ∃ p, peers.get a = some p ∧ p.lastUpdate < before ∧ p.isValid = true := by
    intro a
    simp only [hgone, List.mem_map, List.mem_filter, decide_eq_true_eq, Peers.get_eq_some]
    constructor
    · rintro ⟨p, ⟨hp, hpb⟩, rfl⟩
      exact ⟨p, ⟨hp, rfl⟩, hpb⟩
    · rintro ⟨p, ⟨hp, rfl⟩, hpb⟩
      exact ⟨p, ⟨hp, hpb⟩, rfl⟩
  have hnodup : gone.Nodup := peers.nodup.sublist (List.filter_sublist.map _)
  obtain ⟨hturn, hiff⟩ := removed h.turns hnodup fun a ha => (h.added a).mpr (by
    obtain ⟨p, hp, -, hv⟩ := (hmem a).mp ha
    exact ⟨p, hp, hv⟩)
  rw [hcalls]
  refine ⟨hturn, fun a => ?_⟩
  rw [hiff, h.added, hmem]
  show _ ↔ ∃ p, (peers.filter fun p => ¬ p.lastUpdate < before).get a = some p ∧ _
  rw [Peers.get_filter]
  cases hget : peers.get a with
  | none => simp
  | some p =>
    by_cases hb : p.lastUpdate < before
    · simp [hb]
    · simp [hb, UInt64.not_lt.mp hb]

theorem Mirrors.set {calls : List NeighborCall} {peers : Peers} {p q : Peer} (h : Mirrors calls peers)
    (hp : peers.get q.addr = some p) (hv : q.isValid = p.isValid) : Mirrors calls (peers.set q) where
  turns := h.turns
  added := by
    intro a
    rw [h.added, Peers.get_set]
    by_cases ha : q.addr = a
    · subst ha
      simp [hp, hv]
    · rw [if_neg ha]

theorem Mirrors.peerAdd {calls : List NeighborCall} {peers : Peers} (h : Mirrors calls peers)
    (addr : EtherAddr) (now : UInt64) :
    Mirrors ((peerAdd peers addr now).2.2 ++ calls) (peerAdd peers addr now).2.1 := by
  have hentry : ∀ a, (∃ p, (Awdl.peerAdd peers addr now).2.1.get a = some p ∧ p.isValid = true) ↔
      if addr = a then (refreshed (peers.get addr) addr now).isValid = true
      else isAdded calls a = true := by
    intro a
    rw [get_peerAdd, h.added]
    by_cases ha : addr = a <;> simp [ha]
  have hcalls := calls_peerAdd peers addr now
  cases hget : peers.get addr with
  | none =>
    rw [hget] at hcalls
    rw [hcalls]
    refine ⟨h.turns, fun a => ?_⟩
    rw [List.nil_append, hentry, hget]
    by_cases ha : addr = a
    · subst ha
      rw [if_pos rfl, h.added, hget]
      simp [refreshed, peerNew]
    · rw [if_neg ha]
  | some peer =>
    rw [hget] at hcalls
    by_cases hturn : (!peer.isValid && peerIsValid peer) = true
    · simp only [hturn, if_true] at hcalls
      rw [hcalls]
      have hnot : isAdded calls addr = false := by
        simp only [Bool.and_eq_true, Bool.not_eq_true'] at hturn
        rw [Bool.eq_false_iff, ne_eq, h.added, hget]
        simp [hturn.1]
      refine ⟨⟨hnot, h.turns⟩, fun a => ?_⟩
      rw [hentry, List.singleton_append, isAdded]
      by_cases ha : addr = a
      · rw [if_pos ha, if_pos ha, hget, refreshed, if_pos hturn]
        simp
      · rw [if_neg ha, if_neg ha]
    · simp only [hturn] at hcalls
      rw [hcalls]
      refine ⟨h.turns, fun a => ?_⟩
      rw [hentry, if_neg Bool.false_ne_true, List.nil_append]
      by_cases ha : addr = a
      · subst ha
        rw [if_pos rfl, h.added, hget, refreshed, if_neg hturn]
        simp
      · rw [if_neg ha]

end AquaTransport.Awdl
