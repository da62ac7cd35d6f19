import AquaTransport.Awdl.Hashmap
import AquaTransport.Awdl.Peers

/-!
# AquaTransport.Awdl.PeerTable — peers.c on top of hashmap.c

The functions of peers.c as they are, on the hash table.  `table_refines`: they do to it what those of
`AquaTransport.Awdl.Peers` do to the list of its entries, in any order of calls, as long as there is
memory.  They put an entry only where `hashmap_get` has found none; this is what makes it right.
-/

namespace AquaTransport.Awdl

abbrev PeerTable := Hashmap EtherAddr Peer

/-- A call of peers.c, or what is done through a pointer to a peer that it has given. -/
inductive PeersCall
  | get (addr : EtherAddr)
  | add (addr : EtherAddr) (now : UInt64)
  | remove (addr : EtherAddr)
  | removeBefore (before : UInt64)
  | write (peer : Peer)
  | length

/-- What it returns, and what the callbacks are called with. -/
structure PeersAnswer where
  status : PeersStatus := .ok
  peer : Option Peer := none
  length : ℕ := 0
  calls : List NeighborCall := []

/-- The call on the list of the entries. -/
def Peers.call (peers : Peers) : PeersCall → PeersAnswer × Peers
  | .get addr =>
    match peers.get addr with
    | some peer => ({ peer := some peer }, peers)
    | none => ({ status := .missing }, peers)
  | .add addr now =>
    let (status, peers, calls) := peerAdd peers addr now
    ({ status := status, calls := calls }, peers)
  | .remove addr =>
    let (status, peers, calls) := peerRemove peers addr
    ({ status := status, calls := calls }, peers)
  | .removeBefore before =>
    let (peers, calls) := peersRemove peers before
    ({ calls := calls }, peers)
  | .write peer => ({}, peers.set peer)
  | .length => ({ length := peers.list.length }, peers)

namespace PeerTable

section Calls

variable (hash : EtherAddr → ℕ) (calloc : ℕ → Bool) (fuel : ℕ)

/-- `awdl_peer_add`; without memory for it, the new peer is freed. -/
def add (m : PeerTable) (addr : EtherAddr) (now : UInt64) : Option (PeersAnswer × PeerTable) :=
  match m.get hash addr with
  | some peer =>
    let m := m.update hash addr fun p => p.heardAt now
    if !(peer.heardAt now).isValid && peerIsValid (peer.heardAt now) then
      some ({ status := .update, calls := [.add addr] }, m.update hash addr Peer.turnValid)
    else some ({ status := .update }, m)
  | none =>
    (m.put hash calloc fuel addr ((peerNew addr).heardAt now)).map fun (ok, m) =>
      ({ status := if ok then .ok else .internal }, m)

/-- `awdl_peer_remove`. -/
def remove (m : PeerTable) (addr : EtherAddr) : PeersAnswer × PeerTable :=
  match Hashmap.remove hash m addr with
  | (none, m) => ({ status := .missing }, m)
  | (some peer, m) => ({ calls := if peer.isValid then [.remove addr] else [] }, m)

/-- `awdl_peers_remove`. -/
def removeBefore (m : PeerTable) (before : UInt64) : PeersAnswer × PeerTable :=
  ({ calls := ((m.entries.filter fun e => e.2.lastUpdate < before ∧ e.2.isValid).map fun e =>
      NeighborCall.remove e.2.addr).reverse }, m.sweep fun p => ¬ p.lastUpdate < before)

def call (m : PeerTable) : PeersCall → Option (PeersAnswer × PeerTable)
  | .get addr =>
    match m.get hash addr with
    | some peer => some ({ peer := some peer }, m)
    | none => some ({ status := .missing }, m)
  | .add addr now => add hash calloc fuel m addr now
  | .remove addr => some (remove hash m addr)
  | .removeBefore before => some (removeBefore m before)
  | .write peer => some ({}, m.update hash peer.addr fun _ => peer)
  | .length => some ({ length := m.size }, m)

/-- Calls one after another. -/
def run (m : PeerTable) : List PeersCall → Option (List PeersAnswer × PeerTable)
  | [] => some ([], m)
  | c :: cs => do
    let (answer, m) ← call hash calloc fuel m c
    let (answers, m) ← run m cs
    some (answer :: answers, m)

end Calls

end PeerTable

def Peers.run (peers : Peers) : List PeersCall → List PeersAnswer × Peers
  | [] => ([], peers)
  | c :: cs =>
    let (answer, peers) := peers.call c
    let (answers, peers) := Peers.run peers cs
    (answer :: answers, peers)

namespace PeerTable

section Refines

variable {hash : EtherAddr → ℕ} {m : PeerTable} {peers : Peers}

/-- The table has the entries of the list, each under its address. -/
structure Represents (hash : EtherAddr → ℕ) (m : PeerTable) (peers : Peers) : Prop where
  ok : m.Ok hash
  large : 256 ≤ m.data.length
  entries : m.entries.Perm (peers.list.map fun p => (p.addr, p))

namespace Represents

variable (h : Represents hash m peers)

include h

theorem get (addr : EtherAddr) : m.get hash addr = peers.get addr := by
  refine Option.ext fun p => ?_
  rw [h.ok.get_eq_some, h.entries.mem_iff, Peers.get_eq_some, List.mem_map]
  constructor
  · rintro ⟨q, hq, he⟩
    obtain ⟨rfl, rfl⟩ := Prod.mk.inj he
    exact ⟨hq, rfl⟩
  · rintro ⟨hp, rfl⟩
    exact ⟨p, hp, rfl⟩

theorem size : m.size = peers.list.length := by
  rw [h.ok.size, h.entries.length_eq, List.length_map]

theorem update (addr : EtherAddr) {f : Peer → Peer} {q : Peer} (hq : ∀ p, peers.get addr = some p → f p = q)
    (haddr : q.addr = addr) : Represents hash (m.update hash addr f) (peers.set q) := by
  obtain ⟨hok, hentries⟩ := h.ok.update addr f
  refine ⟨hok, (Hashmap.length_update hash m addr f).symm ▸ h.large, ?_⟩
  rw [hentries]
  refine (h.entries.map _).trans (List.Perm.of_eq ?_)
  rw [Peers.set, List.map_map, List.map_map]
  refine List.map_congr_left fun p hp => ?_
  by_cases hpa : p.addr = addr
  · simp [hpa, haddr, hq p (Peers.get_eq_some.mpr ⟨hp, hpa⟩)]
  · simp [hpa, haddr]

/-- A table of fewer entries, in as many slots. -/
theorem of_filter {m' : PeerTable} {f : EtherAddr × Peer → Bool} (hok : m'.Ok hash)
    (hlen : m'.data.length = m.data.length) (hperm : m'.entries.Perm (m.entries.filter f)) :
    Represents hash m' (peers.filter fun p => f (p.addr, p)) := by
  refine ⟨hok, hlen.symm ▸ h.large, hperm.trans ((h.entries.filter f).trans ?_)⟩
  rw [List.filter_map]
  exact List.Perm.refl _

theorem filter (f : Peer → Bool) : Represents hash (m.sweep f) (peers.filter f) := by
  obtain ⟨hok, hperm⟩ := h.ok.sweep f
  exact h.of_filter hok (Hashmap.length_sweep m f) hperm

theorem remove (addr : EtherAddr) :
    Represents hash (Hashmap.remove hash m addr).2 (peers.filter (·.addr ≠ addr)) := by
  obtain ⟨-, hok, hperm⟩ := h.ok.remove addr
  exact h.of_filter hok (Hashmap.length_remove hash m addr) hperm

theorem put {calloc : ℕ → Bool} {fuel : ℕ} {peer : Peer} {m' : PeerTable} (hnone : peers.get peer.addr = none)
    (hput : m.put hash calloc fuel peer.addr peer = some (true, m')) (hlarge : 256 ≤ m'.data.length) :
    Represents hash m' (peers.put peer hnone) := by
  have hkey : peer.addr ∉ m.entries.map Prod.fst := h.ok.get_eq_none.mp ((h.get peer.addr).trans hnone)
  obtain ⟨hok, hperm⟩ := Hashmap.put_spec calloc fuel m peer.addr peer true m' h.ok hkey hput
  refine ⟨hok, hlarge, hperm.trans ((h.entries.cons _).trans ?_)⟩
  rw [Peers.put, List.map_append]
  exact (List.perm_append_singleton _ _).symm

end Represents

/-- The same answer; the callbacks may be called in another order. -/
structure Same (a b : PeersAnswer) : Prop where
  status : a.status = b.status
  peer : a.peer = b.peer
  length : a.length = b.length
  calls : a.calls.Perm b.calls

theorem Same.refl (a : PeersAnswer) : Same a a := ⟨rfl, rfl, rfl, List.Perm.refl _⟩

variable {calloc : ℕ → Bool} {limit fuel : ℕ}

theorem set_set {p q : Peer} (h : p.addr = q.addr) : (peers.set p).set q = peers.set q := by
  have hlist : ((peers.set p).set q).list = (peers.set q).list := by
    show (peers.list.map fun r => if r.addr = p.addr then p else r).map
        (fun r => if r.addr = q.addr then q else r) =
      peers.list.map fun r => if r.addr = q.addr then q else r
    rw [List.map_map]
    refine List.map_congr_left fun r _ => ?_
    by_cases hr : r.addr = q.addr <;> simp [h, hr]
  generalize (peers.set p).set q = a at hlist
  generalize peers.set q = b at hlist
  obtain ⟨l, hl⟩ := a
  obtain rfl : l = b.list := hlist
  rfl

theorem peerAdd_known {addr : EtherAddr} {peer : Peer} (now : UInt64) (h : peers.get addr = some peer) :
    peerAdd peers addr now = if !peer.isValid && peerIsValid peer then
      (.update, peers.set (peer.heardAt now).turnValid, [.add peer.addr])
      else (.update, peers.set (peer.heardAt now), []) := by
  unfold peerAdd
  split
  · rename_i hnone
    exact absurd (hnone.symm.trans h) (by simp)
  · rename_i q hq
    obtain rfl := Option.some.inj (hq.symm.trans h)
    rfl

theorem peerAdd_new {addr : EtherAddr} (now : UInt64) (h : peers.get addr = none) :
    peerAdd peers addr now = (.ok, peers.put ((peerNew addr).heardAt now) h, []) := by
  unfold peerAdd
  split
  · rfl
  · rename_i q hq
    exact absurd (hq.symm.trans h) (by simp)

/-- `awdl_peer_add` of a peer that has an entry. -/
theorem add_known {addr : EtherAddr} {peer : Peer} (now : UInt64) (hlarge : 256 ≤ m.data.length)
    (hm : m.get hash addr = some peer) : ∃ answer m', add hash calloc fuel m addr now = some (answer, m') ∧
      256 ≤ m'.data.length ∧ ∀ peers, Represents hash m peers →
        Same answer (peers.call (.add addr now)).1 ∧ Represents hash m' (peers.call (.add addr now)).2 := by
  have hlarge' : 256 ≤ (m.update hash addr fun p => p.heardAt now).data.length :=
    (Hashmap.length_update hash m _ _).symm ▸ hlarge
  have hheard : ∀ peers, Represents hash m peers → peers.get addr = some peer ∧ peer.addr = addr ∧
      Represents hash (m.update hash addr fun p => p.heardAt now) (peers.set (peer.heardAt now)) := by
    intro peers h
    have hget : peers.get addr = some peer := (h.get addr).symm.trans hm
    have haddr := (Peers.get_eq_some.mp hget).2
    refine ⟨hget, haddr, h.update addr (fun p hp => ?_) haddr⟩
    rw [Option.some.inj (hp.symm.trans hget)]
  rw [add, hm]
  dsimp only
  by_cases hv : (!peer.isValid && peerIsValid peer) = true
  · refine ⟨_, _, if_pos hv, (Hashmap.length_update hash _ _ _).symm ▸ hlarge', fun peers h => ?_⟩
    obtain ⟨hget, haddr, hrep⟩ := hheard peers h
    rw [Peers.call, peerAdd_known now hget, if_pos hv]
    refine ⟨⟨rfl, rfl, rfl, haddr ▸ List.Perm.refl _⟩, ?_⟩
    have hset := hrep.update addr (f := Peer.turnValid) (q := (peer.heardAt now).turnValid)
      (fun p hp => ?_) haddr
    · have hsame := @set_set peers (peer.heardAt now) (peer.heardAt now).turnValid rfl
      rwa [hsame] at hset
    · rw [Peers.get_set, if_pos (show (peer.heardAt now).addr = addr from haddr), hget, Option.map_some] at hp
      rw [← Option.some.inj hp]
  · refine ⟨_, _, if_neg hv, hlarge', fun peers h => ?_⟩
    obtain ⟨hget, haddr, hrep⟩ := hheard peers h
    rw [Peers.call, peerAdd_known now hget, if_neg hv]
    exact ⟨.refl _, hrep⟩

/-- `awdl_peer_add` of a peer that has none. -/
theorem add_new {addr : EtherAddr} (now : UInt64) (hlarge : 256 ≤ m.data.length)
    (hcalloc : ∀ n, limit < n → calloc n = false) (hfuel : limit < 256 * 2 ^ fuel)
    (hm : m.get hash addr = none) : ∃ answer m', add hash calloc fuel m addr now = some (answer, m') ∧
      256 ≤ m'.data.length ∧ ∀ peers, Represents hash m peers → answer.status ≠ .internal →
        Same answer (peers.call (.add addr now)).1 ∧ Represents hash m' (peers.call (.add addr now)).2 := by
  obtain ⟨ok, m', hput, hlarge'⟩ := Hashmap.put_returns hcalloc (by decide : 0 < 256) hfuel m addr
    ((peerNew addr).heardAt now) hlarge
  refine ⟨_, m', by rw [add, hm, hput]; rfl, hlarge', fun peers h hstatus => ?_⟩
  cases ok with
  | false => exact absurd rfl hstatus
  | true =>
    have hnone : peers.get addr = none := (h.get addr).symm.trans hm
    rw [Peers.call, peerAdd_new now hnone]
    exact ⟨.refl _, h.put hnone hput hlarge'⟩

theorem Represents.remove_spec (h : Represents hash m peers) (addr : EtherAddr) :
    Same (PeerTable.remove hash m addr).1 (peers.call (.remove addr)).1 ∧
      Represents hash (PeerTable.remove hash m addr).2 (peers.call (.remove addr)).2 := by
  have hrep := h.remove addr
  have hval := (h.ok.remove addr).1.trans (h.get addr)
  rw [PeerTable.remove, Peers.call, peerRemove]
  generalize Hashmap.remove hash m addr = r at hrep hval ⊢
  obtain ⟨value, m'⟩ := r
  dsimp only at hrep hval
  subst hval
  cases hget : peers.get addr with
  | some peer => exact ⟨.refl _, hrep⟩
  | none =>
    refine ⟨.refl _, ?_⟩
    refine ⟨hrep.ok, hrep.large, hrep.entries.trans (List.Perm.of_eq ?_)⟩
    have hall : peers.list.filter (fun p => p.addr ≠ addr) = peers.list :=
      List.filter_eq_self.mpr fun p hp => decide_eq_true (Peers.get_eq_none.mp hget p hp)
    exact congrArg _ hall

/-- **Every call of peers.c does to the table what it does to the list.** -/
theorem call_spec (hlarge : 256 ≤ m.data.length) (hcalloc : ∀ n, limit < n → calloc n = false)
    (hfuel : limit < 256 * 2 ^ fuel) (c : PeersCall) :
    ∃ answer m', call hash calloc fuel m c = some (answer, m') ∧ 256 ≤ m'.data.length ∧
      ∀ peers, Represents hash m peers → answer.status ≠ .internal →
        Same answer (peers.call c).1 ∧ Represents hash m' (peers.call c).2 := by
  cases c with
  | get addr =>
    rw [call]
    cases hm : m.get hash addr
    -- found or not, what the list has under the address is the same
    all_goals
      refine ⟨_, _, rfl, hlarge, fun peers h _ => ?_⟩
      rw [h.get] at hm
      rw [Peers.call, hm]
      exact ⟨.refl _, h⟩
  | add addr now =>
    rw [call]
    cases hm : m.get hash addr with
    | some peer =>
      obtain ⟨answer, m', hadd, hlarge', hspec⟩ := add_known now hlarge hm
      exact ⟨answer, m', hadd, hlarge', fun peers h _ => hspec peers h⟩
    | none => exact add_new now hlarge hcalloc hfuel hm
  | remove addr =>
    refine ⟨_, _, rfl, ?_, fun peers h _ => h.remove_spec addr⟩
    have hlen : (remove hash m addr).2.data.length = (Hashmap.remove hash m addr).2.data.length := by
      rw [remove]
      split <;> rename_i he <;> rw [he]
    exact hlarge.trans_eq (hlen.trans (Hashmap.length_remove hash m addr)).symm
  | removeBefore before =>
    refine ⟨_, _, rfl, (Hashmap.length_sweep m _).symm ▸ hlarge,
      fun peers h _ => ⟨⟨rfl, rfl, rfl, ?_⟩, h.filter _⟩⟩
    refine (List.reverse_perm _).trans (List.Perm.trans ?_ (List.reverse_perm _).symm)
    refine ((h.entries.filter _).map _).trans (List.Perm.of_eq ?_)
    rw [List.filter_map, List.map_map]
    rfl
  | write peer =>
    refine ⟨_, _, rfl, (Hashmap.length_update hash m _ _).symm ▸ hlarge, fun peers h _ => ⟨.refl _, ?_⟩⟩
    exact h.update peer.addr (fun _ _ => rfl) rfl
  | length =>
    refine ⟨_, _, rfl, hlarge, fun peers h _ => ⟨⟨rfl, rfl, h.size, List.Perm.refl _⟩, h⟩⟩

theorem represents_new : Represents hash Hashmap.new ⟨[], List.nodup_nil⟩ where
  ok := Hashmap.ok_empty (Nat.succ_pos 255)
  large := List.length_replicate.ge
  entries := List.Perm.of_eq List.reduceOption_replicate_none

theorem run_spec (hcalloc : ∀ n, limit < n → calloc n = false) (hfuel : limit < 256 * 2 ^ fuel)
    (cs : List PeersCall) (hlarge : 256 ≤ m.data.length) :
    ∃ answers m', run hash calloc fuel m cs = some (answers, m') ∧ ∀ peers, Represents hash m peers →
      (∀ a ∈ answers, a.status ≠ .internal) →
        List.Forall₂ Same answers (Peers.run peers cs).1 ∧ Represents hash m' (Peers.run peers cs).2 := by
  induction cs generalizing m with
  | nil => exact ⟨[], m, rfl, fun peers h _ => ⟨.nil, h⟩⟩
  | cons c cs ih =>
    obtain ⟨answer, m₁, hcall, hlarge₁, hone⟩ := @call_spec hash m calloc limit fuel hlarge hcalloc hfuel c
    obtain ⟨answers, m', hrun, hall⟩ := ih hlarge₁
    refine ⟨answer :: answers, m', ?_, fun peers h hstatus => ?_⟩
    · simp only [run, hcall, hrun, Option.bind_eq_bind, Option.bind_some]
    obtain ⟨hsame, h₁⟩ := hone peers h (hstatus answer List.mem_cons_self)
    obtain ⟨hrest, h'⟩ := hall _ h₁ fun a ha => hstatus a (List.mem_cons_of_mem answer ha)
    exact ⟨.cons hsame hrest, h'⟩

/-- **The table is the list**: calls of peers.c return, and as long as none of them has found no memory
they return what they return of the list, and leave a table of its entries. -/
theorem table_refines (hash : EtherAddr → ℕ) (calloc : ℕ → Bool) {limit : ℕ}
    (hcalloc : ∀ n, limit < n → calloc n = false) (hfuel : limit < 256 * 2 ^ fuel) (cs : List PeersCall) :
    ∃ answers m, run hash calloc fuel Hashmap.new cs = some (answers, m) ∧
      ((∀ a ∈ answers, a.status ≠ .internal) →
        List.Forall₂ Same answers (Peers.run ⟨[], List.nodup_nil⟩ cs).1 ∧
          Represents hash m (Peers.run ⟨[], List.nodup_nil⟩ cs).2) := by
  obtain ⟨answers, m, hrun, hall⟩ := run_spec hcalloc hfuel cs (@represents_new hash).large
  exact ⟨answers, m, hrun, hall _ represents_new⟩

/-- Nine peers, of whom one is then removed and asked for. -/
def ninePeers : List PeersCall :=
  ((List.range 9).map fun i => .add ⟨[2, 0, 0, 0, 0, UInt8.ofNat i], rfl⟩ (UInt64.ofNat i)) ++
    [.remove ⟨[2, 0, 0, 0, 0, 3], rfl⟩, .get ⟨[2, 0, 0, 0, 0, 3], rfl⟩, .length]

/-- One chain of eight slots for all of them, and two of them in a table of twice the size. -/
def lastOctet (addr : EtherAddr) : ℕ := 256 * (addr.octets.getLastD 0).toNat

theorem table_refines_nine : ∃ answers m,
    run lastOctet (fun n => decide (n ≤ 512)) 2 Hashmap.new ninePeers = some (answers, m) ∧
      m.data.length = 512 ∧
      List.Forall₂ Same answers (Peers.run ⟨[], List.nodup_nil⟩ ninePeers).1 ∧
      Represents lastOctet m (Peers.run ⟨[], List.nodup_nil⟩ ninePeers).2 := by
  have hfuel : 512 < 256 * 2 ^ 2 := by decide
  obtain ⟨answers, m, hrun, hall⟩ := table_refines lastOctet (fun n => decide (n ≤ 512))
    (fun _ hn => decide_eq_false (not_le.mpr hn)) hfuel ninePeers
  have hgrown : (run lastOctet (fun n => decide (n ≤ 512)) 2 Hashmap.new ninePeers).map (fun r =>
      (r.2.data.length, r.1.all fun a => a.status ≠ .internal)) = some (512, true) := by
    decide +kernel
  rw [hrun] at hgrown
  obtain ⟨hlen, hok⟩ := Prod.mk.inj (Option.some.inj hgrown)
  exact ⟨answers, m, hrun, hlen, hall fun a ha => of_decide_eq_true (List.all_eq_true.mp hok a ha)⟩

end Refines

end PeerTable

end AquaTransport.Awdl
