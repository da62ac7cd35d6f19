import AquaTransport.Awdl.ActionFrame
import AquaTransport.Awdl.Upkeep

/-!
# AquaTransport.Awdl.Network — daemons that hear each other

A network is a daemon for every address.  One of its steps is a callback of one of the daemons: it hears an
action frame of another one, cleans its table and elects, or does something else.  Frames are heard as they
are sent, or not at all.

`simulates`: seen through what each node claims and what it has heard of the others' claims, these are the
steps of `AquaTransport.Lib.Rounds`, with the code's election as the rule.  So the election settles
(`election_settles`, `clique_agrees`), from any state: frames lost, nodes gone, old claims and loops included.
-/

namespace AquaTransport.Awdl

/-- A daemon for every address, each in a state that a daemon gets into. -/
structure Network where
  node : EtherAddr → Daemon
  own : ∀ v, (node v).state.selfAddress = v
  fit : ∀ v, (node v).state.Fit

namespace Network

abbrev Claim : Type := TreeElection (ℕ ×ₗ ℕ) EtherAddr

/-- What the nodes claim, and what they have heard of each other. -/
def view (net : Network) : Rounds EtherAddr Claim where
  own := fun v => (net.node v).state.election.claim
  heard := fun v => claims (net.node v).state.peers.peers

def rank (net : Network) (v : EtherAddr) : ℕ ×ₗ ℕ := (net.node v).state.election.selfRank

/-- A callback of `v`. -/
def Callback (radiotap : Buf → Option Radiotap) (net : Network) (v : EtherAddr) (e : Daemon.Event)
    (net' : Network) : Prop :=
  net'.node = Function.update net.node v ((net.node v).step radiotap e).1

/-- One callback of one daemon; each has its radio. -/
inductive Step (radiotap : EtherAddr → Buf → Option Radiotap) :
    Network → Rounds.Act EtherAddr → Network → Prop
  /-- `v` hears what `u` says of itself, and `u` is a valid peer of it then. -/
  | hear {net net' : Network} {v u : EtherAddr} {type : ActionType} {ieee : Ieee80211State}
      {steadyTime sent now : UInt64} {list : ChanSeq} {frame : Buf} {hdr : Radiotap} {p : Peer}
      (hne : u ≠ v) (hair : OnAir (radiotap v)
        ((initFullActionFrame (net.node u).state ieee type steadyTime sent).1.drop 9) frame hdr)
      (hweak : (net.node v).state.tooWeak u hdr.rssi = false)
      (hcall : Callback (radiotap v) net v (.receiveFrame list frame now) net')
      (hp : (net'.node v).state.peers.peers.get u = some p) (hvalid : p.isValid = true) :
      Step radiotap net (.hear v u) net'
  /-- `v` forgets the peers of `drop`, who were not heard for too long, and no others, and elects. -/
  | decide {net net' : Network} {v : EtherAddr} {drop : Set EtherAddr} {now : UInt64}
      (hdrop : ∀ u p, (net.node v).state.peers.peers.get u = some p →
        (u ∈ drop ↔ p.lastUpdate < now - (net.node v).state.peers.timeout))
      (hcall : Callback (radiotap v) net v (.cleanPeers now) net') : Step radiotap net (.decide v drop) net'
  /-- Anything else, that tells `v` nothing new about others' claims. -/
  | idle {net net' : Network} {v : EtherAddr} {e : Daemon.Event} (he : ∀ now, e ≠ .cleanPeers now)
      (hcall : Callback (radiotap v) net v e net')
      (hclaims : claims (net'.node v).state.peers.peers = claims (net.node v).state.peers.peers) :
      Step radiotap net .idle net'

/-! ### One step -/

section Simulation

variable {radiotap : EtherAddr → Buf → Option Radiotap} {net net' : Network}

theorem Callback.self {r : Buf → Option Radiotap} {v : EtherAddr} {e : Daemon.Event}
    (h : Callback r net v e net') : net'.node v = ((net.node v).step r e).1 := by
  rw [h, Function.update_self]

theorem Callback.other {r : Buf → Option Radiotap} {v w : EtherAddr} {e : Daemon.Event}
    (h : Callback r net v e net') (hw : w ≠ v) : net'.node w = net.node w := by
  rw [h, Function.update_of_ne hw]

/-- The view after a callback of `v`. -/
theorem Callback.view {r : Buf → Option Radiotap} {v : EtherAddr} {e : Daemon.Event}
    (h : Callback r net v e net') : net'.view =
      { own := Function.update net.view.own v (net'.node v).state.election.claim
        heard := Function.update net.view.heard v (claims (net'.node v).state.peers.peers) } := by
  have hown : net'.view.own = Function.update net.view.own v (net'.node v).state.election.claim := by
    funext w
    by_cases hw : w = v
    · subst hw
      rw [Function.update_self]
      rfl
    · rw [Function.update_of_ne hw]
      show (net'.node w).state.election.claim = _
      rw [h.other hw]
      rfl
  have hheard : net'.view.heard =
      Function.update net.view.heard v (claims (net'.node v).state.peers.peers) := by
    funext w
    by_cases hw : w = v
    · subst hw
      rw [Function.update_self]
      rfl
    · rw [Function.update_of_ne hw]
      show claims (net'.node w).state.peers.peers = _
      rw [h.other hw]
      rfl
  rw [← hown, ← hheard]

/-- A node after a frame of `u` that it does not ignore. -/
theorem hears_state {r : Buf → Option Radiotap} {v u : EtherAddr} {type : ActionType}
    {ieee : Ieee80211State} {steadyTime sent : UInt64} {frame : Buf} {hdr : Radiotap} (hne : u ≠ v)
    (hair : OnAir r ((initFullActionFrame (net.node u).state ieee type steadyTime sent).1.drop 9) frame hdr)
    (hweak : (net.node v).state.tooWeak u hdr.rssi = false) (list : ChanSeq) (now : UInt64) :
    ∃ b sequence, @Hears list (rxClockTime (net.node v).state.rxClock hdr.tsft now).1 sent (net.node u).state type
        { (net.node v).state with rxClock := (rxClockTime (net.node v).state.rxClock hdr.tsft now).2 } b ∧
      ((net.node v).step r (.receiveFrame list frame now)).1.state = b.withSequence sequence := by
  have hself := net.own u
  obtain ⟨b, hrx, hears⟩ := rx_actionFrame hair (by rwa [hself, net.own v])
    (net.fit v).sound.regular.presenceMode (by rwa [hself]) list now
  obtain ⟨sequence, he⟩ := adoptMasterChanseq_eq b
  have hstate : ((net.node v).receiveFrame r list frame now).1.state = b.adoptMasterChanseq ∨
      ((net.node v).receiveFrame r list frame now).1.state = b := by
    rw [Daemon.receiveFrame_ok hrx (Nat.zero_le _)]
    dsimp only
    split_ifs
    · exact .inl rfl
    · exact .inr rfl
  rcases hstate with h | h
  · exact ⟨b, sequence, hears, h.trans he⟩
  · exact ⟨b, b.channel.sequence, hears, h⟩

/-- A frame of `u` that `v` does not ignore tells it what `u` claims, and nothing about the others. -/
theorem heard_claims {r : Buf → Option Radiotap} {v u : EtherAddr} {type : ActionType}
    {ieee : Ieee80211State} {steadyTime sent now : UInt64} {list : ChanSeq} {frame : Buf} {hdr : Radiotap}
    {p : Peer} (hne : u ≠ v)
    (hair : OnAir r ((initFullActionFrame (net.node u).state ieee type steadyTime sent).1.drop 9) frame hdr)
    (hweak : (net.node v).state.tooWeak u hdr.rssi = false)
    (hcall : Callback r net v (.receiveFrame list frame now) net')
    (hp : (net'.node v).state.peers.peers.get u = some p) (hvalid : p.isValid = true) :
    claims (net'.node v).state.peers.peers =
      Function.update (claims (net.node v).state.peers.peers) u (some (net.node u).state.election.claim) := by
  have hself := net.own u
  obtain ⟨b, sequence, hears, hstate⟩ := hears_state hne hair hweak list now
  obtain ⟨q, hq, hqh⟩ := hears.entry
  have hnew : (net'.node v).state.peers.peers = b.peers.peers := by
    rw [hcall.self, hstate]
    rfl
  rw [hnew] at hp ⊢
  rw [hself] at hq
  obtain rfl := Option.some.inj (hq.symm.trans hp)
  funext w
  by_cases hw : w = u
  · subst hw
    rw [Function.update_self, claims, hq, Option.bind_some, if_pos hvalid, hqh.election]
  · rw [Function.update_of_ne hw, claims, claims, hears.others w (by rwa [hself])]

/-- A node that cleans its table elects on what is left of it. -/
theorem cleaned_elects {r : Buf → Option Radiotap} {v : EtherAddr} {now : UInt64}
    (hcall : Callback r net v (.cleanPeers now) net') :
    (∀ u, (net'.node v).state.peers.peers.get u = ((net.node v).state.peers.peers.get u).filter fun p =>
      ¬ p.lastUpdate < now - (net.node v).state.peers.timeout) ∧
    Elected net.rank v (claims (net'.node v).state.peers.peers) (net'.node v).state.election.claim := by
  obtain ⟨sequence, he⟩ := adoptMasterChanseq_eq ((net.node v).state.elect now)
  have hstate : (net'.node v).state = ((net.node v).state.elect now).withSequence sequence := by
    rw [hcall.self, ← he]
    rfl
  rw [hstate]
  refine ⟨fun u => ?_, (net.node v).state.election, _, (net.node v).state.own.trans (net.own v), rfl, rfl, rfl⟩
  exact Peers.get_filter u

/-- **The network takes the steps of the rounds**, with the election of the code. -/
theorem Step.simulates {a : Rounds.Act EtherAddr} (h : Step radiotap net a net') :
    Rounds.Step (Elected net.rank) net.view a net'.view ∧ net'.rank = net.rank := by
  have hrank : ∀ {r : Buf → Option Radiotap} {v : EtherAddr} {e : Daemon.Event},
      Callback r net v e net' → net'.rank = net.rank := by
    intro r v e hcall
    funext w
    by_cases hw : w = v
    · subst hw
      rw [rank, hcall.self]
      exact ((net.node w).step_moves e).sameSelf.selfRank
    · rw [rank, hcall.other hw]
      rfl
  have helect : ∀ {r : Buf → Option Radiotap} {v : EtherAddr} {e : Daemon.Event},
      (∀ now, e ≠ .cleanPeers now) → Callback r net v e net' →
      (net'.node v).state.election.claim = net.view.own v := by
    intro r v e he hcall
    rw [hcall.self, (net.node v).step_election he]
    rfl
  cases h with
  | @hear _ v u type ieee steadyTime sent now list frame hdr p hne hair hweak hcall hp hvalid =>
    refine ⟨?_, hrank hcall⟩
    rw [hcall.view, helect (by rintro _ ⟨⟩) hcall, heard_claims hne hair hweak hcall hp hvalid,
      Function.update_eq_self]
    exact .hear net.view v u
  | @decide _ v drop now hdrop hcall =>
    refine ⟨?_, hrank hcall⟩
    rw [hcall.view]
    obtain ⟨hget, helected⟩ := cleaned_elects hcall
    refine .decide (fun u hu => ?_) (fun u hu => ?_) helected
    · rw [claims, hget]
      cases hold : (net.node v).state.peers.peers.get u with
      | none => rfl
      | some p => simp [(hdrop u p hold).mp hu]
    · show _ = claims (net.node v).state.peers.peers u
      rw [claims, claims, hget]
      cases hold : (net.node v).state.peers.peers.get u with
      | none => rfl
      | some p =>
        have hkept := mt (hdrop u p hold).mpr hu
        rw [Option.filter_some, if_pos (decide_eq_true hkept)]
  | @idle _ v e he hcall hclaims =>
    refine ⟨?_, hrank hcall⟩
    rw [hcall.view, helect he hcall, hclaims, Function.update_eq_self]
    have hh : Function.update net.view.heard v (claims (net.node v).state.peers.peers) = net.view.heard :=
      Function.update_eq_self v net.view.heard
    rw [hh]
    exact .idle net.view

theorem simulates {acts : List (Rounds.Act EtherAddr)} (h : Path (Step radiotap) net acts net') :
    Path (Rounds.Step (Elected net.rank)) net.view acts net'.view := by
  induction h with
  | nil net => exact .nil net.view
  | @cons net mid net' a acts h1 _ ih =>
    obtain ⟨hstep, hrank⟩ := h1.simulates
    rw [hrank] at ih
    exact .cons hstep ih

end Simulation

/-! ### Networks in which such runs exist -/

section Exist

/-- Nodes that can become valid peers, that ignore nobody, and know their neighbours at most. -/
structure Ready (adj : EtherAddr → EtherAddr → Prop) (net : Network) : Prop where
  valid : ∀ v, (net.node v).state.devClass ≠ 0 ∧ (net.node v).state.version ≠ 0
  loud : ∀ v, (net.node v).state.filterRssi = false
  known : ∀ v u p, (net.node v).state.peers.peers.get u = some p → adj v u

variable {adj : EtherAddr → EtherAddr → Prop} {net : Network}

/-- The network after a callback. -/
def after (net : Network) (radiotap : Buf → Option Radiotap) (v : EtherAddr) (e : Daemon.Event) : Network where
  node := Function.update net.node v ((net.node v).step radiotap e).1
  own := by
    intro w
    by_cases hw : w = v
    · subst hw
      rw [Function.update_self]
      exact ((net.node w).step_moves e).sameSelf.selfAddress.trans (net.own w)
    · rw [Function.update_of_ne hw]
      exact net.own w
  fit := by
    intro w
    by_cases hw : w = v
    · subst hw
      rw [Function.update_self]
      exact (net.fit w).moves ((net.node w).step_moves e)
    · rw [Function.update_of_ne hw]
      exact net.fit w

/-- A callback that makes nobody known but neighbours. -/
theorem Ready.after (h : Ready adj net) {radiotap : Buf → Option Radiotap} {v : EtherAddr} {e : Daemon.Event}
    (hknown : ∀ u p, ((net.after radiotap v e).node v).state.peers.peers.get u = some p → adj v u) :
    Ready adj (net.after radiotap v e) := by
  have hself : ((net.after radiotap v e).node v) = ((net.node v).step radiotap e).1 := Function.update_self ..
  have hsame := (@Daemon.step_moves radiotap (net.node v) e).sameSelf
  refine ⟨fun w => ?_, fun w => ?_, fun w u p hp => ?_⟩
  all_goals by_cases hw : w = v
  · subst hw
    rw [hself, hsame.devClass, hsame.version]
    exact h.valid w
  · rw [show (net.after radiotap v e).node w = net.node w from Function.update_of_ne hw ..]
    exact h.valid w
  · subst hw
    rw [hself, hsame.filterRssi]
    exact h.loud w
  · rw [show (net.after radiotap v e).node w = net.node w from Function.update_of_ne hw ..]
    exact h.loud w
  · subst hw
    exact hknown u p hp
  · rw [show (net.after radiotap v e).node w = net.node w from Function.update_of_ne hw ..] at hp
    exact h.known w u p hp

theorem Ready.hear (h : Ready adj net) {v u : EtherAddr} (huv : adj v u) (hne : u ≠ v) :
    ∃ net', Step (fun _ => plainRadio) net (.hear v u) net' ∧ Ready adj net' := by
  have hself := net.own u
  have hair := onAir_plain
    ((initFullActionFrame (net.node u).state ieee80211InitState .mif 0 0).1.drop 9)
  have hweak : (net.node v).state.tooWeak u 0 = false := by rw [State.tooWeak, h.loud v, Bool.false_and]
  obtain ⟨b, sequence, hears, hstate⟩ := hears_state hne hair hweak (fun _ => chanNull) 0
  obtain ⟨p, hp, hph⟩ := hears.entry
  rw [hself] at hp
  have hvalid : p.isValid = true :=
    hph.isValid.mpr (.inr ⟨hph.sentMif.mpr (.inl rfl), (h.valid u).1, (h.valid u).2⟩)
  set frame := plainFrame ((initFullActionFrame (net.node u).state ieee80211InitState .mif 0 0).1.drop 9)
  have hafter :
      ((net.after plainRadio v (.receiveFrame (fun _ => chanNull) frame 0)).node v).state.peers.peers =
      b.peers.peers := by
    rw [show (net.after plainRadio v _).node v = _ from Function.update_self ..]
    exact congrArg (fun s => s.peers.peers) hstate
  refine ⟨net.after plainRadio v (.receiveFrame (fun _ => chanNull) frame 0),
    .hear hne hair hweak rfl (by rw [hafter, hp]) hvalid, h.after fun w q hq => ?_⟩
  rw [hafter] at hq
  by_cases hw : w = u
  · exact hw ▸ huv
  · rw [hears.others w (by rwa [hself])] at hq
    exact h.known v w q hq

theorem Ready.decide (h : Ready adj net) (v : EtherAddr) :
    ∃ net', Step (fun _ => plainRadio) net (.decide v {u | ¬ adj v u}) net' ∧ Ready adj net' := by
  have hself : ∀ e, (net.after plainRadio v e).node v = ((net.node v).step plainRadio e).1 := fun e =>
    Function.update_self ..
  set now := (net.node v).state.peers.timeout with hnow
  have hcall : Callback plainRadio net v (.cleanPeers now) (net.after plainRadio v (.cleanPeers now)) := rfl
  refine ⟨net.after plainRadio v (.cleanPeers now), .decide (fun u p hp => ?_) hcall, h.after fun u p hp => ?_⟩
  · have hzero : ¬ p.lastUpdate < now - (net.node v).state.peers.timeout := by
      rw [hnow, UInt64.sub_self]
      exact UInt64.not_lt_zero
    exact ⟨fun hu => absurd (h.known v u p hp) hu, fun hlt => absurd hlt hzero⟩
  · rw [(cleaned_elects hcall).1 u] at hp
    exact h.known v u p (Option.filter_eq_some_iff.mp hp).1

/-- From such a network, there is a run with any sequence of hearing neighbours and of elections. -/
theorem Ready.run (h : Ready adj net) {acts : List (Rounds.Act EtherAddr)}
    (hacts : ∀ a ∈ acts, (∃ v u, adj v u ∧ u ≠ v ∧ a = .hear v u) ∨ ∃ v, a = .decide v {u | ¬ adj v u}) :
    ∃ net', Path (Step fun _ => plainRadio) net acts net' := by
  induction acts generalizing net with
  | nil => exact ⟨net, .nil net⟩
  | cons a acts ih =>
    have hstep : ∃ net', Step (fun _ => plainRadio) net a net' ∧ Ready adj net' := by
      rcases hacts a List.mem_cons_self with ⟨v, u, huv, hne, rfl⟩ | ⟨v, rfl⟩
      · exact h.hear huv hne
      · exact h.decide v
    obtain ⟨mid, hmid, hready⟩ := hstep
    obtain ⟨net', hpath⟩ := ih hready fun b hb => hacts b (List.mem_cons_of_mem a hb)
    exact ⟨net', .cons hmid hpath⟩

/-- Nodes that have just been started. -/
def fresh : Network where
  node := Daemon.fresh
  own := fun _ => rfl
  fit := fun v => Daemon.start_fit (Daemon.start_fresh v)

theorem ready_fresh : Ready adj fresh where
  valid := fun _ => ⟨(by decide : (1 : UInt8) ≠ 0), (by decide : awdlVersion 3 4 ≠ 0)⟩
  loud := fun _ => rfl
  known := by
    rintro v u p ⟨⟩

/-- Every two nodes of a set hear each other. -/
def Clique (St : Set EtherAddr) (v u : EtherAddr) : Prop := v ∈ St ∧ u ∈ St ∧ v ≠ u

/-- Two nodes that have just started, and hear each other for long enough. -/
theorem exists_pair {a b : EtherAddr} (hab : a ≠ b) : ∃ pre acts net',
    Path (Step fun _ => plainRadio) fresh (pre ++ acts) net' ∧
      (∀ x ∈ pre ++ acts, Rounds.Fair (Clique {a, b}) x) ∧ Rounds.Prelude {a, b} (Clique {a, b}) pre ∧
      Rounds.Lasts {a, b} (Clique {a, b}) (({a, b} : Set EtherAddr).ncard + 35) acts := by
  set adj := Clique {a, b} with hadj
  have hba : adj a b := ⟨Set.mem_insert a _, Set.mem_insert_of_mem a rfl, hab⟩
  have hba' : adj b a := ⟨Set.mem_insert_of_mem a rfl, Set.mem_insert a _, hab.symm⟩
  -- both elect, and both hear each other
  set round : List (Rounds.Act EtherAddr) :=
    [.decide a {u | ¬ adj a u}, .decide b {u | ¬ adj b u}, .hear a b, .hear b a] with hround
  have hdec : ∀ v ∈ ({a, b} : Set EtherAddr), Rounds.Act.decide v {u | ¬ adj v u} ∈ round := by
    rintro v (rfl | rfl) <;> simp [hround]
  have hhear : ∀ v ∈ ({a, b} : Set EtherAddr), ∀ u, adj v u → Rounds.Act.hear v u ∈
      ([.hear a b, .hear b a] : List (Rounds.Act EtherAddr)) := by
    rintro v (rfl | rfl) u ⟨-, rfl | rfl, hne⟩ <;> simp_all
  have hone : Rounds.Round {a, b} adj round := by
    refine ⟨[.decide a {u | ¬ adj a u}, .decide b {u | ¬ adj b u}], _, rfl, ?_, hhear⟩
    rintro v (rfl | rfl)
    · exact ⟨_, List.mem_cons_self⟩
    · exact ⟨_, List.mem_cons_of_mem _ List.mem_cons_self⟩
  have hkinds : ∀ x ∈ round ++ (List.replicate (({a, b} : Set EtherAddr).ncard + 35) round).flatten,
      x ∈ round := by
    intro x hx
    rcases List.mem_append.mp hx with hx | hx
    · exact hx
    · obtain ⟨l, hl, hx⟩ := List.mem_flatten.mp hx
      rwa [List.eq_of_mem_replicate hl] at hx
  have hact : ∀ x ∈ round, (∃ v u, adj v u ∧ u ≠ v ∧ x = .hear v u) ∨
      ∃ v, x = .decide v {u | ¬ adj v u} := by
    intro x hx
    simp only [hround, List.mem_cons, List.not_mem_nil, or_false] at hx
    rcases hx with rfl | rfl | rfl | rfl
    · exact .inr ⟨a, rfl⟩
    · exact .inr ⟨b, rfl⟩
    · exact .inl ⟨a, b, hba, hab.symm, rfl⟩
    · exact .inl ⟨b, a, hba', hab, rfl⟩
  obtain ⟨net', hpath⟩ := ready_fresh.run fun x hx => hact x (hkinds x hx)
  refine ⟨round, _, net', hpath, fun x hx => ?_, ⟨fun v hv => ?_, fun v hv u hu => ?_⟩, .replicate hone _⟩
  · rcases hact x (hkinds x hx) with ⟨v, u, hvu, -, rfl⟩ | ⟨v, rfl⟩
    · exact hvu
    · exact fun u hu hn => hn hu
  · exact ⟨_, fun u hu => hu, hdec v hv⟩
  · exact List.mem_append_right [_, _] (hhear v hv u hu)

end Exist

/-! ### The election settles -/

section Settles

variable {radiotap : EtherAddr → Buf → Option Radiotap} {net net' : Network}
  {adj : EtherAddr → EtherAddr → Prop} {St S : Set EtherAddr} {pre acts : List (Rounds.Act EtherAddr)}

/-- **The election settles.**  The nodes of `St` hear their neighbours, and in `pre` forget whoever else they
know.  Whatever the state before, with false masters, loops or the claims of nodes that are gone, after
as many rounds as there are nodes and 35, and from then on, every node within 10 hops of a root is in its
place: at its distance from the roots, below the neighbour of the largest address that is one hop nearer.
The roots are the nodes of the best rank that hear no root of a larger address. -/
theorem election_settles {best : ℕ ×ₗ ℕ} (hadj : ∀ v u, adj v u → v ∈ St ∧ u ∈ St) (hfin : St.Finite)
    (hbest : ∀ v ∈ St, net.rank v ≤ best) (hS : TreeElection.IsRoots adj net.rank best St S)
    (hrun : Path (Step radiotap) net (pre ++ acts) net') (hfair : ∀ a ∈ pre ++ acts, Rounds.Fair adj a)
    (hpre : Rounds.Prelude St adj pre) (hlasts : Rounds.Lasts St adj (St.ncard + 35) acts)
    {v : EtherAddr} {d : ℕ} (hv : TreeElection.At adj S d v) (hv' : v ∈ St) (hd : d ≤ 10) :
    TreeElection.Final adj net.rank S d v (net'.node v).state.election.claim :=
  (elected_rule net.rank).settles hadj hfin hbest hS (by decide) (simulates hrun) hfair hpre hlasts hv hv' hd

theorem election_settles_two : ∃ net' : Network, TreeElection.Final
    (Clique {⟨[2, 0, 0, 0, 0, 1], rfl⟩, ⟨[2, 0, 0, 0, 0, 2], rfl⟩}) fresh.rank {⟨[2, 0, 0, 0, 0, 2], rfl⟩} 1
    ⟨[2, 0, 0, 0, 0, 1], rfl⟩ (net'.node ⟨[2, 0, 0, 0, 0, 1], rfl⟩).state.election.claim := by
  set a : EtherAddr := ⟨[2, 0, 0, 0, 0, 1], rfl⟩
  set b : EtherAddr := ⟨[2, 0, 0, 0, 0, 2], rfl⟩
  have hlt : a < b := by decide
  obtain ⟨pre, acts, net', hrun, hfair, hpre, hlasts⟩ := exists_pair hlt.ne
  have hS : TreeElection.IsRoots (Clique {a, b}) fresh.rank (fresh.rank b) {a, b} {b} := by
    intro v
    constructor
    · rintro rfl
      exact ⟨Set.mem_insert_of_mem a rfl, rfl, fun u hu _ hub => hu.2.2 hub.symm⟩
    · rintro ⟨rfl | rfl, -, hno⟩
      · exact absurd rfl (hno b ⟨Set.mem_insert a _, Set.mem_insert_of_mem a rfl, hlt.ne⟩ hlt)
      · rfl
  have hat : TreeElection.At (Clique {a, b}) {b} 1 a := TreeElection.At.succ.mpr
    ⟨hlt.ne, b, ⟨Set.mem_insert a _, Set.mem_insert_of_mem a rfl, hlt.ne⟩, rfl⟩
  exact ⟨net', election_settles (fun _ _ h => ⟨h.1, h.2.1⟩) (Set.toFinite _) (fun _ _ => le_rfl) hS hrun hfair
    hpre hlasts hat (Set.mem_insert a _) (by decide)⟩

/-- **Nodes that all hear each other agree**: the node of the best rank, and of the largest address among
those, is the master and the sync master of all. -/
theorem clique_agrees (hfin : St.Finite) {r : EtherAddr} (hr : r ∈ St)
    (hbest : ∀ v ∈ St, net.rank v < net.rank r ∨ (net.rank v = net.rank r ∧ v ≤ r))
    (hrun : Path (Step radiotap) net (pre ++ acts) net')
    (hfair : ∀ a ∈ pre ++ acts, Rounds.Fair (Clique St) a)
    (hpre : Rounds.Prelude St (Clique St) pre)
    (hlasts : Rounds.Lasts St (Clique St) (St.ncard + 35) acts)
    {v : EtherAddr} (hv : v ∈ St) : (net'.node v).state.election.masterAddr = r ∧
      (net'.node v).state.election.syncAddr = r ∧
      (net'.node v).state.election.height.toNat = if v = r then 0 else 1 := by
  have hbest' : ∀ v ∈ St, net.rank v ≤ net.rank r := fun v hv =>
    (hbest v hv).elim le_of_lt fun h => h.1.le
  have hS : TreeElection.IsRoots (Clique St) net.rank (net.rank r) St {r} := by
    intro v
    constructor
    · rintro rfl
      exact ⟨hr, rfl, fun u ⟨_, _, hne⟩ _ hu => hne hu.symm⟩
    · rintro ⟨hv, hrank, hno⟩
      by_contra hne
      rcases hbest v hv with hlt | ⟨-, hle⟩
      · exact hlt.ne hrank
      · exact hno r ⟨hv, hr, hne⟩ (lt_of_le_of_ne hle hne) rfl
  have hfinal := fun (d : ℕ) (hat : TreeElection.At (Clique St) {r} d v) (hd : d ≤ 10) =>
    (elected_rule net.rank).settles (fun _ _ h => ⟨h.1, h.2.1⟩) hfin hbest' hS (by decide)
      (simulates hrun) hfair hpre hlasts hat hv hd
  by_cases hvr : v = r
  · subst hvr
    obtain ⟨-, hc⟩ := hfinal 0 ⟨rfl, fun e he => absurd he (Nat.not_lt_zero e)⟩ (by decide)
    rw [if_pos rfl]
    exact ⟨congrArg TreeElection.root hc, congrArg TreeElection.parent hc,
      congrArg TreeElection.height hc⟩
  · have hat : TreeElection.At (Clique St) {r} 1 v :=
      TreeElection.At.succ.mpr ⟨hvr, r, ⟨hv, hr, hvr⟩, rfl⟩
    obtain ⟨-, u, cu, -, ⟨rfl, rfl⟩, -, hc⟩ := hfinal 1 hat (by decide)
    rw [if_neg hvr]
    exact ⟨congrArg TreeElection.root hc, congrArg TreeElection.parent hc,
      congrArg TreeElection.height hc⟩

theorem clique_agrees_two : ∃ net' : Network,
    (net'.node ⟨[2, 0, 0, 0, 0, 1], rfl⟩).state.election.masterAddr = ⟨[2, 0, 0, 0, 0, 2], rfl⟩ := by
  set a : EtherAddr := ⟨[2, 0, 0, 0, 0, 1], rfl⟩
  set b : EtherAddr := ⟨[2, 0, 0, 0, 0, 2], rfl⟩
  have hlt : a < b := by decide
  obtain ⟨pre, acts, net', hrun, hfair, hpre, hlasts⟩ := exists_pair hlt.ne
  have hb : b ∈ ({a, b} : Set EtherAddr) := Set.mem_insert_of_mem a rfl
  have hbest : ∀ v ∈ ({a, b} : Set EtherAddr),
      fresh.rank v < fresh.rank b ∨ (fresh.rank v = fresh.rank b ∧ v ≤ b) := by
    rintro v (rfl | rfl)
    · exact .inr ⟨rfl, hlt.le⟩
    · exact .inr ⟨rfl, le_rfl⟩
  exact ⟨net', (clique_agrees (Set.toFinite _) hb hbest hrun hfair hpre hlasts (Set.mem_insert a _)).1⟩

end Settles

end Network

end AquaTransport.Awdl
