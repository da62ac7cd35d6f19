import AquaTransport.AirDrop.Connections
import Mathlib.Algebra.BigOperators.Group.Multiset.Basic

/-!
# AquaTransport.AirDrop.Drain — closing what a stopped receiver still holds

`drain_after_stop` runs behind every native stop in modern mode, and its blocks run on the server's
queue.  `System` is the adapter with what `AQServerDrain.inc` keeps, the fields of the servers that it
reads, and the blocks that wait.  A block is in two parts: `fire` is what it does up to the snapshot of
the connections, and each `advance` invalidates one of them, so that other threads come between.  A
server's fields change as native code likes; its requests and its blocks take turns on its queue.

`drain_orderly`: in a run whose steps are all fit, blocks close connections only of servers that were
stopped and not started since, and none under a transfer.
-/

namespace AquaTransport.Drain

open Adapter

def AQ_SERVER_DRAIN_ATTEMPTS : ℕ := 12

/-- A block of `drain_server`; `stop` is the native stop that it goes back to.  Once it runs, `keys` are
the connections that it has still to invalidate. -/
structure Callback where
  server : ℕ
  generation : ℕ
  attempt : ℕ
  stop : ℕ
  keys : Option (List ℕ) := none
  deriving DecidableEq

/-- What was done, and for a connection that is invalidated, whether it has a live lease. -/
inductive Event
  /-- `prepare_server_drain` -/
  | started (s : ℕ)
  | stopped (s stop : ℕ)
  /-- `drain_server` or a block reads the server's fields. -/
  | looked (s stop : ℕ)
  | round (s stop : ℕ)
  | invalidated (s stop c : ℕ) (leased : Bool)
  | deallocated (s : ℕ)
  deriving DecidableEq

/-- `drainState` has the generation of a server's `AQServerDrainState`, `alive` whether the state's weak
reference still gives the server, and `http`, `queue` and `connections` are `_server`, `_queue` and
`_connections`. -/
structure System where
  threads : Threads Shared Section
  drainState : ℕ → Option ℕ := fun _ => none
  alive : ℕ → Bool := fun _ => true
  http : ℕ → Bool := fun _ => false
  queue : ℕ → Bool := fun _ => true
  connections : ℕ → List ℕ := fun _ => []
  callbacks : Multiset Callback := 0
  stops : ℕ := 0
  log : List Event := []

namespace System

variable (d : System)

/-! ### `AQServerDrain.inc` -/

/-- `++state.generation`, of an `NSUInteger`. -/
def nextGeneration (s : ℕ) : ℕ := ((d.drainState s).getD 0 + 1) % 2 ^ 64

def prepareServerDrain (s : ℕ) : System :=
  { d with
    drainState := Function.update d.drainState s (some (d.nextGeneration s))
    log := .started s :: d.log }

/-- `drain_server`, up to its `dispatch_after`. -/
def drainServer (b : Callback) : System :=
  if !d.alive b.server || d.drainState b.server ≠ some b.generation then d
  else
    let d := { d with log := .looked b.server b.stop :: d.log }
    if !d.queue b.server then d
    else { d with callbacks := b ::ₘ d.callbacks }

def drainAfterStop (s stop : ℕ) : System :=
  match d.drainState s with
  | none => d
  | some generation =>
    d.drainServer { server := s, generation := generation, attempt := 0, stop := stop }

/-- The block: its checks, and the snapshot of the connections. -/
def fire (b : Callback) (calloc : Bool) : System :=
  let d := { d with callbacks := d.callbacks.erase b }
  if !d.alive b.server || d.drainState b.server ≠ some b.generation then d
  else
    let d := { d with log := .looked b.server b.stop :: d.log }
    if d.http b.server then d
    else if d.connections b.server = [] then d
    else if AQ_SERVER_DRAIN_ATTEMPTS ≤ b.attempt then d
    else if d.threads.shared.receivingTransfers ≠ 0 || !calloc then
      d.drainServer { b with attempt := b.attempt + 1 }
    else
      { d with
        callbacks := { b with keys := some (d.connections b.server) } ::ₘ d.callbacks
        log := .round b.server b.stop :: d.log }

/-- The block goes on: the next connection, or its end. -/
def advance (b : Callback) : Option System :=
  match b.keys with
  | none => none
  | some (c :: cs) =>
    some { d with
      callbacks := { b with keys := some cs } ::ₘ d.callbacks.erase b
      log := .invalidated b.server b.stop c (live d.threads.shared c) :: d.log }
  | some [] =>
    some ({ d with callbacks := d.callbacks.erase b }.drainServer
      { b with attempt := b.attempt + 1, keys := none })

/-! ### What the adapter calls -/

/-- `original_stop`, with `drain_after_stop` in modern mode. -/
def originalStop (s : ℕ) (modern : Bool) : System :=
  let e := { d with stops := d.stops + 1, log := .stopped s d.stops :: d.log }
  if modern then e.drainAfterStop s d.stops else e

/-- `stop_server`, in a transition. -/
def stopServer (a : Shared) (s : ℕ) : System :=
  if a.nativeMode then d.originalStop s false
  else if a.leasedTransferServers s = 0 then d.originalStop s true
  else d

end System

/-- The servers that a section starts: those of a transition are the active ones, if it switches. -/
def starts (a : Shared) : Section → List ℕ
  | .startServer s => [s]
  | .transition =>
    match a.requestedMode with
    | none => []
    | some next => if a.activeTransfers ≠ 0 ∨ a.nativeMode = next then [] else a.activeServers
  | _ => []

/-- What a section does with the drains, by what was shared when it ran. -/
def System.effect (d : System) (a : Shared) (x : Section) : System :=
  match x with
  | .startServer s => d.prepareServerDrain s
  | .originalStop s modern => d.originalStop s modern
  | .flush =>
    if a.receivingTransfers ≠ 0 then d
    else a.deferredTransferServers.foldl (fun d s => d.originalStop s true) d
  | .transition =>
    (starts a .transition).foldl System.prepareServerDrain
      ((starts a .transition).foldl (fun d s => d.stopServer a s) d)
  | _ => d

/-! ### Who may do what -/

namespace System

variable (home : ℕ → Option ℕ) (d : System)

/-- No block of the server runs. -/
def idle (s : ℕ) : Bool := decide (∀ b ∈ d.callbacks, b.server = s → b.keys = none)

/-- No block of the server has connections to invalidate, or the generation that a start gives. -/
def spared (s : ℕ) : Bool :=
  decide (∀ b ∈ d.callbacks, b.server = s →
    b.keys.getD [] = [] ∧ b.generation ≠ d.nextGeneration s)

/-- The servers are started one after the other. -/
def sparedAll : System → List ℕ → Bool
  | _, [] => true
  | d, s :: l => d.spared s && sparedAll (d.prepareServerDrain s) l

/-- A section starts only servers that are spared then: a transition stops them first. -/
def startsSpared (a : Shared) (x : Section) : Bool :=
  match x with
  | .startServer s => d.spared s
  | .transition =>
    sparedAll ((starts a .transition).foldl (fun d s => d.stopServer a s) d) (starts a .transition)
  | _ => true

/-- Which objects have the hooked methods, and that a call has its object; `home` has the server of a
connection, and nothing for an outgoing transfer.  A request waits for its server's queue. -/
def fits : Call → Bool
  | .transferStart op _ | .transferStop op | .transferEvent op _ => (home op).isNone
  | .receiveEvent op _ | .receiveStop op _ => (home op).isSome
  | .receivedRequest op _ => (home op).any d.idle
  | .startServer s | .stopServer s => d.alive s
  | _ => true

/-- No thread is in a request of one of the server's connections. -/
def quiet (s : ℕ) : Bool := decide (∀ x ∈ d.threads.all, (opening x).bind home ≠ some s)

/-- Nothing has a strong reference to the server. -/
def released (s : ℕ) : Bool :=
  d.threads.shared.leasedTransferServers s = 0 &&
    decide (s ∉ d.threads.shared.deferredTransferServers) && d.idle s &&
    decide (∀ x ∈ d.threads.all, about x ≠ some s)

end System

inductive Label
  | adapter (l : Threads.Label Choice Call)
  /-- Native code changes a server's fields. -/
  | native (s : ℕ) (http queue : Bool) (connections : List ℕ)
  /-- The last reference is gone; the server's `dealloc` stops it on the thread that had it. -/
  | dealloc (k : Option ℕ) (s : ℕ)
  | free (s : ℕ)
  | fire (b : Callback) (calloc : Bool)
  | advance (b : Callback)

def System.calls (l : Threads.Label Choice Call) : Option Call :=
  match l with
  | .mainCall c | .call _ c => some c
  | _ => none

def step (home : ℕ → Option ℕ) (d : System) : Label → Option System
  | .adapter l =>
    if (System.calls l).all (d.fits home) then
      (code.step d.threads l).map fun t =>
        { (match d.threads.next l with
            | some (x, _) => d.effect d.threads.shared x
            | none => d) with threads := t }
    else none
  | .native s http queue connections =>
    if connections.all fun c => home c = some s then
      some { d with
        http := Function.update d.http s http
        queue := Function.update d.queue s queue
        connections := Function.update d.connections s connections }
    else none
  | .dealloc k s =>
    if d.alive s && d.released s then
      (d.threads.push [.stopServer s] k).map fun t =>
        { d with
          alive := Function.update d.alive s false
          threads := { t with shared := vanish t.shared s } }
    else none
  | .free s =>
    if !d.alive s && decide (∀ x ∈ d.threads.all, about x ≠ some s) then
      some { d with log := .deallocated s :: d.log }
    else none
  | .fire b calloc =>
    if b ∈ d.callbacks ∧ b.keys = none ∧ d.idle b.server ∧ d.quiet home b.server then
      some (d.fire b calloc)
    else none
  | .advance b => if b ∈ d.callbacks then d.advance b else none

/-- sharingd, with `n` threads beside the main one. -/
def start (n : ℕ) : System := { threads := install n }

/-! ### What the blocks are for -/

/-- A server was stopped, and not started since. -/
def Stopped (past : List Event) (s stop : ℕ) : Prop :=
  ∃ mid older, past = mid ++ .stopped s stop :: older ∧ .started s ∉ mid

namespace Event

/-- A connection is invalidated where its server is stopped, and where it holds no live lease. -/
def Rightly (past : List Event) : Event → Prop
  | .invalidated s stop _ leased => Stopped past s stop ∧ leased = false
  | _ => True

def isRound (stop : ℕ) : Event → Bool
  | .round _ stop' => stop' = stop
  | _ => false

/-- The server whose memory is used. -/
def uses : Event → Option ℕ
  | .started s | .stopped s _ | .looked s _ | .round s _ | .invalidated s _ _ _ => some s
  | .deallocated _ => none

end Event

/-- What a run may do with the connections of stopped servers. -/
structure Orderly (log : List Event) : Prop where
  rightly : Along Event.Rightly log
  rounds : ∀ stop, log.countP (Event.isRound stop) ≤ AQ_SERVER_DRAIN_ATTEMPTS
  untouched : ∀ later s past, log = later ++ .deallocated s :: past → ∀ e ∈ later, e.uses ≠ some s

/-- A step that is fit: no server is started while a block of it has connections to invalidate, or is
given the generation of a block of it, and in native mode no round begins while a connection of the
server has a live lease. -/
def System.fit (d : System) : Label → Bool
  | .adapter l =>
    match d.threads.next l with
    | some (x, _) => d.startsSpared d.threads.shared x
    | none => true
  | .fire b calloc =>
    let comes := d.alive b.server && d.drainState b.server = some b.generation &&
      !d.http b.server && b.attempt < AQ_SERVER_DRAIN_ATTEMPTS && calloc &&
      d.threads.shared.receivingTransfers = 0
    !(comes && d.threads.shared.nativeMode) ||
      (d.connections b.server).all fun c => !live d.threads.shared c
  | _ => true

def fitStep (home : ℕ → Option ℕ) (d : System) (l : Label) : Option System :=
  if d.fit l then step home d l else none

/-! ### What stops and starts do -/

section Behind

variable {p : ℕ → Prop} {d e : System} {a : Shared} {x : Section} {s : ℕ}

/-- Servers that meet `p` were stopped and started, and no more happened. -/
structure Behind (p : ℕ → Prop) (d e : System) : Prop where
  alive : e.alive = d.alive
  connections : e.connections = d.connections
  callbacks : ∀ b ∈ e.callbacks, b ∈ d.callbacks ∨ b.keys = none
  log : ∃ l, e.log = l ++ d.log ∧ ∀ ev ∈ l, ∃ s, p s ∧ ev.uses = some s

theorem Behind.refl (d : System) : Behind p d d :=
  ⟨rfl, rfl, fun _ => .inl, [], rfl, by simp⟩

theorem Behind.trans {f : System} (h : Behind p d e) (h' : Behind p e f) : Behind p d f := by
  obtain ⟨l, hl, hp⟩ := h.log
  obtain ⟨l', hl', hp'⟩ := h'.log
  refine ⟨h'.alive.trans h.alive, h'.connections.trans h.connections, fun b hb => ?_, l' ++ l, ?_,
    fun ev hev => ?_⟩
  · rcases h'.callbacks b hb with hb | hk
    · exact h.callbacks b hb
    · exact .inr hk
  · rw [hl', hl, List.append_assoc]
  · rcases List.mem_append.mp hev with hev | hev
    · exact hp' ev hev
    · exact hp ev hev

theorem Behind.foldl {f : System → ℕ → System} {l : List ℕ} (hf : ∀ d, ∀ s ∈ l, Behind p d (f d s))
    (d : System) : Behind p d (l.foldl f d) := by
  induction l generalizing d with
  | nil => exact .refl d
  | cons s l ih =>
    have htail : ∀ d, ∀ s' ∈ l, Behind p d (f d s') := fun d s' hm =>
      hf d s' (List.mem_cons_of_mem s hm)
    exact (hf d s List.mem_cons_self).trans (ih htail (f d s))

theorem behind_prepareServerDrain (d : System) (hp : p s) : Behind p d (d.prepareServerDrain s) :=
  ⟨rfl, rfl, fun _ => .inl, [.started s], rfl, by simpa [Event.uses] using hp⟩

/-- `drain_server` gives up, or it reads the server's queue and may leave a block there. -/
theorem drainServer_cases (d : System) (b : Callback) :
    d.drainServer b = d ∨ d.alive b.server = true ∧ d.drainState b.server = some b.generation ∧
      ∃ R, (R = d.callbacks ∨ R = b ::ₘ d.callbacks) ∧
        d.drainServer b = { d with callbacks := R, log := .looked b.server b.stop :: d.log } := by
  unfold System.drainServer
  dsimp only
  split_ifs with hskip hqueue
  · exact .inl rfl
  all_goals
    simp only [Bool.or_eq_true, Bool.not_eq_true', decide_eq_true_eq, not_or, Bool.not_eq_false,
      not_not] at hskip
  · exact .inr ⟨hskip.1, hskip.2, _, .inl rfl, rfl⟩
  · exact .inr ⟨hskip.1, hskip.2, _, .inr rfl, rfl⟩

theorem mem_callbacks {b b' : Callback} {Q R : Multiset Callback} (hk : b.keys = none)
    (hR : R = Q ∨ R = b ::ₘ Q) (hb' : b' ∈ R) : b' ∈ Q ∨ b'.keys = none := by
  rcases hR with rfl | rfl
  · exact .inl hb'
  · rcases Multiset.mem_cons.mp hb' with rfl | hb'
    · exact .inr hk
    · exact .inl hb'

theorem behind_originalStop (d : System) (hp : p s) (modern : Bool) :
    Behind p d (d.originalStop s modern) := by
  have hstopped : Behind p d { d with stops := d.stops + 1, log := .stopped s d.stops :: d.log } :=
    ⟨rfl, rfl, fun _ => .inl, [.stopped s d.stops], rfl, by simpa [Event.uses] using hp⟩
  unfold System.originalStop System.drainAfterStop
  dsimp only
  split_ifs with hmodern
  · split
    · exact hstopped
    · next generation _ =>
      rcases drainServer_cases { d with stops := d.stops + 1, log := .stopped s d.stops :: d.log }
        { server := s, generation := generation, attempt := 0, stop := d.stops } with
        he | ⟨-, -, R, hR, he⟩ <;> rw [he]
      · exact hstopped
      · exact hstopped.trans ⟨rfl, rfl, fun b' => mem_callbacks rfl hR, [.looked s d.stops], rfl,
          by simpa [Event.uses] using hp⟩
  · exact hstopped

/-- In a transition a server is stopped, or its stop is deferred. -/
theorem stopServer_cases (d : System) (a : Shared) (s : ℕ) :
    d.stopServer a s = d ∨ ∃ modern, d.stopServer a s = d.originalStop s modern := by
  unfold System.stopServer
  split_ifs
  · exact .inr ⟨false, rfl⟩
  · exact .inr ⟨true, rfl⟩
  · exact .inl rfl

theorem behind_stopServer (d : System) (a : Shared) (hp : p s) : Behind p d (d.stopServer a s) := by
  rcases stopServer_cases d a s with he | ⟨modern, he⟩ <;> rw [he]
  · exact .refl d
  · exact behind_originalStop d hp modern

theorem mem_starts_transition (h : s ∈ starts a .transition) : s ∈ a.activeServers := by
  unfold starts at h
  dsimp only at h
  split at h
  · cases h
  · split_ifs at h
    · cases h
    · exact h

/-- **A section stops and starts the servers that it is about or that the tables have.** -/
theorem behind_effect (d : System) (a : Shared) (x : Section) :
    Behind (fun s => about x = some s ∨ s ∈ a.deferredTransferServers ∨ s ∈ a.activeServers) d
      (d.effect a x) := by
  cases x with
  | startServer s => exact behind_prepareServerDrain d (.inl rfl)
  | originalStop s modern => exact behind_originalStop d (.inl rfl) modern
  | flush =>
    unfold System.effect
    dsimp only
    split_ifs
    · exact .refl d
    · exact .foldl (fun d s hm => behind_originalStop d (.inr (.inl hm)) true) d
  | transition =>
    have hstart : ∀ s ∈ starts a .transition, about .transition = some s ∨
        s ∈ a.deferredTransferServers ∨ s ∈ a.activeServers := fun s hm =>
      .inr (.inr (mem_starts_transition hm))
    exact (Behind.foldl (fun d s hm => behind_stopServer d a (hstart s hm)) d).trans
      (.foldl (fun d s hm => behind_prepareServerDrain d (hstart s hm)) _)
  | _ => exact .refl d

end Behind

/-! ### The blocks that wait -/

section Drains

variable {d : System} {b : Callback} {R : Multiset Callback} {e : Event} {log : List Event} {s stop : ℕ}

/-- The rounds that a block may still begin for a stop. -/
def left (stop : ℕ) (b : Callback) : ℕ :=
  if b.stop = stop then AQ_SERVER_DRAIN_ATTEMPTS - b.attempt - if b.keys.isSome then 1 else 0 else 0

theorem Stopped.cons (h : Stopped log s stop) (he : e ≠ .started s) : Stopped (e :: log) s stop := by
  obtain ⟨mid, older, rfl, hno⟩ := h
  refine ⟨e :: mid, older, rfl, fun hm => ?_⟩
  rcases List.mem_cons.mp hm with heq | hm
  · exact he heq.symm
  · exact hno hm

theorem not_stopped_started : ¬ Stopped (.started s :: log) s stop := by
  rintro ⟨mid, older, he, hno⟩
  rcases List.cons_eq_append_iff.mp he with ⟨-, he⟩ | ⟨mid', rfl, -⟩
  · cases he
  · exact hno List.mem_cons_self

/-- A block whose generation is the server's, or that has connections to invalidate, goes back to a
stop that no start came after. -/
structure Drains (d : System) : Prop where
  since : ∀ b ∈ d.callbacks, d.drainState b.server = some b.generation ∨ b.keys.getD [] ≠ [] →
    Stopped d.log b.server b.stop
  budget : ∀ stop, d.log.countP (Event.isRound stop) + (d.callbacks.map (left stop)).sum ≤
    AQ_SERVER_DRAIN_ATTEMPTS
  fresh : ∀ stop, d.stops ≤ stop →
    d.log.countP (Event.isRound stop) = 0 ∧ ∀ b ∈ d.callbacks, b.stop ≠ stop
  rightly : Along Event.Rightly d.log

theorem Drains.withThreads (h : Drains d) (t : Threads Shared Section) :
    Drains { d with threads := t } :=
  ⟨h.since, h.budget, h.fresh, h.rightly⟩

/-- Something else happens. -/
theorem Drains.record (h : Drains d) (hs : ∀ s, e ≠ .started s) (hr : ∀ stop, e.isRound stop = false)
    (he : Event.Rightly d.log e) : Drains { d with log := e :: d.log } := by
  have hcount : ∀ stop, (e :: d.log).countP (Event.isRound stop) = d.log.countP (Event.isRound stop) :=
    fun stop => List.countP_cons_of_neg (by simp [hr])
  refine ⟨fun b hb hp => (h.since b hb hp).cons (hs b.server), fun stop => ?_,
    fun stop hle => ?_, ⟨he, h.rightly⟩⟩
  · rw [hcount]
    exact h.budget stop
  · rw [hcount]
    exact h.fresh stop hle

/-- A block is gone. -/
theorem Drains.less (h : Drains d) (hc : d.callbacks = b ::ₘ R) : Drains { d with callbacks := R } := by
  have hsub : ∀ b' ∈ R, b' ∈ d.callbacks := fun b' hb => hc ▸ Multiset.mem_cons_of_mem hb
  refine ⟨fun b' hb => h.since b' (hsub b' hb), fun stop => ?_,
    fun stop hle => ⟨(h.fresh stop hle).1, fun b' hb => (h.fresh stop hle).2 b' (hsub b' hb)⟩,
    h.rightly⟩
  have hb := h.budget stop
  rw [hc, Multiset.map_cons, Multiset.sum_cons] at hb
  dsimp only
  omega

/-- A block is added. -/
theorem Drains.more (h : Drains d)
    (hst : d.drainState b.server = some b.generation ∨ b.keys.getD [] ≠ [] →
      Stopped d.log b.server b.stop)
    (hb : d.log.countP (Event.isRound b.stop) + (d.callbacks.map (left b.stop)).sum + left b.stop b ≤
      AQ_SERVER_DRAIN_ATTEMPTS)
    (hlt : b.stop < d.stops) : Drains { d with callbacks := b ::ₘ d.callbacks } := by
  refine ⟨Multiset.forall_mem_cons.mpr ⟨hst, h.since⟩, fun stop => ?_, fun stop hle => ⟨(h.fresh stop hle).1,
      Multiset.forall_mem_cons.mpr ⟨fun he => ?_, (h.fresh stop hle).2⟩⟩, h.rightly⟩
  rotate_left
  · have hle' : d.stops ≤ stop := hle
    omega
  show d.log.countP (Event.isRound stop) + ((b ::ₘ d.callbacks).map (left stop)).sum ≤
    AQ_SERVER_DRAIN_ATTEMPTS
  rw [Multiset.map_cons, Multiset.sum_cons]
  have hold := h.budget stop
  by_cases heq : b.stop = stop
  · subst heq
    omega
  · rw [left, if_neg heq, Nat.zero_add]
    exact hold

/-- The server's fields are read. -/
theorem Drains.looked (h : Drains d) (s stop : ℕ) : Drains { d with log := .looked s stop :: d.log } :=
  h.record (e := .looked s stop) (fun s => by simp) (fun stop => rfl) trivial

theorem countP_looked (past : List Event) (s stop stop' : ℕ) :
    (Event.looked s stop :: past).countP (Event.isRound stop') = past.countP (Event.isRound stop') :=
  List.countP_cons_of_neg (by simp [Event.isRound])

theorem Drains.drainServer (h : Drains d) (hkeys : b.keys = none)
    (hst : d.drainState b.server = some b.generation → Stopped d.log b.server b.stop)
    (hb : d.log.countP (Event.isRound b.stop) + (d.callbacks.map (left b.stop)).sum +
      (AQ_SERVER_DRAIN_ATTEMPTS - b.attempt) ≤ AQ_SERVER_DRAIN_ATTEMPTS)
    (hlt : b.stop < d.stops) : Drains (d.drainServer b) := by
  rcases drainServer_cases d b with he | ⟨-, hgen, R, hR, he⟩ <;> rw [he]
  · exact h
  · rcases hR with rfl | rfl
    · exact h.looked b.server b.stop
    · refine (h.looked b.server b.stop).more (fun _ => (hst hgen).cons (by simp)) ?_ hlt
      rw [countP_looked, left, if_pos rfl, hkeys]
      exact hb

theorem Drains.originalStop (h : Drains d) (s : ℕ) (modern : Bool) :
    Drains (d.originalStop s modern) := by
  have hf := h.fresh d.stops le_rfl
  have hnew : Drains { d with stops := d.stops + 1, log := .stopped s d.stops :: d.log } := by
    have hr := h.record (e := .stopped s d.stops) (fun s' => by simp) (fun stop => rfl) trivial
    exact ⟨hr.since, hr.budget,
      fun stop hle => hr.fresh stop (by dsimp only at hle ⊢; omega), hr.rightly⟩
  unfold System.originalStop System.drainAfterStop
  dsimp only
  split_ifs with hmodern
  · split
    · exact hnew
    · -- the stop is the last thing that happened, and no block goes back to it yet
      refine hnew.drainServer rfl (fun _ => ⟨[], d.log, rfl, List.not_mem_nil⟩) ?_ (Nat.lt_succ_self _)
      have hrounds : (Event.stopped s d.stops :: d.log).countP (Event.isRound d.stops) = 0 := by
        rw [List.countP_cons_of_neg (by simp [Event.isRound])]
        exact hf.1
      have hsum : (d.callbacks.map (left d.stops)).sum = 0 := by
        refine Multiset.sum_eq_zero fun n hn => ?_
        obtain ⟨b, hb, rfl⟩ := Multiset.mem_map.mp hn
        rw [left, if_neg (hf.2 b hb)]
      dsimp only
      omega
  · exact hnew

/-- A server is started that is spared. -/
theorem Drains.prepareServerDrain (h : Drains d) (hs : d.spared s = true) :
    Drains (d.prepareServerDrain s) := by
  have hspared := of_decide_eq_true hs
  have hcount : ∀ stop, (Event.started s :: d.log).countP (Event.isRound stop) =
      d.log.countP (Event.isRound stop) := fun stop => List.countP_cons_of_neg (by simp [Event.isRound])
  refine ⟨fun b hb hp => ?_, fun stop => ?_, fun stop hle => ?_, ⟨trivial, h.rightly⟩⟩
  · change Function.update d.drainState s (some (d.nextGeneration s)) b.server = _ ∨ _ at hp
    rcases eq_or_ne b.server s with rfl | hne
    · -- no block of the server has its new generation
      obtain ⟨hkeys, hgen⟩ := hspared b hb rfl
      rcases hp with hp | hp
      · rw [Function.update_self] at hp
        exact absurd (Option.some.inj hp).symm hgen
      · exact absurd hkeys hp
    · rw [Function.update_of_ne hne] at hp
      exact (h.since b hb hp).cons fun he => hne (Event.started.inj he).symm
  · show (Event.started s :: d.log).countP _ + _ ≤ _
    rw [hcount]
    exact h.budget stop
  · show (Event.started s :: d.log).countP _ = 0 ∧ _
    rw [hcount]
    exact h.fresh stop hle

/-- **The step of a section.** -/
theorem Drains.effect (h : Drains d) {a : Shared} {x : Section}
    (hs : d.startsSpared a x = true) : Drains (d.effect a x) := by
  have hstops : ∀ (l : List ℕ) (f : System → ℕ → System),
      (∀ d s, f d s = d ∨ ∃ modern, f d s = d.originalStop s modern) → ∀ d : System, Drains d →
      Drains (l.foldl f d) := by
    intro l f hf
    induction l with
    | nil => exact fun d hd => hd
    | cons s l ih =>
      intro d hd
      rcases hf d s with he | ⟨modern, he⟩ <;> rw [List.foldl_cons, he]
      · exact ih d hd
      · exact ih _ (hd.originalStop s modern)
  have hprepare : ∀ (l : List ℕ) (d : System), Drains d → d.sparedAll l = true →
      Drains (l.foldl System.prepareServerDrain d) := by
    intro l
    induction l with
    | nil => exact fun d hd _ => hd
    | cons s l ih =>
      intro d hd hl
      rw [System.sparedAll, Bool.and_eq_true] at hl
      exact ih _ (hd.prepareServerDrain hl.1) hl.2
  cases x with
  | startServer s => exact h.prepareServerDrain hs
  | originalStop s modern => exact h.originalStop s modern
  | flush =>
    unfold System.effect
    dsimp only
    split_ifs
    · exact h
    · exact hstops _ _ (fun d s => .inr ⟨true, rfl⟩) d h
  | transition => exact hprepare _ _ (hstops _ _ (fun d s => stopServer_cases d a s) d h) hs
  | _ => exact h

/-- A block that waits goes back to a stop that was. -/
theorem Drains.stop_lt (h : Drains d) (hb : b ∈ d.callbacks) : b.stop < d.stops := by
  by_contra hle
  exact (h.fresh b.stop (by omega)).2 b hb rfl

/-- What the others have left, without one of the blocks. -/
theorem Drains.rest (h : Drains d) (hc : d.callbacks = b ::ₘ R) :
    d.log.countP (Event.isRound b.stop) + (R.map (left b.stop)).sum + left b.stop b ≤
      AQ_SERVER_DRAIN_ATTEMPTS := by
  have hb := h.budget b.stop
  rw [hc, Multiset.map_cons, Multiset.sum_cons] at hb
  omega

theorem Drains.fire (h : Drains d) (hb : b ∈ d.callbacks) (hk : b.keys = none) (calloc : Bool) :
    Drains (d.fire b calloc) := by
  obtain ⟨R, hc⟩ := Multiset.exists_cons_of_mem hb
  have hR : d.callbacks.erase b = R := by rw [hc, Multiset.erase_cons_head]
  have hlt := h.stop_lt hb
  have hrest := h.rest hc
  have hless := h.less hc
  rw [left, if_pos rfl, hk] at hrest
  unfold System.fire
  dsimp only
  rw [hR]
  split_ifs with hgone hhttp hnone hattempts hbusy
  · exact hless
  all_goals
    have hgen : d.drainState b.server = some b.generation := by
      by_contra hne
      exact hgone (by simp [hne])
    have hlooked := hless.looked b.server b.stop
    have hstopped : Stopped (.looked b.server b.stop :: d.log) b.server b.stop :=
      (h.since b hb (.inl hgen)).cons (by simp)
  · exact hlooked
  · exact hlooked
  · exact hlooked
  · -- a transfer is received, or there is no memory: another attempt
    refine hlooked.drainServer hk (fun _ => hstopped) ?_ hlt
    show (Event.looked b.server b.stop :: d.log).countP (Event.isRound b.stop) +
      (R.map (left b.stop)).sum + (AQ_SERVER_DRAIN_ATTEMPTS - (b.attempt + 1)) ≤
        AQ_SERVER_DRAIN_ATTEMPTS
    rw [countP_looked]
    simp at hrest
    omega
  · -- a round begins, which the block had left
    have hround : ∀ stop, (Event.round b.server b.stop :: .looked b.server b.stop :: d.log).countP
        (Event.isRound stop) = d.log.countP (Event.isRound stop) + if b.stop = stop then 1 else 0 := by
      intro stop
      rw [List.countP_cons, countP_looked]
      simp [Event.isRound]
    refine ⟨Multiset.forall_mem_cons.mpr ⟨fun _ => hstopped.cons (by simp), fun b' hb' hp =>
        (hlooked.since b' hb' hp).cons (by simp)⟩, fun stop => ?_, fun stop hle => ⟨?_,
      Multiset.forall_mem_cons.mpr ⟨fun he => ?_, (hlooked.fresh stop hle).2⟩⟩,
      ⟨trivial, hlooked.rightly⟩⟩
    · dsimp only
      rw [hround, Multiset.map_cons, Multiset.sum_cons]
      have hold := hless.budget stop
      dsimp only at hold
      by_cases heq : b.stop = stop
      · subst heq
        simp [left] at hrest ⊢
        omega
      · simp only [left, heq, if_false, Nat.zero_add, Nat.add_zero]
        exact hold
    · have hle' : d.stops ≤ stop := hle
      rw [hround, (h.fresh stop hle).1, if_neg (by omega)]
    · have hle' : d.stops ≤ stop := hle
      have : b.stop = stop := he
      omega

theorem Drains.advance {d' : System} (h : Drains d) (hb : b ∈ d.callbacks)
    (hlive : ∀ c ∈ b.keys.getD [], live d.threads.shared c = false) (hs : d.advance b = some d') :
    Drains d' := by
  obtain ⟨R, hc⟩ := Multiset.exists_cons_of_mem hb
  have hR : d.callbacks.erase b = R := by rw [hc, Multiset.erase_cons_head]
  have hlt := h.stop_lt hb
  have hrest := h.rest hc
  have hless := h.less hc
  have hsince := h.since b hb
  unfold System.advance at hs
  rw [hR] at hs
  split at hs
  · cases hs
  · next c cs hk =>
    obtain rfl := Option.some.inj hs
    rw [hk] at hsince hlive
    have hstopped := hsince (.inr (by simp))
    rw [left, if_pos rfl, hk] at hrest
    have hmore := hless.more (b := { b with keys := some cs }) (fun _ => hstopped)
      (by rw [left, if_pos rfl]; exact hrest) hlt
    exact hmore.record (e := .invalidated b.server b.stop c (live d.threads.shared c))
      (fun s => by simp) (fun stop => rfl) ⟨hstopped, hlive c (by simp)⟩
  · next hk =>
    obtain rfl := Option.some.inj hs
    refine hless.drainServer rfl (fun hgen => hsince (.inl hgen)) ?_ hlt
    rw [left, if_pos rfl, hk] at hrest
    simp at hrest
    dsimp only
    omega

end Drains

/-! ### Every run -/

section Inv

variable {home : ℕ → Option ℕ} {d d' : System} {b : Callback} {l : Threads.Label Choice Call} {s : ℕ}

/-- The threads of sharingd. -/
structure Adapted (home : ℕ → Option ℕ) (d : System) : Prop where
  kept : Adapter.Kept d.threads.shared d.threads.all
  modes : Modes d.threads.shared d.threads.all
  asked : Asked home d.threads.shared d.threads.all

/-- A block that has connections to invalidate is alone with them. -/
structure Closing (home : ℕ → Option ℕ) (d : System) : Prop where
  tables : ∀ s, ∀ c ∈ d.connections s, home c = some s
  held : ∀ b ∈ d.callbacks, ∀ c ∈ b.keys.getD [],
    home c = some b.server ∧ live d.threads.shared c = false
  serial : ∀ b ∈ d.callbacks, b.keys ≠ none → ∀ x ∈ d.threads.all,
    (opening x).bind home ≠ some b.server

/-- A server whose last reference is gone. -/
structure Buried (d : System) : Prop where
  gone : ∀ s, d.alive s = false → Gone d.threads.shared s ∧ ∀ x ∈ d.threads.all, launches x ≠ some s
  still : ∀ b ∈ d.callbacks, b.keys ≠ none → d.alive b.server = true
  freed : ∀ s, .deallocated s ∈ d.log → d.alive s = false ∧ ∀ x ∈ d.threads.all, about x ≠ some s
  untouched : Along (fun past e => ∀ s, .deallocated s ∈ past → e.uses ≠ some s) d.log

structure Inv (home : ℕ → Option ℕ) (d : System) : Prop where
  adapted : Adapted home d
  drains : Drains d
  closing : Closing home d
  buried : Buried d

/-- More happens, to servers whose memory was not given back. -/
theorem Buried.append (h : Buried d) {l : List Event}
    (hl : ∀ e ∈ l, ∃ s, e.uses = some s ∧ .deallocated s ∉ d.log) :
    (∀ s, .deallocated s ∈ l ++ d.log → .deallocated s ∈ d.log) ∧
      Along (fun past e => ∀ s, .deallocated s ∈ past → e.uses ≠ some s) (l ++ d.log) := by
  have hold : ∀ r, (∀ e ∈ r, e ∈ l) → ∀ s, .deallocated s ∈ r ++ d.log → .deallocated s ∈ d.log := by
    intro r hr s hm
    rcases List.mem_append.mp hm with hm | hm
    · obtain ⟨s', he, -⟩ := hl _ (hr _ hm)
      cases he
    · exact hm
  refine ⟨hold l fun _ he => he, h.untouched.append fun l' e r he s hm hs => ?_⟩
  obtain ⟨s', hs', hno⟩ := hl e (he ▸ List.mem_append_right l' List.mem_cons_self)
  obtain rfl : s' = s := Option.some.inj (hs'.symm.trans hs)
  refine hno (hold r (fun e' hr => ?_) s' hm)
  rw [he]
  exact List.mem_append_right l' (List.mem_cons_of_mem e hr)

/-- What a thread of sharingd does, and the drains behind it. -/
theorem adapter_cases (h : step home d (.adapter l) = some d') :
    (∃ c t, d.threads.next l = none ∧ d.fits home c = true ∧ t.shared = d.threads.shared ∧
      t.all = c.body + d.threads.all ∧ d' = { d with threads := t }) ∨
    ∃ x ch P new t, d.threads.next l = some (x, ch) ∧ d.threads.all = x ::ₘ P ∧
      sec x ch d.threads.shared = some (t.shared, new) ∧ t.all = new + P ∧
      d' = { d.effect d.threads.shared x with threads := t } := by
  simp only [step, Option.ite_none_right_eq_some] at h
  obtain ⟨hfits, h⟩ := h
  obtain ⟨t, ht, rfl⟩ := Option.map_eq_some_iff.mp h
  rcases Code.step_cases ht with ⟨c, hl, hnext, hshared, hall⟩ | ⟨x, ch, P, new, hnext, hP, hsec, hall⟩
  · refine .inl ⟨c, t, hnext, ?_, hshared, hall, by rw [hnext]⟩
    rcases hl with rfl | ⟨k, rfl⟩ <;> simpa [System.calls] using hfits
  · exact .inr ⟨x, ch, P, new, t, hnext, hP, hsec, hall, by rw [hnext]⟩

/-! A call -/

theorem fits_quiet {y : Section} (h1 : opening y = none) (h2 : asks y = none) (h3 : about y = none) :
    (∀ op, opening y = some op → ∀ s, home op = some s → d.idle s = true) ∧
      (∀ p, asks y = some p → (home p.1).isSome = true → p.2 = true) ∧
      ∀ s, about y = some s → d.alive s = true := by
  simp [h1, h2, h3]

/-- A transfer begins on a connection whose server's queue is free, and a call has its server. -/
theorem body_fits {c : Call} (hc : d.fits home c = true) {y : Section} (hy : y ∈ c.body) :
    (∀ op, opening y = some op → ∀ s, home op = some s → d.idle s = true) ∧
      (∀ p, asks y = some p → (home p.1).isSome = true → p.2 = true) ∧
      ∀ s, about y = some s → d.alive s = true := by
  cases c with
  | transferStart op throws =>
    have hop : home op = none := by simpa [System.fits] using hc
    rcases List.mem_cons.mp hy with rfl | hy
    · refine ⟨?_, ?_, by simp [about]⟩
      · rintro op' he s hs
        obtain rfl := Option.some.inj he
        rw [hop] at hs
        cases hs
      · rintro p he hs
        obtain rfl := Option.some.inj he
        rw [hop] at hs
        cases hs
    · split at hy
      · rw [List.mem_singleton.mp hy]
        exact fits_quiet rfl rfl rfl
      · cases hy
  | receivedRequest op path =>
    simp only [Call.body] at hy
    split at hy
    · rw [List.mem_singleton.mp hy]
      refine ⟨?_, ?_, by simp [about]⟩
      · rintro op' he s hs
        obtain rfl := Option.some.inj he
        simpa [System.fits, hs] using hc
      · rintro p he -
        obtain rfl := Option.some.inj he
        rfl
    · cases hy
  | transferEvent op event | receiveEvent op event =>
    simp only [Call.body] at hy
    split at hy
    · rw [List.mem_singleton.mp hy]
      exact fits_quiet rfl rfl rfl
    · cases hy
  | receiveStop op ask =>
    simp only [Call.body] at hy
    split at hy
    · cases hy
    · rw [List.mem_singleton.mp hy]
      exact fits_quiet rfl rfl rfl
  | modeRequested value =>
    cases value with
    | none => cases hy
    | some v =>
      rw [List.mem_singleton.mp hy]
      exact fits_quiet rfl rfl rfl
  | transferStop | dealloc | modeHeartbeat | expireModeOwner | mainQueue =>
    rw [List.mem_singleton.mp hy]
    exact fits_quiet rfl rfl rfl
  | startServer s | stopServer s =>
    rw [List.mem_singleton.mp hy]
    refine ⟨by simp [opening], by simp [asks], fun s' he => ?_⟩
    obtain rfl := Option.some.inj he
    exact hc

theorem Asked.call {a : Shared} {P : Multiset Section} (h : Asked home a P) {c : Call}
    (hc : d.fits home c = true) : Asked home a (c.body + P) := by
  refine ⟨fun y hy => ?_, fun op l hm => ?_, h.held⟩
  · rcases Multiset.mem_add.mp hy with hy | hy
    · exact (body_fits hc hy).2.1
    · exact h.asking y hy
  · rcases Multiset.mem_add.mp hm with hm | hm
    · cases c.body_entry _ hm
    · exact h.handed op l hm

theorem Adapted.step_adapter (h : Adapted home d) (hs : step home d (.adapter l) = some d') :
    Adapted home d' := by
  rcases adapter_cases hs with ⟨c, t, -, hfits, hshared, hall, rfl⟩ |
    ⟨x, ch, P, new, t, -, hP, hsec, hall, rfl⟩
  · refine ⟨?_, ?_, ?_⟩ <;> dsimp only <;> rw [hshared, hall]
    · exact h.kept.call c
    · exact h.modes.call c
    · exact h.asked.call hfits
  · have hkept := hP ▸ h.kept
    refine ⟨?_, ?_, ?_⟩ <;> dsimp only <;> rw [hall]
    · exact hkept.sec hsec
    · exact (hP ▸ h.modes).sec hkept.accounts hsec
    · exact (hP ▸ h.asked).sec hkept hsec

theorem Closing.step_adapter (h : Closing home d) (ha : Adapted home d)
    (hs : step home d (.adapter l) = some d') : Closing home d' := by
  rcases adapter_cases hs with ⟨c, t, -, hfits, hshared, hall, rfl⟩ |
    ⟨x, ch, P, new, t, -, hP, hsec, hall, rfl⟩
  · refine ⟨h.tables, ?_, fun b hb hk y hy hhome => ?_⟩
    · dsimp only
      rw [hshared]
      exact h.held
    · rw [hall] at hy
      rcases Multiset.mem_add.mp hy with hy | hy
      · obtain ⟨op, hop, hbs⟩ := Option.bind_eq_some_iff.mp hhome
        exact hk (of_decide_eq_true ((body_fits hfits hy).1 op hop _ hbs) b hb rfl)
      · exact h.serial b hb hk y hy hhome
  · have hbehind := behind_effect d d.threads.shared x
    have hx : x ∈ d.threads.all := hP ▸ Multiset.mem_cons_self x P
    refine ⟨fun s c hc => h.tables s c (hbehind.connections ▸ hc), fun b hb c hc => ?_,
      fun b hb hk y hy hhome => ?_⟩
    · rcases hbehind.callbacks b hb with hb | hk
      · obtain ⟨hhome, hoff⟩ := h.held b hb c hc
        refine ⟨hhome, ?_⟩
        by_contra hon
        rcases live_sec (hP ▸ ha.asked) (hP ▸ ha.kept) hsec (by simpa using hon) with hon | hop
        · rw [hoff] at hon
          cases hon
        · refine h.serial b hb ?_ x hx (by rw [hop]; exact hhome)
          rintro hk
          rw [hk] at hc
          cases hc
      · rw [hk] at hc
        cases hc
    · rcases hbehind.callbacks b hb with hb | hk'
      · rw [hall] at hy
        rcases Multiset.mem_add.mp hy with hy | hy
        · obtain ⟨op, hop, hbs⟩ := Option.bind_eq_some_iff.mp hhome
          exact h.serial b hb hk x hx (by rw [(sec_lineage hsec hy).1 op hop]; exact hbs)
        · exact h.serial b hb hk y (hP ▸ Multiset.mem_cons_of_mem hy) hhome
      · exact hk hk'

theorem Buried.step_adapter (h : Buried d) (hs : step home d (.adapter l) = some d') : Buried d' := by
  rcases adapter_cases hs with ⟨c, t, -, hfits, hshared, hall, rfl⟩ |
    ⟨x, ch, P, new, t, -, hP, hsec, hall, rfl⟩
  · have hbody : ∀ y ∈ c.body, ∀ s, d.alive s = false → about y ≠ some s := fun y hy s hdead he => by
      rw [(body_fits hfits hy).2.2 s he] at hdead
      cases hdead
    refine ⟨fun s hdead => ?_, h.still, fun s hm => ?_, h.untouched⟩
    · obtain ⟨hgone, hlaunch⟩ := h.gone s hdead
      dsimp only
      rw [hshared, hall]
      refine ⟨hgone, fun y hy he => ?_⟩
      rcases Multiset.mem_add.mp hy with hy | hy
      · exact hbody y hy s hdead (about_of_launches he)
      · exact hlaunch y hy he
    · obtain ⟨hdead, habout⟩ := h.freed s hm
      refine ⟨hdead, fun y hy => ?_⟩
      dsimp only at hy
      rw [hall] at hy
      rcases Multiset.mem_add.mp hy with hy | hy
      · exact hbody y hy s hdead
      · exact habout y hy
  · have hbehind := behind_effect d d.threads.shared x
    have hx : x ∈ d.threads.all := hP ▸ Multiset.mem_cons_self x P
    obtain ⟨l, hlog, huses⟩ := hbehind.log
    obtain ⟨hfreed, huntouched⟩ := h.append (l := l) fun e he => by
      obtain ⟨s, hs, hes⟩ := huses e he
      refine ⟨s, hes, fun hm => ?_⟩
      obtain ⟨hdead, habout⟩ := h.freed s hm
      obtain ⟨hgone, -⟩ := h.gone s hdead
      rcases hs with hs | hs | hs
      · exact habout x hx hs
      · exact hgone.deferred hs
      · exact hgone.active hs
    have hall' : ∀ f : Section → Option ℕ, (∀ y ∈ new, ∀ s, f y = some s → f x = some s) → ∀ s,
        (∀ y ∈ d.threads.all, f y ≠ some s) → ∀ y ∈ t.all, f y ≠ some s := by
      intro f hf s hold y hy he
      rw [hall] at hy
      rcases Multiset.mem_add.mp hy with hy | hy
      · exact hold x hx (hf y hy s he)
      · exact hold y (hP ▸ Multiset.mem_cons_of_mem hy) he
    refine ⟨fun s hdead => ?_, fun b hb hk => ?_, fun s hm => ?_, hlog ▸ huntouched⟩
    · obtain ⟨hgone, hlaunch⟩ := h.gone s (hbehind.alive ▸ hdead)
      exact ⟨gone_sec hgone hsec (hlaunch x hx),
        hall' launches (fun y hy => (sec_lineage hsec hy).2.2.1) s hlaunch⟩
    · rcases hbehind.callbacks b hb with hb | hk'
      · show (d.effect d.threads.shared x).alive b.server = true
        rw [hbehind.alive]
        exact h.still b hb hk
      · exact absurd hk' hk
    · obtain ⟨hdead, habout⟩ := h.freed s (hfreed s (hlog ▸ hm))
      exact ⟨hbehind.alive ▸ hdead, hall' about (fun y hy => (sec_lineage hsec hy).2.1) s habout⟩

/-! A block -/

/-- A block of the server `s` runs on: it leaves behind blocks that have no connections yet, or one of
`s` that meets `p`, and it uses no other server. -/
structure Runs (s : ℕ) (p : Callback → Prop) (d d' : System) : Prop where
  threads : d'.threads = d.threads
  alive : d'.alive = d.alive
  connections : d'.connections = d.connections
  callbacks : ∀ b ∈ d'.callbacks, b ∈ d.callbacks ∨ b.keys = none ∨
    d.alive s = true ∧ b.server = s ∧ p b
  log : ∃ l, d'.log = l ++ d.log ∧ ∀ e ∈ l, e.uses = some s ∧ d.alive s = true

theorem Runs.trans {p : Callback → Prop} {d'' : System} (h : Runs s p d d') (h' : Runs s p d' d'') :
    Runs s p d d'' := by
  obtain ⟨l, hl, huses⟩ := h.log
  obtain ⟨l', hl', huses'⟩ := h'.log
  refine ⟨h'.threads.trans h.threads, h'.alive.trans h.alive, h'.connections.trans h.connections,
    fun b hb => ?_, l' ++ l, by rw [hl', hl, List.append_assoc], fun e he => ?_⟩
  · rcases h'.callbacks b hb with hb | hk | ⟨hlive, hb⟩
    · exact h.callbacks b hb
    · exact .inr (.inl hk)
    · exact .inr (.inr ⟨h.alive ▸ hlive, hb⟩)
  · rcases List.mem_append.mp he with he | he
    · exact h.alive ▸ huses' e he
    · exact huses e he

theorem drainServer_runs {p : Callback → Prop} (d : System) (hk : b.keys = none) :
    Runs b.server p d (d.drainServer b) := by
  rcases drainServer_cases d b with he | ⟨hlive, -, R, hR, he⟩ <;> rw [he]
  · exact ⟨rfl, rfl, rfl, fun _ => .inl, [], rfl, by simp⟩
  · refine ⟨rfl, rfl, rfl, fun b' hb' => ?_, [_], rfl, by simp [Event.uses, hlive]⟩
    exact (mem_callbacks hk hR hb').imp_right .inl

/-- A round begins only where the block's checks hold. -/
theorem fire_runs (d : System) {calloc : Bool} (hk : b.keys = none) :
    Runs b.server (fun b' => b'.keys = some (d.connections b.server) ∧ d.alive b.server = true ∧
      d.drainState b.server = some b.generation ∧ d.http b.server = false ∧
      b.attempt < AQ_SERVER_DRAIN_ATTEMPTS ∧ calloc = true ∧ d.threads.shared.receivingTransfers = 0)
      d (d.fire b calloc) := by
  have hold : ∀ b' ∈ d.callbacks.erase b, b' ∈ d.callbacks := fun _ => Multiset.mem_of_mem_erase
  unfold System.fire
  dsimp only
  split_ifs with hgone hhttp hnone hattempts hbusy
  · exact ⟨rfl, rfl, rfl, fun b' hb' => .inl (hold b' hb'), [], rfl, by simp⟩
  all_goals
    simp only [Bool.or_eq_true, Bool.not_eq_true', decide_eq_true_eq, not_or, Bool.not_eq_false,
      not_not] at hgone
    have hread : ∀ p, Runs b.server p d
        { d with callbacks := d.callbacks.erase b, log := .looked b.server b.stop :: d.log } := fun p =>
      ⟨rfl, rfl, rfl, fun b' hb' => .inl (hold b' hb'), [_], rfl, by simp [Event.uses, hgone.1]⟩
  · exact hread _
  · exact hread _
  · exact hread _
  · exact (hread _).trans (drainServer_runs (b := { b with attempt := b.attempt + 1 }) _ hk)
  · simp only [Bool.or_eq_true, Bool.not_eq_true', decide_eq_true_eq, not_or, Bool.not_eq_false,
      not_not, not_le] at hbusy hattempts
    refine ⟨rfl, rfl, rfl, Multiset.forall_mem_cons.mpr ⟨.inr (.inr ⟨hgone.1, rfl, rfl, hgone.1,
      hgone.2, ?_, hattempts, hbusy.2, hbusy.1⟩), fun b' hb' => .inl (hold b' hb')⟩,
      [.round b.server b.stop, .looked b.server b.stop], rfl, by simp [Event.uses, hgone.1]⟩
    simpa using hhttp

theorem advance_runs (hlive : d.alive b.server = true) (h : d.advance b = some d') :
    Runs b.server (fun b' => ∀ c ∈ b'.keys.getD [], c ∈ b.keys.getD []) d d' := by
  have hold : ∀ b' ∈ d.callbacks.erase b, b' ∈ d.callbacks := fun _ => Multiset.mem_of_mem_erase
  unfold System.advance at h
  split at h
  · cases h
  · next c cs hk =>
    obtain rfl := Option.some.inj h
    refine ⟨rfl, rfl, rfl, Multiset.forall_mem_cons.mpr ⟨.inr (.inr ⟨hlive, rfl, ?_⟩),
      fun b' hb' => .inl (hold b' hb')⟩, [_], rfl, by simp [Event.uses, hlive]⟩
    rw [hk]
    exact fun c' hc' => List.mem_cons_of_mem c hc'
  · obtain rfl := Option.some.inj h
    have hless : Runs b.server (fun b' => ∀ c ∈ b'.keys.getD [], c ∈ b.keys.getD []) d
        { d with callbacks := d.callbacks.erase b } :=
      ⟨rfl, rfl, rfl, fun b' hb' => .inl (hold b' hb'), [], rfl, by simp⟩
    exact hless.trans (drainServer_runs (b := { b with attempt := b.attempt + 1, keys := none }) _ rfl)

theorem Closing.runs {p : Callback → Prop} (h : Closing home d) (hr : Runs s p d d')
    (hp : ∀ b, p b → ∀ c ∈ b.keys.getD [], home c = some s ∧ live d.threads.shared c = false)
    (hquiet : ∀ x ∈ d.threads.all, (opening x).bind home ≠ some s) : Closing home d' := by
  refine ⟨by rw [hr.connections]; exact h.tables, fun b hb c hc => ?_, fun b hb hk => ?_⟩ <;>
    rw [hr.threads] <;> rcases hr.callbacks b hb with hb | hnone | ⟨-, rfl, hpb⟩
  · exact h.held b hb c hc
  · rw [hnone] at hc
    cases hc
  · exact hp b hpb c hc
  · exact h.serial b hb hk
  · exact absurd hnone hk
  · exact hquiet

theorem Buried.runs {p : Callback → Prop} (h : Buried d) (hr : Runs s p d d') : Buried d' := by
  obtain ⟨l, hlog, huses⟩ := hr.log
  obtain ⟨hfreed, huntouched⟩ := h.append (l := l) fun e he => by
    obtain ⟨hs, hlive⟩ := huses e he
    refine ⟨s, hs, fun hm => ?_⟩
    rw [(h.freed _ hm).1] at hlive
    cases hlive
  refine ⟨by rw [hr.threads, hr.alive]; exact h.gone, fun b hb hk => ?_, fun s' hm => ?_,
    hlog ▸ huntouched⟩
  · rw [hr.alive]
    rcases hr.callbacks b hb with hb | hnone | ⟨hlive, rfl, -⟩
    · exact h.still b hb hk
    · exact absurd hnone hk
    · exact hlive
  · rw [hr.threads, hr.alive]
    exact h.freed s' (hfreed s' (hlog ▸ hm))

theorem Inv.fire (h : Inv home d) {calloc : Bool} (hb : b ∈ d.callbacks) (hk : b.keys = none)
    (hquiet : d.quiet home b.server = true) (hfit : d.fit (.fire b calloc) = true) :
    Inv home (d.fire b calloc) := by
  have hr : Runs b.server _ d (d.fire b calloc) := fire_runs d hk
  refine ⟨?_, h.drains.fire hb hk calloc, h.closing.runs hr ?_ (of_decide_eq_true hquiet),
    h.buried.runs hr⟩
  · obtain ⟨h1, h2, h3⟩ := h.adapted
    refine ⟨?_, ?_, ?_⟩ <;> rw [hr.threads] <;> assumption
  · rintro b' ⟨hkeys, halive, hgen, hhttp, hattempt, hcalloc, hzero⟩ c hc
    rw [hkeys] at hc
    have hhome := h.closing.tables b.server c hc
    refine ⟨hhome, ?_⟩
    cases hmode : d.threads.shared.nativeMode with
    | false =>
      exact live_eq_false h.adapted.kept h.adapted.modes h.adapted.asked (by rw [hhome]; rfl) hmode
        hzero
    | true =>
      -- nothing counts the leases of native mode
      simp only [System.fit, halive, hgen, hhttp, hattempt, hcalloc, hzero, hmode] at hfit
      have hall : ((d.connections b.server).all fun c => !live d.threads.shared c) = true := by
        simpa using hfit
      simpa using List.all_eq_true.mp hall c hc

theorem Inv.advance (h : Inv home d) (hb : b ∈ d.callbacks) (hs : d.advance b = some d') :
    Inv home d' := by
  have hk : b.keys ≠ none := by
    rintro hk
    simp [System.advance, hk] at hs
  have hr := advance_runs (h.buried.still b hb hk) hs
  have hheld := h.closing.held b hb
  refine ⟨?_, h.drains.advance hb (fun c hc => (hheld c hc).2) hs,
    h.closing.runs hr (fun b' hp c hc => hheld c (hp c hc)) (h.closing.serial b hb hk),
    h.buried.runs hr⟩
  obtain ⟨h1, h2, h3⟩ := h.adapted
  refine ⟨?_, ?_, ?_⟩ <;> rw [hr.threads] <;> assumption

/-! The end of a server -/

theorem Inv.dealloc {k : Option ℕ} {t : Threads Shared Section} (h : Inv home d)
    (hlive : d.alive s = true) (hreleased : d.released s = true)
    (ht : d.threads.push [.stopServer s] k = some t) :
    Inv home { d with
      alive := Function.update d.alive s false
      threads := { t with shared := vanish t.shared s } } := by
  obtain ⟨hshared, hall⟩ := Threads.push_all ht
  simp only [System.released, Bool.and_eq_true, decide_eq_true_eq] at hreleased
  obtain ⟨⟨⟨hleased, hdeferred⟩, hidle⟩, habout⟩ := hreleased
  have hmem : ∀ x ∈ t.all, x = .stopServer s ∨ x ∈ d.threads.all := by
    intro x hx
    rw [hall] at hx
    simpa using hx
  have hdead : ∀ s', Function.update d.alive s false s' = false → s' = s ∨ d.alive s' = false := by
    intro s' hs'
    rcases eq_or_ne s' s with he | hne
    · exact .inl he
    · exact .inr (by rwa [Function.update_of_ne hne] at hs')
  rw [hshared]
  obtain ⟨h1, h2, h3, h4⟩ := h.drains
  refine ⟨⟨?_, ?_, ?_⟩, ⟨h1, h2, h3, h4⟩, ⟨h.closing.tables, h.closing.held, ?_⟩, ⟨?_, ?_, ?_,
    h.buried.untouched⟩⟩
  · show Adapter.Kept (vanish d.threads.shared s) t.all
    rw [hall]
    exact (h.adapted.kept.call (.stopServer s)).undisturbed (undisturbed_vanish _ s)
  · show Modes (vanish d.threads.shared s) t.all
    rw [hall]
    obtain ⟨h1, h2, h3, h4, h5, h6⟩ := h.adapted.modes.call (.stopServer s)
    exact ⟨h1, h2, h3, h4, h5, h6⟩
  · obtain ⟨h1, h2, h3⟩ := h.adapted.asked
    refine ⟨fun x hx => ?_, fun op l hm => ?_, h3⟩
    · rcases hmem x hx with rfl | hx
      · simp [asks]
      · exact h1 x hx
    · rcases hmem _ hm with he | hm
      · cases he
      · exact h2 op l hm
  · intro b hb hk x hx
    rcases hmem x hx with rfl | hx
    · simp [opening]
    · exact h.closing.serial b hb hk x hx
  · intro s' hs'
    rcases hdead s' hs' with rfl | hs'
    · refine ⟨gone_vanish_self hleased hdeferred, fun x hx he => ?_⟩
      rcases hmem x hx with rfl | hx
      · cases he
      · exact habout x hx (about_of_launches he)
    · obtain ⟨hgone, hlaunch⟩ := h.buried.gone s' hs'
      refine ⟨gone_vanish hgone s, fun x hx => ?_⟩
      rcases hmem x hx with rfl | hx
      · simp [launches]
      · exact hlaunch x hx
  · intro b hb hk
    show Function.update d.alive s false b.server = true
    rw [Function.update_of_ne fun he => hk (of_decide_eq_true hidle b hb he)]
    exact h.buried.still b hb hk
  · intro s' hm
    obtain ⟨hs', hno⟩ := h.buried.freed s' hm
    have hne : s' ≠ s := by
      rintro rfl
      rw [hlive] at hs'
      cases hs'
    refine ⟨(Function.update_of_ne hne ..).trans hs', fun x hx => ?_⟩
    rcases hmem x hx with rfl | hx
    · exact fun he => hne (Option.some.inj he).symm
    · exact hno x hx

theorem Inv.free (h : Inv home d) (hdead : d.alive s = false)
    (habout : ∀ x ∈ d.threads.all, about x ≠ some s) :
    Inv home { d with log := .deallocated s :: d.log } := by
  obtain ⟨h1, h2, h3⟩ := h.adapted
  obtain ⟨h4, h5, h6⟩ := h.closing
  refine ⟨⟨h1, h2, h3⟩, h.drains.record (e := .deallocated s) (by simp) (fun _ => rfl) trivial,
    ⟨h4, h5, h6⟩, ⟨h.buried.gone, h.buried.still, fun s' hm => ?_,
      ⟨fun s' _ => by simp [Event.uses], h.buried.untouched⟩⟩⟩
  rcases List.mem_cons.mp hm with he | hm
  · obtain rfl := Event.deallocated.inj he
    exact ⟨hdead, habout⟩
  · exact h.buried.freed s' hm

/-- **The step of a run.** -/
theorem Inv.step {l : Label} (h : Inv home d) (hs : fitStep home d l = some d') : Inv home d' := by
  simp only [fitStep, Option.ite_none_right_eq_some] at hs
  obtain ⟨hfit, hs⟩ := hs
  cases l with
  | adapter l =>
    refine ⟨h.adapted.step_adapter hs, ?_, h.closing.step_adapter h.adapted hs,
      h.buried.step_adapter hs⟩
    rcases adapter_cases hs with ⟨c, t, -, -, -, -, rfl⟩ | ⟨x, ch, P, new, t, hnext, -, -, -, rfl⟩
    · exact h.drains.withThreads t
    · simp only [System.fit, hnext] at hfit
      exact (h.drains.effect hfit).withThreads t
  | native s http queue connections =>
    simp only [Drain.step, Option.ite_none_right_eq_some] at hs
    obtain ⟨hhome, hs⟩ := hs
    obtain rfl := Option.some.inj hs
    obtain ⟨⟨h1, h2, h3⟩, ⟨h4, h5, h6, h7⟩, h9, ⟨h10, h11, h12, h13⟩⟩ := h
    refine ⟨⟨h1, h2, h3⟩, ⟨h4, h5, h6, h7⟩, ⟨fun s' c hc => ?_, h9.held, h9.serial⟩,
      ⟨h10, h11, h12, h13⟩⟩
    rcases eq_or_ne s' s with rfl | hne
    · dsimp only at hc
      rw [Function.update_self] at hc
      simpa using List.all_eq_true.mp hhome c hc
    · dsimp only at hc
      rw [Function.update_of_ne hne] at hc
      exact h9.tables s' c hc
  | dealloc k s =>
    simp only [Drain.step, Option.ite_none_right_eq_some, Bool.and_eq_true] at hs
    obtain ⟨⟨hlive, hreleased⟩, hs⟩ := hs
    obtain ⟨t, ht, rfl⟩ := Option.map_eq_some_iff.mp hs
    exact h.dealloc hlive hreleased ht
  | free s =>
    simp only [Drain.step, Option.ite_none_right_eq_some, Bool.and_eq_true, Bool.not_eq_true',
      decide_eq_true_eq] at hs
    obtain ⟨⟨hdead, habout⟩, hs⟩ := hs
    obtain rfl := Option.some.inj hs
    exact h.free hdead habout
  | fire b calloc =>
    simp only [Drain.step, Option.ite_none_right_eq_some] at hs
    obtain ⟨⟨hb, hk, -, hquiet⟩, hs⟩ := hs
    obtain rfl := Option.some.inj hs
    exact h.fire hb hk hquiet hfit
  | advance b =>
    simp only [Drain.step, Option.ite_none_right_eq_some] at hs
    exact h.advance hs.1 hs.2

theorem inv_start (home : ℕ → Option ℕ) (n : ℕ) : Inv home (start n) := by
  have hall : (install n).all = 0 := by
    simp [Threads.all, Threads.pending, install]
  have hmodes : Modes (install n).shared (install n).all := by
    rw [hall]
    refine ⟨?_, ?_, ?_, ?_, ?_, ?_⟩ <;> simp [install]
  refine ⟨⟨kept_install n, hmodes, ?_⟩, ⟨?_, ?_, ?_, trivial⟩, ⟨?_, ?_, ?_⟩, ⟨?_, ?_, ?_, trivial⟩⟩
  · show Asked home (install n).shared (install n).all
    rw [hall]
    refine ⟨?_, ?_, ?_⟩ <;> simp [install]
  all_goals simp [start]

variable {n : ℕ} {ls : List Label}

/-- **Draining a stopped receiver, in every run whose steps are fit.** -/
theorem drain_orderly (h : exec (fitStep home) (start n) ls = some d) : Orderly d.log := by
  have hinv : Inv home d :=
    (exec_path h).invariant (I := Inv home) (fun d l d' hd hs => hd.step hs) (inv_start home n)
  refine ⟨hinv.drains.rightly, fun stop => ?_, fun later s past he e hm hs => ?_⟩
  · have := hinv.drains.budget stop
    omega
  · obtain ⟨l, r, rfl⟩ := List.append_of_mem hm
    refine along_iff.mp hinv.buried.untouched l e (r ++ .deallocated s :: past) ?_ s (by simp) hs
    rw [he, List.append_assoc, List.cons_append]

/-- The only connection, of server 5. -/
def connection (op : ℕ) : Option ℕ := if op = 10 then some 5 else none

def onMain (c : Call) (k : ℕ) : List Label :=
  .adapter (.mainCall c) :: List.replicate k (.adapter (.mainRun {}))

def aside (c : Call) (k : ℕ) : List Label :=
  .adapter (.call 0 c) :: List.replicate k (.adapter (.run 0 {}))

/-- A receiver is started and stopped, and a peer stays connected. -/
def stoppedReceiver : List Label :=
  onMain (.startServer 5) 3 ++ .native 5 true true [10] ::
    onMain (.stopServer 5) 5 ++ [.native 5 false true [10]]

def waiting (attempt : ℕ) (keys : Option (List ℕ)) : Callback :=
  { server := 5, generation := 1, attempt := attempt, stop := 0, keys := keys }

/-- The peer's connection is closed, and the receiver goes away while its block waits once more. -/
def drained : List Label :=
  stoppedReceiver ++ [.fire (waiting 0 none) true, .advance (waiting 0 (some [10])),
    .native 5 false true [], .advance (waiting 0 (some [])), .dealloc none 5] ++
    List.replicate 5 (.adapter (.mainRun {})) ++ [.free 5, .fire (waiting 1 none) true]

theorem drained_runs : (exec (fitStep connection) (start 1) drained).isSome := by decide +kernel

theorem drain_orderly_drained :
    Orderly ((exec (fitStep connection) (start 1) drained).get drained_runs).log :=
  drain_orderly (Option.some_get drained_runs).symm

/-- In native mode the stopped receiver is asked to receive, and its block comes. -/
def askedInNativeMode : List Label :=
  stoppedReceiver ++ aside (.modeRequested (some true)) 3 ++ onMain .mainQueue 3 ++
    aside (.receivedRequest 10 "/Ask") 4 ++
    [.fire (waiting 0 none) true, .advance (waiting 0 (some [10]))]

/-- The receiver is started again while its block closes connections. -/
def startedMeanwhile : List Label :=
  stoppedReceiver ++ .fire (waiting 0 none) true :: onMain (.startServer 5) 1 ++
    [.advance (waiting 0 (some [10]))]

theorem drain_disorderly :
    (∃ d, exec (step connection) (start 1) askedInNativeMode = some d ∧ ¬ Orderly d.log) ∧
    ∃ d, exec (step connection) (start 1) startedMeanwhile = some d ∧ ¬ Orderly d.log := by
  have hasked : (exec (step connection) (start 1) askedInNativeMode).map (fun d => d.log.head?) =
      some (some (.invalidated 5 0 10 true)) := by decide +kernel
  have hstarted : (exec (step connection) (start 1) startedMeanwhile).map (fun d => d.log.take 2) =
      some [.invalidated 5 0 10 false, .started 5] := by decide +kernel
  obtain ⟨d, hd, hlog⟩ := Option.map_eq_some_iff.mp hasked
  obtain ⟨e, he, hlog'⟩ := Option.map_eq_some_iff.mp hstarted
  refine ⟨⟨d, hd, fun h => ?_⟩, e, he, fun h => ?_⟩
  · obtain ⟨past, hpast⟩ := List.head?_eq_some_iff.mp hlog
    have hrightly := h.rightly
    rw [hpast] at hrightly
    cases hrightly.1.2
  · have hrightly := h.rightly
    rw [← List.take_append_drop 2 e.log, hlog'] at hrightly
    exact not_stopped_started hrightly.1.1

end Inv

end AquaTransport.Drain
