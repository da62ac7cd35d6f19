import AquaTransport.Lib.Threads
import Mathlib.Algebra.Order.Ring.Rat
import Mathlib.Data.Finset.Insert
import Mathlib.Data.Finset.Card
import Mathlib.Data.Finset.Range

/-!
# AquaTransport.AirDrop.Adapter — modes, transfers and receivers inside sharingd

The adapter's tables as all threads share them, and its calls as lists of critical sections.  sharingd
starts and stops its receivers on the main thread, which also runs the queued blocks; transfers begin
and end on any thread.  A call that native code makes from inside another one is a call of its own.
What a transition or a flush calls under the class lock belongs to its section.
-/

namespace AquaTransport.Adapter

/-- An `AQTransferLease`; `token` tells whether it has one.  `native` and `asked` are what
`begin_transfer` had read and was called with. -/
structure Lease where
  active : Bool := false
  incoming : Bool := false
  token : Bool := false
  servers : Option (Finset ℕ) := none
  native : Bool := false
  asked : Bool := false

inductive Owner
  | token (l : ℕ)
  | server (s : ℕ)
  deriving DecidableEq

/-- A block of the main queue. -/
inductive Block
  | transition
  | flush
  deriving DecidableEq

/-- What was done; for a native stop, with the live leases that listed the receiver. -/
inductive Event
  | began (l : ℕ)
  | finished (l : ℕ)
  | deferred (s : ℕ)
  | resumed (s : ℕ)
  /-- A deferred stop was carried out. -/
  | carried (s : ℕ)
  | originalStop (s : ℕ) (under : List ℕ)
  deriving DecidableEq

/-- A critical section, with the locals that its thread has at that point. -/
inductive Section
  -- `begin_transfer`
  | beginIn (op : ℕ) (incoming : Bool)
  | countIn (op : ℕ) (incoming : Bool) (l : ℕ)
  | own (op : ℕ) (incoming : Bool) (l : ℕ)
  | raise (op : ℕ) (incoming : Bool) (l : ℕ)
  | activate (op : ℕ) (incoming native : Bool) (l : ℕ)
  | associate (op : ℕ) (l : ℕ)
  | leave (op : ℕ)
  -- `end_transfer`, `finish` and the end of an operation
  | endIn (op : ℕ)
  | dissociate (op : ℕ) (l : ℕ)
  | dealloc (op : ℕ)
  | finish (l : ℕ)
  | unlist (l : ℕ)
  | flushLater
  | disown (o : Owner)
  | uncount
  -- modes
  | check
  | dispatch
  | request (native : Bool)
  | beat
  | expire
  -- the main thread
  | block
  | transition
  | flush
  | startServer (s : ℕ)
  | resume (s : ℕ)
  | originalStart (s : ℕ)
  | stopServer (s : ℕ)
  | deferStop (s : ℕ)
  | forget (s : ℕ)
  | originalStop (s : ℕ) (modern : Bool)
  deriving DecidableEq

/-- What the machine decides in a section: whether the radio comes up, for a transition whether it does
for each receiver, and the clock. -/
structure Choice where
  up : Bool := true
  ups : ℕ → Bool := fun _ => true
  now : ℚ := 0

/-- The adapter's globals.  `requestedMode` is `none` when it is negative; `written` has the last value
that a request or an expiry wrote to it.  `started` has, for each receiver, the era of modes in which
its native start was last called, unless its native stop was called since. -/
structure Shared where
  nativeMode : Bool := false
  requestedMode : Option Bool := none
  modeTransitionQueued : Bool := false
  modeHeartbeatAt : ℚ := 0
  activeTransfers : ℕ := 0
  receivingTransfers : ℕ := 0
  leasedTransferServers : ℕ → ℕ := fun _ => 0
  transferServers : Finset ℕ := ∅
  deferredTransferServers : List ℕ := []
  activeServers : List ℕ := []
  pendingServers : Finset ℕ := ∅
  radioOwners : Finset Owner := ∅
  leases : ℕ → Lease := fun _ => {}
  nextLease : ℕ := 0
  association : ℕ → Option ℕ := fun _ => none
  /-- `@synchronized(operation)`. -/
  locked : ℕ → Bool := fun _ => false
  queue : List Block := []
  started : ℕ → Option ℕ := fun _ => none
  era : ℕ := 0
  written : Option Bool := none
  log : List Event := []

namespace Lease

/-- The lease's list has the receiver. -/
def lists (k : Lease) (s : ℕ) : Bool := decide (s ∈ k.servers.getD ∅)

def finished (k : Lease) : Lease := { k with active := false, token := false }

def unlisted (k : Lease) : Lease := { k with servers := none }

end Lease

namespace Shared

variable (a : Shared)

def setLease (l : ℕ) (k : Lease) : Shared := { a with leases := Function.update a.leases l k }

def lock (op : ℕ) : Shared := { a with locked := Function.update a.locked op true }

def unlock (op : ℕ) : Shared := { a with locked := Function.update a.locked op false }

def setAssociation (op : ℕ) (l : Option ℕ) : Shared :=
  { a with association := Function.update a.association op l }

/-- The live leases that list a receiver. -/
def under (s : ℕ) : List ℕ :=
  (List.range a.nextLease).filter fun l => (a.leases l).active && (a.leases l).lists s

/-! ### Receivers -/

def originalStop (s : ℕ) : Shared :=
  { a with
    started := Function.update a.started s none
    log := .originalStop s (a.under s) :: a.log }

def originalStart (s : ℕ) : Shared :=
  { a with started := Function.update a.started s (some a.era) }

def disown (o : Owner) : Shared := { a with radioOwners := a.radioOwners.erase o }

def forget (s : ℕ) : Shared := { a with transferServers := a.transferServers.erase s }

def resume (s : ℕ) : Shared :=
  { a with
    transferServers := insert s a.transferServers
    deferredTransferServers := a.deferredTransferServers.filter (· ≠ s)
    log := .resumed s :: a.log }

def deferStop (s : ℕ) : Shared :=
  { a with
    deferredTransferServers := a.deferredTransferServers.insert s
    log := .deferred s :: a.log }

/-- The start of `stop_server`. -/
def retire (s : ℕ) : Shared :=
  { a with activeServers := a.activeServers.filter (· ≠ s), pendingServers := a.pendingServers.erase s }

/-- The start of `start_server`. -/
def enlist (s : ℕ) : Shared := { a with activeServers := a.activeServers.insert s }

/-- The radio could not be acquired. -/
def await (s : ℕ) : Shared :=
  { a with pendingServers := insert s a.pendingServers, radioOwners := a.radioOwners.erase (.server s) }

/-- It was. -/
def gain (s : ℕ) : Shared :=
  { a with pendingServers := a.pendingServers.erase s, radioOwners := insert (.server s) a.radioOwners }

/-- `stop_server`, when no other thread comes between. -/
def stopServer (s : ℕ) : Shared :=
  let a := a.retire s
  if a.nativeMode then a.originalStop s
  else if a.leasedTransferServers s = 0 then ((a.forget s).originalStop s).disown (.server s)
  else a.deferStop s

/-- `start_server`, when no other thread comes between. -/
def startServer (ups : ℕ → Bool) (s : ℕ) : Shared :=
  let a := a.enlist s
  if a.nativeMode then a.originalStart s
  else if ups s then ((a.gain s).resume s).originalStart s
  else a.await s

/-- A deferred stop. -/
def carryOut (s : ℕ) : Shared :=
  let a := ((a.forget s).originalStop s).disown (.server s)
  { a with log := .carried s :: a.log }

/-- The block of `flush_transfer_servers`. -/
def flush : Shared :=
  if a.receivingTransfers ≠ 0 then a
  else a.deferredTransferServers.foldl carryOut { a with deferredTransferServers := [] }

/-! ### Modes -/

/-- The switch of a transition, with every active receiver stopped before and started after. -/
def switch (next : Bool) (ups : ℕ → Bool) : Shared :=
  let servers := a.activeServers
  let a := servers.foldl stopServer a
  let a := { a with nativeMode := next, era := a.era + 1 }
  servers.foldl (fun a s => a.startServer ups s) a

/-- The block of `apply_pending_mode`. -/
def transition (ups : ℕ → Bool) : Shared × List Section :=
  let a := { a with modeTransitionQueued := false }
  match a.requestedMode with
  | none => (a, [])
  | some next =>
    if a.activeTransfers ≠ 0 then (a, [])
    else
      let a := { a with requestedMode := none }
      if a.nativeMode = next then (a, []) else (a.switch next ups, [.check])

/-- A value for `requested_mode`. -/
def write (v : Bool) : Shared := { a with requestedMode := some v, written := some v }

/-! ### Leases -/

/-- The lease begins; an incoming one takes the receivers that are up. -/
def activate (incoming native : Bool) (l : ℕ) : Shared :=
  let k : Lease := { active := true, incoming := incoming && !native, token := !native,
                     native := native, asked := incoming }
  let a := { a with log := .began l :: a.log }
  if incoming && !native then
    { a.setLease l { k with servers := some a.transferServers } with
      receivingTransfers := a.receivingTransfers + 1
      leasedTransferServers := fun s =>
        a.leasedTransferServers s + if s ∈ a.transferServers then 1 else 0 }
  else a.setLease l k

def finish (l : ℕ) : Shared :=
  { a.setLease l (a.leases l).finished with
    log := .finished l :: a.log }

def unlist (l : ℕ) : Shared :=
  { a.setLease l (a.leases l).unlisted with
    receivingTransfers := a.receivingTransfers - 1
    leasedTransferServers := fun s =>
      a.leasedTransferServers s - if (a.leases l).lists s then 1 else 0 }

end Shared

def Block.sec : Block → Section
  | .transition => .transition
  | .flush => .flush

/-- What a section does, and what its thread has to run next; `none` while it waits for a lock, or for
a block. -/
def sec (x : Section) (c : Choice) (a : Shared) : Option (Shared × List Section) :=
  match x with
  | .beginIn op incoming =>
    if a.locked op then none
    else if (a.association op).isSome then some (a, [])
    else
      some ({ a.lock op with nextLease := a.nextLease + 1 }, [.countIn op incoming a.nextLease])
  | .countIn op incoming l =>
    some ({ a with activeTransfers := a.activeTransfers + 1 },
      [if a.nativeMode then .activate op incoming true l else .own op incoming l])
  | .own op incoming l =>
    some ({ a with radioOwners := insert (.token l) a.radioOwners }, [.raise op incoming l])
  | .raise op incoming l =>
    some (a, if c.up then [.activate op incoming false l]
      else [.disown (.token l), .uncount, .leave op, .finish l])
  | .activate op incoming native l => some (a.activate incoming native l, [.associate op l])
  | .associate op l => some ((a.setAssociation op (some l)).unlock op, [])
  | .leave op => some (a.unlock op, [])
  | .endIn op =>
    if a.locked op then none
    else
      match a.association op with
      | none => some (a, [])
      | some l => some (a.lock op, [.finish l, .dissociate op l])
  -- The association was the lease's only owner: its `dealloc` finishes it once more.
  | .dissociate op l => some ((a.setAssociation op none).unlock op, [.finish l])
  | .dealloc op =>
    if a.locked op then none
    else
      match a.association op with
      | none => some (a, [])
      | some l => some (a.setAssociation op none, [.finish l])
  | .finish l =>
    if (a.leases l).active then
      some (a.finish l,
        (if (a.leases l).token then [.disown (.token l)] else []) ++
          .uncount :: if (a.leases l).incoming then [.unlist l] else [])
    else some (a, [])
  | .unlist l => some (a.unlist l, [.flushLater])
  | .flushLater => some ({ a with queue := a.queue ++ [.flush] }, [])
  | .disown o => some (a.disown o, [])
  | .uncount => some ({ a with activeTransfers := a.activeTransfers - 1 }, [.check])
  | .check =>
    if a.modeTransitionQueued || a.requestedMode.isNone || a.activeTransfers ≠ 0 then some (a, [])
    else some ({ a with modeTransitionQueued := true }, [.dispatch])
  | .dispatch => some ({ a with queue := a.queue ++ [.transition] }, [])
  | .request native =>
    some ({ a.write native with
      modeHeartbeatAt := if native then c.now else a.modeHeartbeatAt }, [.check])
  | .beat => some ({ a with modeHeartbeatAt := c.now }, [])
  | .expire =>
    if !(a.nativeMode || a.requestedMode = some true) || c.now - a.modeHeartbeatAt < 10 then
      some (a, [])
    else some (a.write false, [.check])
  | .block =>
    match a.queue with
    | [] => none
    | b :: rest => some ({ a with queue := rest }, [b.sec])
  | .transition => some (a.transition c.ups)
  | .flush => some (a.flush, [])
  | .startServer s =>
    let a := a.enlist s
    if a.nativeMode then some (a, [.originalStart s])
    else if c.up then some (a.gain s, [.resume s])
    else some (a.await s, [])
  | .resume s => some (a.resume s, [.originalStart s])
  | .originalStart s => some (a.originalStart s, [])
  | .stopServer s =>
    let a := a.retire s
    some (a, [if a.nativeMode then .originalStop s false else .deferStop s])
  | .deferStop s =>
    if a.leasedTransferServers s = 0 then some (a, [.forget s]) else some (a.deferStop s, [])
  | .forget s => some (a.forget s, [.originalStop s true])
  | .originalStop s modern =>
    some (a.originalStop s, if modern then [.disown (.server s)] else [])

/-! ### Case by case -/

section Cases

variable {a b : Shared} {c : Choice} {new : List Section} {op l s : ℕ} {incoming : Bool}

theorem beginIn_cases (h : sec (.beginIn op incoming) c a = some (b, new)) :
    a.locked op = false ∧
      ((a.association op).isSome = true ∧ a = b ∧ new = [] ∨
        a.association op = none ∧ b = { a.lock op with nextLease := a.nextLease + 1 } ∧
          new = [.countIn op incoming a.nextLease]) := by
  simp only [sec] at h
  split_ifs at h with hop hass <;> obtain ⟨rfl, rfl⟩ := Prod.mk.inj (Option.some.inj h)
  · exact ⟨Bool.eq_false_of_not_eq_true hop, .inl ⟨hass, rfl, rfl⟩⟩
  · exact ⟨Bool.eq_false_of_not_eq_true hop, .inr ⟨by simpa using hass, rfl, rfl⟩⟩

theorem endIn_cases (h : sec (.endIn op) c a = some (b, new)) :
    a.locked op = false ∧
      (a.association op = none ∧ a = b ∧ new = [] ∨
        ∃ l, a.association op = some l ∧ b = a.lock op ∧ new = [.finish l, .dissociate op l]) := by
  simp only [sec] at h
  split_ifs at h with hop
  refine ⟨Bool.eq_false_of_not_eq_true hop, ?_⟩
  split at h <;> obtain ⟨rfl, rfl⟩ := Prod.mk.inj (Option.some.inj h)
  · next hl => exact .inl ⟨hl, rfl, rfl⟩
  · next l hl => exact .inr ⟨l, hl, rfl, rfl⟩

theorem dealloc_cases (h : sec (.dealloc op) c a = some (b, new)) :
    a.locked op = false ∧
      (a.association op = none ∧ a = b ∧ new = [] ∨
        ∃ l, a.association op = some l ∧ b = a.setAssociation op none ∧ new = [.finish l]) := by
  simp only [sec] at h
  split_ifs at h with hop
  refine ⟨Bool.eq_false_of_not_eq_true hop, ?_⟩
  split at h <;> obtain ⟨rfl, rfl⟩ := Prod.mk.inj (Option.some.inj h)
  · next hl => exact .inl ⟨hl, rfl, rfl⟩
  · next l hl => exact .inr ⟨l, hl, rfl, rfl⟩

theorem finish_cases (h : sec (.finish l) c a = some (b, new)) :
    (a.leases l).active = false ∧ a = b ∧ new = [] ∨
      (a.leases l).active = true ∧ b = a.finish l ∧
        new = (if (a.leases l).token then [.disown (.token l)] else []) ++
          .uncount :: if (a.leases l).incoming then [.unlist l] else [] := by
  simp only [sec] at h
  split at h <;> obtain ⟨rfl, rfl⟩ := Prod.mk.inj (Option.some.inj h)
  · next hon => exact .inr ⟨hon, rfl, rfl⟩
  · next hoff => exact .inl ⟨Bool.eq_false_of_not_eq_true hoff, rfl, rfl⟩

theorem check_cases (h : sec .check c a = some (b, new)) :
    (a.modeTransitionQueued = true ∨ a.requestedMode = none ∨ a.activeTransfers ≠ 0) ∧ a = b ∧
        new = [] ∨
      a.modeTransitionQueued = false ∧ b = { a with modeTransitionQueued := true } ∧
        new = [.dispatch] := by
  simp only [sec] at h
  split_ifs at h with hc <;> obtain ⟨rfl, rfl⟩ := Prod.mk.inj (Option.some.inj h)
  · exact .inl ⟨by simpa [or_assoc] using hc, rfl, rfl⟩
  · simp only [Bool.or_eq_true, not_or, Bool.not_eq_true] at hc
    exact .inr ⟨hc.1.1, rfl, rfl⟩

theorem expire_cases (h : sec .expire c a = some (b, new)) :
    a = b ∧ new = [] ∨
      10 ≤ c.now - a.modeHeartbeatAt ∧ b = a.write false ∧ new = [.check] := by
  simp only [sec] at h
  split_ifs at h with hc <;> obtain ⟨rfl, rfl⟩ := Prod.mk.inj (Option.some.inj h)
  · exact .inl ⟨rfl, rfl⟩
  · simp only [Bool.or_eq_true, decide_eq_true_eq, not_or, not_lt] at hc
    exact .inr ⟨hc.2, rfl, rfl⟩

theorem block_cases (h : sec .block c a = some (b, new)) :
    ∃ k rest, a.queue = k :: rest ∧ b = { a with queue := rest } ∧ new = [k.sec] := by
  simp only [sec] at h
  split at h
  · cases h
  · next k rest hq =>
    obtain ⟨rfl, rfl⟩ := Prod.mk.inj (Option.some.inj h)
    exact ⟨k, rest, hq, rfl, rfl⟩

/-- The mode asked for has to wait for the transfers, or the mode is that already, or it is switched. -/
theorem Shared.transition_cases (a : Shared) (ups : ℕ → Bool) :
    (a.requestedMode = none ∨ a.activeTransfers ≠ 0) ∧
        a.transition ups = ({ a with modeTransitionQueued := false }, []) ∨
      ∃ next, a.requestedMode = some next ∧ a.activeTransfers = 0 ∧
        (a.nativeMode = next ∧
            a.transition ups = ({ a with modeTransitionQueued := false, requestedMode := none }, []) ∨
          a.nativeMode ≠ next ∧ a.transition ups =
            ({ a with modeTransitionQueued := false, requestedMode := none }.switch next ups,
              [.check])) := by
  unfold transition
  dsimp only
  split
  · next hr => exact .inl ⟨.inl hr, rfl⟩
  · next next hr =>
    split_ifs with h0 hn
    · exact .inl ⟨.inr h0, rfl⟩
    · exact .inr ⟨next, hr, not_not.mp h0, .inl ⟨hn, rfl⟩⟩
    · exact .inr ⟨next, hr, not_not.mp h0, .inr ⟨hn, rfl⟩⟩

theorem startServer_cases (h : sec (.startServer s) c a = some (b, new)) :
    a.nativeMode = true ∧ b = a.enlist s ∧ new = [.originalStart s] ∨
      a.nativeMode = false ∧ b = (a.enlist s).gain s ∧ new = [.resume s] ∨
      a.nativeMode = false ∧ b = (a.enlist s).await s ∧ new = [] := by
  simp only [sec] at h
  split_ifs at h with hmode <;> obtain ⟨rfl, rfl⟩ := Prod.mk.inj (Option.some.inj h)
  · exact .inl ⟨hmode, rfl, rfl⟩
  · exact .inr (.inl ⟨Bool.eq_false_of_not_eq_true hmode, rfl, rfl⟩)
  · exact .inr (.inr ⟨Bool.eq_false_of_not_eq_true hmode, rfl, rfl⟩)

theorem deferStop_cases (h : sec (.deferStop s) c a = some (b, new)) :
    a.leasedTransferServers s = 0 ∧ a = b ∧ new = [.forget s] ∨
      a.leasedTransferServers s ≠ 0 ∧ b = a.deferStop s ∧ new = [] := by
  simp only [sec] at h
  split_ifs at h with h0 <;> obtain ⟨rfl, rfl⟩ := Prod.mk.inj (Option.some.inj h)
  · exact .inl ⟨h0, rfl, rfl⟩
  · exact .inr ⟨h0, rfl, rfl⟩

end Cases

/-- 4 is a cancelled transfer, 9 a finished one and 10 a failed one. -/
def transferTerminal (event : ℤ) : Bool := event = 4 || event = 9 || event = 10

/-- The adapter's entries: the hooked methods of transfers and receivers, the notifications of the mode,
its timer, and the main queue. -/
inductive Call
  /-- `throws`: the native start raises an exception. -/
  | transferStart (op : ℕ) (throws : Bool)
  | transferStop (op : ℕ)
  | transferEvent (op : ℕ) (event : ℤ)
  | receiveEvent (op : ℕ) (event : ℤ)
  /-- `ask`: an ask request is pending after the native stop. -/
  | receiveStop (op : ℕ) (ask : Bool)
  | receivedRequest (op : ℕ) (path : String)
  | dealloc (op : ℕ)
  /-- `value`: the notification's number, if it has one. -/
  | modeRequested (value : Option Bool)
  | modeHeartbeat
  | expireModeOwner
  | mainQueue
  | startServer (s : ℕ)
  | stopServer (s : ℕ)

def Call.body : Call → List Section
  | .transferStart op throws => .beginIn op false :: if throws then [.endIn op] else []
  | .transferStop op => [.endIn op]
  | .transferEvent op event | .receiveEvent op event =>
    if transferTerminal event then [.endIn op] else []
  | .receiveStop op ask => if ask then [] else [.endIn op]
  | .receivedRequest op path => if path = "/Ask" then [.beginIn op true] else []
  | .dealloc op => [.dealloc op]
  | .modeRequested value => (value.map fun native => [.request native]).getD []
  | .modeHeartbeat => [.beat]
  | .expireModeOwner => [.expire]
  | .mainQueue => [.block]
  | .startServer s => [.startServer s]
  | .stopServer s => [.stopServer s]

def Call.mainOnly : Call → Bool
  | .mainQueue | .startServer _ | .stopServer _ => true
  | _ => false

def code : Code Shared Section Choice Call := ⟨Call.body, Call.mainOnly, sec⟩

/-- sharingd after the adapter's installation, with `n` threads beside the main one. -/
def install (n : ℕ) : Threads Shared Section := ⟨{}, [], List.replicate n []⟩

end AquaTransport.Adapter
