import AquaTransport.Lib.Run
import AquaTransport.Lib.Tokens
import Mathlib.Order.Fin.Basic

/-!
# AquaTransport.AirDrop.Endpoints — the endpoints that discovery resolved, and their scopes

A probe that resolves a peer keeps its address and port in one of 256 slots, under the index that
`tap0` has then.  `connect` and `connectx` give a link-local address that a slot has back its scope.
The log has what happened, newest first: what each probe took and gave back, the indices of `tap0`,
and each call with what reached the original function.

`endpoint_scope`: in a run whose steps are all `Fit`, the counts are those of the tokens held, no
token is released twice, and each call is made `Rightly`; a call that does not fit is not.
-/

namespace AquaTransport.Endpoints

/-! ## Addresses and calls -/

abbrev In6Addr := Vector UInt8 16

namespace In6Addr

/-- `IN6_IS_ADDR_LINKLOCAL`. -/
def linkLocal (a : In6Addr) : Bool := a[0] == 0xfe && a[1] &&& 0xc0 == 0x80

/-- The address without the scope that the kernel puts into its second word. -/
def normalized (a : In6Addr) : In6Addr := (a.set 3 0).set 2 0

end In6Addr

/-- A `sockaddr_in6`, less its family. -/
structure SockaddrIn6 where
  len : UInt8 := 28
  port : UInt16
  flowinfo : UInt32 := 0
  addr : In6Addr
  scopeId : UInt32 := 0
  deriving DecidableEq

/-- What a `sockaddr` pointer points to: the family is `AF_INET6` or another. -/
inductive Sockaddr
  | in6 (s : SockaddrIn6)
  | other (family : UInt8) (data : List UInt8)
  deriving DecidableEq

/-- `sizeof(struct sockaddr_in6)`. -/
def sockaddrIn6Size : UInt32 := 28

/-- The arguments of `connect`. -/
structure Connect where
  fd : Int32
  address : Option Sockaddr
  length : UInt32
  deriving DecidableEq

/-- The arguments of `connectx`; `connection` is the caller's pointer. -/
structure Connectx where
  fd : Int32
  source : Option Sockaddr
  sourceLength : UInt32
  destination : Option Sockaddr
  length : UInt32
  interface : UInt32
  association : UInt32
  connection : UInt64
  deriving DecidableEq

/-! ## The table -/

@[ext]
structure Endpoint where
  address : In6Addr := .replicate 16 0
  port : UInt16 := 0
  scope : UInt32 := 0
  deriving DecidableEq

structure Slot extends Endpoint where
  refs : UInt32 := 0
  deriving DecidableEq

abbrev Table := Fin 256 → Slot

namespace Table

variable (t : Table)

/-- The slot that `retain_endpoint` finds. -/
@[irreducible]
def retained (e : Endpoint) : Option (Fin 256) :=
  Fin.find? fun i => (t i).refs != 0 && (t i).port == e.port && (t i).scope == e.scope &&
    e.address == (t i).address

@[irreducible]
def free : Option (Fin 256) := Fin.find? fun i => (t i).refs == 0

/-- `retain_endpoint` once `scope` is known, with its token: `none` is `0`, and `some i` is `i + 1`. -/
def retainEndpoint (address : In6Addr) (port : UInt16) (scope : UInt32) :
    Table × Option (Fin 256) :=
  let e : Endpoint := ⟨address.normalized, port, scope⟩
  match t.retained e with
  | some i => (Function.update t i { t i with refs := (t i).refs + 1 }, some i)
  | none =>
    match t.free with
    | some i => (Function.update t i { toEndpoint := e, refs := (t i).refs + 1 }, some i)
    | none => (t, none)

/-- `release_endpoint`; no token is above `256`. -/
def releaseEndpoint (token : Option (Fin 256)) : Table :=
  match token with
  | none => t
  | some i =>
    if (t i).refs ≠ 0 then Function.update t i { t i with refs := (t i).refs - 1 } else t

/-- The scope that a connect finds: the scope is not compared. -/
@[irreducible]
def scopeOf (address : In6Addr) (port : UInt16) : UInt32 :=
  match Fin.find? fun i => (t i).refs != 0 && (t i).port == port && address == (t i).address with
  | some i => (t i).scope
  | none => 0

/-- What a connect makes of its destination, `none` when it leaves it alone. -/
def scopedAddress (address : Option Sockaddr) (length : UInt32) : Option SockaddrIn6 :=
  match address with
  | some (.in6 s) =>
    if length ≥ sockaddrIn6Size ∧ s.addr.linkLocal then
      let normalized := s.addr.normalized
      let scope := t.scopeOf normalized s.port
      if scope ≠ 0 then some { s with addr := normalized, scopeId := scope } else none
    else none
  | _ => none

/-- `scoped_connect`: the call of `original_connect`. -/
def scopedConnect (c : Connect) : Connect :=
  match t.scopedAddress c.address c.length with
  | some s => { c with address := some (.in6 s), length := sockaddrIn6Size }
  | none => c

/-- `scoped_connectx`: the call of `original_connectx`. -/
def scopedConnectx (c : Connectx) : Connectx :=
  match t.scopedAddress c.destination c.length with
  | some s =>
    { c with destination := some (.in6 s), length := sockaddrIn6Size, interface := s.scopeId }
  | none => c

end Table

inductive Call
  | connect (c : Connect)
  | connectx (c : Connectx)
  deriving DecidableEq

namespace Call

def destination : Call → Option Sockaddr
  | connect c => c.address
  | connectx c => c.destination

def length : Call → UInt32
  | connect c => c.length
  | connectx c => c.length

/-- What reaches the original function. -/
def made (t : Table) : Call → Call
  | connect c => connect (t.scopedConnect c)
  | connectx c => connectx (t.scopedConnectx c)

end Call

/-! ## The probes -/

/-- An `AQDiscoveryProbe`; `delegate` says that its service reports to it. -/
structure Probe where
  cancelled : Bool := false
  endpointToken : Option (Fin 256) := none
  delegate : Bool := false
  attempts : ℕ := 0
  retryScheduled : Bool := false
  deallocated : Bool := false

namespace Probe

variable (p : Probe)

def start (browser : Bool) : Probe :=
  if p.cancelled || !browser then p else { p with attempts := p.attempts + 1, delegate := true }

def retry (browser : Bool) : Probe :=
  let p := { p with delegate := false }
  if p.cancelled || !browser || p.retryScheduled then p
  else { p with retryScheduled := true, attempts := if p.attempts ≥ 3 then 0 else p.attempts }

/-- The block that `retry` schedules. -/
def again (browser : Bool) : Probe := { p with retryScheduled := false }.start browser

/-- The end of `netServiceDidResolveAddress`, up to the request. -/
def resolved (host : Bool) (port : ℤ) (browser : Bool) : Probe :=
  let p := { p with delegate := false }
  if !host || port ≤ 0 || port > 65535 then p.retry browser else p

end Probe

def htons (x : UInt16) : UInt16 := x <<< 8 ||| x >>> 8

/-- The first of a service's addresses that a probe takes, by the length and bytes of each. -/
def hostAddress (addresses : List (ℕ × Sockaddr)) : Option In6Addr :=
  addresses.findSome? fun
    | (length, .in6 s) =>
      if length < sockaddrIn6Size.toNat || !s.addr.linkLocal then none else some s.addr.normalized
    | _ => none

/-! ## Runs -/

abbrev Held := Token ℕ Endpoint (Fin 256)

inductive Event
  | ifindex (index : UInt32)
  | took (t : Held)
  | gave (probe : ℕ) (slot : Fin 256)
  | called (asked made : Call)
  deriving DecidableEq

/-- A probe between its `release_endpoint` and the end of its `retain_endpoint`; `scope` is what
`if_nametoindex` gave it. -/
structure Resolving where
  probe : ℕ
  address : In6Addr
  port : ℤ
  scope : Option UInt32 := none

/-- `tap0` is the index of the interface, `0` when there is none. -/
structure State where
  table : Table := fun _ => {}
  tap0 : UInt32 := 0
  probes : ℕ → Probe := fun _ => {}
  resolving : Option Resolving := none
  log : List Event := []

namespace State

variable (s : State)

def note (e : Event) : State := { s with log := e :: s.log }

def setProbe (p : ℕ) (x : Probe) : State := { s with probes := Function.update s.probes p x }

/-- `release_endpoint(self.endpointToken)`. -/
def release (p : ℕ) : State :=
  match (s.probes p).endpointToken with
  | none => s
  | some i => { s with table := s.table.releaseEndpoint (some i) }.note (.gave p i)

/-- `self.endpointToken=retain_endpoint(...)`, its section under the lock. -/
def retain (p : ℕ) (address : In6Addr) (port : UInt16) (scope : UInt32) : State :=
  let (table, token) := s.table.retainEndpoint address port scope
  let s := { s with table := table }.setProbe p { s.probes p with endpointToken := token }
  match token with
  | none => s
  | some i => s.note (.took ⟨p, i, ⟨address.normalized, port, scope⟩⟩)

def cancel (p : ℕ) : State :=
  (s.release p).setProbe p
    { s.probes p with cancelled := true, delegate := false, endpointToken := none }

def dealloc (p : ℕ) : State := (s.release p).setProbe p { deallocated := true }

/-- A message to a probe that is there, on the main thread. -/
def message (p : ℕ) (s' : State) : Option State :=
  if (s.probes p).deallocated || s.resolving.isSome then none else some s'

end State

/-- A step: the probes' methods run on the main thread, and the rest on any. -/
inductive Act
  | ifindex (index : UInt32)
  | start (p : ℕ) (browser : Bool)
  | again (p : ℕ) (browser : Bool)
  | retry (p : ℕ) (browser : Bool)
  | cancel (p : ℕ)
  | resolve (p : ℕ) (addresses : List (ℕ × Sockaddr)) (port : ℤ) (browser : Bool)
  | nametoindex (browser : Bool)
  | retain (browser : Bool)
  | dealloc (p : ℕ)
  | call (c : Call)

def step (s : State) : Act → Option State
  | .ifindex n => some ({ s with tap0 := n }.note (.ifindex n))
  | .start p browser => s.message p (s.setProbe p ((s.probes p).start browser))
  | .again p browser =>
    if (s.probes p).retryScheduled then s.message p (s.setProbe p ((s.probes p).again browser))
    else none
  | .retry p browser => s.message p (s.setProbe p ((s.probes p).retry browser))
  | .cancel p => s.message p (s.cancel p)
  | .resolve p addresses port browser =>
    if !(s.probes p).delegate then none
    else if (s.probes p).cancelled then s.message p s
    else
      match hostAddress addresses with
      | none => s.message p (s.setProbe p ((s.probes p).resolved false port browser))
      | some address => s.message p { s.release p with resolving := some ⟨p, address, port, none⟩ }
  | .nametoindex browser =>
    match s.resolving with
    | some ⟨p, address, port, none⟩ =>
      if s.tap0 ≠ 0 then some { s with resolving := some ⟨p, address, port, some s.tap0⟩ }
      else
        let x := { s.probes p with endpointToken := none }
        some ({ s with resolving := none }.setProbe p (x.resolved true port browser))
    | _ => none
  | .retain browser =>
    match s.resolving with
    | some ⟨p, address, port, some scope⟩ =>
      let s := { s with resolving := none }.retain p address (htons (UInt16.ofInt port)) scope
      some (s.setProbe p ((s.probes p).resolved true port browser))
    | _ => none
  | .dealloc p =>
    if (s.probes p).deallocated || s.resolving.any (·.probe = p) then none else some (s.dealloc p)
  | .call c => some (s.note (.called c (c.made s.table)))

/-! ## What a run should do -/

/-- The tokens held after a history. -/
def held : List Event → List Held
  | [] => []
  | .took t :: past => t :: held past
  | .gave p i :: past => Token.give p i (held past)
  | _ :: past => held past

/-- The present index of `tap0`. -/
def tap0 : List Event → UInt32
  | [] => 0
  | .ifindex n :: _ => n
  | _ :: past => tap0 past

namespace Call

/-- The link-local address that a call is to. -/
def linkLocal? (c : Call) : Option SockaddrIn6 :=
  match c.destination with
  | some (.in6 s) => if c.length ≥ sockaddrIn6Size ∧ s.addr.linkLocal then some s else none
  | _ => none

/-- The call with another destination; `connectx` has its interface too. -/
def sentTo (s : SockaddrIn6) : Call → Call
  | connect c => connect { c with address := some (.in6 s), length := sockaddrIn6Size }
  | connectx c => connectx
    { c with destination := some (.in6 s), length := sockaddrIn6Size, interface := s.scopeId }

/-- A call to an endpoint that is held under the index is made with that index as its scope, and any
other as it was asked. -/
structure Rightly (L : List Held) (index : UInt32) (asked made : Call) : Prop where
  retained : ∀ s, asked.linkLocal? = some s → (∃ t ∈ L, t.key = ⟨s.addr.normalized, s.port, index⟩) →
    made = asked.sentTo { s with addr := s.addr.normalized, scopeId := index }
  other : (∀ s, asked.linkLocal? = some s → ∀ t ∈ L, t.key ≠ ⟨s.addr.normalized, s.port, index⟩) →
    made = asked

end Call

/-- What is given back was held, and every call is made rightly. -/
def Event.Rightly (past : List Event) : Event → Prop
  | .gave p i => ∃ t ∈ held past, t.holder = p ∧ t.slot = i
  | .called asked made => Call.Rightly (held past) (tap0 past) asked made
  | _ => True

/-- No slot of an older index comes first. -/
def Call.Fresh (t : Table) (index : UInt32) (c : Call) : Prop :=
  ∀ s, c.linkLocal? = some s → ∀ i, (t i).refs ≠ 0 → (t i).address = s.addr.normalized →
    (t i).port = s.port → (t i).scope ≠ index →
    ∃ j < i, (t j).refs ≠ 0 ∧ (t j).toEndpoint = ⟨s.addr.normalized, s.port, index⟩

/-- A count that is at its greatest is not raised. -/
def Table.Countable (t : Table) (e : Endpoint) : Prop :=
  ∀ i, (t i).toEndpoint = e → (t i).refs ≠ 0xFFFFFFFF

def Table.Takes (t : Table) : Option Resolving → Prop
  | some ⟨_, address, port, some scope⟩ =>
    t.Countable ⟨address.normalized, htons (UInt16.ofInt port), scope⟩
  | _ => True

/-- The steps on which the law holds. -/
def State.Fit (s : State) : Act → Prop
  | .call c => c.Fresh s.table s.tap0
  | .retain _ => s.table.Takes s.resolving
  | _ => True

instance (t : Table) (index : UInt32) (c : Call) : Decidable (c.Fresh t index) :=
  match h : c.linkLocal? with
  | none => isTrue fun s hs => absurd (h.symm.trans hs) (by simp)
  | some s => decidable_of_iff
      (∀ i, (t i).refs ≠ 0 → (t i).address = s.addr.normalized → (t i).port = s.port →
        (t i).scope ≠ index →
        ∃ j < i, (t j).refs ≠ 0 ∧ (t j).toEndpoint = ⟨s.addr.normalized, s.port, index⟩)
      ⟨fun hi s' hs => Option.some.inj (h.symm.trans hs) ▸ hi, fun hi => hi s h⟩

instance (t : Table) (e : Endpoint) : Decidable (t.Countable e) :=
  inferInstanceAs (Decidable (∀ i, (t i).toEndpoint = e → (t i).refs ≠ 0xFFFFFFFF))

instance (t : Table) : (r : Option Resolving) → Decidable (t.Takes r)
  | some ⟨_, _, _, some _⟩ => inferInstanceAs (Decidable (t.Countable _))
  | some ⟨_, _, _, none⟩ => isTrue trivial
  | none => isTrue trivial

instance (s : State) : (a : Act) → Decidable (s.Fit a)
  | .call c => inferInstanceAs (Decidable (c.Fresh s.table s.tap0))
  | .retain _ => inferInstanceAs (Decidable (s.table.Takes s.resolving))
  | .ifindex _ | .start .. | .again .. | .retry .. | .cancel _ | .resolve .. | .nametoindex _
  | .dealloc _ => isTrue trivial

/-! ## The table's operations -/

namespace Table

variable {t : Table}

def counts (t : Table) (i : Fin 256) : ℕ := (t i).refs.toNat

def keys (t : Table) (i : Fin 256) : Endpoint := (t i).toEndpoint

theorem counts_update (t : Table) (i : Fin 256) (x : Slot) :
    counts (Function.update t i x) = Function.update t.counts i x.refs.toNat := by
  ext j
  by_cases hj : j = i
  · simp [counts, hj]
  · simp [counts, hj]

theorem keys_update (t : Table) (i : Fin 256) (x : Slot) :
    keys (Function.update t i x) = Function.update t.keys i x.toEndpoint := by
  ext1 j
  by_cases hj : j = i
  · simp [keys, hj]
  · simp [keys, hj]

theorem counts_eq_zero {i : Fin 256} : t.counts i = 0 ↔ (t i).refs = 0 := by
  simp [counts, ← UInt32.toNat_inj]

theorem retained_some {e : Endpoint} {i : Fin 256} (h : t.retained e = some i) :
    (t i).refs ≠ 0 ∧ (t i).toEndpoint = e := by
  unfold retained at h
  have hi := Fin.eq_true_of_find?_eq_some h
  simp only [Bool.and_eq_true, bne_iff_ne, beq_iff_eq] at hi
  obtain ⟨⟨⟨hr, hp⟩, hs⟩, ha⟩ := hi
  exact ⟨hr, Endpoint.ext ha.symm hp hs⟩

theorem free_some {i : Fin 256} (h : t.free = some i) : (t i).refs = 0 := by
  unfold free at h
  simpa using Fin.eq_true_of_find?_eq_some h

/-- What `retain_endpoint` does: a slot that is free or has the endpoint counts one more, or nothing
happens. -/
theorem retainEndpoint_cases (t : Table) (address : In6Addr) (port : UInt16) (scope : UInt32) :
    (∃ i, t.retainEndpoint address port scope =
        (Function.update t i ⟨⟨address.normalized, port, scope⟩, (t i).refs + 1⟩, some i) ∧
      ((t i).refs = 0 ∨ (t i).toEndpoint = ⟨address.normalized, port, scope⟩)) ∨
    t.retainEndpoint address port scope = (t, none) := by
  cases hr : t.retained ⟨address.normalized, port, scope⟩ with
  | some i =>
    obtain ⟨-, he⟩ := retained_some hr
    refine .inl ⟨i, ?_, .inr he⟩
    simp only [retainEndpoint, hr]
    rw [← he]
  | none =>
    cases hf : t.free with
    | some i =>
      refine .inl ⟨i, ?_, .inl (free_some hf)⟩
      simp only [retainEndpoint, hr, hf]
    | none =>
      right
      simp only [retainEndpoint, hr, hf]

/-- The first slot in use with the address and the port gives its scope, and `0` says that there is
none. -/
theorem scopeOf_cases (t : Table) (address : In6Addr) (port : UInt16) :
    (∃ i, (t i).refs ≠ 0 ∧ (t i).toEndpoint = ⟨address, port, t.scopeOf address port⟩ ∧
      ∀ j < i, (t j).refs ≠ 0 → ∀ scope, (t j).toEndpoint ≠ ⟨address, port, scope⟩) ∨
    (t.scopeOf address port = 0 ∧
      ∀ j, (t j).refs ≠ 0 → ∀ scope, (t j).toEndpoint ≠ ⟨address, port, scope⟩) := by
  have hhit : ∀ j, ((t j).refs != 0 && (t j).port == port && address == (t j).address) = false →
      (t j).refs ≠ 0 → ∀ scope, (t j).toEndpoint ≠ ⟨address, port, scope⟩ := by
    intro j hj hr scope he
    simp [hr, he] at hj
  unfold scopeOf
  cases hf : Fin.find? fun i =>
      (t i).refs != 0 && (t i).port == port && address == (t i).address with
  | some i =>
    have hi := Fin.eq_true_of_find?_eq_some hf
    simp only [Bool.and_eq_true, bne_iff_ne, beq_iff_eq] at hi
    obtain ⟨⟨hr, hp⟩, ha⟩ := hi
    refine .inl ⟨i, hr, Endpoint.ext ha.symm hp rfl, fun j hj => hhit j ?_⟩
    exact Fin.eq_false_of_find?_eq_some_of_lt hf j hj
  | none => exact .inr ⟨rfl, fun j => hhit j (Fin.find?_eq_none_iff.mp hf j)⟩

theorem releaseEndpoint_of_pos {i : Fin 256} (h : (t i).refs ≠ 0) :
    t.releaseEndpoint (some i) = Function.update t i { t i with refs := (t i).refs - 1 } :=
  if_pos h

end Table

theorem toNat_succ {x : UInt32} (h : x ≠ 0xFFFFFFFF) : (x + 1).toNat = x.toNat + 1 := by
  have hlt := x.toNat_lt
  have hne : x.toNat ≠ 4294967295 := fun hx => h (UInt32.toNat_inj.mp hx)
  rw [UInt32.toNat_add]
  simp only [UInt32.reduceToNat]
  omega

theorem toNat_pred {x : UInt32} (h : x ≠ 0) : (x - 1).toNat = x.toNat - 1 := by
  have hne : x.toNat ≠ 0 := fun hx => h (UInt32.toNat_inj.mp hx)
  refine UInt32.toNat_sub_of_le _ _ ?_
  rw [UInt32.le_iff_toNat_le]
  simp only [UInt32.reduceToNat]
  omega

/-! ## What a call finds -/

namespace Call

theorem scopedAddress_eq (t : Table) (c : Call) :
    t.scopedAddress c.destination c.length = c.linkLocal?.bind fun s =>
      if t.scopeOf s.addr.normalized s.port ≠ 0 then
        some { s with addr := s.addr.normalized, scopeId := t.scopeOf s.addr.normalized s.port }
      else none := by
  unfold Table.scopedAddress linkLocal?
  rcases c.destination with _ | s | ⟨family, data⟩
  · rfl
  · dsimp only
    by_cases h : c.length ≥ sockaddrIn6Size ∧ s.addr.linkLocal
    · rw [if_pos h, if_pos h]
      rfl
    · rw [if_neg h, if_neg h]
      rfl
  · rfl

theorem made_eq (t : Table) (c : Call) :
    c.made t = ((t.scopedAddress c.destination c.length).map c.sentTo).getD c := by
  cases c with
  | connect c =>
    show connect (t.scopedConnect c) = ((t.scopedAddress c.address c.length).map _).getD _
    unfold Table.scopedConnect
    cases t.scopedAddress c.address c.length <;> rfl
  | connectx c =>
    show connectx (t.scopedConnectx c) = ((t.scopedAddress c.destination c.length).map _).getD _
    unfold Table.scopedConnectx
    cases t.scopedAddress c.destination c.length <;> rfl

/-- A call that is to no link-local address is made as it was asked. -/
theorem made_of_none {t : Table} {c : Call} (h : c.linkLocal? = none) : c.made t = c := by
  rw [made_eq, scopedAddress_eq, h]
  rfl

/-- So is one that no slot has a scope for. -/
theorem made_of_zero {t : Table} {c : Call} {s : SockaddrIn6} (h : c.linkLocal? = some s)
    (h0 : t.scopeOf s.addr.normalized s.port = 0) : c.made t = c := by
  rw [made_eq, scopedAddress_eq, h, Option.bind_some, if_neg (not_not.mpr h0)]
  rfl

theorem made_of_ne_zero {t : Table} {c : Call} {s : SockaddrIn6} (h : c.linkLocal? = some s)
    (h0 : t.scopeOf s.addr.normalized s.port ≠ 0) :
    c.made t = c.sentTo
      { s with addr := s.addr.normalized, scopeId := t.scopeOf s.addr.normalized s.port } := by
  rw [made_eq, scopedAddress_eq, h, Option.bind_some, if_pos h0]
  rfl

/-- A slot in use has a probe that holds it. -/
theorem exists_holder {t : Table} {L : List Held} {own : ℕ → Option (Fin 256)}
    (hb : Backed t.counts t.keys own L) {i : Fin 256} (hi : (t i).refs ≠ 0) :
    ∃ u ∈ L, u.key = (t i).toEndpoint := by
  have hpos := Nat.pos_of_ne_zero fun hz => hi (Table.counts_eq_zero.mp hz)
  obtain ⟨u, hu, -, hk⟩ := hb.exists_of_pos hpos
  exact ⟨u, hu, hk⟩

/-- **A call that no older slot stands before is made rightly.** -/
theorem Fresh.rightly {t : Table} {L : List Held} {own : ℕ → Option (Fin 256)} {index : UInt32}
    (hb : Backed t.counts t.keys own L) (h0 : ∀ u ∈ L, u.key.scope ≠ 0) {c : Call}
    (h : c.Fresh t index) : Rightly L index c (c.made t) := by
  have hlive : ∀ i, (t i).refs ≠ 0 → ∃ u ∈ L, u.key = (t i).toEndpoint := fun i hi => exists_holder hb hi
  -- the scope that is found is the index, for the slot that has it comes first
  have hscope : ∀ s, c.linkLocal? = some s →
      (∃ i, (t i).refs ≠ 0 ∧ (t i).toEndpoint = ⟨s.addr.normalized, s.port, index⟩ ∧
        t.scopeOf s.addr.normalized s.port = index) ∨
      (t.scopeOf s.addr.normalized s.port = 0 ∧
        ∀ j, (t j).refs ≠ 0 → ∀ n, (t j).toEndpoint ≠ ⟨s.addr.normalized, s.port, n⟩) := by
    intro s hs
    rcases t.scopeOf_cases s.addr.normalized s.port with ⟨i, hr, he, hfirst⟩ | hnone
    · left
      by_cases hn : (t i).scope = index
      · have hn' : t.scopeOf s.addr.normalized s.port = index := by rw [← hn, he]
        exact ⟨i, hr, by rw [he, hn'], hn'⟩
      · obtain ⟨j, hj, hjr, hje⟩ := h s hs i hr (by rw [he]) (by rw [he]) hn
        exact absurd hje (hfirst j hj hjr index)
    · exact .inr hnone
  constructor
  · rintro s hs ⟨u, hu, hk⟩
    have hur : (t u.slot).refs ≠ 0 := fun hz =>
      absurd (hb.refs_pos hu) (by rw [Table.counts_eq_zero.mpr hz]; exact Nat.lt_irrefl 0)
    rcases hscope s hs with ⟨i, -, -, hn⟩ | ⟨-, hnone⟩
    · have hne : index ≠ 0 := by
        have := h0 u hu
        rwa [hk] at this
      rw [made_of_ne_zero hs (by rwa [hn]), hn]
    · exact absurd ((hb.keyed u hu).trans hk) (hnone u.slot hur index)
  · intro hother
    cases hs : c.linkLocal? with
    | none => exact made_of_none hs
    | some s =>
      rcases hscope s hs with ⟨i, hr, he, -⟩ | ⟨hz, -⟩
      · obtain ⟨u, hu, hk⟩ := hlive i hr
        exact absurd (hk.trans he) (hother s hs u hu)
      · exact made_of_zero hs hz

/-- **One that an older slot does stand before is made with the scope of that slot.** -/
theorem scopeId_of_not_fresh {t : Table} (h0 : ∀ i, (t i).refs ≠ 0 → (t i).scope ≠ 0)
    {index : UInt32} {c : Call} (h : ¬ c.Fresh t index) :
    ∃ s n, c.linkLocal? = some s ∧ n ≠ index ∧ n ≠ 0 ∧
      c.made t = c.sentTo { s with addr := s.addr.normalized, scopeId := n } := by
  unfold Fresh at h
  push Not at h
  obtain ⟨s, hs, i, hr, ha, hp, hn, hfirst⟩ := h
  rcases t.scopeOf_cases s.addr.normalized s.port with ⟨j, hjr, hje, hjfirst⟩ | ⟨-, hnone⟩
  · have hj0 : t.scopeOf s.addr.normalized s.port ≠ 0 := by
      have := h0 j hjr
      rwa [hje] at this
    refine ⟨s, _, hs, fun hj => ?_, hj0, made_of_ne_zero hs hj0⟩
    -- the slot of the index would come before the older one
    rcases Nat.lt_trichotomy i.val j.val with hij | hij | hij
    · exact hjfirst i hij hr (t i).scope (Endpoint.ext ha hp rfl)
    · rw [Fin.ext hij, hje] at hn
      exact hn hj
    · exact hfirst j hij hjr (by rw [hje, hj])
  · exact (hnone i hr (t i).scope (Endpoint.ext ha hp rfl)).elim

end Call

/-! ## The books -/

namespace Probe

variable (p : Probe)

@[simp] theorem start_endpointToken (browser : Bool) :
    (p.start browser).endpointToken = p.endpointToken := by
  unfold start
  split <;> rfl

@[simp] theorem retry_endpointToken (browser : Bool) :
    (p.retry browser).endpointToken = p.endpointToken := by
  unfold retry
  dsimp only
  split <;> rfl

@[simp] theorem again_endpointToken (browser : Bool) :
    (p.again browser).endpointToken = p.endpointToken := start_endpointToken _ _

@[simp] theorem resolved_endpointToken (host : Bool) (port : ℤ) (browser : Bool) :
    (p.resolved host port browser).endpointToken = p.endpointToken := by
  unfold resolved
  dsimp only
  split
  · exact retry_endpointToken _ _
  · rfl

end Probe

/-- The log accounts for the table, when `own` says which token each probe has. -/
structure Books (s : State) (own : ℕ → Option (Fin 256)) : Prop where
  backed : Backed s.table.counts s.table.keys own (held s.log)
  present : ∀ u ∈ held s.log, u.key.scope ≠ 0
  index : s.tap0 = tap0 s.log
  rightly : Along Event.Rightly s.log

namespace Books

variable {s : State} {own : ℕ → Option (Fin 256)}

theorem scope_ne_zero (h : Books s own) (i : Fin 256) (hi : (s.table i).refs ≠ 0) :
    (s.table i).scope ≠ 0 := by
  obtain ⟨u, hu, hk⟩ := Call.exists_holder h.backed hi
  have hscope := h.present u hu
  rwa [hk] at hscope

theorem setProbe (h : Books s own) (p : ℕ) (x : Probe) : Books (s.setProbe p x) own :=
  ⟨h.backed, h.present, h.index, h.rightly⟩

theorem setResolving (h : Books s own) (r : Option Resolving) :
    Books { s with resolving := r } own :=
  ⟨h.backed, h.present, h.index, h.rightly⟩

theorem setTap0 (h : Books s own) (n : UInt32) :
    Books ({ s with tap0 := n }.note (.ifindex n)) own :=
  ⟨h.backed, h.present, rfl, trivial, h.rightly⟩

theorem call (h : Books s own) {c : Call} (hc : c.Fresh s.table s.tap0) :
    Books (s.note (.called c (c.made s.table))) own := by
  refine ⟨h.backed, h.present, h.index, ?_, h.rightly⟩
  have := Call.Fresh.rightly h.backed h.present hc
  rwa [h.index] at this

/-- **`release_endpoint`** of the token that a probe has. -/
theorem release (h : Books s own) {p : ℕ} (hp : own p = (s.probes p).endpointToken) :
    Books (s.release p) (Function.update own p none) := by
  unfold State.release
  cases hi : (s.probes p).endpointToken with
  | none =>
    have hsame : Function.update own p none = own := by rw [← hi, ← hp, Function.update_eq_self]
    rwa [hsame]
  | some i =>
    rw [hi] at hp
    obtain ⟨u, hu, hup, hui⟩ := h.backed.exists_token hp
    have hr : (s.table i).refs ≠ 0 := fun hz =>
      absurd (h.backed.refs_pos hu) (by
        rw [hui, Table.counts_eq_zero.mpr hz]
        exact Nat.lt_irrefl 0)
    refine ⟨?_, fun v hv => h.present v (List.mem_of_mem_eraseP hv), h.index,
      ⟨u, hu, hup, hui⟩, h.rightly⟩
    show Backed (s.table.releaseEndpoint (some i)).counts (s.table.releaseEndpoint (some i)).keys
      (Function.update own p none) (Token.give p i (held s.log))
    have hkeys : Function.update s.table.keys i (s.table i).toEndpoint = s.table.keys :=
      Function.update_eq_self i s.table.keys
    rw [Table.releaseEndpoint_of_pos hr, Table.counts_update, Table.keys_update, toNat_pred hr,
      hkeys]
    exact h.backed.give hp

/-- **`retain_endpoint`** by a probe that has no token. -/
theorem retain (h : Books s own) {p : ℕ} (hp : own p = none) {address : In6Addr} {port : UInt16}
    {scope : UInt32} (hn : scope ≠ 0)
    (hc : s.table.Countable ⟨address.normalized, port, scope⟩) :
    Books (s.retain p address port scope)
      (Function.update own p (s.table.retainEndpoint address port scope).2) := by
  unfold State.retain
  rcases s.table.retainEndpoint_cases address port scope with ⟨i, hri, hslot⟩ | hnone
  · have hcount : (s.table i).refs ≠ 0xFFFFFFFF := by
      rcases hslot with hz | he
      · rw [hz]
        exact by decide
      · exact hc i he
    rw [hri]
    refine ⟨?_, fun u hu => ?_, h.index, trivial, h.rightly⟩
    · show Backed (Table.counts (Function.update s.table i _))
        (Table.keys (Function.update s.table i _)) (Function.update own p (some i))
        (⟨p, i, ⟨address.normalized, port, scope⟩⟩ :: held s.log)
      rw [Table.counts_update, Table.keys_update, toNat_succ hcount]
      exact h.backed.take hp (hslot.imp_left Table.counts_eq_zero.mpr)
    · rcases List.mem_cons.mp hu with rfl | hu
      · exact hn
      · exact h.present u hu
  · have hsame : Function.update own p none = own := by rw [← hp, Function.update_eq_self]
    rw [hnone, hsame]
    exact h.setProbe p _

end Books

namespace State

/-- The token that each probe has; one that resolves has given its own back. -/
def own (s : State) (p : ℕ) : Option (Fin 256) :=
  if s.resolving.any (·.probe = p) then none else (s.probes p).endpointToken

/-- The law of a state: its books balance, and a probe that resolves has seen an index. -/
structure Sound (s : State) : Prop where
  books : Books s s.own
  seen : ∀ p address port n, s.resolving = some ⟨p, address, port, some n⟩ → n ≠ 0

variable {s s' : State}

@[simp] theorem release_probes (s : State) (p : ℕ) : (s.release p).probes = s.probes := by
  unfold release
  split <;> rfl

@[simp] theorem release_resolving (s : State) (p : ℕ) : (s.release p).resolving = s.resolving := by
  unfold release
  split <;> rfl

@[simp] theorem retain_resolving (s : State) (p : ℕ) (address : In6Addr) (port : UInt16)
    (scope : UInt32) : (s.retain p address port scope).resolving = s.resolving := by
  unfold retain
  dsimp only
  split <;> rfl

theorem retain_probes (s : State) (p : ℕ) (address : In6Addr) (port : UInt16) (scope : UInt32) :
    (s.retain p address port scope).probes = Function.update s.probes p
      { s.probes p with endpointToken := (s.table.retainEndpoint address port scope).2 } := by
  unfold retain
  dsimp only
  split <;> rfl

theorem own_setProbe {p : ℕ} (h : s.resolving.any (·.probe = p) = false) (x : Probe) :
    (s.setProbe p x).own = Function.update s.own p x.endpointToken := by
  ext1 q
  by_cases hq : q = p
  · subst hq
    simp [own, setProbe, h]
  · simp [own, setProbe, hq]

/-- A change of a probe that keeps its token. -/
theorem own_setProbe_of_eq {p : ℕ} {x : Probe}
    (hx : x.endpointToken = (s.probes p).endpointToken) : (s.setProbe p x).own = s.own := by
  ext1 q
  by_cases hq : q = p
  · subst hq
    simp [own, setProbe, hx]
  · simp [own, setProbe, hq]

theorem message_some {p : ℕ} {t : State} (h : s.message p t = some s') :
    s.resolving = none ∧ s' = t := by
  unfold message at h
  split at h
  · exact absurd h (by simp)
  · rename_i hc
    simp only [Bool.or_eq_true, not_or, Bool.not_eq_true, Option.isSome_eq_false_iff,
      Option.isNone_iff_eq_none] at hc
    exact ⟨hc.2, (Option.some.inj h).symm⟩

namespace Sound

theorem setProbe (h : Sound s) {p : ℕ} {x : Probe}
    (hx : x.endpointToken = (s.probes p).endpointToken) : Sound (s.setProbe p x) := by
  refine ⟨?_, h.seen⟩
  rw [own_setProbe_of_eq hx]
  exact h.books.setProbe p x

/-- A probe gives its token back and has none. -/
theorem release (h : Sound s) {p : ℕ} (hp : s.resolving.any (·.probe = p) = false) {x : Probe}
    (hx : x.endpointToken = none) : Sound ((s.release p).setProbe p x) := by
  have hown : s.own p = (s.probes p).endpointToken := by simp [own, hp]
  have hsame : (s.release p).own = s.own := by
    ext1 q
    simp [own]
  refine ⟨?_, fun q address port n hr => ?_⟩
  · rw [own_setProbe (by simpa using hp), hsame, hx]
    exact (h.books.release hown).setProbe p x
  · exact h.seen q address port n (by simpa [State.setProbe] using hr)

/-- A probe gives its token back to resolve. -/
theorem resolve (h : Sound s) (hs : s.resolving = none) (p : ℕ) (address : In6Addr) (port : ℤ) :
    Sound { s.release p with resolving := some ⟨p, address, port, none⟩ } := by
  have hown : s.own p = (s.probes p).endpointToken := by simp [own, hs]
  have hnew : own { s.release p with resolving := some ⟨p, address, port, none⟩ } =
      Function.update s.own p none := by
    ext1 q
    by_cases hq : q = p
    · simp [own, hq]
    · simp [own, hq, hs, Ne.symm hq]
  refine ⟨?_, by simp⟩
  rw [hnew]
  exact (h.books.release hown).setResolving _

/-- It finds no interface. -/
theorem absent (h : Sound s) {p : ℕ} {address : In6Addr} {port : ℤ} {r : Option UInt32}
    (hs : s.resolving = some ⟨p, address, port, r⟩) {x : Probe} (hx : x.endpointToken = none) :
    Sound ({ s with resolving := none }.setProbe p x) := by
  have hsame : State.own ({ s with resolving := none }.setProbe p x) = s.own := by
    ext1 q
    by_cases hq : q = p
    · simp [own, State.setProbe, hs, hq, hx]
    · simp [own, State.setProbe, hs, hq, Ne.symm hq]
  refine ⟨?_, by simp [State.setProbe]⟩
  rw [hsame]
  exact (h.books.setResolving none).setProbe p x

/-- It takes the token of a slot. -/
theorem retain (h : Sound s) {p : ℕ} {address : In6Addr} {port : ℤ} {n : UInt32}
    (hs : s.resolving = some ⟨p, address, port, some n⟩) {q : UInt16}
    (hc : s.table.Countable ⟨address.normalized, q, n⟩) :
    Sound ({ s with resolving := none }.retain p address q n) := by
  have hown : s.own p = none := by simp [own, hs]
  have hnew : ({ s with resolving := none }.retain p address q n).own =
      Function.update s.own p (s.table.retainEndpoint address q n).2 := by
    ext1 q'
    by_cases hq : q' = p
    · simp [own, retain_probes, hq]
    · simp [own, retain_probes, hq, hs, Ne.symm hq]
  refine ⟨?_, by simp⟩
  rw [hnew]
  exact (h.books.setResolving none).retain hown (h.seen p address port n hs) hc

/-- **A step that fits keeps the law.** -/
theorem step (h : Sound s) {a : Act} (hf : s.Fit a) (hs : Endpoints.step s a = some s') :
    Sound s' := by
  cases a with
  | ifindex n =>
    obtain rfl := Option.some.inj hs
    exact ⟨h.books.setTap0 n, h.seen⟩
  | start p browser =>
    obtain ⟨-, rfl⟩ := message_some hs
    exact h.setProbe (Probe.start_endpointToken _ _)
  | again p browser =>
    simp only [Endpoints.step] at hs
    split at hs
    · obtain ⟨-, rfl⟩ := message_some hs
      exact h.setProbe (Probe.again_endpointToken _ _)
    · exact absurd hs (by simp)
  | retry p browser =>
    obtain ⟨-, rfl⟩ := message_some hs
    exact h.setProbe (Probe.retry_endpointToken _ _)
  | cancel p =>
    obtain ⟨hidle, rfl⟩ := message_some hs
    exact h.release (by rw [hidle]; rfl) rfl
  | resolve p addresses port browser =>
    simp only [Endpoints.step] at hs
    split at hs
    · exact absurd hs (by simp)
    split at hs
    · obtain ⟨-, rfl⟩ := message_some hs
      exact h
    split at hs
    · obtain ⟨-, rfl⟩ := message_some hs
      exact h.setProbe (Probe.resolved_endpointToken _ _ _ _)
    · obtain ⟨hidle, rfl⟩ := message_some hs
      exact h.resolve hidle p _ port
  | nametoindex browser =>
    simp only [Endpoints.step] at hs
    split at hs
    · rename_i p address port hr
      split at hs
      · rename_i hn
        obtain rfl := Option.some.inj hs
        refine ⟨?_, ?_⟩
        · have hsame : own { s with resolving := some ⟨p, address, port, some s.tap0⟩ } = s.own := by
            ext1 q
            simp [own, hr]
          rw [hsame]
          exact h.books.setResolving _
        · intro p' address' port' n' hr'
          simp only [Option.some.injEq, Resolving.mk.injEq] at hr'
          rw [← hr'.2.2.2]
          exact hn
      · obtain rfl := Option.some.inj hs
        exact h.absent hr (Probe.resolved_endpointToken _ _ _ _)
    · exact absurd hs (by simp)
  | retain browser =>
    simp only [Endpoints.step] at hs
    split at hs
    · rename_i p address port n hr
      obtain rfl := Option.some.inj hs
      have hc : s.table.Takes s.resolving := hf
      rw [hr] at hc
      exact (h.retain hr hc).setProbe (Probe.resolved_endpointToken _ _ _ _)
    · exact absurd hs (by simp)
  | dealloc p =>
    simp only [Endpoints.step] at hs
    split at hs
    · exact absurd hs (by simp)
    · rename_i hc
      simp only [Bool.or_eq_true, not_or, Bool.not_eq_true] at hc
      obtain rfl := Option.some.inj hs
      exact h.release hc.2 rfl
  | call c =>
    obtain rfl := Option.some.inj hs
    exact ⟨h.books.call hf, h.seen⟩

end Sound

theorem Sound.init : Sound {} :=
  ⟨⟨Backed.init _, by simp [held], rfl, trivial⟩, by simp⟩

end State

/-- A step that fits. -/
def fitStep (s : State) (a : Act) : Option State := if s.Fit a then step s a else none

theorem fitStep_some {s s' : State} {a : Act} (h : fitStep s a = some s') :
    s.Fit a ∧ step s a = some s' := by
  unfold fitStep at h
  split at h
  · exact ⟨‹_›, h⟩
  · exact absurd h (by simp)

theorem sound_of_path {acts : List Act} {s : State}
    (h : Path (fun s a s' => fitStep s a = some s') {} acts s) : s.Sound := by
  refine h.invariant (fun s a s' hs hstep => ?_) State.Sound.init
  obtain ⟨hf, hstep⟩ := fitStep_some hstep
  exact hs.step hf hstep

/-- **Endpoint scope.**  In every run whose steps fit, each slot counts the tokens that are held for
it, no token is given back that is not held, and each call is made rightly; and a call that would not
fit then goes to the scope of another interface. -/
theorem endpoint_scope {acts : List Act} {s : State} (h : exec fitStep {} acts = some s) :
    (∀ i, (s.table i).refs.toNat = Token.count (held s.log) i) ∧ Along Event.Rightly s.log ∧
      ∀ c : Call, ¬ c.Fresh s.table s.tap0 → ∃ address n, c.linkLocal? = some address ∧ n ≠ s.tap0 ∧ n ≠ 0 ∧
        c.made s.table = c.sentTo { address with addr := address.addr.normalized, scopeId := n } := by
  have hs := sound_of_path (exec_path h)
  exact ⟨hs.books.backed.count, hs.books.rightly,
    fun c => Call.scopeId_of_not_fresh hs.books.scope_ne_zero⟩

/-! ### A restart of the interface -/

/-- `fe80::1`, port 8770. -/
def peer : SockaddrIn6 :=
  { port := htons 8770, addr := #v[0xfe, 0x80, 0, 0, 0, 0, 0, 0, 0, 0, 0, 0, 0, 0, 0, 1] }

def toPeer : Call := .connect ⟨3, some (.in6 peer), 28⟩

/-- A probe resolves the peer. -/
def resolves (p : ℕ) : List Act :=
  [.start p true, .resolve p [(28, .in6 peer)] 8770 true, .nametoindex true, .retain true]

/-- Two probes resolve the peer under index 5, and one of them again under index 6. -/
def restarted : List Act :=
  .ifindex 5 :: resolves 0 ++ resolves 1 ++ .ifindex 6 :: resolves 1 ++ [.call toPeer]

/-- What happens then, before the call. -/
def restartedLog : List Event :=
  [.took ⟨1, 1, ⟨peer.addr, peer.port, 6⟩⟩, .gave 1 0, .ifindex 6,
    .took ⟨1, 0, ⟨peer.addr, peer.port, 5⟩⟩, .took ⟨0, 0, ⟨peer.addr, peer.port, 5⟩⟩, .ifindex 5]

/-- The slot of index 5 comes first, and the peer that is held under index 6 is called with it. -/
theorem stale_scope : ∃ s, exec step {} restarted = some s ∧
    s.log = .called toPeer (toPeer.sentTo { peer with scopeId := 5 }) :: restartedLog ∧
    tap0 restartedLog = 6 ∧
    (∃ t ∈ held restartedLog, t.key = ⟨peer.addr.normalized, peer.port, 6⟩) ∧
    ¬ Along Event.Rightly s.log := by
  have hlog : (exec step {} restarted).map State.log =
      some (.called toPeer (toPeer.sentTo { peer with scopeId := 5 }) :: restartedLog) := by
    decide +kernel
  have hheld : ∃ t ∈ held restartedLog, t.key = ⟨peer.addr.normalized, peer.port, 6⟩ :=
    ⟨⟨1, 1, ⟨peer.addr, peer.port, 6⟩⟩, List.mem_cons_self, rfl⟩
  obtain ⟨s, hs, hlog⟩ := Option.map_eq_some_iff.mp hlog
  refine ⟨s, hs, hlog, rfl, hheld, fun hr => ?_⟩
  rw [hlog] at hr
  have hmade := hr.1.retained peer rfl hheld
  exact absurd hmade (by decide +kernel)

def stopped : List Act :=
  .ifindex 5 :: resolves 0 ++ resolves 1 ++ [.call toPeer, .cancel 0, .dealloc 1, .dealloc 0]

theorem endpoint_scope_stopped : ∃ s, exec fitStep {} stopped = some s ∧
    (∀ i, (s.table i).refs.toNat = Token.count (held s.log) i) ∧ Along Event.Rightly s.log ∧
      ∀ c : Call, ¬ c.Fresh s.table s.tap0 → ∃ address n, c.linkLocal? = some address ∧ n ≠ s.tap0 ∧ n ≠ 0 ∧
        c.made s.table = c.sentTo { address with addr := address.addr.normalized, scopeId := n } := by
  have h : (exec fitStep {} stopped).isSome := by decide +kernel
  exact ⟨(exec fitStep {} stopped).get h, Option.some_get h |>.symm,
    endpoint_scope (Option.some_get h).symm⟩

end AquaTransport.Endpoints
