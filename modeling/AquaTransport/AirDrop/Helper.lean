import AquaTransport.Lib.Program
import AquaTransport.Lib.Run
import AquaTransport.Lib.Ledger
import AquaTransport.Gsa.Foundation

/-!
# AquaTransport.AirDrop.Helper — the root helper and its radio session

The helper owns OWL, the Bluetooth advertiser and the Wi-Fi lease for one console user at a time.
A `Tick` is what one turn of its loop sees: the power messages that wait, the children that have
exited, the console user, the clock and at most one client.  `pid_t` is `none` for `0`; a child is
numbered by the children launched before it, and a disassociation by those before it.  What the helper
does to the machine goes to its log, newest first.
-/

namespace AquaTransport.AirDrop

/-- `(uid_t)-1`. -/
def noUser : UInt32 := 0xFFFFFFFF

/-- An `AQWiFiLease`; `active` has the number of the disassociation while `_active` is set. -/
structure WiFiLease where
  interface : Bool
  autoJoin : Bool
  active : Option ℕ := none
  wasConnected : Bool := false
  deriving DecidableEq

/-- The helper's globals for the radio. -/
structure Session where
  owlPID : Option ℕ := none
  blePID : Option ℕ := none
  owner : UInt32 := noUser
  lease : ℚ := 0
  wifiLease : Option WiFiLease := none
  radioWiFi : Bool := false
  deriving DecidableEq

inductive Child
  | owl
  | ble
  deriving DecidableEq

namespace Session

def pid (s : Session) : Child → Option ℕ
  | .owl => s.owlPID
  | .ble => s.blePID

def setPid (s : Session) (c : Child) (p : Option ℕ) : Session :=
  match c with
  | .owl => { s with owlPID := p }
  | .ble => { s with blePID := p }

end Session

/-- The `kIOMessage` constants of system power; `other` is every other message. -/
inductive PowerMessage
  | canSystemSleep
  | systemWillSleep
  | systemWillNotSleep
  | systemWillPowerOn
  | systemHasPoweredOn
  | other
  deriving DecidableEq

inductive Reply
  | refused (error : String)
  | ok (running tap : Bool)
  deriving DecidableEq

/-- One client served: who asked, who was at the console, and the session before and after. -/
structure Served where
  peer : Option UInt32
  console : UInt32
  command : Option NSString
  reply : Reply
  before : Session
  after : Session
  deriving DecidableEq

inductive Event
  /-- `powerChanged` has returned. -/
  | delivered (m : PowerMessage) (before after : Session)
  /-- `IOAllowPowerChange`. -/
  | acknowledged (m : PowerMessage)
  | launched (p : ℕ) (argv : List String)
  /-- `SIGTERM`. -/
  | terminated (p : ℕ)
  /-- `SIGKILL`. -/
  | killed (p : ℕ)
  /-- `waitpid` has returned the child: it runs no more. -/
  | waited (p : ℕ)
  | disassociated (n : ℕ) (wasConnected : Bool)
  | restored (n : ℕ) (rejoined : Bool)
  | renewed (uid : UInt32) (s : Session)
  | answered (a : Served)

structure Helper where
  session : Session := {}
  powerSleeping : Bool := false
  lastActivity : ℚ
  log : List Event := []

/-! ### What the log tells -/

namespace Event

def launch? : Event → Option ℕ
  | .launched p _ => some p
  | _ => none

def wait? : Event → Option ℕ
  | .waited p => some p
  | _ => none

def disassociation? : Event → Option (ℕ × Bool)
  | .disassociated n c => some (n, c)
  | _ => none

def restoration? : Event → Option ℕ
  | .restored n _ => some n
  | _ => none

end Event

def launches (log : List Event) : List ℕ := log.filterMap Event.launch?
def waits (log : List Event) : List ℕ := log.filterMap Event.wait?
def disassociations (log : List Event) : List (ℕ × Bool) := log.filterMap Event.disassociation?
def restorations (log : List Event) : List ℕ := log.filterMap Event.restoration?

/-- The messages at which no session may live on. -/
def PowerMessage.tearsDown (m : PowerMessage) : Bool :=
  m = .systemWillSleep || m = .systemHasPoweredOn

def Event.tearsDown : Event → Bool
  | .delivered m _ _ => m.tearsDown
  | _ => false

/-- What happened since the last will-sleep or has-powered-on. -/
def sinceTeardown (log : List Event) : List Event := log.takeWhile fun e => !e.tearsDown

/-- The last of will-sleep, will-power-on and has-powered-on was one of the first two. -/
def asleep : List Event → Bool
  | [] => false
  | .delivered .systemWillSleep _ _ :: _ => true
  | .delivered .systemWillPowerOn _ _ :: _ => true
  | .delivered .systemHasPoweredOn _ _ :: _ => false
  | _ :: past => asleep past

/-! ### What the machine answers -/

/-- What the helper takes from the machine at any time: the power of the Wi-Fi interface when a lease
is restored, by the number of its disassociation; whether `waitpid` has the child at each look after
`SIGTERM`; and `NSJSONSerialization`. -/
structure Machine where
  powerOn : ℕ → Bool
  exits : ℕ → ℕ → Bool
  json : NSData → Option Plist

/-- A call of `launch`: the file passes `trusted`, and `posix_spawn` succeeds. -/
structure Launch where
  trusted : Bool := true
  spawned : Bool := true

/-- What `begin` sees: the interface's power, an `ssid`, the exception that `disassociate` raises, and
whether there still is an `ssid` at each later look. -/
structure Begin where
  powerOn : Bool := true
  connected : Bool := false
  raises : Option String := none
  ssid : ℕ → Bool := fun _ => false

/-- One of the fifty waits of a start. -/
structure Wait where
  drained : List PowerMessage := []
  owlExits : Bool := false
  bleExits : Bool := false
  tapReady : Bool := false

/-- What a command sees. -/
structure Outcome where
  drained : List PowerMessage := []
  hasTAP : Bool := true
  hardware : Bool := true
  interface : String := "en0"
  bluetooth : Bool := true
  wifi : Bool := true
  powerOn : Bool := true
  channel149 : Bool := true
  autoJoin : Bool := true
  begins : Begin := {}
  diagnostics : Bool := false
  owl : Launch := {}
  ble : Launch := {}
  waits : ℕ → Wait := fun _ => {}
  clock : ℚ := 0
  tap : Bool := true

/-- A connection: when it was accepted, its peer's uid, and the bytes that can be read from it. -/
structure Client where
  accepted : ℚ
  peer : Option UInt32
  bytes : List UInt8
  outcome : Outcome := {}

structure Tick where
  drained : List PowerMessage := []
  console : UInt32
  owlExits : Bool := false
  bleExits : Bool := false
  now : ℚ := 0
  powerOn : Bool := true
  idle : ℚ := 0
  ble : Launch := {}
  client : Option Client := none

/-! ### The helper -/

namespace Helper

variable (M : Machine)

def note (h : Helper) (e : Event) : Helper := { h with log := e :: h.log }

/-- The child's `waitpid` has returned. -/
def wait (h : Helper) (c : Child) (p : ℕ) : Helper :=
  { h with session := h.session.setPid c none, log := .waited p :: h.log }

def reap (c : Child) (exited : Bool) (h : Helper) : Helper :=
  match h.session.pid c with
  | some p => if exited then h.wait c p else h
  | none => h

def terminate (c : Child) (h : Helper) : Helper :=
  match h.session.pid c with
  | some p =>
    let h := h.note (.terminated p)
    if (List.range 30).any (M.exits p) then h.wait c p else (h.note (.killed p)).wait c p
  | none => h

/-- `[wifiLease restore]`. -/
def restore (h : Helper) : Helper :=
  match h.session.wifiLease with
  | some l =>
    match l.active with
    | some n =>
      { h with
        session := { h.session with wifiLease := some { l with active := none } }
        log := .restored n (l.wasConnected && l.autoJoin && M.powerOn n) :: h.log }
    | none => h
  | none => h

/-- The end of `radioStop`: the lease is let go of, and the session has no owner. -/
def release (h : Helper) : Helper :=
  { h with session := { h.session with wifiLease := none, radioWiFi := false, owner := noUser } }

def radioStop (h : Helper) : Helper := (restore M (terminate M .owl (terminate M .ble h))).release

def handlePower (m : PowerMessage) (h : Helper) : Helper :=
  match m with
  | .canSystemSleep => h.note (.acknowledged m)
  | .systemWillSleep => (radioStop M { h with powerSleeping := true }).note (.acknowledged m)
  | .systemWillPowerOn => { h with powerSleeping := true }
  | .systemHasPoweredOn => { radioStop M h with powerSleeping := false }
  | .systemWillNotSleep | .other => h

def powerChanged (h : Helper) (m : PowerMessage) : Helper :=
  let t := handlePower M m h
  t.note (.delivered m h.session t.session)

def drainPowerEvents (ms : List PowerMessage) (h : Helper) : Helper := ms.foldl (powerChanged M) h

end Helper

/-- A task of the helper; an error is the reason of its exception. -/
abbrev Task := Program Helper String

section Commands

open Program Helper

variable (M : Machine)

def setSession (f : Session → Session) : Task Unit :=
  modify fun h => { h with session := f h.session }

def requireRadioAwake (ms : List PowerMessage) : Task Unit := do
  modify (drainPowerEvents M ms)
  let h ← get
  check (!h.powerSleeping) "The system is sleeping or its radios are still waking."

/-- `launch`, and the assignment of its result. -/
def launch (c : Child) (l : Launch) (name : String) (arguments : List String) : Task Unit := do
  check l.trusted "The installed radio executable is missing or has unsafe permissions."
  check l.spawned "Could not start the radio process."
  modify fun h =>
    { h with
      session := h.session.setPid c (some (launches h.log).length)
      log := .launched (launches h.log).length
        (("/usr/share/aquatransport/airdrop/" ++ name) :: arguments) :: h.log }

/-- `for(i=0;i<20 && ssid.length;i++)`: how often the loop has looked. -/
def looks (ssid : ℕ → Bool) : ℕ → ℕ → ℕ
  | 0, i => i
  | n + 1, i => if ssid i then looks ssid n (i + 1) else i + 1

def disassociate (b : Begin) : Task Unit :=
  match b.raises with
  | some e => fail e
  | none => check (!b.ssid (looks b.ssid 20 0)) "Wi-Fi did not disconnect for AirDrop."

/-- `_active=YES; [_interface disassociate]`. -/
def Helper.activate (l : WiFiLease) (h : Helper) : Helper :=
  { h with
    session := { h.session with
      wifiLease := some { l with active := some (disassociations h.log).length } }
    log := .disassociated (disassociations h.log).length l.wasConnected :: h.log }

/-- `begin`, past the test of `_active`. -/
def beginLease (b : Begin) (l : WiFiLease) : Task Unit := do
  check l.interface "The supported Wi-Fi interface is unavailable."
  check b.powerOn "Turn on Wi-Fi to use AirDrop."
  let l := { l with wasConnected := b.connected }
  setSession fun s => { s with wifiLease := some l }
  check (!b.connected || l.autoJoin) "The system Wi-Fi reconnection API is unavailable."
  modify (activate l)
  tryFinally (disassociate b) fun ok h => if ok then h else restore M h

/-- `[wifiLease begin]`. -/
def leaseBegin (b : Begin) : Task Unit := do
  let h ← get
  match h.session.wifiLease with
  | some l => if l.active.isSome then pure () else beginLease M b l
  | none => pure ()

/-- The readiness loop of a start. -/
def awaitTap (w : ℕ → Wait) : ℕ → ℕ → Task Bool
  | 0, _ => pure false
  | n + 1, i => do
    requireRadioAwake M (w i).drained
    modify fun h => reap .ble (w i).bleExits (reap .owl (w i).owlExits h)
    let h ← get
    if h.session.owlPID.isNone || h.session.blePID.isNone then pure false
    else if (w i).tapReady then pure true
    else awaitTap w n (i + 1)

def radioArguments (o : Outcome) : List String :=
  ["-i", o.interface, "-h", "tap0", "-c", "149", "-F", "-Q"] ++ if o.diagnostics then ["-T"] else []

/-- The guarded part of a start. -/
def raiseRadio (o : Outcome) (uid : UInt32) : Task Unit := do
  leaseBegin M o.begins
  setSession fun s => { s with radioWiFi := true }
  launch .owl o.owl "owl" (radioArguments o)
  setSession fun s => { s with owner := uid }
  launch .ble o.ble "ad_ble_wake" ["600"]
  let ready ← awaitTap M o.waits 50 0
  check ready "The AirDrop radio did not become ready."

/-- A start without a running OWL. -/
def startRadio (o : Outcome) (uid : UInt32) : Task Unit := do
  check o.hardware "AirDrop requires an unambiguous Wi-Fi interface and a Bluetooth LE controller."
  check o.bluetooth "Turn on Bluetooth to use AirDrop."
  check o.wifi "The Wi-Fi interface is unavailable."
  check o.powerOn "Turn on Wi-Fi to use AirDrop."
  check o.channel149 "The Wi-Fi interface does not support AirDrop's configured channel 149."
  setSession fun s => { s with wifiLease := some { interface := o.wifi, autoJoin := o.autoJoin } }
  tryFinally (raiseRadio M o uid) fun ok h => if ok then h else radioStop M h

/-- `lease=monotonicTime()+45`. -/
def renew (uid : UInt32) (clock : ℚ) : Task Unit := modify fun h =>
  let s := { h.session with lease := clock + 45 }
  { h with session := s, log := .renewed uid s :: h.log }

/-- `if(!owlPID)`. -/
def ensureRadio (o : Outcome) (uid : UInt32) : Task Unit := do
  let h ← get
  if h.session.owlPID.isNone then startRadio M o uid else pure ()

def start (o : Outcome) (uid : UInt32) : Task Unit := do
  requireRadioAwake M o.drained
  check o.hasTAP "The TAP driver is not installed."
  ensureRadio M o uid
  renew uid o.clock

def heartbeat (o : Outcome) (uid : UInt32) : Task Unit := do
  requireRadioAwake M o.drained
  let h ← get
  check (h.session.owner = uid && h.session.owlPID.isSome) "The radio session has ended."
  renew uid o.clock

def stop (uid : UInt32) : Task Unit :=
  modify fun h => if h.session.owner = uid then radioStop M h else h

def command (o : Outcome) (uid : UInt32) (name : NSString) : Task Unit :=
  if name = str "start" then start M o uid
  else if name = str "heartbeat" then heartbeat M o uid
  else if name = str "stop" then stop M uid
  else check (name = str "status") "Unknown helper command."

/-- The bytes before the first newline, of 1024 at most. -/
def readRequest : ℕ → List UInt8 → Option NSData
  | n + 1, c :: rest => if c = 10 then some [] else (readRequest n rest).map (c :: ·)
  | _, _ => none

/-- `request[@"command"]` of a request that has nothing else. -/
def requested (c : Client) : Option NSString :=
  (readRequest 1024 c.bytes).bind fun data => (aqDict (M.json data)).bind fun request =>
    if request.length = 1 then
      match NSDictionary.objectForKey request "command" with
      | some (.string s) => some s
      | _ => none
    else none

def handle (c : Client) (uid : UInt32) : Task Unit := do
  let name ← orFail (requested M c) "Invalid helper request."
  command M c.outcome uid name

/-- The reply, and the helper that gives it. -/
def answer (console : UInt32) (c : Client) (h : Helper) : Reply × Helper :=
  match c.peer.filter fun uid => uid = console && uid != 0 && uid != noUser with
  | some uid =>
    match handle M c uid h with
    | (.ok (), t) => (.ok t.session.owlPID.isSome c.outcome.tap, t)
    | (.error e, t) => (.refused e, t)
  | none => (.refused "Only the logged-in console user may control AirDrop.", h)

def serve (console : UInt32) (c : Client) (h : Helper) : Helper :=
  let (reply, t) := answer M console c { h with lastActivity := c.accepted }
  t.note (.answered ⟨c.peer, console, requested M c, reply, h.session, t.session⟩)

/-- Why the session ends at this turn of the loop. -/
def Tick.reason (t : Tick) (s : Session) : Option String :=
  if t.now > s.lease then some "lease expired"
  else if t.console ≠ s.owner then some "console user changed"
  else if s.owlPID.isNone then some "OWL exited"
  else if !(s.radioWiFi && t.powerOn) then some "Wi-Fi is off or unavailable"
  else none

/-- Turning Wi-Fi off ends the session, as the lease's end, another console user and OWL's exit do. -/
def supervise (t : Tick) (h : Helper) : Helper :=
  if h.session.owner ≠ noUser ∧ (t.reason h.session).isSome then radioStop M h else h

def relaunch (t : Tick) (h : Helper) : Helper :=
  if h.session.owlPID.isSome && h.session.blePID.isNone then
    match launch .ble t.ble "ad_ble_wake" ["600"] h with
    | (.ok (), h) => h
    | (.error _, h) => radioStop M h
  else h

/-- The loop's turn as far as its `break`. -/
def beforeIdle (t : Tick) (h : Helper) : Helper :=
  let h := drainPowerEvents M t.drained h
  supervise M t (reap .ble t.bleExits (reap .owl t.owlExits h))

/-- A turn of the loop; `false` when it breaks. -/
def iterate (t : Tick) (h : Helper) : Helper × Bool :=
  let h := beforeIdle M t h
  if h.session.owlPID.isNone && t.idle > h.lastActivity + 30 then (h, false)
  else
    let h := relaunch M t h
    match t.client with
    | some c => (serve M t.console c h, true)
    | none => (h, true)

/-- The helper at the top of its loop, or gone. -/
structure Loop where
  helper : Helper
  left : Bool := false

/-- What the top of the loop meets: another turn, or the signal that ends it. -/
inductive Turn
  | tick (t : Tick)
  | stopping

def Loop.step (l : Loop) : Turn → Option Loop
  | .stopping => if l.left then none else some ⟨radioStop M l.helper, true⟩
  | .tick t =>
    if l.left then none
    else
      let (h, goesOn) := iterate M t l.helper
      some (if goesOn then ⟨h, false⟩ else ⟨radioStop M h, true⟩)

end Commands

end AquaTransport.AirDrop
