import AquaTransport.Gsa.Bridge
import AquaTransport.Lib.BigEndian
import AquaTransport.Lib.Run
import AquaTransport.Lib.Transfer

/-!
# AquaTransport.Gsa.Ipc — a client of the local Anisette service, and the worker that answers it

Each client has a connection of its own, and the worker that the service starts for it writes to that
connection alone.  Client and worker move their bytes with `aq_adi_io` and `sendAll`, which take whatever
counts and errors the system calls return, while the other side goes on or ends.
-/

namespace AquaTransport

namespace Ipc

/-! ### The two loops -/

/-- What `select` returns: an error, `EINTR`, nothing ready in time, or a ready descriptor. -/
inductive Select
  | error
  | interrupted
  | timeout
  | ready

/-- What `send` and `recv` return; `x` is what they move. -/
inductive Returned (β : Type)
  | moved (x : β)
  | zero
  | eintr
  | eagain
  | error

/-- What one turn of the loop in `aq_adi_io` finds. -/
structure IoTurn (β : Type) where
  stopped : Bool := false
  /-- The deadline has passed. -/
  expired : Bool := false
  select : Select := .ready
  returned : Returned β

/-- The body of the loop in `aq_adi_io`. -/
def IoTurn.attempt {β : Type} (turn : IoTurn β) : Transfer.Attempt β :=
  if turn.stopped || turn.expired then .ended
  else
    match turn.select with
    | .error => .ended
    | .interrupted | .timeout => .again
    | .ready =>
      match turn.returned with
      | .eintr | .eagain => .again
      | .zero | .error => .ended
      | .moved x => .moved x

/-- The body of the loop in `sendAll`. -/
def Returned.attempt {β : Type} : Returned β → Transfer.Attempt β
  | .eintr => .again
  | .zero | .eagain | .error => .ended
  | .moved x => .moved x

/-! ### The client -/

/-- An error of `AQErrorDomain`. -/
structure ServiceError where
  code : ℤ
  message : NSString

/-- What comes of the calls before the transfer. -/
inductive Opening
  | connected
  | noSocket
  | noFlags
  | longPath
  | refused
  | otherOwner

def Opening.error : Opening → Option String
  | .connected => none
  | .noSocket => some "Could not open the local Anisette service."
  | .noFlags => some "Could not connect to the local Anisette service."
  | .longPath => some "Invalid local Anisette socket path."
  | .refused =>
    some "The local Anisette service is unavailable. Restart after installing AquaTransport."
  | .otherOwner => some "The local Anisette service has an unexpected owner."

/-- Where `aq_adi_client` is.  `taken` is the reply that it has read in full. -/
inductive Client
  | opening
  | operation (t : Transfer UInt8)
  | length (t : Transfer UInt8)
  | body (t : Transfer UInt8)
  | returned (taken : Option NSData) (result : Except ServiceError NSDictionary)

section Client

variable (S : Services) (hasControl : NSString → Bool)

/-- `aq_device_field`; `hasControl` looks for control characters. -/
def aqDeviceField (value : Option Plist) : Option NSString :=
  (aqString value).filter fun s => s.length ≤ 16384 && !hasControl s

/-- What `aq_adi_client` makes of a reply. -/
def replyHeaders (data : NSData) : Except ServiceError NSDictionary :=
  let reply := aqPlist S data
  match aqDict (keyOf reply "headers") with
  | some headers => .ok headers
  | none =>
    .error ⟨(aqNumber (keyOf reply "error")).getD 19,
      (aqDeviceField hasControl (keyOf reply "message")).getD
        (str "Local device authentication failed.")⟩

def Client.fail (code : ℤ) (message : String) : Client := .returned none (.error ⟨code, str message⟩)

/-- The failure of the first two transfers; `stopped` is what `isStopped` says by then. -/
def Client.incomplete (stopped : Bool) : Client :=
  .fail (if stopped then 3072 else 19)
    "Local device authentication was cancelled or could not complete."

/-- A turn of the client, over the bytes on the way to the worker and those that have come back. -/
def Client.turn (turn : IoTurn ℕ) (stopped : Bool) (request reply : List UInt8) :
    Client → Option (Client × List UInt8 × List UInt8)
  | .opening | .returned _ _ => none
  | .operation t =>
    (t.sendOn turn.attempt request).map fun
      | (.inl true, request) => (.length (.new [0, 0, 0, 0]), request, reply)
      | (.inl false, request) => (.incomplete stopped, request, reply)
      | (.inr t, request) => (.operation t, request, reply)
  | .length t =>
    (t.recvFrom turn.attempt reply).map fun
      | (.inl true, reply) =>
        let length := ofBytes t.memory
        if length = 0 ∨ 65536 < length then
          (.fail 19 "Invalid local device authentication response.", request, reply)
        else (.body (.new (List.replicate length 0)), request, reply)
      | (.inl false, reply) => (.incomplete stopped, request, reply)
      | (.inr t, reply) => (.length t, request, reply)
  | .body t =>
    (t.recvFrom turn.attempt reply).map fun
      | (.inl true, reply) =>
        (.returned (some t.memory) (replyHeaders S hasControl t.memory), request, reply)
      | (.inl false, reply) =>
        (.fail 19 "Incomplete local device authentication response.", request, reply)
      | (.inr t, reply) => (.body t, request, reply)

end Client

/-! ### The worker -/

/-- Where `runWorker` is; `other` is a peer that is not the service's worker. -/
inductive Worker
  | starting
  | waiting
  | generating
  | sendingLength (t : Transfer UInt8) (data : NSData)
  | sendingBody (t : Transfer UInt8)
  | exited (status : ℕ)
  | killed
  | other

/-- What happens to a worker. -/
inductive WorkerStep
  /-- The checks of the identities. -/
  | checked (ok : Bool)
  /-- `recv` of the operation. -/
  | asked (received : Bool)
  /-- The reply is encoded. -/
  | generated (data : NSData)
  | sent (returned : Returned ℕ)
  | killed
  | wrote (bytes : List UInt8)

/-- A connection.  `sent` is what its peer has written, and `produced` the worker's reply. -/
structure Connection where
  client : Client := .opening
  worker : Worker := .starting
  request : List UInt8 := []
  reply : List UInt8 := []
  sent : List UInt8 := []
  produced : Option NSData := none

namespace Connection

/-- The worker writes to the client. -/
def write (c : Connection) (worker : Worker) (bytes : List UInt8) : Connection :=
  { c with worker := worker, reply := c.reply ++ bytes, sent := c.sent ++ bytes }

def workerStep (c : Connection) : WorkerStep → Option Connection
  | .checked ok =>
    match c.worker with
    | .starting => some { c with worker := if ok then .waiting else .exited 2 }
    | _ => none
  | .asked received =>
    match c.worker with
    | .waiting =>
      if received then
        match c.request with
        | [] => none
        | operation :: request =>
          some { c with
            worker := if operation = 1 then .generating else .exited 2
            request := request }
      else some { c with worker := .exited 2 }
    | _ => none
  | .generated data =>
    match c.worker with
    | .generating => some { c with
        worker := if data.length = 0 ∨ 65536 < data.length then .exited 1
          else .sendingLength (.new (toBytes 4 data.length)) data
        produced := some data }
    | _ => none
  | .sent returned =>
    match c.worker with
    | .sendingLength t data =>
      (t.sendOn returned.attempt []).map fun
        | (.inl true, bytes) => c.write (.sendingBody (.new data)) bytes
        | (.inl false, bytes) => c.write (.exited 1) bytes
        | (.inr t, bytes) => c.write (.sendingLength t data) bytes
    | .sendingBody t =>
      (t.sendOn returned.attempt []).map fun
        | (.inl true, bytes) => c.write (.exited 0) bytes
        | (.inl false, bytes) => c.write (.exited 1) bytes
        | (.inr t, bytes) => c.write (.sendingBody t) bytes
    | _ => none
  | .killed =>
    match c.worker with
    | .exited _ | .other => none
    | _ => some { c with worker := .killed }
  | .wrote bytes =>
    match c.worker with
    | .other => some (c.write .other bytes)
    | _ => none

end Connection

/-! ### The service -/

inductive Label
  /-- A client starts; its peer is the worker of the service, or another. -/
  | connect (service : Bool)
  | opened (i : ℕ) (opening : Opening)
  | turn (i : ℕ) (turn : IoTurn ℕ) (stopped : Bool)
  | worker (i : ℕ) (step : WorkerStep)

section Model

variable (S : Services) (hasControl : NSString → Bool)

def step (conns : List Connection) : Label → Option (List Connection)
  | .connect service =>
    some (conns ++ [{ worker := if service then .starting else .other }])
  | .opened i opening =>
    conns[i]?.bind fun c =>
      match c.client with
      | .opening => some (conns.set i { c with
          client := match opening.error with
            | some message => .fail 10 message
            | none => .operation (.new [1]) })
      | _ => none
  | .turn i turn stopped =>
    conns[i]?.bind fun c =>
      (c.client.turn S hasControl turn stopped c.request c.reply).map fun r =>
        conns.set i { c with client := r.1, request := r.2.1, reply := r.2.2 }
  | .worker i w => conns[i]?.bind fun c => (c.workerStep w).map fun c => conns.set i c

end Model

/-! ### What a connection keeps -/

section Invariant

variable (S : Services) (hasControl : NSString → Bool)

/-- A length that a reply may have. -/
def Proper (n : ℕ) : Prop := 0 < n ∧ n ≤ 65536

/-- What the client has of `sent`, besides what is on its way to it. -/
def Client.Holds (reply sent : List UInt8) : Client → Prop
  | .opening | .operation _ => reply = sent
  | .length t => t.memory.length = 4 ∧ t.front ++ reply = sent
  | .body t => Proper t.memory.length ∧ ∃ head, head.length = 4 ∧ ofBytes head = t.memory.length ∧
      head ++ t.front ++ reply = sent
  | .returned none result => ∃ e, result = .error e
  | .returned (some data) result => result = replyHeaders S hasControl data ∧ Proper data.length ∧
      toBytes 4 data.length ++ data <+: sent

/-- What the worker has sent. -/
def Worker.Holds (sent : List UInt8) (produced : Option NSData) : Worker → Prop
  | .starting | .waiting | .generating => sent = []
  | .sendingLength t data => produced = some data ∧ Proper data.length ∧
      t.memory = toBytes 4 data.length ∧ sent = t.front
  | .sendingBody t => produced = some t.memory ∧ Proper t.memory.length ∧
      sent = toBytes 4 t.memory.length ++ t.front
  | .exited _ | .killed => sent = [] ∨ ∃ data, produced = some data ∧ Proper data.length ∧
      sent <+: toBytes 4 data.length ++ data
  | .other => True

structure Connection.Inv (c : Connection) : Prop where
  client : c.client.Holds S hasControl c.reply c.sent
  worker : c.worker.Holds c.sent c.produced

variable {S hasControl} {c c' : Connection}

/-- More may be on its way. -/
theorem Client.Holds.append {reply sent : List UInt8} {client : Client}
    (h : client.Holds S hasControl reply sent) (bytes : List UInt8) :
    client.Holds S hasControl (reply ++ bytes) (sent ++ bytes) := by
  cases client with
  | opening => exact congrArg (· ++ bytes) h
  | operation t => exact congrArg (· ++ bytes) h
  | length t =>
    obtain ⟨hl, hs⟩ := h
    exact ⟨hl, by rw [← hs, List.append_assoc]⟩
  | body t =>
    obtain ⟨hp, head, hl, hn, hs⟩ := h
    refine ⟨hp, head, hl, hn, ?_⟩
    rw [← hs]
    simp only [List.append_assoc]
  | returned taken result =>
    cases taken with
    | none => exact h
    | some data => exact ⟨h.1, h.2.1, h.2.2.trans (List.prefix_append sent bytes)⟩

/-- **A turn of the client.** -/
theorem Client.Holds.turn {client client' : Client} {turn : IoTurn ℕ} {stopped : Bool}
    {request reply sent request' reply' : List UInt8} (h : client.Holds S hasControl reply sent)
    (ht : client.turn S hasControl turn stopped request reply = some (client', request', reply')) :
    client'.Holds S hasControl reply' sent := by
  cases client with
  | opening => cases ht
  | returned taken result => cases ht
  | operation t =>
    obtain ⟨⟨r, stream⟩, hs, he⟩ := Option.map_eq_some_iff.mp ht
    cases r with
    | inl b =>
      cases b with
      | false =>
        obtain ⟨rfl, -, rfl⟩ := Prod.mk.inj he |>.imp_right Prod.mk.inj
        exact ⟨_, rfl⟩
      | true =>
        obtain ⟨rfl, -, rfl⟩ := Prod.mk.inj he |>.imp_right Prod.mk.inj
        exact ⟨rfl, h⟩
    | inr t =>
      obtain ⟨rfl, -, rfl⟩ := Prod.mk.inj he |>.imp_right Prod.mk.inj
      exact h
  | length t =>
    obtain ⟨hl, hsent⟩ := h
    obtain ⟨⟨r, stream⟩, hs, he⟩ := Option.map_eq_some_iff.mp ht
    cases r with
    | inl b =>
      obtain ⟨rfl, hfront⟩ := Transfer.recvFrom_inl hs
      cases b with
      | false =>
        obtain ⟨rfl, -, rfl⟩ := Prod.mk.inj he |>.imp_right Prod.mk.inj
        exact ⟨_, rfl⟩
      | true =>
        dsimp only at he
        split at he
        · obtain ⟨rfl, -, rfl⟩ := Prod.mk.inj he |>.imp_right Prod.mk.inj
          exact ⟨_, rfl⟩
        · rename_i hn
          obtain ⟨rfl, -, rfl⟩ := Prod.mk.inj he |>.imp_right Prod.mk.inj
          have hlen : (Transfer.new (List.replicate (ofBytes t.memory) (0 : UInt8))).memory.length =
              ofBytes t.memory := List.length_replicate
          refine ⟨?_, t.memory, hl, hlen.symm, ?_⟩
          · rw [hlen, Proper]
            omega
          · rw [Transfer.front_new, List.append_nil, ← hfront rfl]
            exact hsent
    | inr t' =>
      obtain ⟨hmem, chunk, rfl, hfront⟩ := Transfer.recvFrom_inr hs
      obtain ⟨rfl, -, rfl⟩ := Prod.mk.inj he |>.imp_right Prod.mk.inj
      refine ⟨hmem.trans hl, ?_⟩
      rw [hfront, List.append_assoc]
      exact hsent
  | body t =>
    obtain ⟨hp, head, hl, hn, hsent⟩ := h
    obtain ⟨⟨r, stream⟩, hs, he⟩ := Option.map_eq_some_iff.mp ht
    cases r with
    | inl b =>
      obtain ⟨rfl, hfront⟩ := Transfer.recvFrom_inl hs
      cases b with
      | false =>
        obtain ⟨rfl, -, rfl⟩ := Prod.mk.inj he |>.imp_right Prod.mk.inj
        exact ⟨_, rfl⟩
      | true =>
        obtain ⟨rfl, -, rfl⟩ := Prod.mk.inj he |>.imp_right Prod.mk.inj
        refine ⟨rfl, hp, stream, ?_⟩
        rw [← hn, ← hl, toBytes_ofBytes, ← hfront rfl]
        exact hsent
    | inr t' =>
      obtain ⟨hmem, chunk, rfl, hfront⟩ := Transfer.recvFrom_inr hs
      obtain ⟨rfl, -, rfl⟩ := Prod.mk.inj he |>.imp_right Prod.mk.inj
      refine ⟨hmem.symm ▸ hp, head, hl, hn.trans hmem.symm, ?_⟩
      rw [hfront, ← hsent]
      simp only [List.append_assoc]

/-- A worker that ends leaves a start of its reply. -/
theorem Worker.Holds.cut {sent : List UInt8} {produced : Option NSData} {worker : Worker}
    (h : worker.Holds sent produced) (hother : worker ≠ .other) :
    sent = [] ∨ ∃ data, produced = some data ∧ Proper data.length ∧
      sent <+: toBytes 4 data.length ++ data := by
  cases worker with
  | starting => exact .inl h
  | waiting => exact .inl h
  | generating => exact .inl h
  | sendingLength t data =>
    obtain ⟨hp, hd, hm, rfl⟩ := h
    refine .inr ⟨data, hp, hd, ?_⟩
    rw [← hm]
    exact (List.take_prefix _ _).trans (List.prefix_append _ _)
  | sendingBody t =>
    obtain ⟨hp, hd, rfl⟩ := h
    exact .inr ⟨t.memory, hp, hd, (List.prefix_append_right_inj _).mpr (List.take_prefix _ _)⟩
  | exited status => exact h
  | killed => exact h
  | other => exact absurd rfl hother

/-- The client does not see which step its peer made. -/
theorem Connection.Inv.write (h : c.Inv S hasControl) {worker : Worker} {bytes : List UInt8}
    (hw : worker.Holds (c.sent ++ bytes) c.produced) : (c.write worker bytes).Inv S hasControl :=
  ⟨h.client.append bytes, hw⟩

/-- **A step of the worker.** -/
theorem Connection.Inv.workerStep {w : WorkerStep} (h : c.Inv S hasControl)
    (hw : c.workerStep w = some c') : c'.Inv S hasControl := by
  have hc := h.client
  have hold := h.worker
  cases w with
  | checked ok =>
    cases hk : c.worker <;> simp only [Connection.workerStep, hk, reduceCtorEq, Option.some.injEq] at hw
    rw [hk] at hold
    subst hw
    refine ⟨hc, ?_⟩
    cases ok with
    | false => exact .inl hold
    | true => exact hold
  | asked received =>
    cases hk : c.worker <;> simp only [Connection.workerStep, hk, reduceCtorEq] at hw
    rw [hk] at hold
    split at hw
    · split at hw
      · cases hw
      · rename_i operation request hreq
        obtain rfl := Option.some.inj hw
        refine ⟨hc, ?_⟩
        show Worker.Holds c.sent c.produced (if operation = 1 then .generating else .exited 2)
        split
        · exact hold
        · exact .inl hold
    · obtain rfl := Option.some.inj hw
      exact ⟨hc, .inl hold⟩
  | generated data =>
    cases hk : c.worker <;>
      simp only [Connection.workerStep, hk, reduceCtorEq, Option.some.injEq] at hw
    rw [hk] at hold
    subst hw
    refine ⟨hc, ?_⟩
    show Worker.Holds c.sent (some data) (if data.length = 0 ∨ 65536 < data.length then .exited 1
      else .sendingLength (.new (toBytes 4 data.length)) data)
    split
    · exact .inl hold
    · refine ⟨rfl, ?_, rfl, hold⟩
      rw [Proper]
      omega
  | sent returned =>
    cases hk : c.worker <;> simp only [Connection.workerStep, hk, reduceCtorEq] at hw
    case sendingLength t data =>
      rw [hk] at hold
      have hcut := hold.cut nofun
      obtain ⟨⟨r, bytes⟩, hs, rfl⟩ := Option.map_eq_some_iff.mp hw
      obtain ⟨hp, hd, hm, hsent⟩ := hold
      cases r with
      | inl b =>
        obtain ⟨rfl, hfront⟩ := Transfer.sendOn_inl hs
        cases b with
        | false => exact h.write (by rwa [List.append_nil])
        | true =>
          refine h.write ⟨hp, hd, ?_⟩
          rw [List.append_nil, Transfer.front_new, List.append_nil, hsent, hfront rfl, hm]
          rfl
      | inr t' =>
        obtain ⟨hmem, chunk, rfl, hfront⟩ := Transfer.sendOn_inr hs
        refine h.write ⟨hp, hd, hmem.trans hm, ?_⟩
        rw [hfront, hsent]
    case sendingBody t =>
      rw [hk] at hold
      have hcut := hold.cut nofun
      obtain ⟨⟨r, bytes⟩, hs, rfl⟩ := Option.map_eq_some_iff.mp hw
      obtain ⟨hp, hd, hsent⟩ := hold
      cases r with
      | inl b =>
        obtain ⟨rfl, -⟩ := Transfer.sendOn_inl hs
        have hend : ∀ status, (c.write (.exited status) []).Inv S hasControl :=
          fun status => h.write (by rwa [List.append_nil])
        cases b with
        | false => exact hend 1
        | true => exact hend 0
      | inr t' =>
        obtain ⟨hmem, chunk, rfl, hfront⟩ := Transfer.sendOn_inr hs
        refine h.write ⟨hmem.symm ▸ hp, hmem.symm ▸ hd, ?_⟩
        rw [hfront, hsent, hmem, List.append_assoc]
  | killed =>
    have hcut : c.worker ≠ .other → (Worker.killed).Holds c.sent c.produced := fun hne => hold.cut hne
    cases hk : c.worker <;>
      simp only [Connection.workerStep, hk, reduceCtorEq, Option.some.injEq] at hw <;>
      exact hw ▸ ⟨hc, hcut (by simp [hk])⟩
  | wrote bytes =>
    cases hk : c.worker <;>
      simp only [Connection.workerStep, hk, reduceCtorEq, Option.some.injEq] at hw
    exact hw ▸ h.write trivial

/-- **A step of the service** keeps every connection. -/
theorem step_inv {conns conns' : List Connection} {l : Label}
    (h : ∀ c ∈ conns, c.Inv S hasControl) (hs : step S hasControl conns l = some conns') :
    ∀ c ∈ conns', c.Inv S hasControl := by
  have hset : ∀ i c', c'.Inv S hasControl → ∀ c ∈ conns.set i c', c.Inv S hasControl := by
    intro i c' hc' c hc
    rcases List.mem_or_eq_of_mem_set hc with hc | rfl
    · exact h c hc
    · exact hc'
  cases l with
  | connect service =>
    obtain rfl := Option.some.inj hs
    intro c hc
    rcases List.mem_append.mp hc with hc | hc
    · exact h c hc
    · obtain rfl := List.mem_singleton.mp hc
      cases service with
      | false => exact ⟨rfl, trivial⟩
      | true => exact ⟨rfl, rfl⟩
  | opened i opening =>
    obtain ⟨c, hc, hs⟩ := Option.bind_eq_some_iff.mp hs
    have hinv := h c (List.mem_of_getElem? hc)
    cases hk : c.client <;> simp only [hk, reduceCtorEq, Option.some.injEq] at hs
    obtain rfl := hs
    have hopen : c.reply = c.sent := by
      have := hinv.client
      rwa [hk] at this
    refine hset i _ ⟨?_, hinv.worker⟩
    cases opening.error with
    | none => exact hopen
    | some message => exact ⟨_, rfl⟩
  | turn i turn stopped =>
    obtain ⟨c, hc, hs⟩ := Option.bind_eq_some_iff.mp hs
    have hinv := h c (List.mem_of_getElem? hc)
    obtain ⟨r, hr, rfl⟩ := Option.map_eq_some_iff.mp hs
    exact hset i _ ⟨hinv.client.turn hr, hinv.worker⟩
  | worker i w =>
    obtain ⟨c, hc, hs⟩ := Option.bind_eq_some_iff.mp hs
    obtain ⟨c', hw, rfl⟩ := Option.map_eq_some_iff.mp hs
    exact hset i c' ((h c (List.mem_of_getElem? hc)).workerStep hw)

/-! ### Replies -/

variable (S hasControl) in
/-- What a client has when it returns: an error, or a reply that came whole on its own connection and
that is the worker's. -/
def Connection.Framed (c : Connection) : Prop := ∀ taken result, c.client = .returned taken result →
  match taken with
  | none => ∃ e, result = .error e
  | some data => result = replyHeaders S hasControl data ∧ 0 < data.length ∧ data.length ≤ 65536 ∧
      toBytes 4 data.length ++ data <+: c.sent ∧ (c.worker ≠ .other → c.produced = some data)

/-- The length in front of a reply tells where it ends. -/
theorem frame_inj {data data' bytes : NSData} (h : Proper data.length) (h' : Proper data'.length)
    (hd : toBytes 4 data.length ++ data <+: bytes) (hd' : bytes <+: toBytes 4 data'.length ++ data') :
    data = data' := by
  obtain ⟨rest, hrest⟩ := hd.trans hd'
  rw [List.append_assoc] at hrest
  obtain ⟨hhead, hbody⟩ := List.append_inj hrest (by rw [length_toBytes, length_toBytes])
  have hof : ∀ n, Proper n → ofBytes (toBytes 4 n) = n := fun n hn =>
    ofBytes_toBytes (Nat.lt_of_le_of_lt hn.2 (by decide))
  have hlen : data.length = data'.length := by
    rw [← hof _ h, hhead, hof _ h']
  exact (List.append_inj (hbody.trans (List.append_nil _).symm) hlen).1

theorem Connection.Inv.framed (h : c.Inv S hasControl) : c.Framed S hasControl := by
  intro taken result hr
  have hc := h.client
  rw [hr] at hc
  cases taken with
  | none => exact hc
  | some data =>
    obtain ⟨hres, hp, hpre⟩ := hc
    refine ⟨hres, hp.1, hp.2, hpre, fun hother => ?_⟩
    rcases h.worker.cut hother with hnil | ⟨data', hprod, hp', hcut⟩
    · rw [hnil, List.prefix_nil] at hpre
      have hlen := congrArg List.length hpre
      rw [List.length_append, length_toBytes] at hlen
      simp at hlen
    · rw [hprod, frame_inj hp hp' hpre hcut]

end Invariant

/-- The other side goes on, again and again. -/
def Progress {β : Type} (P : β → Prop) (attempts : ℕ → Transfer.Attempt β) : Prop :=
  ∀ k, ∃ i, k ≤ i ∧ ∃ x, attempts i = .moved x ∧ P x

theorem attempt_expired {β : Type} {turn : IoTurn β} (h : turn.expired = true) :
    turn.attempt = .ended := by
  unfold IoTurn.attempt
  rw [h, Bool.or_true, if_pos rfl]

/-- **Framing.**  In every run a client has its worker's reply or an error; and the loops end when the
other side goes on or their time is up. -/
theorem ipc_framing (S : Services) (hasControl : NSString → Bool) :
    (∀ evs conns, exec (step S hasControl) [] evs = some conns →
      ∀ c ∈ conns, c.Framed S hasControl) ∧
    (∀ (t : Transfer UInt8) (turns : ℕ → IoTurn ℕ), (∃ k, (turns k).expired = true) ∨
      Progress (0 < ·) (fun k => (turns k).attempt) →
      ∃ k b, Transfer.loop Transfer.send (fun k => (turns k).attempt) t k = .inl b) ∧
    (∀ (t : Transfer UInt8) (turns : ℕ → IoTurn (List UInt8)), (∃ k, (turns k).expired = true) ∨
      Progress (· ≠ []) (fun k => (turns k).attempt) →
      ∃ k b, Transfer.loop Transfer.recv (fun k => (turns k).attempt) t k = .inl b) ∧
    ∀ (t : Transfer UInt8) (results : ℕ → Returned ℕ), (∃ k, results k = .eagain) ∨
      Progress (0 < ·) (fun k => (results k).attempt) →
      ∃ k b, Transfer.loop Transfer.send (fun k => (results k).attempt) t k = .inl b := by
  refine ⟨fun evs conns hrun c hc => ?_, fun t turns h => ?_, fun t turns h => ?_,
    fun t results h => ?_⟩
  · have hinv : ∀ c ∈ conns, c.Inv S hasControl :=
      (exec_path hrun).invariant (I := fun conns => ∀ c ∈ conns, Connection.Inv S hasControl c)
        (fun _ _ _ => step_inv) (fun c hc => absurd hc List.not_mem_nil)
    exact (hinv c hc).framed
  · refine Transfer.loop_ends Transfer.send_length_le (fun _ _ => Transfer.send_length_lt) ?_ t
    exact h.imp_left fun ⟨k, hk⟩ => ⟨k, attempt_expired hk⟩
  · refine Transfer.loop_ends Transfer.recv_length_le (fun _ _ => Transfer.recv_length_lt) ?_ t
    exact h.imp_left fun ⟨k, hk⟩ => ⟨k, attempt_expired hk⟩
  · refine Transfer.loop_ends Transfer.send_length_le (fun _ _ => Transfer.send_length_lt) ?_ t
    exact h.imp_left fun ⟨k, hk⟩ => ⟨k, by rw [hk]; rfl⟩

/-! ### Two clients -/

/-- The reply that a client has read in full. -/
def Client.taken : Client → Option NSData
  | .returned taken _ => taken
  | _ => none

def moves (c : ℕ) : IoTurn ℕ := { returned := .moved c }

/-- A reply in pieces, a worker that is killed, and a client that is stopped. -/
def clients : List Label :=
  [.connect true, .opened 0 .connected, .connect true, .opened 1 .connected,
    .turn 0 (moves 1) false, .turn 1 (moves 1) false, .turn 0 (moves 1) false, .turn 1 (moves 1) false,
    .worker 0 (.checked true), .worker 0 (.asked true), .worker 0 (.generated [7, 8, 9]),
    .worker 0 (.sent (.moved 1)), .turn 0 (moves 1) false, .worker 0 (.sent .eintr),
    .worker 0 (.sent (.moved 3)), .turn 0 { returned := .eagain } false, .worker 0 (.sent (.moved 1)),
    .turn 0 (moves 3) false, .turn 0 (moves 3) false, .worker 0 (.sent (.moved 2)),
    .turn 0 (moves 2) false, .worker 1 .killed, .worker 0 (.sent (.moved 1)), .turn 0 (moves 1) false,
    .turn 0 (moves 1) false, .worker 0 (.sent .zero), .turn 1 { stopped := true, returned := .zero } true]

theorem ipc_framing_clients :
    (∃ conns, exec (step sampleServices fun _ => false) [] clients = some conns ∧
      conns.map (fun c => c.client.taken) = [some [7, 8, 9], none] ∧
      ∀ c ∈ conns, c.Framed sampleServices fun _ => false) ∧
    (∃ k b, Transfer.loop Transfer.send (fun _ => (moves 1).attempt) (.new [(1 : UInt8), 2]) k =
      .inl b) ∧
    (∃ k b, Transfer.loop Transfer.recv (fun _ => Transfer.Attempt.moved [(5 : UInt8)])
      (.new [(0 : UInt8), 0]) k = .inl b) ∧
    ∃ k b, Transfer.loop Transfer.send (fun k => (if k = 3 then Returned.eagain else .eintr).attempt)
      (.new [(1 : UInt8), 2]) k = .inl b := by
  obtain ⟨hrun, hsend, hrecv, hworker⟩ := ipc_framing sampleServices fun _ => false
  have htaken : (exec (step sampleServices fun _ => false) [] clients).map (fun conns =>
      conns.map fun c => c.client.taken) = some [some [7, 8, 9], none] := by decide +kernel
  obtain ⟨conns, hconns, hmap⟩ := Option.map_eq_some_iff.mp htaken
  refine ⟨⟨conns, hconns, hmap, hrun clients conns hconns⟩, ?_, ?_, ?_⟩
  · exact hsend (.new [1, 2]) (fun _ => moves 1) (.inr fun k => ⟨k, le_refl k, 1, rfl, by decide⟩)
  · refine hrecv (.new [0, 0]) (fun _ => { returned := .moved [5] }) (.inr fun k => ?_)
    exact ⟨k, le_refl k, [5], rfl, by decide⟩
  · exact hworker (.new [1, 2]) (fun k => if k = 3 then .eagain else .eintr) (.inl ⟨3, rfl⟩)

end Ipc

end AquaTransport
