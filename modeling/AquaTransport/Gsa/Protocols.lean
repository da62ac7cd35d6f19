import AquaTransport.Gsa.Bridge
import AquaTransport.Gsa.Dav
import AquaTransport.Lib.Monitor

/-!
# AquaTransport.Gsa.Protocols — what `AQGSAProtocol` and `AQDAVProtocol` tell their clients

A load goes from the thread of `startLoading` to a queue and back, and an inner connection may report
to it; `stopLoading` may come from any thread, and from inside a callback.  The threads run the methods
under the lock of `@synchronized(self)`.  A run loop delivers to a thread that runs nothing else.
-/

namespace AquaTransport

namespace Protocols

open Dav (DavRequest transportRequest redirectedRequest)

/-! ### The load and what is seen of it -/

/-- An `NSURLResponse`; HTTP has a status and headers. -/
structure NSURLResponse where
  url : NSURL
  http : Option (ℤ × Headers)

/-- The messages to the client. -/
inductive Callback
  | didReceiveResponse (r : NSURLResponse)
  | didLoadData (d : Body)
  | didFinishLoading
  | didFailWithError (e : NSError)
  | wasRedirected (next : DavRequest) (response : NSURLResponse)
  | didReceiveChallenge (challenge : ℕ)
  | didCancelChallenge (challenge : ℕ)

def Callback.terminal : Callback → Bool
  | .didFinishLoading | .didFailWithError _ | .wasRedirected _ _ => true
  | _ => false

inductive Event
  | callback (c : Callback)
  /-- A connection is made for a request. -/
  | created (o : ℕ) (sent : DavRequest)
  | cancelled (o : ℕ)
  | released (o : ℕ)
  /-- A call of `stopLoading` returns. -/
  | stopReturned

/-- Where the one load of a protocol is; `working`, `posted` and `delivering` are the operation, the
selector to perform with its result, and what it performs. -/
inductive Stage (τ α : Type)
  | fresh
  | starting (t : τ)
  | queued
  | working (t : τ)
  | posted (result : Except NSError α)
  | delivering (t : τ)

/-- The variables of a protocol, and what has been seen, newest first.  `AQGSAProtocol` has no
connection. -/
structure Loader (τ α : Type) where
  stage : Stage τ α := .fresh
  clientThread : Option τ := none
  stopped : Bool := false
  connection : Option ℕ := none
  /-- The next connection to be made. -/
  made : ℕ := 0
  trace : List Event := []

section Model

variable {τ α : Type}

namespace Loader

def note (e : Event) (s : Loader τ α) : Loader τ α := { s with trace := e :: s.trace }

def tell (c : Callback) : Loader τ α → Loader τ α := note (.callback c)

def stop (s : Loader τ α) : Loader τ α := { s with stopped := true }

/-- `[connection cancel]`. -/
def cancel (s : Loader τ α) : Loader τ α :=
  match s.connection with
  | some o => s.note (.cancelled o)
  | none => s

/-- `[connection release]`. -/
def release (s : Loader τ α) : Loader τ α :=
  match s.connection with
  | some o => s.note (.released o)
  | none => s

def clear (s : Loader τ α) : Loader τ α := { s with connection := none }

def create (sent : DavRequest) (s : Loader τ α) : Loader τ α :=
  { s with
    connection := some s.made
    made := s.made + 1
    trace := .created s.made sent :: s.trace }

def move (stage : Stage τ α) (s : Loader τ α) : Loader τ α := { s with stage := stage }

/-- `dealloc`, of the connection. -/
def dealloc (s : Loader τ α) : Loader τ α := s.cancel.release

end Loader

open Method Loader

/-- `[self isStopped]`, and what is done then. -/
def isStopped (yes no : Method (Loader τ α)) : Method (Loader τ α) :=
  enter (test Loader.stopped (leave yes) (leave no))

def startLoading (t : τ) : Method (Loader τ α) :=
  act (fun s => { s with clientThread := some t }) (act (move .queued) ret)

/-- `work` and `prepare`, once they have their result. -/
def work (result : Except NSError α) : Method (Loader τ α) :=
  isStopped ret (isStopped ret (act (move (.posted result)) ret))

/-- A callback unless it is `stopped`. -/
def unlessStopped (c : Callback) (k : Method (Loader τ α)) : Method (Loader τ α) :=
  test Loader.stopped k (call (tell c) k)

/-! ### `AQGSAProtocol` -/

namespace AQGSAProtocol

def stopLoading : Method (Loader τ α) := enter (act stop (leave (act (note .stopReturned) ret)))

/-- Mavericks recognizes profile status 5000 as an authentication failure. -/
def idsFailure : Body := .encoded (.dict [(str "status", .number 5000)])

def deliver (url : NSURL) (result : Except NSError Result) : Method (Loader τ α) :=
  let done := act stop (leave ret)
  enter <| test Loader.stopped (leave ret) <|
    match result with
    | .error e =>
      if e.domain = AQErrorDomain ∧ e.code = 401 then
        let finish := unlessStopped .didFinishLoading done
        if aqIdsUrl url then
          call (tell (.didReceiveResponse ⟨url, some (200, [])⟩)) <|
            unlessStopped (.didLoadData idsFailure) finish
        else call (tell (.didReceiveResponse ⟨url, some (401, [])⟩)) finish
      else call (tell (.didFailWithError e)) done
    | .ok r =>
      call (tell (.didReceiveResponse
          ⟨url, some (r.statusCode, [(str "Content-Type", str "text/x-xml-plist")])⟩)) <|
        unlessStopped (.didLoadData r.data) <| unlessStopped .didFinishLoading done

end AQGSAProtocol

/-! ### `AQDAVProtocol` -/

namespace AQDAVProtocol

def stopLoading : Method (Loader τ α) :=
  enter <| act stop <| act cancel <| act release <| act clear <|
    leave (act (note .stopReturned) ret)

/-- A callback that ends the load. -/
def conclude (c : Callback) : Method (Loader τ α) :=
  call (tell c) (stopLoading.andThen (leave ret))

/-- `connects` is whether there is a connection. -/
def begin (F : NSString → NSURL) (asked : DavRequest) (connects : Bool)
    (result : Except NSError Headers) : Method (Loader τ α) :=
  enter <| test Loader.stopped (leave ret) <|
    match result with
    | .error e => conclude (.didFailWithError e)
    | .ok headers =>
      match transportRequest F asked headers with
      | none => leave ret
      | some sent =>
        if connects then act (create sent) (leave ret)
        else conclude (.didFailWithError (aqError 43 "Could not start iCloud service request."))

/-- What the inner connection reports. -/
inductive Message
  | willSendRequest (r : DavRequest) (response : Option NSURLResponse)
  | didReceiveAuthenticationChallenge (challenge : ℕ)
  | didCancelAuthenticationChallenge (challenge : ℕ)
  | didReceiveResponse (response : NSURLResponse)
  | didReceiveData (data : NSData)
  | willCacheResponse
  | didFailWithError (e : NSError)
  | didFinishLoading

def message (F : NSString → NSURL) (asked : DavRequest) : Message → Method (Loader τ α)
  | .willSendRequest _ none => ret
  | .willSendRequest r (some response) =>
    enter <| test Loader.stopped (leave ret) <|
      match redirectedRequest F asked r with
      | none => leave ret
      | some next => conclude (.wasRedirected next response)
  | .didReceiveAuthenticationChallenge c => enter (unlessStopped (.didReceiveChallenge c) (leave ret))
  | .didCancelAuthenticationChallenge c => enter (unlessStopped (.didCancelChallenge c) (leave ret))
  | .didReceiveResponse response =>
    enter (unlessStopped (.didReceiveResponse response) (leave ret))
  | .didReceiveData data => enter (unlessStopped (.didLoadData (.raw data)) (leave ret))
  | .willCacheResponse => ret
  | .didFailWithError e => enter (test Loader.stopped (leave ret) (conclude (.didFailWithError e)))
  | .didFinishLoading => enter (test Loader.stopped (leave ret) (conclude .didFinishLoading))

end AQDAVProtocol

/-! ### What can be started -/

/-- The messages `μ` that the inner connection sends; `κ` is what a delivery depends on. -/
structure Protocol (τ α κ μ : Type) where
  /-- The error of a result without one. -/
  otherwise : NSError
  stopLoading : Method (Loader τ α)
  deliver : κ → Except NSError α → Method (Loader τ α)
  message : μ → Method (Loader τ α)

inductive Call (α κ μ : Type)
  | startLoading
  | work (outcome : Except (Option NSError) α)
  | deliver (x : κ)
  | stopLoading
  | message (m : μ)

variable [DecidableEq τ] {κ μ : Type}

/-- `startLoading` is called once; the operation runs once, and its result is delivered once. -/
def Protocol.interface (P : Protocol τ α κ μ) : Interface (Loader τ α) τ (Call α κ μ) where
  start c t s :=
    match c with
    | .startLoading =>
      match s.stage with
      | .fresh => some (s.move (.starting t), startLoading t)
      | _ => none
    | .work outcome =>
      match s.stage with
      | .queued => some (s.move (.working t), work (outcome.mapError fun e => e.getD P.otherwise))
      | _ => none
    | .deliver x =>
      match s.stage with
      | .posted result =>
        if s.clientThread = some t then some (s.move (.delivering t), P.deliver x result) else none
      | _ => none
    | .stopLoading => some (s, P.stopLoading)
    | .message m => if s.made = 0 then none else some (s, P.message m)
  nested
    | .stopLoading => true
    | _ => false

/-- `AQGSAProtocol`, of a request for `url`. -/
def gsaProtocol (url : NSURL) : Protocol τ Result Unit Empty where
  otherwise := aqError 41 "Authentication failed."
  stopLoading := AQGSAProtocol.stopLoading
  deliver _ := AQGSAProtocol.deliver url
  message := nofun

/-- `AQDAVProtocol`, of the request `asked`. -/
def davProtocol (F : NSString → NSURL) (asked : DavRequest) :
    Protocol τ Headers Bool AQDAVProtocol.Message where
  otherwise := aqError 42 "Could not obtain iCloud device authentication."
  stopLoading := AQDAVProtocol.stopLoading
  deliver := AQDAVProtocol.begin F asked
  message := AQDAVProtocol.message F asked

end Model

/-! ### The discipline -/

def Event.cancels (o : ℕ) : Event → Bool
  | .cancelled p => p == o
  | _ => false

def Event.releases (o : ℕ) : Event → Bool
  | .released p => p == o
  | _ => false

/-- What may be seen after the past. -/
def Allowed (past : List Event) : Event → Prop
  | .callback _ => .stopReturned ∉ past ∧ ∀ c, .callback c ∈ past → c.terminal = false
  | .created _ _ => .stopReturned ∉ past
  | _ => True

/-- The connection has been cancelled `i` times and released `j` times. -/
def Tally (trace : List Event) (o i j : ℕ) : Prop :=
  trace.countP (Event.cancels o) = i ∧ trace.countP (Event.releases o) = j

section Discipline

variable {τ α : Type}

namespace Loader

/-- It always holds of a load; only one that `creates` has connections. -/
structure Good (creates : Bool) (s : Loader τ α) : Prop where
  along : Along Allowed s.trace
  returned : .stopReturned ∈ s.trace → s.stopped = true ∧ s.connection = none
  existing : ∀ o sent, .created o sent ∈ s.trace → o < s.made
  future : ∀ o, s.made ≤ o → Tally s.trace o 0 0
  present : ∀ o, s.connection = some o →
    o < s.made ∧ s.trace.countP (Event.cancels o) ≤ 1 ∧ s.trace.countP (Event.releases o) ≤ 1
  past : ∀ o, o < s.made → s.connection ≠ some o → Tally s.trace o 1 1
  stage : s.made ≠ 0 → creates = true ∧ ∃ t, s.stage = .delivering t

/-- The connection there is has been cancelled `i` times and released `j` times. -/
def Counted (i j : ℕ) (s : Loader τ α) : Prop := ∀ o, s.connection = some o → Tally s.trace o i j

/-- The connection has neither been cancelled nor released. -/
def Kept : Loader τ α → Prop := Counted 0 0

def Closed (s : Loader τ α) : Prop := s.stopped = true ∧ s.connection = none

/-- It holds when no method has the lock. -/
structure Idle (s : Loader τ α) : Prop where
  kept : s.Kept
  closed : s.stopped = true → s.connection = none
  ended : ∀ c, .callback c ∈ s.trace → c.terminal = true → s.stopped = true

/-- The stage is for the thread alone to leave. -/
def Holds (t : τ) (s : Loader τ α) : Prop :=
  s.stage = .starting t ∨ s.stage = .working t ∨ s.stage = .delivering t

structure Le (t : τ) (s s' : Loader τ α) : Prop where
  closed : s.Closed → s'.Closed
  stage : s.Holds t → s'.stage = s.stage ∧ s'.made = s.made

/-- Without the lock the load goes on, and calls of `stopLoading` return. -/
structure Rely (t : τ) (s s' : Loader τ α) : Prop where
  stopped : s'.stopped = s.stopped
  connection : s'.connection = s.connection
  made : s'.made = s.made
  trace : ∃ n, s'.trace = List.replicate n .stopReturned ++ s.trace
  stage : s.Holds t → s'.stage = s.stage

variable {creates : Bool} {t : τ} {s s' s'' : Loader τ α} {o i j : ℕ}

theorem Rely.tally (h : Rely t s s') : Tally s'.trace o i j ↔ Tally s.trace o i j := by
  obtain ⟨n, hn⟩ := h.trace
  rw [Tally, Tally, hn, List.countP_append, List.countP_append, List.countP_replicate,
    List.countP_replicate]
  simp [Event.cancels, Event.releases]

theorem Rely.mem_callback (h : Rely t s s') {c : Callback} (hc : .callback c ∈ s'.trace) :
    .callback c ∈ s.trace := by
  obtain ⟨n, hn⟩ := h.trace
  rw [hn, List.mem_append] at hc
  exact hc.resolve_left fun hc => nomatch (List.mem_replicate.mp hc).2

theorem Rely.refl (t : τ) (s : Loader τ α) : Rely t s s := ⟨rfl, rfl, rfl, ⟨0, rfl⟩, fun _ => rfl⟩

theorem Holds.of_stage (h : s.Holds t) (hs : s'.stage = s.stage) : s'.Holds t := by
  unfold Holds at h ⊢
  rwa [hs]

theorem Rely.trans (h : Rely t s s') (h' : Rely t s' s'') : Rely t s s'' := by
  obtain ⟨n, hn⟩ := h.trace
  obtain ⟨i, hi⟩ := h'.trace
  refine ⟨h'.stopped.trans h.stopped, h'.connection.trans h.connection, h'.made.trans h.made, ?_, ?_⟩
  · refine ⟨i + n, ?_⟩
    rw [hi, hn, ← List.append_assoc, List.replicate_append_replicate]
  · exact fun hs => (h'.stage (hs.of_stage (h.stage hs))).trans (h.stage hs)

theorem Rely.counted (h : Rely t s s') (hk : s.Counted i j) : s'.Counted i j :=
  fun o ho => h.tally.mpr (hk o (h.connection ▸ ho))

theorem Rely.idle (h : Rely t s s') (hi : s.Idle) : s'.Idle where
  kept := h.counted hi.kept
  closed hs := h.connection.trans (hi.closed (h.stopped ▸ hs))
  ended c hc hterm := h.stopped.trans (hi.ended c (h.mem_callback hc) hterm)

theorem Rely.le (h : Rely t s s') : Le t s s' where
  closed hc := ⟨h.stopped.trans hc.1, h.connection.trans hc.2⟩
  stage hs := ⟨h.stage hs, h.made⟩

variable (τ α) in
/-- The discipline of the protocols. -/
def discipline (creates : Bool) : Discipline (Loader τ α) τ where
  glob := Good creates
  inv := Idle
  out := Kept
  le := Le
  rely := Rely
  again _ s s' := s.Idle → s'.Idle
  le_refl _ _ := ⟨id, fun _ => ⟨rfl, rfl⟩⟩
  le_trans h h' :=
    ⟨fun hc => h'.closed (h.closed hc), fun hs =>
      ⟨(h'.stage (hs.of_stage (h.stage hs).1)).1.trans (h.stage hs).1,
        (h'.stage (hs.of_stage (h.stage hs).1)).2.trans (h.stage hs).2⟩⟩
  rely_refl := Rely.refl
  rely_trans := Rely.trans
  rely_le := Rely.le
  rely_out := Rely.counted
  rely_again := Rely.idle
  again_trans h h' hs := h' (h hs)

/-! ### What the instructions keep -/

theorem Good.made_zero (h : s.Good creates) (hs : ∀ t, s.stage ≠ .delivering t) : s.made = 0 := by
  by_contra hm
  obtain ⟨-, t, ht⟩ := h.stage hm
  exact hs t ht

/-- An event that is about the connection, if about any. -/
theorem Good.note {e : Event} (h : s.Good creates) (ha : Allowed s.trace e)
    (hret : e = .stopReturned → s.Closed) (hnew : ∀ o sent, e ≠ .created o sent)
    (hother : ∀ o, s.connection ≠ some o → e.cancels o = false ∧ e.releases o = false)
    (hown : ∀ o, s.connection = some o → (e :: s.trace).countP (Event.cancels o) ≤ 1 ∧
      (e :: s.trace).countP (Event.releases o) ≤ 1) : (s.note e).Good creates := by
  have htally : ∀ o i j, s.connection ≠ some o → Tally s.trace o i j → Tally (e :: s.trace) o i j := by
    rintro o i j ho ⟨hi, hj⟩
    obtain ⟨hc, hr⟩ := hother o ho
    exact ⟨(List.countP_cons_of_neg (by simp [hc])).trans hi,
      (List.countP_cons_of_neg (by simp [hr])).trans hj⟩
  refine ⟨⟨ha, h.along⟩, fun hr => ?_, fun o sent ho => ?_, fun o ho => ?_, fun o ho => ?_,
    fun o ho hc => htally o 1 1 hc (h.past o ho hc), h.stage⟩
  · rcases List.mem_cons.mp hr with hr | hr
    · exact hret hr.symm
    · exact h.returned hr
  · rcases List.mem_cons.mp ho with ho | ho
    · exact absurd ho.symm (hnew o sent)
    · exact h.existing o sent ho
  · refine htally o 0 0 (fun hc => ?_) (h.future o ho)
    have hlt := (h.present o hc).1
    have hge : s.made ≤ o := ho
    omega
  · exact ⟨(h.present o ho).1, hown o ho⟩

/-- No callback that ends the load has been made, and no `stopLoading` has returned. -/
def Live (s : Loader τ α) : Prop := s.Idle ∧ s.stopped = false

theorem Live.allowed (h : s.Live) (hg : s.Good creates) (c : Callback) :
    Allowed s.trace (.callback c) := by
  refine ⟨fun hr => ?_, fun c' hc => ?_⟩
  · exact absurd ((hg.returned hr).1.symm.trans h.2) (by decide)
  · by_contra hterm
    exact absurd ((h.1.ended c' hc (by simpa using hterm)).symm.trans h.2) (by decide)

theorem Good.tell (hg : s.Good creates) (h : s.Live) (c : Callback) : (s.tell c).Good creates :=
  hg.note (h.allowed hg c) (by simp) (by simp) (fun _ _ => ⟨rfl, rfl⟩) fun o ho => (hg.present o ho).2

theorem Good.stopReturned (hg : s.Good creates) (h : s.Closed) :
    (s.note .stopReturned).Good creates :=
  hg.note trivial (fun _ => h) (by simp) (fun _ _ => ⟨rfl, rfl⟩) fun o ho => (hg.present o ho).2

@[simp] theorem stopped_cancel : s.cancel.stopped = s.stopped := by
  unfold Loader.cancel
  split <;> rfl

@[simp] theorem stopped_release : s.release.stopped = s.stopped := by
  unfold Loader.release
  split <;> rfl

@[simp] theorem made_cancel : s.cancel.made = s.made := by
  unfold Loader.cancel
  split <;> rfl

@[simp] theorem made_release : s.release.made = s.made := by
  unfold Loader.release
  split <;> rfl

theorem Good.cancel (hg : s.Good creates) (h : s.Kept) :
    s.cancel.Good creates ∧ s.cancel.Counted 1 0 := by
  unfold Loader.cancel
  cases hc : s.connection with
  | none =>
    refine ⟨hg, fun o ho => ?_⟩
    rw [hc] at ho
    cases ho
  | some o =>
    obtain ⟨hi, hj⟩ := h o hc
    have hcount : (Event.cancelled o :: s.trace).countP (Event.cancels o) = 1 := by
      rw [List.countP_cons_of_pos (by simp [Event.cancels]), hi]
    refine ⟨hg.note trivial (by simp) (by simp) (fun p hp => ⟨?_, rfl⟩) fun p hp => ?_, fun p hp => ?_⟩
    · have hne : o ≠ p := fun he => hp (he ▸ hc)
      simp [Event.cancels, hne]
    · obtain rfl := Option.some.inj (hc.symm.trans hp)
      exact ⟨hcount.le, (hg.present o hc).2.2⟩
    · obtain rfl := Option.some.inj (hc.symm.trans hp)
      exact ⟨hcount, hj⟩

theorem Good.release (hg : s.Good creates) (h : s.Counted 1 0) :
    s.release.Good creates ∧ s.release.Counted 1 1 := by
  unfold Loader.release
  cases hc : s.connection with
  | none =>
    refine ⟨hg, fun o ho => ?_⟩
    rw [hc] at ho
    cases ho
  | some o =>
    obtain ⟨hi, hj⟩ := h o hc
    have hcount : (Event.released o :: s.trace).countP (Event.releases o) = 1 := by
      rw [List.countP_cons_of_pos (by simp [Event.releases]), hj]
    refine ⟨hg.note trivial (by simp) (by simp) (fun p hp => ⟨rfl, ?_⟩) fun p hp => ?_, fun p hp => ?_⟩
    · have hne : o ≠ p := fun he => hp (he ▸ hc)
      simp [Event.releases, hne]
    · obtain rfl := Option.some.inj (hc.symm.trans hp)
      exact ⟨(hg.present o hc).2.1, hcount.le⟩
    · obtain rfl := Option.some.inj (hc.symm.trans hp)
      exact ⟨hi, hcount⟩

theorem Good.clear (hg : s.Good creates) (h : s.Counted 1 1) : s.clear.Good creates where
  along := hg.along
  returned hr := ⟨(hg.returned hr).1, rfl⟩
  existing := hg.existing
  future := hg.future
  present o ho := by cases ho
  past o ho _ := by
    by_cases hc : s.connection = some o
    · exact h o hc
    · exact hg.past o ho hc
  stage := hg.stage

theorem Good.stop (hg : s.Good creates) : s.stop.Good creates :=
  ⟨hg.along, fun hr => ⟨rfl, (hg.returned hr).2⟩, hg.existing, hg.future, hg.present, hg.past,
    hg.stage⟩

theorem Good.move {stage : Stage τ α} (hg : s.Good creates) (hm : s.made = 0) :
    (s.move stage).Good creates :=
  ⟨hg.along, hg.returned, hg.existing, hg.future, hg.present, hg.past, fun h => absurd hm h⟩

theorem Good.create {sent : DavRequest} (hg : s.Good true) (h : s.Live) (hm : s.made = 0)
    (hst : s.stage = .delivering t) : (s.create sent).Good true ∧ (s.create sent).Idle := by
  have hret : .stopReturned ∉ s.trace := fun hr =>
    absurd ((hg.returned hr).1.symm.trans h.2) (by decide)
  have htally : ∀ o, Tally (s.create sent).trace o 0 0 := fun o =>
    hg.future o (by omega)
  refine ⟨⟨⟨hret, hg.along⟩, fun hr => ?_, fun o sent' ho => ?_, fun o _ => htally o,
    fun o ho => ?_, fun o ho hc => ?_, fun _ => ⟨rfl, t, hst⟩⟩, fun o _ => htally o, fun hs => ?_, ?_⟩
  · exact absurd ((List.mem_cons.mp hr).resolve_left (by simp)) hret
  · rcases List.mem_cons.mp ho with ho | ho
    · obtain ⟨rfl, -⟩ := Event.created.inj ho
      exact Nat.lt_succ_self _
    · exact Nat.lt_succ_of_lt (hg.existing o sent' ho)
  · obtain rfl := Option.some.inj ho
    exact ⟨Nat.lt_succ_self _, (htally s.made).1.le.trans (Nat.zero_le 1),
      (htally s.made).2.le.trans (Nat.zero_le 1)⟩
  · refine absurd (congrArg some ?_) hc
    have hlt : o < s.made + 1 := ho
    omega
  · exact absurd (hs.symm.trans h.2) (by decide)
  · intro c hc hterm
    exact h.1.ended c ((List.mem_cons.mp hc).resolve_left (by simp)) hterm

theorem stable_kept : (discipline τ α creates).Stable t Kept := fun _ _ h => h.counted

theorem stable_idle : (discipline τ α creates).Stable t Idle := fun _ _ h => h.idle

theorem stable_live : (discipline τ α creates).Stable t Live :=
  fun _ _ h hs => ⟨h.idle hs.1, h.stopped.trans hs.2⟩

theorem stable_counted (i j : ℕ) :
    (discipline τ α creates).Stable t fun s => s.stopped = true ∧ s.Counted i j :=
  fun _ _ h hs => ⟨h.stopped.trans hs.1, h.counted hs.2⟩

theorem stable_closed : (discipline τ α creates).Stable t fun s => s.Closed ∧ s.Idle :=
  fun _ _ h hs => ⟨h.le.closed hs.1, h.idle hs.2⟩

/-- An event changes nothing that the other threads rely on. -/
theorem le_note (e : Event) : Le t s (s.note e) := ⟨id, fun _ => ⟨rfl, rfl⟩⟩

theorem le_stop : Le t s s.stop := ⟨fun h => ⟨rfl, h.2⟩, fun _ => ⟨rfl, rfl⟩⟩

theorem le_cancel : Le t s s.cancel := by
  unfold Loader.cancel
  split
  · exact le_note _
  · exact (Rely.refl t s).le

theorem le_release : Le t s s.release := by
  unfold Loader.release
  split
  · exact le_note _
  · exact (Rely.refl t s).le

theorem le_clear : Le t s s.clear := ⟨fun h => ⟨h.1, rfl⟩, fun _ => ⟨rfl, rfl⟩⟩

theorem rely_returned : Rely t s (s.note .stopReturned) := ⟨rfl, rfl, rfl, ⟨1, rfl⟩, fun _ => rfl⟩

/-- A closed loader is ready for any thread. -/
theorem Closed.idle (h : s.Closed) : s.Idle where
  kept o ho := absurd (h.2.symm.trans ho) (by simp)
  closed _ := h.2
  ended _ _ _ := h.1

/-! ### The methods -/

open Method Discipline

variable {Q : ℕ → Loader τ α → Prop} {n : ℕ} {k : Method (Loader τ α)} {c : Callback}

/-- The end of `stopLoading`. -/
theorem wp_returning (h : s.Closed)
    (hQ : ∀ s', s'.Good creates → (n ≠ 0 → s'.Closed) → Q n s') :
    (discipline τ α creates).Wp t Q (leave (act (note .stopReturned) ret)) (n + 1) s := by
  refine wp_leave stable_closed ⟨h, h.idle⟩ (fun s _ hs _ => hs.2) fun s _ hs s' hg he => ?_
  have hclosed : s'.Closed := by
    cases n with
    | zero => exact he.closed hs.1
    | succ n => exact he.le.closed hs.1
  have hret : ∀ u, Rely u s' (s'.note .stopReturned) := fun u => rely_returned
  refine ⟨hg.stopReturned hclosed, guar_of_zero n ⟨(hret t).idle, fun u _ => hret u⟩, ?_⟩
  refine fun s'' hg' he' => hQ s'' hg' fun hn => ?_
  obtain ⟨i, rfl⟩ := Nat.exists_eq_succ_of_ne_zero hn
  exact he'.le.closed hclosed

theorem wp_stopLoading_dav (h : s.Kept)
    (hQ : ∀ s', s'.Good creates → (n ≠ 0 → s'.Closed) → Q n s') :
    (discipline τ α creates).Wp t Q (act stop <| act cancel <| act release <| act clear <|
      leave (act (note .stopReturned) ret)) (n + 1) s := by
  refine wp_act stable_kept h (fun s hg _ => ⟨hg.stop, fun u _ => le_stop⟩) fun s _ hs => ?_
  refine wp_act (stable_counted 0 0) ⟨rfl, hs⟩
    (fun s hg hs => ⟨(hg.cancel hs.2).1, fun u _ => le_cancel⟩) fun s hg hs => ?_
  refine wp_act (stable_counted 1 0) ⟨stopped_cancel.trans hs.1, (hg.cancel hs.2).2⟩
    (fun s hg hs => ⟨(hg.release hs.2).1, fun u _ => le_release⟩) fun s hg hs => ?_
  refine wp_act (stable_counted 1 1) ⟨stopped_release.trans hs.1, (hg.release hs.2).2⟩
    (fun s hg hs => ⟨hg.clear hs.2, fun u _ => le_clear⟩) fun s _ hs => ?_
  exact wp_returning ⟨hs.1, rfl⟩ hQ

/-- Without connections there is none to cancel. -/
theorem Good.connection_none (hg : s.Good false) : s.connection = none := by
  cases hc : s.connection with
  | none => rfl
  | some o =>
    have hm : s.made = 0 := by
      by_contra hm
      exact absurd (hg.stage hm).1 (by decide)
    have := (hg.present o hc).1
    omega

theorem wp_stopLoading_gsa (hQ : ∀ s', s'.Good false → (n ≠ 0 → s'.Closed) → Q n s') :
    (discipline τ α false).Wp t Q (act stop <| leave (act (note .stopReturned) ret)) (n + 1) s := by
  refine wp_act (P := fun _ => True) (fun _ _ _ _ => trivial) trivial
    (fun s hg _ => ⟨hg.stop, fun u _ => le_stop⟩) fun s hg _ => ?_
  exact wp_returning ⟨rfl, hg.connection_none⟩ hQ

/-- The lock is left, and the method returns. -/
theorem wp_leave_ret (h : s.Idle) :
    (discipline τ α creates).Wp t (fun n _ => n = 0) (leave ret) 1 s :=
  wp_leave stable_idle h (fun _ _ hs _ => hs) fun _ _ _ _ _ _ => rfl

/-- The check of `stopped` at the start of a method. -/
theorem wp_unless {R : Loader τ α → Prop} (hR : (discipline τ α creates).Stable t R) (h : s.Idle)
    (hr : R s) (hk : ∀ s, s.Good creates → s.Live → R s →
      (discipline τ α creates).Wp t (fun n _ => n = 0) k 1 s) :
    (discipline τ α creates).Wp t (fun n _ => n = 0) (test Loader.stopped (leave ret) k) 1 s := by
  refine wp_test (P := fun s => s.Idle ∧ R s) (fun s s' hs h => ⟨hs.idle h.1, hR s s' hs h.2⟩) ⟨h, hr⟩
    ?_ ?_
  · exact fun s _ hs _ => wp_leave_ret hs.1
  · exact fun s hg hs hstop => hk s hg ⟨hs.1, hstop⟩ hs.2

/-- A callback to a client that has not stopped the load. -/
theorem wp_tell (h : s.Live)
    (hk : ∀ s', s'.Good creates → s'.Kept → (c.terminal = false → s'.Idle) →
      (discipline τ α creates).Wp t Q k (n + 1) s') :
    (discipline τ α creates).Wp t Q (call (tell c) k) (n + 1) s := by
  have htally : ∀ s : Loader τ α, s.Live → (s.tell c).Kept := fun s hs o ho => hs.1.kept o ho
  refine wp_call stable_live h (fun s hg hs => ⟨⟨hg.tell hs c, htally s hs⟩, fun u _ => le_note _⟩) ?_
  refine fun s s' hg hs hg' hout hagain => hk s' hg' hout fun hterm => hagain ?_
  refine ⟨htally s hs, hs.1.closed, fun c' hc hc' => ?_⟩
  rcases List.mem_cons.mp hc with hc | hc
  · obtain rfl := Event.callback.inj hc
    exact absurd (hterm.symm.trans hc') (by decide)
  · exact hs.1.ended c' hc hc'

theorem wp_unlessStopped (h : s.Idle)
    (hk : ∀ s', s'.Good creates → s'.Kept → (c.terminal = false → s'.Idle) →
      (discipline τ α creates).Wp t Q k (n + 1) s') :
    (discipline τ α creates).Wp t Q (unlessStopped c k) (n + 1) s := by
  refine wp_test stable_idle h (fun s hg hs _ => hk s hg hs.kept fun _ => hs) ?_
  exact fun s _ hs hstop => wp_tell ⟨hs, hstop⟩ hk

/-! ### The way to the queue and back -/

theorem Holds.sole {u : τ} (h : s.Holds t) (h' : s.Holds u) : u = t := by
  rcases h with h | h | h <;> rcases h' with h' | h' | h' <;> simp_all

theorem rely_move {stage : Stage τ α} (h : ¬ s.Holds t) : Rely t s (s.move stage) :=
  ⟨rfl, rfl, rfl, ⟨0, rfl⟩, fun hs => absurd hs h⟩

/-- A load that the thread has to move on is moved. -/
theorem guar_move {stage : Stage τ α} (h : ∀ u, u ≠ t → ¬ s.Holds u) :
    (discipline τ α creates).guar t 0 s (s.move stage) :=
  ⟨fun hi => ⟨hi.kept, hi.closed, hi.ended⟩, fun u hu => rely_move (h u hu)⟩

theorem wp_move {stage : Stage τ α} (h : s.Holds t) (hst : ∀ u, s.stage ≠ .delivering u) :
    (discipline τ α creates).Wp t (fun n _ => n = 0) (act (move stage) ret) 0 s := by
  intro s' hg he
  obtain ⟨hstage, -⟩ := he.stage h
  have hholds := h.of_stage hstage
  refine ⟨hg.move (hg.made_zero fun u => hstage ▸ hst u), guar_move fun u hu hu' => ?_,
    fun _ _ _ => rfl⟩
  exact hu (hholds.sole hu')

theorem wp_startLoading (h : s.stage = .starting t) :
    (discipline τ α creates).Wp t (fun n _ => n = 0) (startLoading t) 0 s := by
  intro s' hg he
  obtain ⟨hstage, -⟩ := he.stage (.inl h)
  have hst := hstage.trans h
  refine ⟨⟨hg.along, hg.returned, hg.existing, hg.future, hg.present, hg.past, hg.stage⟩,
    ⟨fun hi => ⟨hi.kept, hi.closed, hi.ended⟩, fun u _ => ⟨rfl, rfl, rfl, ⟨0, rfl⟩, fun _ => rfl⟩⟩, ?_⟩
  refine wp_move (.inl hst) fun u hu => ?_
  exact absurd (hst.symm.trans hu) (by simp)

theorem wp_isStopped (h : s.stage = .working t)
    (hk : ∀ s, s.stage = .working t → (discipline τ α creates).Wp t (fun n _ => n = 0) k 0 s) :
    (discipline τ α creates).Wp t (fun n _ => n = 0) (isStopped ret k) 0 s := by
  intro s' hg he hi
  have hst := (he.stage (.inr (.inl h))).1.trans h
  have hstable : (discipline τ α creates).Stable t fun s => s.Idle ∧ s.stage = .working t :=
    fun s s' hs h => ⟨hs.idle h.1, (hs.stage (.inr (.inl h.2))).trans h.2⟩
  refine wp_test hstable ⟨hi, hst⟩ (fun s _ hs _ => wp_leave_ret hs.1) fun s _ hs _ => ?_
  exact wp_leave hstable hs (fun _ _ h _ => h.1) fun s _ hs => hk s hs.2

theorem wp_work (result : Except NSError α) (h : s.stage = .working t) :
    (discipline τ α creates).Wp t (fun n _ => n = 0) (work result) 0 s := by
  refine wp_isStopped h fun s hs => wp_isStopped hs fun s hs => wp_move (.inr (.inl hs)) fun u hu => ?_
  exact absurd (hs.symm.trans hu) (by simp)

end Loader

open Loader Method Discipline

variable {κ μ : Type} {creates : Bool}

/-- What the methods of a protocol have to keep. -/
structure Protocol.Spec (P : Protocol τ α κ μ) (creates : Bool) : Prop where
  stop : ∀ t s, (discipline τ α creates).Wp t (fun n _ => n = 0) P.stopLoading 0 s
  stopAgain : ∀ t s n, s.Kept →
    (discipline τ α creates).Wp t (fun i s' => i = n + 1 ∧ s'.Closed) P.stopLoading (n + 1) s
  deliver : ∀ t s x result, s.stage = .delivering t → s.made = 0 →
    (discipline τ α creates).Wp t (fun n _ => n = 0) (P.deliver x result) 0 s
  message : ∀ t s m, (discipline τ α creates).Wp t (fun n _ => n = 0) (P.message m) 0 s

/-- **The methods keep the discipline.** -/
theorem Protocol.Spec.meets [DecidableEq τ] {P : Protocol τ α κ μ} (h : P.Spec creates) :
    (discipline τ α creates).Meets P.interface := by
  refine ⟨fun c t s s' m hg hstart => ?_, fun c t s s' m n hg hout hn hstart => ?_⟩
  · have hmove : ∀ stage, (∀ u, ¬ s.Holds u) → (∀ u, s.stage ≠ .delivering u) →
        (s.move stage).Good creates ∧ (discipline τ α creates).guar t 0 s (s.move stage) :=
      fun stage hh hd => ⟨hg.move (hg.made_zero hd), guar_move fun u _ => hh u⟩
    have hsame : s.Good creates ∧ (discipline τ α creates).guar t 0 s s := ⟨hg, guar_refl 0 s⟩
    cases c with
    | startLoading =>
      cases hst : s.stage <;> simp only [interface, hst, reduceCtorEq, Option.some.injEq,
        Prod.mk.injEq] at hstart
      obtain ⟨rfl, rfl⟩ := hstart
      obtain ⟨hg', hguar⟩ := hmove (.starting t) (by simp [Holds, hst]) (by simp [hst])
      exact ⟨hg', hguar, wp_startLoading rfl⟩
    | work outcome =>
      cases hst : s.stage <;> simp only [interface, hst, reduceCtorEq, Option.some.injEq,
        Prod.mk.injEq] at hstart
      obtain ⟨rfl, rfl⟩ := hstart
      obtain ⟨hg', hguar⟩ := hmove (.working t) (by simp [Holds, hst]) (by simp [hst])
      exact ⟨hg', hguar, wp_work _ rfl⟩
    | deliver x =>
      cases hst : s.stage with
      | posted result =>
        simp only [interface, hst, Option.ite_none_right_eq_some, Option.some.injEq,
          Prod.mk.injEq] at hstart
        obtain ⟨-, rfl, rfl⟩ := hstart
        obtain ⟨hg', hguar⟩ := hmove (.delivering t) (by simp [Holds, hst]) (by simp [hst])
        exact ⟨hg', hguar, h.deliver t _ x result rfl (hg.made_zero (by simp [hst]))⟩
      | _ => simp [interface, hst] at hstart
    | stopLoading =>
      simp only [interface, Option.some.injEq, Prod.mk.injEq] at hstart
      obtain ⟨rfl, rfl⟩ := hstart
      exact ⟨hsame.1, hsame.2, h.stop t s⟩
    | message m =>
      simp only [interface, Option.ite_none_left_eq_some, Option.some.injEq, Prod.mk.injEq] at hstart
      obtain ⟨-, rfl, rfl⟩ := hstart
      exact ⟨hsame.1, hsame.2, h.message t s m⟩
  · cases c with
    | stopLoading =>
      simp only [interface, Option.some.injEq, Prod.mk.injEq] at hstart
      obtain ⟨rfl, rfl⟩ := hstart
      refine (h.stopAgain t s n hout).mono fun i s' hs => ⟨hs.1, hs.2.idle.kept, fun _ => hs.2.idle⟩
    | _ => exact absurd hn Bool.false_ne_true

/-! ### The two protocols -/

theorem gsaProtocol_spec (url : NSURL) : (gsaProtocol url : Protocol τ _ _ _).Spec false where
  stop t s := fun s' hg he hi => wp_stopLoading_gsa fun _ _ _ => rfl
  stopAgain t s n _ := fun s' hg he => wp_stopLoading_gsa fun _ _ hc => ⟨rfl, hc (by simp)⟩
  deliver t s x result _ _ := by
    intro s' hg he hi
    have hdone : ∀ s : Loader τ Result, s.Good false → (discipline τ Result false).Wp t
        (fun n _ => n = 0) (act Loader.stop (leave ret)) 1 s := by
      intro s hg
      refine wp_act (P := fun _ => True) (fun _ _ _ _ => trivial) trivial
        (fun s hg _ => ⟨hg.stop, fun u _ => le_stop⟩) fun s hg _ => ?_
      exact wp_leave_ret (Closed.idle ⟨rfl, hg.connection_none⟩)
    have hfinish : ∀ s : Loader τ Result, s.Idle → (discipline τ Result false).Wp t
        (fun n _ => n = 0) (unlessStopped .didFinishLoading (act Loader.stop (leave ret))) 1 s :=
      fun s hs => wp_unlessStopped hs fun s hg _ _ => hdone s hg
    refine wp_unless (R := fun _ => True) (fun _ _ _ _ => trivial) hi trivial fun s hg hs _ => ?_
    cases result with
    | error e =>
      dsimp only
      split
      · split
        · refine wp_tell hs fun s hg _ hi => wp_unlessStopped (hi rfl) fun s hg _ hi => ?_
          exact hfinish s (hi rfl)
        · exact wp_tell hs fun s hg _ hi => hfinish s (hi rfl)
      · exact wp_tell hs fun s hg _ _ => hdone s hg
    | ok r =>
      refine wp_tell hs fun s hg _ hi => wp_unlessStopped (hi rfl) fun s hg _ hi => ?_
      exact hfinish s (hi rfl)
  message _ _ m := nomatch m

theorem wp_conclude {t : τ} {s : Loader τ α} (c : Callback) (h : s.Live) :
    (discipline τ α creates).Wp t (fun n _ => n = 0) (AQDAVProtocol.conclude c) 1 s := by
  refine wp_tell h fun s hg hk _ => Wp.andThen ?_ hg
  refine wp_enter stable_kept hk fun s _ hk => wp_stopLoading_dav hk fun s _ hc => ?_
  exact wp_leave_ret (hc (by simp)).idle

theorem davProtocol_spec (F : NSString → NSURL) (asked : DavRequest) :
    (davProtocol F asked : Protocol τ _ _ _).Spec true where
  stop t s := fun s' hg he hi => wp_stopLoading_dav hi.kept fun _ _ _ => rfl
  stopAgain t s n hk := wp_enter stable_kept hk fun s _ hk =>
    wp_stopLoading_dav hk fun _ _ hc => ⟨rfl, hc (by simp)⟩
  deliver t s x result hst hm := by
    intro s' hg he hi
    obtain ⟨hst', hm'⟩ := he.stage (.inr (.inr hst))
    have hstable : (discipline τ Headers true).Stable t
        fun s => s.stage = .delivering t ∧ s.made = 0 :=
      fun s s' hs h => ⟨(hs.stage (.inr (.inr h.1))).trans h.1, hs.made.trans h.2⟩
    refine wp_unless hstable hi ⟨hst'.trans hst, hm'.trans hm⟩ fun s hg hs hr => ?_
    cases result with
    | error e => exact wp_conclude _ hs
    | ok headers =>
      dsimp only
      split
      · exact wp_leave_ret hs.1
      · split
        · refine wp_act (P := fun s => s.Live ∧ s.stage = .delivering t ∧ s.made = 0)
            (fun s s' h hs => ⟨stable_live s s' h hs.1, hstable s s' h hs.2⟩) ⟨hs, hr⟩
            (fun s hg h => ⟨(hg.create h.1 h.2.2 h.2.1).1, fun u hu => ⟨fun hc => ?_, fun hu' => ?_⟩⟩)
            fun s hg h => ?_
          · exact absurd (hc.1.symm.trans h.1.2) (by decide)
          · exact absurd (Holds.sole (.inr (.inr h.2.1)) hu') hu
          · exact wp_leave_ret (hg.create h.1 h.2.2 h.2.1).2
        · exact wp_conclude _ hs
  message t s m := by
    have hforward : ∀ c : Callback, c.terminal = false → (discipline τ Headers true).Wp t
        (fun n _ => n = 0) (enter (unlessStopped c (leave ret))) 0 s := by
      intro c hc s' hg he hi
      exact wp_unlessStopped hi fun s _ _ hs => wp_leave_ret (hs hc)
    have hconclude : ∀ c, (discipline τ Headers true).Wp t (fun n _ => n = 0)
        (enter (test Loader.stopped (leave ret) (AQDAVProtocol.conclude c))) 0 s := by
      intro c s' hg he hi
      exact wp_unless (R := fun _ => True) (fun _ _ _ _ => trivial) hi trivial
        fun s _ hs _ => wp_conclude c hs
    cases m with
    | willSendRequest r response =>
      cases response with
      | none => exact fun _ _ _ => rfl
      | some response =>
        intro s' hg he hi
        refine wp_unless (R := fun _ => True) (fun _ _ _ _ => trivial) hi trivial fun s _ hs _ => ?_
        split
        · exact wp_leave_ret hs.1
        · exact wp_conclude _ hs
    | didReceiveAuthenticationChallenge c => exact hforward _ rfl
    | didCancelAuthenticationChallenge c => exact hforward _ rfl
    | didReceiveResponse response => exact hforward _ rfl
    | didReceiveData data => exact hforward _ rfl
    | willCacheResponse => exact fun _ _ _ => rfl
    | didFailWithError e => exact hconclude _
    | didFinishLoading => exact hconclude _

/-! ### Every interleaving -/

/-- What a client and a connection may expect of a load. -/
structure Disciplined (m : Monitor (Loader τ α) τ) : Prop where
  /-- No callback once `stopLoading` has returned or the load has ended. -/
  callbacks : ∀ later c past, m.shared.trace = later ++ .callback c :: past →
    .stopReturned ∉ past ∧ ∀ c', .callback c' ∈ past → c'.terminal = false
  /-- No connection once `stopLoading` has returned. -/
  connections : ∀ later o sent past, m.shared.trace = later ++ .created o sent :: past →
    .stopReturned ∉ past
  once : ∀ o, m.shared.trace.countP (Event.cancels o) ≤ 1 ∧
    m.shared.trace.countP (Event.releases o) ≤ 1
  /-- However the load ends, its connection has been cancelled and released once. -/
  ended : .stopReturned ∈ m.shared.trace ∨
      (m.lock = none ∧ ∃ c, .callback c ∈ m.shared.trace ∧ c.terminal = true) →
    ∀ o sent, .created o sent ∈ m.shared.trace → Tally m.shared.trace o 1 1
  deallocated : m.lock = none →
    ∀ o sent, .created o sent ∈ m.shared.trace → Tally (dealloc m.shared).trace o 1 1

theorem Loader.Good.init : ({} : Loader τ α).Good creates where
  along := trivial
  returned hr := by cases hr
  existing o sent ho := by cases ho
  future _ _ := ⟨rfl, rfl⟩
  present o ho := by cases ho
  past _ h _ := absurd h (Nat.not_lt_zero _)
  stage h := absurd (Eq.refl 0) h

theorem Loader.Idle.init : ({} : Loader τ α).Idle where
  kept o ho := absurd ho (by simp)
  closed _ := rfl
  ended c hc _ := absurd hc List.not_mem_nil

theorem Loader.Good.once {s : Loader τ α} (hg : s.Good creates) (o : ℕ) :
    s.trace.countP (Event.cancels o) ≤ 1 ∧ s.trace.countP (Event.releases o) ≤ 1 := by
  by_cases hc : s.connection = some o
  · exact (hg.present o hc).2
  · rcases Nat.lt_or_ge o s.made with ho | ho
    · obtain ⟨hi, hj⟩ := hg.past o ho hc
      omega
    · obtain ⟨hi, hj⟩ := hg.future o ho
      omega

/-- When there is no connection any more, all that were made are gone. -/
theorem Loader.Good.gone {s : Loader τ α} (hg : s.Good creates) (hc : s.connection = none) {o : ℕ}
    {sent : DavRequest} (ho : .created o sent ∈ s.trace) : Tally s.trace o 1 1 :=
  hg.past o (hg.existing o sent ho) (by simp [hc])

theorem Loader.Good.dealloc {s : Loader τ α} (hg : s.Good creates) (hk : s.Kept) {o : ℕ}
    {sent : DavRequest} (ho : .created o sent ∈ s.trace) : Tally (Loader.dealloc s).trace o 1 1 := by
  obtain ⟨hg', hk'⟩ := hg.cancel hk
  obtain ⟨hg'', hk''⟩ := hg'.release hk'
  by_cases hc : s.cancel.release.connection = some o
  · exact hk'' o hc
  · refine hg''.past o ?_ hc
    rw [made_release, made_cancel]
    exact hg.existing o sent ho

theorem Protocol.Spec.disciplined [DecidableEq τ] {P : Protocol τ α κ μ} (h : P.Spec creates)
    {evs : List (Monitor.Label τ (Call α κ μ))} {m : Monitor (Loader τ α) τ}
    (hrun : exec (Monitor.step P.interface) { shared := {} } evs = some m) : Disciplined m := by
  have hm := h.meets.run Good.init Idle.init (exec_path hrun)
  have hg : m.shared.Good creates := hm.glob
  have hfree : m.lock = none → m.shared.Idle := hm.free
  refine ⟨fun later c past he => ?_, fun later o sent past he => ?_, hg.once, ?_, ?_⟩
  · exact along_iff.mp hg.along later _ past he
  · exact along_iff.mp hg.along later _ past he
  · rintro (hr | ⟨hl, c, hc, hterm⟩) o sent ho
    · exact hg.gone (hg.returned hr).2 ho
    · exact hg.gone ((hfree hl).closed ((hfree hl).ended c hc hterm)) ho
  · exact fun hl o sent ho => hg.dealloc (hfree hl).kept ho

/-- **The protocols and their clients**, in every interleaving. -/
theorem loads_disciplined [DecidableEq τ] (url : NSURL) (F : NSString → NSURL) (asked : DavRequest) :
    (∀ evs m, exec (Monitor.step (gsaProtocol (τ := τ) url).interface) { shared := {} } evs = some m →
      Disciplined m) ∧
    ∀ evs m, exec (Monitor.step (davProtocol (τ := τ) F asked).interface) { shared := {} } evs = some m →
      Disciplined m :=
  ⟨fun _ _ h => (gsaProtocol_spec url).disciplined h,
    fun _ _ h => (davProtocol_spec F asked).disciplined h⟩

end Discipline

/-! ### Clients that stop in a callback -/

def calendarRequest : DavRequest := Dav.davRequest Dav.calendarUri Dav.authorized

/-- Start a method on a thread, and run that many instructions of it. -/
def starting {γ : Type} (t : ℕ) (c : γ) (n : ℕ) : List (Monitor.Label ℕ γ) :=
  .start t c :: List.replicate n (.run t)

/-- The client stops the load in its first callback. -/
def gsaRun : List (Monitor.Label ℕ (Call Result Unit Empty)) :=
  starting 0 .startLoading 3 ++ starting 1 (.work (.ok ⟨200, .raw [1]⟩)) 8 ++
    starting 0 (.deliver ()) 3 ++ starting 0 .stopLoading 5 ++ .back 0 :: List.replicate 4 (.run 0)

/-- The connection's response is passed on, and the client stops the load in the callback while another
thread waits to stop it; the connection finishes later. -/
def davRun : List (Monitor.Label ℕ (Call Headers Bool AQDAVProtocol.Message)) :=
  starting 0 .startLoading 3 ++ starting 1 (.work (.ok [])) 8 ++ starting 0 (.deliver true) 5 ++
    starting 0 (.message (.didReceiveResponse ⟨calendarRequest.url, none⟩)) 3 ++
    starting 2 .stopLoading 0 ++ starting 0 .stopLoading 8 ++ .back 0 :: List.replicate 2 (.run 0) ++
    List.replicate 8 (.run 2) ++ starting 0 (.message .didFinishLoading) 4

theorem loads_stopped :
    (∃ m, exec (Monitor.step (gsaProtocol calendarRequest.url).interface) { shared := {} } gsaRun =
      some m ∧ m.shared.trace.length = 2 ∧ Disciplined m) ∧
    ∃ m, exec (Monitor.step (davProtocol UrlReader.unescaped.url calendarRequest).interface)
      { shared := {} } davRun = some m ∧ m.shared.trace.length = 6 ∧ Disciplined m := by
  obtain ⟨hgsa, hdav⟩ := loads_disciplined (τ := ℕ) calendarRequest.url UrlReader.unescaped.url
    calendarRequest
  have hrun : (exec (Monitor.step (gsaProtocol calendarRequest.url).interface)
      { shared := {} } gsaRun).map (fun m => m.shared.trace.length) = some 2 := by decide +kernel
  have hrun' : (exec (Monitor.step (davProtocol UrlReader.unescaped.url calendarRequest).interface)
      { shared := {} } davRun).map (fun m => m.shared.trace.length) = some 6 := by decide +kernel
  obtain ⟨m, hm, hl⟩ := Option.map_eq_some_iff.mp hrun
  obtain ⟨m', hm', hl'⟩ := Option.map_eq_some_iff.mp hrun'
  exact ⟨⟨m, hm, hl, hgsa _ m hm⟩, m', hm', hl', hdav _ m' hm'⟩

end Protocols

end AquaTransport
