import AquaTransport.AirDrop.Modes

/-!
# AquaTransport.AirDrop.Finder — Finder and sharingd on the mode

Finder asks for a mode, sharingd tells when it has switched, each by notifications that come in order.
`heading` is where sharingd is going, over the requests that are still under way: what Finder wants.
That Finder knows of it is another matter, for an answer does not say what it is an answer to.
-/

namespace AquaTransport.Adapter

/-- What Finder keeps of the mode; `owner` is the control that asked for it. -/
structure Finder where
  native : Bool := false
  requested : Bool := false
  owner : Option ℕ := none

/-- A notification of Finder's. -/
inductive Message
  | request (native : Bool)
  | heartbeat
  deriving DecidableEq

namespace Finder

variable (f : Finder)

/-- Finder's controls want native mode. -/
def wants : Bool := f.native || f.requested

def searchOlder (c : ℕ) : Finder × List Message :=
  if f.native || f.requested then (f, [])
  else ({ f with requested := true, owner := some c }, [.request true, .heartbeat])

def resetFinderMode (c : ℕ) : Finder × List Message :=
  if f.owner ≠ some c then (f, [])
  else
    let f := { f with owner := none }
    if !f.native && !f.requested then (f, [])
    else ({ f with native := false, requested := false }, [.request false])

/-- The timer of a control. -/
def tick (c : ℕ) : List Message :=
  if f.owner = some c && (f.native || f.requested) then [.heartbeat] else []

def modeChanged (v : Bool) : Finder :=
  if !f.requested && !f.native then f else { f with native := v, requested := false }

end Finder

def Message.call : Message → Call
  | .request native => .modeRequested (some native)
  | .heartbeat => .modeHeartbeat

/-- Finder, sharingd, and the notifications under way in both directions, oldest first. -/
structure Desktop where
  finder : Finder := {}
  sharingd : Threads Shared Section
  requests : List Message := []
  changes : List Bool := []

namespace Desktop

inductive Label
  | searchOlder (c : ℕ)
  | resetFinderMode (c : ℕ)
  | tick (c : ℕ)
  | modeChanged
  /-- sharingd's main thread gets a notification. -/
  | deliver
  | sharingd (l : Threads.Label Choice Call)

/-- Requests and heartbeats come by notification only. -/
def Label.notified : Label → Bool
  | .sharingd (.mainCall (.modeRequested _)) | .sharingd (.call _ (.modeRequested _)) => true
  | .sharingd (.mainCall .modeHeartbeat) | .sharingd (.call _ .modeHeartbeat) => true
  | _ => false

/-- A transition that switches the mode posts the new one. -/
def posted (a b : Shared) : List Bool := if b.nativeMode = a.nativeMode then [] else [b.nativeMode]

def step (d : Desktop) (l : Label) : Option Desktop :=
  match l with
  | .searchOlder c =>
    some { d with finder := (d.finder.searchOlder c).1
                  requests := d.requests ++ (d.finder.searchOlder c).2 }
  | .resetFinderMode c =>
    some { d with finder := (d.finder.resetFinderMode c).1
                  requests := d.requests ++ (d.finder.resetFinderMode c).2 }
  | .tick c => some { d with requests := d.requests ++ d.finder.tick c }
  | .modeChanged =>
    match d.changes with
    | v :: rest => some { d with finder := d.finder.modeChanged v, changes := rest }
    | [] => none
  | .deliver =>
    match d.requests with
    | m :: rest =>
      (code.step d.sharingd (.mainCall m.call)).map fun t => { d with sharingd := t, requests := rest }
    | [] => none
  | .sharingd l =>
    if (Label.sharingd l).notified then none
    else
      (code.step d.sharingd l).map fun t =>
        { d with sharingd := t, changes := d.changes ++ posted d.sharingd.shared t.shared }

/-- While Finder wants native mode, its heartbeats keep sharingd from expiring it. -/
def timely (d : Desktop) : Label → Bool
  | .sharingd (.mainRun x) => d.sharingd.main.head? ≠ some .expire || !d.finder.wants ||
      x.now - d.sharingd.shared.modeHeartbeatAt < 10
  | .sharingd (.run k x) => (d.sharingd.others[k]?.bind List.head?) ≠ some .expire || !d.finder.wants ||
      x.now - d.sharingd.shared.modeHeartbeatAt < 10
  | _ => true

/-- No search is started while sharingd is still in native mode and says nothing of it, and no news of
the modern mode reaches Finder while it wants the native one. -/
def fresh (d : Desktop) : Label → Bool
  | .searchOlder _ => d.finder.wants || !d.sharingd.shared.nativeMode || d.changes ≠ []
  | .modeChanged => d.changes.head? ≠ some false || !d.finder.wants
  | _ => true

/-- Nothing is under way, queued or half handled, and no transfer is active. -/
structure Quiet (d : Desktop) : Prop where
  requests : d.requests = []
  changes : d.changes = []
  handled : ∀ v, .request v ∉ d.sharingd.main
  transitions : transitions d.sharingd = 0
  checked : .check ∉ d.sharingd.all
  transfers : d.sharingd.shared.activeTransfers = 0

end Desktop

/-! ### Where sharingd is going -/

/-- The mode that the section has been asked for. -/
def Section.asks : Section → Option Bool
  | .request v => some v
  | _ => none

def Message.asks : Message → Option Bool
  | .request v => some v
  | .heartbeat => none

/-- The mode that sharingd will have when all has been handled. -/
def Shared.heading (a : Shared) (asked : List Bool) : Bool :=
  asked.getLast?.getD (a.requestedMode.getD a.nativeMode)

section Heading

variable {a b : Shared} {x : Section} {ch : Choice} {new : List Section}

theorem heading_of_modes (h : b.requestedMode = a.requestedMode ∧ b.nativeMode = a.nativeMode)
    (asked : List Bool) : b.heading asked = a.heading asked := by
  rw [Shared.heading, Shared.heading, h.1, h.2]

theorem heading_cons (a : Shared) (v : Bool) (asked : List Bool) :
    a.heading (v :: asked) = asked.getLast?.getD v := by
  unfold Shared.heading
  cases asked with
  | nil => rfl
  | cons w asked =>
    rw [List.getLast?_cons_cons]
    obtain ⟨u, hu⟩ := Option.isSome_iff_exists.mp (List.getLast?_isSome.mpr (List.cons_ne_nil w asked))
    rw [hu]
    rfl

theorem heading_transition (ups : ℕ → Bool) (asked : List Bool) :
    (a.transition ups).1.heading asked = a.heading asked := by
  rcases a.transition_cases ups with ⟨-, he⟩ | ⟨next, hr, -, ⟨hn, he⟩ | ⟨-, he⟩⟩ <;> rw [he]
  · exact heading_of_modes ⟨rfl, rfl⟩ asked
  · show asked.getLast?.getD a.nativeMode = asked.getLast?.getD (a.requestedMode.getD _)
    rw [hr, hn]
    rfl
  · have hm := modes_switch (a := { a with modeTransitionQueued := false, requestedMode := none })
      next ups
    simp only [Shared.modes, Prod.mk.injEq] at hm
    rw [Shared.heading, Shared.heading, hm.1, hm.2.1, hr]
    rfl

/-- Nothing but a notification asks for a mode. -/
theorem sec_asks (hs : sec x ch a = some (b, new)) : ∀ y ∈ new, y.asks = none := by
  cases x with
  | own | activate | associate | leave | dissociate | unlist | flushLater | disown | uncount | dispatch
  | request | beat | flush | resume | originalStart | forget =>
    obtain ⟨-, rfl⟩ := Prod.mk.inj (Option.some.inj hs)
    simp [Section.asks]
  | beginIn => obtain ⟨-, ⟨-, -, rfl⟩ | ⟨-, -, rfl⟩⟩ := beginIn_cases hs <;> simp [Section.asks]
  | endIn => obtain ⟨-, ⟨-, -, rfl⟩ | ⟨l, -, -, rfl⟩⟩ := endIn_cases hs <;> simp [Section.asks]
  | dealloc => obtain ⟨-, ⟨-, -, rfl⟩ | ⟨l, -, -, rfl⟩⟩ := dealloc_cases hs <;> simp [Section.asks]
  | block =>
    obtain ⟨k, rest, -, -, rfl⟩ := block_cases hs
    cases k <;> simp [Block.sec, Section.asks]
  | check => obtain ⟨-, -, rfl⟩ | ⟨-, -, rfl⟩ := check_cases hs <;> simp [Section.asks]
  | expire => obtain ⟨-, rfl⟩ | ⟨-, -, rfl⟩ := expire_cases hs <;> simp [Section.asks]
  | deferStop => obtain ⟨-, -, rfl⟩ | ⟨-, -, rfl⟩ := deferStop_cases hs <;> simp [Section.asks]
  | countIn =>
    obtain ⟨-, rfl⟩ := Prod.mk.inj (Option.some.inj hs)
    split <;> simp [Section.asks]
  | raise op incoming l =>
    obtain ⟨-, rfl⟩ := Prod.mk.inj (Option.some.inj hs)
    split <;> simp [Section.asks]
  | finish l =>
    rcases finish_cases hs with ⟨-, -, rfl⟩ | ⟨-, -, rfl⟩
    · simp
    · intro y hy
      rcases mem_finish hy with ⟨rfl, -⟩ | rfl | rfl <;> rfl
  | transition =>
    obtain rfl : (a.transition ch.ups).2 = new := congrArg Prod.snd (Option.some.inj hs)
    rcases a.transition_cases ch.ups with ⟨-, he⟩ | ⟨next, -, -, ⟨-, he⟩ | ⟨-, he⟩⟩ <;> rw [he] <;>
      simp [Section.asks]
  | startServer s =>
    rcases startServer_cases hs with ⟨-, -, rfl⟩ | ⟨-, -, rfl⟩ | ⟨-, -, rfl⟩ <;> simp [Section.asks]
  | stopServer s =>
    obtain ⟨-, rfl⟩ := Prod.mk.inj (Option.some.inj hs)
    split <;> simp [Section.asks]
  | originalStop s modern =>
    obtain ⟨-, rfl⟩ := Prod.mk.inj (Option.some.inj hs)
    split <;> simp [Section.asks]

/-- **A section goes on to where sharingd was going**, an expiry apart. -/
theorem sec_heading (hs : sec x ch a = some (b, new)) (hx : x ≠ .expire) (asked : List Bool) :
    b.heading asked = a.heading (x.asks.toList ++ asked) := by
  cases hm : x.modal with
  | false =>
    have hmodes := (sec_unmoved hm hs).1
    simp only [Shared.modes, Prod.mk.injEq] at hmodes
    have hasks : x.asks = none := by cases x <;> first | rfl | cases hm
    rw [hasks]
    exact heading_of_modes ⟨hmodes.2.1, hmodes.1⟩ asked
  | true =>
    cases x with
    | beginIn | own | raise | activate | associate | leave | endIn | dissociate | dealloc | finish
    | unlist | disown | beat | flush | startServer | resume | originalStart | stopServer | deferStop
    | forget | originalStop => cases hm
    | countIn | uncount | dispatch | flushLater =>
      obtain ⟨rfl, -⟩ := Prod.mk.inj (Option.some.inj hs)
      rfl
    | check => obtain ⟨-, rfl, -⟩ | ⟨-, rfl, -⟩ := check_cases hs <;> rfl
    | block =>
      obtain ⟨k, rest, -, rfl, -⟩ := block_cases hs
      rfl
    | request v =>
      obtain ⟨rfl, -⟩ := Prod.mk.inj (Option.some.inj hs)
      exact (heading_cons a v asked).symm
    | expire => exact absurd rfl hx
    | transition =>
      obtain rfl : (a.transition ch.ups).1 = b := congrArg Prod.fst (Option.some.inj hs)
      exact heading_transition ch.ups asked

/-- An expiry that is timely goes where sharingd was going. -/
theorem expire_heading {asked : List Bool} {wants : Bool} (hs : sec .expire ch a = some (b, new))
    (ha : a.heading asked = wants) (hw : wants = true → ch.now - a.modeHeartbeatAt < 10) :
    b.heading asked = wants := by
  rcases expire_cases hs with ⟨rfl, -⟩ | ⟨hlate, rfl, -⟩
  · exact ha
  · obtain rfl : wants = false := by
      by_contra hne
      exact absurd (hw (by simpa using hne)) (not_lt.mpr hlate)
    show asked.getLast?.getD false = false
    unfold Shared.heading at ha
    cases hl : asked.getLast? with
    | none => rfl
    | some v =>
      rw [hl] at ha
      exact ha

end Heading

namespace Desktop

/-- The requests that sharingd has still to take, on its main thread and under way. -/
def asked (m : List Section) (requests : List Message) : List Bool :=
  m.filterMap Section.asks ++ requests.filterMap Message.asks

/-- sharingd is going where Finder wants, and where Finder waits an answer is to come. -/
structure Agreeing (d : Desktop) : Prop where
  others : ∀ x ∈ d.sharingd.pending, x.asks = none
  heading : d.sharingd.shared.heading (asked d.sharingd.main d.requests) = d.finder.wants
  answer : d.finder.requested = true → d.sharingd.shared.nativeMode = false ∨ d.changes ≠ []

section Agreeing

variable {d d' : Desktop} {l : Label} {n : ℕ}

theorem asks_call {c : Call} (hc : ∀ value, c ≠ .modeRequested value) :
    ∀ y ∈ c.body, y.asks = none := by
  intro y hy
  have hentry := c.body_entry y hy
  cases y with
  | request v =>
    cases c with
    | modeRequested value => exact absurd rfl (hc value)
    | _ => simp [Call.body] at hy
  | _ => rfl

theorem filterMap_asks {w : List Section} (hw : ∀ y ∈ w, y.asks = none) :
    w.filterMap Section.asks = [] := List.filterMap_eq_nil_iff.mpr hw

theorem not_notified {l : Threads.Label Choice Call} {c : Call} (hl : (Label.sharingd l).notified = false)
    (hc : l = .mainCall c ∨ ∃ k, l = .call k c) : ∀ value, c ≠ .modeRequested value := by
  rintro value rfl
  rcases hc with rfl | ⟨k, rfl⟩ <;> cases hl

/-- The clock of an expiry, where it is timely. -/
theorem meets_of_timely {l : Threads.Label Choice Call} (h : d.timely (.sharingd l) = true) :
    Code.Meets (fun a _ i x => i = .expire → d.finder.wants = true →
      x.now - a.modeHeartbeatAt < 10) d.sharingd l := by
  cases l with
  | mainCall c => trivial
  | call k c => trivial
  | mainRun x =>
    rintro i rest hm rfl hw
    simpa [timely, hm, hw] using h
  | run k x =>
    rintro i rest hk rfl hw
    simpa [timely, hk, hw] using h

theorem Agreeing.sharingd (h : Agreeing d) {l : Threads.Label Choice Call}
    (hs : d.step (.sharingd l) = some d') (ht : d.timely (.sharingd l) = true) : Agreeing d' := by
  simp only [step, Option.ite_none_left_eq_some] at hs
  obtain ⟨hl, hs⟩ := hs
  obtain ⟨t, hstep, rfl⟩ := Option.map_eq_some_iff.mp hs
  have hl : (Label.sharingd l).notified = false := by simpa using hl
  have hI := Code.Step.invariant_of (C := code) ⟨hstep, meets_of_timely ht⟩
    (I := fun a m P => (∀ x ∈ P, x.asks = none) ∧ a.heading (asked m d.requests) = d.finder.wants)
    ?_ ?_ ?_ ?_ ⟨h.others, h.heading⟩
  · refine ⟨hI.1, hI.2, fun hr => ?_⟩
    show t.shared.nativeMode = false ∨ d.changes ++ posted d.sharingd.shared t.shared ≠ []
    by_cases he : t.shared.nativeMode = d.sharingd.shared.nativeMode
    · rw [posted, if_pos he, List.append_nil, he]
      exact h.answer hr
    · exact .inr (by simp [posted, he])
  · rintro a P c rfl ⟨hP, ha⟩
    refine ⟨hP, ?_⟩
    have hbody := asks_call (not_notified hl (.inl rfl))
    rw [asked, show List.filterMap Section.asks (code.body c) = [] from filterMap_asks hbody]
    exact ha
  · rintro a m P k c rfl - ⟨hP, ha⟩
    refine ⟨fun y hy => ?_, ha⟩
    rcases Multiset.mem_add.mp hy with hy | hy
    · exact asks_call (not_notified hl (.inr ⟨k, rfl⟩)) y (Multiset.mem_coe.mp hy)
    · exact hP y hy
  · rintro a x rest P ch b new ⟨hP, ha⟩ hG hsec
    refine ⟨hP, ?_⟩
    have hnew : asked (new ++ rest) d.requests = asked rest d.requests := by
      rw [asked, List.filterMap_append, filterMap_asks (sec_asks hsec)]
      rfl
    rw [hnew]
    rcases eq_or_ne x .expire with rfl | hx
    · exact expire_heading hsec ha (hG rfl)
    · rw [sec_heading hsec hx, ← ha]
      congr 1
      rw [asked, asked, List.filterMap_cons]
      cases x.asks <;> rfl
  · rintro a m x P ch b new ⟨hP, ha⟩ hG hsec
    refine ⟨fun y hy => ?_, ?_⟩
    · rcases Multiset.mem_add.mp hy with hy | hy
      · exact sec_asks hsec y (Multiset.mem_coe.mp hy)
      · exact hP y (Multiset.mem_cons_of_mem hy)
    · rcases eq_or_ne x .expire with rfl | hx
      · exact expire_heading hsec ha (hG rfl)
      · rw [sec_heading hsec hx, hP x (Multiset.mem_cons_self _ _)]
        exact ha

/-- A notification of Finder's is taken off the wire and onto sharingd's main thread. -/
theorem Agreeing.deliver (h : Agreeing d) (hs : d.step .deliver = some d') : Agreeing d' := by
  simp only [step] at hs
  split at hs
  · next m rest hr =>
    obtain ⟨t, hstep, rfl⟩ := Option.map_eq_some_iff.mp hs
    simp only [Code.step, Option.ite_none_right_eq_some, Option.some.injEq, List.isEmpty_iff] at hstep
    obtain ⟨hm, rfl⟩ := hstep
    refine ⟨h.others, ?_, h.answer⟩
    rw [← h.heading]
    show d.sharingd.shared.heading (asked m.call.body rest) = _
    rw [hm, hr]
    cases m <;> rfl
  · cases hs

theorem getLast?_asked {m : List Section} {w : List Message} {v : Bool} {ms : List Message}
    (hms : ms.filterMap Message.asks = [v]) : (asked m (w ++ ms)).getLast? = some v := by
  rw [asked, List.filterMap_append, hms, ← List.append_assoc, List.getLast?_append]
  rfl

theorem asked_append {m : List Section} {w ms : List Message} (hms : ms.filterMap Message.asks = []) :
    asked m (w ++ ms) = asked m w := by
  rw [asked, List.filterMap_append, hms, List.append_nil]
  rfl

/-- **What every step keeps** that is timely and fresh. -/
theorem Agreeing.step (h : Agreeing d) (hs : d.step l = some d') (ht : d.timely l = true)
    (hf : d.fresh l = true) : Agreeing d' := by
  cases l with
  | searchOlder c =>
    obtain rfl := Option.some.inj hs
    by_cases hw : d.finder.wants = true
    · have he : d.finder.searchOlder c = (d.finder, []) := if_pos hw
      rw [he, List.append_nil]
      exact h
    · have he : d.finder.searchOlder c = ({ d.finder with requested := true, owner := some c },
          [.request true, .heartbeat]) := if_neg hw
      rw [he]
      refine ⟨h.others, ?_, fun _ => ?_⟩
      · show (asked d.sharingd.main (d.requests ++ [.request true, .heartbeat])).getLast?.getD _ = _
        rw [getLast?_asked rfl]
        exact (Bool.or_true _).symm
      · simpa [fresh, hw] using hf
  | resetFinderMode c =>
    obtain rfl := Option.some.inj hs
    by_cases ho : d.finder.owner = some c
    · by_cases hw : d.finder.wants = true
      · have he : d.finder.resetFinderMode c = ({ owner := none }, [.request false]) := by
          unfold Finder.resetFinderMode
          rw [if_neg (not_not.mpr ho), if_neg (by simpa [Finder.wants, or_iff_not_imp_left] using hw)]
        rw [he]
        refine ⟨h.others, ?_, fun hr => by cases hr⟩
        show (asked d.sharingd.main (d.requests ++ [.request false])).getLast?.getD _ = _
        rw [getLast?_asked rfl]
        rfl
      · have he : d.finder.resetFinderMode c = ({ d.finder with owner := none }, []) := by
          unfold Finder.resetFinderMode
          rw [if_neg (not_not.mpr ho), if_pos (by simpa [Finder.wants] using hw)]
        rw [he, List.append_nil]
        exact ⟨h.others, h.heading, h.answer⟩
    · have he : d.finder.resetFinderMode c = (d.finder, []) := if_pos ho
      rw [he, List.append_nil]
      exact h
  | tick c =>
    obtain rfl := Option.some.inj hs
    have hms : (d.finder.tick c).filterMap Message.asks = [] := by
      unfold Finder.tick
      split <;> rfl
    exact ⟨h.others, (congrArg _ (asked_append hms)).trans h.heading, h.answer⟩
  | modeChanged =>
    simp only [Desktop.step] at hs
    split at hs
    · next v rest hc =>
      obtain rfl := Option.some.inj hs
      by_cases hw : d.finder.wants = true
      · obtain rfl : v = true := by simpa [fresh, hc, hw] using hf
        have he : d.finder.modeChanged true = { d.finder with native := true, requested := false } := by
          refine if_neg fun hn => ?_
          simp only [Bool.and_eq_true, Bool.not_eq_true'] at hn
          simp [Finder.wants, hn.1, hn.2] at hw
        rw [he]
        exact ⟨h.others, h.heading.trans hw, fun hr => by cases hr⟩
      · have hn : d.finder.native = false ∧ d.finder.requested = false := by
          simpa [Finder.wants] using hw
        have he : d.finder.modeChanged v = d.finder := if_pos (by simp [hn])
        rw [he]
        exact ⟨h.others, h.heading, fun hr => by rw [hn.2] at hr; cases hr⟩
    · cases hs
  | deliver => exact h.deliver hs
  | sharingd l => exact h.sharingd hs ht

end Agreeing

section Runs

variable {d d' : Desktop} {n : ℕ} {ls : List Label}

def start (n : ℕ) : Desktop := ⟨{}, install n, [], []⟩

theorem modes_desktop {l : Label} (hs : d.step l = some d')
    (h : Kept d.sharingd.shared d.sharingd.all ∧ Modes d.sharingd.shared d.sharingd.all) :
    Kept d'.sharingd.shared d'.sharingd.all ∧ Modes d'.sharingd.shared d'.sharingd.all := by
  cases l with
  | searchOlder c | resetFinderMode c | tick c =>
    obtain rfl := Option.some.inj hs
    exact h
  | modeChanged =>
    simp only [step] at hs
    split at hs
    · obtain rfl := Option.some.inj hs
      exact h
    · cases hs
  | deliver =>
    simp only [step] at hs
    split at hs
    · obtain ⟨t, hstep, rfl⟩ := Option.map_eq_some_iff.mp hs
      exact modes_step (.free hstep) h
    · cases hs
  | sharingd l =>
    simp only [step, Option.ite_none_left_eq_some] at hs
    obtain ⟨t, hstep, rfl⟩ := Option.map_eq_some_iff.mp hs.2
    exact modes_step (.free hstep) h

theorem agreeing_run (run : Path (fun d l d' => d.step l = some d' ∧ d.timely l = true ∧
      d.fresh l = true) (start n) ls d) :
    Agreeing d ∧ Kept d.sharingd.shared d.sharingd.all ∧ Modes d.sharingd.shared d.sharingd.all := by
  refine run.invariant (I := fun d => Agreeing d ∧ Kept d.sharingd.shared d.sharingd.all ∧
    Modes d.sharingd.shared d.sharingd.all) (fun d l d' h hs => ?_)
    ⟨⟨?_, rfl, fun hr => by cases hr⟩, kept_install n, modes_install n⟩
  · exact ⟨h.1.step hs.1 hs.2.1 hs.2.2, modes_desktop hs.1 h.2⟩
  · simp [start, install, Threads.pending]

/-- sharingd gets a request, and the block that it queues runs. -/
def asking : List Label :=
  .deliver :: List.replicate 3 (.sharingd (.mainRun {}))

def switching : List Label :=
  .sharingd (.mainCall .mainQueue) :: List.replicate 3 (.sharingd (.mainRun {}))

def beating : List Label := [.deliver, .sharingd (.mainRun {})]

/-- The native mode is left and entered again before sharingd's block has run. -/
def leftAndBack : List Label :=
  List.flatten [
    [.searchOlder 1], asking, beating, switching, [.modeChanged],
    [.resetFinderMode 1, .searchOlder 2], asking, [.deliver, .sharingd (.mainRun {})],
    [.sharingd (.mainRun {})], beating, switching.dropLast]

theorem leftAndBack_runs :
    (exec (fun d l => if d.timely l then d.step l else none) (start 0) leftAndBack).isSome := by
  decide

/-- sharingd does not answer a request for the mode that is on: Finder goes on waiting. -/
theorem finder_left_waiting :
    ¬ ∀ n ls d, Path (fun d l d' => d.step l = some d' ∧ d.timely l = true) (start n) ls d →
      d.Quiet → d.finder.requested = false ∧
        (d.finder.owner.isSome = true → d.finder.native = d.sharingd.shared.nativeMode) := by
  intro h
  have hend := h 0 leftAndBack _ ((exec_path_get leftAndBack_runs).mono_mem fun _ _ _ _ hs => by
    simpa [and_comm] using hs)
  have hquiet : Quiet ((exec (fun d l => if d.timely l then d.step l else none) (start 0)
      leftAndBack).get leftAndBack_runs) :=
    ⟨by decide, by decide, by decide, by decide, by decide,
      by decide⟩
  exact absurd (hend hquiet).1 (by decide)

/-- **Finder and sharingd agree on the mode**, where Finder's searches are fresh and so is the news. -/
theorem finder_agrees (run : Path (fun d l d' => d.step l = some d' ∧ d.timely l = true ∧
      d.fresh l = true) (start n) ls d) (hq : d.Quiet) :
    d.finder.requested = false ∧ d.finder.native = d.sharingd.shared.nativeMode := by
  obtain ⟨h, -, hm⟩ := agreeing_run run
  have hnone : d.sharingd.shared.requestedMode = none := by
    by_contra hr
    rcases hm.wake (Option.isSome_iff_ne_none.mpr hr) hq.transfers with hw | hw
    · have hone : transitions d.sharingd = _ := hm.one
      rw [hq.transitions, hw] at hone
      cases hone
    · exact hq.checked hw
  have hasked : asked d.sharingd.main d.requests = [] := by
    rw [asked, hq.requests, filterMap_asks fun y hy => ?_]
    · rfl
    · cases y with
      | request v => exact absurd hy (hq.handled v)
      | _ => rfl
  have hwants : d.sharingd.shared.nativeMode = d.finder.wants := by
    rw [← h.heading, hasked, Shared.heading, hnone]
    rfl
  have hrequested : d.finder.requested = false := by
    by_contra hr
    have hr : d.finder.requested = true := by simpa using hr
    rcases h.answer hr with hn | hc
    · rw [hn, Finder.wants, hr, Bool.or_true] at hwants
      cases hwants
    · exact hc hq.changes
  refine ⟨hrequested, ?_⟩
  rw [hwants, Finder.wants, hrequested, Bool.or_false]

/-- The native mode is entered again after Finder has heard that it was left. -/
def heardAndBack : List Label :=
  List.flatten [
    [.searchOlder 1], asking, beating, switching, [.modeChanged],
    [.resetFinderMode 1], asking, switching, [.modeChanged],
    [.searchOlder 2], asking, beating, switching, [.modeChanged]]

theorem heardAndBack_runs :
    (exec (fun d l => if d.timely l && d.fresh l then d.step l else none) (start 0)
      heardAndBack).isSome := by
  decide

theorem finder_agrees_heardAndBack :
    ((exec (fun d l => if d.timely l && d.fresh l then d.step l else none) (start 0)
      heardAndBack).get heardAndBack_runs).finder.native = true := by
  have hagree := finder_agrees ((exec_path_get heardAndBack_runs).mono_mem fun _ _ _ _ hs => by
    simpa [and_comm, and_assoc] using hs) ⟨by decide, by decide, by decide,
      by decide, by decide, by decide⟩
  exact hagree.2.trans (by decide)

end Runs

end Desktop

end AquaTransport.Adapter
