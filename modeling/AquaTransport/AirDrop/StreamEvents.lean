import AquaTransport.Lib.Epochs
import Mathlib.Data.List.Count

/-!
# AquaTransport.AirDrop.StreamEvents — the ends of an offer's streams

`offer_stream_event` comes before the native handler of a connection's streams, which is not to see the
end of a stream twice while that stream is open.  It keeps one stream for each connection, and whether
that one has ended.  `offer_ends_once`: it does what it is for on the histories in which no other stream
speaks between two ends of one opening.  Histories are newest first.
-/

namespace AquaTransport.StreamEvents

open Epochs

/-- The bits of a `CFStreamEventType`. -/
abbrev CFStreamEventType := UInt64

def kCFStreamEventOpenCompleted : CFStreamEventType := 1
def kCFStreamEventHasBytesAvailable : CFStreamEventType := 2
def kCFStreamEventEndEncountered : CFStreamEventType := 16

/-- An event, and the address of its stream. -/
structure StreamEvent where
  stream : UInt64
  event : CFStreamEventType
  deriving DecidableEq

namespace StreamEvent

def openCompleted (s : UInt64) : StreamEvent := ⟨s, kCFStreamEventOpenCompleted⟩
def endEncountered (s : UInt64) : StreamEvent := ⟨s, kCFStreamEventEndEncountered⟩

end StreamEvent

open StreamEvent

structure AQOfferStreamState where
  stream : UInt64 := 0
  ended : Bool := false

/-- `offer_stream_event`: the connection's state behind it, and the calls of the native handler. -/
def offerStreamEvent (nativeMode : Bool) (state : Option AQOfferStreamState) (e : StreamEvent) :
    Option AQOfferStreamState × List StreamEvent :=
  if nativeMode then (state, [e])
  else
    let state := state.getD {}
    let state :=
      if state.stream ≠ e.stream ∨ e.event = kCFStreamEventOpenCompleted then
        { stream := e.stream, ended := false }
      else state
    if e.event = kCFStreamEventEndEncountered then
      if state.ended then (some state, []) else (some { state with ended := true }, [e])
    else (some state, [e])

/-- A connection, with the events that came and those that the native handler got. -/
structure Connection where
  state : Option AQOfferStreamState := none
  seen : List StreamEvent := []
  received : List StreamEvent := []

def Connection.handle (nativeMode : Bool) (c : Connection) (e : StreamEvent) : Connection :=
  let r := offerStreamEvent nativeMode c.state e
  { state := r.1, seen := e :: c.seen, received := r.2 ++ c.received }

/-- A connection behind the events of a run in modern mode. -/
def modern (es : List StreamEvent) : Connection := es.foldl (Connection.handle false) {}

/-! ### What it is for -/

/-- The streams as keys. -/
def streams : Signals StreamEvent UInt64 where
  key := StreamEvent.stream
  opens := fun e => e.event = kCFStreamEventOpenCompleted
  ends := fun e => e.event = kCFStreamEventEndEncountered
  apart := fun e h => by
    rw [of_decide_eq_true h]
    rfl

/-- One end behind each opening of a stream; everything that is not a repeated end comes once, and in
its order. -/
structure EndsOnce (seen received : List StreamEvent) : Prop where
  once : ∀ s later mid past, received = later ++ (mid ++ openCompleted s :: past) →
    openCompleted s ∉ mid → mid.count (endEncountered s) ≤ 1
  others : Spares streams seen received

/-- Between two ends behind one opening of a stream there are events of that stream only. -/
def Undisturbed (seen : List StreamEvent) : Prop :=
  ∀ s later B A past,
    seen = later ++ endEncountered s :: (B ++ endEncountered s :: (A ++ openCompleted s :: past)) →
    openCompleted s ∉ A → openCompleted s ∉ B → ∀ e ∈ B, e.stream = s

/-! ### One opening -/

variable {e : StreamEvent} {s : UInt64} {l : List StreamEvent}

theorem openCompleted_iff : streams.opens e = true ∧ streams.key e = s ↔ e = openCompleted s := by
  cases e
  simp [streams, openCompleted, and_comm]

theorem endEncountered_iff : streams.ends e = true ∧ streams.key e = s ↔ e = endEncountered s := by
  cases e
  simp [streams, endEncountered, and_comm]

theorem unopened_iff : (∀ x ∈ l, streams.key x = s → streams.opens x = false) ↔ openCompleted s ∉ l := by
  constructor
  · intro h hl
    exact absurd ((h _ hl rfl).symm.trans rfl) Bool.false_ne_true
  · intro h x hx hk
    by_contra ho
    exact h (openCompleted_iff.mp ⟨by simpa using ho, hk⟩ ▸ hx)

theorem one_lt_count_iff {a : StreamEvent} :
    1 < l.count a ↔ ∃ X B Y, l = X ++ a :: (B ++ a :: Y) := by
  constructor
  · intro h
    obtain ⟨X, Y, rfl, hX⟩ := List.eq_append_cons_of_mem (List.count_pos_iff.mp (by omega : 0 < l.count a))
    rw [List.count_append, List.count_eq_zero_of_not_mem hX, List.count_cons_self] at h
    obtain ⟨B, Y, rfl⟩ := List.append_of_mem (List.count_pos_iff.mp (by omega : 0 < Y.count a))
    exact ⟨X, B, Y, rfl⟩
  · rintro ⟨X, B, Y, rfl⟩
    simp only [List.count_append, List.count_cons_self]
    omega

/-- Two ends behind one opening, as events. -/
theorem twice_iff {A B : List StreamEvent} : Twice streams l s A B ↔
    (∃ later past, l = later ++ endEncountered s :: (B ++ endEncountered s ::
      (A ++ openCompleted s :: past))) ∧ openCompleted s ∉ A ∧ openCompleted s ∉ B := by
  constructor
  · rintro ⟨⟨later, e', e, o, past, rfl, ho, he, he', hko, hke, hke'⟩, hno⟩
    obtain rfl := openCompleted_iff.mp ⟨ho, hko⟩
    obtain rfl := endEncountered_iff.mp ⟨he, hke⟩
    obtain rfl := endEncountered_iff.mp ⟨he', hke'⟩
    rw [unopened_iff, List.mem_append, not_or] at hno
    exact ⟨⟨later, past, rfl⟩, hno.2, hno.1⟩
  · rintro ⟨⟨later, past, rfl⟩, hA, hB⟩
    refine ⟨⟨later, _, _, _, past, rfl, rfl, rfl, rfl, rfl, rfl, rfl⟩, ?_⟩
    rw [unopened_iff, List.mem_append, not_or]
    exact ⟨hB, hA⟩

theorem once_iff : (∀ s later mid past, l = later ++ (mid ++ openCompleted s :: past) →
      openCompleted s ∉ mid → mid.count (endEncountered s) ≤ 1) ↔
    ∀ s A B, ¬ Twice streams l s A B := by
  constructor
  · intro h s A B ht
    obtain ⟨⟨later, past, rfl⟩, hA, hB⟩ := twice_iff.mp ht
    have hone := h s later (endEncountered s :: (B ++ endEncountered s :: A)) past (by simp) ?_
    · have htwo := (one_lt_count_iff (a := endEncountered s)).mpr ⟨[], B, A, rfl⟩
      rw [List.nil_append] at htwo
      omega
    · have hne : openCompleted s ≠ endEncountered s := fun he => by
        have := congrArg StreamEvent.event he
        exact absurd this (by decide : kCFStreamEventOpenCompleted ≠ kCFStreamEventEndEncountered)
      simp [hne, hA, hB]
  · rintro h s later mid past rfl hmid
    by_contra hone
    obtain ⟨X, B, Y, rfl⟩ := one_lt_count_iff.mp (by omega : 1 < mid.count (endEncountered s))
    rw [List.mem_append, List.mem_cons, List.mem_append, List.mem_cons] at hmid
    refine h s Y B (twice_iff.mpr ⟨⟨later ++ X, past, by simp⟩, ?_, ?_⟩)
    · exact fun hY => hmid (by simp [hY])
    · exact fun hB => hmid (by simp [hB])

theorem undisturbed_iff : Undisturbed l ↔ ∀ s A B, Twice streams l s A B → ∀ x ∈ B, streams.key x = s := by
  constructor
  · intro h s A B ht
    obtain ⟨⟨later, past, rfl⟩, hA, hB⟩ := twice_iff.mp ht
    exact h s later B A past rfl hA hB
  · intro h s later B A past hl hA hB
    exact h s A B (twice_iff.mpr ⟨⟨later, past, hl⟩, hA, hB⟩)

/-! ### The handler -/

/-- The state says that the stream has ended. -/
def AQOfferStreamState.recalls (state : AQOfferStreamState) (s : UInt64) : Bool :=
  state.stream = s && state.ended

/-- The state knows what one key's memory would, and the native handler got what that lets through. -/
structure Connection.Filters (c : Connection) : Prop where
  recalls : ∀ s, (c.state.getD {}).recalls s = endedAlone streams s c.seen
  kept : c.received = kept streams (endedAlone streams) c.seen

/-- What the handler does with an event, by what the state recalls of its stream. -/
theorem offerStreamEvent_modern (state : Option AQOfferStreamState) (e : StreamEvent) :
    offerStreamEvent false state e =
      (some ⟨e.stream, !streams.opens e && (streams.ends e || (state.getD {}).recalls e.stream)⟩,
        if streams.ends e && (state.getD {}).recalls e.stream then [] else [e]) := by
  unfold offerStreamEvent
  rw [if_neg Bool.false_ne_true]
  generalize state.getD {} = st
  obtain ⟨stream, ended⟩ := st
  obtain ⟨s, event⟩ := e
  dsimp only [streams, AQOfferStreamState.recalls]
  by_cases ho : event = kCFStreamEventOpenCompleted
  · have hne : kCFStreamEventOpenCompleted ≠ kCFStreamEventEndEncountered := by decide
    simp [ho, hne]
  · rw [decide_eq_false ho, Bool.not_false, Bool.true_and]
    by_cases hs : stream = s
    · subst hs
      rw [if_neg (show ¬ (stream ≠ stream ∨ event = kCFStreamEventOpenCompleted) by simp [ho])]
      by_cases he : event = kCFStreamEventEndEncountered
      · cases ended <;> simp [he]
      · simp [he]
    · rw [if_pos (show stream ≠ s ∨ event = kCFStreamEventOpenCompleted from Or.inl hs)]
      by_cases he : event = kCFStreamEventEndEncountered
      · simp [he, hs]
      · simp [he, hs]

/-- **The step.** -/
theorem Connection.Filters.handle {c : Connection} (h : c.Filters) (e : StreamEvent) :
    (c.handle false e).Filters := by
  have hhandle := offerStreamEvent_modern c.state e
  rw [h.recalls] at hhandle
  refine ⟨fun s => ?_, ?_⟩
  · show ((offerStreamEvent false c.state e).1.getD {}).recalls s = endedAlone streams s (e :: c.seen)
    rw [hhandle, endedAlone_cons, AQOfferStreamState.recalls]
    show (decide (e.stream = s) && _) = if e.stream = s then _ else _
    by_cases hs : e.stream = s
    · subst hs
      rw [if_pos rfl, decide_eq_true rfl, Bool.true_and]
      rfl
    · rw [decide_eq_false hs, Bool.false_and, if_neg hs]
  · show (offerStreamEvent false c.state e).2 ++ c.received = if _ then _ else _
    rw [hhandle, h.kept]
    show (if (streams.ends e && endedAlone streams e.stream c.seen) = true then _ else _) ++ _ =
      if (streams.ends e && endedAlone streams e.stream c.seen) = true then _ else _
    split_ifs <;> rfl

/-- **The run.** -/
theorem filters_foldl {c : Connection} (h : c.Filters) (es : List StreamEvent) :
    (es.foldl (Connection.handle false) c).Filters ∧
      (es.foldl (Connection.handle false) c).seen = es.reverse ++ c.seen := by
  induction es generalizing c with
  | nil => exact ⟨h, rfl⟩
  | cons e es ih =>
    obtain ⟨hf, hseen⟩ := ih (h.handle e)
    refine ⟨hf, hseen.trans ?_⟩
    rw [List.reverse_cons, List.append_assoc]
    rfl

/-- **The end of a stream is delivered once for each opening** exactly on the histories in which no other
stream speaks between two ends behind one opening. -/
theorem offer_ends_once (es : List StreamEvent) :
    EndsOnce es.reverse (modern es).received ↔ Undisturbed es.reverse := by
  have hinit : ({} : Connection).Filters := ⟨fun s => Bool.and_false _, rfl⟩
  obtain ⟨hf, hseen⟩ := filters_foldl hinit es
  have hkept : (modern es).received = kept streams (endedAlone streams) es.reverse := by
    rw [← List.append_nil es.reverse, ← hseen]
    exact hf.kept
  rw [undisturbed_iff, ← kept_once_iff, ← once_iff, hkept]
  refine ⟨EndsOnce.once, fun h => ⟨h, kept_spares (fun k past => ended_of_alone) _⟩⟩

/-- The offer's stream has ended, another one has bytes, and the end is reported again. -/
def interrupted : List StreamEvent :=
  [openCompleted 1, endEncountered 1, ⟨2, kCFStreamEventHasBytesAvailable⟩, endEncountered 1,
    openCompleted 1]

theorem offer_ends_twice : ¬ EndsOnce interrupted.reverse (modern interrupted).received := by
  intro h
  have hone := h.once 1 [openCompleted 1]
    [endEncountered 1, ⟨2, kCFStreamEventHasBytesAvailable⟩, endEncountered 1] [] (by decide) (by decide)
  exact absurd hone (by decide)

end AquaTransport.StreamEvents
