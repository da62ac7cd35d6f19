import AquaTransport.Awdl.State
import Mathlib.Data.List.Forall2

/-!
# AquaTransport.Awdl.Clock — the receive clock of sync.c

`rxClockTime` turns the radio's time of a frame into the host's.  Frames are handled late, by a time that
varies; the offset between the two clocks is learnt from the frames that are handled soonest.  `late` is
all that one frame does, in terms of how late it is and how late the offset is.

The results are about frames that all have a timestamp, of a radio whose clock runs at the host's rate and
stays the same distance from it: a radio that restarts ends such a run.

* `rxClockTimes_between`: an estimate is never before the arrival or after the handling.
* `rxClockTimes_stalls`: a frame that is handled late by up to a second leaves the estimates where they are,
  but for 400 us.
* `rxClockTimes_stuck`: unless it is the first one.

For the last two no stamp is more than a tenth of a second below an earlier one (`Steady`), where the clock
would learn the offset anew.
-/

namespace AquaTransport.Awdl

/-- `awdl_rx_clock_time`: the host's time of the frame, and the clock after it. -/
def rxClockTime (clock : RxClock) (hardware host : UInt64) : UInt64 × RxClock :=
  let limit : UInt64 := 9223372036854775807
  if hardware = 0 ∨ limit < hardware ∨ limit < host then (host, clock)
  else
    let observed : Int64 := host.toInt64 - hardware.toInt64
    if !clock.initialized ∨ (hardware < clock.lastHardware ∧ 100000 < clock.lastHardware - hardware) then
      -- the first sample, or the radio's clock was set back
      (host, ⟨true, observed, hardware⟩)
    else
      let distance : UInt64 :=
        if clock.offset ≤ observed then observed.toUInt64 - clock.offset.toUInt64
        else clock.offset.toUInt64 - observed.toUInt64
      let last := if clock.lastHardware < hardware then hardware else clock.lastHardware
      if 100000 < distance then
        if clock.offset < observed ∧ distance ≤ 1000000 then
          (hardware + clock.offset.toUInt64, { clock with lastHardware := last })
        else (host, clock)
      else
        let change := observed - clock.offset
        let offset := clock.offset + if change < 0 then change / 4 else change / 1024
        let corrected := hardware + offset.toUInt64
        (if corrected < host then corrected else host, { clock with offset := offset, lastHardware := last })

/-! ### What the radio's clock tells -/

/-- A frame that arrives when the host's clock reads `ahead` more than the radio's, and is handled
`latency` later. -/
structure Handled (ahead : ℤ) (latency : ℕ) (hardware host : UInt64) : Prop where
  told : 0 < hardware.toNat
  hardware_lt : hardware.toNat < 2 ^ 63
  host_lt : host.toNat < 2 ^ 63
  arrived : 0 ≤ hardware.toNat + ahead
  handled : (host.toNat : ℤ) = hardware.toNat + ahead + latency

/-- What a frame makes of an offset that is `off` late. -/
def learn (off latency : ℕ) : ℕ :=
  if latency < off then off - (off - latency) / 4 else off + (latency - off) / 1024

/-- How late the estimate for a frame is and, after it, the offset. -/
def late (off latency : ℕ) : ℕ × ℕ :=
  if latency ≤ off + 100000 ∧ off ≤ latency + 100000 then (min (learn off latency) latency, learn off latency)
  else if off < latency ∧ latency ≤ off + 1000000 then (off, off)
  else (latency, off)

theorem toInt_toInt64 {x : UInt64} (h : x.toNat < 2 ^ 63) : x.toInt64.toInt = x.toNat := by
  have hx : x.toInt64.toInt = Int.bmod x.toNat (2 ^ 64) := BitVec.toInt_eq_toNat_bmod x.toBitVec
  rw [hx, Int.bmod_eq_of_le (by omega) (by omega)]

theorem toNat_toUInt64 (x : Int64) : (x.toUInt64.toNat : ℤ) = x.toInt % 2 ^ 64 := by
  have hx : x.toInt = Int.bmod x.toUInt64.toNat (2 ^ 64) := BitVec.toInt_eq_toNat_bmod x.toBitVec
  have hlt := x.toUInt64.toNat_lt
  have hmod := @Int.bmod_emod x.toUInt64.toNat (2 ^ 64)
  omega

section Frame

variable {ahead : ℤ} {off latency : ℕ} {clock : RxClock} {hardware host : UInt64}

theorem Handled.toInt_observed (h : Handled ahead latency hardware host) :
    (host.toInt64 - hardware.toInt64).toInt = ahead + latency := by
  obtain ⟨h1, h2, h3, h4, h5⟩ := h
  rw [Int64.toInt_sub, toInt_toInt64 h2, toInt_toInt64 h3, Int.bmod_eq_of_le (by omega) (by omega)]
  omega

theorem Handled.distance (h : Handled ahead latency hardware host) (ho : clock.offset.toInt = ahead + off) :
    (if clock.offset ≤ host.toInt64 - hardware.toInt64 then
        (host.toInt64 - hardware.toInt64).toUInt64 - clock.offset.toUInt64
      else clock.offset.toUInt64 - (host.toInt64 - hardware.toInt64).toUInt64).toNat =
      (latency - off) + (off - latency) := by
  have hobs := h.toInt_observed
  have h1 := toNat_toUInt64 clock.offset
  have h2 := toNat_toUInt64 (host.toInt64 - hardware.toInt64)
  have hle := clock.offset.le_toInt
  have hlt := clock.offset.toInt_lt
  have hle' := (host.toInt64 - hardware.toInt64).le_toInt
  have hlt' := (host.toInt64 - hardware.toInt64).toInt_lt
  generalize host.toInt64 - hardware.toInt64 = observed at *
  have hcmp : clock.offset ≤ observed ↔ off ≤ latency := by
    rw [Int64.le_iff_toInt_le]
    omega
  split_ifs with hc
  all_goals
    rw [UInt64.toNat_sub]
    rw [hcmp] at hc
    omega

theorem Handled.toInt_learn (h : Handled ahead latency hardware host) (ho : clock.offset.toInt = ahead + off)
    (hl : latency ≤ off + 100000) (hl' : off ≤ latency + 100000) :
    (clock.offset + if host.toInt64 - hardware.toInt64 - clock.offset < 0 then
        (host.toInt64 - hardware.toInt64 - clock.offset) / 4
      else (host.toInt64 - hardware.toInt64 - clock.offset) / 1024).toInt = ahead + learn off latency := by
  have hobs := h.toInt_observed
  have hle := clock.offset.le_toInt
  have hlt := clock.offset.toInt_lt
  have hle' := (host.toInt64 - hardware.toInt64).le_toInt
  have hlt' := (host.toInt64 - hardware.toInt64).toInt_lt
  generalize host.toInt64 - hardware.toInt64 = observed at *
  have hchange : (observed - clock.offset).toInt = (latency : ℤ) - off := by
    rw [Int64.toInt_sub, Int.bmod_eq_of_le (by omega) (by omega)]
    omega
  generalize observed - clock.offset = change at *
  have hneg : change < 0 ↔ latency < off := by
    rw [Int64.lt_iff_toInt_lt, hchange]
    show (latency : ℤ) - off < 0 ↔ _
    omega
  have h4 : (change / 4).toInt = ((latency : ℤ) - off).tdiv 4 := by
    rw [Int64.toInt_div_of_ne_right _ _ (by decide), hchange]
    rfl
  have h1024 : (change / 1024).toInt = ((latency : ℤ) - off).tdiv 1024 := by
    rw [Int64.toInt_div_of_ne_right _ _ (by decide), hchange]
    rfl
  unfold learn
  simp only [hneg]
  split_ifs with hc
  · have htdiv : ((latency : ℤ) - off).tdiv 4 = -(((off - latency) / 4 : ℕ) : ℤ) := by
      rw [← neg_sub, Int.neg_tdiv, Int.tdiv_eq_ediv_of_nonneg (by omega)]
      omega
    rw [Int64.toInt_add, h4, htdiv, ho, Int.bmod_eq_of_le (by omega) (by omega)]
    omega
  · rw [Int64.toInt_add, h1024, Int.tdiv_eq_ediv_of_nonneg (by omega), ho,
      Int.bmod_eq_of_le (by omega) (by omega)]
    omega

/-- The clock does not take a frame for the first one of a radio that was set back. -/
def Follows (clock : RxClock) (hardware : UInt64) : Prop :=
  clock.lastHardware.toNat ≤ hardware.toNat + 100000

theorem Handled.toNat_mapped (h : Handled ahead latency hardware host) {offset : Int64} {e : ℕ}
    (ho : offset.toInt = ahead + e) :
    (hardware + offset.toUInt64).toNat = hardware.toNat + ahead + e := by
  obtain ⟨h1, h2, h3, h4, h5⟩ := h
  have hlt := offset.toInt_lt
  have hn := toNat_toUInt64 offset
  rw [UInt64.toNat_add]
  omega

theorem Handled.guard (h : Handled ahead latency hardware host) :
    ¬ (hardware = 0 ∨ (9223372036854775807 : UInt64) < hardware ∨ (9223372036854775807 : UInt64) < host) := by
  obtain ⟨h1, h2, h3, -, -⟩ := h
  rintro (rfl | hlt | hlt)
  · exact absurd h1 (by decide)
  · have : 9223372036854775807 < hardware.toNat := UInt64.lt_iff_toNat_lt.mp hlt
    omega
  · have : 9223372036854775807 < host.toNat := UInt64.lt_iff_toNat_lt.mp hlt
    omega

theorem follows_iff : Follows clock hardware ↔
    ¬ (hardware < clock.lastHardware ∧ 100000 < clock.lastHardware - hardware) := by
  have hlast := clock.lastHardware.toNat_lt
  have hsub := UInt64.toNat_sub clock.lastHardware hardware
  have h1 : (100000 : UInt64) < clock.lastHardware - hardware ↔
      100000 < (clock.lastHardware - hardware).toNat := UInt64.lt_iff_toNat_lt
  rw [Follows, h1, UInt64.lt_iff_toNat_lt]
  omega

theorem Handled.rxClockTime_first (h : Handled ahead latency hardware host)
    (hfirst : clock.initialized = false ∨ ¬ Follows clock hardware) :
    rxClockTime clock hardware host = (host, ⟨true, host.toInt64 - hardware.toInt64, hardware⟩) := by
  have hcond : !clock.initialized ∨
      (hardware < clock.lastHardware ∧ 100000 < clock.lastHardware - hardware) := by
    rcases hfirst with hi | hf
    · exact .inl (by rw [hi]; rfl)
    · exact .inr (not_not.mp (mt follows_iff.mpr hf))
  unfold rxClockTime
  dsimp only
  rw [if_neg h.guard, if_pos hcond]

/-- One frame of a radio that is known. -/
theorem Handled.rxClockTime_next (h : Handled ahead latency hardware host)
    (hi : clock.initialized = true) (hf : Follows clock hardware) (ho : clock.offset.toInt = ahead + off) :
    ((rxClockTime clock hardware host).1.toNat : ℤ) = hardware.toNat + ahead + (late off latency).1 ∧
      (rxClockTime clock hardware host).2.offset.toInt = ahead + (late off latency).2 ∧
      (rxClockTime clock hardware host).2.initialized = true ∧
      ((rxClockTime clock hardware host).2.lastHardware = clock.lastHardware ∨
        (rxClockTime clock hardware host).2.lastHardware = hardware) := by
  have hknown : ¬ (!clock.initialized ∨
      (hardware < clock.lastHardware ∧ 100000 < clock.lastHardware - hardware)) := by
    rintro (hn | hr)
    · rw [hi] at hn
      exact absurd hn (by decide)
    · exact follows_iff.mp hf hr
  have hdist := h.distance ho
  have hlast : (if clock.lastHardware < hardware then hardware else clock.lastHardware) = clock.lastHardware ∨
      (if clock.lastHardware < hardware then hardware else clock.lastHardware) = hardware := by
    split_ifs
    · exact .inr rfl
    · exact .inl rfl
  have hhost := h.handled
  have hobs : clock.offset < host.toInt64 - hardware.toInt64 ↔ off < latency := by
    rw [Int64.lt_iff_toInt_lt, h.toInt_observed]
    omega
  unfold rxClockTime
  dsimp only
  rw [if_neg h.guard, if_neg hknown]
  generalize (if clock.lastHardware < hardware then hardware else clock.lastHardware) = last at hlast ⊢
  generalize (if clock.offset ≤ host.toInt64 - hardware.toInt64 then _ else _ : UInt64) = distance at *
  have hfar : (100000 : UInt64) < distance ↔ ¬ (latency ≤ off + 100000 ∧ off ≤ latency + 100000) := by
    have : (100000 : UInt64) < distance ↔ 100000 < distance.toNat := UInt64.lt_iff_toNat_lt
    rw [this]
    omega
  have hsec : distance ≤ 1000000 ↔ latency ≤ off + 1000000 ∧ off ≤ latency + 1000000 := by
    have : distance ≤ (1000000 : UInt64) ↔ distance.toNat ≤ 1000000 := UInt64.le_iff_toNat_le
    rw [this]
    omega
  by_cases hc : latency ≤ off + 100000 ∧ off ≤ latency + 100000
  · have hnew := h.toInt_learn ho hc.1 hc.2
    rw [if_neg fun hf => hfar.mp hf hc, late, if_pos hc]
    generalize clock.offset + (if host.toInt64 - hardware.toInt64 - clock.offset < 0 then
      (host.toInt64 - hardware.toInt64 - clock.offset) / 4
      else (host.toInt64 - hardware.toInt64 - clock.offset) / 1024) = offset at hnew ⊢
    have hmap := h.toNat_mapped hnew
    refine ⟨?_, hnew, hi, hlast⟩
    have hle : hardware + offset.toUInt64 < host ↔ (hardware + offset.toUInt64).toNat < host.toNat :=
      UInt64.lt_iff_toNat_lt
    dsimp only
    split_ifs with hm
    all_goals
      rw [hle] at hm
      omega
  · rw [if_pos (hfar.mpr hc), late, if_neg hc]
    by_cases hd : clock.offset < host.toInt64 - hardware.toInt64 ∧ distance ≤ 1000000
    · rw [if_pos hd, if_pos (And.intro (hobs.mp hd.1) (hsec.mp hd.2).1)]
      exact ⟨h.toNat_mapped ho, ho, hi, hlast⟩
    · have hd' : ¬ (off < latency ∧ latency ≤ off + 1000000) := fun hd' =>
        hd ⟨hobs.mpr hd'.1, hsec.mpr ⟨hd'.2, by omega⟩⟩
      rw [if_neg hd, if_neg hd']
      exact ⟨hhost, ho, hi, .inl rfl⟩

end Frame

/-! ### One frame after another -/

/-- A frame with its two times.  The distance `ahead` of the clocks is one for the whole run. -/
structure Stamped (ahead : ℤ) where
  latency : ℕ
  hardware : UInt64
  host : UInt64
  handled : Handled ahead latency hardware host

section Frames

variable {ahead : ℤ} {off bound : ℕ} {clock : RxClock}

/-- When the frame arrives, by the host's clock. -/
def Stamped.arrival (f : Stamped ahead) : ℤ := f.hardware.toNat + ahead

/-- The estimates for frames that are handled one after another, and the clock after them. -/
def rxClockTimes (clock : RxClock) : List (Stamped ahead) → List UInt64 × RxClock
  | [] => ([], clock)
  | f :: fs =>
    let (t, clock) := rxClockTime clock f.hardware f.host
    let (ts, clock) := rxClockTimes clock fs
    (t :: ts, clock)

/-- A clock whose offset, if it has one, was learnt from frames that were handled after they arrived. -/
def Learnt (ahead : ℤ) (clock : RxClock) : Prop :=
  clock.initialized = true → ∃ off : ℕ, clock.offset.toInt = ahead + off

theorem late_le (off latency : ℕ) : (late off latency).1 ≤ latency := by
  unfold late
  split_ifs <;> dsimp only <;> omega

theorem Stamped.estimate (f : Stamped ahead) (h : Learnt ahead clock) :
    f.arrival ≤ (rxClockTime clock f.hardware f.host).1.toNat ∧
      (rxClockTime clock f.hardware f.host).1.toNat ≤ f.host.toNat ∧
      Learnt ahead (rxClockTime clock f.hardware f.host).2 := by
  have hhost := f.handled.handled
  unfold Stamped.arrival
  by_cases hfirst : clock.initialized = false ∨ ¬ Follows clock f.hardware
  · rw [f.handled.rxClockTime_first hfirst]
    dsimp only
    exact ⟨by omega, le_rfl, fun _ => ⟨f.latency, f.handled.toInt_observed⟩⟩
  · simp only [not_or, Bool.not_eq_false, not_not] at hfirst
    obtain ⟨off, ho⟩ := h hfirst.1
    obtain ⟨hest, hoff, -, -⟩ := f.handled.rxClockTime_next hfirst.1 hfirst.2 ho
    have hle := late_le off f.latency
    exact ⟨by omega, by omega, fun _ => ⟨_, hoff⟩⟩

/-- **The estimate lies between arrival and handling**: for every frame of every run, wherever the radio's
clock starts and in whatever order the stamps come. -/
theorem rxClockTimes_between (fs : List (Stamped ahead)) :
    List.Forall₂ (fun f t => f.arrival ≤ t.toNat ∧ t.toNat ≤ f.host.toNat) fs
      (rxClockTimes ⟨false, 0, 0⟩ fs).1 := by
  have hrun : ∀ clock, Learnt ahead clock →
      List.Forall₂ (fun f t => f.arrival ≤ t.toNat ∧ t.toNat ≤ f.host.toNat) fs (rxClockTimes clock fs).1 := by
    induction fs with
    | nil => exact fun _ _ => .nil
    | cons f fs ih =>
      intro clock h
      obtain ⟨hle, hge, hlearnt⟩ := f.estimate h
      exact .cons ⟨hle, hge⟩ (ih _ hlearnt)
  exact hrun _ fun h => absurd h Bool.false_ne_true

/-- No stamp is more than a tenth of a second below one before it. -/
def Steady (fs : List (Stamped ahead)) : Prop :=
  fs.Pairwise fun f g => f.hardware.toNat ≤ g.hardware.toNat + 100000

/-- A clock that knows its radio, and is `off` late. -/
structure Knows (ahead : ℤ) (clock : RxClock) (off : ℕ) (fs : List (Stamped ahead)) : Prop where
  initialized : clock.initialized = true
  offset : clock.offset.toInt = ahead + off
  follows : ∀ f ∈ fs, Follows clock f.hardware
  steady : Steady fs

theorem knows_first {f : Stamped ahead} {fs : List (Stamped ahead)} (h : Steady (f :: fs)) :
    rxClockTime ⟨false, 0, 0⟩ f.hardware f.host =
        (f.host, ⟨true, f.host.toInt64 - f.hardware.toInt64, f.hardware⟩) ∧
      Knows ahead ⟨true, f.host.toInt64 - f.hardware.toInt64, f.hardware⟩ f.latency fs :=
  ⟨f.handled.rxClockTime_first (.inl rfl), rfl, f.handled.toInt_observed, (List.pairwise_cons.mp h).1,
    (List.pairwise_cons.mp h).2⟩

theorem Knows.next {f : Stamped ahead} {fs : List (Stamped ahead)} (h : Knows ahead clock off (f :: fs)) :
    ((rxClockTime clock f.hardware f.host).1.toNat : ℤ) = f.arrival + (late off f.latency).1 ∧
      Knows ahead (rxClockTime clock f.hardware f.host).2 (late off f.latency).2 fs := by
  obtain ⟨hest, hoff, hinit, hlast⟩ :=
    f.handled.rxClockTime_next h.initialized (h.follows f List.mem_cons_self) h.offset
  have hsteady := List.pairwise_cons.mp h.steady
  refine ⟨hest, hinit, hoff, fun g hg => ?_, hsteady.2⟩
  unfold Follows
  rcases hlast with he | he
  · rw [he]
    exact h.follows g (List.mem_cons_of_mem f hg)
  · rw [he]
    exact hsteady.1 g hg

/-- A prompt frame takes back what a stall of at most a second before it did. -/
theorem late_prompt {latency : ℕ} (hb : bound ≤ 99600) (hoff : off ≤ bound + 400) (hl : latency ≤ bound) :
    (late off latency).1 ≤ bound + 400 ∧ (late off latency).2 ≤ bound + 300 := by
  have hc : latency ≤ off + 100000 ∧ off ≤ latency + 100000 := by omega
  rw [late, if_pos hc, learn]
  dsimp only
  split_ifs <;> omega

theorem late_stalled {latency : ℕ} (hoff : off ≤ bound + 300) (hl : bound < latency)
    (hl' : latency ≤ 1000000) : (late off latency).1 ≤ bound + 400 ∧ (late off latency).2 ≤ bound + 400 := by
  unfold late learn
  split_ifs <;> dsimp only <;> omega

theorem Knows.stalls {fs : List (Stamped ahead)} (h : Knows ahead clock off fs) (hb : bound ≤ 99600)
    (hoff : off ≤ bound + 400) (hhead : ∀ f ∈ fs.head?, bound < f.latency → off ≤ bound + 300)
    (hsecond : ∀ f ∈ fs, f.latency ≤ 1000000)
    (hchain : fs.IsChain fun f g => f.latency ≤ bound ∨ g.latency ≤ bound) :
    List.Forall₂ (fun f t => (t.toNat : ℤ) ≤ f.arrival + (bound + 400)) fs (rxClockTimes clock fs).1 := by
  induction fs generalizing clock off with
  | nil => exact .nil
  | cons f fs ih =>
    obtain ⟨hest, hnext⟩ := h.next
    have hsecond' := fun g hg => hsecond g (List.mem_cons_of_mem f hg)
    have hone : (late off f.latency).1 ≤ bound + 400 →
        ((rxClockTime clock f.hardware f.host).1.toNat : ℤ) ≤ f.arrival + (bound + 400) := by
      intro hle
      omega
    rcases le_or_gt f.latency bound with hl | hl
    · obtain ⟨hle, hoff'⟩ := late_prompt hb hoff hl
      exact .cons (hone hle) (ih hnext (by omega) (fun _ _ _ => hoff') hsecond' hchain.of_cons)
    · obtain ⟨hle, hoff'⟩ := late_stalled (hhead f rfl hl) hl (hsecond f List.mem_cons_self)
      -- the frame after a stall is prompt
      have hprompt : ∀ g ∈ fs.head?, bound < g.latency → (late off f.latency).2 ≤ bound + 300 := by
        intro g hg hlt
        obtain ⟨fs', rfl⟩ := List.head?_eq_some_iff.mp hg
        have := hchain.rel
        omega
      exact .cons (hone hle) (ih hnext hoff' hprompt hsecond' hchain.of_cons)

/-- **A stall does not shift the schedule** of a steady radio: if no two frames in a row are handled more than
`bound` late, and none more than a second, no estimate is more than `bound + 400` late. -/
theorem rxClockTimes_stalls {fs : List (Stamped ahead)} (hb : bound ≤ 99600) (hsteady : Steady fs)
    (hfirst : ∀ f ∈ fs.head?, f.latency ≤ bound) (hsecond : ∀ f ∈ fs, f.latency ≤ 1000000)
    (hchain : fs.IsChain fun f g => f.latency ≤ bound ∨ g.latency ≤ bound) :
    List.Forall₂ (fun f t => (t.toNat : ℤ) ≤ f.arrival + (bound + 400)) fs
      (rxClockTimes ⟨false, 0, 0⟩ fs).1 := by
  cases fs with
  | nil => exact .nil
  | cons f fs =>
    obtain ⟨hrx, hknows⟩ := knows_first hsteady
    have hl := hfirst f rfl
    have hhost := f.handled.handled
    rw [rxClockTimes, hrx]
    refine .cons (by unfold Stamped.arrival; omega) (hknows.stalls hb (by omega) (fun _ _ _ => by omega)
      (fun g hg => hsecond g (List.mem_cons_of_mem f hg)) hchain.of_cons)

theorem rxClockTimes_stalls_one :
    let fs : List (Stamped 0) := [⟨0, 1000, 1000, by constructor <;> decide⟩,
      ⟨10000, 2000, 12000, by constructor <;> decide⟩, ⟨0, 3000, 3000, by constructor <;> decide⟩]
    List.Forall₂ (fun f t => (t.toNat : ℤ) ≤ f.arrival + 400) fs (rxClockTimes ⟨false, 0, 0⟩ fs).1 := by
  intro fs
  exact @rxClockTimes_stalls 0 0 fs (by decide) (by simp [fs, Steady]) (by simp [fs]) (by simp [fs])
    (by simp [fs])

/-- A clock that is too late to learn stays so, and is not used. -/
theorem Knows.stuck {fs : List (Stamped ahead)} (h : Knows ahead clock off fs)
    (hlate : ∀ f ∈ fs, f.latency + 100000 < off) : (rxClockTimes clock fs).1 = fs.map Stamped.host := by
  induction fs generalizing clock with
  | nil => rfl
  | cons f fs ih =>
    obtain ⟨hest, hnext⟩ := h.next
    have hl := hlate f List.mem_cons_self
    have hhost := f.handled.handled
    have hkeep : late off f.latency = (f.latency, off) := by
      rw [late, if_neg (by omega), if_neg (by omega)]
    rw [hkeep] at hest hnext
    have ht : (rxClockTime clock f.hardware f.host).1 = f.host := by
      refine UInt64.toNat_inj.mp ?_
      unfold Stamped.arrival at hest
      omega
    have hts := ih hnext fun g hg => hlate g (List.mem_cons_of_mem f hg)
    exact congrArg₂ List.cons ht hts

/-- **A first frame that is too late is not made up for** while the radio is steady: if all others are handled
faster, by more than a tenth of a second, every estimate is the time of handling. -/
theorem rxClockTimes_stuck {f : Stamped ahead} {fs : List (Stamped ahead)} (hsteady : Steady (f :: fs))
    (hlate : ∀ g ∈ fs, g.latency + 100000 < f.latency) :
    (rxClockTimes ⟨false, 0, 0⟩ (f :: fs)).1 = (f :: fs).map Stamped.host := by
  obtain ⟨hrx, hknows⟩ := knows_first hsteady
  rw [rxClockTimes, hrx]
  exact congrArg (List.cons f.host) (hknows.stuck hlate)

theorem rxClockTimes_stuck_one :
    let f : Stamped 0 := ⟨200000, 1000, 201000, by constructor <;> decide⟩
    let fs : List (Stamped 0) := [⟨0, 300000, 300000, by constructor <;> decide⟩,
      ⟨50000, 400000, 450000, by constructor <;> decide⟩]
    (rxClockTimes ⟨false, 0, 0⟩ (f :: fs)).1 = [201000, 300000, 450000] := by
  intro f fs
  exact rxClockTimes_stuck (by simp [f, fs, Steady]) (by simp [f, fs])

end Frames

end AquaTransport.Awdl
