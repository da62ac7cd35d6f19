import AquaTransport.Gsa.Srp

/-!
# AquaTransport.Gsa.OneShot — calls of `aq_srp_challenge` and `aq_srp_verify` on one object

`challenged` is 0 before a challenge, 1 when one has succeeded and -1 from then on that nothing can
succeed any more.  Here every function of OpenSSL that can fail may fail, and the callers' buffers are
written as the functions write them.
-/

namespace AquaTransport

/-! ### The calls -/

/-- What the functions that can fail return during a challenge, in their order. -/
structure Outcomes where
  group : Bool := true
  ctxNew : Bool := true
  ctxGet : Bool := true
  bin2bnB : Bool := true
  pbkdf2 : Bool := true
  bin2bnX : Bool := true
  bin2bnU : Bool := true
  bin2bnK : Bool := true
  modExpV : Bool := true
  modMul : Bool := true
  modSub : Bool := true
  mulAdd : Bool := true
  modExpSecret : Bool := true

structure ChallengeArgs where
  user : Option NSData
  password : Option NSData
  protocol : Option NSData
  salt : Option NSData
  iterations : ℕ
  server : Option NSData

/-- The strings and numbers of a challenge that passes the checks. -/
structure Parameters where
  user : NSData
  password : NSData
  protocol : NSData
  salt : NSData
  iterations : ℕ
  server : NSData

/-- The checks but for `s->challenged`. -/
def ChallengeArgs.check (o : Outcomes) (args : ChallengeArgs) : Option Parameters :=
  match args.user, args.password, args.protocol, args.salt, args.server with
  | some user, some password, some protocol, some salt, some server =>
    if !o.group ∨ salt.length = 0 ∨ 1024 < salt.length ∨ server.length = 0 ∨ 256 < server.length ∨
        args.iterations = 0 ∨ 1000000 < args.iterations ∨ 1024 * 1024 < password.length ∨
        (cText protocol ≠ bytesOf "s2k" ∧ cText protocol ≠ bytesOf "s2k_fo") then none
    else some ⟨user, password, protocol, salt, args.iterations, server⟩
  | _, _, _, _, _ => none

section Model

variable (G : SrpGroup) (C : Crypto)

/-- `aq_srp_challenge` behind its checks, with the caller's `proof`. -/
def srpCompute (o : Outcomes) (s : AqSrp) (p : Parameters) (proof : NSData) :
    AqSrp × NSData × Bool :=
  -- a failed challenge cannot be reused
  let s := { s with challenged := -1 }
  let B := ofBytes p.server
  let x := privateKey C p.password p.protocol p.salt p.iterations
  let u := scrambler C s.A B
  if !o.ctxNew then (s, proof, false)
  else if !o.ctxGet ∨ !o.bin2bnB ∨ B = 0 ∨ G.N ≤ B then (s, proof, false)
  else if !o.pbkdf2 then (s, proof, false)
  else if !o.bin2bnX then (s, proof, false)
  else if !o.bin2bnU ∨ u = 0 then (s, proof, false)
  else if !o.bin2bnK ∨ !o.modExpV ∨ !o.modMul ∨ !o.modSub ∨
      clientBase G C B (G.g ^ x % G.N) = 0 ∨ !o.mulAdd then (s, proof, false)
  else if !o.modExpSecret ∨ clientSecret G C s.a B x u = 0 then (s, proof, false)
  else
    let s := { s with key := keyOfSecret C (clientSecret G C s.a B x u) }
    let proof := proofOf G C (cText p.user) p.salt s.A B s.key
    let s := { s with expected := expectedOf C s.A proof s.key }
    ({ s with challenged := 1 }, proof, true)

/-- `aq_srp_challenge`. -/
def srpChallenge (o : Outcomes) (s : AqSrp) (args : ChallengeArgs) (proof : NSData) :
    AqSrp × NSData × Bool :=
  if s.challenged ≠ 0 then (s, proof, false)
  else
    match args.check o with
    | none => (s, proof, false)
    | some p => srpCompute G C o s p proof

/-- `aq_srp_verify`, with the caller's `key`. -/
def srpVerify (s : AqSrp) (proof : Option NSData) (key : NSData) : AqSrp × NSData × Bool :=
  if s.challenged ≠ 1 then (s, key, false)
  else
    let s := { s with challenged := -1 }
    match proof with
    | none => (s, key, false)
    | some proof =>
      if proof.length ≠ 32 ∨ proof ≠ s.expected then (s, key, false)
      else ({ s with key := List.replicate 32 0 }, s.key, true)

/-- A call with the caller's buffer as it is before. -/
inductive SrpCall
  | challenge (o : Outcomes) (args : ChallengeArgs) (proof : NSData)
  | verify (proof : Option NSData) (key : NSData)

namespace SrpCall

def isVerify : SrpCall → Bool
  | challenge _ _ _ => false
  | verify _ _ => true

/-- The caller's buffer before. -/
def buffer : SrpCall → NSData
  | challenge _ _ proof => proof
  | verify _ key => key

/-- A challenge whose parameters pass the checks. -/
def passes : SrpCall → Bool
  | challenge o args _ => (args.check o).isSome
  | verify _ _ => false

def run (s : AqSrp) : SrpCall → AqSrp × NSData × Bool
  | challenge o args proof => srpChallenge G C o s args proof
  | verify proof key => srpVerify s proof key

end SrpCall

/-- A call, the object before and after it, the caller's buffer after it and what it returned. -/
structure SrpRecord where
  call : SrpCall
  before : AqSrp
  after : AqSrp
  buffer : NSData
  ok : Bool

/-- The call is a challenge that passes all the checks, that of `s->challenged` with them. -/
def SrpRecord.passed (r : SrpRecord) : Bool := r.before.challenged = 0 && r.call.passes

/-- One call on the object. -/
def srpStep (s : AqSrp) (c : SrpCall) : SrpRecord :=
  let r := c.run G C s
  ⟨c, s, r.1, r.2.1, r.2.2⟩

/-- Calls on one object, in their order. -/
def srpRun : AqSrp → List SrpCall → List SrpRecord
  | _, [] => []
  | s, c :: cs => srpStep G C s c :: srpRun (srpStep G C s c).after cs

end Model

/-! ### One call -/

section Step

variable {G : SrpGroup} {C : Crypto} {s : AqSrp} {o : Outcomes} {args : ChallengeArgs}
  {proof : NSData}

/-- Where nothing of OpenSSL fails, this is the challenge of the exchange. -/
theorem srpChallenge_eq : srpChallenge G C {} s args proof =
    let r := aqSrpChallenge G C s args.user args.password args.protocol args.salt args.iterations
      args.server
    (r.1, r.2.getD proof, r.2.isSome) := by
  obtain ⟨user, password, protocol, salt, iterations, server⟩ := args
  unfold srpChallenge ChallengeArgs.check aqSrpChallenge
  cases user <;> cases password <;> cases protocol <;> cases salt <;> cases server <;>
    dsimp only <;> try (split_ifs <;> rfl)
  by_cases hc : s.challenged = 0
  · simp only [hc, ne_eq, not_true_eq_false, false_or, if_false, Bool.not_true, Bool.false_eq_true]
    -- behind the checks the two go through the same four tests
    split_ifs
    · rfl
    all_goals simp [srpCompute, *]
  · simp [hc]

/-- The proof that a verification takes and the key that it gives. -/
theorem srpVerify_eq {p : Option NSData} {key : NSData} : srpVerify s p key =
    let r := aqSrpVerify s p
    (r.1, r.2.getD key, r.2.isSome) := by
  unfold srpVerify aqSrpVerify
  by_cases hc : s.challenged = 1
  · simp only [hc, ne_eq, not_true_eq_false, if_false]
    cases p with
    | none => rfl
    | some d =>
      dsimp only
      split_ifs <;> rfl
  · simp [hc]

variable (proof) in
/-- **What the computation can do**: it fails, with nothing written, or has a key, a proof and the
proof that it expects. -/
theorem srpCompute_cases (p : Parameters) :
    (∃ t, srpCompute G C o s p proof = (t, proof, false) ∧ t.challenged = -1) ∨
    ∃ t m, srpCompute G C o s p proof = (t, m, true) ∧ t.challenged = 1 ∧
      t.expected = expectedOf C s.A m t.key := by
  unfold srpCompute
  dsimp only
  iterate 7
    split
    · exact Or.inl ⟨_, rfl, rfl⟩
  exact Or.inr ⟨_, _, rfl, rfl, rfl⟩

/-- **One call**: it fails and writes nothing, a challenge succeeds, or a verification does. -/
theorem run_cases (c : SrpCall) :
    let r := srpStep G C s c
    (r.ok = false ∧ r.buffer = c.buffer) ∨
      (c.isVerify = false ∧ s.challenged = 0 ∧ r.ok = true ∧ r.after.challenged = 1 ∧
        r.after.expected = expectedOf C s.A r.buffer r.after.key) ∨
      (s.challenged = 1 ∧ (∃ d key, c = .verify (some d) key ∧ d.length = 32 ∧ d = s.expected) ∧
        r.ok = true ∧ r.buffer = s.key) := by
  cases c with
  | challenge o args proof =>
    unfold srpStep SrpCall.run srpChallenge
    dsimp only
    by_cases h0 : s.challenged = 0
    · rw [if_neg (not_not.mpr h0)]
      cases args.check o with
      | none => exact Or.inl ⟨rfl, rfl⟩
      | some p =>
        dsimp only
        rcases srpCompute_cases (G := G) (C := C) (s := s) (o := o) proof p with
          ⟨t, ht, -⟩ | ⟨t, m, ht, h1, he⟩
        · rw [ht]
          exact Or.inl ⟨rfl, rfl⟩
        · rw [ht]
          exact Or.inr (Or.inl ⟨rfl, h0, rfl, h1, he⟩)
    · rw [if_pos h0]
      exact Or.inl ⟨rfl, rfl⟩
  | verify p key =>
    unfold srpStep SrpCall.run srpVerify
    dsimp only
    by_cases h1 : s.challenged = 1
    · rw [if_neg (not_not.mpr h1)]
      cases p with
      | none => exact Or.inl ⟨rfl, rfl⟩
      | some d =>
        dsimp only
        split_ifs with hd
        · exact Or.inl ⟨rfl, rfl⟩
        · rw [not_or, not_not, not_not] at hd
          exact Or.inr (Or.inr ⟨h1, ⟨d, key, rfl, hd.1, hd.2⟩, rfl, rfl⟩)
    · rw [if_pos h1]
      exact Or.inl ⟨rfl, rfl⟩

/-- A call that is no challenge that passes, and no verification after one, changes nothing. -/
theorem step_idle (c : SrpCall) (h : (srpStep G C s c).passed = false)
    (hv : c.isVerify = true → s.challenged ≠ 1) :
    (srpStep G C s c).ok = false ∧ (srpStep G C s c).after = s := by
  cases c with
  | challenge o args proof =>
    have h' : s.challenged = 0 → args.check o = none := fun h0 => by
      simpa [SrpRecord.passed, srpStep, h0, SrpCall.passes] using h
    unfold srpStep SrpCall.run srpChallenge
    dsimp only
    by_cases h0 : s.challenged = 0
    · rw [if_neg (not_not.mpr h0), h' h0]
      exact ⟨rfl, rfl⟩
    · rw [if_pos h0]
      exact ⟨rfl, rfl⟩
  | verify p key =>
    unfold srpStep SrpCall.run srpVerify
    dsimp only
    rw [if_pos (hv rfl)]
    exact ⟨rfl, rfl⟩

/-- A challenge that passes the checks ends the phase of the challenge. -/
theorem step_passed (c : SrpCall) (h : (srpStep G C s c).passed = true) :
    c.isVerify = false ∧
      (((srpStep G C s c).ok = false ∧ (srpStep G C s c).after.challenged = -1) ∨
        ((srpStep G C s c).ok = true ∧ (srpStep G C s c).after.challenged = 1)) := by
  cases c with
  | verify p key => simp [SrpRecord.passed, srpStep, SrpCall.passes] at h
  | challenge o args proof =>
    obtain ⟨h0, hc⟩ := (Bool.and_eq_true _ _).mp h
    obtain ⟨q, hq⟩ := Option.isSome_iff_exists.mp hc
    refine ⟨rfl, ?_⟩
    have hs : s.challenged = 0 := of_decide_eq_true h0
    unfold srpStep SrpCall.run srpChallenge
    dsimp only
    rw [if_neg (not_not.mpr hs), hq]
    dsimp only
    rcases srpCompute_cases (G := G) (C := C) (s := s) (o := o) proof q with
      ⟨t, ht, h1⟩ | ⟨t, m, ht, h1, -⟩
    · rw [ht]
      exact Or.inl ⟨rfl, h1⟩
    · rw [ht]
      exact Or.inr ⟨rfl, h1⟩

/-- A verification after a challenge is the last call that can succeed. -/
theorem step_verify (h : s.challenged = 1) (p : Option NSData) (key : NSData) :
    (srpStep G C s (.verify p key)).after.challenged = -1 := by
  unfold srpStep SrpCall.run srpVerify
  dsimp only
  rw [if_neg (not_not.mpr h)]
  cases p with
  | none => rfl
  | some d =>
    dsimp only
    split_ifs <;> rfl

theorem not_passed_of_ne (c : SrpCall) (h : s.challenged ≠ 0) : (srpStep G C s c).passed = false := by
  unfold SrpRecord.passed
  rw [show (srpStep G C s c).before.challenged = s.challenged from rfl, decide_eq_false h]
  rfl

end Step

/-! ### Runs -/

section Run

variable {G : SrpGroup} {C : Crypto} {s : AqSrp} {cs : List SrpCall} {pre post : List SrpRecord}
  {r : SrpRecord}

/-- Nothing succeeds any more. -/
theorem run_dead (h0 : s.challenged ≠ 0) (h1 : s.challenged ≠ 1) :
    ∀ r ∈ srpRun G C s cs, r.ok = false := by
  induction cs with
  | nil => exact fun r hr => absurd hr List.not_mem_nil
  | cons c cs ih =>
    obtain ⟨hok, hafter⟩ := step_idle (G := G) (C := C) c (not_passed_of_ne c h0) fun _ => h1
    intro r hr
    rw [srpRun, List.mem_cons] at hr
    rcases hr with rfl | hr
    · exact hok
    · rw [hafter] at hr
      exact ih r hr

theorem run_spent (h : s.challenged = -1) : ∀ r ∈ srpRun G C s cs, r.ok = false :=
  run_dead (by rw [h]; decide) (by rw [h]; decide)

/-- After a challenge: only the first verification can succeed, with what the object expects. -/
theorem run_ready (h : s.challenged = 1) (he : srpRun G C s cs = pre ++ r :: post) :
    (r.ok = true → (∀ q ∈ pre, q.call.isVerify = false) ∧
      (∃ d key, r.call = .verify (some d) key ∧ d.length = 32 ∧ d = s.expected) ∧ r.buffer = s.key) ∧
    (r.call.isVerify = true → ∀ q ∈ post, q.ok = false) := by
  induction cs generalizing pre with
  | nil => cases pre <;> cases he
  | cons c cs ih =>
    have h0 : s.challenged ≠ 0 := by rw [h]; decide
    rw [srpRun] at he
    cases pre with
    | nil =>
      obtain ⟨rfl, hpost⟩ := List.cons.inj he
      refine ⟨fun hok => ?_, fun hv q hq => ?_⟩
      · rcases run_cases (G := G) (C := C) (s := s) c with ⟨hno, -⟩ | ⟨-, h0', -⟩ | ⟨-, hd, -, hb⟩
        · rw [hno] at hok
          cases hok
        · exact absurd h0' h0
        · exact ⟨fun q hq => absurd hq List.not_mem_nil, hd, hb⟩
      · cases c with
        | challenge o args proof => cases hv
        | verify p key => exact run_spent (step_verify h p key) q (hpost ▸ hq)
    | cons q0 pre =>
      obtain ⟨rfl, hrest⟩ := List.cons.inj he
      cases c with
      | challenge o args proof =>
        have hafter := (step_idle (G := G) (C := C) (.challenge o args proof) (not_passed_of_ne _ h0)
          fun hv => by cases hv).2
        rw [hafter] at hrest
        obtain ⟨hok, hv⟩ := ih hrest
        refine ⟨fun h => ?_, hv⟩
        obtain ⟨hall, hd⟩ := hok h
        exact ⟨List.forall_mem_cons.mpr ⟨rfl, hall⟩, hd⟩
      | verify p key =>
        have hdead : ∀ q ∈ srpRun G C (srpStep G C s (.verify p key)).after cs, q.ok = false :=
          run_spent (step_verify h p key)
        rw [hrest] at hdead
        refine ⟨fun hok => ?_, fun _ q hq =>
          hdead q (List.mem_append_right _ (List.mem_cons_of_mem _ hq))⟩
        rw [hdead r (List.mem_append_right _ List.mem_cons_self)] at hok
        cases hok

/-- No challenge passes the checks behind one that did. -/
theorem run_not_passed (h : s.challenged ≠ 0) : ∀ r ∈ srpRun G C s cs, r.passed = false := by
  induction cs generalizing s with
  | nil => exact fun r hr => absurd hr List.not_mem_nil
  | cons c cs ih =>
    have hafter : (srpStep G C s c).after.challenged ≠ 0 := by
      by_cases hv : c.isVerify = true ∧ s.challenged = 1
      · cases c with
        | challenge o args proof => cases hv.1
        | verify p key =>
          rw [step_verify hv.2]
          decide
      · rw [(step_idle (G := G) (C := C) c (not_passed_of_ne c h) fun h1 h2 => hv ⟨h1, h2⟩).2]
        exact h
    intro r hr
    rw [srpRun, List.mem_cons] at hr
    rcases hr with rfl | hr
    · exact not_passed_of_ne c h
    · exact ih hafter r hr

theorem mem_run (h : r ∈ srpRun G C s cs) : ∃ t c, r = srpStep G C t c := by
  induction cs generalizing s with
  | nil => cases h
  | cons c cs ih =>
    rw [srpRun, List.mem_cons] at h
    rcases h with rfl | h
    · exact ⟨s, c, rfl⟩
    · exact ih h

/-- Up to the first challenge that passes nothing happens; behind it the object is spent or ready. -/
theorem run_fresh (h : s.challenged = 0) (he : srpRun G C s cs = pre ++ r :: post) :
    (r = srpStep G C s r.call ∧ ∃ cs', post = srpRun G C r.after cs') ∨
      ∃ pre' c mid cs', pre = pre' ++ c :: mid ∧ c.passed = true ∧ c = srpStep G C s c.call ∧
        srpRun G C c.after cs' = mid ++ r :: post := by
  induction cs generalizing pre with
  | nil => cases pre <;> cases he
  | cons c cs ih =>
    rw [srpRun] at he
    cases pre with
    | nil =>
      obtain ⟨rfl, hpost⟩ := List.cons.inj he
      exact Or.inl ⟨rfl, cs, hpost.symm⟩
    | cons q0 pre =>
      obtain ⟨rfl, hrest⟩ := List.cons.inj he
      by_cases hp : (srpStep G C s c).passed = true
      · exact Or.inr ⟨[], _, pre, cs, rfl, hp, rfl, hrest⟩
      · have hafter := (step_idle (G := G) (C := C) c (Bool.eq_false_iff.mpr hp)
          fun _ => by rw [h]; decide).2
        rw [hafter] at hrest
        rcases ih hrest with hb | ⟨pre', c', mid, cs', rfl, hp', hc', hrun⟩
        · exact Or.inl hb
        · exact Or.inr ⟨_ :: pre', c', mid, cs', rfl, hp', hc', hrun⟩

/-- What the calls on one object do. -/
structure OneShot (C : Crypto) (rs : List SrpRecord) : Prop where
  /-- The session key is written at most once. -/
  once : rs.countP (fun r => r.call.isVerify && r.ok) ≤ 1
  /-- It is that of a challenge before, for the proof that is expected after it. -/
  verified : ∀ pre r post, rs = pre ++ r :: post → r.call.isVerify = true → r.ok = true →
    ∃ pre' c mid, pre = pre' ++ c :: mid ∧ c.call.isVerify = false ∧ c.ok = true ∧
      (∀ q ∈ mid, q.call.isVerify = false) ∧
      c.after.expected = expectedOf C c.before.A c.buffer c.after.key ∧
      (∃ d key, r.call = .verify (some d) key ∧ d.length = 32 ∧ d = c.after.expected) ∧
      r.buffer = c.after.key
  /-- A challenge that passes the checks and fails is the end. -/
  failed : ∀ pre r post, rs = pre ++ r :: post → r.passed = true → r.ok = false →
    ∀ q ∈ post, q.ok = false
  /-- After one that succeeds, no other does and only the first verification can. -/
  succeeded : ∀ pre r post, rs = pre ++ r :: post → r.call.isVerify = false → r.ok = true →
    (∀ q ∈ post, q.call.isVerify = false → q.ok = false) ∧
      ∀ mid v post', post = mid ++ v :: post' → v.call.isVerify = true → ∀ q ∈ post', q.ok = false
  rejected : ∀ r ∈ rs, r.call.isVerify = false → r.passed = false → r.ok = false ∧ r.after = r.before
  /-- A call that fails leaves the caller's buffer. -/
  unchanged : ∀ r ∈ rs, r.ok = false → r.buffer = r.call.buffer

/-- Where every entry of a kind is the last of it, there is no other. -/
theorem countP_le_one {α : Type*} {P : α → Bool} {l : List α}
    (h : ∀ pre x post, l = pre ++ x :: post → P x = true → ∀ y ∈ post, P y = false) :
    l.countP P ≤ 1 := by
  induction l with
  | nil => exact Nat.zero_le 1
  | cons x l ih =>
    by_cases hx : P x = true
    · have hl := h [] x l rfl hx
      rw [List.countP_cons_of_pos hx, List.countP_eq_zero.mpr fun y hy => by simp [hl y hy]]
    · rw [List.countP_cons_of_neg hx]
      exact ih fun pre y post he => h (x :: pre) y post (by rw [he]; rfl)

/-- A challenge that passes, its result and the calls behind it. -/
theorem after_passed {c : SrpRecord} (hc : c = srpStep G C s c.call) (hp : c.passed = true) :
    c.call.isVerify = false ∧ ((c.ok = false ∧ c.after.challenged = -1) ∨
      (c.ok = true ∧ c.after.challenged = 1 ∧
        c.after.expected = expectedOf C c.before.A c.buffer c.after.key)) := by
  rw [hc] at hp
  obtain ⟨hv, hcases⟩ := step_passed c.call hp
  refine ⟨hv, ?_⟩
  rcases hcases with ⟨hok, hd⟩ | ⟨hok, h1⟩
  · exact Or.inl (by rw [hc]; exact ⟨hok, hd⟩)
  · have hcases := run_cases (G := G) (C := C) (s := s) c.call
    rw [← hc] at hok h1 hcases
    refine Or.inr ⟨hok, h1, ?_⟩
    rcases hcases with ⟨hno, -⟩ | ⟨-, -, -, -, he⟩ | ⟨-, hd, -⟩
    · rw [hno] at hok
      cases hok
    · rw [show c.before = s from congrArg SrpRecord.before hc]
      exact he
    · obtain ⟨d, key, hcall, -⟩ := hd
      rw [hcall] at hv
      cases hv

/-- A call that succeeds is a challenge that passes, or comes behind one that left the object ready. -/
theorem of_ok (h : s.challenged = 0) (he : srpRun G C s cs = pre ++ r :: post) (hok : r.ok = true) :
    (r = srpStep G C s r.call ∧ r.passed = true ∧ ∃ cs', post = srpRun G C r.after cs') ∨
      ∃ pre' c mid cs', pre = pre' ++ c :: mid ∧ c.passed = true ∧ c = srpStep G C s c.call ∧
        c.ok = true ∧ c.after.challenged = 1 ∧ srpRun G C c.after cs' = mid ++ r :: post := by
  rcases run_fresh h he with ⟨hr, hpost⟩ | ⟨pre', c, mid, cs', hpre, hp, hc, hrun⟩
  · refine Or.inl ⟨hr, ?_, hpost⟩
    by_contra hne
    rw [hr] at hne
    have hno := (step_idle r.call (Bool.eq_false_iff.mpr hne) fun _ => by rw [h]; decide).1
    rw [← hr, hok] at hno
    cases hno
  · refine Or.inr ⟨pre', c, mid, cs', hpre, hp, hc, ?_⟩
    rcases (after_passed hc hp).2 with ⟨-, hd⟩ | ⟨hcok, hready, -⟩
    · have hno := run_spent hd r (hrun ▸ List.mem_append_right _ List.mem_cons_self)
      rw [hok] at hno
      cases hno
    · exact ⟨hcok, hready, hrun⟩

/-- **An SRP exchange is one-shot.** -/
theorem srp_oneShot (G : SrpGroup) (C : Crypto) (s : AqSrp) (h : s.challenged = 0)
    (cs : List SrpCall) : OneShot C (srpRun G C s cs) where
  once := by
    refine countP_le_one fun pre r post he hr q hq => ?_
    obtain ⟨hv, hok⟩ := (Bool.and_eq_true _ _).mp hr
    rcases of_ok h he hok with ⟨hr', hp, -⟩ | ⟨pre', c, mid, cs', -, -, -, -, hready, hrun⟩
    · rw [(after_passed hr' hp).1] at hv
      cases hv
    · rw [(run_ready hready hrun).2 hv q hq, Bool.and_false]
  verified := by
    intro pre r post he hv hok
    rcases of_ok h he hok with ⟨hr, hp, -⟩ | ⟨pre', c, mid, cs', hpre, hp, hc, hcok, hready, hrun⟩
    · rw [(after_passed hr hp).1] at hv
      cases hv
    · obtain ⟨hall, hd, hb⟩ := (run_ready hready hrun).1 hok
      rcases after_passed hc hp with ⟨hcv, ⟨hno, -⟩ | ⟨-, -, hexp⟩⟩
      · rw [hcok] at hno
        cases hno
      · exact ⟨pre', c, mid, hpre, hcv, hcok, hall, hexp, hd, hb⟩
  failed := by
    intro pre r post he hp hok
    rcases run_fresh h he with ⟨hr, cs', hpost⟩ | ⟨pre', c, mid, cs', -, hp', hc, hrun⟩
    · rcases (after_passed hr hp).2 with ⟨-, hd⟩ | ⟨hno, -⟩
      · rw [hpost]
        exact run_spent hd
      · rw [hok] at hno
        cases hno
    · -- behind a challenge that passed no other does
      have hne : c.after.challenged ≠ 0 := by
        rcases (after_passed hc hp').2 with ⟨-, hd⟩ | ⟨-, hd, -⟩ <;> rw [hd] <;> decide
      have hno := run_not_passed hne r (hrun ▸ List.mem_append_right _ List.mem_cons_self)
      rw [hp] at hno
      cases hno
  succeeded := by
    intro pre r post he hv hok
    rcases of_ok h he hok with ⟨hr, hp, cs', hpost⟩ | ⟨pre', c, mid, cs', -, -, -, -, hready, hrun⟩
    · rcases (after_passed hr hp).2 with ⟨hno, -⟩ | ⟨-, hready, -⟩
      · rw [hok] at hno
        cases hno
      · rw [hpost]
        refine ⟨fun q hq hqv => ?_, fun mid v post' hm hvv => (run_ready hready hm).2 hvv⟩
        obtain ⟨l, t, hl⟩ := List.append_of_mem hq
        by_contra hqok
        obtain ⟨-, ⟨d, key, hcall, -⟩, -⟩ :=
          (run_ready hready hl).1 (Bool.not_eq_false _ ▸ hqok)
        rw [hcall] at hqv
        cases hqv
    · obtain ⟨-, ⟨d, key, hcall, -⟩, -⟩ := (run_ready hready hrun).1 hok
      rw [hcall] at hv
      cases hv
  rejected := by
    intro r hr hv hp
    obtain ⟨t, c, rfl⟩ := mem_run hr
    exact step_idle c hp fun hcv => by
      rw [show c.isVerify = false from hv] at hcv
      cases hcv
  unchanged := by
    intro r hr hok
    obtain ⟨t, c, rfl⟩ := mem_run hr
    rcases run_cases (G := G) (C := C) (s := t) c with ⟨-, hb⟩ | ⟨-, -, hno, -⟩ | ⟨-, -, hno, -⟩
    · exact hb
    all_goals
      rw [hok] at hno
      cases hno

end Run

/-- A verification too early, a challenge without a salt, a good one twice, and two verifications. -/
def sampleCalls : List SrpCall :=
  let args : ChallengeArgs :=
    ⟨some [], some [7], some (bytesOf "s2k"), some [1], 1, some [0, 10]⟩
  let one : NSData := List.replicate 31 0 ++ [1]
  [.verify (some one) [], .challenge {} { args with salt := none } [], .challenge {} args [],
    .challenge {} args [], .verify (some one) [], .verify (some one) []]

theorem srp_oneShot_sample :
    let rs := srpRun sampleGroup sampleCrypto (freshSrp sampleGroup 3) sampleCalls
    rs.countP (fun r => r.call.isVerify && r.ok) ≤ 1 ∧
      rs.map SrpRecord.ok = [false, false, true, false, true, false] :=
  ⟨(srp_oneShot sampleGroup sampleCrypto (freshSrp sampleGroup 3) rfl sampleCalls).once,
    by decide +kernel⟩

end AquaTransport
