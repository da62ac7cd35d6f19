import AquaTransport.Engine.ChainCache
import AquaTransport.Engine.ShadowTable

/-!
# AquaTransport.Engine.VerifyChain — runs of `verify_chain` over the chain cache

A call of `verify_chain` is up to four steps.  `verifyEnter` decides what needs no evaluation, and
`chain_ok_get` reads the clock; `verifyLook` is its look at the cache under the lock;
`verifyEvaluate` is the answer of `SecTrustEvaluate`; and `verifyRecord` is the `chain_ok_put` of a good
one, which reads the clock anew.  Calls of any number of threads interleave, time passes between any two
steps, and `log` keeps every answer, newest first.

`VerifyInv` says where each used entry of the cache comes from; with a collision-free hash over the
messages of the run, a hit is then on the host and chain that were accepted.
-/

namespace AquaTransport

open SlotTable

variable {D : Type}

/-- What `verify_chain` can say of a connection's peer. -/
structure Peer where
  server : Bool
  host : CString
  chain : List (Option Bytes)

/-- Where a call is between two of its steps. -/
inductive Stage (D : Type)
  /-- `chain_ok_get` has read the clock and waits for the lock. -/
  | asks (dg : D) (now : ℤ)
  /-- The digest is there when `haveDg`. -/
  | evaluates (dg : Option D)
  /-- `SecTrustEvaluate` accepted at `since`; `chain_ok_put` is to come. -/
  | records (dg : D) (since : ℤ)

structure Looking (D : Type) where
  peer : Peer
  stage : Stage D

def Stage.dg : Stage D → Option D
  | .asks dg _ => some dg
  | .evaluates dg => dg
  | .records dg _ => some dg

/-- The reading of the clock that a call carries. -/
def Stage.stamp : Stage D → Option ℤ
  | .asks _ now => some now
  | .evaluates _ => none
  | .records _ since => some since

inductive Verdict
  | unlooked
  | refused
  | cached
  | evaluated (ok : Bool)
  deriving DecidableEq

/-- An answer, given at `time`; `since` is when `SecTrustEvaluate` answered, or what `chain_ok_get`
read.  An acceptance with a digest is given when `chain_ok_put` has stamped it. -/
structure Answer where
  peer : Peer
  since : ℤ
  time : ℤ
  verdict : Verdict

structure VerifyState (D : Type) where
  cache : ChainOk D
  clock : ℤ := 0
  busy : Tid → Option (Looking D) := fun _ => none
  log : List Answer := []

inductive VerifyEvent
  | wait (t : ℤ)
  | enter (tid : Tid) (s : Shadow) (chain : List (Option Bytes))
  | look (tid : Tid)
  | evaluate (tid : Tid) (ok : Bool)
  | record (tid : Tid)

/-- The checks that `verify_chain` leaves to the caller. -/
def Shadow.unlooked (s : Shadow) : Bool := (!s.serverSide && s.breakAuth) || s.noCertVerify

def verifyPeer (s : Shadow) (chain : List (Option Bytes)) : Peer := ⟨s.serverSide, s.host, chain⟩

/-- `haveDg` with `dg`: a server hashes nothing. -/
def verifyDigest (sha : Bytes → D) (p : Peer) : Option D :=
  if p.server then none else chainOkDigest sha p.chain p.host

/-- The call ends. -/
def VerifyState.answer (st : VerifyState D) (tid : Tid) (p : Peer) (since : ℤ) (v : Verdict) :
    VerifyState D :=
  { st with
    busy := Function.update st.busy tid none
    log := ⟨p, since, st.clock, v⟩ :: st.log }

/-- The call goes on. -/
def VerifyState.stay (st : VerifyState D) (tid : Tid) (p : Peer) (stage : Stage D) : VerifyState D :=
  { st with busy := Function.update st.busy tid (some ⟨p, stage⟩) }

section Steps

variable [DecidableEq D]

/-- `verify_chain` up to the lock of `chain_ok_get`, or to its trust evaluation. -/
def verifyEnter (sha : Bytes → D) (st : VerifyState D) (tid : Tid) (s : Shadow)
    (chain : List (Option Bytes)) : VerifyState D :=
  if s.unlooked then st.answer tid (verifyPeer s chain) st.clock .unlooked
  else if chain = [] then st.answer tid (verifyPeer s chain) st.clock .refused
  else
    match verifyDigest sha (verifyPeer s chain) with
    | none => st.stay tid (verifyPeer s chain) (.evaluates none)
    | some dg => st.stay tid (verifyPeer s chain) (.asks dg st.clock)

/-- `chain_ok_get` under its lock. -/
def verifyLook (st : VerifyState D) (tid : Tid) (p : Peer) (dg : D) (now : ℤ) : VerifyState D :=
  match chainOkGet st.cache now dg with
  | (cache, true) => { st with cache := cache }.answer tid p now .cached
  | (cache, false) => { st with cache := cache }.stay tid p (.evaluates (some dg))

/-- `SecTrustEvaluate` answers. -/
def verifyEvaluate (st : VerifyState D) (tid : Tid) (p : Peer) (dg : Option D) (ok : Bool) :
    VerifyState D :=
  match dg, ok with
  | some dg, true => st.stay tid p (.records dg st.clock)
  | _, _ => st.answer tid p st.clock (.evaluated ok)

/-- `chain_ok_put`, and the return. -/
def verifyRecord (st : VerifyState D) (tid : Tid) (p : Peer) (dg : D) (since : ℤ) : VerifyState D :=
  { st with cache := chainOkPut st.cache st.clock dg }.answer tid p since (.evaluated true)

def verifyStep (sha : Bytes → D) (st : VerifyState D) : VerifyEvent → Option (VerifyState D)
  | .wait t => if st.clock ≤ t then some { st with clock := t } else none
  | .enter tid s chain => if (st.busy tid).isNone then some (verifyEnter sha st tid s chain) else none
  | .look tid =>
    match st.busy tid with
    | some ⟨p, .asks dg now⟩ => some (verifyLook st tid p dg now)
    | _ => none
  | .evaluate tid ok =>
    match st.busy tid with
    | some ⟨p, .evaluates dg⟩ => some (verifyEvaluate st tid p dg ok)
    | _ => none
  | .record tid =>
    match st.busy tid with
    | some ⟨p, .records dg since⟩ => some (verifyRecord st tid p dg since)
    | _ => none

section

variable {sha : Bytes → D} {st st' : VerifyState D} {tid : Tid}

theorem verifyStep_look : verifyStep sha st (.look tid) = some st' ↔
    ∃ p dg now, st.busy tid = some ⟨p, .asks dg now⟩ ∧ verifyLook st tid p dg now = st' := by
  simp only [verifyStep]
  constructor
  · intro h
    split at h
    next p dg now hb => exact ⟨p, dg, now, hb, Option.some.inj h⟩
    next => cases h
  · rintro ⟨p, dg, now, hb, rfl⟩
    rw [hb]

theorem verifyStep_evaluate {ok : Bool} : verifyStep sha st (.evaluate tid ok) = some st' ↔
    ∃ p dg, st.busy tid = some ⟨p, .evaluates dg⟩ ∧ verifyEvaluate st tid p dg ok = st' := by
  simp only [verifyStep]
  constructor
  · intro h
    split at h
    next p dg hb => exact ⟨p, dg, hb, Option.some.inj h⟩
    next => cases h
  · rintro ⟨p, dg, hb, rfl⟩
    rw [hb]

theorem verifyStep_record : verifyStep sha st (.record tid) = some st' ↔
    ∃ p dg since, st.busy tid = some ⟨p, .records dg since⟩ ∧
      verifyRecord st tid p dg since = st' := by
  simp only [verifyStep]
  constructor
  · intro h
    split at h
    next p dg since hb => exact ⟨p, dg, since, hb, Option.some.inj h⟩
    next => cases h
  · rintro ⟨p, dg, since, hb, rfl⟩
    rw [hb]

omit [DecidableEq D] in
/-- Up to the lock a call ends without the cache, or goes on with its digest; it does not touch the
cache. -/
theorem verifyEnter_cases (sha : Bytes → D) (st : VerifyState D) (tid : Tid) (s : Shadow)
    (chain : List (Option Bytes)) :
    (∃ v, verifyEnter sha st tid s chain = st.answer tid (verifyPeer s chain) st.clock v ∧
        v ≠ .cached) ∨
      ∃ stage, verifyEnter sha st tid s chain = st.stay tid (verifyPeer s chain) stage ∧
        stage.dg = verifyDigest sha (verifyPeer s chain) ∧
        ∀ t, stage.stamp = some t → t = st.clock := by
  unfold verifyEnter
  split_ifs
  · exact Or.inl ⟨_, rfl, by simp⟩
  · exact Or.inl ⟨_, rfl, by simp⟩
  · split
    next hd => exact Or.inr ⟨_, rfl, hd.symm, by simp [Stage.stamp]⟩
    next dg hd => exact Or.inr ⟨_, rfl, hd.symm, by simp [Stage.stamp]⟩

/-- Under the lock it answers on an unexpired entry for its digest, or goes on to the evaluation; the
cache loses at most an entry. -/
theorem verifyLook_cases (st : VerifyState D) (tid : Tid) (p : Peer) (dg : D) (now : ℤ) :
    ∃ cache, (cache.look = st.cache.look ∨ ∃ i, cache.look = Function.update st.cache.look i none) ∧
      ((verifyLook st tid p dg now = { st with cache := cache }.answer tid p now .cached ∧
          ∃ i w, st.cache.look i = some (dg, w) ∧ now - w ≤ CHAIN_OK_TTL) ∨
        verifyLook st tid p dg now = { st with cache := cache }.stay tid p (.evaluates (some dg))) := by
  unfold verifyLook
  split
  next cache hget =>
    obtain ⟨hl, hhit⟩ := chainOkGet_hit hget
    exact ⟨cache, Or.inl hl, Or.inl ⟨rfl, hhit⟩⟩
  next cache hget => exact ⟨cache, chainOkGet_miss hget, Or.inr rfl⟩

omit [DecidableEq D] in
theorem verifyEvaluate_cases (st : VerifyState D) (tid : Tid) (p : Peer) (dg : Option D) (ok : Bool) :
    verifyEvaluate st tid p dg ok = st.answer tid p st.clock (.evaluated ok) ∨
      ok = true ∧ ∃ d, dg = some d ∧
        verifyEvaluate st tid p dg ok = st.stay tid p (.records d st.clock) := by
  cases dg with
  | none => exact Or.inl rfl
  | some d =>
    cases ok with
    | false => exact Or.inl rfl
    | true => exact Or.inr ⟨rfl, d, rfl, rfl⟩

theorem verifyStep_evaluate_cache {ok : Bool} (hs : verifyStep sha st (.evaluate tid ok) = some st') :
    st'.cache = st.cache := by
  obtain ⟨p, dg, -, rfl⟩ := verifyStep_evaluate.mp hs
  obtain he | ⟨-, d, -, he⟩ := verifyEvaluate_cases st tid p dg ok <;> rw [he] <;> rfl

/-- A failed evaluation ends the call. -/
theorem verifyStep_evaluate_false (hs : verifyStep sha st (.evaluate tid false) = some st') :
    st'.busy tid = none := by
  obtain ⟨p, dg, -, rfl⟩ := verifyStep_evaluate.mp hs
  obtain he | ⟨hok, -⟩ := verifyEvaluate_cases st tid p dg false
  · rw [he]
    exact Function.update_self ..
  · cases hok

/-- Up to the lock no answer is from the cache. -/
theorem verifyStep_enter_log {s : Shadow} {chain : List (Option Bytes)}
    (hs : verifyStep sha st (.enter tid s chain) = some st') :
    st'.cache = st.cache ∧ ∀ a ∈ st'.log, a ∈ st.log ∨ a.verdict ≠ .cached := by
  simp only [verifyStep] at hs
  split_ifs at hs
  obtain rfl := Option.some.inj hs
  obtain ⟨v, he, hv⟩ | ⟨stage, he, -⟩ := verifyEnter_cases sha st tid s chain
  · rw [he]
    exact ⟨rfl, fun a ha => (List.mem_cons.mp ha).elim (fun h => Or.inr (by simp [h, hv])) Or.inl⟩
  · rw [he]
    exact ⟨rfl, fun a ha => Or.inl ha⟩

end

end Steps

/-! ### What a run presents -/

/-- A call of the run was made for this peer. -/
def Presented (evs : List VerifyEvent) (p : Peer) : Prop :=
  ∃ tid s, .enter tid s p.chain ∈ evs ∧ s.host = p.host ∧ s.serverSide = p.server

/-- The messages that the run hashes. -/
def messages (evs : List VerifyEvent) : Set Bytes :=
  {m | ∃ p ders, Presented evs p ∧ p.server = false ∧ encodings p.chain = some ders ∧
    m = hashInput p.host ders}

/-- The certificate encodings of the run. -/
def certs (evs : List VerifyEvent) : Set Bytes := {b | ∃ p, Presented evs p ∧ some b ∈ p.chain}

/-- The bytes that are hashed for a call tell its host and its chain. -/
theorem hashed_inj {evs : List VerifyEvent} (hder : PrefixFree (certs evs)) {p q : Peer}
    {ds es : List Bytes} (hp : Presented evs p) (hq : Presented evs q)
    (hds : encodings p.chain = some ds) (hes : encodings q.chain = some es)
    (hm : hashInput p.host ds = hashInput q.host es) : p.host = q.host ∧ p.chain = q.chain := by
  obtain ⟨hpc, hpne⟩ := encodings_eq hds
  obtain ⟨hqc, hqne⟩ := encodings_eq hes
  obtain ⟨hh, hde⟩ := hashInput_inj hder (fun d hd => ⟨p, hp, by simp [hpc, hd]⟩)
    (fun d hd => ⟨q, hq, by simp [hqc, hd]⟩) hpne hqne hm
  exact ⟨hh, by rw [hpc, hqc, hde]⟩

/-- On the run's own messages and encodings, a digest stands for one host and one chain. -/
theorem verifyDigest_inj {sha : Bytes → D} {evs : List VerifyEvent}
    (hsha : Set.InjOn sha (messages evs)) (hder : PrefixFree (certs evs)) {p q : Peer} {dg : D}
    (hp : Presented evs p) (hq : Presented evs q) (hpd : verifyDigest sha p = some dg)
    (hqd : verifyDigest sha q = some dg) : p = q ∧ p.server = false := by
  have key : ∀ r, Presented evs r → verifyDigest sha r = some dg →
      r.server = false ∧ ∃ ders, encodings r.chain = some ders ∧ sha (hashInput r.host ders) = dg := by
    intro r _ hr
    unfold verifyDigest chainOkDigest at hr
    split_ifs at hr with h1
    obtain ⟨ders, hd, hs⟩ := Option.map_eq_some_iff.mp hr
    exact ⟨by simpa using h1, ders, hd, hs⟩
  obtain ⟨hps, ds, hds, hpm⟩ := key p hp hpd
  obtain ⟨hqs, es, hes, hqm⟩ := key q hq hqd
  have hm := hsha ⟨p, ds, hp, hps, hds, rfl⟩ ⟨q, es, hq, hqs, hes, rfl⟩ (hpm.trans hqm.symm)
  obtain ⟨hhost, hchain⟩ := hashed_inj hder hp hq hds hes hm
  refine ⟨?_, hps⟩
  obtain ⟨ps, ph, pc⟩ := p
  obtain ⟨qs, qh, qc⟩ := q
  dsimp only at hps hqs hhost hchain
  rw [hps, hqs, hhost, hchain]

/-! ### The invariant -/

def Answer.Accepted (a : Answer) : Prop := a.verdict = .evaluated true ∧ a.peer.server = false

/-- An answer from the cache goes back to an acceptance of the same peer, which was recorded at most 600
seconds before the clock was read for it. -/
def CacheRule (past : List Answer) (a : Answer) : Prop :=
  a.verdict = .cached → ∃ b ∈ past, b.Accepted ∧ b.peer = a.peer ∧ a.since - b.time ≤ CHAIN_OK_TTL

structure VerifyInv (sha : Bytes → D) (evs : List VerifyEvent) (st : VerifyState D) : Prop where
  clock : ∀ a ∈ st.log, a.since ≤ a.time ∧ a.time ≤ st.clock
  unique : UniqueKeys st.cache.keys
  sourced : ∀ i d w, st.cache.look i = some (d, w) → ∃ a ∈ st.log, a.Accepted ∧ a.time = w ∧
    Presented evs a.peer ∧ verifyDigest sha a.peer = some d
  busy : ∀ tid w, st.busy tid = some w → Presented evs w.peer ∧
    (∀ d, w.stage.dg = some d → verifyDigest sha w.peer = some d) ∧
    ∀ t, w.stage.stamp = some t → t ≤ st.clock
  log : Along (fun past a => CacheRule past a ∧ ∀ b ∈ past, b.time ≤ a.time) st.log

namespace VerifyInv

variable [DecidableEq D] {sha : Bytes → D} {evs : List VerifyEvent} {st : VerifyState D}

omit [DecidableEq D] in
theorem init {cache : ChainOk D} (h : ∀ i, cache.look i = none) :
    VerifyInv sha evs { cache := cache } where
  clock := by simp
  unique := by
    intro i j k hi
    simp [ChainOk.keys, h] at hi
  sourced := by simp [h]
  busy := by simp
  log := trivial

omit [DecidableEq D] in
/-- Any answer that is not from the cache may be given, if it does not touch the cache. -/
theorem answer (h : VerifyInv sha evs st) {tid : Tid} {p : Peer} {since : ℤ} {v : Verdict}
    (hsince : since ≤ st.clock)
    (hv : v = .cached → ∃ b ∈ st.log, b.Accepted ∧ b.peer = p ∧ since - b.time ≤ CHAIN_OK_TTL) :
    VerifyInv sha evs (st.answer tid p since v) := by
  refine ⟨?_, h.unique, ?_, ?_, ⟨hv, fun b hb => (h.clock b hb).2⟩, h.log⟩
  · intro a ha
    rcases List.mem_cons.mp ha with rfl | ha
    · exact ⟨hsince, le_rfl⟩
    · exact h.clock a ha
  · intro i d w hi
    obtain ⟨a, ha, hr⟩ := h.sourced i d w hi
    exact ⟨a, List.mem_cons_of_mem _ ha, hr⟩
  · intro t w hw
    rcases update_eq_some_iff.mp hw with ⟨-, h'⟩ | ⟨-, h'⟩
    · cases h'
    · exact h.busy t w h'

omit [DecidableEq D] in
theorem stay (h : VerifyInv sha evs st) {tid : Tid} {p : Peer} {stage : Stage D}
    (hp : Presented evs p) (hdg : ∀ d, stage.dg = some d → verifyDigest sha p = some d)
    (hstamp : ∀ t, stage.stamp = some t → t ≤ st.clock) :
    VerifyInv sha evs (st.stay tid p stage) := by
  refine ⟨h.clock, h.unique, h.sourced, ?_, h.log⟩
  intro t w hw
  rcases update_eq_some_iff.mp hw with ⟨-, h'⟩ | ⟨-, h'⟩
  · obtain rfl := Option.some.inj h'
    exact ⟨hp, hdg, hstamp⟩
  · exact h.busy t w h'

omit [DecidableEq D] in
/-- The cache may lose entries. -/
theorem shrink (h : VerifyInv sha evs st) {cache : ChainOk D}
    (hc : cache.look = st.cache.look ∨ ∃ i, cache.look = Function.update st.cache.look i none) :
    VerifyInv sha evs { st with cache := cache } := by
  refine ⟨h.clock, ?_, ?_, h.busy, h.log⟩
  · rcases hc with hc | ⟨i, hc⟩
    · have : cache.keys = st.cache.keys := by
        funext j
        simp only [ChainOk.keys, hc]
      rw [this]
      exact h.unique
    · rw [ChainOk.keys_update hc]
      exact h.unique.clear i
  · intro i d w hi
    refine h.sourced i d w ?_
    rcases hc with hc | ⟨j, hc⟩
    · rw [← hc]
      exact hi
    · dsimp only at hi
      rw [hc] at hi
      by_cases hij : i = j
      · subst hij; simp at hi
      · rwa [Function.update_of_ne hij] at hi

omit [DecidableEq D] in
theorem enter (h : VerifyInv sha evs st) {tid : Tid} {s : Shadow} {chain : List (Option Bytes)}
    (hmem : .enter tid s chain ∈ evs) : VerifyInv sha evs (verifyEnter sha st tid s chain) := by
  obtain ⟨v, he, hv⟩ | ⟨stage, he, hd, hstamp⟩ := verifyEnter_cases sha st tid s chain
  · rw [he]
    exact h.answer le_rfl fun hc => absurd hc hv
  · rw [he]
    exact h.stay ⟨tid, s, hmem, rfl, rfl⟩ (fun d hs => hd ▸ hs) fun t ht => (hstamp t ht).le

theorem look (h : VerifyInv sha evs st) (hsha : Set.InjOn sha (messages evs))
    (hder : PrefixFree (certs evs)) {tid : Tid} {p : Peer} {dg : D} {now : ℤ}
    (hw : st.busy tid = some ⟨p, .asks dg now⟩) : VerifyInv sha evs (verifyLook st tid p dg now) := by
  obtain ⟨hp, hdg, hstamp⟩ := h.busy tid _ hw
  obtain ⟨cache, hc, ⟨he, i, w, hi, ht⟩ | he⟩ := verifyLook_cases st tid p dg now
  · -- the entry that was hit was recorded for a peer with this digest: for this peer
    obtain ⟨a, ha, hacc, rfl, hpa, hda⟩ := h.sourced i dg w hi
    rw [he]
    refine (h.shrink hc).answer (hstamp now rfl) fun _ => ⟨a, ha, hacc, ?_, ht⟩
    exact (verifyDigest_inj hsha hder hpa hp hda (hdg dg rfl)).1
  · rw [he]
    exact (h.shrink hc).stay hp hdg (by simp [Stage.stamp])

omit [DecidableEq D] in
theorem evaluate (h : VerifyInv sha evs st) {tid : Tid} {p : Peer} {dg : Option D}
    (hw : st.busy tid = some ⟨p, .evaluates dg⟩) (ok : Bool) :
    VerifyInv sha evs (verifyEvaluate st tid p dg ok) := by
  obtain ⟨hp, hdg, -⟩ := h.busy tid _ hw
  obtain he | ⟨-, d, rfl, he⟩ := verifyEvaluate_cases st tid p dg ok
  · rw [he]
    exact h.answer le_rfl (by simp)
  · rw [he]
    exact h.stay hp hdg fun t ht => (Option.some.inj ht).ge

/-- The entry is stamped with the time of the answer that goes into the log. -/
theorem record (h : VerifyInv sha evs st) {tid : Tid} {p : Peer} {dg : D} {since : ℤ}
    (hw : st.busy tid = some ⟨p, .records dg since⟩) :
    VerifyInv sha evs (verifyRecord st tid p dg since) := by
  obtain ⟨hp, hdg, hstamp⟩ := h.busy tid _ hw
  have hans : VerifyInv sha evs (st.answer tid p since (.evaluated true)) :=
    h.answer (hstamp since rfl) (by simp)
  have hclient : p.server = false := by
    have hd := hdg dg rfl
    unfold verifyDigest at hd
    split_ifs at hd with hs
    simpa using hs
  refine ⟨hans.clock, ?_, ?_, hans.busy, hans.log⟩
  · show UniqueKeys (chainOkPut st.cache st.clock dg).keys
    rw [ChainOk.keys_update (chainOkPut_look st.cache st.clock dg)]
    exact h.unique.put st.cache.age dg
  · intro i d t hi
    replace hi : (chainOkPut st.cache st.clock dg).look i = some (d, t) := hi
    rw [chainOkPut_look] at hi
    rcases update_eq_some_iff.mp hi with ⟨-, hi⟩ | ⟨-, hi⟩
    · obtain ⟨rfl, rfl⟩ := Prod.mk.inj (Option.some.inj hi)
      exact ⟨⟨p, since, st.clock, .evaluated true⟩, List.mem_cons_self, ⟨rfl, hclient⟩, rfl, hp,
        hdg dg rfl⟩
    · exact hans.sourced i d t hi

theorem step (h : VerifyInv sha evs st) (hsha : Set.InjOn sha (messages evs))
    (hder : PrefixFree (certs evs)) {ev : VerifyEvent} {st' : VerifyState D} (hmem : ev ∈ evs)
    (hs : verifyStep sha st ev = some st') : VerifyInv sha evs st' := by
  cases ev with
  | wait t =>
    simp only [verifyStep] at hs
    split_ifs at hs with ht
    obtain rfl := Option.some.inj hs
    refine ⟨fun a ha => ⟨(h.clock a ha).1, (h.clock a ha).2.trans ht⟩, h.unique, h.sourced, ?_, h.log⟩
    intro tid w hw
    obtain ⟨hp, hdg, hstamp⟩ := h.busy tid w hw
    exact ⟨hp, hdg, fun x hx => (hstamp x hx).trans ht⟩
  | enter tid s chain =>
    simp only [verifyStep] at hs
    split_ifs at hs
    obtain rfl := Option.some.inj hs
    exact h.enter hmem
  | look tid =>
    obtain ⟨p, dg, now, hw, rfl⟩ := verifyStep_look.mp hs
    exact h.look hsha hder hw
  | evaluate tid ok =>
    obtain ⟨p, dg, hw, rfl⟩ := verifyStep_evaluate.mp hs
    exact h.evaluate hw ok
  | record tid =>
    obtain ⟨p, dg, since, hw, rfl⟩ := verifyStep_record.mp hs
    exact h.record hw

/-- A server's call has no digest to look for or to record. -/
theorem server_apart (h : VerifyInv sha evs st) {tid : Tid} {w : Looking D} (hw : st.busy tid = some w)
    (hserver : w.peer.server = true) :
    verifyStep sha st (.look tid) = none ∧ verifyStep sha st (.record tid) = none := by
  have hno : w.stage.dg = none := by
    by_contra hne
    obtain ⟨d, hd⟩ := Option.ne_none_iff_exists'.mp hne
    have hdg := (h.busy tid w hw).2.1 d hd
    simp [verifyDigest, hserver] at hdg
  constructor
  · by_contra hne
    obtain ⟨st', hs⟩ := Option.ne_none_iff_exists'.mp hne
    obtain ⟨p, dg, now, hw', -⟩ := verifyStep_look.mp hs
    obtain rfl := Option.some.inj (hw.symm.trans hw')
    cases hno
  · by_contra hne
    obtain ⟨st', hs⟩ := Option.ne_none_iff_exists'.mp hne
    obtain ⟨p, dg, since, hw', -⟩ := verifyStep_record.mp hs
    obtain rfl := Option.some.inj (hw.symm.trans hw')
    cases hno

omit [DecidableEq D] in
/-- Where an answer from the cache comes from. -/
theorem cached (h : VerifyInv sha evs st) {later past : List Answer} {a : Answer}
    (hl : st.log = later ++ a :: past) (hv : a.verdict = .cached) :
    ∃ b ∈ past, b.verdict = .evaluated true ∧ b.peer.server = false ∧ b.peer = a.peer ∧
      b.since ≤ b.time ∧ b.time ≤ a.time ∧ a.since ≤ a.time ∧ a.since - b.time ≤ 600 := by
  obtain ⟨hrule, htime⟩ := along_iff.mp h.log later a past hl
  obtain ⟨b, hb, ⟨h1, h2⟩, hp, ht⟩ := hrule hv
  have ha : a ∈ st.log := by simp [hl]
  have hb' : b ∈ st.log := by simp [hl, hb]
  exact ⟨b, hb, h1, h2, hp, (h.clock b hb').1, htime b hb, (h.clock a ha).1, ht⟩

end VerifyInv

/-- **Verified-chain cache.**  In every run of `verify_chain` calls by any connections, with a hash
that is collision-free on the run's messages and certificates that mark their own ends: an answer
from the cache is given to a client, and goes back to an acceptance of a client with the same host and
the same certificates that was recorded at most 600 seconds before `chain_ok_get` read the clock; a
failed evaluation ends the call and leaves the cache as it was; a server's call neither looks in the
cache nor changes it; the hashed bytes determine host and chain; and no digest is in two used
entries. -/
theorem chain_cache_sound [DecidableEq D] {sha : Bytes → D} {cache : ChainOk D}
    (hempty : ∀ i, cache.look i = none) {evs : List VerifyEvent} {st : VerifyState D}
    (hsha : Set.InjOn sha (messages evs)) (hder : PrefixFree (certs evs))
    (h : Path (fun s e t => verifyStep sha s e = some t) { cache := cache } evs st) :
    (∀ later a past, st.log = later ++ a :: past → a.verdict = .cached →
      ∃ b ∈ past, b.verdict = .evaluated true ∧ b.peer.server = false ∧ b.peer = a.peer ∧
        b.since ≤ b.time ∧ b.time ≤ a.time ∧ a.since ≤ a.time ∧ a.since - b.time ≤ 600) ∧
    (∀ tid st', verifyStep sha st (.evaluate tid false) = some st' →
      st'.cache = st.cache ∧ st'.busy tid = none) ∧
    (∀ tid s chain st', s.serverSide = true → verifyStep sha st (.enter tid s chain) = some st' →
      st'.cache = st.cache ∧ ∀ a ∈ st'.log, a ∈ st.log ∨ a.verdict ≠ .cached) ∧
    (∀ tid w, st.busy tid = some w → w.peer.server = true →
      verifyStep sha st (.look tid) = none ∧ verifyStep sha st (.record tid) = none ∧
        ∀ ok st', verifyStep sha st (.evaluate tid ok) = some st' → st'.cache = st.cache) ∧
    (∀ p q ds es, Presented evs p → Presented evs q → encodings p.chain = some ds →
      encodings q.chain = some es → hashInput p.host ds = hashInput q.host es →
      p.host = q.host ∧ p.chain = q.chain) ∧
    (∀ i j, (st.cache.gChainOk i).used = true → (st.cache.gChainOk j).used = true →
      (st.cache.gChainOk i).dg = (st.cache.gChainOk j).dg → i = j) := by
  have hi : VerifyInv sha evs st :=
    h.invariant_mem (fun s e t he hs hst => hs.step hsha hder he hst) (VerifyInv.init hempty)
  refine ⟨fun later a past hl hv => hi.cached hl hv, fun tid st' hs =>
    ⟨verifyStep_evaluate_cache hs, verifyStep_evaluate_false hs⟩, fun tid s chain st' _ hs =>
    verifyStep_enter_log hs, fun tid w hw hserver => ?_, fun p q ds es hp hq hds hes hm =>
    hashed_inj hder hp hq hds hes hm, fun i j hui huj hd => ?_⟩
  · obtain ⟨hlook, hrecord⟩ := hi.server_apart hw hserver
    exact ⟨hlook, hrecord, fun ok st' hs => verifyStep_evaluate_cache hs⟩
  · refine hi.unique i j (st.cache.gChainOk i).dg ?_ ?_
    · simp [ChainOk.keys, ChainOk.look, hui]
    · simp [ChainOk.keys, ChainOk.look, huj, hd]

/-- A chain is accepted and recorded a second later; 600 seconds after that another thread reads the
clock, and looks in the cache in the next second. -/
def cacheRun : List VerifyEvent :=
  [.enter 1 {} [some [48]], .look 1, .evaluate 1 true, .wait 1, .record 1, .wait 601,
    .enter 2 {} [some [48]], .wait 602, .look 2]

/-- The cache at the start of the process. -/
def noChains : ChainOk Bytes := { gChainOk := fun _ => { dg := [] } }

theorem cacheRun_certs : ∀ b ∈ certs cacheRun, b = [48] := by
  rintro b ⟨p, ⟨tid, s, hm, -⟩, hb⟩
  simp only [cacheRun, List.mem_cons, VerifyEvent.enter.injEq, reduceCtorEq, List.not_mem_nil,
    or_false, false_or] at hm
  rcases hm with ⟨-, -, hc⟩ | ⟨-, -, hc⟩ <;> simpa [hc] using hb

theorem cacheRun_prefixFree : PrefixFree (certs cacheRun) := by
  intro a ha b hb _
  rw [cacheRun_certs a ha, cacheRun_certs b hb]

theorem cacheRun_isSome : (exec (verifyStep id) { cache := noChains } cacheRun).isSome := by
  decide

theorem chain_cache_sound_cacheRun :
    ∃ st, Path (fun s e t => verifyStep id s e = some t) { cache := noChains } cacheRun st ∧
      ∃ a past, st.log = a :: past ∧ a.verdict = .cached ∧
        ∃ b ∈ past, b.verdict = .evaluated true ∧ b.peer.server = false ∧ b.peer = a.peer ∧
          b.since ≤ b.time ∧ b.time ≤ a.time ∧ a.since ≤ a.time ∧ a.since - b.time ≤ 600 := by
  have hp := exec_path_get cacheRun_isSome
  have hsound := (chain_cache_sound (by simp [ChainOk.look, noChains]) (Set.injOn_id _)
    cacheRun_prefixFree hp).1
  generalize hst : (exec (verifyStep id) { cache := noChains } cacheRun).get cacheRun_isSome = st at *
  have hv : (st.log.head?.map Answer.verdict) = some .cached := by
    rw [← hst]
    decide +kernel
  refine ⟨st, hp, ?_⟩
  cases hl : st.log with
  | nil => simp [hl] at hv
  | cons a past =>
    have ha : a.verdict = .cached := by simpa [hl] using hv
    exact ⟨a, past, rfl, ha, hsound [] a past hl ha⟩

/-- The answer from the cache comes 602 seconds after `SecTrustEvaluate` accepted. -/
theorem cached_late : ¬ ∀ (evs : List VerifyEvent) (st : VerifyState Bytes),
    Path (fun s e t => verifyStep id s e = some t) { cache := noChains } evs st →
    PrefixFree (certs evs) → ∀ later a past, st.log = later ++ a :: past → a.verdict = .cached →
      ∃ b ∈ past, b.verdict = .evaluated true ∧ a.time - b.since ≤ 600 := by
  intro h
  have hp := exec_path_get cacheRun_isSome
  have hlog : ((exec (verifyStep id) { cache := noChains } cacheRun).get cacheRun_isSome).log.map
      (fun a => (a.verdict, a.since, a.time)) =
        [(.cached, 601, 602), (.evaluated true, 0, 1)] := by
    decide +kernel
  have hlate := h _ _ hp cacheRun_prefixFree
  generalize (exec (verifyStep id) { cache := noChains } cacheRun).get cacheRun_isSome = st at *
  obtain ⟨a, past, hl, ha, hpast⟩ := List.map_eq_cons_iff.mp hlog
  obtain ⟨b, hb, hv, ht⟩ := hlate [] a past hl (congrArg Prod.fst ha)
  have hb' := List.mem_map_of_mem (f := fun a : Answer => (a.verdict, a.since, a.time)) hb
  rw [hpast, List.mem_singleton] at hb'
  simp only [Prod.mk.injEq] at ha hb'
  omega

end AquaTransport
