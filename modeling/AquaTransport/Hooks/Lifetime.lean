import AquaTransport.Engine.TableView

/-!
# AquaTransport.Hooks.Lifetime — contexts, their addresses, and the shadows under them

The table is keyed by the context's address, and the allocator may give the address of a dead
context to a new one.  Each context created gets an incarnation number; a shadow carries the
incarnation whose hook call created it and those whose calls wrote into it.  Hook calls of any
number of threads interleave, one critical section or one write at a time; `lastRelease` is CF
calling `my_SSLContextFinalize`, whose last section is the original finalizer giving the address
back.

`Turns` is what the calls in progress satisfy: only the finalizer works on a context whose last
release has come.  `Inv` adds the table: every entry carries only the incarnation now at its
address, so what `sh_get` and `sh_create` return carries only the caller's own.
-/

namespace AquaTransport.Lifetime

open AquaTransport

/-- The entry points that reach the table, with what their sections depend on. -/
inductive Hook
  | createContext (server datagram : Bool)
  | newContext (server : Bool)
  | setIOFuncs
  | setConnection
  | setPeerDomainName
  | setPeerID
  | setClientSideAuthenticate (ok : Bool)
  | setSessionOption (onServerAuth onClientAuth ok : Bool)
  | setEnableCertVerify
  | setCertificate
  | handshake
  | read
  | write
  | getter
  | close
  | dispose

/-- One critical section, or the end of the original finalizer, after which the address is free. -/
inductive Sec
  | get
  | create
  | release
  | free
  | destroy
  deriving DecidableEq

/-- The sections of each hook, in order.  `ready` is `ensure_ready() == 1`, `on` is `tf_on()`. -/
def Hook.sections (ready on : Bool) : Hook → List Sec
  | .createContext server datagram =>
    if server && ready then
      [.create, .release] ++ if datagram then [.get, .release] else []
    else []
  | .newContext server => if server && ready then [.create, .release] else []
  | .setIOFuncs | .setConnection | .setPeerDomainName | .setPeerID | .setEnableCertVerify
  | .setCertificate => if on && ready then [.create, .release] else []
  | .setClientSideAuthenticate ok => if on && ready && ok then [.create, .release] else []
  | .setSessionOption onServerAuth onClientAuth ok =>
    (if on && ready && onServerAuth then [.create, .release] else []) ++
      if ok && on && ready && onClientAuth then [.create, .release] else []
  | .handshake | .read | .write | .getter => if on then [.get, .release] else []
  | .close => if on then [.get, .release, .free] else []
  | .dispose => if on then [.free] else []

/-- `my_SSLContextFinalize`; `debug` is `tf_debug()`. -/
def finalizer (debug : Bool) : List Sec :=
  (if debug then [.get, .release] else []) ++ [.free, .destroy]

/-- A call in progress on a thread: the context, its incarnation, the sections to come, and what
`sh_get` and `sh_create` returned to it and it has not released. -/
structure Work where
  ctx : Ctx
  inc : ℕ
  todo : List Sec
  holding : List (Option Sid) := []

/-- What a shadow carries: whose call created it, and whose calls wrote into it. -/
structure Carried where
  creator : ℕ
  writers : List ℕ := []
  deriving DecidableEq

/-- Everything in the shadow comes from one incarnation. -/
def Carried.Only (b : Carried) (inc : ℕ) : Prop := b.creator = inc ∧ ∀ i ∈ b.writers, i = inc

structure State where
  conc : Conc Carried := {}
  /-- The incarnation of the context at an address. -/
  live : Ctx → Option ℕ := fun _ => none
  /-- The context's last release has come. -/
  ended : Ctx → Bool := fun _ => false
  nextInc : ℕ := 0
  work : Tid → Option Work := fun _ => none
  /-- Every shadow that `sh_get` or `sh_create` returned: the incarnation it was returned for, and
  what it carried then. -/
  got : List (ℕ × Carried) := []

/-- What a section returned, as an entry of `got`. -/
def gotEntry (inc : ℕ) (conc : Conc Carried) (r : Option Sid) : List (ℕ × Carried) :=
  ((r.bind conc.tab.look).map fun p => (inc, p.2)).toList

/-- A section that returns a shadow, or `NULL`, to the call. -/
def handOver (st : State) (tid : Tid) (w : Work) (rest : List Sec)
    (r : Conc Carried × Option Sid) : State :=
  { st with
    conc := r.1
    work := Function.update st.work tid
      (some { w with todo := rest, holding := r.2 :: w.holding })
    got := gotEntry w.inc r.1 r.2 ++ st.got }

/-- Thread `tid` runs the section `sec` of the call `w`, whose later sections are `rest`. -/
def runSec (ready : Bool) (st : State) (tid : Tid) (w : Work) (rest : List Sec) (alloc : Bool) :
    Sec → State
  | .get => handOver st tid w rest (st.conc.get tid ready w.ctx)
  | .create => handOver st tid w rest (st.conc.create tid alloc ⟨w.inc, []⟩ w.ctx)
  | .release =>
    { st with
      conc := match w.holding with
        | some s :: _ => st.conc.release tid s
        | _ => st.conc
      work := Function.update st.work tid
        (some { w with todo := rest, holding := w.holding.tail }) }
  | .free =>
    { st with
      conc := st.conc.free ready w.ctx
      work := Function.update st.work tid (some { w with todo := rest }) }
  | .destroy =>
    { st with
      live := Function.update st.live w.ctx none
      ended := Function.update st.ended w.ctx false
      work := Function.update st.work tid none }

inductive Event
  | alloc (c : Ctx)
  | call (tid : Tid) (c : Ctx) (on : Bool) (hook : Hook)
  | sec (tid : Tid) (alloc : Bool)
  | write (tid : Tid) (s : Sid)
  | done (tid : Tid)
  | lastRelease (tid : Tid) (c : Ctx) (debug : Bool)
  | freeMem (s : Sid)

/-- One step of the process.  A call is made only on a live context whose last release has not
come, and that release comes only when no call is in progress on the context. -/
inductive Step (ready : Bool) : State → Event → State → Prop
  /-- The native `SSLCreateContext` or `SSLNewContext` takes a free address. -/
  | alloc {st : State} {c : Ctx} (free : st.live c = none) :
      Step ready st (.alloc c)
        { st with
          live := Function.update st.live c (some st.nextInc)
          nextInc := st.nextInc + 1 }
  | call {st : State} {tid : Tid} {c : Ctx} {on : Bool} {hook : Hook} {inc : ℕ}
      (idle : st.work tid = none) (live : st.live c = some inc) (held : st.ended c = false) :
      Step ready st (.call tid c on hook)
        { st with work := Function.update st.work tid (some ⟨c, inc, hook.sections ready on, []⟩) }
  | sec {st : State} {tid : Tid} {alloc : Bool} {w : Work} {s : Sec} {rest : List Sec}
      (busy : st.work tid = some w) (todo : w.todo = s :: rest) :
      Step ready st (.sec tid alloc) (runSec ready st tid w rest alloc s)
  | write {st : State} {tid : Tid} {w : Work} {s : Sid} (busy : st.work tid = some w)
      (holds : some s ∈ w.holding) :
      Step ready st (.write tid s)
        { st with conc := st.conc.write s fun b => { b with writers := w.inc :: b.writers } }
  | done {st : State} {tid : Tid} {w : Work} (busy : st.work tid = some w) (todo : w.todo = []) :
      Step ready st (.done tid) { st with work := Function.update st.work tid none }
  | lastRelease {st : State} {tid : Tid} {c : Ctx} {debug : Bool} {inc : ℕ}
      (idle : st.work tid = none) (live : st.live c = some inc) (held : st.ended c = false)
      (quiet : ∀ tid' w, st.work tid' = some w → w.ctx ≠ c) :
      Step ready st (.lastRelease tid c debug)
        { st with
          ended := Function.update st.ended c true
          work := Function.update st.work tid (some ⟨c, inc, finalizer debug, []⟩) }
  | freeMem {st : State} {s : Sid} (doomed : s ∈ st.conc.dying) :
      Step ready st (.freeMem s) { st with conc := st.conc.freeMem s }

/-! ### The calls in progress -/

/-- What holds of the contexts and the calls on them, whatever the table does. -/
structure Turns (ready : Bool) (live : Ctx → Option ℕ) (ended : Ctx → Bool)
    (work : Tid → Option Work) : Prop where
  current : ∀ tid w, work tid = some w → live w.ctx = some w.inc
  final : ∀ tid w, work tid = some w → ended w.ctx = true →
    w.todo <:+ finalizer true ∧ w.todo ≠ []
  alone : ∀ tid tid' w w', work tid = some w → work tid' = some w' → w.ctx = w'.ctx →
    ended w.ctx = true → tid = tid'
  plain : ∀ tid w, work tid = some w → ended w.ctx = false → Sec.destroy ∉ w.todo
  unready : ready = false → ∀ tid w, work tid = some w → Sec.create ∉ w.todo

theorem finalizer_suffix (debug : Bool) : finalizer debug <:+ finalizer true := by
  cases debug <;> decide

theorem create_not_mem_finalizer (debug : Bool) : Sec.create ∉ finalizer debug := by
  cases debug <;> decide

theorem destroy_not_mem_sections (ready on : Bool) (hook : Hook) :
    Sec.destroy ∉ hook.sections ready on := by
  cases hook <;> simp only [Hook.sections] <;> split_ifs <;> simp

theorem create_not_mem_sections (on : Bool) (hook : Hook) :
    Sec.create ∉ hook.sections false on := by
  cases hook <;> simp [Hook.sections]

/-- Nothing but the end of the original finalizer ends a finalizer. -/
theorem suffix_finalizer {s : Sec} {rest : List Sec} (h : s :: rest <:+ finalizer true) :
    rest <:+ finalizer true ∧ (s = .destroy ↔ rest = []) := by
  refine ⟨(List.suffix_cons s rest).trans h, ?_⟩
  simp only [finalizer, if_true, List.cons_append, List.nil_append, List.suffix_cons_iff,
    List.suffix_nil, List.cons.injEq, reduceCtorEq, or_false] at h
  rcases h with ⟨rfl, rfl⟩ | ⟨rfl, rfl⟩ | ⟨rfl, rfl⟩ | ⟨rfl, rfl⟩ <;> simp

namespace Turns

variable {ready : Bool} {live : Ctx → Option ℕ} {ended : Ctx → Bool} {work : Tid → Option Work}
  {tid : Tid} {w : Work}

theorem init : Turns ready (fun _ => none) (fun _ => false) fun _ => none where
  current := by simp
  final := by simp
  alone := by simp
  plain := by simp
  unready := by simp

/-- A thread ends its call. -/
theorem idle (h : Turns ready live ended work) (tid : Tid) :
    Turns ready live ended (Function.update work tid none) := by
  have hw : ∀ t v, Function.update work tid none t = some v → work t = some v := by
    intro t v hv
    rcases update_eq_some_iff.mp hv with ⟨-, h'⟩ | ⟨-, h'⟩
    · simp at h'
    · exact h'
  exact ⟨fun t v hv => h.current t v (hw t v hv), fun t v hv => h.final t v (hw t v hv),
    fun t t' v v' hv hv' => h.alone t t' v v' (hw t v hv) (hw t' v' hv'),
    fun t v hv => h.plain t v (hw t v hv), fun hr t v hv => h.unready hr t v (hw t v hv)⟩

/-- A thread that may work on a context takes up a list of sections. -/
theorem assign (h : Turns ready live ended work) (hlive : live w.ctx = some w.inc)
    (hfinal : ended w.ctx = true → w.todo <:+ finalizer true ∧ w.todo ≠ [])
    (halone : ended w.ctx = true → ∀ t v, t ≠ tid → work t = some v → v.ctx ≠ w.ctx)
    (hplain : ended w.ctx = false → Sec.destroy ∉ w.todo)
    (hready : ready = false → Sec.create ∉ w.todo) :
    Turns ready live ended (Function.update work tid (some w)) := by
  refine ⟨?_, ?_, ?_, ?_, ?_⟩
  · intro t v hv
    rcases update_eq_some_iff.mp hv with ⟨-, h'⟩ | ⟨-, h'⟩
    · obtain rfl := Option.some.inj h'
      exact hlive
    · exact h.current t v h'
  · intro t v hv
    rcases update_eq_some_iff.mp hv with ⟨-, h'⟩ | ⟨-, h'⟩
    · obtain rfl := Option.some.inj h'
      exact hfinal
    · exact h.final t v h'
  · intro t t' v v' hv hv' hc he
    rcases update_eq_some_iff.mp hv with ⟨ht, h1⟩ | ⟨ht, h1⟩
    · rcases update_eq_some_iff.mp hv' with ⟨ht', -⟩ | ⟨ht', h2⟩
      · rw [ht, ht']
      · obtain rfl := Option.some.inj h1
        exact absurd hc.symm (halone he t' v' ht' h2)
    · rcases update_eq_some_iff.mp hv' with ⟨ht', h2⟩ | ⟨ht', h2⟩
      · obtain rfl := Option.some.inj h2
        exact absurd hc (halone (hc ▸ he) t v ht h1)
      · exact h.alone t t' v v' h1 h2 hc he
  · intro t v hv
    rcases update_eq_some_iff.mp hv with ⟨-, h'⟩ | ⟨-, h'⟩
    · obtain rfl := Option.some.inj h'
      exact hplain
    · exact h.plain t v h'
  · intro hr t v hv
    rcases update_eq_some_iff.mp hv with ⟨-, h'⟩ | ⟨-, h'⟩
    · obtain rfl := Option.some.inj h'
      exact hready hr
    · exact h.unready hr t v h'

/-- A thread goes on to its next section. -/
theorem advance (h : Turns ready live ended work) (hw : work tid = some w) {s : Sec}
    {rest : List Sec} (htodo : w.todo = s :: rest) (hs : s ≠ .destroy) {w' : Work}
    (hctx : w'.ctx = w.ctx) (hinc : w'.inc = w.inc) (hrest : w'.todo = rest) :
    Turns ready live ended (Function.update work tid (some w')) := by
  refine h.assign (by rw [hctx, hinc]; exact h.current tid w hw) ?_ ?_ ?_ ?_
  · rw [hctx, hrest]
    intro he
    have hf := (h.final tid w hw he).1
    rw [htodo] at hf
    obtain ⟨h1, h2⟩ := suffix_finalizer hf
    exact ⟨h1, fun h0 => hs (h2.mpr h0)⟩
  · rw [hctx]
    intro he t v ht hv hc
    exact ht (h.alone tid t w v hw hv hc.symm he).symm
  · rw [hctx, hrest]
    intro he hm
    exact h.plain tid w hw he (by rw [htodo]; exact List.mem_cons_of_mem s hm)
  · rw [hrest]
    intro hr hm
    exact h.unready hr tid w hw (by rw [htodo]; exact List.mem_cons_of_mem s hm)

/-- Only the finalizer destroys. -/
theorem ended_of_destroy (h : Turns ready live ended work) (hw : work tid = some w)
    (hm : .destroy ∈ w.todo) : ended w.ctx = true := by
  cases he : ended w.ctx with
  | true => rfl
  | false => exact absurd hm (h.plain tid w hw he)

/-- What comes before `destroy` is the finalizer's `sh_free`. -/
theorem before_destroy (h : Turns ready live ended work) (hw : work tid = some w) {s : Sec}
    (htodo : w.todo = [s, .destroy]) : s = .free := by
  have he := h.ended_of_destroy hw (by simp [htodo])
  have hf := (h.final tid w hw he).1
  rw [htodo] at hf
  simpa [finalizer, List.suffix_cons_iff] using hf

/-- The thread that comes to `destroy` is in the finalizer, and at its end. -/
theorem at_destroy (h : Turns ready live ended work) (hw : work tid = some w) {rest : List Sec}
    (htodo : w.todo = .destroy :: rest) : ended w.ctx = true ∧ rest = [] := by
  have he := h.ended_of_destroy hw (by simp [htodo])
  have hf := (h.final tid w hw he).1
  rw [htodo] at hf
  exact ⟨he, (suffix_finalizer hf).2.mp rfl⟩

end Turns

/-! ### The invariant -/

structure Inv (ready : Bool) (st : State) : Prop where
  refs : RefInv st.conc
  turns : Turns ready st.live st.ended st.work
  held : ∀ tid w s, st.work tid = some w →
    w.holding.count (some s) ≤ st.conc.held.count (tid, s)
  stamp : ∀ s c b, st.conc.tab.InTable s → st.conc.tab.look s = some (c, b) →
    ∃ inc, st.live c = some inc ∧ b.Only inc
  holds : ∀ tid w s, st.work tid = some w → some s ∈ w.holding →
    ∃ b, st.conc.tab.look s = some (w.ctx, b) ∧ b.Only w.inc
  emptied : ∀ tid w, st.work tid = some w → w.todo = [.destroy] → ∀ s b,
    st.conc.tab.InTable s → st.conc.tab.look s ≠ some (w.ctx, b)
  unready : ready = false → ∀ s, ¬ st.conc.tab.InTable s
  got : ∀ p ∈ st.got, p.2.Only p.1

namespace Inv

variable {ready : Bool} {st : State} {tid : Tid} {w : Work} {rest : List Sec}

theorem init : Inv ready {} where
  refs := RefInv.init
  turns := Turns.init
  held := by simp
  stamp := by
    intro s c b hs
    exact absurd hs (Table.not_inTable_init s)
  holds := by simp
  emptied := by simp
  unready := fun _ => Table.not_inTable_init
  got := by simp

/-- A shadow that a call holds is among the references handed out. -/
theorem mem_held (h : Inv ready st) (hw : st.work tid = some w) {s : Sid}
    (hs : some s ∈ w.holding) : (tid, s) ∈ st.conc.held := by
  have h1 := h.held tid w s hw
  have h2 : 0 < w.holding.count (some s) := List.count_pos_iff.mpr hs
  exact List.count_pos_iff.mp (by omega)

theorem alloc (h : Inv ready st) {c : Ctx} (hfree : st.live c = none) :
    Inv ready { st with
      live := Function.update st.live c (some st.nextInc)
      nextInc := st.nextInc + 1 } := by
  have hlive : ∀ c' inc, st.live c' = some inc →
      Function.update st.live c (some st.nextInc) c' = some inc := by
    intro c' inc hl
    rw [Function.update_of_ne]
    · exact hl
    · rintro rfl
      rw [hfree] at hl
      simp at hl
  refine ⟨h.refs, ⟨?_, h.turns.final, h.turns.alone, h.turns.plain, h.turns.unready⟩, h.held, ?_,
    h.holds, h.emptied, h.unready, h.got⟩
  · intro t v hv
    exact hlive _ _ (h.turns.current t v hv)
  · intro s c' b hs hl
    obtain ⟨inc, hi, hb⟩ := h.stamp s c' b hs hl
    exact ⟨inc, hlive c' inc hi, hb⟩

theorem idle (h : Inv ready st) (tid : Tid) :
    Inv ready { st with work := Function.update st.work tid none } := by
  have hw : ∀ t v, Function.update st.work tid none t = some v → st.work t = some v := by
    intro t v hv
    rcases update_eq_some_iff.mp hv with ⟨-, h'⟩ | ⟨-, h'⟩
    · simp at h'
    · exact h'
  exact ⟨h.refs, h.turns.idle tid, fun t v s hv => h.held t v s (hw t v hv), h.stamp,
    fun t v s hv => h.holds t v s (hw t v hv), fun t v hv => h.emptied t v (hw t v hv),
    h.unready, h.got⟩

/-- A thread takes up work that is its turn, and holds nothing yet. -/
theorem assign {ended : Ctx → Bool} (h : Inv ready st) (hw : w.holding = [])
    (htodo : w.todo ≠ [.destroy])
    (hturns : Turns ready st.live ended (Function.update st.work tid (some w))) :
    Inv ready { st with ended := ended, work := Function.update st.work tid (some w) } := by
  refine ⟨h.refs, hturns, ?_, h.stamp, ?_, ?_, h.unready, h.got⟩
  · intro t v s hv
    rcases update_eq_some_iff.mp hv with ⟨-, h'⟩ | ⟨-, h'⟩
    · obtain rfl := Option.some.inj h'
      simp [hw]
    · exact h.held t v s h'
  · intro t v s hv hs
    rcases update_eq_some_iff.mp hv with ⟨-, h'⟩ | ⟨-, h'⟩
    · obtain rfl := Option.some.inj h'
      simp [hw] at hs
    · exact h.holds t v s h' hs
  · intro t v hv ht
    rcases update_eq_some_iff.mp hv with ⟨-, h'⟩ | ⟨-, h'⟩
    · obtain rfl := Option.some.inj h'
      exact absurd ht htodo
    · exact h.emptied t v h' ht

theorem call (h : Inv ready st) {c : Ctx} {on : Bool} {hook : Hook} {inc : ℕ}
    (hlive : st.live c = some inc) (hheld : st.ended c = false) :
    Inv ready { st with
      work := Function.update st.work tid (some ⟨c, inc, hook.sections ready on, []⟩) } := by
  have hdestroy := destroy_not_mem_sections ready on hook
  refine h.assign rfl (fun ht => ?_) (h.turns.assign hlive ?_ ?_ (fun _ => hdestroy) ?_)
  · rw [show hook.sections ready on = [.destroy] from ht] at hdestroy
    exact hdestroy List.mem_cons_self
  · intro he
    rw [hheld] at he
    simp at he
  · intro he
    rw [hheld] at he
    simp at he
  · rintro rfl
    exact create_not_mem_sections on hook

theorem lastRelease (h : Inv ready st) {c : Ctx} {debug : Bool} {inc : ℕ}
    (hlive : st.live c = some inc) (hquiet : ∀ t v, st.work t = some v → v.ctx ≠ c) :
    Inv ready { st with
      ended := Function.update st.ended c true
      work := Function.update st.work tid (some ⟨c, inc, finalizer debug, []⟩) } := by
  have hended : ∀ t v, st.work t = some v →
      Function.update st.ended c true v.ctx = st.ended v.ctx := by
    intro t v hv
    rw [Function.update_of_ne (hquiet t v hv)]
  have hturns : Turns ready st.live (Function.update st.ended c true) st.work := by
    refine ⟨h.turns.current, ?_, ?_, ?_, h.turns.unready⟩
    · intro t v hv
      rw [hended t v hv]
      exact h.turns.final t v hv
    · intro t t' v v' hv hv' hc
      rw [hended t v hv]
      exact h.turns.alone t t' v v' hv hv' hc
    · intro t v hv
      rw [hended t v hv]
      exact h.turns.plain t v hv
  refine h.assign rfl ?_ (hturns.assign hlive ?_ ?_ ?_ ?_)
  · cases debug <;> simp [finalizer]
  · intro _
    refine ⟨finalizer_suffix debug, ?_⟩
    cases debug <;> simp [finalizer]
  · exact fun _ t v _ hv => hquiet t v hv
  · simp
  · exact fun _ => create_not_mem_finalizer debug

theorem freeMem (h : Inv ready st) {s : Sid} (hd : s ∈ st.conc.dying) :
    Inv ready { st with conc := st.conc.freeMem s } := by
  have hin : ¬ st.conc.tab.InTable s := h.refs.not_inTable_of_dying hd
  have hlook : ∀ s', s' ≠ s → (st.conc.freeMem s).tab.look s' = st.conc.tab.look s' := by
    intro s' hs
    rw [Conc.freeMem_look, Function.update_of_ne hs]
  have hne : ∀ s', st.conc.tab.InTable s' → s' ≠ s := by
    rintro s' hs rfl
    exact hin hs
  refine ⟨h.refs.freeMem hd, h.turns, h.held, ?_, ?_, ?_, h.unready, h.got⟩
  · intro s' c b hs hl
    rw [hlook s' (hne s' hs)] at hl
    exact h.stamp s' c b hs hl
  · intro t v s' hv hs
    obtain ⟨b, hb, ho⟩ := h.holds t v s' hv hs
    refine ⟨b, ?_, ho⟩
    rw [hlook s']
    · exact hb
    · rintro rfl
      exact h.refs.not_dying_of_held (h.mem_held hv hs) hd
  · intro t v hv ht s' b hs
    rw [hlook s' (hne s' hs)]
    exact h.emptied t v hv ht s' b hs

/-- Two calls that hold one shadow are calls of one incarnation. -/
theorem same_inc (h : Inv ready st) {t : Tid} {v : Work} {s : Sid} (hw : st.work tid = some w)
    (hv : st.work t = some v) (hs : some s ∈ w.holding) (hs' : some s ∈ v.holding) :
    v.ctx = w.ctx ∧ v.inc = w.inc := by
  obtain ⟨b, hb, -⟩ := h.holds tid w s hw hs
  obtain ⟨b', hb', -⟩ := h.holds t v s hv hs'
  have hc : v.ctx = w.ctx := by
    rw [hb] at hb'
    exact (congrArg Prod.fst (Option.some.inj hb')).symm
  have h1 := h.turns.current tid w hw
  have h2 := h.turns.current t v hv
  rw [hc, h1] at h2
  exact ⟨hc, (Option.some.inj h2).symm⟩

theorem write (h : Inv ready st) (hw : st.work tid = some w) {s : Sid}
    (hs : some s ∈ w.holding) :
    Inv ready { st with
      conc := st.conc.write s fun b => { b with writers := w.inc :: b.writers } } := by
  obtain ⟨b₀, hb₀, ho₀⟩ := h.holds tid w s hw hs
  have honly : Carried.Only { b₀ with writers := w.inc :: b₀.writers } w.inc := by
    refine ⟨ho₀.1, fun i hi => ?_⟩
    rcases List.mem_cons.mp hi with rfl | hi
    · rfl
    · exact ho₀.2 i hi
  refine ⟨h.refs.write s _, h.turns, h.held, ?_, ?_, ?_, h.unready, h.got⟩
  · intro s' c b hs' hl
    rw [Conc.write_look] at hl
    split_ifs at hl with hss
    · rw [hb₀, Option.map_some, Option.some.injEq, Prod.mk.injEq] at hl
      obtain ⟨rfl, rfl⟩ := hl
      exact ⟨w.inc, h.turns.current tid w hw, honly⟩
    · exact h.stamp s' c b hs' hl
  · intro t v s' hv hs'
    rw [Conc.write_look]
    by_cases hss : s' = s
    · subst hss
      obtain ⟨hc, hi⟩ := h.same_inc hw hv hs hs'
      refine ⟨{ b₀ with writers := w.inc :: b₀.writers }, ?_, hi ▸ honly⟩
      rw [if_pos rfl, hb₀, hc]
      rfl
    · rw [if_neg hss]
      exact h.holds t v s' hv hs'
  · intro t v hv ht s' b hs' hl
    rw [Conc.write_look] at hl
    split_ifs at hl with hss
    · rw [hb₀, Option.map_some, Option.some.injEq, Prod.mk.injEq] at hl
      exact h.emptied t v hv ht s b₀ (hss ▸ hs') (hl.1 ▸ hb₀)
    · exact h.emptied t v hv ht s' b hs' hl

/-! ### The sections -/

/-- A section that hands a shadow to the call, from the table or new. -/
theorem returned (h : Inv ready st) (hw : st.work tid = some w) {sec : Sec}
    (htodo : w.todo = sec :: rest) (hd : sec ≠ .destroy) (hf : sec ≠ .free)
    {r : Conc Carried × Option Sid} (hrefs : RefInv r.1)
    (hheld : r.1.held = (r.2.map (Prod.mk tid)).toList ++ st.conc.held)
    (hkeep : ∀ s p, st.conc.tab.look s = some p → r.1.tab.look s = some p)
    (htab : ∀ s c b, r.1.tab.InTable s → r.1.tab.look s = some (c, b) →
      (st.conc.tab.InTable s ∧ st.conc.tab.look s = some (c, b)) ∨ (c = w.ctx ∧ b.Only w.inc))
    (hret : ∀ s, r.2 = some s → ∃ b, r.1.tab.look s = some (w.ctx, b) ∧ b.Only w.inc)
    (hready : ready = false → ∀ s, ¬ r.1.tab.InTable s) :
    Inv ready (handOver st tid w rest r) := by
  obtain ⟨conc', r⟩ := r
  dsimp only at hrefs hheld hkeep htab hret hready
  have hcur := h.turns.current tid w hw
  refine ⟨hrefs, h.turns.advance hw htodo hd rfl rfl rfl, ?_, ?_, ?_, ?_, hready, ?_⟩
  · intro t v s hv
    change v.holding.count (some s) ≤ conc'.held.count (t, s)
    rw [hheld]
    rcases update_eq_some_iff.mp hv with ⟨rfl, h'⟩ | ⟨ht, h'⟩
    · obtain rfl := Option.some.inj h'
      have := h.held t w s hw
      cases r with
      | none => simpa using this
      | some s₀ =>
        by_cases hs : s₀ = s
        · subst hs; simpa using this
        · simpa [hs] using this
    · refine (h.held t v s h').trans ?_
      rw [List.count_append]
      omega
  · intro s c b hs hl
    rcases htab s c b hs hl with ⟨h1, h2⟩ | ⟨rfl, ho⟩
    · exact h.stamp s c b h1 h2
    · exact ⟨w.inc, hcur, ho⟩
  · intro t v s hv hs
    rcases update_eq_some_iff.mp hv with ⟨rfl, h'⟩ | ⟨ht, h'⟩
    · obtain rfl := Option.some.inj h'
      rcases List.mem_cons.mp hs with hs | hs
      · exact hret s hs.symm
      · obtain ⟨b, hb, ho⟩ := h.holds t w s hw hs
        exact ⟨b, hkeep s _ hb, ho⟩
    · obtain ⟨b, hb, ho⟩ := h.holds t v s h' hs
      exact ⟨b, hkeep s _ hb, ho⟩
  · intro t v hv ht s b hs hl
    rcases update_eq_some_iff.mp hv with ⟨rfl, h'⟩ | ⟨htt, h'⟩
    · obtain rfl := Option.some.inj h'
      simp only at ht
      exact hf (h.turns.before_destroy hw (htodo.trans (by rw [ht])))
    · rcases htab s v.ctx b hs hl with ⟨h1, h2⟩ | ⟨hc, -⟩
      · exact h.emptied t v h' ht s b h1 h2
      · obtain ⟨he, -⟩ := h.turns.at_destroy h' ht
        exact htt (h.turns.alone t tid v w h' hw hc he)
  · intro p hp
    rcases List.mem_append.mp hp with hp | hp
    · simp only [gotEntry, Option.mem_toList, Option.map_eq_some_iff, Option.bind_eq_some_iff] at hp
      obtain ⟨q, ⟨s, hr, hq⟩, rfl⟩ := hp
      obtain ⟨b, hb, ho⟩ := hret s hr
      rw [hb] at hq
      obtain rfl := Option.some.inj hq
      exact ho
    · exact h.got p hp

/-- What is in the table for the context of a call is of the call's incarnation. -/
theorem only_of_inTable (h : Inv ready st) (hw : st.work tid = some w) {s : Sid} {b : Carried}
    (hs : st.conc.tab.InTable s) (hl : st.conc.tab.look s = some (w.ctx, b)) : b.Only w.inc := by
  obtain ⟨inc, hi, ho⟩ := h.stamp s w.ctx b hs hl
  rw [h.turns.current tid w hw] at hi
  exact Option.some.inj hi ▸ ho

theorem secGet (h : Inv ready st) (hw : st.work tid = some w) (htodo : w.todo = .get :: rest)
    (alloc : Bool) : Inv ready (runSec ready st tid w rest alloc .get) := by
  refine h.returned hw htodo (by simp) (by simp) (h.refs.get tid ready w.ctx)
    (Conc.get_held ready) ?_ ?_ ?_ ?_
  · intro s p hp
    rw [Conc.get_look]
    exact hp
  · intro s c b hs hl
    rw [Conc.get_inTable] at hs
    rw [Conc.get_look] at hl
    exact Or.inl ⟨hs, hl⟩
  · intro s hr
    obtain ⟨hs, b, hb⟩ := Conc.get_returns hr
    rw [Conc.get_look]
    exact ⟨b, hb, h.only_of_inTable hw hs hb⟩
  · intro hr s hs
    rw [Conc.get_inTable] at hs
    exact h.unready hr s hs

theorem secCreate (h : Inv ready st) (hw : st.work tid = some w)
    (htodo : w.todo = .create :: rest) (alloc : Bool) :
    Inv ready (runSec ready st tid w rest alloc .create) := by
  have hblank : Carried.Only ⟨w.inc, []⟩ w.inc := ⟨rfl, by simp⟩
  have hready : ready = false → ∀ s, ¬ (st.conc.create tid alloc ⟨w.inc, []⟩ w.ctx).1.tab.InTable s := by
    intro hr
    exact absurd (by simp [htodo]) (h.turns.unready hr tid w hw)
  refine h.returned hw htodo (by simp) (by simp) (h.refs.create tid alloc _ w.ctx)
    (Conc.create_held alloc _) ?_ ?_ ?_ hready
  all_goals
    rcases Conc.create_cases h.refs tid alloc ⟨w.inc, []⟩ w.ctx with
      ⟨s₀, b₀, hr, hin, hb₀, hlook, -, hiff⟩ | ⟨hr, hst, -, -⟩ |
      ⟨hr, -, hnone, -, hlook, -, hin, hor⟩
  · intro s p hp
    rw [hlook]
    exact hp
  · intro s p hp
    rw [hst]
    exact hp
  · intro s p hp
    rw [hlook, Function.update_of_ne]
    · exact hp
    · rintro rfl
      rw [hnone] at hp
      simp at hp
  · intro s c b hs hl
    rw [hlook] at hl
    exact Or.inl ⟨(hiff s).mp hs, hl⟩
  · intro s c b hs hl
    rw [hst] at hs hl
    exact Or.inl ⟨hs, hl⟩
  · intro s c b hs hl
    rw [hlook] at hl
    rcases update_eq_some_iff.mp hl with ⟨-, h'⟩ | ⟨hne, h'⟩
    · rw [Option.some.injEq, Prod.mk.injEq] at h'
      obtain ⟨rfl, rfl⟩ := h'
      exact Or.inr ⟨rfl, hblank⟩
    · exact Or.inl ⟨(hor s hs).resolve_left hne, h'⟩
  · intro s hs
    rw [hr, Option.some.injEq] at hs
    subst hs
    rw [hlook]
    exact ⟨b₀, hb₀, h.only_of_inTable hw hin hb₀⟩
  · intro s hs
    rw [hr] at hs
    simp at hs
  · intro s hs
    rw [hr, Option.some.injEq] at hs
    subst hs
    rw [hlook]
    exact ⟨_, Function.update_self .., hblank⟩

/-- A section that gives the call nothing and changes no contents. -/
theorem popped (h : Inv ready st) (hw : st.work tid = some w) {sec : Sec}
    (htodo : w.todo = sec :: rest) (hd : sec ≠ .destroy) {conc' : Conc Carried}
    {holding' : List (Option Sid)} (hrefs : RefInv conc')
    (hlook : conc'.tab.look = st.conc.tab.look)
    (hin : ∀ s, conc'.tab.InTable s → st.conc.tab.InTable s)
    (hsub : ∀ s, s ∈ holding' → s ∈ w.holding)
    (hheld : ∀ t v s, Function.update st.work tid (some { w with holding := holding' }) t = some v →
      v.holding.count (some s) ≤ conc'.held.count (t, s))
    (hfree : sec = .free → ready = true → ∀ s b, conc'.tab.InTable s →
      conc'.tab.look s ≠ some (w.ctx, b)) :
    Inv ready { st with
      conc := conc'
      work := Function.update st.work tid
        (some { w with todo := rest, holding := holding' }) } := by
  refine ⟨hrefs, h.turns.advance hw htodo hd rfl rfl rfl, ?_, ?_, ?_, ?_,
    fun hr s hs => h.unready hr s (hin s hs), h.got⟩
  · intro t v s hv
    rcases update_eq_some_iff.mp hv with ⟨rfl, h'⟩ | ⟨ht, h'⟩
    · obtain rfl := Option.some.inj h'
      exact hheld t { w with holding := holding' } s (by simp)
    · exact hheld t v s (by rw [Function.update_of_ne ht]; exact h')
  · intro s c b hs hl
    rw [hlook] at hl
    exact h.stamp s c b (hin s hs) hl
  · intro t v s hv hs
    rw [hlook]
    rcases update_eq_some_iff.mp hv with ⟨rfl, h'⟩ | ⟨ht, h'⟩
    · obtain rfl := Option.some.inj h'
      exact h.holds t w s hw (hsub _ hs)
    · exact h.holds t v s h' hs
  · intro t v hv ht s b hs hl
    rcases update_eq_some_iff.mp hv with ⟨rfl, h'⟩ | ⟨htt, h'⟩
    · obtain rfl := Option.some.inj h'
      simp only at ht
      have hsec := h.turns.before_destroy hw (htodo.trans (by rw [ht]))
      cases ready with
      | false => exact h.unready rfl s (hin s hs)
      | true => exact hfree hsec rfl s b hs hl
    · rw [hlook] at hl
      exact h.emptied t v h' ht s b (hin s hs) hl

theorem secFree (h : Inv ready st) (hw : st.work tid = some w) (htodo : w.todo = .free :: rest)
    (alloc : Bool) : Inv ready (runSec ready st tid w rest alloc .free) := by
  refine h.popped hw htodo (by simp) (h.refs.free ready w.ctx) (Conc.free_look ready)
    (fun s hs => Conc.free_inTable ready hs) (fun s hs => hs) ?_ ?_
  · intro t v s hv
    rcases update_eq_some_iff.mp hv with ⟨rfl, h'⟩ | ⟨ht, h'⟩
    · obtain rfl := Option.some.inj h'
      exact h.held t w s hw
    · exact h.held t v s h'
  · rintro - rfl s b hs
    exact Conc.free_gone h.refs hs

theorem secRelease (h : Inv ready st) (hw : st.work tid = some w)
    (htodo : w.todo = .release :: rest) (alloc : Bool) :
    Inv ready (runSec ready st tid w rest alloc .release) := by
  have htail : ∀ s, s ∈ w.holding.tail → s ∈ w.holding := fun s => List.mem_of_mem_tail
  have hcount : ∀ s : Option Sid, w.holding.tail.count s ≤ w.holding.count s :=
    fun s => (List.tail_sublist _).count_le s
  have hplain : ∀ t v s, Function.update st.work tid
      (some { w with holding := w.holding.tail }) t = some v →
      v.holding.count (some s) ≤ st.conc.held.count (t, s) := by
    intro t v s hv
    rcases update_eq_some_iff.mp hv with ⟨rfl, h'⟩ | ⟨ht, h'⟩
    · obtain rfl := Option.some.inj h'
      exact (hcount _).trans (h.held t w s hw)
    · exact h.held t v s h'
  unfold runSec
  dsimp only
  split
  next s₀ tail hhold =>
    -- the reference given back is the one that the call gives up
    have hmem : (tid, s₀) ∈ st.conc.held := h.mem_held hw (by simp [hhold])
    refine h.popped hw htodo (by simp) (h.refs.release hmem) Conc.release_look
      (fun s hs => hs) htail ?_ (by simp)
    intro t v s hv
    have hheld : (st.conc.release tid s₀).held = st.conc.held.erase (tid, s₀) := rfl
    rw [hheld, List.count_erase]
    rcases update_eq_some_iff.mp hv with ⟨rfl, h'⟩ | ⟨ht, h'⟩
    · obtain rfl := Option.some.inj h'
      have h1 := h.held t w s hw
      simp only [hhold, List.tail_cons, List.count_cons] at h1 ⊢
      by_cases hss : s₀ = s
      · subst hss
        simp only [beq_self_eq_true, if_true] at h1 ⊢
        omega
      · simpa [hss, Ne.symm hss] using h1
    · have h1 := h.held t v s h'
      simpa [Ne.symm ht, ht] using h1
  next =>
    exact h.popped hw htodo (by simp) h.refs rfl (fun s hs => hs) htail hplain (by simp)

theorem secDestroy (h : Inv ready st) (hw : st.work tid = some w)
    (htodo : w.todo = .destroy :: rest) (alloc : Bool) :
    Inv ready (runSec ready st tid w rest alloc .destroy) := by
  obtain ⟨he, rfl⟩ := h.turns.at_destroy hw htodo
  have hgone := h.emptied tid w hw htodo
  have hold : ∀ t v, Function.update st.work tid none t = some v →
      st.work t = some v ∧ v.ctx ≠ w.ctx := by
    intro t v hv
    rcases update_eq_some_iff.mp hv with ⟨-, h'⟩ | ⟨ht, h'⟩
    · simp at h'
    · exact ⟨h', fun hc => ht (h.turns.alone t tid v w h' hw hc (hc ▸ he))⟩
  have hlive : ∀ c, c ≠ w.ctx → Function.update st.live w.ctx none c = st.live c :=
    fun c hc => Function.update_of_ne hc ..
  have hended : ∀ c, c ≠ w.ctx → Function.update st.ended w.ctx false c = st.ended c :=
    fun c hc => Function.update_of_ne hc ..
  refine ⟨h.refs, ⟨?_, ?_, ?_, ?_, ?_⟩, ?_, ?_, ?_, ?_, h.unready, h.got⟩
  · intro t v hv
    obtain ⟨h', hc⟩ := hold t v hv
    exact (hlive v.ctx hc).trans (h.turns.current t v h')
  · intro t v hv he'
    obtain ⟨h', hc⟩ := hold t v hv
    exact h.turns.final t v h' ((hended v.ctx hc).symm.trans he')
  · intro t t' v v' hv hv' hvc he'
    obtain ⟨h', hc⟩ := hold t v hv
    exact h.turns.alone t t' v v' h' (hold t' v' hv').1 hvc ((hended v.ctx hc).symm.trans he')
  · intro t v hv he'
    obtain ⟨h', hc⟩ := hold t v hv
    exact h.turns.plain t v h' ((hended v.ctx hc).symm.trans he')
  · intro hr t v hv
    exact h.turns.unready hr t v (hold t v hv).1
  · intro t v s hv
    exact h.held t v s (hold t v hv).1
  · intro s c b hs hl
    have hc : c ≠ w.ctx := by
      rintro rfl
      exact hgone s b hs hl
    obtain ⟨inc, hi, ho⟩ := h.stamp s c b hs hl
    exact ⟨inc, (hlive c hc).trans hi, ho⟩
  · intro t v s hv
    exact h.holds t v s (hold t v hv).1
  · intro t v hv
    exact h.emptied t v (hold t v hv).1

theorem sec (h : Inv ready st) (hw : st.work tid = some w) {s : Sec} (htodo : w.todo = s :: rest)
    (alloc : Bool) : Inv ready (runSec ready st tid w rest alloc s) := by
  cases s with
  | get => exact h.secGet hw htodo alloc
  | create => exact h.secCreate hw htodo alloc
  | release => exact h.secRelease hw htodo alloc
  | free => exact h.secFree hw htodo alloc
  | destroy => exact h.secDestroy hw htodo alloc

theorem step (h : Inv ready st) {ev : Event} {st' : State} (hs : Step ready st ev st') :
    Inv ready st' := by
  cases hs with
  | alloc hfree => exact h.alloc hfree
  | call _ hlive hheld => exact h.call hlive hheld
  | sec hw htodo => exact h.sec hw htodo _
  | write hw hhold => exact h.write hw hhold
  | done _ _ => exact h.idle _
  | lastRelease _ hlive _ hquiet => exact h.lastRelease hlive hquiet
  | freeMem hd => exact h.freeMem hd

end Inv

/-- **No state crosses from one context to the next at its address.**  In every run of the process,
with addresses reused as soon as the original finalizer has run: what `sh_get` and `sh_create`
return for a context was created by a call made for that incarnation of it, and only such calls
have written into it; and the same holds of every entry of the table, at every moment. -/
theorem carried_only {ready : Bool} {evs : List Event} {st : State}
    (h : Path (Step ready) {} evs st) :
    (∀ p ∈ st.got, p.2.Only p.1) ∧
    (∀ s c b, st.conc.tab.InTable s → st.conc.tab.look s = some (c, b) →
      ∃ inc, st.live c = some inc ∧ b.Only inc) := by
  have hi : Inv ready st := h.invariant (fun _ _ _ hi hs => hi.step hs) Inv.init
  exact ⟨hi.got, hi.stamp⟩

/-- A context that set its callbacks is released without a close; the next context at address 7
creates its own shadow. -/
def reuseRun : List Event :=
  [.alloc 7, .call 1 7 true .setIOFuncs, .sec 1 true, .write 1 0, .sec 1 true, .done 1,
    .lastRelease 1 7 false, .sec 1 true, .freeMem 0, .sec 1 true,
    .alloc 7, .call 2 7 true .setConnection, .sec 2 true]

theorem reuseRun_path : ∃ st, Path (Step true) {} reuseRun st ∧ (1, ⟨1, []⟩) ∈ st.got := by
  refine ⟨_, .cons (.alloc rfl) <| .cons (.call rfl rfl rfl) <| .cons (.sec rfl rfl) <|
    .cons (.write rfl ?_) <| .cons (.sec rfl rfl) <| .cons (.done rfl rfl) <|
    .cons (.lastRelease rfl rfl rfl ?_) <| .cons (.sec rfl rfl) <| .cons (.freeMem ?_) <|
    .cons (.sec rfl rfl) <| .cons (.alloc rfl) <| .cons (.call rfl rfl rfl) <|
    .cons (.sec rfl rfl) <| .nil _, ?_⟩
  · decide +kernel
  · intro t w hw
    by_cases ht : t = 1
    · simp [ht] at hw
    · simp [ht, runSec, handOver] at hw
  · decide +kernel
  · decide +kernel

theorem carried_only_reuseRun :
    ∃ st, Path (Step true) {} reuseRun st ∧ Carried.Only ⟨1, []⟩ 1 :=
  let ⟨st, h, hm⟩ := reuseRun_path
  ⟨st, h, (carried_only h).1 _ hm⟩

end AquaTransport.Lifetime
