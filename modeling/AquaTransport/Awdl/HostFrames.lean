import AquaTransport.Awdl.Upkeep

/-!
# AquaTransport.Awdl.HostFrames — what the daemon does with the frames of its host

* `run_frames`: every frame read from the host is given to `wlan_send`, looped back or dropped, once and in
  order.
* `run_air`: a frame that is injected can be heard by every node whose clock is within the guard.
-/

namespace AquaTransport.Awdl

/-! ### Where they go -/

/-- The frame that an effect reads, and the one it is done with. -/
def Effect.taken : Effect → Option HostFrame
  | .read f => some f
  | _ => none

def Effect.done : Effect → Option HostFrame
  | .air f _ _ _ => some f
  | .loop f => some f
  | .drop f => some f
  | .unsent f => some f
  | _ => none

namespace Daemon

/-- The frames of a class that are read and not done with. -/
def waiting (d : Daemon) : Bool → List HostFrame
  | true => d.queue.toList.map Subtype.val
  | false => d.next.toList.map Subtype.val

/-- For each class: what waited and what was read is done with or waits, in this order. -/
def Conserves (d : Daemon) (es : List Effect) (d' : Daemon) : Prop :=
  ∀ m, d.waiting m ++ (es.filterMap Effect.taken).filter (·.isMulticast == m) =
    (es.filterMap Effect.done).filter (·.isMulticast == m) ++ d'.waiting m

variable {radiotap : Buf → Option Radiotap} {d d₁ d₂ : Daemon} {es es₁ es₂ : List Effect}

theorem Conserves.refl (d : Daemon) : Conserves d [] d := fun _ => List.append_nil _

theorem Conserves.trans (h : Conserves d es₁ d₁) (h' : Conserves d₁ es₂ d₂) :
    Conserves d (es₁ ++ es₂) d₂ := by
  intro m
  rw [List.filterMap_append, List.filterMap_append, List.filter_append, List.filter_append,
    ← List.append_assoc, h m, List.append_assoc, h' m, List.append_assoc]

/-- Nothing of the host's is touched. -/
theorem Conserves.silent (hnext : d₁.next = d.next) (hqueue : d₁.queue = d.queue)
    (hes : ∀ x ∈ es, x.taken = none ∧ x.done = none) : Conserves d es d₁ := by
  have ht : es.filterMap Effect.taken = [] := List.filterMap_eq_nil_iff.mpr fun x hx => (hes x hx).1
  have hd : es.filterMap Effect.done = [] := List.filterMap_eq_nil_iff.mpr fun x hx => (hes x hx).2
  have hw : d₁.waiting = d.waiting := by
    funext m
    cases m <;> simp only [waiting, hnext, hqueue]
  intro m
  rw [ht, hd, hw]
  exact List.append_nil _

/-- One frame is done with: the first of its class. -/
theorem Conserves.finish {f : HostFrame} {x : Effect} (ht : x.taken = none) (hd : x.done = some f)
    (hw : ∀ m, d.waiting m = (if f.isMulticast = m then [f] else []) ++ d₁.waiting m) :
    Conserves d [x] d₁ := by
  intro m
  rw [hw, List.filterMap_cons_none ht, List.filterMap_cons_some hd]
  by_cases hm : f.isMulticast = m <;> simp [hm]

/-- One frame is read, and waits last of its class. -/
theorem Conserves.take {f : HostFrame}
    (hw : ∀ m, d₁.waiting m = d.waiting m ++ if f.isMulticast = m then [f] else []) :
    Conserves d [.read f] d₁ := by
  intro m
  rw [hw]
  by_cases hm : f.isMulticast = m <;> simp [Effect.taken, Effect.done, hm]

theorem poll_conserves (d : Daemon) (frames : List Buf) :
    Conserves d (d.poll frames).2 (d.poll frames).1 := by
  induction frames generalizing d with
  | nil => exact .refl d
  | cons b bs ih =>
    rw [poll]
    dsimp only
    split_ifs with hfull hfit hm
    · exact .refl d
    · simp only [Bool.or_eq_true, not_or, Bool.not_eq_true] at hfull
      have hread : Conserves d [.read ⟨b, hfit⟩]
          { d with queue := d.queue.put ⟨⟨b, hfit⟩, hm⟩ } := by
        refine .take fun m => ?_
        cases m with
        | true => simp [waiting, hm, d.queue.toList_put _ hfull.2]
        | false => simp [waiting, hm]
      exact hread.trans (ih _)
    · have hnone : d.next = none := by
        simp only [Bool.or_eq_true, not_or, Option.not_isSome_iff_eq_none] at hfull
        exact hfull.1
      have hm' : HostFrame.isMulticast ⟨b, hfit⟩ = false := Bool.eq_false_iff.mpr hm
      have hread : Conserves d [.read ⟨b, hfit⟩] { d with next := some ⟨⟨b, hfit⟩, hm'⟩ } := by
        refine .take fun m => ?_
        cases m with
        | true => simp [waiting, hm']
        | false => simp [waiting, hm', hnone]
      exact hread.trans (ih _)
    · exact .silent rfl rfl fun x hx => by
        obtain rfl := List.mem_singleton.mp hx
        exact ⟨rfl, rfl⟩

/-- A frame that is sent is done with, whether or not its header is whole and the radio takes it. -/
theorem sendData_spec (d : Daemon) (f : HostFrame) (now : UInt64) (sent : Bool) :
    ((d.sendData f now sent).1.next = d.next ∧ (d.sendData f now sent).1.queue = d.queue) ∧
      ∃ x, (d.sendData f now sent).2 = [x] ∧ x.taken = none ∧ x.done = some f := by
  unfold sendData
  split
  · cases sent <;> exact ⟨⟨rfl, rfl⟩, _, rfl, rfl, rfl⟩
  · exact ⟨⟨rfl, rfl⟩, _, rfl, rfl, rfl⟩

theorem sendUnicast_conserves (d : Daemon) (env : Environment) :
    Conserves d (d.sendUnicast env).2 (d.sendUnicast env).1 := by
  unfold sendUnicast
  cases hnext : d.next with
  | none => exact .refl d
  | some f =>
    have hf : f.val.isMulticast = false := f.property
    have hfinish : ∀ (d₀ d₁ : Daemon) (x : Effect), d₀.next = some f → d₁.next = none → d₁.queue = d₀.queue →
        x.taken = none → x.done = some f.val → Conserves d₀ [x] d₁ := by
      intro d₀ d₁ x h0 h1 hq ht hd
      refine .finish ht hd fun m => ?_
      cases m with
      | true => simp [waiting, hf, hq]
      | false => simp [waiting, hf, h0, h1]
    dsimp only
    split_ifs with hself
    · exact hfinish d _ _ hnext rfl rfl rfl rfl
    · split
      · exact hfinish d _ _ hnext rfl rfl rfl rfl
      · rename_i peer hpeer
        have hret : (d.retune env peer).1.next = d.next ∧ (d.retune env peer).1.queue = d.queue := by
          unfold retune
          split_ifs <;> exact ⟨rfl, rfl⟩
        generalize d.retune env peer = r at hret ⊢
        obtain ⟨d', now⟩ := r
        dsimp only at hret ⊢
        split_ifs
        · obtain ⟨⟨hn, hq⟩, x, hx, ht, hd⟩ := sendData_spec { d' with next := none } f now env.sent
          rw [hx]
          exact hfinish d _ x hnext hn (hq.trans hret.2) ht hd
        · exact .silent hret.1 hret.2 fun x hx => absurd hx List.not_mem_nil

theorem sendMulticast_conserves (d : Daemon) (now : UInt64) (sent : Bool) :
    Conserves d (d.sendMulticast now sent).2 (d.sendMulticast now sent).1 := by
  unfold sendMulticast
  split_ifs
  · split
    · exact .refl d
    · rename_i f queue hget
      have hf : f.val.isMulticast = true := f.property
      have hlist : d.queue.toList = f :: queue.toList := d.queue.toList_of_get hget
      obtain ⟨⟨hn, hq⟩, x, hx, ht, hd⟩ := sendData_spec { d with queue := queue } f now sent
      dsimp only
      rw [hx]
      refine .finish ht hd fun m => ?_
      have hn' : (sendData { d with queue := queue } f now sent).1.countMulticast.next = d.next := hn
      have hq' : (sendData { d with queue := queue } f now sent).1.countMulticast.queue = queue := hq
      cases m with
      | true => simp [waiting, hf, hq', hlist]
      | false => simp [waiting, hf, hn']
  · exact .refl d

theorem hostDeviceReady_conserves (d : Daemon) (frames : List Buf) (now : UInt64) (sent : Bool)
    (env : Environment) :
    Conserves d (d.hostDeviceReady frames now sent env).2 (d.hostDeviceReady frames now sent env).1 := by
  have hif : ∀ (c : Bool) (d : Daemon) (r : Daemon × List Effect), Conserves d r.2 r.1 →
      Conserves d (if c then r else (d, [])).2 (if c then r else (d, [])).1 := by
    intro c d r h
    cases c with
    | true => exact h
    | false => exact .refl d
  exact (poll_conserves d frames).trans
    ((hif _ _ _ (sendMulticast_conserves _ now sent)).trans (hif _ _ _ (sendUnicast_conserves _ env)))

theorem sendAction_conserves (d : Daemon) (type : ActionType) (steadyTime now : UInt64) (sent : Bool) :
    Conserves d (d.sendAction type steadyTime now sent).2 (d.sendAction type steadyTime now sent).1 := by
  refine .silent rfl rfl fun x hx => ?_
  cases sent with
  | true =>
    obtain rfl := List.mem_singleton.mp hx
    exact ⟨rfl, rfl⟩
  | false => exact absurd hx List.not_mem_nil

theorem step_conserves (d : Daemon) (e : Event) :
    Conserves d (d.step radiotap e).2 (d.step radiotap e).1 := by
  cases e with
  | hostDeviceReady frames now sent env => exact hostDeviceReady_conserves d frames now sent env
  | sendUnicast env => exact sendUnicast_conserves d env
  | sendMulticast now sent => exact sendMulticast_conserves d now sent
  | receiveFrame list frame now =>
    show Conserves d (d.receiveFrame radiotap list frame now).2 (d.receiveFrame radiotap list frame now).1
    unfold receiveFrame
    dsimp only
    split_ifs
    all_goals
      refine .silent rfl rfl fun x hx => ?_
      first
        | exact absurd hx List.not_mem_nil
        | obtain rfl := List.mem_singleton.mp hx
          exact ⟨rfl, rfl⟩
        | obtain ⟨b, -, rfl⟩ := List.mem_map.mp hx
          exact ⟨rfl, rfl⟩
  | cleanPeers now => exact .silent rfl rfl fun x hx => absurd hx List.not_mem_nil
  | switchChannel env => exact .silent rfl rfl fun x hx => absurd hx List.not_mem_nil
  | sendPsf steadyTime now sent => exact sendAction_conserves d .psf steadyTime now sent
  | sendMif steadyTime now sent =>
    show Conserves d (d.sendMif steadyTime now sent).2 (d.sendMif steadyTime now sent).1
    unfold sendMif
    split_ifs
    · exact sendAction_conserves d .mif steadyTime now sent
    · exact .refl d

/-- **No frame of the host is lost, sent twice or overtaken**: in every run, for the unicast frames and for
the multicast frames, what waited at the start and then was read is what the daemon is done with,
followed by what still waits. -/
theorem run_frames (d : Daemon) (evs : List Event) :
    Conserves d (d.run radiotap evs).2 (d.run radiotap evs).1 := by
  induction evs generalizing d with
  | nil => exact .refl d
  | cons e evs ih => exact (step_conserves d e).trans (ih _)

end Daemon

/-! ### When a frame is injected -/

/-- What is injected is the host's frame, with the addresses and the payload that it has. -/
def Effect.Formed : Effect → Prop
  | .air f bytes state _ => ∃ src dst ieee, readEtherAddr f.bytes 0 = some dst ∧
      readEtherAddr f.bytes 6 = some src ∧ (readBe16 f.bytes 12).isSome ∧
      bytes = (initFullDataFrame src dst (f.bytes.drop 14) state ieee).1
  | _ => True

/-- A clock that is less than the guard away, and follows the same plan, is on the channel that the radio
was set to: for a unicast frame the plan of its destination, for a multicast frame the sender's. -/
def Effect.OnTime : Effect → Prop
  | .air f _ state now =>
    if f.isMulticast then state.tuned ≠ 0 ∧
      ∀ t : ℤ, -(1024 * multicastGuardTu) ≤ t → t < 1024 * multicastGuardTu →
      isMulticastSlot (slotOf (state.sync.place now.toNat + t)) = true ∧
        state.planned (slotOf (state.sync.place now.toNat + t)) = state.tuned
    else ∃ peer, state.peers.peers.get f.dst = some peer ∧
      ∀ t : ℤ, -(1024 * unicastGuardTu) ≤ t → t < 1024 * unicastGuardTu →
        Agrees state peer (slotOf (state.sync.place now.toNat + t))
  | _ => True

def Effect.Good (x : Effect) : Prop := x.Formed ∧ x.OnTime

namespace Daemon

variable {radiotap : Buf → Option Radiotap} {d : Daemon}

theorem poll_good (d : Daemon) (frames : List Buf) : ∀ x ∈ (d.poll frames).2, x.Good := by
  induction frames generalizing d with
  | nil => exact fun x hx => absurd hx List.not_mem_nil
  | cons b bs ih =>
    rw [poll]
    dsimp only
    split_ifs
    · exact fun x hx => absurd hx List.not_mem_nil
    · rintro x (_ | ⟨_, hx⟩)
      · exact ⟨trivial, trivial⟩
      · exact ih _ x hx
    · rintro x (_ | ⟨_, hx⟩)
      · exact ⟨trivial, trivial⟩
      · exact ih _ x hx
    · rintro x (_ | ⟨_, hx⟩)
      · exact ⟨trivial, trivial⟩
      · exact absurd hx List.not_mem_nil

/-- The only effect that a frame is sent with says when and where. -/
theorem sendData_good {f : HostFrame} {now : UInt64} {sent : Bool}
    (h : ∀ bytes, (Effect.air f bytes d.state now).OnTime) : ∀ x ∈ (d.sendData f now sent).2, x.Good := by
  unfold sendData
  split
  · rename_i type dst src htype hdst hsrc
    rintro x (_ | ⟨_, hx⟩)
    · cases sent with
      | true => exact ⟨⟨src, dst, d.ieee, hdst, hsrc, by rw [htype]; rfl, rfl⟩, h _⟩
      | false => exact ⟨trivial, trivial⟩
    · exact absurd hx List.not_mem_nil
  · rintro x (_ | ⟨_, hx⟩)
    · exact ⟨trivial, trivial⟩
    · exact absurd hx List.not_mem_nil

theorem sendUnicast_good (h : d.state.Fit) (env : Environment) :
    ∀ x ∈ (d.sendUnicast env).2, x.Good := by
  have hone : ∀ e : Effect, e.Good → ∀ x ∈ [e], x.Good := by
    intro e he x hx
    obtain rfl := List.mem_singleton.mp hx
    exact he
  unfold sendUnicast
  cases d.next with
  | none => exact fun x hx => absurd hx List.not_mem_nil
  | some f =>
    dsimp only
    split_ifs with hself
    · exact hone _ ⟨trivial, trivial⟩
    · split
      · exact hone _ ⟨trivial, trivial⟩
      · rename_i peer hpeer
        have hfit := h.moves (d.retune_moves (E := False) (R := False) env peer)
        have hpeers : (d.retune env peer).1.state.peers = d.state.peers := by
          unfold retune State.switchChannel
          dsimp only
          split_ifs <;> rfl
        generalize d.retune env peer = r at hfit hpeers ⊢
        obtain ⟨d', now⟩ := r
        dsimp only at hfit hpeers ⊢
        split_ifs with hzero
        · refine sendData_good fun bytes => ?_
          have hoff : peer.syncOffset = 0 := h.sound.aligned f.val.dst peer hpeer
          have hagree := (canSendUnicastIn_eq_zero hfit.sound.regular hoff (by decide) (by decide)).mp hzero
          have hf : f.val.isMulticast = false := f.property
          rw [Effect.OnTime, hf, if_neg Bool.false_ne_true]
          exact ⟨peer, by rw [hpeers, hpeer], hagree⟩
        · exact fun x hx => absurd hx List.not_mem_nil

theorem sendMulticast_good (h : d.state.Fit) (now : UInt64) (sent : Bool) :
    ∀ x ∈ (d.sendMulticast now sent).2, x.Good := by
  unfold sendMulticast
  split_ifs with hcan
  · split
    · exact fun x hx => absurd hx List.not_mem_nil
    · rename_i f queue hget
      refine sendData_good fun bytes => ?_
      have hagree := (canSendMulticastIn_eq_zero h.sound.regular (by decide) (by decide)).mp hcan.2
      have hf : f.val.isMulticast = true := f.property
      rw [Effect.OnTime, hf, if_pos rfl]
      exact hagree
  · exact fun x hx => absurd hx List.not_mem_nil

theorem hostDeviceReady_good (h : d.state.Fit) (frames : List Buf) (now : UInt64) (sent : Bool)
    (env : Environment) : ∀ x ∈ (d.hostDeviceReady frames now sent env).2, x.Good := by
  have hpoll : (d.poll frames).1.state.Fit := by
    rw [poll_state]
    exact h
  have hif : ∀ (c : Bool) (d : Daemon) (r : Daemon × List Effect), (∀ x ∈ r.2, x.Good) →
      ∀ x ∈ (if c then r else (d, [])).2, x.Good := by
    intro c d r hr
    cases c with
    | true => exact hr
    | false => exact fun x hx => absurd hx List.not_mem_nil
  have hfit : ∀ c : Bool,
      (if c then (d.poll frames).1.sendMulticast now sent else ((d.poll frames).1, [])).1.state.Fit := by
    intro c
    cases c with
    | true => exact hpoll.moves (sendMulticast_moves (E := False) (R := False) _ now sent)
    | false => exact hpoll
  intro x hx
  rcases List.mem_append.mp hx with hx | hx
  · exact poll_good d frames x hx
  · rcases List.mem_append.mp hx with hx | hx
    · exact hif _ _ _ (sendMulticast_good hpoll now sent) x hx
    · exact hif _ _ _ (sendUnicast_good (hfit _) env) x hx

theorem sendAction_good (type : ActionType) (steadyTime now : UInt64) (sent : Bool) :
    ∀ x ∈ (d.sendAction type steadyTime now sent).2, x.Good := by
  intro x hx
  cases sent with
  | true =>
    obtain rfl := List.mem_singleton.mp hx
    exact ⟨trivial, trivial⟩
  | false => exact absurd hx List.not_mem_nil

theorem step_good (h : d.state.Fit) (e : Event) : ∀ x ∈ (d.step radiotap e).2, x.Good := by
  cases e with
  | hostDeviceReady frames now sent env => exact hostDeviceReady_good h frames now sent env
  | sendUnicast env => exact sendUnicast_good h env
  | sendMulticast now sent => exact sendMulticast_good h now sent
  | receiveFrame list frame now =>
    intro x hx
    change x ∈ (d.receiveFrame radiotap list frame now).2 at hx
    unfold receiveFrame at hx
    dsimp only at hx
    split_ifs at hx
    all_goals first
      | exact absurd hx List.not_mem_nil
      | obtain rfl := List.mem_singleton.mp hx
        exact ⟨trivial, trivial⟩
      | obtain ⟨b, -, rfl⟩ := List.mem_map.mp hx
        exact ⟨trivial, trivial⟩
  | cleanPeers now => exact fun x hx => absurd hx List.not_mem_nil
  | switchChannel env => exact fun x hx => absurd hx List.not_mem_nil
  | sendPsf steadyTime now sent => exact sendAction_good .psf steadyTime now sent
  | sendMif steadyTime now sent =>
    intro x hx
    change x ∈ (d.sendMif steadyTime now sent).2 at hx
    unfold sendMif at hx
    split_ifs at hx
    · exact sendAction_good .mif steadyTime now sent x hx
    · exact absurd hx List.not_mem_nil

theorem run_good {num : ℕ} {opts : Options} {hostname : Buf} {self : EtherAddr} {now : UInt64}
    {sui : UInt16} {memory : ℕ → { f : HostFrame // f.isMulticast = true }}
    (h : start num opts hostname self now sui memory = some d) (evs : List Event) :
    ∀ x ∈ (d.run radiotap evs).2, x.Good :=
  (run_invariant (fun d => d.state.Fit) Effect.Good
    (fun _ e hd => ⟨hd.moves (step_moves _ e), step_good hd e⟩) (start_fit h) evs).2

/-- **Frames go on the air when they can be heard**, whatever callbacks run in whatever order: every frame
injected in a run is on time. -/
theorem run_air {num : ℕ} {opts : Options} {hostname : Buf} {self : EtherAddr} {now : UInt64}
    {sui : UInt16} {memory : ℕ → { f : HostFrame // f.isMulticast = true }}
    (h : start num opts hostname self now sui memory = some d) (evs : List Event) :
    ∀ x ∈ (d.run radiotap evs).2, x.OnTime := fun x hx => (run_good h evs x hx).2

/-- Callbacks that set the radio to its channel, and bring a frame to everybody. -/
def oneFrame : List Event :=
  let env : Environment := ⟨32768, 32768, 0, true, 32768, true⟩
  [.switchChannel env,
    .hostDeviceReady [[1, 0, 0, 0, 0, 0, 2, 0, 0, 0, 0, 1, 8, 0, 7]] 32768 true env]

theorem air_oneFrame : ∃ bytes state sent,
    Effect.air ⟨[1, 0, 0, 0, 0, 0, 2, 0, 0, 0, 0, 1, 8, 0, 7], by decide⟩ bytes state sent ∈
      ((fresh ⟨[2, 0, 0, 0, 0, 1], rfl⟩).run (fun _ => none) oneFrame).2 :=
  ⟨_, _, _, List.mem_cons_of_mem _ List.mem_cons_self⟩

theorem run_air_fresh : ∃ f bytes state sent,
    Effect.air f bytes state sent ∈
      ((fresh ⟨[2, 0, 0, 0, 0, 1], rfl⟩).run (fun _ => none) oneFrame).2 ∧
    (Effect.air f bytes state sent).OnTime := by
  obtain ⟨bytes, state, sent, hair⟩ := air_oneFrame
  exact ⟨_, bytes, state, sent, hair, run_air (start_fresh _) oneFrame _ hair⟩

end Daemon

end AquaTransport.Awdl
