import HashAccelerator.Session
/-!
# What an action guarantees

An action either waits without end or returns one answer and one state. `Always` is the guarantee
that holds of every return, and so of an action that does not return at all; `Returns` has the return
itself besides. Both are computed along the action: a rule for each way of building one, and a rule
for each call on the platform, so that a proof follows the text of the action it is about.
-/

namespace HashAccelerator

variable {σ α β : Type}

/-- **Partial correctness.** Whatever the action returns satisfies `post`. -/
def Always (action : StateT σ Option α) (s : σ) (post : α → σ → Prop) : Prop :=
  ∀ a s', action.run s = some (a, s') → post a s'

/-- **Total correctness.** The action returns, and what it returns satisfies `post`. -/
def Returns (action : StateT σ Option α) (s : σ) (post : α → σ → Prop) : Prop :=
  ∃ a s', action.run s = some (a, s') ∧ post a s'

section Rules

variable {s : σ} {post : α → σ → Prop}

/-- A weaker guarantee holds as well. -/
theorem Always.mono {action : StateT σ Option α} {post' : α → σ → Prop}
    (h : Always action s post) (hp : ∀ a s', post a s' → post' a s') : Always action s post' :=
  fun a s' hrun => hp a s' (h a s' hrun)

@[simp] theorem always_true {action : StateT σ Option α} : Always action s fun _ _ => True :=
  fun _ _ _ => trivial

theorem Always.and {action : StateT σ Option α} {post' : α → σ → Prop}
    (h : Always action s post) (h' : Always action s post') :
    Always action s fun a s' => post a s' ∧ post' a s' :=
  fun a s' hrun => ⟨h a s' hrun, h' a s' hrun⟩

/-- What an action returns is known where its run is. -/
theorem always_iff_of_run {action : StateT σ Option α} {a : α} {s' : σ}
    (h : action.run s = some (a, s')) : Always action s post ↔ post a s' := by
  constructor
  · exact fun hall => hall a s' h
  · intro hpost b t hrun
    rw [h] at hrun
    cases hrun
    exact hpost

@[simp] theorem always_pure {a : α} : Always (pure a) s post ↔ post a s :=
  always_iff_of_run rfl

/-- The run of a sequence is the run of its parts. -/
theorem run_bind_eq_some {action : StateT σ Option α} {next : α → StateT σ Option β} {b : β}
    {s'' : σ} : (action >>= next).run s = some (b, s'') ↔
      ∃ a s', action.run s = some (a, s') ∧ (next a).run s' = some (b, s'') := by
  rw [StateT.run_bind]
  constructor
  · intro h
    obtain ⟨⟨a, s'⟩, ha, hb⟩ := Option.bind_eq_some_iff.1 h
    exact ⟨a, s', ha, hb⟩
  · rintro ⟨a, s', ha, hb⟩
    exact Option.bind_eq_some_iff.2 ⟨(a, s'), ha, hb⟩

@[simp] theorem always_bind {action : StateT σ Option α} {next : α → StateT σ Option β}
    {post : β → σ → Prop} : Always (action >>= next) s post ↔
      Always action s fun a s' => Always (next a) s' post := by
  constructor
  · exact fun h a s' ha b s'' hb => h b s'' (run_bind_eq_some.2 ⟨a, s', ha, hb⟩)
  · intro h b s'' hrun
    obtain ⟨a, s', ha, hb⟩ := run_bind_eq_some.1 hrun
    exact h a s' ha b s'' hb

/-- Sequences agree that go on alike after whatever their first part returns. -/
theorem Always.bind_congr {action : StateT σ Option α} {next next' : α → StateT σ Option β}
    (h : ∀ s, Always action s fun a s' => (next a).run s' = (next' a).run s') :
    action >>= next = action >>= next' := by
  refine StateT.ext fun s => ?_
  rw [StateT.run_bind, StateT.run_bind]
  exact Option.bind_congr fun r hr => h s r.1 r.2 hr

@[simp] theorem always_map {action : StateT σ Option α} {f : α → β} {post : β → σ → Prop} :
    Always (f <$> action) s post ↔ Always action s fun a s' => post (f a) s' := by
  simp only [map_eq_pure_bind, always_bind, always_pure]

@[simp] theorem always_get {post : σ → σ → Prop} : Always get s post ↔ post s s :=
  always_iff_of_run rfl

@[simp] theorem always_modify {change : σ → σ} {post : PUnit → σ → Prop} :
    Always (modify change) s post ↔ post ⟨⟩ (change s) :=
  always_iff_of_run rfl

/-- A guarantee for each branch is one for the choice. -/
theorem Always.ite {c : Prop} [Decidable c] {yes no : StateT σ Option α}
    (hyes : c → Always yes s post) (hno : ¬ c → Always no s post) :
    Always (if c then yes else no) s post := by
  split
  · exact hyes ‹_›
  · exact hno ‹_›

/-! ## Returning -/

theorem Returns.mono {action : StateT σ Option α} {post' : α → σ → Prop}
    (h : Returns action s post) (hp : ∀ a s', post a s' → post' a s') : Returns action s post' := by
  obtain ⟨a, s', hrun, hpost⟩ := h
  exact ⟨a, s', hrun, hp a s' hpost⟩

/-- An action has one way to return. -/
theorem Returns.always {action : StateT σ Option α} (h : Returns action s post) :
    Always action s post := by
  obtain ⟨a, s', hrun, hpost⟩ := h
  exact (always_iff_of_run hrun).2 hpost

/-- An action that returns does so with all its guarantees. -/
theorem Returns.and_always {action : StateT σ Option α} {post' : α → σ → Prop}
    (h : Returns action s post) (h' : Always action s post') :
    Returns action s fun a s' => post a s' ∧ post' a s' := by
  obtain ⟨a, s', hrun, hpost⟩ := h
  exact ⟨a, s', hrun, hpost, h' a s' hrun⟩

theorem returns_pure {a : α} (h : post a s) : Returns (pure a) s post := ⟨a, s, rfl, h⟩

/-- A sequence returns if its first part does and its second part does after it. -/
theorem Returns.bind {action : StateT σ Option α} {next : α → StateT σ Option β}
    {mid : α → σ → Prop} {post : β → σ → Prop} (h : Returns action s mid)
    (h' : ∀ a s', mid a s' → Returns (next a) s' post) : Returns (action >>= next) s post := by
  obtain ⟨a, s', hrun, hmid⟩ := h
  obtain ⟨b, s'', hnext, hpost⟩ := h' a s' hmid
  exact ⟨b, s'', run_bind_eq_some.2 ⟨a, s', hrun, hnext⟩, hpost⟩

/-- After a part whose run is known only the rest counts. -/
theorem Returns.next {action : StateT σ Option α} {next : α → StateT σ Option β} {a : α} {s' : σ}
    {post : β → σ → Prop} (h : action.run s = some (a, s')) (h' : Returns (next a) s' post) :
    Returns (action >>= next) s post := by
  obtain ⟨b, s'', hnext, hpost⟩ := h'
  exact ⟨b, s'', run_bind_eq_some.2 ⟨a, s', h, hnext⟩, hpost⟩

theorem returns_iff_of_run {action : StateT σ Option α} {a : α} {s' : σ}
    (h : action.run s = some (a, s')) : Returns action s post ↔ post a s' := by
  constructor
  · exact fun hreturns => hreturns.always a s' h
  · exact fun hpost => ⟨a, s', h, hpost⟩

/-- Guarantees are about the run alone. -/
theorem always_congr {action action' : StateT σ Option α} {s' : σ}
    (h : action.run s = action'.run s') : Always action s post ↔ Always action' s' post := by
  unfold Always
  rw [h]

theorem returns_congr {action action' : StateT σ Option α} {s' : σ}
    (h : action.run s = action'.run s') : Returns action s post ↔ Returns action' s' post := by
  unfold Returns
  rw [h]

theorem returns_pure_iff {a : α} : Returns (pure a) s post ↔ post a s := returns_iff_of_run rfl

/-- What does not depend on the return may be told apart from it. -/
theorem returns_and_left {c : Prop} {action : StateT σ Option α} :
    (Returns action s fun a s' => c ∧ post a s') ↔ c ∧ Returns action s post := by
  constructor
  · rintro ⟨a, s', hrun, hc, hpost⟩
    exact ⟨hc, a, s', hrun, hpost⟩
  · rintro ⟨hc, a, s', hrun, hpost⟩
    exact ⟨a, s', hrun, hc, hpost⟩

/-- A sequence returns just if its first part does and its second part does after it. -/
theorem returns_bind {action : StateT σ Option α} {next : α → StateT σ Option β}
    {post : β → σ → Prop} : Returns (action >>= next) s post ↔
      Returns action s fun a s' => Returns (next a) s' post := by
  constructor
  · rintro ⟨b, s'', hrun, hpost⟩
    obtain ⟨a, s', ha, hb⟩ := run_bind_eq_some.1 hrun
    exact ⟨a, s', ha, b, s'', hb, hpost⟩
  · exact fun h => h.bind fun _ _ hnext => hnext

/-- What is returned may be said to be something only if it is that. -/
theorem Returns.eq_iff {action : StateT σ Option α} {answer : α → β} {b c : β}
    (h : Returns action s fun a _ => answer a = b) :
    (Returns action s fun a _ => answer a = c) ↔ b = c := by
  obtain ⟨a, s', hrun, rfl⟩ := h
  exact returns_iff_of_run hrun

theorem Returns.ite {c : Prop} [Decidable c] {yes no : StateT σ Option α}
    (hyes : c → Returns yes s post) (hno : ¬ c → Returns no s post) :
    Returns (if c then yes else no) s post := by
  split
  · exact hyes ‹_›
  · exact hno ‹_›

end Rules

/-! ## The engine's calls -/

namespace EngineM

variable {ρ κ μ : Type} {engine : Engine ρ κ μ}

@[simp] theorem always_never {post : α → Engine ρ κ μ → Prop} : Always never engine post :=
  fun _ _ h => by cases h

@[simp] theorem always_record {event : Event} {post : Unit → Engine ρ κ μ → Prop} :
    Always (record event) engine post ↔
      post () { engine with history := event :: engine.history } :=
  always_iff_of_run rfl

@[simp] theorem always_note {notice : Notice} {post : Unit → Engine ρ κ μ → Prop} :
    Always (note notice) engine post ↔
      post () { engine with notices := notice :: engine.notices } :=
  always_iff_of_run rfl

section Registers

variable [RegisterBlock ρ]

@[simp] theorem always_readRegister {address : UInt32} {post : UInt32 → Engine ρ κ μ → Prop} :
    Always (readRegister address) engine post ↔
      post (RegisterBlock.read address engine.registers).1 { engine with
        registers := (RegisterBlock.read address engine.registers).2
        history := .read address (RegisterBlock.read address engine.registers).1 ::
          engine.history } :=
  always_iff_of_run rfl

@[simp] theorem always_writeRegister {address value : UInt32}
    {post : Unit → Engine ρ κ μ → Prop} :
    Always (writeRegister address value) engine post ↔ post () { engine with
      registers := RegisterBlock.write address value engine.registers
      history := .write address value :: engine.history } :=
  always_iff_of_run rfl

@[simp] theorem always_fence {post : Unit → Engine ρ κ μ → Prop} :
    Always fence engine post ↔ post () { engine with
      registers := RegisterBlock.barrier engine.registers
      history := .barrier :: engine.history } :=
  always_iff_of_run rfl

end Registers

section Clock

variable [GatedClock κ]

@[simp] theorem always_enableClock {post : Unit → Engine ρ κ μ → Prop} :
    Always enableClock engine post ↔ post () { engine with
      clock := GatedClock.enable engine.clock
      history := .clockEnabled :: engine.history } :=
  always_iff_of_run rfl

@[simp] theorem always_disableClock {post : Unit → Engine ρ κ μ → Prop} :
    Always disableClock engine post ↔ post () { engine with
      clock := GatedClock.disable engine.clock
      history := .clockDisabled :: engine.history } :=
  always_iff_of_run rfl

@[simp] theorem always_isClockEnabled {post : Bool → Engine ρ κ μ → Prop} :
    Always isClockEnabled engine post ↔
      post (GatedClock.isEnabled engine.clock).1 { engine with
        clock := (GatedClock.isEnabled engine.clock).2
        history := .clockQueried (GatedClock.isEnabled engine.clock).1 :: engine.history } :=
  always_iff_of_run rfl

end Clock

section Mutex

variable [EngineMutex μ]

@[simp] theorem always_tryMutex {timeout : Nat} {post : LockAnswer → Engine ρ κ μ → Prop} :
    Always (tryMutex timeout) engine post ↔
      post (EngineMutex.tryLock timeout engine.mutex).1 { engine with
        mutex := (EngineMutex.tryLock timeout engine.mutex).2
        history := .lockTried timeout (EngineMutex.tryLock timeout engine.mutex).1 ::
          engine.history } :=
  always_iff_of_run rfl

@[simp] theorem always_unlockMutex {post : Unit → Engine ρ κ μ → Prop} :
    Always unlockMutex engine post ↔ post () { engine with
      mutex := EngineMutex.unlock engine.mutex
      history := .unlocked :: engine.history } :=
  always_iff_of_run rfl

end Mutex

end EngineM

end HashAccelerator
