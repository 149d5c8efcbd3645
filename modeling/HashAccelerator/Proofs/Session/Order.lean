import HashAccelerator.Proofs.Session.Calls
/-!
# Every course is in order

The steps of a session, kind by kind, and from them every course: whatever the parties do, and
whatever happens to the platform in between, at most one place holds the mutex and everybody's
standing is in order (`Course.Reached.inOrder`).
-/

namespace HashAccelerator

open EngineM

variable {ρ κ μ : Type} [RegisterBlock ρ] [GatedClock κ] [EngineMutex μ]

/-- A stream begins with an operation that holds nothing. -/
theorem HashStream.standing_start (algorithm : Algorithm) :
    (HashStream.start algorithm).operation.Standing ∧
      (HashStream.start algorithm).operation.holdsMutex = false := by
  unfold HashStream.start
  split
  · exact ⟨Operation.standing_fresh algorithm, rfl⟩
  · exact ⟨Operation.standing_softwareOnly algorithm, rfl⟩

namespace Course

variable {c : Course ρ κ μ} {K : Engine ρ κ μ → Prop}

/-- **A call of a party keeps the session in order**, with whatever else no party's call changes. -/
theorem InOrder.call (hK : KeptByParties K) (h : c.InOrder) (hkept : K c.engine) {step : Step ρ μ}
    (hcall : step.IsCall) : Always (Session.step step) c.session fun answer s =>
      Follows K c step.Concerns (c.next step answer s) := by
  -- the kind of the step says who moves, and its action how the mover is tended
  cases step with
  | create name algorithm software =>
    have hstanding : Operation.Standing
        (if software then .softwareOnly algorithm else .fresh algorithm) ∧
        (if software then Operation.softwareOnly algorithm else .fresh algorithm).holdsMutex =
          false := by
      split
      · exact ⟨Operation.standing_softwareOnly algorithm, rfl⟩
      · exact ⟨Operation.standing_fresh algorithm, rfl⟩
    simp only [Session.step, Session.putOperation, always_bind, always_modify, always_pure]
    exact h.created hkept rfl _ hstanding.1 hstanding.2
  | acquire name =>
    refine h.operate hkept (.acquire name) rfl rfl fun a ha => ?_
    simp only [always_bind, Session.always_onEngine, always_pure]
    exact ((hK.tended c _).acquire ha).mono fun r e he => ⟨e, rfl, he⟩
  | release name =>
    refine h.operate hkept (.release name) rfl rfl fun a ha => ?_
    simp only [always_bind, Session.always_onEngine, always_pure]
    exact ((hK.tended c _).release ha).mono fun r e he => ⟨e, rfl, he⟩
  | settle name =>
    refine h.operate hkept (.settle name) rfl rfl fun a ha => ?_
    simp only [always_bind, Session.always_onEngine, always_pure]
    refine ((hK.settle ha.1.1 ha.1.2).and ((kept_suffix c.engine.history).settle a ha.2)).mono
      fun r e he => ⟨e, rfl, ⟨he.1.1.1, he.1.2⟩, he.2⟩
  | submit name words =>
    refine h.operate hkept (.submit name words) rfl rfl fun a ha => ?_
    simp only [always_bind, Session.always_onEngine, always_pure]
    exact ((hK.tended c _).submit words ha).mono fun r e he => ⟨e, rfl, he⟩
  | fetch name out =>
    refine h.operate hkept (.fetch name out) rfl rfl fun a ha => ?_
    simp only [always_bind, Session.always_onEngine, always_pure]
    exact ((hK.tended c _).fetch out ha).mono fun r e he => ⟨e, rfl, he⟩
  | start name algorithm software =>
    have hstanding : (if software then HashStream.inSoftware algorithm
        else .start algorithm).operation.Standing ∧
        (if software then HashStream.inSoftware algorithm
          else .start algorithm).operation.holdsMutex = false := by
      split
      · exact ⟨Operation.standing_softwareOnly algorithm, rfl⟩
      · exact HashStream.standing_start algorithm
    simp only [Session.step, always_bind, always_pure]
    exact h.put hK hkept c.nextLost rfl rfl (fun hne => absurd rfl hne)
      ⟨hstanding.1, fun _ => hstanding.2, fun hne => absurd rfl hne, fun _ _ => rfl⟩
  | adopt name operation =>
    simp only [Session.step, always_bind, always_get]
    cases ha : c.session.operations[operation]? with
    | none =>
      simp only [always_pure]
      exact h.idle hkept rfl (party?_next _ rfl rfl rfl)
    | some a =>
      -- the operation loses its name to the stream, with all that it holds
      simp only [always_bind, always_modify, always_pure]
      have hparty : c.party? (.operation operation) = some a := ha
      refine h.put hK hkept (.operation operation) rfl (Or.inl rfl) (fun _ => Or.inr rfl)
        ⟨h.standing hparty, (fun h => by cases h), fun _ => ⟨operation, rfl, hparty, ?_⟩,
          fun other hne => ?_⟩
      · simp
      · have hne' : operation ≠ other := fun heq => hne (by rw [heq])
        simp [Std.TreeMap.getElem?_erase, hne']
  | absorb name bytes partSize =>
    refine h.stream hkept (.absorb name bytes partSize) rfl rfl fun s hs => ?_
    simp only [always_bind, Session.always_onEngine, always_pure]
    cases partSize with
    | none => exact ((hK.tended c _).absorb bytes hs).mono fun r e he => ⟨e, rfl, he⟩
    | some size => exact ((hK.tended c _).absorbAll _ hs).mono fun r e he => ⟨e, rfl, he⟩
  | finish name =>
    refine h.ending hkept (.finish name) rfl rfl fun s hs => ?_
    simp only [always_bind, Session.always_onEngine, always_pure]
    exact ((hK.tended c _).finish hs).mono fun r e he => ⟨e, rfl, he⟩
  | cancel name =>
    refine h.ending hkept (.cancel name) rfl rfl fun s hs => ?_
    simp only [always_bind, Session.always_onEngine, always_pure]
    exact ((hK.tended c _).cancel hs).mono fun r e he => ⟨e, rfl, he⟩
  | discard name =>
    refine h.ending hkept (.discard name) rfl rfl fun s hs => ?_
    simp only [always_bind, Session.always_onEngine, always_pure]
    exact ((hK.tended c _).discard hs).mono fun r e he => ⟨e, rfl, he⟩
  | digest algorithm message =>
    -- the stream of a whole message has no name, and is gone when the step ends
    obtain ⟨hstanding, hfree⟩ := HashStream.standing_start algorithm
    refine h.passing hkept (.digest algorithm message) rfl hstanding hfree fun hs => ?_
    simp only [Session.step, always_bind, Session.always_onEngine, always_pure]
    exact ((hK.tended c _).digest algorithm message hs).mono fun r e he => ⟨e, rfl, he⟩
  | _ => exact hcall.elim

/-- **What happens outside leaves the parties alone.** -/
theorem InOrder.outside (h : c.InOrder) {step : Step ρ μ} (hout : step.IsOutside) :
    Always (Session.step step) c.session fun answer s => (c.next step answer s).InOrder := by
  have hsame : ∀ (answer : Answer) (e : Engine ρ κ μ),
      (e.history = c.engine.history ∨
        ∃ event : Event, event.hold? = none ∧ e.history = event :: c.engine.history) →
      step.displaced? c.session = none →
      (c.next step answer { c.session with engine := e }).InOrder := by
    intro answer e hhistory hnone
    exact h.quiet hhistory (party?_next answer hnone rfl rfl)
  cases step with
  | enableClock => simpa [Session.step] using hsame .done _ (Or.inr ⟨.clockEnabled, rfl, rfl⟩) rfl
  | disableClock => simpa [Session.step] using hsame .done _ (Or.inr ⟨.clockDisabled, rfl, rfl⟩) rfl
  | isClockEnabled =>
    simpa [Session.step] using hsame _ _ (Or.inr ⟨.clockQueried _, rfl, rfl⟩) rfl
  | readSettings =>
    simp only [Session.step, always_bind, always_get, always_pure]
    exact hsame _ c.engine (Or.inl rfl) rfl
  | alterRegisters change =>
    simpa [Session.step] using
      hsame .done { c.session.engine with registers := change c.session.engine.registers }
        (Or.inl rfl) rfl
  | alterMutex change =>
    simpa [Session.step] using
      hsame .done { c.session.engine with mutex := change c.session.engine.mutex } (Or.inl rfl) rfl
  | _ => exact hout.elim

omit [RegisterBlock ρ] [GatedClock κ] [EngineMutex μ] in
/-- A session that nobody has joined yet is in order, if the mutex is free. -/
theorem inOrder_ofEngine {engine : Engine ρ κ μ} (hfree : isHeld engine.history = false) :
    InOrder { session := .ofEngine engine } := by
  have hparties : ∀ p, party? ({ session := .ofEngine engine } : Course ρ κ μ) p = none := by
    intro p
    cases p <;> simp [party?, Session.ofEngine]
  refine ⟨fun {p a} hp => ?_, fun _ {p q} hp => ?_, fun _ => ?_⟩
  · rw [hparties p] at hp
    cases hp
  · exact absurd hp (not_holds_of_none (hparties p))
  · constructor
    · intro hheld
      rw [show isHeld engine.history = true from hheld] at hfree
      cases hfree
    · rintro ⟨p, hp⟩
      exact absurd hp (not_holds_of_none (hparties p))

/-- **Every course is in order**, if all its steps are calls of the parties or happen outside. -/
theorem Reached.inOrder {fair : Course ρ κ μ → Step ρ μ → Prop} {engine : Engine ρ κ μ}
    (hfree : isHeld engine.history = false)
    (hfair : ∀ c step, fair c step → step.IsCall ∨ step.IsOutside)
    (h : Reached fair (.ofEngine engine) c) : c.InOrder := by
  refine h.induct (inOrder_ofEngine hfree) fun c step hc hstep => ?_
  rcases hfair c step hstep with hcall | hout
  · exact (hc.call (.of_kept (kept_suffix [])) List.nil_suffix hcall).mono
      fun _ _ hfollows => hfollows.inOrder
  · exact hc.outside hout

end Course

end HashAccelerator
