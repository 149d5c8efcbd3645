import HashAccelerator.Platform.Clock
import HashAccelerator.Platform.Peripheral
import HashAccelerator.Platform.Scripted
import HashAccelerator.Proofs.Engine.Creation
import HashAccelerator.Proofs.Engine.Return
import HashAccelerator.Proofs.Session.Kept
/-!
# The mutex is created on demand

Whatever becomes of its creations, and whoever asks for the engine while one is under way, an engine
creates its mutex once: when it is first asked for, and as often again as that fails. An operation
holds the mutex only after a creation (`Entitled`), so the use that operations and streams make of the
engine keeps the engine in the phase that its history recounts; and the self-test and all that
happens outside keep it there too.

`Course.CreatesOnDemand` is what this comes to for an engine that began unused: what its history knows
of creations, what the next operation that asks for the engine meets, and what one meets that asks
while a creation is under way.
-/

namespace HashAccelerator

open EngineM

/-- An operation is in good standing, and holds the mutex only if there is one. -/
def Entitled (a : Operation) (history : List Event) : Prop :=
  a.Standing ∧ (a.holdsMutex = true → Created history)

variable {ρ κ μ : Type} {e : Engine ρ κ μ} {a : Operation}

theorem Entitled.grown {older newer : List Event} (h : Entitled a older) (hgrown : older <:+ newer) :
    Entitled a newer :=
  ⟨h.1, fun hholds => hgrown.subset (h.2 hholds)⟩

/-- The engine is in its phase for everybody who is entitled. -/
theorem EngineM.InPhase.entitled (h : InPhase e) (ha : Entitled a e.history) :
    InPhaseFor a.holdsMutex e :=
  ⟨h, fun hholds => h.ready_iff.2 (ha.2 hholds)⟩

variable [RegisterBlock ρ] [GatedClock κ] [EngineMutex μ]

theorem keptByUse_inPhase :
    KeptByUse (fun _ => True) Entitled (InPhase (ρ := ρ) (κ := κ) (μ := μ)) where
  mono := Entitled.grown
  fresh := ⟨Operation.standing_fresh _, fun hholds => by cases hholds⟩
  softwareOnly := ⟨Operation.standing_softwareOnly _, fun hholds => by cases hholds⟩
  note h := h
  acquire ha h := ((acquired_acquire _).and ((h.entitled ha).acquire ha.1)).mono fun r e he =>
    ⟨⟨he.1.standing ha.1, fun hholds => he.2.1.ready_iff.1 (he.2.2 hholds)⟩, he.2.1⟩
  submit {a e} words ha h := by
    have hphase := inPhase_keptByAccess.submit a words h
    have hgrown := (kept_suffix e.history).submit a words (List.suffix_refl _)
    refine (((submitted_submit a words rfl).and hphase).and hgrown).mono fun r e' he => ?_
    obtain ⟨⟨hsubmitted, hkept⟩, hlater⟩ := he
    refine ⟨⟨hsubmitted.standing ha.1, fun hholds => ?_⟩, hkept⟩
    rw [hsubmitted.holdsMutex_eq] at hholds
    exact (ha.grown hlater).2 hholds
  fetch {a e} out _ _ h := inPhase_keptByAccess.fetch a out h
  release ha h := ((always_release _).and (h.entitled ha).release).mono fun a' e he => by
    rw [he.1]
    exact ⟨⟨ha.1.released, fun hholds => by cases hholds⟩, he.2⟩
  settle ha h := ((always_settle _).and (h.entitled ha).settle).mono fun r e he => by
    rw [he.1]
    exact ⟨⟨Operation.standing_fresh _, fun hholds => by cases hholds⟩, he.2⟩

/-! ## Steps -/

/-- The mutex is used past the engine, or an operation is changed by hand. -/
def Step.IsIrregular : Step ρ μ → Prop
  | .adjust .. | .createMutex | .tryMutex _ | .unlockMutex => True
  | _ => False

/-- **Every regular step leaves the engine in its phase.** -/
theorem Session.always_inPhase {session : Session ρ κ μ} {step : Step ρ μ}
    (hregular : ¬ step.IsIrregular) (heveryone : session.Everyone Entitled)
    (h : InPhase session.engine) :
    Always (Session.step step) session fun _ s => s.Everyone Entitled ∧ InPhase s.engine := by
  have hcalled : step.IsCall →
      Always (Session.step step) session fun _ s => s.Everyone Entitled ∧ InPhase s.engine :=
    fun hcall => Session.always_call keptByUse_inPhase hcall (fun _ _ => trivial) heveryone h
  -- where only the engine moves on, everybody stays entitled
  have hengine : ∀ {e : Engine ρ κ μ}, session.engine.history <:+ e.history → InPhase e →
      Everyone Entitled { session with engine := e } ∧ InPhase e :=
    fun hgrown hkept => ⟨heveryone.grown Entitled.grown hgrown, hkept⟩
  have hone : ∀ {e : Engine ρ κ μ} {event : Event}, e.phase = session.engine.phase →
      e.history = event :: session.engine.history → event.isOfMutex = false →
      event.isOfCreation = false → Everyone Entitled { session with engine := e } ∧ InPhase e := by
    intro e event hphase hhistory hmutex hcreation
    refine hengine (hhistory ▸ List.suffix_cons _ _) ?_
    rw [InPhase, hphase, hhistory]
    exact h.other hmutex hcreation
  cases step with
  | adjust name => exact absurd trivial hregular
  | createMutex => exact absurd trivial hregular
  | tryMutex timeout => exact absurd trivial hregular
  | unlockMutex => exact absurd trivial hregular
  | copy source target =>
    simp only [Session.step, always_bind, always_get]
    cases ha : session.operations[source]? with
    | none => exact always_pure.2 ⟨heveryone, h⟩
    | some a =>
      simp only [Session.putOperation, always_bind, always_modify, always_pure]
      exact ⟨heveryone.insertOperation target (heveryone.operation ha), h⟩
  | awaitIdle =>
    simp only [Session.step, always_bind, Session.always_onEngine, always_pure]
    exact ((inPhase_keptByAccess.awaitIdle h).and
      ((kept_suffix _).awaitIdle (List.suffix_refl _))).mono fun _ e he => hengine he.2 he.1
  | awaitClear address =>
    simp only [Session.step, always_bind, Session.always_onEngine, always_pure]
    exact ((inPhase_keptByAccess.awaitClear address h).and
      ((kept_suffix _).awaitClear address (List.suffix_refl _))).mono fun _ e he => hengine he.2 he.1
  | readRegister _ | writeRegister _ _ | fence | enableClock | disableClock | isClockEnabled =>
    simp only [Session.step, always_bind, Session.always_onEngine, always_readRegister,
      always_writeRegister, always_fence, always_enableClock, always_disableClock,
      always_isClockEnabled, always_pure]
    exact hone rfl rfl rfl rfl
  | readSettings =>
    simp only [Session.step, always_bind, always_get, always_pure]
    exact ⟨heveryone, h⟩
  | alterRegisters change =>
    simp only [Session.step, always_bind, always_modify, always_pure]
    exact hengine (List.suffix_refl _) (by exact h)
  | alterMutex change =>
    simp only [Session.step, always_bind, always_modify, always_pure]
    exact hengine (List.suffix_refl _) (by exact h)
  | selfTest capacity =>
    simp only [Session.step, always_bind, Session.always_onEngine, always_pure]
    have hquery : ∀ {e : Engine ρ κ μ}, InPhase e ∧ session.engine.history <:+ e.history →
        InPhase { e with
            clock := (GatedClock.isEnabled e.clock).2
            history := .clockQueried (GatedClock.isEnabled e.clock).1 :: e.history } ∧
          session.engine.history <:+ .clockQueried (GatedClock.isEnabled e.clock).1 :: e.history :=
      fun he => ⟨he.1.other rfl rfl, he.2.trans (List.suffix_cons _ _)⟩
    exact ((keptByUse_inPhase.since session.engine.history).selfTest hquery _
      ⟨h, List.suffix_refl _⟩).mono fun _ e he => hengine he.2 he.1
  | _ => exact hcalled trivial

/-! ## Courses -/

/-- The operations that are still there to be used, those in streams included. -/
inductive Session.Has (s : Session ρ κ μ) : Operation → Prop
  | operation {name : String} {a : Operation} : s.operations[name]? = some a → Has s a
  | stream {name : String} {t : HashStream} : s.streams[name]? = some t → Has s t.operation

omit [RegisterBlock ρ] [GatedClock κ] [EngineMutex μ] in
theorem Session.Everyone.has {p : Operation → List Event → Prop} {s : Session ρ κ μ}
    (h : s.Everyone p) (ha : s.Has a) : p a s.engine.history := by
  cases ha with
  | operation ha => exact h.operation ha
  | stream ht => exact h.stream ht

namespace Course

variable {c : Course ρ κ μ} {engine : Engine ρ κ μ}

/-- What an engine does about its mutex. -/
structure CreatesOnDemand (c : Course ρ κ μ) : Prop where
  createdOnce : CreatedOnce c.engine.history
  /-- There is a mutex if a creation has succeeded, and none is being created between two steps. -/
  phase : c.engine.phase = .ready ∧ Created c.engine.history ∨
    c.engine.phase = .absent ∧ ¬ Created c.engine.history
  /-- Whoever may ask for the engine is as good as new. -/
  uncommitted : ∀ a, c.session.Has a → a.mode = .uncommitted → a = .fresh a.algorithm
  /-- The next to ask for the engine has the mutex created if there is none, and tries it if there
  is one then. -/
  next : ∀ algorithm, Returns (acquire (.fresh algorithm)) c.engine fun r e => ∃ path newer,
    r.1 = .ok path ∧ e.history = newer ++ c.engine.history ∧
      Contested (.fresh algorithm) c.engine.phase (path, r.2) newer e.phase
  /-- Whoever asks while a creation is under way is sent to software on the spot. -/
  during : ∀ (e : Engine ρ κ μ) create algorithm, e.phase = .creating →
    (acquireBy create (.fresh algorithm)).run e = some ((.ok .software, .softwareOnly algorithm),
      { e with notices := .acquiring algorithm :: e.notices })
  /-- And whoever is sent to software holds nothing. -/
  inSoftware : ∀ (e : Engine ρ κ μ) create algorithm,
    Always (acquireBy create (.fresh algorithm)) e fun r _ =>
      r.1 = .ok .software → r.2 = .softwareOnly algorithm

/-- **The mutex is created on demand**, on every platform: once, and again after a failure. -/
theorem Reached.createsOnDemand (hunused : engine.history = []) (habsent : engine.phase = .absent)
    (h : Reached (fun _ step => ¬ step.IsIrregular) (.ofEngine engine) c) : c.CreatesOnDemand := by
  have hstart : InPhase engine := by
    rw [InPhase, hunused, habsent]
    exact .unused
  obtain ⟨heveryone, hphase⟩ : c.session.Everyone Entitled ∧ InPhase c.engine :=
    h.induct (I := fun c => c.session.Everyone Entitled ∧ InPhase c.engine)
      ⟨.ofEngine engine, hstart⟩ fun c step hc hregular =>
        Session.always_inPhase hregular hc.1 hc.2
  refine ⟨hphase.createdOnce, hphase.phase_eq, fun a ha hmode => ?_, fun algorithm => ?_,
    fun e create algorithm => run_acquireBy_creating, fun e create algorithm => ?_⟩
  · have hstanding := (heveryone.has ha).1
    have hnot := hstanding.uncommitted hmode
    obtain ⟨algorithm, mode, clockDebt, holdsMutex⟩ := a
    cases hmode
    cases hnot
    cases hstanding.debt_eq_zero rfl
    rfl
  · exact ((returns_acquire _).and_always (always_acquire_contested rfl)).mono fun r e he => he.2
  · refine always_acquireBy (fun _ => ?_) (fun hunsettled => by cases hunsettled) fun _ => ?_
    · refine (competed_compete _).mono fun r e' hcompeted hsoftware => ?_
      obtain ⟨path, a'⟩ := r
      cases hsoftware
      cases hcompeted
      rfl
    · rintro ⟨⟩

/-- One creation fails, and during the next a request is sent to software; then the mutex is there,
and the operation that had it created is on the engine. -/
theorem exists_createsOnDemand :
    ∃ c : Course Peripheral CountedClock ScriptedMutex, c.CreatesOnDemand ∧
      c.engine.history = .clockEnabled :: .lockTried 0 .granted ::
        (creation (.ok ()) 1 ++ creation (.error .creation) 0) := by
  let mutex : ScriptedMutex := { creations := [.fail .creation, .reenter .sha512] }
  have hcreate : ∀ name algorithm, ¬ Step.IsIrregular
      (.create name algorithm false : Step Peripheral ScriptedMutex) := fun _ _ => id
  have hacquire : ∀ name, ¬ Step.IsIrregular (.acquire name : Step Peripheral ScriptedMutex) :=
    fun _ => id
  have hreached : Reached (fun _ step => ¬ step.IsIrregular)
      (.ofEngine (.simulated 0 ({} : CountedClock) mutex {})) _ :=
    .step (.step (.step (.step .start (hcreate "first" .sha1) rfl) (hacquire "first") rfl)
      (hcreate "second" .sha256) rfl) (hacquire "second") rfl
  exact ⟨_, hreached.createsOnDemand rfl rfl, rfl⟩

end Course

end HashAccelerator
