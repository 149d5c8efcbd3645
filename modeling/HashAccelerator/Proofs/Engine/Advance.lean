import HashAccelerator.Proofs.Engine.Custody
import HashAccelerator.Proofs.Engine.Preparation
/-!
# How far an operation has come

Two kinds of calls on the platform move an operation on: one competition for the engine, which gives
it its path, and from the engine any number of accesses to registers. `Advanced` has an operation, what
has become of it, and the calls by which it came there, newest first. So an operation that is in
software has come nowhere since it got there, and one that is on the engine is there for good, until it
is released.
-/

namespace HashAccelerator

open EngineM

/-! ## Registers -/

/-- The call is about registers. -/
def Event.isOnRegisters : Event → Bool
  | .read _ _ | .write _ _ | .barrier => true
  | _ => false

/-- Nothing but registers has been used since the past. -/
def RegistersSince (past history : List Event) : Prop :=
  ∃ newer, history = newer ++ past ∧ ∀ event ∈ newer, event.isOnRegisters = true

section Registers

variable {ρ κ μ : Type} {past history : List Event} {event : Event}

theorem RegistersSince.cons (h : RegistersSince past history)
    (hevent : event.isOnRegisters = true) : RegistersSince past (event :: history) := by
  obtain ⟨newer, rfl, hnewer⟩ := h
  exact ⟨event :: newer, rfl, List.forall_mem_cons.2 ⟨hevent, hnewer⟩⟩

theorem keptByAccess_registersSince [RegisterBlock ρ] :
    KeptByAccess fun e : Engine ρ κ μ => RegistersSince past e.history where
  note h := h
  read h := h.cons rfl
  write h := h.cons rfl
  fence h := h.cons rfl

end Registers

/-! ## Advances -/

/-- What may become of an operation, and the calls by which it does. -/
inductive Advanced (a : Operation) : Operation → List Event → Prop
  | still : Advanced a a []
  | contested {phase phase' path a' calls} : a.mode = .uncommitted →
      Contested a phase (path, a') calls phase' → Advanced a a' calls
  | accessed {a' calls accesses mode} : Advanced a a' calls → a'.isOnEngine = true →
      (∀ event ∈ accesses, event.isOnRegisters = true) →
      Operation.isOnEngine { a' with mode } = true → Advanced a { a' with mode } (accesses ++ calls)

variable {a a' a'' : Operation} {calls later : List Event}

/-- An operation is on the engine by its mode, which is none of the others then. -/
theorem Operation.mode_of_isOnEngine (h : a.isOnEngine = true) :
    a.mode ≠ .uncommitted ∧ a.mode ≠ .software ∧ a.mode ≠ .unsettled := by
  refine ⟨fun hmode => ?_, fun hmode => ?_, fun hmode => ?_⟩ <;>
    simp [Operation.isOnEngine, hmode] at h

/-- The operation is on a path. -/
def Operation.IsOn (a : Operation) : Path → Prop
  | .hardware => a.isOnEngine = true
  | .software => a.mode = .software

theorem EngineM.Competed.isOn {path : Path} (h : Competed a path a') : a'.IsOn path := by
  cases h <;> rfl

/-- An operation that need not be parked: there is nothing to settle, and there is a unit wherever it
may take one. -/
structure Operation.Capable (a : Operation) : Prop where
  settled : a.mode ≠ .unsettled
  unit : a.mode ≠ .software → a.algorithm.unit?.isSome = true

/-- A competition has one of two ends. -/
theorem Contested.competed {phase phase' : MutexPhase} {r : Path × Operation}
    (h : Contested a phase r calls phase') : Competed a r.1 r.2 := by
  cases h with
  | unready _ => exact .lost
  | refused _ _ _ _ => exact .lost
  | granted _ _ => exact .won

namespace Advanced

theorem algorithm_eq (h : Advanced a a' calls) : a'.algorithm = a.algorithm := by
  induction h with
  | still => rfl
  | contested _ hcontested => exact hcontested.competed.algorithm_eq
  | accessed _ _ _ _ ih => exact ih

/-- What an operation holds goes with its mode all the way. -/
theorem standing (h : Advanced a a' calls) (ha : a.Standing) : a'.Standing := by
  induction h with
  | still => exact ha
  | contested hmode hcontested => exact hcontested.competed.standing ha (ha.uncommitted hmode)
  | accessed _ hon _ hon' ih =>
    obtain ⟨hcommitted, hengaged, -⟩ := Operation.mode_of_isOnEngine hon'
    exact ⟨ih.debt_le, ih.debt_iff, fun _ _ => ih.holdsMutex_of_isOnEngine hon,
      fun hmode => absurd hmode hengaged, fun hmode => absurd hmode hcommitted⟩

/-- **Before it has a path** an operation has not made a call. -/
theorem eq_of_uncommitted (h : Advanced a a' calls) (hmode : a'.mode = .uncommitted) :
    a' = a ∧ calls = [] := by
  cases h with
  | still => exact ⟨rfl, rfl⟩
  | accessed _ _ _ hon => exact absurd hmode (Operation.mode_of_isOnEngine hon).1
  | contested _ hcontested =>
    rcases hcontested.competed with _ | _
    · cases hmode
    · cases hmode

/-- **In software for good.** -/
theorem of_software (h : Advanced a a' calls) (hmode : a.mode = .software) :
    a' = a ∧ calls = [] := by
  induction h with
  | still => exact ⟨rfl, rfl⟩
  | contested hmode' _ => simp [hmode] at hmode'
  | accessed _ hon _ _ ih => exact absurd (ih.1 ▸ hmode) (Operation.mode_of_isOnEngine hon).2.1

/-- **On the engine for good.** -/
theorem of_isOnEngine (h : Advanced a a' calls) (hon : a.isOnEngine = true) :
    a'.isOnEngine = true ∧ ∀ event ∈ calls, event.isOnRegisters = true := by
  induction h with
  | still => exact ⟨hon, by simp⟩
  | contested hmode _ => exact absurd hmode (Operation.mode_of_isOnEngine hon).1
  | accessed _ _ haccesses hon' ih => exact ⟨hon', List.forall_mem_append.2 ⟨haccesses, ih.2⟩⟩

/-- **Nobody is parked** on the way. -/
theorem capable (h : Advanced a a' calls) (ha : a.Capable) : a'.Capable where
  settled := by
    cases h with
    | still => exact ha.settled
    | accessed _ _ _ hon => exact (Operation.mode_of_isOnEngine hon).2.2
    | contested _ hcontested =>
      rcases hcontested.competed with _ | _
      · exact fun h => by cases h
      · exact fun h => by cases h
  unit hmode := by
    rw [h.algorithm_eq]
    exact ha.unit fun hsoftware => hmode ((h.of_software hsoftware).1 ▸ hsoftware)

theorem trans (h : Advanced a a' calls) (h' : Advanced a' a'' later) :
    Advanced a a'' (later ++ calls) := by
  induction h' with
  | still => exact h
  | contested hmode hcontested =>
    obtain ⟨rfl, rfl⟩ := h.eq_of_uncommitted hmode
    exact (List.append_nil _).symm ▸ .contested hmode hcontested
  | accessed _ hon haccesses hon' ih =>
    rw [List.append_assoc]
    exact ih.accessed hon haccesses hon'

/-- Whoever has a path by now was given it by one competition, and made no call before. -/
theorem of_uncommitted (h : Advanced a a' calls) (hmode : a.mode = .uncommitted) :
    a' = a ∧ calls = [] ∨ ∃ path won contest accesses phase phase',
      Contested a phase (path, won) contest phase' ∧ Advanced won a' accesses ∧
        calls = accesses ++ contest := by
  induction h with
  | still => exact Or.inl ⟨rfl, rfl⟩
  | @contested phase phase' path won contest _ hcontested =>
    exact Or.inr ⟨path, won, contest, [], phase, phase', hcontested, .still, rfl⟩
  | @accessed a' calls accesses mode _ hon haccesses hon' ih =>
    rcases ih with ⟨rfl, rfl⟩ | ⟨path, won, contest, older, phase, phase', hcontested, hwon, rfl⟩
    · exact absurd hmode (Operation.mode_of_isOnEngine hon).1
    · exact Or.inr ⟨path, won, contest, accesses ++ older, phase, phase', hcontested,
        hwon.accessed hon haccesses hon', (List.append_assoc _ _ _).symm⟩

end Advanced

/-! ## What each call comes to -/

variable {ρ κ μ : Type} {e : Engine ρ κ μ}

/-- What a call that found the engine like this has made of an operation. -/
def Engine.Moved (e : Engine ρ κ μ) (a a' : Operation) (e' : Engine ρ κ μ) : Prop :=
  ∃ calls, e'.history = calls ++ e.history ∧ Advanced a a' calls

theorem Engine.Moved.of_history {e' : Engine ρ κ μ} (h : e'.history = e.history) : e.Moved a a e' :=
  ⟨[], h, .still⟩

theorem Engine.Moved.trans {e' e'' : Engine ρ κ μ} (h : e.Moved a a' e') (h' : e'.Moved a' a'' e'') :
    e.Moved a a'' e'' := by
  obtain ⟨calls, hhistory, hadvanced⟩ := h
  obtain ⟨later, hhistory', hadvanced'⟩ := h'
  exact ⟨later ++ calls, by rw [hhistory', hhistory, List.append_assoc],
    hadvanced.trans hadvanced'⟩

namespace EngineM

/-- **Who asks for the engine** takes part in one competition, or is told that it has its path. -/
theorem moved_acquire [GatedClock κ] [EngineMutex μ] (ha : a.Capable) :
    Always (acquire a) e fun r e' => e.Moved a r.2 e' := by
  by_cases hmode : a.mode = .uncommitted
  · refine (always_acquire_contested hmode).mono fun r e' he => ?_
    obtain ⟨path, calls, -, hhistory, hcontested⟩ := he
    exact ⟨calls, hhistory, .contested hmode hcontested⟩
  · exact always_acquireBy (fun h => absurd h hmode) (fun h => absurd h ha.settled) fun _ =>
      .of_history rfl

/-- An access from the engine, to stay on it. -/
theorem moved_of_registersSince {e' : Engine ρ κ μ} {mode : Mode} (hon : a.isOnEngine = true)
    (hon' : Operation.isOnEngine { a with mode } = true) (h : RegistersSince e.history e'.history) :
    e.Moved a { a with mode } e' := by
  obtain ⟨accesses, hhistory, haccesses⟩ := h
  have hadvanced := Advanced.still.accessed hon haccesses hon'
  rw [List.append_nil] at hadvanced
  exact ⟨accesses, hhistory, hadvanced⟩

variable [RegisterBlock ρ]

/-- **A block reaches registers from the engine**, and leaves its operation there. From elsewhere it
reaches nothing. -/
theorem moved_submit (words : List UInt32) (ha : a.Capable) :
    Always (submit a words) e fun r e' => e.Moved a r.2 e' := by
  cases hon : a.isOnEngine with
  | true =>
    have hregisters : Always (submit a words) e fun _ e' => RegistersSince e.history e'.history :=
      keptByAccess_registersSince.submit a words ⟨[], rfl, by simp⟩
    refine ((submitted_submit a words rfl).and hregisters).mono fun r e' he => ?_
    obtain ⟨outcome, a'⟩ := r
    obtain ⟨hsubmitted, hsince⟩ := he
    have hstays : e.Moved a a e' := moved_of_registersSince hon hon hsince
    cases hsubmitted with
    | refused _ => exact hstays
    | misfit _ _ _ => exact hstays
    | stuck _ _ => exact hstays
    | parked _ hnone =>
      have hunit := ha.unit (Operation.mode_of_isOnEngine hon).2.1
      simp [hnone] at hunit
    | taken _ _ => exact moved_of_registersSince hon rfl hsince
  | false =>
    refine ((submitted_submit a words rfl).and
      (always_submit_of_isOnEngine_eq_false words hon)).mono fun r e' he => ?_
    obtain ⟨outcome, a'⟩ := r
    obtain ⟨hsubmitted, notices, rfl⟩ := he
    cases hsubmitted with
    | refused _ => exact .of_history rfl
    | misfit hon' _ _ => simp [hon] at hon'
    | stuck hon' _ => simp [hon] at hon'
    | parked hon' _ => simp [hon] at hon'
    | taken hon' _ => simp [hon] at hon'

/-- And so does a digest. -/
theorem moved_fetch (out : List UInt32) : Always (fetch a out) e fun _ e' => e.Moved a a e' := by
  cases hon : a.isOnEngine with
  | true =>
    have hregisters : Always (fetch a out) e fun _ e' => RegistersSince e.history e'.history :=
      keptByAccess_registersSince.fetch a out ⟨[], rfl, by simp⟩
    exact hregisters.mono fun _ e' hsince => moved_of_registersSince hon hon hsince
  | false =>
    refine (always_fetch_of_isOnEngine_eq_false out hon).mono fun _ e' he => ?_
    obtain ⟨notices, rfl⟩ := he
    exact .of_history rfl

/-- **An operation's blocks move it on**, from where it was when the engine was as it was then. -/
theorem keptByBlocks_moved [GatedClock κ] [EngineMutex μ] (e : Engine ρ κ μ) (ha : a.Capable) :
    KeptByBlocks fun a' e' => e.Moved a a' e' where
  note h := h
  acquire h := by
    obtain ⟨_, -, hadvanced⟩ := id h
    exact (moved_acquire (hadvanced.capable ha)).mono fun _ _ he => h.trans he
  submit words h := by
    obtain ⟨_, -, hadvanced⟩ := id h
    exact (moved_submit words (hadvanced.capable ha)).mono fun _ _ he => h.trans he

end EngineM

end HashAccelerator
