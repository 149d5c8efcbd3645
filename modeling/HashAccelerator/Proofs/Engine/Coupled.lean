import HashAccelerator.Proofs.Coupled
import HashAccelerator.Proofs.Engine.Kept
/-!
# Two runs of taking the engine

Taking the engine and giving it back depend on the clock, on the mutex and on how far its creation has
come, and on nothing else that the engine has. Two engines that answer the single calls alike, and
are left related by them, answer alike when the engine is asked for and when it is given back
(`CoupledTaking`). The log is the plainest thing that nothing depends on: engines that are
`SameButLog` stay so.
-/

namespace HashAccelerator

variable {σ α : Type} {pre post : σ → σ → Prop}

/-- What the action keeps on one side holds there beside the coupling. -/
theorem Coupled.along {action : StateT σ Option α} {I : σ → Prop} (h : Coupled pre action post)
    (hI : ∀ s, I s → Always action s fun _ t => I t) :
    Coupled (fun s s' => pre s s' ∧ I s) action fun t t' => post t t' ∧ I t := by
  intro s s' hs
  obtain ⟨a, t, t', hrun, hrun', ht⟩ := h s s' hs.1
  exact ⟨a, t, t', hrun, hrun', ht, hI s hs.2 a t hrun⟩

variable {ρ κ μ : Type} [GatedClock κ] [EngineMutex μ]

/-- The single calls on the clock and the mutex, and what is noted beside them, are answered alike by
related engines and leave them related. -/
structure CoupledTaking (R : Engine ρ κ μ → Engine ρ κ μ → Prop) : Prop where
  mutex : ∀ {e e'}, R e e' → e.mutex = e'.mutex
  timeout : ∀ {e e'}, R e e' → e.settings.mutexTimeout = e'.settings.mutexTimeout
  phase : ∀ {e e'}, R e e' → e.phase = e'.phase
  note : ∀ notice, Coupled R (EngineM.note notice) R
  record : ∀ event, Coupled R (EngineM.record event) R
  setMutex : ∀ mutex, Coupled R (modify fun engine => { engine with mutex }) R
  setPhase : ∀ phase, Coupled R (modify fun engine => { engine with phase }) R
  enable : Coupled R EngineM.enableClock R
  disable : Coupled R EngineM.disableClock R
  query : Coupled R EngineM.isClockEnabled R
  attempt : ∀ timeout, Coupled R (EngineM.tryMutex timeout) R
  unlock : Coupled R EngineM.unlockMutex R

namespace CoupledTaking

open EngineM

variable {R : Engine ρ κ μ → Engine ρ κ μ → Prop} (hR : CoupledTaking R)

include hR

/-! ## Giving back -/

theorem disableUntilOff (owed : Nat) : Coupled R (disableUntilOff owed) R := by
  induction owed with
  | zero => exact coupled_pure 0
  | succ owed ih =>
    unfold EngineM.disableUntilOff
    refine hR.disable.bind fun _ => hR.query.bind fun _ => ?_
    exact Coupled.ite (ih.map (· + 1)) (coupled_pure 1)

theorem unlockOwned (a : Operation) : Coupled R (unlockOwned a) R :=
  Coupled.ite (hR.unlock.map _) (coupled_pure a)

theorem settle (a : Operation) : Coupled R (settle a) R := by
  unfold EngineM.settle
  refine (hR.disableUntilOff _).bind fun issued => Coupled.ite ?_ ?_
  · exact (hR.note _).bind fun _ => (hR.unlockOwned a).map _
  · exact (hR.unlockOwned a).map _

theorem release (a : Operation) : Coupled R (release a) R := by
  unfold EngineM.release
  refine (hR.note _).bind fun _ => Coupled.ite ?_ ?_
  · exact hR.disable.bind fun _ => (hR.unlockOwned _).map _
  · exact (hR.unlockOwned _).map _

/-! ## Asking for the engine -/

/-- **A creation** goes the same way on both sides: whoever asks for the engine meanwhile is sent to
software. -/
theorem follow (create : EngineM ρ κ μ (Except MutexError Unit)) (creation : Creation μ) :
    Coupled (fun e e' => R e e' ∧ e.phase = .creating) (follow (acquireBy create) creation)
      fun e e' => R e e' ∧ e.phase = .creating := by
  have hrecord : ∀ event, Coupled (fun e e' => R e e' ∧ e.phase = .creating) (EngineM.record event)
      fun e e' => R e e' ∧ e.phase = .creating :=
    fun event => (hR.record event).along fun _ h => by simpa using h
  have hmutex : ∀ mutex, Coupled (fun e e' => R e e' ∧ e.phase = .creating)
      (modify fun engine => { engine with mutex }) fun e e' => R e e' ∧ e.phase = .creating :=
    fun mutex => (hR.setMutex mutex).along fun _ h => by simpa using h
  induction creation with
  | done outcome mutex =>
    unfold EngineM.follow
    exact (hmutex mutex).bind fun _ => (hrecord _).map fun _ => outcome
  | ask mutex algorithm next ih =>
    have hasked : Coupled (fun e e' => R e e' ∧ e.phase = .creating)
        (acquireBy create (.fresh algorithm)) fun e e' => R e e' ∧ e.phase = .creating := by
      intro e e' h
      obtain ⟨_, t, t', hrun, hrun', ht⟩ := hR.note (.acquiring algorithm) e e' h.1
      cases hrun
      cases hrun'
      exact ⟨_, _, _, run_acquireBy_creating h.2,
        run_acquireBy_creating ((hR.phase h.1).symm.trans h.2), ht, h.2⟩
    unfold EngineM.follow
    refine (hmutex mutex).bind fun _ => hasked.bind fun r => ?_
    obtain ⟨outcome, -⟩ := r
    refine (hrecord _).bind fun _ => ?_
    exact Coupled.bind_get (fun _ _ h => by rw [hR.mutex h.1]) fun e => ih outcome e.mutex

theorem createMutex : Coupled (fun e e' => R e e' ∧ e.phase = .creating) (createMutex 1)
    fun e e' => R e e' ∧ e.phase = .creating := by
  unfold EngineM.createMutex
  refine ((hR.record _).along fun _ h => by simpa using h).bind fun _ => ?_
  exact Coupled.bind_get (fun _ _ h => by rw [hR.mutex h.1]) fun _ => hR.follow _ _

theorem prepareMutex : Coupled R (prepareMutex (EngineM.createMutex 1)) R := by
  have hbegun : Coupled R (modify fun engine => { engine with phase := .creating })
      fun e e' => R e e' ∧ e.phase = .creating := by
    intro e e' h
    obtain ⟨_, t, t', hrun, hrun', ht⟩ := hR.setPhase .creating e e' h
    cases hrun
    cases hrun'
    exact ⟨_, _, _, rfl, rfl, ht, rfl⟩
  have hended : ∀ phase, Coupled (fun e e' => R e e' ∧ e.phase = .creating)
      (modify fun engine => { engine with phase }) R :=
    fun phase e e' h => hR.setPhase phase e e' h.1
  unfold EngineM.prepareMutex
  refine Coupled.bind_get (fun _ _ h => by rw [hR.phase h]) fun e => ?_
  cases e.phase with
  | ready => exact coupled_pure true
  | creating => exact coupled_pure false
  | absent =>
    refine hbegun.bind fun _ => hR.createMutex.bind fun outcome => ?_
    cases outcome with
    | ok => exact (hended .ready).map _
    | error error => exact (hended .absent).bind fun _ => (hR.note _).map _

theorem compete (a : Operation) : Coupled R (compete (EngineM.createMutex 1) a) R := by
  unfold EngineM.compete
  refine hR.prepareMutex.bind fun ready => Coupled.ite ?_ (coupled_pure _)
  refine Coupled.bind_get (fun _ _ h => by rw [hR.timeout h]) fun e => ?_
  refine (hR.attempt _).bind fun answer => ?_
  cases answer with
  | granted => exact hR.enable.bind fun _ => (hR.note _).map _
  | wouldBlock => exact (hR.note _).map _
  | failed error => exact (hR.note _).map _

/-- **Who asks for the engine** is answered alike. -/
theorem acquire (a : Operation) : Coupled R (acquire a) R := by
  unfold EngineM.acquire acquireBy
  refine (hR.note _).bind fun _ => ?_
  cases a.mode with
  | uncommitted => exact (hR.compete a).map _
  | unsettled => exact (hR.settle a).bind fun r => (hR.compete r.2).map _
  | hardware first => exact (hR.note _).map _
  | software => exact (hR.note _).map _

end CoupledTaking

/-! ## The log -/

/-- The engines differ in nothing but the log. -/
structure Engine.SameButLog (e e' : Engine ρ κ μ) : Prop where
  registers : e.registers = e'.registers
  clock : e.clock = e'.clock
  mutex : e.mutex = e'.mutex
  settings : e.settings = e'.settings
  phase : e.phase = e'.phase
  history : e.history = e'.history

open EngineM in
/-- **Nothing that is asked of the clock or the mutex depends on the log.** -/
theorem coupledTaking_sameButLog : CoupledTaking (Engine.SameButLog (ρ := ρ) (κ := κ) (μ := μ)) where
  mutex h := h.mutex
  timeout h := congrArg Settings.mutexTimeout h.settings
  phase h := h.phase
  note notice := coupled_modify fun _ _ h => { h with }
  record event := coupled_modify fun _ _ h => { h with history := congrArg (event :: ·) h.history }
  setMutex mutex := coupled_modify fun _ _ h => { h with mutex := rfl }
  setPhase phase := coupled_modify fun _ _ h => { h with phase := rfl }
  enable := fun _ _ h => ⟨(), _, _, run_enableClock _, run_enableClock _,
    { h with
      clock := congrArg GatedClock.enable h.clock
      history := congrArg (_ :: ·) h.history }⟩
  disable := fun _ _ h => ⟨(), _, _, run_disableClock _, run_disableClock _,
    { h with
      clock := congrArg GatedClock.disable h.clock
      history := congrArg (_ :: ·) h.history }⟩
  query := coupled_of_run fun _ _ h =>
    ⟨_, _, _, _, run_isClockEnabled _, run_isClockEnabled _, by rw [h.clock],
      { h with
        clock := by simp only [h.clock]
        history := by simp only [h.clock, h.history] }⟩
  attempt timeout := coupled_of_run fun _ _ h =>
    ⟨_, _, _, _, run_tryMutex _ _, run_tryMutex _ _, by rw [h.mutex],
      { h with
        mutex := by simp only [h.mutex]
        history := by simp only [h.mutex, h.history] }⟩
  unlock := fun _ _ h => ⟨(), _, _, run_unlockMutex _, run_unlockMutex _,
    { h with
      mutex := congrArg EngineMutex.unlock h.mutex
      history := congrArg (_ :: ·) h.history }⟩

end HashAccelerator
