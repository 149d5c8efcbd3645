import HashAccelerator.Proofs.Engine.Kept
/-!
# Calls that return

Only a wait may go on without end. Taking the engine and giving it back wait for nothing, so they
return on every platform. A submission and a readout return where the waits do that they contain
(`Answering`), and where the waits end well they are not broken off by one (`Prompt`).
-/

namespace HashAccelerator

namespace EngineM

variable {ρ κ μ : Type} {engine : Engine ρ κ μ} {J : Engine ρ κ μ → Prop}

/-! ## The register protocol -/

section Registers

variable [RegisterBlock ρ]

theorem returns_writeText (index : Nat) (words : List UInt32) :
    Returns (writeText index words) engine fun _ _ => True := by
  induction words generalizing engine index with
  | nil => exact returns_pure trivial
  | cons word rest ih =>
    unfold writeText
    exact Returns.next (run_writeRegister _ _ _) (ih _)

theorem returns_readText (index count : Nat) :
    Returns (readText index count) engine fun _ _ => True := by
  induction count generalizing engine index with
  | zero => exact returns_pure trivial
  | succ count ih =>
    unfold readText
    refine Returns.next (run_readRegister _ _) ?_
    exact (ih _).bind fun _ _ _ => returns_pure trivial

theorem returns_anySet_any (addresses : List UInt32) :
    Returns (anySet addresses) engine fun _ _ => True := by
  induction addresses generalizing engine with
  | nil => exact returns_pure trivial
  | cons address rest ih =>
    unfold anySet
    exact Returns.next (run_readRegister _ _) (Returns.ite (fun _ => returns_pure trivial) fun _ => ih)

/-- Polls come to an end, for there are only so many. -/
theorem returns_pollAgain_any (addresses : List UInt32) (rereads : Nat) :
    Returns (pollAgain (anySet addresses) rereads) engine fun _ _ => True := by
  induction rereads generalizing engine with
  | zero =>
    unfold pollAgain
    exact (returns_anySet_any addresses).bind fun _ _ _ => returns_pure trivial
  | succ rereads ih =>
    unfold pollAgain
    refine (returns_anySet_any addresses).bind fun _ _ _ => Returns.ite (fun _ => ih) fun _ => ?_
    exact returns_pure trivial

/-- **Under a limit every wait ends**, if only by being given up. -/
theorem returns_await_limited {limit : Nat} (addresses : List UInt32)
    (h : engine.settings.pollLimit = some limit) :
    Returns (await (anySet addresses)) engine fun _ _ => True := by
  unfold await
  refine Returns.next rfl ?_
  rw [h]
  refine (returns_pollAgain_any addresses limit).bind fun clear _ _ => Returns.ite (fun _ => ?_)
    fun _ => ?_
  · exact returns_pure trivial
  · exact Returns.next (run_note _ _) (returns_pure trivial)

omit [RegisterBlock ρ] in
theorem returns_fitBlock (algorithm : Algorithm) (words : List UInt32) :
    Returns (fitBlock algorithm words) engine fun fitted _ => fitted ≠ .error .stillBusy := by
  unfold fitBlock
  refine Returns.ite (fun _ => ?_) fun _ => Returns.ite (fun _ => ?_) fun _ => ?_
  · exact Returns.next (run_note _ _) (returns_pure (by simp))
  · exact Returns.next (run_note _ _) (returns_pure (by simp))
  · exact returns_pure (by simp)

theorem returns_command (a : Operation) (first : Bool) :
    Returns (command a first) engine fun r _ => r.1 ≠ .error .stillBusy := by
  unfold command
  cases a.algorithm.bank? with
  | none => exact Returns.next (run_note _ _) (returns_pure (by simp))
  | some bank =>
    refine Returns.next (run_writeRegister _ _ _) (Returns.next (run_fence _) ?_)
    exact Returns.next (run_note _ _) (returns_pure (by simp))

end Registers

/-! ## Taking the engine and giving it back -/

section Taking

variable [GatedClock κ]

theorem returns_disableUntilOff (owed : Nat) :
    Returns (disableUntilOff owed) engine fun _ _ => True := by
  induction owed generalizing engine with
  | zero => exact returns_pure trivial
  | succ owed ih =>
    unfold disableUntilOff
    refine Returns.next (run_disableClock _) (Returns.next (run_isClockEnabled _) ?_)
    refine Returns.ite (fun _ => ?_) fun _ => returns_pure trivial
    exact ih.bind fun _ _ _ => returns_pure trivial

variable [EngineMutex μ]

omit [GatedClock κ] in
theorem returns_unlockOwned (a : Operation) :
    Returns (unlockOwned a) engine fun _ _ => True := by
  unfold unlockOwned
  refine Returns.ite (fun _ => ?_) fun _ => returns_pure trivial
  exact Returns.next (run_unlockMutex _) (returns_pure trivial)

/-- **Giving back is never refused**, and waits for nobody. -/
theorem returns_release (a : Operation) : Returns (release a) engine fun _ _ => True := by
  unfold release
  refine Returns.next (run_note _ _) (Returns.ite (fun _ => ?_) fun _ => ?_)
  · refine Returns.next (run_disableClock _) ?_
    exact (returns_unlockOwned _).bind fun _ _ _ => returns_pure trivial
  · exact (returns_unlockOwned _).bind fun _ _ _ => returns_pure trivial

theorem returns_settle (a : Operation) : Returns (settle a) engine fun _ _ => True := by
  unfold settle
  refine (returns_disableUntilOff _).bind fun issued e _ => ?_
  refine Returns.ite (fun _ => ?_) fun _ => ?_
  · refine Returns.next (run_note _ _) ?_
    exact (returns_unlockOwned _).bind fun _ _ _ => returns_pure trivial
  · exact (returns_unlockOwned _).bind fun _ _ _ => returns_pure trivial

/-- A creation ends, since whoever asks for the engine meanwhile is sent to software at once. -/
theorem returns_follow {create : EngineM ρ κ μ (Except MutexError Unit)} (creation : Creation μ)
    (h : engine.phase = .creating) :
    Returns (follow (acquireBy create) creation) engine fun _ _ => True := by
  -- on the creation: the engine stays marked as creating all along, so no second one begins
  induction creation generalizing engine with
  | done outcome mutex => exact ⟨_, _, rfl, trivial⟩
  | ask mutex algorithm next ih =>
    unfold follow
    refine Returns.next rfl ?_
    refine Returns.next (run_acquireBy_creating (by exact h)) ?_
    refine Returns.next (run_record _ _) (Returns.next rfl ?_)
    exact ih _ _ h

theorem returns_prepareMutex :
    Returns (prepareMutex (createMutex 1)) engine fun _ _ => True := by
  unfold prepareMutex
  refine Returns.next rfl ?_
  cases engine.phase with
  | ready => exact returns_pure trivial
  | creating => exact returns_pure trivial
  | absent =>
    have hcreate : Returns (createMutex 1) { engine with phase := .creating } fun _ _ => True := by
      unfold createMutex
      refine Returns.next (run_record _ _) (Returns.next rfl ?_)
      exact returns_follow _ rfl
    refine Returns.next rfl (hcreate.bind fun outcome e _ => ?_)
    cases outcome with
    | ok => exact Returns.next rfl (returns_pure trivial)
    | error error => exact Returns.next rfl (Returns.next (run_note _ _) (returns_pure trivial))

theorem returns_compete (a : Operation) :
    Returns (compete (createMutex 1) a) engine fun _ _ => True := by
  unfold compete
  refine returns_prepareMutex.bind fun ready e _ => Returns.ite (fun _ => ?_) fun _ => ?_
  · refine Returns.next rfl (Returns.next (run_tryMutex _ _) ?_)
    split
    · exact Returns.next (run_enableClock _) (Returns.next (run_note _ _) (returns_pure trivial))
    · exact Returns.next (run_note _ _) (returns_pure trivial)
    · exact Returns.next (run_note _ _) (returns_pure trivial)
  · exact returns_pure trivial

/-- **Whoever asks for the engine is answered**, on every platform. -/
theorem returns_acquire (a : Operation) : Returns (acquire a) engine fun _ _ => True := by
  unfold acquire acquireBy
  refine Returns.next (run_note _ _) ?_
  cases a.mode with
  | uncommitted => exact (returns_compete _).bind fun _ _ _ => returns_pure trivial
  | unsettled =>
    refine (returns_settle _).bind fun _ _ _ => ?_
    exact (returns_compete _).bind fun _ _ _ => returns_pure trivial
  | hardware first => exact Returns.next (run_note _ _) (returns_pure trivial)
  | software => exact Returns.next (run_note _ _) (returns_pure trivial)

end Taking

/-! ## Where the waits end -/

section Waits

variable [RegisterBlock ρ] [GatedClock κ] [EngineMutex μ]

/-- A state of the engine that no call changes, and in which every wait of the register protocol ends:
well, or by being given up where that may happen. -/
structure Answering (givesUp : Prop) (J : Engine ρ κ μ → Prop) : Prop extends Kept J where
  idle : ∀ {e}, J e → Returns EngineM.awaitIdle e fun outcome _ => outcome = .ok () ∨ givesUp
  busy : ∀ {e} unit, J e → Returns
    (EngineM.awaitClear (RegisterBank.ofUnit (UnitIndex.toWord unit)).busy) e
    fun outcome _ => outcome = .ok () ∨ givesUp

/-- One in which every wait ends well. -/
abbrev Prompt (J : Engine ρ κ μ → Prop) : Prop := Answering False J

variable {givesUp : Prop}

theorem Answering.submit (hJ : Answering givesUp J) (a : Operation) (words : List UInt32)
    (h : J engine) :
    Returns (submit a words) engine fun r _ => r.1 = .error .stillBusy → givesUp := by
  unfold EngineM.submit
  refine Returns.next (run_note _ _) ?_
  cases a.mode with
  | uncommitted => exact Returns.next (run_note _ _) (returns_pure (by simp))
  | software => exact Returns.next (run_note _ _) (returns_pure (by simp))
  | unsettled => exact Returns.next (run_note _ _) (returns_pure (by simp))
  | hardware first =>
    have hnoted := hJ.note (n := .submitting a.algorithm) h
    refine ((returns_fitBlock _ _).and_always
      (always_fitBlock hJ.note _ _ hnoted)).bind fun fitted e he => ?_
    cases fitted with
    | error fault => exact returns_pure fun heq => absurd (by rw [Except.error.inj heq]) he.1
    | ok words =>
      refine (hJ.idle he.2).bind fun outcome e' hidle => ?_
      cases outcome with
      | error fault => exact returns_pure fun _ => hidle.resolve_left (by simp)
      | ok =>
        refine (returns_writeText _ _).bind fun _ _ _ => ?_
        exact Returns.next (run_fence _) ((returns_command _ _).mono fun _ _ hne heq => absurd heq hne)

theorem Answering.loadDigest (hJ : Answering givesUp J) (unit : UnitIndex) (h : J engine) :
    Returns (loadDigest (.ofUnit (UnitIndex.toWord unit))) engine
      fun outcome _ => outcome = .ok () ∨ givesUp := by
  unfold EngineM.loadDigest
  refine ((hJ.idle h).and_always (hJ.awaitIdle h)).bind fun outcome e he => ?_
  cases outcome with
  | error fault => exact returns_pure (Or.inr (he.1.resolve_left (by simp)))
  | ok =>
    refine Returns.next (run_writeRegister _ _ _) (Returns.next (run_fence _) ?_)
    have hwritten := hJ.fence (hJ.write (a := (RegisterBank.ofUnit (UnitIndex.toWord unit)).load)
      (v := 1) he.2)
    refine ((hJ.busy unit hwritten).and_always (hJ.awaitClear _ hwritten)).bind fun outcome e he => ?_
    cases outcome with
    | error fault => exact returns_pure (Or.inr (he.1.resolve_left (by simp)))
    | ok =>
      refine (hJ.idle he.2).bind fun outcome e hidle => ?_
      cases outcome with
      | error fault => exact returns_pure (Or.inr (hidle.resolve_left (by simp)))
      | ok => exact Returns.next (run_fence _) (returns_pure (Or.inl rfl))

theorem Answering.fetch (hJ : Answering givesUp J) (a : Operation) (out : List UInt32)
    (h : J engine) :
    Returns (fetch a out) engine fun r _ => r.1 = .error .stillBusy → givesUp := by
  unfold EngineM.fetch
  refine Returns.next (run_note _ _) ?_
  cases a.mode with
  | uncommitted => exact Returns.next (run_note _ _) (returns_pure (by simp))
  | software => exact Returns.next (run_note _ _) (returns_pure (by simp))
  | unsettled => exact Returns.next (run_note _ _) (returns_pure (by simp))
  | hardware first =>
    cases first with
    | true => exact returns_pure (by simp)
    | false =>
      simp only [Algorithm.bank?]
      cases a.algorithm.unit? with
      | none => exact returns_pure (by simp)
      | some unit =>
        refine Returns.ite (fun _ => returns_pure (by simp)) fun _ => ?_
        refine (hJ.loadDigest unit (hJ.note h)).bind fun outcome e hloaded => ?_
        cases outcome with
        | error fault => exact returns_pure fun _ => hloaded.resolve_left (by simp)
        | ok =>
          have hread : Returns (digestFromText a.algorithm) e fun _ _ => True :=
            (returns_readText _ _).bind fun _ _ _ => returns_pure trivial
          exact hread.bind fun words e _ => Returns.next (run_note _ _) (returns_pure (by simp))

end Waits

end EngineM

end HashAccelerator
