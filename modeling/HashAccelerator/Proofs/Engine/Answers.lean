import HashAccelerator.Proofs.Engine.Kept
/-!
# What the calls answer

Each call on the engine answers in a few ways, whatever the platform does, and every way fixes what
becomes of the operation. A wait ends well or, under a poll limit, in `stillBusy`. A release and a
settlement leave an operation that their caller can name beforehand. The other calls say by their
answer which of a few operations they leave.
-/

namespace HashAccelerator

/-- How a wait may end: well, or under a poll limit in `stillBusy`. -/
def Settings.MayEnd (settings : Settings) : Except Fault Unit → Prop
  | .ok () => True
  | .error fault => fault = .stillBusy ∧ settings.pollLimit.isSome = true

/-- On the engine an operation is so before its first block or after it. -/
theorem Operation.exists_hardware {a : Operation} (h : a.isOnEngine = true) :
    ∃ first, a.mode = .hardware first := by
  cases hmode : a.mode <;> simp [isOnEngine, hmode] at h ⊢

/-- What a release leaves of an operation: it owes one disable less, and holds the mutex no longer.
A debt to settle remains. -/
def Operation.released (a : Operation) : Operation :=
  { a with
    clockDebt := a.clockDebt - 1
    holdsMutex := false
    mode := if a.mode = .unsettled then .unsettled else .uncommitted }

namespace EngineM

variable {ρ κ μ : Type} {engine : Engine ρ κ μ} {settings : Settings}

/-! ## Waits -/

section Registers

variable [RegisterBlock ρ]

/-- The settings are the owner's to choose, and no access changes them. -/
theorem keptByAccess_settings : KeptByAccess fun e : Engine ρ κ μ => e.settings = settings where
  note h := h
  read h := h
  write h := h
  fence h := h

omit [RegisterBlock ρ] in
theorem mayEnd_await (busy : EngineM ρ κ μ Bool) [RegisterBlock ρ] :
    Always (await busy) engine fun outcome _ => engine.settings.MayEnd outcome := by
  simp only [await, always_bind, always_get]
  cases hlimit : engine.settings.pollLimit with
  | none =>
    refine always_bind.2 fun clear e _ => Always.ite (fun _ => ?_) fun _ => always_never
    simp [Settings.MayEnd]
  | some limit =>
    refine always_bind.2 fun clear e _ => Always.ite (fun _ => ?_) fun _ => ?_
    · simp [Settings.MayEnd]
    · simp [Settings.MayEnd, hlimit]

theorem mayEnd_awaitClear (address : UInt32) (h : engine.settings = settings) :
    Always (awaitClear address) engine fun outcome e =>
      settings.MayEnd outcome ∧ e.settings = settings :=
  Always.and (h ▸ mayEnd_await _) (keptByAccess_settings.awaitClear address h)

theorem mayEnd_awaitIdle (h : engine.settings = settings) :
    Always awaitIdle engine fun outcome e =>
      settings.MayEnd outcome ∧ e.settings = settings :=
  Always.and (h ▸ mayEnd_await _) (keptByAccess_settings.awaitIdle h)

/-- A load, with the three waits around it, ends like a wait. -/
theorem mayEnd_loadDigest (bank : RegisterBank) (h : engine.settings = settings) :
    Always (loadDigest bank) engine fun outcome _ => settings.MayEnd outcome := by
  simp only [loadDigest, always_bind]
  refine (mayEnd_awaitIdle h).mono fun outcome e he => ?_
  cases outcome with
  | error fault => simpa using he.1
  | ok =>
    simp only [always_bind, always_writeRegister, always_fence]
    refine (mayEnd_awaitClear bank.busy (by exact he.2)).mono fun outcome e he => ?_
    cases outcome with
    | error fault => simpa using he.1
    | ok =>
      refine always_bind.2 ((mayEnd_awaitIdle he.2).mono fun outcome e he => ?_)
      cases outcome with
      | error fault => simpa using he.1
      | ok => simp [Settings.MayEnd]

/-! ## The register protocol -/

/-- What a submission may answer, and the operation that it leaves then. -/
inductive Submitted (settings : Settings) (a : Operation) (words : List UInt32) :
    Except Fault Unit → Operation → Prop
  | refused : a.isOnEngine = false → Submitted settings a words (.error .notOwner) a
  | misfit : a.isOnEngine = true → words.length ≤ textCapacity →
      words.length ≠ a.algorithm.blockWords → Submitted settings a words (.error .wrongSize) a
  | stuck : a.isOnEngine = true → settings.pollLimit.isSome = true →
      Submitted settings a words (.error .stillBusy) a
  | parked : a.isOnEngine = true → a.algorithm.unit? = none →
      Submitted settings a words (.error (.noUnit a.algorithm)) { a with mode := .unsettled }
  | taken {unit} : a.isOnEngine = true → a.algorithm.unit? = some unit →
      Submitted settings a words (.ok ()) { a with mode := .hardware false }

theorem Submitted.algorithm_eq {a a' : Operation} {words : List UInt32}
    {outcome : Except Fault Unit} (h : Submitted settings a words outcome a') :
    a'.algorithm = a.algorithm := by
  cases h <;> rfl

theorem submitted_submit (a : Operation) (words : List UInt32) (h : engine.settings = settings) :
    Always (submit a words) engine fun r _ => Submitted settings a words r.1 r.2 := by
  simp only [submit, always_bind, always_note]
  cases hmode : a.mode with
  | uncommitted => simpa using Submitted.refused (by simp [Operation.isOnEngine, hmode])
  | software => simpa using Submitted.refused (by simp [Operation.isOnEngine, hmode])
  | unsettled => simpa using Submitted.refused (by simp [Operation.isOnEngine, hmode])
  | hardware first =>
    have hon : a.isOnEngine = true := by simp [Operation.isOnEngine, hmode]
    have hfit : Always (fitBlock a.algorithm words) { engine with
        notices := .submitting a.algorithm :: engine.notices } fun fitted e =>
          (∀ fault, fitted = .error fault → Submitted settings a words (.error fault) a) ∧
          e.settings = settings := by
      refine Always.ite (fun _ => by simpa using h) fun hshort => Always.ite (fun hlength => ?_)
        fun _ => by simpa using h
      simpa [h] using Submitted.misfit hon (Nat.le_of_not_lt hshort) hlength
    refine always_bind.2 (hfit.mono fun fitted e he => ?_)
    cases fitted with
    | error fault => simpa using he.1 fault rfl
    | ok fitted =>
      refine always_bind.2 ((mayEnd_awaitIdle he.2).mono fun outcome e he => ?_)
      cases outcome with
      | error fault =>
        obtain ⟨rfl, hlimit⟩ := he.1
        simpa using Submitted.stuck hon hlimit
      | ok =>
        refine always_bind.2 fun _ e _ => ?_
        simp only [always_bind, always_fence, command, Algorithm.bank?]
        cases hunit : a.algorithm.unit? with
        | none => simpa using Submitted.parked hon hunit
        | some unit => simpa using Submitted.taken hon hunit

/-- **Who is not on the engine reaches no register.** -/
theorem always_submit_of_isOnEngine_eq_false {a : Operation} (words : List UInt32)
    (h : a.isOnEngine = false) :
    Always (submit a words) engine fun _ e => ∃ notices, e = { engine with notices } := by
  simp only [submit, always_bind, always_note]
  cases hmode : a.mode with
  | uncommitted => simp
  | software => simp
  | unsettled => simp
  | hardware first => simp [Operation.isOnEngine, hmode] at h

theorem always_fetch_of_isOnEngine_eq_false {a : Operation} (out : List UInt32)
    (h : a.isOnEngine = false) :
    Always (fetch a out) engine fun _ e => ∃ notices, e = { engine with notices } := by
  simp only [fetch, always_bind, always_note]
  cases hmode : a.mode with
  | uncommitted => simp
  | software => simp
  | unsettled => simp
  | hardware first => simp [Operation.isOnEngine, hmode] at h

/-- What a readout may answer. -/
inductive Fetched (settings : Settings) (a : Operation) (room : Nat) : Except Fault Unit → Prop
  | refused : a.isOnEngine = false → Fetched settings a room (.error .notOwner)
  | nothing : a.mode = .hardware true → Fetched settings a room (.ok ())
  | unitless : a.mode = .hardware false → a.algorithm.unit? = none →
      Fetched settings a room (.error (.noUnit a.algorithm))
  | short {unit} : a.mode = .hardware false → a.algorithm.unit? = some unit →
      room < a.algorithm.digestWords → Fetched settings a room (.error .wrongSize)
  | stuck {unit} : a.mode = .hardware false → a.algorithm.unit? = some unit →
      settings.pollLimit.isSome = true → Fetched settings a room (.error .stillBusy)
  | read {unit} : a.mode = .hardware false → a.algorithm.unit? = some unit →
      a.algorithm.digestWords ≤ room → Fetched settings a room (.ok ())

theorem fetched_fetch (a : Operation) (out : List UInt32) (h : engine.settings = settings) :
    Always (fetch a out) engine fun r _ => Fetched settings a out.length r.1 := by
  simp only [fetch, always_bind, always_note]
  cases hmode : a.mode with
  | uncommitted => simpa using Fetched.refused (by simp [Operation.isOnEngine, hmode])
  | software => simpa using Fetched.refused (by simp [Operation.isOnEngine, hmode])
  | unsettled => simpa using Fetched.refused (by simp [Operation.isOnEngine, hmode])
  | hardware first =>
    cases first with
    | true => simpa using Fetched.nothing hmode
    | false =>
      simp only [Algorithm.bank?]
      cases hunit : a.algorithm.unit? with
      | none => simpa using Fetched.unitless hmode hunit
      | some unit =>
        refine Always.ite (fun hshort => ?_) fun hroom => ?_
        · simpa using Fetched.short hmode hunit hshort
        · refine always_bind.2 ((mayEnd_loadDigest _ (by exact h)).mono fun outcome e he => ?_)
          cases outcome with
          | error fault =>
            obtain ⟨rfl, hlimit⟩ := he
            simpa using Fetched.stuck hmode hunit hlimit
          | ok =>
            simp only [always_bind, always_note, always_pure]
            exact fun _ _ _ => Fetched.read hmode hunit (Nat.le_of_not_lt hroom)

end Registers

/-! ## Paying back -/

section PayingBack

variable [GatedClock κ] [EngineMutex μ]

omit [GatedClock κ] in
theorem always_unlockOwned (a : Operation) :
    Always (unlockOwned a) engine fun a' _ => a' = { a with holdsMutex := false } := by
  refine Always.ite (fun _ => by simp) fun h => ?_
  simp only [Bool.not_eq_true] at h
  obtain ⟨algorithm, mode, clockDebt, holdsMutex⟩ := a
  cases h
  simp

/-- **A settled operation is a fresh one.** -/
theorem always_settle (a : Operation) :
    Always (settle a) engine fun r _ => r.2 = .fresh a.algorithm := by
  simp only [settle, always_bind]
  have hlast : ∀ e : Engine ρ κ μ, Always (unlockOwned a) e fun a' _ =>
      { a' with clockDebt := 0, mode := .uncommitted } = Operation.fresh a.algorithm :=
    fun e => (always_unlockOwned a).mono fun a' _ h => by rw [h]; rfl
  refine fun issued e _ => Always.ite (fun _ => ?_) fun _ => ?_
  · simpa using hlast _
  · simpa using hlast _

theorem always_release (a : Operation) :
    Always (release a) engine fun a' _ => a' = a.released := by
  simp only [release, always_bind, always_note]
  have hlast : ∀ e : Engine ρ κ μ,
      Always (unlockOwned { a with clockDebt := a.clockDebt - 1 }) e fun a' _ =>
        (if a'.mode = .unsettled then a' else { a' with mode := .uncommitted }) = a.released := by
    refine fun e => (always_unlockOwned _).mono fun a' _ h => ?_
    rw [h, Operation.released]
    split <;> simp_all
  refine Always.ite (fun _ => ?_) fun _ => ?_
  · simpa using hlast _
  · simpa using hlast _

end PayingBack

/-! ## Asking for the engine -/

section Acquire

variable [GatedClock κ] [EngineMutex μ]

/-- What an operation without a path may come to, by the path that it is given. -/
inductive Competed (a : Operation) : Path → Operation → Prop
  | won : Competed a .hardware
      { a with mode := .hardware true, clockDebt := a.clockDebt + 1, holdsMutex := true }
  | lost : Competed a .software { a with mode := .software }

theorem Competed.algorithm_eq {a a' : Operation} {path : Path} (h : Competed a path a') :
    a'.algorithm = a.algorithm := by
  cases h <;> rfl

theorem competed_compete {create : EngineM ρ κ μ (Except MutexError Unit)} (a : Operation) :
    Always (compete create a) engine fun r _ => Competed a r.1 r.2 := by
  exact always_compete always_true (fun _ _ _ => .won) (fun _ _ _ _ => .lost) fun _ _ => .lost

/-- What an attempt to acquire the engine may answer, and the operation that it leaves then. -/
inductive Acquired (a : Operation) : Except Fault Path → Operation → Prop
  | refused : a.isOnEngine = true ∨ a.mode = .software →
      Acquired a (.error .alreadyCommitted) a
  | chosen {path a'} : a.mode = .uncommitted → Competed a path a' → Acquired a (.ok path) a'
  | settled {path a'} : a.mode = .unsettled → Competed (.fresh a.algorithm) path a' →
      Acquired a (.ok path) a'

theorem Acquired.algorithm_eq {a a' : Operation} {outcome : Except Fault Path}
    (h : Acquired a outcome a') : a'.algorithm = a.algorithm := by
  cases h with
  | refused _ => rfl
  | chosen _ hcompeted => exact hcompeted.algorithm_eq
  | settled _ hcompeted => exact hcompeted.algorithm_eq

theorem acquired_acquire (a : Operation) :
    Always (acquire a) engine fun r _ => Acquired a r.1 r.2 := by
  refine always_acquireBy (fun hmode => ?_) (fun hmode => ?_) .refused
  · exact (competed_compete a).mono fun r e he => .chosen hmode he
  · refine (always_settle a).mono fun settled e hfresh => ?_
    refine (competed_compete settled.2).mono fun r e' he => .settled hmode ?_
    rwa [← hfresh]

end Acquire

/-- Nor does any other call change the settings. -/
theorem kept_settings [RegisterBlock ρ] [GatedClock κ] [EngineMutex μ] :
    Kept fun e : Engine ρ κ μ => e.settings = settings where
  toKeptByAccess := keptByAccess_settings
  phase _ h := h
  begun h := h
  ended h := h
  reentered h := h
  created h := creationKeeps_of_forall (fun h => h) _ h
  enable h := h
  disable h := h
  query h := h
  tried h := h
  unlocked h := h

end EngineM

end HashAccelerator
