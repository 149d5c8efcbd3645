import HashAccelerator.Engine.Basic
/-!
# Who drives the accelerator

An operation asks for the engine once, at its first block. If another operation has it, or the mutex
cannot be created, the operation runs in software for good; that is a `Path` like the other and not
a fault. An operation that wins enables the clock once. Other drivers count on the same clock, so
every enable has to be paid back by one disable: `release` pays for an operation that is done with
the engine, and `settle` for one whose hardware path failed.

The mutex is created at its first use. While it is being created the platform may ask for the engine
again; such a request meets a mutex that is not ready and is sent to software. How deeply creations
may nest is an argument of `createMutex`, and `acquire` allows one creation, which is all that can
happen.
-/

namespace HashAccelerator

namespace EngineM

variable {ρ κ μ : Type}

/-! ## Paying back -/

section PayingBack

variable [GatedClock κ]

/-- Issues disables until as many as were owed or until the clock reads off; counts them. -/
def disableUntilOff : Nat → EngineM ρ κ μ Nat
  | 0 => return 0
  | owed + 1 => do
    disableClock
    if ← isClockEnabled then return (← disableUntilOff owed) + 1 else return 1

variable [EngineMutex μ]

/-- Gives the mutex back if the operation holds it. -/
def unlockOwned (operation : Operation) : EngineM ρ κ μ Operation := do
  if operation.holdsMutex then
    unlockMutex
    return { operation with holdsMutex := false }
  else return operation

/-- Pays the operation's debt to the clock, as far as the clock is running, and makes it fresh. A
debt that ends early means that another driver's reference may have been consumed. -/
def settle (operation : Operation) : EngineM ρ κ μ (Repayment × Operation) := do
  let issued ← disableUntilOff operation.clockDebt
  let repayment : Repayment := { owed := operation.clockDebt, issued }
  if !repayment.isExact then note (.clockStale operation.algorithm repayment)
  let operation ← unlockOwned operation
  return (repayment, { operation with clockDebt := 0, mode := .uncommitted })

/-- Gives back what the operation holds: one clock enable, if it owes any, and the mutex. An
operation with a debt to settle still has it to settle. -/
def release (operation : Operation) : EngineM ρ κ μ Operation := do
  note (.releasing operation.algorithm)
  if 0 < operation.clockDebt then disableClock
  let operation ← unlockOwned { operation with clockDebt := operation.clockDebt - 1 }
  return if operation.mode = .unsettled then operation
    else { operation with mode := .uncommitted }

end PayingBack

/-! ## Asking for the engine -/

section Acquire

/-- Makes the mutex usable, creating it by `create` if there is none yet. A mutex that is being
created is not usable. -/
def prepareMutex (create : EngineM ρ κ μ (Except MutexError Unit)) : EngineM ρ κ μ Bool := do
  match (← get).phase with
  | .ready => return true
  | .creating => return false
  | .absent =>
    modify fun engine => { engine with phase := .creating }
    match ← create with
    | .ok () =>
      modify fun engine => { engine with phase := .ready }
      return true
    | .error error =>
      modify fun engine => { engine with phase := .absent }
      note (.mutexCreationFailed error)
      return false

variable [GatedClock κ] [EngineMutex μ]

/-- An operation without a path takes the engine, or is sent to software. -/
def compete (create : EngineM ρ κ μ (Except MutexError Unit)) (operation : Operation) :
    EngineM ρ κ μ (Path × Operation) := do
  let inSoftware : Path × Operation := (.software, { operation with mode := .software })
  if ← prepareMutex create then
    match ← tryMutex (← get).settings.mutexTimeout with
    | .granted =>
      enableClock
      note .acquired
      return (.hardware, { operation with
        mode := .hardware true
        clockDebt := operation.clockDebt + 1
        holdsMutex := true })
    | .wouldBlock =>
      note (.engineInUse operation.algorithm)
      return inSoftware
    | .failed error =>
      note (.mutexFailed error operation.algorithm)
      return inSoftware
  else return inSoftware

/-- Commits an operation to a path. One that is unsettled settles first. -/
def acquireBy (create : EngineM ρ κ μ (Except MutexError Unit)) (operation : Operation) :
    EngineM ρ κ μ (Except Fault Path × Operation) := do
  note (.acquiring operation.algorithm)
  match operation.mode with
  | .uncommitted =>
    let (path, operation) ← compete create operation
    return (.ok path, operation)
  | .unsettled =>
    let (_, operation) ← settle operation
    let (path, operation) ← compete create operation
    return (.ok path, operation)
  | .hardware _ | .software =>
    note (.acquireRefused operation.mode)
    return (.error .alreadyCommitted, operation)

/-- Follows a creation to its end, letting fresh operations try `acquire` when it asks. -/
def follow (acquire : Operation → EngineM ρ κ μ (Except Fault Path × Operation)) :
    Creation μ → EngineM ρ κ μ (Except MutexError Unit)
  | .done outcome mutex => do
    modify fun engine => { engine with mutex }
    record (.creationEnded outcome)
    return outcome
  | .ask mutex algorithm next => do
    modify fun engine => { engine with mutex }
    let (outcome, _) ← acquire (.fresh algorithm)
    record (.reentered outcome)
    follow acquire (next outcome (← get).mutex)

/-- Creates the mutex, with at most so many creations inside one another, this one included. -/
def createMutex : Nat → EngineM ρ κ μ (Except MutexError Unit)
  | 0 => never
  | depth + 1 => do
    record .creationBegun
    follow (acquireBy (createMutex depth)) (EngineMutex.create (← get).mutex)

/-- Commits an operation to the hardware path if it can have the engine, and to software if not.
Only an operation that has a path already is refused. -/
def acquire (operation : Operation) : EngineM ρ κ μ (Except Fault Path × Operation) :=
  acquireBy (createMutex 1) operation

end Acquire

end EngineM

end HashAccelerator
