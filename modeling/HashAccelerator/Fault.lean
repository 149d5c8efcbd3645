import HashAccelerator.Algorithm
/-!
# What can go wrong

A `MutexError` is the platform's own account of a failure of the mutex. A `Fault` is the reason
why a call on the engine or on a hash stream was refused or broken off; `Fault.message` is its
wording.
-/

namespace HashAccelerator

/-- A failure that the platform reports for the engine's mutex. -/
inductive MutexError where
  /-- The mutex could not be created. -/
  | creation
  /-- The operating system's own primitive failed. -/
  | system
  deriving DecidableEq

/-- The error's name in log lines. -/
def MutexError.name : MutexError → String
  | .creation => "MutexInit"
  | .system => "Os"

/-- Why a call was refused or broken off. -/
inductive Fault where
  /-- The operation already runs on one of the two paths and cannot choose again. -/
  | alreadyCommitted
  /-- The register protocol was asked for by an operation that does not own the engine. -/
  | notOwner
  /-- The engine has no unit for the algorithm. -/
  | noUnit (algorithm : Algorithm)
  /-- No unit has this number. -/
  | noSuchUnit (unit : UInt8)
  /-- A busy register stayed set past the poll limit. -/
  | stillBusy
  /-- A block or an output buffer has the wrong size. -/
  | wrongSize
  /-- The operation still has a debt to settle. -/
  | unsettled
  /-- An earlier call on the same stream failed. -/
  | alreadyFailed
  deriving DecidableEq

namespace Fault

/-- The wording of a fault. -/
def message : Fault → String
  | .alreadyCommitted => "context already committed to a mode"
  | .notOwner => "context does not own the engine"
  | .noUnit algorithm => s!"{algorithm.name} is not implemented by the engine"
  | .noSuchUnit unit => s!"unknown sha selector {unit.toNat}"
  | .stillBusy => "engine busy bit never cleared"
  | .wrongSize => "buffer has the wrong length"
  | .unsettled => "context needs unroll before reuse"
  | .alreadyFailed => "operation aborted by an earlier failure"

end Fault

end HashAccelerator
