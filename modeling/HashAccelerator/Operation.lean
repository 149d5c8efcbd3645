import HashAccelerator.Algorithm
/-!
# Operations

An `Operation` is what one hash in flight knows about its standing with the engine: the path it
committed to, how many clock enables it still owes, and whether it holds the engine's mutex. It
commits once, at its first block, to the hardware or to the software path.
-/

namespace HashAccelerator

/-- Where an operation's blocks are compressed. -/
inductive Path where
  | hardware
  | software
  deriving DecidableEq

/-- How far an operation has committed. -/
inductive Mode where
  /-- Not committed to a path yet. -/
  | uncommitted
  /-- On the engine; `first` until its first block has been started. -/
  | hardware (first : Bool)
  /-- In software for good. -/
  | software
  /-- The hardware path failed after the commitment. The debt is paid at the next attempt to
  acquire the engine. -/
  | unsettled
  deriving DecidableEq

namespace Mode

/-- The mode's spelling in log lines. -/
def text : Mode → String
  | .uncommitted => "Uninitialized"
  | .hardware true => "Hardware \x7b first_block: true \x7d"
  | .hardware false => "Hardware \x7b first_block: false \x7d"
  | .software => "Software"
  | .unsettled => "NeedsUnroll"

/-- Every mode, each once. -/
def all : List Mode := [.uncommitted, .hardware true, .hardware false, .software, .unsettled]

end Mode

/-- The standing of one hash in flight. -/
structure Operation where
  /-- The hash being computed. -/
  algorithm : Algorithm
  /-- The path it committed to. -/
  mode : Mode := .uncommitted
  /-- Clock enables that have not been paid back by a disable. -/
  clockDebt : Nat := 0
  /-- Whether it holds the engine's mutex. -/
  holdsMutex : Bool := false
  deriving DecidableEq

namespace Operation

/-- An operation that has not committed to a path. -/
def fresh (algorithm : Algorithm) : Operation := { algorithm }

/-- An operation that never competes for the engine. -/
def softwareOnly (algorithm : Algorithm) : Operation := { algorithm, mode := .software }

/-- The operation runs on the engine. -/
def isOnEngine (operation : Operation) : Bool :=
  match operation.mode with
  | .hardware _ => true
  | _ => false

/-- No block has been handed to the engine, and the software path has not been chosen. -/
def isBeforeFirstBlock (operation : Operation) : Bool :=
  match operation.mode with
  | .uncommitted | .hardware true => true
  | _ => false

/-- The operation holds the mutex or owes a clock disable. -/
def isHolding (operation : Operation) : Bool :=
  operation.holdsMutex || decide (0 < operation.clockDebt)

end Operation

/-- The account of a settled debt: the clock disables owed, and those it took until the clock read
off. -/
structure Repayment where
  owed : Nat
  issued : Nat
  deriving DecidableEq

/-- Every disable that was owed was issued. -/
def Repayment.isExact (repayment : Repayment) : Bool :=
  repayment.owed == repayment.issued

end HashAccelerator
