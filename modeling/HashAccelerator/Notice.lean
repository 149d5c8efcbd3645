import HashAccelerator.Fault
import HashAccelerator.Operation
/-!
# Log lines

What the library reports to a log while it works, as values: a `Notice` for each thing it may say,
with its `level` and its `text`. A log that keeps lines up to some level keeps those that the level
`admits`.
-/

namespace HashAccelerator

/-- How grave a log line is. -/
inductive Level where
  | error
  | warn
  | info
  | trace
  deriving DecidableEq

namespace Level

/-- The level's spelling at the head of a log line. -/
def name : Level → String
  | .error => "ERROR"
  | .warn => "WARN"
  | .info => "INFO"
  | .trace => "TRACE"

/-- Distance from the gravest level. -/
def rank : Level → Nat
  | .error => 0
  | .warn => 1
  | .info => 2
  | .trace => 3

/-- A log set to the first level keeps a line of the second: one at least as grave. -/
def admits (limit level : Level) : Bool := level.rank ≤ limit.rank

end Level

/-- A report to the log. -/
inductive Notice where
  /-- An operation asks for the engine. -/
  | acquiring (algorithm : Algorithm)
  /-- It had committed to a path before. -/
  | acquireRefused (mode : Mode)
  /-- Another owner holds the mutex. -/
  | engineInUse (algorithm : Algorithm)
  /-- The mutex could not be taken for a reason of its own. -/
  | mutexFailed (error : MutexError) (algorithm : Algorithm)
  /-- The mutex could not be created. -/
  | mutexCreationFailed (error : MutexError)
  /-- The operation runs on the engine now. -/
  | acquired
  /-- An operation gives back what it holds. -/
  | releasing (algorithm : Algorithm)
  /-- A debt was not settled by as many disables as were owed. -/
  | clockStale (algorithm : Algorithm) (repayment : Repayment)
  /-- A wait ran into the poll limit. -/
  | stillBusy (limit : Nat)
  /-- A block is handed to the engine. -/
  | submitting (algorithm : Algorithm)
  /-- The operation is not on the engine. -/
  | submitRefused (mode : Mode)
  /-- The block is longer than the text registers. -/
  | blockTruncated (words : Nat)
  /-- The block is not one block of the algorithm. -/
  | blockMisfit (algorithm : Algorithm) (words : Nat)
  /-- No unit computes the algorithm. -/
  | unitMissing (algorithm : Algorithm)
  /-- The unit has been started. -/
  | submitted
  /-- A digest is read from the engine. -/
  | fetching (algorithm : Algorithm)
  /-- The operation is not on the engine. -/
  | fetchRefused (mode : Mode)
  /-- The digest has been read. -/
  | fetched
  /-- A stream cannot go on. -/
  | streamAborted (algorithm : Algorithm) (fault : Fault)
  /-- A number that no unit has. -/
  | unitUnknown (unit : UInt8)
  /-- An example's digest came out differently. -/
  | exampleMismatch (algorithm : Algorithm)
  /-- An example's digest did not come out at all. -/
  | exampleFailed (algorithm : Algorithm) (fault : Fault)
  deriving DecidableEq

namespace Notice

/-- How grave a notice is. -/
def level : Notice → Level
  | .acquiring _ | .acquired | .releasing _ | .submitting _ | .submitted | .fetching _ | .fetched =>
    .trace
  | .engineInUse _ => .info
  | .mutexFailed _ _ | .clockStale _ _ | .streamAborted _ _ => .warn
  | .acquireRefused _ | .mutexCreationFailed _ | .stillBusy _ | .submitRefused _
  | .blockTruncated _ | .blockMisfit _ _ | .unitMissing _ | .fetchRefused _ | .unitUnknown _
  | .exampleMismatch _ | .exampleFailed _ _ => .error

/-- The wording of a notice. -/
def text : Notice → String
  | .acquiring algorithm => s!"enter try_lock {algorithm.name}"
  | .acquireRefused mode => s!"unexpected try_lock on context in {mode.text}"
  | .engineInUse algorithm => s!"engine in use, {algorithm.name} reverts to software"
  | .mutexFailed error algorithm =>
    s!"engine mutex failed ({error.name}), {algorithm.name} reverts to software"
  | .mutexCreationFailed error => s!"engine mutex initialization failed: {error.name}"
  | .acquired => "leave try_lock, hardware mode"
  | .releasing algorithm => s!"enter unlock {algorithm.name}"
  | .clockStale algorithm repayment =>
    s!"unroll of {algorithm.name} took {repayment.issued} disables for lock depth " ++
      s!"{repayment.owed}, clock refcount may be stale"
  | .stillBusy limit => s!"sha engine still busy after {limit} polls"
  | .submitting algorithm => s!"enter process_block {algorithm.name}"
  | .submitRefused mode => s!"process_block on context in {mode.text}"
  | .blockTruncated words =>
    s!"block of {words} words overflows the 32-word text buffer, truncating"
  | .blockMisfit algorithm words =>
    s!"{algorithm.name} block of {words} words, expected {algorithm.blockWords}"
  | .unitMissing algorithm => s!"no engine unit for {algorithm.name}, context needs unroll"
  | .submitted => "leave process_block"
  | .fetching algorithm => s!"enter read_digest {algorithm.name}"
  | .fetchRefused mode => s!"read_digest on context in {mode.text}"
  | .fetched => "leave read_digest"
  | .streamAborted algorithm fault => s!"{algorithm.name} hash aborted: {fault.message}"
  | .unitUnknown unit => s!"bad sha selector {unit.toNat}"
  | .exampleMismatch algorithm => s!"{algorithm.name} digest mismatch"
  | .exampleFailed algorithm fault => s!"{algorithm.name} failed: {fault.message}"

/-- A whole log line. -/
def line (notice : Notice) : String := s!"{notice.level.name} {notice.text}"

end Notice

/-- The algorithm of the unit with the given number, with what the log hears of it: a number that
no unit has is an error. -/
def Algorithm.ofNumber (number : UInt8) : Except Fault Algorithm × List Notice :=
  if h : number.toNat < 4 then (.ok (.ofUnit ⟨number.toNat, h⟩), [])
  else (.error (.noSuchUnit number), [.unitUnknown number])

end HashAccelerator
