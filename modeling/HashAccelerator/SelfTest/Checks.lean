import HashAccelerator.Hash.Pieces
import HashAccelerator.SelfTest.Console
import HashAccelerator.SelfTest.ExampleDigest
import HashAccelerator.Stream.Message
/-!
# The self-test

Five checks of an engine on whatever platform it has: the examples on the engine and in software,
the arbitration of two operations, the balance of the clock's reference count, and the agreement of
a stream on the engine with one that was sent to software beside it. Each check runs before its
line of the report is written. The run ends early when the console is full; a check that fails is
counted and does not end it.
-/

namespace HashAccelerator

namespace SelfTest

variable {ρ κ μ : Type} [RegisterBlock ρ] [GatedClock κ] [EngineMutex μ]

open EngineM

/-! ## The checks -/

/-- Computes the digest of one example. -/
def exampleHolds (software : Bool) (answer : ExampleDigest) : EngineM ρ κ μ Bool := do
  let stream :=
    if software then HashStream.inSoftware answer.algorithm else HashStream.start answer.algorithm
  match ← stream.absorb answer.message with
  | (.error fault, stream) =>
    stream.discard
    note (.exampleFailed answer.algorithm fault)
    return false
  | (.ok (), stream) =>
    match ← stream.finish with
    | .error fault =>
      note (.exampleFailed answer.algorithm fault)
      return false
    | .ok digest =>
      if digest = answer.digest then return true
      else
        note (.exampleMismatch answer.algorithm)
        return false

/-- Runs checks in order up to the first that fails. -/
def allHold {α : Type} (check : α → EngineM ρ κ μ Bool) : List α → EngineM ρ κ μ Bool
  | [] => return true
  | item :: rest => do
    if ← check item then allHold check rest else return false

/-- The digests of all examples come out. -/
def examplesHold (software : Bool) : EngineM ρ κ μ Bool :=
  allHold (exampleHolds software) ExampleDigest.all

/-- Of two operations the first gets the engine, the second is sent to software, the first cannot
ask again, and it holds nothing once both are released. -/
def arbitrates : EngineM ρ κ μ Bool := do
  let (firstOutcome, first) ← acquire (.fresh .sha256)
  let (secondOutcome, second) ← acquire (.fresh .sha512)
  let (repeated, first) ← acquire first
  let _ ← release second
  let first ← release first
  match firstOutcome, secondOutcome, repeated with
  | .ok .hardware, .ok .software, .error _ =>
    return first.mode = .uncommitted && !first.isHolding
  | _, _, _ => return false

/-- A digest leaves the clock as it was. -/
def balancesClock : EngineM ρ κ μ Bool := do
  let before ← isClockEnabled
  match ← EngineM.digest .sha1 ExampleDigest.abc with
  | .error _ => return false
  | .ok _ => return (← isClockEnabled) == before

/-- The message of the check with two streams. -/
def longMessage : List UInt8 := (List.range 777).map fun i => UInt8.ofNat (i % 251)

/-- Feeds two streams in turn, part by part, up to the first failure. -/
def feedBoth (first second : HashStream) : List (List UInt8) →
    EngineM ρ κ μ (Bool × HashStream × HashStream)
  | [] => return (true, first, second)
  | part :: rest => do
    match ← first.absorb part with
    | (.error _, first) => return (false, first, second)
    | (.ok (), first) =>
      match ← second.absorb part with
      | (.error _, second) => return (false, first, second)
      | (.ok (), second) => feedBoth first second rest

/-- Of two streams fed in turn the first runs on the engine, the second in software, and their
digests agree. -/
def pathsAgree (algorithm : Algorithm) : EngineM ρ κ μ Bool := do
  let (fed, first, second) ←
    feedBoth (.start algorithm) (.start algorithm) (pieces 100 longMessage)
  let onEngine := first.operation.isOnEngine
  let inSoftware := second.operation.mode = .software
  let firstDigest ← first.finish
  let secondDigest ← second.finish
  match fed, firstDigest, secondDigest with
  | true, .ok one, .ok other => return onEngine && inSoftware && one = other
  | _, _, _ => return false

/-! ## The report -/

/-- A check with its name in the report. -/
structure Check (ρ κ μ : Type) where
  name : String
  holds : EngineM ρ κ μ Bool

/-- The checks in the order of the report. -/
def checks : List (Check ρ κ μ) := [
  { name := "known answers on the engine", holds := examplesHold false },
  { name := "known answers in software", holds := examplesHold true },
  { name := "engine arbitration", holds := arbitrates },
  { name := "clock refcount balance", holds := balancesClock },
  { name := "mixed-path digests agree",
    holds := allHold pathsAgree [.sha1, .sha256, .sha384, .sha512] }]

/-- The head of the report. -/
def headline : String := "\r\n=== SHA Engine Tests ===\r\n"

/-- The report's line for a check. -/
def checkLine (name : String) (passed : Bool) : String :=
  s!"Testing {name}... " ++ (if passed then "PASSED" else "FAILED") ++ "\r\n"

/-- The end of the report. -/
def verdict (failures : Nat) : String :=
  if failures = 0 then "\r\n=== All SHA Engine Tests Passed ===\r\n"
  else s!"\r\n=== {failures} SHA Engine Tests FAILED ===\r\n"

/-- Runs checks and reports each, counting the failures; `none` if the console is full. -/
def runChecks (console : Console) (failures : Nat) : List (Check ρ κ μ) →
    EngineM ρ κ μ (Option Nat × Console)
  | [] =>
    let (written, console) := console.write (verdict failures)
    return (if written then some failures else none, console)
  | check :: rest => do
    let passed ← check.holds
    let (written, console) := console.write (checkLine check.name passed)
    if written then runChecks console (if passed then failures else failures + 1) rest
    else return (none, console)

/-- Runs the self-test. The answer is the number of checks that failed, or `none` if the console
was full before the report was. -/
def run (console : Console) : EngineM ρ κ μ (Option Nat × Console) := do
  let (written, console) := console.write headline
  if written then runChecks console 0 checks else return (none, console)

end SelfTest

end HashAccelerator
