import HashAccelerator.Engine.Wait
/-!
# Handing a block to the accelerator

The owner of the engine submits a block of its algorithm: once every unit is idle the words go to
the text registers, a barrier closes them off, and the algorithm's unit is started or told to go on.
The words are written as they are. Nothing is written before the wait has succeeded, and never more
words than there are text registers.
-/

namespace HashAccelerator

namespace EngineM

variable {ρ κ μ : Type}

/-- The words that a block puts into the text registers. One that overflows them is cut to their
number; any other has to be exactly one block. -/
def fitBlock (algorithm : Algorithm) (words : List UInt32) :
    EngineM ρ κ μ (Except Fault (List UInt32)) := do
  if textCapacity < words.length then
    note (.blockTruncated words.length)
    return .ok (words.take textCapacity)
  else if words.length ≠ algorithm.blockWords then
    note (.blockMisfit algorithm words.length)
    return .error .wrongSize
  else return .ok words

variable [RegisterBlock ρ]

/-- Writes words to the text registers, from the given one on. -/
def writeText : Nat → List UInt32 → EngineM ρ κ μ Unit
  | _, [] => return
  | index, word :: rest => do
    writeRegister (textAddress index) word
    writeText (index + 1) rest

/-- Starts the operation's unit on the text registers, or tells it to go on. An operation whose
algorithm has no unit is left unsettled. -/
def command (operation : Operation) (first : Bool) :
    EngineM ρ κ μ (Except Fault Unit × Operation) := do
  match operation.algorithm.bank? with
  | none =>
    note (.unitMissing operation.algorithm)
    return (.error (.noUnit operation.algorithm), { operation with mode := .unsettled })
  | some bank =>
    writeRegister (if first then bank.start else bank.resume) 1
    fence
    note .submitted
    return (.ok (), { operation with mode := .hardware false })

/-- Hands one block to the engine. -/
def submit (operation : Operation) (words : List UInt32) :
    EngineM ρ κ μ (Except Fault Unit × Operation) := do
  note (.submitting operation.algorithm)
  match operation.mode with
  | .hardware first =>
    match ← fitBlock operation.algorithm words with
    | .error fault => return (.error fault, operation)
    | .ok words =>
      match ← awaitIdle with
      | .error fault => return (.error fault, operation)
      | .ok () =>
        writeText 0 words
        fence
        command operation first
  | _ =>
    note (.submitRefused operation.mode)
    return (.error .notOwner, operation)

end EngineM

end HashAccelerator
