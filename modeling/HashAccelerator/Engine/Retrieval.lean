import HashAccelerator.BigEndian
import HashAccelerator.Engine.Wait
/-!
# Reading a digest from the accelerator

The owner of the engine has its unit load the chaining value into the text registers and reads it
from there, once the unit and then all units are idle. The words come out in the order of the
digest. An operation that has not submitted a block has nothing to read, which is no fault; and on
any fault the caller's words stay as they were.
-/

namespace HashAccelerator

namespace EngineM

variable {ρ κ μ : Type} [RegisterBlock ρ]

/-- Reads so many text registers, from the given one on. -/
def readText : Nat → Nat → EngineM ρ κ μ (List UInt32)
  | _, 0 => return []
  | index, count + 1 => do
    let word ← readRegister (textAddress index)
    return word :: (← readText (index + 1) count)

/-- Has a unit load its chaining value into the text registers. -/
def loadDigest (bank : RegisterBank) : EngineM ρ κ μ (Except Fault Unit) := do
  match ← awaitIdle with
  | .error fault => return .error fault
  | .ok () =>
    writeRegister bank.load 1
    fence
    match ← awaitClear bank.busy with
    | .error fault => return .error fault
    | .ok () =>
      match ← awaitIdle with
      | .error fault => return .error fault
      | .ok () =>
        fence
        return .ok ()

/-- The words of a digest from the text registers, in digest order. -/
def digestFromText (algorithm : Algorithm) : EngineM ρ κ μ (List UInt32) := do
  let words ← readText 0 algorithm.digestWords
  return if algorithm.isWide then BigEndian.exchangeHalves words else words

/-- Puts the operation's chaining value over the front of `out`. -/
def fetch (operation : Operation) (out : List UInt32) :
    EngineM ρ κ μ (Except Fault Unit × List UInt32) := do
  note (.fetching operation.algorithm)
  match operation.mode with
  | .hardware true => return (.ok (), out)
  | .hardware false =>
    match operation.algorithm.bank? with
    | none => return (.error (.noUnit operation.algorithm), out)
    | some bank =>
      if out.length < operation.algorithm.digestWords then return (.error .wrongSize, out)
      else
        match ← loadDigest bank with
        | .error fault => return (.error fault, out)
        | .ok () =>
          let words ← digestFromText operation.algorithm
          note .fetched
          return (.ok (), words ++ out.drop operation.algorithm.digestWords)
  | _ =>
    note (.fetchRefused operation.mode)
    return (.error .notOwner, out)

end EngineM

end HashAccelerator
