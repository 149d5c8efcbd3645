import HashAccelerator.Engine.Basic
/-!
# Waiting for the accelerator

The accelerator shows that it works by busy registers. A wait polls one of them, or all of them in
order, and ends at the first poll that finds them clear. With a poll limit it gives up after so many
further polls; without one it goes on for as long as the register block may still become clear.
-/

namespace HashAccelerator

namespace EngineM

variable {ρ κ μ : Type}

/-- Polls until `busy` is clear, at most once and `rereads` times again. Says whether it was. -/
def pollAgain (busy : EngineM ρ κ μ Bool) : Nat → EngineM ρ κ μ Bool
  | 0 => do return !(← busy)
  | rereads + 1 => do
    if ← busy then pollAgain busy rereads else return true

variable [RegisterBlock ρ]

/-- Polls until `busy` is clear, within the poll limit if there is one. -/
def await (busy : EngineM ρ κ μ Bool) : EngineM ρ κ μ (Except Fault Unit) := do
  let engine ← get
  match engine.settings.pollLimit with
  | none =>
    if ← pollAgain busy (RegisterBlock.patience engine.registers) then return .ok () else never
  | some limit =>
    if ← pollAgain busy limit then return .ok ()
    else
      note (.stillBusy limit)
      return .error .stillBusy

/-- Reads registers in order up to the first that is not zero. Says whether there was one. -/
def anySet : List UInt32 → EngineM ρ κ μ Bool
  | [] => return false
  | address :: rest => do
    if (← readRegister address) != 0 then return true else anySet rest

/-- Waits until a register reads zero. -/
def awaitClear (address : UInt32) : EngineM ρ κ μ (Except Fault Unit) := await (anySet [address])

/-- Waits until no unit is busy. -/
def awaitIdle : EngineM ρ κ μ (Except Fault Unit) := await (anySet busyAddresses)

end EngineM

end HashAccelerator
