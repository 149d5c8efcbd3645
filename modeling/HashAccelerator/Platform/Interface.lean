import HashAccelerator.Fault
import HashAccelerator.Operation
/-!
# What the engine needs of its platform

The engine reaches the outside world through three parts: a block of registers, a gated clock, and
a mutex. Each is a type of states with the calls that the engine makes on it. None of the calls is
under any obligation: a register may answer anything, and a mutex may grant twice.

Creating a mutex is the one call that may call back. A platform may run other code while the mutex
is being created, and that code may want the engine itself; `Creation` is the course of one
creation with these requests in it.
-/

namespace HashAccelerator

/-- A block of 32-bit registers in some state. -/
class RegisterBlock (ρ : Type) where
  /-- Reads the register at an address; reading may change the state. -/
  read : UInt32 → ρ → UInt32 × ρ
  /-- Writes a register. -/
  write : UInt32 → UInt32 → ρ → ρ
  /-- Orders every access before it against every access after it. -/
  barrier : ρ → ρ
  /-- How often a wait may find a register busy from now on, if it finds it clear at all. -/
  patience : ρ → Nat

/-- A clock that its users enable and disable. -/
class GatedClock (κ : Type) where
  enable : κ → κ
  disable : κ → κ
  /-- Whether the clock is running; asking may change the state. -/
  isEnabled : κ → Bool × κ

/-- What an attempt to take a mutex comes to. -/
inductive LockAnswer where
  | granted
  /-- Another owner holds it. -/
  | wouldBlock
  | failed (error : MutexError)
  deriving DecidableEq

/-- The course of a mutex's creation. Before it is `done` it may ask, any number of times, that a
fresh operation try to acquire the engine, and go on according to the outcome. -/
inductive Creation (μ : Type) where
  | done (outcome : Except MutexError Unit) (mutex : μ)
  | ask (mutex : μ) (algorithm : Algorithm) (next : Except Fault Path → μ → Creation μ)

/-- A mutex with one owner at a time, created before its first use. -/
class EngineMutex (μ : Type) where
  create : μ → Creation μ
  /-- Attempts to take the mutex, waiting for at most so many milliseconds. -/
  tryLock : Nat → μ → LockAnswer × μ
  unlock : μ → μ

/-- A call that reached the platform, with its answer. -/
inductive Event where
  | read (address value : UInt32)
  | write (address value : UInt32)
  | barrier
  | clockEnabled
  | clockDisabled
  /-- The clock was asked whether it is running. -/
  | clockQueried (running : Bool)
  | creationBegun
  | creationEnded (outcome : Except MutexError Unit)
  /-- A creation had a fresh operation try to acquire the engine. -/
  | reentered (outcome : Except Fault Path)
  | lockTried (timeout : Nat) (answer : LockAnswer)
  | unlocked

end HashAccelerator
