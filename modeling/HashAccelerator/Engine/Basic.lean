import HashAccelerator.Notice
import HashAccelerator.Platform.Interface
import HashAccelerator.Register
/-!
# The engine

There is one physical accelerator for every hash, so its owner is one value: an `Engine` holds the
three parts of the platform, the settings, and how far the mutex's creation has come. It also keeps
its past, which is what its guarantees are about: each call that reached the platform and each log
line, newest first.

A step of the engine is an `EngineM` action. It may wait for a register that never clears, and then
it does not return; `never` is that outcome, kept apart from every fault.
-/

namespace HashAccelerator

/-- What the engine's owner may choose. -/
structure Settings where
  /-- How many milliseconds to wait for the mutex. -/
  mutexTimeout : Nat := 0
  /-- How often a busy register is read again after the first time; without a limit, until it is
  clear. -/
  pollLimit : Option Nat := none
  deriving DecidableEq

/-- How far the creation of the mutex has come. -/
inductive MutexPhase where
  | absent
  | creating
  | ready
  deriving DecidableEq

/-- The accelerator's owner, over a platform of registers, a clock and a mutex. -/
structure Engine (ρ κ μ : Type) where
  registers : ρ
  clock : κ
  mutex : μ
  settings : Settings := {}
  phase : MutexPhase := .absent
  /-- The calls that reached the platform, newest first. -/
  history : List Event := []
  /-- The log, newest first. -/
  notices : List Notice := []

/-- A step of the engine; `none` is a wait without end. -/
abbrev EngineM (ρ κ μ : Type) : Type → Type := StateT (Engine ρ κ μ) Option

variable {ρ κ μ : Type}

/-- The engine with an empty past. -/
def Engine.forget (engine : Engine ρ κ μ) : Engine ρ κ μ :=
  { engine with history := [], notices := [] }

namespace EngineM

/-- The step that does not return. -/
def never {α : Type} : EngineM ρ κ μ α := fun _ => none

/-- Adds a call to the history. -/
def record (event : Event) : EngineM ρ κ μ Unit :=
  modify fun engine => { engine with history := event :: engine.history }

/-- Adds a line to the log. -/
def note (notice : Notice) : EngineM ρ κ μ Unit :=
  modify fun engine => { engine with notices := notice :: engine.notices }

/-! ## Registers -/

section Registers

variable [RegisterBlock ρ]

/-- Reads a register. -/
def readRegister (address : UInt32) : EngineM ρ κ μ UInt32 := do
  let engine ← get
  let (value, registers) := RegisterBlock.read address engine.registers
  set { engine with registers }
  record (.read address value)
  return value

/-- Writes a register. -/
def writeRegister (address value : UInt32) : EngineM ρ κ μ Unit := do
  record (.write address value)
  modify fun engine =>
    { engine with registers := RegisterBlock.write address value engine.registers }

/-- Orders the register accesses before against those after. -/
def fence : EngineM ρ κ μ Unit := do
  record .barrier
  modify fun engine => { engine with registers := RegisterBlock.barrier engine.registers }

end Registers

/-! ## Clock -/

section Clock

variable [GatedClock κ]

/-- Adds a reference to the clock. -/
def enableClock : EngineM ρ κ μ Unit := do
  record .clockEnabled
  modify fun engine => { engine with clock := GatedClock.enable engine.clock }

/-- Drops a reference to the clock. -/
def disableClock : EngineM ρ κ μ Unit := do
  record .clockDisabled
  modify fun engine => { engine with clock := GatedClock.disable engine.clock }

/-- Asks whether the clock is running. -/
def isClockEnabled : EngineM ρ κ μ Bool := do
  let engine ← get
  let (running, clock) := GatedClock.isEnabled engine.clock
  set { engine with clock }
  record (.clockQueried running)
  return running

end Clock

/-! ## Mutex -/

section Mutex

variable [EngineMutex μ]

/-- Attempts to take the mutex. -/
def tryMutex (timeout : Nat) : EngineM ρ κ μ LockAnswer := do
  let engine ← get
  let (answer, mutex) := EngineMutex.tryLock timeout engine.mutex
  set { engine with mutex }
  record (.lockTried timeout answer)
  return answer

/-- Gives the mutex back. -/
def unlockMutex : EngineM ρ κ μ Unit := do
  record .unlocked
  modify fun engine => { engine with mutex := EngineMutex.unlock engine.mutex }

end Mutex

/-! ## What each call does

A call changes its own part of the platform and adds itself to the history, and nothing else. -/

section Calls

variable (engine : Engine ρ κ μ)

@[simp] theorem run_record (event : Event) :
    (record event).run engine = some ((), { engine with history := event :: engine.history }) :=
  rfl

@[simp] theorem run_note (notice : Notice) :
    (note notice).run engine = some ((), { engine with notices := notice :: engine.notices }) :=
  rfl

@[simp] theorem run_readRegister [RegisterBlock ρ] (address : UInt32) :
    (readRegister address).run engine =
      let (value, registers) := RegisterBlock.read address engine.registers
      some (value, { engine with
        registers, history := .read address value :: engine.history }) := rfl

@[simp] theorem run_writeRegister [RegisterBlock ρ] (address value : UInt32) :
    (writeRegister address value).run engine = some ((), { engine with
      registers := RegisterBlock.write address value engine.registers
      history := .write address value :: engine.history }) := rfl

@[simp] theorem run_fence [RegisterBlock ρ] :
    fence.run engine = some ((), { engine with
      registers := RegisterBlock.barrier engine.registers
      history := .barrier :: engine.history }) := rfl

@[simp] theorem run_enableClock [GatedClock κ] :
    enableClock.run engine = some ((), { engine with
      clock := GatedClock.enable engine.clock
      history := .clockEnabled :: engine.history }) := rfl

@[simp] theorem run_disableClock [GatedClock κ] :
    disableClock.run engine = some ((), { engine with
      clock := GatedClock.disable engine.clock
      history := .clockDisabled :: engine.history }) := rfl

@[simp] theorem run_isClockEnabled [GatedClock κ] :
    isClockEnabled.run engine =
      let (running, clock) := GatedClock.isEnabled engine.clock
      some (running, { engine with
        clock, history := .clockQueried running :: engine.history }) := rfl

@[simp] theorem run_tryMutex [EngineMutex μ] (timeout : Nat) :
    (tryMutex timeout).run engine =
      let (answer, mutex) := EngineMutex.tryLock timeout engine.mutex
      some (answer, { engine with
        mutex, history := .lockTried timeout answer :: engine.history }) := rfl

@[simp] theorem run_unlockMutex [EngineMutex μ] :
    unlockMutex.run engine = some ((), { engine with
      mutex := EngineMutex.unlock engine.mutex
      history := .unlocked :: engine.history }) := rfl

end Calls

end EngineM

end HashAccelerator
