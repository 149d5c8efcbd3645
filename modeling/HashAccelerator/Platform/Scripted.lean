import HashAccelerator.Platform.Interface
/-!
# Platforms that follow a script

Registers, a clock and a mutex whose answers are laid down beforehand. A script that is used up goes
on with a standing answer: registers read zero, the clock runs, a creation succeeds, and the mutex
is granted unless it is held.
-/

namespace HashAccelerator

/-! ## Registers -/

/-- Registers whose reads, at whatever address, deliver the words of a list. -/
structure ScriptedRegisters where
  reads : List UInt32
  deriving DecidableEq

instance : RegisterBlock ScriptedRegisters where
  read _ registers :=
    match registers.reads with
    | [] => (0, registers)
    | value :: reads => (value, ⟨reads⟩)
  write _ _ registers := registers
  barrier registers := registers
  patience registers := registers.reads.length

/-! ## Clock -/

/-- A clock whose answers are the values of a list. -/
structure ScriptedClock where
  answers : List Bool
  enables : Nat := 0
  disables : Nat := 0
  deriving DecidableEq

instance : GatedClock ScriptedClock where
  enable clock := { clock with enables := clock.enables + 1 }
  disable clock := { clock with disables := clock.disables + 1 }
  isEnabled clock :=
    match clock.answers with
    | [] => (true, clock)
    | running :: answers => (running, { clock with answers })

/-! ## Mutex -/

/-- The course of one creation of a scripted mutex. -/
inductive CreationScript where
  | succeed
  | fail (error : MutexError)
  /-- First has a fresh operation try to acquire the engine, then succeeds. -/
  | reenter (algorithm : Algorithm)
  deriving DecidableEq

/-- A mutex whose creations and attempts come out as two lists say. -/
structure ScriptedMutex where
  creations : List CreationScript := []
  attempts : List LockAnswer := []
  locked : Bool := false
  deriving DecidableEq

instance : EngineMutex ScriptedMutex where
  create mutex :=
    match mutex.creations with
    | [] => .done (.ok ()) mutex
    | .succeed :: creations => .done (.ok ()) { mutex with creations }
    | .fail error :: creations => .done (.error error) { mutex with creations }
    | .reenter algorithm :: creations =>
      .ask { mutex with creations } algorithm fun _ mutex => .done (.ok ()) mutex
  tryLock _ mutex :=
    match mutex.attempts with
    | [] => if mutex.locked then (.wouldBlock, mutex) else (.granted, { mutex with locked := true })
    | .granted :: attempts => (.granted, { mutex with attempts, locked := true })
    | answer :: attempts => (answer, { mutex with attempts })
  unlock mutex := { mutex with locked := false }

end HashAccelerator
