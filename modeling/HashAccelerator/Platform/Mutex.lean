import HashAccelerator.Platform.Interface
/-!
# Mutexes that are a flag

A `FlagMutex` is one bit and needs no creation. A `CountedMutex` counts how often it was created,
and its creation can be made to fail. With neither is there anybody to wait for, so the time limit
plays no part.
-/

namespace HashAccelerator

/-- A mutex that is one bit. -/
structure FlagMutex where
  locked : Bool := false
  deriving DecidableEq

instance : EngineMutex FlagMutex where
  create mutex := .done (.ok ()) mutex
  tryLock _ mutex := if mutex.locked then (.wouldBlock, mutex) else (.granted, ⟨true⟩)
  unlock _ := ⟨false⟩

/-- A mutex that counts its creations, which can be made to fail. -/
structure CountedMutex where
  locked : Bool := false
  /-- Creations fail. -/
  failing : Bool := false
  /-- How many creations were attempted. -/
  creations : Nat := 0
  deriving DecidableEq

/-- The mutex with its creations failing, or succeeding again. -/
def CountedMutex.setFailing (failing : Bool) (mutex : CountedMutex) : CountedMutex :=
  { mutex with failing }

instance : EngineMutex CountedMutex where
  create mutex :=
    .done (if mutex.failing then .error .creation else .ok ())
      { mutex with creations := mutex.creations + 1 }
  tryLock _ mutex :=
    if mutex.locked then (.wouldBlock, mutex) else (.granted, { mutex with locked := true })
  unlock mutex := { mutex with locked := false }

end HashAccelerator
