import HashAccelerator.Platform.Interface
/-!
# A clock with a reference count

The clock counts its users and runs while there is one. The count is a 32-bit word: it wraps when
one user too many enables the clock, and a disable at zero leaves it alone.
-/

namespace HashAccelerator

/-- A clock that counts its users. -/
structure CountedClock where
  /-- How many users hold the clock enabled. -/
  count : UInt32 := 0
  /-- How many times it was disabled. -/
  disables : Nat := 0
  deriving DecidableEq

instance : GatedClock CountedClock where
  enable clock := { clock with count := clock.count + 1 }
  disable clock :=
    { count := if clock.count = 0 then 0 else clock.count - 1, disables := clock.disables + 1 }
  isEnabled clock := (clock.count != 0, clock)

end HashAccelerator
