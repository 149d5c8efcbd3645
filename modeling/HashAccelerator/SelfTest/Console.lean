/-!
# A console that may fill up

The self-test reports on a console, which may have room for only so many characters. What does not
fit is lost, and the writer hears of it.
-/

namespace HashAccelerator

/-- A console with what was written on it so far. Its text is ASCII, so a character takes one
byte. -/
structure Console where
  /-- Room for so many characters in all; no limit if absent. -/
  capacity : Option Nat := none
  text : String := ""
  deriving DecidableEq

namespace Console

/-- Writes as much of a text as still fits. Says whether all of it did. -/
def write (console : Console) (text : String) : Bool × Console :=
  match console.capacity with
  | none => (true, { console with text := console.text ++ text })
  | some capacity =>
    let room := capacity - console.text.length
    let fitting := String.ofList (text.toList.take room)
    (text.length ≤ room, { console with text := console.text ++ fitting })

end Console

end HashAccelerator
