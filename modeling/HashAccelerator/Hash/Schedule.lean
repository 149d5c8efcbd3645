/-!
# Message schedules

Every hash of the standard stretches the sixteen words of a block into as many words as it has
rounds, each new word a function of the sixteen before it. The stretching is the same for all of
them; they differ in which of the earlier words the next one is made of, and those are counted
backwards from it.
-/

namespace HashAccelerator

/-- The words of a message schedule so far, the newest first. -/
abbrev Schedule (ω : Type) : Type := List ω

namespace Schedule

variable {ω : Type}

/-- The word that stands so many places before the next one. -/
def back [OfNat ω 0] (words : Schedule ω) (places : Nat) : ω := words[places - 1]?.getD 0

/-- The schedule with so many more words. -/
def extend (next : Schedule ω → ω) : Nat → Schedule ω → Schedule ω
  | 0, words => words
  | count + 1, words => extend next count (next words :: words)

/-- The words for the given number of rounds, the oldest first, from those of the block. -/
def ofBlock (next : Schedule ω → ω) (rounds : Nat) (block : List ω) : List ω :=
  (extend next (rounds - 16) block.reverse).reverse

end Schedule

end HashAccelerator
