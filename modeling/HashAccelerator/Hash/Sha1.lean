import HashAccelerator.Hash.Schedule
/-!
# SHA-1

The compression function of SHA-1: eighty rounds over five words, in four phases of twenty rounds
with a mixing function and a constant each. The chaining value is kept in the front of eight words,
and the other three are left alone.
-/

namespace HashAccelerator

namespace Sha1

/-- A word rotated to the left. -/
def rotateLeft (word amount : UInt32) : UInt32 := word <<< amount ||| word >>> (32 - amount)

/-- The next word of the schedule. -/
def nextWord (words : Schedule UInt32) : UInt32 :=
  rotateLeft (words.back 3 ^^^ words.back 8 ^^^ words.back 14 ^^^ words.back 16) 1

/-- The five words that a round works on. -/
structure Working where
  a : UInt32
  b : UInt32
  c : UInt32
  d : UInt32
  e : UInt32

/-- A mixing function and a constant, for twenty rounds. -/
structure Phase where
  mix : UInt32 → UInt32 → UInt32 → UInt32
  constant : UInt32

/-- Takes each bit from the second or the third word as the first word says. -/
def choose (b c d : UInt32) : UInt32 := (b &&& c) ^^^ (~~~b &&& d)

/-- The parity of each bit. -/
def parity (b c d : UInt32) : UInt32 := b ^^^ c ^^^ d

/-- The majority of each bit. -/
def majority (b c d : UInt32) : UInt32 := (b &&& c) ^^^ (b &&& d) ^^^ (c &&& d)

/-- The four phases. -/
def phases : List Phase :=
  [⟨choose, 0x5A827999⟩, ⟨parity, 0x6ED9EBA1⟩, ⟨majority, 0x8F1BBCDC⟩, ⟨parity, 0xCA62C1D6⟩]

/-- The phase of each of the eighty rounds. -/
def roundPhases : List Phase := phases.flatMap (List.replicate 20)

/-- One round. -/
def round (v : Working) (phase : Phase) (word : UInt32) : Working where
  a := rotateLeft v.a 5 + phase.mix v.b v.c v.d + v.e + phase.constant + word
  b := v.a
  c := rotateLeft v.b 30
  d := v.c
  e := v.d

/-- The chaining value after one more block of sixteen words. -/
def compress (state : Vector UInt32 8) (block : List UInt32) : Vector UInt32 8 :=
  let rounds := roundPhases.zip (Schedule.ofBlock nextWord 80 block)
  let v := rounds.foldl (fun v (phase, word) => round v phase word)
    ⟨state[0], state[1], state[2], state[3], state[4]⟩
  #v[state[0] + v.a, state[1] + v.b, state[2] + v.c, state[3] + v.d, state[4] + v.e,
    state[5], state[6], state[7]]

/-- The words that a hash begins with. -/
def initial : Vector UInt32 8 :=
  #v[0x67452301, 0xEFCDAB89, 0x98BADCFE, 0x10325476, 0xC3D2E1F0, 0, 0, 0]

end Sha1

end HashAccelerator
