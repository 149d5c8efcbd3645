/-!
# Words and bytes

Big-endian bytes of 32-bit and 64-bit words and of natural numbers, and back. A `lane` is a 64-bit
word seen as two halves; the engine's readout delivers the halves of each lane in exchanged order,
which `exchangeHalves` undoes.
-/

namespace HashAccelerator

namespace BigEndian

/-! ## 32-bit words -/

/-- The word with the given bytes, the most significant first. -/
def word32 (a b c d : UInt8) : UInt32 :=
  a.toUInt32 <<< 24 ||| b.toUInt32 <<< 16 ||| c.toUInt32 <<< 8 ||| d.toUInt32

/-- The bytes of a word, the most significant first. -/
def bytes32 (word : UInt32) : List UInt8 :=
  [(word >>> 24).toUInt8, (word >>> 16).toUInt8, (word >>> 8).toUInt8, word.toUInt8]

/-- The words that a list of bytes holds, four bytes each; a shorter rest is left out. -/
def words32 : List UInt8 → List UInt32
  | a :: b :: c :: d :: rest => word32 a b c d :: words32 rest
  | _ => []

/-! ## 64-bit lanes -/

/-- The lane with the given halves. -/
def lane (high low : UInt32) : UInt64 := high.toUInt64 <<< 32 ||| low.toUInt64

/-- The upper half of a lane. -/
def highHalf (lane : UInt64) : UInt32 := (lane >>> 32).toUInt32

/-- The lower half of a lane. -/
def lowHalf (lane : UInt64) : UInt32 := lane.toUInt32

/-- The bytes of a lane, the most significant first. -/
def bytes64 (lane : UInt64) : List UInt8 := bytes32 (highHalf lane) ++ bytes32 (lowHalf lane)

/-- The lanes that a list of words holds, upper half first; an odd word is left out. -/
def lanes : List UInt32 → List UInt64
  | high :: low :: rest => lane high low :: lanes rest
  | _ => []

/-- The lanes that a list of bytes holds, eight bytes each; a shorter rest is left out. -/
def words64 (bytes : List UInt8) : List UInt64 := lanes (words32 bytes)

/-- A lane rotated by half its width. -/
def exchange (lane : UInt64) : UInt64 := lane <<< 32 ||| lane >>> 32

/-- The two words of each pair exchanged; an odd last word stays where it is. -/
def exchangeHalves : List UInt32 → List UInt32
  | first :: second :: rest => second :: first :: exchangeHalves rest
  | rest => rest

/-! ## Numbers -/

/-- The lowest `length` bytes of a number, the most significant first. -/
def ofNat : Nat → Nat → List UInt8
  | 0, _ => []
  | length + 1, value => ofNat length (value / 256) ++ [UInt8.ofNat (value % 256)]

end BigEndian

end HashAccelerator
