/-!
# The hash algorithms

Five hashes of the secure hash standard, with the sizes that everything else reads off them. Four
of them have a unit of their own on the accelerator, numbered by a `UnitIndex`; SHA-224 has none
and is always computed in software. `unit?` and `ofUnit` are inverse to each other
(`unit?_eq_some_iff`).
-/

namespace HashAccelerator

/-- The number of one of the accelerator's four hash units. -/
abbrev UnitIndex : Type := Fin 4

/-- A hash of the secure hash standard. -/
inductive Algorithm where
  | sha1
  | sha224
  | sha256
  | sha384
  | sha512
  deriving DecidableEq

namespace Algorithm

/-- Every algorithm, in the order of the digest size. -/
def all : List Algorithm := [.sha1, .sha224, .sha256, .sha384, .sha512]

/-- The algorithm's name, as log lines and messages spell it. -/
def name : Algorithm → String
  | .sha1 => "Sha1"
  | .sha224 => "Sha224"
  | .sha256 => "Sha256"
  | .sha384 => "Sha384"
  | .sha512 => "Sha512"

/-- Length of a digest in bytes. -/
def digestSize : Algorithm → Nat
  | .sha1 => 20
  | .sha224 => 28
  | .sha256 => 32
  | .sha384 => 48
  | .sha512 => 64

/-- Length of a digest in 32-bit words. -/
def digestWords (algorithm : Algorithm) : Nat := algorithm.digestSize / 4

/-- Whether the algorithm computes on 64-bit words. -/
def isWide : Algorithm → Bool
  | .sha384 | .sha512 => true
  | .sha1 | .sha224 | .sha256 => false

/-- Length of a message block in bytes. -/
def blockSize (algorithm : Algorithm) : Nat := if algorithm.isWide then 128 else 64

/-- Length of a message block in 32-bit words. -/
def blockWords (algorithm : Algorithm) : Nat := algorithm.blockSize / 4

/-- Length in bytes of the field that closes the final block and holds the message's length in
bits. -/
def lengthBytes (algorithm : Algorithm) : Nat := if algorithm.isWide then 16 else 8

/-- The accelerator's unit for the algorithm, if it has one. -/
def unit? : Algorithm → Option UnitIndex
  | .sha1 => some 0
  | .sha224 => none
  | .sha256 => some 1
  | .sha384 => some 2
  | .sha512 => some 3

/-- The algorithm that a unit computes. -/
def ofUnit : UnitIndex → Algorithm
  | 0 => .sha1
  | 1 => .sha256
  | 2 => .sha384
  | 3 => .sha512

/-- **Units and their algorithms answer to each other.** -/
theorem unit?_eq_some_iff {algorithm : Algorithm} {unit : UnitIndex} :
    algorithm.unit? = some unit ↔ algorithm = ofUnit unit := by
  revert unit
  cases algorithm <;> decide

/-- A block has room for its length field and the byte that ends the message. -/
theorem lengthBytes_lt_blockSize (algorithm : Algorithm) :
    algorithm.lengthBytes + 1 < algorithm.blockSize := by
  cases algorithm <;> decide

end Algorithm

end HashAccelerator
