import HashAccelerator.Hash.Chain
import HashAccelerator.Hash.Pieces
/-!
# The digest of a message

The standard's own account of a hash: the message is padded with a one bit, the least number of
zeros and its length in bits, cut into blocks, and folded over the chaining value. Nothing here
knows of streams, buffers or engines; `Algorithm.digest` is what those have to agree with.
-/

namespace HashAccelerator

namespace Algorithm

/-- How many zero bytes stand between the byte that ends a message and its length: the fewest that
fill a whole number of blocks. -/
def zeroCount (algorithm : Algorithm) (length : Nat) : Nat :=
  let used := (length + 1 + algorithm.lengthBytes) % algorithm.blockSize
  (algorithm.blockSize - used) % algorithm.blockSize

/-- A message with its padding. -/
def pad (algorithm : Algorithm) (message : List UInt8) : List UInt8 :=
  message ++ 0x80 :: List.replicate (algorithm.zeroCount message.length) 0 ++
    BigEndian.ofNat algorithm.lengthBytes (8 * message.length)

/-- The blocks of a padded message. -/
def blocks (algorithm : Algorithm) (message : List UInt8) : List (List UInt8) :=
  pieces algorithm.blockSize (algorithm.pad message)

/-- The chaining value after some blocks. -/
def chainOf (algorithm : Algorithm) (blocks : List (List UInt8)) : Except Fault Chain :=
  blocks.foldlM (fun chain block => chain.compress algorithm block) (Chain.initial algorithm)

/-- The digest of a message. -/
def digest (algorithm : Algorithm) (message : List UInt8) : Except Fault (List UInt8) := do
  (← algorithm.chainOf (algorithm.blocks message)).digest algorithm

end Algorithm

end HashAccelerator
