import HashAccelerator.BigEndian
import HashAccelerator.Fault
import HashAccelerator.Hash.Sha1
import HashAccelerator.Hash.Sha2
/-!
# Chaining values

What a hash carries from block to block: eight words of the algorithm's width. A chaining value
takes in a block of an algorithm of its own width and gives out a digest as the front of its
big-endian bytes. Both can be asked for an algorithm of the other width, or with too few bytes, and
both refuse then without a change.
-/

namespace HashAccelerator

/-- Longest digest in bytes. -/
def maxDigestSize : Nat := 64

/-- The first `length` bytes as a digest. There have to be that many, and a digest is never longer
than `maxDigestSize`. -/
def cutDigest (bytes : List UInt8) (length : Nat) : Except Fault (List UInt8) :=
  if length ≤ bytes.length ∧ length ≤ maxDigestSize then .ok (bytes.take length)
  else .error .wrongSize

/-- What a hash carries from block to block. -/
inductive Chain where
  | narrow (words : Vector UInt32 8)
  | wide (lanes : Vector UInt64 8)
  deriving DecidableEq

namespace Chain

/-- What a hash begins with. -/
def initial : Algorithm → Chain
  | .sha1 => .narrow Sha1.initial
  | .sha224 => .narrow Sha2.initial224
  | .sha256 => .narrow Sha2.initial256
  | .sha384 => .wide Sha2.initial384
  | .sha512 => .wide Sha2.initial512

/-- The value holds 64-bit words. -/
def isWide : Chain → Bool
  | .narrow _ => false
  | .wide _ => true

/-- A hash begins at its own width. -/
@[simp] theorem isWide_initial (algorithm : Algorithm) :
    (initial algorithm).isWide = algorithm.isWide := by
  cases algorithm <;> rfl

/-- The value after the block at the front of `bytes`; what follows the block is ignored. -/
def compress (chain : Chain) (algorithm : Algorithm) (bytes : List UInt8) : Except Fault Chain :=
  if bytes.length < algorithm.blockSize then .error .wrongSize
  else
    match chain, algorithm with
    | .narrow words, .sha1 =>
      .ok (.narrow (Sha1.compress words (BigEndian.words32 (bytes.take 64))))
    | .narrow words, .sha224 | .narrow words, .sha256 =>
      .ok (.narrow (Sha2.narrow.compress words (BigEndian.words32 (bytes.take 64))))
    | .wide lanes, .sha384 | .wide lanes, .sha512 =>
      .ok (.wide (Sha2.wide.compress lanes (BigEndian.words64 (bytes.take 128))))
    | _, _ => .error (.noUnit algorithm)

/-- The big-endian bytes of a chaining value. -/
def bytes : Chain → List UInt8
  | .narrow words => words.toList.flatMap BigEndian.bytes32
  | .wide lanes => lanes.toList.flatMap BigEndian.bytes64

/-- The digest of an algorithm. -/
def digest (chain : Chain) (algorithm : Algorithm) : Except Fault (List UInt8) :=
  cutDigest chain.bytes algorithm.digestSize

/-- The words of a chaining value as a readout delivers them: those of a narrow value in order, and
of each lane of a wide value the lower half first. -/
def readoutWords : Chain → List UInt32
  | .narrow words => words.toList
  | .wide lanes => lanes.toList.flatMap fun lane =>
      [BigEndian.lowHalf lane, BigEndian.highHalf lane]

end Chain

end HashAccelerator
