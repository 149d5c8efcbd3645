import HashAccelerator.Hash.Chain
import HashAccelerator.Operation
/-!
# Hash streams

A `HashStream` is a message on its way into a hash: the bytes that do not fill a block yet wait in a
buffer of 128 bytes, which is two blocks of a narrow algorithm and one of a wide one, and the
message's length is counted in 128 bits, which wrap.

A full buffer becomes a block in one of two forms. The engine takes 32-bit words
(`wordsForEngine`), and the software path takes bytes (`bytesForSoftware`). The final block of a
wide algorithm carries the message's length in its last sixteen bytes, and each form puts it there
in its own way: the software form as two big-endian lanes, the engine form through lanes whose lower
half is written first.
-/

namespace HashAccelerator

/-- A message on its way into a hash. -/
structure HashStream where
  operation : Operation
  /-- The chaining value on the software path. -/
  chain : Chain
  /-- The front of the buffer holds the bytes that wait for their block. -/
  buffer : Vector UInt8 128 := Vector.replicate 128 0
  /-- How many bytes wait. -/
  waiting : Nat := 0
  /-- The length of the message so far, in bytes. -/
  length : BitVec 128 := 0
  /-- An earlier call failed, and no other will succeed. -/
  failed : Bool := false

namespace HashStream

/-- A stream for an operation. One that has committed keeps its path. -/
def ofOperation (operation : Operation) : HashStream where
  operation
  chain := .initial operation.algorithm

/-- A stream that never uses the engine. -/
def inSoftware (algorithm : Algorithm) : HashStream := ofOperation (.softwareOnly algorithm)

/-- A stream that uses the engine if it is free and has a unit for the algorithm. -/
def start (algorithm : Algorithm) : HashStream :=
  if algorithm.unit?.isSome then ofOperation (.fresh algorithm) else inSoftware algorithm

/-- The hash being computed. -/
def algorithm (stream : HashStream) : Algorithm := stream.operation.algorithm

/-- One more byte in the buffer. -/
def push (stream : HashStream) (byte : UInt8) : HashStream :=
  { stream with
    buffer := stream.buffer.setIfInBounds stream.waiting byte
    waiting := stream.waiting + 1 }

/-- The buffer holds a whole block. -/
def isFull (stream : HashStream) : Bool := stream.waiting == stream.algorithm.blockSize

/-! ## Blocks from the buffer -/

/-- The words of the buffer. -/
def bufferWords (stream : HashStream) : List UInt32 := BigEndian.words32 stream.buffer.toList

/-- The two lanes of a length, the more significant first. -/
def lengthLanes (bits : BitVec 128) : UInt64 × UInt64 :=
  (.ofBitVec (bits.extractLsb' 64 64), .ofBitVec (bits.extractLsb' 0 64))

/-- The buffer as bytes for the software path, with a length over the last two lanes if one is
given. -/
def bytesForSoftware (stream : HashStream) (bits? : Option (BitVec 128)) : List UInt8 :=
  match bits? with
  | none => stream.buffer.toList
  | some bits =>
    let (high, low) := lengthLanes bits
    ((BigEndian.lanes stream.bufferWords).take 14 ++ [high, low]).flatMap BigEndian.bytes64

/-- The words of a lane as the engine takes them, the lower half first. -/
def laneWords (lane : UInt64) : List UInt32 := [BigEndian.lowHalf lane, BigEndian.highHalf lane]

/-- The buffer as words for the engine, with a length over the last two lanes if one is given. A
lane goes in lower half first, so a message lane is read that way too, and the lanes of the length
are rotated by half their width. -/
def wordsForEngine (stream : HashStream) (bits? : Option (BitVec 128)) : List UInt32 :=
  match bits? with
  | none => stream.bufferWords
  | some bits =>
    let (high, low) := lengthLanes bits
    let message := (BigEndian.lanes (BigEndian.exchangeHalves stream.bufferWords)).take 14
    (message ++ [BigEndian.exchange high, BigEndian.exchange low]).flatMap laneWords

/-! ## The end of a message -/

/-- The buffer with every byte from the waiting ones on zero, up to the end of the block. -/
def clearTail (stream : HashStream) : HashStream :=
  { stream with
    buffer := .ofFn fun i =>
      if stream.waiting ≤ i.val ∧ i.val < stream.algorithm.blockSize then 0
      else stream.buffer[i] }

/-- The byte that ends a message, and zeros after it in its block. -/
def terminate (stream : HashStream) : HashStream :=
  if stream.waiting < stream.algorithm.blockSize then stream.clearTail.push 0x80
  else { stream with waiting := stream.waiting + 1 }

/-- The buffer with every byte zero. -/
def clearBuffer (stream : HashStream) : HashStream :=
  { stream with buffer := Vector.replicate 128 0 }

/-- The lower 64 bits of a length, big-endian, over the end of a narrow block. -/
def putNarrowLength (stream : HashStream) (bits : BitVec 128) : HashStream :=
  let field := BigEndian.bytes64 (lengthLanes bits).2
  let start := stream.algorithm.blockSize - stream.algorithm.lengthBytes
  { stream with
    buffer := .ofFn fun i =>
      if start ≤ i.val ∧ i.val < stream.algorithm.blockSize then (field[i.val - start]?).getD 0
      else stream.buffer[i] }

end HashStream

end HashAccelerator
