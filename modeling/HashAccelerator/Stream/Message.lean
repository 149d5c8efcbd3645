import HashAccelerator.Stream.Dispatch
/-!
# The life of a stream

A stream takes in its message by `absorb` and ends in one of three ways: `finish` gives the digest,
`cancel` and `discard` give nothing. Each of them gives back what the stream holds of the engine,
whether it succeeds or not. `digest` is a whole life at once.
-/

namespace HashAccelerator

namespace HashStream

variable {ρ κ μ : Type} [RegisterBlock ρ] [GatedClock κ] [EngineMutex μ]

open EngineM

/-! ## The message -/

/-- Takes in bytes one by one and flushes each block that they fill. -/
def absorbBytes (stream : HashStream) : List UInt8 →
    EngineM ρ κ μ (Except Fault Unit × HashStream)
  | [] => return (.ok (), stream)
  | byte :: rest => do
    let stream := stream.push byte
    if stream.isFull then
      match ← stream.flush none with
      | (.ok (), stream) => absorbBytes { stream with waiting := 0 } rest
      | (.error fault, stream) => return (.error fault, stream)
    else absorbBytes stream rest

/-- Takes in the next part of the message. -/
def absorb (stream : HashStream) (bytes : List UInt8) :
    EngineM ρ κ μ (Except Fault Unit × HashStream) := do
  if stream.failed then return (.error .alreadyFailed, stream)
  else
    let counted := { stream with length := stream.length + BitVec.ofNat 128 bytes.length }
    absorbBytes counted bytes

/-- Takes in some parts of the message up to the first that fails. -/
def absorbAll (stream : HashStream) : List (List UInt8) →
    EngineM ρ κ μ (Except Fault Unit × HashStream)
  | [] => return (.ok (), stream)
  | part :: rest => do
    match ← stream.absorb part with
    | (.ok (), stream) => absorbAll stream rest
    | (.error fault, stream) => return (.error fault, stream)

/-! ## Its end -/

/-- Drops the stream, giving back what it holds. -/
def discard (stream : HashStream) : EngineM ρ κ μ Unit := do
  let _ ← stream.letGo

/-- Abandons the hash, giving back what it holds. -/
def cancel (stream : HashStream) : EngineM ρ κ μ Unit := do
  (← stream.letGo).discard

/-- Makes room for the length field: a message that ends too late in its block closes that block
without it, and the field goes into one more. -/
def makeRoom (stream : HashStream) : EngineM ρ κ μ (Except Fault Unit × HashStream) := do
  if stream.algorithm.blockSize - stream.algorithm.lengthBytes < stream.waiting then
    match ← stream.flush none with
    | (.ok (), stream) => return (.ok (), stream.clearBuffer)
    | (.error fault, stream) => return (.error fault, stream)
  else return (.ok (), stream)

/-- Flushes the block that ends in the length of the message. -/
def closeMessage (stream : HashStream) (bits : BitVec 128) :
    EngineM ρ κ μ (Except Fault Unit × HashStream) :=
  if stream.algorithm.isWide then stream.flush (some bits)
  else (stream.putNarrowLength bits).flush none

/-- Pads the message, flushes the last blocks and collects the digest. What is held is given back
once the digest has been asked for, and not if a block failed before. -/
def complete (stream : HashStream) : EngineM ρ κ μ (Except Fault (List UInt8) × HashStream) := do
  match ← stream.terminate.makeRoom with
  | (.error fault, stream) => return (.error fault, stream)
  | (.ok (), roomy) =>
    match ← roomy.closeMessage (stream.length * 8) with
    | (.error fault, stream) => return (.error fault, stream)
    | (.ok (), closed) =>
      let digest ← closed.collect
      return (digest, ← closed.letGo)

/-- Ends the message and gives its digest. The stream is gone afterwards, and holds nothing. -/
def finish (stream : HashStream) : EngineM ρ κ μ (Except Fault (List UInt8)) := do
  if stream.failed then
    stream.discard
    return .error .alreadyFailed
  else
    let (digest, stream) ← stream.complete
    stream.discard
    return digest

end HashStream

/-- The digest of a whole message. -/
def EngineM.digest {ρ κ μ : Type} [RegisterBlock ρ] [GatedClock κ] [EngineMutex μ]
    (algorithm : Algorithm) (message : List UInt8) : EngineM ρ κ μ (Except Fault (List UInt8)) := do
  match ← (HashStream.start algorithm).absorb message with
  | (.ok (), stream) => stream.finish
  | (.error fault, stream) =>
    stream.discard
    return .error fault

end HashAccelerator
