import HashAccelerator.Engine.Arbitration
import HashAccelerator.Engine.Retrieval
import HashAccelerator.Engine.Submission
import HashAccelerator.Stream.Basic
/-!
# Streams on the engine

How a stream's blocks reach the path its operation commits to, and how its digest comes back. The
first block of a fresh operation decides the path. A stream whose block could not be flushed has
failed: the message is lost, and every later call on it fails too.
-/

namespace HashAccelerator

namespace HashStream

variable {ρ κ μ : Type} [RegisterBlock ρ] [GatedClock κ] [EngineMutex μ]

open EngineM

/-- Commits the stream's operation to a path if it has none. -/
def choosePath (stream : HashStream) : EngineM ρ κ μ (Except Fault Unit × HashStream) := do
  if stream.operation.mode = .uncommitted then
    let (outcome, operation) ← acquire stream.operation
    return (outcome.map fun _ => (), { stream with operation })
  else return (.ok (), stream)

/-- Compresses the buffered block, closed by a length if one is given, on the stream's path. -/
def dispatch (stream : HashStream) (bits? : Option (BitVec 128)) :
    EngineM ρ κ μ (Except Fault Unit × HashStream) := do
  match ← stream.choosePath with
  | (.error fault, stream) => return (.error fault, stream)
  | (.ok (), stream) =>
    match stream.operation.mode with
    | .hardware _ =>
      let words := (stream.wordsForEngine bits?).take stream.algorithm.blockWords
      let (outcome, operation) ← submit stream.operation words
      return (outcome, { stream with operation })
    | .software =>
      match stream.chain.compress stream.algorithm (stream.bytesForSoftware bits?) with
      | .ok chain => return (.ok (), { stream with chain })
      | .error fault => return (.error fault, stream)
    | .unsettled => return (.error .unsettled, stream)
    | .uncommitted => return (.error .alreadyCommitted, stream)

/-- Compresses the buffered block; if that fails, so has the stream. -/
def flush (stream : HashStream) (bits? : Option (BitVec 128)) :
    EngineM ρ κ μ (Except Fault Unit × HashStream) := do
  let (outcome, stream) ← stream.dispatch bits?
  match outcome with
  | .ok () => return (.ok (), stream)
  | .error fault =>
    note (.streamAborted stream.algorithm fault)
    return (.error fault, { stream with failed := true })

/-- The digest after the last block, from the stream's path. -/
def collect (stream : HashStream) : EngineM ρ κ μ (Except Fault (List UInt8)) := do
  match stream.operation.mode with
  | .hardware _ =>
    let (outcome, words) ← fetch stream.operation (List.replicate (maxDigestSize / 4) 0)
    return outcome.bind fun () =>
      cutDigest (words.flatMap BigEndian.bytes32) stream.algorithm.digestSize
  | .software => return stream.chain.digest stream.algorithm
  | .unsettled => return .error .unsettled
  | .uncommitted => return .error .alreadyCommitted

/-- Gives back what the stream's operation holds, if it holds anything. -/
def letGo (stream : HashStream) : EngineM ρ κ μ HashStream := do
  if stream.operation.isHolding then
    return { stream with operation := ← release stream.operation }
  else return stream

end HashStream

end HashAccelerator
