import HashAccelerator.Hash.Pieces
import HashAccelerator.SelfTest.Checks
import Std.Data.TreeMap
/-!
# Sessions

A `Session` is one engine with any number of operations and hash streams on it, each under a name
of its own. A `Step` is one call on the engine, on an operation, on a stream or on a part of the
platform, and a run of steps is a history of everything that may happen to an engine. A stream that
loses its name is discarded, which gives back what it holds; an operation that loses its name is
forgotten together with what it holds.
-/

namespace HashAccelerator

/-- One engine with the operations and streams on it. -/
structure Session (ρ κ μ : Type) where
  engine : Engine ρ κ μ
  operations : Std.TreeMap String Operation := ∅
  streams : Std.TreeMap String HashStream := ∅

/-- One call in a session. -/
inductive Step (ρ μ : Type) where
  /-- A new operation, which may be for software only. -/
  | create (name : String) (algorithm : Algorithm) (software : Bool)
  /-- A copy of an operation under another name. -/
  | copy (source target : String)
  /-- An operation with some of its fields replaced. -/
  | adjust (name : String) (mode : Option Mode) (clockDebt : Option Nat) (holdsMutex : Option Bool)
  | acquire (name : String)
  | release (name : String)
  | settle (name : String)
  | submit (name : String) (words : List UInt32)
  | fetch (name : String) (out : List UInt32)
  | awaitIdle
  | awaitClear (address : UInt32)
  /-- A new stream, which may be for software only. -/
  | start (name : String) (algorithm : Algorithm) (software : Bool)
  /-- A new stream for an operation, which is no longer an operation of its own. -/
  | adopt (name operation : String)
  /-- The next part of a stream's message, at once or in parts of one size. -/
  | absorb (name : String) (bytes : List UInt8) (partSize : Option Nat)
  | finish (name : String)
  | cancel (name : String)
  | discard (name : String)
  | digest (algorithm : Algorithm) (message : List UInt8)
  | readRegister (address : UInt32)
  | writeRegister (address value : UInt32)
  | fence
  | enableClock
  | disableClock
  | isClockEnabled
  | createMutex
  | tryMutex (timeout : Nat)
  | unlockMutex
  | readSettings
  | selfTest (capacity : Option Nat)
  /-- The register block changes by itself. -/
  | alterRegisters (change : ρ → ρ)
  /-- The mutex changes by itself. -/
  | alterMutex (change : μ → μ)

/-- What a step answers. -/
inductive Answer where
  | done
  | outcome (outcome : Except Fault Unit)
  | path (outcome : Except Fault Path)
  | repayment (repayment : Repayment)
  /-- The caller's words after a fetch. -/
  | words (outcome : Except Fault Unit) (out : List UInt32)
  | digest (outcome : Except Fault (List UInt8))
  | word (value : UInt32)
  | flag (value : Bool)
  | creation (outcome : Except MutexError Unit)
  | lock (answer : LockAnswer)
  | settings (settings : Settings)
  /-- The number of failed checks, if the console took the whole report, and the report. -/
  | report (failures : Option Nat) (text : String)
  /-- Nothing has this name. -/
  | unknown (name : String)

/-- A step of a session; `none` is a wait without end. -/
abbrev SessionM (ρ κ μ : Type) : Type → Type := StateT (Session ρ κ μ) Option

namespace Session

variable {ρ κ μ : Type}

/-- A session on an engine that has not been used. -/
def ofEngine (engine : Engine ρ κ μ) : Session ρ κ μ := { engine }

/-- A step of the session's engine. -/
def onEngine {α : Type} (action : EngineM ρ κ μ α) : SessionM ρ κ μ α := fun session => do
  let (answer, engine) ← action.run session.engine
  return (answer, { session with engine })

/-- Puts an operation under a name. -/
def putOperation (name : String) (operation : Operation) : SessionM ρ κ μ Unit :=
  modify fun session => { session with operations := session.operations.insert name operation }

/-- A step with the operation of that name, which it may change. -/
def withOperation (name : String)
    (action : Operation → SessionM ρ κ μ (Answer × Operation)) : SessionM ρ κ μ Answer := do
  match (← get).operations[name]? with
  | none => return .unknown name
  | some operation =>
    let (answer, operation) ← action operation
    putOperation name operation
    return answer

/-- A step with the stream of that name, which it may change. -/
def withStream (name : String)
    (action : HashStream → SessionM ρ κ μ (Answer × HashStream)) : SessionM ρ κ μ Answer := do
  match (← get).streams[name]? with
  | none => return .unknown name
  | some stream =>
    let (answer, stream) ← action stream
    modify fun session => { session with streams := session.streams.insert name stream }
    return answer

/-- A step that ends the stream of that name. -/
def endStream (name : String) (action : HashStream → SessionM ρ κ μ Answer) :
    SessionM ρ κ μ Answer := do
  match (← get).streams[name]? with
  | none => return .unknown name
  | some stream =>
    modify fun session => { session with streams := session.streams.erase name }
    action stream

variable [RegisterBlock ρ] [GatedClock κ] [EngineMutex μ]

/-- Puts a stream under a name, and discards the one that had it. -/
def putStream (name : String) (stream : HashStream) : SessionM ρ κ μ Unit := do
  let former := (← get).streams[name]?
  modify fun session => { session with streams := session.streams.insert name stream }
  match former with
  | none => return
  | some former => onEngine former.discard

/-! ## Steps -/

/-- Carries out one step. -/
def step : Step ρ μ → SessionM ρ κ μ Answer
  | .create name algorithm software => do
    putOperation name (if software then .softwareOnly algorithm else .fresh algorithm)
    return .done
  | .copy source target => do
    match (← get).operations[source]? with
    | none => return .unknown source
    | some operation =>
      putOperation target operation
      return .done
  | .adjust name mode clockDebt holdsMutex => withOperation name fun operation =>
    return (.done, { operation with
      mode := mode.getD operation.mode
      clockDebt := clockDebt.getD operation.clockDebt
      holdsMutex := holdsMutex.getD operation.holdsMutex })
  | .acquire name => withOperation name fun operation => do
    let (outcome, operation) ← onEngine (EngineM.acquire operation)
    return (.path outcome, operation)
  | .release name => withOperation name fun operation => do
    return (.done, ← onEngine (EngineM.release operation))
  | .settle name => withOperation name fun operation => do
    let (repayment, operation) ← onEngine (EngineM.settle operation)
    return (.repayment repayment, operation)
  | .submit name words => withOperation name fun operation => do
    let (outcome, operation) ← onEngine (EngineM.submit operation words)
    return (.outcome outcome, operation)
  | .fetch name out => withOperation name fun operation => do
    let (outcome, out) ← onEngine (EngineM.fetch operation out)
    return (.words outcome out, operation)
  | .awaitIdle => return .outcome (← onEngine EngineM.awaitIdle)
  | .awaitClear address => return .outcome (← onEngine (EngineM.awaitClear address))
  | .start name algorithm software => do
    putStream name (if software then .inSoftware algorithm else .start algorithm)
    return .done
  | .adopt name operation => do
    match (← get).operations[operation]? with
    | none => return .unknown operation
    | some adopted =>
      modify fun session => { session with operations := session.operations.erase operation }
      putStream name (.ofOperation adopted)
      return .done
  | .absorb name bytes partSize => withStream name fun stream => do
    let (outcome, stream) ← onEngine (match partSize with
      | none => stream.absorb bytes
      | some size => stream.absorbAll (pieces size bytes))
    return (.outcome outcome, stream)
  | .finish name => endStream name fun stream =>
    return .digest (← onEngine stream.finish)
  | .cancel name => endStream name fun stream => do
    onEngine stream.cancel
    return .done
  | .discard name => endStream name fun stream => do
    onEngine stream.discard
    return .done
  | .digest algorithm message => return .digest (← onEngine (EngineM.digest algorithm message))
  | .readRegister address => return .word (← onEngine (EngineM.readRegister address))
  | .writeRegister address value => do
    onEngine (EngineM.writeRegister address value)
    return .done
  | .fence => do
    onEngine EngineM.fence
    return .done
  | .enableClock => do
    onEngine EngineM.enableClock
    return .done
  | .disableClock => do
    onEngine EngineM.disableClock
    return .done
  | .isClockEnabled => return .flag (← onEngine EngineM.isClockEnabled)
  | .createMutex => return .creation (← onEngine (EngineM.createMutex 2))
  | .tryMutex timeout => return .lock (← onEngine (EngineM.tryMutex timeout))
  | .unlockMutex => do
    onEngine EngineM.unlockMutex
    return .done
  | .readSettings => return .settings (← get).engine.settings
  | .selfTest capacity => do
    let (failures, console) ← onEngine (SelfTest.run { capacity })
    return .report failures console.text
  | .alterRegisters change => do
    modify fun session =>
      { session with engine.registers := change session.engine.registers }
    return .done
  | .alterMutex change => do
    modify fun session => { session with engine.mutex := change session.engine.mutex }
    return .done

/-- Ends the session: the streams that are left are discarded in the order of their names. -/
def close : SessionM ρ κ μ Unit := do
  for (_, stream) in (← get).streams.toList do
    onEngine (stream.discard)
  modify fun session => { session with streams := ∅ }

/-- The session with an empty past. -/
def forget (session : Session ρ κ μ) : Session ρ κ μ :=
  { session with engine := session.engine.forget }

end Session

end HashAccelerator
