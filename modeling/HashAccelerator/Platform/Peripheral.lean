import HashAccelerator.Hash.Chain
import HashAccelerator.Platform.Interface
import HashAccelerator.Register
/-!
# The simulated accelerator

A model of the accelerator behind its registers. It hashes the text registers when a unit is
commanded to, keeps that unit busy for a number of reads, and counts what a driver may do wrong:
commands without a barrier after text writes and text reads without a barrier after a command
(`unfenced`), writes that no register takes (`stray`), and commands out of order (`disorders`).
-/

namespace HashAccelerator

/-- A unit with a hash under way. -/
structure RunningUnit where
  index : UnitIndex
  chain : Chain
  deriving DecidableEq

/-- The state of the simulated accelerator. -/
structure Peripheral where
  /-- The text registers. -/
  text : Vector UInt32 32 := Vector.replicate 32 0
  /-- The unit that was started last. -/
  running : Option RunningUnit := none
  /-- How many reads find a unit busy after a command. -/
  latency : Nat := 0
  /-- How many reads will still find the commanded unit busy. -/
  remaining : Nat := 0
  /-- The unit that was commanded last. -/
  commanded : Option UnitIndex := none
  /-- Every busy register reads set. -/
  held : Bool := false
  /-- A text register was written since the last barrier. -/
  textUnfenced : Bool := false
  /-- A command was given since the last barrier. -/
  commandUnfenced : Bool := false
  /-- Commands and text reads that a barrier should have come before. -/
  unfenced : Nat := 0
  /-- Writes to a busy register or to no register at all. -/
  stray : Nat := 0
  /-- Commands to go on or to load, given to a unit that was not started last. -/
  disorders : Nat := 0
  /-- The highest text register written. -/
  highestText : Option (Fin 32) := none
  /-- Commands to start. -/
  starts : Nat := 0
  /-- Blocks that were hashed. -/
  blocks : Nat := 0
  /-- Commands to load. -/
  loads : Nat := 0
  deriving DecidableEq

namespace Peripheral

/-- The bytes of the text registers. -/
def textBytes (peripheral : Peripheral) : List UInt8 :=
  peripheral.text.toList.flatMap BigEndian.bytes32

/-- The text registers with other words at the front; words beyond the last register are lost. -/
def presetText (words : List UInt32) (peripheral : Peripheral) : Peripheral :=
  { peripheral with text := .ofFn fun i => words[i.val]?.getD peripheral.text[i] }

/-- The accelerator with its busy registers held set, or let go. -/
def holdBusy (held : Bool) (peripheral : Peripheral) : Peripheral := { peripheral with held }

/-! ## Commands -/

/-- A command out of order. -/
def disorder (peripheral : Peripheral) : Peripheral :=
  { peripheral with disorders := peripheral.disorders + 1 }

/-- A unit takes in the text registers, and is the running one from now on. -/
def hashText (unit : RunningUnit) (peripheral : Peripheral) : Peripheral :=
  let counted := { peripheral with blocks := peripheral.blocks + 1 }
  match unit.chain.compress (.ofUnit unit.index) peripheral.textBytes with
  | .ok chain => { counted with running := some { unit with chain } }
  | .error _ => { counted with running := some unit }.disorder

/-- The running unit, if it is the one with this number. -/
def runningAs (index : UnitIndex) (peripheral : Peripheral) : Option RunningUnit :=
  peripheral.running.filter fun unit => unit.index = index

/-- What a command does to the units and the text registers. -/
def perform (index : UnitIndex) (command : Command) (peripheral : Peripheral) : Peripheral :=
  match command with
  | .start =>
    { peripheral with starts := peripheral.starts + 1 }.hashText
      { index, chain := .initial (.ofUnit index) }
  | .resume =>
    match peripheral.runningAs index with
    | some unit => peripheral.hashText unit
    | none => peripheral.disorder
  | .load =>
    let counted := { peripheral with loads := peripheral.loads + 1 }
    match peripheral.runningAs index with
    | some unit => counted.presetText unit.chain.readoutWords
    | none => counted.disorder

/-- A command, with the busy time that follows it. -/
def obey (index : UnitIndex) (command : Command) (peripheral : Peripheral) : Peripheral :=
  let noted := { peripheral with
    unfenced := peripheral.unfenced + (if peripheral.textUnfenced then 1 else 0)
    commandUnfenced := true }
  { noted.perform index command with
    commanded := some index
    remaining := peripheral.latency }

/-! ## Accesses -/

/-- A read of a register. -/
def readRegister (register : Register) (peripheral : Peripheral) : UInt32 × Peripheral :=
  match register with
  | .text index =>
    (peripheral.text[index], { peripheral with
      unfenced := peripheral.unfenced + (if peripheral.commandUnfenced then 1 else 0) })
  | .busy index =>
    if peripheral.held then (1, peripheral)
    else if peripheral.commanded = some index ∧ 0 < peripheral.remaining then
      (1, { peripheral with remaining := peripheral.remaining - 1 })
    else (0, peripheral)
  | .command _ _ => (0, peripheral)

/-- A write that no register takes. -/
def strayWrite (peripheral : Peripheral) : Peripheral :=
  { peripheral with stray := peripheral.stray + 1 }

/-- A write to a register. A command takes effect when one is written to its register. -/
def writeRegister (register : Register) (value : UInt32) (peripheral : Peripheral) : Peripheral :=
  match register with
  | .text index =>
    { peripheral with
      text := peripheral.text.set index value
      textUnfenced := true
      highestText := some (match peripheral.highestText with
        | some highest => if highest ≤ index then index else highest
        | none => index) }
  | .command index command => if value = 1 then peripheral.obey index command else peripheral
  | .busy _ => peripheral.strayWrite

end Peripheral

/-- The simulated accelerator behind its addresses. -/
instance : RegisterBlock Peripheral where
  read address peripheral :=
    match Register.decode? address with
    | some register => peripheral.readRegister register
    | none => (0, peripheral)
  write address value peripheral :=
    match Register.decode? address with
    | some register => peripheral.writeRegister register value
    | none => peripheral.strayWrite
  barrier peripheral := { peripheral with textUnfenced := false, commandUnfenced := false }
  patience peripheral := peripheral.remaining

namespace Peripheral

theorem read_address (register : Register) (peripheral : Peripheral) :
    RegisterBlock.read register.address peripheral = peripheral.readRegister register := by
  simp only [RegisterBlock.read, Register.decode?_address]

theorem write_address (register : Register) (value : UInt32) (peripheral : Peripheral) :
    RegisterBlock.write register.address value peripheral =
      peripheral.writeRegister register value := by
  simp only [RegisterBlock.write, Register.decode?_address]

/-- Where no register is, a read finds zero. -/
theorem read_of_decode?_eq_none {address : UInt32} (h : Register.decode? address = none)
    (peripheral : Peripheral) : RegisterBlock.read address peripheral = (0, peripheral) := by
  simp only [RegisterBlock.read, h]

theorem write_of_decode?_eq_none {address : UInt32} (h : Register.decode? address = none)
    (value : UInt32) (peripheral : Peripheral) :
    RegisterBlock.write address value peripheral = peripheral.strayWrite := by
  simp only [RegisterBlock.write, h]

end Peripheral

end HashAccelerator
