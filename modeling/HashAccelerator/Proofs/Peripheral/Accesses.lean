import HashAccelerator.Platform.Peripheral
import HashAccelerator.Proofs.Hash.Compression
import HashAccelerator.Proofs.Hash.Words
/-!
# What an access does to the simulated accelerator

A driver has the accelerator hash for it, and the accelerator keeps book on the driver: `Conduct` is
the running unit together with the counts of commands out of order and of stray writes. Reads,
barriers and writes to the text registers leave it alone, and a command to start, to go on or to load
changes it in one way only.
-/

namespace HashAccelerator

/-- The hash under way, and what its driver did wrong. -/
structure Conduct where
  running : Option RunningUnit
  disorders : Nat
  stray : Nat

namespace Peripheral

variable {p : Peripheral} {unit : UnitIndex} {chain : Chain}

/-- The conduct that the accelerator has on record. -/
def conduct (p : Peripheral) : Conduct := ⟨p.running, p.disorders, p.stray⟩

/-- **Reading changes neither the hash nor the text.** -/
theorem conduct_read (address : UInt32) (p : Peripheral) :
    (RegisterBlock.read address p).2.conduct = p.conduct ∧
      (RegisterBlock.read address p).2.text = p.text := by
  obtain ⟨register, rfl⟩ | hnone := Register.exists_address_or_none address
  · rw [read_address]
    cases register with
    | text index => exact ⟨rfl, rfl⟩
    | command unit order => exact ⟨rfl, rfl⟩
    | busy unit =>
      simp only [readRegister]
      split
      · exact ⟨rfl, rfl⟩
      · split
        · exact ⟨rfl, rfl⟩
        · exact ⟨rfl, rfl⟩
  · rw [read_of_decode?_eq_none hnone]
    exact ⟨rfl, rfl⟩

/-! ## Text -/

/-- A write to a text register changes that register. -/
theorem write_text {index : Nat} (h : index < 32) (value : UInt32) (p : Peripheral) :
    (RegisterBlock.write (textAddress index) value p).conduct = p.conduct ∧
      (RegisterBlock.write (textAddress index) value p).text = p.text.set index value := by
  have hwrite : RegisterBlock.write (textAddress index) value p =
      p.writeRegister (.text ⟨index, h⟩) value := write_address (.text ⟨index, h⟩) value p
  rw [hwrite]
  exact ⟨rfl, rfl⟩

theorem read_text {index : Nat} (h : index < 32) (p : Peripheral) :
    (RegisterBlock.read (textAddress index) p).1 = p.text[index] :=
  congrArg Prod.fst (read_address (.text ⟨index, h⟩) p)

theorem length_textBytes (p : Peripheral) : p.textBytes.length = 128 := by
  rw [textBytes, BigEndian.length_flatMap_bytes32]
  simp

/-- The text registers after a preset begin with its words. -/
theorem take_presetText {words : List UInt32} {count : Nat} (hcount : count ≤ words.length)
    (hroom : words.length ≤ 32) (p : Peripheral) :
    (p.presetText words).text.toList.take count = words.take count := by
  refine List.ext_getElem ?_ fun i hi hi' => ?_
  · simp
    omega
  · have hword : i < words.length := by
      simp only [List.length_take] at hi'
      omega
    simp [presetText, hword]

/-! ## Commands -/

theorem write_command (unit : UnitIndex) (order : Command) (address : UInt32)
    (haddress : address = (Register.command unit order).address) (p : Peripheral) :
    RegisterBlock.write address 1 p = p.obey unit order := by
  rw [haddress, write_address]
  rfl

theorem write_start (unit : UnitIndex) (p : Peripheral) :
    RegisterBlock.write (RegisterBank.ofUnit (UnitIndex.toWord unit)).start 1 p =
      p.obey unit .start :=
  write_command unit .start _ (by simp [RegisterBank.ofUnit, Register.address, Command.offset]) p

theorem write_resume (unit : UnitIndex) (p : Peripheral) :
    RegisterBlock.write (RegisterBank.ofUnit (UnitIndex.toWord unit)).resume 1 p =
      p.obey unit .resume :=
  write_command unit .resume _ rfl p

theorem write_load (unit : UnitIndex) (p : Peripheral) :
    RegisterBlock.write (RegisterBank.ofUnit (UnitIndex.toWord unit)).load 1 p =
      p.obey unit .load :=
  write_command unit .load _ rfl p

/-- A unit that takes in the text registers goes on with the compressed chaining value. -/
theorem conduct_hashText {next : Chain} (unit : UnitIndex) (p : Peripheral)
    (h : chain.compress (.ofUnit unit) p.textBytes = .ok next) :
    (p.hashText ⟨unit, chain⟩).conduct = { p.conduct with running := some ⟨unit, next⟩ } := by
  simp only [hashText, h]
  rfl

/-- **A start** hashes the text registers from the beginning. -/
theorem conduct_obey_start (unit : UnitIndex) (p : Peripheral) :
    ∃ next, (Chain.initial (.ofUnit unit)).compress (.ofUnit unit) p.textBytes = .ok next ∧
      (p.obey unit .start).conduct = { p.conduct with running := some ⟨unit, next⟩ } := by
  have hlength : (Algorithm.ofUnit unit).blockSize ≤ p.textBytes.length := by
    rw [length_textBytes, Algorithm.blockSize]
    split <;> decide
  obtain ⟨next, hnext⟩ := Chain.exists_compress (Chain.isWide_initial (.ofUnit unit)) hlength
  refine ⟨next, hnext, ?_⟩
  have hhashed := conduct_hashText unit { p with
    unfenced := p.unfenced + (if p.textUnfenced then 1 else 0)
    commandUnfenced := true
    starts := p.starts + 1 } hnext
  exact hhashed

/-- **A command to go on** hashes them after what the running unit has hashed. -/
theorem conduct_obey_resume (h : p.running = some ⟨unit, chain⟩)
    (hwidth : chain.isWide = (Algorithm.ofUnit unit).isWide) :
    ∃ next, chain.compress (.ofUnit unit) p.textBytes = .ok next ∧
      (p.obey unit .resume).conduct = { p.conduct with running := some ⟨unit, next⟩ } := by
  have hlength : (Algorithm.ofUnit unit).blockSize ≤ p.textBytes.length := by
    rw [length_textBytes, Algorithm.blockSize]
    split <;> decide
  obtain ⟨next, hnext⟩ := Chain.exists_compress hwidth hlength
  refine ⟨next, hnext, ?_⟩
  have hhashed := conduct_hashText unit { p with
    unfenced := p.unfenced + (if p.textUnfenced then 1 else 0)
    commandUnfenced := true } hnext
  simp only [obey, perform, runningAs, h, Option.filter_some, decide_true, if_true]
  exact hhashed

/-- **A load** puts the running unit's chaining value into the text registers. -/
theorem conduct_obey_load (h : p.running = some ⟨unit, chain⟩) :
    (p.obey unit .load).conduct = p.conduct ∧
      (p.obey unit .load).text = (p.presetText chain.readoutWords).text := by
  simp only [obey, perform, runningAs, h, Option.filter_some, decide_true, if_true]
  exact ⟨by simp only [conduct, presetText, h], rfl⟩

end Peripheral

end HashAccelerator
