import HashAccelerator.Algorithm
/-!
# The register map

The accelerator is driven through 32-bit registers: thirty-two text registers, which carry a block
in and a digest out, and one bank of four registers for each unit. Addresses are computed in 32-bit
arithmetic, which wraps. `Register.decode?` is the map read backwards, and the two directions agree
(`Register.decode?_eq_some_iff`).
-/

namespace HashAccelerator

/-! ## Addresses -/

/-- Where the accelerator's registers begin. -/
def registerBase : UInt32 := 0x3FF03000

/-- The first text register. -/
def textBase : UInt32 := registerBase

/-- The number of text registers. -/
def textCapacity : Nat := 32

/-- The number of units, and so of register banks. -/
def unitCount : Nat := 4

/-- The start register of the first bank. -/
def bankBase : UInt32 := registerBase + 0x80

/-- Distance from a bank's start register to its continue register. -/
def resumeOffset : UInt32 := 0x04

/-- Distance from a bank's start register to its load register. -/
def loadOffset : UInt32 := 0x08

/-- Distance from a bank's start register to its busy register. -/
def busyOffset : UInt32 := 0x0C

/-- The address of a text register. -/
def textAddress (index : Nat) : UInt32 := textBase + UInt32.ofNat index * 4

/-- The address of a bank's start register; banks are sixteen bytes apart. -/
def startAddress (unit : UInt32) : UInt32 := bankBase + (unit <<< 4)

/-- The address of a bank's busy register. -/
def busyAddress (unit : UInt32) : UInt32 := startAddress unit + busyOffset

/-- The addresses of the four registers that drive one unit. -/
structure RegisterBank where
  /-- Begins a hash with the block in the text registers. -/
  start : UInt32
  /-- Goes on with the next block. -/
  resume : UInt32
  /-- Puts the chaining value into the text registers. -/
  load : UInt32
  /-- Reads nonzero while the unit works. -/
  busy : UInt32
  deriving DecidableEq

/-- The bank of the unit with the given number. -/
def RegisterBank.ofUnit (unit : UInt32) : RegisterBank where
  start := startAddress unit
  resume := startAddress unit + resumeOffset
  load := startAddress unit + loadOffset
  busy := startAddress unit + busyOffset

/-- A unit's number as a 32-bit word. -/
def UnitIndex.toWord (unit : UnitIndex) : UInt32 := UInt32.ofNat unit.val

/-- The registers that drive an algorithm's unit, if it has one. -/
def Algorithm.bank? (algorithm : Algorithm) : Option RegisterBank :=
  algorithm.unit?.map fun unit => .ofUnit (UnitIndex.toWord unit)

/-- The busy registers of all units, in the order in which they are polled. -/
def busyAddresses : List UInt32 :=
  (List.range unitCount).map fun unit => busyAddress (UInt32.ofNat unit)

/-! ## Registers -/

/-- What a bank's writable registers ask the unit to do. -/
inductive Command where
  | start
  | resume
  | load
  deriving DecidableEq

/-- Distance from a bank's start register to a command's register. -/
def Command.offset : Command → UInt32
  | .start => 0
  | .resume => resumeOffset
  | .load => loadOffset

/-- A register of the accelerator. -/
inductive Register where
  | text (index : Fin 32)
  | command (unit : UnitIndex) (order : Command)
  | busy (unit : UnitIndex)
  deriving DecidableEq

namespace Register

/-- Where a register is found. -/
def address : Register → UInt32
  | .text index => textAddress index.val
  | .command unit order => startAddress (UnitIndex.toWord unit) + order.offset
  | .busy unit => busyAddress (UnitIndex.toWord unit)

/-- The register that is `index` words above the base: first the text registers, then the banks. -/
def ofIndex? (index : Nat) : Option Register :=
  if hText : index < 32 then some (.text ⟨index, hText⟩)
  else if hBank : index < 48 then
    let unit : UnitIndex := ⟨(index - 32) / 4, by omega⟩
    match index % 4 with
    | 0 => some (.command unit .start)
    | 1 => some (.command unit .resume)
    | 2 => some (.command unit .load)
    | _ => some (.busy unit)
  else none

/-- The register at an address, if there is one. -/
def decode? (address : UInt32) : Option Register :=
  let offset := (address - registerBase).toNat
  if offset % 4 = 0 then ofIndex? (offset / 4) else none

/-- Every register is found at its own address. -/
theorem decode?_address (register : Register) : decode? register.address = some register := by
  cases register with
  | text index => revert index; decide +kernel
  | command unit order => revert unit; cases order <;> decide +kernel
  | busy unit => revert unit; decide +kernel

/-- What is found some words above the base has its address there. -/
theorem address_of_ofIndex? {index : Nat} {register : Register}
    (found : ofIndex? index = some register) :
    register.address = registerBase + UInt32.ofNat (4 * index) := by
  have bound : index < 48 := by
    refine Nat.lt_of_not_le fun beyond => ?_
    simp [ofIndex?, show ¬ index < 32 by omega, show ¬ index < 48 by omega] at found
  have all : ∀ index : Fin 48, ∀ register ∈ ofIndex? index.val,
      register.address = registerBase + UInt32.ofNat (4 * index.val) := by decide +kernel
  exact all ⟨index, bound⟩ register found

/-- **The map reads the same in both directions.** An address decodes to a register exactly when
it is that register's address. -/
theorem decode?_eq_some_iff {address : UInt32} {register : Register} :
    decode? address = some register ↔ address = register.address := by
  refine ⟨fun found => ?_, fun here => here ▸ decode?_address register⟩
  simp only [decode?] at found
  split at found
  · rename_i aligned
    have offset : 4 * ((address - registerBase).toNat / 4) = (address - registerBase).toNat := by
      omega
    rw [address_of_ofIndex? found, offset, UInt32.ofNat_toNat]
    grind
  · cases found

/-- An address is some register's, or the map has nothing there. -/
theorem exists_address_or_none (address : UInt32) :
    (∃ register : Register, address = register.address) ∨ decode? address = none := by
  cases hdecode : decode? address with
  | none => exact Or.inr rfl
  | some register => exact Or.inl ⟨register, decode?_eq_some_iff.1 hdecode⟩

end Register

/-- What is polled before anything else are busy registers. -/
theorem exists_of_mem_busyAddresses {address : UInt32} (h : address ∈ busyAddresses) :
    ∃ unit, address = (Register.busy unit).address := by
  obtain ⟨index, hindex, rfl⟩ := List.mem_map.1 h
  exact ⟨⟨index, List.mem_range.1 hindex⟩, rfl⟩

end HashAccelerator
