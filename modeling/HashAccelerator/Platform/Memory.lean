import HashAccelerator.Platform.Interface
import HashAccelerator.Register
/-!
# Plain memory in place of the registers

The register block as memory: what is written is read back, and nothing reacts to commands.
-/

namespace HashAccelerator

/-- Sixty-four words of memory from the base of the registers on. -/
structure MappedMemory where
  words : Vector UInt32 64 := Vector.replicate 64 0

namespace MappedMemory

/-- Memory that begins with the given words and is zero after them. -/
def ofWords (words : List UInt32) : MappedMemory where
  words := .ofFn fun i => words[i.val]?.getD 0

/-- The place of the word at an address. -/
def index (address : UInt32) : Nat := ((address - registerBase) / 4).toNat

/-- The words that are not zero, with their places. -/
def nonzero (memory : MappedMemory) : List (Nat × UInt32) :=
  (memory.words.toList.zipIdx.filter fun (word, _) => word != 0).map fun (word, i) => (i, word)

end MappedMemory

/-- Memory that stays busy if it is busy once. -/
instance : RegisterBlock MappedMemory where
  read address memory := (memory.words[MappedMemory.index address]?.getD 0, memory)
  write address value memory :=
    { words := memory.words.setIfInBounds (MappedMemory.index address) value }
  barrier memory := memory
  patience _ := 0

end HashAccelerator
