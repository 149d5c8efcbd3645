import HashAccelerator.Platform.Peripheral
/-!
# Registers found by searching

The register at an address can also be looked for: among the text registers first, and then bank by
bank, where the registers of a bank are the four words from its start register on (`textIndex?`,
`bankOffset?`). The text registers end just where the first bank begins, and every bank where the next
one does. Still a search finds what is there and nothing else, so an accelerator that searches reads
and writes like one that has the map inverted (`readSearched_eq`, `writeSearched_eq`), and it never
comes to a command at a place that has none (`Misguided`).
-/

namespace HashAccelerator

/-! ## The searches -/

/-- The text register at an address: the first that has it. -/
def textIndex? (address : UInt32) : Option (Fin 32) :=
  (List.finRange 32).find? fun index => textAddress index.val == address

/-- How far an address is behind another, if it is not before it. -/
def distance? (origin address : UInt32) : Option UInt32 :=
  if origin ≤ address then some (address - origin) else none

/-- Where a bank of four registers has an address, by its distance from the bank's start register. -/
def offsetIn? (unit : UnitIndex) (address : UInt32) : Option UInt32 :=
  (distance? (startAddress (UnitIndex.toWord unit)) address).filter fun offset =>
    offset ≤ busyOffset ∧ offset % 4 = 0

/-- The bank that has an address, and where: the first that has it. -/
def bankOffset? (address : UInt32) : Option (UnitIndex × UInt32) :=
  (List.finRange 4).findSome? fun unit => (offsetIn? unit address).map fun offset => (unit, offset)

/-- The command that is given at an offset, if that is the place of one. -/
def Command.ofOffset? (offset : UInt32) : Option Command :=
  if offset = 0 then some .start
  else if offset = resumeOffset then some .resume
  else if offset = loadOffset then some .load
  else none

namespace Peripheral

/-- A command by its offset. At any other offset it is noted like a command and counted as a stray
write, and keeps nobody busy. -/
def obeyAt (unit : UnitIndex) (offset : UInt32) (p : Peripheral) : Peripheral :=
  match Command.ofOffset? offset with
  | some order => p.obey unit order
  | none => { p with
      unfenced := p.unfenced + (if p.textUnfenced then 1 else 0)
      commandUnfenced := true
      stray := p.stray + 1 }

/-- A read of whatever register a search finds. -/
def readSearched (address : UInt32) (p : Peripheral) : UInt32 × Peripheral :=
  match textIndex? address, bankOffset? address with
  | some index, _ => p.readRegister (.text index)
  | none, some (unit, offset) =>
    if offset = busyOffset then p.readRegister (.busy unit) else (0, p)
  | none, none => (0, p)

/-- A write to whatever register a search finds. -/
def writeSearched (address value : UInt32) (p : Peripheral) : Peripheral :=
  match textIndex? address, bankOffset? address with
  | some index, _ => p.writeRegister (.text index) value
  | none, some (unit, offset) =>
    if offset = busyOffset then p.strayWrite
    else if value = 1 then p.obeyAt unit offset
    else p
  | none, none => p.strayWrite

end Peripheral

/-- A write comes to be a command at an offset that is the place of none. -/
structure Misguided (address value : UInt32) (unit : UnitIndex) (offset : UInt32) : Prop where
  text : textIndex? address = none
  bank : bankOffset? address = some (unit, offset)
  not_busy : offset ≠ busyOffset
  one : value = 1
  unknown : Command.ofOffset? offset = none

/-! ## What they find -/

section Arithmetic

variable {origin address offset : UInt32}

theorem distance?_eq_some_iff :
    distance? origin address = some offset ↔ origin ≤ address ∧ address = origin + offset := by
  unfold distance?
  split
  · next hle =>
    simp only [Option.some.injEq, hle, true_and]
    constructor <;> intro h <;> grind
  · next hlt => simp [hlt]

/-- The words from a bank's start register to its busy register. -/
theorem mem_offsets_iff :
    offset ∈ [0, resumeOffset, loadOffset, busyOffset] ↔ offset ≤ busyOffset ∧ offset % 4 = 0 := by
  simp only [List.mem_cons, List.not_mem_nil, or_false, busyOffset, resumeOffset, loadOffset,
    UInt32.le_iff_toNat_le, ← UInt32.toNat_inj, UInt32.toNat_mod, UInt32.reduceToNat]
  omega

theorem toNat_textAddress (index : Fin 32) :
    (textAddress index.val).toNat = 0x3FF03000 + 4 * index.val := by
  revert index
  decide +kernel

theorem toNat_startAddress (unit : UnitIndex) :
    (startAddress (UnitIndex.toWord unit)).toNat = 0x3FF03080 + 16 * unit.val := by
  revert unit
  decide +kernel

/-- The addresses of a bank follow on its start register without a wrap. -/
theorem toNat_bankAddress (unit : UnitIndex) (h : offset ≤ busyOffset) :
    (startAddress (UnitIndex.toWord unit) + offset).toNat =
      0x3FF03080 + 16 * unit.val + offset.toNat ∧ offset.toNat ≤ 12 := by
  have hle : offset.toNat ≤ 12 := UInt32.le_iff_toNat_le.1 h
  rw [UInt32.toNat_add, toNat_startAddress]
  omega

end Arithmetic

variable {address : UInt32} {index : Fin 32} {unit : UnitIndex} {offset : UInt32}

/-- **The text register that is found** is the one with the address. -/
theorem textIndex?_eq_some_iff :
    textIndex? address = some index ↔ address = textAddress index.val := by
  have hfound : ∀ {index}, textIndex? address = some index → address = textAddress index.val := by
    intro index h
    rw [textIndex?] at h
    have hpassed := List.find?_some h
    exact (beq_iff_eq.1 hpassed).symm
  refine ⟨hfound, fun haddress => ?_⟩
  -- a search for an address that is there finds one, and there is no other
  cases hsearch : textIndex? address with
  | none =>
    refine absurd haddress.symm ?_
    simpa using List.find?_eq_none.1 hsearch index (List.mem_finRange index)
  | some other =>
    have hsame := congrArg UInt32.toNat ((hfound hsearch).symm.trans haddress)
    rw [toNat_textAddress, toNat_textAddress] at hsame
    exact congrArg some (Fin.ext (by omega))

theorem offsetIn?_eq_some_iff : offsetIn? unit address = some offset ↔
    (offset ≤ busyOffset ∧ offset % 4 = 0) ∧ address = startAddress (UnitIndex.toWord unit) + offset := by
  rw [offsetIn?, Option.filter_eq_some_iff, distance?_eq_some_iff, decide_eq_true_iff]
  refine ⟨fun h => ⟨h.2, h.1.2⟩, fun ⟨hoffset, haddress⟩ => ⟨⟨?_, haddress⟩, hoffset⟩⟩
  rw [haddress, UInt32.le_iff_toNat_le, (toNat_bankAddress unit hoffset.1).1, toNat_startAddress]
  omega

/-- **The bank and the offset that are found** are those that make the address. -/
theorem bankOffset?_eq_some_iff : bankOffset? address = some (unit, offset) ↔
    offset ∈ [0, resumeOffset, loadOffset, busyOffset] ∧
      address = startAddress (UnitIndex.toWord unit) + offset := by
  rw [mem_offsets_iff]
  have hfound : ∀ {unit offset}, bankOffset? address = some (unit, offset) →
      (offset ≤ busyOffset ∧ offset % 4 = 0) ∧
        address = startAddress (UnitIndex.toWord unit) + offset := by
    intro unit offset h
    obtain ⟨tried, -, hanswer⟩ := List.exists_of_findSome?_eq_some h
    obtain ⟨there, hthere, heq⟩ := Option.map_eq_some_iff.1 hanswer
    cases heq
    exact offsetIn?_eq_some_iff.1 hthere
  refine ⟨hfound, fun haddress => ?_⟩
  cases hsearch : bankOffset? address with
  | none =>
    have hnot := List.findSome?_eq_none_iff.1 hsearch unit (List.mem_finRange unit)
    rw [offsetIn?_eq_some_iff.2 haddress] at hnot
    cases hnot
  | some other =>
    obtain ⟨unit', offset'⟩ := other
    obtain ⟨hoffset', haddress'⟩ := hfound hsearch
    have hsame := congrArg UInt32.toNat (haddress'.symm.trans haddress.2)
    obtain ⟨hat, hle⟩ := toNat_bankAddress unit haddress.1.1
    obtain ⟨hat', hle'⟩ := toNat_bankAddress unit' hoffset'.1
    rw [hat, hat'] at hsame
    have hunit : unit' = unit := Fin.ext (by omega)
    have hoffset : offset' = offset := UInt32.toNat_inj.1 (by omega)
    rw [hunit, hoffset]

/-- **Not both searches find something**: the text registers end where the banks begin. -/
theorem textIndex?_eq_none_of_bankOffset? (h : bankOffset? address = some (unit, offset)) :
    textIndex? address = none := by
  obtain ⟨hoffset, haddress⟩ := bankOffset?_eq_some_iff.1 h
  refine Option.eq_none_iff_forall_ne_some.2 fun index hindex => ?_
  have hsame := congrArg UInt32.toNat ((textIndex?_eq_some_iff.1 hindex).symm.trans haddress)
  rw [toNat_textAddress, (toNat_bankAddress unit (mem_offsets_iff.1 hoffset).1).1] at hsame
  omega

/-- What is found at an offset that is not that of the busy register is a command's place. -/
theorem exists_order (hoffset : offset ∈ [0, resumeOffset, loadOffset, busyOffset])
    (hbusy : offset ≠ busyOffset) :
    ∃ order : Command, offset = order.offset ∧ Command.ofOffset? offset = some order := by
  simp only [List.mem_cons, List.not_mem_nil, or_false] at hoffset
  rcases hoffset with rfl | rfl | rfl | rfl
  · exact ⟨.start, rfl, rfl⟩
  · exact ⟨.resume, rfl, rfl⟩
  · exact ⟨.load, rfl, rfl⟩
  · exact absurd rfl hbusy

theorem offset_mem (order : Command) :
    order.offset ∈ [0, resumeOffset, loadOffset, busyOffset] ∧ order.offset ≠ busyOffset ∧
      Command.ofOffset? order.offset = some order := by
  cases order <;> decide

/-! ## Both ways to find a register -/

namespace Register

/-- What the searches find of a register's address. -/
theorem searches_address (register : Register) :
    match register with
    | .text index => textIndex? register.address = some index
    | .command unit order => textIndex? register.address = none ∧
        bankOffset? register.address = some (unit, order.offset)
    | .busy unit => textIndex? register.address = none ∧
        bankOffset? register.address = some (unit, busyOffset) := by
  cases register with
  | text index => exact textIndex?_eq_some_iff.2 rfl
  | command unit order =>
    have hbank := bankOffset?_eq_some_iff.2
      ⟨(offset_mem order).1, (rfl : (Register.command unit order).address = _)⟩
    exact ⟨textIndex?_eq_none_of_bankOffset? hbank, hbank⟩
  | busy unit =>
    have hbank := bankOffset?_eq_some_iff.2
      ⟨by decide, (rfl : (Register.busy unit).address = _)⟩
    exact ⟨textIndex?_eq_none_of_bankOffset? hbank, hbank⟩

/-- Where no register is, neither search finds one. -/
theorem searches_of_decode?_eq_none (h : decode? address = none) :
    textIndex? address = none ∧ bankOffset? address = none := by
  have hnone : ∀ register : Register, address ≠ register.address := by
    intro register haddress
    rw [decode?_eq_some_iff.2 haddress] at h
    cases h
  constructor
  · exact Option.eq_none_iff_forall_ne_some.2 fun index hindex =>
      hnone (.text index) (textIndex?_eq_some_iff.1 hindex)
  · refine Option.eq_none_iff_forall_ne_some.2 fun found hfound => ?_
    obtain ⟨unit, offset⟩ := found
    obtain ⟨hoffset, haddress⟩ := bankOffset?_eq_some_iff.1 hfound
    by_cases hbusy : offset = busyOffset
    · subst hbusy
      exact hnone (.busy unit) haddress
    · obtain ⟨order, rfl, -⟩ := exists_order hoffset hbusy
      exact hnone (.command unit order) haddress

end Register

namespace Peripheral

/-- **Reading by search is reading.** -/
theorem readSearched_eq (address : UInt32) (p : Peripheral) :
    p.readSearched address = RegisterBlock.read address p := by
  obtain ⟨register, rfl⟩ | hnone := Register.exists_address_or_none address
  · rw [read_address]
    have hsearches := register.searches_address
    cases register with
    | text index => simp only [readSearched, hsearches]
    | command unit order =>
      simp only [readSearched, hsearches, if_neg (offset_mem order).2.1, readRegister]
    | busy unit => simp only [readSearched, hsearches, if_true]
  · obtain ⟨htext, hbank⟩ := Register.searches_of_decode?_eq_none hnone
    rw [read_of_decode?_eq_none hnone p]
    simp only [readSearched, htext, hbank]

/-- **Writing by search is writing.** -/
theorem writeSearched_eq (address value : UInt32) (p : Peripheral) :
    p.writeSearched address value = RegisterBlock.write address value p := by
  obtain ⟨register, rfl⟩ | hnone := Register.exists_address_or_none address
  · rw [write_address]
    have hsearches := register.searches_address
    cases register with
    | text index => simp only [writeSearched, hsearches]
    | command unit order =>
      obtain ⟨-, hbusy, hknown⟩ := offset_mem order
      simp only [writeSearched, hsearches, if_neg hbusy, obeyAt, hknown, writeRegister]
    | busy unit => simp only [writeSearched, hsearches, if_true, writeRegister]
  · obtain ⟨htext, hbank⟩ := Register.searches_of_decode?_eq_none hnone
    rw [write_of_decode?_eq_none hnone value p]
    simp only [writeSearched, htext, hbank]

/-! ## What an access comes to -/

/-- The address of a text register. -/
def IsTextAddress (address : UInt32) : Prop := ∃ index : Fin 32, address = textAddress index.val

/-- The address of a register that takes commands. -/
def IsCommandAddress (address : UInt32) : Prop :=
  ∃ unit order, address = startAddress (UnitIndex.toWord unit) + Command.offset order

/-- The address of a busy register. -/
def IsBusyAddress (address : UInt32) : Prop := ∃ unit, address = busyAddress (UnitIndex.toWord unit)

/-- A write where there is neither text nor a command is counted and does nothing else. -/
theorem write_elsewhere (value : UInt32) (p : Peripheral)
    (h : ¬ IsTextAddress address ∧ ¬ IsCommandAddress address) :
    RegisterBlock.write address value p = p.strayWrite := by
  obtain ⟨register, rfl⟩ | hnone := Register.exists_address_or_none address
  · rw [write_address]
    cases register with
    | text index => exact absurd ⟨index, rfl⟩ h.1
    | command unit order => exact absurd ⟨unit, order, rfl⟩ h.2
    | busy unit => rfl
  · exact write_of_decode?_eq_none hnone value p

theorem write_busyAddress (value : UInt32) (p : Peripheral) (h : IsBusyAddress address) :
    RegisterBlock.write address value p = p.strayWrite := by
  obtain ⟨unit, rfl⟩ := h
  exact write_address (.busy unit) value p

/-- What is no command's word is not obeyed. -/
theorem write_commandAddress {value : UInt32} (p : Peripheral)
    (h : IsCommandAddress address ∧ value ≠ 1) : RegisterBlock.write address value p = p := by
  obtain ⟨⟨unit, order, rfl⟩, hvalue⟩ := h
  exact (write_address (.command unit order) value p).trans (if_neg hvalue)

/-- A read where there is neither text nor a busy register finds zero. -/
theorem read_elsewhere (p : Peripheral) (h : ¬ IsTextAddress address ∧ ¬ IsBusyAddress address) :
    RegisterBlock.read address p = (0, p) := by
  obtain ⟨register, rfl⟩ | hnone := Register.exists_address_or_none address
  · rw [read_address]
    cases register with
    | text index => exact absurd ⟨index, rfl⟩ h.1
    | command unit order => rfl
    | busy unit => exact absurd ⟨unit, rfl⟩ h.2
  · exact read_of_decode?_eq_none hnone p

/-- **No write comes to a command at a place that has none.** -/
theorem not_misguided (address value : UInt32) (unit : UnitIndex) (offset : UInt32) :
    ¬ Misguided address value unit offset := by
  intro h
  obtain ⟨order, -, hknown⟩ := exists_order (bankOffset?_eq_some_iff.1 h.bank).1 h.not_busy
  rw [h.unknown] at hknown
  cases hknown

/-- **A search finds just what the map has at an address**, a text register or a place in a bank and
never both, so to read and write by search is to read and write, whatever state the accelerator is in.
Of all writes only those to text registers and commands do more than be counted as stray, and a command
does nothing where its word is not one; of all reads only those of text and busy registers find more
than zero; and no write comes to a command at a place that has none. -/
theorem searches_invert_map (address : UInt32) :
    (∀ index, textIndex? address = some index ↔ address = textAddress index.val) ∧
    (∀ unit offset, bankOffset? address = some (unit, offset) ↔
      offset ∈ ([0, 4, 8, 12] : List UInt32) ∧
        address = startAddress (UnitIndex.toWord unit) + offset) ∧
    (textIndex? address = none ∨ bankOffset? address = none) ∧
    ∀ (p : Peripheral) (value : UInt32),
      p.readSearched address = RegisterBlock.read address p ∧
      p.writeSearched address value = RegisterBlock.write address value p ∧
      ((¬ IsTextAddress address ∧ ¬ IsCommandAddress address) ∨ IsBusyAddress address →
        RegisterBlock.write address value p = { p with stray := p.stray + 1 }) ∧
      (IsCommandAddress address ∧ value ≠ 1 → RegisterBlock.write address value p = p) ∧
      (¬ IsTextAddress address ∧ ¬ IsBusyAddress address →
        RegisterBlock.read address p = (0, p)) ∧
      ∀ unit offset, ¬ Misguided address value unit offset := by
  refine ⟨fun index => textIndex?_eq_some_iff, fun unit offset => bankOffset?_eq_some_iff, ?_,
    fun p value => ⟨p.readSearched_eq address, p.writeSearched_eq address value, ?_,
      write_commandAddress p, read_elsewhere p, not_misguided address value⟩⟩
  · cases hbank : bankOffset? address with
    | none => exact Or.inr rfl
    | some found => exact Or.inl (textIndex?_eq_none_of_bankOffset? hbank)
  · rintro (helsewhere | hbusy)
    · exact write_elsewhere value p helsewhere
    · exact write_busyAddress value p hbusy

/-- The last busy register takes no write, behind it there is nothing to write to, and the load
register before it does not take a two and reads zero. -/
theorem accesses_about_last_busy :
    RegisterBlock.write 0x3FF030BC 1 ({} : Peripheral) = { stray := 1 } ∧
      RegisterBlock.write 0x3FF030C0 1 ({} : Peripheral) = { stray := 1 } ∧
      RegisterBlock.write 0x3FF030B8 2 ({} : Peripheral) = {} ∧
      RegisterBlock.read 0x3FF030B8 ({} : Peripheral) = (0, {}) := by
  have htext : ∀ index : Fin 32, (0x3FF030C0 : UInt32) ≠ textAddress index.val ∧
      (0x3FF030B8 : UInt32) ≠ textAddress index.val := by decide
  have hbusy : ∀ unit, (0x3FF030B8 : UInt32) ≠ busyAddress (UnitIndex.toWord unit) := by decide
  have hcommand : ∀ unit order,
      (0x3FF030C0 : UInt32) ≠ startAddress (UnitIndex.toWord unit) + Command.offset order := by
    intro unit order
    revert unit
    cases order <;> decide
  obtain ⟨-, -, -, hlast⟩ := searches_invert_map 0x3FF030BC
  obtain ⟨-, -, -, hbehind⟩ := searches_invert_map 0x3FF030C0
  obtain ⟨-, -, -, hbefore⟩ := searches_invert_map 0x3FF030B8
  obtain ⟨-, -, hstray, -⟩ := hlast {} 1
  obtain ⟨-, -, hstray', -⟩ := hbehind {} 1
  obtain ⟨-, -, -, hkept, hzero, -⟩ := hbefore {} 2
  refine ⟨hstray (Or.inr ⟨3, rfl⟩), hstray' (Or.inl ⟨?_, ?_⟩), hkept ⟨⟨3, .load, rfl⟩, by decide⟩,
    hzero ⟨?_, ?_⟩⟩
  · rintro ⟨index, h⟩
    exact (htext index).1 h
  · rintro ⟨unit, order, h⟩
    exact hcommand unit order h
  · rintro ⟨index, h⟩
    exact (htext index).2 h
  · rintro ⟨unit, h⟩
    exact hbusy unit h

end Peripheral

end HashAccelerator
