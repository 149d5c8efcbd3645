import HashAccelerator.Proofs.Engine.Answers
import HashAccelerator.Proofs.Peripheral.Accesses
/-!
# The register protocol on the simulated accelerator

An operation on the engine stands at a chaining value: the one that its hash begins with before its
first block, and the running unit's from then on (`Operation.StandsAt`). A submission that succeeds
moves it on by its block, whatever the text registers held before and however many words were
written behind the block; a readout that succeeds delivers it, and leaves it where it was. A call
that fails on the way changes nothing of this, so neither does a wait that was given up while a
command was still being obeyed.
-/

namespace HashAccelerator

open EngineM

variable {κ μ : Type} {e : Engine Peripheral κ μ} {a : Operation} {chain : Chain}

/-- The bytes of the block at the front of some words. -/
def Algorithm.blockBytes (algorithm : Algorithm) (words : List UInt32) : List UInt8 :=
  (words.take algorithm.blockWords).flatMap BigEndian.bytes32

/-- The operation is on the engine, with this chaining value after the blocks so far. -/
def Operation.StandsAt (a : Operation) (chain : Chain) (p : Peripheral) : Prop :=
  a.mode = .hardware true ∧ chain = .initial a.algorithm ∨
    a.mode = .hardware false ∧ ∃ unit, a.algorithm.unit? = some unit ∧
      p.running = some ⟨unit, chain⟩

namespace EngineM

/-! ## Waits and text -/

/-- What is read stays. -/
theorem keptByReads_conduct (conduct : Conduct) (text : Vector UInt32 32) :
    KeptByReads fun e : Engine Peripheral κ μ =>
      e.registers.conduct = conduct ∧ e.registers.text = text where
  note h := h
  read {e a} h := by
    obtain ⟨hconduct, htext⟩ := Peripheral.conduct_read a e.registers
    exact ⟨hconduct.trans h.1, htext.trans h.2⟩

/-- **Written words stand at the front of the text registers**, behind those before them. -/
theorem always_writeText (index : Nat) (words : List UInt32) (hroom : index + words.length ≤ 32) :
    Always (writeText index words) e fun _ e' =>
      e'.registers.conduct = e.registers.conduct ∧
        e'.registers.text.toList.take (index + words.length) =
          e.registers.text.toList.take index ++ words := by
  induction words generalizing index e with
  | nil => simp [writeText]
  | cons word rest ih =>
    simp only [List.length_cons] at hroom
    have hindex : index < 32 := by omega
    obtain ⟨hconduct, htext⟩ := Peripheral.write_text hindex word e.registers
    simp only [writeText, always_bind, always_writeRegister]
    refine (ih (index + 1) (by omega)).mono fun _ e' he' => ⟨he'.1.trans hconduct, ?_⟩
    rw [List.length_cons, show index + (rest.length + 1) = index + 1 + rest.length by omega, he'.2,
      htext, Vector.toList_set, List.take_add_one, List.take_set_of_le (Nat.le_refl index)]
    simp [hindex]

/-- **Read words are those of the text registers**, in order. -/
theorem always_readText (index count : Nat) (hroom : index + count ≤ 32) :
    Always (readText index count) e fun words e' =>
      e'.registers.conduct = e.registers.conduct ∧
        words = (e.registers.text.toList.drop index).take count := by
  induction count generalizing index e with
  | zero => simp [readText]
  | succ count ih =>
    have hindex : index < 32 := by omega
    simp only [readText, always_bind, always_readRegister, always_pure]
    obtain ⟨hconduct, htext⟩ := Peripheral.conduct_read (textAddress index) e.registers
    refine (ih (index + 1) (by omega)).mono fun words e' he' => ⟨he'.1.trans hconduct, ?_⟩
    have hfront : e.registers.text.toList.drop index =
        e.registers.text[index] :: e.registers.text.toList.drop (index + 1) := by
      rw [List.drop_eq_getElem_cons (by simpa using hindex)]
      simp
    rw [he'.2, htext, Peripheral.read_text hindex, hfront, List.take_succ_cons]

/-! ## Submissions -/

/-- The words that fit the text registers begin with the block. -/
theorem always_fitBlock_front (algorithm : Algorithm) (words : List UInt32) :
    Always (fitBlock algorithm words) e fun fitted e' => e'.registers = e.registers ∧
      ∀ front, fitted = .ok front → front.length ≤ 32 ∧ algorithm.blockWords ≤ front.length ∧
        front.take algorithm.blockWords = words.take algorithm.blockWords := by
  have hwords := algorithm.blockWords_le
  refine Always.ite (fun hlong => ?_) fun hfits => Always.ite (fun _ => by simp) fun hlength => ?_
  · simp only [textCapacity] at hlong ⊢
    simp only [always_bind, always_note, always_pure, true_and]
    rintro front ⟨⟩
    refine ⟨by rw [List.length_take]; omega, by rw [List.length_take]; omega, ?_⟩
    rw [List.take_take, Nat.min_eq_left hwords]
  · simp only [textCapacity] at hfits
    simp only [always_pure, true_and]
    rintro front ⟨⟩
    exact ⟨by omega, by omega, rfl⟩

/-- The text registers with a block at their front hash like the block. -/
theorem take_textBytes {p : Peripheral} {algorithm : Algorithm} {front words : List UInt32}
    (hlength : algorithm.blockWords ≤ front.length)
    (hfront : front.take algorithm.blockWords = words.take algorithm.blockWords)
    (htext : p.text.toList.take front.length = front) :
    p.textBytes.take algorithm.blockSize = (algorithm.blockBytes words).take algorithm.blockSize := by
  have hblock : p.text.toList.take algorithm.blockWords = words.take algorithm.blockWords := by
    have htake := congrArg (List.take algorithm.blockWords) htext
    rw [List.take_take, Nat.min_eq_left hlength] at htake
    exact htake.trans hfront
  rw [Peripheral.textBytes, Algorithm.blockBytes, Algorithm.blockSize_eq,
    BigEndian.take_flatMap_bytes32, BigEndian.take_flatMap_bytes32, hblock, List.take_take,
    Nat.min_self]

/-- **A command hashes the block** at the front of the text registers. -/
theorem always_command {first : Bool} {words : List UInt32}
    (htext : e.registers.textBytes.take a.algorithm.blockSize =
      (a.algorithm.blockBytes words).take a.algorithm.blockSize)
    (hmode : a.mode = .hardware first) (h : a.StandsAt chain e.registers)
    (hwidth : chain.isWide = a.algorithm.isWide) :
    Always (command a first) e fun r e' =>
      match r.1 with
      | .ok () => ∃ unit next, a.algorithm.unit? = some unit ∧
          chain.compress a.algorithm (a.algorithm.blockBytes words) = .ok next ∧
          e'.registers.conduct = { e.registers.conduct with running := some ⟨unit, next⟩ }
      | .error _ => e'.registers.conduct = e.registers.conduct := by
  simp only [command, Algorithm.bank?]
  cases hunit : a.algorithm.unit? with
  | none => simp
  | some unit =>
    have halgorithm : a.algorithm = .ofUnit unit := Algorithm.unit?_eq_some_iff.1 hunit
    simp only [Option.map_some, always_bind, always_writeRegister, always_fence, always_note,
      always_pure]
    rcases h with ⟨hfirst, hchain⟩ | ⟨hfirst, unit', hunit', hrunning⟩
    · -- the first block starts the unit at its initial value
      obtain rfl : first = true := by simpa [hmode] using hfirst
      obtain ⟨next, hnext, hconduct⟩ := Peripheral.conduct_obey_start unit e.registers
      refine ⟨unit, next, rfl, ?_, ?_⟩
      · rw [hchain, ← Chain.compress_congr htext, halgorithm]
        exact hnext
      · rw [if_pos rfl, Peripheral.write_start]
        exact hconduct
    · -- and every further one resumes it, which only its own unit may do
      obtain rfl : first = false := by simpa [hmode] using hfirst
      obtain rfl : unit' = unit := by simpa [hunit'] using hunit
      rw [halgorithm] at hwidth
      obtain ⟨next, hnext, hconduct⟩ := Peripheral.conduct_obey_resume hrunning hwidth
      refine ⟨unit', next, rfl, ?_, ?_⟩
      · rw [← Chain.compress_congr htext, halgorithm]
        exact hnext
      · rw [if_neg (by simp), Peripheral.write_resume]
        exact hconduct

/-- **A submission moves the chaining value on by its block**, or fails and leaves it. -/
theorem always_submit (words : List UInt32) (h : a.StandsAt chain e.registers)
    (hwidth : chain.isWide = a.algorithm.isWide) :
    Always (submit a words) e fun r e' =>
      match r.1 with
      | .ok () => ∃ unit next, a.algorithm.unit? = some unit ∧
          chain.compress a.algorithm (a.algorithm.blockBytes words) = .ok next ∧
          e'.registers.conduct = { e.registers.conduct with running := some ⟨unit, next⟩ }
      | .error _ => e'.registers.conduct = e.registers.conduct := by
  obtain ⟨first, hmode⟩ : ∃ first, a.mode = .hardware first := by
    rcases h with h | h
    · exact ⟨true, h.1⟩
    · exact ⟨false, h.1⟩
  simp only [submit, always_bind, always_note, hmode]
  refine (always_fitBlock_front a.algorithm words).mono fun fitted e₁ he₁ => ?_
  obtain ⟨hregisters, hfitted⟩ := he₁
  cases fitted with
  | error fault => simp [hregisters]
  | ok front =>
    obtain ⟨hlong, hshort, hfront⟩ := hfitted front rfl
    -- neither the wait nor the writes of the text change anything that a command relies on
    refine always_bind.2 (((keptByReads_conduct e.registers.conduct e₁.registers.text).awaitIdle
      ⟨by rw [hregisters], rfl⟩).mono fun outcome e₂ he₂ => ?_)
    cases outcome with
    | error fault => simpa using he₂.1
    | ok =>
      refine always_bind.2 ((always_writeText 0 front (by omega)).mono fun _ e₃ he₃ => ?_)
      simp only [Nat.zero_add, List.take_zero, List.nil_append] at he₃
      have hconduct : e₃.registers.conduct = e.registers.conduct := he₃.1.trans he₂.1
      simp only [always_bind, always_fence]
      have hrunning : e₃.registers.running = e.registers.running := congrArg Conduct.running hconduct
      have htext : (RegisterBlock.barrier e₃.registers).textBytes.take a.algorithm.blockSize =
          (a.algorithm.blockBytes words).take a.algorithm.blockSize :=
        take_textBytes hshort hfront he₃.2
      refine (always_command (by exact htext) hmode ?_ hwidth).mono fun r e' he' => ?_
      · rcases h with h | ⟨hfirst, unit, hunit, hrun⟩
        · exact Or.inl h
        · exact Or.inr ⟨hfirst, unit, hunit, hrunning.trans hrun⟩
      · have hfenced : Peripheral.conduct (RegisterBlock.barrier e₃.registers) =
            e.registers.conduct := hconduct
        simpa only [hfenced] using he'

/-! ## Readouts -/

variable {unit : UnitIndex}

/-- A load that is waited for puts the running unit's chaining value into the text registers. One
whose wait is given up may have done so too, and has done nothing else. -/
theorem always_loadDigest (hrunning : e.registers.running = some ⟨unit, chain⟩) :
    Always (loadDigest (.ofUnit (UnitIndex.toWord unit))) e fun outcome e' =>
      e'.registers.conduct = e.registers.conduct ∧
        (outcome = .ok () → ∀ count ≤ chain.readoutWords.length,
          e'.registers.text.toList.take count = chain.readoutWords.take count) := by
  have hroom : chain.readoutWords.length ≤ 32 := by
    cases chain <;> simp [Chain.readoutWords, List.length_flatMap, List.map_const']
  simp only [loadDigest, always_bind]
  refine ((keptByReads_conduct e.registers.conduct e.registers.text).awaitIdle ⟨rfl, rfl⟩).mono
    fun outcome e₁ he₁ => ?_
  cases outcome with
  | error fault => simpa using he₁.1
  | ok =>
    have hrunning₁ : e₁.registers.running = some ⟨unit, chain⟩ :=
      (congrArg Conduct.running he₁.1).trans hrunning
    -- the text is there from the command on, and no read of a wait changes it
    obtain ⟨hconduct, htext⟩ := Peripheral.conduct_obey_load hrunning₁
    simp only [always_bind, always_writeRegister, always_fence, Peripheral.write_load]
    have hkept := keptByReads_conduct (κ := κ) (μ := μ) e.registers.conduct
      (e₁.registers.presetText chain.readoutWords).text
    refine (hkept.awaitClear _ ⟨hconduct.trans he₁.1, htext⟩).mono fun outcome e₂ he₂ => ?_
    cases outcome with
    | error fault => simpa using he₂.1
    | ok =>
      refine always_bind.2 ((hkept.awaitIdle he₂).mono fun outcome e₃ he₃ => ?_)
      cases outcome with
      | error fault => simpa using he₃.1
      | ok =>
        simp only [always_bind, always_fence, always_pure]
        refine ⟨he₃.1, fun _ count hcount => ?_⟩
        have hpreset := Peripheral.take_presetText hcount hroom e₁.registers
        rw [← he₃.2] at hpreset
        exact hpreset

/-- **A readout delivers the words of the digest** in front of the caller's, and the hash goes on
from where it was. A readout that fails delivers nothing. -/
theorem always_fetch (out : List UInt32) (hmode : a.mode = .hardware false)
    (hunit : a.algorithm.unit? = some unit) (hrunning : e.registers.running = some ⟨unit, chain⟩)
    (hwidth : chain.isWide = a.algorithm.isWide) :
    Always (fetch a out) e fun r e' => e'.registers.conduct = e.registers.conduct ∧
      match r.1 with
      | .ok () => r.2 = chain.digestOrder.take a.algorithm.digestWords ++
          out.drop a.algorithm.digestWords
      | .error _ => r.2 = out := by
  have hwords : a.algorithm.digestWords ≤ chain.readoutWords.length := by
    cases chain <;> cases halgorithm : a.algorithm <;>
      simp_all [Chain.isWide, Algorithm.isWide, Chain.readoutWords, List.length_flatMap,
        List.map_const', Algorithm.digestWords, Algorithm.digestSize]
  have hroom := a.algorithm.digestWords_le
  simp only [fetch, always_bind, always_note, hmode, Algorithm.bank?, hunit, Option.map_some]
  refine Always.ite (fun _ => by simp) fun _ => ?_
  refine always_bind.2 ((always_loadDigest (by exact hrunning)).mono fun outcome e₁ he₁ => ?_)
  cases outcome with
  | error fault => simpa using he₁.1
  | ok =>
    have htext := he₁.2 rfl a.algorithm.digestWords hwords
    simp only [digestFromText, bind_assoc, always_bind, pure_bind, always_note, always_pure]
    refine (always_readText 0 a.algorithm.digestWords (by omega)).mono fun words e₂ he₂ => ?_
    refine ⟨he₂.1.trans he₁.1, ?_⟩
    rw [he₂.2, List.drop_zero, htext, ← Chain.exchange_readoutWords hwidth]

end EngineM

end HashAccelerator
