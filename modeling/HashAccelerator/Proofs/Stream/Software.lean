import HashAccelerator.Proofs.Engine.Custody
import HashAccelerator.Proofs.Stream.Ending
import HashAccelerator.Proofs.Stream.Intake
/-!
# Streams in software

A stream in software has all that it needs. Whatever it is asked to do, it does without a call on the
platform and without a line in the log, and it never waits: each of its calls is one answer and nothing
else (`InSoftware`). The chaining value takes every block, because its width is the algorithm's and the
blocks are whole.
-/

namespace HashAccelerator

open EngineM

variable {ρ κ μ : Type} [RegisterBlock ρ] [GatedClock κ] [EngineMutex μ]

namespace EngineM

variable {a : Operation} {chain : Chain}

/-- A whole block is compressed. -/
theorem handOver_of_software {block : List UInt8} (hmode : a.mode = .software)
    (hwidth : chain.isWide = a.algorithm.isWide) (hlength : block.length = a.algorithm.blockSize) :
    ∃ next : Chain, next.isWide = a.algorithm.isWide ∧
      handOver a chain block = (pure (.ok (), a, next) : EngineM ρ κ μ _) := by
  obtain ⟨next, hnext⟩ := Chain.exists_compress hwidth (Nat.le_of_eq hlength.symm)
  refine ⟨next, Chain.isWide_of_compress hnext, ?_⟩
  unfold handOver offer commit place
  rw [if_neg (by simp [hmode])]
  simp only [pure_bind, hmode, hnext]

theorem handOverAll_of_software {blocks : List (List UInt8)} (hmode : a.mode = .software)
    (hwidth : chain.isWide = a.algorithm.isWide)
    (hblocks : ∀ block ∈ blocks, block.length = a.algorithm.blockSize) :
    ∃ next : Chain, handOverAll a chain blocks = (pure (.ok (), a, next) : EngineM ρ κ μ _) := by
  induction blocks generalizing chain with
  | nil => exact ⟨chain, rfl⟩
  | cons block rest ih =>
    obtain ⟨hblock, hrest⟩ := List.forall_mem_cons.1 hblocks
    obtain ⟨next, hnext, hrun⟩ :=
      handOver_of_software (ρ := ρ) (κ := κ) (μ := μ) hmode hwidth hblock
    obtain ⟨last, hlast⟩ := ih hnext hrest
    exact ⟨last, by rw [handOverAll, hrun, pure_bind]; exact hlast⟩

end EngineM

namespace HashStream

variable {s : HashStream}

omit [RegisterBlock ρ] in
/-- Who holds nothing has nothing to let go of. -/
theorem letGo_of_free (hfree : s.operation.isHolding = false) :
    s.letGo = (pure s : EngineM ρ κ μ _) := by
  unfold letGo
  rw [if_neg (by simp [hfree])]

omit [RegisterBlock ρ] in
theorem discard_of_free (hfree : s.operation.isHolding = false) :
    s.discard = (pure () : EngineM ρ κ μ _) := by
  unfold discard
  rw [letGo_of_free hfree, pure_bind]

omit [RegisterBlock ρ] in
theorem cancel_of_free (hfree : s.operation.isHolding = false) :
    s.cancel = (pure () : EngineM ρ κ μ _) := by
  unfold cancel
  rw [letGo_of_free hfree, pure_bind, discard_of_free hfree]

/-- **Bytes are taken in** by the buffer and the chaining value. -/
theorem absorbBytes_of_software (bytes : List UInt8) (hmode : s.operation.mode = .software)
    (hwidth : s.chain.isWide = s.algorithm.isWide) :
    ∃ s', s.absorbBytes bytes = (pure (.ok (), s') : EngineM ρ κ μ _) ∧
      s'.operation = s.operation := by
  induction bytes generalizing s with
  | nil => exact ⟨s, rfl, rfl⟩
  | cons byte rest ih =>
    rw [absorbBytes]
    split
    · obtain ⟨next, hnext, hrun⟩ := handOver_of_software (ρ := ρ) (κ := κ) (μ := μ)
        (a := (s.push byte).operation) hmode hwidth ((s.push byte).length_block none)
      obtain ⟨s', hrest, hsame⟩ := ih (s := { s.push byte with chain := next, waiting := 0 })
        hmode hnext
      refine ⟨s', ?_, hsame⟩
      rw [flush_eq, show (s.push byte).chain = s.chain from rfl, hrun, map_pure, pure_bind]
      exact hrest
    · exact ih hmode hwidth

/-- The digest is at hand. -/
theorem settleUp_of_software (hmode : s.operation.mode = .software)
    (hfree : s.operation.isHolding = false) :
    settleUp (.ok ()) s = (pure (s.chain.digest s.algorithm) : EngineM ρ κ μ _) := by
  unfold settleUp collect
  simp only [hmode, pure_bind, letGo_of_free hfree, discard_of_free hfree]

/-- A stream in software does all that it does without a call on the platform, and without a line in
the log. -/
structure InSoftware (ρ κ μ : Type) [RegisterBlock ρ] [GatedClock κ] [EngineMutex μ]
    (s : HashStream) : Prop where
  mode : s.operation.mode = .software
  absorb : ∀ bytes, ∃ s', s.absorb bytes = (pure (.ok (), s') : EngineM ρ κ μ _) ∧
    s'.operation = s.operation
  finish : ∃ answer, s.finish = (pure answer : EngineM ρ κ μ _)
  cancel : s.cancel = (pure () : EngineM ρ κ μ _)
  discard : s.discard = (pure () : EngineM ρ κ μ _)

/-- **In software nobody is asked for anything.** -/
theorem inSoftware_of_mode (hmode : s.operation.mode = .software)
    (hfree : s.operation.isHolding = false) (hwidth : s.chain.isWide = s.algorithm.isWide)
    (hsound : s.failed = false) (hwaiting : s.waiting < s.algorithm.blockSize) :
    s.InSoftware ρ κ μ where
  mode := hmode
  absorb bytes := by
    unfold absorb
    rw [if_neg (by simp [hsound])]
    exact absorbBytes_of_software bytes hmode hwidth
  finish := by
    obtain ⟨next, hrun⟩ := handOverAll_of_software (ρ := ρ) (κ := κ) (μ := μ) hmode hwidth
      (s.algorithm.length_of_mem_closing (length_tail_lt hwaiting) s.length.toNat)
    refine ⟨next.digest s.algorithm, ?_⟩
    rw [finish_eq hsound hwaiting, conclude, hrun, pure_bind]
    exact settleUp_of_software hmode hfree
  cancel := cancel_of_free hfree
  discard := discard_of_free hfree

end HashStream

end HashAccelerator
