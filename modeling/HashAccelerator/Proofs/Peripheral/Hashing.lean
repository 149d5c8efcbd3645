import HashAccelerator.Proofs.Hash.Padding
import HashAccelerator.Proofs.Peripheral.Protocol
import HashAccelerator.Proofs.Stream.Intake
/-!
# Streams on the simulated accelerator

On either path a stream stands at the chaining value of its blocks: in software it has that value
itself, and on the engine the running unit has it (`Hashed`). The account is carried on by what a
stream does, so a stream that ends well answers the standard's digest of its message
(`digest_of_finish`).
-/

namespace HashAccelerator

open EngineM

variable {κ μ : Type} {e : Engine Peripheral κ μ}

/-- Where the chaining value of the blocks so far is found. -/
def Hashed (a : Operation) (chain : Chain) (blocks : List (List UInt8))
    (e : Engine Peripheral κ μ) : Prop :=
  match a.mode with
  | .uncommitted => blocks = [] ∧ chain = .initial a.algorithm
  | .hardware first => (first = true → blocks = []) ∧
      ∃ value, a.algorithm.chainOf blocks = .ok value ∧ a.StandsAt value e.registers
  | .software => a.algorithm.chainOf blocks = .ok chain
  | .unsettled => False

section Modes

variable {a : Operation} {chain : Chain} {blocks : List (List UInt8)}

theorem hashed_uncommitted (hmode : a.mode = .uncommitted) :
    Hashed a chain blocks e ↔ blocks = [] ∧ chain = .initial a.algorithm := by
  simp only [Hashed, hmode]

theorem hashed_software (hmode : a.mode = .software) :
    Hashed a chain blocks e ↔ a.algorithm.chainOf blocks = .ok chain := by
  simp only [Hashed, hmode]

theorem hashed_hardware {first : Bool} (hmode : a.mode = .hardware first) :
    Hashed a chain blocks e ↔ (first = true → blocks = []) ∧
      ∃ value, a.algorithm.chainOf blocks = .ok value ∧ a.StandsAt value e.registers := by
  simp only [Hashed, hmode]

/-- Of the engine only the running unit counts, and only for who is on the engine. -/
theorem Hashed.of_running {e' : Engine Peripheral κ μ} (h : Hashed a chain blocks e)
    (hrunning : a.isOnEngine = true → e'.registers.running = e.registers.running) :
    Hashed a chain blocks e' := by
  cases hmode : a.mode with
  | uncommitted => exact (hashed_uncommitted hmode).2 ((hashed_uncommitted hmode).1 h)
  | software => exact (hashed_software hmode).2 ((hashed_software hmode).1 h)
  | unsettled => simp [Hashed, hmode] at h
  | hardware first =>
    obtain ⟨hfirst, value, hvalue, hstands⟩ := (hashed_hardware hmode).1 h
    have hsame := hrunning (by simp [Operation.isOnEngine, hmode])
    refine (hashed_hardware hmode).2 ⟨hfirst, value, hvalue, ?_⟩
    rcases hstands with hstands | ⟨hon, unit, hunit, hrun⟩
    · exact Or.inl hstands
    · exact Or.inr ⟨hon, unit, hunit, hsame.trans hrun⟩

end Modes

variable [GatedClock κ] [EngineMutex μ]

/-- **The account of the chaining value is carried on.** -/
theorem intake_hashed : Intake (Hashed (κ := κ) (μ := μ)) fun _ _ _ => True where
  note h := h
  settled h hmode := by simp [Hashed, hmode] at h
  acquire {a chain blocks e} h hmode := by
    obtain ⟨rfl, rfl⟩ := (hashed_uncommitted hmode).1 h
    refine (acquired_acquire a).mono fun r e' he => ?_
    obtain ⟨path, -, hcompeted⟩ := he.of_uncommitted hmode
    revert hcompeted
    generalize r.2 = a'
    -- on either path nothing has been hashed yet
    rintro (_ | _)
    · exact ⟨fun _ => rfl, _, Algorithm.chainOf_nil _, Or.inl ⟨rfl, rfl⟩⟩
    · exact Algorithm.chainOf_nil _
  submit {a chain blocks e words} h hon hlength := by
    obtain ⟨first, hmode⟩ := Operation.exists_hardware hon
    obtain ⟨-, value, hvalue, hstands⟩ := (hashed_hardware hmode).1 h
    have hblock : a.algorithm.blockBytes words = words.flatMap BigEndian.bytes32 := by
      rw [Algorithm.blockBytes, List.take_of_length_le (Nat.le_of_eq hlength)]
    refine ((submitted_submit a words rfl).and
      (always_submit words hstands (Algorithm.isWide_of_chainOf hvalue))).mono fun r e' he => ?_
    obtain ⟨outcome, a'⟩ := r
    obtain ⟨hsubmitted, hconduct⟩ := he
    cases outcome with
    | error fault => trivial
    | ok =>
      obtain ⟨unit, next, hunit, hnext, hconduct⟩ := hconduct
      rw [hblock] at hnext
      cases hsubmitted with
      | taken _ _ =>
        refine ⟨(fun h => by cases h), next, (Algorithm.chainOf_concat hvalue).trans hnext, Or.inr ?_⟩
        exact ⟨rfl, unit, hunit, congrArg Conduct.running hconduct⟩
  compress {a chain blocks e block} h hmode hlength := by
    have hchain := (hashed_software hmode).1 h
    obtain ⟨next, hnext⟩ := Chain.exists_compress (Algorithm.isWide_of_chainOf hchain)
      (Nat.le_of_eq hlength.symm)
    exact ⟨next, hnext, (hashed_software hmode).2 ((Algorithm.chainOf_concat hchain).trans hnext)⟩

/-- The digest cut from the words of a readout is that of the chaining value. -/
theorem cutDigest_readout {chain : Chain} {algorithm : Algorithm} (rest : List UInt32)
    (hwidth : chain.isWide = algorithm.isWide) :
    cutDigest ((chain.digestOrder.take algorithm.digestWords ++ rest).flatMap BigEndian.bytes32)
      algorithm.digestSize = chain.digest algorithm := by
  have hsize : algorithm.digestSize = 4 * algorithm.digestWords := by cases algorithm <;> rfl
  have hbytes : 4 ∣ chain.bytes.length := by
    rw [Chain.length_bytes]
    split <;> decide
  have hfront : (chain.digestOrder.take algorithm.digestWords).flatMap BigEndian.bytes32 =
      chain.bytes.take algorithm.digestSize := by
    rw [hsize, ← BigEndian.take_flatMap_bytes32, Chain.digestOrder,
      BigEndian.flatMap_bytes32_words32 hbytes]
  have hlength : (chain.bytes.take algorithm.digestSize).length = algorithm.digestSize := by
    rw [List.length_take, Nat.min_eq_left (Chain.digestSize_le hwidth)]
  rw [Chain.digest_eq hwidth, List.flatMap_append, hfront,
    cutDigest_of_le (by rw [List.length_append, hlength]; omega), List.take_left' hlength]

omit [GatedClock κ] [EngineMutex μ] in
/-- **What a path has hashed is what it delivers**, once it has hashed a block. -/
theorem digest_of_collect {s : HashStream} {blocks : List (List UInt8)} (hne : blocks ≠ [])
    (h : Hashed s.operation s.chain blocks e) :
    Always s.collect e fun outcome _ => ∀ d, outcome = .ok d →
      ∃ chain, s.algorithm.chainOf blocks = .ok chain ∧ chain.digest s.algorithm = .ok d := by
  unfold HashStream.collect
  cases hmode : s.operation.mode with
  | uncommitted => exact absurd ((hashed_uncommitted hmode).1 h).1 hne
  | unsettled => simp [Hashed, hmode] at h
  | software =>
    simp only [always_pure]
    intro d hd
    exact ⟨s.chain, (hashed_software hmode).1 h, hd⟩
  | hardware first =>
    obtain ⟨hfirst, value, hvalue, hstands⟩ := (hashed_hardware hmode).1 h
    have hwidth := Algorithm.isWide_of_chainOf hvalue
    rcases hstands with ⟨hbefore, -⟩ | ⟨hafter, unit, hunit, hrunning⟩
    · -- before the first block nothing has been hashed
      rw [hmode, Mode.hardware.injEq] at hbefore
      exact absurd (hfirst hbefore) hne
    · simp only [always_bind, always_pure]
      refine (always_fetch _ hafter hunit hrunning hwidth).mono fun r e' he d hd => ?_
      obtain ⟨outcome, words⟩ := r
      cases outcome with
      | error fault => cases hd
      | ok =>
        obtain ⟨-, rfl⟩ := he
        exact ⟨value, hvalue, (cutDigest_readout _ hwidth).symm.trans hd⟩

/-- **A stream that ends well answers the digest of its message.** -/
theorem digest_of_finish {s : HashStream} {message : List UInt8} (h : s.Fed Hashed message e) :
    Always s.finish e fun outcome _ => ∀ d, outcome = .ok d →
      s.algorithm.digest message = .ok d := by
  refine intake_hashed.finish h (fun hd _ _ _ => hd) (fun t e' halgorithm hpath => ?_)
    fun _ _ _ _ _ h => by cases h
  have hne := s.algorithm.blocks_ne_nil message
  refine (digest_of_collect hne hpath).mono fun outcome _ he d hd => ?_
  obtain ⟨chain, hchain, hdigest⟩ := he d hd
  rw [halgorithm] at hchain hdigest
  rw [Algorithm.digest, hchain]
  exact hdigest

end HashAccelerator
