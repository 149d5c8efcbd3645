import HashAccelerator.Hash.Message
/-!
# Compression block by block

A chaining value takes in any block of an algorithm of its own width, looks at the block and at
nothing behind it, and stays as wide as it is. So the value after some blocks (`Algorithm.chainOf`)
is always there, and one more block is one more compression.
-/

namespace HashAccelerator

namespace Chain

variable {chain chain' : Chain} {algorithm : Algorithm}

/-- **Only the block counts**, not what stands behind it. -/
theorem compress_take (chain : Chain) (algorithm : Algorithm) (bytes : List UInt8) :
    chain.compress algorithm (bytes.take algorithm.blockSize) = chain.compress algorithm bytes := by
  unfold compress
  by_cases hshort : bytes.length < algorithm.blockSize
  · rw [if_pos hshort, if_pos (by rw [List.length_take]; omega)]
  · rw [if_neg hshort, if_neg (by rw [List.length_take]; omega)]
    cases chain <;> cases algorithm <;> simp [Algorithm.blockSize, Algorithm.isWide, List.take_take]

/-- Two byte strings that begin with the same block are compressed alike. -/
theorem compress_congr {bytes bytes' : List UInt8}
    (h : bytes.take algorithm.blockSize = bytes'.take algorithm.blockSize) :
    chain.compress algorithm bytes = chain.compress algorithm bytes' := by
  rw [← compress_take, h, compress_take]

/-- **A chaining value of the right width takes in any block.** -/
theorem exists_compress {bytes : List UInt8} (hwidth : chain.isWide = algorithm.isWide)
    (hlength : algorithm.blockSize ≤ bytes.length) :
    ∃ chain', chain.compress algorithm bytes = .ok chain' := by
  unfold compress
  rw [if_neg (Nat.not_lt.2 hlength)]
  cases chain <;> cases algorithm <;> first | exact ⟨_, rfl⟩ | cases hwidth

/-- And is as wide afterwards. -/
theorem isWide_of_compress {bytes : List UInt8} (h : chain.compress algorithm bytes = .ok chain') :
    chain'.isWide = algorithm.isWide := by
  unfold compress at h
  split at h
  · cases h
  · cases chain <;> cases algorithm <;> cases h <;> rfl

end Chain

namespace Algorithm

variable {algorithm : Algorithm} {blocks : List (List UInt8)} {chain chain' : Chain}

theorem chainOf_nil (algorithm : Algorithm) : algorithm.chainOf [] = .ok (.initial algorithm) := rfl

/-- The value after one block more. -/
theorem chainOf_concat {block : List UInt8} (h : algorithm.chainOf blocks = .ok chain) :
    algorithm.chainOf (blocks ++ [block]) = chain.compress algorithm block := by
  unfold chainOf at h ⊢
  rw [List.foldlM_append, h]
  simp only [List.foldlM_cons, List.foldlM_nil, bind_pure]
  rfl

theorem isWide_of_chainOf (h : algorithm.chainOf blocks = .ok chain) :
    chain.isWide = algorithm.isWide := by
  have hfold : ∀ (blocks : List (List UInt8)) (start : Chain), start.isWide = algorithm.isWide →
      blocks.foldlM (fun chain block => chain.compress algorithm block) start = .ok chain →
      chain.isWide = algorithm.isWide := by
    intro blocks
    induction blocks with
    | nil =>
      intro start hstart hrun
      cases hrun
      exact hstart
    | cons block rest ih =>
      intro start hstart hrun
      rw [List.foldlM_cons] at hrun
      cases hstep : start.compress algorithm block with
      | error fault =>
        rw [hstep] at hrun
        cases hrun
      | ok next =>
        rw [hstep] at hrun
        exact ih next (Chain.isWide_of_compress hstep) hrun
  exact hfold blocks _ (Chain.isWide_initial algorithm) h

/-- The number of words in a block and the number of its bytes. -/
theorem blockSize_eq (algorithm : Algorithm) : algorithm.blockSize = 4 * algorithm.blockWords := by
  cases algorithm <;> rfl

theorem blockSize_pos (algorithm : Algorithm) : 0 < algorithm.blockSize := by
  have := algorithm.lengthBytes_lt_blockSize
  omega

theorem blockSize_le (algorithm : Algorithm) : algorithm.blockSize ≤ 128 := by
  cases algorithm <;> decide

theorem blockWords_le (algorithm : Algorithm) : algorithm.blockWords ≤ 32 := by
  cases algorithm <;> decide

theorem digestWords_le (algorithm : Algorithm) : algorithm.digestWords ≤ 16 := by
  cases algorithm <;> decide

end Algorithm

end HashAccelerator
