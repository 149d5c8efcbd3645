import HashAccelerator.Proofs.Hash.Compression
import HashAccelerator.Proofs.Hash.Words
/-!
# Any calls on a chaining value

Nothing ties a chaining value to the algorithm that it began with. It can be handed the blocks of any
algorithm and asked for any algorithm's digest, and only widths and lengths tell it what to refuse: a
block that is too short, and after that one of the other width, is refused without a trace, a block of
another algorithm of its own width is taken as that algorithm takes it, and only a narrow value lacks
the bytes of a digest, that of a wide algorithm. So after any calls the value is what the blocks that
were taken make of it, one after the other (`run_initial`).
-/

namespace HashAccelerator

namespace Chain

/-! ## Calls -/

/-- A call on a chaining value. -/
inductive Call where
  /-- Takes in the block at the front of some bytes. -/
  | compress (algorithm : Algorithm) (bytes : List UInt8)
  | digest (algorithm : Algorithm)
  deriving DecidableEq

/-- What a call answers that is not refused. -/
inductive Reply where
  | taken
  | digest (bytes : List UInt8)
  deriving DecidableEq

/-- What a call comes to: its answer, and the value after it. -/
abbrev Outcome : Type := Except Fault Reply × Chain

/-- One call. A call that is refused leaves the value as it was. -/
def perform (chain : Chain) : Call → Outcome
  | .compress algorithm bytes =>
    match chain.compress algorithm bytes with
    | .ok next => (.ok .taken, next)
    | .error fault => (.error fault, chain)
  | .digest algorithm => ((chain.digest algorithm).map .digest, chain)

/-- Some calls, one after the other: each with its answer, and the value after all of them. -/
def run (chain : Chain) : List Call → List (Call × Except Fault Reply) × Chain
  | [] => ([], chain)
  | call :: calls =>
    let rest := (chain.perform call).2.run calls
    ((call, (chain.perform call).1) :: rest.1, rest.2)

/-! ## Blocks -/

/-- A block, and the algorithm that it is a block of. -/
structure Block where
  algorithm : Algorithm
  bytes : List UInt8

/-- The block that an answered call has taken in. -/
def taken? : Call × Except Fault Reply → Option Block
  | (.compress algorithm bytes, .ok _) => some ⟨algorithm, bytes.take algorithm.blockSize⟩
  | _ => none

/-- The value after one block more, by the compression function of the block's algorithm on the words
of the value's width. -/
def mix : Chain → Block → Chain
  | .narrow words, ⟨.sha1, bytes⟩ => .narrow (Sha1.compress words (BigEndian.words32 bytes))
  | .narrow words, ⟨_, bytes⟩ => .narrow (Sha2.narrow.compress words (BigEndian.words32 bytes))
  | .wide lanes, ⟨_, bytes⟩ => .wide (Sha2.wide.compress lanes (BigEndian.words64 bytes))

/-- The words of a narrow value that SHA-1 has no use for. -/
def spare : Chain → List UInt32
  | .narrow words => words.toList.drop 5
  | .wide _ => []

/-! ## One call -/

section One

variable {chain : Chain} {algorithm : Algorithm} {bytes : List UInt8}

theorem isWide_mix (chain : Chain) (block : Block) : (chain.mix block).isWide = chain.isWide := by
  obtain ⟨algorithm, bytes⟩ := block
  cases chain <;> cases algorithm <;> rfl

/-- Too few bytes are refused before anything else is asked. -/
theorem compress_of_short (hshort : bytes.length < algorithm.blockSize) :
    chain.compress algorithm bytes = .error .wrongSize := by
  unfold compress
  rw [if_pos hshort]

/-- A block of the other width is refused. -/
theorem compress_of_misfit (hlong : algorithm.blockSize ≤ bytes.length)
    (hwidth : algorithm.isWide ≠ chain.isWide) :
    chain.compress algorithm bytes = .error (.noUnit algorithm) := by
  unfold compress
  rw [if_neg (Nat.not_lt.2 hlong)]
  cases chain <;> cases algorithm <;> first | rfl | exact absurd rfl hwidth

/-- **A block of the value's own width is taken**, by whatever algorithm it is a block of. -/
theorem compress_of_fits (hlong : algorithm.blockSize ≤ bytes.length)
    (hwidth : algorithm.isWide = chain.isWide) :
    chain.compress algorithm bytes =
      .ok (chain.mix ⟨algorithm, bytes.take algorithm.blockSize⟩) := by
  unfold compress
  rw [if_neg (Nat.not_lt.2 hlong)]
  cases chain <;> cases algorithm <;> first | rfl | cases hwidth

/-- **What a block comes to**, by its length and its width. -/
theorem perform_compress (chain : Chain) (algorithm : Algorithm) (bytes : List UInt8) :
    chain.perform (.compress algorithm bytes) =
      if bytes.length < algorithm.blockSize then (.error .wrongSize, chain)
      else if algorithm.isWide ≠ chain.isWide then (.error (.noUnit algorithm), chain)
      else (.ok .taken, chain.mix ⟨algorithm, bytes.take algorithm.blockSize⟩) := by
  simp only [perform]
  by_cases hshort : bytes.length < algorithm.blockSize
  · rw [if_pos hshort, compress_of_short hshort]
  · have hlong := Nat.le_of_not_lt hshort
    rw [if_neg hshort]
    by_cases hwidth : algorithm.isWide = chain.isWide
    · rw [if_neg (Decidable.not_not.2 hwidth), compress_of_fits hlong hwidth]
    · rw [if_pos hwidth, compress_of_misfit hlong hwidth]

/-- A narrow value has no digest of a wide algorithm. -/
theorem digest_of_narrow (hchain : chain.isWide = false) (hwide : algorithm.isWide = true) :
    chain.digest algorithm = .error .wrongSize := by
  have hbytes : ¬ algorithm.digestSize ≤ chain.bytes.length := by
    rw [length_bytes, hchain]
    cases algorithm <;> first | decide | cases hwide
  rw [digest, cutDigest, if_neg fun hfits => hbytes hfits.1]

/-- **What a request for a digest comes to**: it fails on a narrow value for a wide algorithm only. -/
theorem perform_digest (chain : Chain) (algorithm : Algorithm) :
    chain.perform (.digest algorithm) =
      (if chain.isWide = false ∧ algorithm.isWide = true then .error .wrongSize
        else .ok (.digest (chain.bytes.take algorithm.digestSize)), chain) := by
  simp only [perform]
  by_cases hlacks : chain.isWide = false ∧ algorithm.isWide = true
  · rw [if_pos hlacks, digest_of_narrow hlacks.1 hlacks.2]
    rfl
  · have hbytes : algorithm.digestSize ≤ chain.bytes.length := by
      rw [length_bytes]
      cases hchain : chain.isWide <;> cases algorithm <;> first | decide | simp_all [Algorithm.isWide]
    rw [if_neg hlacks, digest, cutDigest_of_le hbytes]
    rfl

/-- **A call changes the value by the block that it takes**, if it takes one. -/
theorem perform_eq_mix (chain : Chain) (call : Call) : (chain.perform call).2 =
    (taken? (call, (chain.perform call).1)).elim chain chain.mix := by
  cases call with
  | digest algorithm => simp only [perform_digest, taken?, Option.elim_none]
  | compress algorithm bytes =>
    rw [perform_compress]
    split
    · rfl
    · split <;> rfl

/-- The words of SHA-1 come before the spare ones. -/
theorem spare_mix_sha1 (chain : Chain) (bytes : List UInt8) :
    (chain.mix ⟨.sha1, bytes⟩).spare = chain.spare := by
  have hspare : ∀ words : Vector UInt32 8,
      words.toList.drop 5 = [words[5], words[6], words[7]] := by
    intro words
    rw [List.drop_eq_getElem_cons (by simp), List.drop_eq_getElem_cons (by simp),
      List.drop_eq_getElem_cons (by simp), List.drop_eq_nil_of_le (by simp)]
    rfl
  cases chain with
  | narrow words =>
    simp only [mix, spare]
    rw [hspare words]
    rfl
  | wide lanes => rfl

end One

/-! ## Any calls -/

/-- **One call more** meets the value that the calls before it have left. -/
theorem run_concat (chain : Chain) (calls : List Call) (call : Call) :
    chain.run (calls ++ [call]) =
      ((chain.run calls).1 ++ [(call, ((chain.run calls).2.perform call).1)],
        ((chain.run calls).2.perform call).2) := by
  induction calls generalizing chain with
  | nil => rfl
  | cons first calls ih => simp only [List.cons_append, run, ih]

theorem map_fst_run (chain : Chain) (calls : List Call) :
    (chain.run calls).1.map Prod.fst = calls := by
  induction calls generalizing chain with
  | nil => rfl
  | cons call calls ih => simp only [run, List.map_cons, ih]

/-- **What any calls leave** is what the blocks that they took make of the value. -/
theorem run_eq_foldl (chain : Chain) (calls : List Call) :
    (chain.run calls).2 = ((chain.run calls).1.filterMap taken?).foldl mix chain := by
  induction calls generalizing chain with
  | nil => rfl
  | cons call calls ih =>
    simp only [run, List.filterMap_cons]
    rw [ih, perform_eq_mix]
    cases taken? (call, (chain.perform call).1) with
    | none => rfl
    | some block => rfl

theorem isWide_run (chain : Chain) (calls : List Call) :
    (chain.run calls).2.isWide = chain.isWide := by
  have hfold : ∀ (blocks : List Block) (chain : Chain),
      (blocks.foldl mix chain).isWide = chain.isWide := by
    intro blocks
    induction blocks with
    | nil => exact fun _ => rfl
    | cons block blocks ih => exact fun chain => (ih _).trans (isWide_mix chain block)
  rw [run_eq_foldl, hfold]

/-- **A chaining value comes through any calls as what the blocks that it took make of it.** Whatever
algorithms the calls are for, it keeps the width that it began with; each call more meets it as the
calls before have left it. A block that is too short is refused, then one of the other width, and both
leave the value as it was; any other block is taken, by the compression function of its own algorithm,
and one of SHA-1 leaves the last three words alone. A request for a digest changes nothing and answers
the front of the value's bytes, unless it is for a wide algorithm and the value is narrow. -/
theorem run_initial (start : Algorithm) (calls : List Call) :
    let ran := (initial start).run calls
    ran.2.isWide = start.isWide ∧
    ran.2 = (ran.1.filterMap taken?).foldl mix (initial start) ∧
    ran.1.map Prod.fst = calls ∧
    (∀ call, (initial start).run (calls ++ [call]) =
      (ran.1 ++ [(call, (ran.2.perform call).1)], (ran.2.perform call).2)) ∧
    (∀ algorithm bytes, ran.2.perform (.compress algorithm bytes) =
      if bytes.length < algorithm.blockSize then (.error .wrongSize, ran.2)
      else if algorithm.isWide ≠ start.isWide then (.error (.noUnit algorithm), ran.2)
      else (.ok .taken, ran.2.mix ⟨algorithm, bytes.take algorithm.blockSize⟩)) ∧
    (∀ bytes, (ran.2.perform (.compress .sha1 bytes)).2.spare = ran.2.spare) ∧
    (∀ algorithm, ran.2.perform (.digest algorithm) =
      (if start.isWide = false ∧ algorithm.isWide = true then .error .wrongSize
        else .ok (.digest (ran.2.bytes.take algorithm.digestSize)), ran.2)) := by
  intro ran
  have hwidth : ran.2.isWide = start.isWide :=
    (isWide_run _ calls).trans (isWide_initial start)
  refine ⟨hwidth, run_eq_foldl _ calls, map_fst_run _ calls, run_concat _ calls,
    fun algorithm bytes => ?_, fun bytes => ?_, fun algorithm => ?_⟩
  · rw [perform_compress, hwidth]
  · rw [perform_compress]
    split
    · rfl
    · split
      · rfl
      · exact spare_mix_sha1 _ _
  · rw [perform_digest, hwidth]

/-- A value of SHA-256 takes a block of SHA-1, and refuses one of SHA-384 for its length first. -/
example : ((initial .sha256).run [.compress .sha1 (List.replicate 70 0),
      .compress .sha384 (List.replicate 127 0), .compress .sha384 (List.replicate 128 0),
      .digest .sha512]).1.map Prod.snd =
    [.ok .taken, .error .wrongSize, .error (.noUnit .sha384), .error .wrongSize] := by
  rfl

end Chain

end HashAccelerator
