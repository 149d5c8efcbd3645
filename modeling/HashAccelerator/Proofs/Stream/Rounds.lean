import HashAccelerator.Proofs.Stream.Ending
import HashAccelerator.Proofs.Stream.Slices
/-!
# No round slips

The loop over a part of the message counts on its buffer: that no more bytes wait than fill a block,
that every round takes a byte, and that the slice it takes has a place. It does not ask whether that is
so; a slice without a place would be left out, and a round that takes nothing would come again for ever.
`absorbGuarded` is the same loop with the three questions asked, and where the buffer has room at the
beginning none of them is ever answered by a `Slip` (`absorbGuarded_eq`, `updateGuarded_eq`). The end of
a message counts on as much (`EndsInBounds`).
-/

namespace HashAccelerator

variable {ρ κ μ : Type} [RegisterBlock ρ] [GatedClock κ] [EngineMutex μ]

/-- What a round of the loop counts on, where it does not hold. -/
inductive Slip where
  /-- More bytes wait than fill a block. -/
  | underflow
  /-- The round takes no byte. -/
  | idle
  /-- The slice reaches beyond the buffer. -/
  | outOfRange
  deriving DecidableEq

namespace HashStream

variable {s : HashStream}

/-! ## The loop with its questions -/

/-- How many bytes a round takes: what the block has room for, as far as there are bytes. -/
def takes (s : HashStream) (bytes : List UInt8) : Nat :=
  min (s.algorithm.blockSize - s.waiting) bytes.length

/-- Takes in bytes slice by slice, unless a round slips. That no round is idle is what ends it. -/
def absorbGuarded (s : HashStream) (bytes : List UInt8) :
    EngineM ρ κ μ (Except Slip (Except Fault Unit × HashStream)) :=
  if bytes = [] then return .ok (.ok (), s)
  else if s.algorithm.blockSize < s.waiting then return .error .underflow
  else if _hidle : s.takes bytes = 0 then return .error .idle
  else if 128 < s.waiting + s.takes bytes then return .error .outOfRange
  else
    let filled := s.fill (bytes.take (s.takes bytes))
    if filled.isFull then do
      match ← filled.flush none with
      | (.ok (), flushed) =>
        absorbGuarded { flushed with waiting := 0 } (bytes.drop (s.takes bytes))
      | (.error fault, flushed) => return .ok (.error fault, flushed)
    else absorbGuarded filled (bytes.drop (s.takes bytes))
termination_by bytes.length
decreasing_by
  all_goals
    have hsome : s.takes bytes ≤ bytes.length := Nat.min_le_right _ _
    rw [List.length_drop]
    omega

/-- The next part of a message, unless a round slips. -/
def updateGuarded (s : HashStream) (bytes : List UInt8) :
    EngineM ρ κ μ (Except Slip (Except Fault Unit × HashStream)) :=
  if s.failed then return .ok (.error .alreadyFailed, s)
  else absorbGuarded { s with length := s.length + BitVec.ofNat 128 bytes.length } bytes

/-! ## It is the loop -/

/-- Where the block has room a round takes a byte, and has a place for all that it takes. -/
theorem takes_in_bounds {bytes : List UInt8} (hroom : s.waiting < s.algorithm.blockSize)
    (hsome : bytes ≠ []) : 0 < s.takes bytes ∧ s.waiting + s.takes bytes ≤ 128 := by
  have hle := s.algorithm.blockSize_le
  have hpos := List.length_pos_iff.2 hsome
  unfold takes
  omega

/-- A slice of so many bytes is one of as many as there is room for. -/
theorem takes_eq (s : HashStream) (bytes : List UInt8) :
    bytes.take (s.takes bytes) = bytes.take (s.algorithm.blockSize - s.waiting) ∧
      bytes.drop (s.takes bytes) = bytes.drop (s.algorithm.blockSize - s.waiting) := by
  unfold takes
  rcases Nat.le_total (s.algorithm.blockSize - s.waiting) bytes.length with hle | hge
  · rw [Nat.min_eq_left hle]
    exact ⟨rfl, rfl⟩
  · rw [Nat.min_eq_right hge, List.take_length, List.drop_length, List.take_of_length_le hge,
      List.drop_eq_nil_of_le hge]
    exact ⟨rfl, rfl⟩

/-- **No round slips** where the block has room at the beginning: it has room after every round. -/
theorem absorbGuarded_eq (hroom : s.waiting < s.algorithm.blockSize) (bytes : List UInt8) :
    s.absorbGuarded bytes = (Except.ok <$> s.absorbBytes bytes : EngineM ρ κ μ _) := by
  rw [absorbBytes_eq_absorbSlices hroom]
  -- on the length of what is left, which every round shortens
  induction hlength : bytes.length using Nat.strongRecOn generalizing s bytes with
  | ind length ih =>
    rw [absorbGuarded, absorbSlices]
    by_cases hdone : bytes = []
    · rw [if_pos hdone, dif_pos hdone, map_pure]
    obtain ⟨hpos, hplace⟩ := takes_in_bounds hroom hdone
    obtain ⟨htaken, hleft⟩ := s.takes_eq bytes
    have hshorter : (bytes.drop (s.algorithm.blockSize - s.waiting)).length < length := by
      have hsome := List.length_pos_iff.2 hdone
      rw [List.length_drop]
      omega
    rw [if_neg hdone, if_neg (by omega), dif_neg (by omega), if_neg (by omega), dif_neg hdone, htaken,
      hleft]
    dsimp only
    by_cases hfull : (s.fill (bytes.take (s.algorithm.blockSize - s.waiting))).isFull = true
    · rw [if_pos hfull, dif_pos hfull, map_bind]
      refine bind_congr fun r => ?_
      obtain ⟨outcome, flushed⟩ := r
      cases outcome with
      | error fault => exact (map_pure _ _).symm
      | ok => exact ih _ hshorter _ _ rfl
    · rw [if_neg hfull, dif_neg hfull]
      exact ih _ hshorter _ _ rfl

/-- So no update does, on a stream that has room or has failed. -/
theorem updateGuarded_eq (h : s.failed = false → s.waiting < s.algorithm.blockSize)
    (bytes : List UInt8) :
    s.updateGuarded bytes = (Except.ok <$> s.absorb bytes : EngineM ρ κ μ _) := by
  unfold updateGuarded absorb
  cases hfailed : s.failed with
  | true => simp only [if_pos, map_pure]
  | false =>
    simp only [Bool.false_eq_true, if_false]
    have hcounted : algorithm { s with length := s.length + BitVec.ofNat 128 bytes.length } =
        s.algorithm := rfl
    exact absorbGuarded_eq (hcounted ▸ h hfailed) bytes

/-! ## The end of a message -/

/-- What the end of a message counts on in the buffer: a place for the byte that ends it, a length field
that is no longer than the block, and a block that is no longer than the buffer, in bytes as in words. -/
structure EndsInBounds (s : HashStream) : Prop where
  marked : s.terminate = s.clearTail.push 0x80
  field_le : s.algorithm.lengthBytes ≤ s.algorithm.blockSize
  block_le : s.algorithm.blockSize ≤ 128
  two_le_words : 2 ≤ s.algorithm.blockWords
  words_le : s.algorithm.blockWords ≤ 32
  /-- The length of a narrow message goes over the last two words of its block. -/
  narrow : s.algorithm.isWide = false →
    s.algorithm.blockSize - s.algorithm.lengthBytes = 4 * (s.algorithm.blockWords - 2)
  /-- As many words are handed to the engine as the block has. -/
  words : ∀ bits?, ((s.wordsForEngine bits?).take s.algorithm.blockWords).length =
    s.algorithm.blockWords

theorem endsInBounds (hroom : s.waiting < s.algorithm.blockSize) : s.EndsInBounds where
  marked := by rw [terminate, if_pos hroom]
  field_le := Nat.le_of_lt (Nat.lt_of_succ_lt s.algorithm.lengthBytes_lt_blockSize)
  block_le := s.algorithm.blockSize_le
  two_le_words := by cases s.algorithm <;> decide
  words_le := s.algorithm.blockWords_le
  narrow := by cases s.algorithm <;> decide
  words bits? := by
    have hbytes := congrArg List.length (s.flatMap_take_wordsForEngine bits?)
    rw [s.length_block, s.algorithm.blockSize_eq, BigEndian.length_flatMap_bytes32] at hbytes
    omega

end HashStream

end HashAccelerator
