import HashAccelerator.Proofs.Hash.Compression
import HashAccelerator.Proofs.Hash.Words
/-!
# The last blocks of a message

A message that is hashed as it comes is known as some whole blocks and the tail behind them. Its
padding depends on little more: where the tail leaves room for the length, one more block closes the
message, and where it does not, two (`Algorithm.blocks_of_fits`, `Algorithm.blocks_of_spills`). Either
way the last block is a block with the length over its end.
-/

namespace HashAccelerator

/-! ## Pieces -/

section Pieces

variable {α : Type} {size : Nat} {items block : List α} {blocks : List (List α)}

/-- More pieces than there are items are never needed. -/
theorem piecesUpTo_eq_pieces (hpos : 0 < size) {count : Nat} (h : items.length ≤ count) :
    piecesUpTo size count items = pieces size items := by
  have hsame : ∀ count count' (items : List α), items.length ≤ count → items.length ≤ count' →
      piecesUpTo size count items = piecesUpTo size count' items := by
    intro count
    induction count with
    | zero =>
      intro count' items h h'
      obtain rfl := List.eq_nil_of_length_eq_zero (Nat.le_zero.1 h)
      cases count' <;> rfl
    | succ count ih =>
      intro count' items h h'
      rcases items with _ | ⟨item, items⟩
      · rcases count' with _ | count' <;> rfl
      · obtain _ | count' := count'
        · simp at h'
        · simp only [List.length_cons] at h h'
          have hdrop : ((item :: items).drop size).length ≤ items.length := by
            rw [List.length_drop, List.length_cons]
            omega
          simp only [piecesUpTo]
          rw [ih count' _ (by omega) (by omega)]
  exact hsame _ _ items h (Nat.le_refl _)

/-- A block at the front is the first piece. -/
theorem pieces_append (hpos : 0 < size) (hblock : block.length = size) (rest : List α) :
    pieces size (block ++ rest) = block :: pieces size rest := by
  cases block with
  | nil =>
    simp only [List.length_nil] at hblock
    omega
  | cons item block =>
    have htake : (item :: block ++ rest).take size = item :: block := List.take_left' hblock
    have hdrop : (item :: block ++ rest).drop size = rest := List.drop_left' hblock
    show (item :: block ++ rest).take size ::
      piecesUpTo size (block ++ rest).length ((item :: block ++ rest).drop size) = _
    rw [htake, hdrop, piecesUpTo_eq_pieces hpos (by simp)]

/-- **Whole blocks at the front** are the first pieces. -/
theorem pieces_flatten_append (hpos : 0 < size) (hwhole : ∀ block ∈ blocks, block.length = size)
    (rest : List α) : pieces size (blocks.flatten ++ rest) = blocks ++ pieces size rest := by
  induction blocks with
  | nil => rfl
  | cons block blocks ih =>
    have hblock := hwhole block List.mem_cons_self
    have hrest := ih fun other hother => hwhole other (List.mem_cons_of_mem _ hother)
    rw [List.flatten_cons, List.append_assoc, pieces_append hpos hblock, hrest, List.cons_append]

theorem pieces_flatten (hpos : 0 < size) (hwhole : ∀ block ∈ blocks, block.length = size) :
    pieces size blocks.flatten = blocks := by
  have h := pieces_flatten_append hpos hwhole []
  rw [List.append_nil] at h
  exact h.trans (List.append_nil blocks)

theorem length_flatten_blocks (hwhole : ∀ block ∈ blocks, block.length = size) :
    blocks.flatten.length = size * blocks.length := by
  induction blocks with
  | nil => rfl
  | cons block blocks ih =>
    have hblock := hwhole block List.mem_cons_self
    have hrest := ih fun other hother => hwhole other (List.mem_cons_of_mem _ hother)
    rw [List.flatten_cons, List.length_append, hblock, hrest, List.length_cons, Nat.mul_succ,
      Nat.add_comm]

/-- **A whole number of blocks** is cut into just these. -/
theorem pieces_of_length (hpos : 0 < size) {count : Nat} (h : items.length = size * count) :
    (pieces size items).length = count ∧ ∀ piece ∈ pieces size items, piece.length = size := by
  induction count generalizing items with
  | zero =>
    rw [List.eq_nil_of_length_eq_zero h]
    exact ⟨rfl, fun _ hmem => by cases hmem⟩
  | succ count ih =>
    rw [Nat.mul_succ] at h
    have hfront : (items.take size).length = size := by
      rw [List.length_take]
      omega
    have hrest : (items.drop size).length = size * count := by
      rw [List.length_drop]
      omega
    obtain ⟨hcount, hall⟩ := ih hrest
    have hcut := pieces_append hpos hfront (items.drop size)
    rw [List.take_append_drop] at hcut
    rw [hcut, List.length_cons, hcount]
    exact ⟨rfl, List.forall_mem_cons.2 ⟨hfront, hall⟩⟩

end Pieces

/-! ## Padding -/

namespace Algorithm

variable {algorithm : Algorithm} {blocks : List (List UInt8)} {tail : List UInt8}

/-- The tail of a message, with the byte that ends the message and zeros up to the end of the
block. -/
def terminated (algorithm : Algorithm) (tail : List UInt8) : List UInt8 :=
  tail ++ 0x80 :: List.replicate (algorithm.blockSize - 1 - tail.length) 0

/-- A block with the length of a message, in bits, over its end. -/
def closed (algorithm : Algorithm) (block : List UInt8) (length : Nat) : List UInt8 :=
  block.take (algorithm.blockSize - algorithm.lengthBytes) ++
    BigEndian.ofNat algorithm.lengthBytes (8 * length)

theorem length_terminated (h : tail.length < algorithm.blockSize) :
    (algorithm.terminated tail).length = algorithm.blockSize := by
  simp only [terminated, List.length_append, List.length_cons, List.length_replicate]
  omega

theorem length_closed {block : List UInt8} (h : block.length = algorithm.blockSize)
    (length : Nat) : (algorithm.closed block length).length = algorithm.blockSize := by
  have hroom := algorithm.lengthBytes_lt_blockSize
  simp only [closed, List.length_append, List.length_take, BigEndian.length_ofNat]
  omega

/-- Even an empty message has a block. -/
theorem blocks_ne_nil (algorithm : Algorithm) (message : List UInt8) :
    algorithm.blocks message ≠ [] := by
  intro hnone
  have hpad := flatten_pieces algorithm.blockSize_pos (algorithm.pad message)
  rw [show pieces algorithm.blockSize (algorithm.pad message) = [] from hnone] at hpad
  simp [pad] at hpad

/-- **No fewer zeros** would do. -/
theorem zeroCount_le {length zeros : Nat}
    (h : algorithm.blockSize ∣ length + 1 + zeros + algorithm.lengthBytes) :
    algorithm.zeroCount length ≤ zeros := by
  have hmod := Nat.mod_eq_zero_of_dvd h
  revert hmod
  simp only [zeroCount]
  cases algorithm <;> simp only [blockSize, lengthBytes, isWide, if_true, if_false,
    Bool.false_eq_true] <;> omega

/-- How many blocks a padded message has. -/
theorem length_pad (algorithm : Algorithm) (message : List UInt8) :
    (algorithm.pad message).length = algorithm.blockSize *
      ((message.length + algorithm.lengthBytes) / algorithm.blockSize + 1) := by
  simp only [pad, zeroCount, List.length_append, List.length_cons, List.length_replicate,
    BigEndian.length_ofNat]
  cases algorithm <;> simp only [blockSize, lengthBytes, isWide, if_true, if_false,
    Bool.false_eq_true] <;> omega

theorem length_blocks (algorithm : Algorithm) (message : List UInt8) :
    (algorithm.blocks message).length =
        (message.length + algorithm.lengthBytes) / algorithm.blockSize + 1 ∧
      ∀ block ∈ algorithm.blocks message, block.length = algorithm.blockSize :=
  pieces_of_length algorithm.blockSize_pos (algorithm.length_pad message)

/-- How many zeros end up in the padding, by the length of the tail. -/
theorem zeroCount_eq (hwhole : ∀ block ∈ blocks, block.length = algorithm.blockSize)
    (htail : tail.length < algorithm.blockSize) :
    algorithm.zeroCount (blocks.flatten ++ tail).length =
      if tail.length + 1 + algorithm.lengthBytes ≤ algorithm.blockSize then
        algorithm.blockSize - algorithm.lengthBytes - 1 - tail.length
      else algorithm.blockSize - 1 - tail.length + (algorithm.blockSize - algorithm.lengthBytes) := by
  rw [zeroCount, List.length_append, length_flatten_blocks hwhole]
  revert htail
  cases algorithm <;> simp only [blockSize, lengthBytes, isWide, if_true, if_false,
    Bool.false_eq_true] <;> intro htail <;> split <;> omega

/-- **Where the length fits** behind the tail, one more block ends the message. -/
theorem blocks_of_fits (hwhole : ∀ block ∈ blocks, block.length = algorithm.blockSize)
    (hfits : tail.length + 1 + algorithm.lengthBytes ≤ algorithm.blockSize) :
    algorithm.blocks (blocks.flatten ++ tail) =
      blocks ++ [algorithm.closed (algorithm.terminated tail) (blocks.flatten ++ tail).length] := by
  have htail : tail.length < algorithm.blockSize := by omega
  have hzeros := zeroCount_eq hwhole htail
  rw [if_pos hfits] at hzeros
  have hfront : (algorithm.terminated tail).take (algorithm.blockSize - algorithm.lengthBytes) =
      tail ++ 0x80 :: List.replicate
        (algorithm.blockSize - algorithm.lengthBytes - 1 - tail.length) 0 := by
    obtain ⟨room, hroom⟩ : ∃ room,
        algorithm.blockSize - algorithm.lengthBytes = tail.length + (room + 1) :=
      ⟨algorithm.blockSize - algorithm.lengthBytes - 1 - tail.length, by omega⟩
    have hzeros : min room (algorithm.blockSize - 1 - tail.length) = room := by omega
    have hrest : tail.length + (room + 1) - 1 - tail.length = room := by omega
    rw [terminated, hroom, List.take_length_add_append, List.take_succ_cons, List.take_replicate,
      hzeros, hrest]
  have hpad : algorithm.pad (blocks.flatten ++ tail) = blocks.flatten ++
      algorithm.closed (algorithm.terminated tail) (blocks.flatten ++ tail).length := by
    rw [pad, closed, hfront, hzeros]
    simp only [List.append_assoc]
  rw [Algorithm.blocks, hpad, pieces_flatten_append algorithm.blockSize_pos hwhole]
  have hclosed : ∀ block ∈ [algorithm.closed (algorithm.terminated tail)
      (blocks.flatten ++ tail).length], block.length = algorithm.blockSize := by
    intro block hblock
    rw [List.mem_singleton.1 hblock, length_closed (length_terminated htail)]
  have hlast := pieces_flatten algorithm.blockSize_pos hclosed
  rw [List.flatten_singleton] at hlast
  rw [hlast]

/-- **Where it does not fit**, the tail's block ends in zeros, and a block of zeros takes the
length. -/
theorem blocks_of_spills (hwhole : ∀ block ∈ blocks, block.length = algorithm.blockSize)
    (htail : tail.length < algorithm.blockSize)
    (hspills : algorithm.blockSize < tail.length + 1 + algorithm.lengthBytes) :
    algorithm.blocks (blocks.flatten ++ tail) =
      blocks ++ [algorithm.terminated tail] ++
        [algorithm.closed (List.replicate algorithm.blockSize 0)
          (blocks.flatten ++ tail).length] := by
  have hzeros := zeroCount_eq hwhole htail
  rw [if_neg (Nat.not_le.2 hspills)] at hzeros
  have hfront : (List.replicate algorithm.blockSize (0 : UInt8)).take
      (algorithm.blockSize - algorithm.lengthBytes) =
      List.replicate (algorithm.blockSize - algorithm.lengthBytes) 0 := by
    rw [List.take_replicate, Nat.min_eq_left (Nat.sub_le _ _)]
  have hpad : algorithm.pad (blocks.flatten ++ tail) = blocks.flatten ++
      [algorithm.terminated tail, algorithm.closed (List.replicate algorithm.blockSize 0)
        (blocks.flatten ++ tail).length].flatten := by
    rw [pad, closed, hfront, hzeros, terminated]
    simp only [← List.replicate_append_replicate, List.flatten_cons, List.flatten_nil,
      List.append_assoc, List.cons_append, List.append_nil]
  rw [Algorithm.blocks, hpad, pieces_flatten_append algorithm.blockSize_pos hwhole,
    pieces_flatten algorithm.blockSize_pos fun block hblock => ?_, List.append_assoc]
  · rfl
  · rcases List.mem_cons.1 hblock with rfl | hblock
    · exact length_terminated htail
    · rw [List.mem_singleton.1 hblock, length_closed List.length_replicate]

/-- The blocks that end a message of some length, in bytes, behind its whole blocks. -/
def closing (algorithm : Algorithm) (tail : List UInt8) (length : Nat) : List (List UInt8) :=
  if tail.length + 1 + algorithm.lengthBytes ≤ algorithm.blockSize then
    [algorithm.closed (algorithm.terminated tail) length]
  else
    [algorithm.terminated tail, algorithm.closed (List.replicate algorithm.blockSize 0) length]

theorem closing_ne_nil (algorithm : Algorithm) (tail : List UInt8) (length : Nat) :
    algorithm.closing tail length ≠ [] := by
  unfold closing
  split <;> simp

theorem length_of_mem_closing (htail : tail.length < algorithm.blockSize) (length : Nat) :
    ∀ block ∈ algorithm.closing tail length, block.length = algorithm.blockSize := by
  intro block hblock
  unfold closing at hblock
  split at hblock
  · rw [List.mem_singleton.1 hblock, length_closed (length_terminated htail)]
  · rcases List.mem_cons.1 hblock with rfl | hblock
    · exact length_terminated htail
    · rw [List.mem_singleton.1 hblock, length_closed List.length_replicate]

/-- The length counts modulo two to the 128, which no length field exceeds. -/
theorem closing_mod (algorithm : Algorithm) (tail : List UInt8) (length : Nat) :
    algorithm.closing tail (length % 2 ^ 128) = algorithm.closing tail length := by
  have hdvd : 256 ^ algorithm.lengthBytes ∣ 2 ^ 128 := by cases algorithm <;> decide
  have hfield : BigEndian.ofNat algorithm.lengthBytes (8 * (length % 2 ^ 128)) =
      BigEndian.ofNat algorithm.lengthBytes (8 * length) :=
    BigEndian.ofNat_congr (by rw [Nat.mul_mod, Nat.mod_mod_of_dvd _ hdvd, ← Nat.mul_mod])
  simp only [closing, closed, hfield]

/-- **The blocks of a padded message** are its whole blocks and those that end it. -/
theorem blocks_eq_closing (hwhole : ∀ block ∈ blocks, block.length = algorithm.blockSize)
    (htail : tail.length < algorithm.blockSize) : algorithm.blocks (blocks.flatten ++ tail) =
      blocks ++ algorithm.closing tail (blocks.flatten ++ tail).length := by
  unfold closing
  split
  · next hfits => exact blocks_of_fits hwhole hfits
  · next hlong =>
    rw [blocks_of_spills hwhole htail (Nat.lt_of_not_le hlong), List.append_assoc]
    rfl

end Algorithm

end HashAccelerator
