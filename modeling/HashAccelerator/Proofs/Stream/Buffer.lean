import HashAccelerator.Proofs.Hash.Padding
import HashAccelerator.Stream.Basic
/-!
# What the buffer of a stream holds

A stream knows its message as the blocks that it has flushed and the bytes that wait at the front of
its buffer (`HashStream.Took`). The front of the buffer is what a flush hands over, on either path: as
words for the engine it is the same bytes as for the software path (`flatMap_wordsForEngine`). At the
end of a message it becomes the last blocks of the standard's padding.
-/

namespace HashAccelerator

open BigEndian

namespace HashStream

variable {s : HashStream} {message : List UInt8} {blocks : List (List UInt8)}

/-- The bytes that wait for their block. -/
def tail (s : HashStream) : List UInt8 := s.buffer.toList.take s.waiting

/-- The block that a flush hands over. -/
def block (s : HashStream) (bits? : Option (BitVec 128)) : List UInt8 :=
  (s.bytesForSoftware bits?).take s.algorithm.blockSize

theorem length_tail (h : s.waiting ≤ 128) : s.tail.length = s.waiting := by
  rw [tail, List.length_take, Vector.length_toList]
  omega

theorem length_tail_lt (h : s.waiting < s.algorithm.blockSize) :
    s.tail.length < s.algorithm.blockSize := by
  have hle := s.algorithm.blockSize_le
  rwa [length_tail (by omega)]

/-! ## Nothing but the buffer changes -/

@[simp] theorem operation_push (s : HashStream) (byte : UInt8) :
    (s.push byte).operation = s.operation := rfl

@[simp] theorem operation_clearTail (s : HashStream) : s.clearTail.operation = s.operation := by
  simp only [clearTail]

@[simp] theorem operation_clearBuffer (s : HashStream) :
    s.clearBuffer.operation = s.operation := by
  simp only [clearBuffer]

@[simp] theorem operation_putNarrowLength (s : HashStream) (bits : BitVec 128) :
    (s.putNarrowLength bits).operation = s.operation := by
  simp only [putNarrowLength]

@[simp] theorem operation_terminate (s : HashStream) : s.terminate.operation = s.operation := by
  simp only [terminate]
  split
  · rw [operation_push, operation_clearTail]
  · rfl

@[simp] theorem chain_terminate (s : HashStream) : s.terminate.chain = s.chain := by
  unfold terminate
  split
  · simp only [push, clearTail]
  · rfl

@[simp] theorem chain_clearBuffer (s : HashStream) : s.clearBuffer.chain = s.chain := by
  simp only [clearBuffer]

@[simp] theorem chain_putNarrowLength (s : HashStream) (bits : BitVec 128) :
    (s.putNarrowLength bits).chain = s.chain := by
  simp only [putNarrowLength]

@[simp] theorem algorithm_terminate (s : HashStream) : s.terminate.algorithm = s.algorithm :=
  congrArg Operation.algorithm s.operation_terminate

@[simp] theorem algorithm_clearBuffer (s : HashStream) :
    s.clearBuffer.algorithm = s.algorithm :=
  congrArg Operation.algorithm s.operation_clearBuffer

@[simp] theorem algorithm_putNarrowLength (s : HashStream) (bits : BitVec 128) :
    (s.putNarrowLength bits).algorithm = s.algorithm :=
  congrArg Operation.algorithm (s.operation_putNarrowLength bits)

theorem algorithm_start (algorithm : Algorithm) :
    (start algorithm).operation.algorithm = algorithm := by
  unfold start
  split
  · rfl
  · rfl

/-! ## Bytes on both paths -/

theorem length_bufferWords (s : HashStream) : s.bufferWords.length = 32 := by
  rw [bufferWords, length_words32, Vector.length_toList]

theorem flatMap_bufferWords (s : HashStream) : s.bufferWords.flatMap bytes32 = s.buffer.toList :=
  flatMap_bytes32_words32 (by rw [Vector.length_toList]; decide)

/-- The lanes of a length are its bytes. -/
theorem bytes64_lengthLanes (bits : BitVec 128) :
    bytes64 (lengthLanes bits).1 ++ bytes64 (lengthLanes bits).2 = ofNat 16 bits.toNat ∧
      bytes64 (lengthLanes bits).2 = ofNat 8 bits.toNat := by
  have hhigh : bytes64 (lengthLanes bits).1 = ofNat 8 (bits.toNat / 256 ^ 8) := by
    rw [bytes64_eq_ofNat]
    refine ofNat_congr ?_
    simp [lengthLanes, Nat.shiftRight_eq_div_pow]
  have hlow : bytes64 (lengthLanes bits).2 = ofNat 8 bits.toNat := by
    rw [bytes64_eq_ofNat]
    refine ofNat_congr ?_
    simp [lengthLanes]
  rw [hhigh, hlow, ofNat_add 8 8]
  exact ⟨rfl, rfl⟩

/-- The software path has the length over the last sixteen bytes. -/
theorem bytesForSoftware_some (s : HashStream) (bits : BitVec 128) :
    s.bytesForSoftware (some bits) = s.buffer.toList.take 112 ++ ofNat 16 bits.toNat := by
  have hmessage : ((lanes s.bufferWords).take 14).flatMap bytes64 = s.buffer.toList.take 112 := by
    have heven : 2 ∣ (s.bufferWords.take 28).length := by
      rw [List.length_take, length_bufferWords]
      decide
    rw [take_lanes, flatMap_bytes64_lanes heven, ← take_flatMap_bytes32, flatMap_bufferWords]
  show ((lanes s.bufferWords).take 14 ++ [(lengthLanes bits).1, (lengthLanes bits).2]).flatMap
    bytes64 = _
  rw [List.flatMap_append, hmessage, ← (bytes64_lengthLanes bits).1]
  simp only [List.flatMap_cons, List.flatMap_nil, List.append_nil]

/-- Lanes that are read and written lower half first leave the words as they are. -/
theorem flatMap_laneWords_lanes {ws : List UInt32} (h : 2 ∣ ws.length) :
    (lanes (exchangeHalves ws)).flatMap laneWords = ws := by
  induction ws using exchangeHalves.induct with
  | case1 first second rest ih =>
    have hrest : 2 ∣ rest.length := by
      simp only [List.length_cons] at h
      omega
    rw [exchangeHalves, lanes, List.flatMap_cons, ih hrest, laneWords, lowHalf_lane, highHalf_lane]
    rfl
  | case2 ws hshort =>
    have hlt := length_lt_of_no_pair hshort
    obtain rfl : ws = [] := List.eq_nil_of_length_eq_zero (by omega)
    rfl

/-- **The engine and the software path are given the same bytes.** -/
theorem flatMap_wordsForEngine (s : HashStream) (bits? : Option (BitVec 128)) :
    (s.wordsForEngine bits?).flatMap bytes32 = s.bytesForSoftware bits? := by
  cases bits? with
  | none => exact s.flatMap_bufferWords
  | some bits =>
    have hmessage : ((lanes (exchangeHalves s.bufferWords)).take 14).flatMap laneWords =
        s.bufferWords.take 28 := by
      have heven : 2 ∣ (s.bufferWords.take 28).length := by
        rw [List.length_take, length_bufferWords]
        decide
      rw [take_lanes, ← take_exchangeHalves, flatMap_laneWords_lanes heven]
    have hlength : ([exchange (lengthLanes bits).1, exchange (lengthLanes bits).2].flatMap
        laneWords).flatMap bytes32 = ofNat 16 bits.toNat := by
      rw [← (bytes64_lengthLanes bits).1]
      simp [laneWords, lowHalf_exchange, highHalf_exchange, bytes64]
    show (((lanes (exchangeHalves s.bufferWords)).take 14 ++
      [exchange (lengthLanes bits).1, exchange (lengthLanes bits).2]).flatMap laneWords).flatMap
        bytes32 = _
    rw [List.flatMap_append, List.flatMap_append, hmessage, hlength, ← take_flatMap_bytes32,
      flatMap_bufferWords, bytesForSoftware_some]

theorem length_bytesForSoftware (s : HashStream) (bits? : Option (BitVec 128)) :
    (s.bytesForSoftware bits?).length = 128 := by
  cases bits? with
  | none => exact Vector.length_toList
  | some bits =>
    rw [bytesForSoftware_some, List.length_append, List.length_take, Vector.length_toList,
      length_ofNat]
    decide

/-- **A flush hands over a whole block.** -/
theorem length_block (s : HashStream) (bits? : Option (BitVec 128)) :
    (s.block bits?).length = s.algorithm.blockSize := by
  have hle := s.algorithm.blockSize_le
  rw [block, List.length_take, length_bytesForSoftware]
  omega

/-- The block of words for the engine. -/
theorem flatMap_take_wordsForEngine (s : HashStream) (bits? : Option (BitVec 128)) :
    ((s.wordsForEngine bits?).take s.algorithm.blockWords).flatMap bytes32 = s.block bits? := by
  rw [← take_flatMap_bytes32, flatMap_wordsForEngine, ← Algorithm.blockSize_eq, block]

/-! ## The message so far -/

/-- The message is made of blocks that were flushed and the bytes that wait for the next. -/
structure Took (s : HashStream) (message : List UInt8) (blocks : List (List UInt8)) : Prop where
  whole : ∀ block ∈ blocks, block.length = s.algorithm.blockSize
  message_eq : message = blocks.flatten ++ s.tail
  waiting_lt : s.waiting < s.algorithm.blockSize

theorem tail_push (h : s.waiting < 128) (byte : UInt8) : (s.push byte).tail = s.tail ++ [byte] := by
  simp only [tail, push]
  rw [Vector.toList_setIfInBounds, List.take_add_one, List.take_set_of_le (Nat.le_refl _)]
  simp [h]

/-- A byte that does not fill the block waits with the others. -/
theorem Took.push (h : s.Took message blocks) {byte : UInt8} (hfull : (s.push byte).isFull = false) :
    (s.push byte).Took (message ++ [byte]) blocks where
  whole := h.whole
  message_eq := by
    have hlt := h.waiting_lt
    have hle := s.algorithm.blockSize_le
    rw [tail_push (by omega), h.message_eq, List.append_assoc]
  waiting_lt := by
    have hlt := h.waiting_lt
    have hne : s.waiting + 1 ≠ s.algorithm.blockSize := of_decide_eq_false hfull
    show s.waiting + 1 < s.algorithm.blockSize
    omega

/-- The byte that fills it completes the block that is flushed. -/
theorem Took.block_push (h : s.Took message blocks) {byte : UInt8}
    (hfull : (s.push byte).isFull = true) : (s.push byte).block none = s.tail ++ [byte] := by
  have hlt := h.waiting_lt
  have hle := s.algorithm.blockSize_le
  have heq : s.waiting + 1 = s.algorithm.blockSize := of_decide_eq_true hfull
  have htail := tail_push (show s.waiting < 128 by omega) byte
  rw [← htail]
  show _ = (s.push byte).buffer.toList.take (s.waiting + 1)
  rw [heq]
  rfl

/-- After its flush, whatever that does to the operation and the chain, nothing waits. -/
theorem Took.flushed (h : s.Took message blocks) {byte : UInt8} {s' : HashStream}
    (hfull : (s.push byte).isFull = true) (halgorithm : s'.algorithm = s.algorithm)
    (hwaiting : s'.waiting = 0) :
    s'.Took (message ++ [byte]) (blocks ++ [(s.push byte).block none]) where
  whole block hblock := by
    rw [halgorithm]
    rcases List.mem_append.1 hblock with hblock | hblock
    · exact h.whole block hblock
    · rw [List.mem_singleton.1 hblock, length_block]
      rfl
  message_eq := by
    rw [List.flatten_append, List.flatten_singleton, h.block_push hfull, h.message_eq]
    simp [tail, hwaiting]
  waiting_lt := by
    rw [hwaiting]
    exact s'.algorithm.blockSize_pos

theorem took_nil (h : s.waiting = 0) : s.Took [] [] where
  whole := by simp
  message_eq := by simp [tail, h]
  waiting_lt := by
    rw [h]
    exact s.algorithm.blockSize_pos

/-- Only the algorithm and the buffer count. -/
theorem Took.congr {s' : HashStream} (h : s.Took message blocks)
    (halgorithm : s'.algorithm = s.algorithm) (hbuffer : s'.buffer = s.buffer)
    (hwaiting : s'.waiting = s.waiting) : s'.Took message blocks where
  whole := halgorithm ▸ h.whole
  message_eq := by rw [tail, hbuffer, hwaiting]; exact h.message_eq
  waiting_lt := by rw [halgorithm, hwaiting]; exact h.waiting_lt

theorem Took.length_tail (h : s.Took message blocks) : s.tail.length = s.waiting := by
  have hlt := h.waiting_lt
  have hle := s.algorithm.blockSize_le
  exact HashStream.length_tail (by omega)

/-- No block was flushed yet while the message is shorter than one. -/
theorem Took.eq_nil_iff (h : s.Took message blocks) :
    blocks = [] ↔ message.length < s.algorithm.blockSize := by
  have hlt := h.waiting_lt
  have hlength := length_flatten_blocks h.whole
  rw [h.message_eq, List.length_append, hlength, h.length_tail]
  cases blocks with
  | nil => simpa using hlt
  | cons block rest =>
    have hle : s.algorithm.blockSize ≤ s.algorithm.blockSize * (block :: rest).length :=
      Nat.le_mul_of_pos_right _ (Nat.succ_pos rest.length)
    simp only [reduceCtorEq, false_iff]
    omega

/-! ## The end of the message -/

theorem getElem_clearTail (s : HashStream) {i : Nat} (hi : i < 128) :
    s.clearTail.buffer[i] =
      if s.waiting ≤ i ∧ i < s.algorithm.blockSize then 0 else s.buffer[i] := by
  simp only [clearTail]
  rw [Vector.getElem_ofFn]
  rfl

theorem getElem_putNarrowLength (s : HashStream) (bits : BitVec 128) {i : Nat} (hi : i < 128) :
    (s.putNarrowLength bits).buffer[i] =
      let start := s.algorithm.blockSize - s.algorithm.lengthBytes
      if start ≤ i ∧ i < s.algorithm.blockSize then
        ((bytes64 (lengthLanes bits).2)[i - start]?).getD 0
      else s.buffer[i] := by
  simp only [putNarrowLength]
  rw [Vector.getElem_ofFn]
  rfl

/-- **The byte that ends the message**, with zeros behind it, fills the tail's block. -/
theorem block_terminate (h : s.waiting < s.algorithm.blockSize) :
    s.terminate.block none = s.algorithm.terminated s.tail := by
  have hle := s.algorithm.blockSize_le
  have hbuffer : s.terminate.buffer = s.clearTail.buffer.setIfInBounds s.waiting 0x80 := by
    rw [terminate, if_pos h]
    simp only [push, clearTail]
  have htail : s.tail.length = s.waiting := length_tail (by omega)
  rw [block, bytesForSoftware, algorithm_terminate]
  refine List.ext_getElem ?_ fun i hi hi' => ?_
  · simp only [Algorithm.terminated, List.length_append, List.length_cons, List.length_take,
      List.length_replicate, Vector.length_toList, htail]
    omega
  · have hin : i < s.algorithm.blockSize := by
      rw [List.length_take] at hi
      omega
    have hcell : s.terminate.buffer[i] = if s.waiting = i then 0x80 else s.clearTail.buffer[i] := by
      simp only [hbuffer, Vector.getElem_setIfInBounds]
    rw [List.getElem_take, Vector.getElem_toList, hcell, getElem_clearTail]
    simp only [Algorithm.terminated]
    -- before the end of the message, at it and behind it
    rcases Nat.lt_trichotomy i s.waiting with hbefore | rfl | hbehind
    · rw [if_neg (by omega), if_neg (by omega), List.getElem_append_left (by omega)]
      simp only [tail, List.getElem_take, Vector.getElem_toList]
    · rw [if_pos rfl, List.getElem_append_right (by omega)]
      simp only [htail, Nat.sub_self, List.getElem_cons_zero]
    · obtain ⟨k, hk⟩ : ∃ k, i - s.tail.length = k + 1 := ⟨i - s.tail.length - 1, by omega⟩
      rw [if_neg (by omega), if_pos ⟨by omega, hin⟩, List.getElem_append_right (by omega)]
      simp only [hk, List.getElem_cons_succ, List.getElem_replicate]

theorem waiting_terminate (s : HashStream) : s.terminate.waiting = s.waiting + 1 := by
  unfold terminate
  split
  · simp only [push, clearTail]
  · rfl

theorem block_clearBuffer (s : HashStream) :
    s.clearBuffer.block none = List.replicate s.algorithm.blockSize 0 := by
  have hle := s.algorithm.blockSize_le
  show (Vector.replicate 128 (0 : UInt8)).toList.take s.algorithm.blockSize = _
  rw [Vector.toList_replicate, List.take_replicate, Nat.min_eq_left hle]

/-- The counted length, in bits, is what the length field is to hold of the message's length. -/
theorem ofNat_bits (algorithm : Algorithm) (length : Nat) :
    ofNat algorithm.lengthBytes (BitVec.ofNat 128 length * 8).toNat =
      ofNat algorithm.lengthBytes (8 * length) := by
  refine ofNat_congr ?_
  rw [BitVec.toNat_mul, BitVec.toNat_ofNat]
  cases algorithm <;> simp [Algorithm.lengthBytes, Algorithm.isWide] <;> omega

/-- What a block becomes by the length of the message, in bytes. -/
theorem closed_block (s : HashStream) (length : Nat) :
    s.algorithm.closed (s.block none) length =
      s.buffer.toList.take (s.algorithm.blockSize - s.algorithm.lengthBytes) ++
        ofNat s.algorithm.lengthBytes (8 * length) := by
  rw [Algorithm.closed, block, bytesForSoftware, List.take_take,
    Nat.min_eq_left (Nat.sub_le _ _)]

/-- **A wide block is closed by its last two lanes.** -/
theorem block_some (hwide : s.algorithm.isWide = true) (length : Nat) :
    s.block (some (BitVec.ofNat 128 length * 8)) = s.algorithm.closed (s.block none) length := by
  have hfield := ofNat_bits s.algorithm length
  have hsize : s.algorithm.blockSize = 128 ∧ s.algorithm.lengthBytes = 16 := by
    simp [Algorithm.blockSize, Algorithm.lengthBytes, hwide]
  rw [closed_block, block, bytesForSoftware_some, ← hfield, hsize.1, hsize.2]
  refine List.take_of_length_le ?_
  rw [List.length_append, List.length_take, length_ofNat]
  omega

/-- **A narrow block is closed in the buffer.** -/
theorem block_putNarrowLength (hnarrow : s.algorithm.isWide = false) (length : Nat) :
    (s.putNarrowLength (BitVec.ofNat 128 length * 8)).block none =
      s.algorithm.closed (s.block none) length := by
  have hfield := ofNat_bits s.algorithm length
  have hsize : s.algorithm.blockSize = 64 ∧ s.algorithm.lengthBytes = 8 := by
    simp [Algorithm.blockSize, Algorithm.lengthBytes, hnarrow]
  have hcell := fun i hi => getElem_putNarrowLength s (BitVec.ofNat 128 length * 8) (i := i) hi
  have hbytes := (bytes64_lengthLanes (BitVec.ofNat 128 length * 8)).2
  rw [hsize.2] at hfield
  rw [hbytes, hfield] at hcell
  rw [closed_block, block, bytesForSoftware, algorithm_putNarrowLength, hsize.1, hsize.2]
  simp only [hsize.1, hsize.2] at hcell
  have hlength := length_ofNat 8 (8 * length)
  have hmessage : (s.buffer.toList.take (64 - 8)).length = 56 := by
    rw [List.length_take, Vector.length_toList]
    decide
  refine List.ext_getElem ?_ fun i hi hi' => ?_
  · simp [hlength]
  · rw [List.getElem_take, Vector.getElem_toList, hcell]
    by_cases hfirst : i < 56
    · rw [if_neg (by omega), List.getElem_append_left (by omega), List.getElem_take,
        Vector.getElem_toList]
    · have hin : i - 56 < (ofNat 8 (8 * length)).length := by
        rw [List.length_append] at hi'
        omega
      rw [if_pos ⟨by omega, by omega⟩, List.getElem_append_right (by omega),
        List.getElem?_eq_getElem hin, Option.getD_some]
      simp only [hmessage]

end HashStream

end HashAccelerator
