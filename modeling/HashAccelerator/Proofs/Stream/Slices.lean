import HashAccelerator.Proofs.Hash.Compression
import HashAccelerator.Stream.Message
/-!
# A message by slices

A stream takes in its message byte by byte. It might as well copy slices, each as long as the buffer
has room for and the message has bytes, and look at the buffer after each slice only. The two loops
are one action (`HashStream.absorbBytes_eq_absorbSlices`): a slice that does not fill the block is so
many pushes (`absorbBytes_fill_of_lt`), and one that fills it ends in the flush that its last byte
brings about (`absorbBytes_fill_of_eq`).
-/

namespace HashAccelerator

variable {ρ κ μ : Type} [RegisterBlock ρ] [GatedClock κ] [EngineMutex μ]

namespace HashStream

variable {s : HashStream}

/-! ## Slices of the buffer -/

/-- A buffer with a slice laid over it, if the slice has room there. -/
def overwrite (buffer : Vector UInt8 128) (start : Nat) (slice : List UInt8) : Vector UInt8 128 :=
  if start + slice.length ≤ 128 then
    .ofFn fun i => if start ≤ i.val ∧ i.val < start + slice.length
      then (slice[i.val - start]?).getD 0 else buffer.get i
  else buffer

theorem overwrite_nil (buffer : Vector UInt8 128) (start : Nat) :
    overwrite buffer start [] = buffer := by
  unfold overwrite
  split
  · ext i hi
    have hnone : ¬ (start ≤ i ∧ i < start + ([] : List UInt8).length) := by
      rw [List.length_nil]
      omega
    rw [Vector.getElem_ofFn, if_neg hnone]
    rfl
  · rfl

/-- The first byte of a slice may be put down by itself. -/
theorem overwrite_setIfInBounds (buffer : Vector UInt8 128) {start : Nat} (byte : UInt8)
    (rest : List UInt8) (h : start + rest.length < 128) :
    overwrite (buffer.setIfInBounds start byte) (start + 1) rest =
      overwrite buffer start (byte :: rest) := by
  unfold overwrite
  rw [List.length_cons, if_pos (by omega), if_pos (by omega)]
  ext i hi
  rw [Vector.getElem_ofFn, Vector.getElem_ofFn]
  have hget : ∀ bytes : Vector UInt8 128, bytes.get ⟨i, hi⟩ = bytes[i] := fun _ => rfl
  simp only [hget]
  -- before the slice, at its first byte, and behind that
  rcases Nat.lt_trichotomy i start with hlt | rfl | hgt
  · rw [if_neg (by omega), if_neg (by omega), Vector.getElem_setIfInBounds_ne _ (by omega)]
  · rw [if_neg (by omega), if_pos (by omega), Vector.getElem_setIfInBounds_self]
    simp
  · have hsub : i - start = (i - (start + 1)) + 1 := by omega
    by_cases hin : i < start + 1 + rest.length
    · rw [if_pos (by omega), if_pos (by omega), hsub, List.getElem?_cons_succ]
    · rw [if_neg (by omega), if_neg (by omega), Vector.getElem_setIfInBounds_ne _ (by omega)]

/-- A slice more in the buffer. -/
def fill (s : HashStream) (slice : List UInt8) : HashStream :=
  { s with
    buffer := overwrite s.buffer s.waiting slice
    waiting := s.waiting + slice.length }

theorem fill_nil (s : HashStream) : s.fill [] = s := by
  rw [fill, overwrite_nil]
  rfl

theorem fill_push (byte : UInt8) (rest : List UInt8) (h : s.waiting + rest.length < 128) :
    (s.push byte).fill rest = s.fill (byte :: rest) := by
  have hwaiting : s.waiting + 1 + rest.length = s.waiting + (rest.length + 1) := by omega
  have hbuffer := overwrite_setIfInBounds s.buffer byte rest h
  unfold fill push
  rw [hbuffer, hwaiting]
  rfl

/-! ## One byte of the message -/

theorem absorbBytes_of_open {byte : UInt8} (rest : List UInt8)
    (h : (s.push byte).isFull = false) :
    (s.absorbBytes (byte :: rest) : EngineM ρ κ μ _) = (s.push byte).absorbBytes rest := by
  rw [absorbBytes, h]
  rfl

theorem absorbBytes_of_isFull {byte : UInt8} (rest : List UInt8)
    (h : (s.push byte).isFull = true) :
    (s.absorbBytes (byte :: rest) : EngineM ρ κ μ _) = do
      match ← (s.push byte).flush none with
      | (.ok (), flushed) => absorbBytes { flushed with waiting := 0 } rest
      | (.error fault, flushed) => return (.error fault, flushed) := by
  rw [absorbBytes, h]
  rfl

/-! ## One slice of the message -/

/-- A slice that leaves the block open is no more than its bytes. -/
theorem absorbBytes_fill_of_lt (slice rest : List UInt8)
    (h : s.waiting + slice.length < s.algorithm.blockSize) :
    (s.absorbBytes (slice ++ rest) : EngineM ρ κ μ _) = (s.fill slice).absorbBytes rest := by
  induction slice generalizing s with
  | nil => rw [fill_nil, List.nil_append]
  | cons byte slice ih =>
    have hle := s.algorithm.blockSize_le
    rw [List.length_cons] at h
    have hopen : (s.push byte).isFull = false := by
      simp only [isFull, push, algorithm, beq_eq_false_iff_ne] at h ⊢
      omega
    have hpushed : (s.push byte).waiting + slice.length < (s.push byte).algorithm.blockSize := by
      simp only [push, algorithm] at h ⊢
      omega
    rw [List.cons_append, absorbBytes_of_open _ hopen, ← fill_push byte slice (by omega)]
    exact ih hpushed

/-- A slice that fills the block is flushed with it. -/
theorem absorbBytes_fill_of_eq (slice rest : List UInt8) (hsome : slice ≠ [])
    (h : s.waiting + slice.length = s.algorithm.blockSize) :
    (s.absorbBytes (slice ++ rest) : EngineM ρ κ μ _) = do
      match ← (s.fill slice).flush none with
      | (.ok (), flushed) => absorbBytes { flushed with waiting := 0 } rest
      | (.error fault, flushed) => return (.error fault, flushed) := by
  have hle := s.algorithm.blockSize_le
  induction slice generalizing s with
  | nil => exact absurd rfl hsome
  | cons byte slice ih =>
    rw [List.length_cons] at h
    rw [← fill_push byte slice (by omega), List.cons_append]
    cases slice with
    | nil =>
      have hfull : (s.push byte).isFull = true := by
        simp only [isFull, push, algorithm, beq_iff_eq, List.length_nil] at h ⊢
        omega
      rw [absorbBytes_of_isFull _ hfull, fill_nil]
      rfl
    | cons next slice =>
      have hopen : (s.push byte).isFull = false := by
        simp only [isFull, push, algorithm, beq_eq_false_iff_ne, List.length_cons] at h ⊢
        omega
      have hpushed : (s.push byte).waiting + (next :: slice).length =
          (s.push byte).algorithm.blockSize := by
        simp only [push, algorithm] at h ⊢
        omega
      rw [absorbBytes_of_open _ hopen]
      exact ih (List.cons_ne_nil _ _) hpushed hle

/-! ## The loop -/

/-- Takes in bytes slice by slice: copies as many as the block has room for, and flushes it when it
is full. Room there always is, so that every slice shortens the message. -/
def absorbSlices (s : HashStream) (hroom : s.waiting < s.algorithm.blockSize)
    (bytes : List UInt8) : EngineM ρ κ μ (Except Fault Unit × HashStream) :=
  if hdone : bytes = [] then return (.ok (), s)
  else
    let room := s.algorithm.blockSize - s.waiting
    let filled := s.fill (bytes.take room)
    if hfull : filled.isFull then do
      match ← filled.flush none with
      | (.ok (), flushed) =>
        absorbSlices { flushed with waiting := 0 } flushed.algorithm.blockSize_pos (bytes.drop room)
      | (.error fault, flushed) => return (.error fault, flushed)
    else
      have hopen : filled.waiting < filled.algorithm.blockSize := by
        have hlength : (bytes.take room).length ≤ room := List.length_take_le _ _
        simp only [isFull, filled, fill, algorithm, room, beq_iff_eq] at *
        omega
      absorbSlices filled hopen (bytes.drop room)
termination_by bytes.length
decreasing_by
  all_goals
    have hpos := List.length_pos_iff.2 hdone
    rw [List.length_drop]
    omega

/-- **Slice by slice is byte by byte.** -/
theorem absorbBytes_eq_absorbSlices (hroom : s.waiting < s.algorithm.blockSize)
    (bytes : List UInt8) :
    (s.absorbBytes bytes : EngineM ρ κ μ _) = s.absorbSlices hroom bytes := by
  -- on the length of what is left, which every slice shortens
  induction hlength : bytes.length using Nat.strongRecOn generalizing s bytes with
  | ind length ih =>
    rw [absorbSlices]
    by_cases hdone : bytes = []
    · rw [dif_pos hdone, hdone]
      rfl
    rw [dif_neg hdone]
    dsimp only
    have hpos := List.length_pos_iff.2 hdone
    have hcut := List.take_append_drop (s.algorithm.blockSize - s.waiting) bytes
    have hslice := List.length_take (i := s.algorithm.blockSize - s.waiting) (l := bytes)
    have hrest : (bytes.drop (s.algorithm.blockSize - s.waiting)).length < length := by
      rw [List.length_drop]
      omega
    by_cases hfull : (s.fill (bytes.take (s.algorithm.blockSize - s.waiting))).isFull = true
    · have hfills : s.waiting + (bytes.take (s.algorithm.blockSize - s.waiting)).length =
          s.algorithm.blockSize := by simpa [isFull, fill, algorithm] using hfull
      have hsome : bytes.take (s.algorithm.blockSize - s.waiting) ≠ [] :=
        List.ne_nil_of_length_pos (by omega)
      rw [dif_pos hfull]
      conv => lhs; rw [← hcut]
      rw [absorbBytes_fill_of_eq _ _ hsome hfills]
      refine bind_congr fun r => ?_
      obtain ⟨outcome, flushed⟩ := r
      cases outcome with
      | error fault => rfl
      | ok => exact ih _ hrest _ _ rfl
    · have hfits : s.waiting + (bytes.take (s.algorithm.blockSize - s.waiting)).length <
          s.algorithm.blockSize := by
        simp only [isFull, fill, algorithm, beq_iff_eq] at hfull
        simp only [algorithm] at hslice hroom ⊢
        omega
      rw [dif_neg hfull]
      conv => lhs; rw [← hcut]
      rw [absorbBytes_fill_of_lt _ _ hfits]
      exact ih _ hrest _ _ rfl

end HashStream

end HashAccelerator
