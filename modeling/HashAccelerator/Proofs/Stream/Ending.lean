import HashAccelerator.Platform.Clock
import HashAccelerator.Platform.Memory
import HashAccelerator.Platform.Mutex
import HashAccelerator.Proofs.Engine.Answers
import HashAccelerator.Proofs.Stream.Buffer
import HashAccelerator.Stream.Message
/-!
# How a message ends

A stream ends its message in its buffer, and each path has the length put there in its own way: over
lanes that are read with the halves exchanged, over lanes as they are, or over the last two words of
a narrow block. None of it shows in the blocks. What `finish` does is to hand the blocks that close the
message (`Algorithm.closing`) to whatever path the operation has or is given, and to ask that path for
the digest (`HashStream.finish_eq`); the buffer, the engine's word order and the two ways to write a
length are gone from that account.
-/

namespace HashAccelerator

open BigEndian

variable {ρ κ μ : Type} [RegisterBlock ρ] [GatedClock κ] [EngineMutex μ]

/-! ## Blocks for a path -/

namespace EngineM

/-- Commits an operation to a path if it has none. -/
def commit (a : Operation) : EngineM ρ κ μ (Except Fault Unit × Operation) := do
  if a.mode = .uncommitted then
    let (outcome, a) ← acquire a
    return (outcome.map fun _ => (), a)
  else return (.ok (), a)

/-- Gives a block to the path that an operation has committed to: its words to the engine, or its
bytes to the compression in software, from the chaining value there. -/
def place (a : Operation) (chain : Chain) (block : List UInt8) :
    EngineM ρ κ μ (Except Fault Unit × Operation × Chain) :=
  match a.mode with
  | .hardware _ => do
    let (outcome, a) ← submit a (words32 block)
    return (outcome, a, chain)
  | .software =>
    match chain.compress a.algorithm block with
    | .ok chain => return (.ok (), a, chain)
    | .error fault => return (.error fault, a, chain)
  | .unsettled => return (.error .unsettled, a, chain)
  | .uncommitted => return (.error .alreadyCommitted, a, chain)

/-- Gives a block to the path of an operation, which is committed to one if it has none. -/
def offer (a : Operation) (chain : Chain) (block : List UInt8) :
    EngineM ρ κ μ (Except Fault Unit × Operation × Chain) := do
  match ← commit a with
  | (.ok (), a) => place a chain block
  | (.error fault, a) => return (.error fault, a, chain)

/-- Hands a block over, with a line in the log if that fails. -/
def handOver (a : Operation) (chain : Chain) (block : List UInt8) :
    EngineM ρ κ μ (Except Fault Unit × Operation × Chain) := do
  let (outcome, a, chain) ← offer a chain block
  match outcome with
  | .ok () => return (.ok (), a, chain)
  | .error fault =>
    note (.streamAborted a.algorithm fault)
    return (.error fault, a, chain)

/-- Hands over some blocks up to the first that fails. -/
def handOverAll (a : Operation) (chain : Chain) :
    List (List UInt8) → EngineM ρ κ μ (Except Fault Unit × Operation × Chain)
  | [] => return (.ok (), a, chain)
  | block :: rest => do
    match ← handOver a chain block with
    | (.ok (), a, chain) => handOverAll a chain rest
    | (.error fault, a, chain) => return (.error fault, a, chain)

end EngineM

namespace HashStream

open EngineM

variable {s : HashStream}

/-- The stream after a block was handed over. -/
def handed (s : HashStream) (r : Except Fault Unit × Operation × Chain) :
    Except Fault Unit × HashStream :=
  match r with
  | (.ok (), operation, chain) => (.ok (), { s with operation, chain })
  | (.error fault, operation, chain) =>
    (.error fault, { s with operation, chain, failed := true })

omit [RegisterBlock ρ] in
theorem choosePath_eq (s : HashStream) : s.choosePath =
    (fun r => (r.1, { s with operation := r.2 })) <$> (commit s.operation : EngineM ρ κ μ _) := by
  unfold choosePath commit
  split
  · simp only [map_bind, map_pure]
  · simp only [map_pure]

omit [RegisterBlock ρ] in
theorem always_commit {e : Engine ρ κ μ} (a : Operation) :
    Always (commit a) e fun r _ => r.2.algorithm = a.algorithm := by
  refine Always.ite (fun _ => ?_) fun _ => by simp
  simp only [always_bind, always_pure]
  exact (acquired_acquire a).mono fun _ _ h => h.algorithm_eq

omit [GatedClock κ] [EngineMutex μ] in
theorem always_place {e : Engine ρ κ μ} (a : Operation) (chain : Chain) (block : List UInt8) :
    Always (place a chain block) e fun r _ => r.2.1.algorithm = a.algorithm := by
  unfold place
  cases a.mode with
  | hardware first =>
    simp only [always_bind, always_pure]
    exact (submitted_submit a _ rfl).mono fun _ _ h => h.algorithm_eq
  | software => cases chain.compress a.algorithm block <;> simp
  | unsettled => simp
  | uncommitted => simp

/-- To hand a block over does not change the algorithm. -/
theorem always_handOver {e : Engine ρ κ μ} (a : Operation) (chain : Chain) (block : List UInt8) :
    Always (handOver a chain block) e fun r _ => r.2.1.algorithm = a.algorithm := by
  simp only [handOver, offer, always_bind]
  refine (always_commit a).mono fun r e' halgorithm => ?_
  have hplaced : Always (match r with
      | (.ok (), a) => place a chain block
      | (.error fault, a) => pure (.error fault, a, chain)) e'
      fun r _ => r.2.1.algorithm = a.algorithm := by
    rcases r with ⟨_ | _, a'⟩
    · exact always_pure.2 halgorithm
    · exact (always_place a' chain block).mono fun _ _ h => h.trans halgorithm
  refine hplaced.mono fun r e'' h => ?_
  rcases r with ⟨_ | _, a', chain'⟩
  · simp only [always_bind, always_note, always_pure]
    exact h
  · exact always_pure.2 h

/-- **A flush is its block's way to the path**, and all that it leaves of it is there. -/
theorem flush_eq (s : HashStream) (bits? : Option (BitVec 128)) :
    s.flush bits? =
      s.handed <$> (handOver s.operation s.chain (s.block bits?) : EngineM ρ κ μ _) := by
  unfold flush dispatch handOver offer
  rw [choosePath_eq]
  simp only [bind_map_left, bind_assoc, map_bind]
  refine Always.bind_congr fun e => (always_commit s.operation).mono fun r e' halgorithm => ?_
  obtain ⟨committed, a⟩ := r
  cases committed with
  | error fault => rfl
  | ok =>
    let t : HashStream := { s with operation := a }
    have hblock : t.block bits? = s.block bits? := by
      rw [block, show t.algorithm = s.algorithm from halgorithm]
      rfl
    have hwords : (t.wordsForEngine bits?).take t.algorithm.blockWords = words32 (s.block bits?) := by
      rw [← hblock, ← flatMap_take_wordsForEngine, words32_flatMap_bytes32]
    have hbytes : t.chain.compress t.algorithm (t.bytesForSoftware bits?) =
        s.chain.compress a.algorithm (s.block bits?) := by
      rw [← hblock]
      exact (Chain.compress_take _ _ _).symm
    dsimp only [t] at hwords hbytes ⊢
    unfold place
    rw [hwords, hbytes]
    cases a.mode with
    | hardware first =>
      dsimp only
      simp only [bind_assoc, pure_bind]
      refine congrArg (fun m : EngineM ρ κ μ _ => m.run e') (bind_congr fun r => ?_)
      obtain ⟨outcome, a'⟩ := r
      cases outcome <;> rfl
    | software =>
      dsimp only
      cases s.chain.compress a.algorithm (s.block bits?) <;> rfl
    | unsettled => rfl
    | uncommitted => rfl

/-! ## The last blocks -/

/-- What becomes of a stream after its last flush: the path is asked for the digest, unless a flush has
failed, and what the operation holds is given back. -/
def settleUp (outcome : Except Fault Unit) (s : HashStream) :
    EngineM ρ κ μ (Except Fault (List UInt8)) :=
  match outcome with
  | .ok () => do
    let digest ← s.collect
    (← s.letGo).discard
    return digest
  | .error fault => do
    s.discard
    return .error fault

/-- Ends a message with its last blocks, on the path of an operation. -/
def conclude (a : Operation) (chain : Chain) (blocks : List (List UInt8)) :
    EngineM ρ κ μ (Except Fault (List UInt8)) := do
  let (outcome, operation, chain) ← handOverAll a chain blocks
  settleUp outcome { operation, chain }

omit [RegisterBlock ρ] in
/-- To be discarded a stream needs no more than its operation. -/
theorem discard_congr {t : HashStream} (h : s.operation = t.operation) :
    (s.discard : EngineM ρ κ μ Unit) = t.discard := by
  unfold discard letGo
  rw [h]
  split
  · simp only [bind_assoc, pure_bind]
  · simp only [pure_bind]

/-- After the last flush the buffer is not looked at. -/
theorem settleUp_congr {t : HashStream} (outcome : Except Fault Unit)
    (hoperation : s.operation = t.operation) (hchain : s.chain = t.chain) :
    (settleUp outcome s : EngineM ρ κ μ _) = settleUp outcome t := by
  cases outcome with
  | error fault =>
    unfold settleUp
    rw [discard_congr hoperation]
  | ok =>
    have hcollect : (s.collect : EngineM ρ κ μ _) = t.collect := by
      unfold collect algorithm
      rw [hoperation, hchain]
    unfold settleUp letGo
    rw [hcollect, hoperation]
    refine bind_congr fun digest => ?_
    split
    · simp only [bind_assoc, pure_bind]
      exact bind_congr fun a => by
        rw [discard_congr (s := { s with operation := a }) (t := { t with operation := a }) rfl]
    · simp only [pure_bind]
      rw [discard_congr hoperation]

/-- One block after the other. -/
theorem conclude_cons (a : Operation) (chain : Chain) (block : List UInt8)
    (rest : List (List UInt8)) : (conclude a chain (block :: rest) : EngineM ρ κ μ _) =
      handOver a chain block >>= fun r =>
        match r.1 with
        | .ok () => conclude r.2.1 r.2.2 rest
        | .error fault => settleUp (.error fault) { operation := r.2.1, chain := r.2.2 } := by
  rw [conclude, handOverAll, bind_assoc]
  refine bind_congr fun r => ?_
  obtain ⟨outcome, a, chain⟩ := r
  cases outcome <;> rfl

theorem conclude_singleton (a : Operation) (chain : Chain) (block : List UInt8) :
    (conclude a chain [block] : EngineM ρ κ μ _) = handOver a chain block >>= fun r =>
      settleUp r.1 { operation := r.2.1, chain := r.2.2 } := by
  rw [conclude_cons]
  refine bind_congr fun r => ?_
  obtain ⟨outcome, a, chain⟩ := r
  cases outcome <;> rfl

/-- A flush at the end of a message. -/
theorem flush_settleUp (s : HashStream) (bits? : Option (BitVec 128)) :
    (s.flush bits? >>= fun r => settleUp r.1 r.2 : EngineM ρ κ μ _) =
      handOver s.operation s.chain (s.block bits?) >>= fun r =>
        settleUp r.1 { operation := r.2.1, chain := r.2.2 } := by
  rw [flush_eq, bind_map_left]
  refine bind_congr fun r => ?_
  obtain ⟨outcome, a, chain⟩ := r
  cases outcome <;> exact settleUp_congr _ rfl rfl

/-- **The last block carries the length**, on either path and in either width. -/
theorem closeMessage_settleUp (s : HashStream) (length : BitVec 128) :
    (s.closeMessage (length * 8) >>= fun r => settleUp r.1 r.2 : EngineM ρ κ μ _) =
      conclude s.operation s.chain [s.algorithm.closed (s.block none) length.toNat] := by
  have hlength : length = BitVec.ofNat 128 length.toNat := by simp
  unfold closeMessage
  rw [conclude_singleton]
  -- a wide length is put among the words of the flush, a narrow one into the buffer
  split
  · next hwide =>
    rw [flush_settleUp, ← block_some hwide, ← hlength]
  · next hnarrow =>
    rw [Bool.not_eq_true] at hnarrow
    rw [flush_settleUp, ← block_putNarrowLength hnarrow, ← hlength, operation_putNarrowLength,
      chain_putNarrowLength]

/-- **The end of a message is its last blocks.** -/
theorem finish_eq (hsound : s.failed = false) (hwaiting : s.waiting < s.algorithm.blockSize) :
    s.finish = (conclude s.operation s.chain (s.algorithm.closing s.tail s.length.toNat) :
      EngineM ρ κ μ _) := by
  have hroom := s.algorithm.lengthBytes_lt_blockSize
  have hle := s.algorithm.blockSize_le
  have htail : s.tail.length = s.waiting := length_tail (by omega)
  have hcomplete : s.finish = (s.terminate.makeRoom >>= fun r =>
      match r.1 with
      | .ok () => r.2.closeMessage (s.length * 8) >>= fun r => settleUp r.1 r.2
      | .error fault => settleUp (.error fault) r.2 : EngineM ρ κ μ _) := by
    unfold finish complete
    rw [if_neg (by simp [hsound])]
    simp only [bind_assoc]
    refine bind_congr fun r => ?_
    obtain ⟨outcome, roomy⟩ := r
    cases outcome with
    | error fault => rfl
    | ok =>
      simp only [bind_assoc]
      refine bind_congr fun r => ?_
      obtain ⟨outcome, closed⟩ := r
      cases outcome with
      | error fault => rfl
      | ok => simp only [settleUp, bind_assoc, pure_bind]
  rw [hcomplete]
  unfold makeRoom Algorithm.closing
  rw [algorithm_terminate, waiting_terminate, htail]
  by_cases hfits : s.waiting + 1 + s.algorithm.lengthBytes ≤ s.algorithm.blockSize
  · -- the terminated block is the last
    rw [if_pos hfits, if_neg (by omega), pure_bind]
    dsimp only
    rw [closeMessage_settleUp, operation_terminate, chain_terminate, algorithm_terminate,
      block_terminate hwaiting]
  · -- no room for the length: the terminated block goes first, and an empty one follows
    rw [if_neg hfits, if_pos (by omega), flush_eq, bind_map_left, bind_assoc, operation_terminate,
      chain_terminate, block_terminate hwaiting, conclude_cons]
    refine Always.bind_congr fun e => (always_handOver _ _ _).mono fun r e' halgorithm => ?_
    obtain ⟨outcome, a, chain⟩ := r
    cases outcome with
    | error fault =>
      simp only [handed, pure_bind]
      exact congrArg (fun m : EngineM ρ κ μ _ => m.run e') (settleUp_congr _ rfl rfl)
    | ok =>
      have hsame : HashStream.algorithm { s.terminate with operation := a, chain } = s.algorithm :=
        halgorithm
      simp only [handed, pure_bind]
      rw [closeMessage_settleUp, operation_clearBuffer, chain_clearBuffer, algorithm_clearBuffer,
        block_clearBuffer, hsame]

/-! ## The length in the last block -/

/-- What stands of a message's length, in bytes, in its last block: the bits, as far as the field goes. -/
def lengthField (algorithm : Algorithm) (length : Nat) : List UInt8 :=
  if algorithm.isWide then ofNat 16 (8 * length % 2 ^ 128) else ofNat 8 (8 * length % 2 ^ 64)

theorem ofNat_lengthBytes (algorithm : Algorithm) (length : Nat) :
    ofNat algorithm.lengthBytes (8 * length) = lengthField algorithm length := by
  unfold lengthField Algorithm.lengthBytes
  split
  · exact ofNat_congr (Nat.mod_mod _ _).symm
  · exact ofNat_congr (Nat.mod_mod _ _).symm

/-- The length is the end of the blocks that close a message. -/
theorem closing_eq (algorithm : Algorithm) {tail : List UInt8} (length : Nat)
    (htail : tail.length < algorithm.blockSize) : ∃ before front,
      (front ++ lengthField algorithm length).length = algorithm.blockSize ∧
      algorithm.closing tail length = before ++ [front ++ lengthField algorithm length] := by
  have hclosed : ∀ block : List UInt8, block.length = algorithm.blockSize → ∃ front,
      (front ++ lengthField algorithm length).length = algorithm.blockSize ∧
      algorithm.closed block length = front ++ lengthField algorithm length := by
    intro block hblock
    have hlength := Algorithm.length_closed hblock length
    rw [Algorithm.closed, ofNat_lengthBytes] at hlength ⊢
    exact ⟨_, hlength, rfl⟩
  unfold Algorithm.closing
  split
  · obtain ⟨front, hlength, hfront⟩ := hclosed _ (Algorithm.length_terminated htail)
    exact ⟨[], front, hlength, by rw [hfront]; rfl⟩
  · obtain ⟨front, hlength, hfront⟩ := hclosed _ List.length_replicate
    exact ⟨[algorithm.terminated tail], front, hlength, by rw [hfront]; rfl⟩

/-- **The two ways to write a length make the same last block.** Whatever is in the buffer, the words for
the engine are, big-endian, the bytes for the software path: the buffer as it is, or its first 112 bytes
and the 128 bits of the length. So the end of a stream hands over the same blocks on every path that the
operation may have taken, and the last of them ends with the number of bits that were counted, modulo
two to the 128 for a wide algorithm and two to the 64 for a narrow one. -/
theorem closes_alike (s : HashStream) :
    (∀ bits, (s.wordsForEngine (some bits)).flatMap bytes32 = s.bytesForSoftware (some bits) ∧
      s.bytesForSoftware (some bits) = s.buffer.toList.take 112 ++ ofNat 16 bits.toNat) ∧
    (s.wordsForEngine none).flatMap bytes32 = s.buffer.toList ∧
    (s.failed = false → s.waiting < s.algorithm.blockSize → ∃ before front,
      (front ++ lengthField s.algorithm s.length.toNat).length = s.algorithm.blockSize ∧
      ∀ a chain, a.algorithm = s.algorithm → finish { s with operation := a, chain } =
        (conclude a chain (before ++ [front ++ lengthField s.algorithm s.length.toNat]) :
          EngineM ρ κ μ _)) := by
  refine ⟨fun bits => ⟨s.flatMap_wordsForEngine _, s.bytesForSoftware_some bits⟩,
    s.flatMap_wordsForEngine none, fun hsound hwaiting => ?_⟩
  obtain ⟨before, front, hlength, hclosing⟩ :=
    closing_eq s.algorithm s.length.toNat (length_tail_lt hwaiting)
  refine ⟨before, front, hlength, fun a chain halgorithm => ?_⟩
  have hsame : algorithm { s with operation := a, chain } = s.algorithm := halgorithm
  have hfinish := finish_eq (ρ := ρ) (κ := κ) (μ := μ) (s := { s with operation := a, chain })
    hsound (by rw [hsame]; exact hwaiting)
  rw [hfinish, hsame, ← hclosing]
  rfl

/-- A count whose bits wrap: the last block of an otherwise empty message ends with what is left of them,
on the engine and in software. -/
theorem exists_wrapped_length : ∃ (s : HashStream) (before : List (List UInt8)) (front : List UInt8),
    s.length = BitVec.allOnes 128 ∧ s.failed = false ∧ s.waiting < s.algorithm.blockSize ∧
    ∀ a ∈ [Operation.fresh .sha512, .softwareOnly .sha512], finish { s with operation := a } =
      (conclude a s.chain (before ++ [front ++ ofNat 16 (2 ^ 128 - 8)]) :
        EngineM MappedMemory CountedClock CountedMutex _) := by
  let s : HashStream := { ofOperation (.fresh .sha512) with length := BitVec.allOnes 128 }
  obtain ⟨-, -, hcloses⟩ := closes_alike (ρ := MappedMemory) (κ := CountedClock)
    (μ := CountedMutex) s
  obtain ⟨before, front, -, hfinish⟩ := hcloses rfl (by decide)
  have hbits : 8 * (BitVec.allOnes 128).toNat % 2 ^ 128 = 2 ^ 128 - 8 := by
    rw [BitVec.toNat_allOnes]
    decide
  have hfield : lengthField s.algorithm s.length.toNat = ofNat 16 (2 ^ 128 - 8) :=
    congrArg (ofNat 16) hbits
  rw [hfield] at hfinish
  refine ⟨s, before, front, rfl, rfl, by decide, fun a ha => ?_⟩
  have halgorithm : a.algorithm = s.algorithm := by
    rcases List.mem_cons.1 ha with rfl | ha
    · rfl
    · rw [List.mem_singleton.1 ha]
      rfl
  exact hfinish a s.chain halgorithm

end HashStream

end HashAccelerator
