import HashAccelerator.Proofs.Stream.Ending
import HashAccelerator.Proofs.Stream.Kept
/-!
# How a stream takes in its message

A stream hands its message to its path in whole blocks, and knows of the path only what its operation
and its chaining value tell. So an account of the path in terms of the blocks so far, which the calls
of the operation and a compression in software carry on (`Intake`), is carried on by every block that is
handed over (`Intake.handOver`), and so by every call on the stream, in terms of its message
(`HashStream.Fed`); and after a message has ended the path has been handed the blocks of the padded
message (`Intake.finish`).

What may go wrong is accounted for in the same way: a fault of the path is the only one that a stream
meets before it has failed.
-/

namespace HashAccelerator

open EngineM

variable {ρ κ μ : Type} {e : Engine ρ κ μ} {s : HashStream}

/-- What a path has of some blocks, and what is true when it fails. -/
structure Intake [RegisterBlock ρ] [GatedClock κ] [EngineMutex μ]
    (P : Operation → Chain → List (List UInt8) → Engine ρ κ μ → Prop)
    (Q : Operation → Fault → Engine ρ κ μ → Prop) : Prop where
  note : ∀ {a fault e n}, Q a fault e → Q a fault { e with notices := n :: e.notices }
  settled : ∀ {a chain blocks e}, P a chain blocks e → a.mode ≠ .unsettled
  acquire : ∀ {a chain blocks e}, P a chain blocks e → a.mode = .uncommitted →
    Always (EngineM.acquire a) e fun r e' => P r.2 chain blocks e'
  submit : ∀ {a chain blocks e words}, P a chain blocks e → a.isOnEngine = true →
    words.length = a.algorithm.blockWords → Always (EngineM.submit a words) e fun r e' =>
      match r.1 with
      | .ok () => P r.2 chain (blocks ++ [words.flatMap BigEndian.bytes32]) e'
      | .error fault => Q r.2 fault e'
  compress : ∀ {a chain blocks e block}, P a chain blocks e → a.mode = .software →
    block.length = a.algorithm.blockSize →
      ∃ next, chain.compress a.algorithm block = .ok next ∧ P a next (blocks ++ [block]) e

/-- A stream that has not failed, with its message so far on its path and in its buffer. -/
structure HashStream.Fed (P : Operation → Chain → List (List UInt8) → Engine ρ κ μ → Prop)
    (s : HashStream) (message : List UInt8) (e : Engine ρ κ μ) : Prop where
  sound : s.failed = false
  length_eq : s.length = BitVec.ofNat 128 message.length
  taken : ∃ blocks, s.Took message blocks ∧ P s.operation s.chain blocks e

/-- One account of the path makes for another, now or later. -/
theorem HashStream.Fed.imp {P P' : Operation → Chain → List (List UInt8) → Engine ρ κ μ → Prop}
    {e' : Engine ρ κ μ} {message : List UInt8} (h : s.Fed P message e)
    (himp : ∀ blocks, P s.operation s.chain blocks e → P' s.operation s.chain blocks e') :
    s.Fed P' message e' := by
  obtain ⟨blocks, htook, hpath⟩ := h.taken
  exact ⟨h.sound, h.length_eq, blocks, htook, himp blocks hpath⟩

/-- A stream of an operation begins with nothing on its path. -/
theorem HashStream.fed_ofOperation {P : Operation → Chain → List (List UInt8) → Engine ρ κ μ → Prop}
    {a : Operation} (h : P a (.initial a.algorithm) [] e) : (ofOperation a).Fed P [] e :=
  ⟨rfl, rfl, [], took_nil rfl, h⟩

namespace EngineM

variable {a a' : Operation}

theorem Competed.committed {path : Path} (h : Competed a path a') :
    a'.isOnEngine = true ∨ a'.mode = .software := by
  cases h with
  | won => exact Or.inl rfl
  | lost => exact Or.inr rfl

/-- An operation without a path is given one, whatever the platform answers. -/
theorem Acquired.of_uncommitted {outcome : Except Fault Path} (h : Acquired a outcome a')
    (hmode : a.mode = .uncommitted) : ∃ path, outcome = .ok path ∧ Competed a path a' := by
  cases h with
  | refused hon => simp [Operation.isOnEngine, hmode] at hon
  | settled hmode' _ => simp [hmode] at hmode'
  | chosen _ hcompeted => exact ⟨_, rfl, hcompeted⟩

end EngineM

variable [RegisterBlock ρ] [GatedClock κ] [EngineMutex μ]

/-! ## Before the first block -/

/-- While a message is shorter than a block it waits in the buffer, and nobody is asked for anything. -/
theorem HashStream.Took.absorbBytes_short {message bytes : List UInt8} {blocks : List (List UInt8)}
    (h : s.Took message blocks) (hshort : (message ++ bytes).length < s.algorithm.blockSize) :
    ∃ s', s.absorbBytes bytes = (pure (.ok (), s') : EngineM ρ κ μ _) ∧
      s'.operation = s.operation ∧ s'.chain = s.chain ∧ s'.failed = s.failed ∧
      s'.length = s.length ∧ s'.Took (message ++ bytes) blocks := by
  induction bytes generalizing s message with
  | nil => exact ⟨s, rfl, rfl, rfl, rfl, rfl, by simpa using h⟩
  | cons byte rest ih =>
    have hwaiting : s.waiting ≤ message.length := by
      rw [h.message_eq, List.length_append, h.length_tail]
      omega
    have hopen : (s.push byte).isFull = false := by
      simp only [List.length_append, List.length_cons] at hshort
      exact beq_false_of_ne (show s.waiting + 1 ≠ s.algorithm.blockSize by omega)
    have hmessage : message ++ byte :: rest = message ++ [byte] ++ rest := by
      rw [List.append_assoc, List.singleton_append]
    rw [hmessage] at hshort ⊢
    obtain ⟨s', hrun, hsame⟩ := ih (h.push hopen) hshort
    exact ⟨s', by rw [absorbBytes, hopen]; exact hrun, hsame⟩

theorem HashStream.Took.absorb_short {message bytes : List UInt8} {blocks : List (List UInt8)}
    (h : s.Took message blocks) (hsound : s.failed = false)
    (hshort : (message ++ bytes).length < s.algorithm.blockSize) :
    ∃ s', s.absorb bytes = (pure (.ok (), s') : EngineM ρ κ μ _) ∧ s'.operation = s.operation ∧
      s'.chain = s.chain ∧ s'.failed = false ∧
      s'.length = s.length + BitVec.ofNat 128 bytes.length ∧ s'.Took (message ++ bytes) blocks := by
  have hcounted : Took { s with length := s.length + BitVec.ofNat 128 bytes.length } message blocks :=
    h.congr rfl rfl rfl
  obtain ⟨s', hrun, hoperation, hchain, hfailed, hlength, htook'⟩ :=
    hcounted.absorbBytes_short hshort (ρ := ρ) (κ := κ) (μ := μ)
  refine ⟨s', ?_, hoperation, hchain, hfailed.trans hsound, hlength, htook'⟩
  rw [absorb, if_neg (by simp [hsound]), hrun]

theorem HashStream.Fed.absorb_short
    {P : Operation → Chain → List (List UInt8) → Engine ρ κ μ → Prop} {message bytes : List UInt8}
    (h : s.Fed P message e) (hshort : (message ++ bytes).length < s.algorithm.blockSize) :
    ∃ s', s.absorb bytes = (pure (.ok (), s') : EngineM ρ κ μ _) ∧ s'.operation = s.operation ∧
      s'.Fed P (message ++ bytes) e := by
  obtain ⟨blocks, htook, hpath⟩ := h.taken
  obtain ⟨s', hrun, hoperation, hchain, hsound, hlength, htook'⟩ :=
    htook.absorb_short h.sound hshort (ρ := ρ) (κ := κ) (μ := μ)
  refine ⟨s', hrun, hoperation, hsound, ?_, blocks, htook', ?_⟩
  · rw [hlength, List.length_append, BitVec.ofNat_add, ← h.length_eq]
  · rwa [hoperation, hchain]

/-! ## After a failure -/

namespace HashStream

/-- **A stream that has failed takes in nothing**, and reaches nothing. -/
theorem absorb_of_failed (h : s.failed = true) (bytes : List UInt8) :
    s.absorb bytes = (pure (.error .alreadyFailed, s) : EngineM ρ κ μ _) := by
  unfold absorb
  rw [if_pos h]

theorem absorbAll_of_failed (h : s.failed = true) (parts : List (List UInt8)) :
    s.absorbAll parts = (pure (if parts = [] then .ok () else .error .alreadyFailed, s) :
      EngineM ρ κ μ _) := by
  cases parts with
  | nil => rfl
  | cons part rest =>
    unfold absorbAll
    rw [absorb_of_failed h]
    rfl

/-- Nor does it give a digest. -/
theorem finish_of_failed (h : s.failed = true) :
    s.finish = (do s.discard; return .error .alreadyFailed : EngineM ρ κ μ _) := by
  unfold finish
  rw [if_pos h]

end HashStream

/-! ## Flushes carry a message -/

/-- A flush hands over the block, and carries an account of the path on by it; or the path fails, and with
it the stream. -/
structure HashStream.Flushes (P : Operation → Chain → List (List UInt8) → Engine ρ κ μ → Prop)
    (Q : Operation → Fault → Engine ρ κ μ → Prop) : Prop where
  flush : ∀ {s : HashStream} {blocks : List (List UInt8)} {e : Engine ρ κ μ},
    P s.operation s.chain blocks e → Always (s.flush none) e fun r e' =>
      ∃ a chain, a.algorithm = s.algorithm ∧
        match r.1 with
        | .ok () => r.2 = { s with operation := a, chain } ∧ P a chain (blocks ++ [s.block none]) e'
        | .error fault => r.2 = { s with operation := a, chain, failed := true } ∧ Q a fault e'

section Message

variable {P : Operation → Chain → List (List UInt8) → Engine ρ κ μ → Prop}
variable {Q : Operation → Fault → Engine ρ κ μ → Prop}
variable {blocks : List (List UInt8)} {message : List UInt8}

/-- **Bytes go where the message goes**: to the path, block by block, and the last of them into the
buffer. A stream that fails meanwhile stops at a full buffer. -/
theorem HashStream.Flushes.absorbBytes (hflush : Flushes P Q) (bytes : List UInt8)
    (hsound : s.failed = false) (htook : s.Took message blocks)
    (h : P s.operation s.chain blocks e) :
    Always (s.absorbBytes bytes) e fun r e' => r.2.algorithm = s.algorithm ∧
      match r.1 with
      | .ok () => r.2.failed = false ∧ r.2.length = s.length ∧
          ∃ blocks', r.2.Took (message ++ bytes) blocks' ∧ P r.2.operation r.2.chain blocks' e'
      | .error fault => r.2.failed = true ∧ r.2.waiting = s.algorithm.blockSize ∧
          Q r.2.operation fault e' := by
  -- on the bytes: what the stream took before them is the invariant
  induction bytes generalizing s message blocks e with
  | nil =>
    simp only [HashStream.absorbBytes, always_pure, List.append_nil, true_and]
    exact ⟨hsound, blocks, htook, h⟩
  | cons byte rest ih =>
    have hmessage : message ++ byte :: rest = message ++ [byte] ++ rest := by
      rw [List.append_assoc, List.singleton_append]
    simp only [HashStream.absorbBytes, hmessage]
    refine Always.ite (fun hfull => ?_) fun hfull => ?_
    · -- the byte fills a block, which leaves the buffer
      refine always_bind.2 ((hflush.flush (s := s.push byte) h).mono fun r e' he => ?_)
      obtain ⟨outcome, s'⟩ := r
      obtain ⟨a, chain, halgorithm, hdone⟩ := he
      cases outcome with
      | error fault =>
        obtain ⟨rfl, hfault⟩ := hdone
        rw [always_pure]
        exact ⟨halgorithm, rfl, of_decide_eq_true hfull, hfault⟩
      | ok =>
        obtain ⟨rfl, hdone⟩ := hdone
        have hemptied : HashStream.Took { s.push byte with operation := a, chain, waiting := 0 }
            (message ++ [byte]) (blocks ++ [(s.push byte).block none]) :=
          htook.flushed hfull halgorithm rfl
        refine (ih (by exact hsound) hemptied hdone).mono fun r e'' he => ?_
        obtain ⟨hsame, he⟩ := he
        have hsize : (HashStream.algorithm { s.push byte with operation := a, chain, waiting := 0 }) =
            s.algorithm := halgorithm
        rw [hsize] at hsame he
        exact ⟨hsame, he⟩
    · rw [Bool.not_eq_true] at hfull
      exact ih hsound (htook.push hfull) h

/-- **A stream takes in its message** part by part. -/
theorem HashStream.Flushes.absorb (hflush : Flushes P Q) (bytes : List UInt8)
    (h : s.Fed P message e) :
    Always (s.absorb bytes) e fun r e' => r.2.algorithm = s.algorithm ∧
      match r.1 with
      | .ok () => r.2.Fed P (message ++ bytes) e'
      | .error fault => r.2.failed = true ∧ r.2.waiting = s.algorithm.blockSize ∧
          Q r.2.operation fault e' := by
  obtain ⟨blocks, htook, hpath⟩ := h.taken
  have hsound : ¬ s.failed = true := by simp [h.sound]
  have hcounted : HashStream.Took { s with length := s.length + BitVec.ofNat 128 bytes.length }
      message blocks := htook.congr rfl rfl rfl
  refine Always.ite (fun hfailed => absurd hfailed hsound) fun _ => ?_
  refine (hflush.absorbBytes bytes (by exact h.sound) hcounted hpath).mono fun r e' he => ?_
  obtain ⟨outcome, s'⟩ := r
  obtain ⟨halgorithm, hdone⟩ := he
  refine ⟨halgorithm, ?_⟩
  cases outcome with
  | error fault => exact hdone
  | ok =>
    obtain ⟨hsound, hlength, htaken⟩ := hdone
    refine ⟨hsound, ?_, htaken⟩
    rw [hlength, List.length_append, BitVec.ofNat_add, ← h.length_eq]

end Message

namespace Intake

variable {P : Operation → Chain → List (List UInt8) → Engine ρ κ μ → Prop}
variable {Q : Operation → Fault → Engine ρ κ μ → Prop}
variable {blocks : List (List UInt8)} {message : List UInt8}

/-- Another account of the path is carried on beside the first. -/
theorem along {P' : Operation → Chain → List (List UInt8) → Engine ρ κ μ → Prop}
    {Q' : Operation → Fault → Engine ρ κ μ → Prop} (hI : Intake P Q) (hI' : Intake P' Q') :
    Intake (fun a chain blocks e => P a chain blocks e ∧ P' a chain blocks e) Q where
  note := hI.note
  settled h := hI.settled h.1
  acquire h hmode := (hI.acquire h.1 hmode).and (hI'.acquire h.2 hmode)
  submit h hon hlength := by
    refine ((hI.submit h.1 hon hlength).and (hI'.submit h.2 hon hlength)).mono fun r e' he => ?_
    obtain ⟨outcome, a'⟩ := r
    cases outcome with
    | ok => exact he
    | error fault => exact he.1
  compress h hmode hlength := by
    obtain ⟨next, hnext, hpath⟩ := hI.compress h.1 hmode hlength
    obtain ⟨next', hnext', hpath'⟩ := hI'.compress h.2 hmode hlength
    obtain rfl : next = next' := Except.ok.inj (hnext.symm.trans hnext')
    exact ⟨next, hnext, hpath, hpath'⟩

/-! ## Blocks -/

section Blocks

variable {a : Operation} {chain : Chain}

/-- **A path is always found.** -/
theorem commit (hI : Intake P Q) (h : P a chain blocks e) :
    Always (EngineM.commit a) e fun r e' => r.1 = .ok () ∧ r.2.algorithm = a.algorithm ∧
      (r.2.isOnEngine = true ∨ r.2.mode = .software) ∧ P r.2 chain blocks e' := by
  refine Always.ite (fun hmode => ?_) fun hmode => ?_
  · refine always_bind.2 (((acquired_acquire _).and (hI.acquire h hmode)).mono fun r e' he => ?_)
    obtain ⟨path, hpath, hcompeted⟩ := he.1.of_uncommitted hmode
    rw [always_pure, hpath]
    exact ⟨rfl, hcompeted.algorithm_eq, hcompeted.committed, he.2⟩
  · -- it has a path, since the account leaves no debt to settle
    have hsettled := hI.settled h
    rw [always_pure]
    refine ⟨rfl, rfl, ?_, h⟩
    cases hpath : a.mode with
    | uncommitted => exact absurd hpath hmode
    | unsettled => exact absurd hpath hsettled
    | hardware first => simp [Operation.isOnEngine, hpath]
    | software => simp

/-- A block that is given to a path is taken there, or the path fails. -/
theorem place (hI : Intake P Q) {block : List UInt8} (h : P a chain blocks e)
    (hpath : a.isOnEngine = true ∨ a.mode = .software)
    (hlength : block.length = a.algorithm.blockSize) :
    Always (EngineM.place a chain block) e fun r e' => r.2.1.algorithm = a.algorithm ∧
      match r.1 with
      | .ok () => P r.2.1 r.2.2 (blocks ++ [block]) e'
      | .error fault => Q r.2.1 fault e' := by
  unfold EngineM.place
  rcases hpath with hon | hmode
  · -- on the engine: the words of the block are submitted
    obtain ⟨first, hmode⟩ := Operation.exists_hardware hon
    have hcount : (BigEndian.words32 block).length = a.algorithm.blockWords := by
      rw [BigEndian.length_words32, hlength]
      rfl
    have hbytes : (BigEndian.words32 block).flatMap BigEndian.bytes32 = block :=
      BigEndian.flatMap_bytes32_words32 (by rw [hlength]; cases a.algorithm <;> decide)
    simp only [hmode, always_bind, always_pure]
    refine ((submitted_submit a _ rfl).and (hI.submit h hon hcount)).mono fun r e' he => ?_
    obtain ⟨hsubmitted, hdone⟩ := he
    rw [hbytes] at hdone
    exact ⟨hsubmitted.algorithm_eq, hdone⟩
  · -- in software: its bytes are compressed
    obtain ⟨next, hnext, hdone⟩ := hI.compress h hmode hlength
    simp only [hmode, hnext, always_pure]
    exact ⟨trivial, hdone⟩

/-- **A block that is handed over** is taken, or the path fails. -/
theorem handOver (hI : Intake P Q) {block : List UInt8} (h : P a chain blocks e)
    (hlength : block.length = a.algorithm.blockSize) :
    Always (EngineM.handOver a chain block) e fun r e' => r.2.1.algorithm = a.algorithm ∧
      match r.1 with
      | .ok () => P r.2.1 r.2.2 (blocks ++ [block]) e'
      | .error fault => Q r.2.1 fault e' := by
  simp only [EngineM.handOver, EngineM.offer, always_bind]
  refine (hI.commit h).mono fun r e' he => ?_
  obtain ⟨committed, a'⟩ := r
  obtain ⟨rfl, halgorithm, hpath, hfound⟩ := he
  refine (hI.place hfound hpath (by rw [hlength, halgorithm])).mono fun r e'' he => ?_
  obtain ⟨outcome, a'', next⟩ := r
  obtain ⟨hplaced, hdone⟩ := he
  cases outcome with
  | ok =>
    rw [always_pure]
    exact ⟨hplaced.trans halgorithm, hdone⟩
  | error fault =>
    simp only [always_bind, always_note, always_pure]
    exact ⟨hplaced.trans halgorithm, hI.note hdone⟩

/-- Blocks are taken one by one. -/
theorem handOverAll (hI : Intake P Q) {rest : List (List UInt8)} (h : P a chain blocks e)
    (hlength : ∀ block ∈ rest, block.length = a.algorithm.blockSize) :
    Always (EngineM.handOverAll a chain rest) e fun r e' => r.2.1.algorithm = a.algorithm ∧
      match r.1 with
      | .ok () => P r.2.1 r.2.2 (blocks ++ rest) e'
      | .error fault => Q r.2.1 fault e' := by
  induction rest generalizing a chain blocks e with
  | nil =>
    rw [EngineM.handOverAll, always_pure, List.append_nil]
    exact ⟨rfl, h⟩
  | cons block rest ih =>
    obtain ⟨hblock, hrest⟩ := List.forall_mem_cons.1 hlength
    simp only [EngineM.handOverAll, always_bind]
    refine (hI.handOver h hblock).mono fun r e' he => ?_
    obtain ⟨outcome, a', next⟩ := r
    obtain ⟨halgorithm, hdone⟩ := he
    cases outcome with
    | error fault =>
      rw [always_pure]
      exact ⟨halgorithm, hdone⟩
    | ok =>
      refine (ih hdone fun other hother => by rw [hrest other hother, halgorithm]).mono
        fun r e'' he => ?_
      rw [List.append_assoc] at he
      exact ⟨he.1.trans halgorithm, he.2⟩

/-- **A flush hands over the block**, and a stream whose flush fails has failed. -/
theorem flush (hI : Intake P Q) (bits? : Option (BitVec 128)) (h : P s.operation s.chain blocks e) :
    Always (s.flush bits?) e fun r e' => ∃ a chain, a.algorithm = s.algorithm ∧
      match r.1 with
      | .ok () => r.2 = { s with operation := a, chain } ∧
          P a chain (blocks ++ [s.block bits?]) e'
      | .error fault => r.2 = { s with operation := a, chain, failed := true } ∧ Q a fault e' := by
  rw [HashStream.flush_eq, always_map]
  refine (hI.handOver h (s.length_block bits?)).mono fun r e' he => ?_
  obtain ⟨outcome, a, chain⟩ := r
  cases outcome with
  | ok => exact ⟨a, chain, he.1, rfl, he.2⟩
  | error fault => exact ⟨a, chain, he.1, rfl, he.2⟩

end Blocks

/-! ## The message -/

theorem flushes (hI : Intake P Q) : HashStream.Flushes P Q := ⟨fun h => hI.flush none h⟩

/-- **A stream takes in its message** part by part. -/
theorem absorb (hI : Intake P Q) (bytes : List UInt8) (h : s.Fed P message e) :
    Always (s.absorb bytes) e fun r e' => r.2.algorithm = s.algorithm ∧
      match r.1 with
      | .ok () => r.2.Fed P (message ++ bytes) e'
      | .error fault => r.2.failed = true ∧ Q r.2.operation fault e' := by
  refine (hI.flushes.absorb bytes h).mono fun r e' he => ?_
  obtain ⟨outcome, s'⟩ := r
  cases outcome with
  | error fault => exact ⟨he.1, he.2.1, he.2.2.2⟩
  | ok => exact he

theorem absorbAll (hI : Intake P Q) (parts : List (List UInt8)) (h : s.Fed P message e) :
    Always (s.absorbAll parts) e fun r e' => r.2.algorithm = s.algorithm ∧
      match r.1 with
      | .ok () => r.2.Fed P (message ++ parts.flatten) e'
      | .error fault => r.2.failed = true ∧ Q r.2.operation fault e' := by
  induction parts generalizing s message e with
  | nil =>
    simp only [HashStream.absorbAll, always_pure, List.flatten_nil, List.append_nil, true_and]
    exact h
  | cons part rest ih =>
    simp only [HashStream.absorbAll, always_bind]
    refine (hI.absorb part h).mono fun r e' he => ?_
    obtain ⟨outcome, s'⟩ := r
    obtain ⟨halgorithm, hdone⟩ := he
    cases outcome with
    | error fault =>
      rw [always_pure]
      exact ⟨halgorithm, hdone⟩
    | ok =>
      refine (ih hdone).mono fun r e'' he => ?_
      rw [List.flatten_cons, ← List.append_assoc]
      exact ⟨he.1.trans halgorithm, he.2⟩

/-! ## The end of the message -/

/-- **After the end of the message the path has the blocks of the padded message**, and what is
collected from it is the answer. What the operation holds then is given back. -/
theorem ends (hI : Intake P Q) (h : s.Fed P message e)
    {R : Except Fault (List UInt8) → Operation → Engine ρ κ μ → Prop}
    (hrelease : ∀ {outcome a e'}, a.isHolding = true → R outcome a e' →
      Always (EngineM.release a) e' fun a' e'' => R outcome a' e'')
    (hcollect : ∀ (t : HashStream) e', t.algorithm = s.algorithm →
      P t.operation t.chain (s.algorithm.blocks message) e' →
      Always t.collect e' fun outcome e'' => R outcome t.operation e'')
    (hfault : ∀ a fault e', Q a fault e' → R (.error fault) a e') :
    Always s.finish e fun outcome e' => ∃ a, R outcome a e' ∧ a.holdsMutex = false := by
  obtain ⟨blocks, htook, hpath⟩ := h.taken
  have htail := HashStream.length_tail_lt htook.waiting_lt
  have hblocks : s.algorithm.blocks message =
      blocks ++ s.algorithm.closing s.tail s.length.toNat := by
    rw [h.length_eq, BitVec.toNat_ofNat, Algorithm.closing_mod, htook.message_eq,
      Algorithm.blocks_eq_closing htook.whole htail]
  rw [HashStream.finish_eq h.sound htook.waiting_lt, HashStream.conclude]
  refine always_bind.2 ((hI.handOverAll hpath
    (Algorithm.length_of_mem_closing htail _)).mono fun r e' he => ?_)
  obtain ⟨outcome, a, chain⟩ := r
  obtain ⟨halgorithm, hdone⟩ := he
  cases outcome with
  | error fault =>
    simp only [HashStream.settleUp, always_bind, always_pure]
    exact HashStream.always_discard hrelease (hfault _ _ _ hdone)
  | ok =>
    rw [← hblocks] at hdone
    simp only [HashStream.settleUp, always_bind, always_pure]
    refine (hcollect { operation := a, chain } e' halgorithm hdone).mono fun digest e'' he => ?_
    refine (HashStream.always_letGo hrelease he).mono fun _ e₃ hleft => ?_
    exact HashStream.always_discard hrelease hleft.1

/-- The answer, where the operation does not matter to what is known after it. -/
theorem finish (hI : Intake P Q) (h : s.Fed P message e)
    {R : Except Fault (List UInt8) → Engine ρ κ μ → Prop}
    (hrelease : ∀ {outcome a e'}, R outcome e' →
      Always (EngineM.release a) e' fun _ e'' => R outcome e'')
    (hcollect : ∀ (t : HashStream) e', t.algorithm = s.algorithm →
      P t.operation t.chain (s.algorithm.blocks message) e' → Always t.collect e' R)
    (hfault : ∀ a fault e', Q a fault e' → R (.error fault) e') :
    Always s.finish e R :=
  (hI.ends h (R := fun outcome _ e' => R outcome e') (fun _ hpost => hrelease hpost)
    hcollect hfault).mono fun _ _ he => by
      obtain ⟨_, hpost, _⟩ := he
      exact hpost

end Intake

end HashAccelerator
