import HashAccelerator.Proofs.Stream.Commitment
import HashAccelerator.Proofs.Stream.Rounds
/-!
# What a stream knows of its message

A stream keeps no record of its message but a count, a chaining value and the bytes that wait. As long as
its updates succeed these are just what the message says: its whole blocks have been handed over, one by
one and in order (`HandedOver`), the rest of it waits, and the count is its length as far as it goes
(`Accounts`). So there is room in the buffer before every round of every update, and at the end of the
message. An update that fails leaves a full buffer, which is never looked at again (`Spent`).
-/

namespace HashAccelerator

open EngineM

variable {ρ κ μ : Type} [RegisterBlock ρ] [GatedClock κ] [EngineMutex μ]

/-! ## Blocks one by one -/

/-- Blocks that were handed over one after another, each over some state of the engine, and each of them
taken: what that has made of an operation and of a chaining value, and the calls on the platform by which
it was done, newest first. -/
inductive HandedOver (ρ κ μ : Type) [RegisterBlock ρ] [GatedClock κ] [EngineMutex μ] (a : Operation)
    (chain : Chain) : List (List UInt8) → Operation → Chain → List Event → Prop
  | none : HandedOver ρ κ μ a chain [] a chain []
  | block {blocks block b b' next next' trace newer} {e e' : Engine ρ κ μ} :
      HandedOver ρ κ μ a chain blocks b next trace →
      (handOver b next block).run e = some ((.ok (), b', next'), e') →
      e'.history = newer ++ e.history →
      HandedOver ρ κ μ a chain (blocks ++ [block]) b' next' (newer ++ trace)

section Lists

variable {α : Type} {size : Nat} {blocks : List (List α)}

/-- Blocks of one size stand at the multiples of it. -/
theorem getElem?_of_whole (hwhole : ∀ block ∈ blocks, block.length = size) (rest : List α) {i : Nat}
    (hi : i < blocks.length) :
    blocks[i]? = some (((blocks.flatten ++ rest).drop (i * size)).take size) := by
  induction blocks generalizing i with
  | nil => exact absurd hi (Nat.not_lt_zero i)
  | cons block blocks ih =>
    obtain ⟨hblock, hrest⟩ := List.forall_mem_cons.1 hwhole
    rw [List.flatten_cons, List.append_assoc]
    cases i with
    | zero => rw [Nat.zero_mul, List.drop_zero, List.take_left' hblock]; rfl
    | succ i =>
      have hdrop : (i + 1) * size = block.length + i * size := by
        rw [hblock, Nat.succ_mul, Nat.add_comm]
      rw [List.getElem?_cons_succ, hdrop, List.drop_length_add_append]
      exact ih hrest (Nat.lt_of_succ_lt_succ hi)

end Lists

namespace HashStream

variable {s : HashStream} {a : Operation} {chain : Chain} {blocks : List (List UInt8)}
variable {message : List UInt8} {trace : List Event} {e : Engine ρ κ μ}

/-- The account of a path since a point in the past of the engine. -/
def SinceHandedOver (a : Operation) (chain : Chain) (past trace : List Event) (b : Operation)
    (next : Chain) (blocks : List (List UInt8)) (e : Engine ρ κ μ) : Prop :=
  ∃ newer, e.history = newer ++ past ∧ HandedOver ρ κ μ a chain blocks b next (newer ++ trace)

/-- **A flush is one more block**, whatever state the operation is in. -/
theorem flushes_handedOver (a : Operation) (chain : Chain) (past trace : List Event) :
    Flushes (SinceHandedOver (ρ := ρ) (κ := κ) (μ := μ) a chain past trace) fun _ _ _ => True := by
  refine ⟨fun {s blocks e} h => ?_⟩
  obtain ⟨newer, hhistory, hhanded⟩ := h
  have hgrown : Always (s.flush none) e fun _ e' => e.history <:+ e'.history :=
    (kept_suffix e.history).calls.toKeptByBlocks.flush none (List.suffix_refl _)
  rw [flush_eq, always_map] at hgrown ⊢
  intro r e' hrun
  have halgorithm := always_handOver _ _ _ _ _ hrun
  obtain ⟨later, hlater⟩ := hgrown _ _ hrun
  obtain ⟨outcome, b, next⟩ := r
  cases outcome with
  | error fault => exact ⟨b, next, halgorithm, rfl, trivial⟩
  | ok =>
    refine ⟨b, next, halgorithm, rfl, later ++ newer, ?_, ?_⟩
    · rw [← hlater, hhistory, List.append_assoc]
    · rw [List.append_assoc]
      exact hhanded.block hrun hlater.symm

/-! ## A stream that is never looked at again -/

/-- The stream has failed, and what it has in its buffer, how much of it, and what it has counted and
compressed makes no difference any more: it takes in nothing and gives no digest, and what it gives back
is what its operation holds. -/
structure Spent (ρ κ μ : Type) [RegisterBlock ρ] [GatedClock κ] [EngineMutex μ] (s : HashStream) :
    Prop where
  absorb : ∀ buffer waiting length chain bytes,
    absorb { s with buffer, waiting, length, chain } bytes =
      (pure (.error .alreadyFailed, { s with buffer, waiting, length, chain }) : EngineM ρ κ μ _)
  finish : ∀ buffer waiting length chain,
    finish { s with buffer, waiting, length, chain } =
      (do s.discard; return .error .alreadyFailed : EngineM ρ κ μ _)
  cancel : ∀ buffer waiting length chain,
    cancel { s with buffer, waiting, length, chain } = (s.cancel : EngineM ρ κ μ _)
  discard : ∀ buffer waiting length chain,
    discard { s with buffer, waiting, length, chain } = (s.discard : EngineM ρ κ μ _)

omit [RegisterBlock ρ] in
/-- To be cancelled a stream needs no more than its operation. -/
theorem cancel_congr {t : HashStream} (h : s.operation = t.operation) :
    (s.cancel : EngineM ρ κ μ Unit) = t.cancel := by
  unfold cancel letGo
  rw [h]
  split
  · simp only [bind_assoc, pure_bind]
    exact bind_congr fun b => discard_congr rfl
  · simp only [pure_bind]
    exact discard_congr h

/-- **A stream that has failed is spent.** -/
theorem spent_of_failed (h : s.failed = true) : s.Spent ρ κ μ where
  absorb _ _ _ _ bytes := absorb_of_failed (by exact h) bytes
  finish buffer waiting length chain := by
    have hsame : discard { s with buffer, waiting, length, chain } = (s.discard : EngineM ρ κ μ _) :=
      discard_congr rfl
    rw [finish_of_failed (by exact h), hsame]
  cancel _ _ _ _ := cancel_congr rfl
  discard _ _ _ _ := discard_congr rfl

/-! ## The account -/

/-- What a stream of an operation knows of a message, where all its updates have succeeded, and what
follows for its next part and for the end. -/
structure Accounts (ρ κ μ : Type) [RegisterBlock ρ] [GatedClock κ] [EngineMutex μ] (a : Operation)
    (s : HashStream) (message : List UInt8) (trace : List Event) : Prop where
  algorithm_eq : s.algorithm = a.algorithm
  waiting_eq : s.waiting = message.length % a.algorithm.blockSize
  tail_eq : s.tail = message.drop (message.length - s.waiting)
  length_eq : s.length = BitVec.ofNat 128 message.length
  sound : s.failed = false
  /-- The whole blocks of the message have been handed over, and nothing else was done. -/
  handed : ∃ blocks, HandedOver ρ κ μ a (.initial a.algorithm) blocks s.operation s.chain trace ∧
    blocks.length = message.length / a.algorithm.blockSize ∧ ∀ i < blocks.length,
      blocks[i]? = some ((message.drop (i * a.algorithm.blockSize)).take a.algorithm.blockSize)
  /-- No round of the next update slips. -/
  guarded : ∀ bytes, s.updateGuarded bytes = (Except.ok <$> s.absorb bytes : EngineM ρ κ μ _)
  ends : s.EndsInBounds
  /-- If the next update fails, it leaves a full buffer, and the stream is spent. -/
  failing : ∀ bytes (e : Engine ρ κ μ), Always (s.absorb bytes) e fun r _ =>
    r.1 ≠ .ok () → r.2.waiting = a.algorithm.blockSize ∧ r.2.Spent ρ κ μ

/-- What a stream took, with the count of it, is its account. -/
theorem Took.accounts (htook : s.Took message blocks) (halgorithm : s.algorithm = a.algorithm)
    (hlength : s.length = BitVec.ofNat 128 message.length) (hsound : s.failed = false)
    (hhanded : HandedOver ρ κ μ a (.initial a.algorithm) blocks s.operation s.chain trace) :
    s.Accounts ρ κ μ a message trace := by
  have hroom := htook.waiting_lt
  have hcount : message.length = a.algorithm.blockSize * blocks.length + s.waiting := by
    rw [htook.message_eq, List.length_append, htook.length_tail, length_flatten_blocks htook.whole,
      halgorithm]
  have hmod : message.length % a.algorithm.blockSize = s.waiting := by
    rw [hcount, Nat.mul_add_mod, Nat.mod_eq_of_lt (halgorithm ▸ hroom)]
  have hdiv : message.length / a.algorithm.blockSize = blocks.length := by
    rw [hcount, Nat.mul_add_div a.algorithm.blockSize_pos,
      Nat.div_eq_of_lt (halgorithm ▸ hroom), Nat.add_zero]
  have hflat : blocks.flatten.length = message.length - s.waiting := by
    rw [length_flatten_blocks htook.whole, halgorithm]
    omega
  exact {
    algorithm_eq := halgorithm
    waiting_eq := hmod.symm
    tail_eq := by rw [← hflat, htook.message_eq, List.drop_left]
    length_eq := hlength
    sound := hsound
    handed := by
      refine ⟨blocks, hhanded, hdiv.symm, fun i hi => ?_⟩
      rw [htook.message_eq, ← halgorithm]
      exact getElem?_of_whole htook.whole s.tail hi
    guarded := fun bytes => updateGuarded_eq (fun _ => hroom) bytes
    ends := endsInBounds hroom
    failing := by
      intro bytes e
      have hfed : s.Fed (SinceHandedOver a (.initial a.algorithm) e.history trace) message e :=
        ⟨hsound, hlength, blocks, htook, [], rfl, hhanded⟩
      refine ((flushes_handedOver _ _ _ _).absorb bytes hfed).mono fun r e' he hfails => ?_
      obtain ⟨outcome, s'⟩ := r
      cases outcome with
      | ok => exact absurd rfl hfails
      | error fault => exact ⟨halgorithm ▸ he.2.2.1, spent_of_failed he.2.1⟩ }

/-- **One update after another**, each over its own state of the engine, carries the account on. -/
theorem Updated.took {updates : List (List UInt8 × Except Fault Unit)}
    (h : Updated ρ κ μ (.ofOperation a) s updates trace)
    (hall : ∀ update ∈ updates, update.2 = .ok ()) :
    s.algorithm = a.algorithm ∧ s.failed = false ∧
      s.length = BitVec.ofNat 128 (updates.map Prod.fst).flatten.length ∧
      ∃ blocks, s.Took (updates.map Prod.fst).flatten blocks ∧
        HandedOver ρ κ μ a (.initial a.algorithm) blocks s.operation s.chain trace := by
  induction h with
  | none => exact ⟨rfl, rfl, rfl, [], took_nil rfl, .none⟩
  | @absorb s s' updates trace newer e e' bytes outcome _ hrun hhistory ih =>
    obtain ⟨hbefore, hlast⟩ := List.forall_mem_append.1 hall
    obtain rfl : outcome = .ok () := hlast _ List.mem_cons_self
    obtain ⟨halgorithm, hsound, hlength, blocks, htook, hhanded⟩ := ih hbefore
    have hfed : s.Fed (SinceHandedOver a (.initial a.algorithm) e.history trace)
        (updates.map Prod.fst).flatten e := ⟨hsound, hlength, blocks, htook, [], rfl, hhanded⟩
    obtain ⟨hsame, hnext⟩ := (flushes_handedOver _ _ _ _).absorb bytes hfed _ _ hrun
    obtain ⟨blocks', htook', later, hlater, hhanded'⟩ := hnext.taken
    obtain rfl : later = newer := List.append_cancel_right (hlater.symm.trans hhistory)
    rw [List.map_append, List.flatten_append, List.map_singleton, List.flatten_singleton]
    exact ⟨hsame.trans halgorithm, hnext.sound, hnext.length_eq, blocks', htook', hhanded'⟩

/-- **A stream's buffer, its count and its blocks are those of its message**, for every operation that
a stream is made of, on every platform and by any updates, as long as all of them succeed. What waits
is what is left of the message after its whole blocks, and these have been handed over, in order, each
once, with no other call on the platform. So there is room for a byte before every round of the loop
and a place for every slice, and at the end of the message for the byte that ends it and for the
length; and where an update fails the full buffer that it leaves is not looked at by any later call. -/
theorem updates_keep_account :
    (∀ a s updates trace, Updated ρ κ μ (.ofOperation a) s updates trace →
      (∀ update ∈ updates, update.2 = .ok ()) →
      s.Accounts ρ κ μ a (updates.map Prod.fst).flatten trace) ∧
    ∀ algorithm, (inSoftware algorithm = ofOperation (.softwareOnly algorithm)) ∧
      start algorithm = ofOperation (if algorithm.unit?.isSome then .fresh algorithm
        else .softwareOnly algorithm) := by
  refine ⟨fun a s updates trace h hall => ?_, fun algorithm => ⟨rfl, ?_⟩⟩
  · obtain ⟨halgorithm, hsound, hlength, blocks, htook, hhanded⟩ := h.took hall
    exact htook.accounts halgorithm hlength hsound hhanded
  · unfold start
    split <;> rfl

/-- A stream on the engine, after two updates of together seventy bytes: six of them wait. -/
theorem exists_six_waiting :
    ∃ (s : HashStream) (trace : List Event),
      Updated MappedMemory CountedClock CountedMutex (.ofOperation (.fresh .sha256)) s
        [(List.replicate 60 7, .ok ()), (List.replicate 10 8, .ok ())] trace ∧
      s.Accounts MappedMemory CountedClock CountedMutex (.fresh .sha256)
        (List.replicate 60 7 ++ List.replicate 10 8) trace ∧
      s.waiting = 6 := by
  let free : Engine MappedMemory CountedClock CountedMutex :=
    { registers := {}, clock := {}, mutex := {} }
  have hruns : (((ofOperation (.fresh .sha256)).absorb (List.replicate 60 7)).run free).any (fun r =>
      r.1.1.toBool && ((r.1.2.absorb (List.replicate 10 8)).run free).any fun r' =>
        r'.1.1.toBool) = true := by
    decide +kernel
  obtain ⟨⟨⟨outcome, s⟩, e⟩, hrun, hrest⟩ := (Option.any_eq_true _ _).1 hruns
  obtain ⟨hok, hlater⟩ := Bool.and_eq_true_iff.1 hrest
  obtain ⟨⟨⟨outcome', s'⟩, e'⟩, hrun', hok'⟩ := (Option.any_eq_true _ _).1 hlater
  cases outcome with
  | error fault => cases hok
  | ok =>
    cases outcome' with
    | error fault => cases hok'
    | ok =>
      have hupdated : Updated MappedMemory CountedClock CountedMutex (.ofOperation (.fresh .sha256)) s'
          [(List.replicate 60 7, .ok ()), (List.replicate 10 8, .ok ())]
          (e'.history ++ (e.history ++ [])) :=
        (Updated.none.absorb hrun (List.append_nil _).symm).absorb hrun' (List.append_nil _).symm
      have haccounts := updates_keep_account.1 _ _ _ _ hupdated (by simp)
      exact ⟨s', _, hupdated, haccounts, haccounts.waiting_eq⟩

end HashStream

end HashAccelerator
