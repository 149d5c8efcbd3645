import HashAccelerator.Platform.Clock
import HashAccelerator.Platform.Memory
import HashAccelerator.Platform.Mutex
import HashAccelerator.Proofs.Engine.Advance
import HashAccelerator.Proofs.Stream.Faults
import HashAccelerator.Proofs.Stream.Slices
import HashAccelerator.Proofs.Stream.Software
/-!
# A stream commits once

A stream asks for the engine with its first block, and never again. Until the bytes that it was handed
fill that block they wait in the buffer, and the stream is as it began. The part that completes the
block, or the end of a shorter message, first asks for the engine and is then what it would have been on
the path given (`HashStream.absorb_of_uncommitted`, `HashStream.finish_of_uncommitted`). From there on the
stream is `InSoftware` for good, or `OnEngine` until it ends, whatever becomes of the engine meanwhile.

Where a stream stands is read off the parts that it was handed and the answers to them (`Updated`), each
part over another state of the engine, since others use the engine in between.
-/

namespace HashAccelerator

open EngineM

variable {ρ κ μ : Type} [RegisterBlock ρ] [GatedClock κ] [EngineMutex μ]

/-! ## Asking first -/

namespace EngineM

variable {a : Operation} {chain : Chain}

omit [RegisterBlock ρ] in
/-- Who has a path needs no other. -/
theorem commit_of_committed (h : a.mode ≠ .uncommitted) :
    commit a = (pure (.ok (), a) : EngineM ρ κ μ _) :=
  if_neg h

/-- A block of an operation without a path has it ask for one, and then goes there. -/
theorem handOver_of_uncommitted (hmode : a.mode = .uncommitted) (block : List UInt8) :
    handOver a chain block =
      (acquire a >>= fun r => handOver r.2 chain block : EngineM ρ κ μ _) := by
  rw [handOver, offer, commit, if_pos hmode]
  simp only [bind_assoc, pure_bind]
  refine Always.bind_congr fun e => (acquired_acquire a).mono fun r e' hacquired => ?_
  obtain ⟨outcome, a'⟩ := r
  obtain ⟨path, rfl, hcompeted⟩ := hacquired.of_uncommitted hmode
  have hcommitted : a'.mode ≠ .uncommitted := by
    rcases hcompeted with _ | _
    · exact fun h => by cases h
    · exact fun h => by cases h
  unfold handOver offer
  rw [commit_of_committed hcommitted, pure_bind]
  rfl

end EngineM

namespace HashStream

variable {s : HashStream}

/-- So does a flush. -/
theorem flush_of_uncommitted (hmode : s.operation.mode = .uncommitted)
    (bits? : Option (BitVec 128)) : s.flush bits? =
      (acquire s.operation >>= fun r => flush { s with operation := r.2 } bits? :
        EngineM ρ κ μ _) := by
  rw [flush_eq, handOver_of_uncommitted hmode, map_bind]
  refine Always.bind_congr fun e => (acquired_acquire s.operation).mono fun r e' hacquired => ?_
  have hblock : block { s with operation := r.2 } bits? = s.block bits? := by
    have hsame : algorithm { s with operation := r.2 } = s.algorithm := hacquired.algorithm_eq
    rw [block, hsame]
    rfl
  have hhanded : handed { s with operation := r.2 } = s.handed := by
    funext outcome
    rcases outcome with ⟨_ | _, a, chain⟩ <;> rfl
  rw [flush_eq, hblock, hhanded]

theorem isFull_congr {t : HashStream} (hwaiting : s.waiting = t.waiting)
    (halgorithm : s.algorithm = t.algorithm) : s.isFull = t.isFull := by
  rw [isFull, isFull, hwaiting, halgorithm]

theorem absorbBytes_of_uncommitted (bytes : List UInt8) (hmode : s.operation.mode = .uncommitted)
    (hwaiting : s.waiting < s.algorithm.blockSize)
    (hlong : s.algorithm.blockSize ≤ s.waiting + bytes.length) : s.absorbBytes bytes =
      (acquire s.operation >>= fun r => absorbBytes { s with operation := r.2 } bytes :
        EngineM ρ κ μ _) := by
  -- on the bytes up to the one that fills the block
  induction bytes generalizing s with
  | nil => exact absurd hwaiting (Nat.not_lt.2 hlong)
  | cons byte rest ih =>
    have hsame : ∀ e : Engine ρ κ μ, Always (acquire s.operation) e fun r _ =>
        (push { s with operation := r.2 } byte).isFull = (s.push byte).isFull :=
      fun e => (acquired_acquire _).mono fun r _ hacquired =>
        isFull_congr rfl hacquired.algorithm_eq
    cases hfull : (s.push byte).isFull with
    | true =>
      rw [absorbBytes_of_isFull rest hfull, flush_of_uncommitted (s := s.push byte) hmode, bind_assoc]
      refine Always.bind_congr fun e => (hsame e).mono fun r e' hr => ?_
      rw [absorbBytes_of_isFull rest (hr.trans hfull)]
      rfl
    | false =>
      have hopen : (s.push byte).waiting ≠ s.algorithm.blockSize := of_decide_eq_false hfull
      rw [show (s.push byte).waiting = s.waiting + 1 from rfl] at hopen
      rw [List.length_cons] at hlong
      have hpushed := ih (s := s.push byte) hmode
        (show s.waiting + 1 < s.algorithm.blockSize by omega)
        (show s.algorithm.blockSize ≤ s.waiting + 1 + rest.length by omega)
      rw [absorbBytes_of_open rest hfull, hpushed]
      refine Always.bind_congr fun e => (hsame e).mono fun r e' hr => ?_
      rw [absorbBytes_of_open rest (hr.trans hfull)]
      rfl

/-- **The part that completes the first block asks for the engine**, and then is a part on the path
given. -/
theorem absorb_of_uncommitted (bytes : List UInt8) (hmode : s.operation.mode = .uncommitted)
    (hsound : s.failed = false) (hwaiting : s.waiting < s.algorithm.blockSize)
    (hlong : s.algorithm.blockSize ≤ s.waiting + bytes.length) : s.absorb bytes =
      (acquire s.operation >>= fun r => absorb { s with operation := r.2 } bytes :
        EngineM ρ κ μ _) := by
  have hnot : ¬ s.failed = true := by simp [hsound]
  let counted : HashStream := { s with length := s.length + BitVec.ofNat 128 bytes.length }
  have hcounted : counted.absorbBytes bytes = (acquire s.operation >>= fun r =>
      absorbBytes { counted with operation := r.2 } bytes : EngineM ρ κ μ _) :=
    absorbBytes_of_uncommitted bytes hmode hwaiting hlong
  unfold absorb
  rw [if_neg hnot]
  simp only [if_neg hnot]
  exact hcounted

theorem conclude_of_uncommitted {a : Operation} (chain : Chain) {blocks : List (List UInt8)}
    (hmode : a.mode = .uncommitted) (hblocks : blocks ≠ []) : conclude a chain blocks =
      (acquire a >>= fun r => conclude r.2 chain blocks : EngineM ρ κ μ _) := by
  obtain ⟨block, rest, rfl⟩ := List.exists_cons_of_ne_nil hblocks
  rw [conclude_cons, handOver_of_uncommitted hmode, bind_assoc]
  exact bind_congr fun r => (conclude_cons _ _ _ _).symm

/-- **And so does the end of a shorter message.** -/
theorem finish_of_uncommitted (hmode : s.operation.mode = .uncommitted) (hsound : s.failed = false)
    (hwaiting : s.waiting < s.algorithm.blockSize) : s.finish =
      (acquire s.operation >>= fun r => finish { s with operation := r.2 } : EngineM ρ κ μ _) := by
  rw [finish_eq hsound hwaiting,
    conclude_of_uncommitted _ hmode (Algorithm.closing_ne_nil _ _ _)]
  refine Always.bind_congr fun e => (acquired_acquire s.operation).mono fun r e' hacquired => ?_
  have hsame : algorithm { s with operation := r.2 } = s.algorithm := hacquired.algorithm_eq
  have hends := finish_eq (ρ := ρ) (κ := κ) (μ := μ) (s := { s with operation := r.2 }) hsound
    (by rw [hsame]; exact hwaiting)
  rw [hends, hsame]
  rfl

/-! ## On the engine -/

/-- A stream on the engine reaches nothing but registers, and gives the engine back when it ends. -/
structure OnEngine (ρ κ μ : Type) [RegisterBlock ρ] [GatedClock κ] [EngineMutex μ]
    (s : HashStream) : Prop where
  isOnEngine : s.operation.isOnEngine = true
  absorb : ∀ bytes (e : Engine ρ κ μ), Always (s.absorb bytes) e fun r e' =>
    r.2.operation.isOnEngine = true ∧ RegistersSince e.history e'.history
  finish : ∀ e : Engine ρ κ μ, Always s.finish e fun _ e' => ∃ used,
    RegistersSince e.history used ∧ e'.history = .unlocked :: .clockDisabled :: used
  cancel : ∀ e : Engine ρ κ μ, Returns s.cancel e fun _ e' =>
    e'.history = .unlocked :: .clockDisabled :: e.history
  discard : ∀ e : Engine ρ κ μ, Returns s.discard e fun _ e' =>
    e'.history = .unlocked :: .clockDisabled :: e.history

variable {e : Engine ρ κ μ}

omit [RegisterBlock ρ] in
/-- To let go on the engine is to give it back. -/
theorem returns_letGo_onEngine (hstanding : s.operation.Standing)
    (hon : s.operation.isOnEngine = true) : Returns s.letGo e fun s' e' =>
      s'.operation.isHolding = false ∧ e'.history = .unlocked :: .clockDisabled :: e.history := by
  have hholds := hstanding.holdsMutex_of_isOnEngine hon
  unfold letGo
  rw [if_pos (by simp [Operation.isHolding, hholds])]
  refine Returns.next (hstanding.run_release_of_holds hholds e) (returns_pure ⟨?_, rfl⟩)
  simp [Operation.isHolding, Operation.released, hstanding.debt_eq_one hholds]

omit [RegisterBlock ρ] in
theorem returns_discard_onEngine (hstanding : s.operation.Standing)
    (hon : s.operation.isOnEngine = true) : Returns s.discard e fun _ e' =>
      e'.history = .unlocked :: .clockDisabled :: e.history := by
  unfold discard
  exact (returns_letGo_onEngine hstanding hon).bind fun _ _ hleft => returns_pure hleft.2

theorem onEngine_of_isOnEngine (hon : s.operation.isOnEngine = true)
    (hcapable : s.operation.Capable) (hstanding : s.operation.Standing) : s.OnEngine ρ κ μ where
  isOnEngine := hon
  absorb bytes e := by
    refine ((keptByBlocks_moved e hcapable).absorb bytes (.of_history rfl)).mono fun r e' he => ?_
    obtain ⟨calls, hhistory, hadvanced⟩ := he
    obtain ⟨hon', hcalls⟩ := hadvanced.of_isOnEngine hon
    exact ⟨hon', calls, hhistory, hcalls⟩
  finish e := by
    -- what is on the engine is discarded, and what has let go already is not touched
    have hended : ∀ {t : HashStream} {e' : Engine ρ κ μ},
        (e.Moved s.operation t.operation e' ∨ t.operation.isHolding = false ∧ ∃ used,
          RegistersSince e.history used ∧ e'.history = .unlocked :: .clockDisabled :: used) →
        Always t.discard e' fun _ e'' => ∃ used,
          RegistersSince e.history used ∧ e''.history = .unlocked :: .clockDisabled :: used := by
      rintro t e' (⟨calls, hhistory, hadvanced⟩ | ⟨hfree, hback⟩)
      · obtain ⟨hon', hcalls⟩ := hadvanced.of_isOnEngine hon
        exact (returns_discard_onEngine (hadvanced.standing hstanding) hon').always.mono
          fun _ _ hback => ⟨e'.history, ⟨calls, hhistory, hcalls⟩, hback⟩
      · rw [discard_of_free hfree]
        exact always_pure.2 hback
    refine Always.ite (fun _ => ?_) fun _ => ?_
    · simp only [always_bind, always_pure]
      exact hended (Or.inl (.of_history rfl))
    · simp only [always_bind, always_pure]
      refine ((keptByBlocks_moved e hcapable).complete (L := fun a e' =>
        e.Moved s.operation a e' ∨ a.isHolding = false ∧ ∃ used,
          RegistersSince e.history used ∧ e'.history = .unlocked :: .clockDisabled :: used)
        (always_collect fun out h => (moved_fetch out).mono fun _ _ hfetched => h.trans hfetched)
        (fun {t e'} h => ?_) Or.inl (.of_history rfl)).mono fun _ _ he => hended he
      obtain ⟨calls, hhistory, hadvanced⟩ := h
      obtain ⟨hon', hcalls⟩ := hadvanced.of_isOnEngine hon
      exact (returns_letGo_onEngine (hadvanced.standing hstanding) hon').always.mono
        fun _ _ hleft => Or.inr ⟨hleft.1, e'.history, ⟨calls, hhistory, hcalls⟩, hleft.2⟩
  cancel e := by
    unfold HashStream.cancel
    refine (returns_letGo_onEngine hstanding hon).bind fun t e' hleft => ?_
    rw [discard_of_free hleft.1]
    exact returns_pure hleft.2
  discard e := returns_discard_onEngine hstanding hon

/-! ## With a path and without -/

/-- One competition of a fresh operation for the engine, and the path that it gave. -/
def Contest (algorithm : Algorithm) (path : Path) (calls : List Event) : Prop :=
  ∃ won phase phase', Contested (.fresh algorithm) phase (path, won) calls phase'

/-- A stream has a path for good, and has made these calls since it was given the path. -/
inductive Committed (ρ κ μ : Type) [RegisterBlock ρ] [GatedClock κ] [EngineMutex μ] :
    Path → HashStream → List Event → Prop
  | inSoftware {s : HashStream} : s.InSoftware ρ κ μ → Committed ρ κ μ .software s []
  | onEngine {s : HashStream} {calls} : s.OnEngine ρ κ μ → (∀ event ∈ calls, event.isOnRegisters = true) →
      Committed ρ κ μ .hardware s calls

/-- A stream without a path, after so many bytes. Those that leave its first block open are no call on
the platform; with those that complete it, or with the end of the message, the stream asks for the engine
and goes on as it would have with the path given. To ask is one competition; and to give the stream up is
no call. -/
structure Uncommitted (ρ κ μ : Type) [RegisterBlock ρ] [GatedClock κ] [EngineMutex μ]
    (s : HashStream) (count : Nat) : Prop where
  short : ∀ bytes : List UInt8, count + bytes.length < s.algorithm.blockSize →
    ∃ s', s.absorb bytes = (pure (.ok (), s') : EngineM ρ κ μ _) ∧ s'.operation = s.operation
  completing : ∀ bytes : List UInt8, s.algorithm.blockSize ≤ count + bytes.length → s.absorb bytes =
    (acquire s.operation >>= fun r => absorb { s with operation := r.2 } bytes : EngineM ρ κ μ _)
  finish : s.finish =
    (acquire s.operation >>= fun r => HashStream.finish { s with operation := r.2 } : EngineM ρ κ μ _)
  asking : ∀ e : Engine ρ κ μ, Always (acquire s.operation) e fun r e' => ∃ path contest,
    r.1 = .ok path ∧ Contest s.algorithm path contest ∧ e'.history = contest ++ e.history ∧
      Committed ρ κ μ path { s with operation := r.2 } []
  cancel : s.cancel = (pure () : EngineM ρ κ μ _)
  discard : s.discard = (pure () : EngineM ρ κ μ _)

theorem Took.uncommitted {message : List UInt8} {blocks : List (List UInt8)}
    (h : s.Took message blocks) (hfresh : s.operation = .fresh s.algorithm)
    (hviable : Viable s.operation s.chain blocks) (hsound : s.failed = false)
    (hshort : message.length < s.algorithm.blockSize) : s.Uncommitted ρ κ μ message.length := by
  have hmode : s.operation.mode = .uncommitted := by rw [hfresh]; rfl
  have hfree : s.operation.isHolding = false := by rw [hfresh]; rfl
  have hwaiting : s.waiting = message.length := by
    rw [h.message_eq, h.eq_nil_iff.2 hshort]
    exact h.length_tail.symm
  constructor
  · intro bytes hfew
    obtain ⟨s', hrun, hsame, -⟩ := h.absorb_short hsound (ρ := ρ) (κ := κ) (μ := μ)
      (by rwa [List.length_append])
    exact ⟨s', hrun, hsame⟩
  · intro bytes hmany
    exact absorb_of_uncommitted bytes hmode hsound h.waiting_lt (by rwa [hwaiting])
  · exact finish_of_uncommitted hmode hsound h.waiting_lt
  · intro e
    refine (always_acquire_contested hmode).mono fun r e' he => ?_
    obtain ⟨outcome, won⟩ := r
    obtain ⟨path, contest, rfl, hhistory, hcontested⟩ := he
    have hwon : Advanced s.operation won contest := .contested hmode hcontested
    have hcapable := hwon.capable ⟨hviable.settled, hviable.unit⟩
    have hstanding := hwon.standing (hfresh ▸ Operation.standing_fresh s.algorithm)
    have hsame : won.algorithm = s.algorithm := hwon.algorithm_eq
    have hpath := hcontested.competed.isOn
    refine ⟨path, contest, rfl, ⟨won, e.phase, e'.phase, hfresh ▸ hcontested⟩, hhistory, ?_⟩
    cases path with
    | hardware => exact .onEngine (onEngine_of_isOnEngine hpath hcapable hstanding) (by simp)
    | software =>
      refine .inSoftware (inSoftware_of_mode hpath (hstanding.isHolding_eq
        (hstanding.inSoftware hpath)) ?_ hsound ?_)
      · exact hviable.width.trans (congrArg Algorithm.isWide hsame.symm)
      · exact Nat.lt_of_lt_of_eq h.waiting_lt (congrArg Algorithm.blockSize hsame.symm)
  · exact cancel_of_free hfree
  · exact discard_of_free hfree

/-! ## One update after another -/

/-- The bytes that some updates, with their answers, handed over up to the first that failed, which is
counted in. -/
def bytesGiven : List (List UInt8 × Except Fault Unit) → Nat
  | [] => 0
  | (bytes, .ok ()) :: rest => bytes.length + bytesGiven rest
  | (bytes, .error _) :: _ => bytes.length

section Updates

variable {updates : List (List UInt8 × Except Fault Unit)}

theorem bytesGiven_concat (h : ∀ update ∈ updates, update.2 = .ok ()) (bytes : List UInt8)
    (outcome : Except Fault Unit) :
    bytesGiven (updates ++ [(bytes, outcome)]) = bytesGiven updates + bytes.length := by
  induction updates with
  | nil => cases outcome <;> simp [bytesGiven]
  | cons update rest ih =>
    obtain ⟨part, answer⟩ := update
    obtain ⟨rfl, hrest⟩ := List.forall_mem_cons.1 h
    rw [List.cons_append, bytesGiven, bytesGiven, ih hrest, Nat.add_assoc]

theorem bytesGiven_append_of_failed (h : ∃ update ∈ updates, update.2 ≠ .ok ())
    (later : List (List UInt8 × Except Fault Unit)) :
    bytesGiven (updates ++ later) = bytesGiven updates := by
  induction updates with
  | nil => simp at h
  | cons update rest ih =>
    obtain ⟨part, answer⟩ := update
    cases answer with
    | error fault => rfl
    | ok =>
      have hrest : ∃ update ∈ rest, update.2 ≠ .ok () := by simpa using h
      rw [List.cons_append, bytesGiven, bytesGiven, ih hrest]

end Updates

/-- **Every run of updates** on a stream: the parts that it was handed with the answers, oldest first, and
its own calls on the platform, newest first. Each part is handed over whatever the engine is then. -/
inductive Updated (ρ κ μ : Type) [RegisterBlock ρ] [GatedClock κ] [EngineMutex μ]
    (first : HashStream) :
    HashStream → List (List UInt8 × Except Fault Unit) → List Event → Prop
  | none : Updated ρ κ μ first first [] []
  | absorb {s s' : HashStream} {updates trace newer} {e e' : Engine ρ κ μ} {bytes outcome} :
      Updated ρ κ μ first s updates trace → (s.absorb bytes).run e = some ((outcome, s'), e') →
      e'.history = newer ++ e.history →
      Updated ρ κ μ first s' (updates ++ [(bytes, outcome)]) (newer ++ trace)

/-- Where a stream of an operation stands in its message. It goes on, with all that it was handed, and what
was fewer than a block has changed nothing; or it has failed on the engine, by a block at least. -/
inductive Progress (a : Operation) (s : HashStream)
    (updates : List (List UInt8 × Except Fault Unit)) (trace : List Event) : Prop
  | sound {message blocks} : (∀ update ∈ updates, update.2 = .ok ()) →
      message.length = bytesGiven updates → s.failed = false →
      s.length = BitVec.ofNat 128 message.length → s.Took message blocks →
      Viable s.operation s.chain blocks →
      (message.length < s.algorithm.blockSize → s.operation = a ∧ trace = []) →
      Progress a s updates trace
  | failed : (∃ update ∈ updates, update.2 ≠ .ok ()) → s.failed = true →
      s.operation.isOnEngine = true → s.algorithm.blockSize ≤ bytesGiven updates →
      Progress a s updates trace

theorem Progress.absorb {a : Operation} {updates : List (List UInt8 × Except Fault Unit)}
    {trace : List Event} (h : Progress a s updates trace) (bytes : List UInt8) :
    Always (s.absorb bytes) e fun r e' => ∀ newer, e'.history = newer ++ e.history →
      Progress a r.2 (updates ++ [(bytes, r.1)]) (newer ++ trace) := by
  cases h with
  | failed hsome hfailed hon hmany =>
    rw [absorb_of_failed hfailed, always_pure]
    intro newer _
    have hcount := bytesGiven_append_of_failed hsome [(bytes, .error .alreadyFailed)]
    obtain ⟨update, hmem, hfault⟩ := hsome
    exact .failed ⟨update, List.mem_append_left _ hmem, hfault⟩ hfailed hon (hcount ▸ hmany)
  | @sound message blocks hall hmessage hsound hlength htook hviable hfew =>
    have hnext : ∀ outcome,
        (message ++ bytes).length = bytesGiven (updates ++ [(bytes, outcome)]) := fun outcome => by
      rw [bytesGiven_concat hall, List.length_append, hmessage]
    have hdone : ∀ update ∈ updates ++ [(bytes, (.ok () : Except Fault Unit))],
        update.2 = .ok () :=
      List.forall_mem_append.2 ⟨hall, fun update hmem => by rw [List.mem_singleton.1 hmem]⟩
    by_cases hshort : (message ++ bytes).length < s.algorithm.blockSize
    · -- the bytes wait, and nobody is asked for anything
      obtain ⟨s', hrun, hoperation, hchain, hsound', hlength', htook'⟩ :=
        htook.absorb_short hsound hshort (ρ := ρ) (κ := κ) (μ := μ)
      rw [hrun, always_pure]
      intro newer hhistory
      obtain rfl : newer = [] := List.self_eq_append_left.1 hhistory
      have hbefore : message.length < s.algorithm.blockSize := by
        rw [List.length_append] at hshort
        omega
      obtain ⟨hsame, rfl⟩ := hfew hbefore
      refine .sound hdone (hnext _) hsound' ?_ htook' ?_ fun _ => ⟨hoperation.trans hsame, rfl⟩
      · rw [hlength', List.length_append, BitVec.ofNat_add, ← hlength]
      · rwa [hoperation, hchain]
    · -- a block is complete: the path takes it, or fails
      have hfed : s.Fed (fun a chain blocks (_ : Engine ρ κ μ) => Viable a chain blocks) message e :=
        ⟨hsound, hlength, blocks, htook, hviable⟩
      refine (absorb_viable bytes hfed).mono fun r e' he newer _ => ?_
      obtain ⟨outcome, s'⟩ := r
      obtain ⟨halgorithm, he⟩ := he
      cases outcome with
      | ok =>
        obtain ⟨blocks', htook', hviable'⟩ := he.taken
        exact .sound hdone (hnext _) he.sound he.length_eq htook' hviable' fun hfew' =>
          absurd (halgorithm ▸ hfew') hshort
      | error fault =>
        refine .failed ⟨(bytes, .error fault), List.mem_append_right _ List.mem_cons_self, by simp⟩
          he.2.1 he.2.2 ?_
        rw [halgorithm, ← hnext]
        exact Nat.not_lt.1 hshort

namespace Updated

variable {a : Operation} {updates : List (List UInt8 × Except Fault Unit)} {trace : List Event}

theorem progress (hviable : Viable a (.initial a.algorithm) [])
    (h : Updated ρ κ μ (.ofOperation a) s updates trace) : Progress a s updates trace := by
  induction h with
  | none =>
    have htook : Took (ofOperation a) [] [] := took_nil rfl
    exact .sound (by simp) rfl rfl rfl htook hviable fun _ => ⟨rfl, rfl⟩
  | absorb _ hrun hhistory ih => exact ih.absorb _ _ _ hrun _ hhistory

/-- Its own calls have moved the stream's operation. -/
theorem advanced {first : HashStream} (ha : first.operation.Capable)
    (h : Updated ρ κ μ first s updates trace) :
    Advanced first.operation s.operation trace := by
  induction h with
  | none => exact .still
  | @absorb s s' updates trace newer e e' bytes outcome _ hrun hhistory ih =>
    have hmoved := (keptByBlocks_moved e (ih.capable ha)).absorb bytes (.of_history rfl) _ _ hrun
    obtain ⟨calls, hcalls, hadvanced⟩ := hmoved
    obtain rfl : newer = calls := List.append_cancel_right (hhistory.symm.trans hcalls)
    exact ih.trans hadvanced

theorem trans {first second : HashStream} {later : List (List UInt8 × Except Fault Unit)}
    {trace' : List Event} (h : Updated ρ κ μ first second updates trace)
    (h' : Updated ρ κ μ second s later trace') :
    Updated ρ κ μ first s (updates ++ later) (trace' ++ trace) := by
  induction h' with
  | none => rwa [List.append_nil]
  | absorb _ hrun hhistory ih =>
    rw [← List.append_assoc, List.append_assoc _ _ trace]
    exact ih.absorb hrun hhistory

end Updated

/-! ## The commitment -/

/-- What a stream of an algorithm with a unit is after so many bytes, and what calls it has made. -/
structure CommitsOnce (ρ κ μ : Type) [RegisterBlock ρ] [GatedClock κ] [EngineMutex μ]
    (algorithm : Algorithm) (s : HashStream) (count : Nat) (trace : List Event) : Prop where
  uncommitted_iff : s.operation.mode = .uncommitted ↔ count < algorithm.blockSize
  before : count < algorithm.blockSize → trace = [] ∧ s.Uncommitted ρ κ μ count
  after : algorithm.blockSize ≤ count → ∃ path contest calls, Contest algorithm path contest ∧
    trace = calls ++ contest ∧ Committed ρ κ μ path s calls ∧
    ∀ s' later trace', Updated ρ κ μ s s' later trace' → Committed ρ κ μ path s' trace'

section Commitment

variable {a : Operation} {updates : List (List UInt8 × Except Fault Unit)} {trace : List Event}

theorem Updated.standing {first : HashStream} (ha : first.operation.Capable)
    (hstanding : first.operation.Standing) (h : Updated ρ κ μ first s updates trace) :
    s.operation.Standing :=
  (h.advanced ha).standing hstanding

/-- A stream whose operation is in software is there altogether. -/
theorem Updated.inSoftware (hviable : Viable a (.initial a.algorithm) []) (hstanding : a.Standing)
    (h : Updated ρ κ μ (.ofOperation a) s updates trace) (hmode : s.operation.mode = .software) :
    s.InSoftware ρ κ μ := by
  have hown := h.standing ⟨hviable.settled, hviable.unit⟩ hstanding
  cases h.progress hviable with
  | failed _ _ hon _ => exact absurd hmode (Operation.mode_of_isOnEngine hon).2.1
  | sound _ _ hsound _ htook hviable _ =>
    exact inSoftware_of_mode hmode (hown.isHolding_eq (hown.inSoftware hmode)) hviable.width hsound
      htook.waiting_lt

/-- And one whose operation was given a path stays on it. -/
theorem Updated.committed {path : Path} {before : Operation} {calls : List Event}
    (hviable : Viable a (.initial a.algorithm) []) (hstanding : a.Standing)
    (h : Updated ρ κ μ (.ofOperation a) s updates trace)
    (hpath : before.IsOn path)
    (hadvanced : Advanced before s.operation calls) : Committed ρ κ μ path s calls := by
  have hcapable : a.Capable := ⟨hviable.settled, hviable.unit⟩
  cases path with
  | hardware =>
    obtain ⟨hon, hcalls⟩ := hadvanced.of_isOnEngine hpath
    exact .onEngine (onEngine_of_isOnEngine hon ((h.advanced hcapable).capable hcapable)
      (h.standing hcapable hstanding)) hcalls
  | software =>
    obtain ⟨hsame, rfl⟩ := hadvanced.of_software hpath
    exact .inSoftware (h.inSoftware hviable hstanding (hsame ▸ hpath))

section Fresh

variable {algorithm : Algorithm} (hunit : algorithm.unit?.isSome = true)
variable (h : Updated ρ κ μ (.ofOperation (.fresh algorithm)) s updates trace)

include hunit h

theorem Updated.advanced_of_fresh : Advanced (.fresh algorithm) s.operation trace :=
  h.advanced ⟨(fun hmode => by cases hmode), fun _ => hunit⟩

/-- Whether there is a path is a matter of the bytes alone. -/
theorem Updated.uncommitted_iff :
    s.operation.mode = .uncommitted ↔ bytesGiven updates < algorithm.blockSize := by
  have halgorithm : s.algorithm = algorithm := (h.advanced_of_fresh hunit).algorithm_eq
  cases h.progress (.fresh hunit) with
  | failed _ _ hon hmany =>
    rw [halgorithm] at hmany
    exact iff_of_false (Operation.mode_of_isOnEngine hon).1 (Nat.not_lt.2 hmany)
  | sound _ hmessage _ _ htook hviable hfew =>
    rw [← hmessage, ← halgorithm]
    constructor
    · intro hmode
      exact htook.eq_nil_iff.1 (hviable.begun (by simp [Operation.isBeforeFirstBlock, hmode]))
    · intro hshort
      rw [(hfew hshort).1]
      rfl

/-- Without a path a stream is as it began. -/
theorem Updated.uncommitted (hmode : s.operation.mode = .uncommitted) :
    trace = [] ∧ s.Uncommitted ρ κ μ (bytesGiven updates) := by
  have hadvanced := h.advanced_of_fresh hunit
  have halgorithm : s.algorithm = algorithm := hadvanced.algorithm_eq
  obtain ⟨hsame, hnothing⟩ := hadvanced.eq_of_uncommitted hmode
  have hshort := (h.uncommitted_iff hunit).1 hmode
  refine ⟨hnothing, ?_⟩
  cases h.progress (.fresh hunit) with
  | failed _ _ hon _ => exact absurd hmode (Operation.mode_of_isOnEngine hon).1
  | sound _ hmessage hsound _ htook hviable _ =>
    rw [← hmessage]
    exact htook.uncommitted (by rw [halgorithm]; exact hsame) hviable hsound
      (by rwa [hmessage, halgorithm])

/-- A stream with a path was given it by one competition, and keeps it. -/
theorem Updated.contested (hcommitted : s.operation.mode ≠ .uncommitted) :
    ∃ path contest calls, Contest algorithm path contest ∧ trace = calls ++ contest ∧
      Committed ρ κ μ path s calls ∧
      ∀ s' later trace', Updated ρ κ μ s s' later trace' → Committed ρ κ μ path s' trace' := by
  have hviable : Viable (.fresh algorithm) (.initial algorithm) [] := .fresh hunit
  have hstanding := Operation.standing_fresh algorithm
  have hadvanced := h.advanced_of_fresh hunit
  rcases hadvanced.of_uncommitted rfl with ⟨hsame, -⟩ | hcontest
  · exact absurd (hsame ▸ rfl) hcommitted
  obtain ⟨path, won, contest, calls, phase, phase', hcontested, hwon, rfl⟩ := hcontest
  have hstays : Committed ρ κ μ path s calls :=
    h.committed hviable hstanding hcontested.competed.isOn hwon
  refine ⟨path, contest, calls, ⟨won, phase, phase', hcontested⟩, rfl, hstays, ?_⟩
  intro s' later trace' hlater
  have hpath : s.operation.IsOn path := by
    cases hstays with
    | inSoftware hsoftware => exact hsoftware.mode
    | onEngine hengine _ => exact hengine.isOnEngine
  have hcapable := hadvanced.capable ⟨hviable.settled, hviable.unit⟩
  exact (h.trans hlater).committed hviable hstanding hpath (hlater.advanced hcapable)

end Fresh

theorem Updated.commitsOnce {algorithm : Algorithm} (hunit : algorithm.unit?.isSome = true)
    (h : Updated ρ κ μ (.start algorithm) s updates trace) :
    CommitsOnce ρ κ μ algorithm s (bytesGiven updates) trace := by
  have hfresh : start algorithm = ofOperation (.fresh algorithm) := if_pos hunit
  rw [hfresh] at h
  have hiff := h.uncommitted_iff hunit
  refine ⟨hiff, fun hshort => h.uncommitted hunit (hiff.2 hshort), fun hlong => ?_⟩
  exact h.contested hunit fun hmode => absurd (hiff.1 hmode) (Nat.not_lt.2 hlong)

/-- **A stream commits once**, on every platform and by any updates. A stream of an algorithm with a unit
has no path exactly while the bytes that it was handed, up to the first update that failed, are fewer than
a block, and has made no call on the platform until then. The update that completes the block, or the end
of the message before that, begins by asking for the engine; so all that a stream with a path has called
is one competition for the engine, and then nothing in software and nothing but registers on the engine.
The path is the same after every further update, over whatever states of the engine; and a stream that is
in software, because it was not given the engine or because it was made without one, makes no call from
then on, in any update and however it ends. -/
theorem updates_commit_once :
    (∀ algorithm : Algorithm, algorithm.unit?.isSome = true → ∀ s updates trace,
      Updated ρ κ μ (.start algorithm) s updates trace →
      CommitsOnce ρ κ μ algorithm s (bytesGiven updates) trace) ∧
    (∀ (algorithm : Algorithm) first, first = inSoftware algorithm ∨
      algorithm.unit? = none ∧ first = start algorithm → ∀ s updates trace,
      Updated ρ κ μ first s updates trace → trace = [] ∧ s.InSoftware ρ κ μ) := by
  refine ⟨fun algorithm hunit s updates trace h => h.commitsOnce hunit,
    fun algorithm first hfirst s updates trace h => ?_⟩
  have hsame : first = ofOperation (.softwareOnly algorithm) := by
    rcases hfirst with rfl | ⟨hnone, rfl⟩
    · rfl
    · exact if_neg (by simp [hnone])
  rw [hsame] at h
  have hviable : Viable (.softwareOnly algorithm) (.initial algorithm) [] := .softwareOnly
  have hstanding := Operation.standing_softwareOnly algorithm
  obtain ⟨hmode, hnothing⟩ := (h.advanced ⟨hviable.settled, hviable.unit⟩).of_software rfl
  exact ⟨hnothing, h.inSoftware hviable hstanding (by rw [hmode]; rfl)⟩

/-- A stream whose first block finds the mutex taken is in software, and stays there with its second block,
although the mutex is free by then. -/
theorem exists_update_after_loss :
    ∃ (s s' : HashStream) (updates later : List (List UInt8 × Except Fault Unit))
      (trace trace' : List Event),
      Updated MappedMemory CountedClock CountedMutex (.start .sha256) s updates trace ∧
      bytesGiven updates = 64 ∧ s.operation.mode = .software ∧
      Updated MappedMemory CountedClock CountedMutex s s' later trace' ∧ bytesGiven later = 64 ∧
      trace' = [] ∧ s'.InSoftware MappedMemory CountedClock CountedMutex := by
  let block : List UInt8 := List.replicate 64 7
  let busy : Engine MappedMemory CountedClock CountedMutex :=
    { registers := {}, clock := {}, mutex := { locked := true }, phase := .ready }
  let free : Engine MappedMemory CountedClock CountedMutex := { busy with mutex := {} }
  have hruns : (((start .sha256).absorb block).run busy).any (fun r =>
      r.1.1.toBool && decide (r.1.2.operation.mode = .software) &&
        ((r.1.2.absorb block).run free).any fun r' => r'.1.1.toBool) = true := by
    decide +kernel
  obtain ⟨⟨⟨outcome, s⟩, e⟩, hrun, hrest⟩ := (Option.any_eq_true _ _).1 hruns
  simp only [Bool.and_eq_true, decide_eq_true_eq] at hrest
  obtain ⟨⟨hok, hmode⟩, hlater⟩ := hrest
  obtain ⟨⟨⟨outcome', s'⟩, e'⟩, hrun', hok'⟩ := (Option.any_eq_true _ _).1 hlater
  cases outcome with
  | error fault => cases hok
  | ok =>
    cases outcome' with
    | error fault => cases hok'
    | ok =>
      have hfirst : Updated MappedMemory CountedClock CountedMutex (.start .sha256) s
          [(block, .ok ())] (e.history ++ []) :=
        Updated.none.absorb hrun (List.append_nil _).symm
      have hcommits := updates_commit_once.1 .sha256 rfl s _ _ hfirst
      obtain ⟨path, contest, calls, -, -, hcommitted, hstays⟩ := hcommits.after (Nat.le_refl 64)
      have hsecond : Updated MappedMemory CountedClock CountedMutex s s' [(block, .ok ())]
          (e'.history ++ []) :=
        Updated.none.absorb hrun' (List.append_nil _).symm
      have hends := hstays s' _ _ hsecond
      cases hcommitted with
      | onEngine hengine _ =>
        exact absurd hmode (Operation.mode_of_isOnEngine hengine.isOnEngine).2.1
      | inSoftware _ =>
        generalize htrace : e'.history ++ [] = trace' at hsecond hends
        cases hends with
        | inSoftware hsoftware =>
          exact ⟨s, s', _, _, _, _, hfirst, rfl, hmode, hsecond, rfl, rfl, hsoftware⟩

end Commitment

end HashStream

end HashAccelerator
