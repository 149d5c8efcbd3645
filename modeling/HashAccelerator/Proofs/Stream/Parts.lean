import HashAccelerator.Platform.Clock
import HashAccelerator.Platform.Mutex
import HashAccelerator.Platform.Peripheral
import HashAccelerator.Proofs.Stream.Intake
import HashAccelerator.Proofs.Stream.Return
import HashAccelerator.Proofs.Stream.Slices
/-!
# Messages in parts

A message may come in any number of parts, empty ones among them, and nobody can tell afterwards how
it was cut: neither from the digest or the fault, nor from what the platform was asked for on the
way, nor from the log. Two parts are worth as much as the two together
(`HashStream.absorb_append`), and the whole of the parts follows by induction on them.

Only one thing in a stream depends on the cut, and only in a stream that has failed: its count of
bytes, which takes in a part as a whole before the first of its blocks is flushed. No call on such a
stream looks at the count, which is what `HashStream.recount` is about.
-/

namespace HashAccelerator

open EngineM

variable {ρ κ μ : Type} [RegisterBlock ρ] [GatedClock κ] [EngineMutex μ]

namespace HashStream

variable {s : HashStream} {e : Engine ρ κ μ}

/-! ## The count of bytes -/

/-- The stream with another count of its bytes. -/
def recount (length : BitVec 128) (s : HashStream) : HashStream := { s with length }

/-- The stream with some more bytes counted in. -/
def counted (s : HashStream) (bytes : List UInt8) : HashStream :=
  s.recount (s.length + BitVec.ofNat 128 bytes.length)

@[simp] theorem operation_recount (length : BitVec 128) :
    (s.recount length).operation = s.operation := rfl

@[simp] theorem chain_recount (length : BitVec 128) :
    (s.recount length).chain = s.chain := rfl

@[simp] theorem algorithm_recount (length : BitVec 128) :
    (s.recount length).algorithm = s.algorithm := rfl

@[simp] theorem bytesForSoftware_recount (length : BitVec 128) (bits? : Option (BitVec 128)) :
    (s.recount length).bytesForSoftware bits? = s.bytesForSoftware bits? := rfl

theorem push_recount (length : BitVec 128) (byte : UInt8) :
    (s.recount length).push byte = (s.push byte).recount length := rfl

omit [RegisterBlock ρ] in
theorem choosePath_recount (length : BitVec 128) :
    (s.recount length).choosePath =
      Prod.map id (recount length) <$> (s.choosePath : EngineM ρ κ μ _) := by
  unfold choosePath
  rw [operation_recount]
  split
  · simp only [map_bind, map_pure]
    rfl
  · rfl

theorem dispatch_recount (length : BitVec 128) (bits? : Option (BitVec 128)) :
    (s.recount length).dispatch bits? =
      Prod.map id (recount length) <$> (s.dispatch bits? : EngineM ρ κ μ _) := by
  unfold dispatch
  rw [choosePath_recount, bind_map_left, map_bind]
  refine bind_congr fun r => ?_
  obtain ⟨outcome, s'⟩ := r
  cases outcome with
  | error fault => rfl
  | ok =>
    dsimp only [Prod.map_apply, id_eq]
    rw [operation_recount]
    cases s'.operation.mode with
    | hardware first =>
      simp only [map_bind, map_pure]
      rfl
    | software =>
      dsimp only [chain_recount, algorithm_recount, bytesForSoftware_recount]
      cases s'.chain.compress s'.algorithm (s'.bytesForSoftware bits?) with
      | ok chain => rfl
      | error fault => rfl
    | unsettled => rfl
    | uncommitted => rfl

/-- A flush does not look at the count. -/
theorem flush_recount (length : BitVec 128) (bits? : Option (BitVec 128)) :
    (s.recount length).flush bits? =
      Prod.map id (recount length) <$> (s.flush bits? : EngineM ρ κ μ _) := by
  unfold flush
  rw [dispatch_recount, bind_map_left, map_bind]
  refine bind_congr fun r => ?_
  obtain ⟨outcome, s'⟩ := r
  cases outcome with
  | ok => rfl
  | error fault =>
    simp only [map_bind, map_pure]
    rfl

/-- **Nor does the taking in of bytes**, once they are counted. -/
theorem absorbBytes_recount (length : BitVec 128) (bytes : List UInt8) :
    (s.recount length).absorbBytes bytes =
      Prod.map id (recount length) <$> (s.absorbBytes bytes : EngineM ρ κ μ _) := by
  induction bytes generalizing s with
  | nil => rfl
  | cons byte rest ih =>
    cases hfull : (s.push byte).isFull with
    | false =>
      rw [absorbBytes_of_open rest hfull, absorbBytes_of_open rest (by exact hfull)]
      exact ih (s := s.push byte)
    | true =>
      rw [absorbBytes_of_isFull rest hfull, absorbBytes_of_isFull rest (by exact hfull),
        push_recount, flush_recount, bind_map_left, map_bind]
      refine bind_congr fun r => ?_
      obtain ⟨outcome, s'⟩ := r
      cases outcome with
      | ok => exact ih (s := { s' with waiting := 0 })
      | error fault => rfl

/-! ## What taking in bytes leaves -/

theorem always_dispatch_failed (bits? : Option (BitVec 128)) :
    Always (s.dispatch bits?) e fun r _ => r.2.failed = s.failed := by
  have hchosen : Always s.choosePath e fun r _ => r.2.failed = s.failed :=
    Always.ite (fun _ => by simp) fun _ => by simp
  simp only [dispatch, always_bind]
  refine hchosen.mono fun r e' he => ?_
  obtain ⟨outcome, s'⟩ := r
  cases outcome with
  | error fault => simpa using he
  | ok =>
    dsimp only
    cases s'.operation.mode with
    | hardware first =>
      simp only [always_bind, always_pure]
      exact always_true.mono fun _ _ _ => he
    | software =>
      dsimp only
      cases s'.chain.compress s'.algorithm (s'.bytesForSoftware bits?) with
      | ok chain => simpa using he
      | error fault => simpa using he
    | unsettled => simpa using he
    | uncommitted => simpa using he

theorem always_flush_failed (bits? : Option (BitVec 128)) :
    Always (s.flush bits?) e fun r _ =>
      match r.1 with
      | .ok () => r.2.failed = s.failed
      | .error _ => r.2.failed = true := by
  simp only [flush, always_bind]
  refine (always_dispatch_failed bits?).mono fun r e' he => ?_
  obtain ⟨outcome, s'⟩ := r
  cases outcome with
  | ok => simpa using he
  | error fault => simp

/-- A fault is the end of a stream, and nothing else is. -/
theorem always_absorbBytes_failed (bytes : List UInt8) :
    Always (s.absorbBytes bytes) e fun r _ =>
      match r.1 with
      | .ok () => r.2.failed = s.failed
      | .error _ => r.2.failed = true := by
  induction bytes generalizing s e with
  | nil => exact always_pure.2 rfl
  | cons byte rest ih =>
    cases hfull : (s.push byte).isFull with
    | false =>
      rw [absorbBytes_of_open rest hfull]
      exact ih
    | true =>
      rw [absorbBytes_of_isFull rest hfull, always_bind]
      refine (always_flush_failed none).mono fun r e' he => ?_
      obtain ⟨outcome, s'⟩ := r
      cases outcome with
      | error fault => exact always_pure.2 he
      | ok =>
        refine (ih (s := { s' with waiting := 0 })).mono fun r _ hr => ?_
        obtain ⟨outcome, t⟩ := r
        cases outcome with
        | ok => exact hr.trans he
        | error fault => exact hr

/-- Bytes that are taken in leave room for the next one. -/
theorem always_absorbBytes_waiting (bytes : List UInt8)
    (hroom : s.waiting < s.algorithm.blockSize) :
    Always (s.absorbBytes bytes) e fun r _ =>
      r.1 = .ok () → r.2.waiting < r.2.algorithm.blockSize := by
  induction bytes generalizing s e with
  | nil => exact always_pure.2 fun _ => hroom
  | cons byte rest ih =>
    cases hfull : (s.push byte).isFull with
    | false =>
      rw [absorbBytes_of_open rest hfull]
      simp only [isFull, beq_eq_false_iff_ne] at hfull
      exact ih (Nat.lt_of_le_of_ne hroom hfull)
    | true =>
      rw [absorbBytes_of_isFull rest hfull, always_bind]
      refine always_true.mono fun r e' _ => ?_
      obtain ⟨outcome, s'⟩ := r
      cases outcome with
      | ok => exact ih s'.algorithm.blockSize_pos
      | error fault => simp

/-- The count is only changed where a part is taken in. -/
theorem always_absorbBytes_length (bytes : List UInt8) :
    Always (s.absorbBytes bytes) e fun r _ => r.2.length = s.length := by
  have hsame : (s.absorbBytes bytes : EngineM ρ κ μ _) =
      Prod.map id (recount s.length) <$> s.absorbBytes bytes := absorbBytes_recount s.length bytes
  rw [hsame, always_map]
  exact always_true.mono fun _ _ _ => rfl

/-! ## One part after another -/

theorem absorb_of_sound (hsound : s.failed = false) (bytes : List UInt8) :
    (s.absorb bytes : EngineM ρ κ μ _) = (s.counted bytes).absorbBytes bytes := by
  have hnot : ¬ s.failed = true := by simp [hsound]
  exact if_neg hnot

/-- A stream that could not take in a part has failed; one that could has not. -/
theorem always_absorb_failed (hsound : s.failed = false) (bytes : List UInt8) :
    Always (s.absorb bytes) e fun r _ =>
      match r.1 with
      | .ok () => r.2.failed = false
      | .error _ => r.2.failed = true := by
  rw [absorb_of_sound hsound, ← hsound]
  exact always_absorbBytes_failed bytes

theorem absorbBytes_append (first second : List UInt8) :
    (s.absorbBytes (first ++ second) : EngineM ρ κ μ _) = do
      match ← s.absorbBytes first with
      | (.ok (), taken) => taken.absorbBytes second
      | (.error fault, stuck) => return (.error fault, stuck) := by
  induction first generalizing s with
  | nil => rfl
  | cons byte rest ih =>
    rw [List.cons_append]
    cases hfull : (s.push byte).isFull with
    | false =>
      rw [absorbBytes_of_open _ hfull, absorbBytes_of_open _ hfull]
      exact ih
    | true =>
      rw [absorbBytes_of_isFull _ hfull, absorbBytes_of_isFull _ hfull, bind_assoc]
      refine bind_congr fun r => ?_
      obtain ⟨outcome, s'⟩ := r
      cases outcome with
      | ok => exact ih
      | error fault => rfl

/-- **Two parts are worth as much as the two together.** If the first is taken in, the second is
taken in after it; if it is not, only the count tells that there was to be a second. -/
theorem absorb_append (hsound : s.failed = false) (first second : List UInt8) :
    (s.absorb (first ++ second) : EngineM ρ κ μ _) = do
      match ← s.absorb first with
      | (.ok (), taken) => taken.absorb second
      | (.error fault, stuck) => return (.error fault, stuck.counted second) := by
  have hcount : s.counted (first ++ second) =
      (s.counted first).recount ((s.counted first).length + BitVec.ofNat 128 second.length) := by
    rw [counted, List.length_append, BitVec.ofNat_add, ← BitVec.add_assoc]
    rfl
  rw [absorb_of_sound hsound, absorb_of_sound hsound, hcount, absorbBytes_append,
    absorbBytes_recount, bind_map_left]
  refine Always.bind_congr fun e => ?_
  refine ((always_absorbBytes_length first).and (always_absorbBytes_failed first)).mono
    fun r e' he => ?_
  obtain ⟨outcome, s'⟩ := r
  obtain ⟨hlength, hfailed⟩ := he
  have hcounted : s'.recount ((s.counted first).length + BitVec.ofNat 128 second.length) =
      s'.counted second :=
    congrArg (fun length => s'.recount (length + BitVec.ofNat 128 second.length)) hlength.symm
  cases outcome with
  | ok =>
    have hgoes : s'.failed = false := hfailed.trans hsound
    dsimp only [Prod.map_apply, id_eq]
    rw [hcounted, absorb_of_sound hgoes]
  | error fault =>
    dsimp only [Prod.map_apply, id_eq]
    rw [hcounted]

/-! ## After a failure -/

/-- A stream that takes in nothing more and gives no digest. -/
structure Refuses (ρ κ μ : Type) [RegisterBlock ρ] [GatedClock κ] [EngineMutex μ]
    (s : HashStream) : Prop where
  absorb : ∀ bytes, (s.absorb bytes : EngineM ρ κ μ _) = pure (.error .alreadyFailed, s)
  finish : ∀ e : Engine ρ κ μ, Returns s.finish e fun outcome _ => outcome = .error .alreadyFailed

theorem refuses_of_failed (h : s.failed = true) : s.Refuses ρ κ μ where
  absorb bytes := absorb_of_failed h bytes
  finish e := by
    rw [finish_of_failed h]
    exact s.returns_discard.bind fun _ _ _ => returns_pure rfl

/-! ## Many parts -/

/-- Takes in all parts, whatever becomes of each. -/
def absorbEach (s : HashStream) : List (List UInt8) → EngineM ρ κ μ HashStream
  | [] => return s
  | part :: rest => do
    let (_, s') ← s.absorb part
    absorbEach s' rest

theorem absorbEach_of_failed (h : s.failed = true) (parts : List (List UInt8)) :
    (s.absorbEach parts : EngineM ρ κ μ _) = pure s := by
  induction parts with
  | nil => rfl
  | cons part rest ih =>
    rw [absorbEach, absorb_of_failed h]
    exact ih

/-- An end of a stream's life to which the count of a stream that has failed is nothing. -/
def Uncounting {α : Type} (ending : HashStream → EngineM ρ κ μ α) : Prop :=
  ∀ (s : HashStream) length, s.failed = true → ending (s.recount length) = ending s

omit [RegisterBlock ρ] in
theorem letGo_recount (length : BitVec 128) :
    (s.recount length).letGo = recount length <$> (s.letGo : EngineM ρ κ μ _) := by
  unfold letGo
  rw [operation_recount]
  split
  · simp only [map_bind, map_pure]
    rfl
  · rfl

omit [RegisterBlock ρ] in
theorem discard_recount (s : HashStream) (length : BitVec 128) :
    (s.recount length).discard = (s.discard : EngineM ρ κ μ _) := by
  rw [discard, letGo_recount, bind_map_left, discard]

omit [RegisterBlock ρ] in
theorem cancel_recount (s : HashStream) (length : BitVec 128) :
    (s.recount length).cancel = (s.cancel : EngineM ρ κ μ _) := by
  rw [cancel, letGo_recount, bind_map_left, cancel]
  exact bind_congr fun s' => discard_recount s' length

theorem uncounting_finish : Uncounting (finish : HashStream → EngineM ρ κ μ _) := by
  intro s length hfailed
  rw [finish_of_failed hfailed, finish_of_failed (by exact hfailed), discard_recount]

omit [RegisterBlock ρ] in
theorem uncounting_cancel : Uncounting (cancel : HashStream → EngineM ρ κ μ _) :=
  fun s length _ => cancel_recount s length

omit [RegisterBlock ρ] in
theorem uncounting_discard : Uncounting (discard : HashStream → EngineM ρ κ μ _) :=
  fun s length _ => discard_recount s length

theorem counted_nil (s : HashStream) : s.counted [] = s := by
  rw [counted, List.length_nil, BitVec.add_zero]
  rfl

/-- **Parts that are handed over one by one are as good as their whole**, up to the end of the
stream. -/
theorem absorbEach_bind {α : Type} {ending : HashStream → EngineM ρ κ μ α}
    (hending : Uncounting ending) (s : HashStream) (parts : List (List UInt8)) :
    (s.absorbEach parts >>= ending) = s.absorb parts.flatten >>= fun r => ending r.2 := by
  induction parts generalizing s with
  | nil =>
    cases hfailed : s.failed with
    | true =>
      rw [absorb_of_failed hfailed]
      rfl
    | false =>
      rw [List.flatten_nil, absorb_of_sound hfailed, counted_nil]
      rfl
  | cons part rest ih =>
    cases hfailed : s.failed with
    | true =>
      rw [absorb_of_failed hfailed, absorbEach_of_failed hfailed]
      rfl
    | false =>
      rw [List.flatten_cons, absorb_append hfailed, absorbEach, bind_assoc, bind_assoc]
      refine Always.bind_congr fun e => ?_
      refine (always_absorb_failed hfailed part).mono fun r e' he => ?_
      obtain ⟨outcome, s'⟩ := r
      dsimp only
      rw [ih]
      cases outcome with
      | ok => rfl
      | error fault =>
        -- the parts that are left change nothing but the count, and not even that one by one
        have hsame : ending (s'.counted rest.flatten) = ending s' := hending s' _ he
        rw [absorb_of_failed he, pure_bind, pure_bind, hsame]

/-- Nor does it matter that a caller stops at the first part that fails. -/
theorem absorbAll_bind {α : Type} {ending : HashStream → EngineM ρ κ μ α}
    (hending : Uncounting ending) (s : HashStream) (parts : List (List UInt8)) :
    (s.absorbAll parts >>= fun r => ending r.2) = s.absorb parts.flatten >>= fun r => ending r.2 := by
  rw [← absorbEach_bind hending]
  induction parts generalizing s with
  | nil => rfl
  | cons part rest ih =>
    rw [absorbAll, absorbEach, bind_assoc, bind_assoc]
    cases hfailed : s.failed with
    | true =>
      simp only [absorb_of_failed hfailed, pure_bind, absorbEach_of_failed hfailed]
    | false =>
      refine Always.bind_congr fun e => ?_
      refine (always_absorb_failed hfailed part).mono fun r e' he => ?_
      obtain ⟨outcome, s'⟩ := r
      cases outcome with
      | ok =>
        dsimp only
        rw [ih]
      | error fault =>
        dsimp only
        rw [absorbEach_of_failed he]
        rfl

/-- Two ways to come to a stream that no end of the stream tells apart. -/
structure EndAlike (one other : EngineM ρ κ μ HashStream) : Prop where
  finish : one >>= HashStream.finish = other >>= HashStream.finish
  cancel : one >>= HashStream.cancel = other >>= HashStream.cancel
  discard : one >>= HashStream.discard = other >>= HashStream.discard

theorem EndAlike.symm {one other : EngineM ρ κ μ HashStream} (h : EndAlike one other) :
    EndAlike other one :=
  ⟨h.finish.symm, h.cancel.symm, h.discard.symm⟩

theorem EndAlike.trans {one other third : EngineM ρ κ μ HashStream} (h : EndAlike one other)
    (h' : EndAlike other third) : EndAlike one third :=
  ⟨h.finish.trans h'.finish, h.cancel.trans h'.cancel, h.discard.trans h'.discard⟩

/-- However a message is cut, its parts come to streams that end alike. -/
theorem endAlike_absorbEach (s : HashStream) {parts parts' : List (List UInt8)}
    (h : parts.flatten = parts'.flatten) :
    EndAlike (s.absorbEach parts : EngineM ρ κ μ _) (s.absorbEach parts') := by
  have hsame : ∀ {α : Type} {ending : HashStream → EngineM ρ κ μ α}, Uncounting ending →
      s.absorbEach parts >>= ending = s.absorbEach parts' >>= ending := by
    intro α ending hending
    rw [absorbEach_bind hending, absorbEach_bind hending, h]
  exact ⟨hsame uncounting_finish, hsame uncounting_cancel, hsame uncounting_discard⟩

theorem endAlike_absorbAll (s : HashStream) (parts : List (List UInt8)) :
    EndAlike (Prod.snd <$> s.absorbAll parts : EngineM ρ κ μ _) (s.absorbEach parts) := by
  have hsame : ∀ {α : Type} {ending : HashStream → EngineM ρ κ μ α}, Uncounting ending →
      Prod.snd <$> s.absorbAll parts >>= ending = s.absorbEach parts >>= ending := by
    intro α ending hending
    rw [bind_map_left, absorbAll_bind hending, absorbEach_bind hending]
  exact ⟨hsame uncounting_finish, hsame uncounting_cancel, hsame uncounting_discard⟩

/-! ## Any stream -/

/-- The streams that there can be: one for any operation, after any parts of a message, each taken
in over whatever engine there was then. -/
inductive Attained (ρ κ μ : Type) [RegisterBlock ρ] [GatedClock κ] [EngineMutex μ] :
    HashStream → Prop
  | ofOperation (a : Operation) : Attained ρ κ μ (.ofOperation a)
  | absorb {s s' : HashStream} {e e' : Engine ρ κ μ} {bytes outcome} : Attained ρ κ μ s →
      (s.absorb bytes).run e = some ((outcome, s'), e') → Attained ρ κ μ s'

/-- A stream that goes on has room for a byte. -/
theorem Attained.waiting_lt (h : s.Attained ρ κ μ) (hsound : s.failed = false) :
    s.waiting < s.algorithm.blockSize := by
  induction h with
  | ofOperation a => exact a.algorithm.blockSize_pos
  | @absorb s s' e e' bytes outcome _ hrun ih =>
    cases hfailed : s.failed with
    | true =>
      -- it had failed before, so that nothing happened to it
      rw [absorb_of_failed hfailed] at hrun
      cases hrun
      exact absurd hfailed (by simp [hsound])
    | false =>
      have hended := always_absorb_failed hfailed bytes _ _ hrun
      rw [absorb_of_sound hfailed] at hrun
      have hroom := always_absorbBytes_waiting (s := s.counted bytes) bytes (ih hfailed) _ _ hrun
      cases outcome with
      | ok => exact hroom rfl
      | error fault => exact absurd hended (by simp [hsound])

/-- What it means for a stream that its message may be cut at will: in slices for the buffer, in two
parts of which the first is taken in or refused, and in many parts up to the end of the stream. Each
time the answers, the calls on the platform, the log and the stream are the same, but for the count
of a stream that has failed. -/
structure CutAtWill (ρ κ μ : Type) [RegisterBlock ρ] [GatedClock κ] [EngineMutex μ]
    (s : HashStream) : Prop where
  slices : s.failed = false → ∀ bytes,
    ∃ hroom : (s.counted bytes).waiting < (s.counted bytes).algorithm.blockSize,
      (s.absorb bytes : EngineM ρ κ μ _) = (s.counted bytes).absorbSlices hroom bytes
  taken : ∀ first second (e e' : Engine ρ κ μ) s',
    (s.absorb first).run e = some ((.ok (), s'), e') →
      (s.absorb (first ++ second)).run e = (s'.absorb second).run e'
  refused : ∀ first second (e e' : Engine ρ κ μ) s' fault,
    (s.absorb first).run e = some ((.error fault, s'), e') → ∃ length,
      (s.absorb (first ++ second)).run e = some ((.error fault, s'.recount length), e') ∧
      s'.Refuses ρ κ μ ∧ (s'.recount length).Refuses ρ κ μ
  endless : ∀ first second (e : Engine ρ κ μ),
    (s.absorb first).run e = none → (s.absorb (first ++ second)).run e = none
  each : ∀ parts parts', parts.flatten = parts'.flatten →
    EndAlike (s.absorbEach parts : EngineM ρ κ μ _) (s.absorbEach parts')
  all : ∀ parts parts', parts.flatten = parts'.flatten →
    EndAlike (Prod.snd <$> s.absorbAll parts : EngineM ρ κ μ _) (Prod.snd <$> s.absorbAll parts')

/-- **A message may be cut at will**, into slices and parts of any sizes, on every platform. -/
theorem Attained.cutAtWill (h : s.Attained ρ κ μ) : s.CutAtWill ρ κ μ where
  slices hsound bytes := by
    have hroom : (s.counted bytes).waiting < (s.counted bytes).algorithm.blockSize :=
      h.waiting_lt hsound
    refine ⟨hroom, ?_⟩
    rw [absorb_of_sound hsound, absorbBytes_eq_absorbSlices hroom]
  taken first second e e' s' hrun := by
    cases hfailed : s.failed with
    | true =>
      rw [absorb_of_failed hfailed] at hrun
      cases hrun
    | false =>
      rw [absorb_append hfailed, StateT.run_bind, hrun]
      rfl
  refused first second e e' s' fault hrun := by
    cases hfailed : s.failed with
    | true =>
      rw [absorb_of_failed hfailed] at hrun
      cases hrun
      refine ⟨s.length, ?_, refuses_of_failed hfailed, refuses_of_failed hfailed⟩
      rw [absorb_of_failed hfailed]
      rfl
    | false =>
      have hended : s'.failed = true := always_absorb_failed hfailed first _ _ hrun
      refine ⟨s'.length + BitVec.ofNat 128 second.length, ?_, refuses_of_failed hended,
        refuses_of_failed hended⟩
      rw [absorb_append hfailed, StateT.run_bind, hrun]
      rfl
  endless first second e hrun := by
    cases hfailed : s.failed with
    | true =>
      rw [absorb_of_failed hfailed] at hrun
      cases hrun
    | false =>
      rw [absorb_append hfailed, StateT.run_bind, hrun]
      rfl
  each parts parts' hsame := endAlike_absorbEach s hsame
  all parts parts' hsame := by
    have hone := endAlike_absorbAll (ρ := ρ) (κ := κ) (μ := μ) s parts
    have hother := endAlike_absorbAll (ρ := ρ) (κ := κ) (μ := μ) s parts'
    exact (hone.trans (endAlike_absorbEach s hsame)).trans hother.symm

/-- Three bytes of a message wait in the buffer of a stream, and what follows may be cut at will. -/
theorem exists_cutAtWill : ∃ s : HashStream, s.waiting = 3 ∧
    s.Attained Peripheral CountedClock CountedMutex ∧
    s.CutAtWill Peripheral CountedClock CountedMutex := by
  let engine : Engine Peripheral CountedClock CountedMutex :=
    { registers := {}, clock := {}, mutex := {} }
  have hrun : (((start .sha256).absorb [1, 2, 3]).run engine).any
      (fun r => r.1.2.waiting == 3) = true := by
    decide +kernel
  obtain ⟨r, hr, hwaiting⟩ := (Option.any_eq_true _ _).1 hrun
  have hattained : r.1.2.Attained Peripheral CountedClock CountedMutex :=
    .absorb (.ofOperation (.fresh .sha256)) hr
  exact ⟨r.1.2, eq_of_beq hwaiting, hattained, hattained.cutAtWill⟩

end HashStream

end HashAccelerator
