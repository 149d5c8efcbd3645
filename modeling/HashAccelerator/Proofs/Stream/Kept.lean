import HashAccelerator.Proofs.Engine.Answers
import HashAccelerator.Proofs.Stream.Buffer
/-!
# Properties that streams keep

A stream reaches the platform through its operation only: it has the operation acquire the engine,
submit its blocks, fetch its digest and release what it holds. So a property of an operation and
the engine that these four keep is kept by every call on a stream, and a stream that has ended has
left it with an operation that does not hold the mutex.
-/

namespace HashAccelerator

open EngineM

variable {ρ κ μ : Type} [RegisterBlock ρ] [GatedClock κ] [EngineMutex μ]
variable {J : Operation → Engine ρ κ μ → Prop} {engine : Engine ρ κ μ} {stream : HashStream}

/-- What the calls by which an operation's blocks reach their path keep of it and the engine. -/
structure KeptByBlocks (J : Operation → Engine ρ κ μ → Prop) : Prop where
  note : ∀ {a e n}, J a e → J a { e with notices := n :: e.notices }
  acquire : ∀ {a e}, J a e → Always (EngineM.acquire a) e fun answer e' => J answer.2 e'
  submit : ∀ {a e} words, J a e → Always (EngineM.submit a words) e fun answer e' => J answer.2 e'

/-- What the calls of an operation keep of it and the engine. -/
structure KeptByCalls (J : Operation → Engine ρ κ μ → Prop) : Prop extends KeptByBlocks J where
  fetch : ∀ {a e} out, J a e → Always (EngineM.fetch a out) e fun _ e' => J a e'
  release : ∀ {a e}, J a e → Always (EngineM.release a) e fun a' e' => J a' e'

/-- What the register protocol keeps of the engine, calls keep whatever the operation. -/
theorem EngineM.KeptByProtocol.calls {I : Engine ρ κ μ → Prop}
    (hI : KeptByProtocol (fun _ => True) I) : KeptByCalls fun _ e => I e where
  note := hI.note
  acquire := hI.acquire _
  submit words := hI.submit _ words
  fetch out := hI.fetch _ out trivial
  release := hI.release _

theorem EngineM.Kept.calls {I : Engine ρ κ μ → Prop} (hI : Kept I) :
    KeptByCalls fun _ e => I e :=
  hI.protocol.calls

/-- Two properties are kept together. -/
theorem KeptByCalls.and {J' : Operation → Engine ρ κ μ → Prop} (hJ : KeptByCalls J)
    (hJ' : KeptByCalls J') : KeptByCalls fun a e => J a e ∧ J' a e where
  note h := ⟨hJ.note h.1, hJ'.note h.2⟩
  acquire h := (hJ.acquire h.1).and (hJ'.acquire h.2)
  submit words h := (hJ.submit words h.1).and (hJ'.submit words h.2)
  fetch out h := (hJ.fetch out h.1).and (hJ'.fetch out h.2)
  release h := (hJ.release h.1).and (hJ'.release h.2)

omit [RegisterBlock ρ] in
/-- **Letting go ends the hold on the mutex**, and is a release if it is anything. -/
theorem HashStream.always_letGo
    (hrelease : ∀ {a e}, a.isHolding = true → J a e →
      Always (EngineM.release a) e fun a' e' => J a' e')
    (h : J stream.operation engine) : Always stream.letGo engine fun s e =>
      J s.operation e ∧ s.operation.holdsMutex = false := by
  refine Always.ite (fun hholding => ?_) fun hnot => ?_
  · have hreleased := (always_release stream.operation).and (hrelease hholding h)
    simpa only [always_bind, always_pure] using hreleased.mono fun a e ha =>
      ⟨ha.2, by rw [ha.1, Operation.released]⟩
  · simp only [Operation.isHolding, Bool.or_eq_true, not_or, Bool.not_eq_true] at hnot
    simpa using ⟨h, hnot.1⟩

omit [RegisterBlock ρ] in
theorem HashStream.always_discard
    (hrelease : ∀ {a e}, a.isHolding = true → J a e →
      Always (EngineM.release a) e fun a' e' => J a' e')
    (h : J stream.operation engine) : Always stream.discard engine fun _ e =>
      ∃ a, J a e ∧ a.holdsMutex = false := by
  simp only [HashStream.discard, always_bind, always_pure]
  exact (always_letGo hrelease h).mono fun s e he => ⟨s.operation, he⟩

omit [GatedClock κ] [EngineMutex μ] in
/-- A digest is fetched, if the stream is on the engine. -/
theorem HashStream.always_collect
    (hfetch : ∀ {a e} out, J a e → Always (EngineM.fetch a out) e fun _ e' => J a e')
    (h : J stream.operation engine) :
    Always stream.collect engine fun _ e => J stream.operation e := by
  simp only [HashStream.collect]
  cases stream.operation.mode with
  | hardware first => simpa using hfetch _ h
  | software => simpa using h
  | unsettled => simpa using h
  | uncommitted => simpa using h

/-! ## Blocks -/

namespace KeptByBlocks

variable (hJ : KeptByBlocks J)

include hJ

theorem choosePath (h : J stream.operation engine) :
    Always stream.choosePath engine fun r e => J r.2.operation e := by
  refine Always.ite (fun _ => ?_) fun _ => by simpa using h
  simpa using hJ.acquire h

theorem dispatch (bits? : Option (BitVec 128)) (h : J stream.operation engine) :
    Always (stream.dispatch bits?) engine fun r e => J r.2.operation e := by
  simp only [HashStream.dispatch, always_bind]
  refine (hJ.choosePath h).mono fun r e he => ?_
  obtain ⟨outcome, stream⟩ := r
  cases outcome with
  | error fault => simpa using he
  | ok =>
    dsimp only
    cases stream.operation.mode with
    | hardware first => simpa using hJ.submit _ he
    | software =>
      dsimp only
      cases stream.chain.compress stream.algorithm (stream.bytesForSoftware bits?) with
      | ok chain => simpa using he
      | error fault => simpa using he
    | unsettled => simpa using he
    | uncommitted => simpa using he

theorem flush (bits? : Option (BitVec 128)) (h : J stream.operation engine) :
    Always (stream.flush bits?) engine fun r e => J r.2.operation e := by
  simp only [HashStream.flush, always_bind]
  refine (hJ.dispatch bits? h).mono fun r e he => ?_
  obtain ⟨outcome, stream⟩ := r
  cases outcome with
  | ok => simpa using he
  | error fault => simpa using hJ.note he

theorem absorbBytes (bytes : List UInt8) (h : J stream.operation engine) :
    Always (stream.absorbBytes bytes) engine fun r e => J r.2.operation e := by
  induction bytes generalizing stream engine with
  | nil => simpa [HashStream.absorbBytes] using h
  | cons byte rest ih =>
    simp only [HashStream.absorbBytes]
    have hpush : J (stream.push byte).operation engine := h
    refine Always.ite (fun _ => ?_) fun _ => ih hpush
    refine always_bind.2 ((hJ.flush none hpush).mono fun r e he => ?_)
    obtain ⟨outcome, stream⟩ := r
    cases outcome with
    | ok => exact ih he
    | error fault => simpa using he

theorem absorb (bytes : List UInt8) (h : J stream.operation engine) :
    Always (stream.absorb bytes) engine fun r e => J r.2.operation e :=
  Always.ite (fun _ => by simpa using h) fun _ => hJ.absorbBytes bytes h

theorem absorbAll (parts : List (List UInt8)) (h : J stream.operation engine) :
    Always (stream.absorbAll parts) engine fun r e => J r.2.operation e := by
  induction parts generalizing stream engine with
  | nil => simpa [HashStream.absorbAll] using h
  | cons part rest ih =>
    simp only [HashStream.absorbAll, always_bind]
    refine (hJ.absorb part h).mono fun r e he => ?_
    obtain ⟨outcome, stream⟩ := r
    cases outcome with
    | ok => exact ih he
    | error fault => simpa using he

theorem makeRoom (h : J stream.operation engine) :
    Always stream.makeRoom engine fun r e => J r.2.operation e := by
  refine Always.ite (fun _ => ?_) fun _ => by simpa using h
  refine always_bind.2 ((hJ.flush none h).mono fun r e he => ?_)
  obtain ⟨outcome, stream⟩ := r
  cases outcome with
  | ok => simpa using he
  | error fault => simpa using he

theorem closeMessage (bits : BitVec 128) (h : J stream.operation engine) :
    Always (stream.closeMessage bits) engine fun r e => J r.2.operation e := by
  unfold HashStream.closeMessage
  split
  · exact hJ.flush (some bits) h
  · refine hJ.flush none ?_
    simpa using h

/-- The end of a message, by what collecting the digest keeps and what letting go leaves. -/
theorem complete {L : Operation → Engine ρ κ μ → Prop}
    (hcollect : ∀ {s : HashStream} {e}, J s.operation e →
      Always s.collect e fun _ e' => J s.operation e')
    (hletGo : ∀ {s : HashStream} {e}, J s.operation e →
      Always s.letGo e fun s' e' => L s'.operation e')
    (hleft : ∀ {a e}, J a e → L a e) (h : J stream.operation engine) :
    Always stream.complete engine fun r e => L r.2.operation e := by
  simp only [HashStream.complete, always_bind]
  have hended : J stream.terminate.operation engine := by simpa using h
  refine (hJ.makeRoom hended).mono fun r e he => ?_
  obtain ⟨outcome, roomy⟩ := r
  cases outcome with
  | error fault => simpa using hleft he
  | ok =>
    refine always_bind.2 ((hJ.closeMessage _ he).mono fun r e he => ?_)
    obtain ⟨outcome, closed⟩ := r
    cases outcome with
    | error fault => simpa using hleft he
    | ok =>
      simp only [always_bind, always_pure]
      exact (hcollect he).mono fun digest e he => hletGo he

end KeptByBlocks

/-! ## Whole lives -/

namespace KeptByCalls

variable (hJ : KeptByCalls J)

include hJ

theorem letGo (h : J stream.operation engine) :
    Always (stream.letGo : EngineM ρ κ μ _) engine fun s e =>
      J s.operation e ∧ s.operation.holdsMutex = false :=
  HashStream.always_letGo (fun _ => hJ.release) h

theorem discard (h : J stream.operation engine) :
    Always (stream.discard : EngineM ρ κ μ _) engine fun _ e =>
      ∃ a, J a e ∧ a.holdsMutex = false :=
  HashStream.always_discard (fun _ => hJ.release) h

theorem cancel (h : J stream.operation engine) :
    Always (stream.cancel : EngineM ρ κ μ _) engine fun _ e =>
      ∃ a, J a e ∧ a.holdsMutex = false := by
  simp only [HashStream.cancel, always_bind]
  exact (hJ.letGo h).mono fun s e he => hJ.discard he.1

theorem complete (h : J stream.operation engine) :
    Always stream.complete engine fun r e => J r.2.operation e :=
  hJ.toKeptByBlocks.complete (HashStream.always_collect hJ.fetch)
    (fun he => (hJ.letGo he).mono fun _ _ h => h.1) id h

theorem finish (h : J stream.operation engine) :
    Always stream.finish engine fun _ e => ∃ a, J a e ∧ a.holdsMutex = false := by
  refine Always.ite (fun _ => ?_) fun _ => ?_
  · simpa using hJ.discard h
  · simp only [always_bind, always_pure]
    exact (hJ.complete h).mono fun r e he => hJ.discard he

/-- **A whole life keeps what the calls keep.** -/
theorem digest (algorithm : Algorithm) (message : List UInt8)
    (h : J (HashStream.start algorithm).operation engine) :
    Always (EngineM.digest algorithm message) engine fun _ e =>
      ∃ a, J a e ∧ a.holdsMutex = false := by
  simp only [EngineM.digest, always_bind]
  refine (hJ.absorb message h).mono fun r e he => ?_
  obtain ⟨outcome, stream⟩ := r
  cases outcome with
  | ok => exact hJ.finish he
  | error fault => simpa using hJ.discard he

end KeptByCalls

end HashAccelerator
