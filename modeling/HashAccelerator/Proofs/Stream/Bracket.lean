import HashAccelerator.Platform.Clock
import HashAccelerator.Platform.Mutex
import HashAccelerator.Platform.Peripheral
import HashAccelerator.Proofs.Engine.Advance
import HashAccelerator.Proofs.Stream.Kept
import HashAccelerator.Proofs.Stream.Return
/-!
# A stream is a bracket

Whatever the platform answers, a stream takes the engine at most once and gives it back as often. What
it asks of the clock and the mutex between its start and its end is nothing, or one bracket: the mutex
is granted, the clock enabled, the registers used, the clock disabled and the mutex unlocked
(`Bracket`). Preparations do not count: the creation of the mutex, and attempts to take it that were
not granted.

The stream may be used over another state of the engine at every call, as others use it in between, so
a `Life` carries a record of its own calls only. What is open at any time is read off the stream's
operation (`Underway`), and whichever way the stream ends, that is closed.
-/

namespace HashAccelerator

open EngineM

/-! ## Own calls -/

namespace Event

/-- The call belongs to the mutex's creation, or is an attempt to take it that was not granted. -/
def isPreparation : Event → Bool
  | .lockTried _ answer => decide (answer ≠ .granted)
  | event => event.isOfCreation

end Event

/-- The calls without the preparations among them. -/
def ownCalls (trace : List Event) : List Event := trace.filter fun event => !event.isPreparation

/-- The engine has been taken, and nothing but registers used since; newest first. -/
def IsOpen (calls : List Event) : Prop :=
  ∃ timeout accesses, calls = accesses ++ [.clockEnabled, .lockTried timeout .granted] ∧
    ∀ event ∈ accesses, event.isOnRegisters = true

/-- The engine has not been taken at all, or it has been taken, used and given back. -/
def Bracket (calls : List Event) : Prop :=
  calls = [] ∨ ∃ inner, IsOpen inner ∧ calls = .unlocked :: .clockDisabled :: inner

section Traces

variable {trace newer : List Event}

theorem ownCalls_append : ownCalls (newer ++ trace) = ownCalls newer ++ ownCalls trace :=
  List.filter_append _ _

theorem ownCalls_of_registers (h : ∀ event ∈ newer, event.isOnRegisters = true) :
    ownCalls newer = newer := by
  refine List.filter_eq_self.2 fun event hevent => ?_
  have hregisters := h event hevent
  cases event <;> simp [Event.isOnRegisters, Event.isPreparation, Event.isOfCreation] at hregisters ⊢

theorem ownCalls_creation {outcome : Except MutexError Unit} {requests : Nat} :
    ownCalls (creation outcome requests) = [] := by
  refine List.filter_eq_nil_iff.2 fun event hevent => ?_
  have hpart := isOfCreation_of_mem hevent
  cases event <;> simp [Event.isPreparation, Event.isOfCreation] at hpart ⊢

/-- Making the mutex usable is nothing but preparation. -/
theorem Prepared.ownCalls_eq {phase phase' : MutexPhase} {ready : Bool}
    (h : Prepared phase ready newer phase') : ownCalls newer = [] := by
  cases h with
  | ready => rfl
  | busy => rfl
  | failed => exact ownCalls_creation
  | created => exact ownCalls_creation

theorem IsOpen.registers (h : IsOpen trace) (hnewer : ∀ event ∈ newer, event.isOnRegisters = true) :
    IsOpen (newer ++ trace) := by
  obtain ⟨timeout, accesses, rfl, haccesses⟩ := h
  exact ⟨timeout, newer ++ accesses, (List.append_assoc _ _ _).symm,
    List.forall_mem_append.2 ⟨hnewer, haccesses⟩⟩

end Traces

/-! ## What is open -/

/-- What a stream's operation has taken by its own calls: nothing before it asks and nothing in
software, and otherwise the engine. -/
inductive Underway : Operation → List Event → Prop
  | fresh {algorithm} : algorithm.unit?.isSome = true → Underway (.fresh algorithm) []
  | software {algorithm} : Underway (.softwareOnly algorithm) []
  | engine {algorithm first calls} : algorithm.unit?.isSome = true → IsOpen calls →
      Underway { algorithm, mode := .hardware first, clockDebt := 1, holdsMutex := true } calls

/-- The operation has taken what it has by the calls of a trace and those that came after a past. -/
def Engaged {ρ κ μ : Type} (past trace : List Event) (a : Operation) (e : Engine ρ κ μ) : Prop :=
  ∃ newer, e.history = newer ++ past ∧ Underway a (ownCalls (newer ++ trace))

/-- It has given everything back, and has nothing left to give. -/
def Disengaged {ρ κ μ : Type} (past trace : List Event) (a : Operation) (e : Engine ρ κ μ) : Prop :=
  (∃ newer, e.history = newer ++ past ∧ Bracket (ownCalls (newer ++ trace))) ∧ a.isHolding = false

variable {ρ κ μ : Type} {e : Engine ρ κ μ} {past trace : List Event} {a : Operation}

/-- More calls of the same party. -/
theorem Engaged.append {a' : Operation} {e' : Engine ρ κ μ} {newer : List Event}
    (h : Engaged past trace a e) (hhistory : e'.history = newer ++ e.history)
    (hunder : ∀ calls, Underway a calls → Underway a' (ownCalls newer ++ calls)) :
    Engaged past trace a' e' := by
  obtain ⟨older, holder, hunderway⟩ := h
  refine ⟨newer ++ older, by rw [hhistory, holder, List.append_assoc], ?_⟩
  rw [List.append_assoc, ownCalls_append]
  exact hunder _ hunderway

theorem Engaged.quiet {e' : Engine ρ κ μ} (h : Engaged past trace a e)
    (hhistory : e'.history = e.history) : Engaged past trace a e' := by
  obtain ⟨newer, hnewer, hunderway⟩ := h
  exact ⟨newer, hhistory.trans hnewer, hunderway⟩

/-! ## Calls on the way -/

/-- A competition takes the engine, or nothing. -/
theorem Underway.contested {a' : Operation} {calls added : List Event} {path : Path}
    {phase phase' : MutexPhase} (h : Underway a calls) (hmode : a.mode = .uncommitted)
    (hcontested : Contested a phase (path, a') added phase') :
    Underway a' (ownCalls added ++ calls) := by
  cases h with
  | software => cases hmode
  | engine _ _ => cases hmode
  | fresh hunit =>
    rw [List.append_nil]
    cases hcontested with
    | unready hprepared =>
      rw [hprepared.ownCalls_eq]
      exact .software
    | @refused newer _ timeout answer hprepared hanswer =>
      have hpreparation : ownCalls (.lockTried timeout answer :: newer) = ownCalls newer := by
        simp [ownCalls, Event.isPreparation, hanswer]
      rw [hpreparation, hprepared.ownCalls_eq]
      exact .software
    | @granted newer _ timeout hprepared =>
      have htaken : ownCalls (.clockEnabled :: .lockTried timeout .granted :: newer) =
          .clockEnabled :: .lockTried timeout .granted :: ownCalls newer := by
        simp [ownCalls, Event.isPreparation, Event.isOfCreation]
      rw [htaken, hprepared.ownCalls_eq]
      exact .engine hunit ⟨timeout, [], rfl, by simp⟩

/-- Whoever holds something has taken the engine. -/
theorem Underway.holding {calls : List Event} (h : Underway a calls) :
    a.isHolding = false ∧ calls = [] ∨
      a.clockDebt = 1 ∧ a.holdsMutex = true ∧ IsOpen calls := by
  cases h with
  | fresh _ => exact Or.inl ⟨rfl, rfl⟩
  | software => exact Or.inl ⟨rfl, rfl⟩
  | engine _ hopen => exact Or.inr ⟨rfl, rfl, hopen⟩

/-- It is never parked. -/
theorem Underway.capable {calls : List Event} (h : Underway a calls) : a.Capable := by
  cases h with
  | fresh hunit => exact ⟨(fun h => by cases h), fun _ => hunit⟩
  | software => exact ⟨(fun h => by cases h), fun hmode => absurd rfl hmode⟩
  | engine hunit _ => exact ⟨(fun h => by cases h), fun _ => hunit⟩

/-- Registers are used while the engine is taken. -/
theorem Underway.registers {calls newer : List Event} {mode : Mode} (h : Underway a calls)
    (hon : a.isOnEngine = true) (hnewer : ∀ event ∈ newer, event.isOnRegisters = true)
    (hon' : Operation.isOnEngine { a with mode } = true) :
    Underway { a with mode } (newer ++ calls) := by
  cases h with
  | fresh _ => cases hon
  | software => cases hon
  | engine hunit hopen =>
    cases mode with
    | hardware first => exact .engine hunit (hopen.registers hnewer)
    | uncommitted => cases hon'
    | software => cases hon'
    | unsettled => cases hon'

/-- **What an operation comes to by its own calls** it has taken by them. -/
theorem Underway.advanced {a' : Operation} {calls later : List Event} (h : Underway a calls)
    (hadvanced : Advanced a a' later) : Underway a' (ownCalls later ++ calls) := by
  induction hadvanced with
  | still => exact h
  | contested hmode hcontested => exact h.contested hmode hcontested
  | accessed _ hon haccesses hon' ih =>
    rw [ownCalls_append, ownCalls_of_registers haccesses, List.append_assoc]
    exact ih.registers hon haccesses hon'

theorem Engaged.capable (h : Engaged past trace a e) : a.Capable := by
  obtain ⟨_, -, hunderway⟩ := h
  exact hunderway.capable

theorem Engaged.moved {a' : Operation} {e' : Engine ρ κ μ} (h : Engaged past trace a e)
    (hmoved : e.Moved a a' e') : Engaged past trace a' e' := by
  obtain ⟨newer, hhistory, hadvanced⟩ := hmoved
  exact h.append hhistory fun _ hcalls => hcalls.advanced hadvanced

section Calls

variable [GatedClock κ] [EngineMutex μ] [RegisterBlock ρ]

theorem engaged_keptByBlocks : KeptByBlocks (Engaged (ρ := ρ) (κ := κ) (μ := μ) past trace) where
  note h := h.quiet rfl
  acquire h := (moved_acquire h.capable).mono fun _ _ hmoved => h.moved hmoved
  submit words h := (moved_submit words h.capable).mono fun _ _ hmoved => h.moved hmoved

omit [GatedClock κ] [EngineMutex μ] in
/-- A digest is read while the engine is taken. -/
theorem Engaged.fetch (out : List UInt32) (h : Engaged past trace a e) :
    Always (fetch a out) e fun _ e' => Engaged past trace a e' :=
  (moved_fetch out).mono fun _ _ hmoved => h.moved hmoved

/-! ## The end -/

omit [RegisterBlock ρ] in
/-- A release that owes a disable and holds the mutex is these two calls. -/
theorem always_release_holding (hdebt : a.clockDebt = 1) (hholds : a.holdsMutex = true) :
    Always (release a) e fun _ e' => e'.history = .unlocked :: .clockDisabled :: e.history := by
  simp only [release, unlockOwned, hdebt, hholds, always_bind, always_note]
  simp

omit [RegisterBlock ρ] in
/-- **Letting go closes the bracket.** -/
theorem Engaged.letGo {s : HashStream} (h : Engaged past trace s.operation e) :
    Always s.letGo e fun s' e' => Disengaged past trace s'.operation e' := by
  obtain ⟨newer, hhistory, hunder⟩ := h
  rcases hunder.holding with ⟨hnot, hnone⟩ | ⟨hdebt, hholds, hopen⟩
  · rw [HashStream.letGo, if_neg (by simp [hnot]), always_pure]
    exact ⟨⟨newer, hhistory, Or.inl hnone⟩, hnot⟩
  · rw [HashStream.letGo, if_pos (by simp [Operation.isHolding, hholds])]
    simp only [always_bind, always_pure]
    refine ((always_release _).and (always_release_holding hdebt hholds)).mono fun a' e' he => ?_
    obtain ⟨rfl, hreleased⟩ := he
    refine ⟨⟨.unlocked :: .clockDisabled :: newer, ?_, Or.inr ⟨_, hopen, rfl⟩⟩, ?_⟩
    · rw [hreleased, hhistory]
      rfl
    · simp [Operation.released, Operation.isHolding, hdebt]

omit [RegisterBlock ρ] in
/-- **There is nothing to let go of twice.** -/
theorem Disengaged.letGo {s : HashStream} (h : Disengaged past trace s.operation e) :
    Always s.letGo e fun s' e' => Disengaged past trace s'.operation e' := by
  rw [HashStream.letGo, if_neg (by simp [h.2]), always_pure]
  exact h

/-- The bracket of a stream's own calls is closed: those of a trace, and those that came after a
past. -/
def Closed (past trace : List Event) (e : Engine ρ κ μ) : Prop :=
  ∃ newer, e.history = newer ++ past ∧ Bracket (ownCalls (newer ++ trace))

omit [RegisterBlock ρ] in
theorem closed_discard {s : HashStream}
    (h : Engaged past trace s.operation e ∨ Disengaged past trace s.operation e) :
    Always s.discard e fun _ e' => Closed past trace e' := by
  simp only [HashStream.discard, always_bind, always_pure]
  rcases h with hengaged | hdisengaged
  · exact hengaged.letGo.mono fun _ _ hleft => hleft.1
  · exact hdisengaged.letGo.mono fun _ _ hleft => hleft.1

omit [RegisterBlock ρ] in
theorem Engaged.cancel {s : HashStream} (h : Engaged past trace s.operation e) :
    Always s.cancel e fun _ e' => Closed past trace e' := by
  simp only [HashStream.cancel, always_bind]
  exact h.letGo.mono fun _ _ hleft => closed_discard (Or.inr hleft)

/-- **The end of a message closes the bracket**, with a digest or without. -/
theorem Engaged.finish {s : HashStream} (h : Engaged past trace s.operation e) :
    Always s.finish e fun _ e' => Closed past trace e' := by
  refine Always.ite (fun _ => ?_) fun _ => ?_
  · simp only [always_bind, always_pure]
    exact closed_discard (Or.inl h)
  · simp only [always_bind, always_pure]
    refine (engaged_keptByBlocks.complete
      (L := fun a e => Engaged past trace a e ∨ Disengaged past trace a e)
      (HashStream.always_collect fun out h => h.fetch out)
      (fun h => h.letGo.mono fun _ _ hleft => Or.inr hleft) Or.inl h).mono fun r e' he => ?_
    exact closed_discard he

end Calls

/-! ## Lives -/

section Lives

/-- **Every life of a stream** up to some call, with a record of its own calls, newest first. Each call
is made over whatever the engine is then. -/
inductive Life (ρ κ μ : Type) [RegisterBlock ρ] [GatedClock κ] [EngineMutex μ] :
    HashStream → List Event → Prop
  | start (algorithm : Algorithm) : Life ρ κ μ (.start algorithm) []
  | inSoftware (algorithm : Algorithm) : Life ρ κ μ (.inSoftware algorithm) []
  | absorb {s s' : HashStream} {trace newer : List Event} {e e' : Engine ρ κ μ} {bytes outcome} :
      Life ρ κ μ s trace → (s.absorb bytes).run e = some ((outcome, s'), e') →
      e'.history = newer ++ e.history → Life ρ κ μ s' (newer ++ trace)

variable [RegisterBlock ρ] [GatedClock κ] [EngineMutex μ]

omit [RegisterBlock ρ] [GatedClock κ] [EngineMutex μ] in
theorem Underway.start (algorithm : Algorithm) :
    Underway (HashStream.start algorithm).operation [] := by
  unfold HashStream.start
  split
  · exact .fresh ‹_›
  · exact .software

/-- What is open is known at any time. -/
theorem Life.underway {s : HashStream} (h : Life ρ κ μ s trace) :
    Underway s.operation (ownCalls trace) := by
  induction h with
  | start algorithm => exact .start algorithm
  | inSoftware algorithm => exact .software
  | @absorb s s' trace newer e e' bytes outcome _ hrun hhistory ih =>
    have hengaged : Engaged e.history trace s.operation e := ⟨[], rfl, ih⟩
    obtain ⟨newer', hhistory', hunder⟩ := engaged_keptByBlocks.absorb bytes hengaged _ _ hrun
    have hsame : newer = newer' := List.append_cancel_right (hhistory.symm.trans hhistory')
    rw [hsame]
    exact hunder

theorem Life.engaged {s : HashStream} (h : Life ρ κ μ s trace) (e : Engine ρ κ μ) :
    Engaged e.history trace s.operation e :=
  ⟨[], rfl, h.underway⟩

/-- A stream may end in any way, and over any state of the engine: its own calls are a bracket then.
Abandoning it always ends; the end of a message may have to wait for the engine. -/
structure EndsInBracket (ρ κ μ : Type) [RegisterBlock ρ] [GatedClock κ] [EngineMutex μ]
    (s : HashStream) (trace : List Event) : Prop where
  finish : ∀ e : Engine ρ κ μ, Always s.finish e fun _ e' => Closed e.history trace e'
  cancel : ∀ e : Engine ρ κ μ, Returns s.cancel e fun _ e' => Closed e.history trace e'
  discard : ∀ e : Engine ρ κ μ, Returns s.discard e fun _ e' => Closed e.history trace e'

theorem Life.endsInBracket {s : HashStream} (h : Life ρ κ μ s trace) :
    EndsInBracket ρ κ μ s trace where
  finish e := (h.engaged e).finish
  cancel e := by
    have hends : Returns s.cancel e fun _ _ => True :=
      s.returns_letGo.bind fun s' _ _ => s'.returns_discard
    exact (hends.and_always (h.engaged e).cancel).mono fun _ _ he => he.2
  discard e :=
    (s.returns_discard.and_always (closed_discard (Or.inl (h.engaged e)))).mono fun _ _ he => he.2

/-- A whole message is a life of its own. -/
theorem always_digest_closed (algorithm : Algorithm) (message : List UInt8) (e : Engine ρ κ μ) :
    Always (EngineM.digest algorithm message) e fun _ e' => Closed e.history [] e' := by
  simp only [EngineM.digest, always_bind]
  refine (engaged_keptByBlocks.absorb message ((Life.start algorithm).engaged e)).mono
    fun r e' he => ?_
  obtain ⟨outcome, s⟩ := r
  cases outcome with
  | ok => exact he.finish
  | error fault => simpa using closed_discard (Or.inl he)

/-- **Every stream is a balanced bracket**, on every platform and however it ends, and so is every
digest of a whole message. -/
theorem every_stream_closes :
    (∀ s trace, Life ρ κ μ s trace → EndsInBracket ρ κ μ s trace) ∧
    ∀ algorithm message (e : Engine ρ κ μ),
      Always (EngineM.digest algorithm message) e fun _ e' => Closed e.history [] e' :=
  ⟨fun _ _ h => h.endsInBracket, always_digest_closed⟩

/-- A stream takes in one block, and its message ends: the clock has been disabled once. -/
theorem exists_stream_closes :
    ∃ (s : HashStream) (trace : List Event) (e e' : Engine Peripheral CountedClock CountedMutex)
      (digest : List UInt8), Life Peripheral CountedClock CountedMutex s trace ∧
      s.finish.run e = some (.ok digest, e') ∧ Closed e.history trace e' ∧
      e'.clock.disables = 1 := by
  let engine : Engine Peripheral CountedClock CountedMutex :=
    { registers := {}, clock := {}, mutex := {} }
  have habsorb : (((HashStream.start .sha256).absorb (List.replicate 64 7)).run engine).any
      (fun r => (r.1.2.finish.run r.2).any fun ended =>
        ended.1.toBool && ended.2.clock.disables == 1) = true := by
    decide +kernel
  obtain ⟨⟨⟨outcome, s⟩, e⟩, hrun, hends⟩ := (Option.any_eq_true _ _).1 habsorb
  obtain ⟨⟨answer, e'⟩, hfinish, hended⟩ := (Option.any_eq_true _ _).1 hends
  obtain ⟨hok, hdisables⟩ := (Bool.and_eq_true _ _).mp hended
  have hlife : Life Peripheral CountedClock CountedMutex s e.history := by
    have hhistory : e.history = e.history ++ engine.history := (List.append_nil _).symm
    have habsorbed := (Life.start .sha256).absorb hrun hhistory
    rwa [List.append_nil] at habsorbed
  cases answer with
  | error fault => cases hok
  | ok digest =>
    exact ⟨s, e.history, e, e', digest, hlife, hfinish,
      (every_stream_closes.1 s _ hlife).finish e _ _ hfinish, eq_of_beq hdisables⟩

end Lives

end HashAccelerator
