import HashAccelerator.Platform.Peripheral
import HashAccelerator.Proofs.Always
/-!
# Courses

A session keeps its operations and streams and nothing of how it came by them. A `Course` is a
session together with its past: the steps it took, with their answers, and the operations that have
lost their name. Such an operation is gone for everybody, but what it held is still held, so it
counts among the parties to the engine.

`Course.Reached` is every course that a session can take by steps of which a given account approves.
-/

namespace HashAccelerator

variable {ρ κ μ α : Type}

/-- An engine on the simulated accelerator that has not been used. -/
def Engine.simulated (latency : Nat) (clock : κ) (mutex : μ) (settings : Settings) :
    Engine Peripheral κ μ :=
  { registers := { latency }, clock, mutex, settings }

/-! ## Steps of a session -/

namespace Session

variable {session : Session ρ κ μ}

/-- A step of the engine leaves the rest of the session alone. -/
@[simp] theorem always_onEngine {action : EngineM ρ κ μ α} {post : α → Session ρ κ μ → Prop} :
    Always (onEngine action) session post ↔
      Always action session.engine fun a e => post a { session with engine := e } := by
  have hrun : (onEngine action).run session =
      (action.run session.engine).bind fun r => some (r.1, { session with engine := r.2 }) := rfl
  constructor
  · intro h a e hae
    exact h a _ (by rw [hrun, hae]; rfl)
  · intro h a s has
    rw [hrun] at has
    obtain ⟨⟨b, e⟩, hbe, heq⟩ := Option.bind_eq_some_iff.1 has
    cases heq
    exact h b e hbe

theorem always_withOperation {name : String}
    {action : Operation → SessionM ρ κ μ (Answer × Operation)}
    {post : Answer → Session ρ κ μ → Prop}
    (hnone : session.operations[name]? = none → post (.unknown name) session)
    (hsome : ∀ a, session.operations[name]? = some a → Always (action a) session fun r s =>
      post r.1 { s with operations := s.operations.insert name r.2 }) :
    Always (withOperation name action) session post := by
  simp only [withOperation, always_bind, always_get]
  cases hname : session.operations[name]? with
  | none => simpa using hnone hname
  | some a => simpa [putOperation] using hsome a hname

/-- What a step with an operation comes to, if the action reaches nothing but the engine. -/
theorem always_withOperation_engine {name : String}
    {action : Operation → SessionM ρ κ μ (Answer × Operation)}
    {post : Answer → Operation → Engine ρ κ μ → Prop}
    (haction : ∀ a, session.operations[name]? = some a → Always (action a) session fun r s =>
      ∃ e, s = { session with engine := e } ∧ post r.1 r.2 e) :
    Always (withOperation name action) session fun answer s =>
      session.operations[name]? = none ∧ s = session ∨ ∃ a e,
        s = { session with engine := e, operations := session.operations.insert name a } ∧
          post answer a e := by
  refine always_withOperation (fun hnone => Or.inl ⟨hnone, rfl⟩) fun a ha => ?_
  refine (haction a ha).mono fun r s hs => ?_
  obtain ⟨e, rfl, hpost⟩ := hs
  exact Or.inr ⟨r.2, e, rfl, hpost⟩

theorem always_withStream {name : String}
    {action : HashStream → SessionM ρ κ μ (Answer × HashStream)}
    {post : Answer → Session ρ κ μ → Prop}
    (hnone : session.streams[name]? = none → post (.unknown name) session)
    (hsome : ∀ s, session.streams[name]? = some s → Always (action s) session fun r s' =>
      post r.1 { s' with streams := s'.streams.insert name r.2 }) :
    Always (withStream name action) session post := by
  simp only [withStream, always_bind, always_get]
  cases hname : session.streams[name]? with
  | none => simpa using hnone hname
  | some s => simpa using hsome s hname

theorem always_endStream {name : String} {action : HashStream → SessionM ρ κ μ Answer}
    {post : Answer → Session ρ κ μ → Prop}
    (hnone : session.streams[name]? = none → post (.unknown name) session)
    (hsome : ∀ s, session.streams[name]? = some s →
      Always (action s) { session with streams := session.streams.erase name } post) :
    Always (endStream name action) session post := by
  simp only [endStream, always_bind, always_get]
  cases hname : session.streams[name]? with
  | none => simpa using hnone hname
  | some s => simpa using hsome s hname

theorem always_putStream [RegisterBlock ρ] [GatedClock κ] [EngineMutex μ] {name : String}
    {stream : HashStream} {post : Unit → Session ρ κ μ → Prop}
    (hnone : session.streams[name]? = none →
      post () { session with streams := session.streams.insert name stream })
    (hsome : ∀ former, session.streams[name]? = some former →
      Always (onEngine former.discard)
        { session with streams := session.streams.insert name stream } post) :
    Always (putStream name stream) session post := by
  simp only [putStream, always_bind, always_get, always_modify]
  cases hname : session.streams[name]? with
  | none => simpa using hnone hname
  | some former => exact hsome former hname

/-- The run of a step of the engine. -/
theorem run_onEngine {action : EngineM ρ κ μ α} {a : α} {e : Engine ρ κ μ}
    (h : action.run session.engine = some (a, e)) :
    (onEngine action).run session = some (a, { session with engine := e }) := by
  show ((action.run session.engine).bind fun r => some (r.1, { session with engine := r.2 })) = _
  rw [h]
  rfl

theorem returns_withStream {name : String} {s : HashStream}
    {action : HashStream → SessionM ρ κ μ (Answer × HashStream)}
    {post : Answer → Session ρ κ μ → Prop} (hs : session.streams[name]? = some s)
    (h : Returns (action s) session fun r s' =>
      post r.1 { s' with streams := s'.streams.insert name r.2 }) :
    Returns (withStream name action) session post := by
  unfold withStream
  refine Returns.next rfl ?_
  rw [hs]
  exact h.bind fun _ _ hpost => Returns.next rfl (returns_pure hpost)

theorem returns_endStream {name : String} {s : HashStream}
    {action : HashStream → SessionM ρ κ μ Answer} {post : Answer → Session ρ κ μ → Prop}
    (hs : session.streams[name]? = some s)
    (h : Returns (action s) { session with streams := session.streams.erase name } post) :
    Returns (endStream name action) session post := by
  unfold endStream
  refine Returns.next rfl ?_
  rw [hs]
  exact Returns.next rfl h

end Session

/-! ## Answers -/

namespace Answer

/-- The words after a fetch that succeeded. -/
def words? : Answer → Option (List UInt32)
  | .words (.ok ()) out => some out
  | _ => none

/-- The digest of a message that came to one. -/
def digest? : Answer → Option (List UInt8)
  | .digest (.ok bytes) => some bytes
  | _ => none

theorem eq_of_words? {answer : Answer} {out : List UInt32} (h : answer.words? = some out) :
    answer = .words (.ok ()) out := by
  unfold words? at h
  split at h
  · exact congrArg _ (Option.some.inj h)
  · cases h

theorem eq_of_digest? {answer : Answer} {bytes : List UInt8} (h : answer.digest? = some bytes) :
    answer = .digest (.ok bytes) := by
  unfold digest? at h
  split at h
  · rw [Option.some.inj h]
  · cases h

end Answer

/-! ## Kinds of steps -/

/-- A step of an operation or of a stream, made and used as it is meant to be: nobody copies an
operation or changes its fields from outside. -/
def Step.IsCall : Step ρ μ → Prop
  | .create .. | .acquire _ | .release _ | .settle _ | .submit .. | .fetch .. | .start .. | .adopt ..
  | .absorb .. | .finish _ | .cancel _ | .discard _ | .digest .. => True
  | _ => False

/-- A step of somebody who is not a party to the engine: other drivers use the clock, and the
registers and the mutex change by themselves. -/
def Step.IsOutside : Step ρ μ → Prop
  | .enableClock | .disableClock | .isClockEnabled | .readSettings | .alterRegisters _
  | .alterMutex _ => True
  | _ => False

/-- Where a party to the engine is found. -/
inductive Place where
  | operation (name : String)
  | stream (name : String)
  /-- An operation without a name, by the order in which they lost it. -/
  | lost (index : Nat)
  deriving DecidableEq

/-- The places whose party a step is about. -/
def Step.Concerns : Step ρ μ → Place → Prop
  | .create name _ _, p | .acquire name, p | .release name, p | .settle name, p
  | .submit name _, p | .fetch name _, p => p = .operation name
  | .start name _ _, p | .absorb name _ _, p | .finish name, p | .cancel name, p
  | .discard name, p => p = .stream name
  | .adopt name operation, p => p = .stream name ∨ p = .operation operation
  | _, _ => False

/-- The operation that loses its name by a step. -/
def Step.displaced? (session : Session ρ κ μ) : Step ρ μ → Option Operation
  | .create name _ _ => session.operations[name]?
  | _ => none

/-! ## Courses -/

/-- A session with its past. -/
structure Course (ρ κ μ : Type) where
  session : Session ρ κ μ
  /-- The steps so far with their answers, newest first. -/
  past : List (Step ρ μ × Answer) := []
  /-- The operations that lost their name, oldest first. -/
  lost : List Operation := []

namespace Course

/-- The engine at the end of the course. -/
def engine (c : Course ρ κ μ) : Engine ρ κ μ := c.session.engine

/-- The operation that is found at a place. -/
def party? (c : Course ρ κ μ) : Place → Option Operation
  | .operation name => c.session.operations[name]?
  | .stream name => c.session.streams[name]?.map (·.operation)
  | .lost index => c.lost[index]?

/-- The party at a place holds the mutex. -/
def Holds (c : Course ρ κ μ) (p : Place) : Prop := ∃ a, c.party? p = some a ∧ a.holdsMutex = true

/-- A party anywhere else holds the mutex. -/
def Others (c : Course ρ κ μ) (p : Place) : Prop := ∃ q, q ≠ p ∧ c.Holds q

/-- The course after one more step. -/
def next (c : Course ρ κ μ) (step : Step ρ μ) (answer : Answer) (session : Session ρ κ μ) :
    Course ρ κ μ where
  session
  past := (step, answer) :: c.past
  lost := c.lost ++ (step.displaced? c.session).toList

variable [RegisterBlock ρ] [GatedClock κ] [EngineMutex μ]

/-- **Every course** from a session by fair steps. Which steps are fair may depend on what has
happened before. -/
inductive Reached (fair : Course ρ κ μ → Step ρ μ → Prop) (start : Session ρ κ μ) :
    Course ρ κ μ → Prop
  | start : Reached fair start { session := start }
  | step {c : Course ρ κ μ} {step : Step ρ μ} {answer : Answer} {session : Session ρ κ μ} :
      Reached fair start c → fair c step → (Session.step step).run c.session = some (answer, session) →
      Reached fair start (c.next step answer session)

/-- What holds at the start and survives every fair step holds of every course. -/
theorem Reached.induct {fair : Course ρ κ μ → Step ρ μ → Prop} {start : Session ρ κ μ}
    {I : Course ρ κ μ → Prop} (hstart : I { session := start })
    (hstep : ∀ c step, I c → fair c step → Always (Session.step step) c.session fun answer s =>
      I (c.next step answer s)) {c : Course ρ κ μ} (h : Reached fair start c) : I c := by
  induction h with
  | start => exact hstart
  | step _ hfair hrun ih => exact hstep _ _ ih hfair _ _ hrun

/-- The course that goes on by the given steps, if none of them waits without end. -/
def take (c : Course ρ κ μ) : List (Step ρ μ) → Option (Course ρ κ μ)
  | [] => some c
  | step :: rest => do
    let (answer, session) ← (Session.step step).run c.session
    (c.next step answer session).take rest

/-- What fair steps lead to is reached. -/
theorem Reached.take {fair : Course ρ κ μ → Step ρ μ → Prop} {start : Session ρ κ μ}
    {c c' : Course ρ κ μ} {steps : List (Step ρ μ)} (h : Reached fair start c)
    (hfair : ∀ c, ∀ step ∈ steps, fair c step) (htake : c.take steps = some c') :
    Reached fair start c' := by
  induction steps generalizing c with
  | nil =>
    cases htake
    exact h
  | cons step rest ih =>
    obtain ⟨⟨answer, session⟩, hrun, hrest⟩ := Option.bind_eq_some_iff.1 htake
    exact ih (h.step (hfair c step (by simp)) hrun)
      (fun c other hother => hfair c other (List.mem_cons_of_mem _ hother)) hrest

end Course

end HashAccelerator
