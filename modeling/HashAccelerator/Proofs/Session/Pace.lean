import HashAccelerator.Platform.Clock
import HashAccelerator.Platform.Mutex
import HashAccelerator.Proofs.Peripheral.Pace
import HashAccelerator.Proofs.Session.Course
import HashAccelerator.Proofs.Stream.Coupled
/-!
# Sessions at any pace

Whoever uses the engine through its calls cannot tell a slow accelerator from a quick one, as long as
the poll limit suffices: the same steps give the same answers, operations and streams, and leave the
accelerator alike in everything but its busy time (`Course.take_at_any_pace`). That goes for operations
in any state, copied and adjusted, and whatever the busy time that one call leaves to the next.
-/

namespace HashAccelerator

open EngineM

variable {κ μ α : Type}

/-- A step that sees the busy time only in how often it polls. -/
def Step.IsPaced : Step Peripheral μ → Prop
  | .copy .. | .adjust .. | .awaitIdle | .writeRegister .. | .fence | .enableClock | .disableClock
  | .isClockEnabled | .tryMutex _ | .unlockMutex | .alterMutex _ => True
  | step => step.IsCall

/-- Two sessions in step: the engines are, and everybody on them is the same. -/
structure Session.InStep (s s' : Session Peripheral κ μ) : Prop where
  engine : s.engine.InStep s'.engine
  operations : s.operations = s'.operations
  streams : s.streams = s'.streams

namespace Session

/-! ## Steps with one party -/

theorem coupled_onEngine {action : EngineM Peripheral κ μ α}
    (h : Coupled Engine.InStep action Engine.InStep) :
    Coupled (InStep (κ := κ) (μ := μ)) (onEngine action) InStep := by
  intro s s' hs
  obtain ⟨a, e, e', hrun, hrun', he⟩ := h.run hs.engine
  exact ⟨a, _, _, run_onEngine hrun, run_onEngine hrun', { hs with engine := he }⟩

theorem coupled_putOperation (name : String) (a : Operation) :
    Coupled (InStep (κ := κ) (μ := μ)) (putOperation name a) InStep :=
  coupled_modify fun _ _ h => { h with operations := congrArg (·.insert name a) h.operations }

theorem coupled_withOperation {name : String}
    {action : Operation → SessionM Peripheral κ μ (Answer × Operation)}
    (h : ∀ a, Coupled InStep (action a) InStep) :
    Coupled (InStep (κ := κ) (μ := μ)) (withOperation name action) InStep := by
  unfold withOperation
  refine Coupled.bind_get (fun _ _ h => by rw [h.operations]) fun s => ?_
  cases s.operations[name]? with
  | none => exact coupled_pure _
  | some a => exact (h a).bind fun r => (coupled_putOperation name r.2).map _

theorem coupled_putEntry (name : String) (stream : HashStream) :
    Coupled (InStep (κ := κ) (μ := μ)) (modify fun session =>
      { session with streams := session.streams.insert name stream }) InStep :=
  coupled_modify fun _ _ h => { h with streams := congrArg (·.insert name stream) h.streams }

theorem coupled_withStream {name : String}
    {action : HashStream → SessionM Peripheral κ μ (Answer × HashStream)}
    (h : ∀ stream, Coupled InStep (action stream) InStep) :
    Coupled (InStep (κ := κ) (μ := μ)) (withStream name action) InStep := by
  unfold withStream
  refine Coupled.bind_get (fun _ _ h => by rw [h.streams]) fun s => ?_
  cases s.streams[name]? with
  | none => exact coupled_pure _
  | some stream => exact (h stream).bind fun r => (coupled_putEntry name r.2).map _

theorem coupled_endStream {name : String} {action : HashStream → SessionM Peripheral κ μ Answer}
    (h : ∀ stream, Coupled InStep (action stream) InStep) :
    Coupled (InStep (κ := κ) (μ := μ)) (endStream name action) InStep := by
  unfold endStream
  refine Coupled.bind_get (fun _ _ h => by rw [h.streams]) fun s => ?_
  cases s.streams[name]? with
  | none => exact coupled_pure _
  | some stream =>
    refine (coupled_modify fun _ _ h => ?_).bind fun _ => h stream
    exact { h with streams := congrArg (·.erase name) h.streams }

variable [GatedClock κ] [EngineMutex μ]

theorem coupled_putStream (name : String) (stream : HashStream) :
    Coupled (InStep (κ := κ) (μ := μ)) (putStream name stream) InStep := by
  unfold putStream
  refine Coupled.bind_get (fun _ _ h => by rw [h.streams]) fun s => ?_
  refine (coupled_putEntry name stream).bind fun _ => ?_
  cases s.streams[name]? with
  | none => exact coupled_pure _
  | some former => exact coupled_onEngine (coupledCalls_inStep.discard former)

/-! ## Every step -/

/-- **A step comes to the same at any pace.** -/
theorem coupled_step {step : Step Peripheral μ} (h : step.IsPaced) :
    Coupled (InStep (κ := κ) (μ := μ)) (Session.step step) InStep := by
  have hR := coupledCalls_inStep (κ := κ) (μ := μ)
  cases step with
  | create name algorithm software => exact (coupled_putOperation _ _).map _
  | copy source target =>
    refine Coupled.bind_get (fun _ _ h => by rw [h.operations]) fun s => ?_
    cases s.operations[source]? with
    | none => exact coupled_pure _
    | some a => exact (coupled_putOperation target a).map _
  | adjust name mode clockDebt holdsMutex => exact coupled_withOperation fun a => coupled_pure _
  | acquire name => exact coupled_withOperation fun a => (coupled_onEngine (hR.acquire a)).map _
  | release name => exact coupled_withOperation fun a => (coupled_onEngine (hR.release a)).map _
  | settle name =>
    exact coupled_withOperation fun a => (coupled_onEngine (coupledTaking_inStep.settle a)).map _
  | submit name words =>
    exact coupled_withOperation fun a => (coupled_onEngine (hR.submit a words)).map _
  | fetch name out => exact coupled_withOperation fun a => (coupled_onEngine (hR.fetch a out)).map _
  | awaitIdle => exact (coupled_onEngine coupled_awaitIdle).map _
  | start name algorithm software => exact (coupled_putStream _ _).map _
  | adopt name operation =>
    refine Coupled.bind_get (fun _ _ h => by rw [h.operations]) fun s => ?_
    cases s.operations[operation]? with
    | none => exact coupled_pure _
    | some a =>
      refine (coupled_modify fun _ _ h => ?_).bind fun _ => (coupled_putStream _ _).map _
      exact { h with operations := congrArg (·.erase operation) h.operations }
  | absorb name bytes partSize =>
    refine coupled_withStream fun s => ?_
    cases partSize with
    | none => exact (coupled_onEngine (hR.absorb s bytes)).map _
    | some size => exact (coupled_onEngine (hR.absorbAll s _)).map _
  | finish name => exact coupled_endStream fun s => (coupled_onEngine (hR.finish s)).map _
  | cancel name => exact coupled_endStream fun s => (coupled_onEngine (hR.cancel s)).map _
  | discard name => exact coupled_endStream fun s => (coupled_onEngine (hR.discard s)).map _
  | digest algorithm message => exact (coupled_onEngine (hR.digest algorithm message)).map _
  | writeRegister address value => exact (coupled_onEngine (coupled_writeRegister _ _)).map _
  | fence => exact (coupled_onEngine coupled_fence).map _
  | enableClock => exact (coupled_onEngine coupled_enableClock).map _
  | disableClock => exact (coupled_onEngine coupled_disableClock).map _
  | isClockEnabled => exact (coupled_onEngine coupled_isClockEnabled).map _
  | tryMutex timeout => exact (coupled_onEngine (coupled_tryMutex timeout)).map _
  | unlockMutex => exact (coupled_onEngine coupled_unlockMutex).map _
  | alterMutex change =>
    refine (coupled_modify fun _ _ h => ?_).map _
    exact { h with engine := { h.engine with
      mutex := congrArg change h.engine.mutex
      ready := h.engine.ready.quiet rfl rfl
      ready' := h.engine.ready'.quiet rfl rfl } }
  | _ => exact h.elim

end Session

namespace Course

variable [GatedClock κ] [EngineMutex μ] {c c' : Course Peripheral κ μ}

/-- **Courses in step stay in step**, and have the same past. -/
theorem take_inStep {steps : List (Step Peripheral μ)} (hpaced : ∀ step ∈ steps, step.IsPaced)
    (hsession : c.session.InStep c'.session) (hpast : c.past = c'.past) :
    ∃ t t', c.take steps = some t ∧ c'.take steps = some t' ∧
      t.session.InStep t'.session ∧ t.past = t'.past := by
  induction steps generalizing c c' with
  | nil => exact ⟨c, c', rfl, rfl, hsession, hpast⟩
  | cons step rest ih =>
    obtain ⟨answer, s, s', hrun, hrun', hs⟩ :=
      (Session.coupled_step (hpaced step List.mem_cons_self)).run hsession
    have hpast' : (c.next step answer s).past = (c'.next step answer s').past :=
      congrArg ((step, answer) :: ·) hpast
    obtain ⟨t, t', htake, htake', ht⟩ :=
      ih (fun other hother => hpaced other (List.mem_cons_of_mem _ hother)) hs hpast'
    exact ⟨t, t', by simpa [take, hrun] using htake, by simpa [take, hrun'] using htake', ht⟩

/-- **Latency and poll limit cannot be observed**, as long as the limit suffices. Any steps of any
operations and streams, taken once on an accelerator that is never busy and once on one that is busy for
`latency` polls after each command, and the poll limit no smaller: both courses take all the steps, with
the same answers; they leave the same operations and streams, the clock, the mutex and the log alike,
the same calls on the platform but for the polls, and an accelerator that differs in its busy time only.
-/
theorem take_at_any_pace (clock : κ) (mutex : μ) (mutexTimeout : Nat) {latency : Nat}
    {pollLimit : Option Nat} (hlimit : ∀ limit, pollLimit = some limit → latency ≤ limit)
    {steps : List (Step Peripheral μ)} (hpaced : ∀ step ∈ steps, step.IsPaced) :
    ∃ quick slow : Course Peripheral κ μ,
      take { session := .ofEngine (.simulated 0 clock mutex { mutexTimeout }) } steps = some quick ∧
      take { session := .ofEngine (.simulated latency clock mutex { mutexTimeout, pollLimit }) }
        steps = some slow ∧
      slow.past = quick.past ∧
      slow.session.operations = quick.session.operations ∧
      slow.session.streams = quick.session.streams ∧
      slow.engine.clock = quick.engine.clock ∧ slow.engine.mutex = quick.engine.mutex ∧
      slow.engine.notices = quick.engine.notices ∧
      slow.engine.history.filter (!·.isPoll) = quick.engine.history.filter (!·.isPoll) ∧
      slow.engine.registers = { quick.engine.registers with
        latency := slow.engine.registers.latency
        remaining := slow.engine.registers.remaining } := by
  have hquick : Engine.Ready (.simulated 0 clock mutex { mutexTimeout } : Engine Peripheral κ μ) :=
    ⟨rfl, Nat.le_refl 0, fun limit _ => Nat.zero_le limit⟩
  have hslow : Engine.Ready
      (.simulated latency clock mutex { mutexTimeout, pollLimit } : Engine Peripheral κ μ) :=
    ⟨rfl, Nat.zero_le latency, hlimit⟩
  have hstart : Session.InStep
      ({ session := .ofEngine (.simulated 0 clock mutex { mutexTimeout }) } : Course Peripheral κ μ).session
      ({ session := .ofEngine (.simulated latency clock mutex { mutexTimeout, pollLimit }) } :
        Course Peripheral κ μ).session :=
    ⟨⟨rfl, rfl, rfl, rfl, rfl, rfl, rfl, hquick, hslow⟩, rfl, rfl⟩
  obtain ⟨quick, slow, htake, htake', hsession, hpast⟩ := take_inStep hpaced hstart rfl
  have hengine := hsession.engine
  refine ⟨quick, slow, htake, htake', hpast.symm, hsession.operations.symm, hsession.streams.symm,
    hengine.clock.symm, hengine.mutex.symm, hengine.notices.symm, hengine.calls.symm, ?_⟩
  -- the busy time put back into what the two have in common
  exact congrArg (fun p : Peripheral => { p with
    latency := slow.engine.registers.latency
    remaining := slow.engine.registers.remaining }) hengine.registers.symm

/-- A block is submitted and its digest fetched by a copy, with three polls for each command. -/
theorem exists_load_after_three_polls : ∃ slow : Course Peripheral CountedClock CountedMutex,
    take { session := .ofEngine (.simulated 3 {} {} { pollLimit := some 3 }) }
      [.create "a" .sha256 false, .acquire "a", .submit "a" (List.replicate 16 7), .copy "a" "b",
        .fetch "b" (List.replicate 8 0), .release "a"] = some slow ∧
    slow.engine.registers.loads = 1 := by
  have hlimit : ∀ limit, some 3 = some limit → 3 ≤ limit :=
    fun limit h => Nat.le_of_eq (Option.some.inj h)
  have hpaced : ∀ step ∈ ([.create "a" .sha256 false, .acquire "a", .submit "a" (List.replicate 16 7),
      .copy "a" "b", .fetch "b" (List.replicate 8 0), .release "a"] :
        List (Step Peripheral CountedMutex)), step.IsPaced := by simp [Step.IsPaced, Step.IsCall]
  obtain ⟨quick, slow, hquick, hslow, -, -, -, -, -, -, -, hregisters⟩ :=
    take_at_any_pace ({} : CountedClock) {} 0 hlimit hpaced
  refine ⟨slow, hslow, ?_⟩
  have hloads : (take { session := .ofEngine (.simulated 0 ({} : CountedClock) ({} : CountedMutex) {}) }
      [.create "a" .sha256 false, .acquire "a", .submit "a" (List.replicate 16 7), .copy "a" "b",
        .fetch "b" (List.replicate 8 0), .release "a"]).map (·.engine.registers.loads) = some 1 := by
    decide +kernel
  rw [hquick] at hloads
  rw [hregisters]
  exact Option.some.inj hloads

end Course

end HashAccelerator
