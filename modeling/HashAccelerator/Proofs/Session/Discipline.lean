import HashAccelerator.Platform.Clock
import HashAccelerator.Platform.Mutex
import HashAccelerator.Proofs.Engine.Discipline
import HashAccelerator.Proofs.Session.Kept
/-!
# The discipline of a session

Operations and streams in any number, in any state, may use the engine in any order and run into any
fault, and the registers may answer anything: as long as nobody reaches a register past the engine,
every access of the session is permitted where it stands (`Course.Reached.disciplined`). Each step
keeps the discipline over whatever past it finds, so the course is one discipline after another.
-/

namespace HashAccelerator

open EngineM

variable {ρ κ μ : Type} [RegisterBlock ρ] [GatedClock κ] [EngineMutex μ]

/-- **A step is orderly**, and reads no digest but of the algorithms that it is about, each loaded by
the step itself. -/
theorem Session.always_orderly {session : Session ρ κ μ} {step : Step ρ μ} (hraw : ¬ step.IsRaw)
    (hfenced : Fenced Event.WritesText session.engine.history) :
    Always (Session.step step) session fun _ s =>
      Orderly (step.Reads session) session.engine.history s.engine := by
  by_cases hchange : step.IsChange
  · cases step with
    | alterRegisters change =>
      simp only [Session.step, always_bind, always_modify, always_pure]
      exact ⟨.nil, hfenced⟩
    | alterMutex change =>
      simp only [Session.step, always_bind, always_modify, always_pure]
      exact ⟨.nil, hfenced⟩
    | _ => exact hchange.elim
  · exact Session.always_protocol Orderly.keptByProtocol (fun algorithm h => h) hraw hchange
      ⟨.nil, hfenced⟩

namespace Course

variable {c : Course ρ κ μ} {engine : Engine ρ κ μ}

theorem Reached.orderly (hunused : engine.history = [])
    (h : Reached (fun _ step => ¬ step.IsRaw) (.ofEngine engine) c) :
    Orderly (fun _ => True) [] c.engine := by
  refine h.induct (I := fun c => Orderly (fun _ => True) [] c.engine) ?_ fun c step hc hraw => ?_
  · have hnone : (Session.ofEngine engine).engine.history = [] := hunused
    exact ⟨hnone ▸ .nil, hnone ▸ fenced_nil⟩
  · exact (Session.always_orderly hraw hc.fenced).mono fun _ s hs =>
      ⟨hc.disciplined.trans hs.disciplined fun _ _ => trivial, hs.fenced⟩

/-- **Every access of a course is permitted where it stands.** On an engine that nobody has used
before, and whatever the registers, the clock and the mutex answer: words and commands are written
after a sweep that no command has followed, and a barrier lies between words and a command, and between
a command and the words of a digest. A digest is read by the steps that are meant to, for the algorithm
that they are about, and each time after its unit was told to load it, found clear, and all units found
idle within the step. No other register is written, none but the units' busy registers is read
besides, and a command is always the same value. -/
theorem Reached.disciplined (hunused : engine.history = [])
    (h : Reached (fun _ step => ¬ step.IsRaw) (.ofEngine engine) c) :
    (∀ event older, event :: older <:+ c.engine.history →
      Permitted (fun _ => True) [] older event) ∧
    ∀ step, ¬ step.IsRaw → Always (Session.step step) c.session fun _ s =>
      Disciplined (step.Reads c.session) c.engine.history s.engine.history := by
  have horderly := h.orderly hunused
  refine ⟨fun event older hsuffix => horderly.disciplined.permitted hsuffix, fun step hraw => ?_⟩
  exact (Session.always_orderly hraw horderly.fenced).mono fun _ s hs => hs.disciplined

/-- A digest is read from the engine, and each access on the way is permitted. -/
theorem exists_disciplined : ∃ c : Course Peripheral CountedClock CountedMutex,
    (∃ event ∈ c.engine.history, event.ReadsText) ∧
    ∀ event older, event :: older <:+ c.engine.history →
      Permitted (fun _ => True) [] older event := by
  let steps : List (Step Peripheral CountedMutex) :=
    [.create "a" .sha256 false, .acquire "a", .submit "a" (List.replicate 16 7),
      .fetch "a" (List.replicate 8 0)]
  let read (c : Course Peripheral CountedClock CountedMutex) : Bool :=
    c.engine.history.any fun event => decide (event.read? = some (.text 0))
  have hrun : (take { session := .ofEngine (.simulated 1 {} {} {}) } steps).any read = true := by
    decide +kernel
  obtain ⟨c, htake, hread⟩ := (Option.any_eq_true _ _).1 hrun
  obtain ⟨event, hevent, hfound⟩ := List.any_eq_true.1 hread
  have hfair : ∀ c : Course Peripheral CountedClock CountedMutex, ∀ step ∈ steps,
      ¬ step.IsRaw := by
    intro c step hstep
    simp only [steps, List.mem_cons, List.not_mem_nil, or_false] at hstep
    rcases hstep with rfl | rfl | rfl | rfl <;> exact id
  exact ⟨c, ⟨event, hevent, 0, of_decide_eq_true hfound⟩,
    (Reached.disciplined rfl (Reached.start.take hfair htake)).1⟩

end Course

end HashAccelerator
