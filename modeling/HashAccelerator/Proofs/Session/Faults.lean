import HashAccelerator.Platform.Clock
import HashAccelerator.Platform.Mutex
import HashAccelerator.Proofs.Peripheral.Readiness
import HashAccelerator.Proofs.Session.Feeds
import HashAccelerator.Proofs.Session.Kept
import HashAccelerator.Proofs.Stream.Faults
/-!
# Which faults a stream answers with

Whatever the registers, the clock and the mutex do, and whatever else happens on the engine, a stream
answers with two faults only: `stillBusy`, which takes a poll limit and an operation on the engine,
and `alreadyFailed`, which follows a failure and nothing else (`Course.Answers`). On an accelerator
that is waited for long enough it answers with none (`Course.AnswersWell`).
-/

namespace HashAccelerator

open EngineM

variable {ρ κ μ : Type} [RegisterBlock ρ] [GatedClock κ] [EngineMutex μ]

/-- Streams are accounted for as viable on any platform. -/
theorem account_viable :
    Account (fun a chain blocks (_ : Engine ρ κ μ) => Viable a chain blocks) fun a fault e =>
      fault = .stillBusy ∧ e.settings.pollLimit.isSome = true ∧ a.isOnEngine = true where
  toIntake := by
    have hintake := intake_viable (ρ := ρ) (κ := κ) (μ := μ) (J := fun _ _ => True)
      (Q := fun _ _ => True) id (fun _ _ => always_true) fun _ _ _ _ _ _ =>
        ⟨fun _ _ => trivial, fun _ => trivial⟩
    simpa only [and_true] using hintake
  fresh hunit := Viable.fresh hunit
  inSoftware := Viable.softwareOnly

namespace Course

variable {c : Course ρ κ μ} {name : String} {feed : Feed}

/-- Every stream that was started is viable until it fails. -/
theorem Reached.viable {fair : Course ρ κ μ → Step ρ μ → Prop} {engine : Engine ρ κ μ}
    (h : Reached fair (.ofEngine engine) c) :
    Accounted (fun a chain blocks _ => Viable a chain blocks) c :=
  h.induct (fun _ _ h => by cases h) fun _ _ hc _ =>
    (hc.advance account_viable).mono fun _ _ hnext => hnext fun _ _ _ _ _ hviable => hviable

/-! ## On any platform -/

/-- How a stream answers, on any platform. -/
structure Answers (c : Course ρ κ μ) (name : String) (feed : Feed) : Prop where
  /-- If everything was taken so far, a part is taken, or on the engine a wait was given up. -/
  absorb : feed.whole = true → ∀ bytes partSize,
    Always (Session.step (.absorb name bytes partSize)) c.session fun answer session =>
      answer = .outcome (.ok ()) ∨
        answer = .outcome (.error .stillBusy) ∧ c.engine.settings.pollLimit.isSome = true ∧
          ∃ s, session.streams[name]? = some s ∧ s.operation.isOnEngine = true
  /-- The message ends in a digest, which was loaded if it comes from the engine, or on the engine in
  a wait that was given up. -/
  finish : feed.whole = true → Always (Session.step (.finish name)) c.session fun answer session =>
    c.engine.history <:+ session.engine.history ∧ ∃ outcome, answer = .digest outcome ∧
      EndsAs feed.algorithm c.engine.settings
        (∃ s, c.session.streams[name]? = some s ∧ s.operation.isOnEngine = true)
        c.engine.history session.engine.history outcome
  /-- If something was not taken, no part is taken any more, and nothing is reached. -/
  refused : feed.whole = false → ∀ bytes partSize, partSize = none ∨ bytes ≠ [] →
    Returns (Session.step (.absorb name bytes partSize)) c.session fun answer session =>
      answer = .outcome (.error .alreadyFailed) ∧ session.engine = c.engine
  /-- Nor is there a digest, and nothing is reached but for what the stream gives back. -/
  abandoned : feed.whole = false →
    Returns (Session.step (.finish name)) c.session fun answer session =>
      answer = .digest (.error .alreadyFailed) ∧
        ∃ newer, newer.Sublist [.unlocked, .clockDisabled] ∧
          session.engine.history = newer ++ c.engine.history

section OneStream

variable {s : HashStream} (hs : c.session.streams[name]? = some s)

include hs

/-- A part that is not taken met a wait that was given up. -/
theorem always_absorb_viable {message : List UInt8}
    (h : s.Fed (fun a chain blocks _ => Viable a chain blocks) message c.engine)
    (bytes : List UInt8) (partSize : Option Nat) :
    Always (Session.step (.absorb name bytes partSize)) c.session fun answer session =>
      answer = .outcome (.ok ()) ∨
        answer = .outcome (.error .stillBusy) ∧ c.engine.settings.pollLimit.isSome = true ∧
          ∃ s, session.streams[name]? = some s ∧ s.operation.isOnEngine = true := by
  refine Session.always_withStream (fun hnone => by simp [hs] at hnone) fun s' hs' => ?_
  obtain rfl : s = s' := Option.some.inj (hs.symm.trans hs')
  simp only [always_bind, Session.always_onEngine, always_pure]
  refine ((intake_tracked _).absorbParts bytes partSize h.tracked).mono fun r e he => ?_
  obtain ⟨outcome, s'⟩ := r
  have hr := he.2
  cases outcome with
  | ok => exact Or.inl rfl
  | error fault =>
    obtain ⟨-, rfl, hlimit, hon, htracked⟩ := hr
    rw [htracked.settings_eq] at hlimit
    exact Or.inr ⟨rfl, hlimit, s', by simp, hon⟩

/-- Nor is there another reason for a message not to come to its digest. -/
theorem always_finish_viable {message : List UInt8}
    (h : s.Fed (fun a chain blocks _ => Viable a chain blocks) message c.engine) :
    Always (Session.step (.finish name)) c.session fun answer session =>
      c.engine.history <:+ session.engine.history ∧ ∃ outcome, answer = .digest outcome ∧
        EndsAs s.algorithm c.engine.settings
          (∃ s, c.session.streams[name]? = some s ∧ s.operation.isOnEngine = true)
          c.engine.history session.engine.history outcome := by
  have hon : (∃ s, c.session.streams[name]? = some s ∧ s.operation.isOnEngine = true) ↔
      s.operation.isOnEngine = true := by
    simp [hs]
  refine Session.always_endStream (fun hnone => by simp [hs] at hnone) fun s' hs' => ?_
  obtain rfl : s = s' := Option.some.inj (hs.symm.trans hs')
  simp only [always_bind, Session.always_onEngine, always_pure, hon]
  exact (endsAs_finish h).mono fun outcome e he => ⟨he.1, outcome, rfl, he.2⟩

/-- **A stream that has failed refuses every part** without a call. -/
theorem returns_absorb_of_failed (hfailed : s.failed = true) {bytes : List UInt8}
    {partSize : Option Nat} (hsome : partSize = none ∨ bytes ≠ []) :
    Returns (Session.step (.absorb name bytes partSize)) c.session fun answer session =>
      answer = .outcome (.error .alreadyFailed) ∧ session.engine = c.engine := by
  have hrefused : Returns (s.absorbParts bytes partSize) c.engine fun r e =>
      r.1 = .error .alreadyFailed ∧ e = c.engine := by
    cases partSize with
    | none =>
      rw [HashStream.absorbParts, HashStream.absorb_of_failed hfailed]
      exact returns_pure ⟨rfl, rfl⟩
    | some size =>
      have hparts : pieces size bytes ≠ [] := by
        cases bytes with
        | nil => simp at hsome
        | cons byte rest => exact fun h => by cases h
      rw [HashStream.absorbParts, HashStream.absorbAll_of_failed hfailed]
      exact returns_pure ⟨if_neg hparts, rfl⟩
  refine Session.returns_withStream hs ?_
  obtain ⟨r, e, hrun, houtcome, rfl⟩ := hrefused
  exact Returns.next (Session.run_onEngine hrun) (returns_pure ⟨by rw [houtcome], rfl⟩)

/-- **And its end is a release.** -/
theorem returns_finish_of_failed (hfailed : s.failed = true) :
    Returns (Session.step (.finish name)) c.session fun answer session =>
      answer = .digest (.error .alreadyFailed) ∧
        ∃ newer, newer.Sublist [.unlocked, .clockDisabled] ∧
          session.engine.history = newer ++ c.engine.history := by
  have hrefused : Returns s.finish c.engine fun outcome e => outcome = .error .alreadyFailed ∧
      ∃ newer, newer.Sublist [.unlocked, .clockDisabled] ∧
        e.history = newer ++ c.engine.history := by
    rw [HashStream.finish_of_failed hfailed]
    refine (s.returns_discard.and_always s.always_discard_history).bind fun _ e he => ?_
    exact returns_pure ⟨rfl, he.2⟩
  refine Session.returns_endStream hs ?_
  obtain ⟨outcome, e, hrun, rfl, hreleased⟩ := hrefused
  exact Returns.next (Session.run_onEngine hrun) (returns_pure ⟨rfl, hreleased⟩)

end OneStream

/-- **A stream answers so on any platform.** -/
theorem Accounted.answers (h : Accounted (fun a chain blocks _ => Viable a chain blocks) c)
    (hfeed : feedOf name c.past = some feed) : c.Answers name feed := by
  obtain ⟨s, hs, hserved⟩ := h name feed hfeed
  have hwhole := hserved.whole_eq
  constructor
  · intro htaken
    exact always_absorb_viable hs (hserved.fed (by simpa [htaken] using hwhole.symm))
  · intro htaken
    rw [← hserved.algorithm_eq]
    exact always_finish_viable hs (hserved.fed (by simpa [htaken] using hwhole.symm))
  · intro hlost bytes partSize hsome
    exact returns_absorb_of_failed hs (by simpa [hlost] using hwhole.symm) hsome
  · intro hlost
    exact returns_finish_of_failed hs (by simpa [hlost] using hwhole.symm)

/-! ## On an accelerator that is waited for -/

/-- How a stream answers on an accelerator that is waited for long enough. -/
structure AnswersWell (c : Course ρ κ μ) (name : String) (feed : Feed) : Prop where
  absorb : ∀ bytes partSize, Returns (Session.step (.absorb name bytes partSize)) c.session
    fun answer _ => answer = .outcome (.ok ())
  finish : Returns (Session.step (.finish name)) c.session fun answer _ =>
    ∃ digest, answer = .digest (.ok digest) ∧ digest.length = feed.algorithm.digestSize

section Prompt

variable {J : Engine ρ κ μ → Prop}

/-- **A stream that has not failed answers so** where the waits end well. -/
theorem answersWell_of_prompt (hJ : Prompt J) (hready : J c.engine) {s : HashStream}
    (hs : c.session.streams[name]? = some s) {message : List UInt8}
    (h : s.Fed (fun a chain blocks _ => Viable a chain blocks) message c.engine)
    (halgorithm : s.algorithm = feed.algorithm) : c.AnswersWell name feed := by
  constructor
  · intro bytes partSize
    have hfed : s.Fed (fun a chain blocks e => Viable a chain blocks ∧ J e) message c.engine :=
      h.imp fun _ hviable => ⟨hviable, hready⟩
    have hends : Returns (s.absorbParts bytes partSize) c.engine fun _ e => J e := by
      cases partSize with
      | none => exact hJ.absorb bytes hready
      | some size => exact hJ.absorbAll _ hready
    obtain ⟨⟨outcome, s'⟩, e, hrun, -, -, hr⟩ :=
      hends.and_always (hJ.intake.absorbParts bytes partSize hfed)
    refine Session.returns_withStream hs (Returns.next (Session.run_onEngine hrun) ?_)
    cases outcome with
    | ok => exact returns_pure rfl
    | error fault => exact hr.2.2.2.2.elim
  · rw [← halgorithm]
    obtain ⟨outcome, e, hrun, digest, rfl, hlength⟩ := hJ.finish_ok hready h
    refine Session.returns_endStream hs (Returns.next (Session.run_onEngine hrun) ?_)
    exact returns_pure ⟨digest, rfl, hlength⟩

end Prompt

section Simulated

variable {κ μ : Type} [GatedClock κ] [EngineMutex μ] {c : Course Peripheral κ μ}
variable {step : Step Peripheral μ} {name : String} {feed : Feed}

/-- The accelerator may change by itself as long as nobody has to wait for it in vain. -/
def Unhindered (c : Course Peripheral κ μ) : Step Peripheral μ → Prop
  | .alterRegisters change =>
    Engine.Ready { c.engine with registers := change c.engine.registers }
  | _ => True

/-- The accelerator is ready, and the streams that were started are viable and have not failed. -/
structure Unbroken (c : Course Peripheral κ μ) : Prop where
  ready : c.engine.Ready
  accounted : Accounted (fun a chain blocks _ => Viable a chain blocks) c
  whole : ∀ name feed, feedOf name c.past = some feed → feed.whole = true

theorem Unbroken.answersWell (h : Unbroken c) (hfeed : feedOf name c.past = some feed) :
    c.AnswersWell name feed := by
  obtain ⟨s, hs, hserved⟩ := h.accounted name feed hfeed
  have hsound : s.failed = false := by
    have hwhole := hserved.whole_eq
    rw [h.whole name feed hfeed] at hwhole
    simpa using hwhole.symm
  exact answersWell_of_prompt prompt_ready h.ready hs (hserved.fed hsound) hserved.algorithm_eq

omit [GatedClock κ] [EngineMutex μ] in
/-- A step that takes what it is given loses nothing. -/
theorem whole_of_feedOf_cons {answer : Answer} (h : Unbroken c)
    (htaken : ∀ bytes partSize, step = .absorb name bytes partSize →
      ∀ feed, feedOf name c.past = some feed → answer = .outcome (.ok ()))
    (hfeed : feedOf name ((step, answer) :: c.past) = some feed) : feed.whole = true := by
  rcases exists_of_feedOf_cons hfeed with hold | ⟨algorithm, rfl⟩ | hgiven
  · exact h.whole name feed hold
  · rfl
  · obtain ⟨prior, bytes, partSize, outcome, hprior, hstep, hanswer, rfl⟩ := hgiven
    have hok := htaken bytes partSize hstep prior hprior
    rw [hanswer, Answer.outcome.injEq] at hok
    rw [h.whole name prior hprior, hok]
    rfl

/-- The accelerator stays ready. -/
theorem Unhindered.ready (hfair : Unhindered c step) (h : c.engine.Ready) :
    Always (Session.step step) c.session fun _ session => session.engine.Ready := by
  by_cases hchange : step.IsChange
  · cases step with
    | alterRegisters change =>
      simp only [Session.step, always_bind, always_modify, always_pure]
      exact hfair
    | alterMutex change =>
      simp only [Session.step, always_bind, always_modify, always_pure]
      exact h.quiet rfl rfl
    | _ => exact hchange.elim
  · exact Session.always_kept kept_ready hchange h

/-- **No step breaks anything.** -/
theorem Unbroken.advance (h : Unbroken c) (hfair : Unhindered c step) :
    Always (Session.step step) c.session fun answer session =>
      Unbroken (c.next step answer session) := by
  have htaken : Always (Session.step step) c.session fun answer _ =>
      ∀ name bytes partSize, step = .absorb name bytes partSize →
        ∀ feed, feedOf name c.past = some feed → answer = .outcome (.ok ()) := by
    rintro answer session hrun name bytes partSize rfl feed hfeed
    exact ((h.answersWell hfeed).absorb bytes partSize).always _ _ hrun
  refine ((hfair.ready h.ready).and ((h.accounted.advance account_viable).and htaken)).mono
    fun answer session hs => ⟨hs.1, hs.2.1 fun _ _ _ _ _ hviable => hviable, fun name feed hfeed => ?_⟩
  exact whole_of_feedOf_cons h (hs.2.2 name) hfeed

end Simulated

/-- **Which faults a stream answers with.** After any course of steps whatever, on any platform, a
stream that was started answers with no fault but `stillBusy`, on the engine and under a poll limit,
and `alreadyFailed`, after a failure and always then. On the simulated accelerator, with no poll limit
or one that is no smaller than the latency, it answers with no fault at all, whatever else happens, as
long as nobody holds the accelerator busy. -/
theorem every_stream_answers :
    (∀ {ρ κ μ : Type} [RegisterBlock ρ] [GatedClock κ] [EngineMutex μ] {engine : Engine ρ κ μ}
      {c : Course ρ κ μ}, Reached (fun _ _ => True) (.ofEngine engine) c →
        ∀ name feed, feedOf name c.past = some feed → c.Answers name feed) ∧
    ∀ {κ μ : Type} [GatedClock κ] [EngineMutex μ] {latency : Nat} {clock : κ} {mutex : μ}
      {settings : Settings} {c : Course Peripheral κ μ},
      (∀ limit, settings.pollLimit = some limit → latency ≤ limit) →
      Reached Unhindered (.ofEngine (.simulated latency clock mutex settings)) c →
        ∀ name feed, feedOf name c.past = some feed → c.AnswersWell name feed := by
  constructor
  · intro ρ κ μ _ _ _ engine c hreached name feed hfeed
    exact hreached.viable.answers hfeed
  · intro κ μ _ _ latency clock mutex settings c hlimit hreached name feed hfeed
    have hunbroken : Unbroken c :=
      hreached.induct
        ⟨⟨rfl, Nat.zero_le _, hlimit⟩, (fun _ _ h => by cases h), (fun _ _ h => by cases h)⟩
        fun c step hc hfair => hc.advance hfair
    exact hunbroken.answersWell hfeed

/-- A stream that meets an accelerator held busy, and one that only has to wait. -/
theorem exists_answers :
    (∃ c : Course Peripheral CountedClock CountedMutex,
      feedOf "held" c.past = some ⟨.sha256, List.replicate 64 7, false⟩ ∧
        Returns (Session.step (.finish "held")) c.session fun answer _ =>
          answer = .digest (.error .alreadyFailed)) ∧
    ∃ c : Course Peripheral CountedClock CountedMutex,
      feedOf "free" c.past = some ⟨.sha512, List.replicate 128 7, true⟩ ∧
        Returns (Session.step (.finish "free")) c.session fun answer _ =>
          ∃ digest, answer = .digest (.ok digest) ∧ digest.length = 64 := by
  obtain ⟨anyPlatform, simulated⟩ := every_stream_answers
  constructor
  · let steps : List (Step Peripheral CountedMutex) :=
      [.alterRegisters (Peripheral.holdBusy true), .start "held" .sha256 false,
        .absorb "held" (List.replicate 64 7) none]
    let lost (c : Course Peripheral CountedClock CountedMutex) : Bool :=
      decide (feedOf "held" c.past = some ⟨.sha256, List.replicate 64 7, false⟩)
    have hrun : (take { session := .ofEngine (.simulated 0 {} {} ⟨0, some 2⟩) } steps).any
        lost = true := by
      decide +kernel
    obtain ⟨c, htake, hlost⟩ := (Option.any_eq_true _ _).1 hrun
    have hfeed := of_decide_eq_true hlost
    have hanswers := anyPlatform (Reached.start.take (fun _ _ _ => trivial) htake) "held" _ hfeed
    exact ⟨c, hfeed, (hanswers.abandoned rfl).mono fun _ _ hanswer => hanswer.1⟩
  · let steps : List (Step Peripheral CountedMutex) :=
      [.start "free" .sha512 false, .absorb "free" (List.replicate 128 7) none]
    let taken (c : Course Peripheral CountedClock CountedMutex) : Bool :=
      decide (feedOf "free" c.past = some ⟨.sha512, List.replicate 128 7, true⟩)
    have hrun : (take { session := .ofEngine (.simulated 3 {} {} ⟨0, some 3⟩) } steps).any
        taken = true := by
      decide +kernel
    obtain ⟨c, htake, htaken⟩ := (Option.any_eq_true _ _).1 hrun
    have hfeed := of_decide_eq_true htaken
    have hfair : ∀ c : Course Peripheral CountedClock CountedMutex, ∀ step ∈ steps,
        Unhindered c step := by
      intro c step hstep
      simp only [steps, List.mem_cons, List.not_mem_nil, or_false] at hstep
      rcases hstep with rfl | rfl <;> trivial
    have hanswers := simulated (fun limit hlimit => by cases hlimit; exact Nat.le_refl 3)
      (Reached.start.take hfair htake) "free" _ hfeed
    exact ⟨c, hfeed, hanswers.finish⟩

end Course

end HashAccelerator
