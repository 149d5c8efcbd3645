import HashAccelerator.Proofs.Session.Parties
/-!
# Properties that steps keep

Whatever a step does, it does by calls on the platform; the self-test too is nothing but calls of
operations and streams. So what no call changes of the engine survives every step of a session, but
for the two by which the platform changes by itself (`Session.always_kept`); and what survives the
engine's own use of the registers survives every step that does not reach a register past the engine
(`Session.always_protocol`).
-/

namespace HashAccelerator

open EngineM

variable {ρ κ μ : Type} [RegisterBlock ρ] [GatedClock κ] [EngineMutex μ]
variable {p : Operation → List Event → Prop} {K : Engine ρ κ μ → Prop} {e : Engine ρ κ μ}

/-! ## The self-test -/

namespace KeptByUse

variable (hU : KeptByUse (fun _ => True) p K)

include hU

theorem exampleHolds (software : Bool) (answer : ExampleDigest) (h : K e) :
    Always (SelfTest.exampleHolds software answer) e fun _ e' => K e' := by
  simp only [SelfTest.exampleHolds, always_bind]
  have hstart : p (if software then HashStream.inSoftware answer.algorithm
      else HashStream.start answer.algorithm).operation e.history := by
    split
    · exact hU.softwareOnly
    · exact hU.start
  refine (hU.blocks.absorb _ ⟨hstart, h⟩).mono fun r e' he => ?_
  obtain ⟨outcome, s⟩ := r
  cases outcome with
  | error fault =>
    refine always_bind.2 ((hU.discard he.1 he.2).mono fun _ e'' hdone => ?_)
    simpa using hU.note hdone
  | ok =>
    refine always_bind.2 ((hU.finish trivial he.1 he.2).mono fun digest e'' hdone => ?_)
    cases digest with
    | error fault => simpa using hU.note hdone
    | ok digest =>
      refine Always.ite (fun _ => ?_) fun _ => ?_
      · simpa using hdone
      · simpa using hU.note hdone

omit hU [RegisterBlock ρ] [GatedClock κ] [EngineMutex μ] in
theorem allHold {α : Type} {check : α → EngineM ρ κ μ Bool}
    (hcheck : ∀ item e, K e → Always (check item) e fun _ e' => K e') (items : List α) (h : K e) :
    Always (SelfTest.allHold check items) e fun _ e' => K e' := by
  induction items generalizing e with
  | nil => simpa [SelfTest.allHold] using h
  | cons item rest ih =>
    simp only [SelfTest.allHold, always_bind]
    refine (hcheck item e h).mono fun passed e' he => Always.ite (fun _ => ih he) fun _ => ?_
    simpa using he

theorem arbitrates (h : K e) : Always SelfTest.arbitrates e fun _ e' => K e' := by
  simp only [SelfTest.arbitrates, always_bind]
  refine (hU.acquire hU.fresh h).mono fun first e₁ h₁ => ?_
  -- the first operation waits while the second asks
  refine ((hU.since e₁.history).acquire hU.fresh ⟨h₁.2, List.suffix_refl _⟩).mono
    fun second e₂ h₂ => ?_
  refine ((hU.since e₂.history).acquire (hU.mono h₁.1 h₂.2.2) ⟨h₂.2.1, List.suffix_refl _⟩).mono
    fun repeated e₃ h₃ => ?_
  refine ((hU.since e₃.history).release (hU.mono h₂.1 h₃.2.2) ⟨h₃.2.1, List.suffix_refl _⟩).mono
    fun _ e₄ h₄ => ?_
  refine (hU.release (hU.mono h₃.1 h₄.2.2) h₄.2.1).mono fun _ e₅ h₅ => ?_
  split <;> simpa using h₅.2

-- whether the clock is running is asked for besides
variable (hquery : ∀ {e : Engine ρ κ μ}, K e → K { e with
  clock := (GatedClock.isEnabled e.clock).2
  history := .clockQueried (GatedClock.isEnabled e.clock).1 :: e.history })

include hquery in
theorem balancesClock (h : K e) : Always SelfTest.balancesClock e fun _ e' => K e' := by
  simp only [SelfTest.balancesClock, always_bind, always_isClockEnabled]
  refine (hU.digest _ _ trivial (hquery h)).mono fun digest e' hdone => ?_
  cases digest with
  | error fault => simpa using hdone
  | ok digest => simpa using hquery hdone

theorem feedBoth (first second : HashStream) (parts : List (List UInt8))
    (hfirst : p first.operation e.history) (hsecond : p second.operation e.history) (h : K e) :
    Always (SelfTest.feedBoth first second parts) e fun r e' =>
      p r.2.1.operation e'.history ∧ p r.2.2.operation e'.history ∧ K e' := by
  induction parts generalizing first second e with
  | nil => simpa [SelfTest.feedBoth] using ⟨hfirst, hsecond, h⟩
  | cons part rest ih =>
    simp only [SelfTest.feedBoth, always_bind]
    refine ((hU.since e.history).blocks.absorb part ⟨hfirst, h, List.suffix_refl _⟩).mono
      fun r e' he => ?_
    obtain ⟨outcome, first⟩ := r
    have hwaits := hU.mono hsecond he.2.2
    cases outcome with
    | error fault => simpa using ⟨he.1, hwaits, he.2.1⟩
    | ok =>
      refine always_bind.2 (((hU.since e'.history).blocks.absorb part
        ⟨hwaits, he.2.1, List.suffix_refl _⟩).mono fun r e'' he' => ?_)
      obtain ⟨outcome, second⟩ := r
      have hwaited := hU.mono he.1 he'.2.2
      cases outcome with
      | error fault => simpa using ⟨hwaited, he'.1, he'.2.1⟩
      | ok => exact ih first second hwaited he'.1 he'.2.1

theorem pathsAgree (algorithm : Algorithm) (h : K e) :
    Always (SelfTest.pathsAgree algorithm) e fun _ e' => K e' := by
  simp only [SelfTest.pathsAgree, always_bind]
  refine (hU.feedBoth _ _ _ hU.start hU.start h).mono fun r e₁ h₁ => ?_
  obtain ⟨fed, first, second⟩ := r
  refine ((hU.since e₁.history).finish trivial h₁.1 ⟨h₁.2.2, List.suffix_refl _⟩).mono
    fun one e₂ h₂ => ?_
  refine (hU.finish trivial (hU.mono h₁.2.1 h₂.2) h₂.1).mono fun other e₃ h₃ => ?_
  split <;> simpa using h₃

include hquery in
theorem checks : ∀ check ∈ (SelfTest.checks : List (SelfTest.Check ρ κ μ)), ∀ e, K e →
    Always check.holds e fun _ e' => K e' := by
  have hexamples : ∀ software e, K e →
      Always (SelfTest.examplesHold software : EngineM ρ κ μ Bool) e fun _ e' => K e' :=
    fun software e he => allHold (fun answer e he => hU.exampleHolds software answer he) _ he
  refine List.forall_mem_cons.2 ⟨fun e he => hexamples false e he, ?_⟩
  refine List.forall_mem_cons.2 ⟨fun e he => hexamples true e he, ?_⟩
  refine List.forall_mem_cons.2 ⟨fun e he => hU.arbitrates he, ?_⟩
  refine List.forall_mem_cons.2 ⟨fun e he => hU.balancesClock hquery he, ?_⟩
  refine List.forall_mem_cons.2 ⟨fun e he => ?_, fun _ hmem => absurd hmem List.not_mem_nil⟩
  exact allHold (fun algorithm e he => hU.pathsAgree algorithm he) _ he

omit hU [RegisterBlock ρ] [GatedClock κ] [EngineMutex μ] in
theorem runChecks {checks : List (SelfTest.Check ρ κ μ)}
    (hchecks : ∀ check ∈ checks, ∀ e, K e → Always check.holds e fun _ e' => K e')
    (console : Console) (failures : Nat) (h : K e) :
    Always (SelfTest.runChecks console failures checks) e fun _ e' => K e' := by
  induction checks generalizing console failures e with
  | nil => simpa [SelfTest.runChecks] using h
  | cons check rest ih =>
    simp only [SelfTest.runChecks, always_bind]
    refine (hchecks check List.mem_cons_self e h).mono fun passed e' he => ?_
    refine Always.ite (fun _ => ?_) fun _ => by simpa using he
    exact ih (fun other hother => hchecks other (List.mem_cons_of_mem _ hother)) _ _ he

include hquery in
/-- **The self-test keeps what the use of the engine keeps**, however it turns out. -/
theorem selfTest (console : Console) (h : K e) :
    Always (SelfTest.run console) e fun _ e' => K e' := by
  unfold SelfTest.run
  refine Always.ite (fun _ => ?_) fun _ => by simpa using h
  exact runChecks (hU.checks hquery) _ _ h

end KeptByUse

/-! ## Steps -/

/-- What the register protocol keeps is kept by the use of the engine, and nobody minds. -/
theorem EngineM.KeptByProtocol.use {reads : Algorithm → Prop} (hK : KeptByProtocol reads K) :
    KeptByUse reads (fun _ _ => True) K where
  mono _ _ := trivial
  fresh := trivial
  softwareOnly := trivial
  note := hK.note
  acquire _ h := (hK.acquire _ h).mono fun _ _ h => ⟨trivial, h⟩
  submit words _ h := (hK.submit _ words h).mono fun _ _ h => ⟨trivial, h⟩
  fetch out hreads _ h := hK.fetch _ out hreads h
  release _ h := (hK.release _ h).mono fun _ _ h => ⟨trivial, h⟩
  settle _ h := (hK.settle _ h).mono fun _ _ h => ⟨trivial, h⟩

/-- The platform changes by itself. -/
def Step.IsChange : Step ρ μ → Prop
  | .alterRegisters _ | .alterMutex _ => True
  | _ => False

/-- A register is reached past the engine. -/
def Step.IsRaw : Step ρ μ → Prop
  | .readRegister _ | .writeRegister _ _ | .awaitClear _ => True
  | _ => False

/-- **What the register protocol keeps, no step changes** that leaves the registers to it. -/
theorem Session.always_protocol {reads : Algorithm → Prop} {session : Session ρ κ μ}
    {step : Step ρ μ} (hK : KeptByProtocol reads K)
    (hreads : ∀ algorithm, step.Reads session algorithm → reads algorithm)
    (hraw : ¬ step.IsRaw) (hchange : ¬ step.IsChange) (h : K session.engine) :
    Always (Session.step step) session fun _ s => K s.engine := by
  have hcalled : step.IsCall → Always (Session.step step) session fun _ s => K s.engine := by
    have heveryone : session.Everyone fun _ _ => True := ⟨fun _ => trivial, fun _ => trivial⟩
    exact fun hcall => (Session.always_call hK.use hcall hreads heveryone h).mono fun _ _ hs => hs.2
  cases step with
  | alterRegisters change => exact absurd trivial hchange
  | alterMutex change => exact absurd trivial hchange
  | readRegister address => exact absurd trivial hraw
  | writeRegister address value => exact absurd trivial hraw
  | awaitClear address => exact absurd trivial hraw
  | copy source target =>
    simp only [Session.step, always_bind, always_get]
    cases session.operations[source]? with
    | none => simpa using h
    | some a => simpa [Session.putOperation] using h
  | adjust name => exact Session.always_withOperation (fun _ => h) fun a _ => by simpa using h
  | awaitIdle =>
    simpa only [Session.step, always_bind, Session.always_onEngine, always_pure]
      using hK.awaitIdle h
  | fence => simpa [Session.step] using hK.fence h
  | enableClock => simpa [Session.step] using hK.enable h
  | disableClock => simpa [Session.step] using hK.disable h
  | isClockEnabled => simpa [Session.step] using hK.query h
  | createMutex =>
    simpa only [Session.step, always_bind, Session.always_onEngine, always_pure]
      using hK.createMutex 2 h
  | tryMutex timeout => simpa [Session.step] using hK.tried h
  | unlockMutex => simpa [Session.step] using hK.unlocked h
  | readSettings => simpa [Session.step] using h
  | selfTest capacity =>
    have hall : KeptByProtocol (fun _ => True) K :=
      { hK with fetch := fun a out _ => hK.fetch a out (hreads _ (.selfTest _)) }
    simp only [Session.step, always_bind, Session.always_onEngine, always_pure]
    exact hall.use.selfTest hall.query _ h
  | _ => exact hcalled trivial

/-- **What no call changes, no step changes.** -/
theorem Session.always_kept {session : Session ρ κ μ} {step : Step ρ μ} (hK : Kept K)
    (hcall : ¬ step.IsChange) (h : K session.engine) :
    Always (Session.step step) session fun _ s => K s.engine := by
  by_cases hraw : step.IsRaw
  · cases step with
    | readRegister address => simpa [Session.step] using hK.read h
    | writeRegister address value => simpa [Session.step] using hK.write h
    | awaitClear address =>
      simpa only [Session.step, always_bind, Session.always_onEngine, always_pure]
        using KeptByReads.awaitClear hK.toKeptByReads address h
    | _ => exact hraw.elim
  · exact Session.always_protocol hK.protocol (fun algorithm h => h) hraw hcall h

end HashAccelerator
