import HashAccelerator.Proofs.Stream.Return
import HashAccelerator.SelfTest.Checks
/-!
# The self-test comes to an end

Whatever the checks find, they wait for nothing but the engine. So the self-test returns wherever the
engine's waits end, well or not.
-/

namespace HashAccelerator

open SelfTest

variable {ρ κ μ : Type} [RegisterBlock ρ] [GatedClock κ] [EngineMutex μ]
variable {J : Engine ρ κ μ → Prop} {e : Engine ρ κ μ}

namespace EngineM.Answering

variable {givesUp : Prop} (hJ : Answering givesUp J)

include hJ

/-- After the end of a stream, and after its being dropped, the next call is answered too. -/
theorem finish_kept (s : HashStream) (h : J e) : Returns s.finish e fun _ e' => J e' := by
  refine ((hJ.finish h).and_always (hJ.toKept.calls.finish h)).mono fun outcome e' he => ?_
  obtain ⟨-, a, hkept, -⟩ := he
  exact hkept

theorem discard_kept (s : HashStream) (h : J e) :
    Returns (s.discard : EngineM ρ κ μ Unit) e fun _ e' => J e' := by
  refine (s.returns_discard.and_always (hJ.toKept.calls.discard h)).mono fun outcome e' he => ?_
  obtain ⟨-, a, hkept, -⟩ := he
  exact hkept

theorem acquire_kept (a : Operation) (h : J e) :
    Returns (EngineM.acquire a) e fun _ e' => J e' :=
  ((returns_acquire a).and_always (hJ.toKept.acquire a h)).mono fun _ _ he => he.2

theorem release_kept (a : Operation) (h : J e) :
    Returns (EngineM.release a) e fun _ e' => J e' :=
  ((returns_release a).and_always (hJ.toKept.release a h)).mono fun _ _ he => he.2

theorem digest (algorithm : Algorithm) (message : List UInt8) (h : J e) :
    Returns (EngineM.digest algorithm message) e fun _ e' => J e' := by
  unfold EngineM.digest
  refine (hJ.absorb message h).bind fun r e' he => ?_
  obtain ⟨outcome, s⟩ := r
  cases outcome with
  | ok => exact hJ.finish_kept s he
  | error fault => exact (hJ.discard_kept s he).bind fun _ _ hdone => returns_pure hdone

/-! ## The checks -/

theorem exampleHolds (software : Bool) (answer : ExampleDigest) (h : J e) :
    Returns (SelfTest.exampleHolds software answer) e fun _ e' => J e' := by
  unfold SelfTest.exampleHolds
  refine (hJ.absorb answer.message h).bind fun r e' he => ?_
  obtain ⟨outcome, s⟩ := r
  cases outcome with
  | error fault =>
    refine (hJ.discard_kept s he).bind fun _ e'' hdone => ?_
    exact Returns.next (run_note _ _) (returns_pure (hJ.note hdone))
  | ok =>
    refine (hJ.finish_kept s he).bind fun outcome e'' hdone => ?_
    cases outcome with
    | error fault => exact Returns.next (run_note _ _) (returns_pure (hJ.note hdone))
    | ok digest =>
      refine Returns.ite (fun _ => returns_pure hdone) fun _ => ?_
      exact Returns.next (run_note _ _) (returns_pure (hJ.note hdone))

omit hJ [RegisterBlock ρ] [GatedClock κ] [EngineMutex μ] in
theorem allHold {α : Type} {check : α → EngineM ρ κ μ Bool}
    (hcheck : ∀ item e, J e → Returns (check item) e fun _ e' => J e') (items : List α) (h : J e) :
    Returns (SelfTest.allHold check items) e fun _ e' => J e' := by
  induction items generalizing e with
  | nil => exact returns_pure h
  | cons item rest ih =>
    unfold SelfTest.allHold
    exact (hcheck item e h).bind fun passed e' he =>
      Returns.ite (fun _ => ih he) fun _ => returns_pure he

theorem arbitrates (h : J e) : Returns SelfTest.arbitrates e fun _ e' => J e' := by
  unfold SelfTest.arbitrates
  refine (hJ.acquire_kept _ h).bind fun first e₁ h₁ => ?_
  refine (hJ.acquire_kept _ h₁).bind fun second e₂ h₂ => ?_
  refine (hJ.acquire_kept _ h₂).bind fun repeated e₃ h₃ => ?_
  refine (hJ.release_kept _ h₃).bind fun _ e₄ h₄ => ?_
  refine (hJ.release_kept _ h₄).bind fun released e₅ h₅ => ?_
  split <;> exact returns_pure h₅

theorem balancesClock (h : J e) : Returns SelfTest.balancesClock e fun _ e' => J e' := by
  unfold SelfTest.balancesClock
  refine Returns.next (run_isClockEnabled _) ?_
  refine (hJ.digest _ _ (hJ.query h)).bind fun outcome e' he => ?_
  cases outcome with
  | error fault => exact returns_pure he
  | ok digest => exact Returns.next (run_isClockEnabled _) (returns_pure (hJ.query he))

theorem feedBoth (first second : HashStream) (parts : List (List UInt8)) (h : J e) :
    Returns (SelfTest.feedBoth first second parts) e fun _ e' => J e' := by
  induction parts generalizing first second e with
  | nil => exact returns_pure h
  | cons part rest ih =>
    unfold SelfTest.feedBoth
    refine (hJ.absorb part h).bind fun r e' he => ?_
    obtain ⟨outcome, first'⟩ := r
    cases outcome with
    | error fault => exact returns_pure he
    | ok =>
      refine (hJ.absorb part he).bind fun r e'' he' => ?_
      obtain ⟨outcome, second'⟩ := r
      cases outcome with
      | error fault => exact returns_pure he'
      | ok => exact ih first' second' he'

theorem pathsAgree (algorithm : Algorithm) (h : J e) :
    Returns (SelfTest.pathsAgree algorithm) e fun _ e' => J e' := by
  unfold SelfTest.pathsAgree
  refine (hJ.feedBoth _ _ _ h).bind fun r e₁ h₁ => ?_
  refine (hJ.finish_kept _ h₁).bind fun one e₂ h₂ => ?_
  refine (hJ.finish_kept _ h₂).bind fun other e₃ h₃ => ?_
  split <;> exact returns_pure h₃

/-! ## The report -/

theorem checks : ∀ check ∈ (SelfTest.checks : List (Check ρ κ μ)), ∀ e, J e →
    Returns check.holds e fun _ e' => J e' := by
  have hexamples : ∀ software e, J e →
      Returns (SelfTest.examplesHold software : EngineM ρ κ μ Bool) e fun _ e' => J e' :=
    fun software e he => allHold (fun answer e he => hJ.exampleHolds software answer he) _ he
  refine List.forall_mem_cons.2 ⟨fun e he => hexamples false e he, ?_⟩
  refine List.forall_mem_cons.2 ⟨fun e he => hexamples true e he, ?_⟩
  refine List.forall_mem_cons.2 ⟨fun e he => hJ.arbitrates he, ?_⟩
  refine List.forall_mem_cons.2 ⟨fun e he => hJ.balancesClock he, ?_⟩
  refine List.forall_mem_cons.2 ⟨fun e he => ?_, fun _ hmem => absurd hmem List.not_mem_nil⟩
  exact allHold (fun algorithm e he => hJ.pathsAgree algorithm he) _ he

omit hJ [RegisterBlock ρ] [GatedClock κ] [EngineMutex μ] in
theorem runChecks {checks : List (Check ρ κ μ)}
    (hchecks : ∀ check ∈ checks, ∀ e, J e → Returns check.holds e fun _ e' => J e')
    (console : Console) (failures : Nat) (h : J e) :
    Returns (SelfTest.runChecks console failures checks) e fun _ e' => J e' := by
  induction checks generalizing console failures e with
  | nil => exact returns_pure h
  | cons check rest ih =>
    unfold SelfTest.runChecks
    refine (hchecks check List.mem_cons_self e h).bind fun passed e' he => ?_
    refine Returns.ite (fun _ => ?_) fun _ => returns_pure he
    exact ih (fun other hother => hchecks other (List.mem_cons_of_mem _ hother)) _ _ he

/-- **The self-test returns**, whatever becomes of its checks and its report. -/
theorem selfTest (console : Console) (h : J e) :
    Returns (SelfTest.run console) e fun _ e' => J e' := by
  unfold SelfTest.run
  exact Returns.ite (fun _ => runChecks hJ.checks _ _ h) fun _ => returns_pure h

end EngineM.Answering

end HashAccelerator
