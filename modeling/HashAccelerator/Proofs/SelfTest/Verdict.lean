import HashAccelerator.Proofs.SelfTest.Checks
import HashAccelerator.Proofs.SelfTest.Console
import HashAccelerator.Proofs.SelfTest.Return
import HashAccelerator.Proofs.Session.Kept
/-!
# The verdict of the self-test

Which checks fail is decided by how the engine was found (`SelfTest.failing`): whether it can be won,
and whether its accelerator is waited for in time. The checks follow one another on one engine, each
after whatever became of those before it; but each leaves the engine as it was found, so none of them
decides about another. On a console that does not fill up the run ends in the report on them, and the
clock and the mutex are as they were before (`SelfTest.run_reports`).
-/

namespace HashAccelerator

open EngineM

namespace SelfTest

/-! ## The report -/

/-- The names of the checks, in the order of the report. -/
def checkNames : List String := [
  "known answers on the engine", "known answers in software", "engine arbitration",
  "clock refcount balance", "mixed-path digests agree"]

/-- The lines of the report for some checks. -/
def checkLines (names failed : List String) : String :=
  String.join (names.map fun name => checkLine name (decide (name ∉ failed)))

/-- The whole report, if some checks fail. -/
def report (failed : List String) : String :=
  headline ++ checkLines checkNames failed ++ verdict failed.length

section Report

variable {ρ κ μ : Type} {K : Engine ρ κ μ → Prop} {e : Engine ρ κ μ} {failed : List String}

theorem map_name_checks [RegisterBlock ρ] [GatedClock κ] [EngineMutex μ] :
    (checks : List (Check ρ κ μ)).map Check.name = checkNames := rfl

/-- **Checks that are decided beforehand are reported as they are decided**, each in its line, and
those that fail are counted. -/
theorem always_runChecks {checks : List (Check ρ κ μ)} {console : Console} {failures : Nat}
    (hconsole : console.capacity = none)
    (hchecks : ∀ check ∈ checks, Decides K check.holds (check.name ∉ failed)) (h : K e) :
    Always (runChecks console failures checks) e fun r e' => K e' ∧ ∃ total,
      total = failures + (checks.map Check.name).countP (· ∈ failed) ∧
      r = (some total, { console with
        text := console.text ++ checkLines (checks.map Check.name) failed ++ verdict total }) := by
  -- on the checks: the console has the lines of those before, and the count is of those that failed
  induction checks generalizing console failures e with
  | nil =>
    simp only [runChecks, Console.write_of_unlimited hconsole, always_pure]
    exact ⟨h, failures, rfl, by simp [checkLines]⟩
  | cons check rest ih =>
    simp only [runChecks, always_bind, Console.write_of_unlimited hconsole, if_true]
    refine (hchecks check List.mem_cons_self e h).mono fun passed e' he => ?_
    obtain ⟨hkept, hpassed⟩ := he
    have hrest := @ih e' { console with text := console.text ++ checkLine check.name passed }
      (if passed then failures else failures + 1) hconsole
      (fun other hother => hchecks other (List.mem_cons_of_mem _ hother)) hkept
    refine hrest.mono fun r e'' he => ⟨he.1, ?_⟩
    obtain ⟨total, htotal, rfl⟩ := he.2
    have hline : passed = decide (check.name ∉ failed) := by
      rw [← Bool.coe_iff_coe, hpassed, decide_eq_true_iff]
    refine ⟨total, ?_, ?_⟩
    · rw [htotal, List.map_cons, List.countP_cons, hline]
      by_cases hfails : check.name ∈ failed
      · simp only [hfails, not_true_eq_false, decide_false, decide_true, Bool.false_eq_true, if_true,
          if_false]
        omega
      · simp [hfails]
    · simp [checkLines, hline, String.append_assoc]

end Report

/-! ## The verdict -/

section Verdict

variable {μ : Type} [EngineMutex μ] [PlainLatch μ] {e : Engine Peripheral CountedClock μ}

/-- The checks that fail on an engine as it is found. -/
def failing (e : Engine Peripheral CountedClock μ) : List String :=
  if e.Winnable then
    if e.InTime then []
    else ["known answers on the engine", "clock refcount balance", "mixed-path digests agree"]
  else ["engine arbitration", "mixed-path digests agree"]

theorem failing_of_inTime (hwinnable : e.Winnable) (hin : e.InTime) : failing e = [] := by
  rw [failing, if_pos hwinnable, if_pos hin]

theorem failing_of_late (hwinnable : e.Winnable) (hlate : ¬ e.InTime) : failing e =
    ["known answers on the engine", "clock refcount balance", "mixed-path digests agree"] := by
  rw [failing, if_pos hwinnable, if_neg hlate]

theorem failing_of_barred (hbarred : ¬ e.Winnable) :
    failing e = ["engine arbitration", "mixed-path digests agree"] := by
  rw [failing, if_neg hbarred]

theorem countP_failing (e : Engine Peripheral CountedClock μ) :
    checkNames.countP (· ∈ failing e) = (failing e).length := by
  unfold failing
  split
  · split <;> decide
  · decide

/-- **Each check passes just if it is not among those that fail**, and leaves the engine at rest. -/
theorem decides_checks_rested (hwinnable : e.Winnable) (hroom : e.clock.count.toNat < clockRoom)
    (hpatient : e.Patient) : ∀ check ∈ (checks : List (Check Peripheral CountedClock μ)),
      Decides e.Rested check.holds (check.name ∉ failing e) := by
  -- those on the list need a digest of the accelerator's to pass, and the others do not
  have hiff : ∀ name, (name ∉ failing e ↔ (name ∈ ["known answers on the engine",
      "clock refcount balance", "mixed-path digests agree"] → e.InTime)) := fun name => by
    by_cases hin : e.InTime
    · simp [failing_of_inTime hwinnable hin, hin]
    · simp [failing_of_late hwinnable hin, hin]
  refine List.forall_mem_cons.2 ⟨?_, ?_⟩
  · exact (decides_examplesHold_rested hroom hpatient).congr (by simp [hiff])
  refine List.forall_mem_cons.2 ⟨decides_examplesHold_software.congr (by simp [hiff]), ?_⟩
  refine List.forall_mem_cons.2 ⟨(decides_arbitrates_rested hroom).congr (by simp [hiff]), ?_⟩
  refine List.forall_mem_cons.2 ⟨?_, ?_⟩
  · exact (decides_balancesClock_rested hroom hpatient).congr (by simp [hiff])
  refine List.forall_mem_cons.2 ⟨?_, fun _ hmem => absurd hmem List.not_mem_nil⟩
  exact (decides_pathsAgree_rested hroom hpatient (by simp) (by decide)).congr (by simp [hiff])

/-- And where the engine cannot be won, leaves it undisturbed. -/
theorem decides_checks_barred (hbarred : ¬ e.Winnable) :
    ∀ check ∈ (checks : List (Check Peripheral CountedClock μ)),
      Decides e.Undisturbed check.holds (check.name ∉ failing e) := by
  rw [failing_of_barred hbarred]
  refine List.forall_mem_cons.2 ⟨?_, ?_⟩
  · exact (decides_examplesHold_barred hbarred false).congr (by simp)
  refine List.forall_mem_cons.2 ⟨?_, ?_⟩
  · exact (decides_examplesHold_barred hbarred true).congr (by simp)
  refine List.forall_mem_cons.2 ⟨(decides_arbitrates_barred hbarred).congr (by simp), ?_⟩
  refine List.forall_mem_cons.2 ⟨(decides_balancesClock_barred hbarred).congr (by simp), ?_⟩
  refine List.forall_mem_cons.2 ⟨?_, fun _ hmem => absurd hmem List.not_mem_nil⟩
  refine (decides_allHold fun algorithm _ => decides_pathsAgree_barred hbarred algorithm).congr ?_
  exact iff_of_false (fun hall => hall .sha1 List.mem_cons_self) (by simp)

/-- The run of checks that are decided beforehand ends in the report on those that fail. -/
theorem always_run {K : Engine Peripheral CountedClock μ → Prop} {console : Console}
    (hconsole : console.capacity = none)
    (hchecks : ∀ check ∈ (checks : List (Check Peripheral CountedClock μ)),
      Decides K check.holds (check.name ∉ failing e)) (h : K e) :
    Always (run console) e fun r e' => K e' ∧ r = (some (failing e).length,
      { console with text := console.text ++ report (failing e) }) := by
  simp only [run, Console.write_of_unlimited hconsole, if_true]
  refine (always_runChecks (by exact hconsole) hchecks h).mono fun r e' he => ⟨he.1, ?_⟩
  obtain ⟨total, htotal, rfl⟩ := he.2
  rw [map_name_checks] at htotal ⊢
  rw [countP_failing, Nat.zero_add] at htotal
  rw [htotal, report]
  simp [String.append_assoc]

/-- **The verdict of the self-test.** On a console that does not fill up it reports as failed the checks
that fail on an engine as it is found, and counts them. The clock's count and the lock of the mutex are
then what they were; and an engine that could not be won has had no register read or written. -/
theorem run_reports (e : Engine Peripheral CountedClock μ) (console : Console)
    (hconsole : console.capacity = none) (hroom : e.clock.count.toNat < clockRoom)
    (hpatient : e.Patient) (hremaining : e.registers.remaining ≤ e.registers.latency) :
    ∃ e', (run console).run e = some ((some (failing e).length,
        { console with text := console.text ++ report (failing e) }), e') ∧
      e'.clock.count = e.clock.count ∧
      LatchedMutex.locked e'.mutex = LatchedMutex.locked e.mutex ∧
      (¬ e.Winnable → e'.registers = e.registers ∧
        ∃ newer, e'.history = newer ++ e.history ∧ ∀ event ∈ newer, event.isAccess = false) := by
  have hreturns := answering_patient.selfTest console ⟨hpatient, hremaining⟩ (μ := μ)
  by_cases hwinnable : e.Winnable
  · obtain ⟨r, e', hrun, -, hrested, rfl⟩ := hreturns.and_always (always_run hconsole
      (decides_checks_rested hwinnable hroom hpatient) (.refl hwinnable hremaining))
    refine ⟨e', hrun, UInt32.toNat_inj.1 hrested.count_eq, ?_, fun hnot => absurd hwinnable hnot⟩
    rw [hrested.winnable.1, hwinnable.1]
  · obtain ⟨r, e', hrun, -, hsame, rfl⟩ := hreturns.and_always (always_run hconsole
      (decides_checks_barred hwinnable) (.refl e))
    refine ⟨e', hrun, ?_, hsame.locked_eq, fun _ => ⟨hsame.registers_eq, hsame.unread⟩⟩
    rw [hsame.clock_eq]

end Verdict

/-- An engine that somebody else holds, one that is waited for in time, and one that is not. -/
theorem exists_each_verdict :
    (∃ e : Engine Peripheral CountedClock FlagMutex, e.clock.count = 5 ∧ e.mutex.locked = true ∧
      ∃ console e', (run {}).run e = some ((some 2, console), e') ∧ e'.clock.count = 5) ∧
    (∃ e : Engine Peripheral CountedClock CountedMutex, e.registers.latency = 3 ∧
      e.settings.pollLimit = some 3 ∧ ∃ console e', (run {}).run e = some ((some 0, console), e')) ∧
    ∃ e : Engine Peripheral CountedClock CountedMutex, e.registers.latency = 3 ∧
      e.settings.pollLimit = some 2 ∧ ∃ console e', (run {}).run e = some ((some 3, console), e') := by
  refine ⟨?_, ?_, ?_⟩
  · let e : Engine Peripheral CountedClock FlagMutex := .simulated 3 { count := 5 } ⟨true⟩ {}
    obtain ⟨e', hrun, hcount, -⟩ := run_reports e {} rfl (by decide) (fun _ => rfl) (by decide)
    rw [failing_of_barred (by decide)] at hrun
    exact ⟨e, rfl, rfl, _, e', hrun, hcount⟩
  · let e : Engine Peripheral CountedClock CountedMutex := .simulated 3 {} {} ⟨0, some 3⟩
    obtain ⟨e', hrun, -⟩ := run_reports e {} rfl (by decide) (fun _ => rfl) (by decide)
    rw [failing_of_inTime (by decide) (by decide)] at hrun
    exact ⟨e, rfl, rfl, _, e', hrun⟩
  · let e : Engine Peripheral CountedClock CountedMutex := .simulated 3 {} {} ⟨0, some 2⟩
    obtain ⟨e', hrun, -⟩ := run_reports e {} rfl (by decide) (fun _ => rfl) (by decide)
    rw [failing_of_late (by decide) (by decide)] at hrun
    exact ⟨e, rfl, rfl, _, e', hrun⟩

end SelfTest

/-! ## What earlier runs leave -/

namespace Course

variable {κ μ : Type} [GatedClock κ] [EngineMutex μ] {c : Course Peripheral κ μ}

/-- The accelerator changes by itself only in whether its busy registers are held set. -/
def KeepsPace (_ : Course Peripheral κ μ) : Step Peripheral μ → Prop
  | .alterRegisters change => ∃ held, change = Peripheral.holdBusy held
  | _ => True

/-- **Whatever was done before**, with or without faults, self-tests included, the accelerator is busy
for no longer than after a command. -/
theorem Reached.remaining_le {start : Session Peripheral κ μ} (h : Reached KeepsPace start c)
    (hstart : start.engine.registers.remaining ≤ start.engine.registers.latency) :
    c.engine.registers.remaining ≤ c.engine.registers.latency := by
  have hpaced : start.engine.Paced fun _ _ _ => True := ⟨trivial, hstart⟩
  suffices hreached : c.engine.Paced fun _ _ _ => True from hreached.remaining_le
  refine h.induct (I := fun c => c.engine.Paced fun _ _ _ => True) hpaced
    fun c step hc hfair => ?_
  by_cases hchange : step.IsChange
  · cases step with
    | alterRegisters change =>
      obtain ⟨held, rfl⟩ := hfair
      simp only [Session.step, always_bind, always_modify, always_pure]
      exact ⟨trivial, hc.remaining_le⟩
    | alterMutex change =>
      simp only [Session.step, always_bind, always_modify, always_pure]
      exact ⟨trivial, hc.remaining_le⟩
    | _ => exact hchange.elim
  · exact Session.always_kept (kept_paced _) hchange hc

end Course

end HashAccelerator
