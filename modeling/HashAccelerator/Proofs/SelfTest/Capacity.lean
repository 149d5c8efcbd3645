import HashAccelerator.Proofs.SelfTest.Loans
import HashAccelerator.Proofs.SelfTest.Verdict
/-!
# A self-test on a console that fills up

The self-test stops where its console is full, after any of its checks and in the middle of any line. On
a console with room for so many bytes it writes the report that it would write on one without a limit,
cut off where the room ends, and fails exactly if something had to be cut off. And wherever that is, it
has given back what it took (`SelfTest.run_cut_by_console`).

The checks know nothing of the console. So up to the line that does not fit the two runs are one, and
the cut is made in that line. `Reports` says this of any action that writes as it goes, and holds of the
self-test because it is built of checks and lines.
-/

namespace HashAccelerator

open EngineM

namespace SelfTest

variable {ρ κ μ : Type} {e : Engine ρ κ μ} {console : Console} {room : Nat}

/-! ## Reports -/

/-- What a report on a console with room for so many characters comes to, by what it comes to without a
limit: the same if it fits, and if not it fails with the console full. -/
def CutBy (room : Nat) (whole : Option Nat × Console) (e' : Engine ρ κ μ)
    (r : Option Nat × Console) (e'' : Engine ρ κ μ) : Prop :=
  r.2 = whole.2.cut room ∧
    if whole.2.text.length ≤ room then r.1 = whole.1 ∧ e'' = e' else r.1 = none

/-- A report that is written on a console piece by piece, in characters of one byte, and abandoned when
the console is full. -/
structure Reports (report : Console → EngineM ρ κ μ (Option Nat × Console)) : Prop where
  ascii : ∀ {console : Console} {e : Engine ρ κ μ}, Ascii console.text →
    Always (report console) e fun r _ => Ascii r.2.text
  /-- Without a limit it is finished. -/
  finished : ∀ {console : Console} {e : Engine ρ κ μ}, console.capacity = none →
    Always (report console) e fun r _ => ∃ total more,
      r = (some total, { console with text := console.text ++ more })
  /-- With one it is cut off where the room ends. -/
  cut : ∀ {console : Console} {e : Engine ρ κ μ} {room : Nat}, console.capacity = none →
    console.text.length ≤ room → Always (report console) e fun r e' =>
      Returns (report (console.cut room)) e (CutBy room r e')
  /-- And if the console is not full then, it is the report without a limit. -/
  full_or_whole : ∀ {console : Console} {e : Engine ρ κ μ} {room : Nat}, console.capacity = none →
    console.text.length ≤ room → Always (report (console.cut room)) e fun r e' =>
      (r.1 = none ∧ r.2.text.length = room) ∨
        ∃ whole, (report console).run e = some ((r.1, whole), e')

/-- The end of a report. -/
theorem reports_pure (total : Nat) :
    Reports fun console => (pure (some total, console) : EngineM ρ κ μ (Option Nat × Console)) where
  ascii h := by rwa [always_pure]
  finished _ := by
    rw [always_pure]
    exact ⟨total, "", by rw [String.append_empty]⟩
  cut _ hfits := by
    rw [always_pure]
    exact returns_pure ⟨rfl, by rw [if_pos hfits]; exact ⟨rfl, rfl⟩⟩
  full_or_whole _ _ := by
    rw [always_pure]
    exact Or.inr ⟨_, rfl⟩

namespace Reports

/-- **A line before a report.** If it does not fit, the cut is in it, and the report is not begun. -/
theorem write {line : String} {report : Console → EngineM ρ κ μ (Option Nat × Console)}
    (hline : Ascii line) (h : Reports report) : Reports fun console =>
      if (console.write line).1 then report (console.write line).2
      else pure (none, (console.write line).2) where
  ascii htext := Always.ite (fun _ => h.ascii (htext.write hline)) fun _ => by
    rw [always_pure]
    exact htext.write hline
  finished {console e} hopen := by
    simp only [Console.write_of_unlimited hopen, if_true]
    refine (h.finished (by exact hopen)).mono fun r e' he => ?_
    obtain ⟨total, more, rfl⟩ := he
    exact ⟨total, line ++ more, by rw [← String.append_assoc]⟩
  cut {console e room} hopen hfits := by
    simp only [Console.write_of_unlimited hopen, if_true, Console.write_cut hfits]
    by_cases hroom : (console.text ++ line).length ≤ room
    · rw [← String.length_append, decide_eq_true hroom]
      exact h.cut (by exact hopen) hroom
    · rw [← String.length_append, decide_eq_false hroom]
      refine (h.finished (by exact hopen)).mono fun r e' he => returns_pure ?_
      obtain ⟨total, more, rfl⟩ := he
      have hfull : room ≤ (console.text ++ line).length := Nat.le_of_not_le hroom
      have hlong : ¬ (console.text ++ line ++ more).length ≤ room := by
        rw [String.length_append]
        omega
      exact ⟨Eq.symm (Console.cut_append (by exact hfull) more), by rw [if_neg hlong]⟩
  full_or_whole {console e room} hopen hfits := by
    simp only [Console.write_of_unlimited hopen, if_true, Console.write_cut hfits]
    by_cases hroom : (console.text ++ line).length ≤ room
    · rw [← String.length_append, decide_eq_true hroom]
      exact h.full_or_whole (by exact hopen) hroom
    · rw [← String.length_append, decide_eq_false hroom]
      exact always_pure.2 (Or.inl ⟨rfl, Console.length_text_cut_of_le (Nat.le_of_not_le hroom)⟩)

/-- **A check before a report** is the same check whatever the console. -/
theorem after {check : EngineM ρ κ μ Bool}
    {report : Bool → Console → EngineM ρ κ μ (Option Nat × Console)}
    (h : ∀ passed, Reports (report passed)) :
    Reports fun console => check >>= fun passed => report passed console where
  ascii htext := always_bind.2 (always_true.mono fun passed _ _ => (h passed).ascii htext)
  finished hopen := always_bind.2 (always_true.mono fun passed _ _ => (h passed).finished hopen)
  cut hopen hfits := by
    rw [always_bind]
    intro passed e' hcheck
    exact ((h passed).cut hopen hfits).mono fun _ _ he => he.next hcheck
  full_or_whole hopen hfits := by
    rw [always_bind]
    intro passed e' hcheck
    refine ((h passed).full_or_whole hopen hfits).mono fun r e'' he => he.imp_right fun hrun => ?_
    obtain ⟨whole, hrun⟩ := hrun
    exact ⟨whole, run_bind_eq_some.2 ⟨passed, e', hcheck, hrun⟩⟩

end Reports

/-! ## The report of the self-test -/

theorem ascii_verdict (failures : Nat) : Ascii (verdict failures) := by
  unfold verdict
  split
  · decide
  · exact (Ascii.append (by decide) (.toString_nat failures)).append (by decide)

theorem ascii_checkLine {name : String} (h : Ascii name) (passed : Bool) :
    Ascii (checkLine name passed) := by
  refine ((Ascii.append (by decide) h).append (by decide)).append ?_ |>.append (by decide)
  cases passed <;> decide

/-- **Checks are reported as they are run.** -/
theorem reports_runChecks {checks : List (Check ρ κ μ)}
    (hnames : ∀ check ∈ checks, Ascii check.name) (failures : Nat) :
    Reports fun console => runChecks console failures checks := by
  induction checks generalizing failures with
  | nil =>
    have hlast : ∀ console : Console, (runChecks console failures [] : EngineM ρ κ μ _) =
        if (console.write (verdict failures)).1 then
          pure (some failures, (console.write (verdict failures)).2)
        else pure (none, (console.write (verdict failures)).2) := by
      intro console
      rw [runChecks]
      obtain ⟨written, console'⟩ := console.write (verdict failures)
      cases written <;> rfl
    simp only [hlast]
    exact (reports_pure failures).write (ascii_verdict failures)
  | cons check rest ih =>
    have hrest := ih fun other hother => hnames other (List.mem_cons_of_mem _ hother)
    exact Reports.after fun passed =>
      (hrest _).write (ascii_checkLine (hnames check List.mem_cons_self) passed)

variable [RegisterBlock ρ] [GatedClock κ] [EngineMutex μ]

/-- **So is the self-test.** -/
theorem reports_run : Reports (run : Console → EngineM ρ κ μ (Option Nat × Console)) := by
  have hnames : ∀ check ∈ (checks : List (Check ρ κ μ)), Ascii check.name := by
    have hall : ∀ name ∈ checkNames, Ascii name := by decide
    intro check hmem
    exact hall check.name (map_name_checks (ρ := ρ) (κ := κ) (μ := μ) ▸ List.mem_map_of_mem hmem)
  exact (reports_runChecks hnames 0).write (by decide : Ascii headline)

/-- **A self-test is cut off by its console, and leaks nothing.** Where it returns on a console without
a limit it has written a report and counted its failures. On a console with room for so many bytes it
then writes as many bytes of that report from its beginning, and returns an error if these are not all;
and if they are, it returns the same count and leaves the same engine behind. Wherever it returns on a
console with room for so many bytes, it has filled that with an error, or has returned the same on one
without a limit. And however it returns, on whatever console, each loan that it took of the platform has
been given back since: each grant of the mutex by an unlock of its own, and each enable of the clock by
a disable. -/
theorem run_cut_by_console (e : Engine ρ κ μ) :
    (∀ answer whole e', (run {}).run e = some ((answer, whole), e') →
      ∃ failures, answer = some failures ∧ ∀ room, ∃ written e'',
        (run { capacity := some room }).run e = some
          ((if room < whole.bytes.length then none else some failures, written), e'') ∧
        written.bytes = whole.bytes.take room ∧ (whole.bytes.length ≤ room → e'' = e')) ∧
    (∀ room answer written e',
      (run { capacity := some room }).run e = some ((answer, written), e') →
        (answer = none ∧ written.bytes.length = room) ∨
          ∃ whole, (run {}).run e = some ((answer, whole), e')) ∧
    ∀ console answer written e', (run console).run e = some ((answer, written), e') →
      ∃ newer, e'.history = newer ++ e.history ∧ ∀ loan, Repaid loan newer := by
  have hblank : Ascii "" := by decide
  have hempty : ∀ room, ({} : Console).cut room = { capacity := some room } := by
    intro room
    simp [Console.cut]
  refine ⟨fun answer whole e' hrun => ?_, fun room answer written e' hrun => ?_,
    fun console answer written e' hrun => repaid_selfTest console _ _ hrun⟩
  · have hwhole : Ascii whole.text := reports_run.ascii (by exact hblank) _ _ hrun
    obtain ⟨failures, more, hfinished⟩ := reports_run.finished rfl _ _ hrun
    obtain ⟨rfl, -⟩ := Prod.mk.inj hfinished
    refine ⟨failures, rfl, fun room => ?_⟩
    have hcut := reports_run.cut rfl (Nat.zero_le room) _ _ hrun
    rw [hempty] at hcut
    obtain ⟨⟨answer, written⟩, e'', hrun', rfl, hanswer⟩ := hcut
    dsimp only at hanswer
    refine ⟨_, e'', ?_, Console.bytes_cut hwhole, fun hfits => ?_⟩
    · rw [hrun', Console.length_bytes hwhole]
      split at hanswer
      · next hfits => rw [if_neg (Nat.not_lt.2 hfits), ← hanswer.1]
      · next hlong => rw [if_pos (Nat.lt_of_not_le hlong), ← hanswer]
    · rw [Console.length_bytes hwhole] at hfits
      rw [if_pos hfits] at hanswer
      exact hanswer.2
  · have hwritten : Ascii written.text := reports_run.ascii (by exact hblank) _ _ hrun
    rw [← hempty] at hrun
    rw [Console.length_bytes hwritten]
    exact reports_run.full_or_whole rfl (Nat.zero_le room) _ _ hrun

/-- On a console with room for two characters more than the headline, the self-test of an accelerator
that is waited for in time stops in the line on its first check. -/
theorem exists_cut_in_first_line : ∃ (e e' : Engine Peripheral CountedClock CountedMutex)
    (written : Console),
    (run { capacity := some 30 }).run e = some ((none, written), e') ∧
      written.bytes = (headline ++ "Te").toUTF8.data.toList ∧
      ∃ newer, e'.history = newer ++ e.history ∧ ∀ loan, Repaid loan newer := by
  let e : Engine Peripheral CountedClock CountedMutex := .simulated 3 {} {} ⟨0, some 3⟩
  have hwinnable : e.Winnable := by decide
  have hpatient : e.Patient := fun _ => rfl
  have hremaining : e.registers.remaining ≤ e.registers.latency := by decide
  have hreturns := answering_patient.selfTest {} ⟨hpatient, hremaining⟩ (μ := CountedMutex)
  obtain ⟨r, whole', hrun, -, -, rfl⟩ := hreturns.and_always (always_run rfl
    (decides_checks_rested hwinnable (by decide) hpatient) (.refl hwinnable hremaining))
  rw [failing_of_inTime hwinnable (by decide)] at hrun
  obtain ⟨failures, -, hcut⟩ := (run_cut_by_console e).1 _ _ _ hrun
  obtain ⟨written, e', hrun', hwritten, -⟩ := hcut 30
  rw [if_pos (by decide +kernel)] at hrun'
  refine ⟨e, e', written, hrun', ?_, (run_cut_by_console e).2.2 _ _ _ _ hrun'⟩
  rw [hwritten]
  decide +kernel

end SelfTest

end HashAccelerator
