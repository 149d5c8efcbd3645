import HashAccelerator.Proofs.Engine.Loans
import HashAccelerator.Proofs.Session.Kept
import HashAccelerator.Proofs.Session.Order
/-!
# The self-test gives back what it takes

The checks of the self-test make operations and streams of their own, two of them at a time in some, and
drop them wherever something fails. Each of them is released before its check ends. So a check leaves
as many loans open as it found (`owes_checks`), and the self-test none of its own, whatever the
platform answers and wherever the console fills up (`owes_selfTest`).
-/

namespace HashAccelerator

open EngineM

variable {ρ κ μ : Type} [RegisterBlock ρ] [GatedClock κ] [EngineMutex μ]
variable {past : List Event} {others : Nat} {a b : Operation} {e : Engine ρ κ μ}

namespace Debtor

omit [RegisterBlock ρ] [GatedClock κ] [EngineMutex μ]

/-- Who holds nothing adds nothing to what the others have open. -/
theorem of_free (ha : a.Standing) (hfree : a.holdsMutex = false) (h : e.Owes past others) :
    Debtor past others a e := by
  refine ⟨ha, ?_⟩
  rw [hfree]
  exact h

/-- And leaves only that. -/
theorem owes (h : ∃ a, Debtor past others a e ∧ a.holdsMutex = false) : e.Owes past others := by
  obtain ⟨a, ⟨-, howes⟩, hfree⟩ := h
  rwa [hfree] at howes

/-- Of two operations side by side each is among the others of the other. -/
theorem swap (hb : b.Standing) (h : Debtor past (others + b.holdsMutex.toNat) a e) :
    Debtor past (others + a.holdsMutex.toNat) b e := by
  refine ⟨hb, ?_⟩
  have howes := h.2
  rwa [Nat.add_right_comm] at howes

end Debtor

namespace SelfTest

/-! ## The checks -/

/-- **An example's stream is released**, in whatever part of its life it fails. -/
theorem owes_exampleHolds (software : Bool) (answer : ExampleDigest) (h : e.Owes past others) :
    Always (exampleHolds software answer) e fun _ e' => e'.Owes past others := by
  obtain ⟨s, hs, hstanding, hfree⟩ : ∃ s, (if software = true then
      HashStream.inSoftware answer.algorithm else HashStream.start answer.algorithm) = s ∧
      s.operation.Standing ∧ s.operation.holdsMutex = false := by
    refine ⟨_, rfl, ?_⟩
    split
    · exact ⟨Operation.standing_softwareOnly answer.algorithm, rfl⟩
    · exact HashStream.standing_start answer.algorithm
  simp only [exampleHolds, hs, always_bind]
  refine (keptByCalls_debtor.absorb answer.message (.of_free hstanding hfree h)).mono
    fun r e₁ h₁ => ?_
  obtain ⟨outcome, s'⟩ := r
  cases outcome with
  | error fault =>
    refine always_bind.2 ((keptByCalls_debtor.discard h₁).mono fun _ e₂ h₂ => ?_)
    simpa using (Debtor.owes h₂).note
  | ok =>
    refine always_bind.2 ((keptByCalls_debtor.finish h₁).mono fun outcome e₂ h₂ => ?_)
    cases outcome with
    | error fault => simpa using (Debtor.owes h₂).note
    | ok digest =>
      refine Always.ite (fun _ => ?_) fun _ => ?_
      · simpa using Debtor.owes h₂
      · simpa using (Debtor.owes h₂).note

/-- **Both operations are released**, whichever of them got the engine, if not both. -/
theorem owes_arbitrates (h : e.Owes past others) :
    Always arbitrates e fun _ e' => e'.Owes past others := by
  simp only [arbitrates, always_bind]
  have hfirst : Debtor past others (.fresh .sha256) e :=
    .of_free (Operation.standing_fresh .sha256) rfl h
  refine (keptByCalls_debtor.acquire hfirst).mono fun first e₁ h₁ => ?_
  have hsecond : Debtor past (others + first.2.holdsMutex.toNat) (.fresh .sha512) e₁ :=
    .of_free (Operation.standing_fresh .sha512) rfl h₁.2
  refine (keptByCalls_debtor.acquire hsecond).mono fun second e₂ h₂ => ?_
  refine (keptByCalls_debtor.acquire (h₂.swap h₁.1)).mono fun repeated e₃ h₃ => ?_
  -- each release gives back what its own operation holds, and the other's loans stay open
  refine ((h₃.swap h₂.1).2.release h₂.1).mono fun _ e₄ h₄ => ?_
  refine (h₄.release h₃.1).mono fun _ e₅ h₅ => ?_
  split <;> simpa using h₅

theorem owes_balancesClock (h : e.Owes past others) :
    Always balancesClock e fun _ e' => e'.Owes past others := by
  have hasked : ∀ {e : Engine ρ κ μ}, e.Owes past others → Engine.Owes past others { e with
      clock := (GatedClock.isEnabled e.clock).2
      history := .clockQueried (GatedClock.isEnabled e.clock).1 :: e.history } :=
    fun he => he.ignore rfl fun _ => Loan.ignores_clockQueried _
  obtain ⟨hstanding, hfree⟩ := HashStream.standing_start .sha1
  simp only [balancesClock, always_bind, always_isClockEnabled]
  refine (keptByCalls_debtor.digest .sha1 ExampleDigest.abc
    (.of_free hstanding hfree (hasked h))).mono fun outcome e' he => ?_
  cases outcome with
  | error fault => simpa using Debtor.owes he
  | ok digest => simpa using hasked (Debtor.owes he)

/-- Two streams fed in turn. -/
theorem debtor_feedBoth (first second : HashStream) (parts : List (List UInt8))
    (hsecond : second.operation.Standing)
    (h : Debtor past (others + second.operation.holdsMutex.toNat) first.operation e) :
    Always (feedBoth first second parts) e fun r e' => r.2.2.operation.Standing ∧
      Debtor past (others + r.2.2.operation.holdsMutex.toNat) r.2.1.operation e' := by
  induction parts generalizing first second e with
  | nil => simpa [feedBoth] using ⟨hsecond, h⟩
  | cons part rest ih =>
    simp only [feedBoth, always_bind]
    refine (keptByCalls_debtor.absorb part h).mono fun r e₁ h₁ => ?_
    obtain ⟨outcome, first'⟩ := r
    cases outcome with
    | error fault => simpa using ⟨hsecond, h₁⟩
    | ok =>
      refine always_bind.2 ((keptByCalls_debtor.absorb part (h₁.swap hsecond)).mono fun r e₂ h₂ => ?_)
      obtain ⟨outcome, second'⟩ := r
      cases outcome with
      | error fault => simpa using ⟨h₂.1, h₂.swap h₁.1⟩
      | ok => exact ih first' second' h₂.1 (h₂.swap h₁.1)

theorem owes_pathsAgree (algorithm : Algorithm) (h : e.Owes past others) :
    Always (pathsAgree algorithm) e fun _ e' => e'.Owes past others := by
  obtain ⟨hstanding, hfree⟩ := HashStream.standing_start algorithm
  have hstart : Debtor past (others + (HashStream.start algorithm).operation.holdsMutex.toNat)
      (HashStream.start algorithm).operation e := by
    refine .of_free hstanding hfree ?_
    rw [hfree]
    exact h
  simp only [pathsAgree, always_bind]
  refine (debtor_feedBoth _ _ _ hstanding hstart).mono fun r e₁ h₁ => ?_
  obtain ⟨fed, first, second⟩ := r
  obtain ⟨hsecond, hfirst⟩ := h₁
  refine (keptByCalls_debtor.finish hfirst).mono fun one e₂ h₂ => ?_
  have hlast : Debtor past others second.operation e₂ := ⟨hsecond, Debtor.owes h₂⟩
  refine (keptByCalls_debtor.finish hlast).mono fun other e₃ h₃ => ?_
  split <;> simpa using Debtor.owes h₃

/-- **Each check leaves as many loans open as it found.** -/
theorem owes_checks : ∀ check ∈ (checks : List (Check ρ κ μ)), ∀ e, e.Owes past others →
    Always check.holds e fun _ e' => e'.Owes past others := by
  have hexamples : ∀ software (e : Engine ρ κ μ), e.Owes past others →
      Always (examplesHold software) e fun _ e' => e'.Owes past others :=
    fun software e he =>
      KeptByUse.allHold (fun answer e he => owes_exampleHolds software answer he) _ he
  refine List.forall_mem_cons.2 ⟨fun e he => hexamples false e he, ?_⟩
  refine List.forall_mem_cons.2 ⟨fun e he => hexamples true e he, ?_⟩
  refine List.forall_mem_cons.2 ⟨fun e he => owes_arbitrates he, ?_⟩
  refine List.forall_mem_cons.2 ⟨fun e he => owes_balancesClock he, ?_⟩
  refine List.forall_mem_cons.2 ⟨fun e he => ?_, fun _ hmem => absurd hmem List.not_mem_nil⟩
  exact KeptByUse.allHold (fun algorithm e he => owes_pathsAgree algorithm he) _ he

/-- **So does the self-test**, wherever its console fills up. -/
theorem owes_selfTest (console : Console) (h : e.Owes past others) :
    Always (run console) e fun _ e' => e'.Owes past others := by
  unfold run
  refine Always.ite (fun _ => ?_) fun _ => by simpa using h
  exact KeptByUse.runChecks owes_checks _ _ h

/-- **What the self-test takes it gives back.** -/
theorem repaid_selfTest (console : Console) : Always (run console) e fun _ e' =>
    ∃ newer, e'.history = newer ++ e.history ∧ ∀ loan, Repaid loan newer := by
  refine (owes_selfTest console (.refl e)).mono fun _ e' he => ?_
  obtain ⟨newer, hhistory, hout⟩ := he
  exact ⟨newer, hhistory, fun loan => (hout loan).repaid⟩

end SelfTest

end HashAccelerator
