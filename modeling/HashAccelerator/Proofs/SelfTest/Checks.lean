import HashAccelerator.Proofs.SelfTest.Paths
/-!
# What the checks of the self-test find

Each check is decided by how the engine was found (`Decides`): whether it can be won, and whether the
accelerator is waited for in time. And each leaves the engine as it was found, so the next check finds
it no different: at rest if it can be won (`Engine.Rested`), undisturbed if it cannot
(`Engine.Undisturbed`).
-/

namespace HashAccelerator

open EngineM SelfTest

/-- **The examples are right**: the standard's digest of each message is the one it is listed with. -/
theorem ExampleDigest.digest_eq : ∀ answer ∈ ExampleDigest.all,
    answer.algorithm.digest answer.message = .ok answer.digest := by
  have hall : ∀ answer ∈ ExampleDigest.all,
      (answer.algorithm.digest answer.message).toOption = some answer.digest := by decide +kernel
  intro answer hmem
  have hdigest := hall answer hmem
  cases hanswer : answer.algorithm.digest answer.message with
  | error fault =>
    rw [hanswer] at hdigest
    cases hdigest
  | ok digest =>
    rw [hanswer] at hdigest
    exact congrArg Except.ok (Option.some.inj hdigest)

/-! ## Decided beforehand -/

section Decides

variable {ρ κ μ : Type} {K : Engine ρ κ μ → Prop} {check : EngineM ρ κ μ Bool} {verdict : Prop}

/-- The check passes just if the verdict is true, and leaves the engine as it has to be for the next. -/
def Decides (K : Engine ρ κ μ → Prop) (check : EngineM ρ κ μ Bool) (verdict : Prop) : Prop :=
  ∀ e, K e → Always check e fun passed e' => K e' ∧ (passed = true ↔ verdict)

theorem Decides.congr {verdict' : Prop} (h : Decides K check verdict) (hiff : verdict ↔ verdict') :
    Decides K check verdict' :=
  fun e he => (h e he).mono fun _ _ hdone => ⟨hdone.1, hdone.2.trans hiff⟩

/-- Checks in a row pass if each of them does. -/
theorem decides_allHold {α : Type} {check : α → EngineM ρ κ μ Bool} {verdict : α → Prop}
    {items : List α} (h : ∀ item ∈ items, Decides K (check item) (verdict item)) :
    Decides K (allHold check items) (∀ item ∈ items, verdict item) := by
  induction items with
  | nil =>
    intro e he
    simp only [allHold, always_pure]
    exact ⟨he, by simp⟩
  | cons item rest ih =>
    have hrest := ih fun other hother => h other (List.mem_cons_of_mem _ hother)
    intro e he
    simp only [allHold, always_bind]
    refine (h item List.mem_cons_self e he).mono fun passed e' hdone => ?_
    obtain ⟨he', hpassed⟩ := hdone
    refine Always.ite (fun hyes => ?_) fun hno => ?_
    · refine (hrest e' he').mono fun passed' e'' hdone => ⟨hdone.1, hdone.2.trans ?_⟩
      simp [hpassed.1 hyes]
    · rw [always_pure]
      have hfailed : ¬ verdict item := fun hitem => hno (hpassed.2 hitem)
      exact ⟨he', iff_of_false (by simp) fun hall => hfailed (hall item List.mem_cons_self)⟩

end Decides

/-! ## Examples in software -/

section Aside

variable {ρ κ μ : Type} [RegisterBlock ρ] [GatedClock κ] [EngineMutex μ] [PlainLatch μ]
variable {K : Engine ρ κ μ → Prop} {e : Engine ρ κ μ} {answer : ExampleDigest} {software : Bool}

/-- **An example in software comes out**, and disturbs nobody. -/
theorem always_exampleHolds_aside (hanswer : answer ∈ ExampleDigest.all)
    (h : software = true ∨ answer.algorithm.unit? = none ∨ ¬ e.Winnable) :
    Always (exampleHolds software answer) e fun passed e' => passed = true ∧ e.Undisturbed e' := by
  obtain ⟨s, hs, halgorithm, hfed⟩ : ∃ s, (if software = true then
      HashStream.inSoftware answer.algorithm else HashStream.start answer.algorithm) = s ∧
      s.algorithm = answer.algorithm ∧ s.Fed (Aside e) [] e := by
    refine ⟨_, rfl, ?_⟩
    split
    · exact ⟨rfl, Aside.inSoftware answer.algorithm⟩
    · next hnot => exact ⟨HashStream.algorithm_start _, Aside.start (h.resolve_left hnot)⟩
  simp only [exampleHolds, hs, always_bind]
  refine (Aside.always_absorb answer.message hfed).mono fun r e' he => ?_
  obtain ⟨outcome, s'⟩ := r
  obtain ⟨rfl, hsame, -, hfed'⟩ := he
  refine always_bind.2 ((Aside.always_finish hfed').mono fun outcome e'' he => ?_)
  obtain ⟨rfl, hundisturbed⟩ := he
  rw [List.nil_append, show s'.algorithm = answer.algorithm from hsame.trans halgorithm,
    ExampleDigest.digest_eq answer hanswer]
  simp [hundisturbed]

theorem decides_examplesHold_aside
    (hK : ∀ {e e' : Engine ρ κ μ}, K e → e.Undisturbed e' → K e')
    (h : software = true ∨ ∀ e, K e → ¬ e.Winnable) : Decides K (examplesHold software) True := by
  have hall : Decides K (examplesHold software) (∀ answer ∈ ExampleDigest.all, True) := by
    refine decides_allHold fun answer hanswer e he => ?_
    have haside : software = true ∨ answer.algorithm.unit? = none ∨ ¬ e.Winnable :=
      h.imp_right fun hlost => Or.inr (hlost e he)
    refine (always_exampleHolds_aside hanswer haside).mono fun passed e' hdone => ?_
    exact ⟨hK he hdone.2, by simp [hdone.1]⟩
  exact hall.congr (by simp)

end Aside

/-! ## Examples on the engine -/

/-- An example on the engine is a digest that is looked at. -/
theorem exampleHolds_false {ρ κ μ : Type} [RegisterBlock ρ] [GatedClock κ] [EngineMutex μ]
    (answer : ExampleDigest) :
    (exampleHolds false answer : EngineM ρ κ μ Bool) = do
      match ← EngineM.digest answer.algorithm answer.message with
      | .error fault =>
        note (.exampleFailed answer.algorithm fault)
        return false
      | .ok digest =>
        if digest = answer.digest then return true
        else
          note (.exampleMismatch answer.algorithm)
          return false := by
  simp only [exampleHolds, EngineM.digest, bind_assoc]
  refine bind_congr fun r => ?_
  obtain ⟨outcome, s⟩ := r
  cases outcome with
  | error fault => simp only [bind_assoc, pure_bind]
  | ok => rfl

/-! ## The clock -/

section Clock

variable {ρ μ : Type} [EngineMutex μ] [PlainLatch μ]

/-- To ask whether the clock runs disturbs nobody. -/
theorem Engine.Undisturbed.queried (e : Engine ρ CountedClock μ) (running : Bool) :
    e.Undisturbed { e with history := .clockQueried running :: e.history } :=
  ⟨rfl, rfl, rfl, rfl, Iff.rfl, id, [_], rfl, by simp [Event.isAccess]⟩

theorem CountedClock.isEnabled_congr {clock clock' : CountedClock}
    (h : clock'.count.toNat = clock.count.toNat) :
    (GatedClock.isEnabled clock').1 = (GatedClock.isEnabled clock).1 := by
  show (clock'.count != 0) = (clock.count != 0)
  rw [UInt32.toNat_inj.1 h]

/-- **The clock is balanced if the digest is answered**, by a call that leaves its count as it was. -/
theorem decides_balancesClock [RegisterBlock ρ] {K : Engine ρ CountedClock μ → Prop} {verdict : Prop}
    (hK : ∀ {e e' : Engine ρ CountedClock μ}, K e → e.Undisturbed e' → K e')
    (hcount : ∀ {e e' : Engine ρ CountedClock μ}, K e → K e' →
      e'.clock.count.toNat = e.clock.count.toNat)
    (hdigest : ∀ e, K e → Always (EngineM.digest .sha1 ExampleDigest.abc) e fun outcome e' =>
      K e' ∧ ((∃ digest, outcome = .ok digest) ↔ verdict)) : Decides K balancesClock verdict := by
  intro e h
  have hqueried := hK h (.queried e (GatedClock.isEnabled e.clock).1)
  simp only [balancesClock, always_bind, always_isClockEnabled]
  refine (hdigest _ hqueried).mono fun outcome e' he => ?_
  obtain ⟨h', hanswered⟩ := he
  cases outcome with
  | error fault =>
    rw [always_pure]
    exact ⟨h', hanswered.symm.trans (by simp) |>.symm⟩
  | ok digest =>
    simp only [always_bind, always_isClockEnabled, always_pure]
    have hsame := CountedClock.isEnabled_congr (hcount h h')
    exact ⟨hK h' (.queried e' _), iff_of_true (by rw [hsame]; simp) (hanswered.1 ⟨digest, rfl⟩)⟩

end Clock

/-! ## An engine that cannot be won -/

section Barred

variable {ρ μ : Type} [RegisterBlock ρ] [EngineMutex μ] [PlainLatch μ]
variable {before : Engine ρ CountedClock μ} (hbarred : ¬ before.Winnable)

include hbarred

theorem decides_examplesHold_barred (software : Bool) :
    Decides before.Undisturbed (examplesHold software) True :=
  decides_examplesHold_aside Engine.Undisturbed.trans
    (Or.inr fun _ h => h.not_winnable hbarred)

omit [RegisterBlock ρ] in
/-- Neither of the two gets the engine. -/
theorem decides_arbitrates_barred : Decides before.Undisturbed arbitrates False := by
  intro e h
  have hlost := h.not_winnable hbarred
  have hsent : ∀ algorithm, Operation.Standing { Operation.fresh algorithm with mode := .software } :=
    fun algorithm => (unattached_softwareOnly algorithm).standing
  simp only [arbitrates, always_bind]
  refine (always_acquire_lost rfl hlost).mono fun r e₁ he => ?_
  obtain ⟨rfl, h₁⟩ := he
  refine (always_acquire_lost rfl (h₁.not_winnable hlost)).mono fun r e₂ he => ?_
  obtain ⟨rfl, h₂⟩ := he
  refine (always_acquire_refused (Or.inr rfl)).mono fun r e₃ he => ?_
  obtain ⟨rfl, h₃⟩ := he
  refine (always_release_free (hsent _) rfl).mono fun _ e₄ h₄ => ?_
  refine (always_release_free (hsent _) rfl).mono fun _ e₅ h₅ => ?_
  rw [always_pure]
  exact ⟨h.trans (h₁.trans (h₂.trans (h₃.trans (h₄.trans h₅)))), by simp⟩

theorem decides_balancesClock_barred : Decides before.Undisturbed balancesClock True := by
  refine decides_balancesClock Engine.Undisturbed.trans (fun h h' => ?_) fun e h => ?_
  · rw [h'.clock_eq, h.clock_eq]
  · refine (always_digest_aside ExampleDigest.abc (Or.inr (h.not_winnable hbarred))).mono
      fun outcome e' he => ?_
    have hanswer := ExampleDigest.digest_eq _ (List.mem_cons_self (l := ExampleDigest.all.tail))
    exact ⟨h.trans he.2, iff_of_true ⟨_, he.1.trans hanswer⟩ trivial⟩

theorem decides_pathsAgree_barred (algorithm : Algorithm) :
    Decides before.Undisturbed (pathsAgree algorithm) False := by
  intro e h
  refine (always_pathsAgree_aside algorithm (h.not_winnable hbarred)).mono fun passed e' hdone => ?_
  exact ⟨h.trans hdone.2, by simp [hdone.1]⟩

end Barred

/-! ## An engine that can be won -/

section Rested

variable {μ : Type} [EngineMutex μ] [PlainLatch μ] {before : Engine Peripheral CountedClock μ}

theorem decides_examplesHold_software : Decides before.Rested (examplesHold true) True :=
  decides_examplesHold_aside Engine.Rested.undisturbed (Or.inl rfl)

variable (hroom : before.clock.count.toNat < clockRoom)

include hroom

/-- **The first gets the engine and the second does not**, whether or not it is waited for in time: no
register is touched. -/
theorem decides_arbitrates_rested : Decides before.Rested arbitrates True := by
  intro e h
  have hsent : Operation.Standing { Operation.fresh .sha512 with mode := .software } :=
    (unattached_softwareOnly .sha512).standing
  have hlodger : Lodger before (.fresh .sha256) e :=
    h.lodger (unattached_fresh .sha256).standing rfl
  simp only [arbitrates, always_bind]
  refine (hlodger.acquire hroom rfl).mono fun r e₁ he => ?_
  obtain ⟨rfl, h₁⟩ := he
  refine (always_acquire_lost rfl (h₁.toTenant.not_winnable rfl)).mono fun r e₂ he => ?_
  obtain ⟨rfl, h₂⟩ := he
  refine (always_acquire_refused (Or.inl rfl)).mono fun r e₃ he => ?_
  obtain ⟨rfl, h₃⟩ := he
  refine (always_release_free hsent rfl).mono fun _ e₄ h₄ => ?_
  have hlodger₄ := h₁.undisturbed (h₂.trans (h₃.trans h₄))
  refine (hlodger₄.release.and (always_release _)).mono fun a e₅ he => ?_
  obtain ⟨h₅, rfl⟩ := he
  rw [always_pure]
  exact ⟨h₅.rested rfl, by decide⟩

variable (hpatient : before.Patient)

include hpatient

/-- An example that has a unit comes out of it if it is waited for in time, and one that has none comes
out of software. -/
theorem decides_exampleHolds_rested {answer : ExampleDigest} (hanswer : answer ∈ ExampleDigest.all) :
    Decides before.Rested (exampleHolds false answer)
      (answer.algorithm.unit?.isSome = true → before.InTime) := by
  intro e h
  cases hunit : answer.algorithm.unit? with
  | none =>
    refine (always_exampleHolds_aside hanswer (Or.inr (Or.inl hunit))).mono fun passed e' he => ?_
    exact ⟨h.undisturbed he.2, by simp [he.1]⟩
  | some unit =>
    have hsome : answer.algorithm.unit?.isSome = true := by rw [hunit]; rfl
    simp only [exampleHolds_false, always_bind]
    refine (always_digest_lodged hroom hpatient hsome h answer.message).mono fun outcome e' he => ?_
    obtain ⟨hrested, hanswers⟩ := he
    rw [ExampleDigest.digest_eq answer hanswer] at hanswers
    cases outcome with
    | error fault =>
      simp only [always_bind, always_note, always_pure]
      have hlate : ¬ before.InTime := fun hin => by simpa using hanswers.digest hin
      exact ⟨hrested.undisturbed (.notices _), by simpa using hlate⟩
    | ok digest =>
      have hin := hanswers.answers_iff.1 ⟨digest, rfl⟩
      obtain ⟨_, ⟨⟩, ⟨⟩⟩ := hanswers.digest hin
      refine Always.ite (fun _ => ?_) fun hwrong => absurd rfl hwrong
      rw [always_pure]
      exact ⟨hrested, by simp [hin]⟩

/-- **The examples on the engine** come out just if it is waited for in time. -/
theorem decides_examplesHold_rested : Decides before.Rested (examplesHold false) before.InTime := by
  refine (decides_allHold fun answer hanswer =>
    decides_exampleHolds_rested hroom hpatient hanswer).congr ⟨fun hall => ?_, fun hin _ _ _ => hin⟩
  exact hall _ List.mem_cons_self rfl

theorem decides_balancesClock_rested : Decides before.Rested balancesClock before.InTime := by
  refine decides_balancesClock Engine.Rested.undisturbed (fun h h' => ?_) fun e h => ?_
  · rw [h'.count_eq, h.count_eq]
  · exact (always_digest_lodged hroom hpatient rfl h ExampleDigest.abc).mono fun outcome e' he =>
      ⟨he.1, he.2.answers_iff⟩

theorem decides_pathsAgree_rested {algorithms : List Algorithm} (hne : algorithms ≠ [])
    (hunits : ∀ algorithm ∈ algorithms, algorithm.unit?.isSome = true) :
    Decides before.Rested (allHold pathsAgree algorithms) before.InTime := by
  refine (decides_allHold fun algorithm halgorithm e h =>
    always_pathsAgree_rested hroom hpatient (hunits algorithm halgorithm) h).congr ?_
  obtain ⟨algorithm, hmem⟩ := List.exists_mem_of_ne_nil algorithms hne
  exact ⟨fun hall => hall algorithm hmem, fun hin _ _ => hin⟩

end Rested

end HashAccelerator
