import HashAccelerator.Proofs.Engine.Custody
import HashAccelerator.Proofs.Engine.Preparation
/-!
# The creation of the mutex in the history

The mutex is created when it is first asked for, and again as long as that fails. `Recounted` reads a
history as a course of whole creations, with the mutex used after one has succeeded and not before,
and says in which phase it leaves the engine. A history that can be read in this way knows no
creation inside another and none after one that succeeded (`CreatedOnce`). Asking for the engine makes
it longer by a creation, by an attempt to take the mutex, or by both, and nothing else uses the mutex
but giving it back.
-/

namespace HashAccelerator

open EngineM

/-- The call uses the mutex. -/
def Event.isOfMutex : Event → Bool
  | .lockTried _ _ | .unlocked => true
  | _ => false

theorem Event.isOfCreation_eq_false {event : Event} (h : event.isOfMutex = true) :
    event.isOfCreation = false := by
  cases event <;> simp [isOfMutex, isOfCreation] at h ⊢

/-- A creation of the mutex has succeeded. -/
def Created (history : List Event) : Prop := .creationEnded (.ok ()) ∈ history

/-- A history of whole creations, and the phase it leads to. A creation that fails leaves no mutex;
one that succeeds leaves a mutex for good, and it may be used from then on. -/
inductive Recounted : MutexPhase → List Event → Prop
  | unused : Recounted .absent []
  | failed {history} (error requests) : Recounted .absent history →
      Recounted .absent (creation (.error error) requests ++ history)
  | created {history} (requests) : Recounted .absent history →
      Recounted .ready (creation (.ok ()) requests ++ history)
  | used {event history} : event.isOfMutex = true → Recounted .ready history →
      Recounted .ready (event :: history)
  | other {phase event history} : event.isOfMutex = false → event.isOfCreation = false →
      Recounted phase history → Recounted phase (event :: history)

/-! ## Reading a history -/

section Splits

variable {α : Type} {first second newer older : List α} {event : α}

/-- An element of two lists put together is in the first or in the second. -/
theorem append_eq_append_cons (h : first ++ second = newer ++ event :: older) :
    (∃ inner, first = newer ++ event :: inner ∧ older = inner ++ second) ∨
      ∃ later, newer = first ++ later ∧ second = later ++ event :: older := by
  rcases List.append_eq_append_iff.1 h with ⟨later, hnewer, hsecond⟩ | ⟨inner, hfirst, hrest⟩
  · exact Or.inr ⟨later, hnewer, hsecond⟩
  · rcases List.cons_eq_append_iff.1 hrest with ⟨rfl, rfl⟩ | ⟨inner, rfl, holder⟩
    · exact Or.inr ⟨[], by simpa using hfirst.symm, rfl⟩
    · exact Or.inl ⟨inner, hfirst, holder⟩

end Splits

/-- The calls around one call of a creation, up to the creation's end and down to its beginning. -/
def InWhole (newer : List Event) (event : Event) (older : List Event) : Prop :=
  ∃ outcome requests later newest earlier oldest, newer = newest ++ later ∧
    older = earlier ++ oldest ∧ later ++ event :: earlier = creation outcome requests

/-- What is known of the creations of a mutex, and of its use. -/
structure CreatedOnce (history : List Event) : Prop where
  /-- Each creation is whole: from its beginning to its end there is nothing but requests, and all of
  them were sent to software. -/
  whole : ∀ {newer event older}, history = newer ++ event :: older → event.isOfCreation = true →
    InWhole newer event older
  /-- Another one begins after the last one has failed. -/
  alone : ∀ {newer between older},
    history = newer ++ .creationBegun :: (between ++ .creationBegun :: older) →
      ∃ error, .creationEnded (.error error) ∈ between
  /-- None follows one that has succeeded. -/
  once : ∀ {newer older}, history = newer ++ older → Created older →
    ∀ event ∈ newer, event.isOfCreation = false
  /-- The mutex is not used before. -/
  earlier : ∀ {newer event older}, history = newer ++ event :: older → event.isOfMutex = true →
    Created older

theorem InWhole.append {newer older : List Event} {event : Event} (h : InWhole newer event older)
    (newest : List Event) : InWhole (newest ++ newer) event older := by
  obtain ⟨outcome, requests, later, newest', earlier, oldest, rfl, holder, hwhole⟩ := h
  exact ⟨outcome, requests, later, newest ++ newest', earlier, oldest,
    (List.append_assoc _ _ _).symm, holder, hwhole⟩

/-- What comes after the beginning of a creation. -/
theorem eq_of_append_begun {outcome : Except MutexError Unit} {requests : Nat}
    {later earlier : List Event} (h : later ++ .creationBegun :: earlier = creation outcome requests) :
    later = .creationEnded outcome :: List.replicate requests (.reentered (.ok .software)) := by
  have hsplit : .creationEnded outcome :: List.replicate requests (.reentered (.ok .software)) ++
      [.creationBegun] = later ++ .creationBegun :: earlier := h.symm
  rcases append_eq_append_cons hsplit with ⟨inner, hinner, -⟩ | ⟨newest, hlater, hbegun⟩
  · -- nothing else in a creation is a beginning
    have hmem : Event.creationBegun ∈ .creationEnded outcome ::
        List.replicate requests (.reentered (.ok .software)) := by
      rw [hinner]
      simp
    simp at hmem
  · rcases List.cons_eq_append_iff.1 hbegun with ⟨rfl, -⟩ | ⟨_, -, hnil⟩
    · rw [hlater, List.append_nil]
    · simp at hnil

namespace Recounted

variable {phase phase' : MutexPhase} {history newer older : List Event} {event : Event}

/-- **The phase tells whether the mutex has been created.** -/
theorem phase_eq (h : Recounted phase history) :
    phase = .ready ∧ Created history ∨ phase = .absent ∧ ¬ Created history := by
  induction h with
  | unused => exact Or.inr ⟨rfl, List.not_mem_nil⟩
  | failed error requests _ ih =>
    obtain ⟨hready, -⟩ | ⟨-, hnot⟩ := ih
    · cases hready
    · refine Or.inr ⟨rfl, fun hcreated => (List.mem_append.1 hcreated).elim ?_ hnot⟩
      simp [creation]
  | created requests _ _ => exact Or.inl ⟨rfl, List.mem_append_left _ List.mem_cons_self⟩
  | used _ _ ih =>
    obtain ⟨-, hcreated⟩ | ⟨habsent, -⟩ := ih
    · exact Or.inl ⟨rfl, List.mem_cons_of_mem _ hcreated⟩
    · cases habsent
  | @other phase event history _ hother _ ih =>
    have hcreated : Created (event :: history) ↔ Created history := by
      refine List.mem_cons.trans (or_iff_right ?_)
      rintro rfl
      cases hother
    rwa [hcreated]

theorem ready_iff (h : Recounted phase history) : phase = .ready ↔ Created history := by
  obtain ⟨rfl, hcreated⟩ | ⟨rfl, hnot⟩ := h.phase_eq
  · exact iff_of_true rfl hcreated
  · exact iff_of_false (fun h => by cases h) hnot

theorem not_created (h : Recounted .absent history) : ¬ Created history := fun hcreated => by
  cases h.ready_iff.2 hcreated

theorem inWhole (h : Recounted phase history) (hhistory : history = newer ++ event :: older)
    (hevent : event.isOfCreation = true) : InWhole newer event older := by
  -- the event is in the creation that came last, or further back
  have hblock : ∀ {outcome requests newer} {history : List Event},
      (∀ {newer}, history = newer ++ event :: older → InWhole newer event older) →
      creation outcome requests ++ history = newer ++ event :: older →
      InWhole newer event older := by
    intro outcome requests newer history hback hsplit
    rcases append_eq_append_cons hsplit with ⟨inner, hinner, holder⟩ | ⟨later, rfl, hlater⟩
    · exact ⟨outcome, requests, newer, [], inner, history, rfl, holder, hinner.symm⟩
    · exact (hback hlater).append _
  induction h generalizing newer with
  | unused => simp at hhistory
  | failed error requests _ ih => exact hblock ih hhistory
  | created requests _ ih => exact hblock ih hhistory
  | @used last _ hused _ ih =>
    rcases List.cons_eq_append_iff.1 hhistory with ⟨-, hlast⟩ | ⟨newer, rfl, hback⟩
    · cases hlast
      simp [Event.isOfCreation_eq_false hused] at hevent
    · exact (ih hback).append [last]
  | @other _ last _ _ hother _ ih =>
    rcases List.cons_eq_append_iff.1 hhistory with ⟨-, hlast⟩ | ⟨newer, rfl, hback⟩
    · cases hlast
      simp [hother] at hevent
    · exact (ih hback).append [last]

theorem once (h : Recounted phase history) (hhistory : history = newer ++ older)
    (hcreated : Created older) : ∀ event ∈ newer, event.isOfCreation = false := by
  induction h generalizing newer with
  | unused =>
    obtain ⟨rfl, rfl⟩ := List.append_eq_nil_iff.1 hhistory.symm
    simp
  | failed error requests hback _ =>
    -- a creation that failed came after none that succeeded
    have hnot := (hback.failed error requests).not_created
    exact absurd (hhistory ▸ List.mem_append_right newer hcreated) hnot
  | @created history requests hback _ =>
    rcases List.append_eq_append_iff.1 hhistory with ⟨later, -, hlater⟩ | ⟨inner, hinner, rfl⟩
    · exact absurd (hlater ▸ List.mem_append_right later hcreated) hback.not_created
    · -- the end of this one is the latest event, so nothing has come after it
      have hended : .creationEnded (.ok ()) ∈ inner :=
        (List.mem_append.1 hcreated).resolve_right hback.not_created
      rcases List.cons_eq_append_iff.1 hinner with ⟨rfl, -⟩ | ⟨newer, rfl, hrest⟩
      · simp
      · have hmem : .creationEnded (.ok ()) ∈
            List.replicate requests (Event.reentered (.ok .software)) ++ [.creationBegun] := by
          rw [hrest]
          exact List.mem_append_right _ hended
        simp at hmem
  | used hused _ ih =>
    rcases List.cons_eq_append_iff.1 hhistory with ⟨rfl, -⟩ | ⟨newer, rfl, hback⟩
    · simp
    · exact List.forall_mem_cons.2 ⟨Event.isOfCreation_eq_false hused, ih hback⟩
  | other _ hother _ ih =>
    rcases List.cons_eq_append_iff.1 hhistory with ⟨rfl, -⟩ | ⟨newer, rfl, hback⟩
    · simp
    · exact List.forall_mem_cons.2 ⟨hother, ih hback⟩

theorem earlier (h : Recounted phase history) (hhistory : history = newer ++ event :: older)
    (hevent : event.isOfMutex = true) : Created older := by
  have hblock : ∀ {outcome requests newer} {history : List Event},
      (∀ {newer}, history = newer ++ event :: older → Created older) →
      creation outcome requests ++ history = newer ++ event :: older → Created older := by
    intro outcome requests newer history hback hsplit
    rcases append_eq_append_cons hsplit with ⟨inner, hinner, -⟩ | ⟨later, -, hlater⟩
    · have hmem : event ∈ creation outcome requests := by
        rw [hinner]
        simp
      have hpart := isOfCreation_of_mem hmem
      simp [Event.isOfCreation_eq_false hevent] at hpart
    · exact hback hlater
  induction h generalizing newer with
  | unused => simp at hhistory
  | failed error requests _ ih => exact hblock ih hhistory
  | created requests _ ih => exact hblock ih hhistory
  | used _ hready ih =>
    rcases List.cons_eq_append_iff.1 hhistory with ⟨-, hlast⟩ | ⟨newer, -, hback⟩
    · cases hlast
      exact hready.ready_iff.1 rfl
    · exact ih hback
  | other hnot _ _ ih =>
    rcases List.cons_eq_append_iff.1 hhistory with ⟨-, hlast⟩ | ⟨newer, -, hback⟩
    · cases hlast
      simp [hnot] at hevent
    · exact ih hback

theorem alone {between : List Event} (h : Recounted phase history)
    (hhistory : history = newer ++ .creationBegun :: (between ++ .creationBegun :: older)) :
    ∃ error, .creationEnded (.error error) ∈ between := by
  -- the first creation is over before the second begins
  have hfirst : history = (newer ++ .creationBegun :: between) ++ .creationBegun :: older := by
    rw [hhistory, List.append_assoc]
    rfl
  obtain ⟨outcome, requests, later, newest, earlier, oldest, hsplit, -, hwhole⟩ :=
    h.inWhole hfirst rfl
  have hlater := eq_of_append_begun hwhole
  rcases append_eq_append_cons hsplit.symm with ⟨inner, -, hbetween⟩ | ⟨rest, -, hrest⟩
  · have hended : .creationEnded outcome ∈ between := by
      rw [hbetween, hlater]
      simp
    cases outcome with
    | error error => exact ⟨error, hended⟩
    | ok =>
      -- and has not succeeded, as none follows one that has
      have hcreated : Created (between ++ .creationBegun :: older) :=
        List.mem_append_left _ hended
      have hsecond : history =
          (newer ++ [.creationBegun]) ++ (between ++ .creationBegun :: older) := by
        rw [hhistory, List.append_assoc]
        rfl
      have hnone := h.once hsecond hcreated .creationBegun (by simp)
      cases hnone
  · have hmem : Event.creationBegun ∈ later := by
      rw [hrest]
      simp
    simp [hlater] at hmem

/-- **A history that can be recounted knows one successful creation at most**, and none inside
another. -/
theorem createdOnce (h : Recounted phase history) : CreatedOnce history where
  whole := h.inWhole
  alone := h.alone
  once := h.once
  earlier := h.earlier

/-! ## Asking for the engine -/

theorem prepared {ready : Bool} (h : Recounted phase history)
    (hprepared : Prepared phase ready newer phase') :
    Recounted phase' (newer ++ history) ∧ (ready = true → phase' = .ready) := by
  cases hprepared with
  | ready => exact ⟨h, fun _ => rfl⟩
  | busy => exact ⟨h, fun hready => by cases hready⟩
  | failed => exact ⟨h.failed _ _, fun hready => by cases hready⟩
  | created => exact ⟨h.created _, fun _ => rfl⟩

/-- Whoever holds the mutex after a competition has been granted one that was created. -/
theorem contested {a a' : Operation} {path : Path} (h : Recounted phase history)
    (hcontested : Contested a phase (path, a') newer phase') :
    Recounted phase' (newer ++ history) ∧
      (a.holdsMutex = false → a'.holdsMutex = true → phase' = .ready) := by
  cases hcontested with
  | unready hprepared =>
    exact ⟨(h.prepared hprepared).1, fun hnot hholds => by simp [hnot] at hholds⟩
  | refused timeout answer hprepared _ =>
    obtain ⟨hrecounted, hready⟩ := h.prepared hprepared
    cases hready rfl
    exact ⟨hrecounted.used rfl, fun _ _ => rfl⟩
  | granted timeout hprepared =>
    obtain ⟨hrecounted, hready⟩ := h.prepared hprepared
    cases hready rfl
    exact ⟨(hrecounted.used rfl).other rfl rfl, fun _ _ => rfl⟩

end Recounted

namespace EngineM

/-! ## The calls of an operation -/

variable {ρ κ μ : Type}

/-- The engine is in the phase that its history recounts. -/
def InPhase (e : Engine ρ κ μ) : Prop := Recounted e.phase e.history

theorem inPhase_keptByAccess [RegisterBlock ρ] :
    KeptByAccess (InPhase (ρ := ρ) (κ := κ) (μ := μ)) where
  note h := h
  read h := h.other rfl rfl
  write h := h.other rfl rfl
  fence h := h.other rfl rfl

/-- The engine is in its phase, and has a mutex if somebody holds it. -/
def InPhaseFor (holds : Bool) (e : Engine ρ κ μ) : Prop :=
  InPhase e ∧ (holds = true → e.phase = .ready)

variable [GatedClock κ] {e : Engine ρ κ μ} {a : Operation}

theorem inPhaseFor_keptByClock (holds : Bool) :
    KeptByClock (InPhaseFor (ρ := ρ) (κ := κ) (μ := μ) holds) where
  enable h := ⟨h.1.other rfl rfl, h.2⟩
  disable h := ⟨h.1.other rfl rfl, h.2⟩
  query h := ⟨h.1.other rfl rfl, h.2⟩

variable [EngineMutex μ]

omit [GatedClock κ] in
/-- A mutex that is given back has been created. -/
theorem InPhaseFor.unlockOwned (h : InPhaseFor a.holdsMutex e) :
    Always (unlockOwned a) e fun _ e' => InPhase e' := by
  refine Always.ite (fun hholds => ?_) fun _ => by simpa using h.1
  simp only [always_bind, always_unlockMutex, always_pure]
  have hready := h.2 hholds
  show Recounted e.phase _
  rw [hready]
  exact (hready ▸ h.1 : Recounted .ready e.history).used rfl

theorem InPhaseFor.release (h : InPhaseFor a.holdsMutex e) :
    Always (release a) e fun _ e' => InPhase e' := by
  simp only [EngineM.release, always_bind, always_note]
  have hunlocked : ∀ {e : Engine ρ κ μ}, InPhaseFor a.holdsMutex e →
      Always (EngineM.unlockOwned { a with clockDebt := a.clockDebt - 1 }) e fun _ e' =>
        InPhase e' := fun h => InPhaseFor.unlockOwned (by exact h)
  refine Always.ite (fun _ => ?_) fun _ => ?_
  · simp only [always_bind, always_disableClock, always_pure]
    exact hunlocked ((inPhaseFor_keptByClock _).disable (by exact h))
  · simp only [always_bind, always_pure]
    exact hunlocked (by exact h)

theorem InPhaseFor.settle (h : InPhaseFor a.holdsMutex e) :
    Always (settle a) e fun _ e' => InPhase e' := by
  simp only [EngineM.settle, always_bind]
  refine ((inPhaseFor_keptByClock _).disableUntilOff _ h).mono fun issued e' he => ?_
  refine Always.ite (fun _ => ?_) fun _ => ?_
  · simp only [always_bind, always_note, always_pure]
    exact InPhaseFor.unlockOwned (by exact he)
  · simp only [always_bind, always_pure]
    exact he.unlockOwned

/-- An operation that competes and comes to hold the mutex holds one that was created. -/
theorem InPhase.compete (h : InPhase e) (hnot : a.holdsMutex = false) :
    Always (compete (createMutex 1) a) e fun r e' => InPhaseFor r.2.holdsMutex e' := by
  refine always_compete_contested.mono fun r e' he => ?_
  obtain ⟨newer, hhistory, hcontested⟩ := he
  obtain ⟨hrecounted, hready⟩ := Recounted.contested h hcontested
  refine ⟨?_, hready hnot⟩
  rw [InPhase, hhistory]
  exact hrecounted

/-- **Asking for the engine** keeps the phase with the history. -/
theorem InPhaseFor.acquire (h : InPhaseFor a.holdsMutex e) (ha : a.Standing) :
    Always (acquire a) e fun r e' => InPhaseFor r.2.holdsMutex e' := by
  refine always_acquireBy (fun hmode => ?_) (fun _ => ?_) fun _ => h
  · exact InPhase.compete (by exact h.1) (ha.uncommitted hmode)
  · -- what is settled is a fresh operation
    refine ((always_settle a).and (InPhaseFor.settle (by exact h))).mono fun r e' he => ?_
    have hnot : r.2.holdsMutex = false := by
      rw [he.1]
      rfl
    exact InPhase.compete he.2 hnot

end EngineM

end HashAccelerator
