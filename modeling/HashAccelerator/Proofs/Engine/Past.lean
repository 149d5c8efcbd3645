import HashAccelerator.Proofs.Engine.Answers
import HashAccelerator.Proofs.Hash.Words
/-!
# What calls add to the past

The history is a record of every call on the platform, so what a call reached is what it added. A
property of the history that one more event cannot end is kept by everything (`kept_history`). The
mutex is granted by nothing but an attempt to take the engine, and granted then exactly if the
operation comes out on the engine (`always_acquire_grants`); a release adds its disable and its unlock
and nothing else; and a digest is not read before it is loaded.
-/

namespace HashAccelerator

open EngineM

/-! ## Since some past -/

/-- The event came after the given past. -/
def Since (past : List Event) (event : Event) (history : List Event) : Prop :=
  ∃ newer, history = newer ++ past ∧ event ∈ newer

/-- The mutex was granted after the given past. -/
def GrantedSince (past history : List Event) : Prop :=
  ∃ timeout, Since past (.lockTried timeout .granted) history

section Events

variable {past newer history : List Event} {event other : Event}

@[simp] theorem since_append_self (newer : List Event) :
    Since past event (newer ++ past) ↔ event ∈ newer := by
  constructor
  · rintro ⟨newer', heq, hmem⟩
    rwa [List.append_cancel_right heq]
  · exact fun hmem => ⟨newer, rfl, hmem⟩

theorem since_append (newer : List Event) (h : past <:+ history) :
    Since past event (newer ++ history) ↔ event ∈ newer ∨ Since past event history := by
  obtain ⟨older, rfl⟩ := h
  rw [← List.append_assoc, since_append_self, since_append_self, List.mem_append]

theorem since_cons_self (h : past <:+ history) : Since past event (event :: history) :=
  (since_append [event] h).2 (Or.inl (List.mem_singleton.2 rfl))

theorem Since.cons (h : Since past event history) : Since past event (other :: history) := by
  obtain ⟨newer, rfl, hmem⟩ := h
  exact ⟨other :: newer, rfl, List.mem_cons_of_mem _ hmem⟩

/-- Only a grant makes a difference to whether the mutex was granted. -/
theorem grantedSince_append (h : past <:+ history)
    (hnot : ∀ timeout, .lockTried timeout .granted ∉ newer) :
    GrantedSince past (newer ++ history) ↔ GrantedSince past history := by
  constructor
  · rintro ⟨timeout, hsince⟩
    rcases (since_append newer h).1 hsince with hnew | hold
    · exact absurd hnew (hnot timeout)
    · exact ⟨timeout, hold⟩
  · rintro ⟨timeout, hsince⟩
    exact ⟨timeout, (since_append newer h).2 (Or.inr hsince)⟩

theorem not_grantedSince_self : ¬ GrantedSince past past := by
  rintro ⟨timeout, hsince⟩
  exact List.not_mem_nil ((since_append_self []).1 hsince)

end Events

namespace EngineM

variable {ρ κ μ : Type} {e e' : Engine ρ κ μ} {past : List Event} {granted : Prop}

/-! ## The account of grants -/

/-- Whether the mutex was granted since the given past. -/
def Grants (past : List Event) (granted : Prop) (e : Engine ρ κ μ) : Prop :=
  past <:+ e.history ∧ (GrantedSince past e.history ↔ granted)

/-- Events that are no grants leave the account alone. -/
theorem Grants.append {newer : List Event} (h : Grants past granted e)
    (hhistory : e'.history = newer ++ e.history)
    (hnot : ∀ timeout, .lockTried timeout .granted ∉ newer) : Grants past granted e' := by
  unfold Grants
  rw [hhistory, grantedSince_append h.1 hnot]
  exact ⟨h.1.trans (List.suffix_append _ _), h.2⟩

theorem Grants.cons {event : Event} (h : Grants past granted e)
    (hhistory : e'.history = event :: e.history)
    (hnot : ∀ timeout, event ≠ .lockTried timeout .granted) : Grants past granted e' := by
  have happended : e'.history = [event] ++ e.history := hhistory
  exact h.append happended fun timeout hmem => hnot timeout (List.mem_singleton.1 hmem).symm

theorem Grants.keptByAccess [RegisterBlock ρ] :
    KeptByAccess (Grants (ρ := ρ) (κ := κ) (μ := μ) past granted) where
  note h := h
  read h := h.cons rfl (by simp)
  write h := h.cons rfl (by simp)
  fence h := h.cons rfl (by simp)

theorem Grants.keptByCreation [EngineMutex μ] :
    KeptByCreation (Grants (ρ := ρ) (κ := κ) (μ := μ) past granted) where
  note h := h
  phase _ h := h
  begun h := h.cons rfl (by simp)
  ended h := h.cons rfl (by simp)
  reentered h := h.cons rfl (by simp)
  created h := creationKeeps_of_forall (fun h => h) _ h

section Taking

variable [GatedClock κ] [EngineMutex μ] {a : Operation}

/-- **An operation comes out on the engine exactly if the mutex was granted.** -/
theorem always_acquire_grants (hmode : a.mode = .uncommitted) (h : Grants past False e) :
    Always (acquire a) e fun r e' => Grants past (r.2.isOnEngine = true) e' := by
  -- the software path is taken where nothing was granted
  have hoff : ∀ {e' : Engine ρ κ μ}, Grants past False e' →
      Grants past (Operation.isOnEngine { a with mode := .software } = true) e' := by
    intro e' he'
    exact ⟨he'.1, he'.2.trans (by simp [Operation.isOnEngine])⟩
  refine always_acquireBy (fun _ => ?_) (fun hunsettled => by simp [hmode] at hunsettled)
    fun hcommitted => by simp [Operation.isOnEngine, hmode] at hcommitted
  refine always_compete (Grants.keptByCreation.prepareMutex (Grants.keptByCreation.note h))
    (fun e' he' hgranted => ?_) (fun e' notice he' hrefused => hoff ?_) fun e' he' => hoff he'
  · have hsince : GrantedSince past (.clockEnabled ::
        .lockTried e'.settings.mutexTimeout .granted :: e'.history) :=
      ⟨_, (since_cons_self he'.1).cons⟩
    rw [tried, hgranted]
    refine ⟨?_, iff_of_true hsince rfl⟩
    exact he'.1.trans ((List.suffix_cons _ _).trans (List.suffix_cons _ _))
  · refine he'.cons rfl fun timeout heq => hrefused ?_
    exact (Event.lockTried.inj heq).2

/-- **A release is one disable and one unlock at most.** -/
theorem always_release_history (a : Operation) : Always (release a) e fun _ e' =>
    ∃ newer, newer.Sublist [.unlocked, .clockDisabled] ∧ e'.history = newer ++ e.history := by
  have hunlocked : ∀ (a : Operation) (e : Engine ρ κ μ), Always (unlockOwned a) e fun _ e' =>
      ∃ newer, newer.Sublist [.unlocked] ∧ e'.history = newer ++ e.history := by
    intro a e
    refine Always.ite (fun _ => ?_) fun _ => ?_
    · simp only [always_bind, always_unlockMutex, always_pure]
      exact ⟨[.unlocked], List.Sublist.refl _, rfl⟩
    · rw [always_pure]
      exact ⟨[], List.nil_sublist _, rfl⟩
  simp only [release, always_bind, always_note]
  refine Always.ite (fun _ => ?_) fun _ => ?_
  · simp only [always_bind, always_disableClock, always_pure]
    refine (hunlocked _ _).mono fun _ e' hreleased => ?_
    obtain ⟨newer, hsub, hhistory⟩ := hreleased
    refine ⟨newer ++ [.clockDisabled], hsub.append (List.Sublist.refl _), ?_⟩
    rw [hhistory, List.append_assoc]
    rfl
  · simp only [always_bind, always_pure]
    refine (hunlocked _ _).mono fun _ e' hreleased => ?_
    obtain ⟨newer, hsub, hhistory⟩ := hreleased
    exact ⟨newer, hsub.trans (List.sublist_append_left _ _), hhistory⟩

/-- So it is no grant. -/
theorem Grants.release (a : Operation) (h : Grants past granted e) :
    Always (release a) e fun _ e' => Grants past granted e' := by
  refine (always_release_history a).mono fun _ e' hreleased => ?_
  obtain ⟨newer, hsub, hhistory⟩ := hreleased
  exact h.append hhistory fun timeout hmem => by simpa using hsub.subset hmem

end Taking

/-! ## Everything -/

section All

variable [RegisterBlock ρ] [GatedClock κ] [EngineMutex μ]

/-- A load that succeeds has been commanded. -/
theorem always_loadDigest_since (bank : RegisterBank) (h : past <:+ e.history) :
    Always (loadDigest bank) e fun outcome e' =>
      outcome = .ok () → Since past (.write bank.load 1) e'.history := by
  have hloaded : Kept fun e : Engine ρ κ μ => Since past (.write bank.load 1) e.history :=
    kept_history fun _ _ hsince => hsince.cons
  simp only [loadDigest, always_bind]
  refine ((kept_suffix past).awaitIdle h).mono fun outcome e₁ he₁ => ?_
  cases outcome with
  | error fault =>
    rw [always_pure]
    intro h
    cases h
  | ok =>
    simp only [always_bind, always_writeRegister, always_fence]
    refine (hloaded.awaitClear _ (since_cons_self he₁).cons).mono fun outcome e₂ he₂ => ?_
    cases outcome with
    | error fault =>
      rw [always_pure]
      intro h
      cases h
    | ok =>
      refine always_bind.2 ((hloaded.awaitIdle he₂).mono fun outcome e₃ he₃ => ?_)
      cases outcome with
      | error fault =>
        rw [always_pure]
        intro h
        cases h
      | ok =>
        simp only [always_bind, always_fence, always_pure]
        exact fun _ => he₃.cons

omit [GatedClock κ] [EngineMutex μ] in
theorem length_readText (index count : Nat) : Always (readText (ρ := ρ) index count) e
    fun words _ => words.length = count := by
  induction count generalizing index e with
  | zero => simp [readText]
  | succ count ih =>
    simp only [readText, always_bind, always_readRegister, always_pure]
    exact (ih (index + 1)).mono fun words _ hlength => by rw [List.length_cons, hlength]

/-- **A digest that is read from the engine was loaded there**, and comes in place of as many
words. -/
theorem always_fetch_since {a : Operation} (out : List UInt32) (hsuffix : past <:+ e.history)
    (hmode : a.mode = .hardware false) : Always (fetch a out) e fun r e' => r.1 = .ok () →
      r.2.length = out.length ∧ ∃ bank, a.algorithm.bank? = some bank ∧
        Since past (.write bank.load 1) e'.history := by
  simp only [fetch, always_bind, always_note, hmode]
  cases a.algorithm.bank? with
  | none =>
    rw [always_pure]
    intro h
    cases h
  | some bank =>
    refine Always.ite (fun _ => by simp [always_pure]) fun hroom => ?_
    refine always_bind.2 ((always_loadDigest_since bank (by exact hsuffix)).mono
      fun outcome e₁ hloaded => ?_)
    cases outcome with
    | error fault =>
      rw [always_pure]
      intro h
      cases h
    | ok =>
      have hkept := kept_history (ρ := ρ) (κ := κ) (μ := μ)
        (p := Since past (.write bank.load 1)) fun _ _ hsince => hsince.cons
      simp only [digestFromText, bind_assoc, always_bind, pure_bind, always_note, always_pure]
      refine ((length_readText _ _).and (hkept.readText 0 _ (hloaded rfl))).mono
        fun words e₂ he₂ _ => ⟨?_, bank, rfl, he₂.2⟩
      have hwords : (if a.algorithm.isWide then BigEndian.exchangeHalves words
          else words).length = a.algorithm.digestWords := by
        split
        · rw [BigEndian.length_exchangeHalves, he₂.1]
        · exact he₂.1
      rw [List.length_append, hwords, List.length_drop]
      omega

end All

end EngineM

end HashAccelerator
