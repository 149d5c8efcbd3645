import HashAccelerator.Proofs.Always
/-!
# Two runs of one action

What an action may not depend on is said with two states that agree but for that: run from both, it
gives one answer and leaves the states in agreement (`Coupled`). Like a guarantee, a coupling is put
together along the action, with a relation for every point between two of its parts.
-/

namespace HashAccelerator

variable {σ α β : Type} {pre mid post : σ → σ → Prop}

/-- **Two runs side by side.** From related states the action returns the same on both sides and
leaves related states. -/
def Coupled (pre : σ → σ → Prop) (action : StateT σ Option α) (post : σ → σ → Prop) : Prop :=
  ∀ s s', pre s s' → ∃ a t t',
    action.run s = some (a, t) ∧ action.run s' = some (a, t') ∧ post t t'

/-- A coupling gives the two runs from any two related states. -/
theorem Coupled.run {action : StateT σ Option α} (h : Coupled pre action post) {s s' : σ}
    (hs : pre s s') : ∃ a t t',
      action.run s = some (a, t) ∧ action.run s' = some (a, t') ∧ post t t' :=
  h s s' hs

theorem coupled_of_run {action : StateT σ Option α}
    (h : ∀ s s', pre s s' → ∃ a t a' t', action.run s = some (a, t) ∧
      action.run s' = some (a', t') ∧ a = a' ∧ post t t') : Coupled pre action post := by
  intro s s' hs
  obtain ⟨a, t, a', t', hrun, hrun', rfl, ht⟩ := h s s' hs
  exact ⟨a, t, t', hrun, hrun', ht⟩

theorem coupled_pure (a : α) : Coupled post (pure a) post :=
  fun s s' hs => ⟨a, s, s', rfl, rfl, hs⟩

theorem Coupled.bind {action : StateT σ Option α} {next : α → StateT σ Option β}
    (h : Coupled pre action mid) (h' : ∀ a, Coupled mid (next a) post) :
    Coupled pre (action >>= next) post := by
  intro s s' hs
  obtain ⟨a, t, t', hrun, hrun', ht⟩ := h s s' hs
  obtain ⟨b, u, u', hnext, hnext', hu⟩ := h' a t t' ht
  exact ⟨b, u, u', run_bind_eq_some.2 ⟨a, t, hrun, hnext⟩,
    run_bind_eq_some.2 ⟨a, t', hrun', hnext'⟩, hu⟩

/-- The answer may be worked over before it is given. -/
theorem Coupled.map {action : StateT σ Option α} (h : Coupled pre action post) (f : α → β) :
    Coupled pre (action >>= fun a => pure (f a)) post :=
  h.bind fun a => coupled_pure (f a)

/-- Related states agree on whatever is looked at before going on. -/
theorem Coupled.bind_get {next : σ → StateT σ Option β}
    (hlook : ∀ s s', pre s s' → next s = next s') (h : ∀ s, Coupled pre (next s) post) :
    Coupled pre (get >>= next) post := by
  intro s s' hs
  obtain ⟨b, t, t', hrun, hrun', ht⟩ := h s s s' hs
  rw [hlook s s' hs] at hrun'
  exact ⟨b, t, t', run_bind_eq_some.2 ⟨s, s, rfl, hrun⟩, run_bind_eq_some.2 ⟨s', s', rfl, hrun'⟩, ht⟩

theorem coupled_modify {change : σ → σ} (h : ∀ s s', pre s s' → post (change s) (change s')) :
    Coupled pre (modify change) post :=
  fun s s' hs => ⟨⟨⟩, change s, change s', rfl, rfl, h s s' hs⟩

theorem Coupled.ite {c : Prop} [Decidable c] {yes no : StateT σ Option α}
    (hyes : Coupled pre yes post) (hno : Coupled pre no post) :
    Coupled pre (if c then yes else no) post := by
  split
  · exact hyes
  · exact hno

end HashAccelerator
