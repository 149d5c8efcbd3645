import HashAccelerator.Proofs.Engine.Kept
/-!
# What asking for the engine adds to the past

An operation without a path asks for the engine in two steps, and the calls on the platform that each
of them comes to are known to the last event. Making the mutex usable is nothing, unless there is no
mutex: then it is one creation, inside of which all requests are sent to software (`Prepared`). A
usable mutex is tried once, and a grant is followed by an enable of the clock; without one nothing is
tried (`Contested`).
-/

namespace HashAccelerator

/-- One creation, newest event first: some operations asked for the engine between its beginning and
its end, and all were sent to software. -/
def creation (outcome : Except MutexError Unit) (requests : Nat) : List Event :=
  .creationEnded outcome ::
    (List.replicate requests (.reentered (.ok .software)) ++ [.creationBegun])

/-- The call belongs to a creation of the mutex. -/
def Event.isOfCreation : Event → Bool
  | .creationBegun | .creationEnded _ | .reentered _ => true
  | _ => false

theorem isOfCreation_of_mem {outcome : Except MutexError Unit} {requests : Nat} {event : Event}
    (h : event ∈ creation outcome requests) : event.isOfCreation = true := by
  simp only [creation, List.mem_cons, List.mem_append, List.mem_replicate, List.not_mem_nil,
    or_false] at h
  obtain rfl | ⟨-, rfl⟩ | rfl := h <;> rfl

/-- What making the mutex usable adds, by how far its creation had come, and how far it has come
then. -/
inductive Prepared : MutexPhase → Bool → List Event → MutexPhase → Prop
  | ready : Prepared .ready true [] .ready
  | busy : Prepared .creating false [] .creating
  | failed {error requests} : Prepared .absent false (creation (.error error) requests) .absent
  | created {requests} : Prepared .absent true (creation (.ok ()) requests) .ready

/-- What a competition for the engine adds, and what it makes of an operation. -/
inductive Contested (a : Operation) (phase : MutexPhase) :
    Path × Operation → List Event → MutexPhase → Prop
  | unready {newer phase'} : Prepared phase false newer phase' →
      Contested a phase (.software, { a with mode := .software }) newer phase'
  | refused {newer phase'} (timeout answer) : Prepared phase true newer phase' → answer ≠ .granted →
      Contested a phase (.software, { a with mode := .software })
        (.lockTried timeout answer :: newer) phase'
  | granted {newer phase'} (timeout) : Prepared phase true newer phase' →
      Contested a phase
        (.hardware, { a with
          mode := .hardware true
          clockDebt := a.clockDebt + 1
          holdsMutex := true })
        (.clockEnabled :: .lockTried timeout .granted :: newer) phase'

namespace EngineM

variable {ρ κ μ : Type} [GatedClock κ] [EngineMutex μ] {e : Engine ρ κ μ} {a : Operation}

/-- A creation ends after its requests, none of which gets anywhere. -/
theorem always_follow_requests {create : EngineM ρ κ μ (Except MutexError Unit)}
    (course : Creation μ) (h : e.phase = .creating) :
    Always (follow (acquireBy create) course) e fun outcome e' => ∃ requests,
      e'.history = .creationEnded outcome ::
        (List.replicate requests (.reentered (.ok .software)) ++ e.history) := by
  induction course generalizing e with
  | done outcome mutex =>
    simp only [follow, always_bind, always_modify, always_record, always_pure]
    exact ⟨0, rfl⟩
  | ask mutex algorithm next ih =>
    simp only [follow, always_bind, always_modify]
    have hrequest : ({ e with mutex } : Engine ρ κ μ).phase = .creating := h
    rw [always_iff_of_run (run_acquireBy_creating hrequest)]
    simp only [always_record, always_get]
    refine (ih _ _ (by exact h)).mono fun outcome e' he => ?_
    obtain ⟨requests, hhistory⟩ := he
    refine ⟨requests + 1, ?_⟩
    rw [hhistory, List.replicate_succ', List.append_assoc]
    rfl

/-- **Making the mutex usable is one creation, or nothing.** -/
theorem always_prepareMutex_prepared : Always (prepareMutex (createMutex 1)) e fun ready e' =>
    ∃ newer, e'.history = newer ++ e.history ∧ Prepared e.phase ready newer e'.phase := by
  simp only [prepareMutex, always_bind, always_get]
  cases hphase : e.phase with
  | ready => exact always_pure.2 ⟨[], rfl, hphase ▸ .ready⟩
  | creating => exact always_pure.2 ⟨[], rfl, hphase ▸ .busy⟩
  | absent =>
    simp only [always_bind, always_modify, createMutex, always_record, always_get]
    refine (always_follow_requests _ rfl).mono fun outcome e' he => ?_
    obtain ⟨requests, hhistory⟩ := he
    have hcreation : e'.history = creation outcome requests ++ e.history := by
      rw [hhistory, creation, List.cons_append, List.append_assoc]
      rfl
    cases outcome with
    | ok =>
      simp only [always_bind, always_modify, always_pure]
      exact ⟨_, hcreation, .created⟩
    | error error =>
      simp only [always_bind, always_modify, always_note, always_pure]
      exact ⟨_, hcreation, .failed⟩

/-- **A competition tries the mutex once**, if there is one. -/
theorem always_compete_contested : Always (compete (createMutex 1) a) e fun r e' =>
    ∃ newer, e'.history = newer ++ e.history ∧ Contested a e.phase r newer e'.phase := by
  refine always_compete always_prepareMutex_prepared (fun e' he hgranted => ?_)
    (fun e' notice he hrefused => ?_) fun e' he => ?_
  · obtain ⟨newer, hhistory, hprepared⟩ := he
    refine ⟨_, ?_, .granted e'.settings.mutexTimeout hprepared⟩
    rw [tried, hgranted, hhistory]
    rfl
  · obtain ⟨newer, hhistory, hprepared⟩ := he
    refine ⟨_, ?_, .refused e'.settings.mutexTimeout _ hprepared hrefused⟩
    rw [tried, hhistory]
    rfl
  · obtain ⟨newer, hhistory, hprepared⟩ := he
    exact ⟨newer, hhistory, .unready hprepared⟩

/-- And so does an operation without a path that asks for the engine. -/
theorem always_acquire_contested (hmode : a.mode = .uncommitted) :
    Always (acquire a) e fun r e' => ∃ path newer, r.1 = .ok path ∧
      e'.history = newer ++ e.history ∧ Contested a e.phase (path, r.2) newer e'.phase := by
  refine always_acquireBy (fun _ => ?_) (fun hunsettled => by simp [hmode] at hunsettled)
    fun hcommitted => by simp [Operation.isOnEngine, hmode] at hcommitted
  refine always_compete_contested.mono fun r e' he => ?_
  obtain ⟨newer, hhistory, hcontested⟩ := he
  exact ⟨r.1, newer, rfl, hhistory, hcontested⟩

end EngineM

end HashAccelerator
