import HashAccelerator.Proofs.Session.Ownership
/-!
# Copies of operations

What an operation owes is recorded in the operation and nowhere else, so whoever copies one copies
its debt. As long as only operations that hold nothing are copied, a copy is one more newcomer and
the engine has one owner (`Course.Reached.arbitrated`). Of the owner there must be no copy: the two
are on the engine at once, the first release frees the mutex under the other, and the second pays the
clock a disable that a driver outside is still counting on (`Course.Settled.take_copy_of_owner`).
-/

namespace HashAccelerator

open EngineM

variable {ρ μ : Type}

namespace Course

variable [RegisterBlock ρ] [EngineMutex μ] [LatchedMutex μ]
variable {c : Course ρ CountedClock μ} {initial : Nat} {step : Step ρ μ}

/-- A step of a session that shares its clock with fair drivers, and in which an operation is copied
only while it holds nothing. -/
def SharingCopies (initial : Nat) (c : Course ρ CountedClock μ) : Step ρ μ → Prop
  | .copy source _ => ∀ a, c.session.operations[source]? = some a → a.isHolding = false
  | step => Sharing initial c step

/-- The course in which other operations have lost their name. -/
def withLost (c : Course ρ CountedClock μ) (lost : List Operation) : Course ρ CountedClock μ :=
  { c with lost }

/-! ## Copies of those that hold nothing -/

omit [RegisterBlock ρ] in
/-- **A copy of an operation that holds nothing** is a newcomer. The operation that had the name
before is lost. -/
theorem Settled.copied (h : Settled initial c) {source target : String} {a : Operation}
    (ha : c.session.operations[source]? = some a) (hfree : a.holdsMutex = false) (answer : Answer) :
    Settled initial ((c.next (.copy source target) answer { c.session with
      operations := c.session.operations.insert target a }).withLost
        (c.lost ++ c.session.operations[target]?.toList)) := by
  have hparty : c.party? (.operation source) = some a := ha
  -- among the parties the copy is what a new operation would be
  have hlost : (Step.create target a.algorithm false : Step ρ μ).displaced? c.session =
      c.session.operations[target]? := rfl
  have hcreated := h.inOrder.created (K := fun _ => True) trivial hlost answer
    (h.inOrder.standing hparty) hfree
  exact ⟨hcreated.inOrder.quiet (Or.inl rfl) fun _ => rfl, h.balanced, h.room⟩

/-- **Every such step keeps the balance**, whoever may have lost its name by it. -/
theorem Settled.advance_copies {lost : List Operation} (h : Settled initial (c.withLost lost))
    (hfair : SharingCopies initial c step) :
    Always (Session.step step) c.session fun answer s =>
      ∃ lost', Settled initial ((c.next step answer s).withLost lost') := by
  by_cases hcopy : ∃ source target, step = .copy source target
  · obtain ⟨source, target, rfl⟩ := hcopy
    simp only [Session.step, always_bind, always_get]
    cases ha : c.session.operations[source]? with
    | none =>
      simp only [always_pure]
      exact ⟨lost, h.inOrder.quiet (Or.inl rfl) fun _ => rfl, h.balanced, h.room⟩
    | some a =>
      simp only [Session.putOperation, always_bind, always_modify, always_pure]
      have hfree : a.holdsMutex = false := by
        have hnothing := hfair a ha
        simp only [Operation.isHolding, Bool.or_eq_false_iff] at hnothing
        exact hnothing.1
      exact ⟨_, h.copied ha hfree .done⟩
  · have hsharing : Sharing initial (c.withLost lost) step := by
      cases step <;> first | exact hfair | exact absurd ⟨_, _, rfl⟩ hcopy
    exact (h.advance hsharing).mono fun answer s hs => ⟨_, hs⟩

/-- So every course with such copies is in balance. -/
theorem Reached.settled_copies {engine : Engine ρ CountedClock μ} (hunused : engine.history = [])
    (hfree : LatchedMutex.locked engine.mutex = false)
    (hinitial : engine.clock.count.toNat = initial) (hroom : initial < clockRoom)
    (h : Reached (SharingCopies initial) (.ofEngine engine) c) :
    ∃ lost, Settled initial (c.withLost lost) := by
  refine h.induct (I := fun c => ∃ lost, Settled initial (c.withLost lost)) ?_
    fun c step hc hfair => ?_
  · exact ⟨[], (Reached.start : Reached (Sharing initial) (.ofEngine engine) _).settled hunused hfree
      hinitial hroom⟩
  · obtain ⟨lost, hsettled⟩ := hc
    exact hsettled.advance_copies hfair

/-- **Arbitration with copies.** Operations are made, copied, committed, used, released and settled in
any order, beside streams and fair drivers, on a free mutex and a clock that has room. As long as an
operation is copied only while it holds nothing, at most one operation is on the engine, the mutex is
locked while one is, and the clock counts the other drivers' outstanding enables and whoever has the
mutex: no enable is paid back twice. -/
theorem Reached.arbitrated {engine : Engine ρ CountedClock μ} (hunused : engine.history = [])
    (hfree : LatchedMutex.locked engine.mutex = false)
    (hinitial : engine.clock.count.toNat = initial) (hroom : initial < clockRoom)
    (h : Reached (SharingCopies initial) (.ofEngine engine) c) :
    (∀ (name name' : String) (a a' : Operation), c.session.operations[name]? = some a → a.isOnEngine = true →
      c.session.operations[name']? = some a' → a'.isOnEngine = true → name = name') ∧
    (∀ (name : String) (a : Operation), c.session.operations[name]? = some a → a.isOnEngine = true →
      LatchedMutex.locked c.engine.mutex = true) ∧
    c.engine.clock.count.toNat =
      outstanding initial c.past + (LatchedMutex.locked c.engine.mutex).toNat := by
  obtain ⟨lost, hsettled⟩ := h.settled_copies hunused hfree hinitial hroom
  have hexclusive := hsettled.balanced.exclusive
  have hlocked := hsettled.balanced.locked
  have hholds : ∀ {name : String} {a : Operation}, c.session.operations[name]? = some a → a.isOnEngine = true →
      (c.withLost lost).Holds (.operation name) := fun {name a} ha hon =>
    ⟨a, ha, (hsettled.inOrder.standing (p := .operation name) ha).holdsMutex_of_isOnEngine hon⟩
  refine ⟨fun name name' a a' ha hon ha' hon' => ?_, fun name a ha hon => ?_, ?_⟩
  · have hsame := hsettled.inOrder.alone hexclusive (hholds ha hon) (hholds ha' hon')
    cases hsame
    rfl
  · exact hlocked.trans ((hsettled.inOrder.held hexclusive).2 ⟨_, hholds ha hon⟩)
  · exact hsettled.balanced.count.trans (congrArg (fun held : Bool => _ + held.toNat) hlocked.symm)

/-- An operation is copied before it asks for the engine, and the copy is sent to software. -/
theorem exists_arbitrated_copy : ∃ c : Course Peripheral CountedClock CountedMutex,
    c.session.operations["b"]? = some (.softwareOnly .sha256) ∧
    LatchedMutex.locked c.engine.mutex = true ∧
    c.engine.clock.count.toNat = 1 + (LatchedMutex.locked c.engine.mutex).toNat := by
  have hcopy : ∀ c : Course Peripheral CountedClock CountedMutex,
      c.session.operations["a"]? = some (.fresh .sha256) → SharingCopies 1 c (.copy "a" "b") :=
    fun c hc a ha => by
      rw [hc] at ha
      cases ha
      rfl
  have hcall : ∀ c : Course Peripheral CountedClock CountedMutex,
      SharingCopies 1 c (.create "a" .sha256 false) ∧ SharingCopies 1 c (.acquire "a") ∧
        SharingCopies 1 c (.acquire "b") :=
    fun _ => ⟨Or.inl trivial, Or.inl trivial, Or.inl trivial⟩
  have hreached : Reached (SharingCopies (μ := CountedMutex) 1)
      (.ofEngine (.simulated 0 { count := 1 } {} {})) _ :=
    .step (.step (.step (.step .start (hcall _).1 rfl) (hcopy _ rfl) rfl) (hcall _).2.1 rfl)
      (hcall _).2.2 rfl
  obtain ⟨-, -, hcount⟩ := hreached.arbitrated (by rfl) (by rfl) (by rfl) (by decide)
  exact ⟨_, rfl, rfl, hcount⟩

/-! ## Copies of the owner -/

omit [LatchedMutex μ] in
/-- What an owner's release comes to in the session. -/
theorem run_release_of_owner {session : Session ρ CountedClock μ} {name : String} {a : Operation}
    (ha : session.operations[name]? = some a) (hstanding : a.Standing)
    (hholds : a.holdsMutex = true) :
    ∃ s, (Session.step (.release name)).run session = some (.done, s) ∧
      s.operations = session.operations.insert name a.released ∧
      s.engine.clock = GatedClock.disable session.engine.clock ∧
      s.engine.mutex = EngineMutex.unlock session.engine.mutex := by
  have hrun := Session.run_onEngine (hstanding.run_release_of_holds hholds session.engine)
  simp only [Session.step, Session.withOperation, StateT.run_bind, StateT.run_get, Option.pure_def,
    Option.bind_eq_bind, Option.bind_some, ha, hrun]
  exact ⟨_, rfl, rfl, rfl, rfl⟩

/-- **Of the owner there must be no copy.** The copy is on the engine beside the owner; when the owner
is released, the mutex is free while the copy still holds it; and when the copy is released too, the
clock has one user less than the other drivers have enabled. -/
theorem Settled.take_copy_of_owner (h : Settled initial c) {source target : String} {a : Operation}
    (ha : c.session.operations[source]? = some a) (hholds : a.holdsMutex = true)
    (hother : source ≠ target) :
    ∃ c₁ c₂ c₃ : Course ρ CountedClock μ,
      (c.take [.copy source target] = some c₁ ∧ c₁.party? (.operation source) = some a ∧
        c₁.party? (.operation target) = some a) ∧
      (c₁.take [.release source] = some c₂ ∧ c₂.party? (.operation target) = some a ∧
        LatchedMutex.locked c₂.engine.mutex = false) ∧
      c₂.take [.release target] = some c₃ ∧
        c₃.engine.clock.count.toNat = outstanding initial c.past - 1 := by
  have hstanding := h.inOrder.standing (p := .operation source) ha
  have htaken : ∀ {c : Course ρ CountedClock μ} {step : Step ρ μ} {answer s},
      (Session.step step).run c.session = some (answer, s) →
        c.take [step] = some (c.next step answer s) := fun hrun => by simp [take, hrun]
  have hcopied : (Session.step (.copy source target)).run c.session = some (.done,
      { c.session with operations := c.session.operations.insert target a }) := by
    simp only [Session.step, StateT.run_bind, StateT.run_get, Option.pure_def, Option.bind_eq_bind,
      Option.bind_some, ha]
    rfl
  have hsource : ({ c.session with operations := c.session.operations.insert target a } :
      Session ρ CountedClock μ).operations[source]? = some a := by
    simp [Std.TreeMap.getElem?_insert, Ne.symm hother, ha]
  obtain ⟨s₂, hrun₂, hoperations₂, hclock₂, hmutex₂⟩ := run_release_of_owner hsource hstanding hholds
  have htarget : s₂.operations[target]? = some a := by
    rw [hoperations₂, Std.TreeMap.getElem?_insert, if_neg (by simpa using hother)]
    simp
  obtain ⟨s₃, hrun₃, -, hclock₃, -⟩ := run_release_of_owner htarget hstanding hholds
  refine ⟨_, _, _, ⟨htaken hcopied, hsource, ?_⟩, ⟨htaken hrun₂, htarget, ?_⟩, htaken hrun₃, ?_⟩
  · simp [party?, next]
  · exact (congrArg LatchedMutex.locked hmutex₂).trans (LatchedMutex.locked_unlock _)
  · -- the owner was counted once, and two disables have been issued for it
    have hheld : isHeld c.engine.history = true :=
      (h.inOrder.held h.balanced.exclusive).2 ⟨.operation source, a, ha, hholds⟩
    have hcount := h.balanced.count
    rw [hheld] at hcount
    have hgone : s₃.engine.clock.count.toNat = c.engine.clock.count.toNat - 1 - 1 := by
      rw [hclock₃, CountedClock.toNat_count_disable, hclock₂, CountedClock.toNat_count_disable]
      rfl
    exact hgone.trans (by rw [hcount]; rfl)

/-- Beside a driver that has the clock enabled, one operation on the engine is copied: two are on the
engine, then the mutex is free with one on the engine, then the clock is off. -/
theorem exists_copies_off_the_clock :
    ∃ c₁ c₂ c₃ : Course Peripheral CountedClock CountedMutex,
      (take { session := .ofEngine (.simulated 0 { count := 1 } {} {}) }
          [.create "a" .sha256 false, .acquire "a", .copy "a" "b"] = some c₁ ∧
        (c₁.session.operations["a"]?.map (·.isOnEngine)) = some true ∧
        (c₁.session.operations["b"]?.map (·.isOnEngine)) = some true) ∧
      (c₁.take [.release "a"] = some c₂ ∧ c₂.engine.mutex.locked = false ∧
        (c₂.session.operations["b"]?.map (·.isOnEngine)) = some true) ∧
      c₂.take [.release "b"] = some c₃ ∧ c₃.engine.clock.count.toNat < 1 :=
  ⟨_, _, _, ⟨rfl, rfl, rfl⟩, ⟨rfl, rfl, rfl⟩, rfl, by decide⟩

end Course

end HashAccelerator
