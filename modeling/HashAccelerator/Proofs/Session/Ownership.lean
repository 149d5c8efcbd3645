import HashAccelerator.Proofs.Engine.Balance
import HashAccelerator.Proofs.Session.Order
/-!
# Ownership and the clock

Over a clock that counts its users and a mutex that is a latch, the two resources of the engine
have one owner at most, and the clock's count is always explained: it is what the other drivers have
enabled and not disabled, and one more if somebody owns the engine. The owner may be an operation
that has lost its name, which nobody can release any more.

The other drivers are asked for fairness only: they disable what they enabled, and leave the count
room for the engine.
-/

namespace HashAccelerator

open EngineM

variable {ρ μ : Type} [RegisterBlock ρ] [EngineMutex μ] [LatchedMutex μ]

namespace Course

/-- What other drivers have enabled and not disabled, if they began with so many. -/
def outstanding (initial : Nat) : List (Step ρ μ × Answer) → Nat
  | [] => initial
  | (.enableClock, _) :: past => outstanding initial past + 1
  | (.disableClock, _) :: past => outstanding initial past - 1
  | _ :: past => outstanding initial past

/-- A step of a session that shares its clock with fair drivers, and in which only parties lock and
unlock the mutex. -/
def Sharing (initial : Nat) (c : Course ρ CountedClock μ) : Step ρ μ → Prop
  | .enableClock => outstanding initial c.past + 1 < clockRoom
  | .disableClock => 0 < outstanding initial c.past
  | .alterMutex change => ∀ mutex, LatchedMutex.locked (change mutex) = LatchedMutex.locked mutex
  | step => step.IsCall ∨ step.IsOutside

variable {c : Course ρ CountedClock μ} {initial : Nat} {step : Step ρ μ}

omit [RegisterBlock ρ] in
theorem Sharing.isCall_or_isOutside (h : Sharing initial c step) : step.IsCall ∨ step.IsOutside := by
  cases step <;> first | exact h | exact Or.inr trivial

omit [RegisterBlock ρ] [EngineMutex μ] [LatchedMutex μ] in
/-- The parties' enables are not the other drivers'. -/
theorem outstanding_cons_of_isCall (initial : Nat) (h : step.IsCall) (answer : Answer)
    (past : List (Step ρ μ × Answer)) :
    outstanding initial ((step, answer) :: past) = outstanding initial past := by
  cases step <;> first | exact h.elim | rfl

/-- The clock is in balance with what the other drivers have outstanding. -/
structure Settled (initial : Nat) (c : Course ρ CountedClock μ) : Prop where
  inOrder : c.InOrder
  balanced : Balanced (outstanding initial c.past) c.engine
  room : outstanding initial c.past < clockRoom

/-- **Every fair step keeps the balance.** -/
theorem Settled.advance (h : Settled initial c) (hfair : Sharing initial c step) :
    Always (Session.step step) c.session fun answer s => Settled initial (c.next step answer s) := by
  rcases hfair.isCall_or_isOutside with hcall | hout
  · -- a party's call leaves alone what the drivers have outstanding
    have hK : KeptByParties (Balanced (ρ := ρ) (μ := μ) (outstanding initial c.past)) :=
      ⟨fun _ _ => keptByCalls_balanced h.room, fun hparty hbalanced =>
        hparty.settle.and (hbalanced.settle hparty)⟩
    refine (h.inOrder.call hK h.balanced hcall).mono fun answer s hfollows => ?_
    have hsame := outstanding_cons_of_isCall initial hcall answer c.past
    exact ⟨hfollows.inOrder, hsame ▸ hfollows.kept, hsame ▸ h.room⟩
  · -- outside, only the clock and what the drivers have outstanding are to be compared
    suffices hrest : Always (Session.step step) c.session fun answer s =>
        Balanced (outstanding initial (c.next step answer s).past) s.engine ∧
          outstanding initial (c.next step answer s).past < clockRoom from
      ((h.inOrder.outside hout).and hrest).mono fun answer s hs => ⟨hs.1, hs.2.1, hs.2.2⟩
    have hbalanced := h.balanced
    cases step with
    | enableClock =>
      simp only [Session.step, always_bind, Session.always_onEngine, always_enableClock, always_pure]
      exact ⟨hbalanced.join hfair, hfair⟩
    | disableClock =>
      simp only [Session.step, always_bind, Session.always_onEngine, always_disableClock,
        always_pure]
      have hpos : outstanding initial c.past - 1 + 1 = outstanding initial c.past :=
        Nat.sub_add_cancel hfair
      rw [← hpos] at hbalanced
      have hroom := h.room
      exact ⟨hbalanced.leave, show outstanding initial c.past - 1 < clockRoom by omega⟩
    | isClockEnabled =>
      simp only [Session.step, always_bind, Session.always_onEngine, always_isClockEnabled,
        always_pure]
      exact ⟨hbalanced.quiet rfl rfl rfl rfl, h.room⟩
    | readSettings =>
      simp only [Session.step, always_bind, always_get, always_pure]
      exact ⟨hbalanced, h.room⟩
    | alterRegisters change =>
      simp only [Session.step, always_bind, always_modify, always_pure]
      exact ⟨⟨⟨hbalanced.exclusive, hbalanced.locked⟩, hbalanced.count⟩, h.room⟩
    | alterMutex change =>
      simp only [Session.step, always_bind, always_modify, always_pure]
      exact ⟨⟨⟨hbalanced.exclusive, (hfair _).trans hbalanced.locked⟩, hbalanced.count⟩, h.room⟩
    | _ => exact hout.elim

/-- So every course is in balance. -/
theorem Reached.settled {engine : Engine ρ CountedClock μ} (hunused : engine.history = [])
    (hfree : LatchedMutex.locked engine.mutex = false)
    (hinitial : engine.clock.count.toNat = initial) (hroom : initial < clockRoom)
    (h : Reached (Sharing initial) (.ofEngine engine) c) : Settled initial c := by
  have hheld : isHeld engine.history = false := by
    rw [hunused]
    rfl
  have hbalanced : Balanced initial engine := by
    refine ⟨latched_of_unused hunused hfree, ?_⟩
    rw [hheld, hinitial]
    rfl
  exact h.induct ⟨inOrder_ofEngine hheld, hbalanced, hroom⟩ fun c step hc hfair => hc.advance hfair

/-- **One owner, and a clock that is explained by it.** After any course of parties that share the
clock with fair drivers, what every operation holds fits its mode; the places that own the engine
are at most one, and there is one exactly if the mutex is locked; and the clock counts the other
drivers' outstanding enables and the owners. Who owns nothing may release or settle as often as it
likes: that reaches neither the mutex nor the clock. -/
theorem Reached.owners {engine : Engine ρ CountedClock μ} (hunused : engine.history = [])
    (hfree : LatchedMutex.locked engine.mutex = false)
    (hinitial : engine.clock.count.toNat = initial) (hroom : initial < clockRoom)
    (h : Reached (Sharing initial) (.ofEngine engine) c) :
    (∀ p a, c.party? p = some a →
      a.clockDebt ≤ 1 ∧ (a.clockDebt = 1 ↔ a.holdsMutex = true) ∧
      (∀ first, a.mode = .hardware first → a.holdsMutex = true) ∧
      (a.mode = .uncommitted ∨ a.mode = .software → a.holdsMutex = false)) ∧
    (∃ owners : List Place, owners.Nodup ∧ (∀ p, p ∈ owners ↔ c.Holds p) ∧ owners.length ≤ 1 ∧
      (LatchedMutex.locked c.engine.mutex = true ↔ owners ≠ []) ∧
      c.engine.clock.count.toNat = outstanding initial c.past + owners.length) ∧
    (∀ p a, c.party? p = some a → a.holdsMutex = false →
      (∃ a' notices, (release a).run c.engine = some (a', { c.engine with notices })) ∧
      (∃ r notices, (settle a).run c.engine = some (r, { c.engine with notices }))) := by
  have hsettled := h.settled hunused hfree hinitial hroom
  have hexclusive := hsettled.balanced.exclusive
  have hlocked := hsettled.balanced.locked
  have hcount := hsettled.balanced.count
  have hheld := hsettled.inOrder.held hexclusive
  refine ⟨fun p a hp => ?_, ?_, fun p a hp hnot => ?_⟩
  · have hstanding := hsettled.inOrder.standing hp
    refine ⟨hstanding.debt_le, hstanding.debt_iff, hstanding.onEngine, ?_⟩
    rintro (hmode | hmode)
    · exact hstanding.uncommitted hmode
    · exact hstanding.inSoftware hmode
  · -- the owners are the one place that holds the mutex, or none
    by_cases howned : ∃ p, c.Holds p
    · obtain ⟨p, hp⟩ := howned
      have hisHeld : isHeld c.engine.history = true := hheld.2 ⟨p, hp⟩
      rw [hisHeld] at hcount hlocked
      refine ⟨[p], by simp, fun q => ?_, Nat.le_refl 1, ?_, hcount⟩
      · rw [List.mem_singleton]
        constructor
        · rintro rfl
          exact hp
        · exact fun hq => hsettled.inOrder.alone hexclusive hq hp
      · simp [hlocked]
    · have hisHeld : isHeld c.engine.history = false := by
        rw [← Bool.not_eq_true]
        exact fun hheld' => howned (hheld.1 hheld')
      rw [hisHeld] at hcount hlocked
      refine ⟨[], List.nodup_nil, fun q => ?_, Nat.zero_le 1, ?_, hcount⟩
      · constructor
        · exact fun h => by cases h
        · exact fun hq => absurd ⟨q, hq⟩ howned
      · simp [hlocked]
  · have hstanding := hsettled.inOrder.standing hp
    exact ⟨hstanding.run_release hnot, hstanding.run_settle hnot⟩

/-- Of two operations that ask for the engine the first has it, and another driver's enable is
counted beside its own. -/
theorem exists_owners_of_two :
    ∃ c : Course Peripheral CountedClock CountedMutex,
      c.party? (.operation "second") = some (.softwareOnly .sha512) ∧
      ∃ owners : List Place, .operation "first" ∈ owners ∧ owners.length ≤ 1 ∧
        c.engine.clock.count.toNat = 1 + owners.length := by
  have hfirst : ∀ c : Course Peripheral CountedClock CountedMutex,
      Sharing 0 c (.create "first" .sha256 false) ∧ Sharing 0 c (.acquire "first") :=
    fun _ => ⟨Or.inl trivial, Or.inl trivial⟩
  have hsecond : ∀ c : Course Peripheral CountedClock CountedMutex,
      Sharing 0 c (.create "second" .sha512 false) ∧ Sharing 0 c (.acquire "second") :=
    fun _ => ⟨Or.inl trivial, Or.inl trivial⟩
  have henable : ∀ c : Course Peripheral CountedClock CountedMutex,
      outstanding 0 c.past = 0 → Sharing 0 c .enableClock := fun c hnone => by
    show outstanding 0 c.past + 1 < clockRoom
    rw [hnone]
    decide
  have hreached : Reached (Sharing (μ := CountedMutex) 0) (.ofEngine (.simulated 0 {} {} {})) _ :=
    .step (.step (.step (.step (.step .start (hfirst _).1 rfl) (hsecond _).1 rfl) (hfirst _).2 rfl)
      (henable _ rfl) rfl) (hsecond _).2 rfl
  obtain ⟨-, ⟨owners, -, hmem, hle, -, hcount⟩, -⟩ :=
    hreached.owners (by rfl) (by rfl) (by rfl) (by decide)
  exact ⟨_, rfl, owners, (hmem _).2 ⟨_, rfl, rfl⟩, hle, hcount⟩

end Course

end HashAccelerator
