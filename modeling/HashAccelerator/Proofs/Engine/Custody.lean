import HashAccelerator.Proofs.Engine.Answers
import HashAccelerator.Proofs.Stream.Kept
/-!
# Who holds the mutex

A party to the engine is an operation, standing alone or inside a stream. Its `Standing` is in order
if it owes the clock one disable exactly when it holds the mutex, holds it whenever it is on the
engine, and does not hold it before it commits or in software.

`Custody` is the engine as one party finds it, with all others put together: if one of the others
holds the mutex, this party does not, and the registers stay as they were left; and the mutex is held
in the history exactly if somebody holds it. No call of a party breaks it, whatever the registers,
the clock and the mutex answer, as long as the mutex is not granted while it is held
(`Exclusive`).
-/

namespace HashAccelerator

open EngineM

/-! ## The mutex in the history -/

/-- What a call does to the hold on the mutex: a grant takes it and an unlock gives it back. -/
def Event.hold? : Event → Option Bool
  | .lockTried _ .granted => some true
  | .unlocked => some false
  | _ => none

/-- Whether the mutex is held after some calls, newest first. -/
def isHeld : List Event → Bool
  | [] => false
  | event :: older => event.hold?.getD (isHeld older)

/-- The mutex was never granted while it was held. -/
def Exclusive : List Event → Prop
  | [] => True
  | event :: older => (event.hold? = some true → isHeld older = false) ∧ Exclusive older

instance decidableExclusive : (events : List Event) → Decidable (Exclusive events)
  | [] => isTrue trivial
  | _ :: older =>
    have := decidableExclusive older
    inferInstanceAs (Decidable (_ ∧ _))

section Events

variable {event : Event} {older : List Event}

theorem Event.hold?_lockTried {timeout : Nat} {answer : LockAnswer} (h : answer ≠ .granted) :
    (Event.lockTried timeout answer).hold? = none := by
  cases answer with
  | granted => exact absurd rfl h
  | wouldBlock => rfl
  | failed error => rfl

theorem isHeld_cons_of_none (h : event.hold? = none) : isHeld (event :: older) = isHeld older := by
  simp [isHeld, h]

theorem exclusive_cons_of_none (h : event.hold? = none) :
    Exclusive (event :: older) ↔ Exclusive older := by
  simp [Exclusive, h]

/-- The mutex was exclusive at every earlier time too. -/
theorem Exclusive.of_suffix {newer : List Event} (h : Exclusive newer) (hsuffix : older <:+ newer) :
    Exclusive older := by
  obtain ⟨events, rfl⟩ := hsuffix
  induction events with
  | nil => exact h
  | cons event events ih => exact ih h.2

end Events

/-! ## Standing -/

namespace Operation

/-- What an operation holds fits the mode it is in. -/
structure Standing (a : Operation) : Prop where
  debt_le : a.clockDebt ≤ 1
  debt_iff : a.clockDebt = 1 ↔ a.holdsMutex = true
  onEngine : ∀ first, a.mode = .hardware first → a.holdsMutex = true
  inSoftware : a.mode = .software → a.holdsMutex = false
  uncommitted : a.mode = .uncommitted → a.holdsMutex = false

theorem standing_fresh (algorithm : Algorithm) : (fresh algorithm).Standing where
  debt_le := Nat.zero_le 1
  debt_iff := by simp [fresh]
  onEngine _ h := by cases h
  inSoftware h := by cases h
  uncommitted _ := rfl

theorem standing_softwareOnly (algorithm : Algorithm) : (softwareOnly algorithm).Standing where
  debt_le := Nat.zero_le 1
  debt_iff := by simp [softwareOnly]
  onEngine _ h := by cases h
  inSoftware _ := rfl
  uncommitted _ := rfl

variable {a : Operation}

/-- Who does not hold the mutex owes nothing. -/
theorem Standing.debt_eq_zero (h : a.Standing) (hnot : a.holdsMutex = false) :
    a.clockDebt = 0 := by
  have hle := h.debt_le
  have hne : a.clockDebt ≠ 1 := fun hone => by simp [h.debt_iff.1 hone] at hnot
  omega

theorem Standing.isHolding_eq (h : a.Standing) (hnot : a.holdsMutex = false) :
    a.isHolding = false := by
  simp [isHolding, hnot, h.debt_eq_zero hnot]

/-- Who holds the mutex owes one disable. -/
theorem Standing.debt_eq_one (h : a.Standing) (hholds : a.holdsMutex = true) :
    a.clockDebt = 1 := h.debt_iff.2 hholds

theorem Standing.holdsMutex_of_isOnEngine (h : a.Standing) (hon : a.isOnEngine = true) :
    a.holdsMutex = true := by
  obtain ⟨_, hmode⟩ := exists_hardware hon
  exact h.onEngine _ hmode

theorem Standing.released (h : a.Standing) : a.released.Standing where
  debt_le := by have := h.debt_le; simp only [Operation.released]; omega
  debt_iff := by have := h.debt_le; simp only [Operation.released]; simp; omega
  onEngine first hmode := by simp only [Operation.released] at hmode; split at hmode <;> cases hmode
  inSoftware _ := rfl
  uncommitted _ := rfl

end Operation

namespace EngineM

variable {a a' : Operation}

/-- Whoever wins owes one disable and holds the mutex; whoever loses does neither. -/
theorem Competed.standing {path : Path} (h : Competed a path a') (ha : a.Standing)
    (hnot : a.holdsMutex = false) : a'.Standing := by
  have hdebt := ha.debt_eq_zero hnot
  cases h with
  | won =>
    constructor <;> simp [hdebt]
  | lost =>
    constructor <;> simp [hdebt, hnot]

theorem Acquired.standing {outcome : Except Fault Path} (h : Acquired a outcome a')
    (ha : a.Standing) : a'.Standing := by
  cases h with
  | refused _ => exact ha
  | chosen hmode hcompeted => exact hcompeted.standing ha (ha.uncommitted hmode)
  | settled _ hcompeted =>
    exact hcompeted.standing (Operation.standing_fresh a.algorithm) rfl

/-- A submission leaves the mutex where it is. -/
theorem Submitted.holdsMutex_eq {settings : Settings} {words : List UInt32}
    {outcome : Except Fault Unit} (h : Submitted settings a words outcome a') :
    a'.holdsMutex = a.holdsMutex := by
  cases h <;> rfl

/-- A submission moves an operation from the engine to the engine, or parks it there. -/
theorem Submitted.standing {settings : Settings} {words : List UInt32}
    {outcome : Except Fault Unit} (h : Submitted settings a words outcome a') (ha : a.Standing) :
    a'.Standing := by
  cases h with
  | refused _ => exact ha
  | misfit _ _ _ => exact ha
  | stuck _ _ => exact ha
  | parked hon _ =>
    have hh := ha.holdsMutex_of_isOnEngine hon
    constructor <;> simp [hh, ha.debt_eq_one hh]
  | taken hon _ =>
    have hh := ha.holdsMutex_of_isOnEngine hon
    constructor <;> simp [hh, ha.debt_eq_one hh]

end EngineM

/-! ## Custody -/

variable {ρ κ μ : Type} {others : Prop} {block : ρ} {mine : Bool} {engine : Engine ρ κ μ}

/-- The engine as one party finds it, as long as the mutex has been exclusive. -/
def Custody (others : Prop) (block : ρ) (mine : Bool) (engine : Engine ρ κ μ) : Prop :=
  Exclusive engine.history →
    (others → mine = false) ∧ (isHeld engine.history = true ↔ others ∨ mine = true) ∧
      (others → engine.registers = block)

/-- Custody sees the registers and what the history says of the mutex. -/
theorem Custody.congr {engine' : Engine ρ κ μ} {event : Event} (h : Custody others block mine engine)
    (hevent : event.hold? = none) (hhistory : engine'.history = event :: engine.history)
    (hregisters : mine = false → engine'.registers = engine.registers) :
    Custody others block mine engine' := by
  intro hexclusive
  rw [hhistory, exclusive_cons_of_none hevent] at hexclusive
  obtain ⟨halone, hheld, hblock⟩ := h hexclusive
  refine ⟨halone, ?_, fun ho => (hregisters (halone ho)).trans (hblock ho)⟩
  rw [hhistory, isHeld_cons_of_none hevent]
  exact hheld

/-- A grant makes a party the holder: as the mutex was free, there is no other. -/
theorem Custody.take {engine' : Engine ρ κ μ} {timeout : Nat}
    (h : Custody others block false engine)
    (hhistory : engine'.history = .lockTried timeout .granted :: engine.history) :
    Custody others block true engine' := by
  intro hexclusive
  rw [hhistory] at hexclusive
  obtain ⟨hfree, hexclusive⟩ := hexclusive
  obtain ⟨-, hheld, -⟩ := h hexclusive
  have hnone : ¬ others := fun ho => by simpa [hfree rfl] using hheld.2 (Or.inl ho)
  refine ⟨fun ho => absurd ho hnone, ?_, fun ho => absurd ho hnone⟩
  rw [hhistory]
  simp [isHeld, Event.hold?]

/-- And an unlock by the holder frees the mutex. -/
theorem Custody.give {engine' : Engine ρ κ μ} (h : Custody others block true engine)
    (hhistory : engine'.history = .unlocked :: engine.history) :
    Custody others block false engine' := by
  intro hexclusive
  rw [hhistory] at hexclusive
  obtain ⟨-, hexclusive⟩ := hexclusive
  obtain ⟨halone, -, -⟩ := h hexclusive
  have hnone : ¬ others := fun ho => by simpa using halone ho
  refine ⟨fun ho => absurd ho hnone, ?_, fun ho => absurd ho hnone⟩
  rw [hhistory]
  simp [isHeld, Event.hold?, hnone]

theorem Custody.keptByClock [GatedClock κ] :
    KeptByClock (Custody (κ := κ) (μ := μ) others block mine) where
  enable h := h.congr rfl rfl fun _ => rfl
  disable h := h.congr rfl rfl fun _ => rfl
  query h := h.congr rfl rfl fun _ => rfl

theorem Custody.note {n : Notice} (h : Custody others block mine engine) :
    Custody others block mine { engine with notices := n :: engine.notices } := h

theorem Custody.keptByCreation [EngineMutex μ] :
    KeptByCreation (Custody (κ := κ) (μ := μ) others block mine) where
  note h := h
  phase _ h := h
  begun h := h.congr rfl rfl fun _ => rfl
  ended h := h.congr rfl rfl fun _ => rfl
  reentered h := h.congr rfl rfl fun _ => rfl
  created h := creationKeeps_of_forall (fun h => h) _ h

/-- The registers are the holder's to use. -/
theorem Custody.keptByAccess [RegisterBlock ρ] :
    KeptByAccess (Custody (κ := κ) (μ := μ) others block true) where
  note h := h
  read h := h.congr rfl rfl fun hnot => by cases hnot
  write h := h.congr rfl rfl fun hnot => by cases hnot
  fence h := h.congr rfl rfl fun hnot => by cases hnot

/-! ## A party's calls -/

/-- A party with its standing in order, and the engine as it finds it. -/
def Party (others : Prop) (block : ρ) (a : Operation) (engine : Engine ρ κ μ) : Prop :=
  a.Standing ∧ Custody others block a.holdsMutex engine

section Calls

variable {a : Operation} [EngineMutex μ]

/-- The holder unlocks and holds no more; anybody else leaves the mutex alone. -/
theorem Custody.unlockOwned (h : Custody others block a.holdsMutex engine) :
    Always (unlockOwned a) engine fun _ e => Custody others block false e := by
  refine Always.ite (fun hholds => ?_) fun hnot => ?_
  · rw [hholds] at h
    simpa using h.give rfl
  · simp only [Bool.not_eq_true] at hnot
    rw [hnot] at h
    simpa using h

variable [GatedClock κ]

theorem Custody.settle (h : Custody others block a.holdsMutex engine) :
    Always (settle a) engine fun _ e => Custody others block false e := by
  simp only [EngineM.settle, always_bind]
  refine (Custody.keptByClock.disableUntilOff _ h).mono fun issued e he =>
    Always.ite (fun _ => ?_) fun _ => ?_
  · simpa using Custody.unlockOwned he.note
  · simpa using Custody.unlockOwned he

theorem Custody.release (h : Custody others block a.holdsMutex engine) :
    Always (release a) engine fun _ e => Custody others block false e := by
  simp only [EngineM.release, always_bind, always_note]
  refine Always.ite (fun _ => ?_) fun _ => ?_
  · have hdisabled := Custody.keptByClock.disable (h.note (n := .releasing a.algorithm))
    simpa using Custody.unlockOwned (a := { a with clockDebt := a.clockDebt - 1 }) hdisabled
  · simpa using Custody.unlockOwned (a := { a with clockDebt := a.clockDebt - 1 }) h.note

/-- **Competing takes the mutex or leaves it alone.** -/
theorem Custody.compete (hnot : a.holdsMutex = false) (h : Custody others block false engine) :
    Always (compete (createMutex 1) a) engine fun r e =>
      Custody others block r.2.holdsMutex e := by
  refine always_compete (Custody.keptByCreation.prepareMutex h) (fun e he hgranted => ?_)
    (fun e notice he hrefused => ?_) fun e he => ?_
  · have htaken : Custody others block true (tried e) := he.take (by rw [tried, hgranted])
    exact (Custody.keptByClock.enable htaken).note
  · have htried : Custody others block false (tried e) :=
      he.congr (Event.hold?_lockTried hrefused) rfl fun _ => rfl
    have hnoted : Custody others block false { tried e with notices := notice :: e.notices } :=
      htried.note
    simpa [hnot] using hnoted
  · simpa [hnot] using he

theorem Custody.acquire (ha : a.Standing) (h : Custody others block a.holdsMutex engine) :
    Always (acquire a) engine fun r e => Custody others block r.2.holdsMutex e := by
  refine always_acquireBy (fun hmode => ?_) (fun hmode => ?_) fun _ => h.note.note
  · have hnot := ha.uncommitted hmode
    rw [hnot] at h
    exact Custody.compete hnot h.note
  · refine ((Custody.settle h.note).and (always_settle a)).mono fun settled e he => ?_
    have hnot : settled.2.holdsMutex = false := by
      rw [he.2]
      rfl
    exact Custody.compete hnot he.1

/-- **Who holds nothing gives nothing back.** A release too many reaches no part of the platform. -/
theorem Operation.Standing.run_release (ha : a.Standing) (hnot : a.holdsMutex = false) :
    ∃ a' notices, (EngineM.release a).run engine = some (a', { engine with notices }) := by
  obtain ⟨algorithm, mode, clockDebt, holdsMutex⟩ := a
  have hdebt : clockDebt = 0 := ha.debt_eq_zero hnot
  subst hdebt
  cases hnot
  exact ⟨_, _, rfl⟩

/-- **The owner gives back both at once**: one disable and the mutex. -/
theorem Operation.Standing.run_release_of_holds (ha : a.Standing) (hholds : a.holdsMutex = true)
    (engine : Engine ρ κ μ) :
    (EngineM.release a).run engine = some (a.released, { engine with
      clock := GatedClock.disable engine.clock
      mutex := EngineMutex.unlock engine.mutex
      history := .unlocked :: .clockDisabled :: engine.history
      notices := .releasing a.algorithm :: engine.notices }) := by
  obtain ⟨algorithm, mode, clockDebt, holdsMutex⟩ := a
  have hdebt : clockDebt = 1 := ha.debt_eq_one hholds
  subst hdebt
  cases hholds
  cases mode <;> rfl

/-- A settlement too many reaches nothing either. -/
theorem Operation.Standing.run_settle (ha : a.Standing) (hnot : a.holdsMutex = false) :
    ∃ r notices, (EngineM.settle a).run engine = some (r, { engine with notices }) := by
  obtain ⟨algorithm, mode, clockDebt, holdsMutex⟩ := a
  have hdebt : clockDebt = 0 := ha.debt_eq_zero hnot
  subst hdebt
  cases hnot
  exact ⟨_, _, rfl⟩

omit [EngineMutex μ] in
/-- One disable that is owed is issued, whether the clock still runs after it or not. -/
theorem run_disableUntilOff_one (engine : Engine ρ κ μ) : (disableUntilOff 1).run engine =
    some (1, { engine with
      clock := (GatedClock.isEnabled (GatedClock.disable engine.clock)).2
      history := .clockQueried (GatedClock.isEnabled (GatedClock.disable engine.clock)).1 ::
        .clockDisabled :: engine.history }) := by
  simp only [disableUntilOff, StateT.run_bind, run_disableClock, run_isClockEnabled,
    Option.bind_eq_bind, Option.bind_some]
  split <;> rfl

/-- **A settlement of the owner gives back both as well**, and asks for the clock in between. -/
theorem Operation.Standing.run_settle_of_holds (ha : a.Standing) (hholds : a.holdsMutex = true)
    (engine : Engine ρ κ μ) : (EngineM.settle a).run engine =
      some (({ owed := 1, issued := 1 }, .fresh a.algorithm), { engine with
        clock := (GatedClock.isEnabled (GatedClock.disable engine.clock)).2
        mutex := EngineMutex.unlock engine.mutex
        history := .unlocked ::
          .clockQueried (GatedClock.isEnabled (GatedClock.disable engine.clock)).1 ::
          .clockDisabled :: engine.history }) := by
  obtain ⟨algorithm, mode, clockDebt, holdsMutex⟩ := a
  have hdebt : clockDebt = 1 := ha.debt_eq_one hholds
  subst hdebt
  cases hholds
  rw [EngineM.settle, StateT.run_bind, run_disableUntilOff_one]
  rfl

variable [RegisterBlock ρ]

omit [EngineMutex μ] [GatedClock κ] in
/-- **The holder alone reaches the registers.** Anybody else is refused before. -/
theorem Custody.submit (ha : a.Standing) (words : List UInt32)
    (h : Custody others block a.holdsMutex engine) :
    Always (submit a words) engine fun r e => Custody others block r.2.holdsMutex e := by
  have hsame : Always (EngineM.submit a words) engine fun r _ =>
      Submitted engine.settings a words r.1 r.2 := submitted_submit a words rfl
  cases hholds : a.holdsMutex with
  | true =>
    rw [hholds] at h
    refine ((Custody.keptByAccess.submit a words h).and hsame).mono fun r e he => ?_
    rw [he.2.holdsMutex_eq, hholds]
    exact he.1
  | false =>
    have hon : a.isOnEngine = false := by
      cases hon : a.isOnEngine with
      | false => rfl
      | true => simp [ha.holdsMutex_of_isOnEngine hon] at hholds
    refine ((always_submit_of_isOnEngine_eq_false words hon).and hsame).mono fun r e he => ?_
    obtain ⟨notices, rfl⟩ := he.1
    rw [he.2.holdsMutex_eq]
    exact h

omit [EngineMutex μ] [GatedClock κ] in
theorem Custody.fetch (ha : a.Standing) (out : List UInt32)
    (h : Custody others block a.holdsMutex engine) :
    Always (fetch a out) engine fun _ e => Custody others block a.holdsMutex e := by
  cases hholds : a.holdsMutex with
  | true =>
    rw [hholds] at h
    exact Custody.keptByAccess.fetch a out h
  | false =>
    have hon : a.isOnEngine = false := by
      cases hon : a.isOnEngine with
      | false => rfl
      | true => simp [ha.holdsMutex_of_isOnEngine hon] at hholds
    refine (always_fetch_of_isOnEngine_eq_false out hon).mono fun r e he => ?_
    obtain ⟨notices, rfl⟩ := he
    rw [← hholds]
    exact h

/-- **A party's calls keep its standing and the custody of the mutex.** -/
theorem keptByCalls_party : KeptByCalls (Party (κ := κ) (μ := μ) others block) where
  note h := h
  acquire h := ((acquired_acquire _).and (Custody.acquire h.1 h.2)).mono fun _ _ he =>
    ⟨he.1.standing h.1, he.2⟩
  submit words h := ((submitted_submit _ words rfl).and (Custody.submit h.1 words h.2)).mono
    fun _ _ he => ⟨he.1.standing h.1, he.2⟩
  fetch out h := (Custody.fetch h.1 out h.2).mono fun _ _ he => ⟨h.1, he⟩
  release h := ((always_release _).and (Custody.release h.2)).mono fun _ _ he =>
    he.1 ▸ ⟨h.1.released, he.2⟩

omit [RegisterBlock ρ] in
/-- And so does a settlement, after which it holds nothing. -/
theorem Party.settle (h : Party others block a engine) :
    Always (settle a) engine fun r e => Party others block r.2 e ∧ r.2.holdsMutex = false := by
  refine ((always_settle a).and (Custody.settle h.2)).mono fun r e he => ?_
  rw [he.1]
  exact ⟨⟨Operation.standing_fresh _, he.2⟩, rfl⟩

end Calls

end HashAccelerator
