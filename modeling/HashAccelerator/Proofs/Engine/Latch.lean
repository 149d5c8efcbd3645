import HashAccelerator.Platform.Mutex
import HashAccelerator.Proofs.Engine.Custody
/-!
# Mutexes that are latches

Nothing obliges a platform's mutex to be granted to one owner at a time, so what rests on it is said
of histories in which it was (`Exclusive`). A mutex that is a latch has no other histories: whatever
calls are made, by whomever, it is locked exactly when the history has it held, and it is granted
only when it is free (`Latched.kept`).
-/

namespace HashAccelerator

open EngineM

/-- A mutex that is locked or free, and is granted only when it is free. It may still refuse. -/
class LatchedMutex (μ : Type) [EngineMutex μ] where
  locked : μ → Bool
  locked_create : ∀ mutex : μ, ∃ outcome mutex', EngineMutex.create mutex = .done outcome mutex' ∧
    locked mutex' = locked mutex
  locked_of_granted : ∀ timeout (mutex : μ), (EngineMutex.tryLock timeout mutex).1 = .granted →
    locked mutex = false ∧ locked (EngineMutex.tryLock timeout mutex).2 = true
  locked_of_refused : ∀ timeout (mutex : μ), (EngineMutex.tryLock timeout mutex).1 ≠ .granted →
    locked (EngineMutex.tryLock timeout mutex).2 = locked mutex
  locked_unlock : ∀ mutex : μ, locked (EngineMutex.unlock mutex) = false

instance : LatchedMutex FlagMutex where
  locked := FlagMutex.locked
  locked_create mutex := ⟨_, _, rfl, rfl⟩
  locked_of_granted timeout mutex h := by
    cases hlocked : mutex.locked with
    | true => simp [EngineMutex.tryLock, hlocked] at h
    | false => simp [EngineMutex.tryLock, hlocked]
  locked_of_refused timeout mutex h := by
    cases hlocked : mutex.locked with
    | true => simp [EngineMutex.tryLock, hlocked]
    | false => simp [EngineMutex.tryLock, hlocked] at h
  locked_unlock _ := rfl

instance : LatchedMutex CountedMutex where
  locked := CountedMutex.locked
  locked_create mutex := ⟨_, _, rfl, rfl⟩
  locked_of_granted timeout mutex h := by
    cases hlocked : mutex.locked with
    | true => simp [EngineMutex.tryLock, hlocked] at h
    | false => simp [EngineMutex.tryLock, hlocked]
  locked_of_refused timeout mutex h := by
    cases hlocked : mutex.locked with
    | true => simp [EngineMutex.tryLock, hlocked]
    | false => simp [EngineMutex.tryLock, hlocked] at h
  locked_unlock _ := rfl

/-- The mutex was exclusive, and it is locked as its history says. -/
structure Latched {ρ κ μ : Type} [EngineMutex μ] [LatchedMutex μ] (e : Engine ρ κ μ) : Prop where
  exclusive : Exclusive e.history
  locked : LatchedMutex.locked e.mutex = isHeld e.history

section Latched

variable {ρ κ μ : Type} [EngineMutex μ] [LatchedMutex μ] {e e' : Engine ρ κ μ}

theorem latched_of_unused (hunused : e.history = []) (hfree : LatchedMutex.locked e.mutex = false) :
    Latched e where
  exclusive := by
    rw [hunused]
    trivial
  locked := by
    rw [hunused, hfree]
    rfl

/-- What does not concern the mutex leaves it latched. -/
theorem Latched.quiet {event : Event} (h : Latched e) (hevent : event.hold? = none)
    (hhistory : e'.history = event :: e.history)
    (hlocked : LatchedMutex.locked e'.mutex = LatchedMutex.locked e.mutex) : Latched e' where
  exclusive := by
    rw [hhistory, exclusive_cons_of_none hevent]
    exact h.exclusive
  locked := by rw [hlocked, hhistory, isHeld_cons_of_none hevent, h.locked]

/-- An attempt to lock, with either outcome. -/
theorem Latched.try (h : Latched e) (timeout : Nat) : Latched { e with
    mutex := (EngineMutex.tryLock timeout e.mutex).2
    history := .lockTried timeout (EngineMutex.tryLock timeout e.mutex).1 :: e.history } := by
  by_cases hgranted : (EngineMutex.tryLock timeout e.mutex).1 = .granted
  · obtain ⟨hfree, hlocked⟩ := LatchedMutex.locked_of_granted timeout e.mutex hgranted
    have hheld : isHeld e.history = false := h.locked.symm.trans hfree
    refine ⟨⟨fun _ => hheld, h.exclusive⟩, hlocked.trans ?_⟩
    rw [hgranted]
    rfl
  · exact h.quiet (Event.hold?_lockTried hgranted) rfl
      (LatchedMutex.locked_of_refused timeout e.mutex hgranted)

/-- **A latch has exclusive histories only.** -/
theorem Latched.kept [RegisterBlock ρ] [GatedClock κ] :
    Kept (Latched (ρ := ρ) (κ := κ) (μ := μ)) where
  note h := ⟨h.exclusive, h.locked⟩
  read h := h.quiet rfl rfl rfl
  write h := h.quiet rfl rfl rfl
  fence h := h.quiet rfl rfl rfl
  phase _ h := ⟨h.exclusive, h.locked⟩
  begun h := h.quiet rfl rfl rfl
  ended h := h.quiet rfl rfl rfl
  reentered h := h.quiet rfl rfl rfl
  created {e} h := by
    obtain ⟨outcome, mutex, hcreate, hlocked⟩ := LatchedMutex.locked_create e.mutex
    rw [hcreate]
    exact ⟨h.exclusive, hlocked.trans h.locked⟩
  enable h := h.quiet rfl rfl rfl
  disable h := h.quiet rfl rfl rfl
  query h := h.quiet rfl rfl rfl
  tried {e t} h := h.try t
  unlocked {e} h := ⟨⟨(fun h => by cases h), h.exclusive⟩, LatchedMutex.locked_unlock e.mutex⟩

end Latched

end HashAccelerator
