import HashAccelerator.Platform.Clock
import HashAccelerator.Proofs.Engine.Latch
/-!
# The balance of the clock

The clock counts its users, and the engine shares it with drivers that know nothing of the engine.
With a mutex that is a latch, the count is what those drivers are owed, and one more while the mutex
is held (`Balanced`). The two are not changed at once: between the grant and the enable, and between
the disable and the unlock, the holder is not counted (`Uncounted`). A call of a party begins and
ends in balance, so whoever looks between two calls finds it.
-/

namespace HashAccelerator

open EngineM

/-- How many drivers may use the clock besides the engine before its count wraps. -/
def clockRoom : Nat := 0xFFFFFFFF

variable {ρ μ : Type} [EngineMutex μ] [LatchedMutex μ] {foreign : Nat}
variable {e e' : Engine ρ CountedClock μ}

/-- A disable takes one user off the count, down to none. -/
theorem CountedClock.toNat_count_disable (clock : CountedClock) :
    (GatedClock.disable clock).count.toNat = clock.count.toNat - 1 := by
  by_cases hzero : clock.count = 0
  · simp [GatedClock.disable, hzero]
  · have hne : clock.count.toNat ≠ 0 := fun h => hzero (UInt32.toNat_inj.1 h)
    have hone : (1 : UInt32) ≤ clock.count := by
      rw [UInt32.le_iff_toNat_le]
      exact Nat.one_le_iff_ne_zero.2 hne
    simp only [GatedClock.disable, if_neg hzero]
    exact UInt32.toNat_sub_of_le _ _ hone

/-- The clock counts the other drivers and the holder of the mutex. -/
structure Balanced (foreign : Nat) (e : Engine ρ CountedClock μ) : Prop extends Latched e where
  count : e.clock.count.toNat = foreign + (isHeld e.history).toNat

/-- The mutex is held, and the clock does not count the holder. -/
structure Uncounted (foreign : Nat) (e : Engine ρ CountedClock μ) : Prop extends Latched e where
  held : isHeld e.history = true
  count : e.clock.count.toNat = foreign

/-! ## In and out of balance -/

/-- What touches neither the clock nor the lock leaves the balance alone. -/
theorem Balanced.quiet {event : Event} (h : Balanced foreign e) (hevent : event.hold? = none)
    (hhistory : e'.history = event :: e.history)
    (hlocked : LatchedMutex.locked e'.mutex = LatchedMutex.locked e.mutex)
    (hclock : e'.clock = e.clock) : Balanced foreign e' where
  toLatched := h.toLatched.quiet hevent hhistory hlocked
  count := by rw [hclock, hhistory, isHeld_cons_of_none hevent, h.count]

theorem Balanced.note {n : Notice} (h : Balanced foreign e) :
    Balanced foreign { e with notices := n :: e.notices } :=
  ⟨⟨h.exclusive, h.locked⟩, h.count⟩

/-- A grant. -/
theorem Balanced.grant {timeout : Nat} (h : Balanced foreign e)
    (hgranted : (EngineMutex.tryLock timeout e.mutex).1 = .granted) :
    Uncounted foreign { e with
      mutex := (EngineMutex.tryLock timeout e.mutex).2
      history := .lockTried timeout .granted :: e.history } := by
  have hlatched := h.toLatched.try timeout
  rw [hgranted] at hlatched
  have hheld : isHeld e.history = false := hlatched.exclusive.1 rfl
  have hcount := h.count
  rw [hheld] at hcount
  exact ⟨hlatched, rfl, hcount⟩

/-- The new holder enables the clock. -/
theorem Uncounted.enable (h : Uncounted foreign e) (hroom : foreign < clockRoom) :
    Balanced foreign { e with
      clock := GatedClock.enable e.clock
      history := .clockEnabled :: e.history } where
  toLatched := h.toLatched.quiet rfl rfl rfl
  count := by
    have hcount : (e.clock.count + 1).toNat = foreign + 1 := by
      rw [UInt32.toNat_add, h.count]
      simp only [clockRoom] at hroom
      exact Nat.mod_eq_of_lt (by simp; omega)
    rw [show isHeld (.clockEnabled :: e.history) = true from h.held]
    exact hcount

/-- The holder disables the clock. -/
theorem Balanced.disable (h : Balanced foreign e) (hheld : isHeld e.history = true) :
    Uncounted foreign { e with
      clock := GatedClock.disable e.clock
      history := .clockDisabled :: e.history } where
  toLatched := h.toLatched.quiet rfl rfl rfl
  held := hheld
  count := by
    have hcount := h.count
    rw [hheld] at hcount
    exact (e.clock.toNat_count_disable).trans (congrArg (· - 1) hcount)

/-- It may ask whether the clock still runs. -/
theorem Uncounted.query (h : Uncounted foreign e) : Uncounted foreign { e with
    clock := (GatedClock.isEnabled e.clock).2
    history := .clockQueried (GatedClock.isEnabled e.clock).1 :: e.history } :=
  ⟨h.toLatched.quiet rfl rfl rfl, h.held, h.count⟩

/-- And it unlocks. -/
theorem Uncounted.unlock (h : Uncounted foreign e) : Balanced foreign { e with
    mutex := EngineMutex.unlock e.mutex
    history := .unlocked :: e.history } where
  toLatched := ⟨⟨(fun h => by cases h), h.exclusive⟩, LatchedMutex.locked_unlock e.mutex⟩
  count := h.count

/-- Another driver begins to use the clock. -/
theorem Balanced.join (h : Balanced foreign e) (hroom : foreign + 1 < clockRoom) :
    Balanced (foreign + 1) { e with
      clock := GatedClock.enable e.clock
      history := .clockEnabled :: e.history } where
  toLatched := h.toLatched.quiet rfl rfl rfl
  count := by
    rw [show isHeld (.clockEnabled :: e.history) = isHeld e.history from rfl]
    have hheld : (isHeld e.history).toNat ≤ 1 := Bool.toNat_le _
    have hcount : (e.clock.count + 1).toNat = e.clock.count.toNat + 1 := by
      rw [UInt32.toNat_add]
      simp only [clockRoom] at hroom
      exact Nat.mod_eq_of_lt (by rw [h.count]; simp; omega)
    exact hcount.trans (by rw [h.count]; omega)

/-- And one that did ceases to. -/
theorem Balanced.leave (h : Balanced (foreign + 1) e) : Balanced foreign { e with
    clock := GatedClock.disable e.clock
    history := .clockDisabled :: e.history } where
  toLatched := h.toLatched.quiet rfl rfl rfl
  count := by
    rw [show isHeld (.clockDisabled :: e.history) = isHeld e.history from rfl]
    have hcount := h.count
    exact (e.clock.toNat_count_disable).trans (by omega)

theorem Balanced.keptByAccess [RegisterBlock ρ] : KeptByAccess (Balanced (ρ := ρ) (μ := μ) foreign)
    where
  note h := h.note
  read h := h.quiet rfl rfl rfl rfl
  write h := h.quiet rfl rfl rfl rfl
  fence h := h.quiet rfl rfl rfl rfl

theorem Balanced.keptByCreation : KeptByCreation (Balanced (ρ := ρ) (μ := μ) foreign) where
  note h := h.note
  phase _ h := ⟨⟨h.exclusive, h.locked⟩, h.count⟩
  begun h := h.quiet rfl rfl rfl rfl
  ended h := h.quiet rfl rfl rfl rfl
  reentered h := h.quiet rfl rfl rfl rfl
  created {e} h := by
    obtain ⟨outcome, mutex, hcreate, hlocked⟩ := LatchedMutex.locked_create e.mutex
    rw [hcreate]
    exact ⟨⟨h.exclusive, hlocked.trans h.locked⟩, h.count⟩

/-! ## A party's calls -/

section Calls

variable {others : Prop} {block : ρ} {a : Operation}

omit [EngineMutex μ] [LatchedMutex μ] in
/-- Who holds the mutex is known to the history. -/
theorem Custody.isHeld_eq {κ : Type} {e : Engine ρ κ μ} (h : Custody others block true e)
    (hexclusive : Exclusive e.history) : isHeld e.history = true :=
  (h hexclusive).2.1.2 (Or.inr rfl)

/-- **Settling takes the clock and the mutex back together**, or neither. -/
theorem Balanced.settle (hparty : Party others block a e) (h : Balanced foreign e) :
    Always (settle a) e fun _ e' => Balanced foreign e' := by
  obtain ⟨ha, hcustody⟩ := hparty
  cases hholds : a.holdsMutex with
  | false =>
    obtain ⟨r, notices, hrun⟩ : ∃ r notices,
        (EngineM.settle a).run e = some (r, { e with notices }) := ha.run_settle hholds
    exact (always_iff_of_run hrun).2 ⟨⟨h.exclusive, h.locked⟩, h.count⟩
  | true =>
    rw [hholds] at hcustody
    have hpaid := (h.disable (hcustody.isHeld_eq h.exclusive)).query
    exact (always_iff_of_run (ha.run_settle_of_holds hholds e)).2 hpaid.unlock

/-- **Releasing does so too.** -/
theorem Balanced.release (hparty : Party others block a e) (h : Balanced foreign e) :
    Always (release a) e fun _ e' => Balanced foreign e' := by
  obtain ⟨ha, hcustody⟩ := hparty
  simp only [EngineM.release, always_bind, always_note]
  cases hholds : a.holdsMutex with
  | false =>
    rw [ha.debt_eq_zero hholds]
    simpa [EngineM.unlockOwned, hholds] using h.note
  | true =>
    rw [hholds] at hcustody
    rw [ha.debt_eq_one hholds]
    have hpaid := (h.note (n := .releasing a.algorithm)).disable (hcustody.isHeld_eq h.exclusive)
    simpa [EngineM.unlockOwned, hholds] using hpaid.unlock

/-- **A grant is paid for at once**, and without a grant nothing changes. -/
theorem Balanced.compete (h : Balanced foreign e) (hroom : foreign < clockRoom) :
    Always (compete (createMutex 1) a) e fun _ e' => Balanced foreign e' := by
  refine always_compete (Balanced.keptByCreation.prepareMutex h) (fun e he hgranted => ?_)
    (fun e notice he hrefused => ?_) fun e he => he
  · have hpaid := (he.grant hgranted).enable hroom
    rw [← hgranted] at hpaid
    exact hpaid.note
  · have htried : Balanced foreign (tried e) := he.quiet (Event.hold?_lockTried hrefused) rfl
      (LatchedMutex.locked_of_refused _ _ hrefused) rfl
    exact htried.note

theorem Balanced.acquire (hparty : Party others block a e) (h : Balanced foreign e)
    (hroom : foreign < clockRoom) : Always (acquire a) e fun _ e' => Balanced foreign e' := by
  have hnoted := h.note (n := .acquiring a.algorithm)
  refine always_acquireBy (fun _ => hnoted.compete hroom) (fun _ => ?_) fun _ => hnoted.note
  have hparty' : Party others block a { e with notices := .acquiring a.algorithm :: e.notices } :=
    ⟨hparty.1, hparty.2.note⟩
  exact (Balanced.settle hparty' hnoted).mono fun settled e he => he.compete hroom

/-- **A party's calls keep the balance.** -/
theorem keptByCalls_balanced [RegisterBlock ρ] (hroom : foreign < clockRoom) :
    KeptByCalls fun a e => Party others block a e ∧ Balanced (ρ := ρ) (μ := μ) foreign e where
  note h := ⟨keptByCalls_party.note h.1, h.2.note⟩
  acquire h := (keptByCalls_party.acquire h.1).and (h.2.acquire h.1 hroom)
  submit words h := (keptByCalls_party.submit words h.1).and
    (Balanced.keptByAccess.submit _ words h.2)
  fetch out h := (keptByCalls_party.fetch out h.1).and (Balanced.keptByAccess.fetch _ out h.2)
  release h := (keptByCalls_party.release h.1).and (h.2.release h.1)

end Calls

end HashAccelerator
