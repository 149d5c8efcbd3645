import HashAccelerator.Proofs.Engine.Balance
import HashAccelerator.Proofs.Engine.Discipline
/-!
# Winning the engine

A platform's mutex may refuse for reasons of its own, and then nobody can tell beforehand who will be
given the engine. A plain latch has no such reasons: it is granted whenever it is free, and it says
whether its creation would fail (`PlainLatch`). Over one, an engine is `Winnable` or it is not. Who asks
for an engine that is not winnable is sent to software, and everything that matters to another hash is
left `Undisturbed`. Who asks for a winnable one is given it, and from then on is its `Tenant`: it holds
the mutex and one reference to the clock until it is released, and what it leaves can be won again.
-/

namespace HashAccelerator

open EngineM

/-! ## Plain latches -/

/-- A latch that is granted whenever it is free, and whose creation fails or succeeds as it says. -/
class PlainLatch (μ : Type) [EngineMutex μ] extends LatchedMutex μ where
  /-- The creation of this mutex fails. -/
  failing : μ → Bool
  granted_of_free : ∀ timeout (mutex : μ), locked mutex = false →
    (EngineMutex.tryLock timeout mutex).1 = .granted
  create_eq : ∀ mutex : μ, ∃ outcome mutex', EngineMutex.create mutex = .done outcome mutex' ∧
    (outcome = .ok () ↔ failing mutex = false) ∧ locked mutex' = locked mutex ∧
    failing mutex' = failing mutex

instance : PlainLatch FlagMutex where
  failing _ := false
  granted_of_free timeout mutex (h : mutex.locked = false) := by simp [EngineMutex.tryLock, h]
  create_eq mutex := ⟨_, _, rfl, by simp, rfl, rfl⟩

instance : PlainLatch CountedMutex where
  failing := CountedMutex.failing
  granted_of_free timeout mutex (h : mutex.locked = false) := by simp [EngineMutex.tryLock, h]
  create_eq mutex := by
    refine ⟨_, _, rfl, ?_, rfl, rfl⟩
    cases mutex.failing <;> simp

variable {ρ κ μ : Type} [EngineMutex μ] [PlainLatch μ]

/-- The next operation that asks for the engine will be given it. -/
def Engine.Winnable (e : Engine ρ κ μ) : Prop :=
  LatchedMutex.locked e.mutex = false ∧
    (e.phase = .ready ∨ e.phase = .absent ∧ PlainLatch.failing e.mutex = false)

instance (e : Engine ρ κ μ) : Decidable e.Winnable :=
  inferInstanceAs (Decidable (_ ∧ (_ ∨ _ ∧ _)))

/-- What matters to the holder of the engine, and to those who will ask for it, is as it was. -/
structure Engine.Undisturbed (before after : Engine ρ κ μ) : Prop where
  registers_eq : after.registers = before.registers
  clock_eq : after.clock = before.clock
  settings_eq : after.settings = before.settings
  locked_eq : LatchedMutex.locked after.mutex = LatchedMutex.locked before.mutex
  winnable_iff : after.Winnable ↔ before.Winnable
  ready : before.phase = .ready → after.phase = .ready
  unread : ∃ newer, after.history = newer ++ before.history ∧
    ∀ event ∈ newer, event.isAccess = false

namespace Engine

variable {e e' e'' : Engine ρ κ μ}

/-- With a mutex at hand only the lock counts. -/
theorem winnable_iff_of_ready (h : e.phase = .ready) :
    e.Winnable ↔ LatchedMutex.locked e.mutex = false := by
  simp [Winnable, h]

theorem not_winnable_of_locked (h : LatchedMutex.locked e.mutex = true) : ¬ e.Winnable :=
  fun hwinnable => absurd (h.symm.trans hwinnable.1) (by decide)

namespace Undisturbed

theorem refl (e : Engine ρ κ μ) : e.Undisturbed e :=
  ⟨rfl, rfl, rfl, rfl, Iff.rfl, id, [], rfl, by simp⟩

theorem trans (h : e.Undisturbed e') (h' : e'.Undisturbed e'') : e.Undisturbed e'' where
  registers_eq := h'.registers_eq.trans h.registers_eq
  clock_eq := h'.clock_eq.trans h.clock_eq
  settings_eq := h'.settings_eq.trans h.settings_eq
  locked_eq := h'.locked_eq.trans h.locked_eq
  winnable_iff := h'.winnable_iff.trans h.winnable_iff
  ready hready := h'.ready (h.ready hready)
  unread := by
    obtain ⟨older, hhistory, hunread⟩ := h.unread
    obtain ⟨newer, hhistory', hunread'⟩ := h'.unread
    refine ⟨newer ++ older, by rw [hhistory', hhistory, List.append_assoc], fun event hevent => ?_⟩
    exact (List.mem_append.1 hevent).elim (hunread' event) (hunread event)

/-- An engine that cannot be won stays so. -/
theorem not_winnable (h : e.Undisturbed e') (hlost : ¬ e.Winnable) : ¬ e'.Winnable :=
  fun hwinnable => hlost (h.winnable_iff.1 hwinnable)

/-- Lines of the log disturb nobody. -/
theorem notices (notices : List Notice) : e.Undisturbed { e with notices } :=
  ⟨rfl, rfl, rfl, rfl, Iff.rfl, id, [], rfl, by simp⟩

theorem note (h : e.Undisturbed e') (notice : Notice) :
    e.Undisturbed { e' with notices := notice :: e'.notices } :=
  h.trans (notices _)

/-- Nor does an attempt at a mutex that is locked. -/
theorem tried (hready : e.phase = .ready)
    (hrefused : (EngineMutex.tryLock e.settings.mutexTimeout e.mutex).1 ≠ .granted) :
    e.Undisturbed (EngineM.tried e) where
  registers_eq := rfl
  clock_eq := rfl
  settings_eq := rfl
  locked_eq := LatchedMutex.locked_of_refused _ _ hrefused
  winnable_iff := by
    rw [winnable_iff_of_ready hready, winnable_iff_of_ready (by exact hready)]
    exact Eq.congr_left (LatchedMutex.locked_of_refused _ _ hrefused)
  ready := id
  unread := ⟨[_], rfl, by simp [Event.isAccess]⟩

end Undisturbed

end Engine

namespace EngineM

variable {e : Engine ρ κ μ} {a : Operation}

/-! ## Asking for the engine -/

section Asking

variable [GatedClock κ]

/-- **Making the mutex usable disturbs nobody**, and shows whether the engine can be won. -/
theorem always_prepareMutex_undisturbed :
    Always (prepareMutex (createMutex 1)) e fun usable e' => e.Undisturbed e' ∧
      (usable = true → e'.phase = .ready) ∧ (usable = false → ¬ e'.Winnable) := by
  simp only [prepareMutex, always_bind, always_get]
  cases hphase : e.phase with
  | ready =>
    rw [always_pure]
    exact ⟨.refl e, fun _ => hphase, by simp⟩
  | creating =>
    rw [always_pure]
    exact ⟨.refl e, by simp, fun _ => by simp [Engine.Winnable, hphase]⟩
  | absent =>
    obtain ⟨outcome, mutex, hcreate, houtcome, hlocked, hfailing⟩ := PlainLatch.create_eq e.mutex
    simp only [always_bind, always_modify, createMutex, always_record, always_get, hcreate, follow,
      always_pure]
    cases outcome with
    | ok =>
      have hfails := houtcome.1 rfl
      simp only [always_bind, always_modify, always_pure]
      refine ⟨⟨rfl, rfl, rfl, hlocked, ?_, fun _ => rfl, [_, _], rfl, ?_⟩, by simp, by simp⟩
      · simp [Engine.Winnable, hphase, hlocked, hfails]
      · simp [Event.isAccess]
    | error error =>
      have hfails : PlainLatch.failing e.mutex = true := by
        cases hfailing : PlainLatch.failing e.mutex with
        | true => rfl
        | false => exact absurd (houtcome.2 hfailing) (by simp)
      have hlost : ∀ notices history, ¬ Engine.Winnable ({ e with
          mutex, phase := .absent, notices, history } : Engine ρ κ μ) := fun _ _ h => by
        simp [Engine.Winnable, hfailing, hfails] at h
      simp only [always_bind, always_modify, always_note, always_pure]
      refine ⟨⟨rfl, rfl, rfl, hlocked, ?_, by simp [hphase], [_, _], rfl, ?_⟩, by simp,
        fun _ => hlost _ _⟩
      · simp [Engine.Winnable, hphase, hlocked, hfailing, hfails]
      · simp [Event.isAccess]

/-- **An engine that cannot be won** sends who asks for it to software, and nobody is disturbed. -/
theorem always_acquire_lost (hmode : a.mode = .uncommitted) (h : ¬ e.Winnable) :
    Always (acquire a) e fun r e' =>
      r = (.ok .software, { a with mode := .software }) ∧ e.Undisturbed e' := by
  refine always_acquireBy (fun _ => ?_) (fun hunsettled => by simp [hmode] at hunsettled)
    fun hcommitted => by simp [Operation.isOnEngine, hmode] at hcommitted
  have hasked := Engine.Undisturbed.notices (e := e) (.acquiring a.algorithm :: e.notices)
  refine always_compete always_prepareMutex_undisturbed (fun e' he hgranted => ?_)
    (fun e' notice he hrefused => ?_) fun e' he => ?_
  · obtain ⟨hsame, hready, -⟩ := he
    have hfree := (LatchedMutex.locked_of_granted _ _ hgranted).1
    have hwinnable := (Engine.winnable_iff_of_ready (hready rfl)).2 hfree
    exact absurd ((hasked.trans hsame).winnable_iff.1 hwinnable) h
  · obtain ⟨hsame, hready, -⟩ := he
    exact ⟨rfl, ((hasked.trans hsame).trans (.tried (hready rfl) hrefused)).note notice⟩
  · exact ⟨rfl, hasked.trans he.1⟩

/-- Who has a path already is refused. -/
theorem always_acquire_refused (hcommitted : a.isOnEngine = true ∨ a.mode = .software) :
    Always (acquire a) e fun r e' => r = (.error .alreadyCommitted, a) ∧ e.Undisturbed e' := by
  refine always_acquireBy (fun hmode => ?_) (fun hmode => ?_) fun _ => ⟨rfl, .notices _⟩
  · simp [Operation.isOnEngine, hmode] at hcommitted
  · simp [Operation.isOnEngine, hmode] at hcommitted

/-- **An engine that can be won is won** by who asks for it. -/
theorem always_acquire_won (hmode : a.mode = .uncommitted) (h : e.Winnable) :
    Always (acquire a) e fun r e' =>
      r = (.ok .hardware, { a with
        mode := .hardware true
        clockDebt := a.clockDebt + 1
        holdsMutex := true }) ∧
      e'.registers = e.registers ∧ e'.settings = e.settings ∧
      e'.clock = GatedClock.enable e.clock ∧
      LatchedMutex.locked e'.mutex = true ∧ e'.phase = .ready := by
  refine always_acquireBy (fun _ => ?_) (fun hunsettled => by simp [hmode] at hunsettled)
    fun hcommitted => by simp [Operation.isOnEngine, hmode] at hcommitted
  have hasked := Engine.Undisturbed.notices (e := e) (.acquiring a.algorithm :: e.notices)
  refine always_compete always_prepareMutex_undisturbed (fun e' he hgranted => ?_)
    (fun e' notice he hrefused => ?_) fun e' he => ?_
  · obtain ⟨hsame, hready, -⟩ := he
    have hsince := hasked.trans hsame
    exact ⟨rfl, hsince.registers_eq, hsince.settings_eq, congrArg GatedClock.enable hsince.clock_eq,
      (LatchedMutex.locked_of_granted _ _ hgranted).2, hready rfl⟩
  · obtain ⟨hsame, -, -⟩ := he
    have hfree := ((hasked.trans hsame).winnable_iff.2 h).1
    exact absurd (PlainLatch.granted_of_free _ _ hfree) hrefused
  · obtain ⟨hsame, -, hlost⟩ := he
    exact absurd ((hasked.trans hsame).winnable_iff.2 h) (hlost rfl)

/-- Who holds nothing may be released without disturbing anybody. -/
theorem always_release_free (ha : a.Standing) (hfree : a.holdsMutex = false) :
    Always (release a) e fun _ e' => e.Undisturbed e' := by
  obtain ⟨a', notices, hrun⟩ : ∃ a' notices, (release a).run e = some (a', { e with notices }) :=
    ha.run_release hfree
  rw [always_iff_of_run hrun]
  exact .notices notices

end Asking

end EngineM

/-! ## The tenant -/

/-- An operation that has the engine to itself, with so many other users of the clock: it holds what
there is to hold, or the engine can be won. -/
structure Tenant (others : Nat) (a : Operation) (e : Engine ρ CountedClock μ) : Prop where
  standing : a.Standing
  holding : a.holdsMutex = true → LatchedMutex.locked e.mutex = true ∧ e.phase = .ready ∧
    e.clock.count.toNat = others + 1
  waiting : a.holdsMutex = false → e.Winnable ∧ e.clock.count.toNat = others

namespace Tenant

variable {others : Nat} {a : Operation} {e e' : Engine ρ CountedClock μ}

/-- An engine that can be won has a tenant in anybody who does not hold it. -/
theorem newcomer (ha : a.Standing) (hfree : a.holdsMutex = false) (h : e.Winnable)
    (hcount : e.clock.count.toNat = others) : Tenant others a e where
  standing := ha
  holding hholds := by simp [hfree] at hholds
  waiting _ := ⟨h, hcount⟩

/-- Who does not disturb the tenant leaves it what it holds. -/
theorem undisturbed (h : Tenant others a e) (hsame : e.Undisturbed e') : Tenant others a e' where
  standing := h.standing
  holding hholds := by
    obtain ⟨hlocked, hready, hcount⟩ := h.holding hholds
    exact ⟨hsame.locked_eq.trans hlocked, hsame.ready hready, by rw [hsame.clock_eq, hcount]⟩
  waiting hfree := by
    obtain ⟨hwinnable, hcount⟩ := h.waiting hfree
    exact ⟨hsame.winnable_iff.2 hwinnable, by rw [hsame.clock_eq, hcount]⟩

/-- While it holds the engine nobody else can win it. -/
theorem not_winnable (h : Tenant others a e) (hholds : a.holdsMutex = true) : ¬ e.Winnable :=
  Engine.not_winnable_of_locked (h.holding hholds).1

/-- The registers are none of what a tenant holds. -/
theorem keptByAccess [RegisterBlock ρ] :
    KeptByAccess (Tenant (ρ := ρ) (μ := μ) others a) where
  note h := ⟨h.standing, h.holding, h.waiting⟩
  read h := ⟨h.standing, h.holding, h.waiting⟩
  write h := ⟨h.standing, h.holding, h.waiting⟩
  fence h := ⟨h.standing, h.holding, h.waiting⟩

/-- Nor does a tenant that submits a block come to hold anything else. -/
theorem submit [RegisterBlock ρ] (h : Tenant others a e) (words : List UInt32) :
    Always (EngineM.submit a words) e fun r e' => Tenant others r.2 e' := by
  refine ((submitted_submit a words rfl).and (keptByAccess.submit a words h)).mono fun r e' he => ?_
  obtain ⟨hsubmitted, hkept⟩ := he
  have hholds := hsubmitted.holdsMutex_eq
  exact ⟨hsubmitted.standing h.standing, hholds ▸ hkept.holding, hholds ▸ hkept.waiting⟩

/-- **The tenant is given the engine** when it asks for it. -/
theorem acquire (hroom : others < clockRoom) (hmode : a.mode = .uncommitted)
    (h : Tenant others a e) : Always (EngineM.acquire a) e fun r e' =>
      r = (.ok .hardware, { a with
        mode := .hardware true
        clockDebt := a.clockDebt + 1
        holdsMutex := true }) ∧
      Tenant others r.2 e' ∧ e'.registers = e.registers ∧ e'.settings = e.settings := by
  have hfree := h.standing.uncommitted hmode
  obtain ⟨hwinnable, hcount⟩ := h.waiting hfree
  refine ((acquired_acquire a).and (always_acquire_won hmode hwinnable)).mono fun r e' he => ?_
  obtain ⟨hacquired, rfl, hregisters, hsettings, hclock, hlocked, hready⟩ := he
  have henabled : e'.clock.count.toNat = others + 1 := by
    rw [hclock]
    show (e.clock.count + 1).toNat = others + 1
    rw [UInt32.toNat_add, hcount]
    simp only [clockRoom] at hroom
    exact Nat.mod_eq_of_lt (by simp; omega)
  refine ⟨rfl, ⟨hacquired.standing h.standing, fun _ => ⟨hlocked, hready, henabled⟩, ?_⟩, hregisters,
    hsettings⟩
  exact fun hfree => by cases hfree

/-- **What a tenant is released from is there to be won again.** -/
theorem release (h : Tenant others a e) : Always (EngineM.release a) e fun a' e' =>
    Tenant others a' e' ∧ e'.registers = e.registers ∧ e'.settings = e.settings := by
  cases hholds : a.holdsMutex with
  | false =>
    obtain ⟨a', notices, hrun⟩ : ∃ a' notices, (EngineM.release a).run e =
        some (a', { e with notices }) := h.standing.run_release hholds
    have hreleased := (always_iff_of_run hrun).1 (always_release a)
    rw [always_iff_of_run hrun, hreleased]
    obtain ⟨hwinnable, hcount⟩ := h.waiting hholds
    exact ⟨newcomer h.standing.released rfl hwinnable hcount, rfl, rfl⟩
  | true =>
    rw [always_iff_of_run (h.standing.run_release_of_holds hholds e)]
    obtain ⟨-, hready, hcount⟩ := h.holding hholds
    refine ⟨newcomer h.standing.released rfl ?_ ?_, rfl, rfl⟩
    · exact ⟨LatchedMutex.locked_unlock e.mutex, Or.inl hready⟩
    · exact (e.clock.toNat_count_disable).trans (by rw [hcount]; rfl)

end Tenant

end HashAccelerator
