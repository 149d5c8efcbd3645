import HashAccelerator.Proofs.Peripheral.Hashing
import HashAccelerator.Proofs.Peripheral.Stalls
import HashAccelerator.Proofs.Stream.Aside
/-!
# Streams that have the simulated accelerator to themselves

A stream that begins while the engine can be won, and for whose algorithm there is a unit, is `Lodged`
there: its first block wins the engine, and from then on the accelerator works for it alone. If the
accelerator is waited for in time the stream answers the standard's digest of its message, and if it is
not, no digest; and either way the engine is left at rest as it was found (`Lodged.always_finish`).
-/

namespace HashAccelerator

open EngineM

variable {μ : Type} [EngineMutex μ] [PlainLatch μ]
variable {before e e' : Engine Peripheral CountedClock μ}

/-! ## At rest -/

/-- The engine can be won, its clock is used by as many as it was, and the accelerator is waited for as
it was. -/
structure Engine.Rested (before after : Engine Peripheral CountedClock μ) : Prop where
  winnable : after.Winnable
  count_eq : after.clock.count.toNat = before.clock.count.toNat
  pace : before.SamePace after

namespace Engine.Rested

theorem refl (hwinnable : e.Winnable) (hremaining : e.registers.remaining ≤ e.registers.latency) :
    e.Rested e :=
  ⟨hwinnable, rfl, ⟨rfl, rfl, rfl⟩, hremaining⟩

/-- Who disturbs nobody leaves it at rest. -/
theorem undisturbed (h : before.Rested e) (hsame : e.Undisturbed e') : before.Rested e' where
  winnable := hsame.winnable_iff.2 h.winnable
  count_eq := by rw [hsame.clock_eq, h.count_eq]
  pace := h.pace.quiet hsame.settings_eq hsame.registers_eq

end Engine.Rested

/-- An operation that had the engine to itself, since a time when it was at rest. -/
structure Lodger (before : Engine Peripheral CountedClock μ) (a : Operation)
    (e : Engine Peripheral CountedClock μ) : Prop
    extends Tenant before.clock.count.toNat a e where
  pace : before.SamePace e

/-- Whoever holds nothing may begin to have the engine to itself. -/
theorem Engine.Rested.lodger {a : Operation} (h : before.Rested e) (ha : a.Standing)
    (hfree : a.holdsMutex = false) : Lodger before a e :=
  ⟨.newcomer ha hfree h.winnable h.count_eq, h.pace⟩

namespace Lodger

variable {a : Operation}

/-- Once it holds nothing any more, the engine is at rest again. -/
theorem rested (h : Lodger before a e) (hfree : a.holdsMutex = false) : before.Rested e :=
  ⟨(h.waiting hfree).1, (h.waiting hfree).2, h.pace⟩

theorem undisturbed (h : Lodger before a e) (hsame : e.Undisturbed e') : Lodger before a e' :=
  ⟨h.toTenant.undisturbed hsame, h.pace.quiet hsame.settings_eq hsame.registers_eq⟩

/-- Asking for the engine leaves the accelerator alone. -/
theorem acquire (hroom : before.clock.count.toNat < clockRoom) (hmode : a.mode = .uncommitted)
    (h : Lodger before a e) : Always (EngineM.acquire a) e fun r e' =>
      r = (.ok .hardware, { a with
        mode := .hardware true
        clockDebt := a.clockDebt + 1
        holdsMutex := true }) ∧ Lodger before r.2 e' :=
  (h.toTenant.acquire hroom hmode).mono fun _ _ he =>
    ⟨he.1, he.2.1, h.pace.quiet he.2.2.2 he.2.2.1⟩

/-- The release gives everything back, and leaves the accelerator alone. -/
theorem release (h : Lodger before a e) :
    Always (EngineM.release a) e fun a' e' => Lodger before a' e' :=
  h.toTenant.release.mono fun _ _ he => ⟨he.1, h.pace.quiet he.2.2 he.2.1⟩

theorem keptByAccess : KeptByAccess (Lodger before a) where
  note h := ⟨Tenant.keptByAccess.note h.1, (kept_paced _).note h.2⟩
  read h := ⟨Tenant.keptByAccess.read h.1, (kept_paced _).read h.2⟩
  write h := ⟨Tenant.keptByAccess.write h.1, (kept_paced _).write h.2⟩
  fence h := ⟨Tenant.keptByAccess.fence h.1, (kept_paced _).fence h.2⟩

end Lodger

/-! ## Streams -/

/-- An operation that has the engine to itself, with its blocks: none before it has won the engine, and
from then on all of them are with the accelerator. -/
def Lodged (before : Engine Peripheral CountedClock μ) (a : Operation) (chain : Chain)
    (blocks : List (List UInt8)) (e : Engine Peripheral CountedClock μ) : Prop :=
  (Viable a chain blocks ∧ a.mode ≠ .software ∧ Lodger before a e ∧ Running before a e) ∧
    Hashed a chain blocks e

/-- An operation that has the engine to itself, and was not waited for. -/
def Forfeited (before : Engine Peripheral CountedClock μ) (a : Operation)
    (e : Engine Peripheral CountedClock μ) : Prop :=
  ¬ before.InTime ∧ Lodger before a e

/-- How the end of a message is answered: by the expected digest if the accelerator is waited for in
time, and by none if it is not. -/
structure AnswersInTime (before : Engine Peripheral CountedClock μ)
    (expected outcome : Except Fault (List UInt8)) : Prop where
  digest : before.InTime → ∃ digest, outcome = .ok digest ∧ expected = .ok digest
  fault : ¬ before.InTime → ∀ digest, outcome ≠ .ok digest

omit [EngineMutex μ] [PlainLatch μ] in
/-- So whether it is answered tells whether it was waited for. -/
theorem AnswersInTime.answers_iff {expected outcome : Except Fault (List UInt8)}
    (h : AnswersInTime before expected outcome) :
    (∃ digest, outcome = .ok digest) ↔ before.InTime := by
  constructor
  · intro hanswered
    obtain ⟨digest, hdigest⟩ := hanswered
    exact Decidable.byContradiction fun hlate => h.fault hlate digest hdigest
  · intro hin
    obtain ⟨digest, hdigest, -⟩ := h.digest hin
    exact ⟨digest, hdigest⟩

namespace Lodged

variable {s : HashStream} {message : List UInt8}

section Operation

variable {a : Operation} {chain : Chain} {blocks : List (List UInt8)}

/-- After its first block it is on the engine. -/
theorem mode_eq (hne : blocks ≠ []) (h : Lodged before a chain blocks e) :
    a.mode = .hardware false := by
  obtain ⟨⟨hviable, hattached, -, -⟩, -⟩ := h
  have hbegun : ¬ a.isBeforeFirstBlock = true := fun hbefore => hne (hviable.begun hbefore)
  cases hmode : a.mode with
  | software => exact absurd hmode hattached
  | unsettled => exact absurd hmode hviable.settled
  | uncommitted => exact absurd (by simp [Operation.isBeforeFirstBlock, hmode]) hbegun
  | hardware first =>
    cases first with
    | true => exact absurd (by simp [Operation.isBeforeFirstBlock, hmode]) hbegun
    | false => rfl

/-- So nobody else can win the engine. -/
theorem not_winnable (hne : blocks ≠ []) (h : Lodged before a chain blocks e) : ¬ e.Winnable :=
  h.1.2.2.1.toTenant.not_winnable (h.1.2.2.1.standing.onEngine false (h.mode_eq hne))

/-- Who does not disturb it leaves it lodged. -/
theorem undisturbed (h : Lodged before a chain blocks e) (hsame : e.Undisturbed e') :
    Lodged before a chain blocks e' := by
  obtain ⟨⟨hviable, hattached, hlodger, hrunning⟩, hhashed⟩ := h
  refine ⟨⟨hviable, hattached, hlodger.undisturbed hsame, fun hmode hlate => ?_⟩,
    hhashed.of_running fun _ => by rw [hsame.registers_eq]⟩
  obtain ⟨limit, hlimit, hblocked⟩ := hrunning hmode hlate
  exact ⟨limit, by rw [hsame.settings_eq, hlimit], by rwa [hsame.registers_eq]⟩

/-- Who has not asked for the engine yet may be the one to have it. -/
theorem of_unattached (hmode : a.mode = .uncommitted) (hunit : a.algorithm.unit?.isSome = true)
    (h : Unattached a chain blocks) (hrested : before.Rested e) : Lodged before a chain blocks e := by
  obtain ⟨-, rfl, rfl⟩ := h.path.resolve_right fun hpath => by simp [hmode] at hpath
  refine ⟨⟨⟨by simp [hmode], fun _ => hunit, Chain.isWide_initial _, fun _ => rfl⟩, by simp [hmode],
    hrested.lodger h.standing h.holdsMutex_eq, fun hhardware => by simp [hmode] at hhardware⟩, ?_⟩
  exact (hashed_uncommitted hmode).2 ⟨rfl, rfl⟩

end Operation

theorem start {algorithm : Algorithm} (hunit : algorithm.unit?.isSome = true) (h : before.Rested e) :
    (HashStream.start algorithm).Fed (Lodged before) [] e := by
  unfold HashStream.start
  rw [if_pos hunit]
  exact HashStream.fed_ofOperation (of_unattached rfl hunit (unattached_fresh algorithm) h)

variable (hroom : before.clock.count.toNat < clockRoom) (hpatient : before.Patient)

include hroom hpatient

/-- **Lodged streams are carried on**, and fail only for want of time. -/
theorem intake : Intake (Lodged before) fun a fault e => fault = .stillBusy ∧
    e.settings.pollLimit.isSome = true ∧ a.isOnEngine = true ∧ Forfeited before a e := by
  refine (intake_viable (J := fun a e => a.mode ≠ .software ∧ Lodger before a e ∧ Running before a e)
    (fun h => ⟨h.1, Lodger.keptByAccess.note h.2⟩) (fun {a e} hmode h => ?_)
    fun {a e} words hon h => ?_).along intake_hashed
  · obtain ⟨-, hlodger, -⟩ := h
    refine (hlodger.acquire hroom hmode).mono fun r e' he => ?_
    obtain ⟨rfl, hlodger'⟩ := he
    exact ⟨by simp, hlodger', fun hmode => by cases hmode⟩
  · obtain ⟨-, hlodger, -⟩ := h
    refine ((hlodger.toTenant.submit words).and ((Lodger.keptByAccess.submit a words hlodger).and
      (always_submit_running hpatient hlodger.pace words))).mono fun r e' he => ?_
    obtain ⟨htenant, hkept, hpace, hrunning, hlate⟩ := he
    refine ⟨fun htaken hon' => ⟨fun hmode => ?_, ⟨htenant, hpace⟩, hrunning htaken⟩,
      fun hbusy => ⟨hlate hbusy, hkept⟩⟩
    simp [Operation.isOnEngine, hmode] at hon'

/-- A part is taken in, or the accelerator was not waited for. -/
theorem always_absorb (bytes : List UInt8) (h : s.Fed (Lodged before) message e) :
    Always (s.absorb bytes) e fun r e' => r.2.algorithm = s.algorithm ∧
      (r.1 = .ok () ∧ r.2.Fed (Lodged before) (message ++ bytes) e' ∨
        ∃ fault, r.1 = .error fault ∧ r.2.failed = true ∧ Forfeited before r.2.operation e') := by
  refine ((intake hroom hpatient).absorb bytes h).mono fun r e' he => ?_
  obtain ⟨outcome, s'⟩ := r
  obtain ⟨halgorithm, hdone⟩ := he
  refine ⟨halgorithm, ?_⟩
  cases outcome with
  | ok => exact Or.inl ⟨rfl, hdone⟩
  | error fault => exact Or.inr ⟨fault, rfl, hdone.1, hdone.2.2.2.2⟩

omit hroom hpatient in
/-- What the accelerator gives at the end. -/
theorem always_collect {blocks : List (List UInt8)} (hne : blocks ≠ [])
    (h : Lodged before s.operation s.chain blocks e) :
    Always s.collect e fun outcome e' => Lodger before s.operation e' ∧
      AnswersInTime before ((s.algorithm.chainOf blocks).bind (·.digest s.algorithm)) outcome := by
  have hmode := h.mode_eq hne
  obtain ⟨⟨hviable, -, hlodger, hrunning⟩, hhashed⟩ := h
  have hkept := HashStream.always_collect (J := Lodger before)
    (fun out h => Lodger.keptByAccess.fetch _ out h) hlodger
  have hintime : Always s.collect e fun outcome _ => before.InTime → ∃ digest, outcome = .ok digest ∧
      (s.algorithm.chainOf blocks).bind (·.digest s.algorithm) = .ok digest := by
    intro outcome e' hrun hin
    have hprompt := (prompt_ready.collect (hlodger.pace.ready hin)).always outcome e' hrun
    have hends := ((Tracked.start s.operation e).collect hviable hne outcome e' hrun).2
    have hdigest := digest_of_collect hne hhashed outcome e' hrun
    cases outcome with
    | error fault => exact absurd (congrArg Except.error hends.1) hprompt
    | ok digest =>
      obtain ⟨value, hvalue, hd⟩ := hdigest digest rfl
      exact ⟨digest, rfl, by rw [hvalue]; exact hd⟩
  have hlate : ¬ before.InTime →
      Always s.collect e fun outcome _ => ∀ digest, outcome ≠ .ok digest := by
    intro hlate
    simp only [HashStream.collect, hmode, always_bind, always_pure]
    refine (always_fetch_stuck _ hmode (hrunning hmode hlate)).mono fun r e' hfailed digest => ?_
    obtain ⟨outcome, words⟩ := r
    cases outcome with
    | ok => exact absurd rfl hfailed
    | error fault => exact fun h => by cases h
  exact fun outcome e' hrun => ⟨hkept outcome e' hrun, hintime outcome e' hrun,
    fun hnot => hlate hnot outcome e' hrun⟩

/-- **The end of a lodged stream** gives back what it holds and tells whether the accelerator was waited
for. -/
theorem always_finish (h : s.Fed (Lodged before) message e) :
    Always s.finish e fun outcome e' => before.Rested e' ∧
      AnswersInTime before (s.algorithm.digest message) outcome := by
  refine ((intake hroom hpatient).ends h (R := fun outcome a e' => Lodger before a e' ∧
    AnswersInTime before (s.algorithm.digest message) outcome) (fun _ hpost => ?_)
    (fun t e' halgorithm hpath => ?_) fun a fault e' hfault => ?_).mono fun outcome e' he => ?_
  · exact hpost.1.release.mono fun _ _ hreleased => ⟨hreleased, hpost.2⟩
  · have hcollected := hpath.always_collect (s.algorithm.blocks_ne_nil message)
    rwa [halgorithm] at hcollected
  · obtain ⟨-, -, -, hlate, hlodger⟩ := hfault
    exact ⟨hlodger, fun hin => absurd hin hlate, fun _ _ h => by cases h⟩
  · obtain ⟨a, ⟨hlodger, hverdict⟩, hfree⟩ := he
    exact ⟨hlodger.rested hfree, hverdict⟩

end Lodged

/-- A stream that was not waited for is discarded at its end. -/
theorem Forfeited.always_finish {s : HashStream} (hfailed : s.failed = true)
    (h : Forfeited before s.operation e) (expected : Except Fault (List UInt8)) :
    Always s.finish e fun outcome e' => before.Rested e' ∧ AnswersInTime before expected outcome := by
  rw [HashStream.finish_of_failed hfailed]
  simp only [always_bind, always_pure]
  refine (HashStream.always_discard (fun _ => Lodger.release) h.2).mono fun _ e' he => ?_
  obtain ⟨a, hlodger, hfree⟩ := he
  exact ⟨hlodger.rested hfree, fun hin => absurd hin h.1, fun _ _ hok => by cases hok⟩

/-- **The life of a stream that has the engine to itself.** -/
theorem always_digest_lodged (hroom : before.clock.count.toNat < clockRoom)
    (hpatient : before.Patient) {algorithm : Algorithm} (hunit : algorithm.unit?.isSome = true)
    (h : before.Rested e) (message : List UInt8) :
    Always (EngineM.digest algorithm message) e fun outcome e' => before.Rested e' ∧
      AnswersInTime before (algorithm.digest message) outcome := by
  simp only [EngineM.digest, always_bind]
  refine (Lodged.always_absorb hroom hpatient message (Lodged.start hunit h)).mono fun r e' he => ?_
  obtain ⟨outcome, s⟩ := r
  obtain ⟨halgorithm, hdone⟩ := he
  obtain rfl : s.algorithm = algorithm := halgorithm.trans (HashStream.algorithm_start algorithm)
  rcases hdone with ⟨rfl, hfed⟩ | ⟨fault, rfl, -, hlate, hlodger⟩
  · exact Lodged.always_finish hroom hpatient hfed
  · simp only [always_bind, always_pure]
    refine (HashStream.always_discard (fun _ => Lodger.release) hlodger).mono fun _ e'' he => ?_
    obtain ⟨a, hlodger, hfree⟩ := he
    exact ⟨hlodger.rested hfree, fun hin => absurd hin hlate, fun _ _ hok => by cases hok⟩

end HashAccelerator
