import HashAccelerator.Proofs.Engine.Tenancy
import HashAccelerator.Proofs.Stream.Faults
/-!
# Streams that stand aside

A stream that is kept off the engine, by its own choice or because the engine cannot be won, computes
its digest in software. It disturbs nobody (`Aside`), meets no fault, and answers the standard's digest
of its message (`Aside.always_finish`).
-/

namespace HashAccelerator

open EngineM

/-- An operation that holds nothing, with its blocks: before it commits there are none, and in software
its chaining value is that of the blocks. -/
structure Unattached (a : Operation) (chain : Chain) (blocks : List (List UInt8)) : Prop where
  free : a.isHolding = false
  path : a.mode = .uncommitted ∧ blocks = [] ∧ chain = .initial a.algorithm ∨
    a.mode = .software ∧ a.algorithm.chainOf blocks = .ok chain

theorem unattached_fresh (algorithm : Algorithm) :
    Unattached (.fresh algorithm) (.initial algorithm) [] :=
  ⟨rfl, Or.inl ⟨rfl, rfl, rfl⟩⟩

theorem unattached_softwareOnly (algorithm : Algorithm) :
    Unattached (.softwareOnly algorithm) (.initial algorithm) [] :=
  ⟨rfl, Or.inr ⟨rfl, algorithm.chainOf_nil⟩⟩

namespace Unattached

variable {a : Operation} {chain : Chain} {blocks : List (List UInt8)}

theorem holdsMutex_eq (h : Unattached a chain blocks) : a.holdsMutex = false := by
  have hfree := h.free
  simp only [Operation.isHolding, Bool.or_eq_false_iff] at hfree
  exact hfree.1

theorem isOnEngine_eq (h : Unattached a chain blocks) : a.isOnEngine = false := by
  rcases h.path with ⟨hmode, -⟩ | ⟨hmode, -⟩ <;> simp [Operation.isOnEngine, hmode]

/-- What it holds, nothing, fits its mode. -/
theorem standing (h : Unattached a chain blocks) : a.Standing := by
  have hfree := h.free
  simp only [Operation.isHolding, Bool.or_eq_false_iff, decide_eq_false_iff_not, Nat.not_lt,
    Nat.le_zero] at hfree
  obtain ⟨hmutex, hdebt⟩ := hfree
  constructor
  · omega
  · simp [hmutex, hdebt]
  · intro first hmode
    rcases h.path with ⟨hpath, -⟩ | ⟨hpath, -⟩ <;> simp [hmode] at hpath
  · exact fun _ => hmutex
  · exact fun _ => hmutex

end Unattached

variable {ρ κ μ : Type} [EngineMutex μ] [PlainLatch μ] {before e : Engine ρ κ μ}

/-- An operation that is kept off the engine since some time, and has disturbed nobody since. -/
structure Aside (before : Engine ρ κ μ) (a : Operation) (chain : Chain)
    (blocks : List (List UInt8)) (e : Engine ρ κ μ) : Prop extends Unattached a chain blocks where
  kept : a.mode = .uncommitted → ¬ before.Winnable
  undisturbed : before.Undisturbed e

namespace Aside

theorem start {algorithm : Algorithm} (h : algorithm.unit? = none ∨ ¬ e.Winnable) :
    (HashStream.start algorithm).Fed (Aside e) [] e := by
  unfold HashStream.start
  split
  · next hunit =>
    have hlost := h.resolve_left fun hnone => by simp [hnone] at hunit
    exact HashStream.fed_ofOperation ⟨unattached_fresh algorithm, fun _ => hlost, .refl e⟩
  · exact HashStream.fed_ofOperation
      ⟨unattached_softwareOnly algorithm, (fun h => by cases h), .refl e⟩

theorem inSoftware (algorithm : Algorithm) :
    (HashStream.inSoftware algorithm).Fed (Aside e) [] e :=
  HashStream.fed_ofOperation ⟨unattached_softwareOnly algorithm, (fun h => by cases h), .refl e⟩

variable [RegisterBlock ρ] [GatedClock κ]

/-- **Aside nothing can fail.** -/
theorem intake : Intake (Aside before) fun _ _ _ => False where
  note h := h
  settled h hmode := by rcases h.path with ⟨hpath, -⟩ | ⟨hpath, -⟩ <;> simp [hmode] at hpath
  acquire {a chain blocks e} h hmode := by
    have hlost : ¬ e.Winnable := h.undisturbed.not_winnable (h.kept hmode)
    obtain ⟨-, rfl, rfl⟩ : a.mode = .uncommitted ∧ blocks = [] ∧ chain = .initial a.algorithm :=
      h.path.resolve_right fun hpath => by simp [hmode] at hpath
    refine (always_acquire_lost hmode hlost).mono fun r e' he => ?_
    obtain ⟨rfl, hsame⟩ := he
    exact ⟨⟨h.free, Or.inr ⟨rfl, Algorithm.chainOf_nil _⟩⟩, (fun hmode => by cases hmode),
      h.undisturbed.trans hsame⟩
  submit {a chain blocks e words} h hon := by
    rcases h.path with ⟨hpath, -⟩ | ⟨hpath, -⟩ <;> simp [Operation.isOnEngine, hpath] at hon
  compress {a chain blocks e block} h hmode hlength := by
    have hchain := (h.path.resolve_left fun hpath => by simp [hmode] at hpath).2
    obtain ⟨next, hnext⟩ := Chain.exists_compress (Algorithm.isWide_of_chainOf hchain)
      (Nat.le_of_eq hlength.symm)
    have hblock := (Algorithm.chainOf_concat hchain).trans hnext
    exact ⟨next, hnext, ⟨h.free, Or.inr ⟨hmode, hblock⟩⟩, h.kept, h.undisturbed⟩

variable {s : HashStream} {message : List UInt8}

omit [RegisterBlock ρ] [GatedClock κ] in
/-- It is aside for as long as nobody is disturbed. -/
theorem later {e' : Engine ρ κ μ} (h : s.Fed (Aside before) message e)
    (hsame : before.Undisturbed e') : s.Fed (Aside before) message e' :=
  h.imp fun _ haside => ⟨haside.toUnattached, haside.kept, hsame⟩

/-- So its parts are all taken in. -/
theorem always_absorb (bytes : List UInt8) (h : s.Fed (Aside before) message e) :
    Always (s.absorb bytes) e fun r e' => r.1 = .ok () ∧ r.2.algorithm = s.algorithm ∧
      before.Undisturbed e' ∧ r.2.Fed (Aside before) (message ++ bytes) e' := by
  refine (intake.absorb bytes h).mono fun r e' he => ?_
  obtain ⟨outcome, s'⟩ := r
  obtain ⟨halgorithm, hdone⟩ := he
  cases outcome with
  | error fault => exact hdone.2.elim
  | ok =>
    obtain ⟨blocks, -, haside⟩ := hdone.taken
    exact ⟨rfl, halgorithm, haside.undisturbed, hdone⟩

omit [GatedClock κ] in
/-- What its path has at the end is the digest of its blocks. -/
theorem collected {blocks : List (List UInt8)} (hne : blocks ≠ [])
    (h : Aside before s.operation s.chain blocks e) :
    Always (s.collect : EngineM ρ κ μ _) e fun outcome e' =>
      outcome = (s.algorithm.chainOf blocks).bind (·.digest s.algorithm) ∧
        s.operation.isHolding = false ∧ before.Undisturbed e' := by
  obtain ⟨hmode, hchain⟩ := h.path.resolve_left fun hpath => hne hpath.2.1
  unfold HashStream.collect
  rw [show s.algorithm.chainOf blocks = .ok s.chain from hchain]
  simp only [hmode, always_pure]
  exact ⟨rfl, h.free, h.undisturbed⟩

/-- **A stream aside answers the digest of its message** and disturbs nobody. -/
theorem always_finish (h : s.Fed (Aside before) message e) :
    Always s.finish e fun outcome e' =>
      outcome = s.algorithm.digest message ∧ before.Undisturbed e' := by
  refine (intake.ends h (R := fun outcome a e' => outcome = s.algorithm.digest message ∧
    a.isHolding = false ∧ before.Undisturbed e') (fun hholding hpost => ?_)
    (fun t e' halgorithm hpath => ?_) fun _ _ _ hfault => hfault.elim).mono fun outcome e' he => ?_
  · exact absurd (hholding.symm.trans hpost.2.1) (by decide)
  · have hcollected := hpath.collected (s.algorithm.blocks_ne_nil message)
    rwa [halgorithm] at hcollected
  · obtain ⟨a, ⟨houtcome, -, hsame⟩, -⟩ := he
    exact ⟨houtcome, hsame⟩

end Aside

/-- **A whole life aside.** -/
theorem always_digest_aside [RegisterBlock ρ] [GatedClock κ] {algorithm : Algorithm}
    (message : List UInt8) (h : algorithm.unit? = none ∨ ¬ e.Winnable) :
    Always (EngineM.digest algorithm message) e fun outcome e' =>
      outcome = algorithm.digest message ∧ e.Undisturbed e' := by
  simp only [EngineM.digest, always_bind]
  refine (Aside.always_absorb message (Aside.start h)).mono fun r e' he => ?_
  obtain ⟨outcome, s⟩ := r
  obtain ⟨rfl, halgorithm, -, hfed⟩ := he
  obtain rfl : s.algorithm = algorithm := halgorithm.trans (HashStream.algorithm_start algorithm)
  exact Aside.always_finish hfed

end HashAccelerator
