import HashAccelerator.Proofs.Peripheral.Retries
import HashAccelerator.Proofs.Session.Chaining
import HashAccelerator.Proofs.Session.Kept
/-!
# Reading a digest again

An operation of a session that has handed over a block may read its digest so far. Whether it gets it
has nothing to do with how often it tries: each attempt loads the digest anew, which takes the whole
latency, and gives up after one poll more than the poll limit. If the limit covers the latency the first
attempt delivers the digest of the operation's blocks, and otherwise none does
(`Course.Reached.retried_fetch`).
-/

namespace HashAccelerator

open EngineM

variable {κ μ : Type} [GatedClock κ] [EngineMutex μ]

namespace Course

variable {c : Course Peripheral κ μ} {latency : Nat} {clock : κ} {mutex : μ} {settings : Settings}

/-- Whatever the parties do, the accelerator's busy time is that of its commands, and the settings are
those of the beginning. -/
theorem Reached.counted
    (h : Reached Hashing (.ofEngine (.simulated latency clock mutex settings)) c) :
    c.engine.registers.Counted latency ∧ c.engine.settings = settings := by
  refine h.induct (I := fun c : Course Peripheral κ μ =>
    c.engine.registers.Counted latency ∧ c.engine.settings = settings)
    ⟨Peripheral.Reachable.start.counted, rfl⟩ fun c step hc hfair => ?_
  by_cases hchange : step.IsChange
  · cases step with
    | alterRegisters change =>
      obtain ⟨held, rfl⟩ := hfair
      simp only [Session.step, always_bind, always_modify, always_pure]
      exact ⟨hc.1.congr rfl rfl rfl, hc.2⟩
    | alterMutex change =>
      simp only [Session.step, always_bind, always_modify, always_pure]
      exact hc
    | _ => exact hchange.elim
  · exact Session.always_kept kept_counted hchange hc

theorem Reached.countable
    (h : Reached Hashing (.ofEngine (.simulated latency clock mutex settings)) c)
    (hfree : c.engine.registers.held = false) : Countable latency settings c.engine :=
  ⟨h.counted.1, hfree, h.counted.2⟩

/-- What an operation that has handed over a block finds: its unit, at the chaining value of its
blocks. -/
theorem Reached.running
    (h : Reached Hashing (.ofEngine (.simulated latency clock mutex settings)) c)
    (hexclusive : Exclusive c.engine.history) {name : String} {a : Operation}
    (ha : c.session.operations[name]? = some a) (hmode : a.mode = .hardware false) :
    ∃ chain unit,
      a.algorithm.chainOf ((blocksSince name c.past).map a.algorithm.blockBytes) = .ok chain ∧
      a.algorithm.unit? = some unit ∧ c.engine.registers.running = some ⟨unit, chain⟩ := by
  have hon : a.isOnEngine = true := by simp [Operation.isOnEngine, hmode]
  obtain ⟨chain, hchain, ⟨hfirst, -⟩ | ⟨-, unit, hunit, hrunning⟩⟩ :=
    h.chaining.stands hexclusive name a ha hon
  · rw [hmode] at hfirst
    cases hfirst
  · exact ⟨chain, unit, hchain, hunit, hrunning⟩

/-- **A digest is read at once or never.** Let an operation have handed over a block, in whatever course
in which the mutex was never granted while it was held, and nobody hold the accelerator busy. If there is
no poll limit, or one that covers the latency, its readout delivers the digest of its blocks. If the
limit does not, the readout is given up, and so is every attempt after it; none of them touches the
caller's words or what the unit has come to. -/
theorem Reached.retried_fetch
    (h : Reached Hashing (.ofEngine (.simulated latency clock mutex settings)) c)
    (hexclusive : Exclusive c.engine.history) (hfree : c.engine.registers.held = false)
    {name : String} {a : Operation} {out : List UInt32}
    (ha : c.session.operations[name]? = some a) (hmode : a.mode = .hardware false)
    (hroom : a.algorithm.digestWords ≤ out.length) :
    ∃ chain digest,
      a.algorithm.chainOf ((blocksSince name c.past).map a.algorithm.blockBytes) = .ok chain ∧
      chain.digest a.algorithm = .ok digest ∧
      ((∀ limit, settings.pollLimit = some limit → latency ≤ limit) →
        Returns (fetch a out) c.engine fun r _ =>
          r = (.ok (), BigEndian.words32 digest ++ out.drop a.algorithm.digestWords)) ∧
      ∀ limit, settings.pollLimit = some limit → limit < latency → ∀ tries,
        ∃ e', GivenUp (fetch a out) out tries c.engine e' ∧
          e'.registers.conduct = c.engine.registers.conduct := by
  have hcountable := h.countable hfree
  obtain ⟨chain, unit, hchain, hunit, hrunning⟩ := h.running hexclusive ha hmode
  have hwidth := Algorithm.isWide_of_chainOf hchain
  refine ⟨chain, _, hchain, Chain.digest_eq hwidth, fun hintime => ?_,
    fun limit hlimit hlate tries => ?_⟩
  · rw [Chain.words32_digest]
    exact prompt_fetch hcountable hmode hunit hrunning hwidth hroom hintime
  · obtain ⟨e', hgiven, -, hconduct⟩ :=
      givenUp_fetch hcountable hlimit hmode hunit hrunning hwidth hroom hlate tries
    exact ⟨e', hgiven, hconduct⟩

/-- An operation that has handed over a block, on an accelerator with a latency of one and either poll
limit that is no greater. -/
theorem exists_committed {limit : Nat} (hlimit : limit ≤ 1) :
    ∃ (c : Course Peripheral CountedClock CountedMutex) (a : Operation),
      Reached Hashing (.ofEngine (.simulated 1 {} {} ⟨0, some limit⟩)) c ∧
      Exclusive c.engine.history ∧ c.engine.registers.held = false ∧
      blocksSince "a" c.past = [List.replicate 16 7] ∧
      c.session.operations["a"]? = some a ∧ a.algorithm = .sha256 ∧ a.mode = .hardware false ∧
      a.holdsMutex = true := by
  let steps : List (Step Peripheral CountedMutex) :=
    [.create "a" .sha256 false, .acquire "a", .submit "a" (List.replicate 16 7)]
  let committed (c : Course Peripheral CountedClock CountedMutex) : Bool :=
    decide (Exclusive c.engine.history) && c.engine.registers.held = false &&
      blocksSince "a" c.past = [List.replicate 16 7] &&
      c.session.operations["a"]?.any fun a =>
        a.algorithm = .sha256 ∧ a.mode = .hardware false ∧ a.holdsMutex = true
  have hrun : ∀ limit ≤ 1, (take { session := .ofEngine (.simulated 1 {} {} ⟨0, some limit⟩) }
      steps).any committed = true := by
    decide +kernel
  obtain ⟨c, htake, hcommitted⟩ := (Option.any_eq_true _ _).1 (hrun limit hlimit)
  simp only [committed, Bool.and_eq_true, Option.any_eq_true, decide_eq_true_eq] at hcommitted
  obtain ⟨⟨⟨hexclusive, hfree⟩, hblocks⟩, a, ha, halgorithm, hmode, hholds⟩ := hcommitted
  have hreached : Reached Hashing (.ofEngine (.simulated 1 {} {} ⟨0, some limit⟩)) c :=
    Reached.start.take (fun _ step hstep => by
      simp only [steps, List.mem_cons, List.not_mem_nil, or_false] at hstep
      rcases hstep with rfl | rfl | rfl <;> exact Or.inl trivial) htake
  exact ⟨c, a, hreached, hexclusive, hfree, hblocks, ha, halgorithm, hmode, hholds⟩

/-- A poll limit of one is enough for it to read its digest, and one of zero is not. -/
theorem exists_retried_fetch :
    (∃ (c : Course Peripheral CountedClock CountedMutex) (a : Operation) (chain : Chain)
      (digest : List UInt8), c.session.operations["a"]? = some a ∧
      Algorithm.sha256.chainOf [Algorithm.sha256.blockBytes (List.replicate 16 7)] = .ok chain ∧
      chain.digest .sha256 = .ok digest ∧
      Returns (fetch a (List.replicate 8 0)) c.engine fun r _ =>
        r = (.ok (), BigEndian.words32 digest)) ∧
    ∃ (c : Course Peripheral CountedClock CountedMutex) (a : Operation),
      c.session.operations["a"]? = some a ∧ a.mode = .hardware false ∧ ∀ tries, ∃ e',
        GivenUp (fetch a (List.replicate 8 0)) (List.replicate 8 0) tries c.engine e' := by
  have hroom : ∀ {a : Operation}, a.algorithm = .sha256 →
      a.algorithm.digestWords ≤ (List.replicate 8 (0 : UInt32)).length := by
    intro a halgorithm
    rw [halgorithm]
    decide
  constructor
  · obtain ⟨c, a, hreached, hexclusive, hfree, hblocks, ha, halgorithm, hmode, -⟩ :=
      exists_committed (Nat.le_refl 1)
    obtain ⟨chain, digest, hchain, hdigest, hprompt, -⟩ :=
      hreached.retried_fetch hexclusive hfree ha hmode (hroom halgorithm)
    rw [hblocks, halgorithm] at hchain
    rw [halgorithm] at hdigest hprompt
    refine ⟨c, a, chain, digest, ha, hchain, hdigest, ?_⟩
    refine (hprompt fun limit hlimit => ?_).mono fun r _ hr => ?_
    · cases hlimit
      exact Nat.le_refl 1
    · rw [hr]
      exact Prod.ext rfl (List.append_nil _)
  · obtain ⟨c, a, hreached, hexclusive, hfree, -, ha, halgorithm, hmode, -⟩ :=
      exists_committed (Nat.zero_le 1)
    obtain ⟨-, -, -, -, -, hnever⟩ :=
      hreached.retried_fetch hexclusive hfree ha hmode (hroom halgorithm)
    refine ⟨c, a, ha, hmode, fun tries => ?_⟩
    obtain ⟨e', hgiven, -⟩ := hnever 0 rfl Nat.zero_lt_one tries
    exact ⟨e', hgiven⟩

/-- So with a latency of one and a poll limit of zero, the first three attempts are all in vain. -/
theorem exists_fetch_in_vain :
    ∃ (c : Course Peripheral CountedClock CountedMutex) (a : Operation)
      (e' : Engine Peripheral CountedClock CountedMutex),
      Reached Hashing (.ofEngine (.simulated 1 {} {} ⟨0, some 0⟩)) c ∧
      c.engine.registers.held = false ∧ c.session.operations["a"]? = some a ∧
      a.algorithm = .sha256 ∧ a.mode = .hardware false ∧ a.holdsMutex = true ∧
      GivenUp (fetch a (List.replicate 8 0)) (List.replicate 8 0) (1 + 2) c.engine e' := by
  obtain ⟨c, a, hreached, hexclusive, hfree, -, ha, halgorithm, hmode, hholds⟩ :=
    exists_committed (Nat.zero_le 1)
  obtain ⟨chain, unit, hchain, hunit, hrunning⟩ := hreached.running hexclusive ha hmode
  have hroom : a.algorithm.digestWords ≤ (List.replicate 8 (0 : UInt32)).length := by
    rw [halgorithm]
    decide
  obtain ⟨e', hgiven, -⟩ := givenUp_fetch (hreached.countable hfree) rfl hmode hunit hrunning
    (Algorithm.isWide_of_chainOf hchain) hroom Nat.zero_lt_one (1 + 2)
  exact ⟨c, a, e', hreached, hfree, ha, halgorithm, hmode, hholds, hgiven⟩

end Course

end HashAccelerator
