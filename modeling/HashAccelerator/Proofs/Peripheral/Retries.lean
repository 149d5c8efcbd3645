import HashAccelerator.Platform.Clock
import HashAccelerator.Platform.Mutex
import HashAccelerator.Proofs.Engine.Submission
import HashAccelerator.Proofs.Peripheral.Countdown
import HashAccelerator.Proofs.Peripheral.Protocol
/-!
# Trying again

A call whose wait was given up leaves the caller as it was, who may try again. On the simulated
accelerator each attempt to submit a block takes its share of the busy time, so that one of them finds
the units idle (`retried_submit`).

An attempt to read a digest brings busy time of its own, by the load that it commands. So it succeeds at
once if the poll limit covers the latency (`prompt_fetch`), and otherwise never (`givenUp_fetch`).
-/

namespace HashAccelerator

open EngineM

/-- So many attempts in a row are given up, each with the caller's data as they were. -/
inductive GivenUp {ρ κ μ α : Type} (attempt : EngineM ρ κ μ (Except Fault Unit × α)) (given : α) :
    Nat → Engine ρ κ μ → Engine ρ κ μ → Prop
  | none {e} : GivenUp attempt given 0 e e
  | again {tries e e' e''} : GivenUp attempt given tries e e' →
      attempt.run e' = some ((.error .stillBusy, given), e'') →
      GivenUp attempt given (tries + 1) e e''

variable {κ μ : Type} {e e₀ : Engine Peripheral κ μ} {a : Operation} {words out : List UInt32}
variable {latency limit : Nat} {settings : Settings} {first : Bool} {unit : UnitIndex}

/-- The engine as if the accelerator's busy time were over. -/
def Engine.idle (e : Engine Peripheral κ μ) : Engine Peripheral κ μ :=
  { e with registers := { e.registers with remaining := 0 } }

theorem Engine.idle_of_remaining (h : e.registers.remaining = 0) : e.idle = e := by
  rw [idle, ← h]

namespace EngineM

/-! ## Submissions -/

/-- **A submission that is given up** has taken its share of the busy time, and polled. -/
theorem stuck_submit (h : Countable latency settings e) (hlimit : settings.pollLimit = some limit)
    (hmode : a.mode = .hardware first) (hfits : a.Fits words)
    (hlate : limit < e.registers.remaining) :
    Returns (submit a words) e fun r e' => r = (.error .stillBusy, a) ∧
      e'.registers = e.registers.countDown (limit + 1) ∧
      ∃ polls, PollsOf busyAddresses polls ∧ e.Accessed polls e' := by
  obtain ⟨noted, hnoted, hrun⟩ := run_submit (e := e) hmode hfits
  have hcountable := hnoted.keeps keptByAccess_countable h
  rw [hnoted.sameRegisters.registers] at hlate ⊢
  have hstuck : Returns (submit a words) e fun r e' => r = (.error .stillBusy, a) ∧
      e'.registers = noted.registers.countDown (limit + 1) := by
    refine (returns_congr hrun).2 ((counted_awaitIdle hcountable hlimit).bind fun outcome t ht => ?_)
    obtain ⟨rfl, ht⟩ := ht
    rw [if_neg (Nat.not_le_of_lt hlate)]
    exact returns_pure ⟨rfl, ht⟩
  refine (hstuck.and_always (handed_submit a words)).mono fun r e' he => ?_
  obtain ⟨⟨rfl, hleft⟩, trace, haccessed, hhanded⟩ := he
  cases hhanded with
  | stuck _ _ hpolls => exact ⟨rfl, hleft, trace, hpolls, haccessed⟩

/-- A submission that waits long enough hands in over idle units. -/
theorem run_submit_in_time (h : Countable latency settings e)
    (hlimit : settings.pollLimit = some limit) (hmode : a.mode = .hardware first)
    (hfits : a.Fits words) (hintime : e.registers.remaining ≤ limit) :
    ∃ t, t.SameRegisters e.idle ∧ (submit a words).run e =
      (handIn a first (words.take textCapacity) (.ok ())).run t := by
  obtain ⟨noted, hnoted, hrun⟩ := run_submit (e := e) hmode hfits
  have hcountable := hnoted.keeps keptByAccess_countable h
  have hregisters := hnoted.sameRegisters.registers
  rw [hregisters] at hintime
  obtain ⟨outcome, t, hwait, ⟨rfl, hleft⟩, hkept⟩ :=
    (counted_awaitIdle hcountable hlimit).and_always
      (keptByAccess_countable.awaitIdle hcountable)
  rw [if_pos hintime] at hwait
  refine ⟨t, ⟨?_, hkept.settings_eq.trans h.settings_eq.symm⟩, hrun.trans ?_⟩
  · rw [hleft, Peripheral.countDown_of_le (Nat.le_succ_of_le hintime), ← hregisters]
    rfl
  · rw [StateT.run_bind, hwait]
    rfl

/-- **A submission that waits long enough** succeeds, and leaves the registers that it leaves where the
units are idle from the beginning. -/
theorem prompt_submit (h : Countable latency settings e) (hlimit : settings.pollLimit = some limit)
    (hmode : a.mode = .hardware first) (hunit : a.algorithm.unit? = some unit)
    (hfits : a.Fits words) (hintime : e.registers.remaining ≤ limit)
    (hidle : e₀.SameRegisters e.idle) :
    Returns (submit a words) e fun r t => r = (.ok (), { a with mode := .hardware false }) ∧
      Returns (submit a words) e₀ fun r₀ t₀ => r₀ = r ∧ t₀.registers = t.registers := by
  have hanswer : Returns (submit a words) e fun r _ => r.1 = .ok () := by
    refine (answers_submit hmode hfits _).2 ?_
    refine (counted_awaitIdle h hlimit).mono fun outcome _ ho => ?_
    rw [ho.1, if_pos hintime]
    simp [Operation.answerTo, hunit]
  have hregisters : e₀.registers = e.registers.countDown e.registers.remaining :=
    hidle.registers.trans (Peripheral.countDown_of_le (Nat.le_refl _)).symm
  have hzero : e₀.registers.remaining = 0 := by
    rw [hregisters]
    exact Nat.sub_self _
  have h₀ : Countable latency settings e₀ := by
    refine ⟨?_, ?_, hidle.settings.trans h.settings_eq⟩ <;> rw [hregisters]
    · exact h.counted.countDown _
    · exact h.free
  -- both wait for the same idle units, and what comes after depends on nothing else
  obtain ⟨t, ht, hrun⟩ := run_submit_in_time h hlimit hmode hfits hintime
  obtain ⟨t₀, ht₀, hrun₀⟩ := run_submit_in_time h₀ hlimit hmode hfits (by omega)
  have hsame : t.SameRegisters t₀ := by
    refine ht.trans (hidle.symm.trans (Engine.SameRegisters.symm ?_))
    rwa [Engine.idle_of_remaining hzero] at ht₀
  obtain ⟨r, u, u₀, hleft, hleft₀, hu⟩ := (sameRegisters_handIn a first _ _).run hsame
  rw [← hrun] at hleft
  rw [← hrun₀] at hleft₀
  obtain ⟨outcome, a'⟩ := r
  obtain rfl : outcome = .ok () := hanswer.always _ _ hleft
  obtain ⟨trace, haccessed, hhanded⟩ := handed_submit a words _ _ hleft
  cases hhanded with
  | taken => exact ⟨_, u, hleft, rfl, _, u₀, hleft₀, rfl, hu.registers.symm⟩

/-- So many attempts to submit a block are given up as there are shares of the busy time that one of
them takes. -/
theorem givenUp_submit (h : Countable latency settings e) (hlimit : settings.pollLimit = some limit)
    (hmode : a.mode = .hardware first) (hfits : a.Fits words) {tries : Nat}
    (htries : tries * (limit + 1) ≤ e.registers.remaining) :
    ∃ e', GivenUp (submit a words) a tries e e' ∧
      e'.registers = e.registers.countDown (tries * (limit + 1)) ∧
      ∃ polls, PollsOf busyAddresses polls ∧ e.Accessed polls e' := by
  induction tries with
  | zero =>
    refine ⟨e, .none, ?_, [], fun _ hmem => absurd hmem List.not_mem_nil, .refl⟩
    rw [Nat.zero_mul]
    rfl
  | succ tries ih =>
    rw [Nat.succ_mul] at htries
    obtain ⟨e', hgiven, hregisters, polls, hpolls, haccessed⟩ := ih (by omega)
    have hlate : limit < e'.registers.remaining := by
      rw [hregisters]
      show limit < e.registers.remaining - tries * (limit + 1)
      omega
    have hcountable := haccessed.keeps keptByAccess_countable h
    obtain ⟨r, e'', hrun, rfl, hleft, later, hlater, haccessed'⟩ :=
      stuck_submit hcountable hlimit hmode hfits hlate
    refine ⟨e'', hgiven.again hrun, ?_, later ++ polls, ?_, haccessed.trans haccessed'⟩
    · rw [hleft, hregisters, Peripheral.countDown_countDown, Nat.succ_mul]
    · exact List.forall_mem_append.2 ⟨hlater, hpolls⟩

/-- **A block that was not taken in time is taken later.** Each attempt to submit it brings the end of
the busy time nearer by one poll more than the poll limit, and changes nothing else; so there are as many
attempts in vain as the busy time has such shares, and the next one succeeds as if the units had been
idle from the beginning. -/
theorem retried_submit (hreachable : e.registers.Reachable latency)
    (hfree : e.registers.held = false) (hlimit : e.settings.pollLimit = some limit)
    (hmode : a.mode = .hardware first) (hunit : a.algorithm.unit? = some unit)
    (hlength : words.length = a.algorithm.blockWords) :
    (∀ tries ≤ e.registers.remaining / (limit + 1), ∃ e', GivenUp (submit a words) a tries e e' ∧
      e'.forget = { e.forget with registers := e.registers.countDown (tries * (limit + 1)) } ∧
      ∃ polls, PollsOf busyAddresses polls ∧ e.Accessed polls e') ∧
    ∃ e', GivenUp (submit a words) a (e.registers.remaining / (limit + 1)) e e' ∧
      Returns (submit a words) e' fun r t => r = (.ok (), { a with mode := .hardware false }) ∧
        Returns (submit a words) e.idle fun r₀ t₀ => r₀ = r ∧ t₀.forget = t.forget := by
  have hcountable : Countable latency e.settings e := ⟨hreachable.counted, hfree, rfl⟩
  have hfits : a.Fits words := Or.inr hlength
  have hshares : e.registers.remaining / (limit + 1) * (limit + 1) ≤ e.registers.remaining :=
    Nat.div_mul_le_self _ _
  refine ⟨fun tries htries => ?_, ?_⟩
  · have hroom := Nat.le_trans (Nat.mul_le_mul_right (limit + 1) htries) hshares
    obtain ⟨e', hgiven, hregisters, polls, hpolls, haccessed⟩ :=
      givenUp_submit hcountable hlimit hmode hfits hroom
    exact ⟨e', hgiven, hregisters ▸ haccessed.forget_eq, polls, hpolls, haccessed⟩
  · obtain ⟨e', hgiven, hregisters, polls, -, haccessed⟩ :=
      givenUp_submit hcountable hlimit hmode hfits hshares
    -- what is left of the busy time is less than a share
    have hintime : e'.registers.remaining ≤ limit := by
      have hrest : e.registers.remaining % (limit + 1) < limit + 1 :=
        Nat.mod_lt _ (Nat.succ_pos limit)
      have hwhole := Nat.div_add_mod' e.registers.remaining (limit + 1)
      rw [hregisters]
      show e.registers.remaining - _ ≤ limit
      omega
    have hidle : e.idle.SameRegisters e'.idle := by
      refine ⟨?_, haccessed.outside.2.2.1.symm⟩
      simp only [Engine.idle, hregisters, Peripheral.countDown]
    obtain ⟨r, t, hrun, hr, r₀, t₀, hrun₀, hsame, hleft⟩ :=
      prompt_submit (haccessed.keeps keptByAccess_countable hcountable) hlimit hmode hunit hfits
        hintime hidle
    obtain ⟨_, htaken, -⟩ := handed_submit a words _ _ hrun
    obtain ⟨_, htaken₀, -⟩ := handed_submit a words _ _ hrun₀
    refine ⟨e', hgiven, r, t, hrun, hr, r₀, t₀, hrun₀, hsame, ?_⟩
    rw [htaken₀.forget_eq, htaken.forget_eq, haccessed.forget_eq, hleft]
    rfl

/-- A block that is submitted while another has three polls to go: with a poll limit of one the first
attempt is in vain, and the second is not. -/
theorem exists_retried_submission :
    ∃ (e e' : Engine Peripheral CountedClock CountedMutex) (a : Operation) (words : List UInt32),
      e.registers.remaining = 3 ∧ e.settings.pollLimit = some 1 ∧
      GivenUp (submit a words) a 1 e e' ∧ Returns (submit a words) e' fun r _ => r.1 = .ok () := by
  let p : Peripheral := RegisterBlock.write (RegisterBank.ofUnit (UnitIndex.toWord 1)).start 1
    { latency := 3 }
  let e : Engine Peripheral CountedClock CountedMutex :=
    { registers := p, clock := {}, mutex := {}, settings := { pollLimit := some 1 } }
  let a : Operation := { algorithm := .sha256, mode := .hardware false }
  have hp : p = Peripheral.obey 1 .start { latency := 3 } := Peripheral.write_start 1 _
  have hremaining : e.registers.remaining = 3 := by
    show p.remaining = 3
    rw [hp]
    rfl
  have hfree : e.registers.held = false :=
    (Peripheral.busy_write _ _ { latency := 3 }).1
  have hlength : (List.replicate 16 (7 : UInt32)).length = a.algorithm.blockWords := by decide
  obtain ⟨-, e', hgiven, htaken⟩ := retried_submit (e := e) (a := a)
    (Peripheral.Reachable.start.write _ _) hfree rfl rfl rfl hlength
  rw [hremaining] at hgiven
  exact ⟨e, e', a, _, hremaining, rfl, hgiven, htaken.mono fun _ _ h => congrArg Prod.fst h.1⟩

/-! ## Readouts -/

variable {chain : Chain}

/-- **A load that is not waited for long enough is given up**, by the wait before it or by the wait for
its own busy time. -/
theorem stuck_loadDigest (h : Countable latency settings e)
    (hlimit : settings.pollLimit = some limit) (hlate : limit < latency) :
    Returns (loadDigest (.ofUnit (UnitIndex.toWord unit))) e fun outcome _ =>
      outcome = .error .stillBusy := by
  unfold loadDigest
  refine ((counted_awaitIdle h hlimit).and_always (keptByAccess_countable.awaitIdle h)).bind
    fun outcome t ht => ?_
  obtain ⟨⟨rfl, -⟩, hkept⟩ := ht
  by_cases hidle : e.registers.remaining ≤ limit
  · rw [if_pos hidle]
    refine Returns.next (run_writeRegister _ _ _) (Returns.next (run_fence _) ?_)
    have hloaded := keptByAccess_countable.fence (keptByAccess_countable.write
      (a := (RegisterBank.ofUnit (UnitIndex.toWord unit)).load) (v := 1) hkept)
    have hcommanded := Peripheral.write_load unit t.registers
    have hbusy : limit < (RegisterBlock.barrier (RegisterBlock.write
        (RegisterBank.ofUnit (UnitIndex.toWord unit)).load 1 t.registers)).remaining := by
      have hfull := hloaded.counted.latency_eq
      rw [hcommanded] at hfull ⊢
      exact Nat.lt_of_lt_of_eq hlate (hfull.symm.trans (Peripheral.busy_obey unit .load _).2.symm)
    have hshows : (RegisterBlock.barrier (RegisterBlock.write
        (RegisterBank.ofUnit (UnitIndex.toWord unit)).load 1 t.registers)).Shows
          [(Register.busy unit).address] := by
      rw [hcommanded]
      exact Peripheral.shows_obey unit .load t.registers
    refine (counted_await (fun _ hmem => ⟨unit, List.mem_singleton.1 hmem⟩) hloaded.free hshows
      (hloaded.settings_eq ▸ hlimit)).bind fun outcome t' ht' => ?_
    rw [ht'.1, if_neg (Nat.not_le_of_lt hbusy)]
    exact returns_pure rfl
  · rw [if_neg hidle]
    exact returns_pure rfl

/-- So is the readout that asks for it, and the caller's words are as they were. -/
theorem stuck_fetch (h : Countable latency settings e) (hlimit : settings.pollLimit = some limit)
    (hmode : a.mode = .hardware false) (hunit : a.algorithm.unit? = some unit)
    (hroom : a.algorithm.digestWords ≤ out.length) (hlate : limit < latency) :
    Returns (fetch a out) e fun r _ => r = (.error .stillBusy, out) := by
  unfold fetch
  refine Returns.next (run_note _ _) ?_
  rw [hmode, Algorithm.bank?, hunit, Option.map_some]
  refine Returns.ite (fun hshort => absurd hshort (Nat.not_lt.2 hroom)) fun _ => ?_
  refine (stuck_loadDigest (keptByAccess_countable.note h) hlimit hlate).bind fun outcome t ht => ?_
  rw [ht]
  exact returns_pure rfl

/-- **However often it is tried again**: every load makes the unit busy for longer than it is waited
for. -/
theorem givenUp_fetch (h : Countable latency settings e) (hlimit : settings.pollLimit = some limit)
    (hmode : a.mode = .hardware false) (hunit : a.algorithm.unit? = some unit)
    (hrunning : e.registers.running = some ⟨unit, chain⟩)
    (hwidth : chain.isWide = a.algorithm.isWide) (hroom : a.algorithm.digestWords ≤ out.length)
    (hlate : limit < latency) (tries : Nat) :
    ∃ e', GivenUp (fetch a out) out tries e e' ∧ Countable latency settings e' ∧
      e'.registers.conduct = e.registers.conduct := by
  induction tries with
  | zero => exact ⟨e, .none, h, rfl⟩
  | succ tries ih =>
    obtain ⟨e', hgiven, hcountable, hconduct⟩ := ih
    have hrunning' := (congrArg Conduct.running hconduct).trans hrunning
    obtain ⟨r, e'', hrun, rfl⟩ := stuck_fetch hcountable hlimit hmode hunit hroom hlate
    have hsame := (always_fetch out hmode hunit hrunning' hwidth _ _ hrun).1
    exact ⟨e'', hgiven.again hrun, keptByAccess_countable.fetch a out hcountable _ _ hrun,
      hsame.trans hconduct⟩

/-- **A readout that waits long enough** delivers the words of the digest at once. -/
theorem prompt_fetch [GatedClock κ] [EngineMutex μ] (h : Countable latency settings e)
    (hmode : a.mode = .hardware false) (hunit : a.algorithm.unit? = some unit)
    (hrunning : e.registers.running = some ⟨unit, chain⟩)
    (hwidth : chain.isWide = a.algorithm.isWide) (hroom : a.algorithm.digestWords ≤ out.length)
    (hintime : ∀ limit, settings.pollLimit = some limit → latency ≤ limit) :
    Returns (fetch a out) e fun r _ => r = (.ok (), chain.digestOrder.take a.algorithm.digestWords ++
      out.drop a.algorithm.digestWords) := by
  have hready : e.Ready := by
    refine ⟨h.free, h.counted.latency_eq ▸ h.counted.remaining_le, fun limit hlimit => ?_⟩
    exact h.counted.latency_eq ▸ hintime limit (h.settings_eq ▸ hlimit)
  refine (((prompt_ready.fetch a out hready).and_always (fetched_fetch a out rfl)).and_always
    (always_fetch out hmode hunit hrunning hwidth)).mono fun r _ hr => ?_
  obtain ⟨outcome, words⟩ := r
  obtain ⟨⟨hended, hfetched⟩, -, hwords⟩ := hr
  have hok : outcome = .ok () := by
    cases hfetched with
    | refused hoff => simp [Operation.isOnEngine, hmode] at hoff
    | nothing => rfl
    | unitless _ hnone => simp [hunit] at hnone
    | short _ _ hshort => omega
    | stuck => exact absurd rfl hended
    | read => rfl
  subst hok
  exact Prod.ext rfl hwords

end EngineM

end HashAccelerator
