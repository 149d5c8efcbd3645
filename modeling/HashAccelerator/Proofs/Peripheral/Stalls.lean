import HashAccelerator.Proofs.Peripheral.Accesses
import HashAccelerator.Proofs.Peripheral.Readiness
/-!
# Waiting for the simulated accelerator in vain

Whether the accelerator is waited for long enough is decided beforehand, by the poll limit, the latency
and whether somebody holds the busy registers set (`Engine.InTime`). If it is not, no digest comes from
it: a block may still be taken by a unit that is idle, but its command keeps the unit busy for longer
than anybody waits, and then the engine is `Stuck` for the next call (`always_submit_running`,
`always_fetch_stuck`).
-/

namespace HashAccelerator

open EngineM

variable {κ μ : Type} {e : Engine Peripheral κ μ} {a : Operation}

/-! ## Polls -/

namespace Peripheral

variable {p : Peripheral}

/-- The next so many polls find a unit busy, and one more does. -/
def Blocked (polls : Nat) (p : Peripheral) : Prop :=
  p.held = true ∨ ∃ unit, p.commanded = some unit ∧ polls < p.remaining

/-- A read of a busy register finds it set, which takes one of the polls, or is none of the
unit's that is busy. -/
theorem read_busy_of_blocked {polls : Nat} (unit : UnitIndex) (h : p.Blocked polls) :
    ((RegisterBlock.read (Register.busy unit).address p).1 = 1 ∧
        ∀ fewer, polls = fewer + 1 →
          (RegisterBlock.read (Register.busy unit).address p).2.Blocked fewer) ∨
      (RegisterBlock.read (Register.busy unit).address p = (0, p) ∧ p.held = false ∧
        p.commanded ≠ some unit) := by
  simp only [read_address, readRegister]
  cases hheld : p.held with
  | true =>
    rw [if_pos rfl]
    exact Or.inl ⟨rfl, fun _ _ => Or.inl hheld⟩
  | false =>
    obtain ⟨busy, hbusy, hlt⟩ := h.resolve_left (by simp [hheld])
    rw [if_neg (by decide)]
    by_cases hunit : p.commanded = some unit
    · rw [if_pos ⟨hunit, by omega⟩]
      refine Or.inl ⟨rfl, fun fewer hfewer => Or.inr ⟨busy, hbusy, ?_⟩⟩
      show fewer < p.remaining - 1
      omega
    · rw [if_neg fun hand => hunit hand.1]
      exact Or.inr ⟨rfl, rfl, hunit⟩

/-- A command keeps its unit busy for the latency. -/
theorem busy_obey (unit : UnitIndex) (order : Command) (p : Peripheral) :
    (p.obey unit order).commanded = some unit ∧
      (p.obey unit order).remaining = (p.obey unit order).latency := by
  obtain ⟨-, hlatency⟩ := busy_perform unit order { p with
    unfenced := p.unfenced + (if p.textUnfenced then 1 else 0)
    commandUnfenced := true }
  exact ⟨rfl, hlatency.symm⟩

end Peripheral

namespace EngineM

/-- A sweep over the busy registers of all units does not miss the one that is busy. -/
theorem always_anySet_blocked {addresses : List UInt32} {polls : Nat}
    (hbusy : ∀ address ∈ addresses, ∃ unit, address = (Register.busy unit).address)
    (hall : e.registers.held = true ∧ addresses ≠ [] ∨ ∃ unit, e.registers.commanded = some unit ∧
      (Register.busy unit).address ∈ addresses)
    (h : e.registers.Blocked polls) : Always (anySet addresses) e fun set e' =>
      set = true ∧ ∀ fewer, polls = fewer + 1 → e'.registers.Blocked fewer := by
  -- on the registers: a read that finds its register clear has left the accelerator as it was
  induction addresses generalizing e with
  | nil => rcases hall with ⟨-, hne⟩ | ⟨unit, -, hmem⟩ <;> simp at *
  | cons address rest ih =>
    obtain ⟨unit, rfl⟩ := hbusy address List.mem_cons_self
    simp only [anySet, always_bind, always_readRegister]
    rcases Peripheral.read_busy_of_blocked unit h with ⟨hset, hfewer⟩ | ⟨hclear, hfree, hother⟩
    · refine Always.ite (fun _ => ?_) fun hnot => absurd (by rw [hset]; rfl) hnot
      rw [always_pure]
      exact ⟨rfl, hfewer⟩
    · obtain ⟨busy, hcommanded, hmem⟩ := hall.resolve_left (by simp [hfree])
      have hne : (Register.busy busy).address ≠ (Register.busy unit).address := fun heq => by
        have hregister := congrArg Register.decode? heq
        rw [Register.decode?_address, Register.decode?_address] at hregister
        cases hregister
        exact hother hcommanded
      rw [hclear]
      refine Always.ite (fun hset => absurd hset (by simp)) fun _ => ?_
      exact ih (fun other hmem => hbusy other (List.mem_cons_of_mem _ hmem))
        (Or.inr ⟨busy, hcommanded, (List.mem_cons.1 hmem).resolve_left hne⟩) h

/-- Polls that all find a unit busy. -/
theorem always_pollAgain_blocked {polls : Nat} (h : e.registers.Blocked polls) :
    Always (pollAgain (anySet busyAddresses) polls) e fun clear _ => clear = false := by
  have hall : ∀ unit : UnitIndex, (Register.busy unit).address ∈ busyAddresses := by decide
  have hsweep : ∀ {e : Engine Peripheral κ μ} {polls}, e.registers.Blocked polls →
      Always (anySet busyAddresses) e fun set e' =>
        set = true ∧ ∀ fewer, polls = fewer + 1 → e'.registers.Blocked fewer := fun h => by
    refine always_anySet_blocked (fun _ hmem => exists_of_mem_busyAddresses hmem) ?_ h
    rcases h with hheld | ⟨unit, hcommanded, -⟩
    · exact Or.inl ⟨hheld, by decide⟩
    · exact Or.inr ⟨unit, hcommanded, hall unit⟩
  induction polls generalizing e with
  | zero =>
    simp only [pollAgain, always_bind, always_pure]
    refine (hsweep h).mono fun set e' he => ?_
    rw [he.1]
    rfl
  | succ polls ih =>
    simp only [pollAgain, always_bind]
    refine (hsweep h).mono fun set e' he => Always.ite (fun _ => ih (he.2 polls rfl)) fun hnot => ?_
    exact absurd he.1 hnot

end EngineM

/-! ## In time -/

namespace Engine

/-- The accelerator is waited for long enough: nobody holds the busy registers set, and the poll limit,
if there is one, is no smaller than the latency. -/
def InTime (e : Engine Peripheral κ μ) : Prop :=
  e.registers.held = false ∧ ∀ limit, e.settings.pollLimit = some limit → e.registers.latency ≤ limit

instance (e : Engine Peripheral κ μ) : Decidable e.InTime :=
  inferInstanceAs (Decidable (e.registers.held = false ∧
    ∀ limit ∈ e.settings.pollLimit, e.registers.latency ≤ limit))

/-- It is not waited for without end: there is a poll limit where the busy registers are held set. -/
def Patient (e : Engine Peripheral κ μ) : Prop :=
  e.settings.pollLimit = none → e.registers.held = false

/-- The accelerator is waited for as it was, and its busy time is within the latency. -/
def SamePace (before after : Engine Peripheral κ μ) : Prop :=
  after.Paced fun settings held latency => settings = before.settings ∧
    held = before.registers.held ∧ latency = before.registers.latency

variable {before : Engine Peripheral κ μ}

theorem SamePace.ready (h : before.SamePace e) (hin : before.InTime) : e.Ready := by
  obtain ⟨hsettings, hheld, hlatency⟩ := h.fixed
  refine ⟨hheld.trans hin.1, h.remaining_le, fun limit hlimit => ?_⟩
  rw [hlatency]
  exact hin.2 limit (hsettings ▸ hlimit)

/-- Where it is not waited for long enough there is a limit that is missed. -/
theorem Patient.exists_of_not_inTime (h : before.Patient) (hlate : ¬ before.InTime) :
    ∃ limit, before.settings.pollLimit = some limit ∧
      (before.registers.held = true ∨ limit < before.registers.latency) := by
  cases hlimit : before.settings.pollLimit with
  | none => exact absurd ⟨h hlimit, fun limit hsome => by simp [hlimit] at hsome⟩ hlate
  | some limit =>
    refine ⟨limit, rfl, ?_⟩
    cases hheld : before.registers.held with
    | true => exact Or.inl rfl
    | false =>
      refine Or.inr (Nat.lt_of_not_le fun hle => hlate ⟨hheld, fun other hother => ?_⟩)
      obtain rfl : limit = other := Option.some.inj (hlimit.symm.trans hother)
      exact hle

end Engine

/-- **Where the accelerator is not waited for without end** every wait ends, well or not. -/
theorem EngineM.answering_patient [GatedClock κ] [EngineMutex μ] :
    Answering True (Engine.Paced (κ := κ) (μ := μ) fun settings held _ =>
      settings.pollLimit = none → held = false) := by
  have hawait : ∀ {e : Engine Peripheral κ μ} {addresses},
      (∀ address ∈ addresses, ∃ unit, address = (Register.busy unit).address) →
      (e.settings.pollLimit = none → e.registers.held = false) →
      Returns (await (anySet addresses)) e fun outcome _ => outcome = .ok () ∨ True := by
    intro e addresses hbusy h
    cases hlimit : e.settings.pollLimit with
    | none =>
      unfold await
      refine Returns.next rfl ?_
      rw [hlimit]
      refine (returns_pollAgain hbusy (h hlimit) (Nat.le_refl _)).bind fun clear e' hclear => ?_
      rw [hclear]
      exact returns_pure (Or.inl rfl)
    | some limit => exact (returns_await_limited addresses hlimit).mono fun _ _ _ => Or.inr trivial
  refine ⟨kept_paced _, fun h => ?_, fun unit h => ?_⟩
  · exact hawait (fun _ hmem => exists_of_mem_busyAddresses hmem) h.fixed
  · exact hawait (fun _ hmem => ⟨unit, List.mem_singleton.1 hmem⟩) h.fixed

/-! ## Stuck -/

/-- The next wait for all units is given up. -/
def Engine.Stuck (e : Engine Peripheral κ μ) : Prop :=
  ∃ limit, e.settings.pollLimit = some limit ∧ e.registers.Blocked limit

namespace EngineM

theorem always_awaitIdle_stuck (h : e.Stuck) :
    Always awaitIdle e fun outcome _ => outcome ≠ .ok () := by
  obtain ⟨limit, hlimit, hblocked⟩ := h
  simp only [awaitIdle, await, always_bind, always_get, hlimit]
  refine (always_pollAgain_blocked hblocked).mono fun clear e' hclear => ?_
  rw [hclear]
  simp

/-- **From an engine that is stuck no digest is read.** -/
theorem always_fetch_stuck (out : List UInt32) (hmode : a.mode = .hardware false) (h : e.Stuck) :
    Always (fetch a out) e fun r _ => r.1 ≠ .ok () := by
  simp only [fetch, always_bind, always_note, hmode]
  cases a.algorithm.bank? with
  | none => simp
  | some bank =>
    refine Always.ite (fun _ => by simp) fun _ => ?_
    simp only [loadDigest, bind_assoc, always_bind]
    refine (always_awaitIdle_stuck (by exact h)).mono fun outcome e' hfailed => ?_
    cases outcome with
    | ok => exact absurd rfl hfailed
    | error fault => simp

/-- A block that is taken keeps its unit busy for the latency, from now on. -/
theorem always_submit_commanded (words : List UInt32) :
    Always (submit a words) e fun r e' => r.1 = .ok () → ∃ unit,
      e'.registers.commanded = some unit ∧ e'.registers.remaining = e'.registers.latency := by
  simp only [submit, always_bind, always_note]
  cases a.mode with
  | uncommitted => simp
  | software => simp
  | unsettled => simp
  | hardware first =>
    refine always_bind.2 fun fitted e _ => ?_
    cases fitted with
    | error fault => simp
    | ok words =>
      refine always_bind.2 fun outcome e _ => ?_
      cases outcome with
      | error fault => simp
      | ok =>
        refine always_bind.2 fun _ e _ => ?_
        simp only [always_bind, always_fence, command, Algorithm.bank?]
        cases a.algorithm.unit? with
        | none => simp
        | some unit =>
          simp only [Option.map_some, always_bind, always_writeRegister, always_fence, always_note,
            always_pure]
          intro _
          refine ⟨unit, ?_⟩
          cases first with
          | true =>
            rw [if_pos rfl, Peripheral.write_start]
            exact Peripheral.busy_obey unit .start (RegisterBlock.barrier e.registers)
          | false =>
            rw [if_neg (by decide), Peripheral.write_resume]
            exact Peripheral.busy_obey unit .resume (RegisterBlock.barrier e.registers)

end EngineM

/-! ## An operation under way -/

/-- Once the operation has handed over a block, it is waited for in time or the engine is stuck. -/
def Running (before : Engine Peripheral κ μ) (a : Operation) (e : Engine Peripheral κ μ) : Prop :=
  a.mode = .hardware false → ¬ before.InTime → e.Stuck

/-- **A block is taken**, and the operation is under way; or a wait is given up, which is for want of
time. -/
theorem EngineM.always_submit_running [GatedClock κ] [EngineMutex μ] {before : Engine Peripheral κ μ}
    (hpatient : before.Patient) (h : before.SamePace e) (words : List UInt32) :
    Always (submit a words) e fun r e' => before.SamePace e' ∧
      (r.1 = .ok () → Running before r.2 e') ∧ (r.1 = .error .stillBusy → ¬ before.InTime) := by
  have hgiven : Always (submit a words) e fun r _ => r.1 = .error .stillBusy → ¬ before.InTime :=
    fun r e' hrun hbusy hin => (prompt_ready.submit a words (h.ready hin)).always r e' hrun hbusy
  refine (((kept_paced _).submit a words h).and
    ((always_submit_commanded words).and hgiven)).mono fun r e' he => ?_
  obtain ⟨hpace, hcommanded, hgiven⟩ := he
  refine ⟨hpace, fun htaken _ hlate => ?_, hgiven⟩
  obtain ⟨hsettings, hheld, hlatency⟩ := hpace.fixed
  obtain ⟨unit, hunit, hremaining⟩ := hcommanded htaken
  obtain ⟨limit, hlimit, hmissed⟩ := hpatient.exists_of_not_inTime hlate
  refine ⟨limit, hsettings ▸ hlimit, hmissed.imp (hheld.trans ·) fun hlt => ⟨unit, hunit, ?_⟩⟩
  rwa [hremaining, hlatency]

end HashAccelerator
