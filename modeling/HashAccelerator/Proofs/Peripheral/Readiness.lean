import HashAccelerator.Platform.Peripheral
import HashAccelerator.Proofs.Engine.Return
/-!
# Waiting for the simulated accelerator

After a command the unit is busy for a number of reads, the latency, and each read that finds it so
brings the end nearer. As long as nobody holds the busy registers set, and the poll limit, if there
is one, is no smaller than the latency, the engine is `Ready`: no wait goes on without end, and none
is given up. No call of anybody changes that.
-/

namespace HashAccelerator

open EngineM

variable {κ μ : Type} {e : Engine Peripheral κ μ}

/-! ## The busy time -/

namespace Peripheral

/-- **A read may use up the busy time** and never adds to it. -/
theorem busy_read (address : UInt32) (p : Peripheral) :
    (RegisterBlock.read address p).2.held = p.held ∧
      (RegisterBlock.read address p).2.latency = p.latency ∧
      (RegisterBlock.read address p).2.remaining ≤ p.remaining := by
  obtain ⟨register, rfl⟩ | hnone := Register.exists_address_or_none address
  · rw [read_address]
    cases register with
    | text index => exact ⟨rfl, rfl, Nat.le_refl _⟩
    | command unit order => exact ⟨rfl, rfl, Nat.le_refl _⟩
    | busy unit =>
      simp only [readRegister]
      split
      · exact ⟨rfl, rfl, Nat.le_refl _⟩
      · split
        · exact ⟨rfl, rfl, Nat.sub_le _ _⟩
        · exact ⟨rfl, rfl, Nat.le_refl _⟩
  · rw [read_of_decode?_eq_none hnone]
    exact ⟨rfl, rfl, Nat.le_refl _⟩

/-- A busy register that reads set has used up some. -/
theorem remaining_lt_of_busy {unit : UnitIndex} {p : Peripheral} (hfree : p.held = false)
    (hset : (RegisterBlock.read (Register.busy unit).address p).1 ≠ 0) :
    (RegisterBlock.read (Register.busy unit).address p).2.remaining < p.remaining := by
  have hnot : ¬ p.held = true := by simp [hfree]
  simp only [read_address, readRegister, if_neg hnot] at hset ⊢
  by_cases hbusy : p.commanded = some unit ∧ 0 < p.remaining
  · rw [if_pos hbusy]
    have hsome := hbusy.2
    show p.remaining - 1 < p.remaining
    omega
  · rw [if_neg hbusy] at hset
    exact absurd rfl hset

theorem busy_hashText (unit : RunningUnit) (p : Peripheral) :
    (p.hashText unit).held = p.held ∧ (p.hashText unit).latency = p.latency := by
  unfold hashText
  cases unit.chain.compress (.ofUnit unit.index) p.textBytes with
  | ok chain => exact ⟨rfl, rfl⟩
  | error fault => exact ⟨rfl, rfl⟩

/-- What a command does to the units and the text takes no time. -/
theorem busy_perform (unit : UnitIndex) (order : Command) (p : Peripheral) :
    (p.perform unit order).held = p.held ∧ (p.perform unit order).latency = p.latency := by
  unfold perform
  cases order with
  | start =>
    dsimp only
    exact busy_hashText _ _
  | resume =>
    cases p.runningAs unit with
    | none => exact ⟨rfl, rfl⟩
    | some running => exact busy_hashText running p
  | load =>
    cases p.runningAs unit with
    | none => exact ⟨rfl, rfl⟩
    | some running => simp only [presetText, and_self]

/-- **A write is a command at most**, and a command keeps its unit busy for the latency. -/
theorem busy_write (address value : UInt32) (p : Peripheral) :
    (RegisterBlock.write address value p).held = p.held ∧
      (RegisterBlock.write address value p).latency = p.latency ∧
      ((RegisterBlock.write address value p).remaining = p.remaining ∨
        (RegisterBlock.write address value p).remaining = p.latency) := by
  obtain ⟨register, rfl⟩ | hnone := Register.exists_address_or_none address
  · rw [write_address]
    cases register with
    | text index => exact ⟨rfl, rfl, Or.inl rfl⟩
    | busy unit => exact ⟨rfl, rfl, Or.inl rfl⟩
    | command unit order =>
      simp only [writeRegister]
      split
      · obtain ⟨hheld, hlatency⟩ := busy_perform unit order { p with
          unfenced := p.unfenced + (if p.textUnfenced then 1 else 0)
          commandUnfenced := true }
        exact ⟨hheld, hlatency, Or.inr rfl⟩
      · exact ⟨rfl, rfl, Or.inl rfl⟩
  · rw [write_of_decode?_eq_none hnone]
    exact ⟨rfl, rfl, Or.inl rfl⟩

end Peripheral

/-! ## Readiness -/

/-- The busy time is within the latency, and what nobody changes about the waits is as required: the
settings, whether the busy registers are held set, and the latency. -/
structure Engine.Paced (required : Settings → Bool → Nat → Prop) (e : Engine Peripheral κ μ) : Prop where
  fixed : required e.settings e.registers.held e.registers.latency
  remaining_le : e.registers.remaining ≤ e.registers.latency

namespace Engine.Paced

variable {required : Settings → Bool → Nat → Prop} {e' : Engine Peripheral κ μ}

/-- Only what a wait looks at counts. -/
theorem congr (h : e.Paced required) (hsettings : e'.settings = e.settings)
    (hheld : e'.registers.held = e.registers.held)
    (hlatency : e'.registers.latency = e.registers.latency)
    (hremaining : e'.registers.remaining ≤ e.registers.latency) : e'.Paced required where
  fixed := by
    rw [hsettings, hheld, hlatency]
    exact h.fixed
  remaining_le := hlatency ▸ hremaining

/-- And only the registers and the settings are looked at. -/
theorem quiet (h : e.Paced required) (hsettings : e'.settings = e.settings)
    (hregisters : e'.registers = e.registers) : e'.Paced required := by
  refine h.congr hsettings (by rw [hregisters]) (by rw [hregisters]) ?_
  rw [hregisters]
  exact h.remaining_le

end Engine.Paced

/-- Nobody holds the accelerator busy, and its busy time is within the poll limit. -/
structure Engine.Ready (e : Engine Peripheral κ μ) : Prop where
  free : e.registers.held = false
  remaining_le : e.registers.remaining ≤ e.registers.latency
  latency_le : ∀ limit, e.settings.pollLimit = some limit → e.registers.latency ≤ limit

theorem Engine.ready_iff : e.Ready ↔ e.Paced fun settings held latency =>
    held = false ∧ ∀ limit, settings.pollLimit = some limit → latency ≤ limit :=
  ⟨fun h => ⟨⟨h.free, h.latency_le⟩, h.remaining_le⟩,
    fun h => ⟨h.fixed.1, h.remaining_le, h.fixed.2⟩⟩

theorem Engine.Ready.quiet {e' : Engine Peripheral κ μ} (h : e.Ready)
    (hsettings : e'.settings = e.settings) (hregisters : e'.registers = e.registers) : e'.Ready :=
  Engine.ready_iff.2 ((Engine.ready_iff.1 h).quiet hsettings hregisters)

namespace EngineM

/-- **Whatever is called, the pace stays.** -/
theorem kept_paced [GatedClock κ] [EngineMutex μ] (required : Settings → Bool → Nat → Prop) :
    Kept (Engine.Paced (κ := κ) (μ := μ) required) where
  note h := h.quiet rfl rfl
  read {e a} h := by
    obtain ⟨hheld, hlatency, hle⟩ := Peripheral.busy_read a e.registers
    exact h.congr rfl hheld hlatency (Nat.le_trans hle h.remaining_le)
  write {e a v} h := by
    obtain ⟨hheld, hlatency, hremaining⟩ := Peripheral.busy_write a v e.registers
    refine h.congr rfl hheld hlatency ?_
    rcases hremaining with hsame | hfull
    · exact hsame ▸ h.remaining_le
    · exact Nat.le_of_eq hfull
  fence h := h.congr rfl rfl rfl h.remaining_le
  phase _ h := h.quiet rfl rfl
  begun h := h.quiet rfl rfl
  ended h := h.quiet rfl rfl
  reentered h := h.quiet rfl rfl
  created h := creationKeeps_of_forall (fun h => h.quiet rfl rfl) _ h
  enable h := h.quiet rfl rfl
  disable h := h.quiet rfl rfl
  query h := h.quiet rfl rfl
  tried h := h.quiet rfl rfl
  unlocked h := h.quiet rfl rfl

/-- So the engine stays ready. -/
theorem kept_ready [GatedClock κ] [EngineMutex μ] : Kept (Engine.Ready (κ := κ) (μ := μ)) := by
  rw [show Engine.Ready (κ := κ) (μ := μ) = Engine.Paced _ from
    funext fun _ => propext Engine.ready_iff]
  exact kept_paced _

/-! ## Waits -/

section Waits

variable {addresses : List UInt32}

/-- One poll of some busy registers: if it finds one set, the end of the wait is nearer. -/
theorem returns_anySet (hbusy : ∀ address ∈ addresses, ∃ unit, address = (Register.busy unit).address)
    (h : e.registers.held = false) : Returns (anySet addresses) e fun set e' =>
      e'.registers.held = false ∧ e'.registers.remaining ≤ e.registers.remaining ∧
        (set = true → e'.registers.remaining < e.registers.remaining) := by
  induction addresses generalizing e with
  | nil => exact returns_pure ⟨h, Nat.le_refl _, fun h => by cases h⟩
  | cons address rest ih =>
    obtain ⟨unit, rfl⟩ := hbusy address List.mem_cons_self
    obtain ⟨hheld, -, hle⟩ := Peripheral.busy_read (Register.busy unit).address e.registers
    have hfree := hheld.trans h
    unfold anySet
    refine Returns.next (run_readRegister _ _) (Returns.ite (fun hset => ?_) fun _ => ?_)
    · -- a busy register reads as set only while there is busy time, and the read takes some of it
      have hlt := Peripheral.remaining_lt_of_busy h (bne_iff_ne.1 hset)
      exact returns_pure ⟨hfree, hle, fun _ => hlt⟩
    · refine (ih (fun other hother => hbusy other (List.mem_cons_of_mem _ hother))
        (by exact hfree)).mono fun set e' he => ⟨he.1, Nat.le_trans he.2.1 hle, fun hset => ?_⟩
      exact Nat.lt_of_lt_of_le (he.2.2 hset) hle

/-- **As many polls again as there is busy time left** find the registers clear. -/
theorem returns_pollAgain
    (hbusy : ∀ address ∈ addresses, ∃ unit, address = (Register.busy unit).address)
    (h : e.registers.held = false) {rereads : Nat} (henough : e.registers.remaining ≤ rereads) :
    Returns (pollAgain (anySet addresses) rereads) e fun clear _ => clear = true := by
  -- on the polls that are left, which are never fewer than the busy time
  induction rereads generalizing e with
  | zero =>
    unfold pollAgain
    refine (returns_anySet hbusy h).bind fun set e' he => returns_pure ?_
    cases set with
    | false => rfl
    | true =>
      have hlt := he.2.2 rfl
      omega
  | succ rereads ih =>
    unfold pollAgain
    refine (returns_anySet hbusy h).bind fun set e' he => Returns.ite (fun hset => ?_) fun _ => ?_
    · have hlt := he.2.2 hset
      exact ih he.1 (by omega)
    · exact returns_pure rfl

/-- **A ready engine is not waited for in vain.** -/
theorem returns_await (hbusy : ∀ address ∈ addresses, ∃ unit, address = (Register.busy unit).address)
    (h : e.Ready) : Returns (await (anySet addresses)) e fun outcome _ => outcome = .ok () := by
  have hremaining := h.remaining_le
  unfold await
  refine Returns.next rfl ?_
  cases hlimit : e.settings.pollLimit with
  | none =>
    refine (returns_pollAgain hbusy h.free (Nat.le_refl _)).bind fun clear e' hclear => ?_
    rw [hclear]
    exact returns_pure rfl
  | some limit =>
    have hlatency := h.latency_le limit hlimit
    refine (returns_pollAgain hbusy h.free (by omega)).bind fun clear e' hclear => ?_
    rw [hclear]
    exact returns_pure rfl

theorem prompt_ready [GatedClock κ] [EngineMutex μ] :
    Prompt (Engine.Ready (κ := κ) (μ := μ)) where
  toKept := kept_ready
  idle h := (returns_await (fun _ hmem => exists_of_mem_busyAddresses hmem) h).mono fun _ _ => Or.inl
  busy unit h := (returns_await (fun _ hmem => ⟨unit, List.mem_singleton.1 hmem⟩) h).mono fun _ _ => Or.inl

end Waits

end EngineM

end HashAccelerator
