import HashAccelerator.Proofs.Engine.Answers
import HashAccelerator.Proofs.Peripheral.Stalls
/-!
# Polls that count down

Nothing but a command makes a unit of the simulated accelerator busy, so a reachable accelerator with
busy time left knows which unit it is (`Peripheral.Reachable.counted`). Then a poll that looks at this
unit takes exactly one off the busy time and finds it so, whatever other units it looks at before; and a
wait with a poll limit takes one more than its limit, or all there is, and ends well just if the limit
covers the busy time (`counted_await`). Nothing else about the accelerator changes.
-/

namespace HashAccelerator

open EngineM

namespace Peripheral

/-- **What accesses make of an accelerator** with this latency, while its text is preset and its busy
registers are held set and let go. -/
inductive Reachable (latency : Nat) : Peripheral → Prop
  | start : Reachable latency { latency }
  | read {p} (address) : Reachable latency p → Reachable latency (RegisterBlock.read address p).2
  | write {p} (address value) : Reachable latency p →
      Reachable latency (RegisterBlock.write address value p)
  | barrier {p} : Reachable latency p → Reachable latency (RegisterBlock.barrier p)
  | preset {p} (words) : Reachable latency p → Reachable latency (p.presetText words)
  | hold {p} (held) : Reachable latency p → Reachable latency (p.holdBusy held)

/-- If there is busy time left, it is that of a unit that was commanded, and no more than a command
brings. -/
structure Counted (latency : Nat) (p : Peripheral) : Prop where
  latency_eq : p.latency = latency
  remaining_le : p.remaining ≤ latency
  commanded : 0 < p.remaining → ∃ unit, p.commanded = some unit

/-- The accelerator after so many polls that found it busy. -/
def countDown (polls : Nat) (p : Peripheral) : Peripheral :=
  { p with remaining := p.remaining - polls }

/-- If there is busy time left, some of the registers is that of the unit it belongs to. -/
def Shows (addresses : List UInt32) (p : Peripheral) : Prop :=
  0 < p.remaining → ∃ unit, p.commanded = some unit ∧ (Register.busy unit).address ∈ addresses

variable {p : Peripheral} {latency : Nat} {addresses : List UInt32}

/-! ## Busy time -/

theorem commanded_read (address : UInt32) (p : Peripheral) :
    (RegisterBlock.read address p).2.commanded = p.commanded := by
  obtain ⟨register, rfl⟩ | hnone := Register.exists_address_or_none address
  · rw [read_address]
    cases register with
    | text index => rfl
    | command unit order => rfl
    | busy unit =>
      simp only [readRegister]
      split
      · rfl
      · split <;> rfl
  · rw [read_of_decode?_eq_none hnone]

/-- A write that is no command takes no time. -/
theorem commanded_write (address value : UInt32) (p : Peripheral) :
    ((RegisterBlock.write address value p).commanded = p.commanded ∧
        (RegisterBlock.write address value p).remaining = p.remaining) ∨
      ∃ unit, (RegisterBlock.write address value p).commanded = some unit := by
  obtain ⟨register, rfl⟩ | hnone := Register.exists_address_or_none address
  · rw [write_address]
    cases register with
    | text index => exact Or.inl ⟨rfl, rfl⟩
    | busy unit => exact Or.inl ⟨rfl, rfl⟩
    | command unit order =>
      simp only [writeRegister]
      split
      · exact Or.inr ⟨unit, rfl⟩
      · exact Or.inl ⟨rfl, rfl⟩
  · rw [write_of_decode?_eq_none hnone]
    exact Or.inl ⟨rfl, rfl⟩

/-- Who commands knows the unit. -/
theorem Counted.congr {p' : Peripheral} (h : Counted latency p) (hlatency : p'.latency = p.latency)
    (hremaining : p'.remaining = p.remaining) (hcommanded : p'.commanded = p.commanded) :
    Counted latency p' where
  latency_eq := hlatency.trans h.latency_eq
  remaining_le := hremaining ▸ h.remaining_le
  commanded hpos := hcommanded ▸ h.commanded (hremaining ▸ hpos)

theorem Counted.read (h : Counted latency p) (address : UInt32) :
    Counted latency (RegisterBlock.read address p).2 := by
  obtain ⟨-, hlatency, hle⟩ := busy_read address p
  refine ⟨hlatency.trans h.latency_eq, Nat.le_trans hle h.remaining_le, fun hpos => ?_⟩
  rw [commanded_read]
  exact h.commanded (Nat.lt_of_lt_of_le hpos hle)

theorem Counted.write (h : Counted latency p) (address value : UInt32) :
    Counted latency (RegisterBlock.write address value p) := by
  obtain ⟨-, hlatency, hremaining⟩ := busy_write address value p
  refine ⟨hlatency.trans h.latency_eq, ?_, fun hpos => ?_⟩
  · rcases hremaining with hsame | hfull
    · exact hsame ▸ h.remaining_le
    · exact Nat.le_of_eq (hfull.trans h.latency_eq)
  · rcases commanded_write address value p with ⟨hcommanded, hsame⟩ | hsome
    · rw [hcommanded]
      exact h.commanded (hsame ▸ hpos)
    · exact hsome

/-- **Every access keeps the count.** -/
theorem Reachable.counted (h : Reachable latency p) : Counted latency p := by
  induction h with
  | start => exact ⟨rfl, Nat.zero_le _, fun hpos => absurd hpos (Nat.lt_irrefl 0)⟩
  | read address _ ih => exact ih.read address
  | write address value _ ih => exact ih.write address value
  | barrier _ ih => exact ih.congr rfl rfl rfl
  | preset words _ ih =>
    simp only [presetText]
    exact ih.congr rfl rfl rfl
  | hold held _ ih => exact ih.congr rfl rfl rfl

/-- The registers of all units show it. -/
theorem Counted.shows (h : Counted latency p) : p.Shows busyAddresses := by
  have hall : ∀ unit : UnitIndex, (Register.busy unit).address ∈ busyAddresses := by decide
  intro hpos
  obtain ⟨unit, hunit⟩ := h.commanded hpos
  exact ⟨unit, hunit, hall unit⟩

/-- A command keeps its unit busy, and that unit's register shows it. -/
theorem shows_obey (unit : UnitIndex) (order : Command) (p : Peripheral) :
    (p.obey unit order).Shows [(Register.busy unit).address] :=
  fun _ => ⟨unit, rfl, List.mem_singleton.2 rfl⟩

/-! ## Counting down -/

theorem countDown_of_idle (h : p.remaining = 0) (polls : Nat) : p.countDown polls = p := by
  rw [countDown, h, Nat.zero_sub, ← h]

theorem countDown_countDown (polls more : Nat) :
    (p.countDown polls).countDown more = p.countDown (polls + more) := by
  simp only [countDown, Nat.sub_sub]

/-- Busy time that is used up is no different by how it was. -/
theorem countDown_of_le {polls : Nat} (h : p.remaining ≤ polls) :
    p.countDown polls = { p with remaining := 0 } := by
  rw [countDown, Nat.sub_eq_zero_of_le h]

theorem Shows.countDown (h : p.Shows addresses) (polls : Nat) : (p.countDown polls).Shows addresses :=
  fun hpos => h (Nat.lt_of_lt_of_le hpos (Nat.sub_le _ _))

theorem Counted.countDown (h : Counted latency p) (polls : Nat) :
    Counted latency (p.countDown polls) where
  latency_eq := h.latency_eq
  remaining_le := Nat.le_trans (Nat.sub_le _ _) h.remaining_le
  commanded hpos := h.commanded (Nat.lt_of_lt_of_le hpos (Nat.sub_le _ _))

/-- A read of a busy register finds the unit that has busy time, and takes one off it. -/
theorem read_busy (unit : UnitIndex) (hfree : p.held = false) :
    RegisterBlock.read (Register.busy unit).address p =
      if p.commanded = some unit ∧ 0 < p.remaining then (1, p.countDown 1) else (0, p) := by
  have hnot : ¬ p.held = true := by simp [hfree]
  simp only [read_address, readRegister, if_neg hnot]
  rfl

end Peripheral

/-! ## Waits -/

variable {κ μ : Type} {e : Engine Peripheral κ μ} {addresses : List UInt32}

namespace EngineM

/-- What counting relies on, and no access changes: nobody holds the busy registers set, and the
settings are the owner's. -/
structure Countable (latency : Nat) (settings : Settings) (e : Engine Peripheral κ μ) : Prop where
  counted : e.registers.Counted latency
  free : e.registers.held = false
  settings_eq : e.settings = settings

theorem keptByAccess_countable {latency : Nat} {settings : Settings} :
    KeptByAccess (Countable (κ := κ) (μ := μ) latency settings) where
  note h := ⟨h.counted, h.free, h.settings_eq⟩
  read {e a} h := ⟨h.counted.read a, (Peripheral.busy_read a e.registers).1.trans h.free, h.settings_eq⟩
  write {e a v} h :=
    ⟨h.counted.write a v, (Peripheral.busy_write a v e.registers).1.trans h.free, h.settings_eq⟩
  fence h := ⟨h.counted.congr rfl rfl rfl, h.free, h.settings_eq⟩

/-- Whatever is called, the count goes on, and the settings stay. -/
theorem kept_counted [GatedClock κ] [EngineMutex μ] {latency : Nat} {settings : Settings} :
    Kept fun e : Engine Peripheral κ μ => e.registers.Counted latency ∧ e.settings = settings where
  note h := h
  read {_ a} h := ⟨h.1.read a, h.2⟩
  write {_ a v} h := ⟨h.1.write a v, h.2⟩
  fence h := ⟨h.1.congr rfl rfl rfl, h.2⟩
  phase _ h := h
  begun h := h
  ended h := h
  reentered h := h
  created h := creationKeeps_of_forall (fun h => h) _ h
  enable h := h
  disable h := h
  query h := h
  tried h := h
  unlocked h := h

/-- **A poll takes one off the busy time**, if there is any, and finds it so. -/
theorem counted_anySet
    (hbusy : ∀ address ∈ addresses, ∃ unit, address = (Register.busy unit).address)
    (hfree : e.registers.held = false) (hshows : e.registers.Shows addresses) :
    Returns (anySet addresses) e fun set e' =>
      set = decide (0 < e.registers.remaining) ∧ e'.registers = e.registers.countDown 1 := by
  have hidle : ∀ {e : Engine Peripheral κ μ}, e.registers.remaining = 0 →
      false = decide (0 < e.registers.remaining) ∧ e.registers = e.registers.countDown 1 := by
    intro e hzero
    rw [Peripheral.countDown_of_idle hzero, hzero]
    exact ⟨rfl, rfl⟩
  induction addresses generalizing e with
  | nil =>
    refine returns_pure (hidle (Nat.eq_zero_of_not_pos fun hpos => ?_))
    obtain ⟨_, _, hmem⟩ := hshows hpos
    exact List.not_mem_nil hmem
  | cons address rest ih =>
    obtain ⟨unit, rfl⟩ := hbusy address List.mem_cons_self
    have hrun := run_readRegister e (Register.busy unit).address
    simp only [Peripheral.read_busy unit hfree] at hrun
    unfold anySet
    by_cases hset : e.registers.commanded = some unit ∧ 0 < e.registers.remaining
    · simp only [if_pos hset] at hrun
      exact Returns.next hrun (returns_pure ⟨(decide_eq_true hset.2).symm, rfl⟩)
    · simp only [if_neg hset] at hrun
      -- a unit that is not the busy one has not been touched
      refine Returns.next hrun (ih (fun other hother => hbusy other (List.mem_cons_of_mem _ hother))
        hfree fun hpos => ?_)
      obtain ⟨busy, hcommanded, hmem⟩ := hshows hpos
      refine ⟨busy, hcommanded, (List.mem_cons.1 hmem).resolve_left fun heq => hset ⟨?_, hpos⟩⟩
      have hregister := congrArg Register.decode? heq
      rw [Register.decode?_address, Register.decode?_address] at hregister
      cases hregister
      exact hcommanded

/-- **Polls count down together**: they find the registers clear if the last of them may. -/
theorem counted_pollAgain
    (hbusy : ∀ address ∈ addresses, ∃ unit, address = (Register.busy unit).address)
    (rereads : Nat) (hfree : e.registers.held = false) (hshows : e.registers.Shows addresses) :
    Returns (pollAgain (anySet addresses) rereads) e fun clear e' =>
      clear = decide (e.registers.remaining ≤ rereads) ∧
        e'.registers = e.registers.countDown (rereads + 1) := by
  induction rereads generalizing e with
  | zero =>
    unfold pollAgain
    refine (counted_anySet hbusy hfree hshows).bind fun set e' he => returns_pure ?_
    obtain ⟨rfl, hregisters⟩ := he
    refine ⟨?_, hregisters⟩
    by_cases hpos : 0 < e.registers.remaining <;> simp [hpos] <;> omega
  | succ rereads ih =>
    unfold pollAgain
    refine (counted_anySet hbusy hfree hshows).bind fun set e' he => ?_
    obtain ⟨rfl, hregisters⟩ := he
    refine Returns.ite (fun hset => ?_) fun hclear => ?_
    · refine (ih (hregisters ▸ hfree) (hregisters ▸ hshows.countDown 1)).mono fun clear e'' hr => ?_
      obtain ⟨rfl, hlater⟩ := hr
      have hpos := of_decide_eq_true hset
      refine ⟨?_, by rw [hlater, hregisters, Peripheral.countDown_countDown, Nat.add_comm 1]⟩
      rw [hregisters]
      exact decide_eq_decide.2 (by simp only [Peripheral.countDown]; omega)
    · have hzero : e.registers.remaining = 0 := by simpa using hclear
      refine returns_pure ⟨by simp [hzero], ?_⟩
      rw [hregisters, Peripheral.countDown_of_idle hzero, Peripheral.countDown_of_idle hzero]

/-- **A wait within a poll limit** ends well just if the busy time is within the limit. It takes one poll
more than the limit off the busy time, or all there is. -/
theorem counted_await {limit : Nat}
    (hbusy : ∀ address ∈ addresses, ∃ unit, address = (Register.busy unit).address)
    (hfree : e.registers.held = false) (hshows : e.registers.Shows addresses)
    (hlimit : e.settings.pollLimit = some limit) :
    Returns (await (anySet addresses)) e fun outcome e' =>
      outcome = (if e.registers.remaining ≤ limit then .ok () else .error .stillBusy) ∧
        e'.registers = e.registers.countDown (limit + 1) := by
  unfold await
  refine Returns.next rfl ?_
  rw [hlimit]
  refine (counted_pollAgain hbusy limit hfree hshows).bind fun clear e' he => ?_
  obtain ⟨rfl, hregisters⟩ := he
  refine Returns.ite (fun hclear => ?_) fun hset => ?_
  · exact returns_pure ⟨(if_pos (of_decide_eq_true hclear)).symm, hregisters⟩
  · refine Returns.next (run_note _ _) (returns_pure ⟨(if_neg ?_).symm, hregisters⟩)
    simpa using hset

theorem counted_awaitIdle {latency limit : Nat} {settings : Settings}
    (h : Countable latency settings e) (hlimit : settings.pollLimit = some limit) :
    Returns awaitIdle e fun outcome e' =>
      outcome = (if e.registers.remaining ≤ limit then .ok () else .error .stillBusy) ∧
        e'.registers = e.registers.countDown (limit + 1) :=
  counted_await (fun _ hmem => exists_of_mem_busyAddresses hmem) h.free h.counted.shows
    (h.settings_eq ▸ hlimit)

end EngineM

end HashAccelerator
