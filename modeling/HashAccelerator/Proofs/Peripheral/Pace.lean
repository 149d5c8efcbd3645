import HashAccelerator.Proofs.Engine.Coupled
import HashAccelerator.Proofs.Peripheral.Readiness
import HashAccelerator.Proofs.Stream.Coupled
/-!
# The pace of the accelerator

How long a unit is busy is nothing that a driver sees but by the number of its polls. Two engines
are `InStep` if they are ready and agree on everything but the busy time, the poll limit and the
polls: the slow one and the quick one go through every call side by side, with the same answer.
-/

namespace HashAccelerator

open EngineM

variable {κ μ : Type} {e e' e'' : Engine Peripheral κ μ}

/-! ## Beside the busy time -/

namespace Peripheral

/-- The accelerator with no busy time left, and none to come. -/
def timeless (p : Peripheral) : Peripheral := { p with latency := 0, remaining := 0 }

/-- Hashing takes the text and the chaining value only. -/
theorem timeless_hashText (unit : RunningUnit) (p : Peripheral) :
    (p.hashText unit).timeless = p.timeless.hashText unit := by
  have hbytes : p.timeless.textBytes = p.textBytes := rfl
  unfold hashText
  rw [hbytes]
  cases unit.chain.compress (.ofUnit unit.index) p.textBytes with
  | ok chain => rfl
  | error fault => rfl

theorem timeless_perform (unit : UnitIndex) (order : Command) (p : Peripheral) :
    (p.perform unit order).timeless = p.timeless.perform unit order := by
  have hrunning : p.timeless.runningAs unit = p.runningAs unit := rfl
  unfold perform
  rw [hrunning]
  cases order with
  | start => exact timeless_hashText _ _
  | resume =>
    cases p.runningAs unit with
    | none => rfl
    | some running => exact timeless_hashText running p
  | load =>
    cases p.runningAs unit with
    | none => rfl
    | some running => rfl

/-- A command leaves the same behind at any pace. -/
theorem timeless_obey (unit : UnitIndex) (order : Command) (p : Peripheral) :
    (p.obey unit order).timeless = (p.timeless.obey unit order).timeless := by
  let noted (p : Peripheral) : Peripheral := { p with
    unfenced := p.unfenced + (if p.textUnfenced then 1 else 0)
    commandUnfenced := true }
  have hperform : ((noted p).perform unit order).timeless =
      ((noted p.timeless).perform unit order).timeless :=
    (timeless_perform unit order (noted p)).trans
      (timeless_perform unit order (noted p.timeless)).symm
  exact congrArg (fun q : Peripheral => { q with commanded := some unit }) hperform

/-- **What a write does** does not depend on the busy time. -/
theorem timeless_write (address value : UInt32) (p : Peripheral) :
    (RegisterBlock.write address value p).timeless =
      (RegisterBlock.write address value p.timeless).timeless := by
  obtain ⟨register, rfl⟩ | hnone := Register.exists_address_or_none address
  · rw [write_address, write_address]
    cases register with
    | text index => rfl
    | busy unit => rfl
    | command unit order =>
      simp only [writeRegister]
      split
      · exact timeless_obey unit order p
      · rfl
  · rw [write_of_decode?_eq_none hnone, write_of_decode?_eq_none hnone]
    rfl

/-- Text is read alike at any pace. -/
theorem timeless_readText {index : Nat} (h : index < 32) (p : Peripheral) :
    (RegisterBlock.read (textAddress index) p).1 =
        (RegisterBlock.read (textAddress index) p.timeless).1 ∧
      (RegisterBlock.read (textAddress index) p).2.timeless =
        (RegisterBlock.read (textAddress index) p.timeless).2.timeless := by
  have hread : ∀ q : Peripheral, RegisterBlock.read (textAddress index) q =
      q.readRegister (.text ⟨index, h⟩) := read_address (.text ⟨index, h⟩)
  rw [hread, hread]
  exact ⟨rfl, rfl⟩

/-- A poll takes busy time and nothing else. -/
theorem timeless_poll (unit : UnitIndex) (p : Peripheral) :
    (RegisterBlock.read (Register.busy unit).address p).2.timeless = p.timeless := by
  simp only [read_address, readRegister]
  split
  · rfl
  · split
    · rfl
    · rfl

end Peripheral

/-! ## Engines in step -/

/-- A busy register is read. -/
def Event.isPoll : Event → Bool
  | .read address _ => decide (address ∈ busyAddresses)
  | _ => false

/-- **Two engines in step**: both are ready, and they differ in nothing but their busy time, their poll
limit and the polls in their past. -/
structure Engine.InStep (e e' : Engine Peripheral κ μ) : Prop where
  registers : e.registers.timeless = e'.registers.timeless
  clock : e.clock = e'.clock
  mutex : e.mutex = e'.mutex
  timeout : e.settings.mutexTimeout = e'.settings.mutexTimeout
  phase : e.phase = e'.phase
  calls : e.history.filter (!·.isPoll) = e'.history.filter (!·.isPoll)
  notices : e.notices = e'.notices
  ready : e.Ready
  ready' : e'.Ready

namespace Engine.InStep

theorem refl (h : e.Ready) : e.InStep e := ⟨rfl, rfl, rfl, rfl, rfl, rfl, rfl, h, h⟩

theorem symm (h : e.InStep e') : e'.InStep e :=
  ⟨h.registers.symm, h.clock.symm, h.mutex.symm, h.timeout.symm, h.phase.symm, h.calls.symm,
    h.notices.symm, h.ready', h.ready⟩

theorem trans (h : e.InStep e') (h' : e'.InStep e'') : e.InStep e'' :=
  ⟨h.registers.trans h'.registers, h.clock.trans h'.clock, h.mutex.trans h'.mutex,
    h.timeout.trans h'.timeout, h.phase.trans h'.phase, h.calls.trans h'.calls,
    h.notices.trans h'.notices, h.ready, h'.ready'⟩

end Engine.InStep

/-- One more call on either side. -/
theorem Event.filter_isPoll_cons {past past' : List Event} {event event' : Event}
    (hevent : event = event') (h : past.filter (!·.isPoll) = past'.filter (!·.isPoll)) :
    (event :: past).filter (!·.isPoll) = (event' :: past').filter (!·.isPoll) := by
  rw [hevent]
  simp only [List.filter_cons, h]

namespace EngineM

variable [GatedClock κ] [EngineMutex μ]

/-! ## Single calls -/

theorem coupled_note (notice : Notice) :
    Coupled (Engine.InStep (κ := κ) (μ := μ)) (note notice) Engine.InStep := fun _ _ h =>
  ⟨(), _, _, run_note _ _, run_note _ _,
    { h with
      notices := congrArg (notice :: ·) h.notices
      ready := kept_ready.note h.ready
      ready' := kept_ready.note h.ready' }⟩

theorem coupled_writeRegister (address value : UInt32) :
    Coupled (Engine.InStep (κ := κ) (μ := μ)) (writeRegister address value) Engine.InStep :=
  fun e e' h => by
    have hregisters := (Peripheral.timeless_write address value e.registers).trans
      ((congrArg (fun p => (RegisterBlock.write address value p).timeless) h.registers).trans
        (Peripheral.timeless_write address value e'.registers).symm)
    exact ⟨(), _, _, run_writeRegister _ _ _, run_writeRegister _ _ _,
      { h with
        registers := hregisters
        calls := Event.filter_isPoll_cons rfl h.calls
        ready := kept_ready.write h.ready
        ready' := kept_ready.write h.ready' }⟩

theorem coupled_fence :
    Coupled (Engine.InStep (κ := κ) (μ := μ)) fence Engine.InStep := fun _ _ h =>
  ⟨(), _, _, run_fence _, run_fence _,
    { h with
      registers := congrArg RegisterBlock.barrier h.registers
      calls := Event.filter_isPoll_cons rfl h.calls
      ready := kept_ready.fence h.ready
      ready' := kept_ready.fence h.ready' }⟩

/-- **Text is read alike.** -/
theorem coupled_readText (index count : Nat) (hroom : index + count ≤ 32) :
    Coupled (Engine.InStep (κ := κ) (μ := μ)) (readText index count) Engine.InStep := by
  induction count generalizing index with
  | zero => exact coupled_pure []
  | succ count ih =>
    have hread : Coupled (Engine.InStep (κ := κ) (μ := μ)) (readRegister (textAddress index))
        Engine.InStep := coupled_of_run fun e e' h => by
      have hindex : index < 32 := by omega
      obtain ⟨hvalue, hleft⟩ := Peripheral.timeless_readText hindex e.registers
      obtain ⟨hvalue', hleft'⟩ := Peripheral.timeless_readText hindex e'.registers
      rw [h.registers] at hvalue hleft
      have hsame := hvalue.trans hvalue'.symm
      exact ⟨_, _, _, _, run_readRegister _ _, run_readRegister _ _, hsame,
        { h with
          registers := hleft.trans hleft'.symm
          calls := Event.filter_isPoll_cons (congrArg (Event.read (textAddress index)) hsame) h.calls
          ready := kept_ready.read h.ready
          ready' := kept_ready.read h.ready' }⟩
    unfold readText
    exact hread.bind fun word => (ih (index + 1) (by omega)).map (word :: ·)

/-! ## Waits -/

section Waits

variable {addresses : List UInt32}

/-- A poll leaves the engine in step with what it was. -/
theorem inStep_anySet (hbusy : ∀ address ∈ addresses, address ∈ busyAddresses) (h : e.Ready) :
    Always (anySet addresses) e fun _ t => e.InStep t := by
  induction addresses generalizing e with
  | nil => simpa [anySet] using Engine.InStep.refl h
  | cons address rest ih =>
    have hmem := hbusy address List.mem_cons_self
    obtain ⟨unit, hunit⟩ := exists_of_mem_busyAddresses hmem
    have hpoll : (Event.read address (RegisterBlock.read address e.registers).1).isPoll = true :=
      decide_eq_true hmem
    have hread : e.InStep { e with
        registers := (RegisterBlock.read address e.registers).2
        history := .read address (RegisterBlock.read address e.registers).1 :: e.history } :=
      { Engine.InStep.refl h with
        registers := hunit ▸ (Peripheral.timeless_poll unit e.registers).symm
        calls := by simp [hpoll]
        ready' := kept_ready.read h }
    simp only [anySet, always_bind, always_readRegister]
    refine Always.ite (fun _ => ?_) fun _ => ?_
    · simpa using hread
    · exact (ih (fun other hother => hbusy other (List.mem_cons_of_mem _ hother))
        hread.ready').mono fun _ t ht => hread.trans ht

/-- **A wait comes to the same at any pace.** -/
theorem coupled_await (hbusy : ∀ address ∈ addresses, address ∈ busyAddresses) :
    Coupled (Engine.InStep (κ := κ) (μ := μ)) (await (anySet addresses)) Engine.InStep := by
  have hone : ∀ {e : Engine Peripheral κ μ}, e.Ready →
      Returns (await (anySet addresses)) e fun outcome t => outcome = .ok () ∧ e.InStep t := by
    intro e h
    have hpolls : ∀ rereads, Always (pollAgain (anySet addresses) rereads) e fun _ t => e.InStep t :=
      fun rereads => always_pollAgain (fun t ht =>
        (inStep_anySet hbusy ht.ready').mono fun _ _ hu => ht.trans hu) rereads (.refl h)
    have hstep : Always (await (anySet addresses)) e fun outcome t =>
        outcome = .ok () → e.InStep t := by
      simp only [await, always_bind, always_get]
      cases e.settings.pollLimit with
      | none =>
        refine always_bind.2 ((hpolls _).mono fun clear t ht => Always.ite (fun _ => ?_) fun _ => ?_)
        · simpa using ht
        · exact always_never
      | some limit =>
        refine always_bind.2 ((hpolls _).mono fun clear t ht => Always.ite (fun _ => ?_) fun _ => ?_)
        · simpa using ht
        · simp
    exact ((returns_await (fun address hmem => exists_of_mem_busyAddresses (hbusy address hmem))
      h).and_always hstep).mono fun outcome t ht => ⟨ht.1, ht.2 ht.1⟩
  intro e e' h
  obtain ⟨outcome, t, hrun, rfl, ht⟩ := hone h.ready
  obtain ⟨outcome', t', hrun', rfl, ht'⟩ := hone h.ready'
  exact ⟨_, t, t', hrun, hrun', ht.symm.trans (h.trans ht')⟩

end Waits

/-! ## The clock and the mutex -/

section Taking

theorem coupled_enableClock :
    Coupled (Engine.InStep (κ := κ) (μ := μ)) enableClock Engine.InStep := fun _ _ h =>
  ⟨(), _, _, run_enableClock _, run_enableClock _,
    { h with
      clock := congrArg GatedClock.enable h.clock
      calls := Event.filter_isPoll_cons rfl h.calls
      ready := kept_ready.enable h.ready
      ready' := kept_ready.enable h.ready' }⟩

theorem coupled_disableClock :
    Coupled (Engine.InStep (κ := κ) (μ := μ)) disableClock Engine.InStep := fun _ _ h =>
  ⟨(), _, _, run_disableClock _, run_disableClock _,
    { h with
      clock := congrArg GatedClock.disable h.clock
      calls := Event.filter_isPoll_cons rfl h.calls
      ready := kept_ready.disable h.ready
      ready' := kept_ready.disable h.ready' }⟩

theorem coupled_isClockEnabled :
    Coupled (Engine.InStep (κ := κ) (μ := μ)) isClockEnabled Engine.InStep :=
  coupled_of_run fun _ _ h => by
    have hanswer := congrArg GatedClock.isEnabled h.clock
    exact ⟨_, _, _, _, run_isClockEnabled _, run_isClockEnabled _, congrArg Prod.fst hanswer,
      { h with
        clock := congrArg Prod.snd hanswer
        calls := Event.filter_isPoll_cons (congrArg (fun r => Event.clockQueried r.1) hanswer) h.calls
        ready := kept_ready.query h.ready
        ready' := kept_ready.query h.ready' }⟩

omit [GatedClock κ] in
theorem coupled_tryMutex (timeout : Nat) :
    Coupled (Engine.InStep (κ := κ) (μ := μ)) (tryMutex timeout) Engine.InStep :=
  coupled_of_run fun _ _ h => by
    have hanswer := congrArg (EngineMutex.tryLock timeout) h.mutex
    exact ⟨_, _, _, _, run_tryMutex _ _, run_tryMutex _ _, congrArg Prod.fst hanswer,
      { h with
        mutex := congrArg Prod.snd hanswer
        calls := Event.filter_isPoll_cons (congrArg (fun r => Event.lockTried timeout r.1) hanswer)
          h.calls
        ready := h.ready.quiet rfl rfl
        ready' := h.ready'.quiet rfl rfl }⟩

theorem coupled_unlockMutex :
    Coupled (Engine.InStep (κ := κ) (μ := μ)) unlockMutex Engine.InStep := fun _ _ h =>
  ⟨(), _, _, run_unlockMutex _, run_unlockMutex _,
    { h with
      mutex := congrArg EngineMutex.unlock h.mutex
      calls := Event.filter_isPoll_cons rfl h.calls
      ready := kept_ready.unlocked h.ready
      ready' := kept_ready.unlocked h.ready' }⟩

/-- **Taking the engine and giving it back** are answered alike at any pace. -/
theorem coupledTaking_inStep : CoupledTaking (Engine.InStep (κ := κ) (μ := μ)) where
  mutex h := h.mutex
  timeout h := h.timeout
  phase h := h.phase
  note := coupled_note
  record _ := coupled_modify fun _ _ h =>
    { h with
      calls := Event.filter_isPoll_cons rfl h.calls
      ready := h.ready.quiet rfl rfl
      ready' := h.ready'.quiet rfl rfl }
  setMutex _ := coupled_modify fun _ _ h =>
    { h with
      mutex := rfl
      ready := h.ready.quiet rfl rfl
      ready' := h.ready'.quiet rfl rfl }
  setPhase _ := coupled_modify fun _ _ h =>
    { h with
      phase := rfl
      ready := h.ready.quiet rfl rfl
      ready' := h.ready'.quiet rfl rfl }
  enable := coupled_enableClock
  disable := coupled_disableClock
  query := coupled_isClockEnabled
  attempt := coupled_tryMutex
  unlock := coupled_unlockMutex

end Taking

/-! ## Blocks and digests -/

theorem coupled_writeText (index : Nat) (words : List UInt32) :
    Coupled (Engine.InStep (κ := κ) (μ := μ)) (writeText index words) Engine.InStep := by
  induction words generalizing index with
  | nil => exact coupled_pure ()
  | cons word rest ih =>
    unfold writeText
    exact (coupled_writeRegister _ _).bind fun _ => ih _

theorem coupled_fitBlock (algorithm : Algorithm) (words : List UInt32) :
    Coupled (Engine.InStep (κ := κ) (μ := μ)) (fitBlock algorithm words) Engine.InStep :=
  Coupled.ite ((coupled_note _).map _) (Coupled.ite ((coupled_note _).map _) (coupled_pure _))

theorem coupled_command (a : Operation) (first : Bool) :
    Coupled (Engine.InStep (κ := κ) (μ := μ)) (command a first) Engine.InStep := by
  unfold command
  cases a.algorithm.bank? with
  | none => exact (coupled_note _).map _
  | some bank =>
    exact (coupled_writeRegister _ _).bind fun _ => coupled_fence.bind fun _ => (coupled_note _).map _

theorem coupled_awaitIdle :
    Coupled (Engine.InStep (κ := κ) (μ := μ)) awaitIdle Engine.InStep :=
  coupled_await fun _ h => h

theorem coupled_submit (a : Operation) (words : List UInt32) :
    Coupled (Engine.InStep (κ := κ) (μ := μ)) (submit a words) Engine.InStep := by
  unfold submit
  refine (coupled_note _).bind fun _ => ?_
  cases a.mode with
  | uncommitted => exact (coupled_note _).map _
  | software => exact (coupled_note _).map _
  | unsettled => exact (coupled_note _).map _
  | hardware first =>
    refine (coupled_fitBlock _ _).bind fun fitted => ?_
    cases fitted with
    | error fault => exact coupled_pure _
    | ok words =>
      refine coupled_awaitIdle.bind fun outcome => ?_
      cases outcome with
      | error fault => exact coupled_pure _
      | ok => exact (coupled_writeText _ _).bind fun _ => coupled_fence.bind fun _ => coupled_command _ _

theorem coupled_loadDigest (unit : UnitIndex) :
    Coupled (Engine.InStep (κ := κ) (μ := μ)) (loadDigest (.ofUnit (UnitIndex.toWord unit)))
      Engine.InStep := by
  have hclear : Coupled (Engine.InStep (κ := κ) (μ := μ))
      (awaitClear (RegisterBank.ofUnit (UnitIndex.toWord unit)).busy) Engine.InStep :=
    coupled_await fun address h => by
      rw [List.mem_singleton.1 h]
      exact List.mem_map.2 ⟨unit.val, List.mem_range.2 unit.isLt, rfl⟩
  unfold loadDigest
  refine coupled_awaitIdle.bind fun outcome => ?_
  cases outcome with
  | error fault => exact coupled_pure _
  | ok =>
    refine (coupled_writeRegister _ _).bind fun _ => coupled_fence.bind fun _ => ?_
    refine hclear.bind fun outcome => ?_
    cases outcome with
    | error fault => exact coupled_pure _
    | ok =>
      refine coupled_awaitIdle.bind fun outcome => ?_
      cases outcome with
      | error fault => exact coupled_pure _
      | ok => exact coupled_fence.map _

theorem coupled_fetch (a : Operation) (out : List UInt32) :
    Coupled (Engine.InStep (κ := κ) (μ := μ)) (fetch a out) Engine.InStep := by
  have hroom : 0 + a.algorithm.digestWords ≤ 32 := by
    cases a.algorithm <;> decide
  unfold fetch
  refine (coupled_note _).bind fun _ => ?_
  cases a.mode with
  | uncommitted => exact (coupled_note _).map _
  | software => exact (coupled_note _).map _
  | unsettled => exact (coupled_note _).map _
  | hardware first =>
    cases first with
    | true => exact coupled_pure _
    | false =>
      simp only [Algorithm.bank?]
      cases a.algorithm.unit? with
      | none => exact coupled_pure _
      | some unit =>
        refine Coupled.ite (coupled_pure _) ((coupled_loadDigest unit).bind fun outcome => ?_)
        cases outcome with
        | error fault => exact coupled_pure _
        | ok =>
          refine ((coupled_readText 0 _ hroom).map _).bind fun words => ?_
          exact (coupled_note _).map _

end EngineM

/-- **The calls of an operation** are answered alike at any pace. -/
theorem coupledCalls_inStep [GatedClock κ] [EngineMutex μ] :
    CoupledCalls (Engine.InStep (κ := κ) (μ := μ)) where
  note := coupled_note
  acquire := coupledTaking_inStep.acquire
  submit := coupled_submit
  fetch := coupled_fetch
  release := coupledTaking_inStep.release

end HashAccelerator
