import HashAccelerator.Proofs.Always
/-!
# Properties that calls keep

A property of the engine that every call on a part of the platform keeps is kept by every action
built from such calls. The structures here say which calls a property has to survive: `KeptByReads`
for the waits, `KeptByAccess` for the register protocol, `KeptByCreation` for making the mutex
usable, `KeptByTaking` for the clock and the mutex, and `Kept` for all of them together. A property
that only survives the register protocol as a whole is `KeptByProtocol`. The theorems carry a
property along the actions.

A creation may have the engine asked for while it is under way. Such a request meets a mutex that is
being created and is sent to software on the spot (`run_acquireBy_creating`), so it keeps whatever a
line of the log keeps.
-/

namespace HashAccelerator

namespace EngineM

variable {ρ κ μ : Type} {I : Engine ρ κ μ → Prop} {engine : Engine ρ κ μ}

/-! ## The register protocol -/

section Registers

variable [RegisterBlock ρ]

/-- What neither the log nor a read of a register changes. -/
structure KeptByReads (I : Engine ρ κ μ → Prop) : Prop where
  note : ∀ {e : Engine ρ κ μ} {n}, I e → I { e with notices := n :: e.notices }
  read : ∀ {e : Engine ρ κ μ} {a}, I e → I { e with
    registers := (RegisterBlock.read a e.registers).2
    history := .read a (RegisterBlock.read a e.registers).1 :: e.history }

/-- What no access to a register changes. -/
structure KeptByAccess (I : Engine ρ κ μ → Prop) : Prop extends KeptByReads I where
  write : ∀ {e : Engine ρ κ μ} {a v}, I e → I { e with
    registers := RegisterBlock.write a v e.registers
    history := .write a v :: e.history }
  fence : ∀ {e : Engine ρ κ μ}, I e → I { e with
    registers := RegisterBlock.barrier e.registers
    history := .barrier :: e.history }

omit [RegisterBlock ρ] in
theorem always_pollAgain {busy : EngineM ρ κ μ Bool}
    (hbusy : ∀ e, I e → Always busy e fun _ e' => I e') (rereads : Nat) (h : I engine) :
    Always (pollAgain busy rereads) engine fun _ e => I e := by
  induction rereads generalizing engine with
  | zero => simpa [pollAgain] using hbusy engine h
  | succ rereads ih =>
    simp only [pollAgain, always_bind]
    refine (hbusy engine h).mono fun b e he => Always.ite (fun _ => ih he) (fun _ => ?_)
    simpa using he

theorem always_anySet (hI : KeptByReads I) (addresses : List UInt32) (h : I engine) :
    Always (anySet addresses) engine fun _ e => I e := by
  induction addresses generalizing engine with
  | nil => simpa [anySet] using h
  | cons address rest ih =>
    simp only [anySet, always_bind, always_readRegister]
    exact Always.ite (fun _ => by simpa using hI.read h) (fun _ => ih (hI.read h))

theorem always_await (hI : KeptByReads I) {busy : EngineM ρ κ μ Bool}
    (hbusy : ∀ e, I e → Always busy e fun _ e' => I e') (h : I engine) :
    Always (await busy) engine fun _ e => I e := by
  simp only [await, always_bind, always_get]
  cases engine.settings.pollLimit with
  | none =>
    refine always_bind.2 ((always_pollAgain hbusy _ h).mono fun b e he => ?_)
    exact Always.ite (fun _ => by simpa using he) (fun _ => always_never)
  | some limit =>
    refine always_bind.2 ((always_pollAgain hbusy _ h).mono fun b e he => ?_)
    exact Always.ite (fun _ => by simpa using he) (fun _ => by simpa using hI.note he)

/-- **A wait only reads.** -/
theorem KeptByReads.awaitClear (hI : KeptByReads I) (address : UInt32) (h : I engine) :
    Always (awaitClear address) engine fun _ e => I e :=
  always_await hI (fun _ he => always_anySet hI _ he) h

theorem KeptByReads.awaitIdle (hI : KeptByReads I) (h : I engine) :
    Always awaitIdle engine fun _ e => I e :=
  always_await hI (fun _ he => always_anySet hI _ he) h

theorem KeptByReads.readText (hI : KeptByReads I) (index count : Nat) (h : I engine) :
    Always (readText index count) engine fun _ e => I e := by
  induction count generalizing engine index with
  | zero => simpa [EngineM.readText] using h
  | succ count ih =>
    simp only [EngineM.readText, always_bind, always_readRegister, always_pure]
    exact ih _ (hI.read h)

theorem KeptByAccess.writeText (hI : KeptByAccess I) (index : Nat) (words : List UInt32)
    (h : I engine) : Always (writeText index words) engine fun _ e => I e := by
  induction words generalizing engine index with
  | nil => simpa [EngineM.writeText] using h
  | cons word rest ih =>
    simp only [EngineM.writeText, always_bind, always_writeRegister]
    exact ih _ (hI.write h)

theorem KeptByAccess.loadDigest (hI : KeptByAccess I) (bank : RegisterBank) (h : I engine) :
    Always (loadDigest bank) engine fun _ e => I e := by
  simp only [EngineM.loadDigest, always_bind]
  refine (hI.awaitIdle h).mono fun outcome e he => ?_
  cases outcome with
  | error fault => simpa using he
  | ok =>
    simp only [always_bind, always_writeRegister, always_fence]
    refine (hI.awaitClear _ (hI.fence (hI.write he))).mono fun outcome e he => ?_
    cases outcome with
    | error fault => simpa using he
    | ok =>
      refine always_bind.2 ((hI.awaitIdle he).mono fun outcome e he => ?_)
      cases outcome with
      | error fault => simpa using he
      | ok => simpa using hI.fence he

omit [RegisterBlock ρ] in
theorem always_fitBlock
    (hnote : ∀ {e : Engine ρ κ μ} {n}, I e → I { e with notices := n :: e.notices })
    (algorithm : Algorithm) (words : List UInt32) (h : I engine) :
    Always (fitBlock algorithm words) engine fun _ e => I e := by
  refine Always.ite (fun _ => ?_) fun _ => Always.ite (fun _ => ?_) fun _ => ?_
  · simpa using hnote h
  · simpa using hnote h
  · simpa using h

/-- **A readout is a matter of registers alone**, and leaves its operation as it is. -/
theorem KeptByAccess.fetch (hI : KeptByAccess I) (operation : Operation) (out : List UInt32)
    (h : I engine) : Always (fetch operation out) engine fun _ e => I e := by
  simp only [EngineM.fetch, always_bind, always_note]
  have hnoted := hI.note (n := .fetching operation.algorithm) h
  cases operation.mode with
  | uncommitted => simpa using hI.note hnoted
  | software => simpa using hI.note hnoted
  | unsettled => simpa using hI.note hnoted
  | hardware first =>
    cases first with
    | true => simpa using hnoted
    | false =>
      cases operation.algorithm.bank? with
      | none => simpa using hnoted
      | some bank =>
        refine Always.ite (fun _ => by simpa using hnoted) fun _ => ?_
        refine always_bind.2 ((hI.loadDigest bank hnoted).mono fun outcome e he => ?_)
        cases outcome with
        | error fault => simpa using he
        | ok =>
          simp only [digestFromText, bind_assoc, always_bind]
          refine (hI.readText _ _ he).mono fun words e he => ?_
          simpa using hI.note he

/-- **Handing over a block is a matter of registers alone.** -/
theorem KeptByAccess.submit (hI : KeptByAccess I) (operation : Operation) (words : List UInt32)
    (h : I engine) : Always (submit operation words) engine fun _ e => I e := by
  simp only [EngineM.submit, always_bind, always_note]
  have hnoted := hI.note (n := .submitting operation.algorithm) h
  cases operation.mode with
  | uncommitted => simpa using hI.note hnoted
  | software => simpa using hI.note hnoted
  | unsettled => simpa using hI.note hnoted
  | hardware first =>
    refine always_bind.2 ((always_fitBlock hI.note _ _ hnoted).mono fun fitted e he => ?_)
    cases fitted with
    | error fault => simpa using he
    | ok words =>
      refine always_bind.2 ((hI.awaitIdle he).mono fun outcome e he => ?_)
      cases outcome with
      | error fault => simpa using he
      | ok =>
        refine always_bind.2 ((hI.writeText 0 words he).mono fun _ e he => ?_)
        simp only [always_bind, always_fence, command]
        cases operation.algorithm.bank? with
        | none => simpa using hI.note (hI.fence he)
        | some bank => simpa using hI.note (hI.fence (hI.write (hI.fence he)))

end Registers

/-! ## The mutex's creation -/

section Creation

/-- What the course of a creation does not change, whatever becomes of the engine at the places
where it asks for it. -/
def CreationKeeps (I : Engine ρ κ μ → Prop) : Creation μ → Engine ρ κ μ → Prop
  | .done _ mutex, e => I { e with mutex }
  | .ask mutex _ next, e => I { e with mutex } ∧
      ∀ outcome e', I e' → CreationKeeps I (next outcome e'.mutex) e'

/-- A property that has nothing to do with the mutex survives every creation. -/
theorem creationKeeps_of_forall (hI : ∀ {e : Engine ρ κ μ} {mutex}, I e → I { e with mutex })
    (creation : Creation μ) (h : I engine) : CreationKeeps I creation engine := by
  induction creation generalizing engine with
  | done outcome mutex => exact hI h
  | ask mutex algorithm next ih => exact ⟨hI h, fun outcome e' he' => ih _ _ he'⟩

/-- The requests of a creation leave its phase alone, so a creation keeps the phase with whatever
it keeps. -/
theorem CreationKeeps.creating {creation : Creation μ} (h : CreationKeeps I creation engine)
    (hphase : engine.phase = .creating) :
    CreationKeeps (fun e => I e ∧ e.phase = .creating) creation engine := by
  induction creation generalizing engine with
  | done outcome mutex => exact ⟨h, hphase⟩
  | ask mutex algorithm next ih =>
    exact ⟨⟨h.1, hphase⟩, fun _ e' he' => ih _ _ (h.2 _ e' he'.1) he'.2⟩

/-- What following a creation keeps, if the requests under way keep it. -/
theorem always_follow {acquire : Operation → EngineM ρ κ μ (Except Fault Path × Operation)}
    (hended : ∀ {e : Engine ρ κ μ} {outcome}, I e →
      I { e with history := .creationEnded outcome :: e.history })
    (hreentered : ∀ {e : Engine ρ κ μ} {outcome}, I e →
      I { e with history := .reentered outcome :: e.history })
    (hacquire : ∀ algorithm e, I e → Always (acquire (.fresh algorithm)) e fun _ e' => I e')
    (creation : Creation μ) (h : CreationKeeps I creation engine) :
    Always (follow acquire creation) engine fun _ e => I e := by
  induction creation generalizing engine with
  | done outcome mutex => simpa [follow] using hended h
  | ask mutex algorithm next ih =>
    simp only [follow, always_bind, always_modify]
    refine (hacquire algorithm _ h.1).mono fun answer e he => ?_
    simp only [always_record, always_get]
    exact ih _ _ (h.2 _ _ (hreentered he))

variable [EngineMutex μ]

/-- What making the mutex usable does not change. -/
structure KeptByCreation (I : Engine ρ κ μ → Prop) : Prop where
  note : ∀ {e : Engine ρ κ μ} {n}, I e → I { e with notices := n :: e.notices }
  phase : ∀ {e : Engine ρ κ μ} p, I e → I { e with phase := p }
  begun : ∀ {e : Engine ρ κ μ}, I e → I { e with history := .creationBegun :: e.history }
  ended : ∀ {e : Engine ρ κ μ} {outcome}, I e →
    I { e with history := .creationEnded outcome :: e.history }
  reentered : ∀ {e : Engine ρ κ μ} {outcome}, I e →
    I { e with history := .reentered outcome :: e.history }
  created : ∀ {e : Engine ρ κ μ}, I e → CreationKeeps I (EngineMutex.create e.mutex) e

variable [GatedClock κ]

/-- **A request during a creation is sent to software at once.** -/
theorem run_acquireBy_creating {create : EngineM ρ κ μ (Except MutexError Unit)}
    {algorithm : Algorithm} (h : engine.phase = .creating) :
    (acquireBy create (.fresh algorithm)).run engine =
      some ((.ok .software, .softwareOnly algorithm),
        { engine with notices := .acquiring algorithm :: engine.notices }) := by
  obtain ⟨registers, clock, mutex, settings, phase, history, notices⟩ := engine
  cases h
  rfl

omit [GatedClock κ] [EngineMutex μ] in
/-- A creation is the only call that making the mutex usable may come to. -/
theorem always_prepareMutex {create : EngineM ρ κ μ (Except MutexError Unit)}
    (hnote : ∀ {e : Engine ρ κ μ} {n}, I e → I { e with notices := n :: e.notices })
    (hphase : ∀ {e : Engine ρ κ μ} p, I e → I { e with phase := p })
    (hcreate : ∀ {e}, I e → e.phase = .creating → Always create e fun _ e' => I e')
    (h : I engine) : Always (prepareMutex create) engine fun _ e => I e := by
  simp only [prepareMutex, always_bind, always_get]
  cases engine.phase with
  | ready => simpa using h
  | creating => simpa using h
  | absent =>
    simp only [always_bind, always_modify]
    refine (hcreate (hphase .creating h) rfl).mono fun outcome e he => ?_
    cases outcome with
    | ok => simpa using hphase .ready he
    | error error => simpa using hnote (hphase .absent he)

/-- **Making the mutex usable** keeps what a creation and the log keep. -/
theorem KeptByCreation.prepareMutex (hI : KeptByCreation I) (h : I engine) :
    Always (prepareMutex (createMutex 1)) engine fun _ e => I e := by
  refine always_prepareMutex hI.note hI.phase (fun he hphase => ?_) h
  simp only [createMutex, always_bind, always_record, always_get]
  refine (always_follow (I := fun e => I e ∧ e.phase = .creating)
    (fun he => ⟨hI.ended he.1, he.2⟩) (fun he => ⟨hI.reentered he.1, he.2⟩) ?_ _
    ((hI.created (hI.begun he)).creating hphase)).mono fun _ _ he => he.1
  intro algorithm e he
  exact (always_iff_of_run (run_acquireBy_creating he.2)).2 ⟨hI.note he.1, he.2⟩

end Creation

/-! ## The clock -/

section Clock

variable [GatedClock κ]

/-- What no call on the clock changes. -/
structure KeptByClock (I : Engine ρ κ μ → Prop) : Prop where
  enable : ∀ {e : Engine ρ κ μ}, I e → I { e with
    clock := GatedClock.enable e.clock
    history := .clockEnabled :: e.history }
  disable : ∀ {e : Engine ρ κ μ}, I e → I { e with
    clock := GatedClock.disable e.clock
    history := .clockDisabled :: e.history }
  query : ∀ {e : Engine ρ κ μ}, I e → I { e with
    clock := (GatedClock.isEnabled e.clock).2
    history := .clockQueried (GatedClock.isEnabled e.clock).1 :: e.history }

theorem KeptByClock.disableUntilOff (hI : KeptByClock I) (owed : Nat) (h : I engine) :
    Always (disableUntilOff owed) engine fun _ e => I e := by
  induction owed generalizing engine with
  | zero => simpa [EngineM.disableUntilOff] using h
  | succ owed ih =>
    simp only [EngineM.disableUntilOff, always_bind, always_disableClock, always_isClockEnabled]
    have hasked := hI.query (hI.disable h)
    refine Always.ite (fun _ => ?_) fun _ => ?_
    · simpa using ih hasked
    · simpa using hasked

end Clock

/-! ## Asking for the engine -/

section Asking

variable [GatedClock κ] [EngineMutex μ] {a : Operation}
variable {create : EngineM ρ κ μ (Except MutexError Unit)}

/-- The engine after its mutex has been tried. -/
def tried (e : Engine ρ κ μ) : Engine ρ κ μ :=
  { e with
    mutex := (EngineMutex.tryLock e.settings.mutexTimeout e.mutex).2
    history := .lockTried e.settings.mutexTimeout
      (EngineMutex.tryLock e.settings.mutexTimeout e.mutex).1 :: e.history }

/-- **What a competition comes to**: a grant, for which the clock is enabled at once, or the software
path, because the mutex was not granted or there was none to try. -/
theorem always_compete {prepared : Bool → Engine ρ κ μ → Prop}
    {post : Path × Operation → Engine ρ κ μ → Prop}
    (hprepare : Always (prepareMutex create) engine prepared)
    (hgranted : ∀ e, prepared true e →
      (EngineMutex.tryLock e.settings.mutexTimeout e.mutex).1 = .granted →
      post (.hardware, { a with
          mode := .hardware true
          clockDebt := a.clockDebt + 1
          holdsMutex := true })
        { tried e with
          clock := GatedClock.enable e.clock
          history := .clockEnabled :: (tried e).history
          notices := .acquired :: e.notices })
    (hrefused : ∀ e notice, prepared true e →
      (EngineMutex.tryLock e.settings.mutexTimeout e.mutex).1 ≠ .granted →
      post (.software, { a with mode := .software }) { tried e with notices := notice :: e.notices })
    (hunready : ∀ e, prepared false e → post (.software, { a with mode := .software }) e) :
    Always (compete create a) engine post := by
  simp only [compete, always_bind]
  refine hprepare.mono fun ready e he => ?_
  cases ready with
  | true =>
    rw [if_pos rfl]
    simp only [always_bind, always_get, always_tryMutex]
    -- the answer stands in the history too, so it is abstracted in both at once
    have hwon := hgranted e he
    have hlost := fun notice => hrefused e notice he
    unfold tried at hwon hlost
    revert hwon hlost
    cases (EngineMutex.tryLock e.settings.mutexTimeout e.mutex).1 with
    | granted =>
      intro hwon _
      simpa using hwon rfl
    | wouldBlock =>
      intro _ hlost
      simpa using hlost (.engineInUse a.algorithm) (by simp)
    | failed error =>
      intro _ hlost
      simpa using hlost (.mutexFailed error a.algorithm) (by simp)
  | false =>
    rw [if_neg (by simp), always_pure]
    exact hunready e he

/-- **What asking for the engine comes to**: a competition, after a settlement if one is due, unless
the operation has a path already. -/
theorem always_acquireBy {post : Except Fault Path × Operation → Engine ρ κ μ → Prop}
    (huncommitted : a.mode = .uncommitted →
      Always (compete create a) { engine with notices := .acquiring a.algorithm :: engine.notices }
        fun r e => post (.ok r.1, r.2) e)
    (hunsettled : a.mode = .unsettled →
      Always (settle a) { engine with notices := .acquiring a.algorithm :: engine.notices }
        fun r e => Always (compete create r.2) e fun r e => post (.ok r.1, r.2) e)
    (hcommitted : a.isOnEngine = true ∨ a.mode = .software →
      post (.error .alreadyCommitted, a) { engine with
        notices := .acquireRefused a.mode :: .acquiring a.algorithm :: engine.notices }) :
    Always (acquireBy create a) engine post := by
  simp only [acquireBy, always_bind, always_note]
  cases hmode : a.mode with
  | uncommitted =>
    simp only [always_bind, always_pure]
    exact huncommitted hmode
  | unsettled =>
    simp only [always_bind, always_pure]
    exact hunsettled hmode
  | software =>
    rw [hmode] at hcommitted
    simpa using hcommitted (Or.inr rfl)
  | hardware first =>
    rw [hmode] at hcommitted
    simpa using hcommitted (Or.inl (by simp [Operation.isOnEngine, hmode]))

end Asking

/-! ## Taking the engine and giving it back -/

section Taking

variable [GatedClock κ] [EngineMutex μ]

/-- What no call on the clock and the mutex changes. -/
structure KeptByTaking (I : Engine ρ κ μ → Prop) : Prop extends
    KeptByCreation I, KeptByClock I where
  tried : ∀ {e : Engine ρ κ μ} {t}, I e → I { e with
    mutex := (EngineMutex.tryLock t e.mutex).2
    history := .lockTried t (EngineMutex.tryLock t e.mutex).1 :: e.history }
  unlocked : ∀ {e : Engine ρ κ μ}, I e → I { e with
    mutex := EngineMutex.unlock e.mutex
    history := .unlocked :: e.history }

/-- Registers are no part of it. -/
theorem keptByTaking_registers (registers : ρ) :
    KeptByTaking fun e : Engine ρ κ μ => e.registers = registers where
  note h := h
  phase _ h := h
  begun h := h
  ended h := h
  reentered h := h
  created h := creationKeeps_of_forall (fun h => h) _ h
  enable h := h
  disable h := h
  query h := h
  tried h := h
  unlocked h := h

variable (hI : KeptByTaking I)

include hI

theorem KeptByTaking.unlockOwned (operation : Operation) (h : I engine) :
    Always (unlockOwned operation) engine fun _ e => I e := by
  refine Always.ite (fun _ => ?_) fun _ => ?_
  · simpa using hI.unlocked h
  · simpa using h

theorem KeptByTaking.settle (operation : Operation) (h : I engine) :
    Always (settle operation) engine fun _ e => I e := by
  simp only [EngineM.settle, always_bind]
  refine (hI.disableUntilOff _ h).mono fun issued e he => Always.ite (fun _ => ?_) fun _ => ?_
  · simpa using hI.unlockOwned operation (hI.note he)
  · simpa using hI.unlockOwned operation he

theorem KeptByTaking.release (operation : Operation) (h : I engine) :
    Always (release operation) engine fun _ e => I e := by
  simp only [EngineM.release, always_bind, always_note]
  refine Always.ite (fun _ => ?_) fun _ => ?_
  · simpa using hI.unlockOwned _ (hI.disable (hI.note h))
  · simpa using hI.unlockOwned _ (hI.note h)

theorem KeptByTaking.compete {create : EngineM ρ κ μ (Except MutexError Unit)}
    (hcreate : ∀ {e}, I e → Always create e fun _ e' => I e') (operation : Operation)
    (h : I engine) : Always (compete create operation) engine fun _ e => I e := by
  have hprepare : Always (prepareMutex create) engine fun _ e => I e :=
    always_prepareMutex hI.note hI.phase (fun he _ => hcreate he) h
  exact always_compete hprepare (fun e he _ => hI.note (hI.enable (hI.tried he)))
    (fun e notice he _ => hI.note (hI.tried he)) fun e he => he

theorem KeptByTaking.acquireBy {create : EngineM ρ κ μ (Except MutexError Unit)}
    (hcreate : ∀ {e}, I e → Always create e fun _ e' => I e') (operation : Operation)
    (h : I engine) : Always (acquireBy create operation) engine fun _ e => I e := by
  have hnoted := hI.note (n := .acquiring operation.algorithm) h
  exact always_acquireBy (fun _ => hI.compete hcreate operation hnoted)
    (fun _ => (hI.settle operation hnoted).mono fun r e he => hI.compete hcreate r.2 he)
    fun _ => hI.note hnoted

/-- Creations keep it too, however deeply they nest. -/
theorem KeptByTaking.createMutex (depth : Nat) (h : I engine) :
    Always (createMutex depth) engine fun _ e => I e := by
  induction depth generalizing engine with
  | zero => exact always_never
  | succ depth ih =>
    simp only [EngineM.createMutex, always_bind, always_record, always_get]
    exact always_follow hI.ended hI.reentered (fun _ _ he => hI.acquireBy ih _ he) _
      (hI.created (hI.begun h))

theorem KeptByTaking.acquire (operation : Operation) (h : I engine) :
    Always (acquire operation) engine fun _ e => I e :=
  hI.acquireBy (fun he => hI.createMutex 1 he) operation h

end Taking

/-! ## All calls -/

section All

variable [RegisterBlock ρ] [GatedClock κ] [EngineMutex μ]

/-- What no call on the platform changes. -/
structure Kept (I : Engine ρ κ μ → Prop) : Prop extends KeptByAccess I, KeptByTaking I

/-- What nobody changes who leaves the registers to the engine. Only the operations of the given
algorithms have their digests read. -/
structure KeptByProtocol (reads : Algorithm → Prop) (I : Engine ρ κ μ → Prop) : Prop extends
    KeptByTaking I where
  fence : ∀ {e : Engine ρ κ μ}, I e → I { e with
    registers := RegisterBlock.barrier e.registers
    history := .barrier :: e.history }
  awaitIdle : ∀ {e : Engine ρ κ μ}, I e → Always EngineM.awaitIdle e fun _ e' => I e'
  submit : ∀ {e : Engine ρ κ μ} a words, I e → Always (EngineM.submit a words) e fun _ e' => I e'
  fetch : ∀ {e : Engine ρ κ μ} a out, reads a.algorithm → I e →
    Always (EngineM.fetch a out) e fun _ e' => I e'

/-- What no call changes, the engine's own use of the registers does not change either. -/
theorem Kept.protocol {reads : Algorithm → Prop} (hI : Kept I) : KeptByProtocol reads I where
  toKeptByTaking := hI.toKeptByTaking
  fence := hI.fence
  awaitIdle := hI.awaitIdle
  submit a words := KeptByAccess.submit hI.toKeptByAccess a words
  fetch a out _ := KeptByAccess.fetch hI.toKeptByAccess a out

/-- What does not concern the engine. -/
theorem kept_const (p : Prop) : Kept fun _ : Engine ρ κ μ => p where
  note h := h
  read h := h
  write h := h
  fence h := h
  phase _ h := h
  begun h := h
  ended h := h
  reentered h := h
  created h := creationKeeps_of_forall (fun h => h) _ h
  enable h := h
  disable h := h
  query h := h
  tried h := h
  unlocked h := h

/-- What one more event cannot end, no call ends. -/
theorem kept_history {p : List Event → Prop}
    (hp : ∀ event history, p history → p (event :: history)) :
    Kept fun e : Engine ρ κ μ => p e.history where
  note h := h
  read h := hp _ _ h
  write h := hp _ _ h
  fence h := hp _ _ h
  phase _ h := h
  begun h := hp _ _ h
  ended h := hp _ _ h
  reentered h := hp _ _ h
  created h := creationKeeps_of_forall (fun h => h) _ h
  enable h := hp _ _ h
  disable h := hp _ _ h
  query h := hp _ _ h
  tried h := hp _ _ h
  unlocked h := hp _ _ h

/-- **The past only grows.** -/
theorem kept_suffix (past : List Event) :
    Kept fun e : Engine ρ κ μ => past <:+ e.history :=
  kept_history fun _ _ h => h.trans (List.suffix_cons _ _)

end All

end EngineM

end HashAccelerator
