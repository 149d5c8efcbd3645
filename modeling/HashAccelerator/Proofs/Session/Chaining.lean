import HashAccelerator.Platform.Clock
import HashAccelerator.Proofs.Engine.Latch
import HashAccelerator.Proofs.Peripheral.Protocol
import HashAccelerator.Proofs.Session.Digests
/-!
# Operations that share the accelerator

Any number of operations drive the one accelerator, in any order and with any outcome, while its busy
registers are held set and let go. They never give it a command out of order, and what an operation
reads is the chaining value of its own blocks: those that were taken since it last acquired the
engine, one after the other (`blocksSince`).

The running unit belongs to whoever holds the mutex. Nobody else reaches the registers, so an
operation that is on the engine finds there what it left (`Course.Chained`). Streams among the
operations change nothing about that, and of the mutex it is enough that it was never granted while it
was held (`Course.Reached.chaining`).
-/

namespace HashAccelerator

open EngineM

variable {ρ κ μ : Type}

/-- The steps of operations. -/
def Step.IsOperation : Step ρ μ → Prop
  | .create .. | .acquire _ | .release _ | .settle _ | .submit .. | .fetch .. => True
  | _ => False

theorem Step.IsOperation.isCall {step : Step ρ μ} (h : step.IsOperation) : step.IsCall := by
  cases step <;> first | exact trivial | exact h.elim

namespace Course

/-- What one step does to the blocks that an operation has handed over since it last acquired the
engine. -/
def blocksAfter (name : String) (blocks : List (List UInt32)) :
    Step Peripheral μ × Answer → List (List UInt32)
  | (.create other _ _, _) => if other = name then [] else blocks
  | (.acquire other, .path (.ok _)) => if other = name then [] else blocks
  | (.submit other words, .outcome (.ok ())) => if other = name then blocks ++ [words] else blocks
  | _ => blocks

/-- The words of the submissions that were taken from an operation since it last acquired the
engine, oldest first. -/
def blocksSince (name : String) (past : List (Step Peripheral μ × Answer)) : List (List UInt32) :=
  past.foldr (fun entry blocks => blocksAfter name blocks entry) []

/-- An operation that is on the engine stands at the chaining value of its blocks. -/
def Chained (name : String) (past : List (Step Peripheral μ × Answer)) (a : Operation)
    (p : Peripheral) : Prop :=
  a.isOnEngine = true → ∃ chain,
    a.algorithm.chainOf ((blocksSince name past).map a.algorithm.blockBytes) = .ok chain ∧
      a.StandsAt chain p

theorem chained_of_isOnEngine_eq_false {name : String} {past : List (Step Peripheral μ × Answer)}
    {a : Operation} {p : Peripheral} (h : a.isOnEngine = false) : Chained name past a p :=
  fun hon => by simp [h] at hon

/-- Only the running unit counts. -/
theorem Chained.of_running {name : String} {past : List (Step Peripheral μ × Answer)}
    {a : Operation} {p p' : Peripheral} (h : Chained name past a p)
    (hrunning : p'.running = p.running) : Chained name past a p' := by
  intro hon
  obtain ⟨chain, hchain, hstands⟩ := h hon
  refine ⟨chain, hchain, ?_⟩
  rcases hstands with hfirst | ⟨hmode, unit, hunit, hrun⟩
  · exact Or.inl hfirst
  · exact Or.inr ⟨hmode, unit, hunit, hrunning.trans hrun⟩

/-- The steps of operations, of drivers on the same clock, and of an accelerator that may be stuck
for a while. -/
def Driving [EngineMutex μ] [LatchedMutex μ] (_ : Course Peripheral κ μ) : Step Peripheral μ → Prop
  | .create .. | .acquire _ | .submit .. | .fetch .. | .release _ | .settle _ => True
  | .enableClock | .disableClock | .isClockEnabled | .readSettings => True
  | .alterRegisters change => ∃ held, change = Peripheral.holdBusy held
  | .alterMutex change => ∀ mutex, LatchedMutex.locked (change mutex) = LatchedMutex.locked mutex
  | _ => False

theorem Driving.isOperation_or_isOutside [EngineMutex μ] [LatchedMutex μ]
    {c : Course Peripheral κ μ} {step : Step Peripheral μ} (h : Driving c step) :
    step.IsOperation ∨ step.IsOutside := by
  cases step <;> first | exact Or.inl trivial | exact Or.inr trivial | exact h.elim

theorem Driving.hashing [EngineMutex μ] [LatchedMutex μ] {c : Course Peripheral κ μ}
    {step : Step Peripheral μ} (h : Driving c step) : Hashing c step := by
  cases step <;> first | exact h | exact Or.inl trivial | exact Or.inr trivial | exact h.elim

/-- A step of somebody else leaves an operation's blocks alone. -/
theorem blocksSince_cons {name : String} {step : Step Peripheral μ} {answer : Answer}
    {past : List (Step Peripheral μ × Answer)} (h : ¬ step.Concerns (.operation name)) :
    blocksSince name ((step, answer) :: past) = blocksSince name past := by
  show blocksAfter name (blocksSince name past) (step, answer) = _
  cases step with
  | create other algorithm software => exact if_neg fun heq => h (by rw [heq]; rfl)
  | acquire other =>
    cases answer with
    | path outcome =>
      cases outcome with
      | ok path => exact if_neg fun heq => h (by rw [heq]; rfl)
      | error fault => rfl
    | _ => rfl
  | submit other words =>
    cases answer with
    | outcome outcome =>
      cases outcome with
      | ok => exact if_neg fun heq => h (by rw [heq]; rfl)
      | error fault => rfl
    | _ => rfl
  | _ => rfl

theorem Chained.skip {name : String} {step : Step Peripheral μ} {answer : Answer}
    {past : List (Step Peripheral μ × Answer)} {a : Operation} {p : Peripheral}
    (h : Chained name past a p) (hstep : ¬ step.Concerns (.operation name)) :
    Chained name ((step, answer) :: past) a p := by
  unfold Chained
  rw [blocksSince_cons hstep]
  exact h

variable {c : Course Peripheral κ μ} {name : String} {a : Operation}

/-! ## The acting operation -/

/-- What a call leaves of its own operation and the registers. -/
def Own (c : Course Peripheral κ μ) (name : String) (step : Step Peripheral μ) (answer : Answer)
    (a : Operation) (e : Engine Peripheral κ μ) : Prop :=
  (e.registers.disorders = c.engine.registers.disorders ∧
    e.registers.stray = c.engine.registers.stray) ∧
    Chained name ((step, answer) :: c.past) a e.registers

/-- **A submission that is taken is one block more**, and any other none. -/
theorem own_submit (words : List UInt32) (h : Chained name c.past a c.engine.registers) :
    Always (submit a words) c.engine fun r e =>
      Own c name (.submit name words) (.outcome r.1) r.2 e := by
  have hsubmitted : Always (submit a words) c.engine fun r _ =>
      Submitted c.engine.settings a words r.1 r.2 := submitted_submit a words rfl
  cases hon : a.isOnEngine with
  | false =>
    refine (hsubmitted.and (always_submit_of_isOnEngine_eq_false words hon)).mono fun r e he => ?_
    obtain ⟨outcome, a'⟩ := r
    obtain ⟨hanswer, notices, rfl⟩ := he
    refine ⟨⟨rfl, rfl⟩, chained_of_isOnEngine_eq_false ?_⟩
    cases hanswer <;> simp_all
  | true =>
    obtain ⟨chain, hchain, hstands⟩ := h hon
    refine (hsubmitted.and (always_submit words hstands (Algorithm.isWide_of_chainOf hchain))).mono
      fun r e he => ?_
    obtain ⟨outcome, a'⟩ := r
    obtain ⟨hanswer, hconduct⟩ := he
    cases outcome with
    | error fault =>
      have hrunning := congrArg Conduct.running hconduct
      refine ⟨⟨congrArg Conduct.disorders hconduct, congrArg Conduct.stray hconduct⟩, ?_⟩
      -- the operation is as it was, or off the engine
      cases hanswer with
      | refused _ => exact h.of_running hrunning
      | misfit _ _ _ => exact h.of_running hrunning
      | stuck _ _ => exact h.of_running hrunning
      | parked _ _ => exact chained_of_isOnEngine_eq_false rfl
    | ok =>
      obtain ⟨unit, next, hunit, hnext, hconduct⟩ := hconduct
      refine ⟨⟨congrArg Conduct.disorders hconduct, congrArg Conduct.stray hconduct⟩, fun _ => ?_⟩
      cases hanswer with
      | taken _ _ =>
        refine ⟨next, ?_, Or.inr ⟨rfl, unit, hunit, congrArg Conduct.running hconduct⟩⟩
        have hblocks : blocksSince name ((.submit name words, .outcome (.ok ())) :: c.past) =
            blocksSince name c.past ++ [words] := if_pos rfl
        rw [hblocks, List.map_append]
        exact (Algorithm.chainOf_concat hchain).trans hnext

theorem own_fetch (out : List UInt32) (h : Chained name c.past a c.engine.registers) :
    Always (fetch a out) c.engine fun r e => Own c name (.fetch name out) (.words r.1 r.2) a e := by
  have hsame : ∀ e : Engine Peripheral κ μ, e.registers.conduct = c.engine.registers.conduct →
      ∀ outcome out', Own c name (.fetch name out) (.words outcome out') a e :=
    fun e hconduct outcome out' => ⟨⟨congrArg Conduct.disorders hconduct,
      congrArg Conduct.stray hconduct⟩, h.of_running (congrArg Conduct.running hconduct)⟩
  cases hon : a.isOnEngine with
  | false =>
    refine (always_fetch_of_isOnEngine_eq_false out hon).mono fun r e he => ?_
    obtain ⟨notices, rfl⟩ := he
    exact hsame _ rfl _ _
  | true =>
    obtain ⟨chain, hchain, hstands⟩ := h hon
    rcases hstands with ⟨hmode, -⟩ | ⟨hmode, unit, hunit, hrunning⟩
    · simp only [fetch, hmode, always_bind, always_note, always_pure]
      exact hsame _ rfl _ _
    · exact (always_fetch out hmode hunit hrunning (Algorithm.isWide_of_chainOf hchain)).mono
        fun r e he => hsame e he.1 _ _

variable [GatedClock κ] [EngineMutex μ]

theorem own_acquire (h : Chained name c.past a c.engine.registers) :
    Always (acquire a) c.engine fun r e => Own c name (.acquire name) (.path r.1) r.2 e := by
  have hregisters : Always (acquire a) c.engine fun _ e => e.registers = c.engine.registers :=
    (keptByTaking_registers c.engine.registers).acquire a rfl
  -- who wins has no blocks yet, and stands at what its hash begins with
  have hwon : ∀ {b a' : Operation} {path}, Competed b path a' →
      Chained name ((.acquire name, .path (.ok path)) :: c.past) a' c.engine.registers := by
    intro b a' path hcompeted
    cases hcompeted with
    | lost => exact chained_of_isOnEngine_eq_false rfl
    | won =>
      refine fun _ => ⟨.initial b.algorithm, ?_, Or.inl ⟨rfl, rfl⟩⟩
      have hnone : blocksSince name ((.acquire name, .path (.ok .hardware)) :: c.past) = [] :=
        if_pos rfl
      rw [hnone]
      exact Algorithm.chainOf_nil _
  refine ((acquired_acquire a).and hregisters).mono fun r e he => ?_
  obtain ⟨outcome, a'⟩ := r
  obtain ⟨hacquired, hsame⟩ := he
  simp only [Own, hsame, true_and]
  cases hacquired with
  | refused _ => exact h
  | chosen _ hcompeted => exact hwon hcompeted
  | settled _ hcompeted => exact hwon hcompeted

theorem own_release : Always (release a) c.engine fun a' e =>
    Own c name (.release name) .done a' e := by
  have hregisters : Always (release a) c.engine fun _ e => e.registers = c.engine.registers :=
    (keptByTaking_registers c.engine.registers).release a rfl
  refine ((always_release a).and hregisters).mono fun a' e he => ?_
  obtain ⟨rfl, hsame⟩ := he
  simp only [Own, hsame, true_and]
  refine chained_of_isOnEngine_eq_false ?_
  by_cases hmode : a.mode = .unsettled <;>
    simp [Operation.isOnEngine, Operation.released, hmode]

theorem own_settle : Always (settle a) c.engine fun r e =>
    Own c name (.settle name) (.repayment r.1) r.2 e := by
  have hregisters : Always (settle a) c.engine fun _ e => e.registers = c.engine.registers :=
    (keptByTaking_registers c.engine.registers).settle a rfl
  refine ((always_settle a).and hregisters).mono fun r e he => ?_
  obtain ⟨hfresh, hsame⟩ := he
  simp only [Own, hsame, true_and, hfresh]
  exact chained_of_isOnEngine_eq_false rfl

/-! ## Every operation -/

/-- The parties are in order, and if the mutex was never granted while it was held, every operation on
the engine stands at the chaining value of its blocks. -/
structure Chaining (c : Course Peripheral κ μ) : Prop where
  inOrder : c.InOrder
  stands : Exclusive c.engine.history → ∀ name a, c.session.operations[name]? = some a →
    Chained name c.past a c.engine.registers

/-- The accelerator's books on its driver are as they were. -/
def SameBooks (before after : Engine Peripheral κ μ) : Prop :=
  after.registers.disorders = before.registers.disorders ∧
    after.registers.stray = before.registers.stray

omit [GatedClock κ] [EngineMutex μ] in
/-- A step that is in order leaves the operations where they stand that it does not concern. -/
theorem Chaining.follow (h : Chaining c) {step : Step Peripheral μ} {answer : Answer}
    {s : Session Peripheral κ μ}
    (hfollows : Follows (fun _ => True) c step.Concerns (c.next step answer s))
    (hothers : ∀ other b, s.operations[other]? = some b → ¬ step.Concerns (.operation other) →
      c.session.operations[other]? = some b)
    (hown : Exclusive c.engine.history → ∀ other b, s.operations[other]? = some b →
      step.Concerns (.operation other) → Chained other ((step, answer) :: c.past) b s.engine.registers) :
    Chaining (c.next step answer s) where
  inOrder := hfollows.inOrder
  stands hexclusive other b hb := by
    have hbefore : Exclusive c.engine.history := hexclusive.of_suffix hfollows.grown
    by_cases hother : step.Concerns (.operation other)
    · exact hown hbefore other b hb hother
    · -- while somebody is on the engine, the registers are as the others' steps found them
      refine Chained.skip (fun hon => ?_) hother
      have hb' := hothers other b hb hother
      have hparty : c.party? (.operation other) = some b := hb'
      have hholds := (h.inOrder.standing hparty).holdsMutex_of_isOnEngine hon
      rw [hfollows.untouched hexclusive _ hother ⟨b, hparty, hholds⟩]
      exact h.stands hbefore other b hb' hon

/-- **A step with one operation** leaves the others at their chaining values. -/
theorem Chaining.operate (h : Chaining c) (step : Step Peripheral μ)
    (hcall : step.IsCall) (hconcerns : ∀ p, step.Concerns p ↔ p = .operation name)
    {action : Operation → SessionM Peripheral κ μ (Answer × Operation)}
    (hstep : Session.step step = Session.withOperation name action)
    (haction : ∀ a, Always (action a) c.session fun r s => ∃ e, s = { c.session with engine := e } ∧
      (Chained name c.past a c.engine.registers → Own c name step r.1 r.2 e)) :
    Always (Session.step step) c.session fun answer s => Chaining (c.next step answer s) ∧
      (Exclusive c.engine.history → SameBooks c.engine s.engine) := by
  have hfollows := h.inOrder.call (.of_kept (kept_const True)) trivial hcall
  have hown : Always (Session.withOperation name action) c.session fun answer s =>
      c.session.operations[name]? = none ∧ s = c.session ∨ ∃ a e,
        s = { c.session with engine := e, operations := c.session.operations.insert name a } ∧
          (Exclusive c.engine.history → Own c name step answer a e) := by
    refine Session.always_withOperation_engine fun a ha => (haction a).mono fun r s hs => ?_
    obtain ⟨e, rfl, hown⟩ := hs
    exact ⟨e, rfl, fun hexclusive => hown (h.stands hexclusive name a ha)⟩
  rw [← hstep] at hown
  refine (hfollows.and hown).mono fun answer s hs => ?_
  obtain ⟨hfollows, ⟨hnone, rfl⟩ | ⟨a, e, rfl, hown⟩⟩ := hs
  · -- nothing has the name, so nothing has happened
    refine ⟨h.follow hfollows (fun _ _ hb _ => hb) fun _ other b hb hother => ?_,
      fun _ => ⟨rfl, rfl⟩⟩
    rw [hconcerns, Place.operation.injEq] at hother
    rw [hother, hnone] at hb
    cases hb
  · refine ⟨h.follow hfollows (fun other b hb hother => ?_) fun hexclusive other b hb hother => ?_,
      fun hexclusive => (hown hexclusive).1⟩
    · have hne : name ≠ other := fun heq => hother ((hconcerns _).2 (by rw [heq]))
      simpa [Std.TreeMap.getElem?_insert, hne] using hb
    · rw [hconcerns, Place.operation.injEq] at hother
      subst hother
      obtain rfl : a = b := by simpa using hb
      exact (hown hexclusive).2

/-- A new operation is not on the engine. -/
theorem Chaining.create (h : Chaining c) (name : String) (algorithm : Algorithm)
    (software : Bool) : Always (Session.step (.create name algorithm software)) c.session
      fun answer s => Chaining (c.next (.create name algorithm software) answer s) ∧
        SameBooks c.engine s.engine := by
  have hcall : Step.IsCall (ρ := Peripheral) (μ := μ) (.create name algorithm software) := trivial
  have hfollows := h.inOrder.call (.of_kept (kept_const True)) trivial hcall
  have hshape : Always (Session.step (.create name algorithm software)) c.session fun _ s =>
      ∃ new : Operation, new.isOnEngine = false ∧
        s = { c.session with operations := c.session.operations.insert name new } := by
    simp only [Session.step, Session.putOperation, always_bind, always_modify, always_pure]
    refine ⟨_, ?_, rfl⟩
    split <;> rfl
  refine (hfollows.and hshape).mono fun answer s hs => ?_
  obtain ⟨hfollows, new, hnew, rfl⟩ := hs
  refine ⟨h.follow hfollows (fun other b hb hother => ?_) fun _ other b hb hother => ?_, rfl, rfl⟩
  · have hne : name ≠ other := fun heq => hother (by rw [heq]; rfl)
    simpa [Std.TreeMap.getElem?_insert, hne] using hb
  · obtain rfl : other = name := Place.operation.inj hother
    obtain rfl : new = b := by simpa using hb
    exact chained_of_isOnEngine_eq_false hnew

/-- **Every step of an operation** leaves all of them standing, and breaks no order. -/
theorem Chaining.operation (h : Chaining c) {step : Step Peripheral μ} (hstep : step.IsOperation) :
    Always (Session.step step) c.session fun answer s => Chaining (c.next step answer s) ∧
      (Exclusive c.engine.history → SameBooks c.engine s.engine) := by
  cases step with
  | create name algorithm software =>
    exact (h.create name algorithm software).mono fun _ _ hs => ⟨hs.1, fun _ => hs.2⟩
  | acquire name =>
    refine h.operate _ trivial (fun _ => Iff.rfl) rfl fun a => ?_
    simp only [always_bind, Session.always_onEngine, always_pure]
    exact fun r e hrun => ⟨e, rfl, fun ha => own_acquire ha r e hrun⟩
  | release name =>
    refine h.operate _ trivial (fun _ => Iff.rfl) rfl fun a => ?_
    simp only [always_bind, Session.always_onEngine, always_pure]
    exact fun r e hrun => ⟨e, rfl, fun _ => own_release r e hrun⟩
  | settle name =>
    refine h.operate _ trivial (fun _ => Iff.rfl) rfl fun a => ?_
    simp only [always_bind, Session.always_onEngine, always_pure]
    exact fun r e hrun => ⟨e, rfl, fun _ => own_settle r e hrun⟩
  | submit name words =>
    refine h.operate _ trivial (fun _ => Iff.rfl) rfl fun a => ?_
    simp only [always_bind, Session.always_onEngine, always_pure]
    exact fun r e hrun => ⟨e, rfl, fun ha => own_submit words ha r e hrun⟩
  | fetch name out =>
    refine h.operate _ trivial (fun _ => Iff.rfl) rfl fun a => ?_
    simp only [always_bind, Session.always_onEngine, always_pure]
    exact fun r e hrun => ⟨e, rfl, fun ha => own_fetch out ha r e hrun⟩
  | _ => exact hstep.elim

/-- A step of a stream is none of the operations that are there after it. -/
theorem always_step_of_not_isOperation {session : Session Peripheral κ μ} {step : Step Peripheral μ}
    (hcall : step.IsCall) (hstep : ¬ step.IsOperation) :
    Always (Session.step step) session fun _ s => ∀ name a, s.operations[name]? = some a →
      session.operations[name]? = some a ∧ ¬ step.Concerns (.operation name) := by
  have hput : ∀ {name new} {session : Session Peripheral κ μ},
      Always (Session.putStream name new) session fun _ s => s.operations = session.operations := by
    intro name new session
    refine Session.always_putStream (fun _ => rfl) fun former _ => ?_
    rw [Session.always_onEngine]
    exact fun _ _ _ => rfl
  have hsame : ∀ {s : Session Peripheral κ μ}, s.operations = session.operations →
      (∀ name, ¬ step.Concerns (.operation name)) → ∀ name a, s.operations[name]? = some a →
        session.operations[name]? = some a ∧ ¬ step.Concerns (.operation name) :=
    fun heq hnot name a ha => ⟨heq ▸ ha, hnot name⟩
  cases step with
  | start name algorithm software =>
    simp only [Session.step, always_bind, always_pure]
    exact hput.mono fun _ s hs => hsame hs fun _ h => by cases h
  | adopt name operation =>
    simp only [Session.step, always_bind, always_get]
    cases hadopted : session.operations[operation]? with
    | none =>
      rw [always_pure]
      refine fun other a ha => ⟨ha, fun hconcerned => ?_⟩
      rcases hconcerned with h | h
      · cases h
      · cases h
        rw [hadopted] at ha
        cases ha
    | some adopted =>
      simp only [always_bind, always_modify, always_pure]
      refine hput.mono fun _ s hs other a ha => ?_
      rw [hs] at ha
      have hne : operation ≠ other := by
        rintro rfl
        simp at ha
      refine ⟨by simpa [Std.TreeMap.getElem?_erase, hne] using ha, fun hconcerned => ?_⟩
      rcases hconcerned with h | h
      · cases h
      · exact hne (Place.operation.inj h).symm
  | absorb name bytes partSize =>
    refine Session.always_withStream (fun _ => hsame rfl fun _ h => by cases h) fun s _ => ?_
    simp only [always_bind, Session.always_onEngine, always_pure]
    exact fun _ _ _ => hsame rfl fun _ h => by cases h
  | finish name =>
    refine Session.always_endStream (fun _ => hsame rfl fun _ h => by cases h) fun s _ => ?_
    simp only [always_bind, Session.always_onEngine, always_pure]
    exact fun _ _ _ => hsame rfl fun _ h => by cases h
  | cancel name =>
    refine Session.always_endStream (fun _ => hsame rfl fun _ h => by cases h) fun s _ => ?_
    simp only [always_bind, Session.always_onEngine, always_pure]
    exact fun _ _ _ => hsame rfl fun _ h => by cases h
  | discard name =>
    refine Session.always_endStream (fun _ => hsame rfl fun _ h => by cases h) fun s _ => ?_
    simp only [always_bind, Session.always_onEngine, always_pure]
    exact fun _ _ _ => hsame rfl fun _ h => by cases h
  | digest algorithm message =>
    simp only [Session.step, always_bind, Session.always_onEngine, always_pure]
    exact fun _ _ _ => hsame rfl fun _ h => h
  | _ => first | exact absurd trivial hstep | exact hcall.elim

/-- What happens outside changes nothing that the operations rely on. -/
theorem Chaining.outside (h : Chaining c) {step : Step Peripheral μ} (hfair : Hashing c step)
    (hout : step.IsOutside) : Always (Session.step step) c.session fun answer s =>
      Chaining (c.next step answer s) ∧ SameBooks c.engine s.engine := by
  refine ((h.inOrder.outside hout).and (hfair.outside hout)).mono fun answer s hs => ?_
  obtain ⟨hinOrder, hgrown, hoperations, hconduct⟩ := hs
  refine ⟨⟨hinOrder, fun hexclusive name a ha => ?_⟩, congrArg Conduct.disorders hconduct,
    congrArg Conduct.stray hconduct⟩
  rw [show (c.next step answer s).session.operations = _ from hoperations] at ha
  have hnot : ¬ step.Concerns (.operation name) := fun hconcerned => by
    cases step <;> first | exact hout.elim | exact hconcerned.elim
  exact ((h.stands (hexclusive.of_suffix hgrown) name a ha).of_running
    (congrArg Conduct.running hconduct)).skip hnot

/-- **Every step leaves the operations standing.** -/
theorem Chaining.advance (h : Chaining c) {step : Step Peripheral μ} (hfair : Hashing c step) :
    Always (Session.step step) c.session fun answer s => Chaining (c.next step answer s) := by
  rcases hfair.isCall_or_isOutside with hcall | hout
  · by_cases hstep : step.IsOperation
    · exact (h.operation hstep).mono fun _ _ hs => hs.1
    · refine ((h.inOrder.call (.of_kept (kept_const True)) trivial hcall).and
        (always_step_of_not_isOperation hcall hstep)).mono fun answer s hs => ?_
      obtain ⟨hfollows, hothers⟩ := hs
      exact h.follow hfollows (fun name a ha _ => (hothers name a ha).1)
        fun _ name a ha hname => absurd hname (hothers name a ha).2
  · exact (h.outside hfair hout).mono fun _ _ hs => hs.1

theorem Reached.chaining {latency : Nat} {clock : κ} {mutex : μ} {settings : Settings}
    (h : Reached Hashing (.ofEngine (.simulated latency clock mutex settings)) c) : Chaining c := by
  refine h.induct ⟨inOrder_ofEngine rfl, fun _ name a ha => ?_⟩ fun c step hc hfair => hc.advance hfair
  simp [Session.ofEngine] at ha

/-! ## Nothing out of order -/

variable [LatchedMutex μ]

/-- Besides, the mutex is a latch, and nothing was done to the accelerator that should not have been. -/
structure Conducted (c : Course Peripheral κ μ) : Prop extends Chaining c where
  latched : Latched c.engine
  blameless : c.engine.registers.disorders = 0 ∧ c.engine.registers.stray = 0

omit [GatedClock κ] in
theorem Conducted.chained (h : Conducted c) (name : String) (a : Operation)
    (ha : c.session.operations[name]? = some a) : Chained name c.past a c.engine.registers :=
  h.stands h.latched.exclusive name a ha

/-- What happens outside neither opens nor closes the latch. -/
theorem Driving.latched {step : Step Peripheral μ} (hfair : Driving c step) (hout : step.IsOutside)
    (h : Latched c.engine) : Always (Session.step step) c.session fun _ s => Latched s.engine := by
  cases step with
  | enableClock =>
    simp only [Session.step, always_bind, Session.always_onEngine, always_enableClock, always_pure]
    exact Latched.kept.enable h
  | disableClock =>
    simp only [Session.step, always_bind, Session.always_onEngine, always_disableClock, always_pure]
    exact Latched.kept.disable h
  | isClockEnabled =>
    simp only [Session.step, always_bind, Session.always_onEngine, always_isClockEnabled,
      always_pure]
    exact Latched.kept.query h
  | readSettings =>
    simp only [Session.step, always_bind, always_get, always_pure]
    exact h
  | alterRegisters change =>
    simp only [Session.step, always_bind, always_modify, always_pure]
    exact ⟨h.exclusive, h.locked⟩
  | alterMutex change =>
    simp only [Session.step, always_bind, always_modify, always_pure]
    exact ⟨h.exclusive, (hfair _).trans h.locked⟩
  | _ => exact hout.elim

/-- **Every step keeps the conduct.** -/
theorem Conducted.advance (h : Conducted c) {step : Step Peripheral μ} (hfair : Driving c step) :
    Always (Session.step step) c.session fun answer s => Conducted (c.next step answer s) := by
  have hblameless : ∀ {s : Session Peripheral κ μ}, SameBooks c.engine s.engine →
      s.engine.registers.disorders = 0 ∧ s.engine.registers.stray = 0 :=
    fun hbooks => ⟨hbooks.1.trans h.blameless.1, hbooks.2.trans h.blameless.2⟩
  rcases hfair.isOperation_or_isOutside with hstep | hout
  · refine ((h.inOrder.call (.of_kept Latched.kept) h.latched hstep.isCall).and
      (h.toChaining.operation hstep)).mono fun answer s hs => ?_
    exact ⟨hs.2.1, hs.1.kept, hblameless (hs.2.2 h.latched.exclusive)⟩
  · refine ((hfair.latched hout h.latched).and (h.toChaining.outside hfair.hashing hout)).mono
      fun answer s hs => ?_
    exact ⟨hs.2.1, hs.1, hblameless hs.2.2⟩

theorem Reached.conducted {latency : Nat} {clock : κ} {mutex : μ} {settings : Settings}
    (hfree : LatchedMutex.locked mutex = false)
    (h : Reached Driving (.ofEngine (.simulated latency clock mutex settings)) c) :
    Conducted c := by
  refine h.induct ⟨⟨inOrder_ofEngine rfl, fun _ name a ha => ?_⟩, latched_of_unused rfl hfree, rfl, rfl⟩
    fun c step hc hfair => hc.advance hfair
  simp [Session.ofEngine] at ha

/-- **Each operation reads its own hash.** However many operations drive the accelerator, in whatever
order and with whatever outcomes, no command is ever out of order and no write astray; and an
operation on the engine whose readout succeeds gets the digest of exactly the blocks that were taken
from it since it last acquired the engine, each the front of the words that were submitted. What is
behind the digest in the caller's words stays. -/
theorem Reached.digest_of_own_blocks {latency : Nat} {clock : κ} {mutex : μ} {settings : Settings}
    (hfree : LatchedMutex.locked mutex = false)
    (h : Reached Driving (.ofEngine (.simulated latency clock mutex settings)) c) :
    c.engine.registers.disorders = 0 ∧ c.engine.registers.stray = 0 ∧
    ∀ name a out out' session, c.session.operations[name]? = some a → a.mode = .hardware false →
      (Session.step (.fetch name out)).run c.session = some (.words (.ok ()) out', session) →
      ∃ chain digest,
        a.algorithm.chainOf ((blocksSince name c.past).map a.algorithm.blockBytes) = .ok chain ∧
        chain.digest a.algorithm = .ok digest ∧
        out'.take a.algorithm.digestWords = BigEndian.words32 digest ∧
        out'.drop a.algorithm.digestWords = out.drop a.algorithm.digestWords := by
  have hconducted := h.conducted hfree
  refine ⟨hconducted.blameless.1, hconducted.blameless.2,
    fun name a out out' session ha hmode hrun => ?_⟩
  have hon : a.isOnEngine = true := by simp [Operation.isOnEngine, hmode]
  obtain ⟨chain, hchain, hstands⟩ := hconducted.chained name a ha hon
  have hwidth := Algorithm.isWide_of_chainOf hchain
  obtain ⟨hfirst, -⟩ | ⟨-, unit, hunit, hrunning⟩ := hstands
  · rw [hmode] at hfirst
    cases hfirst
  -- its unit is the running one, so a readout that succeeds delivers what that unit has come to
  have hdelivered : Always (Session.step (.fetch name out)) c.session fun answer _ =>
      ∀ words, answer = .words (.ok ()) words → words =
        chain.digestOrder.take a.algorithm.digestWords ++ out.drop a.algorithm.digestWords := by
    refine Session.always_withOperation (fun _ _ h => by cases h) fun b hb => ?_
    obtain rfl : a = b := by simpa [ha] using hb
    simp only [always_bind, Session.always_onEngine, always_pure]
    refine (always_fetch out hmode hunit hrunning hwidth).mono fun r e he words hanswer => ?_
    obtain ⟨outcome, words'⟩ := r
    cases hanswer
    exact he.2
  have hout := hdelivered _ _ hrun out' rfl
  have hlength : (chain.digestOrder.take a.algorithm.digestWords).length =
      a.algorithm.digestWords := by
    rw [List.length_take, Chain.length_digestOrder, hwidth]
    cases a.algorithm <;> decide
  refine ⟨chain, _, hchain, Chain.digest_eq hwidth, ?_, ?_⟩
  · rw [hout, Chain.words32_digest]
    exact List.take_left' hlength
  · rw [hout]
    exact List.drop_left' hlength

/-- A block that is taken while another operation is turned away, and the digest read after it. -/
theorem exists_digest_of_one_block :
    ∃ (c : Course Peripheral CountedClock CountedMutex) (chain : Chain) (digest : List UInt8),
      blocksSince "first" c.past = [List.replicate 16 7] ∧
      Algorithm.sha256.chainOf [Algorithm.sha256.blockBytes (List.replicate 16 7)] = .ok chain ∧
      chain.digest .sha256 = .ok digest ∧
      ∃ out session, (Session.step (.fetch "first" (List.replicate 8 0))).run c.session =
          some (.words (.ok ()) out, session) ∧ out.take 8 = BigEndian.words32 digest := by
  let steps : List (Step Peripheral CountedMutex) :=
    [.create "first" .sha256 false, .acquire "first", .create "second" .sha512 false,
      .acquire "second", .submit "second" (List.replicate 32 1),
      .submit "first" (List.replicate 16 7)]
  let readable (c : Course Peripheral CountedClock CountedMutex) : Bool :=
    (c.session.operations["first"]?.any fun a => a.algorithm = .sha256 ∧ a.mode = .hardware false) &&
      blocksSince "first" c.past = [List.replicate 16 7] &&
      ((Session.step (.fetch "first" (List.replicate 8 0))).run c.session).any fun r =>
        r.1.words?.isSome
  have hrun : (take { session := .ofEngine (.simulated 1 {} {} {}) } steps).any readable = true := by
    decide +kernel
  obtain ⟨c, htake, hreadable⟩ := (Option.any_eq_true _ _).1 hrun
  simp only [readable, Bool.and_eq_true, Option.any_eq_true, decide_eq_true_eq] at hreadable
  obtain ⟨⟨⟨a, ha, halgorithm, hmode⟩, hblocks⟩, ⟨answer, session⟩, hfetch, hwords⟩ := hreadable
  have hreached : Reached Driving (.ofEngine (.simulated 1 {} {} {})) c :=
    Reached.start.take (fun _ step hstep => by
      simp only [steps, List.mem_cons, List.not_mem_nil, or_false] at hstep
      rcases hstep with rfl | rfl | rfl | rfl | rfl | rfl <;> trivial) htake
  obtain ⟨-, -, hread⟩ := hreached.digest_of_own_blocks (by rfl)
  obtain ⟨out, hwords⟩ := Option.isSome_iff_exists.1 hwords
  obtain rfl : answer = .words (.ok ()) out := Answer.eq_of_words? hwords
  obtain ⟨chain, digest, hchain, hdigest, hout, -⟩ := hread _ a _ out session ha hmode hfetch
  rw [hblocks, halgorithm] at hchain
  rw [halgorithm] at hdigest hout
  exact ⟨c, chain, digest, hblocks, hchain, hdigest, out, session, hfetch, hout⟩

end Course

end HashAccelerator
