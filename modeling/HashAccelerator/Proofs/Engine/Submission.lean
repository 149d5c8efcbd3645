import HashAccelerator.Proofs.Coupled
import HashAccelerator.Proofs.Engine.Accesses
import HashAccelerator.Proofs.Engine.Answers
import HashAccelerator.Proofs.Engine.Return
/-!
# A submission is all or nothing

A submission that fails on the operation's account, on the block's or on the wait's has written
nothing. Once the wait has succeeded the words go in, as far as there are registers for them, and only
then does it show whether the algorithm has a unit to command. `Handed` lists the ways with the accesses
of each; which of them is taken depends on the operation, on the number of words, and on how a wait for
all units ends (`submit_all_or_nothing`).
-/

namespace HashAccelerator

open EngineM

variable {ρ κ μ : Type}

/-- The words overflow the text registers, and are cut to their number, or they are just one block. -/
def Operation.Fits (a : Operation) (words : List UInt32) : Prop :=
  textCapacity < words.length ∨ words.length = a.algorithm.blockWords

/-- What a submission comes to if it is up to the wait: its fault, or the lack of a unit, or nothing. -/
def Operation.answerTo (a : Operation) : Except Fault Unit → Except Fault Unit
  | .error fault => .error fault
  | .ok () => if a.algorithm.unit? = none then .error (.noUnit a.algorithm) else .ok ()

/-- A wait ends in one of two ways, so the answer tells which, and whether there is a unit. -/
theorem Operation.answerTo_eq_iff {settings : Settings} (a : Operation)
    {waited : Except Fault Unit} (h : settings.MayEnd waited) :
    (a.answerTo waited = .error .stillBusy ↔ waited = .error .stillBusy) ∧
    (a.answerTo waited = .error (.noUnit a.algorithm) ↔
      a.algorithm.unit? = none ∧ waited = .ok ()) ∧
    (a.answerTo waited = .ok () ↔ a.algorithm.unit? ≠ none ∧ waited = .ok ()) ∧
    a.answerTo waited ≠ .error .notOwner ∧ a.answerTo waited ≠ .error .wrongSize := by
  cases waited with
  | error fault =>
    obtain ⟨rfl, -⟩ := h
    simp [answerTo]
  | ok => by_cases hunit : a.algorithm.unit? = none <;> simp [answerTo, hunit]

/-- What a submission may answer, the operation that it leaves then, and the accesses that it has made,
newest first. -/
inductive Handed (a : Operation) (words : List UInt32) :
    Except Fault Unit → Operation → List Event → Prop
  | refused : a.isOnEngine = false → Handed a words (.error .notOwner) a []
  | misfit : a.isOnEngine = true → words.length ≤ textCapacity →
      words.length ≠ a.algorithm.blockWords → Handed a words (.error .wrongSize) a []
  | stuck {polls} : a.isOnEngine = true → a.Fits words → PollsOf busyAddresses polls →
      Handed a words (.error .stillBusy) a polls
  | parked {polls} : a.isOnEngine = true → a.Fits words → a.algorithm.unit? = none →
      PollsOf busyAddresses polls → sweep <+: polls →
      Handed a words (.error (.noUnit a.algorithm)) { a with mode := .unsettled }
        (.barrier :: (wordWrites 0 (words.take textCapacity) ++ polls))
  | taken {first unit polls} : a.mode = .hardware first → a.Fits words →
      a.algorithm.unit? = some unit → PollsOf busyAddresses polls → sweep <+: polls →
      Handed a words (.ok ()) { a with mode := .hardware false }
        (.barrier :: .write (Register.command unit (if first then .start else .resume)).address 1 ::
          .barrier :: (wordWrites 0 (words.take textCapacity) ++ polls))

/-- **Only a word of the block or the command of the operation's own unit is written**, and a command
to load is none of a submission's. -/
theorem Handed.writes {a a' : Operation} {words : List UInt32} {outcome : Except Fault Unit}
    {trace : List Event} {address value : UInt32} (h : Handed a words outcome a' trace)
    (hwrite : .write address value ∈ trace) :
    (∃ index, address = (Register.text index).address) ∨
      ∃ unit order, a.algorithm.unit? = some unit ∧ order ≠ .load ∧
        address = (Register.command unit order).address := by
  have hpolls : ∀ {polls}, PollsOf busyAddresses polls → .write address value ∉ polls := by
    intro polls hpolls hmem
    obtain ⟨_, _, _, hread⟩ := hpolls _ hmem
    cases hread
  have hword : .write address value ∈ wordWrites 0 (words.take textCapacity) →
      ∃ index, address = (Register.text index).address := by
    intro hmem
    obtain ⟨i, hi, word, heq⟩ := exists_of_mem_wordWrites hmem
    cases heq
    have hroom : i < 32 := Nat.lt_of_lt_of_le hi (List.length_take_le _ _)
    exact ⟨⟨i, hroom⟩, by rw [Nat.zero_add]; rfl⟩
  cases h with
  | refused => exact absurd hwrite List.not_mem_nil
  | misfit => exact absurd hwrite List.not_mem_nil
  | stuck _ _ hof => exact absurd hwrite (hpolls hof)
  | parked _ _ _ hof =>
    simp only [List.mem_cons, reduceCtorEq, List.mem_append, hpolls hof, or_false, false_or] at hwrite
    exact Or.inl (hword hwrite)
  | @taken first unit _ _ _ hunit hof =>
    simp only [List.mem_cons, reduceCtorEq, List.mem_append, hpolls hof, or_false, false_or] at hwrite
    rcases hwrite with hcommand | hmem
    · cases hcommand
      exact Or.inr ⟨unit, _, hunit, by cases first <;> simp, rfl⟩
    · exact Or.inl (hword hmem)

variable [RegisterBlock ρ] {e e' : Engine ρ κ μ} {a : Operation} {words : List UInt32}

/-! ## What the register protocol looks at -/

/-- The engines have the same registers and the same settings. -/
structure Engine.SameRegisters (e e' : Engine ρ κ μ) : Prop where
  registers : e.registers = e'.registers
  settings : e.settings = e'.settings

omit [RegisterBlock ρ] in
theorem Engine.SameRegisters.symm (h : e.SameRegisters e') : e'.SameRegisters e where
  registers := h.registers.symm
  settings := h.settings.symm

omit [RegisterBlock ρ] in
theorem Engine.SameRegisters.trans {e'' : Engine ρ κ μ} (h : e.SameRegisters e')
    (h' : e'.SameRegisters e'') : e.SameRegisters e'' where
  registers := h.registers.trans h'.registers
  settings := h.settings.trans h'.settings

/-- Lines in the log are none of either. -/
theorem Engine.Accessed.sameRegisters (h : e.Accessed [] e') : e.SameRegisters e' := by
  generalize htrace : [] = trace at h
  induction h with
  | refl => exact ⟨rfl, rfl⟩
  | note notice _ ih => exact { ih htrace with }
  | _ => cases htrace

namespace EngineM

section Calls

omit [RegisterBlock ρ] in
theorem sameRegisters_note (notice : Notice) :
    Coupled (Engine.SameRegisters (ρ := ρ) (κ := κ) (μ := μ)) (note notice) Engine.SameRegisters :=
  fun _ _ h => ⟨_, _, _, run_note _ _, run_note _ _, { h with }⟩

theorem sameRegisters_read (address : UInt32) :
    Coupled (Engine.SameRegisters (ρ := ρ) (κ := κ) (μ := μ)) (readRegister address)
      Engine.SameRegisters :=
  coupled_of_run fun _ _ h => ⟨_, _, _, _, run_readRegister _ _, run_readRegister _ _,
    by rw [h.registers], { h with registers := by simp only [h.registers] }⟩

theorem sameRegisters_write (address value : UInt32) :
    Coupled (Engine.SameRegisters (ρ := ρ) (κ := κ) (μ := μ)) (writeRegister address value)
      Engine.SameRegisters :=
  fun _ _ h => ⟨_, _, _, run_writeRegister _ _ _, run_writeRegister _ _ _,
    { h with registers := by simp only [h.registers] }⟩

theorem sameRegisters_fence :
    Coupled (Engine.SameRegisters (ρ := ρ) (κ := κ) (μ := μ)) fence Engine.SameRegisters :=
  fun _ _ h => ⟨_, _, _, run_fence _, run_fence _, { h with registers := by simp only [h.registers] }⟩

end Calls

theorem sameRegisters_anySet (addresses : List UInt32) :
    Coupled (Engine.SameRegisters (ρ := ρ) (κ := κ) (μ := μ)) (anySet addresses)
      Engine.SameRegisters := by
  induction addresses with
  | nil => exact coupled_pure false
  | cons address rest ih =>
    unfold anySet
    exact (sameRegisters_read address).bind fun _ => Coupled.ite (coupled_pure true) ih

theorem sameRegisters_pollAgain (addresses : List UInt32) (rereads : Nat) :
    Coupled (Engine.SameRegisters (ρ := ρ) (κ := κ) (μ := μ)) (pollAgain (anySet addresses) rereads)
      Engine.SameRegisters := by
  induction rereads with
  | zero =>
    unfold pollAgain
    exact (sameRegisters_anySet addresses).bind fun _ => coupled_pure _
  | succ rereads ih =>
    unfold pollAgain
    exact (sameRegisters_anySet addresses).bind fun _ => Coupled.ite ih (coupled_pure true)

/-- **A wait depends on the registers and the settings alone**, and so does whether it ends. -/
theorem returns_await_congr {addresses : List UInt32} {post : Except Fault Unit → Prop}
    (h : e.SameRegisters e')
    (hreturns : Returns (await (anySet addresses)) e fun outcome _ => post outcome) :
    Returns (await (anySet addresses)) e' fun outcome _ => post outcome := by
  unfold await at hreturns ⊢
  rw [returns_bind, returns_iff_of_run rfl] at hreturns ⊢
  rw [← h.settings, ← h.registers]
  have hpolls := fun rereads => (sameRegisters_pollAgain addresses rereads).run h
  -- the rest of a wait looks at nothing but whether the polls found the registers clear
  cases hlimit : e.settings.pollLimit with
  | none =>
    obtain ⟨clear, t, t', hrun, hrun', -⟩ := hpolls (RegisterBlock.patience e.registers)
    simp only [hlimit, returns_bind, returns_iff_of_run hrun] at hreturns
    simp only [returns_bind, returns_iff_of_run hrun']
    cases clear with
    | true =>
      rw [if_pos rfl, returns_pure_iff] at hreturns
      exact returns_pure hreturns
    | false =>
      obtain ⟨_, _, hnever, -⟩ := hreturns
      cases hnever
  | some limit =>
    obtain ⟨clear, t, t', hrun, hrun', -⟩ := hpolls limit
    simp only [hlimit, returns_bind, returns_iff_of_run hrun] at hreturns
    simp only [returns_bind, returns_iff_of_run hrun']
    cases clear with
    | true =>
      rw [if_pos rfl, returns_pure_iff] at hreturns
      exact returns_pure hreturns
    | false =>
      simp only [Bool.false_eq_true, if_false, returns_bind, returns_iff_of_run (run_note _ _),
        returns_pure_iff] at hreturns
      exact Returns.next (run_note _ _) (returns_pure hreturns)

/-! ## Handing over -/

/-- What a submission does once its wait has ended. -/
def handIn (a : Operation) (first : Bool) (words : List UInt32) :
    Except Fault Unit → EngineM ρ κ μ (Except Fault Unit × Operation)
  | .error fault => return (.error fault, a)
  | .ok () => do
    writeText 0 words
    fence
    command a first

theorem sameRegisters_handIn (a : Operation) (first : Bool) (words : List UInt32)
    (outcome : Except Fault Unit) :
    Coupled (Engine.SameRegisters (ρ := ρ) (κ := κ) (μ := μ)) (handIn a first words outcome)
      Engine.SameRegisters := by
  have hwrite : ∀ index, Coupled (Engine.SameRegisters (ρ := ρ) (κ := κ) (μ := μ))
      (writeText index words) Engine.SameRegisters := by
    induction words with
    | nil => exact fun _ => coupled_pure ()
    | cons word rest ih =>
      intro index
      unfold writeText
      exact (sameRegisters_write _ _).bind fun _ => ih (index + 1)
  cases outcome with
  | error fault => exact coupled_pure _
  | ok =>
    unfold handIn command
    refine (hwrite 0).bind fun _ => sameRegisters_fence.bind fun _ => ?_
    cases a.algorithm.bank? with
    | none => exact (sameRegisters_note _).bind fun _ => coupled_pure _
    | some bank =>
      refine (sameRegisters_write _ _).bind fun _ => sameRegisters_fence.bind fun _ => ?_
      exact (sameRegisters_note _).bind fun _ => coupled_pure _

/-- **A submission that is up to it waits and hands in.** Before that there are lines in the log. -/
theorem run_submit {first : Bool} (hmode : a.mode = .hardware first) (hfits : a.Fits words) :
    ∃ noted, e.Accessed [] noted ∧ (submit a words).run e =
      (awaitIdle >>= handIn a first (words.take textCapacity)).run noted := by
  have hrest : ∀ words, (do
      match ← awaitIdle with
      | .error fault => return (.error fault, a)
      | .ok () =>
        writeText 0 words
        fence
        command a first : EngineM ρ κ μ _) = awaitIdle >>= handIn a first words := by
    intro words
    refine bind_congr fun outcome => ?_
    cases outcome <;> rfl
  have hbegun := (Engine.Accessed.refl (e := e)).note (.submitting a.algorithm)
  by_cases hlong : textCapacity < words.length
  · refine ⟨_, hbegun.note (.blockTruncated words.length), ?_⟩
    rw [← hrest]
    simp only [submit, hmode, fitBlock, if_pos hlong]
    rfl
  · have hlength := hfits.resolve_left hlong
    refine ⟨_, hbegun, ?_⟩
    rw [← hrest, List.take_of_length_le (Nat.le_of_not_lt hlong)]
    simp only [submit, hmode, fitBlock, if_neg hlong, if_neg (not_not_intro hlength)]
    rfl

theorem accessed_writeText (index : Nat) (words : List UInt32) :
    Returns (writeText index words) e fun _ e' => e.Accessed (wordWrites index words) e' := by
  induction words generalizing index e with
  | nil => exact returns_pure .refl
  | cons word rest ih =>
    unfold writeText
    refine Returns.next (run_writeRegister _ _ _) ((ih (index + 1)).mono fun _ e' he => ?_)
    rw [wordWrites_cons]
    exact (Engine.Accessed.refl.write _ _).trans he

/-- **After the wait the words go in, and the unit is commanded** if there is one. -/
theorem handed_handIn {first : Bool} {polls : List Event} {outcome : Except Fault Unit}
    (hmode : a.mode = .hardware first) (hfits : a.Fits words) (hpolls : PollsOf busyAddresses polls)
    (hswept : outcome = .ok () → sweep <+: polls) (hends : e.settings.MayEnd outcome)
    (h : e.Accessed polls e') :
    Returns (handIn a first (words.take textCapacity) outcome) e' fun r e'' =>
      r.1 = a.answerTo outcome ∧ ∃ trace, e.Accessed trace e'' ∧ Handed a words r.1 r.2 trace := by
  have hon : a.isOnEngine = true := by simp [Operation.isOnEngine, hmode]
  cases outcome with
  | error fault =>
    obtain ⟨rfl, -⟩ := hends
    exact returns_pure ⟨rfl, _, h, .stuck hon hfits hpolls⟩
  | ok =>
    unfold handIn
    refine (accessed_writeText 0 _).bind fun _ e₁ h₁ => Returns.next (run_fence _) ?_
    have hfenced := (h.trans h₁).barrier
    unfold command Operation.answerTo
    rw [Algorithm.bank?]
    cases hunit : a.algorithm.unit? with
    | none =>
      refine Returns.next (run_note _ _) (returns_pure ⟨by simp, ?_⟩)
      exact ⟨_, hfenced.note _, .parked hon hfits hunit hpolls (hswept rfl)⟩
    | some unit =>
      refine Returns.next (run_writeRegister _ _ _) (Returns.next (run_fence _) ?_)
      refine Returns.next (run_note _ _) (returns_pure ⟨by simp, ?_⟩)
      refine ⟨_, ((hfenced.write _ _).barrier).note _, ?_⟩
      rw [command_address_ofUnit]
      exact .taken hmode hfits hunit hpolls (hswept rfl)

/-! ## Submissions -/

/-- An operation is refused, or its block is, or both are up to a wait. -/
theorem submit_cases (a : Operation) (words : List UInt32) :
    a.isOnEngine = false ∨
      (a.isOnEngine = true ∧ words.length ≤ textCapacity ∧ words.length ≠ a.algorithm.blockWords) ∨
      ∃ first, a.mode = .hardware first ∧ a.Fits words := by
  cases hon : a.isOnEngine with
  | false => exact Or.inl rfl
  | true =>
    refine Or.inr ?_
    by_cases hfits : a.Fits words
    · obtain ⟨first, hmode⟩ := Operation.exists_hardware hon
      exact Or.inr ⟨first, hmode, hfits⟩
    · obtain ⟨hshort, hmisfit⟩ := not_or.1 hfits
      exact Or.inl ⟨rfl, Nat.le_of_not_lt hshort, hmisfit⟩

theorem refused_submit (words : List UInt32) (h : a.isOnEngine = false) :
    Returns (submit a words) e fun r e' =>
      r = (.error .notOwner, a) ∧ e.Accessed [] e' := by
  unfold submit
  refine Returns.next (run_note _ _) ?_
  cases hmode : a.mode with
  | hardware first => simp [Operation.isOnEngine, hmode] at h
  | _ => exact Returns.next (run_note _ _) (returns_pure ⟨rfl, (Engine.Accessed.refl.note _).note _⟩)

theorem misfit_submit (hon : a.isOnEngine = true) (hshort : words.length ≤ textCapacity)
    (hmisfit : words.length ≠ a.algorithm.blockWords) :
    Returns (submit a words) e fun r e' =>
      r = (.error .wrongSize, a) ∧ e.Accessed [] e' := by
  obtain ⟨first, hmode⟩ := Operation.exists_hardware hon
  unfold submit fitBlock
  refine Returns.next (run_note _ _) ?_
  rw [hmode, if_neg (Nat.not_lt.2 hshort), if_pos hmisfit]
  exact Returns.next rfl (returns_pure ⟨rfl, (Engine.Accessed.refl.note _).note _⟩)

/-- A wait for some registers, with the ways in which it may end. -/
theorem waited_await (addresses : List UInt32) : Always (await (anySet addresses)) e fun outcome e' =>
    ∃ polls, e.Accessed polls e' ∧ PollsOf addresses polls ∧
      (outcome = .ok () → clearPolls addresses <+: polls) ∧ e.settings.MayEnd outcome := by
  refine ((accessed_await addresses).and (mayEnd_await _)).mono fun outcome e' he => ?_
  obtain ⟨⟨polls, haccessed, hpolls, hswept⟩, hends⟩ := he
  exact ⟨polls, haccessed, hpolls, hswept, hends⟩

/-- A wait for all units, with the ways in which it may end. -/
theorem waited_awaitIdle : Always awaitIdle e fun outcome e' => ∃ polls, e.Accessed polls e' ∧
    PollsOf busyAddresses polls ∧ (outcome = .ok () → sweep <+: polls) ∧
      e.settings.MayEnd outcome :=
  waited_await busyAddresses

/-- What a wait for all units says is one of the ways in which it may end. -/
theorem returns_awaitIdle_iff {said said' : Except Fault Unit → Prop}
    (h : ∀ outcome, e.settings.MayEnd outcome → (said outcome ↔ said' outcome)) :
    (Returns awaitIdle e fun outcome _ => said outcome) ↔
      Returns awaitIdle e fun outcome _ => said' outcome := by
  constructor <;> intro hreturns <;>
    refine (hreturns.and_always (mayEnd_await _)).mono fun outcome _ ho => ?_
  · exact (h outcome ho.2).1 ho.1
  · exact (h outcome ho.2).2 ho.1

/-- **Whatever a submission answers, it has made the accesses of that answer.** -/
theorem handed_submit (a : Operation) (words : List UInt32) :
    Always (submit a words) e fun r e' =>
      ∃ trace, e.Accessed trace e' ∧ Handed a words r.1 r.2 trace := by
  obtain hoff | ⟨hon, hshort, hmisfit⟩ | ⟨first, hmode, hfits⟩ := submit_cases a words
  · refine (refused_submit words hoff).always.mono fun r e' he => ?_
    rw [he.1]
    exact ⟨[], he.2, .refused hoff⟩
  · refine (misfit_submit hon hshort hmisfit).always.mono fun r e' he => ?_
    rw [he.1]
    exact ⟨[], he.2, .misfit hon hshort hmisfit⟩
  · obtain ⟨noted, hnoted, hrun⟩ := run_submit (e := e) hmode hfits
    refine (always_congr hrun).2 ?_
    refine always_bind.2 (waited_awaitIdle.mono fun outcome e' he => ?_)
    obtain ⟨polls, haccessed, hpolls, hswept, hends⟩ := he
    have hall := hnoted.trans haccessed
    rw [List.append_nil] at hall
    refine (handed_handIn hmode hfits hpolls hswept ?_ hall).always.mono fun r e'' hr => hr.2
    rwa [hnoted.sameRegisters.settings]

/-- **A submission that is up to it answers by its wait.** -/
theorem answers_submit {first : Bool} (hmode : a.mode = .hardware first) (hfits : a.Fits words)
    (outcome : Except Fault Unit) :
    (Returns (submit a words) e fun r _ => r.1 = outcome) ↔
      Returns awaitIdle e fun waited _ => a.answerTo waited = outcome := by
  obtain ⟨noted, hnoted, hrun⟩ := run_submit (e := e) hmode hfits
  have hsame := hnoted.sameRegisters
  have hanswers : ∀ {waited t}, (∃ polls, noted.Accessed polls t ∧ PollsOf busyAddresses polls ∧
      (waited = .ok () → sweep <+: polls) ∧ noted.settings.MayEnd waited) →
      Returns (handIn a first (words.take textCapacity) waited) t fun r _ =>
        r.1 = a.answerTo waited := by
    rintro waited t ⟨polls, haccessed, hpolls, hswept, hends⟩
    exact (handed_handIn hmode hfits hpolls hswept hends haccessed).mono fun r _ hr => hr.1
  have hwaits : (Returns (submit a words) e fun r _ => r.1 = outcome) ↔
      Returns awaitIdle noted fun waited _ => a.answerTo waited = outcome := by
    refine (returns_congr hrun).trans (returns_bind.trans ⟨fun h => ?_, fun h => ?_⟩)
    · refine (h.and_always waited_awaitIdle).mono fun waited t ht => ?_
      exact (hanswers ht.2).eq_iff.1 ht.1
    · refine (h.and_always waited_awaitIdle).mono fun waited t ht => ?_
      exact (hanswers ht.2).eq_iff.2 ht.1
  refine hwaits.trans ⟨fun h => ?_, fun h => ?_⟩
  · exact returns_await_congr hsame.symm h
  · exact returns_await_congr hsame h

/-- **A submission is all or nothing**, whatever the registers answer. One that is refused reaches no
register, and one that is given up only polls; one whose algorithm has no unit writes the words, closes
them off with a barrier and parks the operation; and one that succeeds gives one command behind it, to
start before the first block and to go on after it. No other register is ever written. Which way is
taken is decided by the operation, the number of words, and the end of a wait for all units. -/
theorem submit_all_or_nothing (e : Engine ρ κ μ) (a : Operation) (words : List UInt32) :
    (Always (submit a words) e fun r e' => ∃ trace, e.Accessed trace e' ∧
      Handed a words r.1 r.2 trace ∧ ∀ address value, .write address value ∈ trace →
        (∃ index, address = (Register.text index).address) ∨
          ∃ unit order, a.algorithm.unit? = some unit ∧ order ≠ .load ∧
            address = (Register.command unit order).address) ∧
    ((Returns (submit a words) e fun r _ => r.1 = .error .notOwner) ↔ a.isOnEngine = false) ∧
    ((Returns (submit a words) e fun r _ => r.1 = .error .wrongSize) ↔
      a.isOnEngine = true ∧ words.length ≤ textCapacity ∧ words.length ≠ a.algorithm.blockWords) ∧
    ((Returns (submit a words) e fun r _ => r.1 = .error .stillBusy) ↔
      a.isOnEngine = true ∧ a.Fits words ∧
        Returns awaitIdle e fun waited _ => waited = .error .stillBusy) ∧
    ((Returns (submit a words) e fun r _ => r.1 = .error (.noUnit a.algorithm)) ↔
      a.isOnEngine = true ∧ a.Fits words ∧ a.algorithm.unit? = none ∧
        Returns awaitIdle e fun waited _ => waited = .ok ()) ∧
    ((Returns (submit a words) e fun r _ => r.1 = .ok ()) ↔
      a.isOnEngine = true ∧ a.Fits words ∧ a.algorithm.unit? ≠ none ∧
        Returns awaitIdle e fun waited _ => waited = .ok ()) := by
  refine ⟨(handed_submit a words).mono fun r e' he => ?_, ?_⟩
  · obtain ⟨trace, haccessed, hhanded⟩ := he
    exact ⟨trace, haccessed, hhanded, fun _ _ => hhanded.writes⟩
  obtain hoff | ⟨hon, hshort, hmisfit⟩ | ⟨first, hmode, hfits⟩ := submit_cases a words
  · have hanswers : ∀ outcome, (Returns (submit a words) e fun r _ => r.1 = outcome) ↔
        .error .notOwner = outcome :=
      fun _ => ((refused_submit words hoff).mono fun _ _ h => congrArg Prod.fst h.1).eq_iff
    simp [hanswers, hoff]
  · have hanswers : ∀ outcome, (Returns (submit a words) e fun r _ => r.1 = outcome) ↔
        .error .wrongSize = outcome :=
      fun _ => ((misfit_submit hon hshort hmisfit).mono fun _ _ h => congrArg Prod.fst h.1).eq_iff
    have hnot : ¬ a.Fits words := not_or.2 ⟨Nat.not_lt.2 hshort, hmisfit⟩
    simp [hanswers, hon, hshort, hmisfit, hnot]
  · have hon : a.isOnEngine = true := by simp [Operation.isOnEngine, hmode]
    have hnot : ¬ (words.length ≤ textCapacity ∧ words.length ≠ a.algorithm.blockWords) := by
      rintro ⟨hshort, hmisfit⟩
      exact hfits.elim (Nat.not_lt.2 hshort) hmisfit
    have hnever : ∀ {fault}, (∀ waited, e.settings.MayEnd waited → a.answerTo waited ≠ .error fault) →
        ¬ Returns awaitIdle e fun waited _ => a.answerTo waited = .error fault := by
      rintro fault hne hreturns
      obtain ⟨waited, t, -, heq, hends⟩ := hreturns.and_always (mayEnd_await _)
      exact hne waited hends heq
    simp only [answers_submit hmode hfits, hon, hfits, hnot, true_and, iff_false,
      Bool.true_eq_false]
    refine ⟨hnever fun _ h => (a.answerTo_eq_iff h).2.2.2.1,
      hnever fun _ h => (a.answerTo_eq_iff h).2.2.2.2,
      returns_awaitIdle_iff fun _ h => (a.answerTo_eq_iff h).1, ?_, ?_⟩
    · rw [← returns_and_left]
      exact returns_awaitIdle_iff fun _ h => (a.answerTo_eq_iff h).2.1
    · rw [← returns_and_left]
      exact returns_awaitIdle_iff fun _ h => (a.answerTo_eq_iff h).2.2.1

end EngineM

end HashAccelerator
