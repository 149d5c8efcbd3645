import HashAccelerator.Proofs.Engine.Kept
/-!
# The discipline of the registers

The text registers carry blocks in and digests out, and the units work on them in their own time. So
whoever drives the accelerator keeps to an order of accesses: between the words of a block and the
command that hashes them there is a barrier, and between a command and the words of a digest there is
another; words and commands are written only after all units were found idle, and a digest is read
only after its own unit was told to load it, was found clear, and all units were found idle once more.

`Permitted` says of one access what has to lie before it. A call of an operation keeps to this order
by itself, whatever the registers answer and wherever it gives up (`Orderly.submit`, `Orderly.fetch`);
all it needs of those before it is that no word of theirs is left without a barrier behind it.
-/

namespace HashAccelerator

open EngineM

/-! ## Accesses -/

namespace Event

/-- The register that a call writes. -/
def written? : Event → Option Register
  | .write address _ => Register.decode? address
  | _ => none

/-- The register that a call reads. -/
def read? : Event → Option Register
  | .read address _ => Register.decode? address
  | _ => none

@[simp] theorem written?_write (register : Register) (value : UInt32) :
    written? (.write register.address value) = some register := Register.decode?_address register

/-- The call reads or writes a register. -/
def isAccess : Event → Bool
  | .read _ _ | .write _ _ => true
  | _ => false

/-- A word of a block is written. -/
def WritesText (event : Event) : Prop := ∃ index, event.written? = some (.text index)

/-- A word of a digest is read. -/
def ReadsText (event : Event) : Prop := ∃ index, event.read? = some (.text index)

/-- A unit is given a command. -/
def Commands (event : Event) : Prop := ∃ unit order, event.written? = some (.command unit order)

/-- A unit is asked whether it is busy. -/
def IsPoll (event : Event) : Prop := ∃ unit value, event = .read (Register.busy unit).address value

variable {event : Event}

theorem not_writesText_of_isAccess (h : event.isAccess = false) : ¬ event.WritesText := by
  rintro ⟨index, hwritten⟩
  cases event <;> simp [written?, isAccess] at hwritten h

theorem IsPoll.not_writesText (h : event.IsPoll) : ¬ event.WritesText := by
  obtain ⟨unit, value, rfl⟩ := h
  simp [WritesText, written?]

theorem IsPoll.not_commands (h : event.IsPoll) : ¬ event.Commands := by
  obtain ⟨unit, value, rfl⟩ := h
  simp [Commands, written?]

end Event

/-! ## Order -/

/-- A poll of all units, one after the other, that finds each of them idle; newest first. -/
def sweep : List Event :=
  (List.finRange 4).reverse.map fun unit => .read (Register.busy unit).address 0

/-- A barrier has come after every such event. -/
def Fenced (p : Event → Prop) (history : List Event) : Prop :=
  ∀ newer event older, history = newer ++ event :: older → p event → .barrier ∈ newer

/-- All units were found idle in one sweep, and none has been given a command since. -/
def IdleSince (history : List Event) : Prop :=
  ∃ newer older, history = newer ++ (sweep ++ older) ∧ ∀ event ∈ newer, ¬ event.Commands

/-- A unit was told to load its digest, was found clear, and then all units were found idle; and none
has been given another command. -/
def LoadedBy (unit : UnitIndex) (history : List Event) : Prop :=
  ∃ newer between polls older, history = newer ++ (sweep ++ (between ++
      .read (Register.busy unit).address 0 :: (polls ++
        .write (Register.command unit .load).address 1 :: older))) ∧
    ∀ event ∈ newer ++ between ++ polls, ¬ event.Commands

/-- And all of it came after the given past. -/
def LoadedSince (past : List Event) (unit : UnitIndex) (history : List Event) : Prop :=
  ∃ newer, history = newer ++ past ∧ LoadedBy unit newer

/-- What has to lie before an access: before a word of a block, before a command, and before a word of
a digest, which is for one of the given algorithms and has been loaded since the given past. Units are
polled at any time, and no other register is read or written. -/
inductive Permitted (reads : Algorithm → Prop) (past older : List Event) : Event → Prop
  | word {value} (index) : IdleSince older →
      Permitted reads past older (.write (Register.text index).address value)
  | command (unit order) : IdleSince older → Fenced Event.WritesText older →
      Permitted reads past older (.write (Register.command unit order).address 1)
  | poll {value} (unit) : Permitted reads past older (.read (Register.busy unit).address value)
  | digest {value algorithm unit} (index) : reads algorithm → algorithm.unit? = some unit →
      LoadedSince past unit older → Fenced Event.Commands older →
      Permitted reads past older (.read (Register.text index).address value)
  | other {event : Event} : event.isAccess = false → Permitted reads past older event

/-- What has come after a past was permitted, each event when it came. -/
inductive Disciplined (reads : Algorithm → Prop) (past : List Event) : List Event → Prop
  | nil : Disciplined reads past past
  | cons {event history} : Disciplined reads past history → Permitted reads past history event →
      Disciplined reads past (event :: history)

section Lists

variable {reads : Algorithm → Prop} {p : Event → Prop} {event : Event} {unit : UnitIndex}
variable {past newer older history : List Event}

theorem fenced_nil : Fenced p [] := by
  intro newer event older h
  simp at h

theorem fenced_barrier (hnot : ¬ p .barrier) : Fenced p (.barrier :: history) := by
  intro newer event older h hevent
  cases newer with
  | nil =>
    cases h
    exact absurd hevent hnot
  | cons first newer =>
    cases h
    exact List.mem_cons_self

theorem Fenced.cons (h : Fenced p history) (hnot : ¬ p event) : Fenced p (event :: history) := by
  intro newer other older hsplit hother
  cases newer with
  | nil =>
    cases hsplit
    exact absurd hother hnot
  | cons first newer =>
    cases hsplit
    exact List.mem_cons_of_mem _ (h newer other older rfl hother)

theorem Fenced.append (h : Fenced p history) (hnot : ∀ event ∈ newer, ¬ p event) :
    Fenced p (newer ++ history) := by
  induction newer with
  | nil => exact h
  | cons event newer ih =>
    rw [List.forall_mem_cons] at hnot
    exact (ih hnot.2).cons hnot.1

theorem IdleSince.cons (h : IdleSince history) (hnot : ¬ event.Commands) :
    IdleSince (event :: history) := by
  obtain ⟨later, older, rfl, hlater⟩ := h
  exact ⟨event :: later, older, rfl, List.forall_mem_cons.2 ⟨hnot, hlater⟩⟩

theorem idleSince_sweep (h : sweep <+: newer) : IdleSince (newer ++ history) := by
  obtain ⟨polls, rfl⟩ := h
  exact ⟨[], polls ++ history, by simp, by simp⟩

theorem LoadedBy.cons (h : LoadedBy unit history) (hnot : ¬ event.Commands) :
    LoadedBy unit (event :: history) := by
  obtain ⟨later, between, polls, older, rfl, hlater⟩ := h
  exact ⟨event :: later, between, polls, older, rfl, List.forall_mem_cons.2 ⟨hnot, hlater⟩⟩

theorem LoadedBy.before (h : LoadedBy unit newer) : LoadedBy unit (newer ++ history) := by
  obtain ⟨later, between, polls, older, rfl, hlater⟩ := h
  exact ⟨later, between, polls, older ++ history, by simp, hlater⟩

theorem LoadedSince.cons (h : LoadedSince past unit history) (hnot : ¬ event.Commands) :
    LoadedSince past unit (event :: history) := by
  obtain ⟨own, rfl, hown⟩ := h
  exact ⟨event :: own, rfl, hown.cons hnot⟩

/-- A shorter past and more readers permit no less. -/
theorem Permitted.mono {reads' : Algorithm → Prop} {past' : List Event}
    (h : Permitted reads past older event) (hreads : ∀ algorithm, reads algorithm → reads' algorithm)
    (hpast : past' <:+ past) : Permitted reads' past' older event := by
  cases h with
  | word index hidle => exact .word index hidle
  | command unit order hidle hfenced => exact .command unit order hidle hfenced
  | poll unit => exact .poll unit
  | other hother => exact .other hother
  | digest index hread hunit hloaded hfenced =>
    obtain ⟨newer, rfl, hloaded⟩ := hloaded
    obtain ⟨between, rfl⟩ := hpast
    exact .digest index (hreads _ hread) hunit
      ⟨newer ++ between, by rw [List.append_assoc], hloaded.before⟩ hfenced

theorem Disciplined.suffix (h : Disciplined reads past history) : past <:+ history := by
  induction h with
  | nil => exact List.suffix_refl _
  | cons _ _ ih => exact ih.trans (List.suffix_cons _ _)

/-- One discipline after another is one. -/
theorem Disciplined.trans {reads' : Algorithm → Prop} {middle : List Event}
    (h : Disciplined reads past middle) (h' : Disciplined reads' middle history)
    (hreads : ∀ algorithm, reads' algorithm → reads algorithm) : Disciplined reads past history := by
  induction h' with
  | nil => exact h
  | cons _ hpermitted ih => exact ih.cons (hpermitted.mono hreads h.suffix)

/-- **Every event was permitted when it came.** -/
theorem Disciplined.permitted (h : Disciplined reads [] history)
    (hsuffix : event :: older <:+ history) : Permitted reads [] older event := by
  induction h with
  | nil => simp at hsuffix
  | cons _ hpermitted ih =>
    rcases List.suffix_cons_iff.1 hsuffix with heq | hsuffix
    · cases heq
      exact hpermitted
    · exact ih hsuffix

theorem Disciplined.polls (h : Disciplined reads past history)
    (hpolls : ∀ event ∈ newer, event.IsPoll) : Disciplined reads past (newer ++ history) := by
  induction newer with
  | nil => exact h
  | cons event newer ih =>
    rw [List.forall_mem_cons] at hpolls
    obtain ⟨unit, value, rfl⟩ := hpolls.1
    exact (ih hpolls.2).cons (.poll unit)

end Lists

namespace EngineM

variable {ρ κ μ : Type} [RegisterBlock ρ] {e : Engine ρ κ μ}

/-! ## Waits -/

/-- The polls are of some registers only. -/
def PollsOf (addresses : List UInt32) (polls : List Event) : Prop :=
  ∀ event ∈ polls, ∃ address ∈ addresses, ∃ value, event = .read address value

/-- Polls that find each register clear, in order; newest first. -/
def clearPolls (addresses : List UInt32) : List Event :=
  (addresses.map fun address => Event.read address 0).reverse

theorem always_anySet_polls (addresses : List UInt32) :
    Always (anySet addresses) e fun busy e' => ∃ polls, e'.history = polls ++ e.history ∧
      PollsOf addresses polls ∧ (busy = false → polls = clearPolls addresses) := by
  induction addresses generalizing e with
  | nil => exact always_pure.2 ⟨[], rfl, fun _ hmem => absurd hmem List.not_mem_nil, fun _ => rfl⟩
  | cons address rest ih =>
    simp only [anySet, always_bind, always_readRegister]
    have hfirst : PollsOf (address :: rest)
        [.read address (RegisterBlock.read address e.registers).1] := by
      intro event hevent
      exact ⟨address, List.mem_cons_self, _, List.mem_singleton.1 hevent⟩
    refine Always.ite (fun _ => ?_) fun hclear => ?_
    · rw [always_pure]
      exact ⟨_, rfl, hfirst, fun h => by cases h⟩
    · have hzero : (RegisterBlock.read address e.registers).1 = 0 := by simpa using hclear
      refine ih.mono fun busy e' he => ?_
      obtain ⟨polls, hhistory, hpolls, hswept⟩ := he
      refine ⟨polls ++ [.read address (RegisterBlock.read address e.registers).1], ?_, ?_, ?_⟩
      · rw [hhistory, List.append_assoc]
        rfl
      · refine List.forall_mem_append.2 ⟨fun event hevent => ?_, hfirst⟩
        obtain ⟨other, hother, hread⟩ := hpolls event hevent
        exact ⟨other, List.mem_cons_of_mem _ hother, hread⟩
      · intro hbusy
        rw [hswept hbusy, hzero, clearPolls, clearPolls, List.map_cons, List.reverse_cons]

theorem always_pollAgain_polls (addresses : List UInt32) (rereads : Nat) :
    Always (pollAgain (anySet addresses) rereads) e fun clear e' =>
      ∃ polls, e'.history = polls ++ e.history ∧ PollsOf addresses polls ∧
        (clear = true → clearPolls addresses <+: polls) := by
  induction rereads generalizing e with
  | zero =>
    simp only [pollAgain, always_bind, always_pure]
    refine (always_anySet_polls addresses).mono fun busy e' he => ?_
    obtain ⟨polls, hhistory, hpolls, hswept⟩ := he
    refine ⟨polls, hhistory, hpolls, fun hclear => ?_⟩
    exact ⟨[], by rw [hswept (by simpa using hclear), List.append_nil]⟩
  | succ rereads ih =>
    simp only [pollAgain, always_bind]
    refine (always_anySet_polls addresses).mono fun busy e' he => ?_
    obtain ⟨polls, hhistory, hpolls, hswept⟩ := he
    refine Always.ite (fun _ => ?_) fun hclear => ?_
    · refine ih.mono fun clear e'' he => ?_
      obtain ⟨later, hlater, hlaterPolls, hlaterSwept⟩ := he
      refine ⟨later ++ polls, by rw [hlater, hhistory, List.append_assoc],
        List.forall_mem_append.2 ⟨hlaterPolls, hpolls⟩, fun h => ?_⟩
      exact (hlaterSwept h).trans (List.prefix_append _ _)
    · rw [always_pure]
      refine ⟨polls, hhistory, hpolls, fun _ => ?_⟩
      exact ⟨[], by rw [hswept (by simpa using hclear), List.append_nil]⟩

/-- **A wait polls, and ends well only if its last polls find everything clear.** -/
theorem always_await_polls (addresses : List UInt32) :
    Always (await (anySet addresses)) e fun outcome e' =>
      ∃ polls, e'.history = polls ++ e.history ∧ PollsOf addresses polls ∧
        (outcome = .ok () → clearPolls addresses <+: polls) := by
  simp only [await, always_bind, always_get]
  cases e.settings.pollLimit with
  | none =>
    refine always_bind.2 ((always_pollAgain_polls addresses _).mono fun clear e' he => ?_)
    obtain ⟨polls, hhistory, hpolls, hswept⟩ := he
    refine Always.ite (fun hclear => ?_) fun _ => always_never
    rw [always_pure]
    exact ⟨polls, hhistory, hpolls, fun _ => hswept hclear⟩
  | some limit =>
    refine always_bind.2 ((always_pollAgain_polls addresses _).mono fun clear e' he => ?_)
    obtain ⟨polls, hhistory, hpolls, hswept⟩ := he
    refine Always.ite (fun hclear => ?_) fun _ => ?_
    · rw [always_pure]
      exact ⟨polls, hhistory, hpolls, fun _ => hswept hclear⟩
    · simp only [always_bind, always_note, always_pure]
      exact ⟨polls, hhistory, hpolls, fun h => by cases h⟩

theorem clearPolls_busyAddresses : clearPolls busyAddresses = sweep := rfl

/-- Busy registers are polled, if nothing else is. -/
theorem PollsOf.isPoll {addresses : List UInt32} {polls : List Event}
    (h : PollsOf addresses polls)
    (hbusy : ∀ address ∈ addresses, ∃ unit, address = (Register.busy unit).address) :
    ∀ event ∈ polls, event.IsPoll := by
  intro event hevent
  obtain ⟨address, haddress, value, rfl⟩ := h event hevent
  obtain ⟨unit, rfl⟩ := hbusy address haddress
  exact ⟨unit, value, rfl⟩

/-- **A wait for all units** ends well only after a sweep. -/
theorem always_awaitIdle_polls : Always awaitIdle e fun outcome e' =>
    ∃ polls, e'.history = polls ++ e.history ∧ (∀ event ∈ polls, event.IsPoll) ∧
      (outcome = .ok () → sweep <+: polls) := by
  refine (always_await_polls busyAddresses).mono fun outcome e' he => ?_
  obtain ⟨polls, hhistory, hpolls, hswept⟩ := he
  refine ⟨polls, hhistory, hpolls.isPoll fun _ hmem => exists_of_mem_busyAddresses hmem, ?_⟩
  rw [← clearPolls_busyAddresses]
  exact hswept

theorem always_awaitClear_polls (unit : UnitIndex) :
    Always (awaitClear (Register.busy unit).address) e fun outcome e' =>
      ∃ polls, e'.history = polls ++ e.history ∧ (∀ event ∈ polls, event.IsPoll) ∧
        (outcome = .ok () → [.read (Register.busy unit).address 0] <+: polls) := by
  refine (always_await_polls [(Register.busy unit).address]).mono fun outcome e' he => ?_
  obtain ⟨polls, hhistory, hpolls, hswept⟩ := he
  exact ⟨polls, hhistory, hpolls.isPoll fun _ h => ⟨unit, List.mem_singleton.1 h⟩, hswept⟩

/-! ## Blocks and digests -/

variable {reads : Algorithm → Prop} {past : List Event}

/-- The engine between two calls: all since the past was permitted, and there is no word without a
barrier behind it. -/
structure Orderly (reads : Algorithm → Prop) (past : List Event) (e : Engine ρ κ μ) : Prop where
  disciplined : Disciplined reads past e.history
  fenced : Fenced Event.WritesText e.history

omit [RegisterBlock ρ] in
/-- What is no access disturbs no order. -/
theorem Orderly.cons {e' : Engine ρ κ μ} {event : Event} (h : Orderly reads past e)
    (hevent : event.isAccess = false) (hhistory : e'.history = event :: e.history) :
    Orderly reads past e' where
  disciplined := hhistory ▸ h.disciplined.cons (.other hevent)
  fenced := hhistory ▸ h.fenced.cons (Event.not_writesText_of_isAccess hevent)

omit [RegisterBlock ρ] in
/-- Nor do polls. -/
theorem Orderly.polls {e' : Engine ρ κ μ} {polls : List Event} (h : Orderly reads past e)
    (hpolls : ∀ event ∈ polls, event.IsPoll) (hhistory : e'.history = polls ++ e.history) :
    Orderly reads past e' where
  disciplined := hhistory ▸ h.disciplined.polls hpolls
  fenced := hhistory ▸ h.fenced.append fun event hevent => (hpolls event hevent).not_writesText

theorem Orderly.awaitIdle (h : Orderly reads past e) :
    Always awaitIdle e fun outcome e' =>
      Orderly reads past e' ∧ (outcome = .ok () → IdleSince e'.history) := by
  refine always_awaitIdle_polls.mono fun outcome e' he => ?_
  obtain ⟨polls, hhistory, hpolls, hswept⟩ := he
  refine ⟨h.polls hpolls hhistory, fun hok => ?_⟩
  rw [hhistory]
  exact idleSince_sweep (hswept hok)

/-- The words of a block are written while the units are idle, as far as there are registers. -/
theorem always_writeText_disciplined (index : Nat) (words : List UInt32)
    (hroom : index + words.length ≤ 32) (hidle : IdleSince e.history)
    (h : Disciplined reads past e.history) :
    Always (writeText index words) e fun _ e' =>
      IdleSince e'.history ∧ Disciplined reads past e'.history := by
  induction words generalizing index e with
  | nil => exact always_pure.2 ⟨hidle, h⟩
  | cons word rest ih =>
    rw [List.length_cons] at hroom
    simp only [writeText, always_bind, always_writeRegister]
    have hwrite : Event.write (textAddress index) word =
        .write (Register.text ⟨index, by omega⟩).address word := rfl
    refine ih (index + 1) (by omega) ?_ ?_
    · refine hidle.cons ?_
      rw [hwrite]
      simp [Event.Commands]
    · rw [hwrite]
      exact h.cons (.word _ hidle)

omit [RegisterBlock ρ] in
theorem always_fitBlock_room (algorithm : Algorithm) (words : List UInt32) :
    Always (fitBlock algorithm words) e fun fitted e' => e'.history = e.history ∧
      ∀ words', fitted = .ok words' → words'.length ≤ 32 := by
  have hblock : algorithm.blockWords ≤ 32 := by cases algorithm <;> decide
  refine Always.ite (fun _ => ?_) fun hshort => Always.ite (fun _ => ?_) fun _ => ?_
  · simp only [always_bind, always_note, always_pure]
    refine ⟨trivial, fun words' hwords => ?_⟩
    rw [← Except.ok.inj hwords]
    exact List.length_take_le _ _
  · simp only [always_bind, always_note, always_pure]
    exact ⟨trivial, fun _ h => by cases h⟩
  · rw [always_pure]
    refine ⟨rfl, fun words' hwords => ?_⟩
    rw [← Except.ok.inj hwords]
    exact Nat.le_of_not_lt hshort

theorem command_address_ofUnit (unit : UnitIndex) (first : Bool) :
    (if first then (RegisterBank.ofUnit (UnitIndex.toWord unit)).start
      else (RegisterBank.ofUnit (UnitIndex.toWord unit)).resume) =
    (Register.command unit (if first then .start else .resume)).address := by
  cases first <;> simp [RegisterBank.ofUnit, Register.address, Command.offset]

/-- **A block is handed over in order**, and so is half of one. -/
theorem Orderly.submit (h : Orderly reads past e) (a : Operation) (words : List UInt32) :
    Always (submit a words) e fun _ e' => Orderly reads past e' := by
  have hnote : ∀ {e : Engine ρ κ μ} {n}, Orderly reads past e →
      Orderly reads past { e with notices := n :: e.notices } := fun h => ⟨h.disciplined, h.fenced⟩
  simp only [EngineM.submit, always_bind, always_note]
  have hnoted := hnote (n := .submitting a.algorithm) h
  cases a.mode with
  | uncommitted => simpa using hnote hnoted
  | software => simpa using hnote hnoted
  | unsettled => simpa using hnote hnoted
  | hardware first =>
    refine always_bind.2 ((always_fitBlock_room _ _).mono fun fitted e₁ h₁ => ?_)
    have hfitted : Orderly reads past e₁ := ⟨h₁.1 ▸ h.disciplined, h₁.1 ▸ h.fenced⟩
    cases fitted with
    | error fault => simpa using hfitted
    | ok words =>
      refine always_bind.2 (hfitted.awaitIdle.mono fun outcome e₂ h₂ => ?_)
      cases outcome with
      | error fault => simpa using h₂.1
      | ok =>
        refine always_bind.2 ((always_writeText_disciplined 0 words (by simpa using h₁.2 words rfl)
          (h₂.2 rfl) h₂.1.disciplined).mono fun _ e₃ h₃ => ?_)
        -- the words are fenced off, and then comes the command, if there is a unit for it
        have hbarrier : ∀ {history : List Event}, Fenced Event.WritesText (.barrier :: history) :=
          fenced_barrier (by simp [Event.WritesText, Event.written?])
        have hfenced : Disciplined reads past (.barrier :: e₃.history) := h₃.2.cons (.other rfl)
        have hidle : IdleSince (.barrier :: e₃.history) :=
          h₃.1.cons (by simp [Event.Commands, Event.written?])
        simp only [always_bind, always_fence, command, Algorithm.bank?]
        cases a.algorithm.unit? with
        | none =>
          simp only [Option.map_none, always_bind, always_note, always_pure]
          exact ⟨hfenced, hbarrier⟩
        | some unit =>
          simp only [Option.map_some, always_bind, always_writeRegister, always_fence, always_note,
            always_pure]
          rw [command_address_ofUnit]
          exact ⟨(hfenced.cons (.command _ _ hidle hbarrier)).cons (.other rfl), hbarrier⟩

/-- What a load adds, if both waits behind the command end well. -/
theorem loadedBy_polls {unit : UnitIndex} {cleared swept older : List Event}
    (hcleared : ∀ event ∈ cleared, event.IsPoll) (hswept : ∀ event ∈ swept, event.IsPoll)
    (hclear : [.read (Register.busy unit).address 0] <+: cleared) (hidle : sweep <+: swept) :
    LoadedBy unit (.barrier :: (swept ++ (cleared ++
      .barrier :: .write (Register.command unit .load).address 1 :: older))) := by
  obtain ⟨polls, rfl⟩ := hclear
  obtain ⟨between, rfl⟩ := hidle
  have hbarrier : ¬ Event.Commands .barrier := by simp [Event.Commands, Event.written?]
  refine ⟨[.barrier], between, polls ++ [.barrier], older, by simp, ?_⟩
  simp only [List.forall_mem_append, List.forall_mem_singleton]
  rw [List.forall_mem_append] at hcleared hswept
  exact ⟨⟨hbarrier, fun event h => (hswept.2 event h).not_commands⟩,
    fun event h => (hcleared.2 event h).not_commands, hbarrier⟩

/-- **A load that ends well has been waited for in order**: the unit was commanded and found clear,
and then all units were found idle. -/
theorem Orderly.loadDigest (h : Orderly reads past e) (unit : UnitIndex) :
    Always (loadDigest (.ofUnit (UnitIndex.toWord unit))) e fun outcome e' =>
      Orderly reads past e' ∧ (outcome = .ok () →
        LoadedSince past unit e'.history ∧ Fenced Event.Commands e'.history) := by
  have hbusy : (RegisterBank.ofUnit (UnitIndex.toWord unit)).busy =
      (Register.busy unit).address := rfl
  have hload : (RegisterBank.ofUnit (UnitIndex.toWord unit)).load =
      (Register.command unit .load).address := rfl
  have hfault : ∀ {e' : Engine ρ κ μ} {fault}, Orderly reads past e' →
      Orderly reads past e' ∧ ((.error fault : Except Fault Unit) = .ok () →
        LoadedSince past unit e'.history ∧ Fenced Event.Commands e'.history) :=
    fun horderly => ⟨horderly, fun h => by cases h⟩
  simp only [EngineM.loadDigest, always_bind]
  refine h.awaitIdle.mono fun outcome e₁ h₁ => ?_
  cases outcome with
  | error fault => exact always_pure.2 (hfault h₁.1)
  | ok =>
    simp only [always_bind, always_writeRegister, always_fence]
    rw [hbusy, hload]
    have hcommanded : Disciplined reads past
        (.barrier :: .write (Register.command unit .load).address 1 :: e₁.history) :=
      (h₁.1.disciplined.cons (.command unit .load (h₁.2 rfl) h₁.1.fenced)).cons (.other rfl)
    refine (always_awaitClear_polls unit).mono fun outcome e₂ h₂ => ?_
    obtain ⟨cleared, hhistory₂, hcleared, hclear⟩ := h₂
    have horderly₂ : Orderly reads past e₂ := by
      refine Orderly.polls (e := { e₁ with history := _ }) ⟨hcommanded, ?_⟩ hcleared hhistory₂
      exact fenced_barrier (by simp [Event.WritesText, Event.written?])
    cases outcome with
    | error fault => exact always_pure.2 (hfault horderly₂)
    | ok =>
      refine always_bind.2 (always_awaitIdle_polls.mono fun outcome e₃ h₃ => ?_)
      obtain ⟨swept, hhistory₃, hswept, hidle⟩ := h₃
      have horderly₃ : Orderly reads past e₃ := horderly₂.polls hswept hhistory₃
      cases outcome with
      | error fault => exact always_pure.2 (hfault horderly₃)
      | ok =>
        simp only [always_bind, always_fence, always_pure]
        refine ⟨horderly₃.cons rfl rfl, fun _ => ⟨?_, fenced_barrier ?_⟩⟩
        · obtain ⟨own, hown⟩ := h₁.1.disciplined.suffix
          have hloaded : LoadedBy unit (.barrier :: (swept ++ (cleared ++
              .barrier :: .write (Register.command unit .load).address 1 :: own))) :=
            loadedBy_polls hcleared hswept (hclear rfl) (hidle rfl)
          refine ⟨_, ?_, hloaded⟩
          rw [hhistory₃, hhistory₂, ← hown]
          simp
        · simp [Event.Commands, Event.written?]

/-- The words of a loaded digest are read. -/
theorem Orderly.readText {algorithm : Algorithm} {unit : UnitIndex} (index count : Nat)
    (hroom : index + count ≤ 32) (hreads : reads algorithm) (hunit : algorithm.unit? = some unit)
    (hloaded : LoadedSince past unit e.history) (hfenced : Fenced Event.Commands e.history)
    (h : Orderly reads past e) :
    Always (readText index count) e fun _ e' => Orderly reads past e' := by
  induction count generalizing index e with
  | zero => exact always_pure.2 h
  | succ count ih =>
    simp only [EngineM.readText, always_bind, always_readRegister, always_pure]
    have hread : ∀ value, Event.read (textAddress index) value =
        .read (Register.text ⟨index, by omega⟩).address value := fun _ => rfl
    have hnot : ∀ value, ¬ Event.Commands (.read (textAddress index) value) := by
      simp [Event.Commands, Event.written?]
    refine ih (index + 1) (by omega) (hloaded.cons (hnot _)) (hfenced.cons (hnot _))
      ⟨?_, h.fenced.cons ?_⟩
    · rw [hread]
      exact h.disciplined.cons (.digest _ hreads hunit hloaded hfenced)
    · simp [Event.WritesText, Event.written?]

/-- **A digest is read in order**, and not read at all if it cannot be. -/
theorem Orderly.fetch (h : Orderly reads past e) (a : Operation) (out : List UInt32)
    (hreads : reads a.algorithm) :
    Always (fetch a out) e fun _ e' => Orderly reads past e' := by
  have hnote : ∀ {e : Engine ρ κ μ} {n}, Orderly reads past e →
      Orderly reads past { e with notices := n :: e.notices } := fun h => ⟨h.disciplined, h.fenced⟩
  have hwords : a.algorithm.digestWords ≤ 32 := by cases a.algorithm <;> decide
  simp only [EngineM.fetch, always_bind, always_note]
  have hnoted := hnote (n := .fetching a.algorithm) h
  cases a.mode with
  | uncommitted => simpa using hnote hnoted
  | software => simpa using hnote hnoted
  | unsettled => simpa using hnote hnoted
  | hardware first =>
    cases first with
    | true => simpa using hnoted
    | false =>
      simp only [Algorithm.bank?]
      cases hunit : a.algorithm.unit? with
      | none => simpa using hnoted
      | some unit =>
        refine Always.ite (fun _ => by simpa using hnoted) fun _ => ?_
        refine always_bind.2 ((hnoted.loadDigest unit).mono fun outcome e₁ h₁ => ?_)
        cases outcome with
        | error fault => simpa using h₁.1
        | ok =>
          obtain ⟨hloaded, hfenced⟩ := h₁.2 rfl
          simp only [digestFromText, bind_assoc, always_bind]
          refine (h₁.1.readText 0 _ (by omega) hreads hunit hloaded hfenced).mono fun words e₂ h₂ => ?_
          simpa using hnote h₂

/-- **Everybody keeps the order who leaves the registers to the engine.** -/
theorem Orderly.keptByProtocol [GatedClock κ] [EngineMutex μ] :
    KeptByProtocol reads (Orderly (ρ := ρ) (κ := κ) (μ := μ) reads past) where
  note h := ⟨h.disciplined, h.fenced⟩
  phase _ h := ⟨h.disciplined, h.fenced⟩
  begun h := h.cons rfl rfl
  ended h := h.cons rfl rfl
  reentered h := h.cons rfl rfl
  created h := creationKeeps_of_forall (fun h => ⟨h.disciplined, h.fenced⟩) _ h
  enable h := h.cons rfl rfl
  disable h := h.cons rfl rfl
  query h := h.cons rfl rfl
  tried h := h.cons rfl rfl
  unlocked h := h.cons rfl rfl
  fence h := h.cons rfl rfl
  awaitIdle h := h.awaitIdle.mono fun _ _ he => he.1
  submit a words h := h.submit a words
  fetch a out hreads h := h.fetch a out hreads

end EngineM

end HashAccelerator
