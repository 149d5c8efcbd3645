import HashAccelerator.Platform.Clock
import HashAccelerator.Platform.Mutex
import HashAccelerator.Platform.Peripheral
import HashAccelerator.Proofs.Engine.Accesses
import HashAccelerator.Proofs.Engine.Preparation
import HashAccelerator.Proofs.Hash.Padding
import HashAccelerator.Proofs.Stream.Faults
/-!
# A message on the wire

What a stream on the engine writes to registers over its whole life is the padded message, block by
block, and nothing else: each block goes into the text registers from the first on and is followed by
one command, the first block by a start and every other by one to go on; and once the last block is in,
the digest is loaded (`Sender.writes_eq`). Every call of the stream may be made over another state of the
engine, as others use it in between, so a stream's writes are those of its own calls (`Sender`).
-/

namespace HashAccelerator

open EngineM

/-! ## Handovers -/

/-- The writes that hand over a block: its words to the text registers from the first on, and a
command. -/
def handover (command : UInt32) (words : List UInt32) : List (UInt32 × UInt32) :=
  textWrites 0 words ++ [(command, 1)]

/-- The writes that hand over a message's blocks: the first with a start, all others with a command to
go on. -/
def handovers (bank : RegisterBank) : List (List UInt32) → List (UInt32 × UInt32)
  | [] => []
  | block :: rest => handover bank.start block ++ rest.flatMap (handover bank.resume)

/-- An attempt to take the mutex, and it is granted. -/
def Event.isGrant : Event → Bool
  | .lockTried _ .granted => true
  | _ => false

/-- The mutex was granted by one of the calls. -/
def Granted (trace : List Event) : Prop := ∃ event ∈ trace, event.isGrant = true

section Traces

variable {newer older : List Event} {event : Event}

theorem granted_append : Granted (newer ++ older) ↔ Granted newer ∨ Granted older := by
  simp only [Granted, List.mem_append, or_and_right, exists_or]

theorem not_granted_of_forall (h : ∀ event ∈ newer, event.isGrant = false) : ¬ Granted newer := by
  rintro ⟨event, hmem, hgrant⟩
  simp [h event hmem] at hgrant

/-- What was granted since a past is what was granted by the calls after it. -/
theorem grantedSince_append_self (past : List Event) :
    GrantedSince past (newer ++ past) ↔ Granted newer := by
  simp only [GrantedSince, since_append_self]
  constructor
  · rintro ⟨timeout, hmem⟩
    exact ⟨_, hmem, rfl⟩
  · rintro ⟨event, hmem, hgrant⟩
    cases event with
    | lockTried timeout answer =>
      cases answer with
      | granted => exact ⟨timeout, hmem⟩
      | wouldBlock => cases hgrant
      | failed error => cases hgrant
    | _ => cases hgrant

/-- One more block. -/
theorem handovers_concat (bank : RegisterBank) (blocks : List (List UInt32)) (block : List UInt32) :
    handovers bank (blocks ++ [block]) = handovers bank blocks ++
      handover (if blocks = [] then bank.start else bank.resume) block := by
  cases blocks with
  | nil => simp [handovers]
  | cons first rest => simp [handovers]

end Traces

variable {ρ κ μ : Type} {e : Engine ρ κ μ} {a a' : Operation} {past trace : List Event}
variable {sent : List (UInt32 × UInt32)} {blocks : List (List UInt8)}

/-! ## What a call sends -/

/-- Since the past this was written to registers. -/
def Sent (past : List Event) (sent : List (UInt32 × UInt32)) (e : Engine ρ κ μ) : Prop :=
  ∃ newer, e.history = newer ++ past ∧ writes newer = sent

theorem sent_nil (e : Engine ρ κ μ) : Sent e.history [] e := ⟨[], rfl, rfl⟩

theorem Sent.cons {e' : Engine ρ κ μ} {event : Event} (h : Sent past sent e)
    (hhistory : e'.history = event :: e.history) : Sent past (sent ++ event.write?.toList) e' := by
  obtain ⟨newer, holder, rfl⟩ := h
  refine ⟨event :: newer, by rw [hhistory, holder]; rfl, ?_⟩
  rw [← List.singleton_append, writes_append]
  cases hwrite : event.write? <;> simp [writes, hwrite]

theorem Sent.quiet {e' : Engine ρ κ μ} {event : Event} (h : Sent past sent e)
    (hhistory : e'.history = event :: e.history) (hwrite : event.write? = none) :
    Sent past sent e' := by
  have hcons := h.cons hhistory
  rwa [hwrite, Option.toList_none, List.append_nil] at hcons

section Calls

variable [RegisterBlock ρ]

theorem Sent.keptByReads : KeptByReads (Sent (ρ := ρ) (κ := κ) (μ := μ) past sent) where
  note h := h
  read h := h.quiet rfl rfl

theorem Sent.writeText (index : Nat) (words : List UInt32) (h : Sent past sent e) :
    Always (writeText index words) e fun _ e' => Sent past (sent ++ textWrites index words) e' := by
  induction words generalizing index sent e with
  | nil => simpa [EngineM.writeText, textWrites] using h
  | cons word rest ih =>
    simp only [EngineM.writeText, always_bind, always_writeRegister]
    refine (ih (index + 1) (h.cons rfl)).mono fun _ e' he => ?_
    rw [List.append_assoc] at he
    exact he

/-- A block that is taken is sent, with its command behind it. -/
theorem Sent.submit {first : Bool} {words : List UInt32} (hmode : a.mode = .hardware first)
    (hlength : words.length = a.algorithm.blockWords) (h : Sent past sent e) :
    Always (submit a words) e fun r e' => r.1 = .ok () → ∃ bank, a.algorithm.bank? = some bank ∧
      r.2 = { a with mode := .hardware false } ∧
      Sent past (sent ++ handover (if first then bank.start else bank.resume) words) e' := by
  have hroom : words.length ≤ textCapacity := by
    rw [hlength]
    cases a.algorithm <;> decide
  simp only [EngineM.submit, fitBlock, hmode, always_bind, always_note, if_neg (Nat.not_lt.2 hroom),
    if_neg (not_not_intro hlength), always_pure]
  refine (Sent.keptByReads.awaitIdle (by exact h)).mono fun outcome e' he => ?_
  cases outcome with
  | error fault => simp
  | ok =>
    refine always_bind.2 ((he.writeText 0 words).mono fun _ e' he => ?_)
    simp only [command, always_bind, always_fence]
    cases hbank : a.algorithm.bank? with
    | none => simp
    | some bank =>
      simp only [always_bind, always_writeRegister, always_fence, always_note, always_pure]
      intro _
      have hfenced : Sent past (sent ++ textWrites 0 words) { e' with
          registers := RegisterBlock.barrier e'.registers
          history := .barrier :: e'.history } := he.quiet rfl rfl
      have hcommanded : Sent past (sent ++ textWrites 0 words ++
            (Event.write (if first then bank.start else bank.resume) 1).write?.toList) { e' with
          history := .write (if first then bank.start else bank.resume) 1 :: .barrier :: e'.history } :=
        hfenced.cons rfl
      rw [List.append_assoc] at hcommanded
      exact ⟨bank, rfl, trivial, hcommanded.quiet rfl rfl⟩

/-- A digest that is read has been loaded. -/
theorem Sent.fetch (out : List UInt32) (hmode : a.mode = .hardware false) (h : Sent past sent e) :
    Always (fetch a out) e fun r e' => r.1 = .ok () → ∃ bank, a.algorithm.bank? = some bank ∧
      Sent past (sent ++ [(bank.load, 1)]) e' := by
  simp only [EngineM.fetch, hmode, always_bind, always_note]
  cases hbank : a.algorithm.bank? with
  | none => simp
  | some bank =>
    refine Always.ite (fun _ => by simp) fun _ => ?_
    have hloaded : Always (loadDigest bank) { e with
        notices := .fetching a.algorithm :: e.notices } fun outcome e' =>
          outcome = .ok () → Sent past (sent ++ [(bank.load, 1)]) e' := by
      simp only [loadDigest, always_bind]
      refine (Sent.keptByReads.awaitIdle (by exact h)).mono fun outcome e' he => ?_
      cases outcome with
      | error fault => simp
      | ok =>
        simp only [always_bind, always_writeRegister, always_fence]
        have hcommanded : Sent past (sent ++ (Event.write bank.load 1).write?.toList) { e' with
            history := .write bank.load 1 :: e'.history } := he.cons rfl
        have hfenced : Sent past (sent ++ [(bank.load, 1)]) { e' with
            registers := RegisterBlock.barrier (RegisterBlock.write bank.load 1 e'.registers)
            history := .barrier :: .write bank.load 1 :: e'.history } := hcommanded.quiet rfl rfl
        refine (Sent.keptByReads.awaitClear bank.busy hfenced).mono fun outcome e' he => ?_
        cases outcome with
        | error fault => simp
        | ok =>
          refine always_bind.2 ((Sent.keptByReads.awaitIdle he).mono fun outcome e' he => ?_)
          cases outcome with
          | error fault => simp
          | ok =>
            simp only [always_bind, always_fence, always_pure]
            exact fun _ => he.quiet rfl rfl
    refine always_bind.2 (hloaded.mono fun outcome e' he => ?_)
    cases outcome with
    | error fault => simp
    | ok =>
      simp only [digestFromText, bind_assoc, always_bind, pure_bind, always_note, always_pure]
      refine (Sent.keptByReads.readText 0 _ (he rfl)).mono fun words e'' he'' _ => ?_
      exact ⟨bank, rfl, he''⟩

end Calls

/-! ## What a stream has sent -/

/-- What a stream's operation has sent by its own calls, after it has handed over some blocks: nothing
before it asks for the engine, and on the engine those blocks. A stream in software has not been granted
the mutex. -/
inductive Wired (a : Operation) (trace : List Event) : List (List UInt8) → Prop
  | waiting : a.mode = .uncommitted → writes trace = [] → ¬ Granted trace → Wired a trace []
  | begun : a.mode = .hardware true → writes trace = [] → Wired a trace []
  | running {bank words} : a.mode = .hardware false → a.algorithm.bank? = some bank → words ≠ [] →
      writes trace = handovers bank words →
      Wired a trace (words.map (·.flatMap BigEndian.bytes32))
  | software {taken} : a.mode = .software → ¬ Granted trace → Wired a trace taken

/-- The calls of a trace and those that came after a past are what an operation has sent blocks by. -/
def OnWire (past trace : List Event) (a : Operation) (blocks : List (List UInt8))
    (e : Engine ρ κ μ) : Prop :=
  ∃ newer, e.history = newer ++ past ∧ Wired a (newer ++ trace) blocks

/-- Asking for the engine sends nothing, and who is sent to software was not granted the mutex. -/
theorem Contested.sends_nothing {phase phase' : MutexPhase} {path : Path} {added : List Event}
    (h : Contested a phase (path, a') added phase') :
    writes added = [] ∧ (a'.mode = .hardware true ∨ a'.mode = .software ∧ ¬ Granted added) := by
  have hprepared : ∀ {ready newer phase'}, Prepared phase ready newer phase' →
      writes newer = [] ∧ ¬ Granted newer := by
    intro ready newer phase' h
    have hparts : ∀ event ∈ newer, event.isOfCreation = true := by
      cases h with
      | ready => simp
      | busy => simp
      | failed => exact fun event => isOfCreation_of_mem
      | created => exact fun event => isOfCreation_of_mem
    refine ⟨writes_of_forall fun event hevent => ?_, not_granted_of_forall fun event hevent => ?_⟩
    · have hpart := hparts event hevent
      cases event <;> first | rfl | cases hpart
    · have hpart := hparts event hevent
      cases event <;> first | rfl | cases hpart
  cases h with
  | unready h => exact ⟨(hprepared h).1, Or.inr ⟨rfl, (hprepared h).2⟩⟩
  | @refused newer _ timeout answer h hanswer =>
    obtain ⟨hwrites, hgranted⟩ := hprepared h
    refine ⟨?_, Or.inr ⟨rfl, ?_⟩⟩
    · rw [← List.singleton_append, writes_append, hwrites]
      rfl
    · rintro ⟨event, hmem, hgrant⟩
      rcases List.mem_cons.1 hmem with rfl | hmem
      · cases answer <;> first | exact absurd rfl hanswer | cases hgrant
      · exact hgranted ⟨event, hmem, hgrant⟩
  | @granted newer _ timeout h =>
    refine ⟨?_, Or.inl rfl⟩
    rw [show Event.clockEnabled :: .lockTried timeout .granted :: newer =
      [.clockEnabled, .lockTried timeout .granted] ++ newer from rfl, writes_append, (hprepared h).1]
    rfl

section Wired

variable {added older : List Event}

/-- **Who asks for the engine sends nothing by it.** -/
theorem Wired.contested {phase phase' : MutexPhase} {path : Path} (hmode : a.mode = .uncommitted)
    (hcontested : Contested a phase (path, a') added phase') (h : Wired a older blocks) :
    Wired a' (added ++ older) blocks := by
  obtain ⟨hadded, hpath⟩ := hcontested.sends_nothing
  cases h with
  | begun hmode' _ => simp [hmode] at hmode'
  | running hmode' _ _ _ => simp [hmode] at hmode'
  | software hmode' _ => simp [hmode] at hmode'
  | waiting _ hwrites hgranted =>
    rcases hpath with hmode' | ⟨hmode', hnot⟩
    · exact .begun hmode' (by rw [writes_append, hwrites, hadded]; rfl)
    · exact .software hmode' fun h => (granted_append.1 h).elim hnot hgranted

/-- **Who hands over a block sends it behind those before**, the first with a start. -/
theorem Wired.handedOver {first : Bool} {bank : RegisterBank} {block : List UInt32}
    (hmode : a.mode = .hardware first) (hbank : a.algorithm.bank? = some bank)
    (hadded : writes added = handover (if first then bank.start else bank.resume) block)
    (h : Wired a older blocks) : Wired { a with mode := .hardware false } (added ++ older)
      (blocks ++ [block.flatMap BigEndian.bytes32]) := by
  cases h with
  | waiting hmode' _ _ => simp [hmode] at hmode'
  | software hmode' _ => simp [hmode] at hmode'
  | begun hmode' hwrites =>
    obtain rfl : first = true := Mode.hardware.inj (hmode.symm.trans hmode')
    have hwired : Wired { a with mode := .hardware false } (added ++ older)
        ([block].map (·.flatMap BigEndian.bytes32)) := by
      refine .running rfl hbank (by simp) ?_
      rw [writes_append, hwrites, hadded]
      simp [handovers]
    exact hwired
  | @running bank' before hmode' hbank' hne hwrites =>
    obtain rfl : first = false := Mode.hardware.inj (hmode.symm.trans hmode')
    obtain rfl : bank' = bank := Option.some.inj (hbank'.symm.trans hbank)
    have hwired : Wired { a with mode := .hardware false } (added ++ older)
        ((before ++ [block]).map (·.flatMap BigEndian.bytes32)) := by
      refine .running rfl hbank (by simp) ?_
      rw [writes_append, hwrites, hadded, handovers_concat, if_neg hne]
      rfl
    rwa [List.map_append] at hwired

/-- Calls that carry on the account of every record carry on that of this one. -/
theorem OnWire.grown {e' : Engine ρ κ μ} {blocks' : List (List UInt8)}
    (h : OnWire past trace a blocks e) (hhistory : e'.history = added ++ e.history)
    (hwired : ∀ older, Wired a older blocks → Wired a' (added ++ older) blocks') :
    OnWire past trace a' blocks' e' := by
  obtain ⟨newer, hnewer, h⟩ := h
  refine ⟨added ++ newer, by rw [hhistory, hnewer, List.append_assoc], ?_⟩
  rw [List.append_assoc]
  exact hwired _ h

end Wired

variable [RegisterBlock ρ] [GatedClock κ] [EngineMutex μ]

/-- **The account of what is sent is carried on.** -/
theorem intake_onWire : Intake
    (fun a chain blocks (e : Engine ρ κ μ) => Viable a chain blocks ∧ OnWire past trace a blocks e)
    fun _ _ _ => True where
  note h := h
  settled h := h.1.settled
  acquire {a chain blocks e} h hmode := by
    refine ((acquired_acquire a).and (always_acquire_contested hmode)).mono fun r e' he => ?_
    obtain ⟨hacquired, _, added, -, hhistory, hcontested⟩ := he
    obtain ⟨_, -, hcompeted⟩ := hacquired.of_uncommitted hmode
    exact ⟨h.1.competed hmode hcompeted, h.2.grown hhistory fun _ => .contested hmode hcontested⟩
  submit {a chain blocks e words} h hon hlength := by
    obtain ⟨first, hmode⟩ := Operation.exists_hardware hon
    refine ((submitted_submit a words rfl).and ((sent_nil e).submit hmode hlength)).mono
      fun r e' he => ?_
    obtain ⟨outcome, a'⟩ := r
    obtain ⟨hsubmitted, hsent⟩ := he
    cases outcome with
    | error fault => trivial
    | ok =>
      obtain ⟨bank, hbank, rfl, added, hhistory, hadded⟩ := hsent rfl
      exact ⟨h.1.submitted _ hsubmitted,
        h.2.grown hhistory fun _ => .handedOver hmode hbank hadded⟩
  compress {a chain blocks e block} h hmode hlength := by
    obtain ⟨next, hnext, hviable⟩ := h.1.compressed hmode hlength
    obtain ⟨newer, hhistory, hwired⟩ := h.2
    refine ⟨next, hnext, hviable, newer, hhistory, ?_⟩
    cases hwired with
    | waiting hmode' _ _ => simp [hmode] at hmode'
    | begun hmode' _ => simp [hmode] at hmode'
    | running hmode' _ _ _ => simp [hmode] at hmode'
    | software _ hgranted => exact .software hmode hgranted

/-! ## Whole lives -/

/-- A stream of an algorithm that has taken in a message, part by part and without a fault, with a record
of its own calls, newest first. Each part is taken in over whatever the engine is then. -/
inductive Sender (ρ κ μ : Type) [RegisterBlock ρ] [GatedClock κ] [EngineMutex μ]
    (algorithm : Algorithm) : HashStream → List UInt8 → List Event → Prop
  | start : Sender ρ κ μ algorithm (.start algorithm) [] []
  | absorb {s s' : HashStream} {message bytes : List UInt8} {trace newer : List Event}
      {e e' : Engine ρ κ μ} :
      Sender ρ κ μ algorithm s message trace → (s.absorb bytes).run e = some ((.ok (), s'), e') →
      e'.history = newer ++ e.history →
      Sender ρ κ μ algorithm s' (message ++ bytes) (newer ++ trace)

section Lives

variable {algorithm : Algorithm} {s : HashStream} {message : List UInt8}

/-- What a sender has sent so far, over any state of the engine. -/
theorem Sender.fed (h : Sender ρ κ μ algorithm s message trace) (e : Engine ρ κ μ) :
    s.algorithm = algorithm ∧ s.Fed (fun a chain blocks e' =>
      Viable a chain blocks ∧ OnWire e.history trace a blocks e') message e := by
  induction h generalizing e with
  | start =>
    unfold HashStream.start
    split
    · next hunit =>
      exact ⟨rfl, rfl, rfl, [], HashStream.took_nil rfl, Viable.fresh hunit, [], rfl,
        .waiting rfl rfl fun h => by simp [Granted] at h⟩
    · exact ⟨rfl, rfl, rfl, [], HashStream.took_nil rfl, Viable.softwareOnly, [], rfl,
        .software rfl fun h => by simp [Granted] at h⟩
  | @absorb s s' message bytes trace newer e₁ e₁' _ hrun hhistory ih =>
    obtain ⟨halgorithm, hfed⟩ := ih e₁
    obtain ⟨hsame, hfed'⟩ := intake_onWire.absorb bytes hfed _ _ hrun
    obtain ⟨blocks, htook, hviable, newer', hhistory', hwired⟩ := hfed'.taken
    obtain rfl : newer = newer' := List.append_cancel_right (hhistory.symm.trans hhistory')
    exact ⟨hsame.trans halgorithm, hfed'.sound, hfed'.length_eq, blocks, htook, hviable, [], rfl,
      hwired⟩

/-- What has been written once a digest is collected: all blocks of the message, and the load. -/
def Delivered (past trace : List Event) (algorithm : Algorithm) (message : List UInt8)
    (e : Engine ρ κ μ) : Prop :=
  ∃ newer, e.history = newer ++ past ∧ (Granted (newer ++ trace) → ∃ bank words,
    algorithm.bank? = some bank ∧ algorithm.blocks message =
      words.map (·.flatMap BigEndian.bytes32) ∧
    writes (newer ++ trace) = handovers bank words ++ [(bank.load, 1)])

omit [RegisterBlock ρ] [GatedClock κ] [EngineMutex μ] in
/-- What is no write and no grant does not count. -/
theorem Delivered.append {e' : Engine ρ κ μ} {added : List Event}
    (h : Delivered past trace algorithm message e) (hhistory : e'.history = added ++ e.history)
    (hwrites : writes added = []) (hgranted : ¬ Granted added) :
    Delivered past trace algorithm message e' := by
  obtain ⟨newer, holder, hdelivered⟩ := h
  refine ⟨added ++ newer, by rw [hhistory, holder, List.append_assoc], fun hwon => ?_⟩
  rw [List.append_assoc, granted_append, or_iff_right hgranted] at hwon
  obtain ⟨bank, words, hbank, hblocks, hsent⟩ := hdelivered hwon
  exact ⟨bank, words, hbank, hblocks, by rw [List.append_assoc, writes_append, hsent, hwrites,
    List.append_nil]⟩

omit [GatedClock κ] [EngineMutex μ] in
/-- **Collecting the digest** sends the load, and nothing else. -/
theorem OnWire.collect (hne : blocks ≠ []) (hblocks : blocks = s.algorithm.blocks message)
    (h : OnWire past trace s.operation blocks e) :
    Always s.collect e fun outcome e' => ∀ digest, outcome = .ok digest →
      Delivered past trace s.algorithm message e' := by
  obtain ⟨newer, hhistory, hwired⟩ := h
  unfold HashStream.collect
  cases hwired with
  | waiting _ _ _ => exact absurd rfl hne
  | begun _ _ => exact absurd rfl hne
  | software hmode hgranted =>
    simp only [hmode, always_pure]
    exact fun _ _ => ⟨newer, hhistory, fun hwon => absurd hwon hgranted⟩
  | @running bank words hmode hbank _ hwrites =>
    simp only [hmode, always_bind, always_pure]
    refine ((sent_nil e).fetch _ hmode).mono fun r e' he digest hdigest => ?_
    obtain ⟨outcome, out⟩ := r
    cases outcome with
    | error fault => cases hdigest
    | ok =>
      obtain ⟨bank', hbank', added, hhistory', hadded⟩ := he rfl
      obtain rfl : bank' = bank := Option.some.inj (hbank'.symm.trans hbank)
      refine ⟨added ++ newer, by rw [hhistory', hhistory, List.append_assoc], fun _ =>
        ⟨bank', words, hbank, hblocks.symm, ?_⟩⟩
      rw [List.append_assoc, writes_append, hwrites, hadded]
      rfl

theorem Sender.delivered (h : Sender ρ κ μ algorithm s message trace) (e : Engine ρ κ μ) :
    Always s.finish e fun outcome e' => ∀ digest, outcome = .ok digest →
      Delivered e.history trace algorithm message e' := by
  obtain ⟨rfl, hfed⟩ := h.fed e
  refine intake_onWire.finish hfed (fun {outcome a e'} hdelivered => ?_)
    (fun t e' halgorithm hpath => ?_) fun _ _ _ _ _ h => by cases h
  · refine (always_release_history a).mono fun _ e'' hreleased digest hdigest => ?_
    obtain ⟨added, hsub, hhistory⟩ := hreleased
    have hparts : ∀ event ∈ added, event = .unlocked ∨ event = .clockDisabled := fun event hevent => by
      simpa using hsub.subset hevent
    refine (hdelivered digest hdigest).append hhistory (writes_of_forall fun event hevent => ?_)
      (not_granted_of_forall fun event hevent => ?_)
    · rcases hparts event hevent with rfl | rfl <;> rfl
    · rcases hparts event hevent with rfl | rfl <;> rfl
  · have hblocks : s.algorithm.blocks message = t.algorithm.blocks message := by rw [halgorithm]
    have hcollected := hpath.2.collect (s.algorithm.blocks_ne_nil message) hblocks
    rwa [halgorithm] at hcollected

/-- **A message on the wire.** A stream of an algorithm takes in a message, cut up at will, and the end
of the message gives a digest; what the registers, the clock and the mutex answer on the way, and what
others do to the engine between the calls, is of no matter. If the stream was granted the mutex, its
writes to registers over its life are these and no others: some blocks of as many words as a block has,
each to the text registers from the first on and followed by a start, for the first of them, or by a
command to go on, and a load at the end, all to the registers of the algorithm's own unit. The words of
the blocks are the message, the byte that ends it, the fewest zeros that fill a whole number of blocks,
and the length of the message in bits. -/
theorem Sender.writes_eq (h : Sender ρ κ μ algorithm s message trace) {e e' : Engine ρ κ μ}
    {digest : List UInt8} {newer : List Event} (hfinish : s.finish.run e = some (.ok digest, e'))
    (hhistory : e'.history = newer ++ e.history) (hwon : Granted (newer ++ trace))
    (hlength : 8 * message.length < 256 ^ algorithm.lengthBytes) :
    ∃ bank words zeros field, algorithm.bank? = some bank ∧
      writes (newer ++ trace) = handovers bank words ++ [(bank.load, 1)] ∧
      words.length = (message.length + algorithm.lengthBytes) / algorithm.blockSize + 1 ∧
      (∀ block ∈ words, block.length = algorithm.blockWords) ∧
      words.flatten.flatMap BigEndian.bytes32 = message ++ 0x80 :: List.replicate zeros 0 ++ field ∧
      field.length = algorithm.lengthBytes ∧ BigEndian.toNat field = 8 * message.length ∧
      ∀ other, algorithm.blockSize ∣ message.length + 1 + other + algorithm.lengthBytes →
        zeros ≤ other := by
  obtain ⟨newer', hhistory', hdelivered⟩ := h.delivered e _ _ hfinish digest rfl
  obtain rfl : newer = newer' := List.append_cancel_right (hhistory.symm.trans hhistory')
  obtain ⟨bank, words, hbank, hblocks, hwrites⟩ := hdelivered hwon
  obtain ⟨hcount, hsizes⟩ := algorithm.length_blocks message
  refine ⟨bank, words, algorithm.zeroCount message.length,
    BigEndian.ofNat algorithm.lengthBytes (8 * message.length), hbank, hwrites, ?_,
    fun block hblock => ?_, ?_, BigEndian.length_ofNat _ _, BigEndian.toNat_ofNat hlength,
    fun _ => Algorithm.zeroCount_le⟩
  · rw [← hcount, hblocks, List.length_map]
  · have hsize := hsizes (block.flatMap BigEndian.bytes32) (by
      rw [hblocks]
      exact List.mem_map_of_mem hblock)
    rw [BigEndian.length_flatMap_bytes32] at hsize
    rw [Algorithm.blockWords, ← hsize]
    omega
  · have hflat : (words.map (·.flatMap BigEndian.bytes32)).flatten = algorithm.pad message := by
      rw [← hblocks]
      exact flatten_pieces algorithm.blockSize_pos _
    have hbytes : words.flatten.flatMap BigEndian.bytes32 =
        (words.map (·.flatMap BigEndian.bytes32)).flatten := by
      simp only [List.flatMap_def, List.map_flatten, List.flatten_flatten, List.map_map]
      rfl
    exact hbytes.trans hflat

/-- Three bytes go out as one block, with a start before it is loaded: eighteen writes. -/
theorem Sender.exists_eighteen_writes :
    ∃ (s : HashStream) (trace newer : List Event) (e e' : Engine Peripheral CountedClock CountedMutex)
      (digest : List UInt8), Sender Peripheral CountedClock CountedMutex .sha256 s [1, 2, 3] trace ∧
      s.finish.run e = some (.ok digest, e') ∧ e'.history = newer ++ e.history ∧
      (writes (newer ++ trace)).length = 18 := by
  let engine : Engine Peripheral CountedClock CountedMutex :=
    { registers := {}, clock := {}, mutex := {} }
  have habsorb : (((HashStream.start .sha256).absorb [1, 2, 3]).run engine).any (fun r =>
      r.1.1.toBool && (r.1.2.finish.run r.2).any fun ended =>
        ended.1.toBool && (ended.2.history.any Event.isGrant)) = true := by
    decide +kernel
  obtain ⟨⟨⟨outcome, s⟩, e⟩, hrun, hends⟩ := (Option.any_eq_true _ _).1 habsorb
  obtain ⟨htaken, hends⟩ := (Bool.and_eq_true _ _).mp hends
  obtain ⟨⟨answer, e'⟩, hfinish, hended⟩ := (Option.any_eq_true _ _).1 hends
  obtain ⟨hok, hgranted⟩ := (Bool.and_eq_true _ _).mp hended
  cases outcome with
  | error fault => cases htaken
  | ok =>
    cases answer with
    | error fault => cases hok
    | ok digest =>
      have hsender : Sender Peripheral CountedClock CountedMutex .sha256 s [1, 2, 3] e.history := by
        have habsorbed := Sender.start.absorb hrun (List.append_nil e.history).symm
        rwa [List.append_nil] at habsorbed
      obtain ⟨newer, hhistory, -⟩ := hsender.delivered e _ _ hfinish digest rfl
      have hwon : Granted (newer ++ e.history) := by
        rw [← hhistory]
        exact List.any_eq_true.1 hgranted
      obtain ⟨bank, words, zeros, field, -, hwrites, hcount, hsizes, -⟩ :=
        hsender.writes_eq hfinish hhistory hwon (by decide)
      refine ⟨s, e.history, newer, e, e', digest, hsender, hfinish, hhistory, ?_⟩
      obtain ⟨block, rfl⟩ := List.length_eq_one_iff.1 hcount
      have hsize : block.length = 16 := hsizes block (List.mem_singleton.2 rfl)
      rw [hwrites]
      simp [handovers, handover, textWrites, hsize]

end Lives

end HashAccelerator
