import HashAccelerator.Proofs.Engine.Submission
import HashAccelerator.Proofs.Hash.Words
import HashAccelerator.Proofs.Session.Course
/-!
# A readout keeps to the digest

A readout lends the engine the caller's words, and comes back in one of six ways, each with accesses
of its own (`Retrieved`). Three waits may give up, before the load is commanded, while the unit works
on it, and after it; then the caller's words are as they were, as they are where the readout is refused
before it has reached a register. Where it succeeds, the front of the words holds what the text
registers said, in the order of the digest, and the words behind it are as they were
(`fetch_keeps_to_the_digest`).
-/

namespace HashAccelerator

open EngineM

variable {ρ κ μ : Type}

/-! ## Places -/

/-- The text register whose word comes to a place in the digest: the one of that number, or for wide
algorithms the other one of its pair. -/
def Algorithm.textOf (algorithm : Algorithm) (place : Nat) : Nat :=
  if algorithm.isWide then if place % 2 = 0 then place + 1 else place - 1 else place

/-- What the text registers said, in the order of the digest. -/
def Algorithm.inDigestOrder (algorithm : Algorithm) (words : List UInt32) : List UInt32 :=
  if algorithm.isWide then BigEndian.exchangeHalves words else words

theorem Algorithm.length_inDigestOrder (algorithm : Algorithm) (words : List UInt32) :
    (algorithm.inDigestOrder words).length = words.length := by
  unfold inDigestOrder
  split
  · exact BigEndian.length_exchangeHalves words
  · rfl

/-- **Each place of the digest has the word of its register.** -/
theorem Algorithm.getElem?_inDigestOrder {algorithm : Algorithm} {words : List UInt32}
    (h : words.length = algorithm.digestWords) (place : Nat) :
    (algorithm.inDigestOrder words)[place]? = words[algorithm.textOf place]? := by
  unfold inDigestOrder textOf
  by_cases hwide : algorithm.isWide = true
  · have heven : words.length % 2 = 0 := by
      rw [h]
      cases algorithm <;> first | rfl | cases hwide
    rw [if_pos hwide, if_pos hwide, BigEndian.getElem?_exchangeHalves heven]
  · rw [if_neg hwide, if_neg hwide]

/-! ## The ways of a readout -/

/-- Some words as reads of the text registers, from the given one on; newest first. -/
def wordReads (index : Nat) (words : List UInt32) : List Event :=
  ((words.zipIdx index).map fun entry => .read (textAddress entry.2) entry.1).reverse

/-- One word after the other. -/
theorem wordReads_cons (index : Nat) (word : UInt32) (rest : List UInt32) :
    wordReads index (word :: rest) =
      wordReads (index + 1) rest ++ [.read (textAddress index) word] := by
  simp [wordReads]

theorem not_mem_wordReads {index : Nat} {words : List UInt32} {address value : UInt32} :
    .write address value ∉ wordReads index words := by
  simp [wordReads]

/-- The command to load with its barrier, after some polls; newest first. -/
def loadCommand (unit : UnitIndex) (polls : List Event) : List Event :=
  .barrier :: .write (Register.command unit .load).address 1 :: polls

/-- How a load may end, and the accesses that it has made, newest first: it may be given up before its
command, while its own unit is busy, and in the wait for all units that follows. -/
inductive Loading (unit : UnitIndex) : Except Fault Unit → List Event → Prop
  | occupied {polls} : PollsOf busyAddresses polls → Loading unit (.error .stillBusy) polls
  | working {polls own} : PollsOf busyAddresses polls → sweep <+: polls →
      PollsOf [(Register.busy unit).address] own →
      Loading unit (.error .stillBusy) (own ++ loadCommand unit polls)
  | reoccupied {polls own again} : PollsOf busyAddresses polls → sweep <+: polls →
      PollsOf [(Register.busy unit).address] own →
      clearPolls [(Register.busy unit).address] <+: own → PollsOf busyAddresses again →
      Loading unit (.error .stillBusy) (again ++ (own ++ loadCommand unit polls))
  | loaded {polls own again} : PollsOf busyAddresses polls → sweep <+: polls →
      PollsOf [(Register.busy unit).address] own →
      clearPolls [(Register.busy unit).address] <+: own → PollsOf busyAddresses again →
      sweep <+: again →
      Loading unit (.ok ()) (.barrier :: (again ++ (own ++ loadCommand unit polls)))

/-- A poll writes nothing. -/
theorem EngineM.PollsOf.not_write {addresses : List UInt32} {polls : List Event}
    {address value : UInt32} (h : PollsOf addresses polls) : .write address value ∉ polls := by
  intro hmem
  obtain ⟨_, _, _, hread⟩ := h _ hmem
  cases hread

/-- **A load writes its own command and nothing else.** -/
theorem Loading.writes {unit : UnitIndex} {outcome : Except Fault Unit} {trace : List Event}
    {address value : UInt32} (h : Loading unit outcome trace) (hwrite : .write address value ∈ trace) :
    address = (Register.command unit .load).address := by
  have hcommand : ∀ {polls}, PollsOf busyAddresses polls →
      .write address value ∈ loadCommand unit polls →
        address = (Register.command unit .load).address := by
    intro polls hpolls hmem
    simp only [loadCommand, List.mem_cons, reduceCtorEq, hpolls.not_write, or_false, false_or,
      Event.write.injEq] at hmem
    exact hmem.1
  cases h with
  | occupied hpolls => exact absurd hwrite hpolls.not_write
  | working hpolls _ hown =>
    exact hcommand hpolls ((List.mem_append.1 hwrite).resolve_left hown.not_write)
  | reoccupied hpolls _ hown _ hagain =>
    have hmem := (List.mem_append.1 hwrite).resolve_left hagain.not_write
    exact hcommand hpolls ((List.mem_append.1 hmem).resolve_left hown.not_write)
  | loaded hpolls _ hown _ hagain _ =>
    have hlater := (List.mem_cons.1 hwrite).resolve_left (by simp)
    have hmem := (List.mem_append.1 hlater).resolve_left hagain.not_write
    exact hcommand hpolls ((List.mem_append.1 hmem).resolve_left hown.not_write)

/-- What a readout may answer, the caller's words then, and the accesses that it has made, newest
first. -/
inductive Retrieved (a : Operation) (out : List UInt32) :
    Except Fault Unit → List UInt32 → List Event → Prop
  | refused : a.isOnEngine = false → Retrieved a out (.error .notOwner) out []
  | nothing : a.mode = .hardware true → Retrieved a out (.ok ()) out []
  | unitless : a.mode = .hardware false → a.algorithm.unit? = none →
      Retrieved a out (.error (.noUnit a.algorithm)) out []
  | short : a.mode = .hardware false → a.algorithm.unit? ≠ none →
      out.length < a.algorithm.digestWords → Retrieved a out (.error .wrongSize) out []
  | stuck {unit trace} : a.mode = .hardware false → a.algorithm.unit? = some unit →
      a.algorithm.digestWords ≤ out.length → Loading unit (.error .stillBusy) trace →
      Retrieved a out (.error .stillBusy) out trace
  | read {unit trace words} : a.mode = .hardware false → a.algorithm.unit? = some unit →
      a.algorithm.digestWords ≤ out.length → Loading unit (.ok ()) trace →
      words.length = a.algorithm.digestWords →
      Retrieved a out (.ok ())
        (a.algorithm.inDigestOrder words ++ out.drop a.algorithm.digestWords)
        (wordReads 0 words ++ trace)

/-- What a readout may touch of the caller's words, and of the registers. -/
structure KeepsToDigest (a : Operation) (out : List UInt32) (outcome : Except Fault Unit)
    (out' : List UInt32) (trace : List Event) : Prop where
  /-- No word is touched on a fault. -/
  untouched : outcome ≠ .ok () → out' = out
  /-- Before the first block there is nothing to read, and no register is reached. -/
  nothing : a.mode = .hardware true → outcome = .ok () ∧ out' = out ∧ trace = []
  /-- After it each place of the digest has the word that its text register said. -/
  digest : outcome = .ok () → a.mode ≠ .hardware true →
    ∃ words, words.length = a.algorithm.digestWords ∧ wordReads 0 words <+: trace ∧
      ∀ place < a.algorithm.digestWords, out'[place]? = words[a.algorithm.textOf place]?
  /-- The words behind the digest are left alone. -/
  behind : ∀ place, a.algorithm.digestWords ≤ place → out'[place]? = out[place]?
  length_eq : out'.length = out.length
  /-- Every fault but that of a wait is found before a register is reached. -/
  unreached : ∀ fault, outcome = .error fault → fault ≠ .stillBusy → trace = []
  /-- No register is written but the own unit's command to load. -/
  writes : ∀ address value, .write address value ∈ trace →
    ∃ unit, a.algorithm.unit? = some unit ∧ address = (Register.command unit .load).address

variable {a : Operation} {out out' : List UInt32} {outcome : Except Fault Unit} {trace : List Event}

/-- Where nothing was reached, a fault and the lack of a block are all there is to tell. -/
theorem KeepsToDigest.of_unreached (hfirst : outcome = .ok () ↔ a.mode = .hardware true) :
    KeepsToDigest a out outcome out [] where
  untouched _ := rfl
  nothing h := ⟨hfirst.2 h, rfl, rfl⟩
  digest h hnot := absurd (hfirst.1 h) hnot
  behind _ _ := rfl
  length_eq := rfl
  unreached _ _ _ := rfl
  writes _ _ h := absurd h List.not_mem_nil

/-- **Each way of a readout keeps to the digest.** -/
theorem Retrieved.keeps (h : Retrieved a out outcome out' trace) :
    KeepsToDigest a out outcome out' trace := by
  cases h with
  | refused hoff =>
    refine .of_unreached (iff_of_false (by simp) fun h => ?_)
    simp [Operation.isOnEngine, h] at hoff
  | nothing hmode => exact .of_unreached (iff_of_true rfl hmode)
  | unitless hmode _ => exact .of_unreached (iff_of_false (by simp) (by simp [hmode]))
  | short hmode _ _ => exact .of_unreached (iff_of_false (by simp) (by simp [hmode]))
  | @stuck unit _ hmode hunit _ hloading =>
    exact {
      untouched := fun _ => rfl
      nothing := fun h => by simp [h] at hmode
      digest := fun h => by cases h
      behind := fun _ _ => rfl
      length_eq := rfl
      unreached := by
        rintro fault h hne
        cases h
        exact absurd rfl hne
      writes := fun _ _ hwrite => ⟨unit, hunit, hloading.writes hwrite⟩ }
  | @read unit trace words hmode hunit hroom hloading hlength =>
    have hfront : (a.algorithm.inDigestOrder words).length = a.algorithm.digestWords := by
      rw [Algorithm.length_inDigestOrder, hlength]
    exact {
      untouched := fun h => absurd rfl h
      nothing := fun h => by simp [h] at hmode
      digest := by
        refine fun _ _ => ⟨words, hlength, List.prefix_append _ _, fun place hplace => ?_⟩
        rw [List.getElem?_append_left (hfront.symm ▸ hplace),
          Algorithm.getElem?_inDigestOrder hlength]
      behind := by
        intro place hplace
        rw [List.getElem?_append_right (hfront.symm ▸ hplace), List.getElem?_drop, hfront,
          Nat.add_sub_cancel' hplace]
      length_eq := by
        rw [List.length_append, hfront, List.length_drop, Nat.add_sub_cancel' hroom]
      unreached := fun _ h => by cases h
      writes := fun _ _ hwrite => ⟨unit, hunit, hloading.writes
        ((List.mem_append.1 hwrite).resolve_left not_mem_wordReads)⟩ }

namespace EngineM

variable [RegisterBlock ρ] {e e' : Engine ρ κ μ}

/-! ## Loads -/

/-- **Whatever a load answers, it has made the accesses of that answer.** -/
theorem loading_loadDigest (unit : UnitIndex) :
    Always (loadDigest (.ofUnit (UnitIndex.toWord unit))) e fun outcome e' =>
      ∃ trace, e.Accessed trace e' ∧ Loading unit outcome trace := by
  simp only [loadDigest, always_bind]
  refine waited_awaitIdle.mono fun outcome e₁ he₁ => ?_
  obtain ⟨polls, hpolled, hpolls, hswept, hends⟩ := he₁
  cases outcome with
  | error fault =>
    obtain ⟨rfl, -⟩ := hends
    exact always_pure.2 ⟨polls, hpolled, .occupied hpolls⟩
  | ok =>
    simp only [always_bind, always_writeRegister, always_fence]
    have hcommanded := (hpolled.write (RegisterBank.ofUnit (UnitIndex.toWord unit)).load 1).barrier
    refine (waited_await _).mono fun outcome e₂ he₂ => ?_
    obtain ⟨own, howned, hown, hclear, hends⟩ := he₂
    have hworked := hcommanded.trans howned
    cases outcome with
    | error fault =>
      obtain ⟨rfl, -⟩ := hends
      exact always_pure.2 ⟨_, hworked, .working hpolls (hswept rfl) hown⟩
    | ok =>
      refine always_bind.2 (waited_awaitIdle.mono fun outcome e₃ he₃ => ?_)
      obtain ⟨again, hagained, hagain, hagainSwept, hends⟩ := he₃
      have hwaited := hworked.trans hagained
      cases outcome with
      | error fault =>
        obtain ⟨rfl, -⟩ := hends
        exact always_pure.2 ⟨_, hwaited, .reoccupied hpolls (hswept rfl) hown (hclear rfl) hagain⟩
      | ok =>
        simp only [always_bind, always_fence, always_pure]
        exact ⟨_, hwaited.barrier,
          .loaded hpolls (hswept rfl) hown (hclear rfl) hagain (hagainSwept rfl)⟩

/-- The words that are read are what the registers said. -/
theorem accessed_readText (index count : Nat) :
    Returns (readText index count) e fun words e' =>
      words.length = count ∧ e.Accessed (wordReads index words) e' := by
  induction count generalizing index e with
  | zero => exact returns_pure ⟨rfl, .refl⟩
  | succ count ih =>
    unfold readText
    refine Returns.next (run_readRegister _ _) ((ih (index + 1)).bind fun words e' he => ?_)
    refine returns_pure ⟨congrArg (· + 1) he.1, ?_⟩
    rw [wordReads_cons]
    exact (Engine.Accessed.refl.read _).trans he.2

/-! ## Readouts -/

/-- An operation is refused, or has nothing to read, or no unit, or no room, or has its digest
loaded. -/
theorem fetch_cases (a : Operation) (out : List UInt32) :
    a.isOnEngine = false ∨ a.mode = .hardware true ∨
      (a.mode = .hardware false ∧ a.algorithm.unit? = none) ∨
      ∃ unit, a.mode = .hardware false ∧ a.algorithm.unit? = some unit ∧
        (out.length < a.algorithm.digestWords ∨ a.algorithm.digestWords ≤ out.length) := by
  cases hon : a.isOnEngine with
  | false => exact Or.inl rfl
  | true =>
    obtain ⟨first, hmode⟩ := Operation.exists_hardware hon
    cases first with
    | true => exact Or.inr (Or.inl hmode)
    | false =>
      cases hunit : a.algorithm.unit? with
      | none => exact Or.inr (Or.inr (Or.inl ⟨hmode, rfl⟩))
      | some unit => exact Or.inr (Or.inr (Or.inr ⟨unit, hmode, rfl, Nat.lt_or_ge _ _⟩))

theorem refused_fetch (out : List UInt32) (h : a.isOnEngine = false) :
    Returns (fetch a out) e fun r e' => r = (.error .notOwner, out) ∧ e.Accessed [] e' := by
  unfold fetch
  refine Returns.next (run_note _ _) ?_
  cases hmode : a.mode with
  | hardware first => simp [Operation.isOnEngine, hmode] at h
  | _ => exact Returns.next (run_note _ _) (returns_pure ⟨rfl, (Engine.Accessed.refl.note _).note _⟩)

/-- Before the first block nothing is read, whatever room there is. -/
theorem idle_fetch (out : List UInt32) (h : a.mode = .hardware true) :
    Returns (fetch a out) e fun r e' => r = (.ok (), out) ∧ e.Accessed [] e' := by
  unfold fetch
  refine Returns.next (run_note _ _) ?_
  rw [h]
  exact returns_pure ⟨rfl, Engine.Accessed.refl.note _⟩

theorem unitless_fetch (out : List UInt32) (hmode : a.mode = .hardware false)
    (hunit : a.algorithm.unit? = none) :
    Returns (fetch a out) e fun r e' =>
      r = (.error (.noUnit a.algorithm), out) ∧ e.Accessed [] e' := by
  unfold fetch
  refine Returns.next (run_note _ _) ?_
  rw [hmode, Algorithm.bank?, hunit]
  exact returns_pure ⟨rfl, Engine.Accessed.refl.note _⟩

theorem short_fetch (hmode : a.mode = .hardware false) (hunit : a.algorithm.unit? ≠ none)
    (hshort : out.length < a.algorithm.digestWords) :
    Returns (fetch a out) e fun r e' => r = (.error .wrongSize, out) ∧ e.Accessed [] e' := by
  obtain ⟨unit, hunit⟩ := Option.ne_none_iff_exists'.1 hunit
  unfold fetch
  refine Returns.next (run_note _ _) ?_
  rw [hmode, Algorithm.bank?, hunit, Option.map_some]
  refine Returns.ite (fun _ => ?_) fun hroom => absurd hshort hroom
  exact returns_pure ⟨rfl, Engine.Accessed.refl.note _⟩

/-- **With a block, a unit and room for the digest, the load decides.** -/
theorem loaded_fetch {unit : UnitIndex} (hmode : a.mode = .hardware false)
    (hunit : a.algorithm.unit? = some unit) (hroom : a.algorithm.digestWords ≤ out.length) :
    Always (fetch a out) e fun r e' => ∃ trace, e.Accessed trace e' ∧ Retrieved a out r.1 r.2 trace := by
  have hnoted := (Engine.Accessed.refl (e := e)).note (.fetching a.algorithm)
  simp only [fetch, always_bind, always_note, hmode, Algorithm.bank?, hunit, Option.map_some]
  refine Always.ite (fun hshort => absurd hroom (Nat.not_le.2 hshort)) fun _ => ?_
  refine always_bind.2 ((loading_loadDigest unit).mono fun outcome e₁ he₁ => ?_)
  obtain ⟨trace, haccessed, hloading⟩ := he₁
  have hloaded := hnoted.trans haccessed
  rw [List.append_nil] at hloaded
  cases outcome with
  | error fault =>
    have hfault : fault = .stillBusy := by cases hloading <;> rfl
    cases hfault
    exact always_pure.2 ⟨trace, hloaded, .stuck hmode hunit hroom hloading⟩
  | ok =>
    simp only [digestFromText, bind_assoc, always_bind, pure_bind, always_note, always_pure]
    refine (accessed_readText 0 _).always.mono fun words e₂ he₂ => ?_
    exact ⟨_, (hloaded.trans he₂.2).note _, .read hmode hunit hroom hloading he₂.1⟩

/-- **Whatever a readout answers, it has made the accesses of that answer.** -/
theorem retrieved_fetch (a : Operation) (out : List UInt32) :
    Always (fetch a out) e fun r e' =>
      ∃ trace, e.Accessed trace e' ∧ Retrieved a out r.1 r.2 trace := by
  have hreached : ∀ {answer}, Retrieved a out answer.1 answer.2 [] →
      (Returns (fetch a out) e fun r e' => r = answer ∧ e.Accessed [] e') →
      Always (fetch a out) e fun r e' =>
        ∃ trace, e.Accessed trace e' ∧ Retrieved a out r.1 r.2 trace := by
    intro answer hretrieved hreturns
    refine hreturns.always.mono fun r e' he => ?_
    rw [he.1]
    exact ⟨[], he.2, hretrieved⟩
  obtain hoff | hfirst | ⟨hmode, hunit⟩ | ⟨unit, hmode, hunit, hshort | hroom⟩ := fetch_cases a out
  · exact hreached (.refused hoff) (refused_fetch out hoff)
  · exact hreached (.nothing hfirst) (idle_fetch out hfirst)
  · exact hreached (.unitless hmode hunit) (unitless_fetch out hmode hunit)
  · have hsome : a.algorithm.unit? ≠ none := by simp [hunit]
    exact hreached (.short hmode hsome hshort) (short_fetch hmode hsome hshort)
  · exact loaded_fetch hmode hunit hroom

/-- A readout in a session leaves every operation as it was, and every stream. -/
theorem fetch_keeps_session [GatedClock κ] [EngineMutex μ] (session : Session ρ κ μ) (name : String)
    (out : List UInt32) : Always (Session.step (.fetch name out)) session fun _ s =>
      (∀ other : String, s.operations[other]? = session.operations[other]?) ∧
        s.streams = session.streams := by
  refine Session.always_withOperation (fun _ => ⟨fun _ => rfl, rfl⟩) fun a ha => ?_
  refine always_bind.2 (Session.always_onEngine.2 fun r e' _ => always_pure.2 ⟨fun other => ?_, rfl⟩)
  by_cases hsame : name = other
  · simp [← hsame, ha]
  · simp [Std.TreeMap.getElem?_insert, hsame]

/-- **A readout keeps to the digest**, whatever the registers answer and whatever room there is. On a
fault the caller's words are as they were; before the first block nothing is read, and no register
reached; and after it the front of the words is what the text registers said, in the order of the
digest, with the rest as it was. That the operation is not on the engine, has no unit, or has no room
is found before any register is reached, and the last of these only where a block was committed to a
unit. No operation and no stream is changed by it. -/
theorem fetch_keeps_to_the_digest [GatedClock κ] [EngineMutex μ] (e : Engine ρ κ μ) (a : Operation)
    (out : List UInt32) :
    (Always (fetch a out) e fun r e' => ∃ trace, e.Accessed trace e' ∧
      Retrieved a out r.1 r.2 trace ∧ KeepsToDigest a out r.1 r.2 trace) ∧
    (a.mode = .hardware true →
      Returns (fetch a out) e fun r e' => r = (.ok (), out) ∧ e.Accessed [] e') ∧
    ((Returns (fetch a out) e fun r _ => r.1 = .error .notOwner) ↔ a.isOnEngine = false) ∧
    ((Returns (fetch a out) e fun r _ => r.1 = .error (.noUnit a.algorithm)) ↔
      a.mode = .hardware false ∧ a.algorithm.unit? = none) ∧
    ((Returns (fetch a out) e fun r _ => r.1 = .error .wrongSize) ↔
      a.mode = .hardware false ∧ a.algorithm.unit? ≠ none ∧
        out.length < a.algorithm.digestWords) ∧
    ∀ (session : Session ρ κ μ) (name : String),
      Always (Session.step (.fetch name out)) session fun _ s =>
        (∀ other : String, s.operations[other]? = session.operations[other]?) ∧
          s.streams = session.streams := by
  -- what is answered has come about in the way of that answer
  have hway : ∀ {outcome}, (Returns (fetch a out) e fun r _ => r.1 = outcome) →
      ∃ out' trace, Retrieved a out outcome out' trace := by
    intro outcome hreturns
    obtain ⟨r, _, -, rfl, trace, -, hretrieved⟩ := hreturns.and_always (retrieved_fetch a out)
    exact ⟨r.2, trace, hretrieved⟩
  refine ⟨(retrieved_fetch a out).mono fun r e' he => ?_, idle_fetch out, ⟨fun h => ?_, fun h => ?_⟩,
    ⟨fun h => ?_, fun h => ?_⟩, ⟨fun h => ?_, fun h => ?_⟩,
    fun session name => fetch_keeps_session session name out⟩
  · obtain ⟨trace, haccessed, hretrieved⟩ := he
    exact ⟨trace, haccessed, hretrieved, hretrieved.keeps⟩
  · obtain ⟨_, _, hretrieved⟩ := hway h
    cases hretrieved with
    | refused hoff => exact hoff
  · exact (refused_fetch out h).mono fun _ _ hr => congrArg Prod.fst hr.1
  · obtain ⟨_, _, hretrieved⟩ := hway h
    cases hretrieved with
    | unitless hmode hunit => exact ⟨hmode, hunit⟩
  · exact (unitless_fetch out h.1 h.2).mono fun _ _ hr => congrArg Prod.fst hr.1
  · obtain ⟨_, _, hretrieved⟩ := hway h
    cases hretrieved with
    | short hmode hunit hshort => exact ⟨hmode, hunit, hshort⟩
  · exact (short_fetch h.1 h.2.1 h.2.2).mono fun _ _ hr => congrArg Prod.fst hr.1

end EngineM

end HashAccelerator
