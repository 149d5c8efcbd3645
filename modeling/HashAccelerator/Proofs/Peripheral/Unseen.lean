import HashAccelerator.Platform.Clock
import HashAccelerator.Platform.Mutex
import HashAccelerator.Proofs.Peripheral.Hashing
import HashAccelerator.Proofs.Peripheral.Readiness
import HashAccelerator.Proofs.Stream.Faults
import HashAccelerator.Proofs.Stream.Wire
/-!
# Nobody sees who won the engine

On an accelerator that is ready whenever it is asked, a stream of a fresh operation is answered alike
whether its operation is granted the mutex or not: every part is taken, and the digest is the standard's.
What the clock and the mutex are, and how the mutex comes to grant or to refuse, is not seen either
(`HashStream.winner_unseen`).

An algorithm without a unit is the exception. Its fresh operation asks for the engine like any other, and
if it is granted the mutex the first block that it hands over is refused, so that no digest comes of it
(`HashStream.Refused`). Only a stream that is in software from its start never asks.
-/

namespace HashAccelerator

open EngineM

variable {κ μ : Type} {e : Engine Peripheral κ μ} {a a' : Operation} {chain : Chain}
variable {blocks : List (List UInt8)} {settings : Settings} {onEngine : Prop} {past : List Event}
variable {algorithm : Algorithm}

/-! ## Paths of fresh operations -/

/-- Before the first block nothing has been hashed. -/
theorem Hashed.begun (h : Hashed a chain blocks e) (hbefore : a.isBeforeFirstBlock = true) :
    blocks = [] := by
  cases hmode : a.mode with
  | uncommitted => exact ((hashed_uncommitted hmode).1 h).1
  | software => simp [Operation.isBeforeFirstBlock, hmode] at hbefore
  | unsettled => simp [Operation.isBeforeFirstBlock, hmode] at hbefore
  | hardware first =>
    cases first with
    | true => exact ((hashed_hardware hmode).1 h).1 rfl
    | false => simp [Operation.isBeforeFirstBlock, hmode] at hbefore

/-- The path of an operation of the algorithm has hashed the blocks so far, and the accelerator is ready
for the next one. On the engine an algorithm without a unit has hashed none. -/
structure Abreast (algorithm : Algorithm) (a : Operation) (chain : Chain) (blocks : List (List UInt8))
    (e : Engine Peripheral κ μ) : Prop where
  algorithm_eq : a.algorithm = algorithm
  ready : e.Ready
  hashed : Hashed a chain blocks e
  width : chain.isWide = a.algorithm.isWide
  unitless : a.isOnEngine = true → algorithm.unit? = none → blocks = []

namespace Abreast

theorem fresh (hready : e.Ready) : Abreast algorithm (.fresh algorithm) (.initial algorithm) [] e where
  algorithm_eq := rfl
  ready := hready
  hashed := ⟨rfl, rfl⟩
  width := Chain.isWide_initial algorithm
  unitless _ _ := rfl

/-- Of what others do only the readiness and the running unit count. -/
theorem of_running {e' : Engine Peripheral κ μ} (h : Abreast algorithm a chain blocks e)
    (hready : e'.Ready)
    (hrunning : a.isOnEngine = true → e'.registers.running = e.registers.running) :
    Abreast algorithm a chain blocks e' :=
  ⟨h.algorithm_eq, hready, h.hashed.of_running hrunning, h.width, h.unitless⟩

/-- A path that has hashed a block is one that can go on. -/
theorem viable [GatedClock κ] [EngineMutex μ] (h : Abreast algorithm a chain blocks e)
    (hne : blocks ≠ []) : Viable a chain blocks where
  settled := intake_hashed.settled h.hashed
  unit hmode := by
    have hon : a.isOnEngine = true := by
      cases hother : a.mode with
      | hardware first => simp [Operation.isOnEngine, hother]
      | software => exact absurd hother hmode
      | uncommitted => exact absurd ((hashed_uncommitted hother).1 h.hashed).1 hne
      | unsettled => exact absurd hother (intake_hashed.settled h.hashed)
    rw [h.algorithm_eq]
    cases hunit : algorithm.unit? with
    | some unit => rfl
    | none => exact absurd (h.unitless hon hunit) hne
  width := h.width
  begun := h.hashed.begun

end Abreast

variable [GatedClock κ] [EngineMutex μ]

/-- **On a ready accelerator a path goes on**, unless its algorithm has no unit and it was granted the
mutex nevertheless. -/
theorem intake_abreast : Intake
    (fun a chain blocks (e : Engine Peripheral κ μ) =>
      Abreast algorithm a chain blocks e ∧ Tracked settings onEngine past a e)
    fun _ fault e => algorithm.unit? = none ∧ fault = .noUnit algorithm ∧ past <:+ e.history ∧
      (onEngine ∨ GrantedSince past e.history) where
  note h := h
  settled h := intake_hashed.settled h.1.hashed
  acquire {a chain blocks e} h hmode := by
    obtain ⟨habreast, htracked⟩ := h
    obtain ⟨rfl, -⟩ := (hashed_uncommitted hmode).1 habreast.hashed
    refine ((acquired_acquire a).and ((prompt_ready.acquire a habreast.ready).and
      ((intake_hashed.acquire habreast.hashed hmode).and (htracked.acquire hmode)))).mono
      fun r e' he => ?_
    obtain ⟨hacquired, hready, hhashed, htracked'⟩ := he
    have hsame := hacquired.algorithm_eq
    exact ⟨⟨hsame.trans habreast.algorithm_eq, hready, hhashed, by rw [hsame]; exact habreast.width,
      fun _ _ => rfl⟩, htracked'⟩
  submit {a chain blocks e words} h hon hlength := by
    obtain ⟨habreast, htracked⟩ := h
    have hsame := habreast.algorithm_eq
    refine ((submitted_submit a words rfl).and
      (((prompt_ready.toKept.submit a words habreast.ready).and
        (prompt_ready.submit a words habreast.ready).always).and
      ((intake_hashed.submit habreast.hashed hon hlength).and
        (htracked.submit words hon)))).mono fun r e' he => ?_
    obtain ⟨outcome, a'⟩ := r
    obtain ⟨hsubmitted, ⟨hready, hprompt⟩, hhashed, htracked'⟩ := he
    cases hsubmitted with
    | refused hoff => exact absurd (hoff.symm.trans hon) (by decide)
    | misfit _ _ hmisfit => exact absurd hlength hmisfit
    | stuck _ _ => exact (hprompt rfl).elim
    | parked _ hnone =>
      have hwon := htracked' a hon
      exact ⟨hsame ▸ hnone, by rw [hsame], hwon.suffix, hwon.onEngine_iff.1 hon⟩
    | taken _ hunit =>
      rw [hsame] at hunit
      refine ⟨⟨hsame, hready, hhashed, habreast.width, fun _ hnone => ?_⟩, htracked' _ rfl⟩
      simp [hunit] at hnone
  compress {a chain blocks e block} h hmode hlength := by
    obtain ⟨habreast, htracked⟩ := h
    obtain ⟨next, hnext, hhashed⟩ := intake_hashed.compress habreast.hashed hmode hlength
    refine ⟨next, hnext, ⟨habreast.algorithm_eq, habreast.ready, hhashed,
      Chain.isWide_of_compress hnext, fun hon => ?_⟩, htracked⟩
    simp [Operation.isOnEngine, hmode] at hon

/-! ## The end of a message -/

/-- How a message may end: by its digest, or for want of a unit where the mutex was granted
nevertheless. -/
inductive Delivers (algorithm : Algorithm) (message : List UInt8) (won : Prop) :
    Except Fault (List UInt8) → Prop
  | digest {digest} : (algorithm.unit? = none → ¬ won) → algorithm.digest message = .ok digest →
      Delivers algorithm message won (.ok digest)
  | unitless : algorithm.unit? = none → won →
      Delivers algorithm message won (.error (.noUnit algorithm))

theorem Delivers.congr {message : List UInt8} {won won' : Prop} {outcome : Except Fault (List UInt8)}
    (h : Delivers algorithm message won outcome) (hwon : won' ↔ won) :
    Delivers algorithm message won' outcome := by
  rwa [propext hwon]

namespace HashStream

variable {s : HashStream} {message : List UInt8}

omit [GatedClock κ] [EngineMutex μ] in
theorem algorithm_eq_of_abreast (h : s.Fed (Abreast algorithm) message e) :
    s.algorithm = algorithm := by
  obtain ⟨_, -, habreast⟩ := h.taken
  exact habreast.algorithm_eq

/-- **What a path that is abreast delivers** is the digest. -/
theorem delivers_collect (hne : blocks ≠ []) (hblocks : algorithm.blocks message = blocks)
    (h : Abreast algorithm s.operation s.chain blocks e)
    (htracked : Tracked settings onEngine past s.operation e) :
    Always s.collect e fun outcome e' => past <:+ e'.history ∧
      Delivers algorithm message (onEngine ∨ GrantedSince past e'.history) outcome := by
  refine ((htracked.collect (h.viable hne) hne).and
    ((prompt_ready.collect h.ready).always.and (digest_of_collect hne h.hashed))).mono
    fun outcome e' he => ?_
  obtain ⟨⟨hsuffix, hends⟩, hprompt, hdigest⟩ := he
  rw [show s.algorithm = algorithm from h.algorithm_eq] at hends hdigest
  refine ⟨hsuffix, ?_⟩
  cases outcome with
  | error fault => exact (hprompt (congrArg Except.error hends.1)).elim
  | ok digest =>
    obtain ⟨value, hvalue, hcut⟩ := hdigest digest rfl
    refine .digest (fun hnone hwon => ?_) ?_
    · obtain ⟨bank, hbank, -⟩ := hends.2 hwon
      simp [Algorithm.bank?, hnone] at hbank
    · rw [Algorithm.digest, hblocks, hvalue]
      exact hcut

/-- And so the end of a message does. -/
theorem delivers_finish (h : s.Fed (Abreast algorithm) message e) :
    Always s.finish e fun outcome e' => Delivers algorithm message
      (s.operation.isOnEngine = true ∨ GrantedSince e.history e'.history) outcome := by
  have hsame := algorithm_eq_of_abreast h
  refine (intake_abreast.finish h.tracked (R := fun outcome e' => e.history <:+ e'.history ∧
    Delivers algorithm message (s.operation.isOnEngine = true ∨ GrantedSince e.history e'.history)
      outcome) (fun {outcome a e'} he => ?_) (fun t e' halgorithm hpath => ?_)
    fun a fault e' hfault => ?_).mono fun _ _ he => he.2
  · -- what is given back is no grant
    have hgrants : Grants e.history (GrantedSince e.history e'.history) e' := ⟨he.1, Iff.rfl⟩
    refine (hgrants.release a).mono fun _ e'' hreleased => ⟨hreleased.1, he.2.congr ?_⟩
    exact or_congr Iff.rfl hreleased.2
  · rw [hsame] at hpath
    exact delivers_collect (algorithm.blocks_ne_nil message) rfl hpath.1 hpath.2
  · obtain ⟨hnone, rfl, hsuffix, hwon⟩ := hfault
    exact ⟨hsuffix, .unitless hnone hwon⟩

/-- A stream that is abreast of its message has handed over no block yet, or may go on. -/
theorem short_or_viable (h : s.Fed (Abreast algorithm) message e) :
    message.length < algorithm.blockSize ∨
      s.Fed (fun a chain blocks (_ : Engine Peripheral κ μ) => Viable a chain blocks) message e := by
  obtain ⟨blocks, htook, habreast⟩ := h.taken
  by_cases hnone : blocks = []
  · rw [← habreast.algorithm_eq]
    exact Or.inl (htook.eq_nil_iff.1 hnone)
  · exact Or.inr ⟨h.sound, h.length_eq, blocks, htook, habreast.viable hnone⟩

/-- **Only the first block is refused for want of a unit**, with the part that completes it. -/
theorem absorb_refused (bytes : List UInt8) (h : s.Fed (Abreast algorithm) message e) :
    Always (s.absorb bytes) e fun r _ => r.1 = .error (.noUnit algorithm) →
      message.length < algorithm.blockSize ∧
        algorithm.blockSize ≤ (message ++ bytes).length := by
  have hsame := algorithm_eq_of_abreast h
  have hcomplete : Always (s.absorb bytes) e fun r _ => r.1 = .error (.noUnit algorithm) →
      algorithm.blockSize ≤ (message ++ bytes).length := by
    refine fun r e' hrun hrefused => Nat.le_of_not_lt fun hshort => ?_
    rw [← hsame] at hshort
    obtain ⟨s', hpure, -⟩ := h.absorb_short hshort
    rw [hpure] at hrun
    cases hrun
    cases hrefused
  rcases short_or_viable h with hshort | hviable
  · exact hcomplete.mono fun _ _ hlong hrefused => ⟨hshort, hlong hrefused⟩
  · refine (absorb_viable bytes hviable).mono fun r e' he hrefused => ?_
    obtain ⟨outcome, s'⟩ := r
    obtain rfl : outcome = .error (.noUnit algorithm) := hrefused
    cases he.2.1

/-- Or with the end of a shorter message. -/
theorem finish_refused (h : s.Fed (Abreast algorithm) message e) : Always s.finish e fun outcome _ =>
    outcome = .error (.noUnit algorithm) → message.length < algorithm.blockSize := by
  rcases short_or_viable h with hshort | hviable
  · exact always_true.mono fun _ _ _ _ => hshort
  · refine (endsAs_finish hviable).mono fun outcome e' he hrefused => ?_
    subst hrefused
    cases he.2.1

/-! ## Whole lives -/

/-- A stream of a fresh operation, which bids for the engine, on an accelerator that is ready whenever it
is asked: the parts that it was handed with the answers, oldest first, its own calls on the platform,
newest first, and the engine. Others may use the engine between its calls, but leave the running unit
alone while the stream is on the engine. -/
inductive Bidder (κ μ : Type) [GatedClock κ] [EngineMutex μ] (algorithm : Algorithm) :
    HashStream → List (List UInt8 × Except Fault Unit) → List Event → Engine Peripheral κ μ → Prop
  | fresh {e : Engine Peripheral κ μ} : e.Ready →
      Bidder κ μ algorithm (.ofOperation (.fresh algorithm)) [] [] e
  | aside {s updates trace} {e e' : Engine Peripheral κ μ} :
      Bidder κ μ algorithm s updates trace e → e'.Ready →
      (s.operation.isOnEngine = true → e'.registers.running = e.registers.running) →
      Bidder κ μ algorithm s updates trace e'
  | absorb {s s' : HashStream} {updates trace newer} {e e' : Engine Peripheral κ μ} {bytes outcome} :
      Bidder κ μ algorithm s updates trace e →
      (s.absorb bytes).run e = some ((outcome, s'), e') → e'.history = newer ++ e.history →
      Bidder κ μ algorithm s' (updates ++ [(bytes, outcome)]) (newer ++ trace) e'

/-- Such a stream up to its end: the parts with the answers, the answer at the end, and its own calls. -/
inductive Lived (κ μ : Type) [GatedClock κ] [EngineMutex μ] (algorithm : Algorithm) :
    List (List UInt8 × Except Fault Unit) → Except Fault (List UInt8) → List Event → Prop
  | finish {s : HashStream} {updates trace newer outcome} {e e' : Engine Peripheral κ μ} :
      Bidder κ μ algorithm s updates trace e → s.finish.run e = some (outcome, e') →
      e'.history = newer ++ e.history → Lived κ μ algorithm updates outcome (newer ++ trace)

/-- The answers of a life that is served to its end: every part is taken, and the digest is the
standard's. -/
structure Digested (algorithm : Algorithm) (updates : List (List UInt8 × Except Fault Unit))
    (outcome : Except Fault (List UInt8)) : Prop where
  taken : ∀ update ∈ updates, update.2 = .ok ()
  digest : ∃ digest, outcome = .ok digest ∧
    algorithm.digest (updates.map Prod.fst).flatten = .ok digest

section Answers

variable {updates updates' : List (List UInt8 × Except Fault Unit)}
variable {outcome outcome' : Except Fault (List UInt8)}

theorem Digested.updates_eq (h : Digested algorithm updates outcome) :
    updates = (updates.map Prod.fst).map fun bytes => (bytes, .ok ()) := by
  have hsame : updates.map ((fun bytes => (bytes, .ok ())) ∘ Prod.fst) = updates.map id :=
    List.map_congr_left fun update hmem => Prod.ext rfl (h.taken update hmem).symm
  rw [List.map_map, hsame, List.map_id]

/-- Lives that are served to the end answer alike if their parts are the same. -/
theorem Digested.unique (h : Digested algorithm updates outcome)
    (h' : Digested algorithm updates' outcome')
    (hparts : updates.map Prod.fst = updates'.map Prod.fst) :
    updates = updates' ∧ outcome = outcome' := by
  obtain ⟨digest, rfl, hdigest⟩ := h.digest
  obtain ⟨digest', rfl, hdigest'⟩ := h'.digest
  refine ⟨?_, ?_⟩
  · rw [h.updates_eq, h'.updates_eq, hparts]
  · rw [← hdigest, ← hdigest', hparts]

end Answers

/-- The answers of a life whose first block is refused for want of a unit. The part that completes the
block says so, and every later call that the stream has failed; or the end of a shorter message says
so. -/
inductive Refused (algorithm : Algorithm) :
    List (List UInt8 × Except Fault Unit) → Except Fault (List UInt8) → Prop
  | atEnd {updates} : (∀ update ∈ updates, update.2 = .ok ()) →
      (updates.map Prod.fst).flatten.length < algorithm.blockSize →
      Refused algorithm updates (.error (.noUnit algorithm))
  | before {taken bytes later} : (∀ update ∈ taken, update.2 = .ok ()) →
      (taken.map Prod.fst).flatten.length < algorithm.blockSize →
      algorithm.blockSize ≤ ((taken.map Prod.fst).flatten ++ bytes).length →
      (∀ update ∈ later, update.2 = .error .alreadyFailed) →
      Refused algorithm (taken ++ (bytes, .error (.noUnit algorithm)) :: later)
        (.error .alreadyFailed)

section Lives

variable {updates : List (List UInt8 × Except Fault Unit)} {trace newer : List Event}
variable {outcome : Except Fault (List UInt8)}

/-- Where every part is taken, the end is refused. -/
theorem Refused.eq_of_taken (h : Refused algorithm updates outcome)
    (htaken : ∀ update ∈ updates, update.2 = .ok ()) : outcome = .error (.noUnit algorithm) := by
  cases h with
  | atEnd _ _ => rfl
  | before _ _ _ _ => cases htaken _ (List.mem_append_right _ List.mem_cons_self)

theorem Refused.concat (h : Refused algorithm updates (.error .alreadyFailed)) (bytes : List UInt8) :
    Refused algorithm (updates ++ [(bytes, .error .alreadyFailed)]) (.error .alreadyFailed) := by
  cases h with
  | before htaken hshort hlong hlater =>
    rw [List.append_assoc, List.cons_append]
    refine .before htaken hshort hlong (List.forall_mem_append.2 ⟨hlater, fun update hmem => ?_⟩)
    rw [List.mem_singleton.1 hmem]

/-- How a stream has answered: it took all parts, and is on the engine exactly if it was granted the
mutex; or it was refused for want of a unit. -/
inductive Answered (algorithm : Algorithm) (s : HashStream)
    (updates : List (List UInt8 × Except Fault Unit)) (trace : List Event)
    (e : Engine Peripheral κ μ) : Prop
  | served : (∀ update ∈ updates, update.2 = .ok ()) →
      s.Fed (Abreast algorithm) (updates.map Prod.fst).flatten e →
      (s.operation.isOnEngine = true ↔ Granted trace) → Answered algorithm s updates trace e
  | refused : s.failed = true → algorithm.unit? = none → Granted trace →
      Refused algorithm updates (.error .alreadyFailed) →
      Answered algorithm s updates trace e

omit [GatedClock κ] [EngineMutex μ] in
/-- What was granted since a call is what the call was granted. -/
theorem onEngine_or_grantedSince_iff {e' : Engine Peripheral κ μ}
    (hiff : s.operation.isOnEngine = true ↔ Granted trace)
    (hhistory : e'.history = newer ++ e.history) :
    s.operation.isOnEngine = true ∨ GrantedSince e.history e'.history ↔
      Granted (newer ++ trace) := by
  rw [hhistory, grantedSince_append_self, granted_append, hiff, or_comm]

theorem Answered.absorb (h : Answered algorithm s updates trace e) (bytes : List UInt8) :
    Always (s.absorb bytes) e fun r e' => ∀ newer, e'.history = newer ++ e.history →
      Answered algorithm r.2 (updates ++ [(bytes, r.1)]) (newer ++ trace) e' := by
  cases h with
  | refused hfailed hnone hwon hrefused =>
    rw [absorb_of_failed hfailed, always_pure]
    intro newer _
    exact .refused hfailed hnone (granted_append.2 (Or.inr hwon)) (hrefused.concat bytes)
  | served hall hfed hiff =>
    refine ((intake_abreast.absorb bytes hfed.tracked).and (absorb_refused bytes hfed)).mono
      fun r e' he newer hhistory => ?_
    obtain ⟨outcome, s'⟩ := r
    obtain ⟨⟨-, he⟩, hfirst⟩ := he
    have hgranted := onEngine_or_grantedSince_iff hiff hhistory
    cases outcome with
    | ok =>
      obtain ⟨_, -, -, htracked⟩ := he.taken
      refine .served ?_ ?_ (htracked.onEngine_iff.trans hgranted)
      · refine List.forall_mem_append.2 ⟨hall, fun update hmem => ?_⟩
        rw [List.mem_singleton.1 hmem]
      · rw [List.map_append, List.flatten_append, List.map_singleton, List.flatten_singleton]
        exact he.imp fun _ habreast => habreast.1
    | error fault =>
      obtain ⟨hfailed, hnone, rfl, -, hwon⟩ := he
      obtain ⟨hshort, hlong⟩ := hfirst rfl
      exact .refused hfailed hnone (hgranted.1 hwon) (.before hall hshort hlong (by simp))

theorem Bidder.ready (h : Bidder κ μ algorithm s updates trace e) : e.Ready := by
  induction h with
  | fresh hready => exact hready
  | aside _ hready _ _ => exact hready
  | absorb _ hrun _ ih => exact (prompt_ready.absorb _ ih).always _ _ hrun

theorem Bidder.answered (h : Bidder κ μ algorithm s updates trace e) :
    Answered algorithm s updates trace e := by
  induction h with
  | fresh hready =>
    exact .served (by simp) (fed_ofOperation (.fresh hready)) (iff_of_false
      (by simp [ofOperation, Operation.fresh, Operation.isOnEngine]) (by simp [Granted]))
  | aside _ hready hrunning ih =>
    cases ih with
    | served hall hfed hiff =>
      exact .served hall (hfed.imp fun _ habreast => habreast.of_running hready hrunning) hiff
    | refused hfailed hnone hwon hrefused => exact .refused hfailed hnone hwon hrefused
  | absorb _ hrun hhistory ih => exact ih.absorb _ _ _ hrun _ hhistory

/-- **A life is served to its end**, unless its algorithm has no unit and it was granted the mutex. -/
theorem Lived.digested_or_refused (h : Lived κ μ algorithm updates outcome trace) :
    (algorithm.unit? = none → ¬ Granted trace) ∧ Digested algorithm updates outcome ∨
      algorithm.unit? = none ∧ Granted trace ∧ Refused algorithm updates outcome := by
  cases h with
  | @finish s _ trace newer _ e e' hlife hrun hhistory =>
    cases hlife.answered with
    | refused hfailed hnone hwon hrefused =>
      rw [finish_of_failed hfailed] at hrun
      obtain ⟨_, _, -, hanswer⟩ := run_bind_eq_some.1 hrun
      cases hanswer
      exact Or.inr ⟨hnone, granted_append.2 (Or.inr hwon), hrefused⟩
    | served hall hfed hiff =>
      have hgranted := onEngine_or_grantedSince_iff hiff hhistory
      cases (delivers_finish hfed _ _ hrun).congr hgranted.symm with
      | digest hnot hdigest => exact Or.inl ⟨hnot, hall, _, rfl, hdigest⟩
      | unitless hnone hwon =>
        exact Or.inr ⟨hnone, hwon, .atEnd hall (finish_refused hfed _ _ hrun rfl)⟩

/-- A life with one part, over an engine with an empty past, and whether it was granted the mutex. -/
theorem exists_lived (algorithm : Algorithm) (bytes : List UInt8) (won : Bool) (hready : e.Ready)
    (hpast : e.history = [])
    (hrun : (((ofOperation (.fresh algorithm)).absorb bytes).run e).any (fun r => r.1.1.toBool &&
      (r.1.2.finish.run r.2).any fun ended => ended.2.history.any Event.isGrant == won) = true) :
    ∃ outcome trace, Lived κ μ algorithm [(bytes, .ok ())] outcome trace ∧
      (Granted trace ↔ won = true) := by
  obtain ⟨⟨⟨taken, s⟩, e'⟩, habsorb, hends⟩ := (Option.any_eq_true _ _).1 hrun
  obtain ⟨htaken, hends⟩ := (Bool.and_eq_true _ _).mp hends
  obtain ⟨⟨outcome, e''⟩, hfinish, hgranted⟩ := (Option.any_eq_true _ _).1 hends
  cases taken with
  | error fault => cases htaken
  | ok =>
    obtain ⟨_, ⟨newer, hhistory⟩, -⟩ :=
      (kept_suffix e'.history).calls.finish List.suffix_rfl _ _ hfinish
    have hfirst : e'.history = e'.history ++ e.history := by rw [hpast, List.append_nil]
    refine ⟨outcome, _, .finish ((Bidder.fresh hready).absorb habsorb hfirst) hfinish
      hhistory.symm, ?_⟩
    rw [List.append_nil, hhistory, ← beq_iff_eq.1 hgranted]
    exact List.any_eq_true.symm

/-- **Nobody sees who won the engine.** On an accelerator that is ready whenever it is asked, every call
of a stream of a fresh operation returns, and how the platform answers its bid for the engine makes no
difference to its answers: two lives with the same parts, on any two clocks and mutexes, have the same
answers, and each of them is served to its end with the digest that the standard defines for its
message. Only an operation of an algorithm without a unit must not be granted the mutex for this. If it
is, its first block is refused for want of a unit, and there is no digest. -/
theorem winner_unseen {κ' μ' : Type} [GatedClock κ'] [EngineMutex μ'] (algorithm : Algorithm) :
    (∀ s updates trace (e : Engine Peripheral κ μ), Bidder κ μ algorithm s updates trace e →
      (∀ bytes, Returns (s.absorb bytes) e fun _ _ => True) ∧ Returns s.finish e fun _ _ => True) ∧
    (∀ updates outcome trace, Lived κ μ algorithm updates outcome trace →
      ∀ updates' outcome' trace', Lived κ' μ' algorithm updates' outcome' trace' →
      updates.map Prod.fst = updates'.map Prod.fst →
      (algorithm.unit? = none → ¬ Granted trace ∧ ¬ Granted trace') →
      updates = updates' ∧ outcome = outcome' ∧ Digested algorithm updates outcome) ∧
    ∀ updates outcome trace, Lived κ μ algorithm updates outcome trace → algorithm.unit? = none →
      Granted trace → Refused algorithm updates outcome := by
  refine ⟨fun s updates trace e h => ⟨fun bytes => ?_, prompt_ready.finish h.ready⟩, ?_, ?_⟩
  · exact (prompt_ready.absorb bytes h.ready).mono fun _ _ _ => trivial
  · intro updates outcome trace h updates' outcome' trace' h' hparts hnone
    rcases h.digested_or_refused with ⟨-, hdigested⟩ | ⟨hunit, hwon, -⟩
    · rcases h'.digested_or_refused with ⟨-, hdigested'⟩ | ⟨hunit, hwon, -⟩
      · obtain ⟨hsame, hends⟩ := hdigested.unique hdigested' hparts
        exact ⟨hsame, hends, hdigested⟩
      · exact absurd hwon (hnone hunit).2
    · exact absurd hwon (hnone hunit).1
  · intro updates outcome trace h hunit hwon
    rcases h.digested_or_refused with ⟨hnot, -⟩ | ⟨-, -, hrefused⟩
    · exact absurd hwon (hnot hunit)
    · exact hrefused

/-- A stream that wins the engine and one that finds the mutex taken answer alike; and one of an algorithm
without a unit that wins is refused. -/
theorem exists_unseen_winner :
    (∃ updates outcome trace trace', Lived CountedClock CountedMutex .sha256 updates outcome trace ∧
      Granted trace ∧ Lived CountedClock CountedMutex .sha256 updates outcome trace' ∧
      ¬ Granted trace' ∧ Digested .sha256 updates outcome) ∧
    ∃ updates outcome trace, Lived CountedClock CountedMutex .sha224 updates outcome trace ∧
      Granted trace ∧ Refused .sha224 updates outcome := by
  let free : Engine Peripheral CountedClock CountedMutex :=
    { registers := { latency := 2 }, clock := {}, mutex := {} }
  let taken : Engine Peripheral CountedClock CountedMutex := { free with mutex := { locked := true } }
  have hfree : free.Ready := ⟨rfl, by decide, fun limit h => by cases h⟩
  have htaken : taken.Ready := hfree.quiet rfl rfl
  have hwins := @winner_unseen CountedClock CountedMutex _ _ CountedClock CountedMutex _ _
  constructor
  · obtain ⟨outcome, trace, hwinner, hwon⟩ :=
      exists_lived .sha256 [97, 98, 99] true hfree rfl (by decide +kernel)
    obtain ⟨outcome', trace', hloser, hlost⟩ :=
      exists_lived .sha256 [97, 98, 99] false htaken rfl (by decide +kernel)
    obtain ⟨-, rfl, hdigested⟩ :=
      (hwins .sha256).2.1 _ _ _ hwinner _ _ _ hloser rfl fun hnone => by cases hnone
    exact ⟨_, _, _, _, hwinner, hwon.2 rfl, hloser, by simp [hlost], hdigested⟩
  · obtain ⟨outcome, trace, hwinner, hwon⟩ :=
      exists_lived .sha224 [97, 98, 99] true hfree rfl (by decide +kernel)
    exact ⟨_, _, _, hwinner, hwon.2 rfl, (hwins .sha224).2.2 _ _ _ hwinner rfl (hwon.2 rfl)⟩

/-- **Who wins without a unit is seen**: of two streams of the same three bytes, the one that finds the
mutex taken gives the digest, and the one that is granted it is refused for want of a unit. -/
theorem exists_seen_winner : ∃ digest trace trace',
    Lived CountedClock CountedMutex .sha224 [([97, 98, 99], .ok ())] (.ok digest) trace ∧
    ¬ Granted trace ∧ Algorithm.sha224.digest [97, 98, 99] = .ok digest ∧
    Lived CountedClock CountedMutex .sha224 [([97, 98, 99], .ok ())] (.error (.noUnit .sha224))
      trace' ∧ Granted trace' := by
  let free : Engine Peripheral CountedClock CountedMutex := { registers := {}, clock := {}, mutex := {} }
  let taken : Engine Peripheral CountedClock CountedMutex := { free with mutex := { locked := true } }
  have hfree : free.Ready := ⟨rfl, Nat.le_refl 0, fun limit _ => Nat.zero_le limit⟩
  have htaken : taken.Ready := hfree.quiet rfl rfl
  obtain ⟨outcome, trace, hloser, hlost⟩ :=
    exists_lived .sha224 [97, 98, 99] false htaken rfl (by decide +kernel)
  obtain ⟨outcome', trace', hwinner, hwon⟩ :=
    exists_lived .sha224 [97, 98, 99] true hfree rfl (by decide +kernel)
  have hnot : ¬ Granted trace := by simp [hlost]
  rcases hloser.digested_or_refused with ⟨-, -, digest, rfl, hdigest⟩ | ⟨-, hgranted, -⟩
  · rcases hwinner.digested_or_refused with ⟨hunit, -⟩ | ⟨-, hgranted, hrefused⟩
    · exact absurd (hwon.2 rfl) (hunit rfl)
    · -- its one part was taken, so it was refused at its end
      obtain rfl := hrefused.eq_of_taken (by simp)
      exact ⟨digest, trace, trace', hloser, hnot, hdigest, hwinner, hgranted⟩
  · exact absurd hgranted hnot

end Lives

end HashStream

end HashAccelerator
