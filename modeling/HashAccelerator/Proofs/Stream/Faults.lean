import HashAccelerator.Proofs.Engine.Past
import HashAccelerator.Proofs.Stream.Intake
import HashAccelerator.Proofs.Stream.Return
/-!
# The faults of a stream

A stream that has not failed is `Viable`: its operation has nothing to settle and a unit of its own
wherever it may need one, its chaining value has the right width, and before its first block it is
given none. So no block that it hands over is refused, and the one fault that it may meet is a wait
that was given up, which takes a poll limit and an operation on the engine. Where no wait is given up
it meets no fault at all.
-/

namespace HashAccelerator

open EngineM

variable {ρ κ μ : Type} {e : Engine ρ κ μ} {a a' : Operation} {chain : Chain}
variable {blocks : List (List UInt8)} {settings : Settings} {past : List Event}

/-- An operation that can take in any block of its algorithm, on whichever path it is or will be. -/
structure Viable (a : Operation) (chain : Chain) (blocks : List (List UInt8)) : Prop where
  settled : a.mode ≠ .unsettled
  unit : a.mode ≠ .software → a.algorithm.unit?.isSome = true
  width : chain.isWide = a.algorithm.isWide
  begun : a.isBeforeFirstBlock = true → blocks = []

namespace Viable

theorem fresh {algorithm : Algorithm} (hunit : algorithm.unit?.isSome = true) :
    Viable (.fresh algorithm) (.initial algorithm) [] where
  settled h := by cases h
  unit _ := hunit
  width := Chain.isWide_initial algorithm
  begun _ := rfl

theorem softwareOnly {algorithm : Algorithm} :
    Viable (.softwareOnly algorithm) (.initial algorithm) [] where
  settled h := by cases h
  unit hmode := absurd rfl hmode
  width := Chain.isWide_initial algorithm
  begun _ := rfl

/-- Either path will do. -/
theorem competed {path : Path} (h : Viable a chain blocks) (hmode : a.mode = .uncommitted)
    (hcompeted : Competed a path a') : Viable a' chain blocks := by
  have hunit : a.algorithm.unit?.isSome = true := h.unit (by simp [hmode])
  have hbegun : blocks = [] := h.begun (by simp [Operation.isBeforeFirstBlock, hmode])
  cases hcompeted with
  | won => exact ⟨(fun h => by cases h), fun _ => hunit, h.width, fun _ => hbegun⟩
  | lost => exact ⟨(fun h => by cases h), fun hne => absurd rfl hne, h.width, fun _ => hbegun⟩

/-- A block that the engine took leaves the operation on the engine. -/
theorem submitted {words : List UInt32} (h : Viable a chain blocks) (block : List UInt8)
    (hsubmitted : Submitted settings a words (.ok ()) a') : Viable a' chain (blocks ++ [block]) := by
  cases hsubmitted with
  | taken hon hunit =>
    exact ⟨(fun h => by cases h), fun _ => by simp [hunit], h.width, fun h => by cases h⟩

/-- **A block that was not taken met a wait that was given up.** -/
theorem stuck {words : List UInt32} {fault : Fault} (h : Viable a chain blocks)
    (hon : a.isOnEngine = true) (hlength : words.length = a.algorithm.blockWords)
    (hsubmitted : Submitted settings a words (.error fault) a') :
    fault = .stillBusy ∧ settings.pollLimit.isSome = true ∧ a' = a := by
  cases hsubmitted with
  | refused hoff => exact absurd (hoff.symm.trans hon) (by decide)
  | misfit _ _ hmisfit => exact absurd hlength hmisfit
  | stuck _ hlimit => exact ⟨rfl, hlimit, rfl⟩
  | parked _ hnone =>
    have hunit := h.unit fun hmode => by simp [Operation.isOnEngine, hmode] at hon
    simp [hnone] at hunit

/-- **Nor is there another reason** for a digest that is not read. -/
theorem unread {room : Nat} {fault : Fault} (h : Viable a chain blocks)
    (hmode : a.mode = .hardware false) (hroom : a.algorithm.digestWords ≤ room)
    (hfetched : Fetched settings a room (.error fault)) :
    fault = .stillBusy ∧ settings.pollLimit.isSome = true := by
  have hunit := h.unit (by simp [hmode])
  cases hfetched with
  | refused hoff => simp [Operation.isOnEngine, hmode] at hoff
  | unitless _ hnone => simp [hnone] at hunit
  | short _ _ hshort => omega
  | stuck _ _ hlimit => exact ⟨rfl, hlimit⟩

/-- In software nothing can fail. -/
theorem compressed {block : List UInt8} (h : Viable a chain blocks) (hmode : a.mode = .software)
    (hlength : block.length = a.algorithm.blockSize) :
    ∃ next, chain.compress a.algorithm block = .ok next ∧ Viable a next (blocks ++ [block]) := by
  obtain ⟨next, hnext⟩ := Chain.exists_compress h.width (Nat.le_of_eq hlength.symm)
  refine ⟨next, hnext, h.settled, h.unit, Chain.isWide_of_compress hnext, fun hbefore => ?_⟩
  simp [Operation.isBeforeFirstBlock, hmode] at hbefore

end Viable

variable [RegisterBlock ρ] [GatedClock κ] [EngineMutex μ]

/-- **The account of viability is carried on**, with whatever the calls of the operation carry on
besides; and a path fails by a wait that was given up, with whatever is true then. -/
theorem intake_viable {J Q : Operation → Engine ρ κ μ → Prop}
    (hnote : ∀ {a e n}, Q a e → Q a { e with notices := n :: e.notices })
    (hacquire : ∀ {a e}, a.mode = .uncommitted → J a e →
      Always (EngineM.acquire a) e fun r e' => J r.2 e')
    (hsubmit : ∀ {a e} words, a.isOnEngine = true → J a e →
      Always (EngineM.submit a words) e fun r e' =>
        (r.1 = .ok () → r.2.isOnEngine = true → J r.2 e') ∧ (r.1 = .error .stillBusy → Q a e')) :
    Intake (fun a chain blocks e => Viable a chain blocks ∧ J a e) fun a fault e =>
      fault = .stillBusy ∧ e.settings.pollLimit.isSome = true ∧ a.isOnEngine = true ∧ Q a e where
  note h := ⟨h.1, h.2.1, h.2.2.1, hnote h.2.2.2⟩
  settled h := h.1.settled
  acquire {a chain blocks e} h hmode := by
    refine ((acquired_acquire a).and (hacquire hmode h.2)).mono fun r e' he => ?_
    obtain ⟨path, -, hcompeted⟩ := he.1.of_uncommitted hmode
    exact ⟨h.1.competed hmode hcompeted, he.2⟩
  submit {a chain blocks e words} h hon hlength := by
    refine ((submitted_submit a words rfl).and ((kept_settings.submit a words rfl).and
      (hsubmit words hon h.2))).mono fun r e' he => ?_
    obtain ⟨outcome, a'⟩ := r
    obtain ⟨hsubmitted, hsettings, hkept, hstuck⟩ := he
    cases outcome with
    | ok =>
      have hon' : a'.isOnEngine = true := by
        cases hsubmitted
        rfl
      exact ⟨h.1.submitted _ hsubmitted, hkept rfl hon'⟩
    | error fault =>
      obtain ⟨rfl, hlimit, rfl⟩ := h.1.stuck hon hlength hsubmitted
      exact ⟨rfl, by rwa [hsettings], hon, hstuck rfl⟩
  compress {a chain blocks e block} h hmode hlength := by
    obtain ⟨next, hnext, hviable⟩ := h.1.compressed hmode hlength
    exact ⟨next, hnext, hviable, h.2⟩

/-! ## The end of a message -/

omit [RegisterBlock ρ] in
/-- What a stream gives back is one disable and one unlock at most. -/
theorem HashStream.always_discard_history (s : HashStream) : Always s.discard e fun _ e' =>
    ∃ newer, newer.Sublist [.unlocked, .clockDisabled] ∧ e'.history = newer ++ e.history := by
  simp only [discard, always_bind, always_pure]
  refine Always.ite (fun _ => ?_) fun _ => ?_
  · simp only [always_bind, always_pure]
    exact always_release_history _
  · rw [always_pure]
    exact ⟨[], List.nil_sublist _, rfl⟩

/-- How the end of a message may be answered, after a past in which the operation was on the engine
or not: by a digest, which comes from the engine if it is on it by now and has been loaded there
then, or on the engine by a wait that was given up. -/
def EndsAs (algorithm : Algorithm) (settings : Settings) (onEngine : Prop)
    (past history : List Event) : Except Fault (List UInt8) → Prop
  | .ok digest => digest.length = algorithm.digestSize ∧
      (onEngine ∨ GrantedSince past history → ∃ bank, algorithm.bank? = some bank ∧
        Since past (.write bank.load 1) history)
  | .error fault => fault = .stillBusy ∧ settings.pollLimit.isSome = true ∧
      (onEngine ∨ GrantedSince past history)

omit [RegisterBlock ρ] [GatedClock κ] [EngineMutex μ] in
/-- Nothing is changed by what is no grant. -/
theorem EndsAs.append {algorithm : Algorithm} {onEngine : Prop} {newer history : List Event}
    {outcome : Except Fault (List UInt8)} (hsuffix : past <:+ history)
    (hnot : ∀ timeout, .lockTried timeout .granted ∉ newer)
    (h : EndsAs algorithm settings onEngine past history outcome) :
    EndsAs algorithm settings onEngine past (newer ++ history) outcome := by
  have hgranted := grantedSince_append hsuffix hnot
  cases outcome with
  | ok digest =>
    refine ⟨h.1, fun hon => ?_⟩
    obtain ⟨bank, hbank, hloaded⟩ := h.2 (hon.imp_right hgranted.1)
    exact ⟨bank, hbank, (since_append newer hsuffix).2 (Or.inr hloaded)⟩
  | error fault => exact ⟨h.1, h.2.1, h.2.2.imp_right hgranted.2⟩

/-! ## On any platform -/

/-- The operation is on the engine if it was or if the mutex was granted since, and not else. -/
structure Tracked (settings : Settings) (onEngine : Prop) (past : List Event) (a : Operation)
    (e : Engine ρ κ μ) : Prop where
  settings_eq : e.settings = settings
  suffix : past <:+ e.history
  onEngine_iff : a.isOnEngine = true ↔ onEngine ∨ GrantedSince past e.history

namespace Tracked

variable {onEngine : Prop}

omit [RegisterBlock ρ] [GatedClock κ] [EngineMutex μ] in
theorem start (a : Operation) (e : Engine ρ κ μ) :
    Tracked e.settings (a.isOnEngine = true) e.history a e where
  settings_eq := rfl
  suffix := List.suffix_rfl
  onEngine_iff := (or_iff_left not_grantedSince_self).symm

theorem acquire (h : Tracked settings onEngine past a e) (hmode : a.mode = .uncommitted) :
    Always (EngineM.acquire a) e fun r e' => Tracked settings onEngine past r.2 e' := by
  have hoff : ¬ a.isOnEngine = true := by simp [Operation.isOnEngine, hmode]
  have hnone := not_or.1 fun hon => hoff (h.onEngine_iff.2 hon)
  refine ((kept_settings.acquire a h.settings_eq).and
    (always_acquire_grants hmode ⟨h.suffix, iff_of_false hnone.2 id⟩)).mono fun r e' he => ?_
  obtain ⟨hsettings, hsuffix, hgranted⟩ := he
  exact ⟨hsettings, hsuffix, hgranted.symm.trans (or_iff_right hnone.1).symm⟩

theorem submit (h : Tracked settings onEngine past a e) (words : List UInt32)
    (hon : a.isOnEngine = true) : Always (EngineM.submit a words) e fun _ e' =>
      ∀ a', a'.isOnEngine = true → Tracked settings onEngine past a' e' := by
  refine ((kept_settings.submit a words h.settings_eq).and
    (Grants.keptByAccess.submit a words ⟨h.suffix, Iff.rfl⟩)).mono fun _ e' he a' hon' => ?_
  obtain ⟨hsettings, hsuffix, hgranted⟩ := he
  have hwas := h.onEngine_iff.1 hon
  exact ⟨hsettings, hsuffix, iff_of_true hon' (hwas.imp_right hgranted.2)⟩

/-- **A path with a block has a digest**, and fails to give it for one reason only. -/
theorem collect {s : HashStream} (h : Tracked settings onEngine past s.operation e)
    (hviable : Viable s.operation s.chain blocks) (hne : blocks ≠ []) :
    Always s.collect e fun outcome e' =>
      past <:+ e'.history ∧ EndsAs s.algorithm settings onEngine past e'.history outcome := by
  have hbegun : s.operation.isBeforeFirstBlock ≠ true := fun hbefore => hne (hviable.begun hbefore)
  have hiff := h.onEngine_iff
  unfold HashStream.collect
  cases hmode : s.operation.mode with
  | uncommitted => simp [Operation.isBeforeFirstBlock, hmode] at hbegun
  | unsettled => exact absurd hmode hviable.settled
  | software =>
    -- the chaining value has the bytes
    have hoff : ¬ s.operation.isOnEngine = true := by simp [Operation.isOnEngine, hmode]
    simp only [always_pure]
    rw [HashStream.algorithm, Chain.digest_eq hviable.width]
    refine ⟨h.suffix, ?_, fun hon => absurd (hiff.2 hon) hoff⟩
    rw [List.length_take, Nat.min_eq_left (Chain.digestSize_le hviable.width)]
  | hardware first =>
    cases first with
    | true => simp [Operation.isBeforeFirstBlock, hmode] at hbegun
    | false =>
      -- the engine has had a block, so it loads the digest
      have hon := hiff.1 (by simp [Operation.isOnEngine, hmode])
      have hroom : s.operation.algorithm.digestWords ≤ (List.replicate (maxDigestSize / 4)
          (0 : UInt32)).length := by
        rw [List.length_replicate]
        exact s.operation.algorithm.digestWords_le
      simp only [always_bind, always_pure]
      refine ((fetched_fetch s.operation _ h.settings_eq).and
        ((always_fetch_since _ h.suffix hmode).and (Grants.keptByAccess.fetch s.operation _
          ⟨h.suffix, Iff.rfl⟩))).mono fun r e' he => ?_
      obtain ⟨outcome, words⟩ := r
      obtain ⟨hfetched, hread, hsuffix, hgranted⟩ := he
      refine ⟨hsuffix, ?_⟩
      cases outcome with
      | error fault =>
        obtain ⟨hstuck, hlimit⟩ := hviable.unread hmode hroom hfetched
        exact ⟨hstuck, hlimit, hon.imp_right hgranted.2⟩
      | ok =>
        obtain ⟨hlength, hloaded⟩ := hread rfl
        have hbytes : s.operation.algorithm.digestSize ≤
            (words.flatMap BigEndian.bytes32).length := by
          rw [BigEndian.length_flatMap_bytes32, hlength, List.length_replicate]
          cases s.operation.algorithm <;> decide
        simp only [Except.bind, HashStream.algorithm, cutDigest_of_le hbytes]
        refine ⟨?_, fun _ => hloaded⟩
        rw [List.length_take, Nat.min_eq_left hbytes]

end Tracked

/-- **On any platform** a stream's path fails by a wait that was given up and by nothing else. -/
theorem intake_tracked (onEngine : Prop) :
    Intake (fun a chain blocks (e : Engine ρ κ μ) =>
        Viable a chain blocks ∧ Tracked settings onEngine past a e) fun a fault e =>
      fault = .stillBusy ∧ e.settings.pollLimit.isSome = true ∧ a.isOnEngine = true ∧
        Tracked settings onEngine past a e :=
  intake_viable (fun h => ⟨h.settings_eq, h.suffix, h.onEngine_iff⟩) (fun hmode h => h.acquire hmode)
    fun words hon h => (h.submit words hon).mono fun r _ htracked =>
      ⟨fun _ => htracked r.2, fun _ => htracked _ hon⟩

section Answers

variable {s : HashStream} {message : List UInt8}

omit [RegisterBlock ρ] [GatedClock κ] [EngineMutex μ] in
/-- A stream may be tracked from any time on. -/
theorem HashStream.Fed.tracked {P : Operation → Chain → List (List UInt8) → Engine ρ κ μ → Prop}
    (h : s.Fed P message e) :
    s.Fed (fun a chain blocks e' => P a chain blocks e' ∧
      Tracked e.settings (s.operation.isOnEngine = true) e.history a e') message e :=
  h.imp fun _ hpath => ⟨hpath, Tracked.start _ _⟩

/-- **A part is taken, or it met a wait that was given up** on the engine. -/
theorem absorb_viable (bytes : List UInt8)
    (h : s.Fed (fun a chain blocks (_ : Engine ρ κ μ) => Viable a chain blocks) message e) :
    Always (s.absorb bytes) e fun r e' => r.2.algorithm = s.algorithm ∧
      match r.1 with
      | .ok () => r.2.Fed (fun a chain blocks (_ : Engine ρ κ μ) => Viable a chain blocks)
          (message ++ bytes) e'
      | .error fault => fault = .stillBusy ∧ r.2.failed = true ∧ r.2.operation.isOnEngine = true := by
  refine ((intake_tracked _).absorb bytes h.tracked).mono fun r e' he => ?_
  obtain ⟨outcome, s'⟩ := r
  obtain ⟨halgorithm, he⟩ := he
  cases outcome with
  | ok => exact ⟨halgorithm, he.imp fun _ hpath => hpath.1⟩
  | error fault => exact ⟨halgorithm, he.2.1, he.1, he.2.2.2.1⟩

/-- **The end of a message is a digest or a wait that was given up.** -/
theorem endsAs_finish
    (h : s.Fed (fun a chain blocks (_ : Engine ρ κ μ) => Viable a chain blocks) message e) :
    Always s.finish e fun outcome e' => e.history <:+ e'.history ∧
      EndsAs s.algorithm e.settings (s.operation.isOnEngine = true) e.history e'.history outcome := by
  refine (intake_tracked _).finish h.tracked (fun {outcome a e'} he => ?_)
    (fun t e' halgorithm hpath => ?_) fun a fault e' hstuck => ?_
  · -- what is held is given back
    refine (always_release_history a).mono fun _ e'' hreleased => ?_
    obtain ⟨newer, hsub, hhistory⟩ := hreleased
    have hnot : ∀ timeout, .lockTried timeout .granted ∉ newer :=
      fun timeout hmem => by simpa using hsub.subset hmem
    rw [hhistory]
    exact ⟨he.1.trans (List.suffix_append _ _), he.2.append he.1 hnot⟩
  · -- the padded message has a block, so the path has one
    have hcollected := hpath.2.collect hpath.1 (s.algorithm.blocks_ne_nil message)
    rwa [halgorithm] at hcollected
  · obtain ⟨hfault, hlimit, hon, htracked⟩ := hstuck
    refine ⟨htracked.suffix, hfault, ?_, htracked.onEngine_iff.1 hon⟩
    rw [← htracked.settings_eq, hlimit]

/-! ## Where no wait is given up -/

variable {J : Engine ρ κ μ → Prop}

/-- **Where the waits end well** no path fails. -/
theorem EngineM.Prompt.intake (hJ : Prompt J) :
    Intake (fun a chain blocks e => Viable a chain blocks ∧ J e) fun a fault e =>
      fault = .stillBusy ∧ e.settings.pollLimit.isSome = true ∧ a.isOnEngine = true ∧ False :=
  intake_viable (J := fun _ e => J e) (Q := fun _ _ => False) id (fun _ h => hJ.acquire _ h)
    fun words _ h => ((hJ.toKept.submit _ words h).and (hJ.submit _ words h).always).mono
      fun _ _ he => ⟨fun _ _ => he.1, he.2⟩

/-- And every message comes to its digest. -/
theorem EngineM.Prompt.finish_ok (hJ : Prompt J) (hready : J e)
    (h : s.Fed (fun a chain blocks (_ : Engine ρ κ μ) => Viable a chain blocks) message e) :
    Returns s.finish e fun outcome _ =>
      ∃ digest, outcome = .ok digest ∧ digest.length = s.algorithm.digestSize := by
  have hfed : s.Fed (fun a chain blocks e => Viable a chain blocks ∧ J e) message e :=
    h.imp fun _ hviable => ⟨hviable, hready⟩
  -- that it returns is known, so only what it returns is left
  suffices hends : Always s.finish e fun outcome _ =>
      ∃ digest, outcome = .ok digest ∧ digest.length = s.algorithm.digestSize from
    ((hJ.finish hready).and_always hends).mono fun _ _ he => he.2
  refine hJ.intake.finish hfed (fun hdigest _ _ _ => hdigest) (fun t e' halgorithm hpath => ?_)
    fun _ _ _ hstuck => hstuck.2.2.2.elim
  refine (((Tracked.start t.operation e').collect hpath.1 (s.algorithm.blocks_ne_nil message)).and
    (hJ.collect hpath.2).always).mono fun outcome e'' he => ?_
  obtain ⟨⟨-, hends⟩, hprompt⟩ := he
  cases outcome with
  | error fault => exact absurd (congrArg Except.error hends.1) hprompt
  | ok digest => exact ⟨digest, rfl, by rw [hends.1, halgorithm]⟩

end Answers

end HashAccelerator
