import HashAccelerator.Proofs.Peripheral.Tenancy
import HashAccelerator.SelfTest.Checks
/-!
# Two streams fed in turn

One check of the self-test feeds two streams with the same message, part by part. As long as the message
is shorter than a block neither of them asks for the engine. With the first block the first stream wins
it, if it can be won, and so the second is sent to software when it asks; if not, both are. The check
passes if the engine can be won and the accelerator is waited for in time (`always_pathsAgree_rested`,
`always_pathsAgree_aside`).
-/

namespace HashAccelerator

open EngineM SelfTest

variable {first second s : HashStream} {message part : List UInt8}

/-- The message of the check fills a block of any algorithm. -/
theorem ne_nil_of_longMessage {blocks : List (List UInt8)} (h : s.Took longMessage blocks) :
    blocks ≠ [] := by
  intro hnil
  have hshort := h.eq_nil_iff.1 hnil
  rw [longMessage, List.length_map, List.length_range] at hshort
  exact absurd hshort (by cases s.algorithm <;> decide)

/-! ## Beside a stream that has the engine -/

section Rested

variable {μ : Type} [EngineMutex μ] [PlainLatch μ]
variable {before e e' : Engine Peripheral CountedClock μ}

/-- A stream that holds nothing and has taken in a message. -/
def Beside (s : HashStream) (message : List UInt8) (e : Engine Peripheral CountedClock μ) : Prop :=
  s.Fed (fun a chain blocks _ => Unattached a chain blocks) message e

/-- **The second stream takes in the part that the first has taken in**, and disturbs it not. -/
theorem Beside.always_absorb (h : Beside second message e)
    (hfirst : first.Fed (Lodged before) (message ++ part) e)
    (halgorithm : second.algorithm = first.algorithm) :
    Always (second.absorb part) e fun r e' => r.1 = .ok () ∧ r.2.algorithm = second.algorithm ∧
      Beside r.2 (message ++ part) e' ∧ first.Fed (Lodged before) (message ++ part) e' := by
  by_cases hshort : (message ++ part).length < second.algorithm.blockSize
  · obtain ⟨s', hrun, hsame, hfed⟩ := h.absorb_short hshort
    rw [hrun, always_pure]
    exact ⟨rfl, congrArg Operation.algorithm hsame, hfed, hfirst⟩
  · -- the first stream has handed over a block, so it holds the engine
    obtain ⟨blocks, htook, hlodged⟩ := hfirst.taken
    have hne : blocks ≠ [] := fun hnil => hshort (halgorithm ▸ htook.eq_nil_iff.1 hnil)
    have hlost := hlodged.not_winnable hne
    have haside : second.Fed (Aside e) message e :=
      h.imp fun _ hpath => ⟨hpath, fun _ => hlost, .refl e⟩
    refine (Aside.always_absorb part haside).mono fun r e' he => ?_
    obtain ⟨houtcome, hsame, hundisturbed, hfed⟩ := he
    exact ⟨houtcome, hsame, hfed.imp fun _ hpath => hpath.toUnattached,
      hfirst.imp fun _ hpath => hpath.undisturbed hundisturbed⟩

/-- The message of the check takes the first stream to the engine. -/
theorem Lodged.isOnEngine_of_longMessage (h : s.Fed (Lodged before) longMessage e) :
    s.operation.isOnEngine = true := by
  obtain ⟨blocks, htook, hlodged⟩ := h.taken
  rw [Operation.isOnEngine, hlodged.mode_eq (ne_nil_of_longMessage htook)]

omit [EngineMutex μ] [PlainLatch μ] in
/-- And the second to software. -/
theorem Beside.mode_of_longMessage (h : Beside s longMessage e) : s.operation.mode = .software := by
  obtain ⟨blocks, htook, hpath⟩ := h.taken
  exact (hpath.path.resolve_left fun hnone => ne_nil_of_longMessage htook hnone.2.1).1

/-- What two streams fed in turn have taken in: the whole message, or what they had when the accelerator
was not waited for. -/
structure FedBoth (before : Engine Peripheral CountedClock μ) (algorithm : Algorithm)
    (message : List UInt8) (r : Bool × HashStream × HashStream)
    (e : Engine Peripheral CountedClock μ) : Prop where
  first_eq : r.2.1.algorithm = algorithm
  second_eq : r.2.2.algorithm = algorithm
  fed : r.1 = true ∧ r.2.1.Fed (Lodged before) message e ∧ Beside r.2.2 message e ∨
    r.1 = false ∧ r.2.1.failed = true ∧ Forfeited before r.2.1.operation e ∧
      ∃ taken, Beside r.2.2 taken e

variable (hroom : before.clock.count.toNat < clockRoom) (hpatient : before.Patient)

include hroom hpatient

theorem always_feedBoth_rested (parts : List (List UInt8))
    (hfirst : first.Fed (Lodged before) message e) (hsecond : Beside second message e)
    (halgorithm : second.algorithm = first.algorithm) :
    Always (feedBoth first second parts) e
      (FedBoth before first.algorithm (message ++ parts.flatten)) := by
  induction parts generalizing first second message e with
  | nil =>
    simp only [feedBoth, always_pure, List.flatten_nil, List.append_nil]
    exact ⟨rfl, halgorithm, Or.inl ⟨rfl, hfirst, hsecond⟩⟩
  | cons part rest ih =>
    simp only [feedBoth, always_bind, List.flatten_cons]
    rw [← List.append_assoc]
    refine (Lodged.always_absorb hroom hpatient part hfirst).mono fun r e' he => ?_
    obtain ⟨outcome, first'⟩ := r
    obtain ⟨hsame, hdone⟩ := he
    have hsecond' : Beside second message e' := hsecond.imp fun _ hpath => hpath
    rcases hdone with ⟨rfl, hfed⟩ | ⟨fault, rfl, hfailed, hforfeited⟩
    · have halgorithm' : second.algorithm = first'.algorithm := halgorithm.trans hsame.symm
      refine always_bind.2 ((Beside.always_absorb hsecond' hfed halgorithm').mono fun r e'' he => ?_)
      obtain ⟨outcome, second'⟩ := r
      obtain ⟨rfl, hsame', hbeside, hfed⟩ := he
      have hrest := ih hfed hbeside (hsame'.trans halgorithm')
      rwa [show first'.algorithm = first.algorithm from hsame] at hrest
    · rw [always_pure]
      exact ⟨hsame, halgorithm, Or.inr ⟨rfl, hfailed, hforfeited, message, hsecond'⟩⟩

/-- The end of a stream that holds nothing leaves the engine at rest; in software it is the digest. -/
theorem Beside.always_finish (hs : Beside s message e) (hunit : s.algorithm.unit?.isSome = true)
    (h : before.Rested e) : Always s.finish e fun outcome e' => before.Rested e' ∧
      (s.operation.mode = .software → outcome = s.algorithm.digest message) := by
  obtain ⟨blocks, -, hpath⟩ := hs.taken
  rcases hpath.path with ⟨hmode, -⟩ | ⟨hmode, -⟩
  · have hlodged : s.Fed (Lodged before) message e :=
      hs.imp fun _ hpath => Lodged.of_unattached hmode hunit hpath h
    refine (Lodged.always_finish hroom hpatient hlodged).mono fun _ _ he => ⟨he.1, fun hsoftware => ?_⟩
    simp [hmode] at hsoftware
  · have haside : s.Fed (Aside e) message e :=
      hs.imp fun _ hpath => ⟨hpath, fun hfresh => by simp [hmode] at hfresh, .refl e⟩
    exact (Aside.always_finish haside).mono fun _ _ he => ⟨h.undisturbed he.2, fun _ => he.1⟩

/-- **The two paths agree if the engine is waited for in time**, and not if it is not. -/
theorem always_pathsAgree_rested {algorithm : Algorithm} (hunit : algorithm.unit?.isSome = true)
    (h : before.Rested e) : Always (pathsAgree algorithm) e fun passed e' =>
      before.Rested e' ∧ (passed = true ↔ before.InTime) := by
  have hfirst : (HashStream.start algorithm).Fed (Lodged before) [] e := Lodged.start hunit h
  have hsecond : Beside (.start algorithm) [] e := by
    unfold HashStream.start
    rw [if_pos hunit]
    exact HashStream.fed_ofOperation (unattached_fresh algorithm)
  simp only [pathsAgree, always_bind]
  refine (always_feedBoth_rested hroom hpatient (pieces 100 longMessage) hfirst hsecond rfl).mono
    fun r e' he => ?_
  obtain ⟨fed, first, second⟩ := r
  obtain ⟨halgorithm, halgorithm', hfed⟩ := he
  replace halgorithm : first.algorithm = algorithm :=
    halgorithm.trans (HashStream.algorithm_start algorithm)
  replace halgorithm' : second.algorithm = algorithm :=
    halgorithm'.trans (HashStream.algorithm_start algorithm)
  rw [List.nil_append, flatten_pieces (by decide)] at hfed
  rcases hfed with ⟨rfl, hfirst, hsecond⟩ | ⟨rfl, hfailed, hforfeited, taken, hsecond⟩
  · -- both have taken in the message, the first on the engine and the second beside it
    have hon : first.operation.isOnEngine = true := Lodged.isOnEngine_of_longMessage hfirst
    have hmode : second.operation.mode = .software := Beside.mode_of_longMessage hsecond
    refine (Lodged.always_finish hroom hpatient hfirst).mono fun one e'' he => ?_
    obtain ⟨hrested, hanswer⟩ := he
    have hsecond' : Beside second longMessage e'' := hsecond.imp fun _ hpath => hpath
    refine (Beside.always_finish hroom hpatient hsecond' (halgorithm' ▸ hunit) hrested).mono
      fun other e₃ he => ?_
    obtain ⟨hrested, hsoftware⟩ := he
    have hother := hsoftware hmode
    rw [halgorithm'] at hother
    by_cases hin : before.InTime
    · obtain ⟨digest, rfl, hdigest⟩ := hanswer.digest hin
      rw [halgorithm] at hdigest
      rw [hother, hdigest]
      simp [hrested, hon, hmode, hin]
    · cases one with
      | ok digest => exact absurd rfl (hanswer.fault hin digest)
      | error fault => simp [hrested, hin]
  · have hlate := hforfeited.1
    refine (hforfeited.always_finish hfailed (algorithm.digest longMessage)).mono fun one e'' he => ?_
    have hsecond' : Beside second taken e'' := hsecond.imp fun _ hpath => hpath
    refine (Beside.always_finish hroom hpatient hsecond' (halgorithm' ▸ hunit) he.1).mono
      fun other e₃ he => ?_
    simp [he.1, hlate]

end Rested

/-! ## Both aside -/

section Barred

variable {ρ κ μ : Type} [RegisterBlock ρ] [GatedClock κ] [EngineMutex μ] [PlainLatch μ]
variable {before e : Engine ρ κ μ}

theorem always_feedBoth_aside (parts : List (List UInt8))
    (hfirst : first.Fed (Aside before) message e) (hsecond : second.Fed (Aside before) message e) :
    Always (feedBoth first second parts) e fun r e' =>
      r.2.1.Fed (Aside before) (message ++ parts.flatten) e' ∧
      r.2.2.Fed (Aside before) (message ++ parts.flatten) e' := by
  induction parts generalizing first second message e with
  | nil =>
    simp only [feedBoth, always_pure, List.flatten_nil, List.append_nil]
    exact ⟨hfirst, hsecond⟩
  | cons part rest ih =>
    simp only [feedBoth, always_bind, List.flatten_cons]
    rw [← List.append_assoc]
    refine (Aside.always_absorb part hfirst).mono fun r e' he => ?_
    obtain ⟨outcome, first'⟩ := r
    obtain ⟨rfl, -, hsame, hfirst'⟩ := he
    have hsecond' := Aside.later hsecond hsame
    refine always_bind.2 ((Aside.always_absorb part hsecond').mono fun r e'' he => ?_)
    obtain ⟨outcome, second'⟩ := r
    obtain ⟨rfl, -, hsame', hsecond''⟩ := he
    exact ih (Aside.later hfirst' hsame') hsecond''

/-- **Where the engine cannot be won there are no two paths** to agree, and nobody is disturbed. -/
theorem always_pathsAgree_aside (algorithm : Algorithm) (h : ¬ e.Winnable) :
    Always (pathsAgree algorithm) e fun passed e' => passed = false ∧ e.Undisturbed e' := by
  have hstart : (HashStream.start algorithm).Fed (Aside e) [] e := Aside.start (Or.inr h)
  simp only [pathsAgree, always_bind]
  refine (always_feedBoth_aside (pieces 100 longMessage) hstart hstart).mono fun r e' he => ?_
  obtain ⟨fed, first, second⟩ := r
  obtain ⟨hfirst, hsecond⟩ := he
  have hoff : first.operation.isOnEngine = false := by
    obtain ⟨blocks, -, haside⟩ := hfirst.taken
    exact haside.toUnattached.isOnEngine_eq
  refine (Aside.always_finish hfirst).mono fun one e'' he => ?_
  refine (Aside.always_finish (Aside.later hsecond he.2)).mono fun other e₃ he => ?_
  rw [hoff]
  split <;> simp [he.2]

end Barred

end HashAccelerator
