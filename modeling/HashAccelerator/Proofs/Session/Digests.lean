import HashAccelerator.Platform.Clock
import HashAccelerator.Platform.Mutex
import HashAccelerator.Proofs.Peripheral.Hashing
import HashAccelerator.Proofs.Session.Feeds
import HashAccelerator.Proofs.Session.Order
/-!
# No wrong digest

Any number of streams share the accelerator with each other and with operations of their own, in any
order and with any outcome, while its busy registers are held set and let go and the clock and the
mutex do what they like. Whenever a stream answers a digest, all of its message was taken, and the
digest is the standard's (`Course.Reached.digest_of_message`).

One thing is asked of the mutex: that it was never granted while it was held. A party on the engine
finds the running unit there as it left it, since nobody else reaches a register meanwhile.
-/

namespace HashAccelerator

open EngineM

variable {κ μ : Type} [GatedClock κ] [EngineMutex μ]

/-- Streams are accounted for by what their paths have hashed. -/
theorem account_hashed : Account (Hashed (κ := κ) (μ := μ)) fun _ _ _ => True where
  toIntake := intake_hashed
  fresh _ := ⟨rfl, rfl⟩
  inSoftware := Algorithm.chainOf_nil _

namespace Course

/-- The steps of streams and operations, of drivers on the same clock, of an accelerator that may be
stuck for a while and of a mutex that may change by itself. -/
def Hashing (_ : Course Peripheral κ μ) : Step Peripheral μ → Prop
  | .alterRegisters change => ∃ held, change = Peripheral.holdBusy held
  | step => step.IsCall ∨ step.IsOutside

/-- The parties are in order, and the streams have hashed what they were given. -/
structure Correct (c : Course Peripheral κ μ) : Prop where
  inOrder : c.InOrder
  accounted : Exclusive c.engine.history → Accounted Hashed c

variable {c : Course Peripheral κ μ} {step : Step Peripheral μ}

/-- What happens outside stops no unit, and is no matter of the operations. -/
theorem Hashing.outside (hfair : Hashing c step) (hout : step.IsOutside) :
    Always (Session.step step) c.session fun _ s =>
      c.engine.history <:+ s.engine.history ∧ s.operations = c.session.operations ∧
        s.engine.registers.conduct = c.engine.registers.conduct := by
  cases step with
  | alterRegisters change =>
    obtain ⟨held, rfl⟩ := hfair
    simp only [Session.step, always_bind, always_modify, always_pure]
    exact ⟨List.suffix_rfl, trivial, rfl⟩
  | readSettings =>
    simp only [Session.step, always_bind, always_get, always_pure]
    exact ⟨List.suffix_rfl, trivial, rfl⟩
  | alterMutex change =>
    simp only [Session.step, always_bind, always_modify, always_pure]
    exact ⟨List.suffix_rfl, trivial, rfl⟩
  | enableClock =>
    simp only [Session.step, always_bind, Session.always_onEngine, always_enableClock, always_pure]
    exact ⟨List.suffix_cons _ _, trivial, rfl⟩
  | disableClock =>
    simp only [Session.step, always_bind, Session.always_onEngine, always_disableClock, always_pure]
    exact ⟨List.suffix_cons _ _, trivial, rfl⟩
  | isClockEnabled =>
    simp only [Session.step, always_bind, Session.always_onEngine, always_isClockEnabled,
      always_pure]
    exact ⟨List.suffix_cons _ _, trivial, rfl⟩
  | _ => exact hout.elim

omit [GatedClock κ] [EngineMutex μ] in
/-- Every step is a call of a party, or happens outside. -/
theorem Hashing.isCall_or_isOutside (hfair : Hashing c step) : step.IsCall ∨ step.IsOutside := by
  cases step <;> first | exact hfair | exact Or.inr trivial

/-- **Every step leaves the streams correct.** -/
theorem Correct.advance (h : Correct c) (hfair : Hashing c step) :
    Always (Session.step step) c.session fun answer s => Correct (c.next step answer s) := by
  -- the past is exclusive if the future is, and then the streams were correct
  have hcorrect : Always (Session.step step) c.session fun answer s =>
      (c.next step answer s).InOrder ∧ c.engine.history <:+ s.engine.history ∧
        (Exclusive s.engine.history → Unspoilt Hashed c step s.engine) := by
    rcases hfair.isCall_or_isOutside with hcall | hout
    · refine (h.inOrder.call (.of_kept (kept_const True)) trivial hcall).mono
        fun answer s hfollows => ⟨hfollows.inOrder, hfollows.grown, ?_⟩
      intro hexclusive name stream hname hstream blocks hpath
      refine hpath.of_running fun hon => ?_
      have hparty : c.party? (.stream name) = some stream.operation := by simp [party?, hstream]
      have hholds := (h.inOrder.standing hparty).holdsMutex_of_isOnEngine hon
      exact congrArg Peripheral.running
        (hfollows.untouched hexclusive _ hname ⟨_, hparty, hholds⟩)
    · refine ((h.inOrder.outside hout).and (hfair.outside hout)).mono fun answer s hs => ?_
      exact ⟨hs.1, hs.2.1, fun _ name stream _ _ blocks hpath =>
        hpath.of_running fun _ => congrArg Conduct.running hs.2.2.2⟩
  by_cases hexclusive : Exclusive c.engine.history
  · have haccounted := h.accounted hexclusive
    refine (hcorrect.and (haccounted.advance account_hashed)).mono fun answer s hs => ?_
    obtain ⟨⟨hinOrder, -, hunspoilt⟩, haccounted⟩ := hs
    exact ⟨hinOrder, fun hexclusive' => haccounted (hunspoilt hexclusive')⟩
  · refine hcorrect.mono fun answer s hs => ⟨hs.1, fun hexclusive' => ?_⟩
    exact absurd (hexclusive'.of_suffix hs.2.1) hexclusive

/-- **A digest is that of the whole message.** After any course of streams and operations on an
accelerator of any latency, whatever failed on the way, a stream that is finished and answers a
digest was given a message all of which was taken, and the digest is the one that the standard
defines for that message. Of the mutex it is asked that it was never granted while it was held. -/
theorem Reached.digest_of_message {latency : Nat} {clock : κ} {mutex : μ} {settings : Settings}
    (h : Reached Hashing (.ofEngine (.simulated latency clock mutex settings)) c)
    (hexclusive : Exclusive c.engine.history) {name : String} {feed : Feed}
    (hfeed : feedOf name c.past = some feed) {digest : List UInt8}
    {session : Session Peripheral κ μ}
    (hrun : (Session.step (.finish name)).run c.session = some (.digest (.ok digest), session)) :
    feed.whole = true ∧ feed.algorithm.digest feed.message = .ok digest := by
  have hcorrect : Correct c :=
    h.induct ⟨inOrder_ofEngine rfl, fun _ _ _ h => by cases h⟩ fun c step hc hfair => hc.advance hfair
  obtain ⟨s, hs, hserved⟩ := hcorrect.accounted hexclusive name feed hfeed
  have hfinished : Always (Session.step (.finish name)) c.session fun answer _ =>
      answer = .digest (.ok digest) →
        feed.whole = true ∧ feed.algorithm.digest feed.message = .ok digest := by
    refine Session.always_endStream (fun _ h => by cases h) fun s' hs' => ?_
    obtain rfl : s = s' := Option.some.inj (hs.symm.trans hs')
    simp only [always_bind, Session.always_onEngine, always_pure]
    by_cases hfailed : s.failed = true
    · rw [HashStream.finish_of_failed hfailed]
      simp only [always_bind, always_pure]
      exact fun _ _ _ h => by cases h
    · rw [Bool.not_eq_true] at hfailed
      refine (digest_of_finish (hserved.fed hfailed)).mono fun outcome _ hdigest hanswer => ?_
      refine ⟨by rw [hserved.whole_eq, hfailed]; rfl, ?_⟩
      rw [← hserved.algorithm_eq]
      exact hdigest digest (Answer.digest.inj hanswer)
  exact hfinished _ _ hrun rfl

/-- A stream that has the engine is finished after another, which had to go without, has come and
gone. -/
theorem exists_digest_of_two_parts :
    ∃ (c : Course Peripheral CountedClock CountedMutex) (digest : List UInt8)
      (session : Session Peripheral CountedClock CountedMutex),
      (Session.step (.finish "first")).run c.session = some (.digest (.ok digest), session) ∧
      Algorithm.sha256.digest (List.replicate 64 7 ++ [8]) = .ok digest := by
  let steps : List (Step Peripheral CountedMutex) :=
    [.start "first" .sha256 false, .absorb "first" (List.replicate 64 7) (some 48),
      .start "second" .sha512 false, .absorb "second" [1, 2, 3] none,
      .alterRegisters (Peripheral.holdBusy true), .finish "second",
      .alterRegisters (Peripheral.holdBusy false), .absorb "first" [8] none]
  let answered (c : Course Peripheral CountedClock CountedMutex) : Bool :=
    decide (Exclusive c.engine.history) &&
      decide (feedOf "first" c.past = some ⟨.sha256, List.replicate 64 7 ++ [8], true⟩) &&
      ((Session.step (.finish "first")).run c.session).any fun r => r.1.digest?.isSome
  have hrun : (take { session := .ofEngine (.simulated 1 {} {} {}) } steps).any answered = true := by
    decide +kernel
  obtain ⟨c, htake, hanswered⟩ := (Option.any_eq_true _ _).1 hrun
  simp only [answered, Bool.and_eq_true, Option.any_eq_true, decide_eq_true_eq] at hanswered
  obtain ⟨⟨hexclusive, hfeed⟩, ⟨answer, session⟩, hfinish, hdigest⟩ := hanswered
  have hreached : Reached Hashing (.ofEngine (.simulated 1 {} {} {})) c :=
    Reached.start.take (fun _ step hstep => by
      simp only [steps, List.mem_cons, List.not_mem_nil, or_false] at hstep
      rcases hstep with rfl | rfl | rfl | rfl | rfl | rfl | rfl | rfl
      all_goals first | exact Or.inl trivial | exact ⟨_, rfl⟩) htake
  obtain ⟨digest, hdigest⟩ := Option.isSome_iff_exists.1 hdigest
  obtain rfl : answer = .digest (.ok digest) := Answer.eq_of_digest? hdigest
  obtain ⟨-, hstandard⟩ := hreached.digest_of_message hexclusive hfeed hfinish
  exact ⟨c, digest, session, hfinish, hstandard⟩

end Course

end HashAccelerator
