import HashAccelerator.Proofs.Engine.Return
import HashAccelerator.Proofs.Stream.Kept
/-!
# Streams that answer

A stream waits for nothing but the engine. Giving back what it holds always ends, on every platform;
the rest of its life ends wherever the engine's waits do (`Answering`), and leaves the engine in a
state where the next call ends too.
-/

namespace HashAccelerator

open EngineM

variable {ρ κ μ : Type} [GatedClock κ] [EngineMutex μ]
variable {J : Engine ρ κ μ → Prop} {e : Engine ρ κ μ} {s : HashStream}

/-! ## Letting go -/

namespace HashStream

theorem returns_letGo (s : HashStream) : Returns s.letGo e fun _ _ => True := by
  refine Returns.ite (fun _ => ?_) fun _ => returns_pure trivial
  exact (returns_release _).bind fun _ _ _ => returns_pure trivial

/-- **A stream can always be let go of.** -/
theorem returns_discard (s : HashStream) : Returns s.discard e fun _ _ => True := by
  unfold discard
  exact s.returns_letGo.bind fun _ _ _ => returns_pure trivial

end HashStream

/-! ## Taking in the message -/

namespace EngineM.Answering

variable [RegisterBlock ρ] {givesUp : Prop} (hJ : Answering givesUp J)

include hJ

theorem choosePath (h : J e) : Returns s.choosePath e fun _ e' => J e' := by
  refine Returns.ite (fun _ => ?_) fun _ => returns_pure h
  refine ((returns_acquire _).and_always (hJ.acquire _ h)).bind fun r e' he => ?_
  exact returns_pure he.2

theorem dispatch (bits? : Option (BitVec 128)) (h : J e) :
    Returns (s.dispatch bits?) e fun _ e' => J e' := by
  unfold HashStream.dispatch
  refine (hJ.choosePath h).bind fun r e' he => ?_
  obtain ⟨outcome, s'⟩ := r
  cases outcome with
  | error fault => exact returns_pure he
  | ok =>
    dsimp only
    cases s'.operation.mode with
    | hardware first =>
      refine ((hJ.submit _ _ he).and_always (hJ.toKept.submit _ _ he)).bind fun r e'' he => ?_
      exact returns_pure he.2
    | software =>
      dsimp only
      cases s'.chain.compress s'.algorithm (s'.bytesForSoftware bits?) with
      | ok chain => exact returns_pure he
      | error fault => exact returns_pure he
    | unsettled => exact returns_pure he
    | uncommitted => exact returns_pure he

theorem flush (bits? : Option (BitVec 128)) (h : J e) :
    Returns (s.flush bits?) e fun _ e' => J e' := by
  unfold HashStream.flush
  refine (hJ.dispatch bits? h).bind fun r e' he => ?_
  obtain ⟨outcome, s'⟩ := r
  cases outcome with
  | ok => exact returns_pure he
  | error fault => exact Returns.next (run_note _ _) (returns_pure (hJ.note he))

theorem absorbBytes (bytes : List UInt8) (h : J e) :
    Returns (s.absorbBytes bytes) e fun _ e' => J e' := by
  induction bytes generalizing s e with
  | nil => exact returns_pure h
  | cons byte rest ih =>
    unfold HashStream.absorbBytes
    refine Returns.ite (fun _ => ?_) fun _ => ih h
    refine (hJ.flush none h).bind fun r e' he => ?_
    obtain ⟨outcome, s'⟩ := r
    cases outcome with
    | ok => exact ih he
    | error fault => exact returns_pure he

theorem absorb (bytes : List UInt8) (h : J e) :
    Returns (s.absorb bytes) e fun _ e' => J e' :=
  Returns.ite (fun _ => returns_pure h) fun _ => hJ.absorbBytes bytes h

theorem absorbAll (parts : List (List UInt8)) (h : J e) :
    Returns (s.absorbAll parts) e fun _ e' => J e' := by
  induction parts generalizing s e with
  | nil => exact returns_pure h
  | cons part rest ih =>
    unfold HashStream.absorbAll
    refine (hJ.absorb part h).bind fun r e' he => ?_
    obtain ⟨outcome, s'⟩ := r
    cases outcome with
    | ok => exact ih he
    | error fault => exact returns_pure he

/-! ## Ending it -/

theorem collect (h : J e) : Returns (s.collect : EngineM ρ κ μ _) e
    fun outcome _ => outcome = .error .stillBusy → givesUp := by
  have hcut : ∀ bytes length, cutDigest bytes length = .error .stillBusy → givesUp := by
    intro bytes length
    unfold cutDigest
    split <;> (intro h; cases h)
  unfold HashStream.collect
  cases s.operation.mode with
  | hardware first =>
    refine (hJ.fetch _ _ h).bind fun r e' hready => ?_
    obtain ⟨outcome, words⟩ := r
    cases outcome with
    | ok => exact returns_pure (hcut _ _)
    | error fault => exact returns_pure fun heq => hready (by rw [Except.error.inj heq])
  | software => exact returns_pure (hcut _ _)
  | unsettled => exact returns_pure (by simp)
  | uncommitted => exact returns_pure (by simp)

theorem makeRoom (h : J e) : Returns s.makeRoom e fun _ e' => J e' := by
  refine Returns.ite (fun _ => ?_) fun _ => returns_pure h
  refine (hJ.flush none h).bind fun r e' he => ?_
  obtain ⟨outcome, s'⟩ := r
  cases outcome with
  | ok => exact returns_pure he
  | error fault => exact returns_pure he

theorem closeMessage (bits : BitVec 128) (h : J e) :
    Returns (s.closeMessage bits) e fun _ e' => J e' := by
  unfold HashStream.closeMessage
  split
  · exact hJ.flush _ h
  · exact hJ.flush _ h

theorem complete (h : J e) : Returns s.complete e fun _ _ => True := by
  unfold HashStream.complete
  refine (hJ.makeRoom h).bind fun r e' he => ?_
  obtain ⟨outcome, roomy⟩ := r
  cases outcome with
  | error fault => exact returns_pure trivial
  | ok =>
    refine (hJ.closeMessage _ he).bind fun r e'' he => ?_
    obtain ⟨outcome, closed⟩ := r
    cases outcome with
    | error fault => exact returns_pure trivial
    | ok =>
      refine (hJ.collect he).bind fun digest _ _ => ?_
      exact closed.returns_letGo.bind fun _ _ _ => returns_pure trivial

/-- **A message that is ended is answered.** -/
theorem finish (h : J e) : Returns s.finish e fun _ _ => True := by
  refine Returns.ite (fun _ => ?_) fun _ => ?_
  · exact s.returns_discard.bind fun _ _ _ => returns_pure trivial
  · refine (hJ.complete h).bind fun r _ _ => ?_
    exact r.2.returns_discard.bind fun _ _ _ => returns_pure trivial

end EngineM.Answering

end HashAccelerator
