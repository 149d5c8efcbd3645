import HashAccelerator.Proofs.Coupled
/-!
# Two runs of one stream

A stream decides by its own state and by the answers of the calls it makes, and by nothing it sees of
the engine besides. So two engines that answer these calls alike, and are left related by them, take a
stream through the same life.
-/

namespace HashAccelerator

open EngineM

variable {ρ κ μ : Type} [RegisterBlock ρ] [GatedClock κ] [EngineMutex μ]
variable {R : Engine ρ κ μ → Engine ρ κ μ → Prop}

/-- The calls of an operation are answered alike by related engines. -/
structure CoupledCalls (R : Engine ρ κ μ → Engine ρ κ μ → Prop) : Prop where
  note : ∀ notice, Coupled R (EngineM.note notice) R
  acquire : ∀ a, Coupled R (EngineM.acquire a) R
  submit : ∀ a words, Coupled R (EngineM.submit a words) R
  fetch : ∀ a out, Coupled R (EngineM.fetch a out) R
  release : ∀ a, Coupled R (EngineM.release a) R

namespace CoupledCalls

variable (hR : CoupledCalls R) (s : HashStream)

include hR

/-! ## Blocks -/

theorem choosePath : Coupled R s.choosePath R :=
  Coupled.ite ((hR.acquire _).map _) (coupled_pure _)

theorem dispatch (bits? : Option (BitVec 128)) : Coupled R (s.dispatch bits?) R := by
  unfold HashStream.dispatch
  refine (hR.choosePath s).bind fun r => ?_
  obtain ⟨outcome, s⟩ := r
  cases outcome with
  | error fault => exact coupled_pure _
  | ok =>
    dsimp only
    cases s.operation.mode with
    | hardware first => exact (hR.submit _ _).map _
    | software =>
      dsimp only
      cases s.chain.compress s.algorithm (s.bytesForSoftware bits?) with
      | ok chain => exact coupled_pure _
      | error fault => exact coupled_pure _
    | unsettled => exact coupled_pure _
    | uncommitted => exact coupled_pure _

theorem flush (bits? : Option (BitVec 128)) : Coupled R (s.flush bits?) R := by
  unfold HashStream.flush
  refine (hR.dispatch s bits?).bind fun r => ?_
  obtain ⟨outcome, s⟩ := r
  cases outcome with
  | ok => exact coupled_pure _
  | error fault => exact (hR.note _).map _

/-! ## The message -/

theorem absorbBytes (bytes : List UInt8) : Coupled R (s.absorbBytes bytes) R := by
  induction bytes generalizing s with
  | nil => exact coupled_pure _
  | cons byte rest ih =>
    unfold HashStream.absorbBytes
    refine Coupled.ite ((hR.flush _ none).bind fun r => ?_) (ih _)
    obtain ⟨outcome, s⟩ := r
    cases outcome with
    | ok => exact ih _
    | error fault => exact coupled_pure _

theorem absorb (bytes : List UInt8) : Coupled R (s.absorb bytes) R :=
  Coupled.ite (coupled_pure _) (hR.absorbBytes _ bytes)

theorem absorbAll (parts : List (List UInt8)) : Coupled R (s.absorbAll parts) R := by
  induction parts generalizing s with
  | nil => exact coupled_pure _
  | cons part rest ih =>
    unfold HashStream.absorbAll
    refine (hR.absorb s part).bind fun r => ?_
    obtain ⟨outcome, s⟩ := r
    cases outcome with
    | ok => exact ih s
    | error fault => exact coupled_pure _

/-! ## Its end -/

theorem letGo : Coupled R s.letGo R :=
  Coupled.ite ((hR.release _).map _) (coupled_pure _)

theorem discard : Coupled R s.discard R := (hR.letGo s).map _

theorem cancel : Coupled R s.cancel R := (hR.letGo s).bind fun s => hR.discard s

theorem collect : Coupled R s.collect R := by
  unfold HashStream.collect
  cases s.operation.mode with
  | hardware first => exact (hR.fetch _ _).map _
  | software => exact coupled_pure _
  | unsettled => exact coupled_pure _
  | uncommitted => exact coupled_pure _

theorem makeRoom : Coupled R s.makeRoom R := by
  refine Coupled.ite ((hR.flush _ none).bind fun r => ?_) (coupled_pure _)
  obtain ⟨outcome, s⟩ := r
  cases outcome with
  | ok => exact coupled_pure _
  | error fault => exact coupled_pure _

theorem closeMessage (bits : BitVec 128) : Coupled R (s.closeMessage bits) R := by
  unfold HashStream.closeMessage
  split
  · exact hR.flush _ _
  · exact hR.flush _ _

theorem complete : Coupled R s.complete R := by
  unfold HashStream.complete
  refine (hR.makeRoom _).bind fun r => ?_
  obtain ⟨outcome, roomy⟩ := r
  cases outcome with
  | error fault => exact coupled_pure _
  | ok =>
    refine (hR.closeMessage _ _).bind fun r => ?_
    obtain ⟨outcome, closed⟩ := r
    cases outcome with
    | error fault => exact coupled_pure _
    | ok => exact (hR.collect closed).bind fun digest => (hR.letGo closed).map _

theorem finish : Coupled R s.finish R := by
  refine Coupled.ite ((hR.discard s).map _) ((hR.complete s).bind fun r => ?_)
  exact (hR.discard r.2).map _

/-- **A whole life** is the same on both sides. -/
theorem digest (algorithm : Algorithm) (message : List UInt8) :
    Coupled R (EngineM.digest algorithm message) R := by
  unfold EngineM.digest
  refine (hR.absorb _ message).bind fun r => ?_
  obtain ⟨outcome, s⟩ := r
  cases outcome with
  | ok => exact hR.finish s
  | error fault => exact (hR.discard s).map _

end CoupledCalls

end HashAccelerator
