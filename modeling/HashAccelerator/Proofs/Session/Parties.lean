import HashAccelerator.Proofs.Session.Course
import HashAccelerator.Proofs.Stream.Kept
/-!
# What every party keeps

The operations of a session, those in its streams included, meet nowhere but on the engine. So a
property of one operation and the history that no later event ends holds of all of them
(`Session.Everyone`) as soon as each operation's own calls keep it, together with whatever of the
engine they need for it (`KeptByUse`); and the calls of a session are then kept throughout
(`Session.always_call`).

A digest is read from the engine by few steps, each for an algorithm that is known beforehand
(`Step.Reads`). What only the reading keeps has to be shown of these algorithms alone.
-/

namespace HashAccelerator

open EngineM

variable {ρ κ μ : Type}

/-! ## Everyone -/

/-- Each operation and each stream of the session is as the history allows. -/
structure Session.Everyone (p : Operation → List Event → Prop) (s : Session ρ κ μ) : Prop where
  operation : ∀ {name : String} {a : Operation}, s.operations[name]? = some a → p a s.engine.history
  stream : ∀ {name : String} {t : HashStream}, s.streams[name]? = some t →
    p t.operation s.engine.history

namespace Session.Everyone

variable {p : Operation → List Event → Prop} {s : Session ρ κ μ}

/-- Nobody minds that the history grows. -/
theorem grown {e : Engine ρ κ μ} (h : s.Everyone p)
    (hmono : ∀ {a older newer}, p a older → older <:+ newer → p a newer)
    (hgrown : s.engine.history <:+ e.history) : Everyone p { s with engine := e } where
  operation ha := hmono (h.operation ha) hgrown
  stream ht := hmono (h.stream ht) hgrown

theorem insertOperation {a : Operation} (h : s.Everyone p) (name : String)
    (ha : p a s.engine.history) :
    Everyone p { s with operations := s.operations.insert name a } where
  operation hb := by
    rw [Std.TreeMap.getElem?_insert] at hb
    split at hb
    · cases hb
      exact ha
    · exact h.operation hb
  stream ht := h.stream ht

theorem eraseOperation (h : s.Everyone p) (name : String) :
    Everyone p { s with operations := s.operations.erase name } where
  operation hb := by
    rw [Std.TreeMap.getElem?_erase] at hb
    split at hb
    · cases hb
    · exact h.operation hb
  stream ht := h.stream ht

theorem insertStream {t : HashStream} (h : s.Everyone p) (name : String)
    (ht : p t.operation s.engine.history) :
    Everyone p { s with streams := s.streams.insert name t } where
  operation ha := h.operation ha
  stream hu := by
    rw [Std.TreeMap.getElem?_insert] at hu
    split at hu
    · cases hu
      exact ht
    · exact h.stream hu

theorem eraseStream (h : s.Everyone p) (name : String) :
    Everyone p { s with streams := s.streams.erase name } where
  operation ha := h.operation ha
  stream hu := by
    rw [Std.TreeMap.getElem?_erase] at hu
    split at hu
    · cases hu
    · exact h.stream hu

/-- Nobody is there yet. -/
theorem ofEngine (engine : Engine ρ κ μ) : (Session.ofEngine engine).Everyone p where
  operation ha := by simp [Session.ofEngine] at ha
  stream ht := by simp [Session.ofEngine] at ht

end Session.Everyone

variable [RegisterBlock ρ] [GatedClock κ] [EngineMutex μ]

/-! ## Use of the engine -/

/-- What the use of the engine keeps: of the operation that uses it, which answers to the history
only, and of the engine. Digests are read for the given algorithms. -/
structure KeptByUse (reads : Algorithm → Prop) (p : Operation → List Event → Prop)
    (K : Engine ρ κ μ → Prop) : Prop where
  mono : ∀ {a older newer}, p a older → older <:+ newer → p a newer
  fresh : ∀ {algorithm history}, p (.fresh algorithm) history
  softwareOnly : ∀ {algorithm history}, p (.softwareOnly algorithm) history
  note : ∀ {e n}, K e → K { e with notices := n :: e.notices }
  acquire : ∀ {a e}, p a e.history → K e →
    Always (EngineM.acquire a) e fun r e' => p r.2 e'.history ∧ K e'
  submit : ∀ {a e} words, p a e.history → K e →
    Always (EngineM.submit a words) e fun r e' => p r.2 e'.history ∧ K e'
  fetch : ∀ {a e} out, reads a.algorithm → p a e.history → K e →
    Always (EngineM.fetch a out) e fun _ e' => K e'
  release : ∀ {a e}, p a e.history → K e →
    Always (EngineM.release a) e fun a' e' => p a' e'.history ∧ K e'
  settle : ∀ {a e}, p a e.history → K e →
    Always (EngineM.settle a) e fun r e' => p r.2 e'.history ∧ K e'

namespace KeptByUse

variable {reads : Algorithm → Prop} {p : Operation → List Event → Prop} {K : Engine ρ κ μ → Prop}
variable (hU : KeptByUse reads p K)

include hU

/-- What is kept besides stays on top of the past. -/
theorem since (past : List Event) : KeptByUse reads p fun e => K e ∧ past <:+ e.history where
  mono := hU.mono
  fresh := hU.fresh
  softwareOnly := hU.softwareOnly
  note h := ⟨hU.note h.1, h.2⟩
  acquire ha h := ((hU.acquire ha h.1).and ((kept_suffix past).acquire _ h.2)).mono
    fun _ _ hr => ⟨hr.1.1, hr.1.2, hr.2⟩
  submit words ha h := ((hU.submit words ha h.1).and ((kept_suffix past).submit _ words h.2)).mono
    fun _ _ hr => ⟨hr.1.1, hr.1.2, hr.2⟩
  fetch out hreads ha h := (hU.fetch out hreads ha h.1).and ((kept_suffix past).fetch _ out h.2)
  release ha h := ((hU.release ha h.1).and ((kept_suffix past).release _ h.2)).mono
    fun _ _ hr => ⟨hr.1.1, hr.1.2, hr.2⟩
  settle ha h := ((hU.settle ha h.1).and ((kept_suffix past).settle _ h.2)).mono
    fun _ _ hr => ⟨hr.1.1, hr.1.2, hr.2⟩

/-- A stream that takes in its message uses the engine, and reads nothing from it. -/
theorem blocks : KeptByBlocks fun a e => p a e.history ∧ K e where
  note h := ⟨h.1, hU.note h.2⟩
  acquire h := hU.acquire h.1 h.2
  submit words h := hU.submit words h.1 h.2

/-- A stream that ends reads a digest of its own algorithm. -/
theorem calls : KeptByCalls fun a e => reads a.algorithm ∧ p a e.history ∧ K e where
  note h := ⟨h.1, h.2.1, hU.note h.2.2⟩
  acquire h := ((acquired_acquire _).and (hU.acquire h.2.1 h.2.2)).mono fun r e he =>
    ⟨he.1.algorithm_eq ▸ h.1, he.2⟩
  submit words h := ((submitted_submit _ words rfl).and (hU.submit words h.2.1 h.2.2)).mono
    fun r e he => ⟨he.1.algorithm_eq ▸ h.1, he.2⟩
  fetch out h := ((hU.fetch out h.1 h.2.1 h.2.2).and ((kept_suffix _).fetch _ out
    (List.suffix_refl _))).mono fun r e he => ⟨h.1, hU.mono h.2.1 he.2, he.1⟩
  release h := ((always_release _).and (hU.release h.2.1 h.2.2)).mono fun r e he =>
    ⟨by rw [he.1]; exact h.1, he.2⟩

theorem start {algorithm : Algorithm} {history : List Event} :
    p (HashStream.start algorithm).operation history := by
  unfold HashStream.start
  split
  · exact hU.fresh
  · exact hU.softwareOnly

/-- One that is let go of reads nothing. -/
theorem discard {s : HashStream} {e : Engine ρ κ μ} (hs : p s.operation e.history) (h : K e) :
    Always s.discard e fun _ e' => K e' := by
  refine (HashStream.always_discard (J := fun a e => p a e.history ∧ K e)
    (fun _ hkept => hU.release hkept.1 hkept.2) ⟨hs, h⟩).mono fun _ e' he => ?_
  obtain ⟨a, hkept, -⟩ := he
  exact hkept.2

theorem cancel {s : HashStream} {e : Engine ρ κ μ} (hs : p s.operation e.history) (h : K e) :
    Always s.cancel e fun _ e' => K e' := by
  simp only [HashStream.cancel, always_bind]
  exact (HashStream.always_letGo (J := fun a e => p a e.history ∧ K e)
    (fun _ hkept => hU.release hkept.1 hkept.2) ⟨hs, h⟩).mono fun _ e' he => hU.discard he.1.1 he.1.2

theorem finish {s : HashStream} {e : Engine ρ κ μ} (hreads : reads s.algorithm)
    (hs : p s.operation e.history) (h : K e) : Always s.finish e fun _ e' => K e' := by
  refine (hU.calls.finish ⟨hreads, hs, h⟩).mono fun _ e' he => ?_
  obtain ⟨a, ⟨-, -, hkept⟩, -⟩ := he
  exact hkept

theorem digest {e : Engine ρ κ μ} (algorithm : Algorithm) (message : List UInt8)
    (hreads : reads algorithm) (h : K e) :
    Always (EngineM.digest algorithm message) e fun _ e' => K e' := by
  have hstart : reads (HashStream.start algorithm).operation.algorithm := by
    rwa [HashStream.algorithm_start]
  refine (hU.calls.digest algorithm message ⟨hstart, hU.start, h⟩).mono fun _ e' he => ?_
  obtain ⟨a, ⟨-, -, hkept⟩, -⟩ := he
  exact hkept

end KeptByUse

/-! ## Calls of a session -/

/-- A step may read a digest of an algorithm from the engine. -/
inductive Step.Reads (session : Session ρ κ μ) : Step ρ μ → Algorithm → Prop
  | fetch {name : String} {out} {a : Operation} : session.operations[name]? = some a →
      Reads session (.fetch name out) a.algorithm
  | finish {name : String} {t : HashStream} : session.streams[name]? = some t →
      Reads session (.finish name) t.algorithm
  | digest {algorithm message} : Reads session (.digest algorithm message) algorithm
  | selfTest {capacity} (algorithm) : Reads session (.selfTest capacity) algorithm

/-- **What the use of the engine keeps, the calls of a session keep**, of everybody. -/
theorem Session.always_call {reads : Algorithm → Prop} {p : Operation → List Event → Prop}
    {K : Engine ρ κ μ → Prop} {session : Session ρ κ μ} {step : Step ρ μ}
    (hU : KeptByUse reads p K) (hcall : step.IsCall)
    (hreads : ∀ algorithm, step.Reads session algorithm → reads algorithm)
    (heveryone : session.Everyone p) (h : K session.engine) :
    Always (Session.step step) session fun _ s => s.Everyone p ∧ K s.engine := by
  -- whoever takes the step finds the others as they are, and leaves them a longer history
  have hS := hU.since session.engine.history
  have hkept : K session.engine ∧ session.engine.history <:+ session.engine.history :=
    ⟨h, List.suffix_refl _⟩
  have hgrown : ∀ {e : Engine ρ κ μ}, session.engine.history <:+ e.history →
      Everyone p { session with engine := e } := fun hgrown => heveryone.grown hU.mono hgrown
  have hput : ∀ {s : Session ρ κ μ} (name : String) {new : HashStream}, s.Everyone p →
      K s.engine → p new.operation s.engine.history →
      Always (Session.putStream name new) s fun _ s' => s'.Everyone p ∧ K s'.engine := by
    intro s name new hs hK hnew
    refine Session.always_putStream (fun _ => ⟨hs.insertStream name hnew, hK⟩) fun former hformer => ?_
    rw [Session.always_onEngine]
    refine ((hU.since s.engine.history).discard (hs.stream hformer) ⟨hK, List.suffix_refl _⟩).mono
      fun _ e he => ⟨(hs.insertStream name hnew).grown hU.mono he.2, he.1⟩
  cases step with
  | create name algorithm software =>
    simp only [Session.step, Session.putOperation, always_bind, always_modify, always_pure]
    refine ⟨heveryone.insertOperation name ?_, h⟩
    split
    · exact hU.softwareOnly
    · exact hU.fresh
  | acquire name =>
    refine Session.always_withOperation (fun _ => ⟨heveryone, h⟩) fun a ha => ?_
    simp only [always_bind, Session.always_onEngine, always_pure]
    exact (hS.acquire (heveryone.operation ha) hkept).mono fun r e he =>
      ⟨(hgrown he.2.2).insertOperation name he.1, he.2.1⟩
  | release name =>
    refine Session.always_withOperation (fun _ => ⟨heveryone, h⟩) fun a ha => ?_
    simp only [always_bind, Session.always_onEngine, always_pure]
    exact (hS.release (heveryone.operation ha) hkept).mono fun a' e he =>
      ⟨(hgrown he.2.2).insertOperation name he.1, he.2.1⟩
  | settle name =>
    refine Session.always_withOperation (fun _ => ⟨heveryone, h⟩) fun a ha => ?_
    simp only [always_bind, Session.always_onEngine, always_pure]
    exact (hS.settle (heveryone.operation ha) hkept).mono fun r e he =>
      ⟨(hgrown he.2.2).insertOperation name he.1, he.2.1⟩
  | submit name words =>
    refine Session.always_withOperation (fun _ => ⟨heveryone, h⟩) fun a ha => ?_
    simp only [always_bind, Session.always_onEngine, always_pure]
    exact (hS.submit words (heveryone.operation ha) hkept).mono fun r e he =>
      ⟨(hgrown he.2.2).insertOperation name he.1, he.2.1⟩
  | fetch name out =>
    refine Session.always_withOperation (fun _ => ⟨heveryone, h⟩) fun a ha => ?_
    simp only [always_bind, Session.always_onEngine, always_pure]
    have ha' := heveryone.operation ha
    exact (hS.fetch out (hreads _ (.fetch ha)) ha' hkept).mono fun r e he =>
      ⟨(hgrown he.2).insertOperation name (hU.mono ha' he.2), he.1⟩
  | start name algorithm software =>
    simp only [Session.step, always_bind, always_pure]
    refine hput name heveryone h ?_
    split
    · exact hU.softwareOnly
    · exact hU.start
  | adopt name operation =>
    simp only [Session.step, always_bind, always_get]
    cases ha : session.operations[operation]? with
    | none => exact always_pure.2 ⟨heveryone, h⟩
    | some a =>
      simp only [always_bind, always_modify, always_pure]
      exact hput name (heveryone.eraseOperation operation) h (heveryone.operation ha)
  | absorb name bytes partSize =>
    refine Session.always_withStream (fun _ => ⟨heveryone, h⟩) fun t ht => ?_
    simp only [always_bind, Session.always_onEngine, always_pure]
    have ht' := heveryone.stream ht
    cases partSize with
    | none =>
      exact (hS.blocks.absorb bytes ⟨ht', hkept⟩).mono fun r e he =>
        ⟨(hgrown he.2.2).insertStream name he.1, he.2.1⟩
    | some size =>
      exact (hS.blocks.absorbAll _ ⟨ht', hkept⟩).mono fun r e he =>
        ⟨(hgrown he.2.2).insertStream name he.1, he.2.1⟩
  | finish name =>
    refine Session.always_endStream (fun _ => ⟨heveryone, h⟩) fun t ht => ?_
    simp only [always_bind, Session.always_onEngine, always_pure]
    exact (hS.finish (hreads _ (.finish ht)) (heveryone.stream ht) hkept).mono fun _ e he =>
      ⟨(hgrown he.2).eraseStream name, he.1⟩
  | cancel name =>
    refine Session.always_endStream (fun _ => ⟨heveryone, h⟩) fun t ht => ?_
    simp only [always_bind, Session.always_onEngine, always_pure]
    exact (hS.cancel (heveryone.stream ht) hkept).mono fun _ e he =>
      ⟨(hgrown he.2).eraseStream name, he.1⟩
  | discard name =>
    refine Session.always_endStream (fun _ => ⟨heveryone, h⟩) fun t ht => ?_
    simp only [always_bind, Session.always_onEngine, always_pure]
    exact (hS.discard (heveryone.stream ht) hkept).mono fun _ e he =>
      ⟨(hgrown he.2).eraseStream name, he.1⟩
  | digest algorithm message =>
    simp only [Session.step, always_bind, Session.always_onEngine, always_pure]
    exact (hS.digest algorithm message (hreads algorithm .digest) hkept).mono fun _ e he =>
      ⟨hgrown he.2, he.1⟩
  | _ => exact hcall.elim

end HashAccelerator
