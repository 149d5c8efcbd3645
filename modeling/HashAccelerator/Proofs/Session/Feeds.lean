import HashAccelerator.Proofs.Session.Course
import HashAccelerator.Proofs.Stream.Intake
/-!
# What the streams have been given

The past of a course tells what each stream has been given since it was started, and whether all of
it was taken (`Course.feedOf`). An account that a stream's own calls carry on holds of every stream
with what its past says it was given (`Course.Accounted`), as long as nobody else's steps spoil it:
that is the only thing to be shown of the others (`Course.Accounted.advance`).
-/

namespace HashAccelerator

open EngineM

variable {ρ κ μ : Type}

/-- What a stream has been given. -/
structure Feed where
  algorithm : Algorithm
  message : List UInt8 := []
  /-- All of it was taken. -/
  whole : Bool := true
  deriving DecidableEq

/-- The bytes that an `absorb` step gives to its stream: those of its parts. -/
def given (bytes : List UInt8) : Option Nat → List UInt8
  | none => bytes
  | some size => (pieces size bytes).flatten

/-- Parts of a size lose nothing. -/
theorem given_eq {partSize : Option Nat} (h : partSize ≠ some 0) (bytes : List UInt8) :
    given bytes partSize = bytes := by
  cases partSize with
  | none => rfl
  | some size =>
    have hsize : size ≠ 0 := by
      rintro rfl
      exact h rfl
    exact flatten_pieces (Nat.pos_of_ne_zero hsize) bytes

/-- How an `absorb` step gives them: at once, or part by part. -/
def HashStream.absorbParts [RegisterBlock ρ] [GatedClock κ] [EngineMutex μ] (s : HashStream)
    (bytes : List UInt8) : Option Nat → EngineM ρ κ μ (Except Fault Unit × HashStream)
  | none => s.absorb bytes
  | some size => s.absorbAll (pieces size bytes)

/-- A stream as its feed has it: with all of the message on its path and in its buffer, or failed
after something was not taken. -/
structure Served (P : Operation → Chain → List (List UInt8) → Engine ρ κ μ → Prop) (feed : Feed)
    (s : HashStream) (e : Engine ρ κ μ) : Prop where
  algorithm_eq : s.algorithm = feed.algorithm
  whole_eq : feed.whole = !s.failed
  fed : s.failed = false → s.Fed P feed.message e

/-- An account that begins with every new stream. -/
structure Account [RegisterBlock ρ] [GatedClock κ] [EngineMutex μ]
    (P : Operation → Chain → List (List UInt8) → Engine ρ κ μ → Prop)
    (Q : Operation → Fault → Engine ρ κ μ → Prop) : Prop extends Intake P Q where
  fresh : ∀ {algorithm e}, algorithm.unit?.isSome = true →
    P (.fresh algorithm) (.initial algorithm) [] e
  inSoftware : ∀ {algorithm e}, P (.softwareOnly algorithm) (.initial algorithm) [] e

namespace Course

/-- What one step does to what the stream of a name has been given. -/
def feedAfter (name : String) (feed? : Option Feed) : Step ρ μ × Answer → Option Feed
  | (.start other algorithm _, _) => if other = name then some { algorithm } else feed?
  | (.absorb other bytes partSize, .outcome outcome) =>
    if other = name then
      feed?.map fun feed => { feed with
        message := feed.message ++ given bytes partSize
        whole := feed.whole && outcome.isOk }
    else feed?
  | (.adopt other _, .done) | (.finish other, _) | (.cancel other, _) | (.discard other, _) =>
    if other = name then none else feed?
  | _ => feed?

/-- What the stream of a name has been given since it was started. A stream that was made from an
operation has no feed, since it may have been given blocks before it was a stream. -/
def feedOf (name : String) (past : List (Step ρ μ × Answer)) : Option Feed :=
  past.foldr (fun entry feed? => feedAfter name feed? entry) none

/-- A step of somebody else gives a stream nothing. -/
theorem feedOf_cons {name : String} {step : Step ρ μ} {answer : Answer}
    {past : List (Step ρ μ × Answer)} (h : ¬ step.Concerns (.stream name)) :
    feedOf name ((step, answer) :: past) = feedOf name past := by
  show feedAfter name (feedOf name past) (step, answer) = _
  cases step with
  | start other algorithm software => exact if_neg fun heq => h (by rw [heq]; rfl)
  | adopt other operation =>
    cases answer with
    | done => exact if_neg fun heq => h (Or.inl (by rw [heq]))
    | _ => rfl
  | absorb other bytes partSize =>
    cases answer with
    | outcome outcome => exact if_neg fun heq => h (by rw [heq]; rfl)
    | _ => rfl
  | finish other => exact if_neg fun heq => h (by rw [heq]; rfl)
  | cancel other => exact if_neg fun heq => h (by rw [heq]; rfl)
  | discard other => exact if_neg fun heq => h (by rw [heq]; rfl)
  | _ => rfl

/-- **Where a feed comes from**: it is as it was, or the stream is new, or it was given a part. -/
theorem exists_of_feedOf_cons {name : String} {feed : Feed} {step : Step ρ μ} {answer : Answer}
    {past : List (Step ρ μ × Answer)} (h : feedOf name ((step, answer) :: past) = some feed) :
    feedOf name past = some feed ∨ (∃ algorithm, feed = { algorithm }) ∨
      ∃ prior bytes partSize outcome, feedOf name past = some prior ∧
        step = .absorb name bytes partSize ∧ answer = .outcome outcome ∧
          feed = { prior with
            message := prior.message ++ given bytes partSize
            whole := prior.whole && outcome.isOk } := by
  have hafter : feedAfter name (feedOf name past) (step, answer) = some feed := h
  unfold feedAfter at hafter
  split at hafter
  · split at hafter
    · exact Or.inr (Or.inl ⟨_, (Option.some.inj hafter).symm⟩)
    · exact Or.inl hafter
  · next other bytes partSize outcome heq =>
    cases heq
    by_cases hother : other = name
    · rw [if_pos hother] at hafter
      obtain ⟨prior, hprior, rfl⟩ := Option.map_eq_some_iff.1 hafter
      exact Or.inr (Or.inr ⟨prior, bytes, partSize, outcome, hprior, by rw [hother], rfl, rfl⟩)
    · rw [if_neg hother] at hafter
      exact Or.inl hafter
  all_goals first
    | exact Or.inl hafter
    | split at hafter
      · cases hafter
      · exact Or.inl hafter

/-- Every stream with a feed is accounted for by it. -/
def Accounted (P : Operation → Chain → List (List UInt8) → Engine ρ κ μ → Prop)
    (c : Course ρ κ μ) : Prop :=
  ∀ name feed, feedOf name c.past = some feed →
    ∃ s, c.session.streams[name]? = some s ∧ Served P feed s c.engine

/-- The steps of others do not spoil a stream's account. -/
def Unspoilt (P : Operation → Chain → List (List UInt8) → Engine ρ κ μ → Prop)
    (c : Course ρ κ μ) (step : Step ρ μ) (e : Engine ρ κ μ) : Prop :=
  ∀ name s, ¬ step.Concerns (.stream name) → c.session.streams[name]? = some s →
    ∀ blocks, P s.operation s.chain blocks c.engine → P s.operation s.chain blocks e

end Course

/-! ## Steps -/

variable [RegisterBlock ρ] [GatedClock κ] [EngineMutex μ]
variable {P : Operation → Chain → List (List UInt8) → Engine ρ κ μ → Prop}
variable {Q : Operation → Fault → Engine ρ κ μ → Prop} {e : Engine ρ κ μ} {s : HashStream}
variable {feed : Feed}

omit [RegisterBlock ρ] [GatedClock κ] [EngineMutex μ] in
theorem Served.of_unspoilt {e' : Engine ρ κ μ} (h : Served P feed s e)
    (hsame : ∀ blocks, P s.operation s.chain blocks e → P s.operation s.chain blocks e') :
    Served P feed s e' where
  algorithm_eq := h.algorithm_eq
  whole_eq := h.whole_eq
  fed hsound := by
    obtain ⟨-, hlength, blocks, htook, hpath⟩ := h.fed hsound
    exact ⟨hsound, hlength, blocks, htook, hsame blocks hpath⟩

/-- A new stream has been given nothing. -/
theorem Account.served_new (hP : Account P Q) (algorithm : Algorithm) (software : Bool) :
    Served P { algorithm }
      (if software then .inSoftware algorithm else HashStream.start algorithm) e := by
  have hnew : ∀ a : Operation, a.algorithm = algorithm → P a (.initial algorithm) [] e →
      Served P { algorithm } (.ofOperation a) e := by
    rintro a rfl hpath
    exact ⟨rfl, rfl, fun _ => ⟨rfl, rfl, [], HashStream.took_nil rfl, hpath⟩⟩
  have hsoftware : Served P { algorithm } (.inSoftware algorithm) e :=
    hnew (.softwareOnly algorithm) rfl hP.inSoftware
  unfold HashStream.start
  split
  · exact hsoftware
  · split
    · next hunit => exact hnew (.fresh algorithm) rfl (hP.fresh hunit)
    · exact hsoftware

/-- The parts of an `absorb` step are taken in by a stream that has not failed. -/
theorem Intake.absorbParts {message : List UInt8} (hI : Intake P Q) (bytes : List UInt8)
    (partSize : Option Nat) (h : s.Fed P message e) :
    Always (s.absorbParts bytes partSize) e fun r e' =>
        r.2.algorithm = s.algorithm ∧
        match r.1 with
        | .ok () => r.2.Fed P (message ++ given bytes partSize) e'
        | .error fault => r.2.failed = true ∧ Q r.2.operation fault e' := by
  cases partSize with
  | none => exact hI.absorb bytes h
  | some size => exact hI.absorbAll _ h

/-- **A part that is taken joins the message**; one that is not makes the stream fail. -/
theorem Intake.served_absorb (hI : Intake P Q) (bytes : List UInt8) (partSize : Option Nat)
    (h : Served P feed s e) :
    Always (s.absorbParts bytes partSize) e fun r e' =>
        Served P { feed with
          message := feed.message ++ given bytes partSize
          whole := feed.whole && r.1.isOk } r.2 e' := by
  have hwhole := h.whole_eq
  by_cases hfailed : s.failed = true
  · -- it is as it was, and something was not taken before
    have hsame : ∀ outcome : Except Fault Unit, Served P { feed with
        message := feed.message ++ given bytes partSize
        whole := feed.whole && outcome.isOk } s e := by
      intro outcome
      refine ⟨h.algorithm_eq, ?_, fun hsound => by simp [hfailed] at hsound⟩
      rw [hwhole, hfailed]
      rfl
    cases partSize with
    | none =>
      rw [HashStream.absorbParts, HashStream.absorb_of_failed hfailed, always_pure]
      exact hsame _
    | some size =>
      rw [HashStream.absorbParts, HashStream.absorbAll_of_failed hfailed, always_pure]
      exact hsame _
  · rw [Bool.not_eq_true] at hfailed
    rw [hfailed] at hwhole
    refine (hI.absorbParts bytes partSize (h.fed hfailed)).mono fun r e' he => ?_
    obtain ⟨outcome, s'⟩ := r
    obtain ⟨halgorithm, hdone⟩ := he
    refine ⟨halgorithm.trans h.algorithm_eq, ?_, ?_⟩
    · cases outcome with
      | ok => rw [hwhole, hdone.sound]; rfl
      | error fault => rw [hwhole, hdone.1]; rfl
    · intro hsound
      cases outcome with
      | ok => exact hdone
      | error fault => exact absurd (hdone.1.symm.trans hsound) (by decide)

/-! ## Sessions -/

/-- A step that concerns no stream leaves the streams alone. -/
theorem Session.always_streams {session : Session ρ κ μ} {step : Step ρ μ}
    (h : ∀ name, ¬ step.Concerns (.stream name)) :
    Always (Session.step step) session fun _ s => s.streams = session.streams := by
  have hoperation : ∀ (name : String) (action : Operation → SessionM ρ κ μ (Answer × Operation)),
      (∀ a, Always (action a) session fun _ s => s.streams = session.streams) →
      Always (withOperation name action) session fun _ s => s.streams = session.streams :=
    fun name action haction => always_withOperation (fun _ => rfl) fun a _ => haction a
  cases step with
  | start name | absorb name | finish name | cancel name | discard name =>
    exact absurd rfl (h name)
  | adopt name operation => exact absurd (Or.inl rfl) (h name)
  | adjust name | acquire name | release name | settle name | submit name | fetch name =>
    refine hoperation name _ fun a => ?_
    simp only [always_bind, always_onEngine, always_pure, always_true]
  | copy source target =>
    simp only [Session.step, always_bind, always_get]
    cases session.operations[source]? with
    | none => simp
    | some a => simp [putOperation]
  | _ => simp [Session.step, putOperation]

namespace Course

variable {c : Course ρ κ μ} {step : Step ρ μ}

omit [RegisterBlock ρ] [GatedClock κ] [EngineMutex μ] in
/-- Where one stream at most has changed, only that one is to be accounted for anew. -/
theorem Accounted.change {answer : Answer} {session : Session ρ κ μ} {name : String}
    (h : Accounted P c) (hconcerns : ∀ other, step.Concerns (.stream other) → other = name)
    (helse : ∀ other, other ≠ name → session.streams[other]? = c.session.streams[other]?)
    (hself : ∀ feed, feedOf name ((step, answer) :: c.past) = some feed →
      ∃ s, session.streams[name]? = some s ∧ Served P feed s session.engine)
    (hunspoilt : Unspoilt P c step session.engine) : Accounted P (c.next step answer session) := by
  intro other feed hfeed
  -- the others' feeds and streams are what they were, and their accounts are not spoilt
  by_cases hother : other = name
  · subst hother
    exact hself feed hfeed
  · have hnot : ¬ step.Concerns (.stream other) := fun hconcerned => hother (hconcerns _ hconcerned)
    obtain ⟨s, hs, hserved⟩ := h other feed ((feedOf_cons hnot).symm.trans hfeed)
    refine ⟨s, (helse other hother).trans hs, hserved.of_unspoilt fun blocks hpath => ?_⟩
    exact hunspoilt other s hnot hs blocks hpath

omit [RegisterBlock ρ] [GatedClock κ] [EngineMutex μ] in
/-- A name without a stream has no feed, and a step that is not a start gives it none. -/
theorem Accounted.idle {answer : Answer} {name : String} (h : Accounted P c)
    (hconcerns : ∀ other, step.Concerns (.stream other) → other = name)
    (hnone : c.session.streams[name]? = none) (hafter : feedAfter name none (step, answer) = none)
    (hunspoilt : Unspoilt P c step c.session.engine) :
    Accounted P (c.next step answer c.session) := by
  refine h.change hconcerns (fun _ _ => rfl) (fun feed' hfeed' => ?_) hunspoilt
  cases hfeed : feedOf name c.past with
  | none =>
    have hunfed : feedOf name ((step, answer) :: c.past) = none := by
      rw [← hafter, ← hfeed]
      rfl
    rw [hunfed] at hfeed'
    cases hfeed'
  | some feed =>
    obtain ⟨s, hs, -⟩ := h name feed hfeed
    rw [hnone] at hs
    cases hs

omit [RegisterBlock ρ] [GatedClock κ] [EngineMutex μ] in
/-- A stream that has ended has no feed. -/
theorem Accounted.ended {answer : Answer} {name : String} (h : Accounted P c)
    (hconcerns : ∀ other, step.Concerns (.stream other) → other = name)
    (hafter : ∀ feed?, feedAfter name feed? (step, answer) = none)
    (hunspoilt : Unspoilt P c step e) : Accounted P (c.next step answer
      { c.session with engine := e, streams := c.session.streams.erase name }) := by
  refine h.change hconcerns (fun other hother => ?_) (fun feed hfeed => ?_) hunspoilt
  · simp [Std.TreeMap.getElem?_erase, Ne.symm hother]
  · rw [show feedOf name ((step, answer) :: c.past) = none from hafter _] at hfeed
    cases hfeed

/-- A stream that is put under a name is accounted for there, if it is one to be accounted for. -/
theorem Accounted.put {answer : Answer} {name : String} {new : HashStream}
    {operations : Std.TreeMap String Operation} (h : Accounted P c)
    (hconcerns : ∀ other, step.Concerns (.stream other) → other = name)
    (hnew : ∀ e feed, feedOf name ((step, answer) :: c.past) = some feed → Served P feed new e) :
    Always (Session.putStream name new) { c.session with operations } fun _ session =>
      Unspoilt P c step session.engine → Accounted P (c.next step answer session) := by
  have hput : ∀ e, Unspoilt P c step e → Accounted P (c.next step answer
      { engine := e, operations, streams := c.session.streams.insert name new }) := by
    intro e hunspoilt
    refine h.change hconcerns (fun other hother => ?_) (fun feed hfeed => ?_) hunspoilt
    · simp [Std.TreeMap.getElem?_insert, Ne.symm hother]
    · exact ⟨new, by simp, hnew e feed hfeed⟩
  refine Session.always_putStream (fun _ => hput _) fun former _ => ?_
  rw [Session.always_onEngine]
  exact fun _ e _ => hput e

/-- **A part changes the account of its own stream only.** -/
theorem Accounted.absorb (hI : Intake P Q) (h : Accounted P c) (name : String)
    (bytes : List UInt8) (partSize : Option Nat) :
    Always (Session.step (.absorb name bytes partSize)) c.session fun answer session =>
      Unspoilt P c (.absorb name bytes partSize) session.engine →
        Accounted P (c.next (.absorb name bytes partSize) answer session) := by
  have hconcerns : ∀ other, (Step.absorb name bytes partSize : Step ρ μ).Concerns (.stream other) →
      other = name := fun _ hconcerned => Place.stream.inj hconcerned
  refine Session.always_withStream (fun hnone => h.idle hconcerns hnone rfl) fun s hs => ?_
  simp only [always_bind, Session.always_onEngine, always_pure]
  refine fun r e hrun hunspoilt => h.change hconcerns (fun other hother => ?_)
    (fun feed' hfeed' => ?_) hunspoilt
  · simp [Std.TreeMap.getElem?_insert, Ne.symm hother]
  · -- its feed grows by the part, as the stream does
    have hafter : feedOf name ((.absorb name bytes partSize, .outcome r.1) :: c.past) =
        (feedOf name c.past).map fun feed => { feed with
          message := feed.message ++ given bytes partSize
          whole := feed.whole && r.1.isOk } := if_pos rfl
    rw [hafter] at hfeed'
    obtain ⟨feed, hfeed, rfl⟩ := Option.map_eq_some_iff.1 hfeed'
    obtain ⟨s', hs', hserved⟩ := h name feed hfeed
    obtain rfl : s = s' := Option.some.inj (hs.symm.trans hs')
    exact ⟨r.2, by simp, hI.served_absorb bytes partSize hserved _ _ hrun⟩

/-- A step that concerns no stream changes no account. -/
theorem Accounted.aside (h : Accounted P c) (hnot : ∀ name, ¬ step.Concerns (.stream name)) :
    Always (Session.step step) c.session fun answer session =>
      Unspoilt P c step session.engine → Accounted P (c.next step answer session) := by
  refine (Session.always_streams hnot).mono fun answer session hstreams hunspoilt name feed hfeed => ?_
  obtain ⟨s, hs, hserved⟩ := h name feed ((feedOf_cons (hnot name)).symm.trans hfeed)
  refine ⟨s, ?_, hserved.of_unspoilt fun blocks hpath => hunspoilt name s (hnot name) hs blocks hpath⟩
  rw [← hs, ← hstreams]
  rfl

/-- **Every stream with a feed stays accounted for**, whatever the step and whatever it answers, as
long as it does not spoil the account of a stream that it does not concern. -/
theorem Accounted.advance (hP : Account P Q) (h : Accounted P c) :
    Always (Session.step step) c.session fun answer session =>
      Unspoilt P c step session.engine → Accounted P (c.next step answer session) := by
  have hone : ∀ name other : String, Place.stream other = .stream name → other = name :=
    fun name other heq => Place.stream.inj heq
  cases step with
  | start name algorithm software =>
    simp only [Session.step, always_bind, always_pure]
    refine h.put (hone name) fun e feed hfeed => ?_
    have hfed : feedOf name ((.start name algorithm software, .done) :: c.past) =
        some { algorithm } := if_pos rfl
    obtain rfl := Option.some.inj (hfed.symm.trans hfeed)
    exact hP.served_new algorithm software
  | adopt name operation =>
    have hconcerns : ∀ other, (Step.adopt name operation : Step ρ μ).Concerns (.stream other) →
        other = name := by
      rintro other (hconcerned | hconcerned)
      · exact Place.stream.inj hconcerned
      · cases hconcerned
    simp only [Session.step, always_bind, always_get]
    cases hadopted : c.session.operations[operation]? with
    | none =>
      rw [always_pure]
      exact fun _ other feed hfeed => h other feed hfeed
    | some adopted =>
      -- what the operation has hashed before is nobody's message, so the stream has no feed
      simp only [always_bind, always_modify, always_pure]
      refine h.put hconcerns fun e feed hfeed => ?_
      have hunfed : feedOf name ((.adopt name operation, .done) :: c.past) = none := if_pos rfl
      rw [hunfed] at hfeed
      cases hfeed
  | absorb name bytes partSize => exact h.absorb hP.toIntake name bytes partSize
  | finish name =>
    refine Session.always_endStream (fun hnone => h.idle (hone name) hnone (if_pos rfl)) fun s _ => ?_
    simp only [always_bind, Session.always_onEngine, always_pure]
    exact fun _ e _ => h.ended (hone name) fun _ => if_pos rfl
  | cancel name =>
    refine Session.always_endStream (fun hnone => h.idle (hone name) hnone (if_pos rfl)) fun s _ => ?_
    simp only [always_bind, Session.always_onEngine, always_pure]
    exact fun _ e _ => h.ended (hone name) fun _ => if_pos rfl
  | discard name =>
    refine Session.always_endStream (fun hnone => h.idle (hone name) hnone (if_pos rfl)) fun s _ => ?_
    simp only [always_bind, Session.always_onEngine, always_pure]
    exact fun _ e _ => h.ended (hone name) fun _ => if_pos rfl
  | _ => exact h.aside fun _ hconcerned => by cases hconcerned

end Course

end HashAccelerator
