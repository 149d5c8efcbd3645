import HashAccelerator.Proofs.Session.Custody
/-!
# The parties' steps

Each step of a session is a matter of one party, whose calls keep the custody of the mutex; so every
step keeps the session in order (`Course.InOrder.call`), and with it whatever else the parties' calls
keep of the engine (`Course.KeptByParties`).

What comes with it is the frame that everything about registers rests on: while a place holds the
mutex, no step that does not concern it changes a register (`Course.Follows.untouched`).
-/

namespace HashAccelerator

open EngineM

variable {ρ κ μ : Type}

namespace Course

variable {c c' : Course ρ κ μ} {p : Place} {a : Operation}
variable {K : Engine ρ κ μ → Prop}

/-- A party at work on the engine: it is a party, and what has to be kept is kept. -/
def Tended (K : Engine ρ κ μ → Prop) (c : Course ρ κ μ) (p : Place) (a : Operation)
    (e : Engine ρ κ μ) : Prop :=
  (Party (c.Others p) c.engine.registers a e ∧ K e) ∧ c.engine.history <:+ e.history

section Calls

variable [RegisterBlock ρ] [GatedClock κ] [EngineMutex μ]

/-- What no call of a party changes of the engine, as long as the party is one. -/
structure KeptByParties (K : Engine ρ κ μ → Prop) : Prop where
  calls : ∀ others block, KeptByCalls fun a e => Party others block a e ∧ K e
  settle : ∀ {others : Prop} {block a e}, Party others block a e → K e →
    Always (EngineM.settle a) e fun r e' =>
      (Party others block r.2 e' ∧ r.2.holdsMutex = false) ∧ K e'

/-- What no call at all changes, no party changes. -/
theorem KeptByParties.of_kept (hK : Kept K) : KeptByParties K where
  calls _ _ := keptByCalls_party.and hK.calls
  settle hparty hkept := hparty.settle.and (hK.settle _ hkept)

theorem KeptByParties.tended (hK : KeptByParties K) (c : Course ρ κ μ) (p : Place) :
    KeptByCalls (Tended K c p) :=
  (hK.calls _ _).and (kept_suffix c.engine.history).calls

end Calls

/-! ## What a step leaves -/

/-- What a step leaves that concerns some places only. -/
structure Follows (K : Engine ρ κ μ → Prop) (c : Course ρ κ μ) (concerned : Place → Prop)
    (c' : Course ρ κ μ) : Prop where
  inOrder : c'.InOrder
  kept : K c'.engine
  grown : c.engine.history <:+ c'.engine.history
  /-- Nobody reaches the registers while another party holds the mutex. -/
  untouched : Exclusive c'.engine.history → ∀ q, ¬ concerned q → c.Holds q →
    c'.engine.registers = c.engine.registers

variable {concerned : Place → Prop}

/-- A step that does nothing. -/
theorem InOrder.idle (h : c.InOrder) (hkept : K c.engine) (hengine : c'.engine = c.engine)
    (hparties : ∀ q, c'.party? q = c.party? q) : Follows K c concerned c' where
  inOrder := h.quiet (Or.inl (by rw [hengine])) hparties
  kept := hengine ▸ hkept
  grown := hengine ▸ List.suffix_rfl
  untouched _ _ _ _ := by rw [hengine]

/-- A step that a party has taken. -/
theorem InOrder.acted (h : c.InOrder) (hact : Tended K c p a c'.engine)
    (helse : ∀ q, q ≠ p → c'.party? q = c.party? q)
    (hp : c'.party? p = some a ∨ c'.party? p = none ∧ a.holdsMutex = false)
    (hconcerned : ∀ q, c.Holds q → ¬ concerned q → q ≠ p) : Follows K c concerned c' where
  inOrder := h.update hact.2 hact.1.1 helse hp
  kept := hact.1.2
  grown := hact.2
  untouched hexclusive q hq hholds := by
    obtain ⟨-, -, hblock⟩ := hact.1.1.2 hexclusive
    exact hblock ⟨q, hconcerned q hholds hq, hholds⟩

/-- A step that moves nobody leaves every party where it is. -/
theorem party?_next {step : Step ρ μ} {s : Session ρ κ μ} (answer : Answer)
    (hnone : step.displaced? c.session = none) (hoperations : s.operations = c.session.operations)
    (hstreams : s.streams = c.session.streams) (q : Place) :
    (c.next step answer s).party? q = c.party? q := by
  cases q <;> simp [party?, next, hnone, hoperations, hstreams]

/-! ## Kinds of calls -/

/-- A step with the operation of a name. -/
theorem InOrder.operate (h : c.InOrder) (hkept : K c.engine) (step : Step ρ μ) {name : String}
    (hconcerns : step.Concerns (.operation name)) (hnone : step.displaced? c.session = none)
    {action : Operation → SessionM ρ κ μ (Answer × Operation)}
    (haction : ∀ a, Tended K c (.operation name) a c.engine → Always (action a) c.session fun r s =>
      ∃ e, s = { c.session with engine := e } ∧ Tended K c (.operation name) r.2 e) :
    Always (Session.withOperation name action) c.session fun answer s =>
      Follows K c step.Concerns (c.next step answer s) := by
  refine Session.always_withOperation (fun _ => ?_) fun a ha => ?_
  · exact h.idle hkept rfl (party?_next _ hnone rfl rfl)
  · have hparty : c.party? (.operation name) = some a := ha
    refine (haction a ⟨⟨h.party hparty, hkept⟩, List.suffix_rfl⟩).mono fun r s hs => ?_
    obtain ⟨e, rfl, htended⟩ := hs
    refine h.acted htended (fun q hq => ?_) (Or.inl ?_) fun q _ hq hqp => hq (hqp ▸ hconcerns)
    · cases q with
      | operation other =>
        have hne : name ≠ other := fun heq => hq (by rw [heq])
        simp [party?, next, Std.TreeMap.getElem?_insert, hne]
      | stream other => rfl
      | lost index => simp [party?, next, hnone]
    · simp [party?, next]

/-- A step with the stream of a name. -/
theorem InOrder.stream (h : c.InOrder) (hkept : K c.engine) (step : Step ρ μ) {name : String}
    (hconcerns : step.Concerns (.stream name)) (hnone : step.displaced? c.session = none)
    {action : HashStream → SessionM ρ κ μ (Answer × HashStream)}
    (haction : ∀ s, Tended K c (.stream name) s.operation c.engine →
      Always (action s) c.session fun r s' =>
        ∃ e, s' = { c.session with engine := e } ∧ Tended K c (.stream name) r.2.operation e) :
    Always (Session.withStream name action) c.session fun answer s =>
      Follows K c step.Concerns (c.next step answer s) := by
  refine Session.always_withStream (fun _ => ?_) fun s hs => ?_
  · exact h.idle hkept rfl (party?_next _ hnone rfl rfl)
  · have hparty : c.party? (.stream name) = some s.operation := by simp [party?, hs]
    refine (haction s ⟨⟨h.party hparty, hkept⟩, List.suffix_rfl⟩).mono fun r s' hs' => ?_
    obtain ⟨e, rfl, htended⟩ := hs'
    refine h.acted htended (fun q hq => ?_) (Or.inl ?_) fun q _ hq hqp => hq (hqp ▸ hconcerns)
    · cases q with
      | operation other => rfl
      | stream other =>
        have hne : name ≠ other := fun heq => hq (by rw [heq])
        simp [party?, next, Std.TreeMap.getElem?_insert, hne]
      | lost index => simp [party?, next, hnone]
    · simp [party?, next]

/-- A step that ends the stream of a name. -/
theorem InOrder.ending (h : c.InOrder) (hkept : K c.engine) (step : Step ρ μ) {name : String}
    (hconcerns : step.Concerns (.stream name)) (hnone : step.displaced? c.session = none)
    {action : HashStream → SessionM ρ κ μ Answer}
    (haction : ∀ s, Tended K c (.stream name) s.operation c.engine →
      Always (action s) { c.session with streams := c.session.streams.erase name } fun _ s' =>
        ∃ e, s' = { c.session with engine := e, streams := c.session.streams.erase name } ∧
          ∃ a, Tended K c (.stream name) a e ∧ a.holdsMutex = false) :
    Always (Session.endStream name action) c.session fun answer s =>
      Follows K c step.Concerns (c.next step answer s) := by
  refine Session.always_endStream (fun _ => ?_) fun s hs => ?_
  · exact h.idle hkept rfl (party?_next _ hnone rfl rfl)
  · have hparty : c.party? (.stream name) = some s.operation := by simp [party?, hs]
    refine (haction s ⟨⟨h.party hparty, hkept⟩, List.suffix_rfl⟩).mono fun answer s' hs' => ?_
    obtain ⟨e, rfl, a, htended, hnot⟩ := hs'
    refine h.acted htended (fun q hq => ?_) (Or.inr ⟨?_, hnot⟩) fun q _ hq hqp =>
      hq (hqp ▸ hconcerns)
    · cases q with
      | operation other => rfl
      | stream other =>
        have hne : name ≠ other := fun heq => hq (by rw [heq])
        simp [party?, next, Std.TreeMap.getElem?_erase, hne]
      | lost index => simp [party?, next, hnone]
    · simp [party?, next]

/-- A party that comes and goes within a step. -/
theorem InOrder.passing (h : c.InOrder) (hkept : K c.engine) (step : Step ρ μ)
    (hnone : step.displaced? c.session = none) {action : SessionM ρ κ μ Answer} {a : Operation}
    (ha : a.Standing) (hfree : a.holdsMutex = false)
    (haction : Tended K c c.nextLost a c.engine → Always action c.session fun _ s =>
      ∃ e, s = { c.session with engine := e } ∧
        ∃ a', Tended K c c.nextLost a' e ∧ a'.holdsMutex = false) :
    Always action c.session fun answer s => Follows K c step.Concerns (c.next step answer s) := by
  have hparty := h.newcomer party?_nextLost ha hfree
  refine (haction ⟨⟨hparty, hkept⟩, List.suffix_rfl⟩).mono fun answer s hs => ?_
  obtain ⟨e, rfl, a', htended, hnot⟩ := hs
  refine h.acted htended (fun q _ => ?_) (Or.inr ⟨?_, hnot⟩) fun q hholds _ hq => ?_
  · exact party?_next answer hnone rfl rfl q
  · simp [party?, next, hnone, nextLost]
  · exact not_holds_of_none party?_nextLost (hq ▸ hholds)

/-! ## Newcomers -/

/-- One more lost operation is found behind the others. -/
theorem lost_append (lost : List Operation) (former : Option Operation) :
    (lost ++ former.toList)[lost.length]? = former := by
  cases former <;> simp

theorem lost_append_of_ne {lost : List Operation} (former : Option Operation) {index : Nat}
    (h : index ≠ lost.length) : (lost ++ former.toList)[index]? = lost[index]? := by
  rw [List.getElem?_append]
  split
  · rfl
  · have hlength : former.toList.length ≤ 1 := by cases former <;> simp
    rw [List.getElem?_eq_none (by omega), List.getElem?_eq_none (by omega)]

/-- A new operation, by which another may lose its name. -/
theorem InOrder.created (h : c.InOrder) (hkept : K c.engine) {name : String} {step : Step ρ μ}
    (hlost : step.displaced? c.session = c.session.operations[name]?) (answer : Answer)
    {new : Operation} (hnew : new.Standing) (hfree : new.holdsMutex = false) :
    Follows K c step.Concerns (c.next step answer
      { c.session with operations := c.session.operations.insert name new }) := by
  refine ⟨h.displace (.operation name) c.nextLost rfl (fun h => by cases h) (fun b hb => ?_)
    (fun hholds => absurd hholds (not_holds_of_none party?_nextLost)) (absurd rfl) ?_
    fun q hqp hqn _ => ?_, hkept, List.suffix_rfl, fun _ _ _ _ => rfl⟩
  · have hb' : new = b := by simpa [party?, next] using hb
    subst hb'
    exact ⟨hnew, fun hholds => by simp [hfree] at hholds⟩
  · simp only [party?, next, nextLost, hlost, lost_append]
  · cases q with
    | operation other =>
      have hne : name ≠ other := fun heq => hqp (by rw [heq])
      simp [party?, next, Std.TreeMap.getElem?_insert, hne]
    | stream other => rfl
    | lost index => exact lost_append_of_ne _ fun heq => hqn (by rw [heq, nextLost])

variable {operations : Std.TreeMap String Operation} {source : Place}

/-- A stream has taken a name, and the operation of the stream that had it is still to be let go. -/
def supplanted (c : Course ρ κ μ) (operations : Std.TreeMap String Operation) (name : String)
    (new : HashStream) : Course ρ κ μ where
  session := { c.session with operations, streams := c.session.streams.insert name new }
  past := c.past
  lost := c.lost ++ (c.session.streams[name]?.map (·.operation)).toList

/-- Where the new stream's operation has come from, if it holds the mutex. -/
structure Source (c : Course ρ κ μ) (operations : Std.TreeMap String Operation) (a : Operation)
    (source : Place) : Prop where
  standing : a.Standing
  fresh : source = c.nextLost → a.holdsMutex = false
  moved : source ≠ c.nextLost →
    ∃ name, source = .operation name ∧ c.party? source = some a ∧ operations[name]? = none
  others : ∀ name, .operation name ≠ source → operations[name]? = c.session.operations[name]?

theorem InOrder.supplanted (h : c.InOrder) (name : String) {new : HashStream}
    (hsource : Source c operations new.operation source) :
    (c.supplanted operations name new).InOrder := by
  have hp : (c.supplanted operations name new).party? (.stream name) = some new.operation := by
    simp [party?, Course.supplanted]
  refine h.displace (.stream name) source rfl ?_ (fun b hb => ?_) (fun hholds => ?_)
    (fun hne => ?_) (lost_append _ _) fun q hqp hqn hqs => ?_
  · by_cases hne : source = c.nextLost
    · rw [hne]
      intro h
      cases h
    · obtain ⟨other, rfl, -, -⟩ := hsource.moved hne
      intro h
      cases h
  · rw [hp] at hb
    cases hb
    refine ⟨hsource.standing, fun hholds => ?_⟩
    by_cases hne : source = c.nextLost
    · simp [hsource.fresh hne] at hholds
    · obtain ⟨-, -, hparty, -⟩ := hsource.moved hne
      exact hparty
  · by_cases hne : source = c.nextLost
    · exact absurd (hne ▸ hholds) (not_holds_of_none party?_nextLost)
    · obtain ⟨-, -, hparty, -⟩ := hsource.moved hne
      exact (holds_iff_of_some hp).2 ((holds_iff_of_some hparty).1 hholds)
  · obtain ⟨other, rfl, -, hgone⟩ := hsource.moved hne
    exact hgone
  · cases q with
    | operation other => exact hsource.others other hqs
    | stream other =>
      have hne : name ≠ other := fun heq => hqp (by rw [heq])
      simp [party?, Course.supplanted, Std.TreeMap.getElem?_insert, hne]
    | lost index => exact lost_append_of_ne _ fun heq => hqn (by rw [heq, nextLost])

/-- A new stream, by which another may end. -/
theorem InOrder.put [RegisterBlock ρ] [GatedClock κ] [EngineMutex μ] (hK : KeptByParties K)
    (h : c.InOrder) (hkept : K c.engine) (source : Place) {name : String} {step : Step ρ μ}
    {answer : Answer} {new : HashStream} (hnone : step.displaced? c.session = none)
    (hconcerns : step.Concerns (.stream name)) (hfrom : source ≠ c.nextLost → step.Concerns source)
    (hsource : Source c operations new.operation source) :
    Always (Session.putStream name new) { c.session with operations } fun _ s =>
      Follows K c step.Concerns (c.next step answer s) := by
  -- first the name passes on, then the stream that had it is let go from among the lost
  have hinOrder := h.supplanted name hsource
  refine Session.always_putStream (fun hformer => ?_) fun former hformer => ?_
  · refine ⟨hinOrder.quiet (Or.inl rfl) fun q => ?_, hkept, List.suffix_rfl, fun _ _ _ _ => rfl⟩
    have hformer' : c.session.streams[name]? = none := hformer
    cases q <;> simp [party?, next, Course.supplanted, hnone, hformer']
  · have hformer' : c.session.streams[name]? = some former := hformer
    have hparty : (c.supplanted operations name new).party? c.nextLost = some former.operation := by
      simp [party?, nextLost, Course.supplanted, hformer']
    rw [Session.always_onEngine]
    refine ((hK.tended (c.supplanted operations name new) c.nextLost).discard
      ⟨⟨hinOrder.party hparty, hkept⟩, List.suffix_rfl⟩).mono fun _ e he => ?_
    obtain ⟨a, htended, hnot⟩ := he
    have hfollows : Follows K (c.supplanted operations name new) (· = c.nextLost)
        (c.next step answer { c.session with
          engine := e
          operations
          streams := c.session.streams.insert name new }) := by
      refine hinOrder.acted htended (fun q hq => ?_) (Or.inr ⟨?_, hnot⟩) fun q _ hq => hq
      · cases q with
        | operation other => rfl
        | stream other => rfl
        | lost index =>
          simp only [party?, next, Course.supplanted, hnone, Option.toList_none, List.append_nil]
          exact (lost_append_of_ne _ fun heq => hq (by rw [heq, nextLost])).symm
      · simp [party?, next, nextLost, hnone]
    refine ⟨hfollows.inOrder, hfollows.kept, hfollows.grown, fun hexclusive q hq hholds => ?_⟩
    -- a holder that the step does not concern was there before the name passed on
    have hqn : q ≠ c.nextLost := fun heq => not_holds_of_none party?_nextLost (heq ▸ hholds)
    have hqs : q ≠ source := fun heq => hq (heq ▸ hfrom (heq ▸ hqn))
    refine hfollows.untouched hexclusive q hqn ?_
    obtain ⟨b, hb, hbholds⟩ := hholds
    refine ⟨b, ?_, hbholds⟩
    rw [← hb]
    cases q with
    | operation other => exact hsource.others other hqs
    | stream other =>
      have hne : name ≠ other := fun heq => hq (heq ▸ hconcerns)
      simp [party?, Course.supplanted, Std.TreeMap.getElem?_insert, hne]
    | lost index => exact lost_append_of_ne _ fun heq => hqn (by rw [heq, nextLost])

end Course

end HashAccelerator
