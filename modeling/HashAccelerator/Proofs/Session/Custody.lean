import HashAccelerator.Proofs.Engine.Custody
import HashAccelerator.Proofs.Session.Course
/-!
# One holder at a time

In a course every operation has a place: under a name, inside a stream, or lost. `Course.InOrder`
says that all of them have their standing in order and that at most one place holds the mutex. A
party finds the others, put together, as the `Custody` that it acts under (`Course.InOrder.party`);
once it has acted, what it knows of them is true of everybody (`Course.InOrder.update`).
-/

namespace HashAccelerator

open EngineM

variable {ρ κ μ : Type}

namespace Course

variable {c c' : Course ρ κ μ} {p : Place} {a : Operation}

/-- Every party has its standing in order. As long as the mutex has been exclusive, at most one
place holds it, and the history knows whether one does. -/
structure InOrder (c : Course ρ κ μ) : Prop where
  standing : ∀ {p a}, c.party? p = some a → a.Standing
  alone : Exclusive c.engine.history → ∀ {p q}, c.Holds p → c.Holds q → p = q
  held : Exclusive c.engine.history → (isHeld c.engine.history = true ↔ ∃ p, c.Holds p)

theorem not_holds_of_none (h : c.party? p = none) : ¬ c.Holds p := by
  rintro ⟨a, ha, -⟩
  rw [h] at ha
  cases ha

theorem holds_iff_of_some (h : c.party? p = some a) : c.Holds p ↔ a.holdsMutex = true := by
  constructor
  · rintro ⟨b, hb, hholds⟩
    rw [h] at hb
    cases hb
    exact hholds
  · exact fun hholds => ⟨a, h, hholds⟩

/-- Some place holds the mutex if this one does or another. -/
theorem exists_holds_iff : (∃ q, c.Holds q) ↔ c.Others p ∨ c.Holds p := by
  constructor
  · rintro ⟨q, hq⟩
    by_cases hqp : q = p
    · exact Or.inr (hqp ▸ hq)
    · exact Or.inl ⟨q, hqp, hq⟩
  · rintro (⟨q, -, hq⟩ | hp)
    · exact ⟨q, hq⟩
    · exact ⟨p, hp⟩

/-! ## A party and the others -/

/-- **The engine as the party at a place finds it.** -/
theorem InOrder.party (h : c.InOrder) (hp : c.party? p = some a) :
    Party (c.Others p) c.engine.registers a c.engine := by
  refine ⟨h.standing hp, fun hexclusive => ⟨?_, ?_, fun _ => rfl⟩⟩
  · rintro ⟨q, hne, hq⟩
    cases hholds : a.holdsMutex with
    | false => rfl
    | true => exact absurd (h.alone hexclusive hq ((holds_iff_of_some hp).2 hholds)) hne
  · rw [h.held hexclusive, exists_holds_iff (p := p), holds_iff_of_some hp]

/-- A newcomer finds a place that was empty. -/
theorem InOrder.newcomer (h : c.InOrder) (hp : c.party? p = none) (ha : a.Standing)
    (hnot : a.holdsMutex = false) : Party (c.Others p) c.engine.registers a c.engine := by
  refine ⟨ha, fun hexclusive => ⟨fun _ => hnot, ?_, fun _ => rfl⟩⟩
  rw [h.held hexclusive, exists_holds_iff (p := p), hnot]
  simp [not_holds_of_none hp]

/-- **Nothing but one party has moved.** What this party knows of the others is then true of
everybody. -/
theorem InOrder.update (h : c.InOrder) {block : ρ}
    (hgrown : c.engine.history <:+ c'.engine.history)
    (hparty : Party (c.Others p) block a c'.engine)
    (helse : ∀ q, q ≠ p → c'.party? q = c.party? q)
    (hp : c'.party? p = some a ∨ c'.party? p = none ∧ a.holdsMutex = false) : c'.InOrder := by
  have hsame : ∀ q, q ≠ p → (c'.Holds q ↔ c.Holds q) := fun q hq => by
    rw [Holds, Holds, helse q hq]
  have hothers : c'.Others p ↔ c.Others p :=
    exists_congr fun q => and_congr_right fun hq => hsame q hq
  have hself : c'.Holds p ↔ a.holdsMutex = true := by
    rcases hp with hp | ⟨hp, hnot⟩
    · exact holds_iff_of_some hp
    · simp [not_holds_of_none hp, hnot]
  refine ⟨fun {q b} hq => ?_, fun hexclusive {q q'} hq hq' => ?_, fun hexclusive => ?_⟩
  · by_cases hqp : q = p
    · rcases hp with hp | ⟨hp, -⟩
      · rw [hqp, hp] at hq
        cases hq
        exact hparty.1
      · rw [hqp, hp] at hq
        cases hq
    · exact h.standing ((helse q hqp).symm.trans hq)
  · obtain ⟨halone, -, -⟩ := hparty.2 hexclusive
    -- two holders are both elsewhere, or one of them is the party, which is alone
    have hnot : ∀ {q}, c'.Holds q → q ≠ p → ¬ c'.Holds p := fun {q} hq hqp hp => by
      have hfalse := halone ⟨q, hqp, (hsame q hqp).1 hq⟩
      rw [hself, hfalse] at hp
      cases hp
    by_cases hqp : q = p
    · by_cases hqp' : q' = p
      · rw [hqp, hqp']
      · exact absurd (hqp ▸ hq) (hnot hq' hqp')
    · by_cases hqp' : q' = p
      · exact absurd (hqp' ▸ hq') (hnot hq hqp)
      · exact h.alone (hexclusive.of_suffix hgrown) ((hsame q hqp).1 hq) ((hsame q' hqp').1 hq')
  · obtain ⟨-, hheld, -⟩ := hparty.2 hexclusive
    rw [hheld, exists_holds_iff (p := p), hothers, hself]

/-- **Parties that only change places** hold what they held. -/
theorem InOrder.rename (h : c.InOrder) (hengine : c'.engine = c.engine)
    (hstanding : ∀ {q b}, c'.party? q = some b → b.Standing) (Came : Place → Place → Prop)
    (hinj : ∀ {q q' r}, Came q r → Came q' r → q = q')
    (hto : ∀ {q}, c'.Holds q → ∃ r, Came q r ∧ c.Holds r)
    (hfrom : ∀ {q}, c.Holds q → ∃ q', c'.Holds q') : c'.InOrder := by
  refine ⟨hstanding, fun hexclusive {q q'} hq hq' => ?_, fun hexclusive => ?_⟩
  · rw [hengine] at hexclusive
    obtain ⟨r, hcame, hr⟩ := hto hq
    obtain ⟨r', hcame', hr'⟩ := hto hq'
    rw [h.alone hexclusive hr hr'] at hcame
    exact hinj hcame hcame'
  · rw [hengine] at hexclusive ⊢
    rw [h.held hexclusive]
    constructor
    · rintro ⟨q, hq⟩
      exact hfrom hq
    · rintro ⟨q, hq⟩
      obtain ⟨r, -, hr⟩ := hto hq
      exact ⟨r, hr⟩

/-- The place for the next operation that loses its name. -/
def nextLost (c : Course ρ κ μ) : Place := .lost c.lost.length

theorem party?_nextLost : c.party? c.nextLost = none := by
  simp [party?, nextLost]

/-- **A newcomer takes a place**, and who was there loses it. A newcomer that holds the mutex has
left another place for this one. -/
theorem InOrder.displace (p source : Place) (h : c.InOrder) (hengine : c'.engine = c.engine)
    (hsource : p ≠ source)
    (hnew : ∀ b, c'.party? p = some b →
      b.Standing ∧ (b.holdsMutex = true → c.party? source = some b))
    (hmoved : c.Holds source → c'.Holds p)
    (hgone : source ≠ c.nextLost → c'.party? source = none)
    (hlost : c'.party? c.nextLost = c.party? p)
    (helse : ∀ q, q ≠ p → q ≠ c.nextLost → q ≠ source → c'.party? q = c.party? q) :
    c'.InOrder := by
  have hstays : ∀ {q}, q ≠ p → q ≠ c.nextLost → q ≠ source → (c'.Holds q ↔ c.Holds q) :=
    fun {q} hqp hqn hqs => by rw [Holds, Holds, helse q hqp hqn hqs]
  have hleft : ∀ {q}, q ≠ c.nextLost → c'.Holds q → q ≠ source := fun {q} hq hholds hqs =>
    not_holds_of_none (hgone (hqs ▸ hq)) (hqs ▸ hholds)
  -- whoever is lost now was at `p`, whoever is at `p` was at `source`, and nobody else has moved
  refine h.rename hengine (fun {q b} hq => ?_) (fun q r => q = c.nextLost ∧ r = p ∨
    q = p ∧ r = source ∨ q ≠ source ∧ q ≠ p ∧ q = r) ?_ (fun {q} hq => ?_) fun {q} hq => ?_
  · by_cases hqn : q = c.nextLost
    · exact h.standing (hlost ▸ hqn ▸ hq)
    · by_cases hqp : q = p
      · exact (hnew b (hqp ▸ hq)).1
      · by_cases hqs : q = source
        · rw [hqs, hgone (hqs ▸ hqn)] at hq
          cases hq
        · exact h.standing ((helse q hqp hqn hqs).symm.trans hq)
  · rintro q q' r (⟨hq, hr⟩ | ⟨hq, hr⟩ | ⟨hqs, hqp, hr⟩) (⟨hq', hr'⟩ | ⟨hq', hr'⟩ | ⟨hqs', hqp', hr'⟩)
    · rw [hq, hq']
    · exact absurd (hr.symm.trans hr') hsource
    · exact absurd (hr'.trans hr) hqp'
    · exact absurd (hr'.symm.trans hr) hsource
    · rw [hq, hq']
    · exact absurd (hr'.trans hr) hqs'
    · exact absurd (hr.trans hr') hqp
    · exact absurd (hr.trans hr') hqs
    · rw [hr, hr']
  · by_cases hqn : q = c.nextLost
    · refine ⟨p, Or.inl ⟨hqn, rfl⟩, ?_⟩
      rw [hqn, Holds, hlost] at hq
      exact hq
    · by_cases hqp : q = p
      · obtain ⟨b, hb, hholds⟩ := hq
        exact ⟨source, Or.inr (Or.inl ⟨hqp, rfl⟩), b, (hnew b (hqp ▸ hb)).2 hholds, hholds⟩
      · have hqs := hleft hqn hq
        exact ⟨q, Or.inr (Or.inr ⟨hqs, hqp, rfl⟩), (hstays hqp hqn hqs).1 hq⟩
  · by_cases hqp : q = p
    · refine ⟨c.nextLost, ?_⟩
      rw [Holds, hlost]
      exact hqp ▸ hq
    · by_cases hqs : q = source
      · exact ⟨p, hmoved (hqs ▸ hq)⟩
      · have hqn : q ≠ c.nextLost := fun hqn => not_holds_of_none party?_nextLost (hqn ▸ hq)
        exact ⟨q, (hstays hqp hqn hqs).2 hq⟩

/-- **Where nobody moves and the mutex stays as it is**, nothing changes, whatever else happens to
the engine. -/
theorem InOrder.quiet (h : c.InOrder)
    (hhistory : c'.engine.history = c.engine.history ∨
      ∃ event : Event, event.hold? = none ∧ c'.engine.history = event :: c.engine.history)
    (hparties : ∀ q, c'.party? q = c.party? q) : c'.InOrder := by
  have hholds : ∀ q, c'.Holds q ↔ c.Holds q := fun q => by rw [Holds, Holds, hparties]
  have hevents : (Exclusive c'.engine.history ↔ Exclusive c.engine.history) ∧
      isHeld c'.engine.history = isHeld c.engine.history := by
    rcases hhistory with heq | ⟨event, hevent, heq⟩
    · rw [heq]
      exact ⟨Iff.rfl, rfl⟩
    · rw [heq]
      exact ⟨exclusive_cons_of_none hevent, isHeld_cons_of_none hevent⟩
  refine ⟨fun {q b} hq => h.standing ((hparties q).symm.trans hq),
    fun hexclusive {q q'} hq hq' => ?_, fun hexclusive => ?_⟩
  · exact h.alone (hevents.1.1 hexclusive) ((hholds q).1 hq) ((hholds q').1 hq')
  · rw [hevents.2, h.held (hevents.1.1 hexclusive)]
    exact (exists_congr hholds).symm

end Course

end HashAccelerator
