import HashAccelerator.Proofs.Engine.Custody
/-!
# What is taken is given back

An operation takes two things of the platform: the mutex, by an attempt that is granted, and the
clock, by enabling it. Each is a `Loan`, to be given back by a call of its own. `Outstanding` counts
the loans of one kind that a stretch of history leaves open, and has it that nothing was given back
before it was taken. An operation in good standing has one loan of each kind open while it holds the
mutex, and none otherwise, whatever the platform answers (`keptByCalls_debtor`); so when nobody holds
the mutex any more, every loan has been given back (`Outstanding.repaid`).
-/

namespace HashAccelerator

open EngineM

/-- What an operation takes of the platform. -/
inductive Loan where
  | mutex
  | clock
  deriving DecidableEq

namespace Loan

/-- The call takes the loan: a grant of the mutex, or an enable of the clock. -/
def isTaken : Loan → Event → Bool
  | .mutex, .lockTried _ .granted => true
  | .clock, .clockEnabled => true
  | _, _ => false

/-- The call gives the loan back: an unlock of the mutex, or a disable of the clock. -/
def isReturned : Loan → Event → Bool
  | .mutex, .unlocked => true
  | .clock, .clockDisabled => true
  | _, _ => false

/-- The call neither takes the loan nor gives it back. -/
def Ignores (loan : Loan) (event : Event) : Prop :=
  loan.isTaken event = false ∧ loan.isReturned event = false

variable {loan : Loan}

/-- A refused attempt takes nothing. -/
theorem ignores_lockTried {timeout : Nat} {answer : LockAnswer} (h : answer ≠ .granted) :
    loan.Ignores (.lockTried timeout answer) := by
  cases answer with
  | granted => exact absurd rfl h
  | wouldBlock => cases loan <;> exact ⟨rfl, rfl⟩
  | failed error => cases loan <;> exact ⟨rfl, rfl⟩

theorem ignores_clockQueried (running : Bool) : loan.Ignores (.clockQueried running) := by
  cases loan <;> exact ⟨rfl, rfl⟩

end Loan

/-! ## Open loans -/

/-- After some calls, newest first, so many loans are open; and at no time had more been given back
than taken. -/
structure Outstanding (loan : Loan) (calls : List Event) (count : Nat) : Prop where
  taken_eq : calls.countP loan.isTaken = calls.countP loan.isReturned + count
  returned_le : ∀ older, older <:+ calls →
    older.countP loan.isReturned ≤ older.countP loan.isTaken

/-- Every loan has been given back, and each by a call of its own after it: from any time on, as many
loans were given back as were taken, if not more. -/
structure Repaid (loan : Loan) (calls : List Event) : Prop where
  taken_eq : calls.countP loan.isTaken = calls.countP loan.isReturned
  taken_le : ∀ later, later <+: calls →
    later.countP loan.isTaken ≤ later.countP loan.isReturned

namespace Outstanding

variable {loan : Loan} {calls : List Event} {event : Event} {count : Nat}

theorem nil : Outstanding loan [] 0 where
  taken_eq := rfl
  returned_le older h := by simp [List.eq_nil_of_suffix_nil h]

/-- One more call adds one more time to look. -/
theorem cons {count' : Nat} (h : Outstanding loan calls count)
    (hcount : (event :: calls).countP loan.isTaken =
      (event :: calls).countP loan.isReturned + count') :
    Outstanding loan (event :: calls) count' where
  taken_eq := hcount
  returned_le older holder := by
    rcases List.suffix_cons_iff.1 holder with rfl | hsuffix
    · omega
    · exact h.returned_le older hsuffix

theorem ignore (h : Outstanding loan calls count) (hevent : loan.Ignores event) :
    Outstanding loan (event :: calls) count := by
  refine h.cons ?_
  rw [List.countP_cons_of_neg (by simp [hevent.1]), List.countP_cons_of_neg (by simp [hevent.2])]
  exact h.taken_eq

theorem take (h : Outstanding loan calls count) (htaken : loan.isTaken event = true)
    (hkept : loan.isReturned event = false) : Outstanding loan (event :: calls) (count + 1) := by
  refine h.cons ?_
  rw [List.countP_cons_of_pos htaken, List.countP_cons_of_neg (by simp [hkept]), h.taken_eq]
  omega

theorem giveBack (h : Outstanding loan calls (count + 1)) (hreturned : loan.isReturned event = true)
    (hnone : loan.isTaken event = false) : Outstanding loan (event :: calls) count := by
  refine h.cons ?_
  rw [List.countP_cons_of_pos hreturned, List.countP_cons_of_neg (by simp [hnone]), h.taken_eq]
  omega

/-- To ask whether the clock runs is no loan. -/
theorem asked {queries : List Bool} (h : Outstanding loan calls count) :
    Outstanding loan (queries.map .clockQueried ++ calls) count := by
  induction queries with
  | nil => exact h
  | cons running rest ih => exact ih.ignore (Loan.ignores_clockQueried running)

/-- **With no loan open every loan is repaid.** What was taken late was not given back early. -/
theorem repaid (h : Outstanding loan calls 0) : Repaid loan calls where
  taken_eq := h.taken_eq
  taken_le later hlater := by
    obtain ⟨older, rfl⟩ := hlater
    have htotal := h.taken_eq
    have hbefore := h.returned_le older (List.suffix_append _ _)
    rw [List.countP_append, List.countP_append] at htotal
    omega

end Outstanding

/-! ## What the engine's users owe -/

variable {ρ κ μ : Type} {past : List Event} {count others : Nat} {e e' : Engine ρ κ μ}

/-- Since the past so many loans of each kind have been left open. -/
def Engine.Owes (past : List Event) (count : Nat) (e : Engine ρ κ μ) : Prop :=
  ∃ newer, e.history = newer ++ past ∧ ∀ loan, Outstanding loan newer count

namespace Engine.Owes

theorem refl (e : Engine ρ κ μ) : e.Owes e.history 0 := ⟨[], rfl, fun _ => .nil⟩

theorem note {n : Notice} (h : e.Owes past count) :
    Engine.Owes past count { e with notices := n :: e.notices } := h

/-- A call that is about neither loan leaves them open as they are. -/
theorem ignore {event : Event} (h : e.Owes past count) (hhistory : e'.history = event :: e.history)
    (hevent : ∀ loan : Loan, loan.Ignores event) : e'.Owes past count := by
  obtain ⟨newer, hnewer, hout⟩ := h
  exact ⟨event :: newer, by rw [hhistory, hnewer]; rfl, fun loan => (hout loan).ignore (hevent loan)⟩

/-- A grant and the enable after it take one loan of each kind. -/
theorem take (timeout : Nat) (h : e.Owes past count)
    (hhistory : e'.history = .clockEnabled :: .lockTried timeout .granted :: e.history) :
    e'.Owes past (count + 1) := by
  obtain ⟨newer, hnewer, hout⟩ := h
  refine ⟨.clockEnabled :: .lockTried timeout .granted :: newer, by rw [hhistory, hnewer]; rfl,
    fun loan => ?_⟩
  cases loan with
  | mutex => exact ((hout .mutex).take rfl rfl).ignore ⟨rfl, rfl⟩
  | clock => exact ((hout .clock).ignore ⟨rfl, rfl⟩).take rfl rfl

/-- A disable and the unlock after it give one of each kind back, whether or not the clock is asked in
between. -/
theorem giveBack (queries : List Bool) (h : e.Owes past (count + 1))
    (hhistory : e'.history =
      .unlocked :: (queries.map .clockQueried ++ .clockDisabled :: e.history)) :
    e'.Owes past count := by
  obtain ⟨newer, hnewer, hout⟩ := h
  refine ⟨.unlocked :: (queries.map .clockQueried ++ .clockDisabled :: newer), ?_, fun loan => ?_⟩
  · rw [hhistory, hnewer]
    simp
  · cases loan with
    | mutex => exact ((hout .mutex).ignore ⟨rfl, rfl⟩).asked.giveBack rfl rfl
    | clock => exact ((hout .clock).giveBack rfl rfl).asked.ignore ⟨rfl, rfl⟩

/-! ### Calls that take nothing -/

theorem keptByAccess [RegisterBlock ρ] :
    KeptByAccess (Engine.Owes (ρ := ρ) (κ := κ) (μ := μ) past count) where
  note h := h
  read h := h.ignore rfl fun loan => by cases loan <;> exact ⟨rfl, rfl⟩
  write h := h.ignore rfl fun loan => by cases loan <;> exact ⟨rfl, rfl⟩
  fence h := h.ignore rfl fun loan => by cases loan <;> exact ⟨rfl, rfl⟩

theorem keptByCreation [EngineMutex μ] :
    KeptByCreation (Engine.Owes (ρ := ρ) (κ := κ) (μ := μ) past count) where
  note h := h
  phase _ h := h
  begun h := h.ignore rfl fun loan => by cases loan <;> exact ⟨rfl, rfl⟩
  ended h := h.ignore rfl fun loan => by cases loan <;> exact ⟨rfl, rfl⟩
  reentered h := h.ignore rfl fun loan => by cases loan <;> exact ⟨rfl, rfl⟩
  created h := creationKeeps_of_forall (fun h => h) _ h

/-! ### Calls that take and give back -/

variable [GatedClock κ] [EngineMutex μ] {a : Operation}

/-- **Competing takes one loan of each kind, or none.** -/
theorem compete (hnot : a.holdsMutex = false) (h : e.Owes past others) :
    Always (EngineM.compete (createMutex 1) a) e fun r e' =>
      e'.Owes past (others + r.2.holdsMutex.toNat) := by
  refine always_compete (keptByCreation.prepareMutex h) (fun e' he hgranted => ?_)
    (fun e' notice he hrefused => ?_) fun e' he => ?_
  · refine he.take e'.settings.mutexTimeout ?_
    rw [tried, hgranted]
  · have htried : (tried e').Owes past others :=
      he.ignore rfl fun _ => Loan.ignores_lockTried hrefused
    have hnoted : Engine.Owes past others { tried e' with notices := notice :: e'.notices } :=
      htried.note
    simpa [hnot] using hnoted
  · simpa [hnot] using he

/-- **Releasing gives back what is held.** -/
theorem release (ha : a.Standing) (h : e.Owes past (others + a.holdsMutex.toNat)) :
    Always (EngineM.release a) e fun _ e' => e'.Owes past others := by
  cases hholds : a.holdsMutex with
  | false =>
    obtain ⟨a', notices, hrun⟩ : ∃ a' notices,
        (EngineM.release a).run e = some (a', { e with notices }) := ha.run_release hholds
    rw [hholds] at h
    exact (always_iff_of_run hrun).2 h
  | true =>
    rw [hholds] at h
    exact (always_iff_of_run (ha.run_release_of_holds hholds e)).2
      (h.giveBack [] rfl)

/-- **And so does settling**, which asks for the clock after its one disable. -/
theorem settle (ha : a.Standing) (h : e.Owes past (others + a.holdsMutex.toNat)) :
    Always (EngineM.settle a) e fun _ e' => e'.Owes past others := by
  cases hholds : a.holdsMutex with
  | false =>
    obtain ⟨r, notices, hrun⟩ : ∃ r notices,
        (EngineM.settle a).run e = some (r, { e with notices }) := ha.run_settle hholds
    rw [hholds] at h
    exact (always_iff_of_run hrun).2 h
  | true =>
    rw [hholds] at h
    exact (always_iff_of_run (ha.run_settle_of_holds hholds e)).2 (h.giveBack [_] rfl)

theorem acquire (ha : a.Standing) (h : e.Owes past (others + a.holdsMutex.toNat)) :
    Always (EngineM.acquire a) e fun r e' => e'.Owes past (others + r.2.holdsMutex.toNat) := by
  refine always_acquireBy (fun hmode => ?_) (fun hmode => ?_) fun _ => h
  · have hnot := ha.uncommitted hmode
    rw [hnot] at h
    exact compete hnot h
  · refine ((settle ha (by exact h)).and (always_settle a)).mono fun settled e' he => ?_
    have hnot : settled.2.holdsMutex = false := by
      rw [he.2]
      rfl
    exact compete hnot he.1

end Engine.Owes

/-- An operation in good standing, beside which others have so many loans open. -/
def Debtor (past : List Event) (others : Nat) (a : Operation) (e : Engine ρ κ μ) : Prop :=
  a.Standing ∧ e.Owes past (others + a.holdsMutex.toNat)

/-- **An operation's calls keep its loans in order.** Between two of them it has one of each kind open
while it holds the mutex, and none otherwise. -/
theorem keptByCalls_debtor [RegisterBlock ρ] [GatedClock κ] [EngineMutex μ] :
    KeptByCalls (Debtor (ρ := ρ) (κ := κ) (μ := μ) past others) where
  note h := h
  acquire h := ((acquired_acquire _).and (h.2.acquire h.1)).mono fun _ _ he =>
    ⟨he.1.standing h.1, he.2⟩
  submit {a e} words h := by
    have hsubmitted : Always (submit a words) e fun r _ =>
        Submitted e.settings a words r.1 r.2 := submitted_submit a words rfl
    refine (hsubmitted.and (Engine.Owes.keptByAccess.submit a words h.2)).mono fun r e' he => ?_
    refine ⟨he.1.standing h.1, ?_⟩
    rw [he.1.holdsMutex_eq]
    exact he.2
  fetch out h := (Engine.Owes.keptByAccess.fetch _ out h.2).mono fun _ _ he => ⟨h.1, he⟩
  release h := ((always_release _).and (h.2.release h.1)).mono fun _ _ he =>
    he.1 ▸ ⟨h.1.released, he.2⟩

end HashAccelerator
