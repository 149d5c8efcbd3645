import HashAccelerator.Platform.Memory
import HashAccelerator.Platform.Mutex
import HashAccelerator.Proofs.Engine.Answers
import HashAccelerator.Proofs.Engine.Balance
import HashAccelerator.Proofs.Engine.Coupled
/-!
# Paying what is owed

An operation owes the clock a disable for each enable it had of it. It pays them one at a time and
asks after each whether the clock still runs: it has paid when all are issued, or as soon as the
clock reads off (`Paid`). Whatever the clock answers, the settlement ends, reaches nothing but the clock
and the operation's own mutex, and leaves an operation that is as good as new (`SettledBy`).

On a clock that counts its users the payment never goes past the count, so what other drivers hold of
the clock is left to them as long as the operation owed no more than the count.
-/

namespace HashAccelerator

namespace GatedClock

variable {κ : Type} [GatedClock κ]

/-- One disable, and the clock's answer whether it still runs. -/
def pay (clock : κ) : Bool × κ := isEnabled (disable clock)

/-- The clock gives these answers to as many payments in a row, and is left like that. -/
inductive Answers : κ → List Bool → κ → Prop
  | none {clock} : Answers clock [] clock
  | next {clock answers clock'} : Answers (pay clock).2 answers clock' →
      Answers clock ((pay clock).1 :: answers) clock'

end GatedClock

/-- When a debt is paid, by the answers of the clock, oldest first: every disable that was owed is
issued, or the last one that was issued is the first after which the clock is off. -/
inductive Paid : Nat → List Bool → Prop
  | all {owed} : Paid owed (List.replicate owed true)
  | off {owed before} : before < owed → Paid owed (List.replicate before true ++ [false])

/-- One disable is always enough if the clock is off after it. -/
theorem Paid.last (owed : Nat) : Paid (owed + 1) [false] := .off (Nat.succ_pos owed)

theorem Paid.next {owed : Nat} {answers : List Bool} (h : Paid owed answers) :
    Paid (owed + 1) (true :: answers) := by
  cases h with
  | all => exact List.replicate_succ ▸ Paid.all
  | off hbefore =>
    rw [← List.cons_append, ← List.replicate_succ]
    exact .off (Nat.succ_lt_succ hbefore)

/-- Who has nothing to pay is done. -/
theorem Paid.of_nil {owed : Nat} (h : Paid owed []) : owed = 0 := by
  generalize hall : ([] : List Bool) = all at h
  cases h with
  | all => simpa using congrArg List.length hall.symm
  | off _ => simp at hall

/-- The first answer either ends the payments, or leaves a smaller debt to be paid. -/
theorem Paid.of_cons {owed : Nat} {running : Bool} {answers : List Bool}
    (h : Paid owed (running :: answers)) : ∃ rest, owed = rest + 1 ∧
      (running = true ∧ Paid rest answers ∨ running = false ∧ answers = []) := by
  generalize hall : running :: answers = all at h
  cases h with
  | all =>
    cases owed with
    | zero => simp at hall
    | succ rest =>
      obtain ⟨hrunning, hrest⟩ := List.cons_eq_cons.1 (hall.trans List.replicate_succ)
      exact ⟨rest, rfl, .inl ⟨hrunning, hrest ▸ .all⟩⟩
  | @off before hbefore =>
    obtain ⟨rest, rfl⟩ := Nat.exists_eq_succ_of_ne_zero (Nat.ne_zero_of_lt hbefore)
    refine ⟨rest, rfl, ?_⟩
    cases before with
    | zero => exact .inr (List.cons_eq_cons.1 hall)
    | succ before =>
      rw [List.replicate_succ, List.cons_append] at hall
      obtain ⟨hrunning, hrest⟩ := List.cons_eq_cons.1 hall
      exact .inl ⟨hrunning, hrest ▸ .off (Nat.lt_of_succ_lt_succ hbefore)⟩

/-- Payments as they stand in the history, newest first. -/
def payments (answers : List Bool) : List Event :=
  (answers.flatMap fun running => [.clockDisabled, .clockQueried running]).reverse

theorem payments_cons (running : Bool) (answers : List Bool) :
    payments (running :: answers) =
      payments answers ++ [.clockQueried running, .clockDisabled] := by
  simp [payments]

variable {ρ κ μ : Type} {a : Operation}

section Engine

variable [GatedClock κ] [EngineMutex μ]

/-- **A settlement** to which the clock gave these answers: it is paid, with a query after each disable,
the mutex is unlocked if the operation holds it, and nothing else is reached. -/
structure SettledBy (answers : List Bool) (a : Operation) (e : Engine ρ κ μ)
    (r : Repayment × Operation) (e' : Engine ρ κ μ) : Prop where
  paid : Paid a.clockDebt answers
  answered : GatedClock.Answers e.clock answers e'.clock
  report : r.1 = { owed := a.clockDebt, issued := answers.length }
  fresh : r.2 = .fresh a.algorithm
  reached : e'.SameButLog { e with
    clock := e'.clock
    mutex := if a.holdsMutex then EngineMutex.unlock e.mutex else e.mutex
    history := (if a.holdsMutex then [.unlocked] else []) ++ payments answers ++ e.history }

namespace EngineM

variable {engine : Engine ρ κ μ}

omit [EngineMutex μ] in
/-- **The payments end**, and only the clock sees them. -/
theorem returns_disableUntilOff_paid (owed : Nat) :
    Returns (disableUntilOff owed) engine fun issued e =>
      ∃ answers, Paid owed answers ∧ answers.length = issued ∧
        GatedClock.Answers engine.clock answers e.clock ∧
        e = { engine with clock := e.clock, history := payments answers ++ engine.history } := by
  induction owed generalizing engine with
  | zero => exact returns_pure ⟨[], .all, rfl, .none, rfl⟩
  | succ owed ih =>
    unfold disableUntilOff
    refine Returns.next (run_disableClock _) (Returns.next (run_isClockEnabled _) ?_)
    refine Returns.ite (fun hon => ?_) fun hoff => ?_
    · -- the clock still runs, so the rest is to be paid
      refine ih.bind fun issued e he => returns_pure ?_
      obtain ⟨answers, hpaid, rfl, hanswers, he⟩ := he
      have hon : (GatedClock.pay engine.clock).1 = true := hon
      refine ⟨true :: answers, hpaid.next, rfl, hon ▸ .next hanswers, ?_⟩
      rw [he, payments_cons, List.append_assoc, ← hon]
      rfl
    · have hoff : (GatedClock.pay engine.clock).1 = false := (Bool.not_eq_true _).mp hoff
      refine returns_pure ⟨[false], Paid.last owed, rfl, hoff ▸ .next .none, ?_⟩
      rw [← hoff]
      rfl

omit [GatedClock κ] in
/-- The mutex is given back by who holds it. -/
theorem run_unlockOwned (a : Operation) :
    (unlockOwned a).run engine = some ({ a with holdsMutex := false },
      if a.holdsMutex then { engine with
        mutex := EngineMutex.unlock engine.mutex
        history := .unlocked :: engine.history }
      else engine) := by
  obtain ⟨algorithm, mode, clockDebt, holdsMutex⟩ := a
  cases holdsMutex with
  | false => rfl
  | true => rfl

/-- **A settlement ends**, whatever the operation and the platform. -/
theorem settledBy_settle (a : Operation) (engine : Engine ρ κ μ) :
    Returns (settle a) engine fun r e => ∃ answers, SettledBy answers a engine r e := by
  unfold settle
  refine (returns_disableUntilOff_paid _).bind fun issued e he => ?_
  obtain ⟨answers, hpaid, rfl, hanswered, he⟩ := he
  -- what follows the payments does not look at the log, in which they may have left a line
  have hunlock : ∀ e' : Engine ρ κ μ, e'.SameButLog e →
      Returns (do
        let a' ← unlockOwned a
        return (({ owed := a.clockDebt, issued := answers.length } : Repayment),
          { a' with clockDebt := 0, mode := .uncommitted })) e'
        fun r e => ∃ answers, SettledBy answers a engine r e := by
    intro e' hsame
    refine Returns.next (run_unlockOwned a) (returns_pure ⟨answers, hpaid, ?_, rfl, rfl, ?_⟩)
    · cases a.holdsMutex <;> exact hsame.clock ▸ hanswered
    · rw [he] at hsame
      obtain ⟨hregisters, -, hmutex, hsettings, hphase, hhistory⟩ := hsame
      cases a.holdsMutex with
      | false => exact ⟨hregisters, rfl, hmutex, hsettings, hphase, hhistory⟩
      | true => exact ⟨hregisters, rfl, congrArg EngineMutex.unlock hmutex, hsettings, hphase,
          congrArg (Event.unlocked :: ·) hhistory⟩
  refine Returns.ite (fun _ => ?_) fun _ => ?_
  · exact Returns.next (run_note _ _) (hunlock _ ⟨rfl, rfl, rfl, rfl, rfl, rfl⟩)
  · exact hunlock _ ⟨rfl, rfl, rfl, rfl, rfl, rfl⟩

/-- **Nothing of a debt outlives its settlement.** Asking for the engine with a debt comes to the same
as settling and then asking with a fresh operation, but for the log. -/
theorem acquire_of_unsettled (hmode : a.mode = .unsettled) (engine : Engine ρ κ μ) :
    ∃ r e e', (acquire a).run engine = some (r, e) ∧
      (settle a >>= fun _ => acquire (.fresh a.algorithm)).run engine = some (r, e') ∧
      e.SameButLog e' := by
  let asked := { engine with notices := .acquiring a.algorithm :: engine.notices }
  have hasked : asked.SameButLog engine := ⟨rfl, rfl, rfl, rfl, rfl, rfl⟩
  obtain ⟨⟨report, fresh⟩, t, t', hsettle, hsettle', ht⟩ :=
    (coupledTaking_sameButLog.settle a).run hasked
  obtain rfl : fresh = .fresh a.algorithm := always_settle a _ _ hsettle
  let asked' := { t' with notices := .acquiring a.algorithm :: t'.notices }
  have hasked' : t.SameButLog asked' := { ht with }
  obtain ⟨⟨path, won⟩, u, u', hcompete, hcompete', hu⟩ :=
    (coupledTaking_sameButLog.compete (.fresh a.algorithm)).run hasked'
  refine ⟨(.ok path, won), u, u', ?_, ?_, hu⟩
  · unfold acquire acquireBy
    refine run_bind_eq_some.2 ⟨(), asked, rfl, ?_⟩
    rw [hmode]
    exact run_bind_eq_some.2 ⟨_, t, hsettle, run_bind_eq_some.2 ⟨_, u, hcompete, rfl⟩⟩
  · refine run_bind_eq_some.2 ⟨_, t', hsettle', ?_⟩
    unfold acquire acquireBy
    refine run_bind_eq_some.2 ⟨(), asked', rfl, ?_⟩
    exact run_bind_eq_some.2 ⟨_, u', hcompete', rfl⟩

end EngineM

end Engine

/-! ## A clock that counts its users -/

/-- How many disables it takes to pay a debt to a clock that counts so many users. -/
def Repayment.due (owed users : Nat) : Nat :=
  if owed = 0 then 0 else min owed (max users 1)

@[simp] theorem Repayment.due_zero (users : Nat) : Repayment.due 0 users = 0 := rfl

@[simp] theorem Repayment.due_succ (owed users : Nat) :
    Repayment.due (owed + 1) users = min (owed + 1) (max users 1) := rfl

/-- After a payment the clock runs while it counts a user. -/
theorem CountedClock.pay_eq (clock : CountedClock) :
    GatedClock.pay clock =
      (decide ((GatedClock.disable clock).count.toNat ≠ 0), GatedClock.disable clock) := by
  have hzero : ∀ count : UInt32, (count != 0) = decide (count.toNat ≠ 0) :=
    fun count => Bool.eq_iff_iff.2 (by simp [← UInt32.toNat_inj])
  exact congrArg (·, GatedClock.disable clock) (hzero _)

/-- **The payments end where the count does**, and take no more off it than was owed. -/
theorem GatedClock.Answers.counted {clock clock' : CountedClock} {owed : Nat} {answers : List Bool}
    (hanswers : GatedClock.Answers clock answers clock') (hpaid : Paid owed answers) :
    answers.length = Repayment.due owed clock.count.toNat ∧
      clock'.count.toNat = clock.count.toNat - min clock.count.toNat owed := by
  -- on the payments: each takes one off the count, down to none
  induction hanswers generalizing owed with
  | none =>
    rw [hpaid.of_nil]
    simp
  | @next clock answers clock' _ ih =>
    have hcount := clock.toNat_count_disable
    rw [clock.pay_eq] at ih hpaid
    obtain ⟨rest, rfl, ⟨hrunning, hrest⟩ | ⟨hoff, rfl⟩⟩ := hpaid.of_cons
    · have hon : (GatedClock.disable clock).count.toNat ≠ 0 := of_decide_eq_true hrunning
      obtain ⟨hlength, hleft⟩ := ih hrest
      rw [hcount] at hon hlength hleft
      simp only [List.length_cons, Repayment.due_succ, hlength, hleft]
      cases rest with
      | zero => simp only [Repayment.due_zero]; omega
      | succ rest => simp only [Repayment.due_succ]; omega
    · have hoff : (GatedClock.disable clock).count.toNat = 0 := by simpa using hoff
      have hnone : Paid 0 [] := .all
      obtain ⟨-, hleft⟩ := ih hnone
      rw [hcount] at hoff hleft
      simp only [List.length_singleton, Repayment.due_succ]
      omega

/-! ## What a settlement comes to -/

namespace EngineM

variable [GatedClock κ] [EngineMutex μ]

/-- **A settlement pays exactly what is owed.** It returns for every operation on every platform. Each
disable that it issues is followed by one query; the disables are those that were owed, or end with the
first one after which the clock is off; the mutex is unlocked if the operation holds it and not
otherwise; and the operation is a fresh one again.

On a clock that counts its users, the disables are as many as were owed unless the count ends before
(and one if there was no count at all), they take as much off the count and leave at least what the
others hold, and the report is exact if the debt went no further than the count.

An operation that is parked with a debt is answered like a fresh one after the settlement, with the same
calls on the platform. -/
theorem settle_repays (a : Operation) :
    (∀ e : Engine ρ κ μ, Returns (settle a) e fun r e' => ∃ answers, SettledBy answers a e r e') ∧
    (∀ e : Engine ρ CountedClock μ, Returns (settle a) e fun r e' =>
      r.1.issued = (if a.clockDebt = 0 then 0 else min a.clockDebt (max e.clock.count.toNat 1)) ∧
      e'.clock.count.toNat = e.clock.count.toNat - min e.clock.count.toNat a.clockDebt ∧
      (a.clockDebt ≤ e.clock.count.toNat →
        e.clock.count.toNat - a.clockDebt ≤ e'.clock.count.toNat) ∧
      (r.1.isExact = true ↔ a.clockDebt ≤ max e.clock.count.toNat 1)) ∧
    (a.mode = .unsettled → ∀ e : Engine ρ κ μ, ∃ r e₁ e₂, (acquire a).run e = some (r, e₁) ∧
      (settle a >>= fun _ => acquire (.fresh a.algorithm)).run e = some (r, e₂) ∧
      e₁.SameButLog e₂) := by
  refine ⟨settledBy_settle a, fun e => ?_, acquire_of_unsettled⟩
  refine (settledBy_settle a e).mono fun r e' h => ?_
  obtain ⟨answers, h⟩ := h
  obtain ⟨hissued, hleft⟩ := h.answered.counted h.paid
  rw [h.report]
  simp only [Repayment.isExact, beq_iff_eq, hissued, hleft, Repayment.due]
  refine ⟨trivial, trivial, fun hcovered => by omega, ?_⟩
  split <;> omega

/-- A debt of three to a clock that counts one user: one disable is issued, the report says so, and the
next attempt has the engine, with one enable to pay for. -/
theorem exists_settled_early :
    ∃ (a : Operation) (e : Engine MappedMemory CountedClock CountedMutex),
      a.mode = .unsettled ∧
      (Returns (settle a) e fun r e' => r.1 = { owed := 3, issued := 1 } ∧ r.1.isExact = false ∧
        e'.clock.count.toNat = 0 ∧ e'.mutex.locked = false) ∧
      ∃ r e₁ e₂, (acquire a).run e = some (r, e₁) ∧
        (settle a >>= fun _ => acquire (.fresh a.algorithm)).run e = some (r, e₂) ∧
        e₁.SameButLog e₂ ∧ r.2.mode = .hardware true ∧ r.2.clockDebt = 1 := by
  let a : Operation :=
    { algorithm := .sha384, mode := .unsettled, clockDebt := 3, holdsMutex := true }
  let e : Engine MappedMemory CountedClock CountedMutex :=
    { registers := {}, clock := { count := 1 }, mutex := { locked := true }, phase := .ready }
  obtain ⟨hsettled, hcounted, hasked⟩ :=
    settle_repays (ρ := MappedMemory) (κ := CountedClock) (μ := CountedMutex) a
  refine ⟨a, e, rfl, ((hcounted e).and_always (hsettled e).always).mono fun r e' h => ?_, ?_⟩
  · obtain ⟨⟨hissued, hcount, -, hexact⟩, answers, hby⟩ := h
    have hlength : answers.length = 1 := (congrArg Repayment.issued hby.report).symm.trans hissued
    have hreport : r.1 = { owed := 3, issued := 1 } := hlength ▸ hby.report
    refine ⟨hreport, hreport ▸ rfl, hcount, ?_⟩
    rw [hby.reached.mutex]
    rfl
  · obtain ⟨r, e₁, e₂, hacquire, hafter, hsame⟩ := hasked rfl e
    have hhad : ((acquire a).run e).map (fun r => (r.1.2.mode, r.1.2.clockDebt)) =
        some (.hardware true, 1) := by decide
    rw [hacquire] at hhad
    obtain ⟨hwon, hdebt⟩ := Prod.mk.inj (Option.some.inj hhad)
    exact ⟨r, e₁, e₂, hacquire, hafter, hsame, hwon, hdebt⟩

end EngineM

end HashAccelerator
