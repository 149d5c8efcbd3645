import HashAccelerator.Platform.Clock
import HashAccelerator.Platform.Mutex
import HashAccelerator.Proofs.Engine.Answers
import HashAccelerator.Proofs.Engine.Return
import HashAccelerator.Proofs.Session.Course
/-!
# Operations for software only

An operation that is made for software is on the software path from the start, and so it is refused
where it asks for the engine, like one that was sent there. But a release and a settlement make every
operation fresh that has nothing left to settle, and do not tell the two apart. So an operation for
software stays off the platform for good just if it is not given back before it asks once more
(`used_softwareOnly`); after that it competes like any other, and may win
(`exists_softwareOnly_on_engine`).
-/

namespace HashAccelerator

/-! ## Calls -/

namespace Operation

/-- A call that an operation is the subject of. -/
inductive Call where
  | acquire
  | submit (words : List UInt32)
  | fetch (out : List UInt32)
  | release
  | settle
  deriving DecidableEq

namespace Call

/-- The call gives back what the operation holds. -/
def givesBack : Call → Bool
  | .release | .settle => true
  | _ => false

variable {ρ κ μ : Type} [RegisterBlock ρ] [GatedClock κ] [EngineMutex μ]

/-- What the call makes of the operation. -/
def run : Call → Operation → EngineM ρ κ μ Operation
  | .acquire, a => do return (← EngineM.acquire a).2
  | .submit words, a => do return (← EngineM.submit a words).2
  | .fetch out, a => do
    let _ ← EngineM.fetch a out
    return a
  | .release, a => EngineM.release a
  | .settle, a => do return (← EngineM.settle a).2

end Call

/-- No call asks for the engine after one that gave back; the calls come newest first. -/
def AsksFirst (calls : List Call) : Prop :=
  calls.Pairwise fun later earlier => later = .acquire → earlier.givesBack = false

/-- What an operation becomes by some calls, and the calls that they have made on the platform, both
newest first. Each of them may meet the engine in any state: others may have used it in between. -/
inductive Used (ρ κ μ : Type) [RegisterBlock ρ] [GatedClock κ] [EngineMutex μ] (a : Operation) :
    List Call → Operation → List Event → Prop
  | none : Used ρ κ μ a [] a []
  | call {calls b b' trace newer} {e e' : Engine ρ κ μ} (call) : Used ρ κ μ a calls b trace →
      (call.run b).run e = some (b', e') → e'.history = newer ++ e.history →
      Used ρ κ μ a (call :: calls) b' (newer ++ trace)

end Operation

open EngineM Operation

variable {ρ κ μ : Type} [RegisterBlock ρ] [GatedClock κ] [EngineMutex μ]
variable {a b : Operation} {calls : List Call} {trace : List Event} {algorithm : Algorithm}

/-! ## Staying off the platform -/

/-- An operation that is for software only, or that was given back if `back`. -/
def Operation.setAside (algorithm : Algorithm) (back : Bool) : Operation :=
  if back then .fresh algorithm else .softwareOnly algorithm

/-- **One call** on an operation for software only reaches nothing but the log, and so does one on a
fresh operation that does not ask. -/
theorem Operation.Call.run_setAside (call : Call) (algorithm : Algorithm) (back : Bool)
    (e : Engine ρ κ μ) (h : call = .acquire → back = false) :
    ∃ notices, (call.run (.setAside algorithm back)).run e =
      some (.setAside algorithm (call.givesBack || back), { e with notices }) := by
  cases back with
  | false => cases call <;> exact ⟨_, rfl⟩
  | true =>
    cases call with
    | acquire => cases h rfl
    | submit words => exact ⟨_, rfl⟩
    | fetch out => exact ⟨_, rfl⟩
    | release => exact ⟨_, rfl⟩
    | settle => exact ⟨_, rfl⟩

/-- **Any calls** do, as long as none asks after one that gave back. -/
theorem Operation.Used.setAside (h : Used ρ κ μ (.softwareOnly algorithm) calls b trace)
    (hasks : AsksFirst calls) :
    trace = [] ∧ b = .setAside algorithm (calls.any Call.givesBack) := by
  induction h with
  | none => exact ⟨rfl, rfl⟩
  | @call calls b b' trace newer e e' call _ hrun hhistory ih =>
    obtain ⟨hfirst, hrest⟩ := List.pairwise_cons.1 hasks
    obtain ⟨rfl, rfl⟩ := ih hrest
    have hback : call = .acquire → calls.any Call.givesBack = false := by
      intro hcall
      rw [List.any_eq_false]
      exact fun earlier hearlier => by simp [hfirst earlier hearlier hcall]
    obtain ⟨notices, hset⟩ := call.run_setAside algorithm _ e hback
    rw [hset] at hrun
    cases hrun
    have hnewer : newer = [] := List.append_left_eq_self.1 hhistory.symm
    exact ⟨by rw [hnewer, List.append_nil], rfl⟩

/-! ## Asking once more -/

/-- Under a poll limit every wait ends. -/
theorem EngineM.answering_limited {settings : Settings} {limit : Nat}
    (h : settings.pollLimit = some limit) :
    Answering True fun e : Engine ρ κ μ => e.settings = settings where
  toKept := kept_settings
  idle he := (returns_await_limited busyAddresses (by rw [he, h])).mono fun _ _ _ => Or.inr trivial
  busy _ he := (returns_await_limited _ (by rw [he, h])).mono fun _ _ _ => Or.inr trivial

/-- So every call does, and it adds to the past. -/
theorem Operation.Call.returns_run (call : Call) {e : Engine ρ κ μ} {limit : Nat}
    (h : e.settings.pollLimit = some limit) :
    Returns (call.run a) e fun _ e' => ∃ newer, e'.history = newer ++ e.history := by
  have hlimited := answering_limited (ρ := ρ) (κ := κ) (μ := μ) h
  have hgrown := kept_suffix (ρ := ρ) (κ := κ) (μ := μ) e.history
  have hsuffix : ∀ {e' : Engine ρ κ μ}, e.history <:+ e'.history →
      ∃ newer, e'.history = newer ++ e.history := fun h => h.imp fun _ h => h.symm
  cases call with
  | acquire =>
    refine ((returns_acquire a).and_always (hgrown.acquire a (List.suffix_refl _))).bind
      fun _ _ h => returns_pure (hsuffix h.2)
  | submit words =>
    refine ((hlimited.submit a words rfl).and_always (hgrown.submit a words (List.suffix_refl _))).bind
      fun _ _ h => returns_pure (hsuffix h.2)
  | fetch out =>
    refine ((hlimited.fetch a out rfl).and_always (hgrown.fetch a out (List.suffix_refl _))).bind
      fun _ _ h => returns_pure (hsuffix h.2)
  | release =>
    exact ((returns_release a).and_always (hgrown.release a (List.suffix_refl _))).mono
      fun _ _ h => hsuffix h.2
  | settle =>
    refine ((returns_settle a).and_always (hgrown.settle a (List.suffix_refl _))).bind
      fun _ _ h => returns_pure (hsuffix h.2)

/-- **Any calls may follow.** -/
theorem Operation.Used.exists_call (h : Used ρ κ μ a calls b trace) (e : Engine ρ κ μ) (call : Call) :
    ∃ b' newer, Used ρ κ μ a (call :: calls) b' (newer ++ trace) := by
  obtain ⟨b', e', hrun, newer, hhistory⟩ := call.returns_run (a := b)
    (e := { e with settings.pollLimit := some 0 }) rfl
  exact ⟨b', newer, h.call call hrun hhistory⟩

theorem Operation.exists_used (a : Operation) (calls : List Call) (e : Engine ρ κ μ) :
    ∃ b trace, Used ρ κ μ a calls b trace := by
  induction calls with
  | nil => exact ⟨a, [], .none⟩
  | cons call calls ih =>
    obtain ⟨b, trace, hused⟩ := ih
    obtain ⟨b', newer, hnext⟩ := hused.exists_call e call
    exact ⟨b', _, hnext⟩

/-- An engine whose mutex is there and free for the asking. -/
def Engine.WouldGrant (e : Engine ρ κ μ) : Prop :=
  e.phase = .ready ∧ (EngineMutex.tryLock e.settings.mutexTimeout e.mutex).1 = .granted

omit [RegisterBlock ρ] in
/-- **A fresh operation wins such an engine**, and enables its clock. -/
theorem EngineM.acquire_of_grants (algorithm : Algorithm) {e : Engine ρ κ μ} (h : e.WouldGrant) :
    Returns (acquire (.fresh algorithm)) e fun r e' => r.2.isOnEngine = true ∧
      e'.history = .clockEnabled :: .lockTried e.settings.mutexTimeout .granted :: e.history := by
  obtain ⟨hready, hgranted⟩ := h
  have hprepare : ∀ {t : Engine ρ κ μ}, t.phase = .ready →
      Always (prepareMutex (createMutex 1)) t fun ready t' => ready = true ∧ t' = t := by
    intro t ht
    simp [prepareMutex, ht]
  refine ((returns_acquire _).and_always ?_).mono fun _ _ hacquired => hacquired.2
  refine always_acquireBy (fun _ => ?_) (fun hunsettled => by cases hunsettled)
    fun hcommitted => by simp [fresh, isOnEngine] at hcommitted
  refine always_compete (hprepare (by exact hready))
    (fun e' he' hwon => ?_) (fun e' notice he' hlost => ?_) fun e' he' => by cases he'.1
  · obtain ⟨-, rfl⟩ := he'
    rw [tried, hwon]
    exact ⟨rfl, rfl⟩
  · obtain ⟨-, rfl⟩ := he'
    exact absurd hgranted hlost

/-- **What was given back competes like any other**: calls of which one asks after one that gave back
may reach the clock. -/
theorem Operation.exists_used_softwareOnly (algorithm : Algorithm) (hasks : ¬ AsksFirst calls)
    {e : Engine ρ κ μ} (h : e.WouldGrant) :
    ∃ b trace, Used ρ κ μ (.softwareOnly algorithm) calls b trace ∧ .clockEnabled ∈ trace := by
  induction calls with
  | nil => exact absurd List.Pairwise.nil hasks
  | cons call earlier ih =>
    by_cases hearlier : AsksFirst earlier
    · -- then it is the last call that asks, after one that gave back
      have hlast : ¬ ∀ other ∈ earlier, call = .acquire → other.givesBack = false :=
        fun hall => hasks (List.pairwise_cons.2 ⟨hall, hearlier⟩)
      obtain ⟨other, hmem, hcall, hback⟩ : ∃ other ∈ earlier, call = .acquire ∧
          other.givesBack = true := by simpa using hlast
      obtain ⟨b, trace, hused⟩ : ∃ b trace, Used ρ κ μ (.softwareOnly algorithm) earlier b trace :=
        exists_used _ earlier e
      obtain ⟨-, rfl⟩ := hused.setAside hearlier
      rw [List.any_eq_true.2 ⟨other, hmem, hback⟩] at hused
      obtain ⟨r, e', hrun, hon, hhistory⟩ := acquire_of_grants algorithm h
      have hcalled : (Call.acquire.run (.fresh algorithm)).run e = some (r.2, e') :=
        run_bind_eq_some.2 ⟨r, e', hrun, rfl⟩
      have hadded : e'.history =
          [.clockEnabled, .lockTried e.settings.mutexTimeout .granted] ++ e.history := hhistory
      exact ⟨r.2, _, hcall ▸ hused.call .acquire hcalled hadded, by simp⟩
    · obtain ⟨b, trace, hused, hreached⟩ := ih hearlier
      obtain ⟨b', newer, hnext⟩ := hused.exists_call e call
      exact ⟨b', _, hnext, List.mem_append_right _ hreached⟩

/-! ## For good -/

/-- **An operation for software only stays off the platform just as long as it is not given back before
it asks for the engine.** Until then, whatever calls it is the subject of, on whatever platform and
with whatever others between, none of them reaches the registers, the clock or the mutex, and it is as
it was made, or fresh once it was given back. But where it asks after that, and a mutex may be granted
at all, there are runs of the same calls in which it enables the clock. -/
theorem used_softwareOnly (algorithm : Algorithm) (calls : List Operation.Call) :
    (AsksFirst calls → ∀ b trace, Used ρ κ μ (.softwareOnly algorithm) calls b trace →
      trace = [] ∧ b.isOnEngine = false ∧ b.isHolding = false ∧
        b = if calls.any Call.givesBack then .fresh algorithm else .softwareOnly algorithm) ∧
    (¬ AsksFirst calls → ∀ e : Engine ρ κ μ, e.WouldGrant →
      ∃ b trace, Used ρ κ μ (.softwareOnly algorithm) calls b trace ∧ .clockEnabled ∈ trace) := by
  refine ⟨fun hasks b trace hused => ?_, fun hasks e hgrants =>
    exists_used_softwareOnly algorithm hasks hgrants⟩
  obtain ⟨rfl, rfl⟩ := hused.setAside hasks
  refine ⟨rfl, ?_, ?_, rfl⟩
  · cases calls.any Call.givesBack <;> rfl
  · cases calls.any Call.givesBack <;> rfl

/-- One that asks, submits, reads and is released has reached nothing; one that asks again after that
may reach the clock. -/
theorem exists_used_until_release :
    ∃ b trace, Used Peripheral CountedClock FlagMutex (.softwareOnly .sha256)
        [.release, .fetch [0], .submit [], .acquire] b trace ∧
      (trace = [] ∧ b.isOnEngine = false ∧ b.isHolding = false ∧ b = .fresh .sha256) ∧
      ∃ b' trace', Used Peripheral CountedClock FlagMutex (.softwareOnly .sha256)
        [.acquire, .release] b' trace' ∧ .clockEnabled ∈ trace' := by
  obtain ⟨b, trace, hused⟩ := exists_used (ρ := Peripheral) (κ := CountedClock) (μ := FlagMutex)
    (.softwareOnly .sha256) [.release, .fetch [0], .submit [], .acquire] (.simulated 0 {} {} {})
  have hasks : AsksFirst [.release, .fetch [0], .submit [], .acquire] := by
    simp [AsksFirst]
  have hagain : ¬ AsksFirst [.acquire, .release] := by
    simp [AsksFirst, Call.givesBack]
  refine ⟨b, trace, hused, (used_softwareOnly _ _).1 hasks b trace hused, ?_⟩
  exact (used_softwareOnly .sha256 [.acquire, .release]).2 hagain
    { Engine.simulated 0 {} {} {} with phase := .ready } ⟨rfl, rfl⟩

/-- **An operation for software that was released and asks again has the engine.** -/
theorem exists_softwareOnly_on_engine :
    ∃ b trace, Used Peripheral CountedClock CountedMutex (.softwareOnly .sha256)
        [.acquire, .release] b trace ∧
      b.isOnEngine = true ∧ .lockTried 0 .granted ∈ trace ∧ .clockEnabled ∈ trace := by
  have hreleased : Used Peripheral CountedClock CountedMutex (.softwareOnly .sha256) [.release]
      (.fresh .sha256) ([] ++ []) :=
    .call (e := .simulated 0 {} {} {}) .release .none rfl rfl
  have hused : Used Peripheral CountedClock CountedMutex (.softwareOnly .sha256) [.acquire, .release]
      { algorithm := .sha256, mode := .hardware true, clockDebt := 1, holdsMutex := true }
      ([.clockEnabled, .lockTried 0 .granted, .creationEnded (.ok ()), .creationBegun] ++ []) :=
    .call (e := .simulated 0 {} {} {}) .acquire hreleased rfl rfl
  exact ⟨_, _, hused, rfl, by simp, by simp⟩

end HashAccelerator
