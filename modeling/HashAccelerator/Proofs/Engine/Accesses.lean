import HashAccelerator.Proofs.Engine.Discipline
/-!
# Accesses and what they leave

A call of the register protocol changes nothing but the registers and the log: what it leaves is the
engine that the accesses in its history lead to, one after the other (`Engine.Accessed`). So the events
that it adds to the history are all there is to say about its effect, and a wait, whose events are
polls of its own registers, has no other (`accessed_await`).
-/

namespace HashAccelerator

open EngineM

/-! ## Writes -/

/-- The address and the value of a write. -/
def Event.write? : Event → Option (UInt32 × UInt32)
  | .write address value => some (address, value)
  | _ => none

/-- The writes among some calls, which come newest first, in the order in which they were made. -/
def writes (trace : List Event) : List (UInt32 × UInt32) := trace.reverse.filterMap Event.write?

/-- The writes of some words to the text registers, from the given one on. -/
def textWrites (index : Nat) (words : List UInt32) : List (UInt32 × UInt32) :=
  (words.zipIdx index).map fun entry => (textAddress entry.2, entry.1)

/-- The same writes as calls, newest first. -/
def wordWrites (index : Nat) (words : List UInt32) : List Event :=
  ((textWrites index words).map fun write => .write write.1 write.2).reverse

section Traces

variable {newer older : List Event}

theorem writes_append : writes (newer ++ older) = writes older ++ writes newer := by
  rw [writes, List.reverse_append, List.filterMap_append]
  rfl

theorem writes_of_forall (h : ∀ event ∈ newer, event.write? = none) : writes newer = [] := by
  rw [writes, List.filterMap_eq_nil_iff]
  exact fun event hevent => h event (List.mem_reverse.1 hevent)

/-- One word after the other. -/
theorem wordWrites_cons (index : Nat) (word : UInt32) (rest : List UInt32) :
    wordWrites index (word :: rest) =
      wordWrites (index + 1) rest ++ [.write (textAddress index) word] := by
  simp [wordWrites, textWrites]

/-- Words reach as many registers as there are words. -/
theorem exists_of_mem_wordWrites {index : Nat} {words : List UInt32} {event : Event}
    (h : event ∈ wordWrites index words) :
    ∃ i < words.length, ∃ word, event = .write (textAddress (index + i)) word := by
  induction words generalizing index with
  | nil => exact absurd h List.not_mem_nil
  | cons word rest ih =>
    rw [wordWrites_cons, List.mem_append, List.mem_singleton] at h
    rcases h with hlater | rfl
    · obtain ⟨i, hi, other, rfl⟩ := ih hlater
      exact ⟨i + 1, Nat.succ_lt_succ hi, other, by rw [Nat.add_right_comm, Nat.add_assoc]⟩
    · exact ⟨0, Nat.zero_lt_succ _, word, rfl⟩

end Traces

/-! ## Accesses -/

variable {ρ κ μ : Type} [RegisterBlock ρ]

/-- The second engine is the first after some accesses to its registers, newest first. Nothing else was
done, but for lines of the log. -/
inductive Engine.Accessed : List Event → Engine ρ κ μ → Engine ρ κ μ → Prop
  | refl {e} : Accessed [] e e
  | note {trace e e'} (notice) : Accessed trace e e' →
      Accessed trace e { e' with notices := notice :: e'.notices }
  | read {trace e e'} (address) : Accessed trace e e' →
      Accessed (.read address (RegisterBlock.read address e'.registers).1 :: trace) e { e' with
        registers := (RegisterBlock.read address e'.registers).2
        history := .read address (RegisterBlock.read address e'.registers).1 :: e'.history }
  | write {trace e e'} (address value) : Accessed trace e e' →
      Accessed (.write address value :: trace) e { e' with
        registers := RegisterBlock.write address value e'.registers
        history := .write address value :: e'.history }
  | barrier {trace e e'} : Accessed trace e e' →
      Accessed (.barrier :: trace) e { e' with
        registers := RegisterBlock.barrier e'.registers
        history := .barrier :: e'.history }

variable {e e' e'' : Engine ρ κ μ}

namespace Engine.Accessed

variable {trace newer : List Event}

/-- The accesses are what the history has grown by. -/
theorem history (h : Accessed trace e e') : e'.history = trace ++ e.history := by
  induction h with
  | refl => rfl
  | note notice _ ih => exact ih
  | read address _ ih => rw [ih]; rfl
  | write address value _ ih => rw [ih]; rfl
  | barrier _ ih => rw [ih]; rfl

/-- The clock, the mutex, the settings and the phase of its creation are no registers. -/
theorem outside (h : Accessed trace e e') :
    e'.clock = e.clock ∧ e'.mutex = e.mutex ∧ e'.settings = e.settings ∧ e'.phase = e.phase := by
  induction h with
  | refl => exact ⟨rfl, rfl, rfl, rfl⟩
  | note notice _ ih => exact ih
  | read address _ ih => exact ih
  | write address value _ ih => exact ih
  | barrier _ ih => exact ih

/-- So the engines differ in their registers and their past at most. -/
theorem forget_eq (h : Accessed trace e e') :
    e'.forget = { e.forget with registers := e'.registers } := by
  obtain ⟨hclock, hmutex, hsettings, hphase⟩ := h.outside
  simp only [Engine.forget, hclock, hmutex, hsettings, hphase]

/-- What no access changes is as it was. -/
theorem keeps {I : Engine ρ κ μ → Prop} (h : Accessed trace e e') (hI : KeptByAccess I)
    (he : I e) : I e' := by
  induction h with
  | refl => exact he
  | note notice _ ih => exact hI.note (ih he)
  | read address _ ih => exact hI.read (ih he)
  | write address value _ ih => exact hI.write (ih he)
  | barrier _ ih => exact hI.fence (ih he)

theorem trans (h : Accessed trace e e') (h' : Accessed newer e' e'') :
    Accessed (newer ++ trace) e e'' := by
  induction h' with
  | refl => exact h
  | note notice _ ih => exact (ih h).note notice
  | read address _ ih => exact (ih h).read address
  | write address value _ ih => exact (ih h).write address value
  | barrier _ ih => exact (ih h).barrier

end Engine.Accessed

namespace EngineM

theorem keptByAccess_accessed (e : Engine ρ κ μ) :
    KeptByAccess fun e' => ∃ trace, e.Accessed trace e' where
  note h := h.imp fun _ h => h.note _
  read h := h.elim fun _ h => ⟨_, h.read _⟩
  write h := h.elim fun _ h => ⟨_, h.write _ _⟩
  fence h := h.elim fun _ h => ⟨_, h.barrier⟩

/-- The accesses behind a longer history are the ones that it was lengthened by. -/
theorem accessed_of_history {polls : List Event} (h : ∃ trace, e.Accessed trace e')
    (hhistory : e'.history = polls ++ e.history) : e.Accessed polls e' := by
  obtain ⟨trace, htrace⟩ := h
  have hsame : trace = polls := List.append_cancel_right (htrace.history.symm.trans hhistory)
  exact hsame ▸ htrace

/-- **A wait does nothing but poll its registers**, and ends well only if its last polls find all of
them clear. -/
theorem accessed_await (addresses : List UInt32) :
    Always (await (anySet addresses)) e fun outcome e' => ∃ polls, e.Accessed polls e' ∧
      PollsOf addresses polls ∧ (outcome = .ok () → clearPolls addresses <+: polls) := by
  have hkept := keptByAccess_accessed e
  have haccessed : Always (await (anySet addresses)) e fun _ e' => ∃ trace, e.Accessed trace e' :=
    always_await hkept.toKeptByReads
      (fun _ he => always_anySet hkept.toKeptByReads addresses he) ⟨[], .refl⟩
  refine (haccessed.and (always_await_polls addresses)).mono fun outcome e' he => ?_
  obtain ⟨htrace, polls, hhistory, hpolls⟩ := he
  exact ⟨polls, accessed_of_history htrace hhistory, hpolls⟩

end EngineM

end HashAccelerator
