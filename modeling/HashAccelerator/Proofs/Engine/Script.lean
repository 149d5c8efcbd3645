import HashAccelerator.Platform.Scripted
import HashAccelerator.Proofs.Engine.Accesses
import Mathlib.Data.Nat.Find
/-!
# Waiting on registers that follow a script

Where the words that reads deliver are laid down beforehand, they decide how a wait ends, and after how
many reads. A poll stops at the first word that is not zero, so polls and words fall out of step; but
every poll that finds a register set uses up exactly one such word and the zeros before it, fewer than
there are registers. Hence a wait that is not given up ends with the first run of as many zeros as it
polls registers, and a wait that is given up ends with the word that is one too many
(`returns_waits_of_script`).
-/

namespace HashAccelerator

/-! ## Scripts -/

namespace ScriptedRegisters

/-- The word that a read delivers after so many others. -/
def word (r : ScriptedRegisters) (i : Nat) : UInt32 := r.reads.getD i 0

/-- The registers after so many reads. -/
def after (r : ScriptedRegisters) (count : Nat) : ScriptedRegisters := ⟨r.reads.drop count⟩

/-- How many of the first words are not zero. -/
def setBefore (r : ScriptedRegisters) (count : Nat) : Nat := (r.reads.take count).countP (· != 0)

/-- So many words in a row are zero. -/
def ClearFrom (r : ScriptedRegisters) (width start : Nat) : Prop :=
  ∀ i < width, r.word (start + i) = 0

instance (r : ScriptedRegisters) (width start : Nat) : Decidable (r.ClearFrom width start) :=
  inferInstanceAs (Decidable (∀ i < width, r.word (start + i) = 0))

/-- The first run of so many zeros begins here. -/
structure FirstClear (r : ScriptedRegisters) (width start : Nat) : Prop where
  clear : r.ClearFrom width start
  first : ∀ other < start, ¬ r.ClearFrom width other

variable {r : ScriptedRegisters} {width start : Nat}

theorem read_eq (address : UInt32) : RegisterBlock.read address r = (r.word 0, r.after 1) := by
  obtain ⟨reads⟩ := r
  cases reads <;> rfl

@[simp] theorem word_after (count i : Nat) : (r.after count).word i = r.word (count + i) := by
  simp [word, after]

@[simp] theorem after_after (count more : Nat) :
    (r.after count).after more = r.after (count + more) := by
  simp [after]

theorem setBefore_add (count more : Nat) :
    r.setBefore (count + more) = r.setBefore count + (r.after count).setBefore more := by
  rw [setBefore, List.take_add, List.countP_append]
  rfl

theorem setBefore_one : r.setBefore 1 = if r.word 0 = 0 then 0 else 1 := by
  obtain ⟨reads⟩ := r
  cases reads with
  | nil => rfl
  | cons first rest => by_cases h : first = 0 <;> simp [setBefore, word, h]

theorem setBefore_succ (count : Nat) :
    r.setBefore (count + 1) = r.setBefore count + if r.word count = 0 then 0 else 1 := by
  rw [setBefore_add, setBefore_one, word_after, Nat.add_zero]

/-- A script has no more words than it was given. -/
theorem setBefore_le_patience (count : Nat) : r.setBefore count ≤ RegisterBlock.patience r :=
  Nat.le_trans List.countP_le_length (List.length_take_le' _ _)

theorem setBefore_eq_zero {count : Nat} (h : r.ClearFrom count 0) : r.setBefore count = 0 := by
  induction count with
  | zero => rfl
  | succ count ih =>
    have hlast := h count (Nat.lt_succ_self count)
    rw [Nat.zero_add] at hlast
    rw [setBefore_succ, ih fun i hi => h i (Nat.lt_succ_of_lt hi), if_pos hlast]

theorem setBefore_eq_self {count : Nat} (h : ∀ i < count, r.word i ≠ 0) :
    r.setBefore count = count := by
  induction count with
  | zero => rfl
  | succ count ih =>
    rw [setBefore_succ, ih fun i hi => h i (Nat.lt_succ_of_lt hi),
      if_neg (h count (Nat.lt_succ_self count))]

/-- More words are no fewer that are not zero. -/
theorem setBefore_le (r : ScriptedRegisters) {count more : Nat} (h : count ≤ more) :
    r.setBefore count ≤ r.setBefore more := by
  obtain ⟨extra, rfl⟩ := Nat.exists_eq_add_of_le h
  rw [setBefore_add]
  exact Nat.le_add_right _ _

/-- There is a run of any length, for a script goes on with zeros. -/
theorem exists_firstClear (r : ScriptedRegisters) (width : Nat) :
    ∃ start, r.FirstClear width start := by
  have hsome : ∃ start, r.ClearFrom width start := by
    refine ⟨r.reads.length, fun i _ => ?_⟩
    simp [word]
  exact ⟨Nat.find hsome, Nat.find_spec hsome, fun other hother => Nat.find_min hsome hother⟩

/-- Before the first run lies any word that is not zero, if fewer zeros than the run has come before
it. -/
theorem FirstClear.skip {set : Nat} (h : r.FirstClear width start) (hset : set < width)
    (hword : r.word set ≠ 0) :
    ∃ rest, start = set + 1 + rest ∧ (r.after (set + 1)).FirstClear width rest := by
  have hlt : set < start := by
    refine Nat.lt_of_not_le fun hle => hword ?_
    have hclear := h.clear (set - start) (by omega)
    rwa [Nat.add_sub_cancel' hle] at hclear
  obtain ⟨rest, rfl⟩ := Nat.exists_eq_add_of_le (Nat.succ_le_of_lt hlt)
  refine ⟨rest, rfl, fun i hi => ?_, fun other hother hclear => ?_⟩
  · rw [word_after, ← Nat.add_assoc]
    exact h.clear i hi
  · refine h.first (set + 1 + other) (by omega) fun i hi => ?_
    have hzero := hclear i hi
    rwa [word_after, ← Nat.add_assoc] at hzero

/-- A run of one zero is a zero, and there is none before the first. -/
theorem FirstClear.word_ne_zero {i : Nat} (h : r.FirstClear 1 start) (hi : i < start) :
    r.word i ≠ 0 := by
  intro hzero
  refine h.first i hi fun j hj => ?_
  obtain rfl : j = 0 := by omega
  exact hzero

end ScriptedRegisters

/-! ## Waits -/

open EngineM

variable {κ μ : Type}

/-- So many reads of some registers lie between the two engines, and nothing else. -/
structure Engine.Consumed (e : Engine ScriptedRegisters κ μ) (addresses : List UInt32) (count : Nat)
    (e' : Engine ScriptedRegisters κ μ) : Prop where
  registers : e'.registers = e.registers.after count
  polled : ∃ polls, polls.length = count ∧ PollsOf addresses polls ∧ e.Accessed polls e'

/-- How one poll of some registers comes out: they are clear if the next words are all zero, and
otherwise the poll ends at the first that is not. -/
inductive Engine.Swept (e : Engine ScriptedRegisters κ μ) (addresses : List UInt32) :
    Bool → Engine ScriptedRegisters κ μ → Prop
  | clear {e'} : e.registers.ClearFrom addresses.length 0 →
      e.Consumed addresses addresses.length e' → Swept e addresses false e'
  | set {e'} (word) : word < addresses.length → e.registers.ClearFrom word 0 →
      e.registers.word word ≠ 0 → e.Consumed addresses (word + 1) e' → Swept e addresses true e'

/-- How a number of polls comes out: they end with the first run of zeros, unless there are more words
that are not zero before it than polls may be repeated. -/
inductive Engine.Repolled (e : Engine ScriptedRegisters κ μ) (addresses : List UInt32)
    (start rereads : Nat) : Bool → Engine ScriptedRegisters κ μ → Prop
  | clear {e'} : e.registers.setBefore start ≤ rereads →
      e.Consumed addresses (start + addresses.length) e' → Repolled e addresses start rereads true e'
  | spent {e'} (last) : rereads < e.registers.setBefore start → e.registers.word last ≠ 0 →
      e.registers.setBefore last = rereads → e.Consumed addresses (last + 1) e' →
      Repolled e addresses start rereads false e'

/-- So many polls may find a register set. -/
def Settings.Allows (settings : Settings) (polls : Nat) : Prop :=
  ∀ limit, settings.pollLimit = some limit → polls ≤ limit

/-- How a wait comes out whose registers' first run of zeros begins at `start`. -/
inductive Engine.Awaited (e : Engine ScriptedRegisters κ μ) (addresses : List UInt32) (start : Nat) :
    Except Fault Unit → Engine ScriptedRegisters κ μ → Prop
  | clear {e'} : e.settings.Allows (e.registers.setBefore start) →
      e.Consumed addresses (start + addresses.length) e' → Awaited e addresses start (.ok ()) e'
  | givenUp {e' limit last} : e.settings.pollLimit = some limit →
      limit < e.registers.setBefore start → e.registers.word last ≠ 0 →
      e.registers.setBefore last = limit → e.Consumed addresses (last + 1) e' →
      Awaited e addresses start (.error .stillBusy) e'

variable {e e' e'' : Engine ScriptedRegisters κ μ} {addresses : List UInt32}

namespace Engine.Consumed

theorem refl : e.Consumed addresses 0 e where
  registers := rfl
  polled := ⟨[], rfl, fun _ hmem => absurd hmem List.not_mem_nil, .refl⟩

theorem note {count : Nat} (h : e.Consumed addresses count e') (notice : Notice) :
    e.Consumed addresses count { e' with notices := notice :: e'.notices } where
  registers := h.registers
  polled := by
    obtain ⟨polls, hlength, hpolls, haccessed⟩ := h.polled
    exact ⟨polls, hlength, hpolls, haccessed.note notice⟩

theorem trans {count more : Nat} (h : e.Consumed addresses count e')
    (h' : e'.Consumed addresses more e'') : e.Consumed addresses (count + more) e'' where
  registers := by rw [h'.registers, h.registers, ScriptedRegisters.after_after]
  polled := by
    obtain ⟨polls, rfl, hpolls, haccessed⟩ := h.polled
    obtain ⟨later, rfl, hlater, haccessed'⟩ := h'.polled
    refine ⟨later ++ polls, by rw [List.length_append, Nat.add_comm], ?_,
      haccessed.trans haccessed'⟩
    exact List.forall_mem_append.2 ⟨hlater, hpolls⟩

/-- Whoever reads some of the registers reads some of more. -/
theorem cons {count : Nat} (h : e.Consumed addresses count e') (address : UInt32) :
    e.Consumed (address :: addresses) count e' where
  registers := h.registers
  polled := by
    obtain ⟨polls, hlength, hpolls, haccessed⟩ := h.polled
    refine ⟨polls, hlength, fun event hevent => ?_, haccessed⟩
    obtain ⟨other, hother, hread⟩ := hpolls event hevent
    exact ⟨other, List.mem_cons_of_mem _ hother, hread⟩

/-- A read delivers the next word. -/
theorem one (address : UInt32) : e.Consumed (address :: addresses) 1 { e with
    registers := e.registers.after 1
    history := .read address (e.registers.word 0) :: e.history } where
  registers := rfl
  polled := by
    refine ⟨[.read address (e.registers.word 0)], rfl, fun event hevent => ?_, ?_⟩
    · exact ⟨address, List.mem_cons_self, _, List.mem_singleton.1 hevent⟩
    · have haccessed := (Accessed.refl (e := e)).read address
      rwa [ScriptedRegisters.read_eq] at haccessed

end Engine.Consumed

namespace EngineM

theorem run_readRegister_script (address : UInt32) :
    (readRegister address).run e = some (e.registers.word 0, { e with
      registers := e.registers.after 1
      history := .read address (e.registers.word 0) :: e.history }) := by
  rw [run_readRegister, ScriptedRegisters.read_eq]

theorem swept_anySet (addresses : List UInt32) :
    Returns (anySet addresses) e fun set e' => e.Swept addresses set e' := by
  induction addresses generalizing e with
  | nil => exact returns_pure (.clear (fun _ hi => absurd hi (Nat.not_lt_zero _)) .refl)
  | cons address rest ih =>
    have hone : e.Consumed (address :: rest) 1 _ := .one address
    unfold anySet
    refine Returns.next (run_readRegister_script _) (Returns.ite (fun hset => ?_) fun hzero => ?_)
    · refine returns_pure (.set 0 (Nat.zero_lt_succ _) ?_ (bne_iff_ne.1 hset) hone)
      exact fun _ hi => absurd hi (Nat.not_lt_zero _)
    · have hword : e.registers.word 0 = 0 := by simpa using hzero
      -- the rest sees the words behind the one that was read
      have hfront : ∀ {count}, (e.registers.after 1).ClearFrom count 0 →
          e.registers.ClearFrom (count + 1) 0 := by
        intro count hclear i hi
        cases i with
        | zero => exact hword
        | succ i =>
          have hlater := hclear i (Nat.lt_of_succ_lt_succ hi)
          simpa [Nat.add_comm] using hlater
      refine ih.mono fun set e' he => ?_
      cases he with
      | clear hclear hconsumed =>
        rw [hone.registers] at hclear
        refine .clear (hfront hclear) ?_
        rw [List.length_cons, Nat.add_comm]
        exact hone.trans (hconsumed.cons address)
      | set word hlt hclear hset hconsumed =>
        rw [hone.registers] at hclear hset
        refine .set (word + 1) (Nat.succ_lt_succ hlt) (hfront hclear) ?_ ?_
        · simpa [Nat.add_comm] using hset
        · rw [Nat.add_comm]
          exact hone.trans (hconsumed.cons address)

/-- **Every poll that finds a register set uses up one word that is not zero.** -/
theorem repolled_pollAgain (rereads : Nat) {start : Nat}
    (h : e.registers.FirstClear addresses.length start) :
    Returns (pollAgain (anySet addresses) rereads) e fun clear e' =>
      e.Repolled addresses start rereads clear e' := by
  have hnone : ∀ {e : Engine ScriptedRegisters κ μ} {start rereads e'},
      e.registers.FirstClear addresses.length start → e.registers.ClearFrom addresses.length 0 →
      e.Consumed addresses addresses.length e' → e.Repolled addresses start rereads true e' := by
    intro e start rereads e' h hclear hconsumed
    obtain rfl : start = 0 := by
      refine Nat.eq_zero_of_not_pos fun hpos => h.first 0 hpos hclear
    exact .clear (Nat.zero_le _) (by rwa [Nat.zero_add])
  -- on the polls that are left, over what is left of the script
  induction rereads generalizing e start with
  | zero =>
    unfold pollAgain
    refine (swept_anySet addresses).bind fun set e' he => returns_pure ?_
    cases he with
    | clear hclear hconsumed => exact hnone h hclear hconsumed
    | set word hlt hclear hset hconsumed =>
      obtain ⟨rest, rfl, -⟩ := h.skip hlt hset
      refine .spent word ?_ hset (ScriptedRegisters.setBefore_eq_zero hclear) hconsumed
      rw [ScriptedRegisters.setBefore_add, ScriptedRegisters.setBefore_succ, if_neg hset]
      omega
  | succ rereads ih =>
    unfold pollAgain
    refine (swept_anySet addresses).bind fun set e' he => ?_
    cases he with
    | clear hclear hconsumed => exact returns_pure (hnone h hclear hconsumed)
    | set word hlt hclear hset hconsumed =>
      obtain ⟨rest, rfl, hrest⟩ := h.skip hlt hset
      have hcount : ∀ more, e.registers.setBefore (word + 1 + more) =
          1 + (e.registers.after (word + 1)).setBefore more := by
        intro more
        rw [ScriptedRegisters.setBefore_add, ScriptedRegisters.setBefore_succ, if_neg hset,
          ScriptedRegisters.setBefore_eq_zero hclear]
      rw [← hconsumed.registers] at hrest hcount
      refine (ih hrest).mono fun clear e'' he => ?_
      cases he with
      | clear hle hlater =>
        refine .clear (by rw [hcount]; omega) ?_
        rw [Nat.add_assoc]
        exact hconsumed.trans hlater
      | spent last hlt hlast hbefore hlater =>
        refine .spent (word + 1 + last) (by rw [hcount]; omega) ?_ ?_ ?_
        · rw [hconsumed.registers, ScriptedRegisters.word_after] at hlast
          exact hlast
        · rw [hcount, hbefore, Nat.add_comm]
        · rw [Nat.add_assoc]
          exact hconsumed.trans hlater

theorem awaited_await (addresses : List UInt32) {start : Nat}
    (h : e.registers.FirstClear addresses.length start) :
    Returns (await (anySet addresses)) e fun outcome e' => e.Awaited addresses start outcome e' := by
  unfold await
  refine Returns.next rfl ?_
  cases hlimit : e.settings.pollLimit with
  | none =>
    refine (repolled_pollAgain _ h).bind fun clear e' he => ?_
    cases he with
    | clear _ hconsumed =>
      refine returns_pure (.clear (fun limit hsome => ?_) hconsumed)
      rw [hlimit] at hsome
      cases hsome
    | spent last hlt =>
      exact absurd (ScriptedRegisters.setBefore_le_patience _) (Nat.not_le_of_lt hlt)
  | some limit =>
    refine (repolled_pollAgain limit h).bind fun clear e' he => ?_
    cases he with
    | clear hle hconsumed =>
      refine returns_pure (.clear (fun other hsome => ?_) hconsumed)
      rw [hlimit] at hsome
      cases hsome
      exact hle
    | spent last hlt hlast hbefore hconsumed =>
      exact Returns.next (run_note _ _)
        (returns_pure (.givenUp hlimit hlt hlast hbefore (hconsumed.note _)))

/-- **The script tells how a wait ends.** A wait for all units succeeds if the poll limit allows the
words that are not zero before the first four zeros in a row, and has read up to the end of these; and
otherwise it gives up right behind the word that is one too many. A wait for one register succeeds if
the limit allows all words before the first zero, and otherwise gives up after one read more than the
limit. Nothing but the waited-for registers is read, and without a limit every wait ends. -/
theorem returns_waits_of_script (e : Engine ScriptedRegisters κ μ) :
    (∃ start, e.registers.FirstClear 4 start ∧ Returns awaitIdle e fun outcome e' =>
      (outcome = .ok () ↔ e.settings.Allows (e.registers.setBefore start)) ∧
      (outcome = .ok () → e.Consumed busyAddresses (start + 4) e') ∧
      (outcome ≠ .ok () → outcome = .error .stillBusy ∧
        ∃ limit last, e.settings.pollLimit = some limit ∧ e.registers.word last ≠ 0 ∧
          e.registers.setBefore last = limit ∧ e.Consumed busyAddresses (last + 1) e')) ∧
    ∀ address, ∃ start, (e.registers.word start = 0 ∧ ∀ i < start, e.registers.word i ≠ 0) ∧
      Returns (awaitClear address) e fun outcome e' =>
        (outcome = .ok () ↔ e.settings.Allows start) ∧
        (outcome = .ok () → e.Consumed [address] (start + 1) e') ∧
        (outcome ≠ .ok () → outcome = .error .stillBusy ∧
          ∃ limit, e.settings.pollLimit = some limit ∧ e.Consumed [address] (limit + 1) e') := by
  have hrefused : ∀ {limit count}, e.settings.pollLimit = some limit → limit < count →
      ¬ e.settings.Allows count :=
    fun hlimit hlt hallows => Nat.not_le_of_lt hlt (hallows _ hlimit)
  refine ⟨?_, fun address => ?_⟩
  · obtain ⟨start, hstart⟩ := e.registers.exists_firstClear 4
    refine ⟨start, hstart, (awaited_await busyAddresses hstart).mono fun outcome e' he => ?_⟩
    cases he with
    | clear hallows hconsumed => exact ⟨iff_of_true rfl hallows, fun _ => hconsumed, absurd rfl⟩
    | givenUp hlimit hlt hlast hbefore hconsumed =>
      refine ⟨iff_of_false (by simp) (hrefused hlimit hlt), by simp, fun _ => ⟨rfl, ?_⟩⟩
      exact ⟨_, _, hlimit, hlast, hbefore, hconsumed⟩
  · obtain ⟨start, hstart⟩ := e.registers.exists_firstClear 1
    have hset : ∀ i < start, e.registers.word i ≠ 0 := fun i hi => hstart.word_ne_zero hi
    refine ⟨start, ⟨hstart.clear 0 Nat.zero_lt_one, hset⟩,
      (awaited_await [address] hstart).mono fun outcome e' he => ?_⟩
    cases he with
    | clear hallows hconsumed =>
      rw [ScriptedRegisters.setBefore_eq_self hset] at hallows
      exact ⟨iff_of_true rfl hallows, fun _ => hconsumed, absurd rfl⟩
    | @givenUp _ limit last hlimit hlt hlast hbefore hconsumed =>
      rw [ScriptedRegisters.setBefore_eq_self hset] at hlt
      -- no zero has been read yet, so the limit counts the reads
      have hbounded : last < start := by
        refine Nat.lt_of_not_le fun hle => ?_
        have hmono := e.registers.setBefore_le hle
        rw [ScriptedRegisters.setBefore_eq_self hset] at hmono
        omega
      rw [ScriptedRegisters.setBefore_eq_self fun i hi => hset i (Nat.lt_trans hi hbounded)] at hbefore
      refine ⟨iff_of_false (by simp) (hrefused hlimit hlt), by simp, fun _ => ⟨rfl, ?_⟩⟩
      exact ⟨limit, hlimit, hbefore ▸ hconsumed⟩

end EngineM

end HashAccelerator
