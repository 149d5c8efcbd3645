import HashAccelerator.SelfTest.Console
/-!
# Writing on a console

A device takes of a text as much as still fits, and fails when nothing does. Whoever writes a text piece
by piece, offers of each piece what was not taken yet, and stops at the first failure has written the
beginning of the text, as far as there was room: the same as a `Console` has of the text as a whole
(`Console.writePieces_eq`). So on a console with room for so many characters stands what would stand on
one without a limit, cut off where the room ends (`Console.write_cut`).
-/

namespace HashAccelerator

/-! ## Characters of one byte -/

/-- Each character of the text takes one byte. -/
def Ascii (text : String) : Prop := ∀ character ∈ text.toList, character.utf8Size = 1

theorem ascii_iff_all {text : String} :
    (text.toList.all fun character => character.utf8Size == 1) = true ↔ Ascii text :=
  List.all_eq_true.trans (forall_congr' fun _ => imp_congr_right fun _ => beq_iff_eq)

instance decidableAscii (text : String) : Decidable (Ascii text) := decidable_of_iff _ ascii_iff_all

namespace Ascii

variable {text text' : String}

theorem append (h : Ascii text) (h' : Ascii text') : Ascii (text ++ text') := by
  intro character hmem
  rw [String.toList_append, List.mem_append] at hmem
  exact hmem.elim (h character) (h' character)

/-- So does a number. -/
theorem toString_nat (n : Nat) : Ascii (toString n) := by
  intro character hmem
  have hdigit : character.isDigit = true := by
    refine Nat.isDigit_of_mem_toDigits (b := 10) (n := n) (by decide) (by decide) ?_
    simpa [toString, Nat.repr] using hmem
  rw [Char.utf8Size_eq_one_iff]
  simp only [Char.isDigit, Bool.and_eq_true, decide_eq_true_eq] at hdigit
  exact UInt32.le_trans hdigit.2 (by decide)

/-- And the beginning of such a text. -/
theorem ofList_take (h : Ascii text) (room : Nat) :
    Ascii (String.ofList (text.toList.take room)) := by
  intro character hmem
  rw [String.toList_ofList] at hmem
  exact h character (List.mem_of_mem_take hmem)

/-- And what is written of it. -/
theorem write {console : Console} (h : Ascii console.text) (htext : Ascii text) :
    Ascii (console.write text).2.text := by
  obtain ⟨capacity, written⟩ := console
  cases capacity with
  | none => exact h.append htext
  | some capacity => exact h.append (htext.ofList_take _)

end Ascii

namespace Console

variable {console : Console} {room : Nat} {text : String}

/-- The text as the bytes that are on the console. -/
def bytes (console : Console) : List UInt8 := console.text.toUTF8.data.toList

/-- The bytes are the characters, one for one. -/
theorem bytes_eq_map (h : Ascii console.text) :
    console.bytes = console.text.toList.map fun character => character.val.toUInt8 := by
  rw [bytes, String.toUTF8, ← String.utf8Encode_toList, List.utf8Encode, List.data_toByteArray,
    List.flatMap, List.map_congr_left fun character hmem =>
      String.utf8EncodeChar_eq_singleton (h character hmem)]
  exact List.map_eq_flatMap.symm

theorem length_bytes (h : Ascii console.text) : console.bytes.length = console.text.length := by
  rw [bytes_eq_map h, List.length_map, String.length_toList]

/-! ## Pieces -/

/-- A device takes as much of a text as still fits, and says how much that was. If it was nothing, the
write has failed. -/
def offer (console : Console) (text : List Char) : Nat × Console :=
  let fitting := match console.capacity with
    | none => text
    | some capacity => text.take (capacity - console.text.length)
  (fitting.length, { console with text := console.text ++ String.ofList fitting })

/-- Offers what is left of a text until nothing is or a write fails. Says whether all was written. -/
def writeAll (console : Console) (text : List Char) : Bool × Console :=
  if text = [] then (true, console)
  else match console.offer text with
    | (0, console) => (false, console)
    | (taken + 1, console) => writeAll console (text.drop (taken + 1))
termination_by text.length
decreasing_by
  have hpositive := List.length_pos_iff.2 ‹text ≠ []›
  rw [List.length_drop]
  omega

/-- Writes the pieces of a text up to the first that cannot be written. -/
def writePieces (console : Console) : List String → Bool × Console
  | [] => (true, console)
  | piece :: rest => match console.writeAll piece.toList with
    | (true, console) => console.writePieces rest
    | (false, console) => (false, console)

theorem write_empty : console.write "" = (true, console) := by
  cases console with
  | mk capacity text => cases capacity <;> simp [write]

/-- **A text may be written in two parts**, the second if the first was written. -/
theorem write_append (first second : String) : console.write (first ++ second) =
    if (console.write first).1 then (console.write first).2.write second
    else console.write first := by
  obtain ⟨capacity, text⟩ := console
  cases capacity with
  | none => simp [write, String.append_assoc]
  | some capacity =>
    simp only [write, String.toList_append, String.length_append, decide_eq_true_eq]
    by_cases hfits : first.length ≤ capacity - text.length
    · have hwhole : first.toList.take (capacity - text.length) = first.toList :=
        List.take_of_length_le (by rwa [String.length_toList])
      rw [if_pos hfits, List.take_append, hwhole, String.length_toList, String.ofList_append,
        String.ofList_toList, String.append_assoc]
      have hroom : capacity - (text.length + first.length) =
          capacity - text.length - first.length := by omega
      rw [hroom]
      congr 1
      simp only [decide_eq_decide]
      omega
    · have hbegun : (first.toList ++ second.toList).take (capacity - text.length) =
          first.toList.take (capacity - text.length) :=
        List.take_append_of_le_length (by rw [String.length_toList]; omega)
      rw [if_neg hfits, hbegun]
      congr 1
      simp only [decide_eq_decide]
      omega

/-- A text has been written if all of it was taken. -/
theorem write_ofList (text : List Char) : console.write (String.ofList text) =
    (decide ((console.offer text).1 = text.length), (console.offer text).2) := by
  obtain ⟨capacity, written⟩ := console
  cases capacity with
  | none => simp [write, offer]
  | some capacity =>
    simp only [write, offer, String.toList_ofList, String.length_ofList, List.length_take]
    congr 1
    simp only [decide_eq_decide]
    omega

theorem offer_fst_le (text : List Char) : (console.offer text).1 ≤ text.length := by
  obtain ⟨capacity, written⟩ := console
  cases capacity with
  | none => exact Nat.le_refl _
  | some capacity =>
    simp only [offer, List.length_take]
    exact Nat.min_le_right _ _

/-- What is taken would be taken by itself. -/
theorem offer_take (text : List Char) :
    console.offer (text.take (console.offer text).1) = console.offer text := by
  obtain ⟨capacity, written⟩ := console
  cases capacity with
  | none => simp [offer]
  | some capacity =>
    have hagain : (text.take (min (capacity - written.length) text.length)).take
        (capacity - written.length) = text.take (capacity - written.length) := by
      rw [List.take_take, List.take_eq_take_iff]
      omega
    simp only [offer, List.length_take, hagain]

/-- **Whoever goes on until a write fails** has written what fits. -/
theorem writeAll_eq (text : List Char) :
    console.writeAll text = console.write (String.ofList text) := by
  induction console, text using writeAll.induct with
  | case1 console => rw [writeAll, if_pos rfl, String.ofList_nil, write_empty]
  | case2 console text hne console' hoffer =>
    rw [writeAll, if_neg hne, write_ofList, hoffer]
    simp [hne, eq_comm]
  | case3 console text hne taken console' hoffer ih =>
    -- the device took the first part of the text, and what it did not take is offered next
    have hfirst : console.write (String.ofList (text.take (taken + 1))) = (true, console') := by
      have hle := console.offer_fst_le text
      have hagain := console.offer_take text
      rw [hoffer] at hle hagain
      rw [write_ofList, hagain, List.length_take, Nat.min_eq_left hle]
      simp
    rw [writeAll, if_neg hne, hoffer]
    calc console'.writeAll (text.drop (taken + 1))
        = console'.write (String.ofList (text.drop (taken + 1))) := ih
      _ = console.write (String.ofList (text.take (taken + 1)) ++
            String.ofList (text.drop (taken + 1))) := by
          rw [write_append, hfirst, if_pos rfl]
      _ = console.write (String.ofList text) := by
          rw [← String.ofList_append, List.take_append_drop]

/-- **The pieces of a text are the text.** -/
theorem writePieces_eq (pieces : List String) :
    console.writePieces pieces = console.write (String.join pieces) := by
  induction pieces generalizing console with
  | nil => rw [writePieces, String.join_nil, write_empty]
  | cons piece rest ih =>
    rw [writePieces, writeAll_eq, String.ofList_toList, String.join_cons, write_append]
    obtain ⟨written, console'⟩ := console.write piece
    cases written with
    | true => exact ih
    | false => rfl

/-! ## Cut off -/

theorem write_of_unlimited (h : console.capacity = none) (text : String) :
    console.write text = (true, { console with text := console.text ++ text }) := by
  simp only [write, h]

/-- A console with room for so many characters, and on it the beginning of a text. -/
def cut (room : Nat) (console : Console) : Console where
  capacity := some room
  text := String.ofList (console.text.toList.take room)

/-- **What is written is cut off where the room ends**, and all of it was written if it ends there. -/
theorem write_cut (hfits : console.text.length ≤ room) (text : String) :
    (console.cut room).write text = (decide (console.text.length + text.length ≤ room),
      ({ console with text := console.text ++ text } : Console).cut room) := by
  have hwhole : console.text.toList.take room = console.text.toList :=
    List.take_of_length_le (by rwa [String.length_toList])
  simp only [write, cut, hwhole, String.ofList_toList, String.toList_append, List.take_append,
    String.length_toList, String.ofList_append]
  congr 1
  simp only [decide_eq_decide]
  omega

/-- On a full console nothing more is written. -/
theorem cut_append (hfull : room ≤ console.text.length) (more : String) :
    ({ console with text := console.text ++ more } : Console).cut room = console.cut room := by
  simp only [cut, String.toList_append]
  rw [List.take_append_of_le_length (by rwa [String.length_toList])]

/-- The bytes are cut off with the characters. -/
theorem bytes_cut (h : Ascii console.text) : (console.cut room).bytes = console.bytes.take room := by
  have hcut : Ascii (console.cut room).text := h.ofList_take room
  rw [bytes_eq_map hcut, bytes_eq_map h, ← List.map_take, cut, String.toList_ofList]

/-- There is as much of it as there was room. -/
theorem length_text_cut_of_le (hfull : room ≤ console.text.length) :
    (console.cut room).text.length = room := by
  rw [cut, String.length_ofList, List.length_take, String.length_toList]
  exact Nat.min_eq_left hfull

end Console

end HashAccelerator
