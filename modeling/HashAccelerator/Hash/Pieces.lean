/-!
# Cutting a list into pieces

A message is hashed block by block and arrives chunk by chunk; both are a list cut into pieces of
one size, the last of which may be shorter. Putting the pieces together again gives the list
(`flatten_pieces`).
-/

namespace HashAccelerator

variable {α : Type}

/-- At most `count` pieces of a list. -/
def piecesUpTo (size : Nat) : Nat → List α → List (List α)
  | 0, _ => []
  | _ + 1, [] => []
  | count + 1, items => items.take size :: piecesUpTo size count (items.drop size)

/-- A list cut into pieces of `size` items, the last of them perhaps shorter; the empty list has
none. -/
def pieces (size : Nat) (items : List α) : List (List α) := piecesUpTo size items.length items

/-- **Nothing is lost.** The pieces, one after the other, are the list. -/
theorem flatten_pieces {size : Nat} (positive : 0 < size) (items : List α) :
    (pieces size items).flatten = items := by
  suffices enough : ∀ count (items : List α), items.length ≤ count →
      (piecesUpTo size count items).flatten = items from enough _ items (Nat.le_refl _)
  intro count
  induction count with
  | zero => intro items short; cases items <;> simp_all [piecesUpTo]
  | succ count ih =>
    intro items short
    cases items with
    | nil => rfl
    | cons item items =>
      simp only [piecesUpTo, List.flatten_cons]
      rw [ih _ (by simp at short ⊢; omega), List.take_append_drop]

end HashAccelerator
