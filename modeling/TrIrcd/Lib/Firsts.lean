/-!
# First occurrences

The first occurrences in a list are the elements that are the same as nothing
in front of them. Whoever keeps a list of them need only compare a new element
with those that are kept: what was dropped is the same as one of these.
-/

namespace TrIrcd.Lib

variable {α : Type} (same : α → α → Bool)

/-- The elements that are the same as nothing earlier. -/
def firsts : List α → List α → List α
  | _, [] => []
  | earlier, x :: xs =>
      if earlier.any (same x) then firsts (earlier ++ [x]) xs else x :: firsts (earlier ++ [x]) xs

/-- An element is kept if it is the same as none that is. -/
def keepNew (kept : List α) (x : α) : List α := if kept.any (same x) then kept else kept ++ [x]

variable {same}

theorem foldl_keepNew (htrans : ∀ x y z, same x y = true → same y z = true → same x z = true)
    (xs : List α) : ∀ {kept earlier : List α},
      (∀ x, kept.any (same x) = earlier.any (same x)) →
      xs.foldl (keepNew same) kept = kept ++ firsts same earlier xs := by
  induction xs with
  | nil => exact fun _ => (List.append_nil _).symm
  | cons x xs ih =>
      intro kept earlier h
      rw [List.foldl_cons, keepNew, firsts, h x]
      cases hx : earlier.any (same x) with
      | true =>
          -- What is the same as `x` is the same as one that is kept.
          have hsame : ∀ y, kept.any (same y) = (earlier ++ [x]).any (same y) := by
            intro y
            rw [List.any_append, List.any_cons, List.any_nil, Bool.or_false, ← h y]
            cases hy : same y x with
            | false => rw [Bool.or_false]
            | true =>
                obtain ⟨k, hk, hxk⟩ := List.any_eq_true.mp ((h x).trans hx)
                rw [Bool.or_true, List.any_eq_true]
                exact ⟨k, hk, htrans y x k hy hxk⟩
          rw [if_pos rfl, if_pos rfl, ih hsame]
      | false =>
          have hsame : ∀ y, (kept ++ [x]).any (same y) = (earlier ++ [x]).any (same y) := by
            intro y
            rw [List.any_append, List.any_append, h y]
          rw [if_neg Bool.false_ne_true, if_neg Bool.false_ne_true, ih hsame, List.append_assoc]
          rfl

end TrIrcd.Lib
