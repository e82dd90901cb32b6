import Mathlib.Data.Int.Cast.Basic
import Mathlib.Data.List.Nodup

/-!
# Sets kept as lists

A list without repetitions is a set. `toggle true a xs` is the list with `a`
at its head and nowhere else, `toggle false a xs` the list without `a`.
Putting an element in and taking it out then have the same lemmas.
-/

namespace TrIrcd.Lib

variable {α : Type} [DecidableEq α] {a x : α} {xs : List α} {on : Bool}

/-- `xs` with `a` in front, or without it. -/
def toggle (on : Bool) (a : α) (xs : List α) : List α :=
  (if on then [a] else []) ++ xs.erase a

/-- By how much a count goes up when an element is put in, or taken out. -/
def tally (on : Bool) : Int := if on then 1 else -1

theorem toggle_true (h : a ∉ xs) : toggle true a xs = a :: xs := by
  rw [toggle, List.erase_of_not_mem h]
  rfl

theorem mem_toggle (h : xs.Nodup) :
    x ∈ toggle on a xs ↔ if x = a then on = true else x ∈ xs := by
  rw [toggle, List.mem_append, h.mem_erase_iff]
  by_cases hx : x = a
  · cases on <;> simp [hx]
  · cases on <;> simp [hx]

theorem nodup_toggle (h : xs.Nodup) : (toggle on a xs).Nodup := by
  cases on with
  | true => exact List.nodup_cons.mpr ⟨h.not_mem_erase, h.erase a⟩
  | false => exact h.erase a

/-! One list of a family is changed, those for which `p` fails are not. -/

section Family

variable {p : Prop} [Decidable p]

theorem mem_ite_toggle (h : xs.Nodup) :
    x ∈ (if p then toggle on a xs else xs) ↔ if p ∧ x = a then on = true else x ∈ xs := by
  by_cases hp : p
  · rw [if_pos hp, mem_toggle h]
    simp only [hp, true_and]
  · rw [if_neg hp, if_neg fun hand => hp hand.1]

theorem nodup_ite_toggle (h : xs.Nodup) : (if p then toggle on a xs else xs).Nodup := by
  split
  · exact nodup_toggle h
  · exact h

end Family

/-- An element that was there goes, one that was not comes. -/
theorem length_toggle (h : a ∈ xs ↔ on = false) :
    ((toggle on a xs).length : Int) = xs.length + tally on := by
  cases on with
  | true =>
      have hout : a ∉ xs := fun hin => absurd (h.mp hin) (by simp)
      rw [toggle_true hout, List.length_cons]
      rfl
  | false =>
      have hin := h.mpr rfl
      have hpos := List.length_pos_of_mem hin
      show ((xs.erase a).length : Int) = xs.length + -1
      rw [List.length_erase_of_mem hin]
      omega

omit [DecidableEq α] in
theorem eq_singleton_of_mem (ha : a ∈ xs) (hlen : xs.length ≤ 1) : xs = [a] := by
  obtain ⟨b, rfl⟩ := List.length_eq_one_iff.mp
    (Nat.le_antisymm hlen (List.length_pos_of_mem ha))
  rw [List.mem_singleton.mp ha]

end TrIrcd.Lib
