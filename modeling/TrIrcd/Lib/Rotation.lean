import Mathlib.Data.List.Basic
import Mathlib.Data.List.Nodup
import Mathlib.Data.List.Perm.Basic

/-!
# Rotations

A list of candidates is served in rounds: the first candidate that is ready is
chosen and goes to the end of the list. Among those that are ready in every round
the order goes round in a circle, whatever stands between them, so in as many
rounds as there are of them each has its turn once (`rounds_eq`).
-/

namespace TrIrcd.Lib

variable {α : Type} [DecidableEq α]

/-- An element, if there is one, is moved to the end. -/
def toEnd : Option α → List α → List α
  | none, l => l
  | some x, l => l.erase x ++ [x]

theorem toEnd_perm {x : Option α} {l : List α} (hx : ∀ a ∈ x, a ∈ l) : (toEnd x l).Perm l := by
  cases x with
  | none => exact .refl l
  | some a =>
      have hperm : (l.erase a ++ [a]).Perm (a :: l.erase a) := List.perm_append_singleton a _
      exact hperm.trans (List.perm_cons_erase (hx a rfl)).symm

/-- The others stay in their order. -/
theorem toEnd_erase {a : α} {l : List α} (hnd : l.Nodup) :
    (toEnd (some a) l).erase a = l.erase a := by
  have hnot : a ∉ l.erase a := fun h => (hnd.mem_erase_iff.mp h).1 rfl
  rw [toEnd, List.erase_append_right _ hnot, List.erase_cons_head, List.append_nil]

theorem toEnd_middle {a : α} {as bs : List α} (h : a ∉ as) :
    toEnd (some a) (as ++ a :: bs) = as ++ bs ++ [a] := by
  rw [toEnd, List.erase_append_right _ h, List.erase_cons_head]

/-- The ready ones, when the first of them has had its turn. -/
theorem filter_toEnd {p : α → Bool} {a : α} {l ready : List α}
    (h : l.filter p = a :: ready) :
    (toEnd (some a) l).filter p = ready ++ [a] := by
  obtain ⟨as, bs, rfl, has, ha, hready⟩ := List.filter_eq_cons_iff.mp h
  have hnot : a ∉ as := fun hmem => has a hmem ha
  rw [toEnd_middle hnot, List.filter_append, List.filter_append, hready,
    List.filter_eq_nil_iff.mpr has, List.nil_append, List.filter_cons_of_pos ha, List.filter_nil]

/-- The choices of `n` rounds in which the same ones are ready. -/
def rounds (p : α → Bool) : Nat → List α → List (Option α)
  | 0, _ => []
  | n + 1, l => l.find? p :: rounds p n (toEnd (l.find? p) l)

theorem rounds_eq {p : α → Bool} {n : Nat} {l : List α} (hn : n ≤ (l.filter p).length) :
    rounds p n l = ((l.filter p).take n).map some := by
  induction n generalizing l with
  | zero => rfl
  | succ n ih =>
      cases hready : l.filter p with
      | nil =>
          rw [hready] at hn
          exact absurd hn (Nat.not_succ_le_zero n)
      | cons a ready =>
          rw [hready, List.length_cons] at hn
          have hfind : l.find? p = some a := by
            rw [← List.head?_filter, hready]
            rfl
          have hrest := filter_toEnd hready
          have hle : n ≤ ((toEnd (some a) l).filter p).length := by
            rw [hrest, List.length_append]
            omega
          rw [rounds, hfind, ih hle, hrest, List.take_append_of_le_length (by omega),
            List.take_succ_cons, List.map_cons]

end TrIrcd.Lib
