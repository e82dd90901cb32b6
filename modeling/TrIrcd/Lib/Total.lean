import Mathlib.Algebra.BigOperators.Group.Finset.Basic
import Mathlib.Algebra.Order.BigOperators.Group.Finset
import Mathlib.Data.Int.Cast.Basic

/-!
# Totals

A reference count promises a sum over every place that may hold a reference.
There may be infinitely many places, but only finitely many hold any:
`Total n t` says that the numbers `n` vanish outside a finite set and add up
to `t` on it. Changing one of the numbers changes the total by the
difference, and a total bounds any one and any two of them.
-/

namespace TrIrcd.Lib

variable {ι : Type}

/-- The numbers `n` add up to `t`. -/
def Total (n : ι → Nat) (t : Int) : Prop :=
  ∃ F : Finset ι, (∀ i, i ∉ F → n i = 0) ∧ t = ((∑ i ∈ F, n i : Nat) : Int)

namespace Total

variable {n : ι → Nat} {t : Int}

theorem zero : Total (fun _ : ι => 0) 0 := ⟨∅, fun _ _ => rfl, by simp⟩

theorem congr (h : Total n t) {n' : ι → Nat} (he : ∀ i, n' i = n i) : Total n' t := by
  rw [show n' = n from funext he]
  exact h

variable [DecidableEq ι]

/-- The finite set may be taken to contain any given place. -/
theorem insert (h : Total n t) (i : ι) :
    ∃ F : Finset ι, i ∈ F ∧ (∀ j, j ∉ F → n j = 0) ∧ t = ((∑ j ∈ F, n j : Nat) : Int) := by
  obtain ⟨F, hF, rfl⟩ := h
  refine ⟨Insert.insert i F, Finset.mem_insert_self i F,
    fun j hj => hF j fun hm => hj (Finset.mem_insert_of_mem hm), ?_⟩
  rw [Finset.sum_subset (Finset.subset_insert i F) fun j _ hj => hF j hj]

theorem update (h : Total n t) (i : ι) (k : Nat) :
    Total (Function.update n i k) (t - n i + k) := by
  obtain ⟨F, hi, hF, rfl⟩ := h.insert i
  refine ⟨F, fun j hj => ?_, ?_⟩
  · rw [Function.update_of_ne (fun e => hj (by rw [e]; exact hi))]
    exact hF j hj
  · have hsum := Finset.add_sum_erase F n hi
    have herase : ∑ j ∈ F.erase i, Function.update n i k j = ∑ j ∈ F.erase i, n j :=
      Finset.sum_congr rfl fun j hj => Function.update_of_ne (Finset.ne_of_mem_erase hj) ..
    rw [← Finset.add_sum_erase F (Function.update n i k) hi, Function.update_self, herase,
      ← hsum]
    push_cast
    omega

theorem le (h : Total n t) (i : ι) : (n i : Int) ≤ t := by
  obtain ⟨F, hi, -, rfl⟩ := h.insert i
  exact Int.ofNat_le.mpr (Finset.single_le_sum (fun _ _ => Nat.zero_le _) hi)

theorem add_le (h : Total n t) {i j : ι} (hij : j ≠ i) : (n i + n j : Int) ≤ t := by
  have hi := (h.update j 0).le i
  rw [Function.update_of_ne (Ne.symm hij)] at hi
  push_cast at hi
  omega

theorem of_zero (h : Total n 0) (i : ι) : n i = 0 := by
  have := h.le i
  omega

/-- With a total of 1 the place that has one is the only one. -/
theorem of_one (h : Total n 1) {i : ι} (hi : 0 < n i) :
    n i = 1 ∧ ∀ j, j ≠ i → n j = 0 := by
  have hle := h.le i
  refine ⟨by omega, fun j hj => ?_⟩
  have := h.add_le hj
  omega

end Total

end TrIrcd.Lib
