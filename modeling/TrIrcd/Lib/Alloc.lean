import Mathlib.Logic.Function.Basic

/-!
# Allocators

An allocator is any rule that answers an address which is not in use. It
carries that promise with it, so a result stated for an arbitrary `Allocator`
holds whatever order addresses are handed out in, and however soon a freed
one comes back.
-/

namespace TrIrcd.Lib

structure Allocator where
  pick : List Nat → Nat
  pick_fresh : ∀ used, pick used ∉ used

theorem lt_foldr_max_succ {a : Nat} {l : List Nat} (h : a ∈ l) :
    a < l.foldr max 0 + 1 := by
  induction l with
  | nil => cases h
  | cons b l ih =>
      rw [List.foldr_cons]
      rcases List.mem_cons.mp h with rfl | hl
      · omega
      · have := ih hl
        omega

/-- Hand out the first address above every one in use. -/
def Allocator.bump : Allocator where
  pick used := used.foldr max 0 + 1
  pick_fresh _ h := Nat.lt_irrefl _ (lt_foldr_max_succ h)

end TrIrcd.Lib
