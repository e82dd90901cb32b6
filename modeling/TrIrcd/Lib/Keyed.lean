import Mathlib.Data.List.Find
import Mathlib.Data.List.Pairwise

/-!
# Lists with distinct keys

A chain of entries that no two share a key is a finite map: searching it for
a key finds the one entry that has it. Adding an entry under a key nobody has
and taking an entry out change the search at that key and at no other.
-/

namespace TrIrcd.Lib

variable {ν κ : Type}

/-- No two entries have the same key. -/
def Keyed (key : ν → κ) (xs : List ν) : Prop :=
  xs.Pairwise fun x y => key x ≠ key y

namespace Keyed

variable {key : ν → κ} {xs as bs : List ν} {x : ν}

theorem nil : Keyed key [] := List.Pairwise.nil

theorem sublist (h : Keyed key xs) {ys : List ν} (hs : List.Sublist ys xs) :
    Keyed key ys := List.Pairwise.sublist hs h

theorem congr (h : Keyed key xs) {key' : ν → κ} (hk : ∀ x ∈ xs, key' x = key x) :
    Keyed key' xs :=
  h.imp_of_mem fun hx hy hne => by rw [hk _ hx, hk _ hy]; exact hne

theorem remove (h : Keyed key (as ++ x :: bs)) : Keyed key (as ++ bs) :=
  h.sublist (List.Sublist.append_left (List.sublist_cons_self x bs) as)

theorem cons (h : Keyed key xs) (hx : ∀ y ∈ xs, key y ≠ key x) :
    Keyed key (x :: xs) :=
  List.pairwise_cons.mpr ⟨fun y hy e => hx y hy e.symm, h⟩

theorem concat (h : Keyed key xs) (hx : ∀ y ∈ xs, key y ≠ key x) :
    Keyed key (xs ++ [x]) := by
  refine List.pairwise_append.mpr ⟨h, List.pairwise_singleton .., ?_⟩
  intro y hy z hz
  rw [List.mem_singleton.mp hz]
  exact hx y hy

/-- The entries that stay have keys other than the one taken out. -/
theorem ne_of_mem_remove (h : Keyed key (as ++ x :: bs)) {y : ν}
    (hy : y ∈ as ++ bs) : key y ≠ key x := by
  obtain ⟨-, hb, hab⟩ := List.pairwise_append.mp h
  rcases List.mem_append.mp hy with hy | hy
  · exact hab y hy x (List.mem_cons_self ..)
  · exact ((List.pairwise_cons.mp hb).1 y hy).symm

theorem eq_of_mem (h : Keyed key xs) {y : ν} (hx : x ∈ xs) (hy : y ∈ xs)
    (he : key x = key y) : x = y := by
  obtain ⟨as, bs, rfl⟩ := List.append_of_mem hx
  by_contra hne
  refine h.ne_of_mem_remove (y := y) ?_ he.symm
  rcases List.mem_append.mp hy with hy | hy
  · exact List.mem_append_left _ hy
  · rcases List.mem_cons.mp hy with rfl | hy
    · exact absurd rfl hne
    · exact List.mem_append_right _ hy

end Keyed

section Find

variable [DecidableEq κ] {key : ν → κ} {xs as bs : List ν} {x : ν} {k : κ}

theorem find?_key_eq_none : (xs.find? fun y => key y = k) = none ↔ ∀ y ∈ xs, key y ≠ k := by
  simp only [List.find?_eq_none, decide_eq_true_eq, ne_eq]

theorem find?_key_some (h : (xs.find? fun y => key y = k) = some x) : x ∈ xs ∧ key x = k :=
  ⟨List.mem_of_find?_eq_some h, by simpa using List.find?_some h⟩

theorem find?_key_congr {key' : ν → κ} (hk : ∀ x ∈ xs, key' x = key x) :
    (xs.find? fun y => key' y = k) = xs.find? fun y => key y = k :=
  List.find?_congr fun x hx => by rw [hk x hx]

/-- The search finds the entry with the key, the only one. -/
theorem Keyed.find? (h : Keyed key xs) (hx : x ∈ xs) :
    (xs.find? fun y => key y = key x) = some x := by
  cases hf : xs.find? fun y => key y = key x with
  | none => exact absurd rfl (find?_key_eq_none.mp hf x hx)
  | some y =>
      obtain ⟨hy, hk⟩ := find?_key_some hf
      rw [h.eq_of_mem hy hx hk]

theorem find?_concat_key :
    ((xs ++ [x]).find? fun y => key y = k) =
      (xs.find? fun y => key y = k).or (if key x = k then some x else none) := by
  rw [List.find?_append, List.find?_cons, List.find?_nil]
  by_cases hk : key x = k
  · simp only [hk, decide_true, if_true]
  · simp only [hk, decide_false, if_false]

theorem find?_cons_key :
    ((x :: xs).find? fun y => key y = k) =
      if key x = k then some x else xs.find? fun y => key y = k := by
  rw [List.find?_cons]
  by_cases hk : key x = k
  · simp only [hk, decide_true, if_true]
  · simp only [hk, decide_false, if_false]

/-- Taking an entry out empties its key and leaves the others. -/
theorem Keyed.find?_remove (h : Keyed key (as ++ x :: bs)) :
    ((as ++ bs).find? fun y => key y = k) =
      if k = key x then none else (as ++ x :: bs).find? fun y => key y = k := by
  split
  · next hk =>
      subst hk
      exact find?_key_eq_none.mpr fun y hy => h.ne_of_mem_remove hy
  · next hk =>
      rw [List.find?_append, List.find?_append, find?_cons_key, if_neg (Ne.symm hk)]

end Find

end TrIrcd.Lib
