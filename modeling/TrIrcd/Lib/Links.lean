import TrIrcd.Lib.Dlist

/-!
# Doubly linked lists with a head pointer each

A node carries the two links itself and a list is a pointer to its first
node, so a node is in at most one list of the family. `Links.add` and
`Links.del` are the two functions such lists come with in C, assignment by
assignment; `Links.clear` wipes the links of a node. `Linked L V` reads the
lists off: adding is `cons`, and deleting takes one node out of the middle.
-/

namespace TrIrcd.Lib

open Function (update)

structure Links (ι ν : Type) where
  head : ι → Option ν
  next : ν → Option ν
  prev : ν → Option ν

variable {ι ν : Type}

namespace Links

def empty : Links ι ν where
  head _ := none
  next _ := none
  prev _ := none

variable [DecidableEq ι] [DecidableEq ν]

/-- Put `x` in front of list `i`. -/
def add (i : ι) (x : ν) (L : Links ι ν) : Links ι ν :=
  let prev := update L.prev x none
  { head := update L.head i (some x)
    next := update L.next x (L.head i)
    prev := match L.head i with
      | some h => update prev h (some x)
      | none => prev }

/-- Make the neighbours of `x` in list `i` point past it. -/
def del (i : ι) (x : ν) (L : Links ι ν) : Links ι ν where
  head := match L.prev x with
    | some _ => L.head
    | none => update L.head i (L.next x)
  next := match L.prev x with
    | some p => update L.next p (L.next x)
    | none => L.next
  prev := match L.next x with
    | some n => update L.prev n (L.prev x)
    | none => L.prev

/-- Wipe the links of `x`. -/
def clear (x : ν) (L : Links ι ν) : Links ι ν :=
  { L with next := update L.next x none, prev := update L.prev x none }

end Links

/-- The lists of `L` are `V`. -/
structure Linked (L : Links ι ν) (V : ι → List ν) : Prop where
  dlist : ∀ i, IsDlist L.next L.prev (L.head i) (V i).getLast? (V i)
  apart : Apart V

namespace Linked

variable {L : Links ι ν} {V : ι → List ν}

theorem empty : Linked (Links.empty : Links ι ν) fun _ => [] where
  dlist _ := IsDlist.empty
  apart _ _ _ h := by cases h

theorem nodup (h : Linked L V) (i : ι) : (V i).Nodup := (h.dlist i).nodup

theorem head_eq (h : Linked L V) (i : ι) : L.head i = (V i).head? := (h.dlist i).1.head_eq

/-- What stands behind the head of a list is its rest. -/
theorem next_head (h : Linked L V) {i : ι} {x : ν} {xs : List ν} (hv : V i = x :: xs) :
    L.next x = xs.head? := by
  have hd := h.dlist i
  rw [hv] at hd
  exact IsChain.next_eq_head? (show IsChain L.next (L.head i) ([] ++ x :: xs) from hd.1)

variable [DecidableEq ν]

theorem clear (h : Linked L V) {x : ν} (hx : ∀ i, x ∉ V i) : Linked (L.clear x) V where
  dlist i := (h.dlist i).congr
    (fun y hy => Function.update_of_ne (fun e => hx i (by rw [← e]; exact hy)) ..)
    (fun y hy => Function.update_of_ne (fun e => hx i (by rw [← e]; exact hy)) ..)
  apart := h.apart

variable [DecidableEq ι]

theorem add (h : Linked L V) {x : ν} (hx : ∀ i, x ∉ V i) (i : ι) :
    Linked (L.add i x) (update V i (x :: V i)) := by
  refine ⟨fun j => ?_, h.apart.update fun y hy j hj => ?_⟩
  · by_cases hj : j = i
    · subst hj
      have hd := h.dlist j
      have hxj := hx j
      simp only [Links.add, Function.update_self]
      cases hv : V j with
      | nil =>
          rw [hv] at hd
          rw [show L.head j = none from hd.1]
          exact IsDlist.push_empty
      | cons y ys =>
          rw [hv] at hd hxj
          rw [show L.head j = some y from hd.1.1, List.getLast?_cons_cons]
          exact hd.push_cons hxj
    · have hoff : ∀ y ∈ V j, y ≠ x := fun y hy e => hx j (by rw [← e]; exact hy)
      rw [Function.update_of_ne hj]
      simp only [Links.add, Function.update_of_ne hj]
      refine (h.dlist j).congr (fun y hy => Function.update_of_ne (hoff y hy) ..) fun y hy => ?_
      cases hh : L.head i with
      | none => exact Function.update_of_ne (hoff y hy) ..
      | some n =>
          -- The old head of list `i` is not on list `j`.
          have hn : n ∈ V i := by
            rw [h.head_eq] at hh
            exact List.mem_of_head? hh
          have hyn : y ≠ n := fun e => hj (h.apart hy (by rw [e]; exact hn))
          simp only
          rw [Function.update_of_ne hyn, Function.update_of_ne (hoff y hy)]
  · rcases List.mem_cons.mp hy with rfl | hy
    · exact hx j
    · exact h.apart.notMem hy j hj

theorem del (h : Linked L V) {i : ι} {as bs : List ν} {x : ν} (hv : V i = as ++ x :: bs) :
    Linked (L.del i x) (update V i (as ++ bs)) := by
  have hd := h.dlist i
  rw [hv] at hd
  have hsub : ∀ {y}, y ∈ as ++ bs → y ∈ V i := by
    intro y hy
    rw [hv]
    exact (List.sublist_cons_self x bs).append_left as |>.subset hy
  refine ⟨fun j => ?_, h.apart.update fun y hy => h.apart.notMem (hsub hy)⟩
  by_cases hj : j = i
  · subst hj
    have hu := hd.unlink
    have ht := hu.tail_eq
    rw [Function.update_self, ← ht]
    simp only [Links.del]
    cases hp : L.prev x <;> cases hn : L.next x <;> simp only [hp, hn] at hu ⊢ <;>
      simpa only [Function.update_self] using hu
  · rw [Function.update_of_ne hj]
    have hoff : ∀ {y z}, y ∈ V j → z ∈ V i → y ≠ z := by
      rintro y _ hy hz rfl
      exact hj (h.apart hy hz)
    have hhead : (L.del i x).head j = L.head j := by
      simp only [Links.del]
      cases L.prev x with
      | none => exact Function.update_of_ne hj ..
      | some p => rfl
    rw [hhead]
    refine (h.dlist j).congr (fun y hy => ?_) fun y hy => ?_
    · simp only [Links.del]
      cases hp : L.prev x with
      | none => rfl
      | some p =>
          rw [hd.prev_eq] at hp
          exact Function.update_of_ne
            (hoff hy (hsub (List.mem_append_left _ (List.mem_of_getLast? hp)))) ..
    · simp only [Links.del]
      cases hn : L.next x with
      | none => rfl
      | some n =>
          rw [hd.next_eq] at hn
          exact Function.update_of_ne
            (hoff hy (hsub (List.mem_append_right _ (List.mem_of_head? hn)))) ..

theorem mem_erase (h : Linked L V) {i : ι} {x : ν} (hx : x ∈ V i) {j : ι} {y : ν} :
    y ∈ update V i ((V i).erase x) j ↔ y ≠ x ∧ y ∈ V j := by
  by_cases hj : j = i
  · subst hj
    rw [Function.update_self, (h.nodup j).mem_erase_iff]
  · rw [Function.update_of_ne hj]
    refine (and_iff_right_of_imp ?_).symm
    rintro hy rfl
    exact hj (h.apart hy hx)

/-- Deleting a member of list `i`. -/
theorem del_mem (h : Linked L V) {i : ι} {x : ν} (hx : x ∈ V i) :
    Linked (L.del i x) (update V i ((V i).erase x)) := by
  obtain ⟨as, bs, -, hv, he⟩ := List.exists_erase_eq hx
  rw [he]
  exact h.del hv

end Linked

/-! ## Nodes on no list -/

/-- A node on no list has no links. -/
def Links.Tidy (L : Links ι ν) (V : ι → List ν) : Prop :=
  ∀ x, (∀ i, x ∉ V i) → L.next x = none ∧ L.prev x = none

namespace Linked

variable {L : Links ι ν} {V : ι → List ν}

theorem empty_tidy : Links.Tidy (Links.empty : Links ι ν) fun _ => [] :=
  fun _ _ => ⟨rfl, rfl⟩

variable [DecidableEq ν]

theorem clear_tidy (ht : L.Tidy V) (x : ν) : (L.clear x).Tidy V := by
  intro y hy
  obtain ⟨hn, hp⟩ := ht y hy
  by_cases hyx : y = x
  · subst hyx
    exact ⟨Function.update_self .., Function.update_self ..⟩
  · exact ⟨(Function.update_of_ne hyx ..).trans hn, (Function.update_of_ne hyx ..).trans hp⟩

variable [DecidableEq ι]

theorem add_tidy (h : Linked L V) (ht : L.Tidy V) (i : ι) (x : ν) :
    (L.add i x).Tidy (update V i (x :: V i)) := by
  intro y hy
  have hyx : y ≠ x := by
    rintro rfl
    exact hy i (mem_update_cons.mpr (Or.inl ⟨rfl, rfl⟩))
  have hyV : ∀ j, y ∉ V j := fun j hj => hy j (mem_update_cons.mpr (Or.inr hj))
  obtain ⟨hn, hp⟩ := ht y hyV
  simp only [Links.add]
  rw [Function.update_of_ne hyx]
  refine ⟨hn, ?_⟩
  cases hh : L.head i with
  | none => exact (Function.update_of_ne hyx ..).trans hp
  | some n =>
      rw [h.head_eq] at hh
      have hyn : y ≠ n := fun e => hyV i (by rw [e]; exact List.mem_of_head? hh)
      exact (Function.update_of_ne hyn ..).trans ((Function.update_of_ne hyx ..).trans hp)

/-- Deleting a member and wiping its links. -/
theorem remove (h : Linked L V) (ht : L.Tidy V) {i : ι} {x : ν} (hx : x ∈ V i) :
    Linked ((L.del i x).clear x) (update V i ((V i).erase x)) ∧
      ((L.del i x).clear x).Tidy (update V i ((V i).erase x)) := by
  refine ⟨(h.del_mem hx).clear fun j hj => ((h.mem_erase hx).mp hj).1 rfl, fun y hy => ?_⟩
  by_cases hyx : y = x
  · subst hyx
    exact ⟨Function.update_self .., Function.update_self ..⟩
  have hyV : ∀ j, y ∉ V j := fun j hj => hy j ((h.mem_erase hx).mpr ⟨hyx, hj⟩)
  obtain ⟨hn, hp⟩ := ht y hyV
  obtain ⟨as, bs, -, hv, -⟩ := List.exists_erase_eq hx
  have hd := h.dlist i
  rw [hv] at hd
  have hmem : ∀ {z}, z ∈ as ++ bs → y ≠ z := by
    intro z hz e
    refine hyV i ?_
    rw [hv, e]
    exact (List.sublist_cons_self x bs).append_left as |>.subset hz
  simp only [Links.clear, Links.del]
  rw [Function.update_of_ne hyx, Function.update_of_ne hyx]
  constructor
  · cases hpx : L.prev x with
    | none => exact hn
    | some p =>
        rw [hd.prev_eq] at hpx
        exact (Function.update_of_ne
          (hmem (List.mem_append_left _ (List.mem_of_getLast? hpx))) ..).trans hn
  · cases hnx : L.next x with
    | none => exact hp
    | some n =>
        rw [hd.next_eq] at hnx
        exact (Function.update_of_ne
          (hmem (List.mem_append_right _ (List.mem_of_head? hnx))) ..).trans hp

end Linked

end TrIrcd.Lib
