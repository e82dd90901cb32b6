import Mathlib.Logic.Relation
import Mathlib.Data.List.Nodup
import Mathlib.Order.Basic

/-!
# Forests below a node

A tree given by the lists of its nodes, `kids p` with the inner nodes and
`leaves p` with the leaves under `p`, is taken apart from the top by programs
that walk those lists. Inductions over such a program need the tree as a
value: a `Forest` is the list of trees in `kids p`, each with its leaves and
the forest under its root, first child and next sibling.

`Hangs` says that a forest is cut out of the lists. With a parent relation
that is functional and has no cycles, a forest that hangs below one parent
has no node twice (`Hangs.nodup`) and holds exactly the nodes from which the
chain of parents reaches one of its roots (`Hangs.mem_all_iff`). Where heights
are bounded, every list of kids is the roots of a forest (`exists_forest`).
-/

namespace TrIrcd.Lib

open Relation (ReflTransGen TransGen)

/-- The first tree, as its root, the leaves and the forest below the root, and
the other trees. -/
inductive Forest (ν : Type)
  | nil
  | node (root : ν) (leaves : List ν) (below rest : Forest ν)

namespace Forest

variable {ν : Type}

def roots : Forest ν → List ν
  | nil => []
  | node root _ _ rest => root :: rest.roots

/-- The inner nodes, children before their parent. -/
def inner : Forest ν → List ν
  | nil => []
  | node root _ below rest => below.inner ++ root :: rest.inner

def allLeaves : Forest ν → List ν
  | nil => []
  | node _ leaves below rest => leaves ++ below.allLeaves ++ rest.allLeaves

/-- All nodes, in the order in which they are taken out. -/
def all : Forest ν → List ν
  | nil => []
  | node root leaves below rest => leaves ++ below.all ++ root :: rest.all

/-- The forest is what `kids` and `leaves` say it is below its roots. -/
def Hangs (kids leaves : ν → List ν) : Forest ν → Prop
  | nil => True
  | node root us below rest =>
      leaves root = us ∧ kids root = below.roots ∧ below.Hangs kids leaves ∧
        rest.Hangs kids leaves

theorem roots_subset (f : Forest ν) : ∀ x ∈ f.roots, x ∈ f.all := by
  induction f with
  | nil => exact fun x hx => hx
  | node root us below rest _ ih =>
      intro x hx
      refine List.mem_append_right _ ?_
      rcases List.mem_cons.mp hx with rfl | hx
      · exact List.mem_cons_self ..
      · exact List.mem_cons_of_mem _ (ih x hx)

theorem inner_sublist (f : Forest ν) : List.Sublist f.inner f.all := by
  induction f with
  | nil => exact List.Sublist.slnil
  | node root us below rest ihb ihr =>
      exact (ihb.trans (List.sublist_append_right us _)).append (ihr.cons_cons root)

theorem allLeaves_sublist (f : Forest ν) : List.Sublist f.allLeaves f.all := by
  induction f with
  | nil => exact List.Sublist.slnil
  | node root us below rest ihb ihr =>
      exact ((List.Sublist.refl us).append ihb).append (ihr.trans (List.sublist_cons_self ..))

theorem mem_all_iff {f : Forest ν} {x : ν} : x ∈ f.all ↔ x ∈ f.inner ∨ x ∈ f.allLeaves := by
  induction f with
  | nil => simp [all, inner, allLeaves]
  | node root us below rest ihb ihr =>
      simp only [all, inner, allLeaves, List.mem_append, List.mem_cons, ihb, ihr]
      constructor
      · rintro ((h | h | h) | h | h | h)
        · exact Or.inr (Or.inl (Or.inl h))
        · exact Or.inl (Or.inl h)
        · exact Or.inr (Or.inl (Or.inr h))
        · exact Or.inl (Or.inr (Or.inl h))
        · exact Or.inl (Or.inr (Or.inr h))
        · exact Or.inr (Or.inr h)
      · rintro ((h | h | h) | (h | h) | h)
        · exact Or.inl (Or.inr (Or.inl h))
        · exact Or.inr (Or.inl h)
        · exact Or.inr (Or.inr (Or.inl h))
        · exact Or.inl (Or.inl h)
        · exact Or.inl (Or.inr (Or.inr h))
        · exact Or.inr (Or.inr (Or.inr h))

theorem perm_all (f : Forest ν) : f.all.Perm (f.inner ++ f.allLeaves) := by
  classical
  induction f with
  | nil => exact List.Perm.refl _
  | node root us below rest ihb ihr =>
      refine List.perm_iff_count.mpr fun a => ?_
      have hb := ihb.count_eq a
      have hr := ihr.count_eq a
      simp only [all, inner, allLeaves, List.count_append, List.count_cons] at hb hr ⊢
      omega

/-- What the lists of an inner node hold is in the forest. -/
theorem Hangs.subset {kids leaves : ν → List ν} {f : Forest ν} (h : f.Hangs kids leaves)
    {x : ν} (hx : x ∈ f.inner) : (∀ y ∈ kids x, y ∈ f.all) ∧ ∀ y ∈ leaves x, y ∈ f.all := by
  induction f with
  | nil => cases hx
  | node root us below rest ihb ihr =>
      obtain ⟨hl, hk, hb, hr⟩ := h
      simp only [all, List.mem_append, List.mem_cons]
      rcases List.mem_append.mp hx with hx | hx
      · exact ⟨fun y hy => Or.inl (Or.inr ((ihb hb hx).1 y hy)),
          fun y hy => Or.inl (Or.inr ((ihb hb hx).2 y hy))⟩
      · rcases List.mem_cons.mp hx with rfl | hx
        · rw [hl, hk]
          exact ⟨fun y hy => Or.inl (Or.inr (below.roots_subset y hy)),
            fun y hy => Or.inl (Or.inl hy)⟩
        · exact ⟨fun y hy => Or.inr (Or.inr ((ihr hr hx).1 y hy)),
            fun y hy => Or.inr (Or.inr ((ihr hr hx).2 y hy))⟩

/-- Leaves are leaves and inner nodes are kids, but for the roots. -/
theorem Hangs.origin {kids leaves : ν → List ν} {f : Forest ν} (h : f.Hangs kids leaves) :
    (∀ y ∈ f.allLeaves, ∃ p, y ∈ leaves p) ∧
      ∀ y ∈ f.inner, y ∈ f.roots ∨ ∃ p, y ∈ kids p := by
  induction f with
  | nil => exact ⟨fun y hy => absurd hy List.not_mem_nil, fun y hy => absurd hy List.not_mem_nil⟩
  | node root us below rest ihb ihr =>
      obtain ⟨hl, hk, hb, hr⟩ := h
      refine ⟨fun y hy => ?_, fun y hy => ?_⟩
      · rcases List.mem_append.mp hy with hy | hy
        · rcases List.mem_append.mp hy with hy | hy
          · exact ⟨root, by rw [hl]; exact hy⟩
          · exact (ihb hb).1 y hy
        · exact (ihr hr).1 y hy
      · rcases List.mem_append.mp hy with hy | hy
        · refine Or.inr (((ihb hb).2 y hy).elim (fun hy => ⟨root, ?_⟩) id)
          rw [hk]
          exact hy
        · rcases List.mem_cons.mp hy with rfl | hy
          · exact Or.inl (List.mem_cons_self ..)
          · exact ((ihr hr).2 y hy).imp_left (List.mem_cons_of_mem _)

/-- A forest hangs where the lists of its inner nodes are as they were. -/
theorem Hangs.congr {kids leaves kids' leaves' : ν → List ν} {f : Forest ν}
    (h : f.Hangs kids leaves)
    (he : ∀ x ∈ f.inner, kids' x = kids x ∧ leaves' x = leaves x) :
    f.Hangs kids' leaves' := by
  induction f with
  | nil => trivial
  | node root us below rest ihb ihr =>
      obtain ⟨hl, hk, hb, hr⟩ := h
      obtain ⟨hk', hl'⟩ := he root (by simp [inner])
      exact ⟨hl'.trans hl, hk'.trans hk, ihb hb fun x hx => he x (by simp [inner, hx]),
        ihr hr fun x hx => he x (by simp [inner, hx])⟩

/-! ## The parent relation -/

section Parent

variable {kids leaves : ν → List ν} {par : ν → ν → Prop} {f : Forest ν}

/-- A chain of parents leads from every node to a root. -/
theorem Hangs.chain (hk : ∀ p, ∀ x ∈ kids p, par x p) (hl : ∀ p, ∀ x ∈ leaves p, par x p)
    (h : f.Hangs kids leaves) {y : ν} (hy : y ∈ f.all) :
    ∃ r ∈ f.roots, ReflTransGen par y r := by
  induction f with
  | nil => cases hy
  | node root us below rest ihb ihr =>
      obtain ⟨hlr, hkr, hb, hr⟩ := h
      rcases List.mem_append.mp hy with hy | hy
      · refine ⟨root, List.mem_cons_self .., ?_⟩
        rcases List.mem_append.mp hy with hy | hy
        · exact ReflTransGen.single (hl root y (by rw [hlr]; exact hy))
        · obtain ⟨r, hrr, hc⟩ := ihb hb hy
          exact hc.tail (hk root r (by rw [hkr]; exact hrr))
      · rcases List.mem_cons.mp hy with rfl | hy
        · exact ⟨y, List.mem_cons_self .., ReflTransGen.refl⟩
        · obtain ⟨r, hrr, hc⟩ := ihr hr hy
          exact ⟨r, List.mem_cons_of_mem _ hrr, hc⟩

/-- The children of a node of the forest are in the forest. -/
theorem Hangs.closed (hp : ∀ x p, par x p → x ∈ kids p ∨ x ∈ leaves p)
    (hend : ∀ p, ∀ x ∈ leaves p, ∀ y, ¬ par y x)
    (h : f.Hangs kids leaves) {x y : ν} (hx : x ∈ f.all) (hy : par y x) : y ∈ f.all := by
  induction f with
  | nil => cases hx
  | node root us below rest ihb ihr =>
      obtain ⟨hlr, hkr, hb, hr⟩ := h
      simp only [all, List.mem_append, List.mem_cons] at hx ⊢
      rcases hx with (hx | hx) | rfl | hx
      · exact absurd hy (hend root x (by rw [hlr]; exact hx) y)
      · exact Or.inl (Or.inr (ihb hb hx))
      · refine Or.inl ?_
        rcases hp y _ hy with hy | hy
        · rw [hkr] at hy
          exact Or.inr (below.roots_subset y hy)
        · rw [hlr] at hy
          exact Or.inl hy
      · exact Or.inr (Or.inr (ihr hr hx))

/-- What is in the forest: the nodes from which parents lead to a root. -/
theorem Hangs.mem_all_iff (hk : ∀ p, ∀ x ∈ kids p, par x p)
    (hl : ∀ p, ∀ x ∈ leaves p, par x p) (hp : ∀ x p, par x p → x ∈ kids p ∨ x ∈ leaves p)
    (hend : ∀ p, ∀ x ∈ leaves p, ∀ y, ¬ par y x)
    (h : f.Hangs kids leaves) {y : ν} :
    y ∈ f.all ↔ ∃ r ∈ f.roots, ReflTransGen par y r := by
  refine ⟨h.chain hk hl, ?_⟩
  rintro ⟨r, hr, hc⟩
  induction hc using ReflTransGen.head_induction_on with
  | refl => exact f.roots_subset r hr
  | head hxy _ ih => exact h.closed hp hend ih hxy

/-- No node is in the forest twice. -/
theorem Hangs.nodup (hk : ∀ p, ∀ x ∈ kids p, par x p) (hl : ∀ p, ∀ x ∈ leaves p, par x p)
    (hu : ∀ {x p q}, par x p → par x q → p = q) (hac : ∀ x, ¬ TransGen par x x)
    (hkl : ∀ p, ∀ x ∈ leaves p, x ∉ kids p) (hkn : ∀ p, (kids p).Nodup)
    (hln : ∀ p, (leaves p).Nodup) :
    ∀ {f : Forest ν} {p : ν}, f.Hangs kids leaves → f.roots.Nodup →
      (∀ r ∈ f.roots, par r p) → f.all.Nodup := by
  have hru : Relator.RightUnique par := fun _ _ _ => hu
  intro f
  induction f with
  | nil => exact fun _ _ _ => List.nodup_nil
  | node root us below rest ihb ihr =>
      intro p h hnd hrp
      have h' := h
      obtain ⟨hlr, hkr, hb, hr⟩ := h
      obtain ⟨hroot, hrest⟩ := List.nodup_cons.mp hnd
      have hbp : ∀ r ∈ below.roots, par r root := fun r hr => hk root r (by rw [hkr]; exact hr)
      have hup : ∀ u ∈ us, par u root := fun u hu => hl root u (by rw [hlr]; exact hu)
      -- Everything below the root leads to the root in at least one step.
      have hbelow : ∀ y ∈ us ++ below.all, TransGen par y root := by
        intro y hy
        rcases List.mem_append.mp hy with hy | hy
        · exact TransGen.single (hup y hy)
        · obtain ⟨r, hr, hc⟩ := hb.chain hk hl hy
          exact TransGen.tail' hc (hbp r hr)
      have hsub : (us ++ below.all).Nodup := by
        refine List.nodup_append.mpr ⟨by rw [← hlr]; exact hln root,
          ihb hb (by rw [← hkr]; exact hkn root) hbp, ?_⟩
        rintro u hu' _ hy rfl
        obtain ⟨r, hr, hc⟩ := hb.chain hk hl hy
        rcases hc.cases_head with rfl | ⟨q, hq, hc⟩
        · exact hkl root _ (by rw [hlr]; exact hu') (by rw [hkr]; exact hr)
        · rw [← hu (hup u hu') hq] at hc
          exact hac root (TransGen.tail' hc (hbp r hr))
      refine List.nodup_append.mpr ⟨hsub, List.nodup_cons.mpr ⟨?_, ihr hr hrest
        fun r hr => hrp r (List.mem_cons_of_mem _ hr)⟩, ?_⟩
      · -- Two siblings, one above the other, close a cycle through the parent.
        intro hy
        obtain ⟨r, hr', hc⟩ := hr.chain hk hl hy
        rcases hc.cases_head with rfl | ⟨q, hq, hc⟩
        · exact hroot hr'
        · rw [← hu (hrp root (List.mem_cons_self ..)) hq] at hc
          exact hac p (TransGen.tail' hc (hrp r (List.mem_cons_of_mem _ hr')))
      · rintro y hy _ hz rfl
        rcases List.mem_cons.mp hz with rfl | hz
        · exact hac y (hbelow y hy)
        · obtain ⟨r, hr', hc⟩ := hr.chain hk hl hz
          have hpr := hrp r (List.mem_cons_of_mem _ hr')
          have hpp := hrp root (List.mem_cons_self ..)
          rcases ReflTransGen.total_of_right_unique hru hc (hbelow y hy).to_reflTransGen with
            hc' | hc'
          · rcases hc'.cases_head with rfl | ⟨q, hq, hc'⟩
            · exact hroot hr'
            · rw [← hu hpr hq] at hc'
              exact hac p (TransGen.tail' hc' hpp)
          · rcases hc'.cases_head with rfl | ⟨q, hq, hc'⟩
            · exact hroot hr'
            · rw [← hu hpp hq] at hc'
              exact hac p (TransGen.tail' hc' hpr)

end Parent

/-- Below bounded heights every list of kids is the roots of a forest. -/
theorem exists_forest {kids : ν → List ν} (leaves : ν → List ν) (height : ν → Nat)
    (hh : ∀ p, ∀ x ∈ kids p, height x < height p) :
    ∀ (n : Nat) (xs : List ν), (∀ x ∈ xs, height x < n) →
      ∃ f : Forest ν, f.roots = xs ∧ f.Hangs kids leaves := by
  intro n
  induction n with
  | zero =>
      intro xs hxs
      cases xs with
      | nil => exact ⟨nil, rfl, trivial⟩
      | cons x xs => exact absurd (hxs x (List.mem_cons_self ..)) (Nat.not_lt_zero _)
  | succ n ihn =>
      intro xs hxs
      induction xs with
      | nil => exact ⟨nil, rfl, trivial⟩
      | cons x xs ih =>
          have hx := hxs x (List.mem_cons_self ..)
          obtain ⟨rest, hrest, hr⟩ := ih fun y hy => hxs y (List.mem_cons_of_mem _ hy)
          obtain ⟨below, hbelow, hb⟩ := ihn (kids x) fun y hy => by
            have := hh x y hy
            omega
          exact ⟨node x (leaves x) below rest, by rw [roots, hrest], rfl, hbelow.symm, hb, hr⟩

end Forest

end TrIrcd.Lib
