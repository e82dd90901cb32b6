import TrIrcd.Lib.Chain
import Mathlib.Data.List.Perm.Subperm
import Mathlib.Data.List.TakeWhile

/-!
# Chained tables

An intrusive chained table keeps one pointer per bucket and one link per
node, and a node is in at most one chain. It offers what such tables offer in
C: put a node in front of a bucket or at its end, take it out with the loop
that drags a `prev` along, and search a bucket for the first node with a
property.

`Chains T V` reads a table as the list of nodes of every bucket, and under it
the operations are `cons`, `++`, `erase` and `find?` on one bucket.
-/

namespace TrIrcd.Lib

open Function (update)

/-- Bucket pointers, chain links, and the number of insertions so far, which
no chain can exceed and every loop over one uses as fuel. -/
structure Buckets (ι ν : Type) where
  head : ι → Option ν
  next : ν → Option ν
  bound : Nat

variable {ι ν : Type}

/-- The loop that looks for `x` and remembers the node before it. -/
def seekPrev [DecidableEq ν] (next : ν → Option ν) (x : ν) :
    Nat → Option ν → Option ν → Option (Option ν)
  | 0, _, _ => none
  | _ + 1, _, none => none
  | fuel + 1, prev, some y =>
      if y = x then some prev else seekPrev next x fuel (some y) (next y)

/-- The loop that looks for the first node with a property and remembers the
node before it: where it stopped, and what it found there. -/
def seekFirst (next : ν → Option ν) (p : ν → Bool) :
    Nat → Option ν → Option ν → Option ν × Option ν
  | 0, last, _ => (last, none)
  | _ + 1, last, none => (last, none)
  | fuel + 1, last, some x =>
      if p x then (last, some x) else seekFirst next p fuel (some x) (next x)

namespace Buckets

def empty : Buckets ι ν where
  head _ := none
  next _ := none
  bound := 0

/-- The first node of bucket `i` that satisfies `p`. -/
def find (i : ι) (p : ν → Bool) (T : Buckets ι ν) : Option ν :=
  findFrom T.next p T.bound (T.head i)

/-- The first node of bucket `i` that satisfies `p`, after the node before it. -/
def seek (i : ι) (p : ν → Bool) (T : Buckets ι ν) : Option ν × Option ν :=
  seekFirst T.next p T.bound none (T.head i)

/-- The nodes of bucket `i`. -/
def nodes (i : ι) (T : Buckets ι ν) : List ν := walk T.next T.bound (T.head i)

variable [DecidableEq ι] [DecidableEq ν]

/-- Put `x` in front of bucket `i`. -/
def push (i : ι) (x : ν) (T : Buckets ι ν) : Buckets ι ν where
  head := update T.head i (some x)
  next := update T.next x (T.head i)
  bound := T.bound + 1

/-- Take `x` out of bucket `i`; `none` if the loop does not meet it. -/
def unlink (i : ι) (x : ν) (T : Buckets ι ν) : Option (Buckets ι ν) :=
  match seekPrev T.next x T.bound none (T.head i) with
  | none => none
  | some (some p) => some { T with next := update T.next p (T.next x) }
  | some none => some { T with head := update T.head i (T.next x) }

/-- Take out `x`, which stands after `last`, or first where there is no such
node. -/
def unlinkAfter (i : ι) (last : Option ν) (x : ν) (T : Buckets ι ν) : Buckets ι ν :=
  match last with
  | some p => { T with next := update T.next p (T.next x) }
  | none => { T with head := update T.head i (T.next x) }

/-- Put `x` after `last`, the end of bucket `i`. -/
def append (i : ι) (last : Option ν) (x : ν) (T : Buckets ι ν) : Buckets ι ν :=
  let next := update T.next x none
  match last with
  | some p => { T with next := update next p (some x), bound := T.bound + 1 }
  | none =>
      { T with next := next, head := update T.head i (some x), bound := T.bound + 1 }

/-- Clear the link of a node. -/
def clearNext (x : ν) (T : Buckets ι ν) : Buckets ι ν :=
  { T with next := update T.next x none }

end Buckets

/-- The chains of `T` are the lists `V`. -/
structure Chains (T : Buckets ι ν) (V : ι → List ν) : Prop where
  chain : ∀ i, IsChain T.next (T.head i) (V i)
  apart : Apart V
  bound : ∀ i, (V i).length ≤ T.bound

theorem seekPrev_eq [DecidableEq ν] {next : ν → Option ν} {x : ν}
    {as bs : List ν} (hx : x ∉ as) :
    ∀ {fuel : Nat} {prev h : Option ν}, IsChain next h (as ++ x :: bs) →
      (as ++ x :: bs).length ≤ fuel →
      seekPrev next x fuel prev h = some (as.getLast?.or prev) := by
  induction as with
  | nil =>
      intro fuel prev h hc hf
      obtain ⟨k, rfl⟩ : ∃ k, fuel = k + 1 :=
        ⟨fuel - 1, by simp only [List.nil_append, List.length_cons] at hf; omega⟩
      rw [hc.1, seekPrev, if_pos rfl]
      rfl
  | cons a as ih =>
      intro fuel prev h hc hf
      obtain ⟨k, rfl⟩ : ∃ k, fuel = k + 1 :=
        ⟨fuel - 1, by simp only [List.cons_append, List.length_cons] at hf; omega⟩
      have hax : a ≠ x := fun e => hx (by simp [e])
      rw [hc.1, seekPrev, if_neg hax,
        ih (fun h => hx (List.mem_cons_of_mem _ h)) hc.2
          (by simp only [List.cons_append, List.length_cons] at hf; omega),
        List.getLast?_cons]
      cases as.getLast? <;> rfl

theorem seekPrev_none [DecidableEq ν] {next : ν → Option ν} {x : ν}
    {xs : List ν} (hx : x ∉ xs) :
    ∀ {fuel : Nat} {prev h : Option ν}, IsChain next h xs →
      seekPrev next x fuel prev h = none := by
  induction xs with
  | nil =>
      intro fuel prev h hc
      rw [show h = none from hc]
      cases fuel <;> rfl
  | cons a xs ih =>
      intro fuel prev h hc
      cases fuel with
      | zero => rfl
      | succ fuel =>
          have hax : a ≠ x := fun e => hx (by simp [e])
          rw [hc.1, seekPrev, if_neg hax]
          exact ih (fun h => hx (List.mem_cons_of_mem _ h)) hc.2

theorem seekFirst_eq {next : ν → Option ν} {p : ν → Bool} {xs : List ν} :
    ∀ {fuel : Nat} {last h : Option ν}, IsChain next h xs → xs.length ≤ fuel →
      seekFirst next p fuel last h =
        ((xs.takeWhile fun x => !p x).getLast?.or last, xs.find? p) := by
  induction xs with
  | nil =>
      intro fuel last h hc _
      rw [show h = none from hc]
      cases fuel <;> rfl
  | cons x xs ih =>
      intro fuel last h hc hf
      obtain ⟨k, rfl⟩ : ∃ k, fuel = k + 1 :=
        ⟨fuel - 1, by simp only [List.length_cons] at hf; omega⟩
      rw [hc.1, seekFirst]
      by_cases hp : p x = true
      · simp [hp]
      · rw [if_neg hp, ih hc.2 (by simp only [List.length_cons] at hf; omega),
          List.takeWhile_cons_of_pos (by simpa using hp), List.getLast?_cons,
          List.find?_cons_of_neg hp]
        cases (xs.takeWhile fun x => !p x).getLast? <;> rfl

namespace Chains

variable {T : Buckets ι ν} {V : ι → List ν}

theorem empty : Chains (Buckets.empty : Buckets ι ν) fun _ => [] where
  chain _ := rfl
  apart _ _ _ h := by cases h
  bound _ := Nat.le_refl 0

theorem find (h : Chains T V) (i : ι) (p : ν → Bool) :
    T.find i p = (V i).find? p := findFrom_eq (h.chain i) (h.bound i)

theorem seek (h : Chains T V) (i : ι) (p : ν → Bool) :
    T.seek i p = (((V i).takeWhile fun x => !p x).getLast?, (V i).find? p) := by
  rw [Buckets.seek, seekFirst_eq (h.chain i) (h.bound i), Option.or_none]

/-- The node found has its neighbours around it. -/
theorem seek_some (h : Chains T V) {i : ι} {p : ν → Bool} {x : ν}
    (hf : (V i).find? p = some x) :
    ∃ as bs, V i = as ++ x :: bs ∧ T.seek i p = (as.getLast?, some x) := by
  obtain ⟨hx, as, bs, hv, has⟩ := List.find?_eq_some_iff_append.mp hf
  refine ⟨as, bs, hv, ?_⟩
  rw [h.seek, hf, hv, List.takeWhile_append_of_pos has,
    List.takeWhile_cons_of_neg (by simpa using hx), List.append_nil]

/-- Where there is none, the search ends at the end of the chain. -/
theorem seek_none (h : Chains T V) {i : ι} {p : ν → Bool} (hf : (V i).find? p = none) :
    T.seek i p = ((V i).getLast?, none) := by
  rw [h.seek, hf, List.takeWhile_eq_self_iff.mpr fun x hx => ?_]
  simpa using List.find?_eq_none.mp hf x hx

theorem nodes (h : Chains T V) (i : ι) : T.nodes i = V i :=
  walk_eq (h.chain i) (h.bound i)

theorem nodup (h : Chains T V) (i : ι) : (V i).Nodup := (h.chain i).nodup

/-- Clearing the link of a node that is in no chain changes none. -/
theorem clearNext [DecidableEq ν] (h : Chains T V) {x : ν}
    (hx : ∀ i, x ∉ V i) : Chains (T.clearNext x) V where
  chain i := (h.chain i).update_of_notMem (hx i)
  apart := h.apart
  bound := h.bound

variable [DecidableEq ι] [DecidableEq ν]

theorem push (h : Chains T V) {x : ν} (hx : ∀ i, x ∉ V i) (i : ι) :
    Chains (T.push i x) (update V i (x :: V i)) := by
  constructor
  · intro j
    by_cases hj : j = i
    · subst hj
      simp only [Buckets.push, Function.update_self]
      exact (h.chain j).push (hx j)
    · simp only [Buckets.push, Function.update_of_ne hj]
      exact (h.chain j).update_of_notMem (hx j)
  · refine h.apart.update fun y hy j hj => ?_
    rcases List.mem_cons.mp hy with rfl | hy
    · exact hx j
    · exact h.apart.notMem hy j hj
  · intro j
    by_cases hj : j = i
    · subst hj
      rw [Function.update_self, List.length_cons]
      exact Nat.succ_le_succ (h.bound j)
    · rw [Function.update_of_ne hj]
      exact Nat.le_succ_of_le (h.bound j)

theorem unlink_none (h : Chains T V) {i : ι} {x : ν} (hx : x ∉ V i) :
    T.unlink i x = none := by
  rw [Buckets.unlink, seekPrev_none hx (h.chain i)]

/-- Taking a node out from behind the one before it. -/
theorem unlinkAfter (h : Chains T V) {i : ι} {as bs : List ν} {x : ν}
    (hv : V i = as ++ x :: bs) :
    Chains (T.unlinkAfter i as.getLast? x) (update V i (as ++ bs)) := by
  have hc := h.chain i
  rw [hv] at hc
  have hu := hc.unlink
  have hsub : ∀ {y}, y ∈ as ++ bs → y ∈ V i := by
    intro y hy
    rw [hv]
    exact (List.sublist_cons_self x bs).append_left as |>.subset hy
  refine ⟨fun j => ?_, h.apart.update fun y hy => h.apart.notMem (hsub hy), fun j => ?_⟩
  · cases hl : as.getLast? with
    | none =>
        simp only [hl, Buckets.unlinkAfter] at hu ⊢
        by_cases hj : j = i
        · subst hj
          rw [Function.update_self, Function.update_self]
          exact hu
        · rw [Function.update_of_ne hj, Function.update_of_ne hj]
          exact h.chain j
    | some p =>
        simp only [hl, Buckets.unlinkAfter] at hu ⊢
        by_cases hj : j = i
        · subst hj
          rw [Function.update_self]
          exact hu
        · rw [Function.update_of_ne hj]
          refine (h.chain j).update_of_notMem (h.apart.notMem ?_ j hj)
          rw [hv]
          exact List.mem_append_left _ (List.mem_of_getLast? hl)
  · have hb : (T.unlinkAfter i as.getLast? x).bound = T.bound := by
      cases as.getLast? <;> rfl
    rw [hb]
    by_cases hj : j = i
    · subst hj
      have hlen := h.bound j
      rw [hv, List.length_append, List.length_cons] at hlen
      rw [Function.update_self, List.length_append]
      omega
    · rw [Function.update_of_ne hj]
      exact h.bound j

/-- Taking out a node of bucket `i` leaves its chain without the node. -/
theorem unlink (h : Chains T V) {i : ι} {x : ν} (hx : x ∈ V i) :
    ∃ T', T.unlink i x = some T' ∧
      Chains T' (update V i ((V i).erase x)) := by
  obtain ⟨as, bs, hxa, hv, he⟩ := List.exists_erase_eq hx
  have hc := h.chain i
  rw [hv] at hc
  have hseek : seekPrev T.next x T.bound none (T.head i) =
      some (as.getLast?.or none) :=
    seekPrev_eq hxa hc (by rw [← hv]; exact h.bound i)
  rw [Option.or_none] at hseek
  refine ⟨T.unlinkAfter i as.getLast? x, ?_, by rw [he]; exact h.unlinkAfter hv⟩
  rw [Buckets.unlink, hseek]
  cases as.getLast? <;> rfl

/-- A node that is in no chain, put at the end of one. -/
theorem append (h : Chains T V) {x : ν} (hx : ∀ i, x ∉ V i) (i : ι) :
    Chains (T.append i (V i).getLast? x) (update V i (V i ++ [x])) := by
  have hoff : ∀ j, IsChain (update T.next x none) (T.head j) (V j) :=
    fun j => (h.chain j).update_of_notMem (hx j)
  have hend : IsChain (update T.next x none) (some x) [x] :=
    ⟨rfl, Function.update_self ..⟩
  refine ⟨fun j => ?_, h.apart.update fun y hy j hj => ?_, fun j => ?_⟩
  · rcases List.eq_nil_or_concat (V i) with hv | ⟨as, p, hv⟩
    · simp only [hv, List.getLast?_nil, Buckets.append]
      by_cases hj : j = i
      · subst hj
        rw [Function.update_self, Function.update_self]
        exact hend
      · rw [Function.update_of_ne hj, Function.update_of_ne hj]
        exact hoff j
    · rw [List.concat_eq_append] at hv
      have hp : p ∈ V i := by rw [hv]; simp
      have hl : (V i).getLast? = some p := by rw [hv]; simp
      simp only [hl, Buckets.append]
      by_cases hj : j = i
      · subst hj
        rw [Function.update_self]
        have hc := hoff j
        rw [hv] at hc
        rw [hv, List.append_assoc]
        refine hc.redirect hend fun hm => hx j ?_
        rw [← List.mem_singleton.mp hm]
        exact hp
      · rw [Function.update_of_ne hj]
        exact (hoff j).update_of_notMem (h.apart.notMem hp j hj)
  · rcases List.mem_append.mp hy with hy | hy
    · exact h.apart.notMem hy j hj
    · rw [List.mem_singleton.mp hy]
      exact hx j
  · have hb : (T.append i (V i).getLast? x).bound = T.bound + 1 := by
      cases (V i).getLast? <;> rfl
    rw [hb]
    by_cases hj : j = i
    · subst hj
      rw [Function.update_self, List.length_append, List.length_singleton]
      exact Nat.succ_le_succ (h.bound j)
    · rw [Function.update_of_ne hj]
      exact Nat.le_succ_of_le (h.bound j)

end Chains

end TrIrcd.Lib
