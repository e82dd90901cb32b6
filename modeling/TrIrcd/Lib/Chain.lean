import Mathlib.Logic.Function.Basic
import Mathlib.Data.List.Nodup

/-!
# Pointer chains

A link field is a function from nodes to optional nodes, and a chain is the
list of nodes met when it is followed from a starting pointer until it ends.
The list is determined by the field and the pointer, which is why a chain
never meets a node twice (`IsChain.nodup`): a node met twice would be
followed by two different rests.

The other lemmas say what a program does to chains: writing the link of a
node off the chain leaves it alone, a fresh node in front extends it, and
redirecting the predecessor of a node takes the node out.
-/

namespace TrIrcd.Lib

variable {ν : Type}

/-- Following `next` from `h` meets exactly `xs` and then ends. -/
def IsChain (next : ν → Option ν) : Option ν → List ν → Prop
  | h, [] => h = none
  | h, x :: xs => h = some x ∧ IsChain next (next x) xs

namespace IsChain

variable {next next' : ν → Option ν} {h : Option ν} {xs ys : List ν}

theorem unique (hx : IsChain next h xs) (hy : IsChain next h ys) : xs = ys := by
  induction xs generalizing h ys with
  | nil =>
      cases ys with
      | nil => rfl
      | cons y ys => rw [IsChain] at hx; rw [hx] at hy; cases hy.1
  | cons x xs ih =>
      cases ys with
      | nil => rw [IsChain] at hy; rw [hy] at hx; cases hx.1
      | cons y ys =>
          have hxy : x = y := Option.some.inj (hx.1.symm.trans hy.1)
          subst hxy
          rw [ih hx.2 hy.2]

/-- The chain from the link of a node on a chain is what stands after it. -/
theorem suffix {as bs : List ν} {m : ν} (hc : IsChain next h (as ++ m :: bs)) :
    IsChain next (next m) bs := by
  induction as generalizing h with
  | nil => exact hc.2
  | cons a as ih => exact ih hc.2

theorem next_eq_head? {as bs : List ν} {m : ν}
    (hc : IsChain next h (as ++ m :: bs)) : next m = bs.head? := by
  have hs := hc.suffix
  cases bs with
  | nil => exact hs
  | cons b bs => exact hs.1

theorem head_eq (hc : IsChain next h xs) : h = xs.head? := by
  cases xs with
  | nil => exact hc
  | cons x xs => exact hc.1

theorem nodup (hc : IsChain next h xs) : xs.Nodup := by
  induction xs generalizing h with
  | nil => exact List.nodup_nil
  | cons x xs ih =>
      refine List.nodup_cons.mpr ⟨fun hmem => ?_, ih hc.2⟩
      -- A second visit of `x` would leave two rests of different length.
      obtain ⟨as, bs, rfl⟩ := List.append_of_mem hmem
      have heq := hc.2.unique hc.2.suffix
      have hlen := congrArg List.length heq
      simp only [List.length_append, List.length_cons] at hlen
      omega

theorem congr (hc : IsChain next h xs) (hn : ∀ x ∈ xs, next' x = next x) :
    IsChain next' h xs := by
  induction xs generalizing h with
  | nil => exact hc
  | cons x xs ih =>
      refine ⟨hc.1, ?_⟩
      rw [hn x (List.mem_cons_self ..)]
      exact ih hc.2 fun y hy => hn y (List.mem_cons_of_mem _ hy)

variable [DecidableEq ν]

theorem update_of_notMem {m : ν} {v : Option ν} (hc : IsChain next h xs)
    (hm : m ∉ xs) : IsChain (Function.update next m v) h xs :=
  hc.congr fun x hx => Function.update_of_ne (fun e => hm (by rw [← e]; exact hx)) ..

/-- A node off the chain, linked to its first node, goes in front of it. -/
theorem push {m : ν} (hc : IsChain next h xs) (hm : m ∉ xs) :
    IsChain (Function.update next m h) (some m) (m :: xs) := by
  refine ⟨rfl, ?_⟩
  rw [Function.update_self]
  exact hc.update_of_notMem hm

/-- Writing the link of a node on the chain keeps what stands before it and
replaces what stands after it. -/
theorem redirect {as xs bs : List ν} {p : ν} {v : Option ν}
    (hc : IsChain next h (as ++ p :: xs)) (hv : IsChain next v bs)
    (hp : p ∉ bs) : IsChain (Function.update next p v) h (as ++ p :: bs) := by
  have hnd := hc.nodup
  induction as generalizing h with
  | nil =>
      refine ⟨hc.1, ?_⟩
      rw [Function.update_self]
      exact hv.update_of_notMem hp
  | cons a as ih =>
      refine ⟨hc.1, ?_⟩
      have hap : a ≠ p := by
        intro heq
        subst heq
        exact (List.nodup_cons.mp hnd).1 (by simp)
      rw [Function.update_of_ne hap]
      exact ih hc.2 (List.nodup_cons.mp hnd).2

/-- A node off the chain goes between two nodes of it. -/
theorem insert {as bs : List ν} {p b m : ν} (hc : IsChain next h (as ++ p :: b :: bs))
    (hm : m ∉ as ++ p :: b :: bs) :
    IsChain (Function.update (Function.update next m (some b)) p (some m)) h
      (as ++ p :: m :: b :: bs) := by
  have hp : p ∉ b :: bs := (List.nodup_cons.mp (List.nodup_append.mp hc.nodup).2.1).1
  have hmb : m ∉ b :: bs := fun h =>
    hm (List.mem_append_right as (List.mem_cons_of_mem p h))
  have hmp : p ≠ m := fun h => hm (by rw [h]; simp)
  have hrest : IsChain (Function.update next m (some b)) (some m) (m :: b :: bs) := by
    have hpush := hc.suffix.push hmb
    rwa [hc.next_eq_head?] at hpush
  refine (hc.update_of_notMem hm).redirect hrest fun h => ?_
  exact (List.mem_cons.mp h).elim hmp hp

/-- Redirecting the predecessor of `m`, or the starting pointer where `m` has
none, to what follows `m` takes `m` out. -/
theorem unlink {as bs : List ν} {m : ν} (hc : IsChain next h (as ++ m :: bs)) :
    IsChain
      (match as.getLast? with
        | some p => Function.update next p (next m)
        | none => next)
      (match as.getLast? with
        | some _ => h
        | none => next m)
      (as ++ bs) := by
  have hs := hc.suffix
  have hnd := hc.nodup
  rcases List.eq_nil_or_concat as with rfl | ⟨as, p, rfl⟩
  · exact hs
  · simp only [List.concat_eq_append, List.append_assoc, List.cons_append,
      List.nil_append] at hc hnd ⊢
    rw [List.getLast?_append]
    simp only [List.getLast?_singleton, Option.some_or]
    refine hc.redirect hs fun hp => ?_
    rw [List.nodup_append] at hnd
    exact (List.nodup_cons.mp hnd.2.1).1 (List.mem_cons_of_mem _ hp)

end IsChain

/-! ## Walks

A walk is a loop of the program that follows a chain. It runs on fuel that
only has to cover the chain, so which number a definition passes is never
load-bearing. -/

/-- The first node from `h` on that satisfies `p`. -/
def findFrom (next : ν → Option ν) (p : ν → Bool) : Nat → Option ν → Option ν
  | 0, _ => none
  | _ + 1, none => none
  | fuel + 1, some x => if p x then some x else findFrom next p fuel (next x)

theorem findFrom_eq {next : ν → Option ν} {p : ν → Bool} {xs : List ν} :
    ∀ {fuel : Nat} {h : Option ν}, IsChain next h xs → xs.length ≤ fuel →
      findFrom next p fuel h = xs.find? p := by
  induction xs with
  | nil =>
      intro fuel h hc _
      cases fuel with
      | zero => rfl
      | succ fuel => rw [IsChain] at hc; rw [hc]; rfl
  | cons x xs ih =>
      intro fuel h hc hf
      obtain ⟨k, rfl⟩ : ∃ k, fuel = k + 1 :=
        ⟨fuel - 1, by simp only [List.length_cons] at hf; omega⟩
      rw [hc.1, findFrom, List.find?_cons]
      cases p x with
      | true => rfl
      | false =>
          simp only [Bool.false_eq_true, if_false]
          exact ih hc.2 (by simp only [List.length_cons] at hf; omega)

/-- The nodes met from `h` on. -/
def walk (next : ν → Option ν) : Nat → Option ν → List ν
  | 0, _ => []
  | _ + 1, none => []
  | fuel + 1, some x => x :: walk next fuel (next x)

theorem walk_eq {next : ν → Option ν} {xs : List ν} :
    ∀ {fuel : Nat} {h : Option ν}, IsChain next h xs → xs.length ≤ fuel →
      walk next fuel h = xs := by
  induction xs with
  | nil =>
      intro fuel h hc _
      cases fuel with
      | zero => rfl
      | succ fuel => rw [IsChain] at hc; rw [hc]; rfl
  | cons x xs ih =>
      intro fuel h hc hf
      obtain ⟨k, rfl⟩ : ∃ k, fuel = k + 1 :=
        ⟨fuel - 1, by simp only [List.length_cons] at hf; omega⟩
      rw [hc.1, walk, ih hc.2 (by simp only [List.length_cons] at hf; omega)]

/-! ## Families of chains -/

/-- No two lists of the family share a node. -/
def Apart {ι : Type} (V : ι → List ν) : Prop :=
  ∀ ⦃i j x⦄, x ∈ V i → x ∈ V j → i = j

namespace Apart

variable {ι : Type} {V : ι → List ν}

theorem notMem (h : Apart V) {i : ι} {x : ν} (hx : x ∈ V i) (j : ι)
    (hj : j ≠ i) : x ∉ V j := fun hx' => hj (h hx' hx)

/-- A list changed to nodes it had, or to nodes no other list has, still
shares none. -/
theorem update [DecidableEq ι] (h : Apart V) {i : ι} {xs : List ν}
    (hxs : ∀ x ∈ xs, ∀ j, j ≠ i → x ∉ V j) :
    Apart (Function.update V i xs) := by
  intro j k x hj hk
  by_cases hji : j = i
  · by_cases hki : k = i
    · rw [hji, hki]
    · rw [hji, Function.update_self] at hj
      rw [Function.update_of_ne hki] at hk
      exact absurd hk (hxs x hj k hki)
  · rw [Function.update_of_ne hji] at hj
    by_cases hki : k = i
    · rw [hki, Function.update_self] at hk
      exact absurd hj (hxs x hk j hji)
    · rw [Function.update_of_ne hki] at hk
      exact h hj hk

end Apart

/-! ## One list of a family changed -/

section Change

variable {ι : Type} [DecidableEq ι] {V : ι → List ν} {i j : ι} {x y : ν}

theorem mem_update_cons :
    y ∈ Function.update V i (x :: V i) j ↔ (y = x ∧ j = i) ∨ y ∈ V j := by
  by_cases hj : j = i
  · subst hj
    simp only [Function.update_self, List.mem_cons, and_true]
  · simp only [Function.update_of_ne hj, hj, and_false, false_or]

theorem nodup_update_cons (h : ∀ i, (V i).Nodup) (hx : x ∉ V i) (j : ι) :
    (Function.update V i (x :: V i) j).Nodup := by
  by_cases hj : j = i
  · subst hj
    rw [Function.update_self]
    exact List.nodup_cons.mpr ⟨hx, h j⟩
  · rw [Function.update_of_ne hj]
    exact h j

/-- Each member stays in the list that `f` names when one is pushed on its own. -/
theorem mem_push_iff {held : List ν} {f : ν → ι} (hm : ∀ i y, y ∈ V i ↔ y ∈ held ∧ f y = i) :
    y ∈ Function.update V (f x) (x :: V (f x)) j ↔ y ∈ x :: held ∧ f y = j := by
  rw [mem_update_cons, hm, List.mem_cons, or_and_right]
  refine or_congr_left ⟨?_, ?_⟩
  · rintro ⟨rfl, rfl⟩
    exact ⟨rfl, rfl⟩
  · rintro ⟨rfl, rfl⟩
    exact ⟨rfl, rfl⟩

variable [DecidableEq ν]

theorem mem_update_erase (h : ∀ i, (V i).Nodup) :
    y ∈ Function.update V i ((V i).erase x) j ↔ y ∈ V j ∧ ¬ (y = x ∧ j = i) := by
  by_cases hj : j = i
  · subst hj
    rw [Function.update_self, (h j).mem_erase_iff, and_iff_left rfl, and_comm]
  · rw [Function.update_of_ne hj]
    exact (and_iff_left fun hc => hj hc.2).symm

/-- The same when one is taken out. -/
theorem mem_take_iff {held : List ν} {f : ν → ι} (h : ∀ i, (V i).Nodup) (hheld : held.Nodup)
    (hm : ∀ i y, y ∈ V i ↔ y ∈ held ∧ f y = i) :
    y ∈ Function.update V (f x) ((V (f x)).erase x) j ↔ y ∈ held.erase x ∧ f y = j := by
  rw [mem_update_erase h, hm, hheld.mem_erase_iff]
  constructor
  · rintro ⟨⟨hy, rfl⟩, hno⟩
    exact ⟨⟨fun he => hno ⟨he, by rw [he]⟩, hy⟩, rfl⟩
  · rintro ⟨⟨hne, hy⟩, rfl⟩
    exact ⟨⟨hy, rfl⟩, fun he => hne he.1⟩

theorem nodup_update_erase (h : ∀ i, (V i).Nodup) (j : ι) :
    (Function.update V i ((V i).erase x) j).Nodup := by
  by_cases hj : j = i
  · subst hj
    rw [Function.update_self]
    exact (h j).erase x
  · rw [Function.update_of_ne hj]
    exact h j

end Change

end TrIrcd.Lib
