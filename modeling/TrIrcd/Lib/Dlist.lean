import TrIrcd.Lib.Chain

/-!
# Doubly linked lists

A doubly linked list is a pair of chains over the same nodes: `next` from the
head visits them in order, `prev` from the tail visits them in the opposite
order. The definition is its own mirror image (`IsDlist.mirror`), so every
rule about the front is also the rule about the back.
-/

namespace TrIrcd.Lib

variable {ν : Type}

/-- `next` and `prev` link exactly the nodes `xs` between `head` and `tail`. -/
def IsDlist (next prev : ν → Option ν) (head tail : Option ν)
    (xs : List ν) : Prop :=
  IsChain next head xs ∧ IsChain prev tail xs.reverse

namespace IsDlist

variable {next prev next' prev' : ν → Option ν} {head tail : Option ν}
  {xs as bs : List ν} {m : ν}

theorem nodup (hd : IsDlist next prev head tail xs) : xs.Nodup := hd.1.nodup

theorem empty : IsDlist next prev none none [] := ⟨rfl, rfl⟩

theorem mirror (hd : IsDlist next prev head tail xs) :
    IsDlist prev next tail head xs.reverse :=
  ⟨hd.2, by rw [List.reverse_reverse]; exact hd.1⟩

theorem backward (hd : IsDlist next prev head tail (as ++ m :: bs)) :
    IsChain prev tail (bs.reverse ++ m :: as.reverse) := by
  have hb := hd.2
  rwa [show (as ++ m :: bs).reverse = bs.reverse ++ m :: as.reverse by simp] at hb

theorem congr (hd : IsDlist next prev head tail xs)
    (hn : ∀ x ∈ xs, next' x = next x) (hp : ∀ x ∈ xs, prev' x = prev x) :
    IsDlist next' prev' head tail xs :=
  ⟨hd.1.congr hn, hd.2.congr fun x hx => hp x (List.mem_reverse.mp hx)⟩

theorem tail_eq (hd : IsDlist next prev head tail xs) : tail = xs.getLast? := by
  rw [hd.2.head_eq, List.head?_reverse]

theorem next_eq (hd : IsDlist next prev head tail (as ++ m :: bs)) :
    next m = bs.head? := hd.1.next_eq_head?

theorem prev_eq (hd : IsDlist next prev head tail (as ++ m :: bs)) :
    prev m = as.getLast? := by
  rw [hd.backward.next_eq_head?, List.head?_reverse]

variable [DecidableEq ν]

/-- A fresh node in front of an empty list. -/
theorem push_empty :
    IsDlist (Function.update next m none) (Function.update prev m none)
      (some m) (some m) [m] := by
  constructor
  · exact ⟨rfl, Function.update_self ..⟩
  · exact ⟨rfl, Function.update_self ..⟩

/-- A fresh node in front of a list that has a first node. -/
theorem push_cons {x : ν} {ys : List ν}
    (hd : IsDlist next prev head tail (x :: ys)) (hm : m ∉ x :: ys) :
    IsDlist (Function.update next m (some x))
      (Function.update (Function.update prev m none) x (some m))
      (some m) tail (m :: x :: ys) := by
  obtain ⟨hf, hb⟩ := hd
  constructor
  · have := hf.push hm
    rw [hf.1] at this
    exact this
  · rw [List.reverse_cons] at hb
    rw [List.reverse_cons, List.reverse_cons, List.append_assoc]
    have hm' : m ∉ ys.reverse ++ [x] := by
      intro h
      exact hm (by simpa [or_comm] using h)
    have hm1 : IsChain (Function.update prev m none) (some m) [m] :=
      ⟨rfl, Function.update_self ..⟩
    refine (hb.update_of_notMem hm').redirect hm1 fun h => ?_
    exact hm (by simp [List.mem_singleton.mp h])

/-- A fresh node behind a list that has a last node. -/
theorem push_last {x : ν} {ys : List ν} (hd : IsDlist next prev head tail (ys ++ [x]))
    (hm : m ∉ ys ++ [x]) :
    IsDlist (Function.update (Function.update next m none) x (some m))
      (Function.update prev m (some x)) head (some m) (ys ++ [x] ++ [m]) := by
  have hback := hd.mirror
  rw [List.reverse_append, List.reverse_singleton, List.singleton_append] at hback
  have hpush := (hback.push_cons (m := m) (by simpa [or_comm] using hm)).mirror
  simpa using hpush

/-- A fresh node between two nodes. -/
theorem insert {p b : ν} (hd : IsDlist next prev head tail (as ++ p :: b :: bs))
    (hm : m ∉ as ++ p :: b :: bs) :
    IsDlist (Function.update (Function.update next m (some b)) p (some m))
      (Function.update (Function.update prev m (some p)) b (some m)) head tail
      (as ++ p :: m :: b :: bs) := by
  refine ⟨hd.1.insert hm, ?_⟩
  have hback : IsChain prev tail (bs.reverse ++ b :: p :: as.reverse) := by
    simpa using hd.2
  have hinsert := hback.insert (m := m) (by simpa [or_comm, or_assoc, or_left_comm] using hm)
  simpa using hinsert

/-- Two lists, the last node of the first of which is linked to the first node of the
second. -/
theorem append {t x : ν} {head' : Option ν} {ys : List ν}
    (hd : IsDlist next prev head (some t) (xs ++ [t]))
    (hd' : IsDlist next prev head' tail (x :: ys)) (hoff : ∀ y ∈ xs ++ [t], y ∉ x :: ys) :
    IsDlist (Function.update next t (some x)) (Function.update prev x (some t)) head tail
      (xs ++ [t] ++ x :: ys) := by
  have ht : t ∉ x :: ys := hoff t (by simp)
  have hx : x ∉ t :: xs.reverse := fun h => hoff x (by simpa [or_comm] using h) (by simp)
  constructor
  · have hnext : IsChain next (some x) (x :: ys) := ⟨rfl, hd'.1.2⟩
    have hredirect := hd.1.redirect hnext ht
    simpa using hredirect
  · have hback : IsChain prev tail (ys.reverse ++ [x]) := by simpa using hd'.2
    have hprev : IsChain prev (some t) (t :: xs.reverse) := by simpa using hd.2
    have hredirect := hback.redirect hprev hx
    simpa using hredirect

/-- Both neighbours of a node, or the list's ends where it has none, are made
to point past it: the node is out of the list. -/
theorem unlink (hd : IsDlist next prev head tail (as ++ m :: bs)) :
    IsDlist
      (match prev m with
        | some p => Function.update next p (next m)
        | none => next)
      (match next m with
        | some x => Function.update prev x (prev m)
        | none => prev)
      (match prev m with
        | some _ => head
        | none => next m)
      (match next m with
        | some _ => tail
        | none => prev m)
      (as ++ bs) := by
  constructor
  · have hf := hd.1.unlink
    rw [← hd.prev_eq] at hf
    exact hf
  · have hb := hd.backward.unlink
    rw [List.getLast?_reverse, ← hd.next_eq, ← List.reverse_append] at hb
    exact hb

end IsDlist

end TrIrcd.Lib
