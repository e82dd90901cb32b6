import Mathlib.Data.List.TakeWhile

/-!
# Bytes in memory

A region of memory is a list of bytes, and what C calls the string at its
start is the list up to the first NUL. `blit` is `memcpy` into a region: the
bytes before the offset and those past the copied ones stay. `copyDown` copies
within a region to a lower address, a byte at a time from the bottom: a byte is
read before anything is written over it. What `memcpy` does there when the two
places overlap the standard leaves undefined, and `Memcpy` says which of the two
is meant.

A word of flags is a `UInt32`: `or_and_word` and `and_not_and_word` say which
bits are in it after some are set or cleared.
-/

namespace TrIrcd.Lib

/-- `INT_MAX` -/
def intMax : Nat := 0x7fffffff

/-- `isspace` -/
def isSpace (c : UInt8) : Bool := c = 0x20 || (0x09 ≤ c && c ≤ 0x0d)

/-- `isdigit` -/
def isDigit (c : UInt8) : Bool := 0x30 ≤ c && c ≤ 0x39

/-- The C string a region of memory starts with. -/
def cstr (s : List UInt8) : List UInt8 := s.takeWhile (· ≠ 0)

@[simp] theorem cstr_nil : cstr [] = [] := rfl

theorem cstr_cons_zero (s : List UInt8) : cstr (0 :: s) = [] := rfl

theorem zero_notMem_cstr (s : List UInt8) : 0 ∉ cstr s := by
  intro h
  have := List.mem_takeWhile_imp h
  simp at this

theorem cstr_length_le (s : List UInt8) : (cstr s).length ≤ s.length :=
  (List.takeWhile_prefix _).length_le

theorem cstr_cons_of_ne {b : UInt8} (hb : b ≠ 0) (s : List UInt8) :
    cstr (b :: s) = b :: cstr s := by
  rw [cstr, List.takeWhile_cons_of_pos (by simpa using hb)]
  rfl

theorem cstr_append_of_notMem {s t : List UInt8} (hs : 0 ∉ s) :
    cstr (s ++ t) = s ++ cstr t := by
  induction s with
  | nil => rfl
  | cons b s ih =>
      have hb : b ≠ 0 := fun e => hs (by simp [e])
      rw [List.cons_append, cstr_cons_of_ne hb,
        ih fun h => hs (List.mem_cons_of_mem _ h), List.cons_append]

/-- A string with its NUL. -/
theorem cstr_terminated {s : List UInt8} (hs : 0 ∉ s) (t : List UInt8) :
    cstr (s ++ 0 :: t) = s := by
  rw [cstr_append_of_notMem hs, cstr_cons_zero, List.append_nil]

theorem cstr_of_notMem {s : List UInt8} (hs : 0 ∉ s) : cstr s = s := by
  have := cstr_append_of_notMem (t := []) hs
  simpa using this

theorem cstr_cstr (s : List UInt8) : cstr (cstr s) = cstr s := by
  rw [cstr, cstr, List.takeWhile_takeWhile]
  simp

/-- What is taken up to the first element that is not. -/
theorem takeWhile_stop {α : Type} {f : α → Bool} {xs ys : List α} {y : α}
    (hxs : ∀ x ∈ xs, f x = true) (hy : f y = false) : (xs ++ y :: ys).takeWhile f = xs := by
  have hstop : ¬ f y = true := by
    rw [hy]
    exact Bool.false_ne_true
  rw [List.takeWhile_append_of_pos hxs, List.takeWhile_cons_of_neg hstop, List.append_nil]

theorem getElem?_middle {α : Type} (pre post : List α) (x : α) :
    (pre ++ x :: post)[pre.length]? = some x := by
  rw [List.getElem?_append_right (Nat.le_refl _), Nat.sub_self, List.getElem?_cons_zero]

/-- An element, by what stands in front of it from a place on. -/
theorem getElem?_drop_append {α : Type} {mem xs ys : List α} {pos : Nat} {y : α}
    (h : mem.drop pos = xs ++ y :: ys) : mem[pos + xs.length]? = some y := by
  rw [← List.getElem?_drop, h, getElem?_middle]

theorem set_middle {α : Type} (pre post : List α) (x y : α) :
    (pre ++ x :: post).set pre.length y = pre ++ y :: post := by
  rw [List.set_append_right _ _ (Nat.le_refl _), Nat.sub_self, List.set_cons_zero]

/-- What stands behind an element in the middle. -/
theorem drop_middle {α : Type} (pre post : List α) (x : α) (i : Nat) :
    (pre ++ x :: post).drop (pre.length + 1 + i) = post.drop i := by
  rw [← List.drop_drop, ← List.drop_drop, List.drop_left, List.drop_one, List.tail_cons]

/-- There is one place where an element comes first. -/
theorem cut_unique {α : Type} {pre pre' post post' : List α} {x : α} (hpre : x ∉ pre)
    (hpre' : x ∉ pre') (h : pre ++ x :: post = pre' ++ x :: post') :
    pre = pre' ∧ post = post' := by
  induction pre generalizing pre' with
  | nil =>
      cases pre' with
      | nil => exact ⟨rfl, (List.cons.inj h).2⟩
      | cons y pre' => exact absurd (List.mem_cons.mpr (.inl (List.cons.inj h).1)) hpre'
  | cons y pre ih =>
      cases pre' with
      | nil => exact absurd (List.mem_cons.mpr (.inl (List.cons.inj h).1.symm)) hpre
      | cons y' pre' =>
          obtain ⟨hy, hrest⟩ := List.cons.inj h
          have hih := ih (fun hx => hpre (List.mem_cons_of_mem y hx))
            (fun hx => hpre' (List.mem_cons_of_mem y' hx)) hrest
          exact ⟨by rw [hy, hih.1], hih.2⟩

/-- `memcpy(dst + off, src, |src|)` -/
def blit (dst : List UInt8) (off : Nat) (src : List UInt8) : List UInt8 :=
  dst.take off ++ src ++ dst.drop (off + src.length)

theorem take_blit {dst src : List UInt8} {off : Nat} (h : off ≤ dst.length) :
    (blit dst off src).take (off + src.length) = dst.take off ++ src := by
  rw [blit, List.take_append_of_le_length, List.take_of_length_le]
  · simp [h]
  · simp [h]

theorem length_blit {dst src : List UInt8} {off : Nat} (h : off + src.length ≤ dst.length) :
    (blit dst off src).length = dst.length := by
  simp only [blit, List.length_append, List.length_take, List.length_drop]
  omega

/-- The bytes copied, when the NUL that ends them is written as well. -/
theorem take_blit_set {dst src : List UInt8} {off : Nat} (h : off ≤ dst.length) (b : UInt8) :
    ((blit dst off src).set (off + src.length) b).take (off + src.length) =
      dst.take off ++ src := by
  rw [List.take_set_of_le (Nat.le_refl _), take_blit h]

/-- Writing a byte over the last of those that were read. -/
theorem set_of_take_succ {buf ys : List UInt8} {m : Nat} {x : UInt8}
    (h : buf.take (m + 1) = ys ++ [x]) (hm : ys.length = m) (b : UInt8) :
    buf.getD m 0 = x ∧ (buf.set m b).take m = ys ∧
      (buf.set m b).drop m = b :: buf.drop (m + 1) := by
  have hlen : m + 1 ≤ buf.length := by
    have := congrArg List.length h
    simp only [List.length_take, List.length_append, List.length_singleton] at this
    omega
  refine ⟨?_, ?_, ?_⟩
  · have hx : (buf.take (m + 1))[m]? = some x := by
      rw [h, List.getElem?_append_right (by omega), hm, Nat.sub_self]
      rfl
    rw [List.getElem?_take_of_lt (by omega)] at hx
    rw [List.getD_eq_getElem?_getD, hx]
    rfl
  · have htake := congrArg (List.take m) h
    rw [List.take_take, Nat.min_eq_left (by omega), List.take_left' hm] at htake
    rw [List.take_set_of_le (Nat.le_refl _), htake]
  · rw [List.drop_set, if_neg (by omega), Nat.sub_self,
      List.drop_eq_getElem_cons (by omega)]
    rfl

/-- Copy `n` bytes from `off + i` on to `i` on. -/
def copyDown (off : Nat) : Nat → Nat → List UInt8 → List UInt8
  | 0, _, mem => mem
  | n + 1, i, mem => copyDown off n (i + 1) (mem.set i (mem.getD (off + i) 0))

theorem length_copyDown (off n i : Nat) (mem : List UInt8) :
    (copyDown off n i mem).length = mem.length := by
  induction n generalizing i mem with
  | zero => rfl
  | succ n ih => rw [copyDown, ih, List.length_set]

theorem getElem?_copyDown {off n i : Nat} {mem : List UInt8}
    (h : off + (i + n) ≤ mem.length) (j : Nat) :
    (copyDown off n i mem)[j]? =
      if i ≤ j ∧ j < i + n then mem[off + j]? else mem[j]? := by
  induction n generalizing i mem with
  | zero => rw [copyDown, if_neg (by omega)]
  | succ n ih =>
      have hread : mem[off + i]? = some (mem.getD (off + i) 0) := by
        rw [List.getD_eq_getElem?_getD, List.getElem?_eq_getElem (by omega)]
        rfl
      rw [copyDown, ih (by rw [List.length_set]; omega)]
      by_cases hj : i = j
      · subst hj
        rw [if_neg (by omega), if_pos (by omega), List.getElem?_set_self (by omega), hread]
      · by_cases hin : i + 1 ≤ j ∧ j < i + 1 + n
        · rw [if_pos hin, if_pos (by omega), List.getElem?_set_ne (by omega)]
        · rw [if_neg hin, if_neg (by omega), List.getElem?_set_ne hj]

theorem take_copyDown {off n : Nat} {mem : List UInt8} (h : off + n ≤ mem.length) :
    (copyDown off n 0 mem).take n = (mem.drop off).take n := by
  refine List.ext_getElem? fun j => ?_
  rw [List.getElem?_take, List.getElem?_take, List.getElem?_drop,
    getElem?_copyDown (by omega)]
  split
  · rw [if_pos (by omega)]
  · rfl

/-- `memcpy` between places that overlap: nothing is known about it, or it is
known to copy the bytes in their order. -/
inductive Memcpy
  | undefined
  | ascending
deriving DecidableEq, Repr

/-- `memcpy(mem, mem + off, n)` -/
def Memcpy.toFront (M : Memcpy) (off n : Nat) (mem : List UInt8) : Option (List UInt8) :=
  if M = .undefined ∧ off < n then none else some (copyDown off n 0 mem)

/-- The last `n` of `total` bytes can be copied to the front of them. -/
def Memcpy.Moves (M : Memcpy) (total n : Nat) : Prop := M = .ascending ∨ 2 * n ≤ total

instance (M : Memcpy) (total n : Nat) : Decidable (M.Moves total n) :=
  inferInstanceAs (Decidable (_ ∨ _))

@[simp] theorem Memcpy.moves_zero (M : Memcpy) (total : Nat) : M.Moves total 0 :=
  .inr (Nat.zero_le _)

theorem Memcpy.toFront_eq (M : Memcpy) (off n : Nat) (mem : List UInt8) :
    M.toFront off n mem =
      if M.Moves (off + n) n then some (copyDown off n 0 mem) else none := by
  have hiff : M.Moves (off + n) n ↔ ¬(M = .undefined ∧ off < n) := by
    cases M with
    | undefined => simp [Moves]; omega
    | ascending => simp [Moves]
  rw [toFront]
  by_cases h : M = .undefined ∧ off < n
  · rw [if_pos h, if_neg fun hr => hiff.mp hr h]
  · rw [if_neg h, if_pos (hiff.mpr h)]

/-- Bytes written one after another, each at its index; `none` if one is outside. -/
def storeAll : List (Nat × UInt8) → List UInt8 → Option (List UInt8)
  | [], mem => some mem
  | (i, b) :: written, mem => if i < mem.length then storeAll written (mem.set i b) else none

theorem storeAll_eq_none_iff {written : List (Nat × UInt8)} {mem : List UInt8} :
    storeAll written mem = none ↔ ∃ p ∈ written, mem.length ≤ p.1 := by
  induction written generalizing mem with
  | nil => simp [storeAll]
  | cons p written ih =>
      obtain ⟨i, b⟩ := p
      have hcons : (∃ p ∈ (i, b) :: written, mem.length ≤ p.1) ↔
          mem.length ≤ i ∨ ∃ p ∈ written, mem.length ≤ p.1 := by simp
      rw [storeAll, hcons]
      split
      · next hi => rw [ih, List.length_set, or_iff_right (Nat.not_le.mpr hi)]
      · next hi => exact iff_of_true rfl (.inl (Nat.not_lt.mp hi))

/-- A text that is written byte by byte, from `off` on. -/
theorem storeAll_zipIdx (text : List UInt8) :
    ∀ {off : Nat} {mem : List UInt8}, off + text.length ≤ mem.length →
      storeAll ((text.zipIdx off).map Prod.swap) mem = some (blit mem off text) := by
  induction text with
  | nil => exact fun _ => by simp [storeAll, blit]
  | cons b text ih =>
      intro off mem h
      rw [List.length_cons] at h
      have htake : (mem.set off b).take (off + 1) = mem.take off ++ [b] := by
        rw [List.take_set, List.take_succ_eq_append_getElem (by omega),
          List.set_append_right _ _ (List.length_take_le _ _), List.length_take,
          Nat.min_eq_left (by omega), Nat.sub_self]
        rfl
      rw [List.zipIdx_cons, List.map_cons, Prod.swap_prod_mk, storeAll, if_pos (by omega),
        ih (by rw [List.length_set]; omega), blit, blit, htake, List.drop_set_of_lt (by omega),
        List.length_cons, Nat.add_right_comm off 1, ← Nat.add_assoc]
      simp

/-! ## Words of flags -/

theorem or_and_word (f g k : UInt32) : (f ||| g) &&& k = f &&& k ||| g &&& k := by
  rw [← UInt32.toBitVec_inj]
  exact BitVec.and_or_distrib_right

theorem or_and_self_word (f g : UInt32) : (f ||| g) &&& g = g := by
  have habsorb : ∀ a b : Bool, ((a || b) && b) = b := by decide
  rw [← UInt32.toBitVec_inj]
  ext i hi
  simp only [UInt32.toBitVec_and, UInt32.toBitVec_or, BitVec.getElem_and, BitVec.getElem_or]
  exact habsorb _ _

theorem and_not_self_word (f g : UInt32) : f &&& ~~~g &&& g = 0 := by
  rw [UInt32.and_assoc, UInt32.not_and_self, UInt32.and_zero]

/-- Clearing bits outside of `k`. -/
theorem and_not_and_word {g k : UInt32} (h : ~~~g &&& k = k) (f : UInt32) :
    f &&& ~~~g &&& k = f &&& k := by
  rw [UInt32.and_assoc, h]

end TrIrcd.Lib
