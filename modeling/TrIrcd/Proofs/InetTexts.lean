import TrIrcd.Proofs.InetQuads
import TrIrcd.Proofs.V6Forms

/-!
# Texts of IPv6, and what `inet_pton6` makes of them

The scan takes a text piece by piece: a group goes to the end of what is
written, a colon without a group is the gap, and a piece with a dot in it has to
be a dotted quad up to the end (`inetPieces_group`, `inetPieces_gap`, `inetPieces_quad`).
What stands behind the gap is shifted to the end of the address afterwards
(`ptonShift_eq`).
-/

namespace TrIrcd

open TrIrcd.Lib
open TrIrcd.V6Scan (joinGroups)

/-! ## Digits -/

theorem xdigits_idxOf (c : UInt8) :
    xdigits.idxOf? (toLower c) = if isXDigit c = true then some (hexDigit c) else none := by
  have hall : ∀ n < 256, xdigits.idxOf? (toLower (UInt8.ofNat n)) =
      if isXDigit (UInt8.ofNat n) = true then some (hexDigit (UInt8.ofNat n)) else none := by
    decide +kernel
  have h := hall c.toNat c.toNat_lt
  rwa [UInt8.ofNat_toNat] at h

theorem toLower_colon : toLower 0x3a = 0x3a := by decide

/-- The two bytes of a group. -/
def groupBytes (g : List UInt8) : List UInt8 :=
  [UInt8.ofNat (groupValue g >>> 8), UInt8.ofNat (groupValue g)]

theorem shiftOr_lt {v d n : Nat} (hv : v < 16 ^ n) (hd : d < 16) : v <<< 4 ||| d < 16 ^ (n + 1) := by
  have hpow : 16 ^ (n + 1) = 2 ^ (4 * (n + 1)) := by rw [Nat.pow_mul]
  have hv' : v < 2 ^ (4 * n) := by rwa [Nat.pow_mul]
  have hd' : 2 ^ 4 ≤ 2 ^ (4 * (n + 1)) :=
    Nat.pow_le_pow_right Nat.two_pos (Nat.le_add_left 4 (4 * n))
  rw [hpow]
  refine Nat.or_lt_two_pow ?_ ?_
  · rw [Nat.mul_succ, Nat.pow_add, Nat.shiftLeft_eq]
    exact Nat.mul_lt_mul_of_pos_right hv' (Nat.two_pow_pos 4)
  · exact Nat.lt_of_lt_of_le hd hd'

section Pieces

variable {st : Pton6} {out : List UInt8} {colonp : Option Nat} {p g : List UInt8}

/-- A turn of the loop, by the character it is at. -/
theorem pton6Loop_turn (st : Pton6) (c : UInt8) (p : List UInt8) :
    (isXDigit c = true → pton6Loop st (c :: p) =
      if 0xffff < st.val <<< 4 ||| hexDigit c then none
      else pton6Loop ⟨st.out, st.colonp, st.val <<< 4 ||| hexDigit c, true, st.curtok⟩ p) ∧
      (st.sawXdigit = true → pton6Loop st (0x3a :: p) =
        if p = [] then none
        else st.push.bind fun st => pton6Loop ⟨st.out, st.colonp, 0, false, p⟩ p) ∧
      (st.sawXdigit = false → pton6Loop st (0x3a :: p) =
        if st.colonp.isSome then none
        else pton6Loop ⟨st.out, some st.out.length, st.val, false, p⟩ p) ∧
      (p ≠ [] → pton6Loop st (0x2e :: p) =
        if st.out.length + 4 ≤ 16 then
          (inetPton4 st.curtok).map fun quad =>
            { st with out := st.out ++ quad.bytes, sawXdigit := false }
        else none) := by
  refine ⟨fun hc => ?_, fun hsaw => ?_, fun hsaw => ?_, fun hp => ?_⟩
  · rw [pton6Loop, xdigits_idxOf, if_pos hc]
  · rw [pton6Loop, xdigits_idxOf, if_neg (by decide)]
    simp only [hsaw, not_true_eq_false, if_false, toLower_colon]
    rw [if_pos trivial]
    refine ite_congr rfl (fun _ => rfl) fun _ => ?_
    cases st.push with
    | none => rfl
    | some st => rfl
  · rw [pton6Loop, xdigits_idxOf, if_neg (by decide)]
    simp only [hsaw, toLower_colon, Bool.false_eq_true, not_false_eq_true, if_true]
  · have hdot : toLower 0x2e = 0x2e := by decide
    have hcolon : ¬ ((0x2e : UInt8) = 0x3a) := by decide
    rw [pton6Loop, xdigits_idxOf, if_neg (by decide)]
    simp only [hdot]
    rw [if_neg hcolon, if_pos ⟨hp, trivial⟩]

theorem pton6Loop_digit {c : UInt8} (hc : isXDigit c = true) (st : Pton6)
    (hval : st.val <<< 4 ||| hexDigit c ≤ 0xffff) :
    pton6Loop st (c :: p) =
      pton6Loop ⟨st.out, st.colonp, st.val <<< 4 ||| hexDigit c, true, st.curtok⟩ p := by
  rw [(pton6Loop_turn st c p).1 hc]
  exact if_neg (Nat.not_lt.mpr hval)

theorem pton6Loop_digits {g : List UInt8} (hg : ∀ c ∈ g, isXDigit c = true) :
    ∀ (n : Nat) (st : Pton6), st.val < 16 ^ n → n + g.length ≤ 4 → g ≠ [] →
      pton6Loop st (g ++ p) =
        pton6Loop ⟨st.out, st.colonp, g.foldl (fun v c => v <<< 4 ||| hexDigit c) st.val, true,
          st.curtok⟩ p := by
  induction g with
  | nil => exact fun _ _ _ _ hne => absurd rfl hne
  | cons c g ih =>
      intro n st hval hlen _
      rw [List.length_cons] at hlen
      have hc := hg c (List.mem_cons_self ..)
      have hlt := shiftOr_lt hval (hexDigit_lt hc)
      have hmax : 16 ^ (n + 1) ≤ 16 ^ 4 := Nat.pow_le_pow_right (by decide) (by omega)
      rw [List.cons_append, pton6Loop_digit hc st (by omega)]
      cases g with
      | nil => rfl
      | cons d g =>
          exact ih (fun d hd => hg d (List.mem_cons_of_mem c hd)) (n + 1) _ hlt (by omega)
            (List.cons_ne_nil d g)

/-- At the start of a piece. -/
def atPiece (out : List UInt8) (colonp : Option Nat) (p : List UInt8) : Pton6 :=
  ⟨out, colonp, 0, false, p⟩

theorem pton6Loop_group (hg : IsGroup g) (cur : List UInt8) :
    pton6Loop ⟨out, colonp, 0, false, cur⟩ (g ++ p) =
      pton6Loop ⟨out, colonp, groupValue g, true, cur⟩ p :=
  pton6Loop_digits hg.digits 0 ⟨out, colonp, 0, false, cur⟩ Nat.one_pos
    (by rw [Nat.zero_add]; exact hg.length) hg.ne_nil

/-- The bytes that are written for the rest of a text, and where the gap is. -/
def inetPieces (out : List UInt8) (colonp : Option Nat) (p : List UInt8) :
    Option (List UInt8 × Option Nat) :=
  ((pton6Loop (atPiece out colonp p) p).bind fun st =>
    if st.sawXdigit then st.push else some st).map fun st => (st.out, st.colonp)

theorem inetPieces_nil : inetPieces out colonp [] = some (out, colonp) := rfl

theorem push_group (out : List UInt8) (colonp : Option Nat) (g cur : List UInt8) :
    Pton6.push ⟨out, colonp, groupValue g, true, cur⟩ =
      if out.length + 2 ≤ 16 then
        some ⟨out ++ groupBytes g, colonp, groupValue g, true, cur⟩ else none := by
  rw [Pton6.push]
  by_cases hroom : out.length + 2 ≤ 16
  · rw [if_neg (Nat.not_lt.mpr hroom), if_pos hroom]
    rfl
  · rw [if_pos (Nat.not_le.mp hroom), if_neg hroom]

theorem inetPieces_last (hg : IsGroup g) :
    inetPieces out colonp g =
      if out.length + 2 ≤ 16 then some (out ++ groupBytes g, colonp) else none := by
  have hloop : pton6Loop (atPiece out colonp g) g = some ⟨out, colonp, groupValue g, true, g⟩ := by
    have h := @pton6Loop_group out colonp [] _ hg g
    rw [List.append_nil] at h
    exact h
  rw [inetPieces, hloop, Option.bind_some, if_pos rfl, push_group]
  split
  · rfl
  · rfl

theorem pton6Loop_colon (hsaw : st.sawXdigit = true) (hp : p ≠ []) :
    pton6Loop st (0x3a :: p) =
      st.push.bind fun st => pton6Loop ⟨st.out, st.colonp, 0, false, p⟩ p := by
  rw [(pton6Loop_turn st 0x3a p).2.1 hsaw, if_neg hp]

theorem inetPieces_group (hg : IsGroup g) (hp : p ≠ []) :
    inetPieces out colonp (g ++ 0x3a :: p) =
      if out.length + 2 ≤ 16 then inetPieces (out ++ groupBytes g) colonp p else none := by
  rw [inetPieces, atPiece, pton6Loop_group hg, pton6Loop_colon rfl hp, push_group]
  split
  · rfl
  · rfl

/-- A colon that ends a group and the text is not taken. -/
theorem inetPieces_colon (hg : IsGroup g) : inetPieces out colonp (g ++ [0x3a]) = none := by
  rw [inetPieces, atPiece, pton6Loop_group hg, (pton6Loop_turn _ 0x3a []).2.1 rfl, if_pos rfl]
  rfl

theorem inetPieces_gap :
    inetPieces out colonp (0x3a :: p) =
      if colonp.isSome then none else inetPieces out (some out.length) p := by
  rw [inetPieces, atPiece, (pton6Loop_turn _ 0x3a p).2.2.1 rfl]
  split
  · rfl
  · rfl

theorem pton6Loop_dot (st : Pton6) (hp : p ≠ []) :
    pton6Loop st (0x2e :: p) =
      if st.out.length + 4 ≤ 16 then
        (inetPton4 st.curtok).map fun quad =>
          { st with out := st.out ++ quad.bytes, sawXdigit := false }
      else none :=
  (pton6Loop_turn st 0x2e p).2.2.2 hp

theorem inetPieces_quad {addr : InAddr} (hg : IsGroup g) (hp : p ≠ [])
    (hq : inetPton4 (g ++ 0x2e :: p) = some addr) :
    inetPieces out colonp (g ++ 0x2e :: p) =
      if out.length + 4 ≤ 16 then some (out ++ addr.bytes, colonp) else none := by
  rw [inetPieces, atPiece, pton6Loop_group hg, pton6Loop_dot _ hp, hq]
  split
  · rfl
  · rfl

/-- Digits leave the address as it is, whatever their value. -/
theorem pton6Loop_skip (hg : ∀ c ∈ g, isXDigit c = true) :
    ∀ {st st' : Pton6}, pton6Loop st (g ++ p) = some st' →
      ∃ v saw, pton6Loop ⟨st.out, st.colonp, v, saw, st.curtok⟩ p = some st' := by
  induction g with
  | nil => exact fun {st _} h => ⟨st.val, st.sawXdigit, h⟩
  | cons c g ih =>
      intro st st' h
      rw [List.cons_append, (pton6Loop_turn st c _).1 (hg c (List.mem_cons_self ..))] at h
      split at h
      · cases h
      · obtain ⟨v, saw, hrest⟩ := ih (fun d hd => hg d (List.mem_cons_of_mem c hd)) h
        exact ⟨v, saw, hrest⟩

theorem inetPieces_dot {r : List UInt8 × Option Nat} (hg : ∀ c ∈ g, isXDigit c = true) (hp : p ≠ [])
    (h : inetPieces out colonp (g ++ 0x2e :: p) = some r) :
    ∃ addr, inetPton4 (g ++ 0x2e :: p) = some addr ∧ out.length + 4 ≤ 16 ∧
      r = (out ++ addr.bytes, colonp) := by
  obtain ⟨st, hst, rfl⟩ := Option.map_eq_some_iff.mp h
  obtain ⟨st', hloop, hpush⟩ := Option.bind_eq_some_iff.mp hst
  obtain ⟨v, saw, hdot⟩ := pton6Loop_skip hg hloop
  rw [pton6Loop_dot _ hp] at hdot
  split at hdot
  · next hroom =>
      obtain ⟨addr, hq, rfl⟩ := Option.map_eq_some_iff.mp hdot
      cases hpush
      exact ⟨addr, hq, hroom, rfl⟩
  · cases hdot

/-! ## The shift -/

/-- One byte goes behind the zeros. -/
theorem set_shift (xs ds : List UInt8) (b : UInt8) (k : Nat) :
    ((xs ++ b :: (List.replicate k 0 ++ 0 :: ds)).set (xs.length + 1 + k)
        ((xs ++ b :: (List.replicate k 0 ++ 0 :: ds)).getD xs.length 0)).set xs.length 0 =
      xs ++ 0 :: (List.replicate k 0 ++ b :: ds) := by
  have hget : (xs ++ b :: (List.replicate k 0 ++ 0 :: ds)).getD xs.length 0 = b := by simp
  have hset : ∀ c : UInt8, (List.replicate k 0 ++ 0 :: ds).set k c = List.replicate k 0 ++ c :: ds := by
    intro c
    rw [List.set_append_right _ _ (by rw [List.length_replicate]), List.length_replicate,
      Nat.sub_self]
    rfl
  have hfar : xs.length + 1 + k - xs.length = k + 1 := by omega
  rw [hget, List.set_append_right _ _ (by omega), hfar, List.set_cons_succ, hset,
    List.set_append_right _ _ (Nat.le_refl _), Nat.sub_self]
  rfl

theorem ptonShift_eq {pre post : List UInt8} (hlen : pre.length + post.length < 16) :
    ptonShift pre.length post.length
        (pre ++ (post ++ List.replicate (16 - (pre.length + post.length)) 0)) =
      pre ++ (List.replicate (16 - (pre.length + post.length)) 0 ++ post) := by
  obtain ⟨z, hz⟩ : ∃ z, 16 - (pre.length + post.length) = z + 1 :=
    Nat.exists_eq_add_of_le' (by omega)
  rw [hz]
  have hsteps : ∀ k ≤ post.length, (List.range k).foldl (fun tmp k =>
      (tmp.set (16 - (k + 1)) (tmp.getD (pre.length + (post.length - (k + 1))) 0)).set
        (pre.length + (post.length - (k + 1))) 0)
      (pre ++ (post ++ List.replicate (z + 1) 0)) =
      pre ++ (post.take (post.length - k) ++ (List.replicate (z + 1) 0 ++
        post.drop (post.length - k))) := by
    intro k
    induction k with
    | zero =>
        intro _
        rw [Nat.sub_zero, List.take_length, List.drop_length, List.append_nil]
        rfl
    | succ k ih =>
        intro hk
        obtain ⟨j, hj⟩ : ∃ j, post.length - k = j + 1 := Nat.exists_eq_add_of_le' (by omega)
        have hjlt : j < post.length := by omega
        have hlast : post.length - (k + 1) = j := by omega
        have hat : (pre ++ post.take j).length = pre.length + j := by
          rw [List.length_append, List.length_take, Nat.min_eq_left (Nat.le_of_lt hjlt)]
        have hend : 16 - (k + 1) = (pre ++ post.take j).length + 1 + z := by omega
        have hstep := set_shift (pre ++ post.take j) (post.drop (j + 1)) post[j] z
        rw [← hend, hat] at hstep
        rw [List.range_succ, List.foldl_append, ih (by omega), hj, hlast, List.foldl_cons,
          List.foldl_nil, hlast]
        have hbefore : pre ++ (post.take (j + 1) ++ (List.replicate (z + 1) 0 ++
            post.drop (j + 1))) = pre ++ post.take j ++ post[j] :: (List.replicate z 0 ++
              0 :: post.drop (j + 1)) := by
          rw [List.take_succ_eq_append_getElem hjlt, List.replicate_succ']
          simp only [List.append_assoc, List.cons_append, List.nil_append]
        rw [hbefore, hstep, List.drop_eq_getElem_cons hjlt, List.replicate_succ]
        simp only [List.append_assoc, List.cons_append]
  have h := hsteps post.length (Nat.le_refl _)
  rw [Nat.sub_self, List.take_zero, List.drop_zero] at h
  exact h

/-! ## The address -/

/-- What is made of the bytes that are written and the gap. -/
def place (r : List UInt8 × Option Nat) : Option (List UInt8) :=
  pton6Finish ⟨r.1, r.2, 0, false, []⟩

theorem inetPieces_place :
    (pton6Loop (atPiece out colonp p) p).bind pton6Finish = (inetPieces out colonp p).bind place := by
  rw [inetPieces]
  cases pton6Loop (atPiece out colonp p) p with
  | none => rfl
  | some st =>
      simp only [Option.bind_some, pton6Finish]
      cases (if st.sawXdigit = true then st.push else some st) with
      | none => rfl
      | some st => rfl

theorem place_full (out : List UInt8) :
    place (out, none) = if out.length = 16 then some out else none := by
  rw [place, pton6Finish, if_neg Bool.false_ne_true, Option.bind_some]
  by_cases hlen : out.length = 16
  · rw [if_pos hlen]
    simp only [hlen, ne_eq, not_true_eq_false, if_false, Nat.sub_self, List.replicate_zero,
      List.append_nil]
  · rw [if_neg hlen]
    exact if_pos hlen

theorem place_short {pre post : List UInt8} (hlen : pre.length + post.length < 16) :
    place (pre ++ post, some pre.length) =
      some (pre ++ (List.replicate (16 - (pre.length + post.length)) 0 ++ post)) := by
  have hlen' : (pre ++ post).length = pre.length + post.length := List.length_append
  have hcount : pre.length + post.length - pre.length = post.length := Nat.add_sub_cancel_left ..
  rw [place, pton6Finish, if_neg Bool.false_ne_true, Option.bind_some]
  simp only [hlen', hcount]
  rw [if_neg (Nat.ne_of_lt hlen), List.append_assoc, ptonShift_eq hlen]

theorem place_some {out bytes : List UInt8} {k : Nat} (h : place (out, some k) = some bytes) :
    out.length ≠ 16 := by
  intro hlen
  rw [place, pton6Finish, if_neg Bool.false_ne_true, Option.bind_some] at h
  simp only [hlen, if_true] at h
  cases h

theorem inetPton6_colon (rest : List UInt8) :
    inetPton6 (0x3a :: rest) =
      if rest.head? = some 0x3a then (inetPieces [] none rest).bind place else none := by
  rw [inetPton6]
  by_cases hrest : rest.head? = some 0x3a
  · simp only [hrest, if_true, Option.bind_some]
    exact inetPieces_place
  · simp only [hrest, if_true, if_false, Option.bind_none]

theorem inetPton6_of_head {src : List UInt8} (h : src.head? ≠ some 0x3a) :
    inetPton6 src = (inetPieces [] none src).bind place := by
  cases src with
  | nil =>
      rw [inetPton6, Option.bind_some]
      exact inetPieces_place
  | cons c rest =>
      have hc : c ≠ 0x3a := fun hc => h (congrArg some hc)
      rw [inetPton6]
      simp only [hc, if_false, Option.bind_some]
      exact inetPieces_place

end Pieces

end TrIrcd
