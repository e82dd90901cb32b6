import TrIrcd.Src.Identity
import Mathlib.Algebra.Group.Nat.Defs

/-!
# Identities as numbers and as digits

The parts of an identity that `makeId` packs, read back, and the base64
digits of a number, read back. The digits always give the number
(`base64ToInt_intToBase64`). The parts do not: the server number is shifted
by 24 where the mask leaves it room from bit 20 on, so only its low byte
survives (`serveridPart_makeId`).
-/

namespace TrIrcd

open TrIrcd.Lib

/-! ## Packing -/

theorem or_and_distrib_right (x y z : UInt32) :
    (x ||| y) &&& z = (x &&& z) ||| (y &&& z) := by
  apply UInt32.toBitVec_inj.mp
  simp only [UInt32.toBitVec_and, UInt32.toBitVec_or, BitVec.and_or_distrib_right]

/-- A mask of low bits takes a remainder. -/
theorem toNat_and_mask (x : UInt32) {m : UInt32} {k : Nat} (hm : m.toNat = 2 ^ k - 1) :
    (x &&& m).toNat = x.toNat % 2 ^ k := by
  rw [UInt32.toNat_and, hm, Nat.and_two_pow_sub_one_eq_mod]

theorem shiftLeft_shiftRight (x : UInt32) : (x <<< 24) >>> 24 = x &&& 0xFF := by
  apply UInt32.toNat_inj.mp
  have h24 : (24 : UInt32).toNat % 32 = 24 := rfl
  rw [UInt32.toNat_shiftRight, UInt32.toNat_shiftLeft, h24,
    toNat_and_mask x (show (0xFF : UInt32).toNat = 2 ^ 8 - 1 from rfl),
    Nat.shiftLeft_eq, Nat.shiftRight_eq_div_pow]
  omega

theorem useridPart_toNat (x : UInt32) : (useridPart x).toNat = x.toNat % 2 ^ 20 :=
  toNat_and_mask x rfl

theorem useridPart_makeId (sid uid : UInt32) :
    useridPart (makeId sid uid) = useridPart uid := by
  have hserv : (0xFFF00000 : UInt32) &&& 0xFFFFF = 0 := by decide
  have huser : (0xFFFFF : UInt32) &&& 0xFFFFF = 0xFFFFF := by decide
  rw [useridPart, makeId, or_and_distrib_right, UInt32.and_assoc, hserv,
    UInt32.and_zero, UInt32.zero_or, UInt32.and_assoc, huser, useridPart]

theorem serveridPart_makeId (sid uid : UInt32) :
    serveridPart (makeId sid uid) = sid &&& 0xFF := by
  have hserv : (0xFFF00000 : UInt32) >>> 24 = 0xFF := by decide
  have huser : (0xFFFFF : UInt32) >>> 24 = 0 := by decide
  rw [serveridPart, makeId, UInt32.shiftRight_or, UInt32.shiftRight_and,
    UInt32.shiftRight_and, hserv, huser, shiftLeft_shiftRight, UInt32.and_zero,
    UInt32.or_zero, UInt32.and_assoc, UInt32.and_assoc]
  rfl

/-! ## Base64 -/

/-- Every digit is read as the six bits it was written for, and ends no
string. -/
theorem base64ToInt6_map : ∀ k : Fin 64,
    base64ToInt6 (int6ToBase64Map.getD k.val 0) = UInt32.ofNat k.val ∧
      int6ToBase64Map.getD k.val 0 ≠ 0 := by
  decide

theorem and_six_toNat (val : UInt32) : (val &&& 63).toNat = val.toNat % 2 ^ 6 :=
  toNat_and_mask val rfl

theorem and_six_lt (val : UInt32) : (val &&& 63).toNat < 64 := by
  rw [and_six_toNat]
  exact Nat.mod_lt _ (by decide)

theorem base64ToInt6_int6ToBase64 (val : UInt32) :
    base64ToInt6 (int6ToBase64 val) = val &&& 63 := by
  rw [int6ToBase64, (base64ToInt6_map ⟨_, and_six_lt val⟩).1, UInt32.ofNat_toNat]

theorem int6ToBase64_ne_zero (val : UInt32) : int6ToBase64 val ≠ 0 :=
  (base64ToInt6_map ⟨_, and_six_lt val⟩).2

theorem shiftRight_six_toNat (val : UInt32) : (val >>> 6).toNat = val.toNat / 64 := by
  have h6 : (6 : UInt32).toNat % 32 = 6 := rfl
  rw [UInt32.toNat_shiftRight, h6, Nat.shiftRight_eq_div_pow]

/-- Reading the last digit puts back the bits it was cut off from. -/
theorem base64Step_int6ToBase64 (val : UInt32) :
    base64Step (val >>> 6) (int6ToBase64 val) = val := by
  apply UInt32.toNat_inj.mp
  have h6 : (6 : UInt32).toNat % 32 = 6 := rfl
  have hlt := UInt32.toNat_lt val
  rw [base64Step, base64ToInt6_int6ToBase64, UInt32.toNat_add, UInt32.toNat_shiftLeft,
    h6, shiftRight_six_toNat, and_six_toNat, Nat.shiftLeft_eq]
  omega

/-- The loop's digits, read from the front, carry the value on into what
stood in the buffer. Induction on the fuel, which has to cover the value. -/
theorem foldl_intToBase64Loop :
    ∀ (fuel : Nat) (val : UInt32) (buf : List UInt8), 0 < fuel →
      val.toNat < 64 ^ fuel →
      (intToBase64Loop fuel val buf).foldl base64Step 0 = buf.foldl base64Step val := by
  intro fuel
  induction fuel with
  | zero =>
      intro val buf h
      cases h
  | succ fuel ih =>
      intro val buf _ hlt
      rw [intToBase64Loop]
      split
      · next hne =>
          have hdiv : (val >>> 6).toNat < 64 ^ fuel := by
            rw [shiftRight_six_toNat]
            rw [Nat.pow_succ] at hlt
            omega
          have hpos : 0 < fuel := by
            rcases Nat.eq_zero_or_pos fuel with rfl | h
            · refine absurd (UInt32.toNat_inj.mp ?_) hne
              rw [Nat.pow_zero] at hdiv
              exact Nat.lt_one_iff.mp hdiv
            · exact h
          rw [ih _ _ hpos hdiv, List.foldl_cons, base64Step_int6ToBase64]
      · next hz =>
          have h0 : val >>> 6 = 0 := not_not.mp hz
          have hstep := base64Step_int6ToBase64 val
          rw [h0] at hstep
          rw [List.foldl_cons, hstep]

/-- Each turn writes one digit. -/
theorem length_intToBase64Loop :
    ∀ (fuel : Nat) (val : UInt32) (buf : List UInt8), 0 < fuel →
      buf.length < (intToBase64Loop fuel val buf).length ∧
        (intToBase64Loop fuel val buf).length ≤ buf.length + fuel := by
  intro fuel
  induction fuel with
  | zero =>
      intro val buf h
      cases h
  | succ fuel ih =>
      intro val buf _
      rw [intToBase64Loop]
      split
      · rcases Nat.eq_zero_or_pos fuel with rfl | hpos
        · simp [intToBase64Loop]
        · have := ih (val >>> 6) (int6ToBase64 val :: buf) hpos
          rw [List.length_cons] at this
          omega
      · simp

/-- The digits and their NUL fit the eight bytes of `id.string`. -/
theorem length_intToBase64 (val : UInt32) :
    0 < (intToBase64 val).length ∧ (intToBase64 val).length ≤ 6 :=
  length_intToBase64Loop 6 val [] (by decide)

theorem zero_notMem_intToBase64Loop :
    ∀ (fuel : Nat) (val : UInt32) (buf : List UInt8), 0 ∉ buf →
      0 ∉ intToBase64Loop fuel val buf := by
  intro fuel
  induction fuel with
  | zero => exact fun _ _ h => h
  | succ fuel ih =>
      intro val buf h
      have hcons : 0 ∉ int6ToBase64 val :: buf := by
        intro hm
        rcases List.mem_cons.mp hm with h0 | hm
        · exact int6ToBase64_ne_zero val h0.symm
        · exact h hm
      rw [intToBase64Loop]
      split
      · exact ih _ _ hcons
      · exact hcons

theorem cstr_intToBase64 (val : UInt32) : cstr (intToBase64 val) = intToBase64 val :=
  cstr_of_notMem (zero_notMem_intToBase64Loop 6 val [] (by simp))

theorem base64Step_zero (c : UInt8) : base64Step 0 c = base64ToInt6 c := by
  rw [base64Step]
  simp

theorem base64ToInt_intToBase64 (val : UInt32) :
    base64ToInt (intToBase64 val) = val := by
  have hfold : (intToBase64 val).foldl base64Step 0 = val :=
    foldl_intToBase64Loop 6 val [] (by decide)
      (Nat.lt_trans (UInt32.toNat_lt val) (by decide))
  rw [base64ToInt, cstr_intToBase64]
  cases hs : intToBase64 val with
  | nil =>
      have hpos := (length_intToBase64 val).1
      rw [hs] at hpos
      cases hpos
  | cons c cs =>
      rw [hs, List.foldl_cons, base64Step_zero] at hfold
      exact hfold

end TrIrcd
