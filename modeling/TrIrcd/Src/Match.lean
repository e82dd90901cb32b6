import TrIrcd.Lib.Bytes

/-!
# `src/match.c`: case folding and comparison

`ToLowerTab` and `ToUpperTab` swap the range `A`..`^` with the range `a`..`~`
and leave every other byte alone; the four characters after the letters are
the ones RFC 1459 counts as letters. `ircStrcmp` reads two C strings byte by
byte: past the end of a list stands the terminator.
-/

namespace TrIrcd

open TrIrcd.Lib

/-- `ToLower` -/
def toLower (c : UInt8) : UInt8 := if 0x41 ≤ c ∧ c ≤ 0x5e then c + 0x20 else c

/-- `ToUpper` -/
def toUpper (c : UInt8) : UInt8 := if 0x61 ≤ c ∧ c ≤ 0x7e then c - 0x20 else c

/-- `irc_strcmp` -/
def ircStrcmp : List UInt8 → List UInt8 → Int
  | [], s2 => (toUpper 0).toNat - (toUpper (s2.headD 0)).toNat
  | c1 :: s1, s2 =>
      let res : Int := (toUpper c1).toNat - (toUpper (s2.headD 0)).toNat
      if res = 0 then
        if c1 = 0 then 0 else ircStrcmp s1 s2.tail
      else res

/-- `irc_strncmp`. The first bytes are compared whatever `n` is, and two empty
strings are equal. -/
def ircStrncmp : List UInt8 → List UInt8 → Int → Int
  | [], s2, _ => (toUpper 0).toNat - (toUpper (s2.headD 0)).toNat
  | c1 :: s1, s2, n =>
      let res : Int := (toUpper c1).toNat - (toUpper (s2.headD 0)).toNat
      if res = 0 then
        if n - 1 = 0 ∨ (s1.headD 0 = 0 ∧ s2.tail.headD 0 = 0) then 0
        else ircStrncmp s1 s2.tail (n - 1)
      else res

theorem toLower_toUpper (c : UInt8) : toLower (toUpper c) = toLower c := by
  simp only [toLower, toUpper]
  grind

theorem toUpper_toLower (c : UInt8) : toUpper (toLower c) = toUpper c := by
  simp only [toLower, toUpper]
  grind

theorem toUpper_eq_zero {c : UInt8} : toUpper c = 0 ↔ c = 0 := by
  simp only [toUpper]
  grind

/-- The two tables agree on which bytes are the same letter. -/
theorem toLower_eq_iff {a b : UInt8} : toLower a = toLower b ↔ toUpper a = toUpper b := by
  constructor
  · intro h
    rw [← toUpper_toLower a, h, toUpper_toLower]
  · intro h
    rw [← toLower_toUpper a, h, toLower_toUpper]

theorem toNat_sub_eq_zero {a b : UInt8} : (a.toNat : Int) - b.toNat = 0 ↔ a = b := by
  rw [Int.sub_eq_zero, Int.natCast_inj, UInt8.toNat_inj]

/-- Equality under `irc_strcmp` is equality of the folded strings. -/
theorem ircStrcmp_eq_zero {s1 s2 : List UInt8} :
    ircStrcmp s1 s2 = 0 ↔ (cstr s1).map toUpper = (cstr s2).map toUpper := by
  induction s1 generalizing s2 with
  | nil =>
      rw [ircStrcmp, toNat_sub_eq_zero]
      cases s2 with
      | nil => simp
      | cons c s2 =>
          by_cases hc : c = 0
          · subst hc
            simp [cstr_cons_zero]
          · rw [cstr_cons_of_ne hc, List.headD_cons]
            refine iff_of_false (fun h => hc ?_) (by simp)
            exact toUpper_eq_zero.mp (h.symm.trans (by rfl))
  | cons c1 s1 ih =>
      rw [ircStrcmp]
      simp only [toNat_sub_eq_zero]
      by_cases hc : c1 = 0
      · subst hc
        rw [cstr_cons_zero]
        cases s2 with
        | nil => simp
        | cons c2 s2 =>
            by_cases h2 : c2 = 0
            · subst h2
              simp [cstr_cons_zero]
            · have hne : ¬ toUpper 0 = toUpper c2 := fun h =>
                h2 (toUpper_eq_zero.mp (h.symm.trans (by rfl)))
              rw [cstr_cons_of_ne h2, List.headD_cons, if_neg hne]
              rw [toNat_sub_eq_zero]
              exact iff_of_false hne (by simp)
      · rw [cstr_cons_of_ne hc, if_neg hc]
        cases s2 with
        | nil =>
            have hne : ¬ toUpper c1 = toUpper 0 := fun h =>
              hc (toUpper_eq_zero.mp (h.trans (by rfl)))
            rw [List.headD_nil, if_neg hne, toNat_sub_eq_zero]
            exact iff_of_false hne (by simp)
        | cons c2 s2 =>
            rw [List.headD_cons, List.tail_cons]
            by_cases hu : toUpper c1 = toUpper c2
            · have h2 : c2 ≠ 0 := by
                intro heq
                subst heq
                exact hc (toUpper_eq_zero.mp (hu.trans (by rfl)))
              rw [if_pos hu, ih, cstr_cons_of_ne h2, List.map_cons, List.map_cons,
                hu]
              simp
            · rw [if_neg hu, toNat_sub_eq_zero]
              refine iff_of_false hu fun h => ?_
              by_cases h2 : c2 = 0
              · subst h2
                simp [cstr_cons_zero] at h
              · rw [cstr_cons_of_ne h2] at h
                simp only [List.map_cons, List.cons.injEq] at h
                exact hu h.1

/-- A name as `irc_strcmp` sees it. -/
def foldName (s : List UInt8) : List UInt8 := (cstr s).map toUpper

theorem foldName_cstr (s : List UInt8) : foldName (cstr s) = foldName s := by
  rw [foldName, foldName, cstr_cstr]

/-- The comparison, as equality of folded names. -/
theorem ircStrcmp_eq_zero_iff {s1 s2 : List UInt8} :
    ircStrcmp s1 s2 = 0 ↔ foldName s2 = foldName s1 :=
  ircStrcmp_eq_zero.trans eq_comm

theorem ircStrcmp_comm {s1 s2 : List UInt8} (h : ircStrcmp s1 s2 = 0) :
    ircStrcmp s2 s1 = 0 :=
  ircStrcmp_eq_zero.mpr (ircStrcmp_eq_zero.mp h).symm

theorem ircStrcmp_trans {s1 s2 s3 : List UInt8} (h : ircStrcmp s1 s2 = 0)
    (h' : ircStrcmp s1 s3 = 0) : ircStrcmp s2 s3 = 0 :=
  ircStrcmp_eq_zero.mpr
    ((ircStrcmp_eq_zero.mp h).symm.trans (ircStrcmp_eq_zero.mp h'))

end TrIrcd
