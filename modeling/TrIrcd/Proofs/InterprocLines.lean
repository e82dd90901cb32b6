import TrIrcd.Src.Interproc

/-!
# Lines of the local socket

The test for a numeric looks at the first byte alone: it holds of the digits up
to `7`, whatever follows them (`numericTest_iff`). A line that passes it is a
numeric if there are two more digits, and needs a second word; without one the
scan leaves the line. Any other line is cut into the words behind its token,
which stay within `parv` up to `MAXPARA` of them (`interprocParams_eq`).
-/

namespace TrIrcd

open TrIrcd.Lib

/-! ## The parameters -/

theorem interprocParams_eq (s : List UInt8) :
    ∀ {parv : List (List UInt8)}, parv.length ≤ maxPara + 1 →
      interprocParams parv s =
        if parv.length + (lineParams s).length ≤ maxPara + 1 then .ok (parv ++ lineParams s)
        else .error .overflow := by
  fun_induction lineParams s with
  | case1 s hs =>
      intro parv hparv
      rw [interprocParams, if_pos hparv]
      split
      · rw [List.length_nil, Nat.add_zero, if_pos hparv, List.append_nil]
      · next hc => cases hs.symm.trans hc
  | case2 s t hs =>
      intro parv hparv
      rw [interprocParams, if_pos hparv]
      split
      · next hc => cases hs.symm.trans hc
      · next hc =>
          cases hs.symm.trans hc
          rw [if_pos rfl, List.length_singleton]
          by_cases hfull : maxPara + 1 ≤ parv.length
          · rw [if_pos hfull, if_neg (by omega)]
          · rw [if_neg hfull, if_pos (by omega)]
  | case3 s c t hs hcolon ih =>
      intro parv hparv
      rw [interprocParams, if_pos hparv]
      split
      · next hc => cases hs.symm.trans hc
      · next hc =>
          cases hs.symm.trans hc
          rw [if_neg hcolon, List.length_cons]
          by_cases hfull : maxPara + 1 ≤ parv.length
          · rw [if_pos hfull, if_neg (by omega)]
          · have hlen : (parv ++ [firstWord (c :: t)]).length = parv.length + 1 :=
              List.length_append
            rw [if_neg hfull, ih (by omega), hlen, List.append_assoc, List.singleton_append,
              Nat.add_right_comm, Nat.add_assoc]

/-- Spaces in front are skipped anyway. -/
theorem lineParams_skipSpaces (s : List UInt8) : lineParams (skipSpaces s) = lineParams s := by
  cases hs : skipSpaces s with
  | nil => rw [lineParams_nil hs, lineParams_nil rfl]
  | cons c t => rw [lineParams_cons hs, lineParams_cons (skipSpaces_word (skipSpaces_head hs) t)]

/-! ## Numerics -/

/-- The word begins with three digits. -/
def threeDigits : List UInt8 → Bool
  | a :: b :: c :: _ => isDigit10 a && isDigit10 b && isDigit10 c
  | _ => false

theorem numericTest_iff (c : UInt8) : numericTest c = true ↔ 0x30 ≤ c ∧ c ≤ 0x37 := by
  have hlt := UInt8.toNat_lt c
  simp only [numericTest, isDigit10, Bool.and_eq_true, decide_eq_true_eq, ne_eq,
    UInt8.le_iff_toNat_le, ← UInt8.toNat_inj, UInt8.toNat_add, UInt8.toNat_ofNat]
  omega

/-- A word that begins with three digits has nothing between the first two. -/
theorem threeDigits_skipSpaces {c : UInt8} {s : List UInt8}
    (h : threeDigits (firstWord (c :: s)) = true) : skipSpaces s = s := by
  by_cases hc : notSpace c = true
  · rw [firstWord, List.takeWhile_cons_of_pos hc] at h
    cases s with
    | nil => rfl
    | cons d s =>
        by_cases hd : notSpace d = true
        · exact skipSpaces_word hd s
        · rw [List.takeWhile_cons_of_neg hd] at h
          cases h
  · rw [firstWord, List.takeWhile_cons_of_neg hc] at h
    cases h

theorem threeDigits_pastWord {c : UInt8} {s : List UInt8}
    (h : threeDigits (firstWord (c :: s)) = true) :
    pastWord (skipSpaces s) = pastWord (c :: s) := by
  rw [threeDigits_skipSpaces h]
  by_cases hc : notSpace c = true
  · rw [pastWord, pastWord, List.dropWhile_cons_of_pos hc]
  · rw [firstWord, List.takeWhile_cons_of_neg hc] at h
    cases h

namespace InterprocAct

def isNumeric : InterprocAct → Bool
  | numeric .. => true
  | call .. => false

end InterprocAct

namespace ParseSt

variable {st : ParseSt} {me : Nat} {buf s : List UInt8} {c : UInt8} {act : InterprocAct}

theorem parseInterproc_nil (hs : skipSpaces buf = []) :
    st.parseInterproc me buf = .error .pastEnd := by
  rw [parseInterproc.eq_def, hs]

theorem parseInterproc_numeric (hs : skipSpaces buf = c :: s) (hc : numericTest c = true) :
    st.parseInterproc me buf = st.interprocNumeric (c :: s) (skipSpaces s) := by
  rw [parseInterproc.eq_def, hs]
  exact if_pos hc

theorem parseInterproc_call (hs : skipSpaces buf = c :: s) (hc : ¬ numericTest c = true) :
    st.parseInterproc me buf =
      if (lineParams s).length ≤ maxPara then
        if c < 0x80 then
          .ok (.call (interprocFuncs.lookup c) (st.names.name me :: lineParams s))
        else .error .pastTable
      else .error .overflow := by
  have hone : [st.names.name me].length ≤ maxPara + 1 := Nat.le_add_left 1 maxPara
  have hroom : 1 + (lineParams s).length ≤ maxPara + 1 ↔ (lineParams s).length ≤ maxPara := by
    omega
  rw [parseInterproc.eq_def, hs]
  simp only
  rw [if_neg hc, interprocParams_eq _ hone, lineParams_skipSpaces,
    List.length_singleton]
  simp only [hroom]
  split
  · rw [interprocTab]
    split
    · rfl
    · rfl
  · rfl

theorem interprocNumeric_isNumeric {line : List UInt8}
    (h : st.interprocNumeric line s = .ok act) : act.isNumeric = true := by
  rw [interprocNumeric.eq_def] at h
  split at h
  · cases h
  · cases h
    rfl

/-- A numeric needs a second word. -/
theorem interprocNumeric_ok_iff {line : List UInt8} :
    (∃ act, st.interprocNumeric line s = .ok act) ↔ skipSpaces (pastWord s) ≠ [] := by
  rw [interprocNumeric.eq_def]
  split
  · next hs => simp [hs]
  · next hs => simp [hs]

/-! ## Lines -/

/-- The line is taken as what it is: nothing behind it is read and nothing
behind `parv` is written, it is a numeric exactly if it begins with three
digits, and otherwise its token gets the parameters behind it. -/
def InterprocParsed (st : ParseSt) (me : Nat) (buf : List UInt8) : Prop :=
  ∃ act, st.parseInterproc me buf = .ok act ∧
    (∀ func parv, act = .call func parv → parv.length ≤ maxPara + 1) ∧
    act.isNumeric = threeDigits (firstWord (skipSpaces buf)) ∧
    (threeDigits (firstWord (skipSpaces buf)) = false →
      (lineParams (skipSpaces buf).tail).length ≤ maxPara →
      act = .call (interprocFuncs.lookup ((skipSpaces buf).headD 0))
        (st.names.name me :: lineParams (skipSpaces buf).tail))

/-- What follows a token `c` up to `7` makes a numeric with a second word of it;
what follows any other token does not make a numeric, and is at most `MAXPARA`
parameters. The token has a place in the table. -/
def TokenLine (c : UInt8) (s : List UInt8) : Prop :=
  if 0x30 ≤ c ∧ c ≤ 0x37 then
    threeDigits (firstWord (c :: s)) = true ∧ skipSpaces (pastWord (c :: s)) ≠ []
  else
    threeDigits (firstWord (c :: s)) = false ∧ c < 0x80 ∧ (lineParams s).length ≤ maxPara

theorem interprocParsed_numeric (hs : skipSpaces buf = c :: s) (hc : numericTest c = true) :
    st.InterprocParsed me buf ↔
      threeDigits (firstWord (c :: s)) = true ∧ skipSpaces (pastWord (c :: s)) ≠ [] := by
  rw [InterprocParsed, parseInterproc_numeric hs hc, hs]
  constructor
  · rintro ⟨act, hact, _, hdigits, _⟩
    have hthree := hdigits.symm.trans (interprocNumeric_isNumeric hact)
    exact ⟨hthree, threeDigits_pastWord hthree ▸ interprocNumeric_ok_iff.mp ⟨act, hact⟩⟩
  · rintro ⟨hthree, hword⟩
    obtain ⟨act, hact⟩ := (@interprocNumeric_ok_iff st _ (c :: s)).mpr
      (threeDigits_pastWord hthree ▸ hword)
    have hnum := interprocNumeric_isNumeric hact
    refine ⟨act, hact, ?_, hnum.trans hthree.symm, ?_⟩
    · rintro func parv rfl
      cases hnum
    · intro hnot
      cases hthree.symm.trans hnot

theorem interprocParsed_call (hs : skipSpaces buf = c :: s) (hc : ¬ numericTest c = true) :
    st.InterprocParsed me buf ↔
      threeDigits (firstWord (c :: s)) = false ∧ c < 0x80 ∧ (lineParams s).length ≤ maxPara := by
  rw [InterprocParsed, parseInterproc_call hs hc, hs]
  constructor
  · rintro ⟨act, hact, _, hdigits, _⟩
    split at hact
    · next hroom =>
        split at hact
        · next htable =>
            cases hact
            exact ⟨hdigits.symm, htable, hroom⟩
        · cases hact
    · cases hact
  · rintro ⟨hthree, htable, hroom⟩
    rw [if_pos hroom, if_pos htable]
    refine ⟨_, rfl, ?_, hthree.symm, fun _ _ => rfl⟩
    rintro func parv ⟨⟩
    exact Nat.succ_le_succ hroom

theorem interprocParsed_cons (hs : skipSpaces buf = c :: s) :
    st.InterprocParsed me buf ↔ TokenLine c s := by
  rw [TokenLine]
  by_cases hc : numericTest c = true
  · rw [if_pos ((numericTest_iff c).mp hc)]
    exact interprocParsed_numeric hs hc
  · rw [if_neg (mt (numericTest_iff c).mpr hc)]
    exact interprocParsed_call hs hc

theorem interprocParsed_iff (st : ParseSt) (me : Nat) (buf : List UInt8) :
    st.InterprocParsed me buf ↔ ∃ c s, skipSpaces buf = c :: s ∧ TokenLine c s := by
  cases hs : skipSpaces buf with
  | nil =>
      constructor
      · rintro ⟨act, hact, _⟩
        cases (parseInterproc_nil hs).symm.trans hact
      · rintro ⟨c, s, hcons, _⟩
        cases hcons
  | cons c s =>
      rw [interprocParsed_cons hs]
      constructor
      · exact fun hline => ⟨c, s, rfl, hline⟩
      · rintro ⟨c', s', hcons, hline⟩
        cases hcons
        exact hline

/-- `1 x y`: a token of one digit is taken for a numeric. -/
theorem digit_token_not_parsed :
    ¬ ∀ buf, (oneLink []).InterprocParsed 0 buf := by
  intro h
  obtain ⟨act, hact, _, hdigits, _⟩ := h [0x31, 0x20, 0x78, 0x20, 0x79]
  rw [parseInterproc_numeric rfl (by decide)] at hact
  have hnum := (interprocNumeric_isNumeric hact).symm.trans hdigits
  exact absurd hnum (by decide)

end ParseSt

end TrIrcd
