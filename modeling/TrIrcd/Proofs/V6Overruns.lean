import TrIrcd.Proofs.V6Netmasks

/-!
# Netmasks of IPv6 for which the parser leaves its arrays

A scan that ends at the end of the text or at a star has used no more than eight
elements of `d`, and a number of bits that is not negative. A slash adds one to
the elements, and takes whatever `strtoul` makes an `int` of. So it is a slash
behind eight groups, or one in front of a number that is taken for -16 or less,
which leaves the arrays, provided that the scan comes so far and takes the number
(`parse_fault_iff`).
-/

namespace TrIrcd

open TrIrcd.Lib

/-! ## The text in front of a slash -/

/-- There are no more than four digits in a row, and no more than `room` at the start. -/
def digitRuns : Nat → List UInt8 → Bool
  | _, [] => true
  | room, c :: body =>
      if isXDigit c then room ≠ 0 && digitRuns (room - 1) body else digitRuns 4 body

/-- The colons right behind a colon, which `colon` says there is in front of the text. -/
def gapCount : Bool → List UInt8 → Nat
  | _, [] => 0
  | colon, c :: body => (if c = 0x3a ∧ colon = true then 1 else 0) + gapCount (c = 0x3a) body

/-- The other colons. -/
def groupEnds : Bool → List UInt8 → Nat
  | _, [] => 0
  | colon, c :: body => (if c = 0x3a ∧ colon = false then 1 else 0) + groupEnds (c = 0x3a) body

def endsInColon (colon : Bool) (body : List UInt8) : Bool :=
  body.getLast?.elim colon (· = 0x3a)

/-- The number behind a slash, as an `int`. -/
def slashBits (suffix : List UInt8) : Int := (strtoul10 suffix).1.toUInt32.toInt32.toInt

/-- The scan comes to the end of `body`, and not behind a colon. There are `dp`
groups and `gaps` gaps in front of it, and room for `nyble` digits. -/
def Scanned (nyble dp gaps : Nat) (colon : Bool) (body : List UInt8) : Prop :=
  (∀ c ∈ body, isXDigit c = true ∨ c = 0x3a) ∧ digitRuns nyble body = true ∧
    gaps + gapCount colon body ≤ 1 ∧ dp + groupEnds colon body ≤ 7 ∧
    endsInColon colon body = false

/-- The number behind a slash is taken, and there is no place for the next group
or the number is too small. -/
def SlashLeaves (dp gaps : Nat) (suffix : List UInt8) : Prop :=
  ((strtoul10 suffix).2 = [] ∧ slashBits suffix ≠ 0) ∧
    (slashBits suffix ≤ ((dp + 1) * 4 : Nat) ∨ gaps = 1 ∧ slashBits suffix ≤ 128) ∧
    (dp = 7 ∨ slashBits suffix ≤ -16)

def SlashOverruns (nyble dp gaps : Nat) (colon : Bool) (body suffix : List UInt8) : Prop :=
  Scanned nyble dp gaps colon body ∧
    SlashLeaves (dp + groupEnds colon body) (gaps + gapCount colon body) suffix

theorem endsInColon_cons (colon : Bool) (c : UInt8) (body : List UInt8) :
    endsInColon colon (c :: body) = endsInColon (c = 0x3a) body := by
  rw [endsInColon, endsInColon, List.getLast?_cons]
  cases body.getLast? with
  | none => rfl
  | some d => rfl

section

variable {nyble dp gaps : Nat} {colon : Bool} {body suffix p : List UInt8} {c : UInt8}

theorem slashOverruns_digit (hc : isXDigit c = true) :
    SlashOverruns nyble dp gaps colon (c :: body) suffix ↔
      nyble ≠ 0 ∧ SlashOverruns (nyble - 1) dp gaps false body suffix := by
  have hne : c ≠ 0x3a := by
    rintro rfl
    exact absurd hc (by decide)
  have hruns : digitRuns nyble (c :: body) = true ↔
      nyble ≠ 0 ∧ digitRuns (nyble - 1) body = true := by
    rw [digitRuns, if_pos hc, Bool.and_eq_true, decide_eq_true_eq]
  have hgap : gapCount colon (c :: body) = gapCount false body := by
    rw [gapCount, if_neg fun h => hne h.1, decide_eq_false hne, Nat.zero_add]
  have hends : groupEnds colon (c :: body) = groupEnds false body := by
    rw [groupEnds, if_neg fun h => hne h.1, decide_eq_false hne, Nat.zero_add]
  rw [SlashOverruns, SlashOverruns, Scanned, Scanned, List.forall_mem_cons, hruns, hgap, hends,
    endsInColon_cons, decide_eq_false hne,
    and_iff_right (Or.inl hc : isXDigit c = true ∨ c = 0x3a)]
  constructor
  · rintro ⟨⟨hbytes, ⟨hroom, hrun⟩, hrest⟩, hleaves⟩
    exact ⟨hroom, ⟨hbytes, hrun, hrest⟩, hleaves⟩
  · rintro ⟨hroom, ⟨hbytes, hrun, hrest⟩, hleaves⟩
    exact ⟨⟨hbytes, ⟨hroom, hrun⟩, hrest⟩, hleaves⟩

theorem slashOverruns_group :
    SlashOverruns nyble dp gaps false (0x3a :: body) suffix ↔
      dp + 1 ≤ 7 ∧ SlashOverruns 4 (dp + 1) gaps true body suffix := by
  have hcolon : isXDigit 0x3a = true ∨ (0x3a : UInt8) = 0x3a := .inr rfl
  have hgap : gapCount false (0x3a :: body) = gapCount true body := Nat.zero_add _
  have hends : dp + groupEnds false (0x3a :: body) = dp + 1 + groupEnds true body :=
    (Nat.add_assoc dp 1 _).symm
  have hruns : digitRuns nyble (0x3a :: body) = digitRuns 4 body := rfl
  rw [SlashOverruns, SlashOverruns, Scanned, Scanned, List.forall_mem_cons, hruns, hgap, hends,
    endsInColon_cons, and_iff_right hcolon]
  refine (and_iff_right_of_imp fun h => ?_).symm
  have := h.1.2.2.2.1
  omega

theorem slashOverruns_gap :
    SlashOverruns 4 dp gaps true (0x3a :: body) suffix ↔
      gaps = 0 ∧ SlashOverruns 4 dp 1 true body suffix := by
  have hcolon : isXDigit 0x3a = true ∨ (0x3a : UInt8) = 0x3a := .inr rfl
  have hgap : gaps + gapCount true (0x3a :: body) = gaps + 1 + gapCount true body :=
    (Nat.add_assoc gaps 1 _).symm
  have hends : groupEnds true (0x3a :: body) = groupEnds true body := Nat.zero_add _
  have hruns : digitRuns 4 (0x3a :: body) = digitRuns 4 body := rfl
  rw [SlashOverruns, SlashOverruns, Scanned, Scanned, List.forall_mem_cons, hruns, hgap, hends,
    endsInColon_cons, and_iff_right hcolon]
  constructor
  · intro h
    obtain rfl : gaps = 0 := by
      have := h.1.2.2.1
      omega
    exact ⟨rfl, h⟩
  · rintro ⟨rfl, h⟩
    exact h

/-- The first slash of a text is one that the scan leaves the arrays at. -/
def TextOverruns (nyble dp gaps : Nat) (colon : Bool) (text : List UInt8) : Prop :=
  ∃ body suffix, text = body ++ 0x2f :: suffix ∧ SlashOverruns nyble dp gaps colon body suffix

theorem textOverruns_cons (hc : c ≠ 0x2f) :
    TextOverruns nyble dp gaps colon (c :: p) ↔ ∃ body suffix, p = body ++ 0x2f :: suffix ∧
      SlashOverruns nyble dp gaps colon (c :: body) suffix := by
  constructor
  · rintro ⟨body, suffix, heq, h⟩
    cases body with
    | nil =>
        cases heq
        exact absurd rfl hc
    | cons d body =>
        cases heq
        exact ⟨body, suffix, rfl, h⟩
  · rintro ⟨body, suffix, rfl, h⟩
    exact ⟨c :: body, suffix, rfl, h⟩

theorem textOverruns_digit (hc : isXDigit c = true) :
    TextOverruns nyble dp gaps colon (c :: p) ↔
      nyble ≠ 0 ∧ TextOverruns (nyble - 1) dp gaps false p := by
  have hslash : c ≠ 0x2f := by
    rintro rfl
    exact absurd hc (by decide)
  rw [textOverruns_cons hslash, TextOverruns]
  simp only [slashOverruns_digit hc, exists_and_left, and_left_comm]

theorem textOverruns_group :
    TextOverruns nyble dp gaps false (0x3a :: p) ↔
      dp + 1 ≤ 7 ∧ TextOverruns 4 (dp + 1) gaps true p := by
  rw [textOverruns_cons (by decide), TextOverruns]
  simp only [slashOverruns_group, exists_and_left, and_left_comm]

theorem textOverruns_gap :
    TextOverruns 4 dp gaps true (0x3a :: p) ↔ gaps = 0 ∧ TextOverruns 4 dp 1 true p := by
  rw [textOverruns_cons (by decide), TextOverruns]
  simp only [slashOverruns_gap, exists_and_left, and_left_comm]

/-- Anything else is not in front of the slash. -/
theorem not_textOverruns (hx : ¬ isXDigit c = true) (hcolon : c ≠ 0x3a) (hslash : c ≠ 0x2f) :
    ¬ TextOverruns nyble dp gaps colon (c :: p) := by
  rw [textOverruns_cons hslash]
  rintro ⟨body, suffix, _, h⟩
  rcases h.1.1 c (List.mem_cons_self ..) with h | h
  · exact hx h
  · exact hcolon h

theorem textOverruns_slash :
    TextOverruns nyble dp gaps colon (0x2f :: p) ↔ SlashOverruns nyble dp gaps colon [] p := by
  constructor
  · rintro ⟨body, suffix, heq, h⟩
    cases body with
    | nil =>
        cases heq
        exact h
    | cons d body =>
        cases heq
        rcases h.1.1 0x2f (List.mem_cons_self ..) with h | h
        · exact absurd h (by decide)
        · exact absurd h (by decide)
  · exact fun h => ⟨[], p, rfl, h⟩

end

/-! ## The scan -/

namespace V6Scan

variable {st : V6Scan} {colon : Bool} {p : List UInt8} {c : UInt8}

/-- What is left of a scan leaves the arrays. -/
def Leaves (r : V6Scan × Int × Bool) : Prop := 8 ≤ r.1.done.length ∨ r.2.1 ≤ -16

def ScanLeaves (st : V6Scan) (colon : Bool) (p : List UInt8) : Prop :=
  ∃ r, st.scan colon p = some r ∧ Leaves r

def gapsSeen (st : V6Scan) : Nat := st.finsert.isSome.toNat

theorem not_scanLeaves_none (h : st.scan colon p = none) : ¬ st.ScanLeaves colon p := by
  rintro ⟨r, hr, _⟩
  cases h.symm.trans hr

theorem scanLeaves_congr {st' : V6Scan} {colon' : Bool} {p' : List UInt8}
    (h : st.scan colon p = st'.scan colon' p') :
    st.ScanLeaves colon p ↔ st'.ScanLeaves colon' p' := by
  rw [ScanLeaves, ScanLeaves, h]

/-- At the end and at a star the arrays are not left. -/
theorem not_scanLeaves_some {st' : V6Scan} {b : Int} {ended : Bool}
    (h : st.scan colon p = some (st', b, ended)) (hdp : st'.done.length ≤ 7) (hb : 0 ≤ b) :
    ¬ st.ScanLeaves colon p := by
  rintro ⟨r, hr, hleaves⟩
  cases h.symm.trans hr
  rcases hleaves with h | h
  · exact absurd hdp (Nat.not_le.mpr h)
  · have hlow : b ≤ -16 := h
    omega

theorem scanLeaves_digit (hc : isXDigit c = true) :
    st.ScanLeaves colon (c :: p) ↔ st.nyble ≠ 0 ∧
      ScanLeaves { st with
        cur := st.cur ||| digitParse c <<< (4 * (st.nyble - 1))
        nyble := st.nyble - 1 } false p := by
  by_cases hroom : st.nyble = 0
  · exact iff_of_false (not_scanLeaves_none (by rw [scan, if_pos hc, if_pos hroom]))
      fun h => h.1 hroom
  · rw [and_iff_right hroom]
    exact scanLeaves_congr (by rw [scan, if_pos hc, if_neg hroom])

theorem scanLeaves_group :
    st.ScanLeaves false (0x3a :: p) ↔
      st.done.length + 1 ≤ 7 ∧ ScanLeaves { st.next with nyble := 4 } true p := by
  by_cases hroom : st.done.length + 1 ≤ 7
  · rw [and_iff_right hroom]
    exact scanLeaves_congr (scan_colon hroom)
  · refine iff_of_false (not_scanLeaves_none ?_) fun h => hroom h.1
    have hfull : 8 ≤ st.next.done.length := by
      rw [next_length]
      omega
    rw [scan, if_neg (by decide), if_pos rfl, if_neg Bool.false_ne_true]
    exact if_pos hfull

theorem scanLeaves_gap :
    st.ScanLeaves true (0x3a :: p) ↔
      st.gapsSeen = 0 ∧ ScanLeaves { st with finsert := some st.done.length } true p := by
  rw [gapsSeen]
  cases hfin : st.finsert with
  | none =>
      have hnone : (none : Option Nat).isSome.toNat = 0 := rfl
      rw [and_iff_right hnone]
      exact scanLeaves_congr (scan_colon_colon hfin)
  | some f =>
      refine iff_of_false (not_scanLeaves_none ?_) fun h => nomatch h.1
      rw [scan, if_neg (by decide), if_pos rfl, if_pos rfl, hfin]
      rfl

theorem not_scanLeaves_other (hdp : st.done.length ≤ 7) (hx : ¬ isXDigit c = true)
    (hcolon : c ≠ 0x3a) (hslash : c ≠ 0x2f) : ¬ st.ScanLeaves colon (c :: p) := by
  by_cases hstar : c = 0x2a
  · by_cases hbad : st.finsert.isSome = true ∨ p ≠ [] ∨ st.done = [] ∨ ¬ colon = true
    · refine not_scanLeaves_none ?_
      rw [scan, if_neg hx, if_neg hcolon, if_pos hstar, if_pos hbad]
    · refine @not_scanLeaves_some _ _ _ st ((st.done.length : Int) * 16) true ?_ hdp
        (by omega)
      rw [scan, if_neg hx, if_neg hcolon, if_pos hstar, if_neg hbad]
  · refine not_scanLeaves_none ?_
    rw [scan, if_neg hx, if_neg hcolon, if_neg hstar, if_neg hslash]

theorem scanLeaves_slash (hdp : st.done.length ≤ 7) :
    st.ScanLeaves colon (0x2f :: p) ↔
      SlashOverruns st.nyble st.done.length st.gapsSeen colon [] p := by
  have hgaps : st.gapsSeen ≤ 1 ∧ (st.gapsSeen = 1 ↔ st.finsert.isSome = true) := by
    rw [gapsSeen]
    cases st.finsert with
    | none => exact ⟨by decide, by decide⟩
    | some f => exact ⟨Nat.le_refl 1, iff_of_true rfl rfl⟩
  have hscanned : Scanned st.nyble st.done.length st.gapsSeen colon [] ↔ colon = false :=
    ⟨fun h => h.2.2.2.2, fun h => ⟨fun c hc => absurd hc List.not_mem_nil, rfl, hgaps.1, hdp, h⟩⟩
  have hfin : st.next.finsert = st.finsert := rfl
  rw [ScanLeaves, scan_slash, slash]
  simp only [next_length, hfin]
  rw [← slashBits, SlashOverruns, hscanned, SlashLeaves]
  simp only [groupEnds, gapCount, Nat.add_zero, hgaps.2]
  cases colon with
  | true =>
      refine iff_of_false ?_ fun h => Bool.noConfusion h.1
      rintro ⟨r, hr, _⟩
      cases hr
  | false =>
      rw [if_neg Bool.false_ne_true, and_iff_right rfl]
      by_cases hnum : slashBits p = 0 ∨ (strtoul10 p).2 ≠ []
      · rw [if_pos hnum]
        refine iff_of_false ?_ ?_
        · rintro ⟨r, hr, _⟩
          cases hr
        · rintro ⟨⟨hafter, hzero⟩, _⟩
          rcases hnum with h | h
          · exact hzero h
          · exact h hafter
      · obtain ⟨hzero, hafter⟩ := not_or.mp hnum
        have hnumber : (strtoul10 p).2 = [] ∧ slashBits p ≠ 0 := ⟨not_not.mp hafter, hzero⟩
        rw [if_neg hnum, and_iff_right hnumber]
        split
        · next hfew =>
            refine iff_of_false ?_ ?_
            · rintro ⟨r, hr, _⟩
              cases hr
            · rintro ⟨hle | hgap, _⟩
              · exact absurd hfew.1 (Int.not_lt.mpr hle)
              · exact hfew.2 hgap
        · next hfew =>
            have htaken : slashBits p ≤ ((st.done.length + 1) * 4 : Nat) ∨
                st.finsert.isSome = true ∧ slashBits p ≤ 128 := by
              by_contra h
              obtain ⟨hle, hgap⟩ := not_or.mp h
              exact hfew ⟨Int.not_le.mp hle, hgap⟩
            have hplace : 8 ≤ st.next.done.length ↔ st.done.length = 7 := by
              rw [next_length]
              omega
            rw [and_iff_right htaken, ← hplace]
            constructor
            · rintro ⟨r, hr, hleaves⟩
              cases hr
              exact hleaves
            · exact fun h => ⟨_, rfl, h⟩

theorem scanLeaves_iff :
    ∀ {p : List UInt8} {st : V6Scan} {colon : Bool}, st.done.length ≤ 7 →
      (colon = true → st.nyble = 4) →
      (st.ScanLeaves colon p ↔
        TextOverruns st.nyble st.done.length st.gapsSeen colon p) := by
  intro p
  induction p with
  | nil =>
      intro st colon hdp _
      refine iff_of_false (not_scanLeaves_some rfl hdp (Int.le_refl 0)) ?_
      rintro ⟨body, suffix, h, _⟩
      cases (List.append_eq_nil_iff.mp h.symm).2
  | cons c p ih =>
      intro st colon hdp hnyble
      by_cases hx : isXDigit c = true
      · rw [scanLeaves_digit hx, textOverruns_digit hx]
        exact and_congr_right fun _ => ih hdp fun h => nomatch h
      · by_cases hcolon : c = 0x3a
        · subst hcolon
          cases colon with
          | false =>
              rw [scanLeaves_group, textOverruns_group, ← next_length]
              exact and_congr_right fun hroom => ih hroom fun _ => rfl
          | true =>
              have htext := @textOverruns_gap st.done.length st.gapsSeen p
              rw [← hnyble rfl] at htext
              rw [scanLeaves_gap, htext]
              exact and_congr_right fun _ => ih hdp fun _ => hnyble rfl
        · by_cases hslash : c = 0x2f
          · subst hslash
            rw [scanLeaves_slash hdp, textOverruns_slash]
          · exact iff_of_false (not_scanLeaves_other hdp hx hcolon hslash)
              (not_textOverruns hx hcolon hslash)

end V6Scan

/-! ## The whole parser -/

theorem clearUnusedV6_fault_iff {dc : List UInt16} {bits : Int} :
    (∃ e, clearUnusedV6 dc bits = .error e) ↔ bits ≤ -16 := by
  have hcond : (bits.tmod 16 ≠ 0 ∧ bits.tdiv 16 < 0) ∨ bitWords bits < 0 ↔ bits ≤ -16 := by
    rw [bitWords]
    rcases Int.eq_nat_or_neg bits with ⟨n, rfl | rfl⟩
    · have hmod : (n : Int).tmod 16 = (n % 16 : Nat) := rfl
      have hdiv : (n : Int).tdiv 16 = (n / 16 : Nat) := rfl
      rw [hmod, hdiv]
      split
      · omega
      · omega
    · have hmod : (-(n : Int)).tmod 16 = -(n % 16 : Nat) := Int.neg_tmod n 16
      have hdiv : (-(n : Int)).tdiv 16 = -(n / 16 : Nat) := Int.neg_tdiv n 16
      rw [hmod, hdiv]
      split
      · omega
      · omega
  rw [clearUnusedV6, ← hcond]
  split
  · next h => exact iff_of_true ⟨_, rfl⟩ h
  · next h =>
      refine iff_of_false ?_ h
      rintro ⟨_, he⟩
      cases he

theorem map_fault_iff {α β ε : Type} {x : Except ε α} {f : α → β} :
    (∃ e, x.map f = .error e) ↔ ∃ e, x = .error e := by
  cases x with
  | ok a =>
      refine iff_of_false ?_ ?_
      · rintro ⟨_, he⟩
        cases he
      · rintro ⟨_, he⟩
        cases he
  | error e => exact iff_of_true ⟨e, rfl⟩ ⟨e, rfl⟩

theorem finishV6_fault_iff {st : V6Scan} {b : Int} {ended : Bool} :
    (∃ e, finishV6 st b ended = .error e) ↔ V6Scan.Leaves (st, b, ended) := by
  rw [V6Scan.Leaves, finishV6]
  by_cases hdp : 8 ≤ st.done.length
  · rw [if_pos hdp]
    exact iff_of_true ⟨_, rfl⟩ (.inl hdp)
  · rw [if_neg hdp, or_iff_right hdp]
    simp only [map_fault_iff, clearUnusedV6_fault_iff]
    by_cases hb : b = 0
    · subst hb
      split
      · split
        · omega
        · omega
      · rw [if_pos rfl]
        omega
    · rw [if_neg fun h => hb h.2, if_neg hb]

theorem parse_fault_iff (text : List UInt8) :
    (∃ e, tryParseV6Netmask text = .error e) ↔ TextOverruns 4 0 0 false text := by
  have hscan := @V6Scan.scanLeaves_iff text V6Scan.init false (Nat.zero_le 7)
    fun h => Bool.noConfusion h
  refine Iff.trans ?_ hscan
  rw [tryParseV6Netmask, V6Scan.ScanLeaves]
  cases hr : V6Scan.init.scan false text with
  | none =>
      refine iff_of_false ?_ ?_
      · rintro ⟨_, he⟩
        cases he
      · rintro ⟨_, hr, _⟩
        cases hr
  | some r =>
      obtain ⟨st, b, ended⟩ := r
      simp only [finishV6_fault_iff, Option.some.injEq, exists_eq_left']

/-- The parser stays within its arrays, and what a netmask is taken for is right. -/
def NetmaskRight (text : List UInt8) : Prop :=
  (∃ r, tryParseV6Netmask text = .ok r) ∧
    ∀ f : V6Form, f.Wf → f.text = text → f.Right (tryParseV6Netmask text)

theorem netmaskRight_iff (text : List UInt8) :
    NetmaskRight text ↔
      ¬ TextOverruns 4 0 0 false text ∧ ∀ f : V6Form, f.Wf → f.text = text → f.Read := by
  have hok : (∃ r, tryParseV6Netmask text = .ok r) ↔ ¬ TextOverruns 4 0 0 false text := by
    rw [← parse_fault_iff]
    cases tryParseV6Netmask text with
    | ok r =>
        refine iff_of_true ⟨r, rfl⟩ ?_
        rintro ⟨_, he⟩
        cases he
    | error e =>
        refine iff_of_false ?_ fun h => h ⟨e, rfl⟩
        rintro ⟨_, hr⟩
        cases hr
  rw [NetmaskRight, hok]
  refine and_congr_right fun _ => forall₂_congr fun f hf => ?_
  constructor
  · rintro h rfl
    exact (V6Form.right_iff_read hf).mp (h rfl)
  · rintro h rfl
    exact (V6Form.right_iff_read hf).mpr (h rfl)

/-- `::a` is read as `::30`. -/
theorem letter_not_read : ¬ ∀ text, NetmaskRight text := by
  intro h
  have hwf : (V6Form.short [] [[0x61]] none).Wf := by
    refine ⟨fun g hg => absurd hg List.not_mem_nil, fun g hg => ?_, by decide,
      fun ds hds => nomatch hds⟩
    rw [List.mem_singleton.mp hg]
    exact ⟨by decide, by decide, List.all_eq_true.mp (by decide)⟩
  have hread := (V6Form.right_short hwf).mp ((h _).2 _ hwf rfl)
  have hdigit := hread.2 [0x61] (List.mem_singleton_self _) 0x61 (List.mem_singleton_self _)
  cases hdigit

end TrIrcd
