import Mathlib.Data.List.GetD
import TrIrcd.Lib.Glob
import TrIrcd.Src.Mask

/-!
# What `match` compares

`maskToks` reads a mask as a pattern. A state of the loop stands for a
`Scan`: the rest of the mask from `m` on against the rest of the name from
`n` on, and the two behind the last star (`At`). Every turn is a comparison
of that scan, but for the one that reads a backslash; stars are skipped on
the way, and a turn at the end of the mask first goes back.

At the end of the mask `match` looks back over question marks, and if it gets
to a star that is not the first character it accepts the name whatever
follows. So such a mask is read with a star at its end (`maskTail`). It makes
no difference unless that star is quoted.

A quoted character right behind a star is read again without its quote when
the search goes back to it. `Back` says that this is the same token.
-/

namespace TrIrcd

open TrIrcd.Lib

/-! ## Masks as patterns -/

/-- The letters `match` takes for the same. -/
def SameLetter (c d : UInt8) : Prop := toLower c = toLower d

instance (c d : UInt8) : Decidable (SameLetter c d) :=
  inferInstanceAs (Decidable (toLower c = toLower d))

/-- The pattern of a mask, read from a place where the first character is
quoted or not. -/
def maskToks : Bool → List UInt8 → List (Tok UInt8)
  | _, [] => []
  | true, c :: p => .lit c :: maskToks false p
  | false, c :: p =>
      if c = 0x5c then maskToks true p
      else if c = 0x2a then .star :: maskToks false p
      else if c = 0x3f then .any :: maskToks false p
      else .lit c :: maskToks false p

/-- A backslash with nothing behind it ends the mask. -/
def unpaired : Bool → List UInt8 → Bool
  | q, [] => q
  | true, _ :: p => unpaired false p
  | false, c :: p => unpaired (c = 0x5c) p

/-- The name is in the language of the mask. -/
def InMask (mask name : List UInt8) : Prop := Matches SameLetter (maskToks false mask) name

instance (mask name : List UInt8) : Decidable (InMask mask name) :=
  inferInstanceAs (Decidable (Matches SameLetter (maskToks false mask) name))

/-- Over question marks there is a way back to a star that is not the first
character. -/
def starTail (mask : List UInt8) : Bool :=
  mask.getD (skipBack mask (mask.length - 1)) 0 = 0x2a ∧ 0 < skipBack mask (mask.length - 1)

def maskTail (mask : List UInt8) : List (Tok UInt8) := if starTail mask then [.star] else []

variable {mask name : List UInt8}

theorem getD_eq_zero (h : 0 ∉ mask) {m : Nat} : mask.getD m 0 = 0 ↔ mask.length ≤ m := by
  constructor
  · intro h0
    by_contra hlt
    rw [List.getD_eq_getElem _ _ (Nat.not_le.mp hlt)] at h0
    exact h (h0 ▸ List.getElem_mem _)
  · exact fun hle => List.getD_eq_default _ _ hle

theorem drop_of_getD {m : Nat} (h : mask.getD m 0 ≠ 0) :
    mask.drop m = mask.getD m 0 :: mask.drop (m + 1) ∧ m < mask.length := by
  have hlt : m < mask.length := by
    by_contra hle
    exact h (List.getD_eq_default _ _ (Nat.not_lt.mp hle))
  rw [List.getD_eq_getElem _ _ hlt]
  exact ⟨List.drop_eq_getElem_cons hlt, hlt⟩

/-- A character that is no star and no backslash. -/
theorem maskToks_plain {c : UInt8} (hs : c ≠ 0x2a) (hb : c ≠ 0x5c) (p : List UInt8) :
    maskToks false (c :: p) = (if c = 0x3f then .any else .lit c) :: maskToks false p := by
  rw [maskToks, if_neg hb, if_neg hs]
  split <;> rfl

theorem skipStars_spec (mask : List UInt8) (m : Nat) (hm : m ≤ mask.length) :
    skipStars mask m ≤ mask.length ∧ m ≤ skipStars mask m ∧
      mask.getD (skipStars mask m) 0 ≠ 0x2a ∧
      maskToks false (mask.drop m) = List.replicate (skipStars mask m - m) .star ++
        maskToks false (mask.drop (skipStars mask m)) ∧
      unpaired false (mask.drop m) = unpaired false (mask.drop (skipStars mask m)) := by
  have hgen : ∀ p : List UInt8,
      let k := (p.takeWhile fun c => c = 0x2a).length
      k ≤ p.length ∧ p.getD k 0 ≠ 0x2a ∧
        maskToks false p = List.replicate k .star ++ maskToks false (p.drop k) ∧
        unpaired false p = unpaired false (p.drop k) := by
    intro p
    induction p with
    | nil => exact ⟨Nat.zero_le _, by decide, rfl, rfl⟩
    | cons c p ih =>
        by_cases hc : c = 0x2a
        · obtain ⟨hle, hne, htoks, hun⟩ := ih
          rw [List.takeWhile_cons_of_pos (by simpa using hc), List.length_cons]
          dsimp only
          rw [List.getD_cons_succ, List.drop_succ_cons, List.replicate_succ, List.length_cons,
            List.cons_append, ← htoks]
          refine ⟨Nat.succ_le_succ hle, hne, ?_, ?_⟩
          · rw [hc]
            rfl
          · rw [← hun, hc]
            rfl
        · rw [List.takeWhile_cons_of_neg (by simpa using hc)]
          exact ⟨Nat.zero_le _, hc, rfl, rfl⟩
  obtain ⟨hle, hne, htoks, hun⟩ := hgen (mask.drop m)
  rw [List.length_drop] at hle
  rw [List.getD_eq_getElem?_getD, List.getElem?_drop, ← List.getD_eq_getElem?_getD] at hne
  rw [List.drop_drop] at htoks hun
  refine ⟨?_, Nat.le_add_right .., hne, ?_, hun⟩
  · show m + _ ≤ _
    omega
  · rw [skipStars, Nat.add_sub_cancel_left]
    exact htoks

/-! ## A turn in three parts -/

/-- What happens at a star. -/
def matchStars (mask : List UInt8) (s : MatchSt) : Except Int MatchSt :=
  if s.quote = 0 ∧ mask.getD s.m 0 = 0x2a then
    let m := skipStars mask s.m
    if mask.getD m 0 = 0x5c then
      if mask.getD (m + 1) 0 = 0 then .error 0
      else .ok { s with quote := 2, wild := true, m := m + 1, ma := m + 1, na := s.n }
    else .ok { s with wild := true, m := m, ma := m, na := s.n }
  else .ok s

/-- What happens behind it. -/
def matchRest (mask name : List UInt8) (s : MatchSt) : Except Int MatchSt :=
  if mask.getD s.m 0 = 0 then
    if name.getD s.n 0 = 0 then .error 0
    else if s.quote ≠ 0 then .error 1
    else
      let m := skipBack mask (s.m - 1)
      if mask.getD m 0 = 0x2a ∧ 0 < m then .error 0
      else if ¬s.wild then .error 1
      else matchByte mask name s.retry
  else if name.getD s.n 0 = 0 then
    if s.quote ≠ 0 then .error 1
    else .error (if mask.getD (skipStars mask s.m) 0 ≠ 0 then 1 else 0)
  else matchByte mask name s

/-- The character under `m` is quoted if the one before was a backslash. -/
def MatchSt.quoted (s : MatchSt) : MatchSt := { s with quote := if s.quote = 1 then 2 else 0 }

theorem quoted_quote {s : MatchSt} (hq : s.quote ≤ 2) :
    (if (if s.quote ≠ 0 then s.quote + 1 else 0) = 3 then 0
      else if s.quote ≠ 0 then s.quote + 1 else 0) = s.quoted.quote := by
  rw [MatchSt.quoted]
  obtain h | h | h : s.quote = 0 ∨ s.quote = 1 ∨ s.quote = 2 := by omega
  all_goals simp [h]

theorem matchTurn_eq {s : MatchSt} (hq : s.quote ≤ 2) :
    matchTurn mask name s =
      if mask.getD s.m 0 = 0x5c ∧ s.quoted.quote = 0 then
        .ok { s.quoted with m := s.m + 1, quote := 1 }
      else (matchStars mask s.quoted).bind (matchRest mask name) := by
  rw [matchTurn, quoted_quote hq]
  split
  · rfl
  · rw [matchStars]
    show (if s.quoted.quote = 0 ∧ mask.getD s.m 0 = 0x2a then _ else _) =
      Except.bind (if s.quoted.quote = 0 ∧ mask.getD s.m 0 = 0x2a then _ else _) _
    by_cases hstar : s.quoted.quote = 0 ∧ mask.getD s.m 0 = 0x2a
    · rw [if_pos hstar, if_pos hstar]
      dsimp only [MatchSt.quoted]
      by_cases hslash : mask.getD (skipStars mask s.m) 0 = 0x5c
      · rw [if_pos hslash, if_pos hslash]
        by_cases hend : mask.getD (skipStars mask s.m + 1) 0 = 0
        · rw [if_pos hend, if_pos hend]
          rfl
        · rw [if_neg hend, if_neg hend]
          rfl
      · rw [if_neg hslash, if_neg hslash]
        rfl
    · rw [if_neg hstar, if_neg hstar]
      rfl

/-- The state stands for the scan; `q` says whether the character under `m` is
quoted. -/
structure At (mask name : List UInt8) (q : Bool) (s : MatchSt) (c : Scan UInt8 UInt8) :
    Prop where
  m_le : s.m ≤ mask.length
  n_le : s.n ≤ name.length
  ma_le : s.ma ≤ s.m
  na_le : s.na ≤ s.n
  paired : unpaired q (mask.drop s.m) = false
  wild : c.wild = s.wild
  rest : c.rest = maskToks q (mask.drop s.m) ++ maskTail mask
  base : c.base = name.drop s.na
  word : c.word = name.drop s.n
  good : c.Good SameLetter

/-- Behind the star stands what is read when the search goes back. -/
structure Back (mask : List UInt8) (s : MatchSt) (c : Scan UInt8 UInt8) : Prop where
  toks : c.back = maskToks false (mask.drop s.ma) ++ maskTail mask
  paired : unpaired false (mask.drop s.ma) = false
  star : mask.getD s.ma 0 ≠ 0x2a
  slash : mask.getD s.ma 0 ≠ 0x5c

/-- A pattern that begins with a quoted wild card or backslash. -/
def Quoted (p : List (Tok UInt8)) : Prop :=
  ∃ c q, p = .lit c :: q ∧ (c = 0x2a ∨ c = 0x3f ∨ c = 0x5c)

/-- How many turns there can still be. -/
def turnsLeft (mask name : List UInt8) (s : MatchSt) : Nat :=
  (name.length + 1 - s.na) * (mask.length + 2) + (mask.length + 1 - s.m)

variable {q : Bool} {s : MatchSt} {c : Scan UInt8 UInt8}

/-- The stars are skipped, if there are any. -/
theorem matchStars_spec (hmask : 0 ∉ mask) (h : At mask name q s c)
    (hq : s.quote = if q then 2 else 0) (hslash : ¬ (mask.getD s.m 0 = 0x5c ∧ s.quote = 0)) :
    ∃ s' q' c', matchStars mask s = .ok s' ∧ At mask name q' s' c' ∧
      s'.quote = (if q' then 2 else 0) ∧
      (q' = false → mask.getD s'.m 0 ≠ 0x2a ∧ mask.getD s'.m 0 ≠ 0x5c) ∧
      turnsLeft mask name s' ≤ turnsLeft mask name s ∧
      (c.Accepts SameLetter ↔ c'.Accepts SameLetter) ∧
      ((s' = s ∧ c' = c) ∨ ∃ k p, c.rest = List.replicate (k + 1) .star ++ p ∧ c' = c.skip p ∧
        (¬ Quoted p → Back mask s' c')) := by
  by_cases hstar : s.quote = 0 ∧ mask.getD s.m 0 = 0x2a
  · have hqf : q = false := by
      cases q with
      | false => rfl
      | true =>
          rw [hq] at hstar
          cases hstar.1
    subst hqf
    obtain ⟨hle, hmle, hne, htoks, hun⟩ := skipStars_spec mask s.m h.m_le
    have hlt : s.m < skipStars mask s.m := by
      rcases Nat.lt_or_eq_of_le hmle with hlt | heq
      · exact hlt
      · rw [← heq] at hne
        exact absurd hstar.2 hne
    obtain ⟨k, hk⟩ : ∃ k, skipStars mask s.m - s.m = k + 1 := ⟨_, (Nat.succ_pred_eq_of_pos (by omega)).symm⟩
    rw [hk] at htoks
    have hpaired := h.paired
    rw [hun] at hpaired
    have hturns : ∀ m, s.m ≤ m → ∀ (quote ma : Nat) (wild : Bool),
        turnsLeft mask name ⟨m, s.n, ma, s.n, wild, quote⟩ ≤ turnsLeft mask name s := by
      intro m hm quote ma wild
      have hmul : (name.length + 1 - s.n) * (mask.length + 2) ≤
          (name.length + 1 - s.na) * (mask.length + 2) :=
        Nat.mul_le_mul_right _ (by have := h.na_le; omega)
      simp only [turnsLeft]
      omega
    rw [matchStars, if_pos hstar]
    dsimp only
    by_cases hb : mask.getD (skipStars mask s.m) 0 = 0x5c
    · -- A quoted character comes behind the star.
      obtain ⟨hdrop, hlen⟩ := @drop_of_getD mask (skipStars mask s.m)
        (by rw [hb]; decide)
      rw [hb] at hdrop
      rw [hdrop] at hpaired htoks
      have hpaired' : unpaired true (mask.drop (skipStars mask s.m + 1)) = false := hpaired
      have hnext : mask.getD (skipStars mask s.m + 1) 0 ≠ 0 := by
        intro h0
        rw [getD_eq_zero hmask] at h0
        rw [List.drop_of_length_le h0] at hpaired'
        cases hpaired'
      obtain ⟨hdrop', hlen'⟩ := drop_of_getD hnext
      have hrest : c.rest = List.replicate (k + 1) .star ++
          (maskToks true (mask.drop (skipStars mask s.m + 1)) ++ maskTail mask) := by
        rw [h.rest, htoks, List.append_assoc]
        rfl
      obtain ⟨hgood, hiff⟩ := h.good.skips k hrest
      rw [if_pos hb, if_neg hnext]
      refine ⟨_, true, c.skip _, rfl, ⟨?_, h.n_le, Nat.le_refl _, Nat.le_refl _, hpaired', rfl, rfl,
        h.word, h.word, hgood⟩, rfl, nofun, hturns _ (by omega) .., hiff,
        .inr ⟨k, _, hrest, rfl, fun hquoted => ?_⟩⟩
      · show _ + 1 ≤ _
        omega
      · have hplain : mask.getD (skipStars mask s.m + 1) 0 ≠ 0x2a ∧
            mask.getD (skipStars mask s.m + 1) 0 ≠ 0x3f ∧
            mask.getD (skipStars mask s.m + 1) 0 ≠ 0x5c := by
          rw [hdrop'] at hquoted
          refine ⟨fun h => hquoted ⟨_, _, rfl, .inl h⟩, fun h => hquoted ⟨_, _, rfl, .inr (.inl h)⟩,
            fun h => hquoted ⟨_, _, rfl, .inr (.inr h)⟩⟩
        refine ⟨?_, ?_, hplain.1, hplain.2.2⟩
        · show _ = maskToks false (mask.drop (skipStars mask s.m + 1)) ++ _
          rw [hdrop', maskToks_plain hplain.1 hplain.2.2, if_neg hplain.2.1]
          rfl
        · show unpaired false (mask.drop (skipStars mask s.m + 1)) = false
          rw [hdrop'] at hpaired' ⊢
          rw [unpaired, decide_eq_false hplain.2.2]
          exact hpaired'
    · have hrest : c.rest = List.replicate (k + 1) .star ++
          (maskToks false (mask.drop (skipStars mask s.m)) ++ maskTail mask) := by
        rw [h.rest, htoks, List.append_assoc]
      obtain ⟨hgood, hiff⟩ := h.good.skips k hrest
      rw [if_neg hb]
      exact ⟨_, false, c.skip _, rfl, ⟨hle, h.n_le, Nat.le_refl _, Nat.le_refl _, hpaired, rfl, rfl,
        h.word, h.word, hgood⟩, hstar.1, fun _ => ⟨hne, hb⟩, hturns _ (by omega) .., hiff,
        .inr ⟨k, _, hrest, rfl, fun _ => ⟨rfl, hpaired, hne, hb⟩⟩⟩
  · rw [matchStars, if_neg hstar]
    refine ⟨s, q, c, rfl, h, hq, fun hqf => ?_, Nat.le_refl _, Iff.rfl, .inl ⟨rfl, rfl⟩⟩
    rw [hqf] at hq
    exact ⟨fun hs => hstar ⟨hq, hs⟩, fun hb => hslash ⟨hb, hq⟩⟩

/-! ## The comparison -/

/-- The token under `m`. -/
theorem At.head (h : At mask name q s c) (hm : mask.getD s.m 0 ≠ 0)
    (hhead : q = false → mask.getD s.m 0 ≠ 0x2a ∧ mask.getD s.m 0 ≠ 0x5c) :
    c.rest = (if q = false ∧ mask.getD s.m 0 = 0x3f then .any else .lit (mask.getD s.m 0)) ::
        (maskToks false (mask.drop (s.m + 1)) ++ maskTail mask) ∧
      unpaired false (mask.drop (s.m + 1)) = false ∧ s.m < mask.length := by
  obtain ⟨hdrop, hlt⟩ := drop_of_getD hm
  have hrest := h.rest
  have hpaired := h.paired
  rw [hdrop] at hrest hpaired
  cases q with
  | true => exact ⟨hrest, hpaired, hlt⟩
  | false =>
      obtain ⟨hs, hb⟩ := hhead rfl
      rw [maskToks_plain hs hb] at hrest
      rw [unpaired, decide_eq_false hb] at hpaired
      simp only [true_and]
      exact ⟨hrest, hpaired, hlt⟩

theorem At.word_cons (h : At mask name q s c) (hn : name.getD s.n 0 ≠ 0) :
    c.word = name.getD s.n 0 :: name.drop (s.n + 1) ∧ s.n < name.length := by
  obtain ⟨hdrop, hlt⟩ := drop_of_getD hn
  exact ⟨by rw [h.word, hdrop], hlt⟩

theorem At.word_nil (h : At mask name q s c) (hname : 0 ∉ name) (hn : name.getD s.n 0 = 0) :
    c.word = [] := by
  rw [h.word, List.drop_eq_nil_iff]
  exact (getD_eq_zero hname).mp hn

/-- Going back to the star. -/
theorem At.retry (h : At mask name q s c) (hlt : s.na < name.length)
    (hf : c.Fails SameLetter) (hwild : c.wild = true) (hback : Back mask s c) :
    At mask name false s.retry c.retry ∧ Back mask s.retry c.retry ∧
      (c.Accepts SameLetter ↔ c.retry.Accepts SameLetter) ∧
      turnsLeft mask name s.retry < turnsLeft mask name s := by
  obtain ⟨hgood, hiff⟩ := h.good.retry hf hwild
  have hdrop : c.base.drop 1 = name.drop (s.na + 1) := by
    rw [h.base, List.drop_drop]
  refine ⟨⟨h.ma_le.trans h.m_le, hlt, Nat.le_refl _, Nat.le_refl _, hback.paired, h.wild,
    hback.toks, hdrop, hdrop, hgood⟩, ⟨hback.toks, hback.paired, hback.star, hback.slash⟩, hiff,
    ?_⟩
  obtain ⟨k, hk⟩ : ∃ k, name.length + 1 - s.na = k + 1 := ⟨name.length - s.na, by omega⟩
  have hk' : name.length + 1 - (s.na + 1) = k := by omega
  simp only [turnsLeft, MatchSt.retry, hk, hk', Nat.succ_mul]
  omega

/-- What a turn can still do to the scan. -/
structure Turned (mask name : List UInt8) (s : MatchSt) (c : Scan UInt8 UInt8) (s' : MatchSt)
    (c' : Scan UInt8 UInt8) : Prop where
  scan : At mask name false s' c'
  quote : s'.quote = s.quote
  less : turnsLeft mask name s' < turnsLeft mask name s
  accepts : c.Accepts SameLetter ↔ c'.Accepts SameLetter
  back : Back mask s c → Back mask s' c'

theorem matchByte_spec (h : At mask name q s c) (hq : s.quote = if q then 2 else 0)
    (hm : mask.getD s.m 0 ≠ 0) (hn : name.getD s.n 0 ≠ 0)
    (hhead : q = false → mask.getD s.m 0 ≠ 0x2a ∧ mask.getD s.m 0 ≠ 0x5c)
    (hback : c.wild = true → c.Fails SameLetter → Back mask s c) :
    (matchByte mask name s = .error 1 ∧ ¬ c.Accepts SameLetter) ∨
      ∃ s' c', matchByte mask name s = .ok s' ∧ Turned mask name s c s' c' ∧
        Scan.Compare SameLetter c c' := by
  obtain ⟨hrest, hpaired, hmlt⟩ := h.head hm hhead
  obtain ⟨hword, hnlt⟩ := h.word_cons hn
  have hq0 : s.quote = 0 ↔ q = false := by
    rw [hq]
    cases q <;> simp
  have hne : (if q = false ∧ mask.getD s.m 0 = 0x3f then Tok.any
      else .lit (mask.getD s.m 0)) ≠ .star := by
    split <;> simp
  have htakes : (if q = false ∧ mask.getD s.m 0 = 0x3f then Tok.any
        else .lit (mask.getD s.m 0)).Takes SameLetter (name.getD s.n 0) ↔
      ¬ (toLower (mask.getD s.m 0) ≠ toLower (name.getD s.n 0) ∧
        ¬ (s.quote = 0 ∧ mask.getD s.m 0 = 0x3f)) := by
    rw [hq0]
    split
    · next hany => exact ⟨fun _ hno => hno.2 hany, fun _ => trivial⟩
    · next hlit => simp only [Tok.Takes, SameLetter, hlit, not_false_eq_true, and_true, ne_eq,
        not_not]
  rw [matchByte]
  by_cases ht : (if q = false ∧ mask.getD s.m 0 = 0x3f then Tok.any
      else .lit (mask.getD s.m 0)).Takes SameLetter (name.getD s.n 0)
  · rw [if_neg (htakes.mp ht), if_pos hm, if_pos hn]
    have htail : c.rest.tail = maskToks false (mask.drop (s.m + 1)) ++ maskTail mask := by
      rw [hrest, List.tail_cons]
    refine .inr ⟨_, c.advance, rfl, ⟨⟨hmlt, hnlt, h.ma_le.trans (Nat.le_succ _),
      h.na_le.trans (Nat.le_succ _), hpaired, h.wild, htail, h.base, ?_,
      h.good.advance hrest hword ht⟩, rfl, ?_, Iff.rfl,
      fun hb => ⟨hb.toks, hb.paired, hb.star, hb.slash⟩⟩, .take hrest hword ht⟩
    · show c.word.tail = name.drop (s.n + 1)
      rw [hword, List.tail_cons]
    · simp only [turnsLeft]
      omega
  · rw [if_pos (not_not.mp fun hno => ht (htakes.mpr hno))]
    have hfail : c.Fails SameLetter := .inr ⟨_, _, _, _, hrest, hword, hne, ht⟩
    cases hwild : s.wild with
    | false =>
        rw [if_pos (by simp)]
        exact .inl ⟨rfl, h.good.reject hfail (by rw [h.wild, hwild])⟩
    | true =>
        have hw : c.wild = true := by rw [h.wild, hwild]
        have hb := hback hw hfail
        obtain ⟨hat, hb', hiff, hless⟩ := h.retry (Nat.lt_of_le_of_lt h.na_le hnlt) hfail hw hb
        rw [if_neg (by simp)]
        exact .inr ⟨_, c.retry, rfl, ⟨hat, rfl, hless, hiff, fun _ => hb'⟩,
          .miss hrest hword hne ht hw⟩

/-! ## The end of a turn -/

/-- The search is over: nothing is left on either side, or a star takes it. -/
def Found (c : Scan UInt8 UInt8) : Prop := (c.rest = [] ∧ c.word = []) ∨ c.rest = [.star]

/-- The scan moves by one comparison. At the end of the mask it goes back first;
then, with nothing behind the star, it goes back once more or not. -/
def Walks (c c' : Scan UInt8 UInt8) : Prop :=
  Scan.Compare SameLetter c c' ∨
    (c.rest = [] ∧ c.word ≠ [] ∧ c.wild = true ∧
      (Scan.Compare SameLetter c.retry c' ∨ (c.back = [] ∧ (c' = c.retry ∨ c' = c.retry.retry))))

theorem Found.accepts {c : Scan UInt8 UInt8} (h : Found c) (hgood : c.Good SameLetter) :
    c.Accepts SameLetter := by
  rcases h with ⟨hrest, hword⟩ | hrest
  · exact hgood.accept (by rw [hrest]; exact hword)
  · exact hgood.accept (by rw [hrest]; exact matches_star_end)

theorem toLower_eq_zero {d : UInt8} (h : toLower 0 = toLower d) : d = 0 := by
  simp only [toLower] at h
  split at h
  · next hz => exact absurd hz.1 (by decide)
  · split at h
    · next hd =>
        have hnat := congrArg UInt8.toNat h
        have hlo := UInt8.le_iff_toNat_le.mp hd.1
        have hhi := UInt8.le_iff_toNat_le.mp hd.2
        simp only [UInt8.toNat_add, UInt8.toNat_ofNat] at hnat hlo hhi
        omega
    · exact h.symm

theorem Turned.trans {s' s'' : MatchSt} {c' c'' : Scan UInt8 UInt8}
    (h : Turned mask name s c s' c') (h' : Turned mask name s' c' s'' c'') :
    Turned mask name s c s'' c'' where
  scan := h'.scan
  quote := h'.quote.trans h.quote
  less := h'.less.trans h.less
  accepts := h.accepts.trans h'.accepts
  back hb := h'.back (h.back hb)

/-- The mask is at its end and the name is not. -/
theorem matchRest_again (hmask : 0 ∉ mask) (hname : 0 ∉ name) (h : At mask name false s c)
    (hq : s.quote = 0) (hm : mask.getD s.m 0 = 0) (hn : name.getD s.n 0 ≠ 0)
    (htail : maskTail mask = []) (hwild : c.wild = true) (hback : Back mask s c) :
    (matchByte mask name s.retry = .error 1 ∧ ¬ c.Accepts SameLetter) ∨
      ∃ s' c', matchByte mask name s.retry = .ok s' ∧ Turned mask name s c s' c' ∧
        Walks c c' := by
  have hrest : c.rest = [] := by
    rw [h.rest, htail, List.drop_of_length_le ((getD_eq_zero hmask).mp hm)]
    rfl
  obtain ⟨hword, hnlt⟩ := h.word_cons hn
  have hne : c.word ≠ [] := by rw [hword]; exact List.cons_ne_nil _ _
  have hfail : c.Fails SameLetter := .inl ⟨hrest, hne⟩
  obtain ⟨hat, hb, hiff, hless⟩ := h.retry (Nat.lt_of_le_of_lt h.na_le hnlt) hfail hwild hback
  have hturn : Turned mask name s c s.retry c.retry := ⟨hat, rfl, hless, hiff, fun _ => hb⟩
  have hw : s.retry.wild = true := by
    rw [← hat.wild]
    exact hwild
  by_cases hm' : mask.getD s.retry.m 0 = 0
  · -- Nothing is behind the star.
    have hend : mask.length ≤ s.ma := (getD_eq_zero hmask).mp hm'
    have hnil : c.back = [] := by
      rw [hback.toks, htail, List.drop_of_length_le hend]
      rfl
    rw [matchByte]
    by_cases hn' : name.getD s.retry.n 0 = 0
    · rw [if_neg, if_neg (not_not.mpr hm'), if_neg (not_not.mpr hn')]
      · exact .inr ⟨_, c.retry, rfl, hturn, .inr ⟨hrest, hne, hwild, .inr ⟨hnil, .inl rfl⟩⟩⟩
      · rw [hm', hn']
        exact fun hne => hne.1 rfl
    · obtain ⟨hword', hnlt'⟩ := hat.word_cons hn'
      have hrest' : c.retry.rest = [] := hnil
      have hfail' : c.retry.Fails SameLetter :=
        .inl ⟨hrest', by rw [hword']; exact List.cons_ne_nil _ _⟩
      obtain ⟨hat', hb', hiff', hless'⟩ := hat.retry hnlt' hfail' hwild hb
      rw [if_pos, hw, if_neg (by simp)]
      · exact .inr ⟨_, c.retry.retry, rfl, hturn.trans ⟨hat', rfl, hless', hiff', fun _ => hb'⟩,
          .inr ⟨hrest, hne, hwild, .inr ⟨hnil, .inr rfl⟩⟩⟩
      · rw [hm']
        exact ⟨fun heq => hn' (toLower_eq_zero heq), fun hno => absurd hno.2 (by decide)⟩
  · -- The segment has taken a symbol, so there are two.
    have hn' : name.getD s.retry.n 0 ≠ 0 := by
      obtain ⟨seg, hseg, hs, hword'⟩ := h.good
      have hdrop : mask.drop s.ma = mask.getD s.ma 0 :: mask.drop (s.ma + 1) :=
        (drop_of_getD hm').1
      have hpos : 0 < seg.length := by
        rw [hrest, List.append_nil, hback.toks] at hseg
        rw [← hseg, hdrop, maskToks_plain hback.star hback.slash]
        exact Nat.succ_pos _
      have hlen : c.word.length = c.base.length - seg.length := by
        rw [hword', List.length_drop]
      have hbase : c.base.length = name.length - s.na := by rw [h.base, List.length_drop]
      have hle := hs.length_le
      rw [hword, List.length_cons] at hlen
      intro h0
      have hover := (getD_eq_zero hname).mp h0
      have : s.retry.n = s.na + 1 := rfl
      omega
    have hq' : s.retry.quote = if false then 2 else 0 := hq
    rcases matchByte_spec hat hq' hm' hn' (fun _ => ⟨hb.star, hb.slash⟩) (fun _ _ => hb) with
      ⟨hno, hrej⟩ | ⟨s', c', hok, hturned, hcmp⟩
    · exact .inl ⟨hno, fun hacc => hrej (hiff.mp hacc)⟩
    · exact .inr ⟨s', c', hok, hturn.trans hturned, .inr ⟨hrest, hne, hwild, .inl hcmp⟩⟩

theorem matchRest_spec (hmask : 0 ∉ mask) (hname : 0 ∉ name) (h : At mask name q s c)
    (hq : s.quote = if q then 2 else 0)
    (hhead : q = false → mask.getD s.m 0 ≠ 0x2a ∧ mask.getD s.m 0 ≠ 0x5c)
    (hback : c.wild = true → c.Fails SameLetter → Back mask s c) :
    (∃ ret, matchRest mask name s = .error ret ∧ (ret = 0 ↔ c.Accepts SameLetter) ∧
        (ret = 0 → Found c)) ∨
      ∃ s' c', matchRest mask name s = .ok s' ∧ Turned mask name s c s' c' ∧ Walks c c' := by
  rw [matchRest]
  by_cases hm : mask.getD s.m 0 = 0
  · have hend := List.drop_of_length_le ((getD_eq_zero hmask).mp hm)
    have hqf : q = false := by
      cases q with
      | false => rfl
      | true =>
          have hp := h.paired
          rw [hend] at hp
          cases hp
    subst hqf
    have hrest : c.rest = maskTail mask := by
      rw [h.rest, hend]
      rfl
    have hmlen : s.m = mask.length := Nat.le_antisymm h.m_le ((getD_eq_zero hmask).mp hm)
    rw [if_pos hm]
    by_cases hn : name.getD s.n 0 = 0
    · have hword := h.word_nil hname hn
      have hfound : Found c := by
        rw [maskTail] at hrest
        split at hrest
        · exact .inr hrest
        · exact .inl ⟨hrest, hword⟩
      rw [if_pos hn]
      exact .inl ⟨0, rfl, iff_of_true rfl (hfound.accepts h.good), fun _ => hfound⟩
    · have hq0 : s.quote = 0 := hq
      rw [if_neg hn, if_neg (not_not.mpr hq0)]
      dsimp only
      rw [hmlen]
      by_cases htail : mask.getD (skipBack mask (mask.length - 1)) 0 = 0x2a ∧
          0 < skipBack mask (mask.length - 1)
      · have hfound : Found c := .inr (by
          rw [hrest, maskTail, starTail, decide_eq_true htail]
          rfl)
        rw [if_pos htail]
        exact .inl ⟨0, rfl, iff_of_true rfl (hfound.accepts h.good), fun _ => hfound⟩
      · have hnil : maskTail mask = [] := by
          rw [maskTail, starTail, decide_eq_false htail]
          rfl
        have hne : c.word ≠ [] := by
          rw [(h.word_cons hn).1]
          exact List.cons_ne_nil _ _
        have hfail : c.Fails SameLetter := .inl ⟨hrest.trans hnil, hne⟩
        rw [if_neg htail]
        cases hwild : s.wild with
        | false =>
            rw [if_pos (by simp)]
            refine .inl ⟨1, rfl, iff_of_false (by decide) ?_, fun h => absurd h (by decide)⟩
            exact h.good.reject hfail (by rw [h.wild, hwild])
        | true =>
            have hw : c.wild = true := by rw [h.wild, hwild]
            rw [if_neg (by simp)]
            rcases matchRest_again hmask hname h hq0 hm hn hnil hw (hback hw hfail) with
              ⟨hno, hrej⟩ | hok
            · exact .inl ⟨1, hno, iff_of_false (by decide) hrej, fun h => absurd h (by decide)⟩
            · exact .inr hok
  · rw [if_neg hm]
    by_cases hn : name.getD s.n 0 = 0
    · have hrej : ¬ c.Accepts SameLetter := by
        refine h.good.reject_short (h.head hm hhead).1 ?_ (h.word_nil hname hn)
        split <;> simp
      rw [if_pos hn]
      split
      · exact .inl ⟨1, rfl, iff_of_false (by decide) hrej, fun h => absurd h (by decide)⟩
      · next hq0 =>
          have hqf : q = false := by
            cases q with
            | false => rfl
            | true => exact absurd (not_not.mp hq0) (by rw [hq]; simp)
          have hskip : skipStars mask s.m = s.m := by
            have hs := (hhead hqf).1
            rw [skipStars, (drop_of_getD hm).1, List.takeWhile_cons_of_neg (by simpa using hs)]
            rfl
          rw [hskip, if_pos hm]
          exact .inl ⟨1, rfl, iff_of_false (by decide) hrej, fun h => absurd h (by decide)⟩
    · rw [if_neg hn]
      rcases matchByte_spec h hq hm hn hhead hback with ⟨hno, hrej⟩ | ⟨s', c', hok, hturn, hcmp⟩
      · exact .inl ⟨1, hno, iff_of_false (by decide) hrej, fun h => absurd h (by decide)⟩
      · exact .inr ⟨s', c', hok, hturn, .inl hcmp⟩

/-! ## A turn -/

/-- The pattern that `match` reads in a mask. -/
def readToks (mask : List UInt8) : List (Tok UInt8) := maskToks false mask ++ maskTail mask

/-- Stars are skipped, if there are any. -/
def Skips (c c' : Scan UInt8 UInt8) : Prop :=
  c' = c ∨ ∃ k p, c.rest = List.replicate (k + 1) .star ++ p ∧ c' = c.skip p

/-- Right behind a star, a quoted wild card or backslash is met at most once. -/
def Steady (mask name : List UInt8) : Prop :=
  ∀ q v, Arrives SameLetter (readToks mask) name q v → Quoted q → FirstTry SameLetter q v

/-- What holds before every turn. -/
structure Turning (mask name : List UInt8) (s : MatchSt) (c : Scan UInt8 UInt8) : Prop where
  scan : At mask name (s.quote = 1) s c
  quote : s.quote ≤ 2
  tracked : Tracked SameLetter Quoted (readToks mask) name c
  back : c.wild = true → ¬ Quoted c.back → Back mask s c

theorem Walks.same {c c' : Scan UInt8 UInt8} (h : Walks c c') :
    c'.back = c.back ∧ c'.wild = c.wild := by
  have hcmp : ∀ {c c' : Scan UInt8 UInt8}, Scan.Compare SameLetter c c' →
      c'.back = c.back ∧ c'.wild = c.wild := by
    intro c c' h
    cases h with
    | take => exact ⟨rfl, rfl⟩
    | miss => exact ⟨rfl, rfl⟩
  rcases h with h | ⟨-, -, -, h | ⟨-, rfl | rfl⟩⟩
  · exact hcmp h
  · have hsame := hcmp h
    exact ⟨hsame.1, hsame.2⟩
  · exact ⟨rfl, rfl⟩
  · exact ⟨rfl, rfl⟩

/-- The scan still comes from where it arrived. -/
theorem Walks.tracked {p : List (Tok UInt8)} {w : List UInt8} {c c' : Scan UInt8 UInt8}
    (h : Walks c c') (ht : Tracked SameLetter Quoted p w c) (hgood : c.Good SameLetter)
    (hsteady : ∀ q v, Arrives SameLetter p w q v → Quoted q → FirstTry SameLetter q v)
    (hgood' : c'.Good SameLetter) : Tracked SameLetter Quoted p w c' := by
  rcases h with h | ⟨hrest, hne, hwild, h⟩
  · exact ht.compare hgood h fun hw hf => ht.not_hold hgood hsteady hw hf
  · have hf : c.Fails SameLetter := .inl ⟨hrest, hne⟩
    have ht' := ht.retry hgood hf hwild (ht.not_hold hgood hsteady hwild hf)
    have hg := (hgood.retry hf hwild).1
    rcases h with h | ⟨hnil, rfl | rfl⟩
    · exact ht'.compare hg h fun hw hf => ht'.not_hold hg hsteady hw hf
    · exact ht'
    · by_cases hword : c.retry.word = []
      · -- There is no symbol left to take, and the second retry is the first.
        have hsame : c.retry.retry = c.retry := by
          have hnil' : c.base.drop 1 = [] := hword
          simp only [Scan.retry, hnil', List.drop_nil]
        rw [hsame]
        exact ht'
      · have hf' : c.retry.Fails SameLetter := .inl ⟨hnil, hword⟩
        exact ht'.retry hg hf' hwild (ht'.not_hold hg hsteady hwild hf')

theorem Skips.tracked {p : List (Tok UInt8)} {w : List UInt8} {c c' : Scan UInt8 UInt8}
    (h : Skips c c') (ht : Tracked SameLetter Quoted p w c) (hgood : c.Good SameLetter) :
    Tracked SameLetter Quoted p w c' := by
  rcases h with rfl | ⟨k, q, hrest, rfl⟩
  · exact ht
  · exact ht.skips k hgood hrest

/-- The same state, with its quote for this turn. -/
theorem Turning.quoted (h : Turning mask name s c) :
    At mask name (s.quote = 1) s.quoted c ∧
      s.quoted.quote = if (decide (s.quote = 1)) = true then 2 else 0 := by
  refine ⟨⟨h.scan.m_le, h.scan.n_le, h.scan.ma_le, h.scan.na_le, h.scan.paired, h.scan.wild,
    h.scan.rest, h.scan.base, h.scan.word, h.scan.good⟩, ?_⟩
  simp only [MatchSt.quoted, decide_eq_true_eq]

theorem matchTurn_spec (hmask : 0 ∉ mask) (hname : 0 ∉ name) (hsteady : Steady mask name)
    (h : Turning mask name s c) :
    (∃ ret, matchTurn mask name s = .error ret ∧ (ret = 0 ↔ c.Accepts SameLetter) ∧
        (ret = 0 → ∃ c₁, Skips c c₁ ∧ Found c₁)) ∨
      ∃ s' c', matchTurn mask name s = .ok s' ∧ Turning mask name s' c' ∧
        turnsLeft mask name s' < turnsLeft mask name s ∧
        (c.Accepts SameLetter ↔ c'.Accepts SameLetter) ∧
        ((c' = c ∧ mask.getD s.m 0 = 0x5c) ∨
          ∃ c₁, Skips c c₁ ∧ maskTail mask <:+ c₁.rest ∧ Walks c₁ c') := by
  have hq := h.quote
  have hquoted : s.quoted.quote = if s.quote = 1 then 2 else 0 := rfl
  rw [matchTurn_eq hq]
  by_cases hslash : mask.getD s.m 0 = 0x5c ∧ s.quoted.quote = 0
  · -- A backslash: the next character is quoted.
    have hne1 : s.quote ≠ 1 := by
      intro h1
      rw [hquoted, if_pos h1] at hslash
      cases hslash.2
    have hat := h.scan
    rw [decide_eq_false hne1] at hat
    obtain ⟨hdrop, hlt⟩ := @drop_of_getD mask s.m (by rw [hslash.1]; decide)
    have hrest := hat.rest
    have hpaired := hat.paired
    rw [hdrop, hslash.1] at hrest hpaired
    rw [if_pos hslash]
    refine .inr ⟨_, c, rfl, ⟨⟨hlt, hat.n_le, hat.ma_le.trans (Nat.le_succ _), hat.na_le, hpaired,
      hat.wild, hrest, hat.base, hat.word, hat.good⟩, Nat.le_succ 1, h.tracked, fun hw hnq =>
      ⟨(h.back hw hnq).toks, (h.back hw hnq).paired, (h.back hw hnq).star, (h.back hw hnq).slash⟩⟩,
      ?_, Iff.rfl, .inl ⟨rfl, hslash.1⟩⟩
    simp only [turnsLeft, MatchSt.quoted]
    omega
  · obtain ⟨hat, hqq⟩ := h.quoted
    obtain ⟨s₁, q₁, c₁, hstars, hat₁, hq₁, hhead₁, hle₁, hiff₁, hmove⟩ :=
      matchStars_spec hmask hat hqq hslash
    have hskips : Skips c c₁ := by
      rcases hmove with ⟨-, hc⟩ | ⟨k, p, hrest, hc, -⟩
      · exact .inl hc
      · exact .inr ⟨k, p, hrest, hc⟩
    have hback₁ : c₁.wild = true → ¬ Quoted c₁.back → Back mask s₁ c₁ := by
      intro hw hnq
      rcases hmove with ⟨rfl, rfl⟩ | ⟨k, p, -, rfl, hb⟩
      · have hb := h.back hw hnq
        exact ⟨hb.toks, hb.paired, hb.star, hb.slash⟩
      · exact hb hnq
    have htr₁ := hskips.tracked h.tracked h.scan.good
    have hnot : c₁.wild = true → c₁.Fails SameLetter → ¬ Quoted c₁.back := fun hw hf =>
      htr₁.not_hold hat₁.good hsteady hw hf
    rw [if_neg hslash, hstars]
    show (∃ ret, matchRest mask name s₁ = _ ∧ _) ∨ ∃ s' c', matchRest mask name s₁ = _ ∧ _
    rcases matchRest_spec hmask hname hat₁ hq₁ hhead₁ fun hw hf => hback₁ hw (hnot hw hf) with
      ⟨ret, hret, hacc, hfound⟩ | ⟨s', c', hok, hturn, hwalk⟩
    · exact .inl ⟨ret, hret, hacc.trans hiff₁.symm, fun h0 => ⟨c₁, hskips, hfound h0⟩⟩
    · obtain ⟨hsame, hwild⟩ := hwalk.same
      have hne1 : s'.quote ≠ 1 := by
        rw [hturn.quote, hq₁]
        split <;> decide
      have hle2 : s'.quote ≤ 2 := by
        rw [hturn.quote, hq₁]
        split <;> decide
      refine .inr ⟨s', c', hok, ⟨?_, hle2, ?_, fun hw hnq => ?_⟩, Nat.lt_of_lt_of_le hturn.less hle₁,
        hiff₁.trans hturn.accepts,
        .inr ⟨c₁, hskips, hat₁.rest ▸ List.suffix_append _ _, hwalk⟩⟩
      · rw [decide_eq_false hne1]
        exact hturn.scan
      · exact hwalk.tracked htr₁ hat₁.good hsteady hturn.scan.good
      · rw [hsame] at hnq
        rw [hwild] at hw
        exact hturn.back (hback₁ hw hnq)

/-! ## The loop -/

/-- With any number of turns the loop finds nothing it should not, and with
enough of them everything it should. -/
theorem matchLoop_spec (hmask : 0 ∉ mask) (hname : 0 ∉ name) (hsteady : Steady mask name) :
    ∀ calls {s : MatchSt} {c : Scan UInt8 UInt8}, Turning mask name s c →
      (matchLoop mask name calls s = 0 → c.Accepts SameLetter) ∧
        (turnsLeft mask name s < calls → c.Accepts SameLetter →
          matchLoop mask name calls s = 0) := by
  intro calls
  induction calls with
  | zero =>
      intro s c _
      have hone : matchLoop mask name 0 s = 1 := rfl
      rw [hone]
      exact ⟨fun h => absurd h (by decide), fun h => absurd h (Nat.not_lt_zero _)⟩
  | succ calls ih =>
      intro s c h
      rw [matchLoop]
      rcases matchTurn_spec hmask hname hsteady h with
        ⟨ret, hret, hacc, -⟩ | ⟨s', c', hok, hturn, hless, hiff, -⟩
      · rw [hret]
        exact ⟨hacc.mp, fun _ => hacc.mpr⟩
      · obtain ⟨hsound, hcomplete⟩ := ih hturn
        rw [hok]
        exact ⟨fun h0 => hiff.mpr (hsound h0), fun hlt ha => hcomplete (by omega) (hiff.mp ha)⟩

theorem start_turning (hpaired : unpaired false mask = false) :
    Turning mask name {} (Scan.start (readToks mask) name) where
  scan := ⟨Nat.zero_le _, Nat.zero_le _, Nat.le_refl _, Nat.le_refl _, hpaired, rfl, rfl, rfl, rfl,
    Scan.start_good _ _⟩
  quote := Nat.zero_le _
  tracked := Tracked.start _ _
  back := nofun

/-- `match` never accepts a name that is not in the language of what it reads. -/
theorem ircMatch_sound (hmask : 0 ∉ mask) (hname : 0 ∉ name) (hpaired : unpaired false mask = false)
    (hsteady : Steady mask name) (h : ircMatch mask name = 0) :
    Matches SameLetter (readToks mask) name :=
  (matchLoop_spec hmask hname hsteady _ (start_turning hpaired)).1 h

/-- A small mask and a small name leave it enough turns. -/
theorem ircMatch_iff (hmask : 0 ∉ mask) (hname : 0 ∉ name) (hpaired : unpaired false mask = false)
    (hsteady : Steady mask name) (hsmall : (mask.length + 2) * (name.length + 2) ≤ matchMaxCalls) :
    ircMatch mask name = 0 ↔ Matches SameLetter (readToks mask) name := by
  refine ⟨ircMatch_sound hmask hname hpaired hsteady, fun h => ?_⟩
  refine (matchLoop_spec hmask hname hsteady _ (start_turning hpaired)).2 ?_ h
  have hmul : (mask.length + 2) * (name.length + 2) =
      (name.length + 1) * (mask.length + 2) + (mask.length + 2) := by
    rw [Nat.mul_comm, ← Nat.succ_mul]
  show (name.length + 1 - 0) * (mask.length + 2) + (mask.length + 1 - 0) < matchMaxCalls
  rw [Nat.sub_zero, Nat.sub_zero]
  omega

end TrIrcd
