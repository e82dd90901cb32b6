import TrIrcd.Proofs.MaskScan

/-!
# What a mask accepts

Without backslashes nothing in a mask is quoted, the star that `match` finds
at its end is a star, and what it reads is the pattern of the mask
(`matches_readToks`). So it accepts no name outside of the language. Its reads
stay in the two texts as well (`readTurn_eq`), but for one: at the end of the
mask `m--` goes before the mask if that is empty, and the loop behind it tests
this bound while the `if` after it reads first.

With backslashes two things can go wrong: a quoted character right behind a
star loses its quote when the search goes back to it (`Steady` excludes that),
and a quoted star at the end of the mask is taken for a star.
-/

namespace TrIrcd

open TrIrcd.Lib

variable {mask name : List UInt8}

/-! ## Masks without backslashes -/

theorem unpaired_of_notMem : ∀ {mask : List UInt8}, 0x5c ∉ mask → unpaired false mask = false
  | [], _ => rfl
  | c :: p, h => by
      rw [List.mem_cons, not_or] at h
      rw [unpaired, decide_eq_false (Ne.symm h.1)]
      exact unpaired_of_notMem h.2

/-- The token of a character that is not quoted. -/
def plainTok (c : UInt8) : Tok UInt8 :=
  if c = 0x2a then .star else if c = 0x3f then .any else .lit c

theorem maskToks_of_notMem : ∀ {mask : List UInt8}, 0x5c ∉ mask →
    maskToks false mask = mask.map plainTok
  | [], _ => rfl
  | c :: p, h => by
      rw [List.mem_cons, not_or] at h
      rw [maskToks, if_neg (Ne.symm h.1), List.map_cons, ← maskToks_of_notMem h.2, plainTok]
      split
      · rfl
      · split <;> rfl

theorem not_lit_mem_map {c : UInt8} (hc : c = 0x2a ∨ c = 0x3f ∨ c = 0x5c) (h : 0x5c ∉ mask) :
    .lit c ∉ mask.map plainTok := by
  rw [List.mem_map]
  rintro ⟨d, hd, heq⟩
  rw [plainTok] at heq
  split at heq
  · cases heq
  · split at heq
    · cases heq
    · next hs hq =>
        cases heq
        rcases hc with rfl | rfl | rfl
        · exact hs rfl
        · exact hq rfl
        · exact h hd

theorem mem_maskTail {t : Tok UInt8} (h : t ∈ maskTail mask) : t = .star := by
  rw [maskTail] at h
  split at h
  · exact List.mem_singleton.mp h
  · cases h

/-- Where no star stands before a quoted wild card, none is tried twice. -/
theorem steady_of_notMem (h : 0x5c ∉ mask) (name : List UInt8) : Steady mask name := by
  rintro q v harr ⟨c, p, rfl, hc⟩
  have hmem : .lit c ∈ readToks mask := harr.suffix.subset (by simp)
  rw [readToks, maskToks_of_notMem h] at hmem
  rcases List.mem_append.mp hmem with hmem | hmem
  · exact absurd hmem (not_lit_mem_map hc h)
  · cases mem_maskTail hmem

/-- Question marks stand between the place where `skipBack` ends and the one
where it began. -/
theorem skipBack_spec (mask : List UInt8) : ∀ m, skipBack mask m ≤ m ∧
    ∀ j, skipBack mask m < j → j ≤ m → mask.getD j 0 = 0x3f
  | 0 => ⟨Nat.le_refl _, fun j hlt hle => absurd hle (Nat.not_le.mpr (by exact hlt))⟩
  | m + 1 => by
      obtain ⟨hle, hall⟩ := skipBack_spec mask m
      rw [skipBack]
      split
      · next hq =>
          refine ⟨hle.trans (Nat.le_succ m), fun j hlt hj => ?_⟩
          rcases Nat.lt_or_eq_of_le hj with hj | rfl
          · exact hall j hlt (Nat.le_of_lt_succ hj)
          · exact hq
      · exact ⟨Nat.le_refl _, fun j hlt hle => absurd hle (Nat.not_le.mpr hlt)⟩

/-- The mask ends in a star and question marks. -/
theorem starTail_spec (h : starTail mask = true) :
    ∃ pre k, mask = pre ++ 0x2a :: List.replicate k 0x3f := by
  obtain ⟨hstar, hpos⟩ := of_decide_eq_true h
  obtain ⟨hle, hall⟩ := skipBack_spec mask (mask.length - 1)
  have hlt : skipBack mask (mask.length - 1) < mask.length := by omega
  refine ⟨mask.take (skipBack mask (mask.length - 1)),
    mask.length - (skipBack mask (mask.length - 1) + 1), ?_⟩
  have hsplit := List.take_append_drop (skipBack mask (mask.length - 1)) mask
  rw [(drop_of_getD (by rw [hstar]; decide)).1, hstar] at hsplit
  refine hsplit.symm.trans ?_
  congr 2
  refine List.eq_replicate_iff.mpr ⟨List.length_drop, fun c hc => ?_⟩
  obtain ⟨i, hi, rfl⟩ := List.mem_iff_getElem.mp hc
  rw [List.length_drop] at hi
  rw [List.getElem_drop, ← hall _ (Nat.lt_of_lt_of_le (Nat.lt_succ_self _) (Nat.le_add_right _ i))
    (by omega), List.getD_eq_getElem]

/-- Without backslashes `match` reads the mask as what it is. -/
theorem matches_readToks (h : 0x5c ∉ mask) :
    Matches SameLetter (readToks mask) name ↔ InMask mask name := by
  rw [InMask, readToks, maskToks_of_notMem h, maskTail]
  split
  · next htail =>
      obtain ⟨pre, k, rfl⟩ := starTail_spec htail
      have htoks : (pre ++ 0x2a :: List.replicate k 0x3f).map plainTok =
          pre.map plainTok ++ .star :: List.replicate k .any := by
        rw [List.map_append, List.map_cons, List.map_replicate]
        rfl
      rw [htoks, List.append_assoc]
      exact matches_append_congr (matches_star_any k) _ _
  · rw [List.append_nil]

/-! ## The reads -/

theorem readAt_eq {text : List UInt8} {i : Nat} (h : i ≤ text.length) :
    readAt text i = some (text.getD i 0) := by
  rw [readAt, if_pos ⟨Int.natCast_nonneg i, Int.ofNat_le.mpr h⟩, Int.toNat_natCast]

theorem readStars_eq : ∀ (fuel : Nat) {m : Nat}, m ≤ mask.length → mask.length < m + fuel →
    readStars mask fuel m = some (skipStars mask m)
  | 0, _, hm, hfuel => absurd hfuel (Nat.not_lt.mpr hm)
  | fuel + 1, m, hm, hfuel => by
      have hread : readStars mask (fuel + 1) m =
          if mask.getD m 0 = 0x2a then readStars mask fuel (m + 1) else some m := by
        rw [readStars, readAt_eq hm]
        rfl
      rw [hread]
      split
      · next hstar =>
          obtain ⟨hdrop, hlt⟩ := @drop_of_getD mask m (by rw [hstar]; decide)
          have hle : m + 1 ≤ mask.length := hlt
          rw [readStars_eq fuel hle (by omega), skipStars, skipStars, hdrop,
            List.takeWhile_cons_of_pos (by rw [hstar]; rfl), List.length_cons]
          congr 1
          omega
      · next hne =>
          rw [skipStars]
          cases hd : mask.drop m with
          | nil => rfl
          | cons c p =>
              have hc : mask.getD m 0 = c := by
                rw [List.getD_eq_getElem?_getD, ← Nat.add_zero m, ← List.getElem?_drop, hd]
                rfl
              rw [hc] at hne
              rw [List.takeWhile_cons_of_neg (by simpa using hne)]
              rfl

theorem readBack_eq : ∀ (fuel : Nat) {m : Nat}, m ≤ mask.length → m ≤ fuel →
    readBack mask fuel m = some (skipBack mask m : Nat)
  | 0, m, _, hfuel => by
      rw [Nat.le_zero.mp hfuel]
      rfl
  | fuel + 1, 0, _, _ => rfl
  | fuel + 1, m + 1, hm, hfuel => by
      have hread : readBack mask (fuel + 1) (m + 1 : Nat) =
          if mask.getD (m + 1) 0 = 0x3f then readBack mask fuel m else some (m + 1 : Nat) := by
        rw [readBack, if_pos (Int.natCast_pos.mpr (Nat.succ_pos m)), readAt_eq hm]
        show (if mask.getD (m + 1) 0 = 0x3f then readBack mask fuel ((m + 1 : Nat) - 1 : Int)
          else _) = _
        rw [show ((m + 1 : Nat) - 1 : Int) = (m : Nat) by omega]
      rw [hread, skipBack]
      split
      · exact readBack_eq fuel (Nat.le_of_succ_le hm) (Nat.le_of_succ_le_succ hfuel)
      · rfl

theorem readByte_eq {s : MatchSt} (hm : s.m ≤ mask.length) (hn : s.n ≤ name.length) :
    readByte mask name s = some (matchByte mask name s) := by
  rw [readByte, readAt_eq hm, readAt_eq hn, matchByte]
  show (if _ then _ else _) = some (if _ then _ else _)
  split
  · split <;> rfl
  · rfl

theorem readStar_eq {s : MatchSt} (hm : s.m ≤ mask.length) :
    readStar mask s = some (matchStars mask s) := by
  rw [readStar, readAt_eq hm, matchStars]
  show (if s.quote = 0 ∧ mask.getD s.m 0 = 0x2a then _ else _) =
    some (if s.quote = 0 ∧ mask.getD s.m 0 = 0x2a then _ else _)
  split
  · have hle := (skipStars_spec mask s.m hm).1
    rw [readStars_eq _ hm (by omega)]
    show (readAt mask (skipStars mask s.m : Nat)).bind _ = _
    rw [readAt_eq hle]
    show (if mask.getD (skipStars mask s.m) 0 = 0x5c then _ else _) = _
    dsimp only
    split
    · next hslash =>
        have hlt := (@drop_of_getD mask (skipStars mask s.m)
          (by rw [hslash]; decide)).2
        rw [readAt_eq hlt]
        show (if _ then _ else _) = some (if _ then _ else _)
        split <;> rfl
    · rfl
  · rfl

/-- Behind the stars every read is in the two texts, unless the mask is empty
and the name is not. -/
theorem readRest_eq (hmask : 0 ∉ mask) {q : Bool} {s : MatchSt} {c : Scan UInt8 UInt8}
    (h : At mask name q s c) (hne : mask ≠ [] ∨ name = []) :
    readRest mask name s = some (matchRest mask name s) := by
  rw [readRest, readAt_eq h.m_le, readAt_eq h.n_le, matchRest]
  show (if mask.getD s.m 0 = 0 then if name.getD s.n 0 = 0 then _ else _
    else if name.getD s.n 0 = 0 then _ else _) = _
  split
  · next hm =>
      split
      · rfl
      · next hn =>
          have hend : s.m = mask.length := Nat.le_antisymm h.m_le ((getD_eq_zero hmask).mp hm)
          have hnlt := (drop_of_getD hn).2
          have hpos : 0 < mask.length := by
            rcases hne with hne | rfl
            · exact List.length_pos_iff.mpr hne
            · exact absurd hnlt (Nat.not_lt_zero _)
          split
          · rfl
          · rw [hend, show ((mask.length : Int) - 1) = (mask.length - 1 : Nat) by omega,
              readBack_eq _ (Nat.sub_le _ 1) (Nat.sub_le _ 1)]
            show (readAt mask (skipBack mask (mask.length - 1) : Nat)).bind _ = _
            rw [readAt_eq ((skipBack_spec mask _).1.trans (Nat.sub_le _ 1))]
            show (if mask.getD (skipBack mask (mask.length - 1)) 0 = 0x2a ∧
              (0 : Int) < (skipBack mask (mask.length - 1) : Nat) then _ else _) = _
            simp only [Int.natCast_pos]
            split
            · rfl
            · split
              · rfl
              · exact readByte_eq (h.ma_le.trans h.m_le) (Nat.lt_of_le_of_lt h.na_le hnlt)
  · next hm =>
      split
      · split
        · rfl
        · rw [readStars_eq _ h.m_le (by have := h.m_le; omega)]
          show (readAt mask (skipStars mask s.m : Nat)).bind _ = _
          rw [readAt_eq (skipStars_spec mask s.m h.m_le).1]
          rfl
      · exact readByte_eq h.m_le h.n_le

theorem readTurn_eq (hmask : 0 ∉ mask) {s : MatchSt} {c : Scan UInt8 UInt8}
    (h : Turning mask name s c) (hne : mask ≠ [] ∨ name = []) :
    readTurn mask name s = some (matchTurn mask name s) := by
  obtain ⟨hat, hqq⟩ := h.quoted
  rw [matchTurn_eq h.quote, readTurn, quoted_quote h.quote, readAt_eq h.scan.m_le]
  show (if mask.getD s.m 0 = 0x5c ∧ s.quoted.quote = 0 then _
    else (readStar mask s.quoted).bind _) = _
  split
  · rfl
  · next hslash =>
      obtain ⟨s₁, q₁, c₁, hstars, hat₁, -⟩ := matchStars_spec hmask hat hqq hslash
      rw [readStar_eq hat.m_le, hstars]
      exact readRest_eq hmask hat₁ hne

/-- So the reads of the loop are all in the two texts. -/
theorem readLoop_eq (hmask : 0 ∉ mask) (hname : 0 ∉ name) (hsteady : Steady mask name)
    (hne : mask ≠ [] ∨ name = []) : ∀ calls {s : MatchSt} {c : Scan UInt8 UInt8},
      Turning mask name s c → readLoop mask name calls s = some (matchLoop mask name calls s) := by
  intro calls
  induction calls with
  | zero => exact fun _ => rfl
  | succ calls ih =>
      intro s c h
      rw [readLoop, readTurn_eq hmask h hne, matchLoop]
      rcases matchTurn_spec hmask hname hsteady h with
        ⟨ret, hret, -⟩ | ⟨s', c', hok, hturn, -⟩
      · rw [hret]
        rfl
      · rw [hok]
        exact ih hturn

/-- Before an empty mask stands no character. -/
theorem matchRead_nil (hname : 0 ∉ name) (hne : name ≠ []) : matchRead [] name = none := by
  cases name with
  | nil => exact absurd rfl hne
  | cons d w =>
      have hd : d ≠ 0 := fun h => hname (h ▸ List.mem_cons_self ..)
      have hturn : readTurn [] (d :: w) {} = none := by
        simp [readTurn, readStar, readRest, readAt, readBack, hd]
      rw [matchRead, matchMaxCalls, readLoop, hturn]
      rfl

/-- Without backslashes `match` accepts no name outside of the language of the
mask, and it reads in the two texts only, exactly if the mask is not empty or
the name is. -/
theorem match_sound_iff (hmask : 0 ∉ mask) (hname : 0 ∉ name) (hslash : 0x5c ∉ mask) :
    ((ircMatch mask name = 0 → InMask mask name) ∧
        matchRead mask name = some (ircMatch mask name)) ↔ (mask ≠ [] ∨ name = []) := by
  have hpaired := unpaired_of_notMem hslash
  have hsteady := steady_of_notMem hslash name
  constructor
  · rintro ⟨-, hread⟩
    by_contra hno
    rw [not_or, not_not] at hno
    rw [hno.1, matchRead_nil hname hno.2] at hread
    cases hread
  · intro hne
    exact ⟨fun h => (matches_readToks hslash).mp (ircMatch_sound hmask hname hpaired hsteady h),
      readLoop_eq hmask hname hsteady hne _ (start_turning hpaired)⟩

/-- `a*b` accepts `axb`, and reads nothing else on the way. -/
theorem match_sound_axb :
    (ircMatch [0x61, 0x2a, 0x62] [0x61, 0x78, 0x62] = 0 →
        InMask [0x61, 0x2a, 0x62] [0x61, 0x78, 0x62]) ∧
      matchRead [0x61, 0x2a, 0x62] [0x61, 0x78, 0x62] =
        some (ircMatch [0x61, 0x2a, 0x62] [0x61, 0x78, 0x62]) :=
  (match_sound_iff (by decide) (by decide) (by decide)).mpr (.inl (by decide))

/-- An empty mask and the name `a`. -/
theorem match_reads_before :
    matchRead [] [0x61] = none ∧
      ¬ ((ircMatch [] [0x61] = 0 → InMask [] [0x61]) ∧
        matchRead [] [0x61] = some (ircMatch [] [0x61])) := by
  have hnone : matchRead [] [0x61] = none := matchRead_nil (by decide) (by decide)
  refine ⟨hnone, fun h => ?_⟩
  rw [hnone] at h
  cases h.2

/-! ## Masks with backslashes -/

/-- With enough turns and no quote lost, `match` decides the language of the
mask exactly if a star at the end of the mask, should it be quoted, is not
needed as one. -/
theorem match_quoted_iff (hmask : 0 ∉ mask) (hname : 0 ∉ name)
    (hpaired : unpaired false mask = false)
    (hsmall : (mask.length + 2) * (name.length + 2) ≤ matchMaxCalls)
    (hsteady : Steady mask name) :
    (ircMatch mask name = 0 ↔ InMask mask name) ↔
      (starTail mask = true → Matches SameLetter (maskToks false mask ++ [.star]) name →
        InMask mask name) := by
  rw [ircMatch_iff hmask hname hpaired hsteady hsmall, readToks, maskTail]
  cases starTail mask with
  | false =>
      rw [if_neg Bool.false_ne_true, List.append_nil]
      exact iff_of_true Iff.rfl fun h => absurd h Bool.false_ne_true
  | true =>
      rw [if_pos rfl]
      refine ⟨fun h _ => h.mp, fun h => ⟨h rfl, fun hm => ?_⟩⟩
      exact hm.append_star

/-- In `*b` the quoted star of `*\*b` is found at once. -/
theorem steady_star_quoted : Steady [0x2a, 0x5c, 0x2a, 0x62] [0x2a, 0x62] := by
  have htoks : readToks [0x2a, 0x5c, 0x2a, 0x62] = [.star, .lit 0x2a, .lit 0x62] := by decide
  intro q v harr _
  rw [htoks] at harr
  have hone : ∀ {p : List (Tok UInt8)}, .star :: p <:+ [.star, .lit 0x2a, .lit 0x62] →
      .star ∉ p := by
    intro p hp hmem
    have hcount := hp.sublist.count_le .star
    have hpos := List.count_pos_iff.mpr hmem
    rw [List.count_cons_self] at hcount
    have hall : [.star, .lit 0x2a, .lit 0x62].count (.star : Tok UInt8) = 1 := by decide
    omega
  cases harr with
  | @first s _ hp _ =>
      cases s with
      | nil =>
          cases hp
          exact ⟨by decide, by decide⟩
      | cons t s =>
          rw [List.cons_append] at hp
          obtain ⟨-, hp⟩ := List.cons.inj hp
          have hmem : (.star : Tok UInt8) ∈ [.lit 0x2a, .lit 0x62] := by
            rw [hp]
            simp
          exact absurd hmem (by decide)
  | @next s _ v k harr _ _ => exact absurd (by simp) (hone harr.suffix)

/-- And so `*\*b` matches it. -/
theorem match_quoted_star : ircMatch [0x2a, 0x5c, 0x2a, 0x62] [0x2a, 0x62] = 0 := by
  have hiff : ircMatch [0x2a, 0x5c, 0x2a, 0x62] [0x2a, 0x62] = 0 ↔
      InMask [0x2a, 0x5c, 0x2a, 0x62] [0x2a, 0x62] :=
    (match_quoted_iff (by decide) (by decide) (by decide) (by decide) steady_star_quoted).mpr
      fun h => absurd h (by decide)
  exact hiff.mpr (by decide)

/-- `*\*` loses its quote at the second try, and the star that ends `a\*` is
taken for one. -/
theorem match_quoted_lost :
    (ircMatch [0x2a, 0x5c, 0x2a] [0x61, 0x62] = 0 ∧ ¬ InMask [0x2a, 0x5c, 0x2a] [0x61, 0x62]) ∧
      (ircMatch [0x61, 0x5c, 0x2a] [0x61, 0x2a, 0x62] = 0 ∧
        ¬ InMask [0x61, 0x5c, 0x2a] [0x61, 0x2a, 0x62]) := by
  decide

end TrIrcd
