import TrIrcd.Proofs.V6Masks

/-!
# Which netmasks of IPv6 are read right

Each form of a netmask is followed through the scan and what comes behind it
(`parse_full`, `parse_short`, `parse_star`, `parse_short_slash`). Without a number
of bits it is right if there are no letters. A number of bits is not taken right
behind a gap; behind all eight groups it is not taken, or there is no ninth
element of `d`; elsewhere the words in front of the bits have to be the right
ones (`right_iff_read`).
-/

namespace TrIrcd

open TrIrcd.Lib

theorem strtoul10_digits {ds : List UInt8} (hne : ds ≠ []) (hds : ∀ c ∈ ds, isDigit c = true)
    (hlt : decimal ds < 0x10000000000000000) :
    strtoul10 ds = (UInt64.ofNat (decimal ds), []) := by
  have htake : ds.takeWhile isDigit = ds := List.takeWhile_eq_self_iff.mpr hds
  have hdrop : ds.dropWhile isDigit = [] := List.dropWhile_eq_nil_iff.mpr hds
  cases ds with
  | nil => exact absurd rfl hne
  | cons c ds =>
      obtain ⟨hspace, hminus, hplus⟩ := isDigit_head (hds c (List.mem_cons_self ..))
      have hskip : (c :: ds).dropWhile isSpace = c :: ds :=
        List.dropWhile_cons_of_neg (by rw [hspace]; exact Bool.false_ne_true)
      rw [strtoul10, hskip]
      split
      next neg t heq =>
      have hplain : (neg, t) = (false, c :: ds) := by
        rw [← heq]
        split
        · next h => exact absurd (List.cons.inj h).1 hminus
        · next h => exact absurd (List.cons.inj h).1 hplus
        · rfl
      cases hplain
      have hbig : ¬ 0x10000000000000000 ≤ decimal (c :: ds) := Nat.not_le.mpr hlt
      rw [decimal] at hbig
      simp only [htake, hdrop, if_neg hne, if_neg hbig, if_neg Bool.false_ne_true]
      rfl

theorem bits_of_small {n : Nat} (hn : n ≤ 128) :
    ((UInt64.ofNat n).toUInt32.toInt32.toInt : Int) = n := by
  have hnat : (UInt64.ofNat n).toUInt32.toBitVec.toNat = n := by
    show (UInt64.ofNat n).toUInt32.toNat = n
    rw [UInt64.toNat_toUInt32, UInt64.toNat_ofNat']
    omega
  show (UInt64.ofNat n).toUInt32.toBitVec.toInt = n
  rw [BitVec.toInt_eq_toNat_of_lt (by rw [hnat]; omega), hnat]

namespace V6Scan

theorem next_length (st : V6Scan) : st.next.done.length = st.done.length + 1 := List.length_append

/-- A number of bits that is accepted. -/
theorem slash_bits {st : V6Scan} {ds : List UInt8} (hds : IsBits ds) :
    st.slash false ds =
      if st.next.done.length * 4 < decimal ds ∧ ¬ st.finsert.isSome then none
      else some (st.next, (decimal ds : Int), false) := by
  obtain ⟨hne, hdigits, hlo, hhi⟩ := hds
  have hfin : st.next.finsert = st.finsert := rfl
  rw [slash, strtoul10_digits hne hdigits (by omega)]
  simp only [bits_of_small hhi]
  rw [if_neg Bool.false_ne_true, if_neg (by simp; omega), hfin]
  have hiff : (((st.next.done.length * 4 : Nat) : Int) < decimal ds ∧
      ¬ (st.finsert.isSome = true ∧ (decimal ds : Int) ≤ 128)) ↔
      (st.next.done.length * 4 < decimal ds ∧ ¬ st.finsert.isSome = true) := by
    rw [Int.ofNat_lt, and_iff_left (by omega : (decimal ds : Int) ≤ 128)]
  rw [if_congr hiff rfl rfl]

theorem scan_slash {st : V6Scan} {colon : Bool} (p : List UInt8) :
    st.scan colon (0x2f :: p) = st.slash colon p := by
  rw [scan, if_neg (by decide), if_neg (by decide), if_neg (by decide), if_pos rfl]

theorem scan_star {st : V6Scan} (hfin : st.finsert = none) (hdone : st.done ≠ []) :
    st.scan true [0x2a] = some (st, (st.done.length : Int) * 16, true) := by
  rw [scan, if_neg (by decide), if_neg (by decide), if_pos rfl, if_neg (by simp [hfin, hdone])]

/-- An address with a gap, to its end. -/
theorem scan_short {pre post : List (List UInt8)} (hpre : ∀ g ∈ pre, IsGroup g)
    (hpost : ∀ g ∈ post, IsGroup g) (hlen : pre.length + post.length ≤ 7) :
    ∃ st : V6Scan, init.scan false (joinGroups pre ++ 0x3a :: 0x3a :: (joinGroups post ++ [])) =
        some (st, 0, true) ∧
      st.next.done = readSide pre ++ readSide post ∧
      st.finsert = some (readSide pre).length := by
  have hside := readSide_length pre
  rw [scan_gap hpre (by omega)]
  by_cases hne : post = []
  · subst hne
    refine ⟨_, rfl, ?_, rfl⟩
    rw [next, readSide.eq_def [], if_pos rfl, Nat.zero_shiftRight]
  · have hpos : 0 < post.length := List.length_pos_iff.mpr hne
    obtain ⟨st, hscan, hdone, hfin⟩ := @scan_behind _ (some (readSide pre).length) true []
      _ hpost hne (by omega : (readSide pre).length + _ ≤ 8)
    refine ⟨st, hscan, ?_, hfin⟩
    rw [hdone, readSide.eq_def post, if_neg hne]

/-- All the groups of an address. -/
theorem scan_full {gs : List (List UInt8)} {p : List UInt8} (hgs : ∀ g ∈ gs, IsGroup g)
    (hne : gs ≠ []) (hlen : gs.length ≤ 8) :
    ∃ st : V6Scan, init.scan false (joinGroups gs ++ p) = st.scan false p ∧
      st.next.done = gs.map groupRead ∧ st.finsert = none :=
  scan_behind hgs hne (by rw [List.length_nil]; omega)

/-- Some groups and a star. -/
theorem scan_groups_star {gs : List (List UInt8)} (hgs : ∀ g ∈ gs, IsGroup g) (hne : gs ≠ [])
    (hlen : gs.length ≤ 7) :
    ∃ st : V6Scan, init.scan false (joinGroups gs ++ [0x3a, 0x2a]) =
        some (st, (gs.length : Int) * 16, true) ∧
      st.done = gs.map groupRead ∧ st.next.done = gs.map groupRead ++ [0] ∧ st.finsert = none := by
  obtain ⟨st, hscan, hdone, hfin⟩ := scan_full (p := [0x3a, 0x2a]) hgs hne (by omega)
  have hlength := next_length st
  rw [hdone, List.length_map] at hlength
  have hdone' : st.next.done ≠ [] := by
    rw [hdone]
    exact fun h => hne (List.map_eq_nil_iff.mp h)
  refine ⟨{ st.next with nyble := 4 }, ?_, hdone, ?_, hfin⟩
  · have hstar := @scan_star { st.next with nyble := 4 } hfin hdone'
    rw [hscan, scan_colon (by omega)]
    refine hstar.trans ?_
    show some (_, (st.next.done.length : Int) * 16, true) = _
    rw [hdone, List.length_map]
  · show st.next.done ++ [0 >>> (4 * 4)] = _
    rw [hdone, Nat.zero_shiftRight]

end V6Scan

/-! ## What follows the scan -/

theorem finishV6_eq {st : V6Scan} {b : Int} {ended : Bool} {n : Nat} {words : List Nat}
    (hdp : st.done.length < 8)
    (hbits : (if st.finsert.isNone ∧ b = 0 then
        (if ended then st.next.done.length else st.done.length : Int) * 16
      else if b = 0 then 128 else b) = n)
    (hwords : fillGaps st.finsert 8 0 st.next.done
      (bitWords n - (if ended then st.next.done.length else st.done.length : Int)) = words) :
    finishV6 st b ended =
      (clearUnusedV6 (words.map UInt16.ofNat) n).map fun dc => .ipv6 (htonsAll dc) n := by
  rw [finishV6, if_neg (Nat.not_le.mpr hdp)]
  simp only [hbits, hwords]

theorem tryParse_of_scan {text : List UInt8} {st : V6Scan} {b : Int} {ended : Bool}
    (h : V6Scan.init.scan false text = some (st, b, ended)) :
    tryParseV6Netmask text = finishV6 st b ended := by
  rw [tryParseV6Netmask, h]

namespace V6Form

open V6Scan

theorem parse_full {gs : List (List UInt8)} (hgs : ∀ g ∈ gs, IsGroup g) (hlen : gs.length = 8) :
    tryParseV6Netmask (full gs none).text = (full gs none).taken (gs.map groupRead) := by
  have hne : gs ≠ [] := List.ne_nil_of_length_pos (by omega)
  obtain ⟨st, hscan, hdone, hfin⟩ := scan_full (p := []) hgs hne (by omega)
  have hwords : (gs.map groupRead).length = 8 := by rw [List.length_map, hlen]
  have hnext := next_length st
  rw [hdone, hwords] at hnext
  rw [text, slashText, tryParse_of_scan hscan]
  refine finishV6_eq (n := 128) (by omega) ?_ ?_
  · rw [hfin, if_pos ⟨rfl, rfl⟩, if_pos rfl, hdone, hwords]
    rfl
  · rw [hfin, hdone, if_pos rfl, hwords]
    have hfill := @fillGaps_rest none (bitWords (128 : Nat) - (8 : Nat)) 0
      (gs.map groupRead) 0 (fun f hf => nomatch hf)
    rw [hwords, List.replicate_zero, List.append_nil] at hfill
    exact hfill

theorem readSide_left (gs : List (List UInt8)) :
    readSide gs = gs.map groupRead ++ List.replicate (1 - gs.length) 0 := by
  rw [readSide]
  cases gs with
  | nil => rfl
  | cons g gs =>
      have hnone : 1 - (g :: gs).length = 0 := by
        rw [List.length_cons]
        omega
      rw [if_neg (List.cons_ne_nil g gs), hnone, List.replicate_zero, List.append_nil]

theorem readSide_right (gs : List (List UInt8)) :
    readSide gs = List.replicate (1 - gs.length) 0 ++ gs.map groupRead := by
  rw [readSide]
  cases gs with
  | nil => rfl
  | cons g gs =>
      have hnone : 1 - (g :: gs).length = 0 := by
        rw [List.length_cons]
        omega
      rw [if_neg (List.cons_ne_nil g gs), hnone, List.replicate_zero, List.nil_append]

/-- The zeros on both sides belong to the gap. -/
theorem readSides_gap {pre post : List (List UInt8)} {n : Nat}
    (hn : (readSide pre).length + (readSide post).length ≤ n) :
    readSide pre ++ List.replicate (n - ((readSide pre).length + (readSide post).length)) 0 ++
        readSide post =
      pre.map groupRead ++ List.replicate (n - pre.length - post.length) 0 ++
        post.map groupRead := by
  rw [readSide_length, readSide_length] at hn ⊢
  have hgap : 1 - pre.length + (n - (max 1 pre.length + max 1 post.length) + (1 - post.length)) =
      n - pre.length - post.length := by omega
  rw [readSide_left pre, readSide_right post, ← hgap, List.replicate_add, List.replicate_add]
  simp only [List.append_assoc]

theorem parse_short {pre post : List (List UInt8)} (hpre : ∀ g ∈ pre, IsGroup g)
    (hpost : ∀ g ∈ post, IsGroup g) (hlen : pre.length + post.length ≤ 7) :
    tryParseV6Netmask (short pre post none).text = (short pre post none).taken
      (pre.map groupRead ++ List.replicate (8 - pre.length - post.length) 0 ++
        post.map groupRead) := by
  obtain ⟨st, hscan, hdone, hfin⟩ := scan_short hpre hpost hlen
  have hsides : (readSide pre).length + (readSide post).length ≤ 8 := by
    rw [readSide_length, readSide_length]
    omega
  have hnext := next_length st
  rw [hdone, List.length_append] at hnext
  rw [text, slashText, tryParse_of_scan hscan]
  refine finishV6_eq (n := 128) (by omega) ?_ ?_
  · rw [hfin]
    rfl
  · rw [hfin, hdone, if_pos rfl, List.length_append]
    have hfill := @fillGaps_gap (readSide pre) (readSide post) 8 hsides (by omega)
    rw [Nat.sub_self, List.replicate_zero, List.append_nil, readSides_gap hsides] at hfill
    exact hfill

theorem parse_star {gs : List (List UInt8)} (hgs : ∀ g ∈ gs, IsGroup g) (hpos : 1 ≤ gs.length)
    (hlen : gs.length ≤ 7) :
    tryParseV6Netmask (star gs).text =
      (star gs).taken (gs.map groupRead ++ List.replicate (8 - gs.length) 0) := by
  have hne : gs ≠ [] := List.ne_nil_of_length_pos hpos
  obtain ⟨st, hscan, hdone, hnext, hfin⟩ := scan_groups_star hgs hne hlen
  have hwords : st.done.length = gs.length := by rw [hdone, List.length_map]
  rw [text, tryParse_of_scan hscan]
  refine finishV6_eq (n := 16 * gs.length) (by omega) ?_ ?_
  · rw [if_neg (by omega), if_neg (by omega)]
    omega
  · rw [hnext, fillGaps_append_zero, hfin]
    have hfill := @fillGaps_rest none
      (bitWords (16 * gs.length : Nat) - ((gs.map groupRead ++ [0]).length : Int))
      (8 - gs.length) (gs.map groupRead) 0 (fun f hf => nomatch hf)
    rw [List.length_map, Nat.add_sub_cancel' (by omega)] at hfill
    exact hfill

/-- The words for a gap and a number of bits: what is behind the gap ends where
the bits do, if there are bits for all the groups. -/
def slashWords (pre post : List (List UInt8)) (n : Nat) : List Nat :=
  if (readSide pre).length + post.length ≤ (n + 15) / 16 then
    readSide pre ++ List.replicate ((n + 15) / 16 - ((readSide pre).length + post.length)) 0 ++
      post.map groupRead ++ List.replicate (8 - (n + 15) / 16) 0
  else readSide pre ++ List.replicate (8 - (readSide pre).length) 0

variable {pre post gs : List (List UInt8)} {ds : List UInt8}

/-- The scan of a gap and a number of bits. -/
theorem scan_short_slash (hpre : ∀ g ∈ pre, IsGroup g) (hpost : ∀ g ∈ post, IsGroup g)
    (hne : post ≠ []) (hlen : pre.length + post.length ≤ 7) (hds : IsBits ds) :
    ∃ st : V6Scan, V6Scan.init.scan false (short pre post (some ds)).text =
        some (st, (decimal ds : Int), false) ∧
      st.done = readSide pre ++ post.map groupRead ∧ st.next.done = st.done ++ [0] ∧
      st.finsert = some (readSide pre).length := by
  have hpos : 0 < post.length := List.length_pos_iff.mpr hne
  have hside := readSide_length pre
  obtain ⟨st, hscan, hdone, hfin⟩ := @scan_behind _ (some (readSide pre).length) true
    (0x2f :: ds) _ hpost hne (by omega : (readSide pre).length + _ ≤ 8)
  refine ⟨st.next, ?_, hdone, ?_, hfin⟩
  · rw [text, slashText, scan_gap hpre (by omega), hscan, scan_slash, slash_bits hds, hfin,
      if_neg (fun h => h.2 rfl)]
  · rw [next.eq_def st.next]
    show st.next.done ++ [0 >>> _] = _
    rw [Nat.zero_shiftRight]

theorem parse_short_slash (hpre : ∀ g ∈ pre, IsGroup g) (hpost : ∀ g ∈ post, IsGroup g)
    (hne : post ≠ []) (hlen : pre.length + post.length ≤ 7) (hds : IsBits ds) :
    tryParseV6Netmask (short pre post (some ds)).text =
      if (readSide pre).length + post.length ≤ 7 then
        (short pre post (some ds)).taken (slashWords pre post (decimal ds))
      else .error .outOfBounds := by
  obtain ⟨st, hscan, hdone, hnext, hfin⟩ := scan_short_slash hpre hpost hne hlen hds
  have hlength : st.done.length = (readSide pre).length + post.length := by
    rw [hdone, List.length_append, List.length_map]
  rw [tryParse_of_scan hscan]
  split
  · next hroom =>
      refine finishV6_eq (n := decimal ds) (by omega) ?_ ?_
      · rw [hfin, if_neg (fun h => nomatch h.1), if_neg]
        have := hds.2.2.1
        omega
      · rw [hnext, fillGaps_append_zero, hfin, if_neg Bool.false_ne_true, hlength, hdone,
          bitWords_natCast, slashWords]
        split
        · next hwords =>
            have hfill := @fillGaps_gap (readSide pre) (post.map groupRead)
              ((decimal ds + 15) / 16) (by rwa [List.length_map]) (by have := hds.2.2.2; omega)
            rwa [List.length_map] at hfill
        · next hwords =>
            have hslots : 8 = (readSide pre).length + (8 - (readSide pre).length) := by omega
            nth_rewrite 1 [hslots]
            rw [fillGaps_before (Nat.zero_add _), fillGaps_missing (by omega)]
  · next hfull => exact if_pos (by omega)

/-- There is no number of bits right behind a gap. -/
theorem parse_short_slash_nil (hpre : ∀ g ∈ pre, IsGroup g) (hlen : pre.length ≤ 7) :
    tryParseV6Netmask (short pre [] (some ds)).text = .ok .host := by
  rw [tryParseV6Netmask, text, slashText, scan_gap hpre hlen, joinGroups, List.intercalate_nil,
    List.nil_append, scan_slash, slash, if_pos rfl]

/-- With all its groups an address has no more than 32 bits, and no place for what
follows its groups. -/
theorem parse_full_slash (hgs : ∀ g ∈ gs, IsGroup g) (hlen : gs.length = 8) (hds : IsBits ds) :
    tryParseV6Netmask (full gs (some ds)).text =
      if 32 < decimal ds then .ok .host else .error .outOfBounds := by
  have hne : gs ≠ [] := List.ne_nil_of_length_pos (by omega)
  obtain ⟨st, hscan, hdone, hfin⟩ := scan_full (p := 0x2f :: ds) hgs hne (by omega)
  have hlength : st.next.done.length = 8 := by rw [hdone, List.length_map, hlen]
  rw [tryParseV6Netmask, text, slashText, hscan, scan_slash, slash_bits hds, hlength, hfin]
  by_cases hbits : 32 < decimal ds
  · rw [if_pos hbits, if_pos ⟨hbits, fun h => nomatch h⟩]
  · rw [if_neg hbits, if_neg fun h => hbits h.1]
    exact if_pos (Nat.le_of_eq hlength.symm)

/-- What the code reads right: decimal digits only, and with a number of bits a
gap in front of at most seven groups, an empty one at the start counted, whose
words are in place as far as the bits go. -/
def Read : V6Form → Prop
  | full gs none => ∀ g ∈ gs, ∀ c ∈ g, isDigit c = true
  | full _ (some _) => False
  | short pre post none =>
      (∀ g ∈ pre, ∀ c ∈ g, isDigit c = true) ∧ ∀ g ∈ post, ∀ c ∈ g, isDigit c = true
  | short pre post (some ds) => post ≠ [] ∧ (readSide pre).length + post.length ≤ 7 ∧
      (short pre post (some ds)).Agrees (slashWords pre post (decimal ds))
  | star gs => ∀ g ∈ gs, ∀ c ∈ g, isDigit c = true

/-- An address without unused bits is right just if all of its words are. -/
theorem agrees_iff_same {f : V6Form} {words : List Nat} (hbits : f.bits = 16 * words.length) :
    f.Agrees words ↔ SameBits words f.value := by
  rw [Agrees, SameBits, hbits]
  exact and_iff_left fun h => absurd (Nat.mul_mod_right 16 _) h

theorem slashWords_length {n : Nat} (hroom : (readSide pre).length + post.length ≤ 7)
    (hn : n ≤ 128) : (slashWords pre post n).length = 8 := by
  rw [slashWords]
  split
  · simp only [List.length_append, List.length_map, List.length_replicate]
    omega
  · simp only [List.length_append, List.length_replicate]
    omega

theorem right_full (hf : (full gs none).Wf) :
    (full gs none).Right (tryParseV6Netmask (full gs none).text) ↔ (full gs none).Read := by
  obtain ⟨hgs, hlen, _⟩ := id hf
  have hwords : (gs.map groupRead).length = 8 := by rw [List.length_map, hlen]
  rw [parse_full hgs hlen, taken_right_iff hf hwords, agrees_iff_same (by rw [hwords]; rfl)]
  exact sameBits_map_iff hgs

theorem right_short (hf : (short pre post none).Wf) :
    (short pre post none).Right (tryParseV6Netmask (short pre post none).text) ↔
      (short pre post none).Read := by
  obtain ⟨hpre, hpost, hlen, _⟩ := id hf
  have hwords : (pre.map groupRead ++ List.replicate (8 - pre.length - post.length) 0 ++
      post.map groupRead).length = 8 := by
    simp only [List.length_append, List.length_map, List.length_replicate]
    omega
  rw [parse_short hpre hpost hlen, taken_right_iff hf hwords,
    agrees_iff_same (by rw [hwords]; rfl), value, sameBits_append_iff (by simp),
    sameBits_append_iff (by simp), sameBits_map_iff hpre, sameBits_map_iff hpost,
    and_iff_left (SameBits.refl _)]
  exact Iff.rfl

theorem right_short_slash (hf : (short pre post (some ds)).Wf) :
    (short pre post (some ds)).Right (tryParseV6Netmask (short pre post (some ds)).text) ↔
      (short pre post (some ds)).Read := by
  obtain ⟨hpre, hpost, hlen, hds⟩ := id hf
  have hds := hds ds rfl
  by_cases hne : post = []
  · subst hne
    refine iff_of_false ?_ fun h => h.1 rfl
    rw [parse_short_slash_nil hpre hlen]
    rintro ⟨s6Addr, hr, _⟩
    cases hr
  · rw [parse_short_slash hpre hpost hne hlen hds]
    split
    · next hroom =>
        rw [taken_right_iff hf (slashWords_length hroom hds.2.2.2)]
        exact ⟨fun h => ⟨hne, hroom, h⟩, fun h => h.2.2⟩
    · next hfull =>
        refine iff_of_false ?_ fun h => hfull h.2.1
        rintro ⟨s6Addr, hr, _⟩
        cases hr

theorem right_star (hf : (star gs).Wf) :
    (star gs).Right (tryParseV6Netmask (star gs).text) ↔ (star gs).Read := by
  obtain ⟨hgs, hpos, hlen⟩ := id hf
  have hwords : (gs.map groupRead ++ List.replicate (8 - gs.length) 0).length = 8 := by
    rw [List.length_append, List.length_map, List.length_replicate]
    omega
  have hmod : ¬ (star gs).bits % 16 ≠ 0 := not_not.mpr (Nat.mul_mod_right 16 gs.length)
  rw [parse_star hgs hpos hlen, taken_right_iff hf hwords, Agrees,
    and_iff_left fun h => absurd h hmod]
  refine Iff.trans ?_ (sameBits_map_iff hgs)
  have hbits : ∀ j < 16 * gs.length,
      (groupBit (gs.map groupRead ++ List.replicate (8 - gs.length) 0) j =
          groupBit (star gs).value j ↔
        groupBit (gs.map groupRead) j = groupBit (gs.map groupValue) j) := by
    intro j hj
    rw [value, groupBit_append_left (by rwa [List.length_map]),
      groupBit_append_left (by rwa [List.length_map])]
  rw [SameBits, List.length_map]
  exact forall₂_congr hbits

theorem right_iff_read {f : V6Form} (hf : f.Wf) :
    f.Right (tryParseV6Netmask f.text) ↔ f.Read := by
  match f, hf with
  | full gs none, hf => exact right_full hf
  | full gs (some ds), ⟨hgs, hlen, hds⟩ =>
      refine iff_of_false ?_ id
      rw [parse_full_slash hgs hlen (hds ds rfl)]
      rintro ⟨s6Addr, hr, _⟩
      split at hr
      · cases hr
      · cases hr
  | short pre post none, hf => exact right_short hf
  | short pre post (some ds), hf => exact right_short_slash hf
  | star gs, hf => exact right_star hf

end V6Form

end TrIrcd
