import TrIrcd.Proofs.V6Forms

/-!
# What a netmask of IPv6 is taken for

Behind a scan the words are laid out: those in front of the gap, zeros for as
many words as the bits have more than there are groups, and the rest
(`fillGaps_gap`). So the groups behind a gap end where the bits do, which is
their place only if there are more than 112 of them. Of the words that follow,
one bit too many is left (`clearUnusedV6_eq`).
-/

namespace TrIrcd

open TrIrcd.Lib

/-! ## Filling the gap -/

section Fill

variable {finsert : Option Nat} {d pre : List Nat} {f nyble n : Nat} {deficit : Int}

/-- Nothing is inserted any more. -/
theorem fillGaps_rest (n : Nat) :
    ∀ {d : List Nat} {nyble : Nat}, (∀ f, finsert = some f → f < nyble ∨ deficit = 0) →
      fillGaps finsert (d.length + n) nyble d deficit = d ++ List.replicate n 0 := by
  have hstep : ∀ {m nyble : Nat} {d : List Nat},
      (∀ f, finsert = some f → f < nyble ∨ deficit = 0) →
      fillGaps finsert (m + 1) nyble d deficit =
        d.headD 0 :: fillGaps finsert m (nyble + 1) d.tail deficit := by
    intro m nyble d h
    rw [fillGaps, if_neg]
    rintro ⟨hf, hd⟩
    rcases h nyble hf with hlt | h0
    · exact Nat.lt_irrefl _ hlt
    · exact hd h0
  have hnext : ∀ {nyble : Nat}, (∀ f, finsert = some f → f < nyble ∨ deficit = 0) →
      ∀ f, finsert = some f → f < nyble + 1 ∨ deficit = 0 :=
    fun h f hf => (h f hf).imp_left Nat.lt_succ_of_lt
  intro d
  induction d with
  | nil =>
      rw [List.length_nil, Nat.zero_add, List.nil_append]
      induction n with
      | zero => exact fun _ => rfl
      | succ n ih =>
          intro nyble h
          rw [hstep h, List.tail_nil, ih (hnext h)]
          rfl
  | cons w d ih =>
      intro nyble h
      rw [List.length_cons, Nat.succ_add, hstep h, List.headD_cons, List.tail_cons, ih (hnext h)]
      rfl

theorem fillGaps_before :
    ∀ {pre : List Nat} {nyble : Nat}, nyble + pre.length = f →
      fillGaps (some f) (pre.length + n) nyble (pre ++ d) deficit =
        pre ++ fillGaps (some f) n f d deficit := by
  intro pre
  induction pre with
  | nil =>
      intro nyble h
      rw [List.length_nil, Nat.zero_add, List.nil_append, List.nil_append, ← h]
      rfl
  | cons w pre ih =>
      intro nyble h
      rw [List.length_cons] at h
      have hlt : ¬ (some f = some nyble ∧ deficit ≠ 0) := by
        rintro ⟨hf, _⟩
        have := Option.some.inj hf
        omega
      rw [List.length_cons, Nat.succ_add, fillGaps, if_neg hlt, List.cons_append, List.headD_cons,
        List.tail_cons, ih (by omega)]
      rfl

theorem fillGaps_zeros {e : Int} (he : 0 ≤ e) (k : Nat) :
    fillGaps (some f) (k + n) f d (k + e) =
      List.replicate k 0 ++ fillGaps (some f) n f d e := by
  induction k with
  | zero => rw [Nat.zero_add, Int.natCast_zero, Int.zero_add]; rfl
  | succ k ih =>
      have hdef : ((k + 1 : Nat) : Int) + e - 1 = k + e := by omega
      rw [Nat.succ_add, fillGaps, if_pos ⟨rfl, by omega⟩, hdef, ih]
      rfl

/-- There are more groups than the bits have words. -/
theorem fillGaps_missing {e : Int} (he : e < 0) (n : Nat) :
    fillGaps (some f) n f d e = List.replicate n 0 := by
  induction n generalizing e with
  | zero => rfl
  | succ n ih =>
      rw [fillGaps, if_pos ⟨rfl, by omega⟩, ih (by omega)]
      rfl

/-- The words in front of the gap, the gap up to `q` words, and what is behind. -/
theorem fillGaps_gap {post : List Nat} {q : Nat} (hq : pre.length + post.length ≤ q) (h8 : q ≤ 8) :
    fillGaps (some pre.length) 8 0 (pre ++ post) (q - (pre.length + post.length : Nat)) =
      pre ++ List.replicate (q - (pre.length + post.length)) 0 ++ post ++
        List.replicate (8 - q) 0 := by
  obtain ⟨k, hk⟩ := Nat.exists_eq_add_of_le hq
  have hslots : 8 = pre.length + (k + (post.length + (8 - q))) := by omega
  have hdef : (q : Int) - (pre.length + post.length : Nat) = k + 0 := by omega
  rw [hdef]
  nth_rewrite 1 [hslots]
  rw [fillGaps_before (Nat.zero_add _), fillGaps_zeros (Int.le_refl 0),
    fillGaps_rest _ fun f _ => .inr rfl, hk, Nat.add_sub_cancel_left]
  simp only [List.append_assoc]

/-- What is 0 behind the groups makes no difference. -/
theorem fillGaps_append_zero (n : Nat) :
    ∀ {d : List Nat} {nyble : Nat} {e : Int},
      fillGaps finsert n nyble (d ++ [0]) e = fillGaps finsert n nyble d e := by
  induction n with
  | zero => exact rfl
  | succ n ih =>
      intro d nyble e
      rw [fillGaps, fillGaps]
      split
      · rw [ih]
      · cases d with
        | nil => rfl
        | cons w d =>
            rw [List.cons_append, List.headD_cons, List.headD_cons, List.tail_cons,
              List.tail_cons, ih]

end Fill

/-! ## Bits -/

/-- A bit of an address, the first one being the most significant. -/
def addrBit (s6Addr : List UInt8) (j : Nat) : Bool :=
  (s6Addr.getD (j / 8) 0).toNat.testBit (7 - j % 8)

def wordBit (ws : List UInt16) (j : Nat) : Bool :=
  (ws.getD (j / 16) 0).toNat.testBit (15 - j % 16)

/-- A bit of an address that is written in groups. -/
def groupBit (gs : List Nat) (j : Nat) : Bool := (gs.getD (j / 16) 0).testBit (15 - j % 16)

theorem wordBit_map (gs : List Nat) (j : Nat) :
    wordBit (gs.map UInt16.ofNat) j = groupBit gs j := by
  have hget : (gs.map UInt16.ofNat).getD (j / 16) 0 = UInt16.ofNat (gs.getD (j / 16) 0) :=
    List.getD_map ..
  rw [wordBit, groupBit, hget, UInt16.toNat_ofNat', Nat.testBit_mod_two_pow,
    decide_eq_true (by omega), Bool.true_and]

theorem htonsAll_getD (ws : List UInt16) (i : Nat) :
    (htonsAll ws).getD (2 * i) 0 = (ws.getD i 0 >>> 8).toUInt8 ∧
      (htonsAll ws).getD (2 * i + 1) 0 = (ws.getD i 0).toUInt8 := by
  induction ws generalizing i with
  | nil => simp [htonsAll]
  | cons w ws ih =>
      cases i with
      | zero => exact ⟨rfl, rfl⟩
      | succ i => exact ih i

theorem addrBit_htonsAll (ws : List UInt16) (j : Nat) : addrBit (htonsAll ws) j = wordBit ws j := by
  obtain ⟨hhigh, hlow⟩ := htonsAll_getD ws (j / 16)
  rw [addrBit, wordBit]
  by_cases hj : j % 16 < 8
  · have hbyte : j / 8 = 2 * (j / 16) := by omega
    rw [hbyte, hhigh, UInt16.toNat_toUInt8, UInt16.toNat_shiftRight, Nat.testBit_mod_two_pow]
    have hbit : 8 + (7 - j % 8) = 15 - j % 16 := by omega
    rw [decide_eq_true (by omega), Bool.true_and, Nat.testBit_shiftRight]
    exact congrArg _ hbit
  · have hbyte : j / 8 = 2 * (j / 16) + 1 := by omega
    have hbit : 7 - j % 8 = 15 - j % 16 := by omega
    rw [hbyte, hlow, UInt16.toNat_toUInt8, Nat.testBit_mod_two_pow, hbit,
      decide_eq_true (by omega), Bool.true_and]

/-- The last bits of a word are cleared. -/
theorem clearLow_getLsbD {w k i : Nat} (x : BitVec w) (hi : i < w) :
    (x &&& ~~~BitVec.ofNat w ((1 <<< k) - 1)).getLsbD i = (x.getLsbD i && decide (k ≤ i)) := by
  rw [BitVec.getLsbD_and, BitVec.getLsbD_not, BitVec.getLsbD_ofNat, Nat.one_shiftLeft,
    Nat.testBit_two_pow_sub_one, decide_eq_true hi, Bool.true_and, Bool.true_and, ← decide_not]
  simp only [Nat.not_lt]

theorem bitWords_natCast (n : Nat) : bitWords n = ((n + 15) / 16 : Nat) := by
  have hmod : (n : Int).tmod 16 = (n % 16 : Nat) := rfl
  have hdiv : (n : Int).tdiv 16 = (n / 16 : Nat) := rfl
  rw [bitWords, hmod, hdiv]
  split
  · omega
  · omega

/-- What `clearUnusedV6` leaves of the words. -/
def maskWords (dc : List UInt16) (n : Nat) : List UInt16 :=
  dc.mapIdx fun dp w =>
    if (n + 15) / 16 ≤ dp then 0
    else if n < 128 ∧ n % 16 ≠ 0 ∧ n / 16 = dp then
      w &&& ~~~UInt16.ofNat ((1 <<< (15 - n % 16)) - 1)
    else w

theorem clearUnusedV6_eq (dc : List UInt16) (n : Nat) :
    clearUnusedV6 dc n = .ok (maskWords dc n) := by
  have hmod : (n : Int).tmod 16 = (n % 16 : Nat) := rfl
  have hdiv : (n : Int).tdiv 16 = (n / 16 : Nat) := rfl
  rw [clearUnusedV6, bitWords_natCast, hmod, hdiv, if_neg (by omega), maskWords]
  congr 2
  funext dp w
  have hshift : ((15 : Int) - (n % 16 : Nat)).toNat = 15 - n % 16 := by omega
  simp only [Int.ofNat_le, Int.natCast_inj, hshift, ne_eq, Int.natCast_eq_zero]
  norm_cast

theorem maskWords_getD {dc : List UInt16} {n : Nat} (hlen : dc.length = 8) (hn : n ≤ 128)
    (i : Nat) :
    (maskWords dc n).getD i 0 =
      if (n + 15) / 16 ≤ i then (0 : UInt16)
      else if n < 128 ∧ n % 16 ≠ 0 ∧ n / 16 = i then
        dc.getD i 0 &&& ~~~UInt16.ofNat ((1 <<< (15 - n % 16)) - 1)
      else dc.getD i 0 := by
  rw [maskWords, List.getD_eq_getElem?_getD, List.getElem?_mapIdx, List.getD_eq_getElem?_getD]
  cases hi : dc[i]? with
  | none =>
      have hge := List.getElem?_eq_none_iff.mp hi
      rw [if_pos (by omega)]
      rfl
  | some w => rfl

/-- The bits that are left are one more than `n`, unless `n` bits are whole words. -/
theorem wordBit_maskWords {dc : List UInt16} {n : Nat} (hlen : dc.length = 8) (hn : n ≤ 128)
    (j : Nat) :
    wordBit (maskWords dc n) j =
      (wordBit dc j && decide (j < n ∨ j = n ∧ n % 16 ≠ 0)) := by
  rw [wordBit, maskWords_getD hlen hn, wordBit]
  split
  · rw [decide_eq_false (by omega), Bool.and_false]
    exact Nat.zero_testBit _
  · split
    · have hkeep : (j < n ∨ j = n ∧ n % 16 ≠ 0) ↔ 15 - n % 16 ≤ 15 - j % 16 := by omega
      rw [decide_eq_decide.mpr hkeep]
      exact clearLow_getLsbD (dc.getD (j / 16) 0).toBitVec (by omega)
    · rw [decide_eq_true (by omega), Bool.and_true]

/-! ## Matching -/

theorem byte_eq_iff {a b : UInt8} :
    a = b ↔ ∀ i < 8, a.toNat.testBit i = b.toNat.testBit i := by
  constructor
  · rintro rfl i _
    rfl
  · intro h
    refine UInt8.toNat_inj.mp (Nat.eq_of_testBit_eq fun i => ?_)
    by_cases hi : i < 8
    · exact h i hi
    · have hpow : 2 ^ 8 ≤ 2 ^ i := Nat.pow_le_pow_right (by decide) (Nat.not_lt.mp hi)
      have ha := UInt8.toNat_lt a
      have hb := UInt8.toNat_lt b
      rw [Nat.testBit_lt_two_pow (by omega), Nat.testBit_lt_two_pow (by omega)]

/-- A byte, by the bits of the address that are in it. -/
theorem byte_eq_iff_bits {b : UInt8} {i : Nat} {P : Nat → Bool} (mask : List UInt8)
    (hb : ∀ j, j / 8 = i → b.toNat.testBit (7 - j % 8) = P j) :
    b = mask.getD i 0 ↔ ∀ j, j / 8 = i → P j = addrBit mask j := by
  rw [byte_eq_iff]
  constructor
  · intro h j hj
    rw [← hb j hj, addrBit, hj]
    exact h (7 - j % 8) (by omega)
  · intro h k hk
    have hbit := h (8 * i + (7 - k)) (by omega)
    rw [← hb _ (by omega), addrBit] at hbit
    have hmod : 7 - (8 * i + (7 - k)) % 8 = k := by omega
    have hdiv : (8 * i + (7 - k)) / 8 = i := by omega
    rwa [hmod, hdiv] at hbit

theorem matchIpv6_iff {mask : List UInt8} {n : Nat} (hclear : ∀ j, n ≤ j → addrBit mask j = false)
    (addr : List UInt8) :
    matchIpv6 addr mask n = 0 ↔ ∀ j < n, addrBit addr j = addrBit mask j := by
  have hbyte : ∀ i, addr.getD i 0 = mask.getD i 0 ↔
      ∀ j, j / 8 = i → addrBit addr j = addrBit mask j :=
    fun i => byte_eq_iff_bits mask fun j hj => by rw [addrBit, hj]
  have hlast : addr.getD (n / 8) 0 &&& ~~~UInt8.ofNat ((1 <<< (8 - n % 8)) - 1) =
      mask.getD (n / 8) 0 ↔
        ∀ j, j / 8 = n / 8 → (addrBit addr j && decide (j < n)) = addrBit mask j := by
    refine byte_eq_iff_bits mask fun j hj => ?_
    have hkeep : j < n ↔ 8 - n % 8 ≤ 7 - j % 8 := by omega
    rw [addrBit, hj, decide_eq_decide.mpr hkeep]
    exact clearLow_getLsbD (addr.getD (n / 8) 0).toBitVec (by omega)
  rw [matchIpv6]
  simp only
  split
  · next hany =>
      obtain ⟨i, hi, hne⟩ := List.any_eq_true.mp hany
      rw [decide_eq_true_eq, ne_eq, hbyte] at hne
      refine iff_of_false (by decide) fun h => hne fun j hj => h j ?_
      have := List.mem_range.mp hi
      omega
  · next hany =>
      have hfull : ∀ j, j / 8 < n / 8 → addrBit addr j = addrBit mask j := by
        intro j hj
        by_contra hne
        refine hany (List.any_eq_true.mpr ⟨j / 8, List.mem_range.mpr hj, ?_⟩)
        rw [decide_eq_true_eq, ne_eq, hbyte]
        exact fun h => hne (h j rfl)
      split
      · refine iff_of_true rfl fun j hj => hfull j (by omega)
      · split
        · next heq =>
            refine iff_of_true rfl fun j hj => ?_
            by_cases hj8 : j / 8 < n / 8
            · exact hfull j hj8
            · have hbit := hlast.mp heq j (by omega)
              rwa [decide_eq_true hj, Bool.and_true] at hbit
        · next hne =>
            refine iff_of_false (by decide) fun h => hne (hlast.mpr fun j _ => ?_)
            by_cases hj : j < n
            · rw [decide_eq_true hj, Bool.and_true, h j hj]
            · rw [decide_eq_false hj, Bool.and_false, hclear j (Nat.not_lt.mp hj)]

/-! ## Agreement -/

/-- Two addresses are the same as far as the first of them goes. -/
def SameBits (a b : List Nat) : Prop := ∀ j < 16 * a.length, groupBit a j = groupBit b j

theorem groupBit_append_left {a b : List Nat} {j : Nat} (hj : j < 16 * a.length) :
    groupBit (a ++ b) j = groupBit a j := by
  rw [groupBit, groupBit, List.getD_append _ _ _ _ (by omega)]

theorem groupBit_append_right (a b : List Nat) (j : Nat) :
    groupBit (a ++ b) (16 * a.length + j) = groupBit b j := by
  have hdiv : (16 * a.length + j) / 16 - a.length = j / 16 := by omega
  rw [groupBit, groupBit, List.getD_append_right _ _ _ _ (by omega), hdiv,
    Nat.mul_add_mod_self_left]

theorem SameBits.refl (a : List Nat) : SameBits a a := fun _ _ => rfl

theorem sameBits_append_iff {a a' b b' : List Nat} (hlen : a.length = a'.length) :
    SameBits (a ++ b) (a' ++ b') ↔ SameBits a a' ∧ SameBits b b' := by
  constructor
  · intro h
    refine ⟨fun j hj => ?_, fun j hj => ?_⟩
    · have hbit := h j (by rw [List.length_append]; omega)
      rwa [groupBit_append_left hj, groupBit_append_left (hlen ▸ hj)] at hbit
    · have hbit := h (16 * a.length + j) (by rw [List.length_append]; omega)
      rw [groupBit_append_right, hlen, groupBit_append_right] at hbit
      exact hbit
  · rintro ⟨ha, hb⟩ j hj
    rw [List.length_append] at hj
    by_cases hlt : j < 16 * a.length
    · rw [groupBit_append_left hlt, groupBit_append_left (hlen ▸ hlt)]
      exact ha j hlt
    · obtain ⟨k, rfl⟩ := Nat.exists_eq_add_of_le (Nat.not_lt.mp hlt)
      have hbit := hb k (by omega)
      rw [groupBit_append_right, hlen, groupBit_append_right]
      exact hbit

theorem sameBits_group_iff {g : List UInt8} (hg : IsGroup g) :
    SameBits [groupRead g] [groupValue g] ↔ ∀ c ∈ g, isDigit c = true := by
  rw [← groupRead_eq_iff hg.digits]
  have hlen := hg.length
  constructor
  · intro h i hi
    have hbit := h (15 - i) (by rw [List.length_singleton]; omega)
    have hdiv : (15 - i) / 16 = 0 := by omega
    have hmod : 15 - (15 - i) % 16 = i := by omega
    rw [groupBit, groupBit, hdiv, hmod] at hbit
    exact hbit
  · intro h j hj
    have hsame := groupRead_of_digits ((groupRead_eq_iff hg.digits).mp h)
    rw [hsame]

theorem sameBits_map_iff {gs : List (List UInt8)} (hgs : ∀ g ∈ gs, IsGroup g) :
    SameBits (gs.map groupRead) (gs.map groupValue) ↔ ∀ g ∈ gs, ∀ c ∈ g, isDigit c = true := by
  induction gs with
  | nil => exact iff_of_true (SameBits.refl []) fun g hg => absurd hg List.not_mem_nil
  | cons g gs ih =>
      have hsplit := @sameBits_append_iff [groupRead g] [groupValue g]
        (gs.map groupRead) (gs.map groupValue) rfl
      rw [List.map_cons, List.map_cons, List.forall_mem_cons,
        ← ih fun g' hg' => hgs g' (List.mem_cons_of_mem g hg'),
        ← sameBits_group_iff (hgs g (List.mem_cons_self ..))]
      exact hsplit

/-! ## Results -/

namespace V6Form

/-- The address of a netmask, with just its bits, and `match_ipv6` of what is in
the block. -/
def Right (f : V6Form) (r : Except MaskFault Netmask6) : Prop :=
  ∃ s6Addr, r = .ok (.ipv6 s6Addr f.bits) ∧
    (∀ j < f.bits, addrBit s6Addr j = groupBit f.value j) ∧
    (∀ j, f.bits ≤ j → addrBit s6Addr j = false) ∧
    ∀ addr, matchIpv6 addr s6Addr f.bits = 0 ↔ ∀ j < f.bits, addrBit addr j = groupBit f.value j

/-- Words that are laid out for a netmask have its bits, and not one bit more. -/
def Agrees (f : V6Form) (words : List Nat) : Prop :=
  (∀ j < f.bits, groupBit words j = groupBit f.value j) ∧
    (f.bits % 16 ≠ 0 → groupBit words f.bits = false)

/-- What the words that are laid out for a netmask are taken for. -/
def taken (f : V6Form) (words : List Nat) : Except MaskFault Netmask6 :=
  (clearUnusedV6 (words.map UInt16.ofNat) f.bits).map fun dc => .ipv6 (htonsAll dc) f.bits

theorem taken_right_iff {f : V6Form} {words : List Nat} (hf : f.Wf) (hlen : words.length = 8) :
    f.Right (f.taken words) ↔ f.Agrees words := by
  have hbits := bits_le hf
  have hbit : ∀ j, addrBit (htonsAll (maskWords (words.map UInt16.ofNat) f.bits)) j =
      (groupBit words j && decide (j < f.bits ∨ j = f.bits ∧ f.bits % 16 ≠ 0)) := by
    intro j
    rw [addrBit_htonsAll, wordBit_maskWords (by rw [List.length_map, hlen]) hbits, wordBit_map]
  have hused : ∀ j < f.bits, addrBit (htonsAll (maskWords (words.map UInt16.ofNat) f.bits)) j =
      groupBit words j := by
    intro j hj
    rw [hbit, decide_eq_true (.inl hj), Bool.and_true]
  rw [Right, taken, clearUnusedV6_eq, Agrees]
  constructor
  · rintro ⟨s6Addr, hr, hvalue, hrest, _⟩
    cases hr
    refine ⟨fun j hj => (hused j hj).symm.trans (hvalue j hj), fun hmod => ?_⟩
    have hnext := hrest f.bits (Nat.le_refl _)
    rwa [hbit, decide_eq_true (.inr ⟨rfl, hmod⟩), Bool.and_true] at hnext
  · rintro ⟨hvalue, hnext⟩
    have hclear : ∀ j, f.bits ≤ j →
        addrBit (htonsAll (maskWords (words.map UInt16.ofNat) f.bits)) j = false := by
      intro j hj
      rw [hbit]
      by_cases heq : j = f.bits ∧ f.bits % 16 ≠ 0
      · rw [heq.1, hnext heq.2, Bool.false_and]
      · rw [decide_eq_false (by omega), Bool.and_false]
    refine ⟨_, rfl, fun j hj => (hused j hj).trans (hvalue j hj), hclear, fun addr => ?_⟩
    rw [matchIpv6_iff hclear]
    exact forall₂_congr fun j hj => by rw [hused j hj, hvalue j hj]

end V6Form

end TrIrcd
