import Mathlib.Tactic.Ring
import TrIrcd.Src.Maskitem

/-!
# What a netmask stands for

An accepted text is up to four groups of digits, with a star or a number of
bits behind them. The address written in it (`writtenAddr`) has these groups as
its bytes, and zeros for the missing ones. `parse_netmask` reads each group into
a byte and the number of bits into an `int`, so both have to fit; if they do,
the result is the address with its unused bits cleared, and `match_ipv4`
compares the used ones (`tryParseV4_spec`, `matchIpv4_iff`).

`match_ipmask` asks for more: the mask has to have as many bits as the address,
and that is all 32 of them.
-/

namespace TrIrcd

open TrIrcd.Lib

variable {text : List UInt8}

/-! ## What is written -/

/-- The groups of digits of a netmask, up to the number of bits. -/
def netGroups (text : List UInt8) : List (List UInt8) :=
  ((text.takeWhile fun c => c ≠ 0x2f).splitOnP fun c => c = 0x2e).map fun g => g.takeWhile isDigit

/-- The number of bits of a netmask, as an `int`; 0 if there is none. -/
def netBits (text : List UInt8) : Int :=
  (strtoul10 ((text.dropWhile fun c => c ≠ 0x2f).drop 1)).1.toUInt32.toInt32.toInt

/-- The number that digits write. -/
def decimal (ds : List UInt8) : Nat := ds.foldl (fun v d => 10 * v + (d.toNat - 0x30)) 0

/-- Four bytes as an address. -/
def quadValue (bs : List Nat) : Nat := bs.foldl (fun v b => 256 * v + b) 0

/-- The address written in a netmask. -/
def writtenAddr (text : List UInt8) : Nat :=
  let gs := (netGroups text).map decimal
  quadValue (gs ++ List.replicate (4 - gs.length) 0)

/-- Where a group or a number of bits begins. -/
def NetHead (d : List UInt8) : Prop := ∀ c ∈ d.head?, isSpace c = false ∧ c ≠ 0x2d ∧ c ≠ 0x2b

theorem netGroups_nil : netGroups [] = [[]] := rfl

theorem netGroups_dot (p : List UInt8) : netGroups (0x2e :: p) = [] :: netGroups p := by
  rw [netGroups, List.takeWhile_cons_of_pos (by decide), List.splitOnP_cons_eq_if_modifyHead]
  rfl

theorem netGroups_slash (p : List UInt8) : netGroups (0x2f :: p) = [[]] := by
  rw [netGroups, List.takeWhile_cons_of_neg (by decide)]
  rfl

theorem netGroups_tail {c : UInt8} {p : List UInt8} (hdot : c ≠ 0x2e) (hslash : c ≠ 0x2f) :
    (netGroups (c :: p)).tail = (netGroups p).tail := by
  rw [netGroups, List.takeWhile_cons_of_pos (by simpa using hslash),
    List.splitOnP_cons_eq_if_modifyHead, if_neg (by simpa using hdot), netGroups]
  cases List.splitOnP _ _ with
  | nil => rfl
  | cons g gs => rfl

/-- The first group begins where the text does. -/
theorem netGroups_head : ∀ p : List UInt8, ∃ gs, netGroups p = p.takeWhile isDigit :: gs
  | [] => ⟨[], rfl⟩
  | c :: p => by
      by_cases hslash : c = 0x2f
      · rw [hslash, netGroups_slash]
        exact ⟨[], rfl⟩
      · by_cases hdot : c = 0x2e
        · rw [hdot, netGroups_dot]
          exact ⟨_, rfl⟩
        · obtain ⟨gs, hgs⟩ := netGroups_head p
          rw [netGroups] at hgs ⊢
          rw [List.takeWhile_cons_of_pos (by simpa using hslash),
            List.splitOnP_cons_eq_if_modifyHead, if_neg (by simpa using hdot)]
          cases hsplit : List.splitOnP (fun c => decide (c = 0x2e))
              (List.takeWhile (fun c => decide (c ≠ 0x2f)) p) with
          | nil => exact absurd hsplit (List.splitOnP_ne_nil _ _)
          | cons g rest =>
              rw [hsplit, List.map_cons, List.cons.injEq] at hgs
              refine ⟨gs, ?_⟩
              rw [List.modifyHead_cons, List.map_cons, hgs.2]
              congr 1
              rw [List.takeWhile_cons, List.takeWhile_cons, hgs.1]

theorem netGroups_eq (p : List UInt8) :
    netGroups p = p.takeWhile isDigit :: (netGroups p).tail := by
  obtain ⟨gs, hgs⟩ := netGroups_head p
  rw [hgs, List.tail_cons]

theorem netBits_skip {c : UInt8} {p : List UInt8} (h : c ≠ 0x2f) :
    netBits (c :: p) = netBits p := by
  rw [netBits, List.dropWhile_cons_of_pos (by simpa using h), netBits]

theorem netBits_slash (p : List UInt8) :
    netBits (0x2f :: p) = (strtoul10 p).1.toUInt32.toInt32.toInt := by
  rw [netBits, List.dropWhile_cons_of_neg (by decide), List.drop_one, List.tail_cons]

theorem isDigit_head {c : UInt8} (h : isDigit c = true) :
    isSpace c = false ∧ c ≠ 0x2d ∧ c ≠ 0x2b := by
  simp only [isDigit, Bool.and_eq_true, decide_eq_true_iff, UInt8.le_iff_toNat_le,
    UInt8.toNat_ofNat] at h
  refine ⟨?_, ?_, ?_⟩
  · simp only [isSpace, Bool.or_eq_false_iff, Bool.and_eq_false_iff, decide_eq_false_iff_not,
      UInt8.le_iff_toNat_le, UInt8.toNat_ofNat, ← UInt8.toNat_inj]
    omega
  · rintro rfl
    exact absurd h (by decide)
  · rintro rfl
    exact absurd h (by decide)

theorem scanV4_head {prev : Option UInt8} {p : List UInt8} {digits : List (List UInt8)}
    {r : List (List UInt8) × Int} (h : scanV4 prev p digits = some r) : NetHead p := by
  cases p with
  | nil => exact fun c hc => nomatch hc
  | cons c p =>
      intro d hd
      cases hd
      rw [scanV4] at h
      split at h
      · next hdigit => exact isDigit_head hdigit
      · split at h
        · next hdot => exact hdot ▸ (by decide)
        · split at h
          · next hstar => exact hstar ▸ (by decide)
          · split at h
            · next hslash => exact hslash ▸ (by decide)
            · cases h

/-- What `strtoul` makes of a group. -/
theorem strtoul10_group {d : List UInt8} (h : NetHead d)
    (hd : decimal (d.takeWhile isDigit) ≤ 255) :
    (strtoul10 d).1.toUInt8.toNat = decimal (d.takeWhile isDigit) := by
  have hspace : d.dropWhile isSpace = d := by
    cases d with
    | nil => rfl
    | cons c d => exact List.dropWhile_cons_of_neg (by rw [(h c rfl).1]; exact Bool.false_ne_true)
  rw [strtoul10, hspace]
  split
  next neg t heq =>
  have hplain : (neg, t) = (false, d) := by
    rw [← heq]
    split
    · next t => exact absurd rfl (h 0x2d rfl).2.1
    · next t => exact absurd rfl (h 0x2b rfl).2.2
    · rfl
  cases hplain
  dsimp only
  split
  · next hnil =>
      rw [hnil]
      rfl
  · have hlt : ¬ 0x10000000000000000 ≤ decimal (d.takeWhile isDigit) := by omega
    rw [decimal] at hlt hd ⊢
    rw [if_neg hlt, if_neg Bool.false_ne_true, UInt64.toNat_toUInt8, UInt64.toNat_ofNat']
    omega

/-- The digits, and the bits, of an accepted text. -/
theorem scanV4_spec : ∀ {p : List UInt8} {prev : Option UInt8} {digits digits' : List (List UInt8)}
    {bits : Int}, digits ≠ [] → digits.length ≤ 4 → (∀ d ∈ digits, NetHead d) →
    scanV4 prev p digits = some (digits', bits) →
    digits'.map (fun d => d.takeWhile isDigit) =
        digits.map (fun d => d.takeWhile isDigit) ++ (netGroups p).tail ∧
      digits' ≠ [] ∧ digits'.length ≤ 4 ∧ (∀ d ∈ digits', NetHead d) ∧ bits ≤ 32 ∧
      (bits = netBits p ∨ netBits p = 0 ∧ 0 ≤ bits)
  | [], prev, digits, digits', bits, hne, hle, hhead, h => by
      cases h
      exact ⟨(List.append_nil _).symm, hne, hle, hhead, by omega, .inl rfl⟩
  | c :: p, prev, digits, digits', bits, hne, hle, hhead, h => by
      rw [scanV4] at h
      split at h
      · next hdigit =>
          have hdot : c ≠ 0x2e := by
            rintro rfl
            exact absurd hdigit (by decide)
          have hslash : c ≠ 0x2f := by
            rintro rfl
            exact absurd hdigit (by decide)
          rw [netGroups_tail hdot hslash, netBits_skip hslash]
          exact scanV4_spec hne hle hhead h
      · split at h
        · next hdot =>
            split at h
            · cases h
            · next hlt =>
                rw [hdot, netGroups_dot, List.tail_cons, netBits_skip (by decide)]
                have hhead' : ∀ d ∈ digits ++ [p], NetHead d := by
                  intro d hd
                  rcases List.mem_append.mp hd with hd | hd
                  · exact hhead d hd
                  · rw [List.mem_singleton.mp hd]
                    exact scanV4_head h
                have hle' : (digits ++ [p]).length ≤ 4 := by
                  rw [List.length_append, List.length_singleton]
                  omega
                obtain ⟨hmap, hrest⟩ := scanV4_spec (List.append_ne_nil_of_left_ne_nil hne _) hle'
                  hhead' h
                refine ⟨?_, hrest⟩
                rw [hmap, List.map_append, List.append_assoc, netGroups_eq p]
                rfl
        · next hdot =>
            split at h
            · next hstar =>
                split at h
                · cases h
                · next hend =>
                    rw [not_or, not_not] at hend
                    cases h
                    rw [hstar, hend.1]
                    have hpos := List.length_pos_iff.mpr hne
                    exact ⟨(List.append_nil _).symm, hne, hle, hhead, by omega,
                      .inr ⟨rfl, by omega⟩⟩
            · split at h
              · next hslash =>
                  dsimp only at h
                  split at h
                  · cases h
                  · split at h
                    · cases h
                    · next hbits =>
                        cases h
                        rw [hslash, netGroups_slash, netBits_slash]
                        exact ⟨(List.append_nil _).symm, hne, hle, hhead, by omega, .inl rfl⟩
              · cases h

/-! ## Bytes and bits -/

/-- The bytes of an address in host order. -/
theorem addrOf_toNat (b₀ b₁ b₂ b₃ : UInt8) :
    ([b₀, b₁, b₂, b₃].foldl (fun (addr : UInt32) b => addr <<< 8 ||| b.toUInt32) 0).toNat =
      quadValue [b₀.toNat, b₁.toNat, b₂.toNat, b₃.toNat] := by
  have hstep : ∀ (v : UInt32) (b : UInt8), v.toNat < 2 ^ 24 →
      (v <<< 8 ||| b.toUInt32).toNat = 256 * v.toNat + b.toNat := by
    intro v b hv
    have hb := b.toNat_lt
    rw [UInt32.toNat_or, UInt32.toNat_shiftLeft, UInt8.toNat_toUInt32]
    have hshift : v.toNat <<< ((8 : UInt32).toNat % 32) % 2 ^ 32 = 2 ^ 8 * v.toNat := by
      rw [Nat.shiftLeft_eq]
      simp only [UInt32.reduceToNat, Nat.reduceMod, Nat.reducePow]
      omega
    rw [hshift, ← Nat.two_pow_add_eq_or_of_lt (by omega)]
  have h₀ := b₀.toNat_lt
  have h₁ := b₁.toNat_lt
  have h₂ := b₂.toNat_lt
  have h₃ := b₃.toNat_lt
  simp only [List.foldl_cons, List.foldl_nil, quadValue]
  have e₀ := hstep 0 b₀ (by decide)
  rw [UInt32.toNat_zero] at e₀
  have e₁ := hstep _ b₁ (by rw [e₀]; omega)
  have e₂ := hstep _ b₂ (by rw [e₁, e₀]; omega)
  rw [hstep _ b₃ (by rw [e₂, e₁, e₀]; omega), e₂, e₁, e₀]

/-- To clear `n + m` bits of a number is to clear `m` bits of the byte above its
lowest `n` bits, and these. -/
theorem clear_above {h b l n m : Nat} (hl : l < 2 ^ n) (hm : m ≤ 8) :
    (2 ^ n * (256 * h + b) + l) / 2 ^ (n + m) * 2 ^ (n + m) =
      2 ^ n * (256 * h + b / 2 ^ m * 2 ^ m) := by
  have hdiv : (2 ^ n * (256 * h + b) + l) / 2 ^ n = 256 * h + b := by
    rw [Nat.mul_add_div (Nat.two_pow_pos n), Nat.div_eq_of_lt hl, Nat.add_zero]
  have hpow : 256 = 2 ^ m * 2 ^ (8 - m) := by
    rw [← pow_add, Nat.add_sub_cancel' hm]
    rfl
  have hbyte : (256 * h + b) / 2 ^ m = 2 ^ (8 - m) * h + b / 2 ^ m := by
    rw [hpow, mul_assoc, Nat.mul_add_div (Nat.two_pow_pos m)]
  rw [pow_add, ← Nat.div_div_eq_div_mul, hdiv, hbyte, hpow]
  ring

/-- The bits behind the first `bits` are zero. -/
theorem clearUnused_toNat (b₀ b₁ b₂ b₃ : UInt8) {bits : Int} (hpos : 1 ≤ bits) (hle : bits ≤ 32) :
    ((clearUnused [b₀, b₁, b₂, b₃] bits).foldl
        (fun (addr : UInt32) b => addr <<< 8 ||| b.toUInt32) 0).toNat =
      quadValue [b₀.toNat, b₁.toNat, b₂.toNat, b₃.toNat] / 2 ^ (32 - bits).toNat *
        2 ^ (32 - bits).toNat := by
  have h₁ := b₁.toNat_lt
  have h₂ := b₂.toNat_lt
  have h₃ := b₃.toNat_lt
  -- The byte at `i` keeps its bits, or those above `m`, or none.
  obtain ⟨q, m, hm, hbits⟩ : ∃ q m : Nat, m < 8 ∧ bits = 8 * q + m :=
    ⟨(bits / 8).toNat, (bits % 8).toNat, by omega, by omega⟩
  have hbyte : ∀ (b : UInt8) (i : Nat), (if bits < 32 ∧ bits.tmod 8 ≠ 0 ∧ i = bits.tdiv 8 then
      UInt8.ofNat (b.toNat >>> (8 - bits.tmod 8).toNat <<< (8 - bits.tmod 8).toNat)
      else if bits.tdiv 8 + (if bits.tmod 8 ≠ 0 then 1 else 0) ≤ i then 0 else b).toNat =
      if i < q then b.toNat else if i = q then b.toNat / 2 ^ (8 - m) * 2 ^ (8 - m) else 0 := by
    intro b i
    have hb := b.toNat_lt
    rw [Int.tmod_eq_emod_of_nonneg (by omega), Int.tdiv_eq_ediv_of_nonneg (by omega)]
    have hmod : bits % 8 = m := by omega
    have hdiv : bits / 8 = q := by omega
    have hnat : (8 - (m : Int)).toNat = 8 - m := by omega
    rw [hmod, hdiv, hnat]
    by_cases hpart : bits < 32 ∧ (m : Int) ≠ 0 ∧ (i : Int) = q
    · rw [if_pos hpart, if_neg (by omega), if_pos (by omega), UInt8.toNat_ofNat', Nat.shiftLeft_eq,
        Nat.shiftRight_eq_div_pow]
      exact Nat.mod_eq_of_lt (Nat.lt_of_le_of_lt (Nat.div_mul_le_self ..) hb)
    · rw [if_neg hpart]
      by_cases hzero : (q : Int) + (if (m : Int) ≠ 0 then 1 else 0) ≤ i
      · rw [if_pos hzero, if_neg (by split at hzero <;> omega)]
        split
        · next heq =>
            have hm0 : m = 0 := by split at hzero <;> omega
            rw [hm0]
            show 0 = b.toNat / 256 * 256
            omega
        · rfl
      · rw [if_neg hzero, if_pos (by split at hzero <;> omega)]
  have hk : (32 - bits).toNat = 32 - (8 * q + m) := by omega
  have hq : q ≤ 4 := by omega
  simp only [clearUnused, List.mapIdx_cons, List.mapIdx_nil, addrOf_toNat, hbyte, hk]
  simp only [quadValue, List.foldl_cons, List.foldl_nil, Nat.mul_zero, Nat.zero_add]
  have hm8 : 8 - m ≤ 8 := Nat.sub_le ..
  have hcase : q = 0 ∨ q = 1 ∨ q = 2 ∨ q = 3 ∨ q = 4 := by omega
  rcases hcase with rfl | rfl | rfl | rfl | rfl
  · have hk : 32 - (8 * 0 + m) = 24 + (8 - m) := by omega
    have hclear := @clear_above 0 b₀.toNat (65536 * b₁.toNat + 256 * b₂.toNat + b₃.toNat) 24 (8 - m)
      (by omega) hm8
    have hsum : 256 * (256 * (256 * b₀.toNat + b₁.toNat) + b₂.toNat) + b₃.toNat =
      2 ^ 24 * (256 * 0 + b₀.toNat) + (65536 * b₁.toNat + 256 * b₂.toNat + b₃.toNat) := by omega
    rw [hk, hsum, hclear]
    simp
    omega
  · have hk : 32 - (8 * 1 + m) = 16 + (8 - m) := by omega
    have hclear := @clear_above b₀.toNat b₁.toNat (256 * b₂.toNat + b₃.toNat) 16 (8 - m)
      (by omega) hm8
    have hsum : 256 * (256 * (256 * b₀.toNat + b₁.toNat) + b₂.toNat) + b₃.toNat =
      2 ^ 16 * (256 * b₀.toNat + b₁.toNat) + (256 * b₂.toNat + b₃.toNat) := by omega
    rw [hk, hsum, hclear]
    simp
    omega
  · have hk : 32 - (8 * 2 + m) = 8 + (8 - m) := by omega
    have hclear := @clear_above (256 * b₀.toNat + b₁.toNat) b₂.toNat b₃.toNat 8 (8 - m)
      (by omega) hm8
    have hsum : 256 * (256 * (256 * b₀.toNat + b₁.toNat) + b₂.toNat) + b₃.toNat =
      2 ^ 8 * (256 * (256 * b₀.toNat + b₁.toNat) + b₂.toNat) + b₃.toNat := by omega
    rw [hk, hsum, hclear]
    simp
  · have hk : 32 - (8 * 3 + m) = 0 + (8 - m) := by omega
    have hclear := @clear_above (256 * (256 * b₀.toNat + b₁.toNat) + b₂.toNat) b₃.toNat 0 0 (8 - m)
      Nat.one_pos hm8
    rw [pow_zero, Nat.one_mul, Nat.add_zero, Nat.one_mul] at hclear
    rw [hk, hclear]
    simp
  · have hm0 : 32 - (8 * 4 + m) = 0 := by omega
    rw [hm0]
    simp

/-- `match_ipv4` clears the unused bits of the address it is given. -/
theorem matchIpv4_iff {addr mask : UInt32} {bits : Int} (hpos : 1 ≤ bits) (hle : bits ≤ 32) :
    matchIpv4 addr mask bits = 0 ↔
      addr.toNat / 2 ^ (32 - bits).toNat * 2 ^ (32 - bits).toNat = mask.toNat := by
  obtain ⟨k, hk, hk32⟩ : ∃ k : Nat, (32 - bits).toNat = k ∧ k < 32 := ⟨_, rfl, by omega⟩
  have hshift : ((1 <<< UInt32.ofNat k : UInt32) - 1).toNat = 2 ^ k - 1 := by
    have hlt : 2 ^ k < 2 ^ 32 := Nat.pow_lt_pow_right Nat.one_lt_two hk32
    have hone : (1 <<< UInt32.ofNat k : UInt32).toNat = 2 ^ k := by
      rw [UInt32.toNat_shiftLeft, UInt32.toNat_ofNat', UInt32.toNat_one, Nat.shiftLeft_eq,
        Nat.one_mul, Nat.mod_eq_of_lt (by omega : k < 2 ^ 32), Nat.mod_eq_of_lt hk32,
        Nat.mod_eq_of_lt hlt]
    have hle : (1 : UInt32) ≤ 1 <<< UInt32.ofNat k := by
      rw [UInt32.le_iff_toNat_le, hone, UInt32.toNat_one]
      exact Nat.one_le_two_pow
    rw [UInt32.toNat_sub_of_le _ _ hle, hone, UInt32.toNat_one]
  have hand : (addr &&& ~~~((1 <<< UInt32.ofNat k) - 1)).toNat = addr.toNat / 2 ^ k * 2 ^ k := by
    apply Nat.eq_of_testBit_eq
    intro i
    have hlt : 2 ^ k - 1 < 2 ^ 32 :=
      Nat.lt_of_le_of_lt (Nat.sub_le ..) (Nat.pow_lt_pow_right Nat.one_lt_two hk32)
    have hnot : UInt32.size - 1 - (2 ^ k - 1) = 2 ^ 32 - (2 ^ k - 1 + 1) := by
      rw [Nat.sub_sub, Nat.add_comm]
      rfl
    rw [UInt32.toNat_and, UInt32.toNat_not, hshift, hnot, Nat.testBit_and,
      Nat.testBit_two_pow_sub_succ hlt, Nat.testBit_two_pow_sub_one, Nat.testBit_mul_two_pow,
      Nat.testBit_div_two_pow]
    by_cases hki : k ≤ i
    · rw [Nat.sub_add_cancel hki]
      by_cases hi : i < 32
      · simp [hki, hi]
      · have hbig : addr.toNat < 2 ^ i :=
          Nat.lt_of_lt_of_le addr.toNat_lt (Nat.pow_le_pow_right Nat.two_pos (Nat.le_of_not_lt hi))
        rw [Nat.testBit_lt_two_pow hbig, Bool.false_and, Bool.and_false]
    · simp [hki, Nat.lt_of_not_le hki]
  rw [matchIpv4, hk]
  split
  · next hne =>
      refine iff_of_false (by decide) fun heq => hne ?_
      rw [← UInt32.toNat_inj, hand, heq]
  · next heq =>
      rw [not_not] at heq
      exact iff_of_true rfl (by rw [← heq, hand])

/-! ## The netmask -/

/-- What the text of a mask and its reading have to do with each other. -/
structure Canonical (text : List UInt8) (net : UInt32) (bits : Int) : Prop where
  groups : ∀ g ∈ netGroups text, decimal g ≤ 255
  range : 1 ≤ bits ∧ bits ≤ 32
  low : net.toNat % 2 ^ (32 - bits).toNat = 0
  matches_iff : ∀ x : UInt32, matchIpv4 x net bits = 0 ↔
    x.toNat / 2 ^ (32 - bits).toNat = writtenAddr text / 2 ^ (32 - bits).toNat

/-- The four groups that are read, and the bits: those of the text, or as many
as the groups have. -/
theorem tryParseV4_read {net : UInt32} {bits : Int}
    (h : tryParseV4Netmask text = .ok (.ipv4 net bits)) :
    ∃ digits : List (List UInt8), digits.length = 4 ∧ (∀ d ∈ digits, NetHead d) ∧
      digits.map (fun d => d.takeWhile isDigit) =
        netGroups text ++ List.replicate (4 - (netGroups text).length) [0x30] ∧
      net = (clearUnused (digits.map fun d => (strtoul10 d).1.toUInt8) bits).foldl
        (fun (addr : UInt32) b => addr <<< 8 ||| b.toUInt32) 0 ∧
      bits ≠ 0 ∧ bits ≤ 32 ∧ (bits = netBits text ∨ netBits text = 0 ∧ 1 ≤ bits) := by
  rw [tryParseV4Netmask] at h
  split at h
  · cases h
  · next digits bits₀ hscan =>
      obtain ⟨hmap, hne, hle, hhead, hbits, hnet⟩ := scanV4_spec (List.cons_ne_nil text [])
        (Nat.le_add_left 1 3) (fun d hd => List.mem_singleton.mp hd ▸ scanV4_head hscan) hscan
      have hpos := List.length_pos_iff.mpr hne
      have hgroups : digits.map (fun d => d.takeWhile isDigit) = netGroups text := by
        rw [hmap, netGroups_eq text]
        rfl
      have hlength : (netGroups text).length = digits.length := by
        rw [← hgroups, List.length_map]
      dsimp only at h
      generalize hb : (if digits.length < 4 ∧ bits₀ = 0 then (digits.length * 8 : Int) else bits₀) =
        bits₁ at h
      have hpad : (if bits₁ ≠ 0 then digits ++ List.replicate (4 - digits.length) [0x30]
          else digits) = digits ++ List.replicate (4 - digits.length) [0x30] := by
        split
        · rfl
        · next hzero =>
            have hfull : 4 - digits.length = 0 := by
              rw [not_not] at hzero
              split at hb <;> omega
            rw [hfull, List.replicate_zero, List.append_nil]
      rw [hpad] at h
      generalize hb' : (if bits₁ = 0 then (32 : Int) else bits₁) = bits₂ at h
      split at h
      · cases h
      · rw [Except.ok.injEq, Netmask.ipv4.injEq] at h
        obtain ⟨rfl, rfl⟩ := h
        refine ⟨digits ++ List.replicate (4 - digits.length) [0x30], ?_, ?_, ?_, rfl, ?_, ?_, ?_⟩
        · rw [List.length_append, List.length_replicate]
          omega
        · intro d hd
          rcases List.mem_append.mp hd with hd | hd
          · exact hhead d hd
          · rw [List.eq_of_mem_replicate hd]
            exact fun c hc => by
              cases hc
              decide
        · rw [List.map_append, List.map_replicate, hgroups, hlength]
          rfl
        · split at hb' <;> omega
        · split at hb <;> split at hb' <;> omega
        · split at hb <;> split at hb' <;> omega

/-- Where the groups are bytes, the address is read, and its unused bits are
cleared. -/
theorem tryParseV4_addr {net : UInt32} {bits : Int}
    (hbyte : ∀ g ∈ netGroups text, decimal g ≤ 255) (hpos : 1 ≤ bits)
    (h : tryParseV4Netmask text = .ok (.ipv4 net bits)) :
    net.toNat = writtenAddr text / 2 ^ (32 - bits).toNat * 2 ^ (32 - bits).toNat := by
  obtain ⟨digits, hlength, hhead, hgroups, rfl, -, hle, -⟩ := tryParseV4_read h
  have hread : digits.map (fun d => (strtoul10 d).1.toUInt8.toNat) =
      (digits.map fun d => d.takeWhile isDigit).map decimal := by
    rw [List.map_map]
    refine List.map_congr_left fun d hd => strtoul10_group (hhead d hd) ?_
    have hmem : d.takeWhile isDigit ∈ netGroups text ++ _ := hgroups ▸ List.mem_map_of_mem hd
    rcases List.mem_append.mp hmem with hin | hin
    · exact hbyte _ hin
    · rw [List.eq_of_mem_replicate hin]
      decide
  have hwritten : writtenAddr text =
      quadValue ((digits.map fun d => (strtoul10 d).1.toUInt8).map UInt8.toNat) := by
    rw [List.map_map]
    show _ = quadValue (digits.map fun d => (strtoul10 d).1.toUInt8.toNat)
    rw [hread, hgroups, List.map_append, List.map_replicate, writtenAddr, List.length_map]
    rfl
  rw [hwritten]
  obtain ⟨d₀, d₁, d₂, d₃, rfl⟩ := List.length_eq_four.mp hlength
  exact clearUnused_toNat _ _ _ _ hpos hle

/-- A mask is read as it is written if and only if each of its groups is a byte
and its number of bits is not negative as an `int`. -/
theorem parseNetmask_canonical_iff {net : UInt32} {bits : Int}
    (h : parseNetmask text = .ok (.ipv4 net bits)) :
    Canonical text net bits ↔ (∀ g ∈ netGroups text, decimal g ≤ 255) ∧ 0 ≤ netBits text := by
  rw [parseNetmask] at h
  split at h
  · obtain ⟨-, -, -, -, -, hne, hle, hbits⟩ := tryParseV4_read h
    constructor
    · intro hc
      have hpos := hc.range.1
      exact ⟨hc.groups, by omega⟩
    · rintro ⟨hbyte, hnonneg⟩
      have hrange : 1 ≤ bits := by omega
      have haddr := tryParseV4_addr hbyte hrange h
      refine ⟨hbyte, ⟨hrange, hle⟩, ?_, fun x => ?_⟩
      · rw [haddr, Nat.mul_mod_left]
      · rw [matchIpv4_iff hrange hle, haddr]
        exact Nat.mul_left_inj (Nat.two_pow_pos _).ne'
  · cases h

/-- `10.1.*` is a block of 65536 addresses. -/
theorem parseNetmask_canonical_short : Canonical [0x31, 0x30, 0x2e, 0x31, 0x2e, 0x2a] 0x0a010000 16 :=
  (parseNetmask_canonical_iff (by decide)).mpr (by decide)

/-- `300.1.1.1` is read as `44.1.1.1`. -/
theorem parseNetmask_wrapped :
    let text := [0x33, 0x30, 0x30, 0x2e, 0x31, 0x2e, 0x31, 0x2e, 0x31]
    parseNetmask text = .ok (.ipv4 0x2c010101 32) ∧ ¬ Canonical text 0x2c010101 32 :=
  ⟨by decide, fun h => absurd h.groups (by decide)⟩

/-! ## Addresses in a block -/

/-- A dotted quad, and the address it writes. -/
def IsQuad (hostip : List UInt8) (addr : UInt32) : Prop :=
  ∃ g₀ g₁ g₂ g₃ : List UInt8, hostip = g₀ ++ 0x2e :: g₁ ++ 0x2e :: g₂ ++ 0x2e :: g₃ ∧
    (∀ g ∈ [g₀, g₁, g₂, g₃], g ≠ [] ∧ (∀ c ∈ g, isDigit c = true) ∧ decimal g ≤ 255) ∧
    addr.toNat = quadValue ([g₀, g₁, g₂, g₃].map decimal)

/-- The address is in the block of a mask with this many bits. -/
def InBlock (addr net : UInt32) (bits : Int) : Prop :=
  addr.toNat / 2 ^ (32 - bits).toNat = net.toNat / 2 ^ (32 - bits).toNat

theorem scanV4_digits {g p : List UInt8} (hg : ∀ c ∈ g, isDigit c = true) (hne : g ≠ []) :
    ∀ {prev : Option UInt8} {digits : List (List UInt8)},
      ∃ c, scanV4 prev (g ++ p) digits = scanV4 (some c) p digits := by
  induction g with
  | nil => exact absurd rfl hne
  | cons c g ih =>
      intro prev digits
      rw [List.cons_append, scanV4, if_pos (hg c (List.mem_cons_self ..))]
      by_cases hnil : g = []
      · exact ⟨c, by rw [hnil, List.nil_append]⟩
      · exact ih (fun d hd => hg d (List.mem_cons_of_mem _ hd)) hnil

theorem scanV4_group {g p : List UInt8} (hg : ∀ c ∈ g, isDigit c = true) (hne : g ≠ [])
    {prev : Option UInt8} {digits : List (List UInt8)} (hlt : ¬ 4 ≤ digits.length) :
    scanV4 prev (g ++ 0x2e :: p) digits = scanV4 (some 0x2e) p (digits ++ [p]) := by
  obtain ⟨c, hc⟩ := @scanV4_digits g (0x2e :: p) hg hne prev digits
  rw [hc, scanV4, if_neg (by decide), if_pos rfl, if_neg hlt]

theorem netGroups_group {g p : List UInt8} (hg : ∀ c ∈ g, isDigit c = true) :
    netGroups (g ++ 0x2e :: p) = g :: netGroups p ∧ netGroups g = [g] := by
  induction g with
  | nil => exact ⟨netGroups_dot p, netGroups_nil⟩
  | cons c g ih =>
      have hc := hg c (List.mem_cons_self ..)
      have hdot : c ≠ 0x2e := by
        rintro rfl
        exact absurd hc (by decide)
      have hslash : c ≠ 0x2f := by
        rintro rfl
        exact absurd hc (by decide)
      have hcons : ∀ {q g' : List UInt8} {gs : List (List UInt8)}, netGroups q = g' :: gs →
          netGroups (c :: q) = (c :: g') :: gs := by
        intro q g' gs hq
        have hhead := netGroups_eq q
        rw [hq, List.cons.injEq] at hhead
        rw [netGroups_eq, netGroups_tail hdot hslash, hq, List.takeWhile_cons_of_pos hc, hhead.1,
          List.tail_cons]
      obtain ⟨hsplit, hwhole⟩ := ih fun d hd => hg d (List.mem_cons_of_mem _ hd)
      exact ⟨hcons hsplit, hcons hwhole⟩

/-- A dotted quad is read as the address it writes, with all bits. -/
theorem parseNetmask_quad {hostip : List UInt8} {addr : UInt32} (h : IsQuad hostip addr) :
    parseNetmask hostip = .ok (.ipv4 addr 32) := by
  obtain ⟨g₀, g₁, g₂, g₃, hip, hgs, haddr⟩ := h
  simp only [List.forall_mem_cons, List.not_mem_nil, false_implies, implies_true, and_true] at hgs
  obtain ⟨⟨hne₀, hd₀, hb₀⟩, ⟨hne₁, hd₁, hb₁⟩, ⟨hne₂, hd₂, hb₂⟩, hne₃, hd₃, hb₃⟩ := hgs
  simp only [List.append_assoc, List.cons_append] at hip
  have hscan : ∃ r₁ r₂ r₃, scanV4 none hostip [hostip] = some ([hostip, r₁, r₂, r₃], 0) := by
    obtain ⟨c, hc⟩ := @scanV4_digits g₃ [] hd₃ hne₃ (some 0x2e)
      [hostip, g₁ ++ 0x2e :: (g₂ ++ 0x2e :: g₃), g₂ ++ 0x2e :: g₃, g₃]
    rw [List.append_nil] at hc
    refine ⟨g₁ ++ 0x2e :: (g₂ ++ 0x2e :: g₃), g₂ ++ 0x2e :: g₃, g₃, ?_⟩
    conv_lhs => rw [hip]
    rw [scanV4_group hd₀ hne₀ (by simp), scanV4_group hd₁ hne₁ (by simp),
      scanV4_group hd₂ hne₂ (by simp), ← hip]
    exact hc
  obtain ⟨r₁, r₂, r₃, hscan⟩ := hscan
  have hgroups : netGroups hostip = [g₀, g₁, g₂, g₃] := by
    rw [hip, (netGroups_group hd₀).1, (netGroups_group hd₁).1, (netGroups_group hd₂).1,
      (@netGroups_group g₃ [] hd₃).2]
  have hwritten : writtenAddr hostip = addr.toNat := by
    rw [writtenAddr, hgroups, haddr]
    rfl
  obtain ⟨net, hnet⟩ : ∃ net, tryParseV4Netmask hostip = .ok (.ipv4 net 32) := by
    rw [tryParseV4Netmask, hscan]
    exact ⟨_, rfl⟩
  have haddr := tryParseV4_addr (by
    rw [hgroups]
    simp [hb₀, hb₁, hb₂, hb₃]) (by decide) hnet
  have hnetaddr : net = addr := by
    rw [← UInt32.toNat_inj, haddr, hwritten]
    exact (Nat.div_one _).symm ▸ Nat.mul_one _
  have hdot : (0x2e : UInt8) ∈ hostip := by
    rw [hip]
    exact List.mem_append_right _ (List.mem_cons_self ..)
  rw [parseNetmask, if_pos hdot, hnet, hnetaddr]

/-- `match_ipmask` finds the addresses of a block if it is one address, and
otherwise says of none that it is in the block. -/
theorem matchIpmask_iff {mask hostip : List UInt8} {net addr : UInt32} {bits : Int}
    (hmask : parseNetmask mask = .ok (.ipv4 net bits)) (hpos : 1 ≤ bits) (hle : bits ≤ 32)
    (hip : IsQuad hostip addr) :
    (matchIpmask mask hostip = .ok 0 ↔ InBlock addr net bits) ↔
      bits = 32 ∨ ¬ InBlock addr net bits := by
  have hrun : matchIpmask mask hostip =
      .ok (if bits = 32 ∧ matchIpv4 net addr bits = 0 then 0 else 1) := by
    rw [matchIpmask, hmask, parseNetmask_quad hip]
    rfl
  have hzero : matchIpmask mask hostip = .ok 0 ↔ bits = 32 ∧ matchIpv4 net addr bits = 0 := by
    rw [hrun, Except.ok.injEq]
    split
    · next h => exact iff_of_true rfl h
    · next h => exact iff_of_false (by decide) h
  rw [hzero]
  by_cases hbits : bits = 32
  · refine iff_of_true ?_ (.inl hbits)
    rw [and_iff_right hbits, matchIpv4_iff hpos hle, InBlock, hbits]
    show net.toNat / 1 * 1 = addr.toNat ↔ addr.toNat / 1 = net.toNat / 1
    rw [Nat.div_one, Nat.mul_one, Nat.div_one, eq_comm]
  · simp only [hbits, false_and, false_iff, false_or]

/-- `10.0.0.1` -/
theorem isQuad_ten : IsQuad [0x31, 0x30, 0x2e, 0x30, 0x2e, 0x30, 0x2e, 0x31] 0x0a000001 :=
  ⟨[0x31, 0x30], [0x30], [0x30], [0x31], rfl, by decide +kernel, rfl⟩

/-- The address as a mask of its own. -/
theorem matchIpmask_host :
    matchIpmask [0x31, 0x30, 0x2e, 0x30, 0x2e, 0x30, 0x2e, 0x31]
        [0x31, 0x30, 0x2e, 0x30, 0x2e, 0x30, 0x2e, 0x31] = .ok 0 ↔
      InBlock 0x0a000001 0x0a000001 32 :=
  (matchIpmask_iff (by decide) (by decide) (by decide) isQuad_ten).mpr (.inl rfl)

/-- `10.0.0.*` does not match `10.0.0.1`. -/
theorem matchIpmask_block :
    parseNetmask [0x31, 0x30, 0x2e, 0x30, 0x2e, 0x30, 0x2e, 0x2a] = .ok (.ipv4 0x0a000000 24) ∧
      IsQuad [0x31, 0x30, 0x2e, 0x30, 0x2e, 0x30, 0x2e, 0x31] 0x0a000001 ∧
      InBlock 0x0a000001 0x0a000000 24 ∧
      matchIpmask [0x31, 0x30, 0x2e, 0x30, 0x2e, 0x30, 0x2e, 0x2a]
        [0x31, 0x30, 0x2e, 0x30, 0x2e, 0x30, 0x2e, 0x31] = .ok 1 :=
  ⟨by decide, isQuad_ten, rfl, by decide⟩

end TrIrcd
