import TrIrcd.Proofs.ParamBuffers
import TrIrcd.Src.Ircsprintf

/-!
# Numbers in decimal

`num` has room for eleven digits and a NUL. A number of more digits is written in
front of it (`numDigits_spec`), one of at most eleven is copied as it is
(`numCopy_spec`). What is printed is not always the number that was passed: the
sign of it is taken from bit 31, whatever the width is (`printed`). An `int` or an
`unsigned` is never more than ten digits, and its sign is where it is looked for;
a `time_t` has 64 bits (`decimalExact_iff`).
-/

namespace TrIrcd

open TrIrcd.Lib

/-! ## Canonical texts -/

/-- The digits of a number. -/
def numText (n : Nat) : List UInt8 := (Nat.toDigits 10 n).map fun c => UInt8.ofNat c.toNat

/-- A number in decimal. -/
def intText (v : Int) : List UInt8 :=
  if v < 0 then 0x2d :: numText v.natAbs else numText v.natAbs

theorem digitChar_byte {d : Nat} (hd : d < 10) :
    UInt8.ofNat (Nat.digitChar d).toNat = digitChar d := by
  rw [Nat.toNat_digitChar_of_lt_ten hd, digitChar, if_pos hd, Nat.add_comm]

theorem numText_eq (n : Nat) :
    numText n = if n / 10 = 0 then [digitChar (n % 10)]
      else numText (n / 10) ++ [digitChar (n % 10)] := by
  have hmod : n % 10 < 10 := Nat.mod_lt n (by decide)
  rw [numText, Nat.toDigits_eq_if (by decide)]
  by_cases hn : n < 10
  · rw [if_pos hn, if_pos (Nat.div_eq_of_lt hn), List.map_singleton, Nat.mod_eq_of_lt hn,
      digitChar_byte hn]
  · rw [if_neg hn, if_neg (by omega), List.map_append, List.map_singleton, digitChar_byte hmod]
    rfl

theorem toDigits_byte {n : Nat} {c : Char} (h : c ∈ Nat.toDigits 10 n) :
    48 ≤ c.toNat ∧ c.toNat ≤ 57 ∧ (UInt8.ofNat c.toNat).toNat = c.toNat := by
  have hdigit := Nat.isDigit_of_mem_toDigits (by decide) (by decide) h
  simp only [Char.isDigit, Bool.and_eq_true, decide_eq_true_eq] at hdigit
  have hlo : 48 ≤ c.toNat := hdigit.1
  have hhi : c.toNat ≤ 57 := hdigit.2
  exact ⟨hlo, hhi, by rw [UInt8.toNat_ofNat', Nat.mod_eq_of_lt (by omega)]⟩

theorem numText_byte {n : Nat} {b : UInt8} (h : b ∈ numText n) : b ≠ 0 ∧ b ≠ 0x2d := by
  obtain ⟨c, hc, rfl⟩ := List.mem_map.mp h
  obtain ⟨hlo, -, hbyte⟩ := toDigits_byte hc
  refine ⟨fun h0 => ?_, fun hsign => ?_⟩
  · rw [h0] at hbyte
    have hzero : (0 : UInt8).toNat = 0 := rfl
    omega
  · rw [hsign] at hbyte
    have hminus : (0x2d : UInt8).toNat = 45 := rfl
    omega

theorem numText_length_pos (n : Nat) : 0 < (numText n).length := by
  rw [numText, List.length_map]
  exact Nat.length_toDigits_pos

theorem numText_length_le {n k : Nat} (hk : 0 < k) : (numText n).length ≤ k ↔ n < 10 ^ k := by
  rw [numText, List.length_map]
  exact Nat.length_toDigits_le_iff (by decide) hk

theorem numText_chars (n : Nat) :
    (numText n).map (fun b => Char.ofNat b.toNat) = Nat.toDigits 10 n := by
  have hchar : ∀ c ∈ Nat.toDigits 10 n,
      ((fun b => Char.ofNat b.toNat) ∘ fun c : Char => UInt8.ofNat c.toNat) c = id c := by
    intro c hc
    show Char.ofNat (UInt8.ofNat c.toNat).toNat = c
    rw [(toDigits_byte hc).2.2, Char.ofNat_toNat]
  rw [numText, List.map_map, List.map_congr_left hchar, List.map_id]

theorem numText_inj {m n : Nat} (h : numText m = numText n) : m = n := by
  have hdigits : Nat.toDigits 10 m = Nat.toDigits 10 n := by
    rw [← numText_chars, h, numText_chars]
  rw [← Nat.ofDigitChars_ten_toDigits (n := m), hdigits, Nat.ofDigitChars_ten_toDigits]

/-- A sign is no digit. -/
theorem numText_ne_minus (m n : Nat) : numText m ≠ 0x2d :: numText n := fun h =>
  (numText_byte (h ▸ List.mem_cons_self : (0x2d : UInt8) ∈ numText m)).2 rfl

theorem intText_inj {u v : Int} (h : intText u = intText v) : u = v := by
  rw [intText, intText] at h
  split at h
  · split at h
    · have habs := numText_inj (List.cons.inj h).2
      omega
    · exact absurd h.symm (numText_ne_minus _ _)
  · split at h
    · exact absurd h (numText_ne_minus _ _)
    · have habs := numText_inj h
      omega

/-! ## The digits in `num` -/

/-- The digits are in front of `num[s]`. -/
def PutBefore (s : Nat) (text num : List UInt8) (r : Except TextFault (Nat × List UInt8)) : Prop :=
  ∃ num', r = .ok (s - text.length, num') ∧ num'.length = num.length ∧
    num'.drop (s - text.length) = text ++ num.drop s

/-- The digits are put in front of what is there, if there is room. -/
theorem numDigits_spec : ∀ {s : Nat} (ul : UInt64) {num : List UInt8}, s ≤ num.length →
    ((numText ul.toNat).length ≤ s → PutBefore s (numText ul.toNat) num (numDigits s ul num)) ∧
      (s < (numText ul.toNat).length → numDigits s ul num = .error .outside) := by
  intro s
  induction s with
  | zero =>
      exact fun _ _ _ => ⟨fun h => absurd h (Nat.not_le.mpr (numText_length_pos _)), fun _ => rfl⟩
  | succ s ih =>
      intro ul num hs
      have hput : putByte num s (digitChar (ul % 10).toNat) =
          .ok (num.set s (digitChar (ul.toNat % 10))) := by
        rw [putByte, if_pos (Nat.lt_of_succ_le hs), UInt64.toNat_mod]
        rfl
      have hdrop : (num.set s (digitChar (ul.toNat % 10))).drop s =
          digitChar (ul.toNat % 10) :: num.drop (s + 1) := by
        rw [List.drop_set, if_neg (Nat.lt_irrefl s), Nat.sub_self, List.drop_eq_getElem_cons hs,
          List.set_cons_zero]
      have hstep : numDigits (s + 1) ul num =
          if ul.toNat / 10 = 0 then .ok (s, num.set s (digitChar (ul.toNat % 10)))
          else numDigits s (ul / 10) (num.set s (digitChar (ul.toNat % 10))) := by
        have hzero : ul / 10 = 0 ↔ ul.toNat / 10 = 0 := by
          rw [← UInt64.toNat_inj, UInt64.toNat_div]
          rfl
        rw [numDigits, hput]
        exact if_congr hzero rfl rfl
      rw [hstep, numText_eq]
      by_cases hlast : ul.toNat / 10 = 0
      · rw [if_pos hlast, if_pos hlast, List.length_singleton]
        refine ⟨fun _ => ⟨_, rfl, List.length_set, hdrop⟩, fun h => absurd h (by omega)⟩
      · have hnext : s ≤ (num.set s (digitChar (ul.toNat % 10))).length := by
          rw [List.length_set]
          omega
        have hdiv : (ul / 10).toNat = ul.toNat / 10 := by
          rw [UInt64.toNat_div]
          rfl
        have hih := ih (ul / 10) hnext
        rw [hdiv] at hih
        rw [if_neg hlast, if_neg hlast, List.length_append, List.length_singleton]
        refine ⟨fun h => ?_, fun h => hih.2 (by omega)⟩
        obtain ⟨num', hrun, hlen, hdigits⟩ := hih.1 (by omega)
        have hplace : s + 1 - ((numText (ul.toNat / 10)).length + 1) =
            s - (numText (ul.toNat / 10)).length := by omega
        refine ⟨num', ?_, ?_, ?_⟩
        · rw [hrun, List.length_append, List.length_singleton, hplace]
        · rw [hlen, List.length_set]
        · rw [List.length_append, List.length_singleton, hplace, hdigits, hdrop, List.append_assoc,
            List.singleton_append]

/-! ## The copy -/

section Copy

variable {text : List UInt8} {size : Nat}

/-- A text and a NUL are copied behind what is there, if there is room. -/
theorem numCopy_spec (h0 : 0 ∉ text) (rest : List UInt8) : ∀ (pre : List UInt8) {post : List UInt8},
    text.length ≤ post.length → (size = 0 ∨ pre.length + text.length ≤ size) →
      numCopy size (text ++ 0 :: rest) pre.length (pre ++ post) =
        .ok (pre.length + text.length, pre ++ text ++ post.drop text.length) := by
  induction text with
  | nil =>
      intro pre post _ _
      rw [List.nil_append, numCopy, if_neg fun h => h.1 rfl, List.append_nil]
      rfl
  | cons c text ih =>
      intro pre post hpost hsize
      have hc : c ≠ 0 := fun h => h0 (h ▸ List.mem_cons_self ..)
      rw [List.length_cons] at hpost hsize
      cases post with
      | nil => exact absurd hpost (Nat.not_succ_le_zero _)
      | cons x post =>
          have hsize' : size = 0 ∨ (pre ++ [c]).length + text.length ≤ size := by
            rw [List.length_append, List.length_singleton]
            omega
          have hih := ih (fun h => h0 (List.mem_cons_of_mem c h)) (pre ++ [c])
            (Nat.le_of_succ_le_succ hpost) hsize'
          rw [List.length_append, List.length_singleton, List.append_assoc, List.singleton_append]
            at hih
          rw [List.cons_append, numCopy, if_pos ⟨hc, by omega⟩, putByte_middle]
          show numCopy size (text ++ 0 :: rest) (pre.length + 1) (pre ++ c :: post) = _
          rw [hih, List.length_cons, Nat.add_assoc, Nat.add_comm 1]
          simp

end Copy

/-! ## What is printed -/

/-- The number that `Iprintf_decimal` takes a word for. -/
def printed (w : UInt64) (flag : PrintfFlag) : Int :=
  if flag = .unsigned then w.toNat else wordInt w

/-- The state of `num`: all calls leave the last byte alone. -/
structure NumReady (num : List UInt8) : Prop where
  length : num.length = 12
  last : num[11]? = some 0

/-- There is room for a text in the string, and below the bound. -/
structure TextRoom (str : List UInt8) (pos size : Nat) (text : List UInt8) : Prop where
  str : pos + text.length ≤ str.length
  size : size = 0 ∨ pos + text.length ≤ size

/-- The text is appended to the string, and `num` is as it should be again. -/
def Appends (str : List UInt8) (pos : Nat) (text : List UInt8)
    (r : Except TextFault IprintfOut) : Prop :=
  ∃ num, NumReady num ∧ r = .ok ⟨pos + text.length, num, blit str pos text⟩

section Printed

variable {num str : List UInt8} {pos size n : Nat} {w : UInt64} {flag : PrintfFlag}

/-- The digits of a number, in `num` and behind `pre`. -/
theorem numDigits_copy (hnum : NumReady num) {pre post : List UInt8}
    (hpost : (numText w.toNat).length ≤ post.length)
    (hsize : size = 0 ∨ pre.length + (numText w.toNat).length ≤ size) :
    ((numText w.toNat).length ≤ 11 → ∃ s num', numDigits 11 w num = .ok (s, num') ∧
      NumReady num' ∧ numCopy size (num'.drop s) pre.length (pre ++ post) =
        .ok (pre.length + (numText w.toNat).length,
          pre ++ numText w.toNat ++ post.drop (numText w.toNat).length)) ∧
      (11 < (numText w.toNat).length → numDigits 11 w num = .error .outside) := by
  have hle : 11 ≤ num.length := by
    rw [hnum.length]
    decide
  have hlast : num.drop 11 = [0] := by
    have hlt : 11 < num.length := by
      rw [hnum.length]
      decide
    have hzero := hnum.last
    rw [List.getElem?_eq_getElem hlt] at hzero
    rw [List.drop_eq_getElem_cons hlt, Option.some.inj hzero,
      List.drop_eq_nil_of_le (Nat.le_of_eq hnum.length)]
  obtain ⟨hok, herror⟩ := numDigits_spec w hle
  refine ⟨fun hfits => ?_, herror⟩
  obtain ⟨num', hrun, hlen, hdrop⟩ := hok hfits
  rw [hlast] at hdrop
  have hat := getElem?_drop_append hdrop
  rw [Nat.sub_add_cancel hfits] at hat
  refine ⟨_, num', hrun, ⟨hlen.trans hnum.length, hat⟩, ?_⟩
  have h0 : 0 ∉ numText w.toNat := fun h => (numText_byte h).1 rfl
  rw [hdrop, numCopy_spec h0 [] pre hpost hsize]

theorem blit_split {pre post text : List UInt8} :
    blit (pre ++ post) pre.length text = pre ++ text ++ post.drop text.length := by
  rw [blit, List.take_left, ← List.drop_drop, List.drop_left]

/-- The number without a sign, behind `pre`. -/
def appendDigits (num : List UInt8) (size : Nat) (w : UInt64) (len : Nat) (buf : List UInt8) :
    Except TextFault IprintfOut :=
  (numDigits 11 w num).bind fun r => (numCopy size (r.2.drop r.1) len buf).bind fun r' =>
    .ok ⟨r'.1, r.2, r'.2⟩

theorem iprintfDecimal_minus (h : flag ≠ .unsigned ∧ w &&& 0x80000000 ≠ 0) :
    iprintfDecimal num str pos size w flag = (putByte str pos 0x2d).bind
      (appendDigits num size (0x80000000 - (w &&& 0x7fffffff)) (pos + 1)) := by
  rw [iprintfDecimal, decide_eq_true h]
  rfl

theorem iprintfDecimal_plain (h : ¬ (flag ≠ .unsigned ∧ w &&& 0x80000000 ≠ 0)) :
    iprintfDecimal num str pos size w flag = appendDigits num size w pos str := by
  rw [iprintfDecimal, decide_eq_false h]
  rfl

theorem appendDigits_spec (hnum : NumReady num) (w : UInt64) {size : Nat} (pre post : List UInt8)
    (hpost : (numText w.toNat).length ≤ post.length)
    (hsize : size = 0 ∨ pre.length + (numText w.toNat).length ≤ size) :
    (w.toNat < 100000000000 → ∃ num', NumReady num' ∧
      appendDigits num size w pre.length (pre ++ post) =
        .ok ⟨pre.length + (numText w.toNat).length, num',
          pre ++ numText w.toNat ++ post.drop (numText w.toNat).length⟩) ∧
      (100000000000 ≤ w.toNat →
        appendDigits num size w pre.length (pre ++ post) = .error .outside) := by
  have hdigits := @numText_length_le w.toNat 11 (by decide)
  obtain ⟨hok, herror⟩ := numDigits_copy hnum hpost hsize
  refine ⟨fun h => ?_, fun h => ?_⟩
  · obtain ⟨s, num', hrun, hready, hcopy⟩ := hok (hdigits.mpr h)
    refine ⟨num', hready, ?_⟩
    rw [appendDigits, hrun]
    show (numCopy size (num'.drop s) pre.length (pre ++ post)).bind _ = _
    rw [hcopy]
    rfl
  · rw [appendDigits, herror (Nat.not_le.mp fun hle => Nat.not_lt.mpr h (hdigits.mp hle))]
    rfl

/-- Below zero the lower half of a word has ten digits at most. -/
theorem wordInt_small (w : UInt64) (h : wordInt w < 0) : (wordInt w).natAbs < 100000000000 := by
  rw [wordInt] at h ⊢
  generalize w.toNat = n at h ⊢
  split at h
  · omega
  · next hhigh =>
      rw [if_neg hhigh]
      omega

/-- A number below zero: its sign, and its digits behind it. -/
theorem appends_minus (hnum : NumReady num)
    (hminus : flag ≠ .unsigned ∧ w &&& 0x80000000 ≠ 0)
    (hroom : TextRoom str pos size (intText (wordInt w))) :
    Appends str pos (intText (wordInt w)) (iprintfDecimal num str pos size w flag) := by
  obtain ⟨pre, post, rfl, rfl⟩ : ∃ pre post, str = pre ++ post ∧ pos = pre.length := by
    refine ⟨str.take pos, str.drop pos, (List.take_append_drop pos str).symm, ?_⟩
    have hstr := hroom.str
    rw [List.length_take]
    omega
  obtain ⟨hstr, hsize⟩ := hroom
  obtain ⟨hmagnitude, hneg⟩ := sign_magnitude hminus.2
  have hsmall := wordInt_small w hneg
  have hrun : iprintfDecimal num (pre ++ post) pre.length size w flag =
      (putByte (pre ++ post) pre.length 0x2d).bind
        (appendDigits num size (0x80000000 - (w &&& 0x7fffffff)) (pre.length + 1)) :=
    iprintfDecimal_minus hminus
  generalize (0x80000000 - (w &&& 0x7fffffff)) = u at hmagnitude hrun
  have htext : intText (wordInt w) = 0x2d :: numText u.toNat := by
    rw [intText, if_pos hneg, hmagnitude]
  rw [htext, List.length_cons] at hstr hsize
  rw [htext, hrun]
  rw [List.length_append] at hstr
  cases post with
  | nil => exact absurd hstr (by rw [List.length_nil]; omega)
  | cons x post =>
      rw [List.length_cons] at hstr
      rw [← hmagnitude] at hsmall
      have hsize' : size = 0 ∨ (pre ++ [0x2d]).length + (numText u.toNat).length ≤ size := by
        rw [List.length_append, List.length_singleton]
        omega
      obtain ⟨num', hready, hdigits⟩ :=
        (appendDigits_spec hnum u (pre ++ [0x2d]) post (by omega) hsize').1 hsmall
      rw [List.length_append, List.length_singleton, List.append_assoc, List.singleton_append]
        at hdigits
      refine ⟨num', hready, ?_⟩
      rw [putByte_middle, blit_split]
      show appendDigits num size u (pre.length + 1) (pre ++ 0x2d :: post) = _
      have hlen : pre.length + 1 + (numText u.toNat).length =
          pre.length + (0x2d :: numText u.toNat).length := by
        rw [List.length_cons, Nat.add_right_comm, Nat.add_assoc]
      rw [hdigits, hlen, List.length_cons, List.drop_succ_cons, List.append_assoc pre,
        List.singleton_append]

theorem printed_plain (hminus : ¬ (flag ≠ .unsigned ∧ w &&& 0x80000000 ≠ 0)) :
    printed w flag = w.toNat := by
  rw [printed]
  split
  · rfl
  · next hflag =>
      have hsign := mt (and_sign_ne_zero w).mpr fun h => hminus ⟨hflag, h⟩
      rw [wordInt, if_pos (Nat.not_le.mp hsign)]

/-- A number of at most eleven digits is appended, and one of more leaves `num`. -/
theorem iprintfDecimal_spec (hnum : NumReady num)
    (hroom : TextRoom str pos size (intText (printed w flag))) :
    (printed w flag < 100000000000 →
      Appends str pos (intText (printed w flag)) (iprintfDecimal num str pos size w flag)) ∧
      (100000000000 ≤ printed w flag →
        iprintfDecimal num str pos size w flag = .error .outside) := by
  by_cases hminus : flag ≠ .unsigned ∧ w &&& 0x80000000 ≠ 0
  · have hprinted : printed w flag = wordInt w := if_neg hminus.1
    have hneg := (sign_magnitude hminus.2).2
    rw [hprinted] at hroom ⊢
    exact ⟨fun _ => appends_minus hnum hminus hroom, fun h => absurd h (by omega)⟩
  · have htext : intText (w.toNat : Int) = numText w.toNat := by
      rw [intText, if_neg (Int.not_lt.mpr (Int.natCast_nonneg _)), Int.natAbs_natCast]
    rw [printed_plain hminus, htext] at hroom ⊢
    rw [iprintfDecimal_plain hminus]
    obtain ⟨pre, post, rfl, rfl⟩ : ∃ pre post, str = pre ++ post ∧ pos = pre.length := by
      refine ⟨str.take pos, str.drop pos, (List.take_append_drop pos str).symm, ?_⟩
      have hstr := hroom.str
      rw [List.length_take]
      omega
    obtain ⟨hstr, hsize⟩ := hroom
    rw [List.length_append] at hstr
    obtain ⟨hok, herror⟩ := appendDigits_spec hnum w pre post (Nat.le_of_add_le_add_left hstr) hsize
    refine ⟨fun h => ?_, fun h => herror (by omega)⟩
    obtain ⟨num', hready, hrun⟩ := hok (by omega)
    exact ⟨num', hready, by rw [hrun, blit_split]⟩

end Printed

/-! ## Numbers that are passed -/

/-- How a number comes to `Iprintf_decimal`: an `int` is extended to a word in one
way or the other, an `unsigned` with zeros, and a `time_t` is a word. -/
inductive DecimalArg : PrintfFlag → Int → UInt64 → Prop
  | int {flag : PrintfFlag} {v : Int} {w : UInt64} (hflag : flag ≠ .unsigned)
      (hlo : -2147483648 ≤ v) (hhi : v < 2147483648)
      (hw : (w.toNat : Int) = v % 4294967296 ∨ (w.toNat : Int) = v % 18446744073709551616) :
      DecimalArg flag v w
  | unsigned {v : Int} {w : UInt64} (hlo : 0 ≤ v) (hhi : v < 4294967296)
      (hw : (w.toNat : Int) = v) :
      DecimalArg .unsigned v w
  | time {flag : PrintfFlag} {v : Int} {w : UInt64} (hlo : -9223372036854775808 ≤ v)
      (hhi : v < 9223372036854775808) (hw : (w.toNat : Int) = v % 18446744073709551616) :
      DecimalArg flag v w

/-- With room for it, the number is appended in decimal, and `num` is not left. -/
def DecimalExact (flag : PrintfFlag) (v : Int) (w : UInt64) : Prop :=
  ∀ num str pos size, NumReady num → TextRoom str pos size (intText v) →
    Appends str pos (intText v) (iprintfDecimal num str pos size w flag)

/-- A number below zero has 32 bits and is not printed as an unsigned one; another
one has eleven digits at most, and bit 31 is clear unless it is unsigned. -/
def DecimalFits (flag : PrintfFlag) (v : Int) : Prop :=
  if flag = .unsigned then 0 ≤ v ∧ v < 100000000000
  else (-2147483648 ≤ v ∧ v < 0) ∨ (0 ≤ v ∧ v < 100000000000 ∧ v / 2147483648 % 2 = 0)

section Exact

variable {flag : PrintfFlag} {v : Int} {w : UInt64}

/-- The text is right if it is the number's own and has eleven digits at most. -/
theorem decimalExact_printed :
    DecimalExact flag v w ↔ printed w flag = v ∧ printed w flag < 100000000000 := by
  constructor
  · intro h
    have hready : NumReady (List.replicate 12 0) := ⟨rfl, rfl⟩
    let size := (intText v).length + (intText (printed w flag)).length
    have hroom : TextRoom (List.replicate size 0) 0 0 (intText v) :=
      ⟨by rw [List.length_replicate]; omega, .inl rfl⟩
    have hroom' : TextRoom (List.replicate size 0) 0 0 (intText (printed w flag)) :=
      ⟨by rw [List.length_replicate]; omega, .inl rfl⟩
    obtain ⟨num, -, hrun⟩ := h _ _ _ _ hready hroom
    obtain ⟨hok, herror⟩ := iprintfDecimal_spec hready hroom'
    have hlt : printed w flag < 100000000000 := by
      by_contra hge
      rw [herror (Int.not_lt.mp hge)] at hrun
      cases hrun
    obtain ⟨num', -, hrun'⟩ := hok hlt
    have hout := Except.ok.inj (hrun'.symm.trans hrun)
    have hlen : (intText (printed w flag)).length = (intText v).length := by
      simpa using congrArg IprintfOut.len hout
    have hbuf : blit (List.replicate size 0) 0 (intText (printed w flag)) =
        blit (List.replicate size 0) 0 (intText v) := congrArg IprintfOut.buf hout
    rw [blit, blit, List.take_zero, List.nil_append, List.nil_append] at hbuf
    exact ⟨intText_inj (List.append_inj_left hbuf hlen), hlt⟩
  · rintro ⟨rfl, hlt⟩ num str pos size hnum hroom
    exact (iprintfDecimal_spec hnum hroom).1 hlt

/-- When a number is printed as it is. -/
theorem decimalExact_iff (h : DecimalArg flag v w) :
    DecimalExact flag v w ↔ DecimalFits flag v := by
  rw [decimalExact_printed, printed, DecimalFits]
  cases h with
  | int hflag hlo hhi hw =>
      rw [if_neg hflag, if_neg hflag, wordInt]
      generalize w.toNat = n at hw ⊢
      rcases hw with hw | hw
      · split
        · omega
        · omega
      · split
        · omega
        · omega
  | unsigned hlo hhi hw =>
      rw [if_pos rfl, if_pos rfl, hw]
      omega
  | time hlo hhi hw =>
      by_cases hflag : flag = .unsigned
      · rw [if_pos hflag, if_pos hflag, hw]
        omega
      · rw [if_neg hflag, if_neg hflag, wordInt]
        generalize w.toNat = n at hw ⊢
        split
        · omega
        · omega

/-- The most negative `int`. -/
theorem decimalExact_int_min : DecimalExact .none (-2147483648) 0x80000000 :=
  (decimalExact_iff (.int (by decide) (by decide) (by decide) (.inl (by decide)))).mpr
    (.inl (by decide))

/-- A `time_t` of twelve digits, with the array that `%T` writes it to; and one with
bit 31 set, as `%ld` prints it. -/
theorem decimal_time : ¬ DecimalExact .unsigned 100000000000 100000000000 ∧
    ¬ DecimalExact .none 2147483648 2147483648 := by
  have hready : NumReady (List.replicate 12 0) := ⟨rfl, rfl⟩
  constructor
  · intro h
    obtain ⟨num, -, hrun⟩ := h (List.replicate 12 0) (List.replicate 12 0) 0 0 hready
      ⟨by decide, .inl rfl⟩
    have herror : iprintfDecimal (List.replicate 12 0) (List.replicate 12 0) 0 0 100000000000
        .unsigned = .error .outside := by decide
    cases herror.symm.trans hrun
  · intro h
    obtain ⟨num, -, hrun⟩ := h (List.replicate 12 0) (List.replicate 12 0) 0 0 hready
      ⟨by decide, .inl rfl⟩
    have hminus : (iprintfDecimal (List.replicate 12 0) (List.replicate 12 0) 0 0 2147483648
        .none).map IprintfOut.len = .ok 11 := by decide
    have hplain : (intText 2147483648).length = 10 := by decide
    rw [hrun] at hminus
    cases hplain.symm.trans ((Nat.zero_add _).symm.trans (Except.ok.inj hminus))

end Exact

end TrIrcd
