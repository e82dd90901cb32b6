import Mathlib.Data.Nat.Bitwise
import Mathlib.Data.Nat.Log
import TrIrcd.Proofs.FormatBounds
import TrIrcd.Proofs.SjoinBurst

/-!
# The arrays of the mode parameters

`channel_modes` writes a parameter, with a space in front, into an array of its
own and appends it to `pbuf`. The array of a key has `KEYLEN + 1` bytes and that
of a link `CHANNELLEN + 1`, so with the space the longest ones do not fit; nor
do numbers of more than 7 characters or pairs of more than 17. What is printed
is as long as the number is in decimal (`printfDecimal_length`), and the texts
are written from the front of the arrays, so all of it is inside exactly if the
parameters are short (`channelModes_buffers_iff`).

`mbuf` has room for any mode table. `pbuf` has not: many letters may take a
parameter, so how long these are together is part of the condition.
-/

namespace TrIrcd

open TrIrcd.Lib

/-! ## Numbers in decimal -/

/-- The number in a word that an `int` was passed in. -/
def wordInt (w : UInt64) : Int :=
  if w.toNat % 4294967296 < 2147483648 then w.toNat
  else (w.toNat % 4294967296 : Nat) - 4294967296

/-- How many characters a number takes. -/
def decimalWidth (n : Int) : Nat := Nat.log 10 n.natAbs + 1 + if n < 0 then 1 else 0

theorem loopDigits_length (fuel : Nat) :
    ∀ {n : Nat}, n < 10 ^ (fuel + 1) → (loopDigits 10 (fuel + 1) n).length = Nat.log 10 n + 1 := by
  induction fuel with
  | zero =>
      intro n hn
      have hdiv : n / 10 = 0 := by omega
      rw [loopDigits, if_pos hdiv, Nat.log_of_lt (by omega)]
      rfl
  | succ fuel ih =>
      intro n hn
      rw [loopDigits]
      split
      · next hdiv =>
          rw [Nat.log_of_lt (by omega)]
          rfl
      · next hdiv =>
          have hlt : n / 10 < 10 ^ (fuel + 1) :=
            Nat.div_lt_of_lt_mul (by rwa [Nat.pow_succ, Nat.mul_comm] at hn)
          rw [List.length_append, ih hlt, Nat.log_of_one_lt_of_le (by omega) (by omega : 10 ≤ n)]
          rfl

theorem digitChar_ne_zero {d : Nat} (hd : d < 10) : digitChar d ≠ 0 := by
  rw [digitChar, if_pos hd]
  intro h
  have hnat := congrArg UInt8.toNat h
  rw [UInt8.toNat_ofNat', Nat.mod_eq_of_lt (by omega)] at hnat
  simp at hnat

/-- The digits of a word, one for each power of ten. -/
theorem digits_text_length {n : Nat} (hn : n < 10 ^ 64) :
    (Segment.copy ((loopDigits 10 64 n).map digitChar)).text.length = Nat.log 10 n + 1 := by
  have hzero : 0 ∉ (loopDigits 10 64 n).map digitChar := by
    intro hmem
    obtain ⟨d, hd, hc⟩ := List.mem_map.mp hmem
    exact digitChar_ne_zero (loopDigits_lt (by decide) 64 hd) hc
  rw [Segment.text, cstr_of_notMem hzero, List.length_map, loopDigits_length 63 hn]

theorem and_sign_ne_zero (w : UInt64) :
    w &&& 0x80000000 ≠ 0 ↔ 2147483648 ≤ w.toNat % 4294967296 := by
  have hand : (w &&& 0x80000000).toNat = (w.toNat.testBit 31).toNat * 2 ^ 31 := by
    rw [UInt64.toNat_and]
    exact Nat.and_two_pow w.toNat 31
  rw [ne_eq, ← UInt64.toNat_inj, hand, Nat.testBit_eq_decide_div_mod_eq]
  by_cases hbit : w.toNat / 2 ^ 31 % 2 = 1
  · rw [decide_eq_true hbit]
    simp only [Bool.toNat_true, UInt64.toNat_zero]
    omega
  · rw [decide_eq_false hbit]
    simp only [Bool.toNat_false, UInt64.toNat_zero]
    omega

/-- Below zero it is the lower half of the word that is printed. -/
theorem sign_magnitude {w : UInt64} (hsign : w &&& 0x80000000 ≠ 0) :
    (0x80000000 - (w &&& 0x7fffffff)).toNat = (wordInt w).natAbs ∧ wordInt w < 0 := by
  have hge := (and_sign_ne_zero w).mp hsign
  have hlow : (w &&& 0x7fffffff).toNat = w.toNat % 2147483648 := by
    rw [UInt64.toNat_and]
    exact Nat.and_two_pow_sub_one_eq_mod w.toNat 31
  have hle : w &&& 0x7fffffff ≤ 0x80000000 := by
    rw [UInt64.le_iff_toNat_le, hlow]
    exact (Nat.mod_lt _ (by omega)).le
  have h31 : (0x80000000 : UInt64).toNat = 2147483648 := rfl
  rw [UInt64.toNat_sub_of_le _ _ hle, hlow, h31, wordInt, if_neg (Nat.not_lt.mpr hge)]
  omega

/-- What `%d` makes of an `int` is as long as the number is. -/
theorem printfDecimal_length (w : UInt64) :
    ((printfDecimal w .none).flatMap Segment.text).length = decimalWidth (wordInt w) := by
  have hlt : w.toNat < 18446744073709551616 := w.toNat_lt
  have hpow : (18446744073709551616 : Nat) < 10 ^ 64 := by decide
  by_cases hsign : w &&& 0x80000000 ≠ 0
  · obtain ⟨hmagnitude, hneg⟩ := sign_magnitude hsign
    have htext : printfDecimal w .none = [.put 0x2d, .copy
        ((loopDigits 10 64 (0x80000000 - (w &&& 0x7fffffff)).toNat).map digitChar)] :=
      if_pos ⟨PrintfFlag.noConfusion, hsign⟩
    have hdigits := digits_text_length ((UInt64.toNat_lt _).trans hpow
      : (0x80000000 - (w &&& 0x7fffffff)).toNat < 10 ^ 64)
    rw [htext, List.flatMap_cons, List.flatMap_singleton, List.length_append, hdigits, hmagnitude,
      decimalWidth, if_pos hneg]
    exact Nat.add_comm _ _
  · have hpos : wordInt w = w.toNat := by
      rw [and_sign_ne_zero] at hsign
      rw [wordInt, if_pos (by omega)]
    have htext : printfDecimal w .none = [.copy ((loopDigits 10 64 w.toNat).map digitChar)] :=
      if_neg fun h => hsign h.2
    have hnonneg : ¬ ((w.toNat : Int) < 0) := by omega
    rw [htext, List.flatMap_singleton, digits_text_length (hlt.trans hpow), hpos, decimalWidth,
      if_neg hnonneg]
    rfl

/-! ## The calls -/

section Formats

variable (E : PrintfEnv)

theorem formatText_number (w : UInt64) :
    E.formatText (textBytes " %d") [.word w] =
      some (0x20 :: (printfDecimal w .none).flatMap Segment.text) := by
  have hpieces : ∀ hide, printfPieces hide none (textBytes " %d") =
      some [.literal 0x20, .spec .decimal .none] := by decide
  have hsegs : E.segments [.literal 0x20, .spec .decimal .none] [.word w] =
      some (.put 0x20 :: printfDecimal w .none) := by
    simp [PrintfEnv.segments, PrintfEnv.spec]
  exact formatText_of_segments (hpieces E.serverHide) hsegs

theorem formatText_string (s : List UInt8) :
    E.formatText (textBytes " %s") [.string (some s)] = some (0x20 :: cstr s) := by
  have hpieces : ∀ hide, printfPieces hide none (textBytes " %s") =
      some [.literal 0x20, .spec .string .none] := by decide
  have hsegs : E.segments [.literal 0x20, .spec .string .none] [.string (some s)] =
      some [.put 0x20, .copy s] := by
    simp [PrintfEnv.segments, PrintfEnv.spec]
  rw [formatText_of_segments (hpieces E.serverHide) hsegs]
  simp [Segment.text]

theorem formatText_pair (w v : UInt64) :
    E.formatText (textBytes " %d:%d") [.word w, .word v] =
      some (0x20 :: ((printfDecimal w .none).flatMap Segment.text ++
        0x3a :: (printfDecimal v .none).flatMap Segment.text)) := by
  have hpieces : ∀ hide, printfPieces hide none (textBytes " %d:%d") =
      some [.literal 0x20, .spec .decimal .none, .literal 0x3a, .spec .decimal .none] := by
    decide
  have hsegs : E.segments [.literal 0x20, .spec .decimal .none, .literal 0x3a,
      .spec .decimal .none] [.word w, .word v] =
      some (.put 0x20 :: (printfDecimal w .none ++ .put 0x3a :: printfDecimal v .none)) := by
    simp [PrintfEnv.segments, PrintfEnv.spec]
  rw [formatText_of_segments (hpieces E.serverHide) hsegs]
  simp [Segment.text]

end Formats

/-! ## The arrays -/

inductive ParamKind
  | num | str | dbl | chn
deriving DecidableEq

/-- Which parameter a mode with these flags takes. -/
def paramKind (flags : Nat) : Option ParamKind :=
  if flags &&& mflgParamNum ≠ 0 then some .num
  else if flags &&& mflgParamStr ≠ 0 then some .str
  else if flags &&& mflgParamDbl ≠ 0 then some .dbl
  else if flags &&& mflgParamChn ≠ 0 then some .chn
  else none

/-- The space in front, and the colon of a pair. -/
def ParamKind.marks : ParamKind → Nat
  | .dbl => 2
  | _ => 1

/-- What the array has room for beside these and the NUL. -/
def ParamKind.room : ParamKind → Nat
  | .num => 7
  | .str => 22
  | .dbl => 17
  | .chn => 31

/-- How many characters a parameter has. -/
def SMode.width (mode : SMode) (i : Nat) : ParamKind → Nat
  | .num => decimalWidth (wordInt (if i = 0x6c then mode.limit else mode.joindelay))
  | .str => (cstr mode.key).length
  | .dbl => decimalWidth (wordInt mode.lines) + decimalWidth (wordInt mode.intime)
  | .chn => (cstr mode.link).length

/-- How long the parameters are together. -/
def paramTotal (modetab : Nat → ChanMode) (mode : SMode) : Nat :=
  ((shownModes modetab mode).map fun i =>
    (paramKind (modetab i).flags).elim 0 fun kind => kind.marks + mode.width i kind).sum

/-- Every parameter has room, and all together have. -/
structure ParamsShort (modetab : Nat → ChanMode) (mode : SMode) : Prop where
  each : ∀ i ∈ shownModes modetab mode, ∀ kind ∈ paramKind (modetab i).flags,
    mode.width i kind ≤ kind.room
  all : paramTotal modetab mode < realModeBufLen

/-- A call, and the text that it is about. -/
structure CallText (E : PrintfEnv) (mode : SMode) (i : Nat) (kind : ParamKind) (call : ParamCall)
    (text : List UInt8) : Prop where
  formatted : E.formatText (textBytes call.format) call.args = some text
  length : text.length = kind.marks + mode.width i kind
  size : call.size = kind.marks + kind.room + 1

section Calls

variable (E : PrintfEnv) (modetab : Nat → ChanMode) (mode : SMode) (i : Nat)

/-- A mode takes no parameter, or there is a call for it. -/
theorem SMode.paramCall_cases (flags : Nat) :
    (mode.paramCall i flags = none ∧ paramKind flags = none ∧ mode.param E i flags = []) ∨
      ∃ kind call text, mode.paramCall i flags = some call ∧ paramKind flags = some kind ∧
        mode.param E i flags = text ∧ CallText E mode i kind call text := by
  simp only [SMode.paramCall, paramKind, SMode.param]
  split
  · have htext := formatText_number E (if i = 0x6c then mode.limit else mode.joindelay)
    refine .inr ⟨_, _, _, rfl, rfl, text_of_formatText htext, htext, ?_, rfl⟩
    rw [List.length_cons, printfDecimal_length]
    exact Nat.add_comm _ _
  · split
    · have htext := formatText_string E mode.key
      exact .inr ⟨_, _, _, rfl, rfl, text_of_formatText htext, htext, Nat.add_comm _ _, rfl⟩
    · split
      · have htext := formatText_pair E mode.lines mode.intime
        refine .inr ⟨_, _, _, rfl, rfl, text_of_formatText htext, htext, ?_, rfl⟩
        simp only [List.length_cons, List.length_append, printfDecimal_length, ParamKind.marks,
          SMode.width]
        omega
      · split
        · have htext := formatText_string E mode.link
          exact .inr ⟨_, _, _, rfl, rfl, text_of_formatText htext, htext, Nat.add_comm _ _, rfl⟩
        · exact .inl ⟨rfl, rfl, rfl⟩

variable {E mode i}

/-- All of a text is in the array if the parameter has room. -/
theorem CallText.inside_iff {kind : ParamKind} {call : ParamCall} {text : List UInt8}
    (h : CallText E mode i kind call text) :
    (∃ len written, E.ircsprintf (textBytes call.format) call.args = some (len, written) ∧
        ∀ p ∈ written, p.1 < call.size) ↔ mode.width i kind ≤ kind.room := by
  have hwrites : (∀ p ∈ writeFrom 0 (text ++ [0]), p.1 < call.size) ↔
      mode.width i kind ≤ kind.room := by
    rw [h.size]
    simp only [Nat.lt_succ_iff]
    rw [writeFrom_terminated_le, h.length, Nat.add_le_add_iff_left]
  rw [ircsprintf_text, h.formatted, ← hwrites]
  constructor
  · rintro ⟨len, written, heq, hlt⟩
    cases heq
    exact hlt
  · exact fun hlt => ⟨_, _, rfl, hlt⟩

theorem param_length (flags : Nat) :
    (mode.param E i flags).length =
      (paramKind flags).elim 0 fun kind => kind.marks + mode.width i kind := by
  rcases SMode.paramCall_cases E mode i flags with ⟨-, hkind, hparam⟩ | ⟨_, _, _, -, hkind, hparam, h⟩
  · rw [hkind, hparam]
    rfl
  · rw [hkind, hparam, h.length]
    rfl

theorem modeTexts_mbuf_length (privileged : Bool) :
    (modeTexts E modetab privileged mode).1.length < realModeBufLen := by
  have hle : (shownModes modetab mode).length ≤ (List.range 128).length :=
    List.length_filter_le _ _
  have hlen : (modeTexts E modetab privileged mode).1.length =
      (shownModes modetab mode).length + 1 := by
    rw [modeTexts, List.length_cons, List.length_map]
  rw [List.length_range] at hle
  rw [hlen, realModeBufLen]
  omega

theorem modeTexts_pbuf_length :
    (modeTexts E modetab true mode).2.length = paramTotal modetab mode := by
  rw [modeTexts, if_pos rfl, List.length_flatMap, paramTotal]
  simp only [param_length]

variable {modetab}

theorem BuffersFit.short (h : BuffersFit E modetab true mode) : ParamsShort modetab mode where
  each i hi kind hkind := by
    rcases SMode.paramCall_cases E mode i (modetab i).flags with
      ⟨-, hnone, -⟩ | ⟨kind', call, _, hcall, hkind', -, htext⟩
    · rw [hnone] at hkind
      cases hkind
    · obtain rfl : kind' = kind := Option.some.inj (hkind'.symm.trans hkind)
      exact htext.inside_iff.mp (h.inside rfl i hi call hcall)
  all := by
    rw [← modeTexts_pbuf_length (E := E)]
    exact h.pbuf

theorem ParamsShort.inside (h : ParamsShort modetab mode) (hi : i ∈ shownModes modetab mode)
    {call : ParamCall} (hcall : mode.paramCall i (modetab i).flags = some call) :
    ∃ len written, E.ircsprintf (textBytes call.format) call.args = some (len, written) ∧
      ∀ p ∈ written, p.1 < call.size := by
  rcases SMode.paramCall_cases E mode i (modetab i).flags with
    ⟨hnone, -⟩ | ⟨kind, call', _, hcall', hkind, -, htext⟩
  · rw [hnone] at hcall
    cases hcall
  · obtain rfl : call' = call := Option.some.inj (hcall'.symm.trans hcall)
    exact htext.inside_iff.mpr (h.each i hi kind hkind)

end Calls

/-- What `channel_modes` writes is inside of all the arrays just when the parameters are
short, or the client does not see them. -/
theorem channelModes_buffers_iff (E : PrintfEnv) (modetab : Nat → ChanMode) (privileged : Bool)
    (mode : SMode) :
    BuffersFit E modetab privileged mode ↔ (privileged = true → ParamsShort modetab mode) := by
  constructor
  · rintro h rfl
    exact h.short
  · intro h
    refine ⟨fun hp i hi call hcall => (h hp).inside hi hcall,
      modeTexts_mbuf_length modetab privileged, ?_⟩
    cases privileged with
    | true =>
        rw [modeTexts_pbuf_length]
        exact (h rfl).all
    | false => exact (by decide : 0 < realModeBufLen)

/-- A limit of 10000000, in a table with `l`. -/
def longLimit : SMode := ⟨1, 10000000, [], 0, 0, [], 0⟩

def limitTable (i : Nat) : ChanMode := if i = 0x6c then ⟨1, true, mflgParamNum⟩ else ⟨0, false, 0⟩

/-- It is one digit too long. -/
theorem channelModes_overruns :
    ¬ ∀ (E : PrintfEnv) (modetab : Nat → ChanMode) (privileged : Bool) (mode : SMode),
      ((List.range 128).filter fun i => (modetab i).inUse).length ≤ 60 →
      mode.key.length ≤ keyLen → mode.link.length ≤ channelLen →
      (∀ w ∈ [mode.limit, mode.joindelay, mode.lines, mode.intime], w.toNat < UInt32.size) →
      BuffersFit E modetab privileged mode := by
  intro h
  have hfits := h ⟨false, fun _ => 0, fun _ => 0⟩ limitTable true longLimit
    (by decide) (by decide) (by decide) (by simp [longLimit, UInt32.size])
  exact absurd (hfits.short.each 0x6c (by decide) .num rfl) (by decide)

end TrIrcd
