import Mathlib.Algebra.Ring.Nat
import TrIrcd.Src.Ircsprintf
import TrIrcd.Src.Textedit

/-!
# Where formatted text is written

Whatever the pieces of a format are, `Iprintf` writes from the front without a
gap, and the NUL behind what it has written. A string stops at the bound, and a
character does not; neither takes the length back. So the last index that is
written is the length, which is below the bound exactly if the whole text is
shorter than the bound (`ircsnprintf_bounds_iff`). Where it is not, there is no
room for the NUL at best.
-/

namespace TrIrcd

open TrIrcd.Lib

/-! ## Without a bound -/

theorem mem_writeFrom {len : Nat} {s : List UInt8} {p : Nat × UInt8} (h : p ∈ writeFrom len s) :
    len ≤ p.1 ∧ p.1 < len + s.length := by
  obtain ⟨q, hq, rfl⟩ := List.mem_map.mp h
  obtain ⟨hle, hlt, -⟩ := List.mem_zipIdx hq
  exact ⟨hle, hlt⟩

theorem writeFrom_append (len : Nat) (s t : List UInt8) :
    writeFrom len (s ++ t) = writeFrom len s ++ writeFrom (len + s.length) t := by
  simp [writeFrom, List.zipIdx_append]

/-- The last index is that of the NUL. -/
theorem writeFrom_terminated_le {s : List UInt8} {n : Nat} :
    (∀ p ∈ writeFrom 0 (s ++ [0]), p.1 ≤ n) ↔ s.length ≤ n := by
  constructor
  · intro h
    have hlast : (s.length, (0 : UInt8)) ∈ writeFrom 0 (s ++ [0]) := by
      rw [writeFrom_append, Nat.zero_add]
      exact List.mem_append_right _ List.mem_cons_self
    exact h _ hlast
  · intro h p hp
    have hlt := (mem_writeFrom hp).2
    simp only [List.length_append, List.length_singleton] at hlt
    omega

/-- The text, byte by byte. -/
theorem writeSegments_unbounded (segs : List Segment) :
    ∀ len, writeSegments 0 len segs =
      (len + (segs.flatMap Segment.text).length, writeFrom len (segs.flatMap Segment.text)) := by
  induction segs with
  | nil => exact fun len => rfl
  | cons seg segs ih =>
      intro len
      have hseg : seg.write 0 len = (len + seg.text.length, writeFrom len seg.text) := by
        cases seg with
        | put c => rfl
        | copy s => rfl
      rw [writeSegments, hseg]
      simp only
      rw [ih, List.flatMap_cons, List.length_append, writeFrom_append, Nat.add_assoc]

/-- Without a bound the whole text is written, and a NUL behind it. -/
theorem ircsprintf_text (E : PrintfEnv) (format : List UInt8) (args : List PrintfArg) :
    E.ircsprintf format args =
      (E.formatText format args).map fun text => (text.length, writeFrom 0 (text ++ [0])) := by
  rw [PrintfEnv.ircsprintf, PrintfEnv.iprintf, PrintfEnv.formatText, PrintfEnv.formatSegments]
  cases (printfPieces E.serverHide none format).bind fun pieces => E.segments pieces args with
  | none => rfl
  | some segs =>
      simp only [Option.map_some, writeSegments_unbounded, Nat.zero_add, writeFrom_append]
      rfl

/-! ## The text of a format -/

/-- A literal is the list of its characters, and that is cheaper to compute with. -/
theorem textBytes_ofList (l : List Char) :
    textBytes (String.ofList l) = l.map fun c => UInt8.ofNat c.toNat := by
  rw [textBytes, String.toList_ofList]

section Text

variable (E : PrintfEnv) {args : List PrintfArg}

theorem printfPieces_append (hide : Bool) {pre : List UInt8} (hpre : 0x25 ∉ pre)
    (format : List UInt8) : printfPieces hide none (pre ++ format) =
      (printfPieces hide none format).map (pre.map .literal ++ ·) := by
  induction pre with
  | nil => simp
  | cons c pre ih =>
      have hc : c ≠ 0x25 := fun heq => hpre (heq ▸ List.mem_cons_self)
      rw [List.cons_append, printfPieces, if_neg hc,
        ih fun hmem => hpre (List.mem_cons_of_mem _ hmem), Option.map_map]
      rfl

theorem segments_append (pre : List UInt8) (pieces : List PrintfPiece) :
    E.segments (pre.map .literal ++ pieces) args =
      (E.segments pieces args).map (pre.map .put ++ ·) := by
  induction pre with
  | nil => simp
  | cons c pre ih =>
      rw [List.map_cons, List.cons_append, PrintfEnv.segments, ih, Option.map_map]
      rfl

theorem flatMap_text_put (pre : List UInt8) : (pre.map Segment.put).flatMap Segment.text = pre := by
  induction pre with
  | nil => rfl
  | cons c pre ih => exact congrArg (c :: ·) ih

theorem formatText_nil : E.formatText [] args = some [] := rfl

/-- What stands before the first `%` is text. -/
theorem formatText_append {pre : List UInt8} (hpre : 0x25 ∉ pre) (format : List UInt8) :
    E.formatText (pre ++ format) args = (E.formatText format args).map (pre ++ ·) := by
  rw [PrintfEnv.formatText, PrintfEnv.formatText, PrintfEnv.formatSegments,
    PrintfEnv.formatSegments, printfPieces_append _ hpre]
  cases printfPieces E.serverHide none format with
  | none => rfl
  | some pieces =>
      simp only [Option.map_some, Option.bind_some, segments_append, Option.map_map]
      refine congrArg (Option.map · _) (funext fun segs => ?_)
      simp only [Function.comp_apply, List.flatMap_append, flatMap_text_put]

theorem formatText_plain {format : List UInt8} (h : 0x25 ∉ format) :
    E.formatText format args = some format := by
  have happend : E.formatText (format ++ []) args = (E.formatText [] args).map (format ++ ·) :=
    formatText_append E h []
  rwa [List.append_nil, formatText_nil, Option.map_some, List.append_nil] at happend

/-- A specifier whose pieces are known. -/
theorem formatText_spec (printfType : PrintfType) (flag : PrintfFlag) {arg : PrintfArg}
    {out : List Segment} {pre format : List UInt8}
    (hpieces : printfPieces E.serverHide none (pre ++ format) =
      (printfPieces E.serverHide none format).map (.spec printfType flag :: ·))
    (hout : E.spec printfType flag arg = some out) :
    E.formatText (pre ++ format) (arg :: args) =
      (E.formatText format args).map (out.flatMap Segment.text ++ ·) := by
  rw [PrintfEnv.formatText, PrintfEnv.formatText, PrintfEnv.formatSegments,
    PrintfEnv.formatSegments, hpieces]
  cases printfPieces E.serverHide none format with
  | none => rfl
  | some pieces =>
      simp only [Option.map_some, Option.bind_some, PrintfEnv.segments, hout, Option.map_map]
      refine congrArg (Option.map · _) (funext fun segs => ?_)
      exact List.flatMap_append

theorem formatText_percent_s (s : Option (List UInt8)) (format : List UInt8) :
    E.formatText (textBytes "%s" ++ format) (.string s :: args) =
      (E.formatText format args).map (cstr (s.getD (textBytes "<NULL>")) ++ ·) := by
  rw [formatText_spec E .string .none rfl rfl]
  simp [Segment.text]

/-- Anything but a string has no text for `%s`. -/
theorem formatText_percent_s_none {arg : PrintfArg} (harg : ∀ s, arg ≠ .string s)
    (format : List UInt8) : E.formatText (textBytes "%s" ++ format) (arg :: args) = none := by
  have hpieces : printfPieces E.serverHide none (textBytes "%s" ++ format) =
      (printfPieces E.serverHide none format).map (.spec .string .none :: ·) := rfl
  have hspec : E.spec .string .none arg = none := by
    cases arg with
    | string s => exact absurd rfl (harg s)
    | _ => rfl
  rw [PrintfEnv.formatText, PrintfEnv.formatSegments, hpieces]
  cases printfPieces E.serverHide none format with
  | none => rfl
  | some pieces => simp [PrintfEnv.segments, hspec]

theorem formatText_percent_s_nil (format : List UInt8) :
    E.formatText (textBytes "%s" ++ format) [] = none := by
  have hpieces : printfPieces E.serverHide none (textBytes "%s" ++ format) =
      (printfPieces E.serverHide none format).map (.spec .string .none :: ·) := rfl
  rw [PrintfEnv.formatText, PrintfEnv.formatSegments, hpieces]
  cases printfPieces E.serverHide none format with
  | none => rfl
  | some pieces => rfl

theorem loopDigits_length_le_fuel (base : Nat) :
    ∀ fuel n, (loopDigits base fuel n).length ≤ fuel := by
  intro fuel
  induction fuel with
  | zero => exact fun n => Nat.le_refl 0
  | succ fuel ih =>
      intro n
      rw [loopDigits]
      split
      · exact Nat.succ_le_succ (Nat.zero_le fuel)
      · rw [List.length_append]
        exact Nat.succ_le_succ (ih _)

/-- Digits, by the power of the base that they stay below. -/
theorem loopDigits_length_le (base fuel : Nat) :
    ∀ {n k : Nat}, n < base ^ (k + 1) → (loopDigits base fuel n).length ≤ k + 1 := by
  induction fuel with
  | zero => exact fun _ => Nat.zero_le _
  | succ fuel ih =>
      intro n k hn
      rw [loopDigits]
      split
      · exact Nat.succ_le_succ (Nat.zero_le k)
      · next hmore =>
          cases k with
          | zero => exact absurd (Nat.div_eq_of_lt (by rwa [Nat.zero_add, Nat.pow_one] at hn)) hmore
          | succ k =>
              have hdiv : n / base < base ^ (k + 1) :=
                Nat.div_lt_of_lt_mul (by rwa [Nat.pow_succ, Nat.mul_comm] at hn)
              rw [List.length_append, List.length_singleton]
              exact Nat.succ_le_succ (ih hdiv)

theorem loopDigits_lt {base : Nat} (hbase : 0 < base) (fuel : Nat) :
    ∀ {n d : Nat}, d ∈ loopDigits base fuel n → d < base := by
  induction fuel with
  | zero => exact fun h => absurd h List.not_mem_nil
  | succ fuel ih =>
      intro n d hd
      rw [loopDigits] at hd
      split at hd
      · rw [List.mem_singleton.mp hd]
        exact Nat.mod_lt _ hbase
      · rcases List.mem_append.mp hd with hd | hd
        · exact ih hd
        · rw [List.mem_singleton.mp hd]
          exact Nat.mod_lt _ hbase

/-- A number has no NUL in it, and not many digits. -/
theorem printfDecimal_text (w : UInt64) (flag : PrintfFlag) :
    0 ∉ (printfDecimal w flag).flatMap Segment.text ∧
      ((printfDecimal w flag).flatMap Segment.text).length ≤ 65 := by
  have hdigits : ∀ n, 0 ∉ (Segment.copy ((loopDigits 10 64 n).map digitChar)).text ∧
      (Segment.copy ((loopDigits 10 64 n).map digitChar)).text.length ≤ 64 := by
    intro n
    refine ⟨zero_notMem_cstr _, (cstr_length_le _).trans ?_⟩
    rw [List.length_map]
    exact loopDigits_length_le_fuel 10 64 n
  rw [printfDecimal]
  simp only
  split
  · obtain ⟨hzero, hlen⟩ := hdigits (0x80000000 - (w &&& 0x7fffffff)).toNat
    rw [List.flatMap_cons, List.flatMap_singleton]
    refine ⟨fun hmem => ?_, ?_⟩
    · rcases List.mem_append.mp hmem with hmem | hmem
      · exact absurd (List.mem_singleton.mp hmem) (by decide)
      · exact hzero hmem
    · rw [List.length_append, Segment.text, List.length_singleton]
      omega
  · obtain ⟨hzero, hlen⟩ := hdigits w.toNat
    rw [List.flatMap_singleton]
    exact ⟨hzero, hlen.trans (Nat.le_succ 64)⟩

end Text

/-! ## With a bound -/

variable {size : Nat}

/-- The length that is reached, and what is written below it. -/
theorem Segment.write_bounds (size len : Nat) (seg : Segment) :
    len ≤ (seg.write size len).1 ∧ ∀ p ∈ (seg.write size len).2, p.1 < (seg.write size len).1 := by
  cases seg with
  | put c => exact ⟨Nat.le_succ len, List.forall_mem_singleton.mpr (Nat.lt_succ_self len)⟩
  | copy s => exact ⟨Nat.le_add_right .., fun p hp => (mem_writeFrom hp).2⟩

theorem writeSegments_lt (size : Nat) (segs : List Segment) :
    ∀ len, len ≤ (writeSegments size len segs).1 ∧
      ∀ p ∈ (writeSegments size len segs).2, p.1 < (writeSegments size len segs).1 := by
  induction segs with
  | nil => exact fun len => ⟨Nat.le_refl len, by simp [writeSegments]⟩
  | cons seg segs ih =>
      intro len
      obtain ⟨hle, hseg⟩ := seg.write_bounds size len
      obtain ⟨hle', hrest⟩ := ih (seg.write size len).1
      rw [writeSegments]
      simp only
      refine ⟨hle.trans hle', List.forall_mem_append.mpr ⟨fun p hp => ?_, hrest⟩⟩
      exact Nat.lt_of_lt_of_le (hseg p hp) hle'

/-- A segment that is cut reaches the bound. -/
theorem Segment.write_reaches (hsize : 0 < size) (len more : Nat) (seg : Segment) :
    size ≤ (seg.write size len).1 + more ↔ size ≤ len + seg.text.length + more := by
  cases seg with
  | put c => exact Iff.rfl
  | copy s =>
      simp only [Segment.write, Segment.text, if_neg (Nat.ne_of_gt hsize), List.length_take]
      omega

theorem writeSegments_reaches (hsize : 0 < size) (segs : List Segment) :
    ∀ len, size ≤ (writeSegments size len segs).1 ↔
      size ≤ len + (segs.flatMap Segment.text).length := by
  induction segs with
  | nil => exact fun len => Iff.rfl
  | cons seg segs ih =>
      intro len
      rw [writeSegments]
      simp only
      rw [ih, seg.write_reaches hsize, List.flatMap_cons, List.length_append, Nat.add_assoc]

/-- A text that does not reach beyond the bound is written as without one. -/
theorem writeSegments_fits (hsize : 0 < size) (segs : List Segment) :
    ∀ len, len + (segs.flatMap Segment.text).length ≤ size →
      writeSegments size len segs = writeSegments 0 len segs := by
  induction segs with
  | nil => exact fun len _ => rfl
  | cons seg segs ih =>
      intro len h
      rw [List.flatMap_cons, List.length_append] at h
      have hseg : seg.write size len = seg.write 0 len := by
        cases seg with
        | put c => rfl
        | copy s =>
            have htake : (cstr s).take (size - len) = cstr s :=
              List.take_of_length_le (by rw [Segment.text] at h; omega)
            simp only [Segment.write, if_neg (Nat.ne_of_gt hsize), if_true, htake]
      have hlen : (seg.write 0 len).1 = len + seg.text.length := by
        cases seg with
        | put c => rfl
        | copy s => rfl
      rw [writeSegments, writeSegments, hseg]
      simp only
      rw [ih _ (by omega)]

/-- `ircsnprintf` of a text that is shorter than the bound. -/
theorem ircsnprintf_text {E : PrintfEnv} {format : List UInt8} {args : List PrintfArg}
    {text : List UInt8} (htext : E.formatText format args = some text) (h : text.length < size) :
    E.ircsnprintf size format args = some (text.length, writeFrom 0 (text ++ [0])) := by
  have hwhole : E.ircsprintf format args =
      some (text.length, writeFrom 0 (text ++ [0])) := by
    rw [ircsprintf_text, htext]
    rfl
  rw [PrintfEnv.formatText, PrintfEnv.formatSegments] at htext
  rw [← hwhole, PrintfEnv.ircsnprintf, PrintfEnv.ircsprintf, PrintfEnv.iprintf, PrintfEnv.iprintf]
  generalize (printfPieces E.serverHide none format).bind _ = segs at htext
  obtain ⟨segs, rfl, rfl⟩ := Option.map_eq_some_iff.mp htext
  simp only [Option.map_some]
  rw [writeSegments_fits (by omega) segs 0 (by omega)]

/-- `stealth_server` gets its text from `ircsnprintf`. -/
theorem stealthServer_eq (E : PrintfEnv) {name : List UInt8} (h : 0 ∉ name) :
    E.ircsnprintf hostLen (textBytes "*%s")
        [.string (if 0x2e ∈ name then some (name.dropWhile (· ≠ 0x2e)) else none)] =
      some ((stealthServer name).length, writeFrom 0 (stealthServer name ++ [0])) := by
  have hcstr : ∀ s : List UInt8, 0 ∉ s → cstr s = s := by
    intro s hs
    refine List.takeWhile_eq_self_iff.mpr fun c hc => decide_eq_true fun heq => hs (heq ▸ hc)
  have htail : cstr ((if 0x2e ∈ name then some (name.dropWhile (· ≠ 0x2e)) else none).getD
      (textBytes "<NULL>")) =
        if 0x2e ∈ name then name.dropWhile (· ≠ 0x2e) else textBytes "<NULL>" := by
    split
    · exact hcstr _ fun hz => h ((List.dropWhile_suffix _).subset hz)
    · decide
  have hpieces : printfPieces E.serverHide none (textBytes "*%s") =
      some [.literal 0x2a, .spec .string .none] := rfl
  have hsegs : ∀ tmp : Option (List UInt8),
      ((some [.literal 0x2a, .spec .string .none]).bind fun pieces =>
        E.segments pieces [.string tmp]) =
          some [.put 0x2a, .copy (tmp.getD (textBytes "<NULL>"))] := fun tmp => rfl
  rw [stealthServer, ← htail, PrintfEnv.ircsnprintf, PrintfEnv.iprintf, hpieces, hsegs,
    Option.map_some, writeFrom_append]
  generalize (if 0x2e ∈ name then some (name.dropWhile (· ≠ 0x2e)) else none).getD _ = tmp
  have hcopy : (Segment.copy tmp).write hostLen 1 =
      (1 + ((cstr tmp).take (hostLen - 1)).length,
        writeFrom 1 ((cstr tmp).take (hostLen - 1))) := rfl
  have hput : (Segment.put 0x2a).write hostLen 0 = (1, [(0, 0x2a)]) := rfl
  simp only [writeSegments, hput, hcopy, List.append_nil]
  rw [List.length_cons, Nat.add_comm 1, Nat.zero_add]
  rfl

theorem ircsnprintf_none {E : PrintfEnv} {format : List UInt8} {args : List PrintfArg}
    (h : E.formatText format args = none) : E.ircsnprintf size format args = none := by
  rw [PrintfEnv.formatText, Option.map_eq_none_iff, PrintfEnv.formatSegments] at h
  rw [PrintfEnv.ircsnprintf, PrintfEnv.iprintf, h]
  rfl

/-- Every byte that `ircsnprintf` writes is below the bound, the NUL included,
if and only if the whole text is shorter than the bound. -/
theorem ircsnprintf_bounds_iff (E : PrintfEnv) (size : Nat) (hsize : 0 < size)
    (format : List UInt8) (args : List PrintfArg) :
    (∀ r ∈ E.ircsnprintf size format args, ∀ p ∈ r.2, p.1 < size) ↔
      ∀ text ∈ E.formatText format args, text.length < size := by
  rw [PrintfEnv.ircsnprintf, PrintfEnv.iprintf, PrintfEnv.formatText, PrintfEnv.formatSegments]
  cases (printfPieces E.serverHide none format).bind fun pieces => E.segments pieces args with
  | none => simp
  | some segs =>
      have hlt := (writeSegments_lt size segs 0).2
      have hreach := writeSegments_reaches hsize segs 0
      simp only [Option.map_some, Option.mem_some_iff, forall_eq']
      generalize writeSegments size 0 segs = r at *
      rw [List.forall_mem_append, List.forall_mem_singleton]
      constructor
      · intro h
        have := h.2
        omega
      · intro h
        have hlast : r.1 < size := by omega
        exact ⟨fun p hp => (hlt p hp).trans hlast, hlast⟩

/-- `:%s %N %~C` for a bound of 32. -/
theorem ircsnprintf_bounds_reply :
    ∃ r, PrintfEnv.ircsnprintf ⟨false, fun _ => 0, fun _ => 0⟩ 32 (textBytes ":%s %N %~C")
        [.string (some (textBytes "irc.example")), .word 1,
          .client ⟨false, true, false, false, false, textBytes "emg", [], none⟩] = some r ∧
      ∀ p ∈ r.2, p.1 < 32 := by
  have hruns : (PrintfEnv.ircsnprintf ⟨false, fun _ => 0, fun _ => 0⟩ 32 (textBytes ":%s %N %~C")
      [.string (some (textBytes "irc.example")), .word 1,
        .client ⟨false, true, false, false, false, textBytes "emg", [], none⟩]).isSome := by
    rw [textBytes_ofList, textBytes_ofList, textBytes_ofList]
    decide +kernel
  have htext : (PrintfEnv.formatText ⟨false, fun _ => 0, fun _ => 0⟩ (textBytes ":%s %N %~C")
      [.string (some (textBytes "irc.example")), .word 1,
        .client ⟨false, true, false, false, false, textBytes "emg", [], none⟩]).map
      List.length = some 20 := by
    rw [textBytes_ofList, textBytes_ofList, textBytes_ofList]
    decide +kernel
  obtain ⟨r, hr⟩ := Option.isSome_iff_exists.mp hruns
  refine ⟨r, hr, (ircsnprintf_bounds_iff _ 32 (by decide) _ _).mpr (fun text hmem => ?_) r hr⟩
  rw [hmem, Option.map_some, Option.some.injEq] at htext
  omega

/-- A string of four characters for a bound of four: the NUL is written behind
it. -/
theorem ircsnprintf_overrun :
    PrintfEnv.ircsnprintf ⟨false, fun _ => 0, fun _ => 0⟩ 4 (textBytes "%s")
        [.string (some (textBytes "abcd"))] =
      some (4, [(0, 0x61), (1, 0x62), (2, 0x63), (3, 0x64), (4, 0)]) ∧
    ¬∀ r ∈ PrintfEnv.ircsnprintf ⟨false, fun _ => 0, fun _ => 0⟩ 4 (textBytes "%s")
        [.string (some (textBytes "abcd"))], ∀ p ∈ r.2, p.1 < 4 := by
  have hrun : PrintfEnv.ircsnprintf ⟨false, fun _ => 0, fun _ => 0⟩ 4 (textBytes "%s")
        [.string (some (textBytes "abcd"))] =
      some (4, [(0, 0x61), (1, 0x62), (2, 0x63), (3, 0x64), (4, 0)]) := by decide
  refine ⟨hrun, fun h => ?_⟩
  exact absurd (h _ hrun (4, 0) (by decide)) (by decide)

/-!
## What `strlcpy_irc` leaves in memory

As much of the string as it is told, and a NUL: in a buffer that has a byte more
than that, nothing is written outside (`storeAll_strlcpyIrc`).
-/

theorem strlcpyLoop_eq (n : Nat) : ∀ (i : Nat) (src : List UInt8),
    strlcpyLoop n i src = writeFrom i (cstr (src.take n) ++ [0]) := by
  induction n with
  | zero => exact fun i src => rfl
  | succ n ih =>
      intro i src
      cases src with
      | nil => rfl
      | cons c src =>
          have hloop : strlcpyLoop (n + 1) i (c :: src) =
              if c = 0 then [(i, 0)] else (i, c) :: strlcpyLoop n (i + 1) src := rfl
          rw [hloop, List.take_succ_cons]
          by_cases hc : c = 0
          · rw [if_pos hc, hc, cstr_cons_zero]
            rfl
          · rw [if_neg hc, ih, cstr_cons_of_ne hc]
            rfl

theorem strlcpyIrc_eq (src : List UInt8) (n : Nat) :
    strlcpyIrc src n = writeFrom 0 (cstr (src.take n) ++ [0]) := by
  rw [strlcpyIrc, strlcpyIrc2, if_neg (Nat.succ_ne_zero _), Nat.add_sub_cancel, strlcpyLoop_eq]

/-- With its own length a string is copied whole. -/
theorem strlcpyIrc_self {src : List UInt8} (h : cstr src = src) :
    strlcpyIrc src src.length = writeFrom 0 (src ++ [0]) := by
  rw [strlcpyIrc_eq, List.take_length, h]

theorem storeAll_strlcpyIrc {src mem : List UInt8} {n : Nat}
    (h : (cstr (src.take n)).length < mem.length) :
    storeAll (strlcpyIrc src n) mem = some (blit mem 0 (cstr (src.take n) ++ [0])) := by
  have hfits : 0 + (cstr (src.take n) ++ [0]).length ≤ mem.length := by
    rw [Nat.zero_add, List.length_append, List.length_singleton]
    exact h
  rw [strlcpyIrc_eq, writeFrom, storeAll_zipIdx _ hfits]

end TrIrcd
