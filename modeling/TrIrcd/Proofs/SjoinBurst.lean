import TrIrcd.Proofs.FormatBounds
import TrIrcd.Proofs.Framing
import TrIrcd.Proofs.PrefixParse
import TrIrcd.Proofs.StatusBurst

/-!
# The members in `SJOIN` lines

`send_channel_modes` sends a line as soon as it has become longer than
`BUFSIZE - 80`, and starts the next one with the member behind it. So the
members that are not anonymous go out in batches, none of which is empty
(`sjoinLoop_batches`), and a line is at most one member longer than the bound
(`sjoinLoop_length_le`).

The sender and the command are put in front of it later, and `send_message`
cuts what is longer than 511 bytes then. For the longest line there is room if
the name of the server is not longer than 35 bytes (`sendChannelModes_exact`).
Longer names are cut into (`sendChannelModes_cut`).
-/

namespace TrIrcd

open TrIrcd.Lib

/-! ## The headers -/

/-- The text of a time. -/
def timestampText (tsval : UInt64) : List UInt8 :=
  cstr ((loopDigits 10 64 tsval.toNat).map digitChar)

theorem timestampText_length_le (tsval : UInt64) : (timestampText tsval).length ≤ 20 := by
  have hlt : tsval.toNat < 10 ^ (19 + 1) := Nat.lt_trans tsval.toNat_lt (by decide)
  have hdigits := loopDigits_length_le 10 64 hlt
  refine (cstr_length_le _).trans ?_
  rwa [List.length_map]

section

variable (E : PrintfEnv) (ch : SjoinChannel)

theorem formatText_of_segments {E : PrintfEnv} {format : String} {args : List PrintfArg}
    {pieces : List PrintfPiece} {segs : List Segment}
    (hpieces : printfPieces E.serverHide none (textBytes format) = some pieces)
    (hsegs : E.segments pieces args = some segs) :
    E.formatText (textBytes format) args = some (segs.flatMap Segment.text) := by
  rw [PrintfEnv.formatText, PrintfEnv.formatSegments, hpieces, Option.bind_some, hsegs]
  rfl

theorem text_of_formatText {E : PrintfEnv} {format : String} {args : List PrintfArg}
    {text : List UInt8} (h : E.formatText (textBytes format) args = some text) :
    E.text format args = text := by
  rw [PrintfEnv.text, h]
  rfl

theorem text_of_segments {E : PrintfEnv} {format : String} {args : List PrintfArg}
    {pieces : List PrintfPiece} {segs : List Segment}
    (hpieces : printfPieces E.serverHide none (textBytes format) = some pieces)
    (hsegs : E.segments pieces args = some segs) :
    E.text format args = segs.flatMap Segment.text :=
  text_of_formatText (formatText_of_segments hpieces hsegs)

theorem printfDecimal_timestamp (tsval : UInt64) :
    (printfDecimal tsval .unsigned).flatMap Segment.text = timestampText tsval := by
  rw [printfDecimal]
  simp only [ne_eq, not_true_eq_false, false_and, if_false, List.flatMap_singleton]
  rfl

theorem firstHeader_eq (modebuf parabuf : List UInt8) :
    ch.firstHeader E modebuf parabuf =
      timestampText ch.tsval ++ 0x20 :: (cstr ch.chname ++ 0x20 ::
        (cstr modebuf ++ (cstr parabuf ++ [0x20, 0x3a]))) := by
  have hpieces : ∀ hide, printfPieces hide none (textBytes "%T %H %s%s :") =
      some [.spec .timestamp .none, .literal 0x20, .spec .channel .none, .literal 0x20,
        .spec .string .none, .spec .string .none, .literal 0x20, .literal 0x3a] := by
    decide +kernel
  have hsegs : E.segments [.spec .timestamp .none, .literal 0x20,
      .spec .channel .none, .literal 0x20, .spec .string .none, .spec .string .none,
      .literal 0x20, .literal 0x3a]
      [.timestamp ch.tsval, .channel ch.chname, .string (some modebuf), .string (some parabuf)] =
        some (printfDecimal ch.tsval .unsigned ++ [.put 0x20, .copy ch.chname, .put 0x20,
          .copy modebuf, .copy parabuf, .put 0x20, .put 0x3a]) := by
    simp [PrintfEnv.segments, PrintfEnv.spec]
  rw [SjoinChannel.firstHeader, text_of_segments (hpieces E.serverHide) hsegs, List.flatMap_append,
    printfDecimal_timestamp]
  simp [Segment.text]

theorem nextHeader_eq :
    ch.nextHeader E =
      timestampText ch.tsval ++ 0x20 :: (cstr ch.chname ++ [0x20, 0x30, 0x20, 0x3a]) := by
  have hpieces : ∀ hide, printfPieces hide none (textBytes "%T %H 0 :") =
      some [.spec .timestamp .none, .literal 0x20, .spec .channel .none, .literal 0x20,
        .literal 0x30, .literal 0x20, .literal 0x3a] := by
    decide +kernel
  have hsegs : E.segments [.spec .timestamp .none, .literal 0x20, .spec .channel .none,
      .literal 0x20, .literal 0x30, .literal 0x20, .literal 0x3a]
      [.timestamp ch.tsval, .channel ch.chname] =
        some (printfDecimal ch.tsval .unsigned ++ [.put 0x20, .copy ch.chname, .put 0x20,
          .put 0x30, .put 0x20, .put 0x3a]) := by
    simp [PrintfEnv.segments, PrintfEnv.spec]
  rw [SjoinChannel.nextHeader, text_of_segments (hpieces E.serverHide) hsegs, List.flatMap_append,
    printfDecimal_timestamp]
  simp [Segment.text]

/-- A header is longer than the modes by at most 56 bytes. -/
theorem firstHeader_length_le (modebuf parabuf : List UInt8) :
    (ch.firstHeader E modebuf parabuf).length ≤ modebuf.length + parabuf.length + 56 := by
  have hts := timestampText_length_le ch.tsval
  have hname := (cstr_length_le ch.chname).trans ch.chname_length
  have hmodes := cstr_length_le modebuf
  have hparams := cstr_length_le parabuf
  rw [firstHeader_eq]
  simp only [List.length_append, List.length_cons, List.length_nil]
  simp only [channelLen] at hname
  omega

theorem nextHeader_length_le : (ch.nextHeader E).length ≤ 57 := by
  have hts := timestampText_length_le ch.tsval
  have hname := (cstr_length_le ch.chname).trans ch.chname_length
  rw [nextHeader_eq]
  simp only [List.length_append, List.length_cons, List.length_nil]
  simp only [channelLen] at hname
  omega

end

/-! ## The arrays -/

/-- Everything is written in the arrays, and `mbuf` and `pbuf` have room. -/
structure BuffersFit (E : PrintfEnv) (modetab : Nat → ChanMode) (privileged : Bool) (mode : SMode) :
    Prop where
  inside : privileged = true → ∀ i ∈ shownModes modetab mode,
    ∀ call ∈ mode.paramCall i (modetab i).flags, ∃ len written,
      E.ircsprintf (textBytes call.format) call.args = some (len, written) ∧
        ∀ p ∈ written, p.1 < call.size
  mbuf : (modeTexts E modetab privileged mode).1.length < realModeBufLen
  pbuf : (modeTexts E modetab privileged mode).2.length < realModeBufLen

/-- `channel_modes` gives its texts if everything is written in the arrays. -/
theorem channelModes_eq_some_iff {E : PrintfEnv} {modetab : Nat → ChanMode} {privileged : Bool}
    {mode : SMode} {modes : List UInt8 × List UInt8} :
    channelModes E modetab privileged mode = some modes ↔
      BuffersFit E modetab privileged mode ∧ modeTexts E modetab privileged mode = modes := by
  have hinside : ∀ call : ParamCall, call.inside E = true ↔ ∃ len written,
      E.ircsprintf (textBytes call.format) call.args = some (len, written) ∧
        ∀ p ∈ written, p.1 < call.size := by
    intro call
    rw [ParamCall.inside]
    cases E.ircsprintf (textBytes call.format) call.args with
    | none => simp
    | some r => simp [Prod.ext_iff]
  rw [channelModes]
  simp only
  split
  next hno =>
    refine iff_of_false (by simp) fun h => hno.2 fun i hi call hcall => ?_
    exact (hinside call).mpr (h.1.inside hno.1 i hi call hcall)
  next hyes =>
    split
    next hlong =>
      refine iff_of_false (by simp) fun h => ?_
      have hm := h.1.mbuf
      have hp := h.1.pbuf
      omega
    next hshort =>
      rw [not_or, Nat.not_le, Nat.not_le] at hshort
      rw [Option.some.injEq, and_iff_right]
      refine ⟨fun hp i hi call hcall => (hinside call).mp ?_, hshort.1, hshort.2⟩
      exact not_not.mp (fun hno => hyes ⟨hp, hno⟩) i hi call hcall

/-! ## The batches -/

/-- The members of a line, each with a space behind it. -/
def sjoinText (batch : List SjoinMember) : List UInt8 := batch.flatMap fun cm => cm.nick ++ [0x20]

theorem sjoinText_concat (batch : List SjoinMember) (cm : SjoinMember) :
    sjoinText (batch ++ [cm]) = sjoinText batch ++ cm.nick ++ [0x20] := by
  rw [sjoinText, List.flatMap_append, List.flatMap_singleton, List.append_assoc]
  rfl

/-- The lines of the batches, with the start of the first and that of those
behind it. -/
def sjoinLines (next : List UInt8) : List UInt8 → List (List SjoinMember) → List (List UInt8)
  | _, [] => []
  | start, batch :: batches => (start ++ sjoinText batch) :: sjoinLines next next batches

theorem mem_sjoinLines {next : List UInt8} {batches : List (List SjoinMember)} {line : List UInt8} :
    ∀ {start : List UInt8}, line ∈ sjoinLines next start batches →
      ∃ start, ∃ batch ∈ batches, line = start ++ sjoinText batch := by
  induction batches with
  | nil => exact fun h => absurd h List.not_mem_nil
  | cons batch batches ih =>
      intro start h
      rcases List.mem_cons.mp h with rfl | h
      · exact ⟨start, batch, List.mem_cons_self, rfl⟩
      · obtain ⟨start, batch, hbatch, rfl⟩ := ih h
        exact ⟨start, batch, List.mem_cons_of_mem _ hbatch, rfl⟩

/-- Behind a batch that is not empty stands the space of its last member. -/
theorem sjoinLines_space {next start : List UInt8} {batches : List (List SjoinMember)}
    (hne : [] ∉ batches) {line : List UInt8} (h : line ∈ sjoinLines next start batches) :
    ∃ text, line = text ++ [0x20] := by
  obtain ⟨start, batch, hbatch, rfl⟩ := mem_sjoinLines h
  obtain ⟨front, cm, hfront⟩ :=
    (List.eq_nil_or_concat' batch).resolve_left fun hnil => hne (hnil ▸ hbatch)
  exact ⟨start ++ (sjoinText front ++ cm.nick), by
    rw [hfront, sjoinText_concat, List.append_assoc start]⟩

/-- The members that are told of. -/
abbrev shownMembers (members : List SjoinMember) : List SjoinMember :=
  members.filter fun cm => !cm.isAnon

/-- What is in the buffer already is the start of the first batch. -/
theorem sjoinLoop_batches (header : List UInt8) (members : List SjoinMember) :
    ∀ {start : List UInt8} {pending : List SjoinMember} {lines : List (List UInt8)},
      sjoinLoop header members (start ++ sjoinText pending) pending.length = some lines →
      ∃ batches, batches.flatten = pending ++ shownMembers members ∧ [] ∉ batches ∧
        lines = sjoinLines header start batches := by
  induction members with
  | nil =>
      intro start pending lines hlines
      cases hlines
      by_cases hnil : pending = []
      · exact ⟨[], by simp [hnil], List.not_mem_nil, by simp [hnil, sjoinLines]⟩
      · exact ⟨[pending], by simp, by simpa using Ne.symm hnil, by simp [hnil, sjoinLines]⟩
  | cons cm members ih =>
      intro start pending lines hlines
      have hbuf : start ++ sjoinText pending ++ cm.nick ++ [0x20] =
          start ++ sjoinText (pending ++ [cm]) := by
        rw [sjoinText_concat, List.append_assoc, List.append_assoc, List.append_assoc]
      rw [sjoinLoop] at hlines
      split at hlines
      · next hanon =>
          rw [shownMembers, List.filter_cons_of_neg (by simp [hanon])]
          exact ih hlines
      · next hanon =>
          have hshown : pending ++ shownMembers (cm :: members) =
              pending ++ [cm] ++ shownMembers members := by
            rw [shownMembers, List.filter_cons_of_pos (by simp [hanon]), List.append_assoc]
            rfl
          simp only [hbuf] at hlines
          rw [hshown]
          split at hlines
          · cases hlines
          split at hlines
          · -- The line is sent, and nothing is pending.
            obtain ⟨rest, hrest, rfl⟩ := Option.map_eq_some_iff.mp hlines
            have hstart : header = header ++ sjoinText [] := by
              rw [sjoinText, List.flatMap_nil, List.append_nil]
            rw [hstart] at hrest
            obtain ⟨batches, hflat, hne, rfl⟩ := @ih header [] rest (hstart ▸ hrest)
            refine ⟨(pending ++ [cm]) :: batches, ?_, ?_, rfl⟩
            · rw [List.flatten_cons, hflat, List.nil_append]
            · simpa using hne
          · refine @ih start (pending ++ [cm]) lines ?_
            rw [List.length_append]
            exact hlines

namespace SjoinMember

variable (cm : SjoinMember)

theorem nick_ne_nil : cm.nick ≠ [] :=
  List.append_ne_nil_of_right_ne_nil _ cm.name_ne

theorem nick_word : ∀ c ∈ cm.nick, c ≠ 0x20 := by
  intro c hc
  rcases List.mem_append.mp hc with hc | hc
  · obtain ⟨mode, hmode, hsome⟩ := List.mem_filterMap.mp hc
    split at hsome
    · have hletters : ∀ mode ∈ sjoinModes, mode.2 ≠ 0x20 := by decide
      exact Option.some.inj hsome ▸ hletters mode hmode
    · exact absurd hsome.symm (Option.some_ne_none c)
  · exact cm.name_word c hc

theorem nick_length_le : cm.nick.length ≤ 35 := by
  have hname := cm.name_length
  have hmodes := List.length_filterMap_le
    (fun mode : Nat × UInt8 => if cm.flags &&& mode.1 ≠ 0 then some mode.2 else none) sjoinModes
  rw [nick, List.length_append]
  simp only [nickLen] at hname
  simp only [sjoinModes, List.length_cons, List.length_nil] at hmodes ⊢
  omega

end SjoinMember

/-- The words of a batch are its members, each with its prefixes. -/
theorem burstWords_sjoinText (batch : List SjoinMember) :
    burstWords (sjoinText batch) = batch.map SjoinMember.nick := by
  induction batch with
  | nil => exact words_nil
  | cons cm batch ih =>
      have hword := word_noSpace cm.nick_word
      have hcons : sjoinText (cm :: batch) = cm.nick ++ 0x20 :: sjoinText batch := by
        rw [sjoinText, List.flatMap_cons, List.append_assoc]
        rfl
      rw [hcons, burstWords, words_append_cons _ _ (by decide),
        words_of_text cm.nick_ne_nil hword, List.map_cons, ← ih]
      rfl

/-- A line is one member longer than the bound, or than the header, at most. -/
theorem sjoinLoop_length_le {header : List UInt8} {bound : Nat} (hbound : bufSize - 80 ≤ bound)
    (hheader : header.length ≤ bound) (members : List SjoinMember) :
    ∀ {buf : List UInt8} {n : Nat} {lines : List (List UInt8)}, buf.length ≤ bound →
      sjoinLoop header members buf n = some lines → ∀ line ∈ lines, line.length ≤ bound + 36 := by
  induction members with
  | nil =>
      intro buf n lines hbuf hlines line hline
      cases hlines
      split at hline
      · rw [List.mem_singleton.mp hline]
        omega
      · exact absurd hline List.not_mem_nil
  | cons cm members ih =>
      intro buf n lines hbuf hlines
      have hnick := cm.nick_length_le
      have hlen : (buf ++ cm.nick ++ [0x20]).length = buf.length + cm.nick.length + 1 := by
        rw [List.length_append, List.length_append, List.length_singleton]
      rw [sjoinLoop] at hlines
      simp only at hlines
      split at hlines
      · exact ih hbuf hlines
      split at hlines
      · cases hlines
      split at hlines
      · obtain ⟨rest, hrest, rfl⟩ := Option.map_eq_some_iff.mp hlines
        intro line hline
        rcases List.mem_cons.mp hline with rfl | hline
        · omega
        · exact ih hheader hrest line hline
      · exact ih (by omega) hlines

/-- Where a member more has room, there are lines. -/
theorem sjoinLoop_some {header : List UInt8} {bound : Nat} (hbound : bufSize - 80 ≤ bound)
    (hroom : bound + 36 < bufSize) (hheader : header.length ≤ bound) (members : List SjoinMember) :
    ∀ {buf : List UInt8} {n : Nat}, buf.length ≤ bound →
      ∃ lines, sjoinLoop header members buf n = some lines := by
  induction members with
  | nil => exact fun _ => ⟨_, rfl⟩
  | cons cm members ih =>
      intro buf n hbuf
      have hnick := cm.nick_length_le
      have hlen : (buf ++ cm.nick ++ [0x20]).length = buf.length + cm.nick.length + 1 := by
        rw [List.length_append, List.length_append, List.length_singleton]
      rw [sjoinLoop]
      simp only
      split
      · exact ih hbuf
      rw [if_neg (by omega)]
      split
      · obtain ⟨lines, hlines⟩ := @ih header 0 hheader
        exact ⟨_, by rw [hlines, Option.map_some]⟩
      · exact ih (by omega)

/-! ## The lines on the link -/

section

variable {ζ : Type} {link : OutLink ζ} {msg : List UInt8}

theorem translate_concat_space (msg : List UInt8) :
    translate (msg ++ [0x20]) = translate msg ++ [0x20] := by
  have hspace : (if 159 < (0x20 : UInt8) then transtab.getD (0x20 - 160 : UInt8).toNat 0
      else 0x20) = 0x20 := by decide
  by_cases hnul : 0 ∈ msg
  · -- The loop stops in front of the space.
    have hcstr : cstr (msg ++ [0x20]) = cstr msg := by
      rw [cstr, List.takeWhile_append, if_neg, cstr]
      intro hlen
      have hself := (List.takeWhile_prefix fun c : UInt8 => decide (c ≠ 0)).eq_of_length hlen
      exact absurd (List.takeWhile_eq_self_iff.mp hself 0 hnul) (by decide)
    rw [translate, translate, hcstr, List.drop_append_of_le_length (cstr_length_le msg),
      List.append_assoc]
  · have hboth : 0 ∉ msg ++ [0x20] := by simpa using hnul
    rw [translate, translate, cstr_of_notMem hnul, cstr_of_notMem hboth, List.drop_length,
      List.drop_length, List.append_nil, List.append_nil, List.map_append, List.map_singleton,
      hspace]

theorem translate_length (msg : List UInt8) : (translate msg).length = msg.length := by
  have hle := cstr_length_le msg
  rw [translate, List.length_append, List.length_map, List.length_drop]
  omega

/-- A message that nothing is cut off from. -/
def OutLink.Whole (link : OutLink ζ) (msg : List UInt8) : Prop :=
  link.finishLine msg = some ((if link.isForeigner then translate msg else msg) ++ [0x0a])

/-- A space at the end stays one. -/
theorem shown_concat_space (link : OutLink ζ) (msg : List UInt8) :
    ∃ text, (if link.isForeigner then translate (msg ++ [0x20]) else msg ++ [0x20]) =
      text ++ [0x20] ∧ text.length = msg.length := by
  split
  · exact ⟨translate msg, translate_concat_space msg, translate_length msg⟩
  · exact ⟨msg, rfl, rfl⟩

/-- A space at the end is no line end. -/
theorem whole_concat_space (hserver : link.isServer = true) (hlen : (msg ++ [0x20]).length ≤ 511) :
    link.Whole (msg ++ [0x20]) := by
  obtain ⟨text, htext, hle⟩ := shown_concat_space link msg
  rw [List.length_append, ← hle, ← List.length_append] at hlen
  rw [OutLink.Whole, OutLink.finishLine]
  simp only [htext, hserver, true_or, if_true]
  rw [List.rdropWhile_concat_neg _ _ _ (by decide), if_neg (by simp), List.take_of_length_le hlen]

end

/-- The message of a line. -/
theorem prepareServerPrefixes_sjoin (source : Sender) (dest : LinkCaps) {line : List UInt8}
    (hline : line ≠ []) :
    ∃ command, command.length ≤ 5 ∧ prepareServerPrefixes (some source) none dest tok1Sjoin line =
      some (source.prefixOf dest ++ 0x20 :: (command ++ 0x20 :: line)) := by
  have hcommand : ∃ command, command.length ≤ 5 ∧
      (if dest.token1 then some [tok1Sjoin] else tok1Word tok1Sjoin) = some command := by
    split
    · exact ⟨[tok1Sjoin], by decide, rfl⟩
    · exact ⟨[0x53, 0x4a, 0x4f, 0x49, 0x4e], by decide, by decide⟩
  obtain ⟨command, hle, hcommand⟩ := hcommand
  refine ⟨command, hle, ?_⟩
  rw [prepareServerPrefixes, hcommand]
  simp [hline]

theorem prefixOf_length_le (source : Sender) (dest : LinkCaps) :
    (source.prefixOf dest).length ≤ max source.name.length 7 + 1 := by
  have hid := source.string_length
  rw [Sender.prefixOf]
  split
  · rw [List.length_cons]
    omega
  · rw [List.length_cons]
    omega

/-- The members that are not anonymous are in the lines, each once and with
all prefixes, and the lines that are not too long are sent as they are. No line
is too long if the name of the server and the modes are not. -/
structure SjoinExact {ζ : Type} (E : PrintfEnv) (modetab : Nat → ChanMode) (privileged : Bool)
    (ch : SjoinChannel) (members : List SjoinMember) (source : Sender) (dest : LinkCaps)
    (link : OutLink ζ) (lines : List (List UInt8)) : Prop where
  batched : ∃ modebuf parabuf batches,
    channelModes E modetab privileged ch.mode = some (modebuf, parabuf) ∧
    batches.flatten = shownMembers members ∧ [] ∉ batches ∧
    (∀ batch ∈ batches, burstWords (sjoinText batch) = batch.map SjoinMember.nick) ∧
    lines = sjoinLines (ch.nextHeader E) (ch.firstHeader E modebuf parabuf) batches
  whole : ∀ line ∈ lines,
    ∃ msg, prepareServerPrefixes (some source) none dest tok1Sjoin line = some msg ∧
      (msg.length ≤ 511 → link.Whole msg) ∧
      (source.name.length ≤ 35 → (modeTexts E modetab privileged ch.mode).1.length +
        (modeTexts E modetab privileged ch.mode).2.length ≤ 376 → msg.length ≤ 511)

/-- The burst of a channel that servers share: what is sent is exact, and it is sent if
the arrays have room for the modes and `buf` for a member behind them. -/
theorem sendChannelModes_exact {ζ : Type} (E : PrintfEnv) (modetab : Nat → ChanMode)
    (privileged : Bool) (ch : SjoinChannel) (members : List SjoinMember) (source : Sender)
    (dest : LinkCaps) (link : OutLink ζ) (hname : ch.chname.head? = some 0x23)
    (hserver : link.isServer = true) :
    (∀ lines, sendChannelModes E modetab privileged ch members = some lines →
      SjoinExact E modetab privileged ch members source dest link lines) ∧
    (BuffersFit E modetab privileged ch.mode →
      (modeTexts E modetab privileged ch.mode).1.length +
        (modeTexts E modetab privileged ch.mode).2.length ≤ 419 →
      ∃ lines, sendChannelModes E modetab privileged ch members = some lines) := by
  have hnext := nextHeader_length_le E ch
  have hfirst := firstHeader_length_le E ch
  rw [sendChannelModes, if_neg (not_not.mpr hname)]
  constructor
  · intro lines hsent
    obtain ⟨⟨modebuf, parabuf⟩, hmodes, hsent⟩ := Option.bind_eq_some_iff.mp hsent
    obtain ⟨-, htexts⟩ := channelModes_eq_some_iff.mp hmodes
    simp only at hsent
    split at hsent
    · cases hsent
    have hempty : ch.firstHeader E modebuf parabuf =
        ch.firstHeader E modebuf parabuf ++ sjoinText [] := by
      rw [sjoinText, List.flatMap_nil, List.append_nil]
    obtain ⟨batches, hflat, hne, hlines⟩ :=
      @sjoinLoop_batches (ch.nextHeader E) members _ [] _ (hempty ▸ hsent)
    refine ⟨⟨modebuf, parabuf, batches, hmodes, hflat, hne,
      fun batch _ => burstWords_sjoinText batch, hlines⟩, fun line hline => ?_⟩
    obtain ⟨text, htext⟩ := sjoinLines_space hne (hlines ▸ hline)
    obtain ⟨command, hcommand, hmsg⟩ := prepareServerPrefixes_sjoin source dest
      (by simp [htext] : line ≠ [])
    refine ⟨_, hmsg, fun hlen => ?_, fun hsource hshort => ?_⟩
    · have hconcat : source.prefixOf dest ++ 0x20 :: (command ++ 0x20 :: line) =
          (source.prefixOf dest ++ 0x20 :: (command ++ 0x20 :: text)) ++ [0x20] := by
        simp [htext]
      rw [hconcat] at hlen ⊢
      exact whole_concat_space hserver hlen
    · have hprefix := prefixOf_length_le source dest
      have hstart := hfirst modebuf parabuf
      rw [htexts] at hshort
      simp only at hshort
      have hlen := sjoinLoop_length_le (Nat.le_refl (bufSize - 80))
        (by simp only [bufSize]; omega) members (by simp only [bufSize]; omega) hsent line hline
      simp only [List.length_append, List.length_cons]
      simp only [bufSize] at hlen
      omega
  · intro hfit hshort
    have hmodes : channelModes E modetab privileged ch.mode =
        some (modeTexts E modetab privileged ch.mode) := channelModes_eq_some_iff.mpr ⟨hfit, rfl⟩
    generalize modeTexts E modetab privileged ch.mode = modes at hmodes hshort
    obtain ⟨modebuf, parabuf⟩ := modes
    simp only at hshort
    have hstart := hfirst modebuf parabuf
    rw [hmodes, Option.bind_some]
    simp only
    rw [if_neg (by simp only [bufSize]; omega)]
    exact @sjoinLoop_some (ch.nextHeader E) 475 (by decide) (by decide) (by omega) members _ 0
      (by omega)

/-- `t` is the only mode. -/
def topicOnly (i : Nat) : ChanMode := if i = 0x74 then ⟨0x4, true, 0⟩ else ⟨0, false, 0⟩

/-- A channel with this name and the mode `t`. -/
def topicChannel (chname : List UInt8) (h : chname.length ≤ channelLen) : SjoinChannel where
  chname := chname
  tsval := 1000000000
  mode := ⟨0x4, 0, [], 0, 0, [], 0⟩
  chname_length := h

/-- A server with a name of `length` letters `a`. -/
def serverOf (length : Nat) (hpos : length ≠ 0) (h : length ≤ hostLen) : Sender where
  name := List.replicate length 0x61
  string := []
  hasId := false
  name_ne := by simpa using hpos
  name_word c hc := by
    rw [List.eq_of_mem_replicate hc]
    decide
  name_length := by simpa using h
  string_word c hc := absurd hc List.not_mem_nil
  string_length := Nat.zero_le _

/-- The mode `t` has no parameter. -/
theorem topicOnly_fits : BuffersFit ⟨false, fun _ => 0, fun _ => 0⟩ topicOnly true
    ⟨0x4, 0, [], 0, 0, [], 0⟩ := by
  have hmodes : channelModes ⟨false, fun _ => 0, fun _ => 0⟩ topicOnly true
      ⟨0x4, 0, [], 0, 0, [], 0⟩ = some ([0x2b, 0x74], []) := by decide +kernel
  exact (channelModes_eq_some_iff.mp hmodes).1

/-- An operator and an anonymous client. -/
theorem sendChannelModes_exact_op :
    ∃ lines, sendChannelModes ⟨false, fun _ => 0, fun _ => 0⟩ topicOnly true
        (topicChannel [0x23, 0x63] (by decide))
        [⟨opOf 2 (by decide) 0x62 (by decide) 0x9, false⟩,
          ⟨opOf 2 (by decide) 0x63 (by decide) 0x1, true⟩] = some lines ∧
      SjoinExact ⟨false, fun _ => 0, fun _ => 0⟩ topicOnly true
        (topicChannel [0x23, 0x63] (by decide))
        [⟨opOf 2 (by decide) 0x62 (by decide) 0x9, false⟩,
          ⟨opOf 2 (by decide) 0x63 (by decide) 0x1, true⟩]
        (serverOf 3 (by decide) (by decide)) ⟨true, false⟩ (zipLink ()) lines := by
  have hboth := sendChannelModes_exact ⟨false, fun _ => 0, fun _ => 0⟩ topicOnly true
    (topicChannel [0x23, 0x63] (by decide))
    [⟨opOf 2 (by decide) 0x62 (by decide) 0x9, false⟩,
      ⟨opOf 2 (by decide) 0x63 (by decide) 0x1, true⟩]
    (serverOf 3 (by decide) (by decide)) ⟨true, false⟩ (zipLink ()) rfl rfl
  obtain ⟨lines, hlines⟩ := hboth.2 topicOnly_fits (by decide +kernel)
  exact ⟨lines, hlines, hboth.1 lines hlines⟩

theorem longNick_le : 29 + 1 ≤ nickLen := Nat.le_refl _

/-- A member with a name of thirty letters and all flags. -/
def longMember (last : UInt8) (hlast : last ≠ 0x20) : SjoinMember :=
  ⟨opOf 29 longNick_le last hlast 0x1f, false⟩

/-- Twelve of them. -/
def longMembers : List SjoinMember :=
  [longMember 0x41 (by decide), longMember 0x42 (by decide), longMember 0x43 (by decide),
    longMember 0x44 (by decide), longMember 0x45 (by decide), longMember 0x46 (by decide),
    longMember 0x47 (by decide), longMember 0x48 (by decide), longMember 0x49 (by decide),
    longMember 0x4a (by decide), longMember 0x4b (by decide), longMember 0x4c (by decide)]

/-- The message of the line that they are in. -/
def longMessage : List UInt8 :=
  0x3a :: List.replicate 63 0x61 ++ textBytes " SJOIN 1000000000 #c +t :" ++ sjoinText longMembers

/-- A channel that servers do not share has no lines, and the name of a server
with 63 letters leaves no room for the last member of a long line. -/
theorem sendChannelModes_cut :
    (shownMembers longMembers = longMembers ∧
      sendChannelModes ⟨false, fun _ => 0, fun _ => 0⟩ topicOnly true
        (topicChannel [0x26, 0x63] (by decide)) longMembers = some []) ∧
      ∃ line, sendChannelModes ⟨false, fun _ => 0, fun _ => 0⟩ topicOnly true
          (topicChannel [0x23, 0x63] (by decide)) longMembers = some [line] ∧
        prepareServerPrefixes (some (serverOf 63 (by decide) (by decide))) none ⟨false, false⟩
            tok1Sjoin line = some longMessage ∧
          (zipLink ()).finishLine longMessage = some (longMessage.take 511 ++ [0x0a]) ∧
            ¬(zipLink ()).Whole longMessage := by
  refine ⟨⟨rfl, rfl⟩, textBytes "1000000000 #c +t :" ++ sjoinText longMembers,
    by decide +kernel, by decide +kernel, ?_⟩
  have hcut : (zipLink ()).finishLine longMessage = some (longMessage.take 511 ++ [0x0a]) := by
    decide +kernel
  refine ⟨hcut, fun h => ?_⟩
  have hlen := congrArg List.length (Option.some.inj (hcut.symm.trans h))
  exact absurd hlen (by decide +kernel)

end TrIrcd
