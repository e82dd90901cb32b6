import TrIrcd.Proofs.SjoinBurst
import TrIrcd.Src.SendNames

/-!
# Everybody is in `NAMES`

The loop of `send_names` sends a line once it has come within `NICKLEN` bytes
of the bound, and starts the next one with the member behind it. So the members
that the client may see are in the lines in groups, in order, each with its
prefixes (`sendNames_batches`), and `buf` is never left (`Below`).

A line can be longer than the bound by then. The last member in it has up to 34
characters, with the four flags that have one, and not `NICKLEN`. With what
`send_me_numeric` puts in front the line is then cut in a name, unless the name
of the client leaves room: what is reserved for that is `NICKLEN`. Each member
has to find room for itself when its turn comes (`sendNames_exact_iff`), and it
does where the client and the member have at most 61 characters together
(`sendNames_exact_short`).
-/

namespace TrIrcd

open TrIrcd.Lib

/-! ## The message of a line -/

/-- A text without `%` stands for itself. -/
theorem printfPieces_plain (hide : Bool) {w : List UInt8} (rest : List UInt8)
    (hw : ∀ c ∈ w, c ≠ 0x25) :
    printfPieces hide none (w ++ rest) =
      (printfPieces hide none rest).map (w.map PrintfPiece.literal ++ ·) := by
  induction w with
  | nil => simp
  | cons c w ih =>
      have hc : c ≠ 0x25 := hw c List.mem_cons_self
      rw [List.cons_append, printfPieces, if_neg hc, ih fun d hd => hw d (List.mem_cons_of_mem _ hd),
        Option.map_map]
      rfl

theorem segments_literals (E : PrintfEnv) (w : List UInt8) (pieces : List PrintfPiece)
    (args : List PrintfArg) :
    E.segments (w.map PrintfPiece.literal ++ pieces) args =
      (E.segments pieces args).map (w.map Segment.put ++ ·) := by
  induction w with
  | nil => simp
  | cons c w ih =>
      rw [List.map_cons, List.cons_append, PrintfEnv.segments, ih, Option.map_map]
      rfl

theorem text_puts (w : List UInt8) : (w.map Segment.put).flatMap Segment.text = w := by
  induction w with
  | nil => rfl
  | cons c w ih =>
      rw [List.map_cons, List.flatMap_cons, ih]
      rfl

theorem PlainName.cstr_bytes (name : PlainName) : cstr name.bytes = name.bytes :=
  cstr_of_notMem fun h => (name.plain 0 h).1 rfl

namespace NamesCall

variable (C : NamesCall)

/-- What `send_me_numeric` puts in front. -/
def front : List UInt8 :=
  (if C.sptr.idCapable then 0x21 else 0x3a) :: ((C.me.source C.sptr).bytes ++
    [0x20, 0x33, 0x35, 0x33, 0x20] ++ C.sptr.name.bytes ++ [0x20])

theorem front_plain : ∀ c ∈ C.front, c ≠ 0x25 := by
  intro c hc
  simp only [front, List.mem_cons, List.mem_append, List.not_mem_nil, or_false] at hc
  rcases hc with rfl | ((hc | hc) | hc) | rfl
  · split <;> decide
  · exact (PlainName.plain _ c hc).2
  · rcases hc with rfl | rfl | rfl | rfl | rfl <;> decide
  · exact (C.sptr.name.plain c hc).2
  · decide

theorem front_length :
    C.front.length = (C.me.source C.sptr).bytes.length + C.sptr.name.bytes.length + 7 := by
  simp only [front, List.length_cons, List.length_append, List.length_nil]
  omega

theorem formatText_front (E : PrintfEnv) :
    E.formatText (textBytes "%c%s %N %s ") [.word (if C.sptr.idCapable then 0x21 else 0x3a),
      .string (some (C.me.source C.sptr).bytes), .word rplNamReply,
      .string (some C.sptr.name.bytes)] = some C.front := by
  have hpieces : ∀ hide, printfPieces hide none (textBytes "%c%s %N %s ") =
      some [.spec .char .none, .spec .string .none, .literal 0x20, .spec .numeric .none,
        .literal 0x20, .spec .string .none, .literal 0x20] := by
    decide +kernel
  have hsegs : ∀ c : UInt64, E.segments [.spec .char .none, .spec .string .none, .literal 0x20,
      .spec .numeric .none, .literal 0x20, .spec .string .none, .literal 0x20]
      [.word c, .string (some (C.me.source C.sptr).bytes), .word rplNamReply,
        .string (some C.sptr.name.bytes)] =
        some (.put c.toUInt8 :: .copy (C.me.source C.sptr).bytes :: .put 0x20 ::
          (printfNumeric rplNamReply ++ [.put 0x20, .copy C.sptr.name.bytes, .put 0x20])) := by
    intro c
    simp [PrintfEnv.segments, PrintfEnv.spec]
  have hnumeric : (printfNumeric rplNamReply).flatMap Segment.text = [0x33, 0x35, 0x33] := by
    decide
  rw [formatText_of_segments (hpieces E.serverHide) (hsegs _)]
  simp only [List.flatMap_cons, List.flatMap_append, hnumeric, Segment.text, PlainName.cstr_bytes,
    List.flatMap_nil, front]
  congr 1
  split <;> simp

/-- The whole line is in its message. -/
theorem reply_eq (E : PrintfEnv) {line : List UInt8} (hline : 0 ∉ line) :
    C.reply E line = some (C.front ++ line) := by
  have hformat : (textBytes namReplyFormat).drop 11 = textBytes "%s" := by decide
  have hpieces : ∀ hide, printfPieces hide none (textBytes "%s") = some [.spec .string .none] := by
    decide
  rw [reply, sendMeNumeric, formatText_front, Option.bind_some, hformat, PrintfEnv.formatText, PrintfEnv.formatSegments,
    printfPieces_plain _ _ C.front_plain, hpieces, Option.map_some, Option.bind_some,
    segments_literals]
  simp only [PrintfEnv.segments, PrintfEnv.spec, Option.getD_some, Option.bind_some, Option.map_some,
    List.append_nil, List.flatMap_append, text_puts, List.flatMap_singleton, Segment.text,
    cstr_of_notMem hline]

/-! ## The groups -/

/-- The members of a line, each with a space behind it. -/
def namesText (batch : List NamesMember) : List UInt8 := batch.flatMap fun cm => C.nick cm ++ [0x20]

theorem namesText_concat (batch : List NamesMember) (cm : NamesMember) :
    C.namesText (batch ++ [cm]) = C.namesText batch ++ C.nick cm ++ [0x20] := by
  rw [namesText, List.flatMap_append, List.flatMap_singleton, List.append_assoc]
  rfl

/-- What was sent and what is in the buffer are the members that were passed and are shown. -/
structure Holds (passed : List NamesMember) (s : NamesSt) (batches : List (List NamesMember))
    (pending : List NamesMember) : Prop where
  flatten : batches.flatten ++ pending = passed.filter C.shows
  full : [] ∉ batches
  sent : s.sent = batches.map fun batch => C.header ++ C.namesText batch
  buf : s.buf = C.header ++ C.namesText pending
  flag : s.flag = true ↔ pending ≠ [] ∨ batches = []

variable {C}

theorem holds_start : C.Holds [] C.start [] [] where
  flatten := rfl
  full := List.not_mem_nil
  sent := rfl
  buf := by rw [namesText, List.flatMap_nil, List.append_nil, start]
  flag := by simp [start]

theorem Holds.step {passed pending : List NamesMember} {s : NamesSt}
    {batches : List (List NamesMember)} (h : C.Holds passed s batches pending) (cm : NamesMember) :
    ∃ batches pending, C.Holds (passed ++ [cm]) (C.step s cm) batches pending := by
  rw [NamesCall.step]
  split
  · next hhidden =>
      refine ⟨batches, pending, ?_, h.full, h.sent, h.buf, h.flag⟩
      rw [h.flatten, List.filter_append, List.filter_cons_of_neg hhidden]
      simp
  · next hshown =>
      have hpassed : (passed ++ [cm]).filter C.shows =
          batches.flatten ++ (pending ++ [cm]) := by
        rw [List.filter_append, List.filter_cons_of_pos (not_not.mp hshown), ← List.append_assoc,
          h.flatten]
        rfl
      have hbuf : s.buf ++ C.nick cm ++ [0x20] = C.header ++ C.namesText (pending ++ [cm]) := by
        rw [namesText_concat, h.buf]
        simp only [List.append_assoc]
      simp only
      split
      · -- The line is sent, and nothing is pending.
        refine ⟨batches ++ [pending ++ [cm]], [], ?_, ?_, ?_, ?_, ?_⟩
        · rw [hpassed]
          simp
        · simpa using h.full
        · rw [h.sent, hbuf, List.map_append]
          rfl
        · rw [namesText, List.flatMap_nil, List.append_nil]
        · simp
      · refine ⟨batches, pending ++ [cm], hpassed.symm, h.full, h.sent, hbuf, ?_⟩
        simp

theorem loop_holds : ∃ batches pending, C.Holds C.members C.loop batches pending := by
  have hall : ∀ members : List NamesMember,
      ∃ batches pending, C.Holds members (members.foldl C.step C.start) batches pending := by
    intro members
    induction members using List.reverseRecOn with
    | nil => exact ⟨[], [], holds_start⟩
    | append_singleton members cm ih =>
        obtain ⟨batches, pending, h⟩ := ih
        rw [List.foldl_append]
        exact h.step cm
  exact hall C.members

/-- The lines are the members that are shown, in groups. -/
theorem sendNames_batches :
    ∃ batches : List (List NamesMember), batches.flatten = C.members.filter C.shows ∧
      ([] ∈ batches → C.members.filter C.shows = []) ∧
      C.sendNames = batches.map fun batch => C.header ++ C.namesText batch := by
  obtain ⟨batches, pending, h⟩ := loop_holds (C := C)
  rw [sendNames]
  split
  · next hflag =>
      refine ⟨batches ++ [pending], ?_, fun hnil => ?_, ?_⟩
      · rw [← h.flatten]
        simp
      · rcases List.mem_append.mp hnil with hin | hin
        · exact absurd hin h.full
        · obtain rfl : [] = pending := List.mem_singleton.mp hin
          have hempty : batches = [] := (h.flag.mp hflag).resolve_left fun hne => hne rfl
          rw [← h.flatten, hempty]
          rfl
      · rw [h.sent, h.buf, List.map_append]
        rfl
  · next hflag =>
      have hnone : pending = [] := by
        by_contra hne
        exact hflag (h.flag.mpr (.inl hne))
      refine ⟨batches, ?_, fun hnil => absurd hnil h.full, h.sent⟩
      rw [← h.flatten, hnone, List.append_nil]

/-! ## Where the buffer ends -/

theorem nick_length_le (cm : NamesMember) : (C.nick cm).length ≤ 34 := by
  have hname := cm.name_length
  have hmodes := List.length_filterMap_le
    (fun mode : Nat × UInt8 => if cm.flags &&& mode.1 ≠ 0 then some mode.2 else none) namesModes
  rw [nick, List.length_append]
  simp only [nickLen] at hname
  simp only [namesModes, List.length_cons, List.length_nil] at hmodes ⊢
  split
  · omega
  · simp only [List.length_nil]
    omega

theorem length_concat_nick (buf : List UInt8) (cm : NamesMember) :
    (buf ++ C.nick cm ++ [0x20]).length = buf.length + (C.nick cm).length + 1 := by
  rw [List.length_append, List.length_append, List.length_singleton]

theorem header_length_le : C.header.length ≤ 36 := by
  have hname := (cstr_length_le C.chptr.chname).trans C.chptr.chname_length
  simp only [channelLen] at hname
  rw [header]
  simp only [List.length_append, List.length_cons, List.length_nil]
  omega

/-- The buffer has not reached the mark, and nothing was written behind it. -/
structure Below (C : NamesCall) (s : NamesSt) : Prop where
  buf : s.buf = C.header ∨ C.mlen + s.buf.length + nickLen ≤ bufSize - 3
  top : s.top < bufSize

theorem start_below : C.Below C.start := by
  refine ⟨.inl rfl, ?_⟩
  have hheader := C.header_length_le
  simp only [start, bufSize]
  omega

theorem Below.step {s : NamesSt} (h : C.Below s) (cm : NamesMember) : C.Below (C.step s cm) := by
  have hheader := header_length_le (C := C)
  have hnick := nick_length_le (C := C) cm
  have hmlen : 37 ≤ C.mlen := by
    rw [mlen, nickLen]
    omega
  have htop := h.top
  have hlen := length_concat_nick (C := C) s.buf cm
  have hbuf : s.buf.length ≤ 442 := by
    rcases h.buf with hbuf | hbuf
    · rw [hbuf]
      omega
    · simp only [nickLen, bufSize] at hbuf
      omega
  simp only [bufSize] at htop
  rw [NamesCall.step]
  split
  · exact h
  · simp only [hlen]
    split
    · refine ⟨.inl rfl, ?_⟩
      simp only [bufSize]
      omega
    · next hroom =>
        refine ⟨.inr ?_, ?_⟩
        · rw [hlen]
          omega
        · simp only [bufSize]
          omega

theorem foldl_below (members : List NamesMember) : C.Below (members.foldl C.step C.start) := by
  induction members using List.reverseRecOn with
  | nil => exact start_below
  | append_singleton members cm ih =>
      rw [List.foldl_append]
      exact ih.step cm

end NamesCall

/-! ## What is cut off -/

section Link

variable {ζ : Type} (link : OutLink ζ)

/-- How much of a message `send_message` leaves. -/
def OutLink.cut : Nat := if link.isServer ∨ link.isNegoServer then 511 else 510

/-- All of the message goes out, but perhaps for a space at its end. -/
def OutLink.KeepsNames (msg : List UInt8) : Prop :=
  ∃ out, link.finishLine msg =
      some (out ++ if link.isServer ∨ link.isNegoServer then [0x0a] else [0x0d, 0x0a]) ∧
    ((if link.isForeigner then translate msg else msg) = out ∨
      (if link.isForeigner then translate msg else msg) = out ++ [0x20])

theorem finishLine_concat_space (msg : List UInt8) :
    ∃ text, (if link.isForeigner then translate (msg ++ [0x20]) else msg ++ [0x20]) =
        text ++ [0x20] ∧ text.length = msg.length ∧
      link.finishLine (msg ++ [0x20]) = some ((text ++ [0x20]).take link.cut ++
        if link.isServer ∨ link.isNegoServer then [0x0a] else [0x0d, 0x0a]) := by
  obtain ⟨text, htext, hlen⟩ := shown_concat_space link msg
  refine ⟨text, htext, hlen, ?_⟩
  rw [OutLink.finishLine, OutLink.cut]
  simp only [htext]
  rw [List.rdropWhile_concat_neg _ _ _ (by decide), if_neg (by simp)]
  split <;> rfl

/-- One byte may be cut off if it is a space. -/
theorem keepsNames_iff (msg : List UInt8) :
    link.KeepsNames (msg ++ [0x20]) ↔ msg.length ≤ link.cut := by
  obtain ⟨text, htext, hlen, hline⟩ := finishLine_concat_space link msg
  rw [OutLink.KeepsNames, hline, htext, ← hlen]
  constructor
  · rintro ⟨out, hout, hshown⟩
    have heq : (text ++ [0x20]).take link.cut = out :=
      List.append_cancel_right (Option.some.inj hout)
    have hcut : out.length ≤ link.cut := by
      rw [← heq, List.length_take]
      exact Nat.min_le_left _ _
    rcases hshown with rfl | hspace
    · rw [List.length_append, List.length_singleton] at hcut
      omega
    · rwa [List.append_cancel_right hspace]
  · intro hle
    rcases Nat.lt_or_eq_of_le hle with hlt | heq
    · refine ⟨text ++ [0x20], ?_, .inl rfl⟩
      rw [List.take_of_length_le]
      rw [List.length_append, List.length_singleton]
      omega
    · exact ⟨text, by rw [← heq, List.take_left], .inr rfl⟩

end Link

namespace NamesCall

variable {C : NamesCall} {ζ : Type} {link : OutLink ζ}

theorem nick_ne_nil (cm : NamesMember) : C.nick cm ≠ [] :=
  List.append_ne_nil_of_right_ne_nil _ cm.name_ne

theorem mem_nick {cm : NamesMember} {c : UInt8} (hc : c ∈ C.nick cm) : c ≠ 0x20 ∧ c ≠ 0 := by
  have hmodes : ∀ mode ∈ namesModes, mode.2 ≠ 0x20 ∧ mode.2 ≠ 0 := by decide
  rw [nick] at hc
  rcases List.mem_append.mp hc with hc | hc
  · split at hc
    · obtain ⟨mode, hmode, hsome⟩ := List.mem_filterMap.mp hc
      split at hsome
      · exact Option.some.inj hsome ▸ hmodes mode hmode
      · exact absurd hsome.symm (Option.some_ne_none c)
    · exact absurd hc List.not_mem_nil
  · exact ⟨cm.name_word c hc, fun h => cm.name_noNul (h ▸ hc)⟩

/-- The words of a group are its members, each with its prefixes. -/
theorem burstWords_namesText (batch : List NamesMember) :
    burstWords (C.namesText batch) = batch.map C.nick := by
  induction batch with
  | nil => exact words_nil
  | cons cm batch ih =>
      have hword := word_noSpace fun c (hc : c ∈ C.nick cm) => (mem_nick hc).1
      have hcons : C.namesText (cm :: batch) = C.nick cm ++ 0x20 :: C.namesText batch := by
        rw [namesText, List.flatMap_cons, List.append_assoc]
        rfl
      rw [hcons, burstWords, words_append_cons _ _ (by decide),
        words_of_text (nick_ne_nil cm) hword, List.map_cons, ← ih]
      rfl

theorem line_noNul (batch : List NamesMember) : 0 ∉ C.header ++ C.namesText batch := by
  intro h
  rcases List.mem_append.mp h with h | h
  · simp only [header, List.mem_append, List.mem_cons, List.not_mem_nil, or_false] at h
    rcases h with ((h | h) | h) | h
    · revert h
      split
      · decide
      · split <;> decide
    · exact absurd h (by decide)
    · exact zero_notMem_cstr _ h
    · exact absurd h (by decide)
  · obtain ⟨cm, -, hc⟩ := List.mem_flatMap.mp h
    rcases List.mem_append.mp hc with hc | hc
    · exact (mem_nick hc).2 rfl
    · exact absurd hc (by decide)

/-- A line of somebody ends with a space, and keeps its names if it is not too long. -/
theorem line_keepsNames_iff (E : PrintfEnv) {batch : List NamesMember} (hne : batch ≠ []) :
    (∃ msg, C.reply E (C.header ++ C.namesText batch) = some msg ∧ link.KeepsNames msg) ↔
      C.front.length + (C.header ++ C.namesText batch).length ≤ link.cut + 1 := by
  obtain ⟨front, cm, rfl⟩ := (List.eq_nil_or_concat' batch).resolve_left hne
  have hline : C.header ++ C.namesText (front ++ [cm]) =
      C.header ++ C.namesText front ++ C.nick cm ++ [0x20] := by
    rw [namesText_concat]
    simp only [List.append_assoc]
  rw [reply_eq C E (line_noNul _), hline, ← List.append_assoc C.front]
  have hkeeps := keepsNames_iff link (C.front ++ (C.header ++ C.namesText front ++ C.nick cm))
  constructor
  · rintro ⟨msg, hmsg, hkept⟩
    cases hmsg
    have hle := hkeeps.mp hkept
    simp only [List.length_append, List.length_singleton] at hle ⊢
    omega
  · intro hle
    refine ⟨_, rfl, hkeeps.mpr ?_⟩
    simp only [List.length_append, List.length_singleton] at hle ⊢
    omega

/-! ## The room that is left -/

/-- How long a line of so many characters is with a member. A full line gives way to the
header of the next one. -/
def lineStep (C : NamesCall) (used : Nat) (cm : NamesMember) : Nat :=
  if ¬ C.shows cm then used
  else if C.mlen + (used + (C.nick cm).length + 1) + nickLen > bufSize - 3 then C.header.length
  else used + (C.nick cm).length + 1

/-- How long the line is that comes after these members. -/
def lineLength (C : NamesCall) (members : List NamesMember) : Nat :=
  members.foldl C.lineStep C.header.length

/-- Behind so many characters of a line, the name of the member comes in front of the cut. -/
def HasRoom (C : NamesCall) (link : OutLink ζ) (used : Nat) (cm : NamesMember) : Prop :=
  (C.me.source C.sptr).bytes.length + C.sptr.name.bytes.length + 7 + used +
    (C.nick cm).length ≤ link.cut

theorem step_buf_length (s : NamesSt) (cm : NamesMember) :
    C.lineStep s.buf.length cm = (C.step s cm).buf.length := by
  rw [lineStep, NamesCall.step]
  split
  · rfl
  · simp only [length_concat_nick]
    split
    · rfl
    · exact (length_concat_nick s.buf cm).symm

theorem foldl_buf_length (members : List NamesMember) :
    (members.foldl C.step C.start).buf.length = C.lineLength members :=
  (List.foldl_hom (fun s : NamesSt => s.buf.length) step_buf_length).symm

/-- No line of somebody is too long. -/
structure Fits (C : NamesCall) (link : OutLink ζ) (s : NamesSt) : Prop where
  sent : ∀ line ∈ s.sent, C.front.length + line.length ≤ link.cut + 1
  buf : s.buf = C.header ∨ C.front.length + s.buf.length ≤ link.cut + 1

theorem step_header_le (s : NamesSt) (cm : NamesMember) (h : C.header.length ≤ s.buf.length) :
    C.header.length ≤ (C.step s cm).buf.length := by
  rw [NamesCall.step]
  split
  · exact h
  · simp only
    split
    · exact Nat.le_refl _
    · rw [List.append_assoc, List.length_append]
      omega

theorem step_fits_iff (s : NamesSt) (cm : NamesMember) (hheader : C.header.length ≤ s.buf.length) :
    C.Fits link (C.step s cm) ↔
      C.Fits link s ∧ (C.shows cm = true → C.HasRoom link s.buf.length cm) := by
  have hfront := front_length C
  have hlen := length_concat_nick (C := C) s.buf cm
  have hroom : C.HasRoom link s.buf.length cm ↔
      C.front.length + (s.buf ++ C.nick cm ++ [0x20]).length ≤ link.cut + 1 := by
    rw [HasRoom, hlen]
    omega
  rw [NamesCall.step]
  split
  · next hhidden => exact ⟨fun h => ⟨h, fun hs => absurd hs hhidden⟩, And.left⟩
  · next hshown =>
      have himp : (C.shows cm = true → C.HasRoom link s.buf.length cm) ↔
          C.front.length + (s.buf ++ C.nick cm ++ [0x20]).length ≤ link.cut + 1 :=
        ⟨fun h => hroom.mp (h (not_not.mp hshown)), fun h _ => hroom.mpr h⟩
      rw [himp]
      simp only
      split
      · constructor
        · intro h
          have hle := h.sent _ (List.mem_append_right _ List.mem_cons_self)
          refine ⟨⟨fun line hline => h.sent line (List.mem_append_left _ hline), .inr ?_⟩, hle⟩
          omega
        · rintro ⟨h, hle⟩
          refine ⟨fun line hline => ?_, .inl rfl⟩
          rcases List.mem_append.mp hline with hline | hline
          · exact h.sent line hline
          · rw [List.mem_singleton.mp hline]
            exact hle
      · constructor
        · intro h
          have hle : C.front.length + (s.buf ++ C.nick cm ++ [0x20]).length ≤ link.cut + 1 := by
            rcases h.buf with hsame | hle
            · -- Somebody is behind the header.
              have hsame : (s.buf ++ C.nick cm ++ [0x20]).length = C.header.length :=
                congrArg List.length hsame
              omega
            · exact hle
          refine ⟨⟨h.sent, .inr ?_⟩, hle⟩
          omega
        · rintro ⟨h, hle⟩
          exact ⟨h.sent, .inr hle⟩

theorem loop_fits_iff :
    C.Fits link C.loop ↔ ∀ before cm after, C.members = before ++ cm :: after →
      C.shows cm = true → C.HasRoom link (C.lineLength before) cm := by
  have hstart : C.Fits link C.start := ⟨fun line h => absurd h List.not_mem_nil, .inl rfl⟩
  have hfold := foldl_iff (I := fun s => C.header.length ≤ s.buf.length)
    (G := fun s cm => C.shows cm = true → C.HasRoom link s.buf.length cm) step_header_le
    step_fits_iff C.members (s := C.start) (Nat.le_refl C.header.length)
  simp only [foldl_buf_length] at hfold
  exact hfold.trans (and_iff_right hstart)

/-- The lines of somebody are short. -/
theorem fits_iff_lines :
    C.Fits link C.loop ↔ ∀ line ∈ C.sendNames, line ≠ C.header →
      C.front.length + line.length ≤ link.cut + 1 := by
  obtain ⟨batches, pending, h⟩ := loop_holds (C := C)
  have hline : ∀ batch : List NamesMember, batch ≠ [] → C.header ++ C.namesText batch ≠ C.header := by
    intro batch hne heq
    have hnil : C.namesText batch = [] := List.append_cancel_left (heq.trans (List.append_nil _).symm)
    have hwords := burstWords_namesText (C := C) batch
    rw [hnil] at hwords
    exact hne (List.map_eq_nil_iff.mp (hwords.symm.trans words_nil))
  constructor
  · intro hfits line hin hne
    rw [sendNames] at hin
    split at hin
    · rcases List.mem_append.mp hin with hin | hin
      · exact hfits.sent line hin
      · rw [List.mem_singleton.mp hin] at hne ⊢
        exact hfits.buf.resolve_left hne
    · exact hfits.sent line hin
  · intro hall
    refine ⟨fun line hin => ?_, ?_⟩
    · have hsent : line ∈ C.sendNames := by
        rw [sendNames]
        split
        · exact List.mem_append_left _ hin
        · exact hin
      refine hall line hsent ?_
      rw [h.sent] at hin
      obtain ⟨batch, hbatch, rfl⟩ := List.mem_map.mp hin
      exact hline batch fun hnil => h.full (hnil ▸ hbatch)
    · by_cases hpending : pending = []
      · refine .inl ?_
        rw [h.buf, hpending, namesText, List.flatMap_nil, List.append_nil]
      · have hflag : C.loop.flag = true := h.flag.mpr (.inl hpending)
        have hsent : C.loop.buf ∈ C.sendNames := by
          rw [sendNames, if_pos hflag]
          exact List.mem_append_right _ List.mem_cons_self
        refine .inr (hall _ hsent ?_)
        rw [h.buf]
        exact hline pending hpending

/-- The members that are shown are in the lines, each once, with its prefixes and the whole
name, nothing is written outside of `buf`, and no name is cut. -/
structure NamesExact (E : PrintfEnv) (C : NamesCall) (link : OutLink ζ) : Prop where
  inside : C.loop.top < bufSize
  listed : ∃ batches : List (List NamesMember), batches.flatten = C.members.filter C.shows ∧
    ([] ∈ batches → C.members.filter C.shows = []) ∧
    (∀ batch ∈ batches, burstWords (C.namesText batch) = batch.map C.nick) ∧
    C.sendNames = batches.map fun batch => C.header ++ C.namesText batch
  whole : ∀ line ∈ C.sendNames, line ≠ C.header →
    ∃ msg, C.reply E line = some msg ∧ link.KeepsNames msg

theorem whole_iff (E : PrintfEnv) :
    (∀ line ∈ C.sendNames, line ≠ C.header →
      ∃ msg, C.reply E line = some msg ∧ link.KeepsNames msg) ↔ C.Fits link C.loop := by
  obtain ⟨batches, -, -, hlines⟩ := sendNames_batches (C := C)
  rw [fits_iff_lines]
  refine forall₂_congr fun line hin => forall_congr' fun hne => ?_
  rw [hlines] at hin
  obtain ⟨batch, -, rfl⟩ := List.mem_map.mp hin
  refine line_keepsNames_iff E fun hnil => hne ?_
  rw [hnil, namesText, List.flatMap_nil, List.append_nil]

theorem Fits.exact (E : PrintfEnv) (h : C.Fits link C.loop) : NamesExact E C link := by
  obtain ⟨batches, hflat, hnil, hlines⟩ := sendNames_batches (C := C)
  exact ⟨(foldl_below C.members).top,
    ⟨batches, hflat, hnil, fun batch _ => burstWords_namesText batch, hlines⟩, (whole_iff E).mpr h⟩

end NamesCall

open NamesCall

/-- The answer to `NAMES` is right just when every member that is shown finds room for its
prefixes and its name in the line that it comes to. -/
theorem sendNames_exact_iff {ζ : Type} (E : PrintfEnv) (C : NamesCall) (link : OutLink ζ) :
    NamesExact E C link ↔ ∀ before cm after, C.members = before ++ cm :: after →
      C.shows cm = true → C.HasRoom link (C.lineLength before) cm := by
  rw [← loop_fits_iff]
  exact ⟨fun h => (whole_iff E).mp h.whole, Fits.exact E⟩

/-- It is right if the client and each member have at most 61 characters together. -/
theorem sendNames_exact_short {ζ : Type} (E : PrintfEnv) (C : NamesCall) (link : OutLink ζ)
    (hsource : (C.me.source C.sptr).bytes.length ≤ C.me.name.bytes.length)
    (hme : C.me.name.bytes.length ≤ hostLen)
    (hshort : ∀ cm ∈ C.members, C.shows cm = true →
      C.sptr.name.bytes.length + (C.nick cm).length ≤ 61) : NamesExact E C link := by
  refine Fits.exact E (loop_fits_iff.mpr fun before cm after hmembers hshown => ?_)
  have hcut : 510 ≤ link.cut := by
    rw [OutLink.cut]
    split <;> omega
  have hcm := hshort cm (hmembers ▸ List.mem_append_right _ List.mem_cons_self) hshown
  have hheader := header_length_le (C := C)
  simp only [hostLen] at hme
  rw [HasRoom, ← foldl_buf_length]
  rcases (foldl_below (C := C) before).buf with hbuf | hbuf
  · rw [hbuf]
    omega
  · simp only [mlen, nickLen, bufSize] at hbuf
    omega

/-! ## A name that is cut -/

/-- A name of `length` letters `a`. -/
def plainOf (length : Nat) : PlainName where
  bytes := List.replicate length 0x61
  plain c hc := by
    rw [List.eq_of_mem_replicate hc]
    decide

theorem plainOf_length_le {length : Nat} (h : length ≤ nickLen) :
    (plainOf length).bytes.length ≤ nickLen := by
  rwa [plainOf, List.length_replicate]

/-- The letters from `A` on. -/
def ownerLetter (i : Fin 12) : UInt8 := 0x41 + UInt8.ofNat i

theorem ownerLetter_ne (i : Fin 12) : ownerLetter i ≠ 0x20 ∧ ownerLetter i ≠ 0 := by
  revert i
  decide

/-- Thirty letters, and all the flags that are shown. -/
def ownerOf (i : Fin 12) : NamesMember where
  toStatusMember := opOf 29 longNick_le (ownerLetter i) (ownerLetter_ne i).1 0x1b
  client := i
  isAnon := false
  isInvisible := false
  name_noNul h := by
    rcases List.mem_append.mp h with h | h
    · exact absurd (List.eq_of_mem_replicate h) (by decide)
    · exact (ownerLetter_ne i).2 (List.mem_singleton.mp h).symm

/-- Another client with a name of thirty letters asks for twelve of them. -/
def ownersAsked : NamesCall where
  me := ⟨plainOf 40, plainOf 7, plainOf 9⟩
  sptr := ⟨100, plainOf 30, plainOf_length_le (Nat.le_refl _), false, false, false, true, false, false⟩
  chptr := ⟨0x23 :: List.replicate 12 0x63, 0, by simp [channelLen]⟩
  members := List.ofFn ownerOf

/-- The last one is cut. -/
theorem sendNames_cut :
    ¬ ∀ (E : PrintfEnv) (C : NamesCall) (link : OutLink Unit),
      C.me.name.bytes.length ≤ hostLen → C.me.source C.sptr = C.me.name →
      link.isServer = false → link.isNegoServer = false → NamesExact E C link := by
  intro h
  have hexact := h ⟨false, fun _ => 0, fun _ => 0⟩ ownersAsked plainLink (by decide) rfl rfl rfl
  have hfits := (whole_iff _).mp hexact.whole
  have hroom := loop_fits_iff.mp hfits (List.ofFn fun i : Fin 11 => ownerOf i.castSucc)
    (ownerOf (Fin.last 11)) [] List.ofFn_succ_last rfl
  rw [HasRoom] at hroom
  exact absurd hroom (by decide)

end TrIrcd
