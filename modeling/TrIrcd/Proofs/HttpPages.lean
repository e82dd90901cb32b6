import TrIrcd.Proofs.FormatBounds
import TrIrcd.Proofs.OutgoingBlocks
import TrIrcd.Src.HttpSend

/-!
# When an error page is complete

A page goes through three limits. `hBuf` has room for 1023 bytes of it,
`sendbuf` for 1019 with the end of the header in front, and the line that
`linebuf_put` makes for 508; the length that is announced is taken before the
last two. So the smallest limit decides, and what is beyond it is lost without
a sign (`HttpTexts.ErrorPage.completes_iff`).

Of the ten pages eight are fixed and short enough. That of status 404 is as
long as the name of the document makes it, and that of status 411 has the
length of whatever is read for its missing argument; status 505 has a short
page, but its first field is formatted from what is behind `herrortab`.

The client may be gone before the last message, for its socket or for its
queue; then there is nothing to be complete. All else is proved of every client
and every socket.
-/

namespace TrIrcd

open TrIrcd.Lib

/-! ## One block -/

namespace OutLink

variable {ζ : Type} {A : Allocator} {link link' : OutLink ζ}

/-- The client can still be written to. -/
def Open (link : OutLink ζ) : Prop := 0 ≤ link.fd ∧ link.isDead = false

/-- The buffers of a link that is given up. -/
theorem deadLinkOnWrite_gone (h : Accounted link.bufs) :
    ∃ link', link.deadLinkOnWrite = .ok link' ∧ Accounted link'.bufs ∧ ¬link'.Open := by
  obtain ⟨s, hs, hacc, -, -⟩ := linebufDonebuf_ok (.recvQ link.cptr) h
  obtain ⟨s', hs', hacc', -, -⟩ := linebufDonebuf_ok (.sendQ link.cptr) hacc
  refine ⟨{ link with isDead := true, bufs := s' }, ?_, hacc', fun ho => ?_⟩
  · rw [deadLinkOnWrite, hs]
    show withBufs _ (linebufDonebuf _ s) = _
    rw [hs']
    rfl
  · exact Bool.noConfusion ho.2

/-- After a flush the client is as open as before, or gone. -/
theorem sendHttpQueued_answers (answers : List SocketAnswer) (h : Accounted link.bufs) :
    Answers (fun link' => Accounted link'.bufs ∧ (link'.Open → link.Open)) (· = .line .socket)
      (link.sendHttpQueued answers) := by
  rw [sendHttpQueued]
  split
  · have hloop := sendQueuedLoop_keptBut (.sendQ link.cptr) answers h
    split
    · next e he =>
        rw [he] at hloop
        exact congrArg OutStop.line hloop
    · next rlen ignorable s hs =>
        rw [hs] at hloop
        simp only
        split
        · exact ⟨hloop.1, id⟩
        · obtain ⟨link', hok, h', hgone⟩ := @deadLinkOnWrite_gone _ { link with bufs := s } hloop.1
          rw [hok]
          exact ⟨h', fun ho => absurd ho hgone⟩
  · exact ⟨h, id⟩

/-- The line on the stack is attached to the queue of a client that is still
open afterwards. -/
theorem httpSendLinebuf_answers {s : LineSt} {l : Nat} {block : List UInt8}
    (answers : List SocketAnswer) (h : s.Holds link.bufs l block) :
    Answers (fun r => Accounted r.1.bufs ∧
        (r.1.Open → link.Open ∧ r.2 = block.take bufDataSize))
      (· = .line .socket) (link.httpSendLinebuf answers) := by
  rw [httpSendLinebuf]
  split
  · next hfd => exact ⟨h.toAccounted, fun ho => absurd ho.1 (Int.not_le.mpr hfd)⟩
  · split
    · next hdead => exact ⟨h.toAccounted, fun ho => absurd (hdead.symm.trans ho.2) (by decide)⟩
    · split
      · obtain ⟨link', hok, h', hgone⟩ :=
          @deadLinkOnWrite_gone _ { link with sendqex := true } h.toAccounted
        rw [hok]
        exact ⟨h', fun ho => absurd ho hgone⟩
      · obtain ⟨s₂, hattach, hacc, hadded⟩ := h.attach link.cptr
        rw [hattach]
        refine (@sendHttpQueued_answers _ { link with bufs := s₂ } answers hacc).map
          fun link' h' => ⟨h'.1, fun ho => ⟨h'.2 ho, ?_⟩⟩
        show lineBytes s₂.line ((s₂.head (.sendQ link.cptr)).list.drop _) = _
        rw [hadded.list]
        show lineBytes s₂.line ((link.sendQ.list ++ [l]).drop _) = _
        rw [List.drop_left, lineBytes_cons, (hadded.line l).rest, h.text]
        simp [lineBytes]

/-- A client that is open at the end has all of a block that a line can hold. -/
theorem sendHttpBlock_answers (A : Allocator) (answers : List SocketAnswer) (block : List UInt8)
    (h : link.bufs.Idle) :
    Answers (fun r => r.1.bufs.Idle ∧ (r.1.Open → link.Open ∧ r.2 = block.take bufDataSize))
      (· = .line .socket) (link.sendHttpBlock A answers block) := by
  obtain ⟨s₁, l, hput, hholds⟩ := h.put A block
  rw [sendHttpBlock, hput]
  refine (@httpSendLinebuf_answers _ { link with bufs := s₁ } _ _ _ answers hholds).bind
    fun r hr => ?_
  obtain ⟨s₃, hdone, hacc, hnil, -⟩ := linebufDonebuf_ok (.linebuf 0) hr.1
  show Answers _ _ ((r.1.withBufs _).map _)
  rw [hdone]
  exact ⟨⟨hacc, hnil⟩, hr.2⟩

/-- A client whose socket takes nothing, with room for so many lines in its
queue. -/
structure Waits (link : OutLink ζ) (lines : Nat) : Prop where
  idle : link.bufs.Idle
  isOpen : link.Open
  room : link.sendQ.len + lines * bufDataSize ≤ link.sendqlen

theorem httpSendLinebuf_waits {s : LineSt} {l : Nat} {block : List UInt8}
    (h : s.Holds link.bufs l block) (ho : link.Open) (hroom : link.sendQ.len ≤ link.sendqlen) :
    ∃ s' gained, link.httpSendLinebuf [] = .ok ({ link with bufs := s' }, gained) ∧
      Accounted s' ∧ (s'.head (.sendQ link.cptr)).len ≤ link.sendQ.len + bufDataSize := by
  obtain ⟨s₂, hattach, hacc, hadded⟩ := h.attach link.cptr
  have hflush : sendHttpQueued [] { link with bufs := s₂ } = .ok { link with bufs := s₂ } := by
    rw [sendHttpQueued]
    split
    · rfl
    · rfl
  have hlen := h.len
  refine ⟨s₂, link.gained { link with bufs := s₂ }, ?_, hacc, ?_⟩
  · rw [httpSendLinebuf, if_neg (Int.not_lt.mpr ho.1), if_neg (by simp [ho.2]),
      if_neg (Int.not_lt.mpr hroom), hattach]
    show (sendHttpQueued [] { link with bufs := s₂ }).map _ = _
    rw [hflush]
    rfl
  · rw [hadded.len, sendQ]
    omega

theorem sendHttpBlock_waits {lines : Nat} (A : Allocator) (block : List UInt8)
    (h : link.Waits (lines + 1)) :
    ∃ link' gained, link.sendHttpBlock A [] block = .ok (link', gained) ∧ link'.Waits lines := by
  obtain ⟨s₁, l, hput, hholds⟩ := h.idle.put A block
  have hhead : s₁.head (.sendQ link.cptr) = link.sendQ := hholds.head _ HeadId.noConfusion
  have hroom := h.room
  push_cast [bufDataSize] at hroom
  obtain ⟨s₂, gained, hsend, hacc, hlen⟩ := @httpSendLinebuf_waits _
    { link with bufs := s₁ } _ _ _ hholds h.isOpen (by
      show (s₁.head (.sendQ link.cptr)).len ≤ link.sendqlen
      rw [hhead]
      omega)
  obtain ⟨s₃, hdone, hacc₃, hnil, hbut⟩ := linebufDonebuf_ok (.linebuf 0) hacc
  refine ⟨{ link with bufs := s₃ }, gained, ?_, ⟨hacc₃, hnil⟩, h.isOpen, ?_⟩
  · rw [sendHttpBlock, hput]
    show (httpSendLinebuf [] { link with bufs := s₁ }).bind _ = _
    rw [hsend]
    show (withBufs _ (linebufDonebuf _ s₂)).map _ = _
    rw [hdone]
    rfl
  · show (s₃.head (.sendQ link.cptr)).len + _ ≤ link.sendqlen
    have hqueue : (s₂.head (.sendQ link.cptr)).len ≤ link.sendQ.len + bufDataSize := by
      rw [← hhead]
      exact hlen
    rw [hbut.head _ HeadId.noConfusion]
    push_cast [bufDataSize] at hqueue ⊢
    omega

end OutLink

/-! ## Messages -/

theorem mapError_answers {ε ε' α : Type} {I : α → Prop} {P : ε → Prop} {P' : ε' → Prop}
    {x : Except ε α} {f : ε → ε'} (hx : Answers I P x) (hf : ∀ e, P e → P' (f e)) :
    Answers I P' (x.mapError f) := by
  cases x with
  | ok a => exact hx
  | error e => exact hf e hx

/-- From the NUL behind a text the loop goes back one byte. -/
theorem chopNuls_text {text : List UInt8} (hne : text ≠ []) (hzero : 0 ∉ text)
    (rest : List UInt8) : chopNuls (text ++ 0 :: rest) text.length = some (text.length - 1) := by
  obtain ⟨pre, c, rfl⟩ := List.eq_nil_or_concat' text |>.resolve_left hne
  have hc : c ≠ 0 := fun heq => hzero (by simp [heq])
  have hend : (pre ++ [c] ++ 0 :: rest).getD (pre.length + 1) 0 = 0 := by
    simp [List.getD_eq_getElem?_getD]
  have hlast : (pre ++ [c] ++ 0 :: rest).getD pre.length 0 = c := by
    simp [List.getD_eq_getElem?_getD]
  rw [List.length_append, List.length_singleton, chopNuls, if_pos hend, Nat.add_sub_cancel]
  cases hpre : pre.length with
  | zero =>
      rw [hpre] at hlast
      rw [chopNuls, if_neg (by rwa [hlast])]
  | succ n =>
      rw [hpre] at hlast
      rw [chopNuls, if_neg (by rwa [hlast])]

variable {T : HttpTexts} {A : Allocator} {m : HttpMessage} {messages : List HttpMessage}
  {text : List UInt8} {out : HttpOut}

/-- What a message says. -/
structure Writes (T : HttpTexts) (m : HttpMessage) (text : List UInt8) : Prop where
  formatText : T.printf.formatText (textBytes m.pattern) m.args = some text
  ne_nil : text ≠ []
  zero : 0 ∉ text

theorem Writes.stored (h : Writes T m text) (hlt : text.length < httpBufSize)
    (answers : Nat → List SocketAnswer) :
    T.sendtoHttp A answers m out =
      ((out.link.sendHttpBlock A (answers out.gained.length) text).mapError .link).map
        fun r => ⟨r.1, out.gained ++ [r.2]⟩ := by
  have hformat : T.printf.ircsprintf (textBytes m.pattern) m.args =
      some (text.length, writeFrom 0 (text ++ [0])) := by
    rw [ircsprintf_text, h.formatText]
    rfl
  have hfits : 0 + (text ++ [0]).length ≤ (List.replicate httpBufSize (0 : UInt8)).length := by
    rw [List.length_append, List.length_singleton, List.length_replicate]
    omega
  have hmem : blit (List.replicate httpBufSize 0) 0 (text ++ [0]) =
      text ++ 0 :: List.replicate (httpBufSize - (text.length + 1)) 0 := by
    simp [blit]
  have hpos := List.length_pos_of_ne_nil h.ne_nil
  have hshort : ¬text.length - 1 > 1023 := by
    simp only [httpBufSize] at hlt
    omega
  have hinside : text.length - 1 + 1 <
      (text ++ 0 :: List.replicate (httpBufSize - (text.length + 1)) 0).length := by
    rw [List.length_append, List.length_cons]
    omega
  rw [HttpTexts.sendtoHttp, hformat]
  simp only
  rw [writeFrom, storeAll_zipIdx _ hfits, hmem]
  simp only
  rw [OutLink.sendHttpMessage, chopNuls_text h.ne_nil h.zero]
  simp only
  rw [if_neg hshort, if_pos hinside, Nat.sub_add_cancel hpos,
    List.take_set_of_le (Nat.le_refl _), List.take_left]

theorem Writes.overflow
    (htext : T.printf.formatText (textBytes m.pattern) m.args = some text)
    (hge : httpBufSize ≤ text.length) (answers : Nat → List SocketAnswer) :
    T.sendtoHttp A answers m out = .error .outside := by
  have hnone : storeAll (writeFrom 0 (text ++ [0])) (List.replicate httpBufSize 0) = none := by
    rw [storeAll_eq_none_iff, List.length_replicate]
    by_contra hno
    push Not at hno
    have hle : text.length ≤ httpBufSize - 1 :=
      writeFrom_terminated_le.mp fun p hp => Nat.le_sub_one_of_lt (hno p hp)
    simp only [httpBufSize] at hle hge
    omega
  rw [HttpTexts.sendtoHttp, ircsprintf_text, htext]
  simp only [Option.map_some]
  rw [hnone]

theorem sendtoHttp_argument (h : T.printf.formatText (textBytes m.pattern) m.args = none)
    (answers : Nat → List SocketAnswer) : T.sendtoHttp A answers m out = .error .argument := by
  rw [HttpTexts.sendtoHttp, ircsprintf_text, h]
  rfl

theorem sendAll_append (answers : Nat → List SocketAnswer) (ms : List HttpMessage) :
    T.sendAll A answers (messages ++ ms) out =
      (T.sendAll A answers messages out).bind (T.sendAll A answers ms) := by
  induction messages generalizing out with
  | nil => rfl
  | cons m messages ih =>
      rw [List.cons_append, HttpTexts.sendAll, HttpTexts.sendAll]
      cases T.sendtoHttp A answers m out with
      | error e => rfl
      | ok out' => exact ih

/-- The messages have these texts, and all of them have room in `sendbuf`. -/
def AllWrite (T : HttpTexts) : List HttpMessage → List (List UInt8) → Prop :=
  List.Forall₂ fun m text => Writes T m text ∧ text.length < httpBufSize

/-- What a client has after some messages, as long as it is open. -/
def Gains (out out' : HttpOut) (texts : List (List UInt8)) : Prop :=
  out'.link.bufs.Idle ∧ (out'.link.Open → out.link.Open ∧
    out'.gained = out.gained ++ texts.map (·.take bufDataSize))

theorem Writes.gains (h : Writes T m text) (hlt : text.length < httpBufSize)
    (answers : Nat → List SocketAnswer) (hidle : out.link.bufs.Idle) :
    Answers (Gains out · [text]) (· = .link (.line .socket)) (T.sendtoHttp A answers m out) := by
  rw [h.stored hlt]
  refine Answers.map (mapError_answers (OutLink.sendHttpBlock_answers A _ text hidle)
    fun e he => congrArg HttpSendStop.link he) fun r hr => ⟨hr.1, fun ho => ?_⟩
  obtain ⟨hopen, hgained⟩ := hr.2 ho
  exact ⟨hopen, by rw [hgained]; rfl⟩

theorem sendAll_gains (answers : Nat → List SocketAnswer) {texts : List (List UInt8)}
    (h : AllWrite T messages texts) (hidle : out.link.bufs.Idle) :
    Answers (Gains out · texts) (· = .link (.line .socket))
      (T.sendAll A answers messages out) := by
  induction h generalizing out with
  | nil => exact ⟨hidle, fun ho => ⟨ho, by simp⟩⟩
  | @cons m text messages texts hm _ ih =>
      refine (hm.1.gains hm.2 answers hidle).bind fun out' h' => ?_
      refine (ih h'.1).imp (fun out'' h'' => ⟨h''.1, fun ho => ?_⟩) fun _ he => he
      obtain ⟨hopen', hgained'⟩ := h''.2 ho
      obtain ⟨hopen, hgained⟩ := h'.2 hopen'
      exact ⟨hopen, by rw [hgained', hgained]; simp⟩

/-- A client that waits takes the messages it has room for. -/
theorem sendAll_waits {texts : List (List UInt8)} {lines : Nat} (h : AllWrite T messages texts)
    (hwait : out.link.Waits (lines + messages.length)) :
    ∃ out', T.sendAll A (fun _ => []) messages out = .ok out' ∧ out'.link.Waits lines := by
  induction h generalizing out with
  | nil => exact ⟨out, rfl, hwait⟩
  | @cons m text messages texts hm _ ih =>
      obtain ⟨link', gained, hsend, hwait'⟩ := @OutLink.sendHttpBlock_waits _ _ (lines + messages.length) A text
        hwait
      obtain ⟨out', hrest, hout⟩ := @ih ⟨link', out.gained ++ [gained]⟩ hwait'
      refine ⟨out', ?_, hout⟩
      rw [HttpTexts.sendAll, hm.1.stored hm.2, hsend]
      exact hrest

/-! ## Texts -/

/-- What `%s` makes of a string. -/
def stringText (s : Option (List UInt8)) : List UInt8 := cstr (s.getD (textBytes "<NULL>"))

/-- A text that is no specifier and has no NUL in it. -/
def IsPlain (text : String) : Prop := ∀ c ∈ textBytes text, c ≠ 0x25 ∧ c ≠ 0

theorem IsPlain.ofList {l : List Char}
    (h : (l.map fun c => UInt8.ofNat c.toNat).all (fun c => decide (c ≠ 0x25 ∧ c ≠ 0)) = true) :
    IsPlain (String.ofList l) := by
  rw [IsPlain, textBytes_ofList]
  exact fun c hc => of_decide_eq_true (List.all_eq_true.mp h c hc)

theorem IsPlain.percent {text : String} (h : IsPlain text) : 0x25 ∉ textBytes text :=
  fun hmem => (h _ hmem).1 rfl

theorem IsPlain.zero {text : String} (h : IsPlain text) : 0 ∉ textBytes text :=
  fun hmem => (h _ hmem).2 rfl

theorem formatText_between (E : PrintfEnv) {args : List PrintfArg} {pre post : String}
    (hpre : IsPlain pre) (hpost : IsPlain post) (s : Option (List UInt8)) :
    E.formatText (textBytes pre ++ (textBytes "%s" ++ textBytes post)) (.string s :: args) =
      some (textBytes pre ++ (stringText s ++ textBytes post)) := by
  rw [formatText_append E hpre.percent, formatText_percent_s, formatText_plain E hpost.percent]
  rfl

/-- No NUL gets in. -/
theorem zero_notMem_between {pre post : String} (hpre : IsPlain pre) (hpost : IsPlain post)
    (s : Option (List UInt8)) : 0 ∉ textBytes pre ++ (stringText s ++ textBytes post) := by
  rw [List.mem_append, List.mem_append]
  rintro (h | h | h)
  · exact hpre.zero h
  · exact zero_notMem_cstr _ h
  · exact hpost.zero h

/-- A string between two texts. -/
theorem Writes.between {s : Option (List UInt8)} (pre post : String)
    (hpattern : textBytes m.pattern = textBytes pre ++ (textBytes "%s" ++ textBytes post))
    (hargs : m.args = [.string s]) (hpre : IsPlain pre) (hpost : IsPlain post)
    (hne : textBytes pre ≠ []) :
    Writes T m (textBytes pre ++ (stringText s ++ textBytes post)) where
  formatText := by
    rw [hpattern, hargs]
    exact formatText_between _ hpre hpost s
  ne_nil := List.append_ne_nil_of_left_ne_nil hne _
  zero := zero_notMem_between hpre hpost s

/-- The message has a text, and room in `sendbuf`. -/
def HasRoom (T : HttpTexts) (m : HttpMessage) : Prop :=
  ∃ text, Writes T m text ∧ text.length < httpBufSize

theorem HasRoom.plain (hplain : IsPlain m.pattern) (hne : textBytes m.pattern ≠ [])
    (hlen : (textBytes m.pattern).length < httpBufSize) : HasRoom T m :=
  ⟨_, ⟨formatText_plain _ hplain.percent, hne, hplain.zero⟩, hlen⟩

/-- A short string in a field. -/
theorem HasRoom.between {s : List UInt8} (pre post : String)
    (hpattern : textBytes m.pattern = textBytes pre ++ (textBytes "%s" ++ textBytes post))
    (hargs : m.args = [.string (some s)]) (hpre : IsPlain pre) (hpost : IsPlain post)
    (hne : textBytes pre ≠ []) (hs : s.length < 128)
    (hlen : (textBytes pre).length + (textBytes post).length < 800) : HasRoom T m := by
  refine ⟨_, Writes.between pre post hpattern hargs hpre hpost hne, ?_⟩
  have htext : (stringText (some s)).length ≤ s.length := cstr_length_le s
  simp only [List.length_append, httpBufSize]
  omega

theorem httpDate_hasRoom (T : HttpTexts) : HasRoom T T.httpDate := by
  refine HasRoom.between "Date: " "\r\n" ?_ rfl (.ofList (by decide)) (.ofList (by decide)) ?_
    (Nat.lt_trans (T.httpdate_length 0) (by decide)) ?_
  · show textBytes "Date: %s\r\n" = _
    rw [textBytes_ofList, textBytes_ofList, textBytes_ofList, textBytes_ofList]
    rfl
  · rw [textBytes_ofList]
    decide
  · rw [textBytes_ofList, textBytes_ofList]
    decide

theorem httpServer_hasRoom (T : HttpTexts) : HasRoom T T.httpServer := by
  refine HasRoom.between "Server: TR-IRCD/httpd-" " (httpd.so)\r\n" ?_ rfl (.ofList (by decide))
    (.ofList (by decide)) ?_ T.version_length ?_
  · show textBytes "Server: TR-IRCD/httpd-%s (httpd.so)\r\n" = _
    rw [textBytes_ofList, textBytes_ofList, textBytes_ofList, textBytes_ofList]
    rfl
  · rw [textBytes_ofList]
    decide
  · rw [textBytes_ofList, textBytes_ofList]
    decide

theorem HasRoom.ofList {l : List Char} {args : List PrintfArg}
    (h : (l.map fun c => UInt8.ofNat c.toNat).all (fun c => decide (c ≠ 0x25 ∧ c ≠ 0)) = true)
    (hne : l ≠ []) (hlen : l.length < httpBufSize) : HasRoom T ⟨String.ofList l, args⟩ := by
  refine .plain (.ofList h) ?_ ?_
  · rw [textBytes_ofList]
    exact List.map_eq_nil_iff.not.mpr hne
  · rwa [textBytes_ofList, List.length_map]

theorem httpConnection_hasRoom (T : HttpTexts) : HasRoom T HttpTexts.httpConnection :=
  .ofList (by decide) (by decide) (by decide)

theorem httpContentType_hasRoom (T : HttpTexts) : HasRoom T HttpTexts.httpContentType :=
  .ofList (by decide) (by decide) (by decide)

theorem httpAllow_hasRoom (T : HttpTexts) : HasRoom T HttpTexts.httpAllow :=
  .ofList (by decide) (by decide) (by decide)

theorem httpRetryAfter_hasRoom (T : HttpTexts) :
    HasRoom T (HttpTexts.httpRetryAfter (some (textBytes "86400"))) := by
  refine HasRoom.between "Retry-After: " "\r\n" ?_ rfl (.ofList (by decide))
    (.ofList (by decide)) ?_ ?_ ?_
  · show textBytes "Retry-After: %s\r\n" = _
    rw [textBytes_ofList, textBytes_ofList, textBytes_ofList, textBytes_ofList]
    rfl
  · rw [textBytes_ofList]
    decide
  · rw [textBytes_ofList]
    decide
  · rw [textBytes_ofList, textBytes_ofList]
    decide

/-- The digits of a number. -/
def decimalText (n : Nat) : List UInt8 :=
  (printfDecimal (UInt64.ofNat n) .none).flatMap Segment.text

theorem contentLength_hasRoom (T : HttpTexts) (len : Nat) :
    HasRoom T ⟨"Content-Length: %d", [.word (UInt64.ofNat len)]⟩ := by
  have hsplit : textBytes "Content-Length: %d" = textBytes "Content-Length: " ++ textBytes "%d" := by
    rw [textBytes_ofList, textBytes_ofList, textBytes_ofList]
    rfl
  have hplain : IsPlain "Content-Length: " := .ofList (by decide)
  have hlen : (textBytes "Content-Length: ").length = 16 := by
    rw [textBytes_ofList]
    rfl
  obtain ⟨hzero, hdigits⟩ := printfDecimal_text (UInt64.ofNat len) .none
  refine ⟨textBytes "Content-Length: " ++ (decimalText len ++ []), ⟨?_, ?_, ?_⟩, ?_⟩
  · show T.printf.formatText (textBytes "Content-Length: %d") _ = _
    rw [hsplit, formatText_append _ hplain.percent, ← List.append_nil (textBytes "%d"),
      formatText_spec T.printf .decimal .none rfl rfl]
    rfl
  · exact List.append_ne_nil_of_left_ne_nil (by rw [textBytes_ofList]; decide) _
  · rw [List.append_nil, List.mem_append]
    rintro (h | h)
    · exact hplain.zero h
    · exact hzero h
  · rw [List.append_nil, List.length_append, hlen, decimalText]
    simp only [httpBufSize]
    omega

/-- What `send_http_status` says of a text from the table. -/
def statusText (n : Nat) (x : Option (List UInt8)) : List UInt8 :=
  textBytes "HTTP/1.1 " ++ (decimalText n ++ (textBytes " " ++ (stringText x ++ textBytes "\r\n")))

theorem formatText_status (E : PrintfEnv) (n : Nat) (arg : PrintfArg) :
    E.formatText (textBytes "HTTP/1.1 %d %s\r\n") [.word (UInt64.ofNat n), arg] =
      (E.formatText (textBytes "%s" ++ textBytes "\r\n") [arg]).map fun rest =>
        textBytes "HTTP/1.1 " ++ (decimalText n ++ (textBytes " " ++ rest)) := by
  have hsplit : textBytes "HTTP/1.1 %d %s\r\n" = textBytes "HTTP/1.1 " ++ (textBytes "%d" ++
      (textBytes " " ++ (textBytes "%s" ++ textBytes "\r\n"))) := by
    rw [textBytes_ofList, textBytes_ofList, textBytes_ofList, textBytes_ofList, textBytes_ofList,
      textBytes_ofList]
    rfl
  have hpre : IsPlain "HTTP/1.1 " := .ofList (by decide)
  have hspace : IsPlain " " := .ofList (by decide)
  rw [hsplit, formatText_append E hpre.percent, formatText_spec E .decimal .none rfl rfl,
    formatText_append E hspace.percent, Option.map_map, Option.map_map]
  rfl

theorem writes_status {n : Nat} {x : Option (List UInt8)} (h : T.errorText n = .string x) :
    Writes T (T.sendHttpStatus n) (statusText n x) where
  formatText := by
    have hend : IsPlain "\r\n" := .ofList (by decide)
    show T.printf.formatText (textBytes "HTTP/1.1 %d %s\r\n") [.word (UInt64.ofNat n), _] = _
    rw [h, formatText_status, formatText_percent_s, formatText_plain _ hend.percent]
    rfl
  ne_nil := List.append_ne_nil_of_left_ne_nil (by rw [textBytes_ofList]; decide) _
  zero := by
    have hpre : IsPlain "HTTP/1.1 " := .ofList (by decide)
    have hspace : IsPlain " " := .ofList (by decide)
    have hend : IsPlain "\r\n" := .ofList (by decide)
    rw [statusText, List.mem_append, List.mem_append]
    rintro (h | h | h)
    · exact hpre.zero h
    · exact (printfDecimal_text _ _).1 h
    · exact zero_notMem_between hspace hend x h

/-! ## Pages -/

/-- What the last message adds behind its first four bytes, which end the
header. -/
def HttpOut.body (out : HttpOut) : List UInt8 := (out.gained.getLastD []).drop 4

/-- A client that is still open has as many bytes of the page as were announced. -/
def Announced (r : HttpOut × Option Nat) : Prop := r.1.link.Open → r.2 = some r.1.body.length

/-- Nothing but a socket that takes more than it is offered stops the function,
and what it announces is there. -/
def Completes (send : Allocator → (Nat → List SocketAnswer) → OutLink Unit →
    Except HttpSendStop (HttpOut × Option Nat)) : Prop :=
  ∀ A answers link, link.bufs.Idle →
    Answers Announced (· = .link (.line .socket)) (send A answers link)

/-- A client with room for ten lines. -/
def waitingLink : OutLink Unit where
  cptr := 0
  fd := 4
  isAnon := false
  isDead := false
  isForeigner := false
  isServer := false
  isNegoServer := false
  zipOut := false
  isRc4Out := false
  sendqex := false
  sendqlen := 10 * bufDataSize
  zout := ()
  rc4Out := ⟨fun _ => 0, 0, 0⟩
  bufs := LineSt.init

theorem waitingLink_waits {lines : Nat} (h : lines ≤ 10) : waitingLink.Waits lines where
  idle := LineSt.init_idle
  isOpen := ⟨by decide, rfl⟩
  room := by
    show (0 : Int) + lines * bufDataSize ≤ 10 * bufDataSize
    simp only [bufDataSize]
    omega

namespace HttpTexts.ErrorPage

variable {p : HttpTexts.ErrorPage}

/-- The messages in front of the page. -/
def front (T : HttpTexts) (p : ErrorPage) (len : Nat) : List HttpMessage :=
  [T.httpDate, T.httpServer, httpConnection] ++ p.field.toList ++
    [httpContentType, ⟨"Content-Length: %d", [.word (UInt64.ofNat len)]⟩]

theorem messages_eq (p : ErrorPage) (len : Nat) (hBuf : List UInt8) :
    p.messages T len hBuf = T.sendHttpStatus p.status ::
      (p.front T len ++ [⟨"\r\n\r\n%s", [.string (some hBuf)]⟩]) := by
  simp [messages, front]

theorem front_allWrite (hfield : ∀ f ∈ p.field, HasRoom T f) (len : Nat) :
    ∃ texts, AllWrite T (p.front T len) texts := by
  have hall : ∀ m ∈ p.front T len, HasRoom T m := by
    intro m hm
    rw [front, List.mem_append, List.mem_append] at hm
    rcases hm with (hm | hm) | hm
    · simp only [List.mem_cons, List.not_mem_nil, or_false] at hm
      rcases hm with rfl | rfl | rfl
      · exact httpDate_hasRoom T
      · exact httpServer_hasRoom T
      · exact httpConnection_hasRoom T
    · exact hfield m (Option.mem_toList.mp hm)
    · simp only [List.mem_cons, List.not_mem_nil, or_false] at hm
      rcases hm with rfl | rfl
      · exact httpContentType_hasRoom T
      · exact contentLength_hasRoom T len
  generalize p.front T len = messages at hall
  induction messages with
  | nil => exact ⟨[], .nil⟩
  | cons m messages ih =>
      obtain ⟨text, htext⟩ := hall m List.mem_cons_self
      obtain ⟨texts, htexts⟩ := ih fun m hm => hall m (List.mem_cons_of_mem _ hm)
      exact ⟨text :: texts, .cons htext htexts⟩

theorem front_length_le (p : ErrorPage) (len : Nat) : (p.front T len).length ≤ 6 := by
  rw [front]
  cases p.field with
  | none => simp
  | some f => simp

/-- The page as it is sent, behind the end of the header. -/
theorem page_writes {t : List UInt8} (hzero : 0 ∉ t) :
    Writes T ⟨"\r\n\r\n%s", [.string (some (blit T.hBuf 0 (t ++ [0])))]⟩
      (textBytes "\r\n\r\n" ++ t) := by
  have hcstr : stringText (some (blit T.hBuf 0 (t ++ [0]))) = t := by
    show cstr (blit _ _ _) = t
    rw [blit, List.take_zero, List.nil_append, List.append_assoc, cstr_append_of_notMem hzero]
    exact List.append_nil t
  have hempty : textBytes "" = [] := textBytes_ofList []
  have := Writes.between (T := T)
    (m := ⟨"\r\n\r\n%s", [.string (some (blit T.hBuf 0 (t ++ [0])))]⟩) "\r\n\r\n" ""
    (by rw [textBytes_ofList, textBytes_ofList, textBytes_ofList, hempty]; rfl) rfl
    (.ofList (by decide)) (.ofList (by decide)) (by rw [textBytes_ofList]; decide)
  rwa [hcstr, hempty, List.append_nil] at this

theorem send_of_text {A : Allocator} {t : List UInt8} (answers : Nat → List SocketAnswer)
    (link : OutLink Unit) (ht : T.printf.formatText (textBytes p.page) p.args = some t)
    (hlt : t.length < httpBufSize) :
    p.send T A answers link =
      (T.sendAll A answers (p.messages T t.length (blit T.hBuf 0 (t ++ [0]))) ⟨link, []⟩).map
        (·, some t.length) := by
  have hfits : 0 + (t ++ [0]).length ≤ T.hBuf.length := by
    rw [T.hBuf_length, List.length_append, List.length_singleton]
    omega
  rw [send, ircsnprintf_text ht hlt]
  simp only
  rw [writeFrom, storeAll_zipIdx _ hfits]

/-- Of a page in a message, the queue gains 508 bytes at most. -/
theorem body_of_gains {link : OutLink Unit} {out' : HttpOut} {texts : List (List UInt8)}
    {t : List UInt8} (h : Gains ⟨link, []⟩ out' (texts ++ [textBytes "\r\n\r\n" ++ t]))
    (ho : out'.link.Open) : out'.body = t.take 508 := by
  have hcrlf : (textBytes "\r\n\r\n").length = 4 := by rw [textBytes_ofList]; rfl
  rw [HttpOut.body, (h.2 ho).2, List.nil_append, List.map_append, List.map_singleton,
    List.getLastD_concat, bufDataSize, List.take_append, hcrlf,
    List.take_of_length_le (by rw [hcrlf]; decide), List.drop_left' hcrlf]

/-- The messages of a page that fits in a message. -/
theorem messages_allWrite (hfield : ∀ f ∈ p.field, HasRoom T f)
    (hstatus : HasRoom T (T.sendHttpStatus p.status)) {t : List UInt8} (hzero : 0 ∉ t)
    (hlt : t.length + 4 < httpBufSize) :
    ∃ texts, AllWrite T (p.messages T t.length (blit T.hBuf 0 (t ++ [0])))
      (texts ++ [textBytes "\r\n\r\n" ++ t]) := by
  obtain ⟨st, hst⟩ := hstatus
  obtain ⟨texts, hfront⟩ := front_allWrite hfield t.length
  have hcrlf : (textBytes "\r\n\r\n").length = 4 := by rw [textBytes_ofList]; rfl
  have hlast : (textBytes "\r\n\r\n" ++ t).length < httpBufSize := by
    rw [List.length_append, hcrlf]
    omega
  refine ⟨st :: texts, ?_⟩
  rw [messages_eq]
  exact .cons hst (List.rel_append hfront (.cons ⟨page_writes hzero, hlast⟩ .nil))

/-- A page that fits in a line is complete. -/
theorem completes_of_fits (hfield : ∀ f ∈ p.field, HasRoom T f)
    (hstatus : HasRoom T (T.sendHttpStatus p.status)) {t : List UInt8}
    (ht : T.printf.formatText (textBytes p.page) p.args = some t) (hzero : 0 ∉ t)
    (hfits : t.length + 4 ≤ bufDataSize) :
    Completes fun A answers link => p.send T A answers link := by
  intro A answers link hidle
  have hsize : t.length + 4 ≤ 512 := hfits
  have hlt : t.length + 4 < httpBufSize := Nat.lt_of_le_of_lt hsize (by decide)
  obtain ⟨texts, hall⟩ := messages_allWrite hfield hstatus hzero hlt
  show Answers _ _ (p.send T A answers link)
  rw [send_of_text answers link ht (Nat.lt_of_le_of_lt (Nat.le_add_right _ 4) hlt)]
  refine (@sendAll_gains T A _ ⟨link, []⟩ answers _ hall hidle).map fun out' h' ho => ?_
  rw [body_of_gains h' ho, List.take_of_length_le (by omega)]

theorem not_completes {send : Allocator → (Nat → List SocketAnswer) → OutLink Unit →
    Except HttpSendStop (HttpOut × Option Nat)} {stop : HttpSendStop}
    (h : send .bump (fun _ => []) waitingLink = .error stop)
    (hstop : stop ≠ .link (.line .socket)) : ¬Completes send := by
  intro hall
  have := hall .bump (fun _ => []) waitingLink LineSt.init_idle
  rw [h] at this
  exact hstop this

/-- A complete page has a text, and that text has room in `hBuf`. -/
theorem text_of_completes (h : Completes fun A answers link => p.send T A answers link) :
    ∃ t, T.printf.formatText (textBytes p.page) p.args = some t ∧ t.length < httpBufSize := by
  cases ht : T.printf.formatText (textBytes p.page) p.args with
  | none =>
      have herr : p.send T .bump (fun _ => []) waitingLink = .error .argument := by
        rw [send, ircsnprintf_none ht]
      exact absurd h (not_completes herr HttpSendStop.noConfusion)
  | some t =>
      refine ⟨t, rfl, ?_⟩
      by_contra hge
      have hout := (ircsnprintf_bounds_iff T.printf httpBufSize (by decide) (textBytes p.page)
        p.args).not.mpr fun hall => hge (hall t ht)
      push Not at hout
      obtain ⟨⟨len, written⟩, hr, hwritten⟩ := hout
      have hnone : storeAll written T.hBuf = none := by
        rw [storeAll_eq_none_iff, T.hBuf_length]
        exact hwritten
      have herr : p.send T .bump (fun _ => []) waitingLink = .error .outside := by
        rw [send, Option.mem_def.mp hr]
        simp only
        rw [hnone]
      exact not_completes herr HttpSendStop.noConfusion h

/-- So has its status. -/
theorem status_of_completes {t : List UInt8}
    (ht : T.printf.formatText (textBytes p.page) p.args = some t) (hlt : t.length < httpBufSize)
    (h : Completes fun A answers link => p.send T A answers link) :
    ∃ x, T.errorText p.status = .string x ∧ (statusText p.status x).length < httpBufSize := by
  have hstop : ∀ stop, T.sendtoHttp .bump (fun _ => []) (T.sendHttpStatus p.status)
      ⟨waitingLink, []⟩ = .error stop → stop = .link (.line .socket) := by
    intro stop hfirst
    by_contra hne
    refine @not_completes _ stop ?_ hne h
    rw [send_of_text _ _ ht hlt, messages_eq, HttpTexts.sendAll, hfirst]
    rfl
  by_cases harg : ∃ x, T.errorText p.status = .string x
  · obtain ⟨x, hx⟩ := harg
    refine ⟨x, hx, ?_⟩
    by_contra hge
    have hover := hstop _ (Writes.overflow (writes_status hx).formatText (not_lt.mp hge) _)
    exact HttpSendStop.noConfusion hover
  · have hnone : T.printf.formatText (textBytes (T.sendHttpStatus p.status).pattern)
        (T.sendHttpStatus p.status).args = none := by
      show T.printf.formatText (textBytes "HTTP/1.1 %d %s\r\n") [_, _] = none
      rw [formatText_status, formatText_percent_s_none _ fun s hs => harg ⟨s, hs⟩]
      rfl
    have hmissing := hstop _ (sendtoHttp_argument hnone _)
    exact HttpSendStop.noConfusion hmissing

/-- And the page is in the last line. -/
theorem fits_of_completes (hfield : ∀ f ∈ p.field, HasRoom T f)
    (hstatus : HasRoom T (T.sendHttpStatus p.status)) {t : List UInt8}
    (ht : T.printf.formatText (textBytes p.page) p.args = some t) (hzero : 0 ∉ t)
    (hlt : t.length < httpBufSize)
    (h : Completes fun A answers link => p.send T A answers link) :
    t.length + 4 ≤ bufDataSize := by
  have hrun := h .bump (fun _ => []) waitingLink LineSt.init_idle
  have hlast := @page_writes T t hzero
  have hcrlf : (textBytes "\r\n\r\n").length = 4 := by rw [textBytes_ofList]; rfl
  simp only [send_of_text _ _ ht hlt] at hrun
  by_cases hsend : t.length + 4 < httpBufSize
  · obtain ⟨texts, hall⟩ := messages_allWrite hfield hstatus hzero hsend
    have hten : (p.messages T t.length (blit T.hBuf 0 (t ++ [0]))).length ≤ 10 := by
      have := front_length_le (T := T) p t.length
      rw [messages_eq, List.length_cons, List.length_append, List.length_singleton]
      omega
    obtain ⟨out', hok, hwait⟩ := @sendAll_waits T .bump _ ⟨waitingLink, []⟩ _ 0 hall
      (waitingLink_waits (by omega))
    have hgains := @sendAll_gains T .bump _ ⟨waitingLink, []⟩ (fun _ => []) _ hall LineSt.init_idle
    rw [hok] at hrun hgains
    have hbody := Option.some.inj (hrun hwait.isOpen)
    rw [body_of_gains hgains hwait.isOpen, List.length_take] at hbody
    simp only [bufDataSize]
    omega
  · obtain ⟨st, hst⟩ := hstatus
    obtain ⟨texts, hfront⟩ := front_allWrite hfield t.length
    have hinit : AllWrite T (T.sendHttpStatus p.status :: p.front T t.length) (st :: texts) :=
      .cons hst hfront
    have hten : (p.front T t.length).length + 1 ≤ 10 := by
      have := front_length_le (T := T) p t.length
      omega
    obtain ⟨out', hok, -⟩ := @sendAll_waits T .bump _ ⟨waitingLink, []⟩ _ 0 hinit
      (waitingLink_waits (by rw [List.length_cons]; omega))
    have hover : T.sendAll .bump (fun _ => [])
        (p.messages T t.length (blit T.hBuf 0 (t ++ [0]))) ⟨waitingLink, []⟩ =
          .error .outside := by
      rw [messages_eq, ← List.cons_append, sendAll_append, hok]
      show (T.sendtoHttp _ _ _ out').bind _ = _
      rw [Writes.overflow hlast.formatText (by rw [List.length_append, hcrlf]; omega)]
      rfl
    rw [hover] at hrun
    exact HttpSendStop.noConfusion hrun

/-- A page is complete if and only if its status has a text with room in
`sendbuf`, and the page a text that fits in a line. -/
theorem completes_iff (hfield : ∀ f ∈ p.field, HasRoom T f)
    (hzero : ∀ t, T.printf.formatText (textBytes p.page) p.args = some t → 0 ∉ t) :
    (Completes fun A answers link => p.send T A answers link) ↔
      (∃ x, T.errorText p.status = .string x ∧ (statusText p.status x).length < httpBufSize) ∧
        ∃ t, T.printf.formatText (textBytes p.page) p.args = some t ∧
          t.length + 4 ≤ bufDataSize := by
  constructor
  · intro h
    obtain ⟨t, ht, hlt⟩ := text_of_completes h
    have hstatus := status_of_completes ht hlt h
    obtain ⟨x, hx, hroom⟩ := hstatus
    exact ⟨⟨x, hx, hroom⟩, t, ht,
      fits_of_completes hfield ⟨_, writes_status hx, hroom⟩ ht (hzero t ht) hlt h⟩
  · rintro ⟨⟨x, hx, hlt⟩, t, ht, hfits⟩
    exact completes_of_fits hfield ⟨_, writes_status hx, hlt⟩ ht (hzero t ht) hfits

/-- A page without a specifier. -/
theorem completes_iff_of_plain (hfield : ∀ f ∈ p.field, HasRoom T f) (hplain : IsPlain p.page)
    (hfits : (textBytes p.page).length + 4 ≤ bufDataSize) :
    (Completes fun A answers link => p.send T A answers link) ↔
      ∃ x, T.errorText p.status = .string x ∧
        (statusText p.status x).length < httpBufSize := by
  have ht : T.printf.formatText (textBytes p.page) p.args = some (textBytes p.page) :=
    formatText_plain _ hplain.percent
  rw [completes_iff hfield fun t ht' => ?_, and_iff_left ⟨_, ht, hfits⟩]
  rw [ht] at ht'
  exact Option.some.inj ht' ▸ hplain.zero

/-- A page with one specifier. -/
theorem completes_iff_of_string (hfield : ∀ f ∈ p.field, HasRoom T f) (pre post : String)
    (hpage : textBytes p.page = textBytes pre ++ (textBytes "%s" ++ textBytes post))
    (hpre : IsPlain pre) (hpost : IsPlain post)
    (hstatus : ∃ x, T.errorText p.status = .string x ∧
      (statusText p.status x).length < httpBufSize) :
    (Completes fun A answers link => p.send T A answers link) ↔
      ∃ s args, p.args = .string s :: args ∧
        (textBytes pre).length + ((stringText s).length + (textBytes post).length) + 4 ≤
          bufDataSize := by
  have htext : ∀ s args, p.args = .string s :: args →
      T.printf.formatText (textBytes p.page) p.args =
        some (textBytes pre ++ (stringText s ++ textBytes post)) := by
    intro s args hargs
    rw [hpage, hargs]
    exact formatText_between _ hpre hpost s
  have hstring : ∀ t, T.printf.formatText (textBytes p.page) p.args = some t →
      ∃ s args, p.args = .string s :: args := by
    intro t ht
    rw [hpage, formatText_append _ hpre.percent] at ht
    cases hargs : p.args with
    | nil =>
        rw [hargs, formatText_percent_s_nil] at ht
        simp at ht
    | cons arg args =>
        by_cases harg : ∃ s, arg = .string s
        · obtain ⟨s, rfl⟩ := harg
          exact ⟨s, args, rfl⟩
        · rw [hargs, formatText_percent_s_none _ fun s hs => harg ⟨s, hs⟩] at ht
          simp at ht
  have hzero : ∀ t, T.printf.formatText (textBytes p.page) p.args = some t → 0 ∉ t := by
    intro t ht
    obtain ⟨s, args, hargs⟩ := hstring t ht
    rw [htext s args hargs] at ht
    exact Option.some.inj ht ▸ zero_notMem_between hpre hpost s
  rw [completes_iff hfield hzero, and_iff_right hstatus]
  constructor
  · rintro ⟨t, ht, hfits⟩
    obtain ⟨s, args, hargs⟩ := hstring t ht
    rw [htext s args hargs] at ht
    obtain rfl := Option.some.inj ht
    rw [List.length_append, List.length_append] at hfits
    exact ⟨s, args, hargs, hfits⟩
  · rintro ⟨s, args, hargs, hfits⟩
    refine ⟨_, htext s args hargs, ?_⟩
    rwa [List.length_append, List.length_append]

end HttpTexts.ErrorPage

/-! ## The statuses -/

section Statuses

variable {document : Option (List UInt8)} {status : Nat}

/-- What the parts of a page that are not fixed must be like. -/
def PageFits (T : HttpTexts) (document : Option (List UInt8)) : Nat → Prop
  | 404 => (stringText document).length ≤ 423
  | 411 => ∃ s args, T.missing = .string s :: args ∧ (stringText s).length ≤ 394
  | 505 => ∃ s, T.behindHerrortab = .string s ∧ (stringText s).length ≤ 1008
  | _ => True

theorem completes_page_iff {p : HttpTexts.ErrorPage} (h : T.errorPage document status = some p) :
    (Completes fun A answers link => T.sendHttpHeader A answers document status link) ↔
      Completes fun A answers link => p.send T A answers link := by
  simp only [HttpTexts.sendHttpHeader, h]

/-! The table first: no text in it is long. -/

theorem statusText_length_le (n : Nat) (x : Option (List UInt8)) :
    (statusText n x).length ≤ (stringText x).length + 77 := by
  have hpre : (textBytes "HTTP/1.1 ").length = 9 := by rw [textBytes_ofList]; rfl
  have hspace : (textBytes " ").length = 1 := by rw [textBytes_ofList]; rfl
  have hend : (textBytes "\r\n").length = 2 := by rw [textBytes_ofList]; rfl
  have hdigits : (decimalText n).length ≤ 65 := (printfDecimal_text _ _).2
  simp only [statusText, List.length_append, hpre, hspace, hend]
  omega

theorem herrortab_length {n : Nat} {text : String} (h : herrortab n = some text) :
    (textBytes text).length ≤ 31 := by
  unfold herrortab at h
  split at h
  all_goals first
    | obtain rfl := Option.some.inj h
      rw [textBytes_ofList]
      decide
    | cases h

theorem errorText_hasRoom {n : Nat} (h : n < 505) :
    ∃ x, T.errorText n = .string x ∧ (statusText n x).length < httpBufSize := by
  refine ⟨_, if_pos h, ?_⟩
  have htext : (stringText ((herrortab n).map textBytes)).length ≤ 31 := by
    refine (cstr_length_le _).trans ?_
    cases hn : herrortab n with
    | none =>
        show (textBytes "<NULL>").length ≤ 31
        rw [textBytes_ofList]
        decide
    | some text => exact herrortab_length hn
  have := statusText_length_le n ((herrortab n).map textBytes)
  simp only [httpBufSize]
  omega

theorem noField : ∀ f ∈ (none : Option HttpMessage), HasRoom T f := by simp

theorem notFound_completes_iff :
    (Completes fun A answers link => (HttpTexts.sendHttpHeaderNf document).send T A answers link) ↔
      (stringText document).length ≤ 423 := by
  have hpage : textBytes (HttpTexts.sendHttpHeaderNf document).page =
      textBytes "<html><head>Page " ++ (textBytes "%s" ++ textBytes
        " not found</head><body>Page does not exist anymore</body></html>\r\n\r\n") := by
    show textBytes "<html><head>Page %s not found</head><body>Page does not exist anymore</body></html>\r\n\r\n" = _
    rw [textBytes_ofList, textBytes_ofList, textBytes_ofList, textBytes_ofList]
    rfl
  have hpre : (textBytes "<html><head>Page ").length = 17 := by rw [textBytes_ofList]; rfl
  have hpost : (textBytes
      " not found</head><body>Page does not exist anymore</body></html>\r\n\r\n").length = 68 := by
    rw [textBytes_ofList]
    rfl
  rw [HttpTexts.ErrorPage.completes_iff_of_string (p := HttpTexts.sendHttpHeaderNf document)
    noField _ _ hpage (.ofList (by decide)) (.ofList (by decide))
    (errorText_hasRoom (by decide : 404 < 505)), hpre, hpost]
  constructor
  · rintro ⟨s, args, hargs, hfits⟩
    obtain ⟨hs, -⟩ := List.cons.inj hargs
    obtain rfl := PrintfArg.string.inj hs
    simp only [bufDataSize] at hfits
    omega
  · intro hfits
    refine ⟨document, [], rfl, ?_⟩
    simp only [bufDataSize]
    omega

theorem lengthRequired_completes_iff :
    (Completes fun A answers link => T.sendHttpHeaderLr.send T A answers link) ↔
      ∃ s args, T.missing = .string s :: args ∧ (stringText s).length ≤ 394 := by
  have hpage : textBytes T.sendHttpHeaderLr.page =
      textBytes "<html><head>Length required</head><body>Unable to understand your request for " ++
        (textBytes "%s" ++ textBytes ". Length required.</body></html>\r\n\r\n") := by
    show textBytes "<html><head>Length required</head><body>Unable to understand your request for %s. Length required.</body></html>\r\n\r\n" = _
    rw [textBytes_ofList, textBytes_ofList, textBytes_ofList, textBytes_ofList]
    rfl
  have hpre : (textBytes
      "<html><head>Length required</head><body>Unable to understand your request for ").length = 78 := by
    rw [textBytes_ofList]
    rfl
  have hpost : (textBytes ". Length required.</body></html>\r\n\r\n").length = 36 := by
    rw [textBytes_ofList]
    rfl
  rw [HttpTexts.ErrorPage.completes_iff_of_string (p := T.sendHttpHeaderLr) noField _ _ hpage
    (.ofList (by decide)) (.ofList (by decide)) (errorText_hasRoom (by decide : 411 < 505)), hpre,
    hpost]
  refine exists_congr fun s => exists_congr fun args => and_congr_right fun _ => ?_
  simp only [bufDataSize]
  omega

/-- A page that is one text, and that text fits in a line. -/
theorem fixed_ofList {l : List Char}
    (h : (l.map fun c => UInt8.ofNat c.toNat).all (fun c => decide (c ≠ 0x25 ∧ c ≠ 0)) = true)
    (hlen : l.length + 4 ≤ bufDataSize) :
    IsPlain (String.ofList l) ∧ (textBytes (String.ofList l)).length + 4 ≤ bufDataSize := by
  refine ⟨.ofList h, ?_⟩
  rwa [textBytes_ofList, List.length_map]

theorem versionNotSupported_completes_iff :
    (Completes fun A answers link => HttpTexts.sendHttpHeaderVns.send T A answers link) ↔
      ∃ s, T.behindHerrortab = .string s ∧ (stringText s).length ≤ 1008 := by
  obtain ⟨hplain, hfits⟩ : IsPlain HttpTexts.sendHttpHeaderVns.page ∧
      (textBytes HttpTexts.sendHttpHeaderVns.page).length + 4 ≤ bufDataSize :=
    fixed_ofList (by decide) (by decide)
  have hpre : (textBytes "HTTP/1.1 ").length = 9 := by rw [textBytes_ofList]; rfl
  have hspace : (textBytes " ").length = 1 := by rw [textBytes_ofList]; rfl
  have hend : (textBytes "\r\n").length = 2 := by rw [textBytes_ofList]; rfl
  have hdigits : (decimalText 505).length = 3 := by decide
  have hbehind : T.errorText 505 = T.behindHerrortab := if_neg (by decide)
  rw [HttpTexts.ErrorPage.completes_iff_of_plain (p := HttpTexts.sendHttpHeaderVns) noField
    hplain hfits]
  show (∃ x, T.errorText 505 = .string x ∧ (statusText 505 x).length < httpBufSize) ↔ _
  rw [hbehind]
  refine exists_congr fun s => and_congr_right fun _ => ?_
  simp only [statusText, List.length_append, hpre, hdigits, hspace, hend, httpBufSize]
  omega

/-- The pages without a specifier whose status is in the table. -/
def fixedPages : List HttpTexts.ErrorPage :=
  [HttpTexts.sendHttpHeaderMna, HttpTexts.sendHttpHeaderSun, HttpTexts.sendHttpHeaderF,
    HttpTexts.sendHttpHeaderEf, HttpTexts.sendHttpHeaderNi, HttpTexts.sendHttpHeaderBr,
    HttpTexts.sendHttpHeaderIe]

theorem fixedPages_fit {p : HttpTexts.ErrorPage} (hp : p ∈ fixedPages) :
    IsPlain p.page ∧ (textBytes p.page).length + 4 ≤ bufDataSize := by
  simp only [fixedPages, List.mem_cons, List.not_mem_nil, or_false] at hp
  rcases hp with rfl | rfl | rfl | rfl | rfl | rfl | rfl
  all_goals exact fixed_ofList (by decide) (by decide)

theorem fixedPages_status : ∀ p ∈ fixedPages, p.status < 505 := by decide

theorem fixedPages_field {p : HttpTexts.ErrorPage} (hp : p ∈ fixedPages) :
    ∀ f ∈ p.field, HasRoom T f := by
  intro f hf
  simp only [fixedPages, List.mem_cons, List.not_mem_nil, or_false] at hp
  rcases hp with rfl | rfl | hnone
  · rw [← Option.some.inj hf]
    exact httpAllow_hasRoom T
  · rw [← Option.some.inj hf]
    exact httpRetryAfter_hasRoom T
  · have : p.field = none := by
      rcases hnone with rfl | rfl | rfl | rfl | rfl <;> rfl
    rw [this] at hf
    exact absurd hf (Option.not_mem_none f)

theorem fixed_completes {p : HttpTexts.ErrorPage} (hp : p ∈ fixedPages) :
    Completes fun A answers link => p.send T A answers link := by
  obtain ⟨hplain, hfits⟩ := fixedPages_fit hp
  exact (HttpTexts.ErrorPage.completes_iff_of_plain (fixedPages_field hp) hplain hfits).mpr
    (errorText_hasRoom (fixedPages_status p hp))

/-- The pages, told apart. -/
theorem errorPage_cases {p : HttpTexts.ErrorPage} (hp : T.errorPage document status = some p) :
    (status = 404 ∧ p = HttpTexts.sendHttpHeaderNf document) ∨
      (status = 411 ∧ p = T.sendHttpHeaderLr) ∨
      (status = 505 ∧ p = HttpTexts.sendHttpHeaderVns) ∨
      (status ≠ 404 ∧ status ≠ 411 ∧ status ≠ 505 ∧ p ∈ fixedPages) := by
  unfold HttpTexts.errorPage at hp
  split at hp
  all_goals first
    | obtain rfl := Option.some.inj hp
      simp [fixedPages]
    | cases hp

end Statuses

/-- Whatever the client and its socket do, an error page is complete in the
queue of a client that is still open, with all writes inside of the buffers,
exactly if the parts of it that are not fixed are short enough. -/
theorem errorPage_complete_iff (T : HttpTexts) (document : Option (List UInt8)) (status : Nat)
    (hpage : (T.errorPage document status).isSome) :
    (Completes fun A answers link => T.sendHttpHeader A answers document status link) ↔
      PageFits T document status := by
  obtain ⟨p, hp⟩ := Option.isSome_iff_exists.mp hpage
  rw [completes_page_iff hp]
  rcases errorPage_cases hp with ⟨rfl, rfl⟩ | ⟨rfl, rfl⟩ | ⟨rfl, rfl⟩ | ⟨h404, h411, h505, hfixed⟩
  · exact notFound_completes_iff
  · exact lengthRequired_completes_iff
  · exact versionNotSupported_completes_iff
  · have htrue : PageFits T document status := by
      unfold PageFits
      split
      · exact absurd rfl h404
      · exact absurd rfl h411
      · exact absurd rfl h505
      · trivial
    exact iff_of_true (fixed_completes hfixed) htrue

theorem someDate_length : (textBytes "Thu, 1 Jan 2004 00:00:00 GMT").length < 80 := by
  rw [textBytes_ofList]
  decide

theorem someVersion_length : (textBytes "TR-IRCD").length < 128 := by
  rw [textBytes_ofList]
  decide

/-- A server whose `herrortab` is followed by what it puts there. -/
def someTexts : HttpTexts where
  printf := ⟨false, fun _ => 0, fun _ => 0⟩
  httpdate _ := textBytes "Thu, 1 Jan 2004 00:00:00 GMT"
  httpdate_length _ := someDate_length
  version := textBytes "TR-IRCD"
  version_length := someVersion_length
  hBuf := List.replicate httpBufSize 0
  hBuf_length := List.length_replicate
  behindHerrortab := .string (some (textBytes "HTTP Version not supported"))
  missing := []

theorem errorPage_complete_login :
    Completes fun A answers link =>
      someTexts.sendHttpHeader A answers (some (textBytes "login.htm")) 404 link := by
  have hshort : (stringText (some (textBytes "login.htm"))).length ≤ 423 := by
    rw [textBytes_ofList]
    decide
  generalize some (textBytes "login.htm") = document at hshort ⊢
  exact (errorPage_complete_iff someTexts document 404 rfl).mpr hshort

/-- The page for a document with a name of 424 characters has 509 bytes, and
one of them is lost. -/
theorem errorPage_cut :
    ¬Completes fun A answers link =>
      someTexts.sendHttpHeader A answers (some (List.replicate 424 0x61)) 404 link := by
  have hname : stringText (some (List.replicate 424 0x61)) = List.replicate 424 0x61 :=
    cstr_of_notMem fun h => absurd (List.eq_of_mem_replicate h) (by decide)
  have hpage : someTexts.errorPage (some (List.replicate 424 0x61)) 404 =
      some (HttpTexts.sendHttpHeaderNf (some (List.replicate 424 0x61))) := rfl
  rw [completes_page_iff hpage, notFound_completes_iff, hname, List.length_replicate]
  decide

end TrIrcd
