import TrIrcd.Lib.Run
import TrIrcd.Proofs.FileReading

/-!
# Characters that are pushed back

A file with characters pushed back should be one stream: the latest of them, then
the others, then the file (`StreamStep`). `fbungetc` and `fbgets` keep to that
(`fbungetc_spec`, `fbgets_pushed`): what is pending stands in order at the end of
`pbuf`, before a NUL that nothing writes over. `fbgetc` does not: it looks whether
the pushed characters are over, and then reads the file all the same. A byte from
`0x80` on it returns below zero. In a run where neither happens, every answer is
what the stream says (`fbRun_follows`).
-/

namespace TrIrcd

open TrIrcd.Lib

/-! ## Runs -/

inductive FbOp
  | ungetc (c : UInt8)
  | getc
  | gets (buf : List UInt8)
deriving DecidableEq, Repr

inductive FbAnswer
  | done
  | char (n : Int)
  | string (buf : List UInt8)
  | null
deriving DecidableEq, Repr

namespace Fbfile

def answer (bufsiz : Nat) (fb : Fbfile) : FbOp → Except TextFault (FbAnswer × Fbfile)
  | .ungetc c => (fb.fbungetc bufsiz c).map (FbAnswer.done, ·)
  | .getc => (fb.fbgetc bufsiz).map fun r => (.char r.1, r.2)
  | .gets buf => (fb.fbgets buf).map fun r => ((r.1.map FbAnswer.string).getD .null, r.2)

/-- A step, and the answers so far. -/
def step (bufsiz : Nat) (s : Fbfile × List FbAnswer) (op : FbOp) :
    Except TextFault (Fbfile × List FbAnswer) :=
  (s.1.answer bufsiz op).map fun r => (r.2, s.2 ++ [r.1])

/-- What was pushed back, and what is left of the file. -/
def pending (bufsiz : Nat) (fb : Fbfile) : List UInt8 := cstr (fb.pbuf.drop (fb.pbptr.getD bufsiz))

/-- The next byte of the file. -/
def nextByte (fb : Fbfile) : Option UInt8 :=
  if fb.ptr < fb.endp then fb.buf[fb.ptr]?
  else
    match fb.reads with
    | .data bytes :: _ => bytes.head?
    | _ => none

end Fbfile

/-- What is pushed back is no NUL and has a place, and a buffer is longer than what
it is for. -/
def FbAllowed (bufsiz : Nat) (s : Fbfile × List FbAnswer) : FbOp → Prop
  | .ungetc c => c ≠ 0 ∧ (s.1.pending bufsiz).length < bufsiz
  | .getc => True
  | .gets buf => 2 ≤ buf.length ∧ (s.1.pending bufsiz).length < buf.length

instance (bufsiz : Nat) (s : Fbfile × List FbAnswer) :
    ∀ op, Decidable (FbAllowed bufsiz s op)
  | .ungetc c => inferInstanceAs (Decidable (c ≠ 0 ∧ (s.1.pending bufsiz).length < bufsiz))
  | .getc => .isTrue trivial
  | .gets buf =>
      inferInstanceAs (Decidable (2 ≤ buf.length ∧ (s.1.pending bufsiz).length < buf.length))

/-- A single character is read only when none is pending, and if it has no sign. -/
def FbRight (bufsiz : Nat) (s : Fbfile × List FbAnswer) : FbOp → Prop
  | .getc => s.1.pending bufsiz = [] ∧ ∀ c, s.1.nextByte = some c → c < 0x80
  | _ => True

instance (bufsiz : Nat) (s : Fbfile × List FbAnswer) : ∀ op, Decidable (FbRight bufsiz s op)
  | .ungetc _ => .isTrue trivial
  | .getc =>
      match h : s.1.nextByte with
      | none => decidable_of_iff (s.1.pending bufsiz = []) (by simp [FbRight, h])
      | some c => decidable_of_iff (s.1.pending bufsiz = [] ∧ c < 0x80) (by simp [FbRight, h])
  | .gets _ => .isTrue trivial

/-! ## The stream -/

/-- What is pending, the latest first, and the text of the file. -/
structure FbStream where
  pending : List UInt8
  text : List UInt8

/-- What an operation on a stream answers, and what it leaves. A string is in order
and is not empty; it has the line ends of the file made one. -/
inductive StreamStep : FbStream → FbOp → FbAnswer → FbStream → Prop
  | ungetc {pending text : List UInt8} {c : UInt8} :
      StreamStep ⟨pending, text⟩ (.ungetc c) .done ⟨c :: pending, text⟩
  | pushed {pending text : List UInt8} {c : UInt8} :
      StreamStep ⟨c :: pending, text⟩ .getc (.char c.toNat) ⟨pending, text⟩
  | byte {text : List UInt8} {c : UInt8} :
      StreamStep ⟨[], c :: text⟩ .getc (.char c.toNat) ⟨[], text⟩
  | eof : StreamStep ⟨[], []⟩ .getc (.char (-1)) ⟨[], []⟩
  | gets {pending pending' text text' line behind buf : List UInt8} (hne : line ≠ [])
      (hpending : pending' <:+ pending) (htext : text' <:+ text)
      (hline : line ++ (pending' ++ unixText text') = pending ++ unixText text) :
      StreamStep ⟨pending, text⟩ (.gets buf) (.string (line ++ 0 :: behind)) ⟨pending', text'⟩
  | none {buf : List UInt8} : StreamStep ⟨[], []⟩ (.gets buf) .null ⟨[], []⟩

inductive StreamRun : FbStream → List FbOp → List FbAnswer → FbStream → Prop
  | nil {s : FbStream} : StreamRun s [] [] s
  | cons {s s' s'' : FbStream} {op : FbOp} {a : FbAnswer} {ops : List FbOp}
      {as : List FbAnswer} (h : StreamStep s op a s') (hrest : StreamRun s' ops as s'') :
      StreamRun s (op :: ops) (a :: as) s''

theorem StreamRun.head {s s'' : FbStream} {op : FbOp} {ops : List FbOp} {answers : List FbAnswer}
    (h : StreamRun s (op :: ops) answers s'') :
    ∃ a as s', answers = a :: as ∧ StreamStep s op a s' ∧ StreamRun s' ops as s'' := by
  cases h with
  | cons h hrest => exact ⟨_, _, _, rfl, h, hrest⟩

/-- The run answers as the stream does. -/
def FbFollows (bufsiz : Nat) (text : List UInt8) (reads : List ReadCall) (ops : List FbOp) : Prop :=
  ∃ s stream, run (Fbfile.step bufsiz) (Fbfile.fdbopen bufsiz reads, []) ops = .ok s ∧
    StreamRun ⟨[], text⟩ ops s.2 stream

/-! ## The operations -/

section Operations

variable {bufsiz : Nat} {pending text : List UInt8} {fb : Fbfile}

theorem pending_eq (h : FbHolds bufsiz pending text fb) : fb.pending bufsiz = pending := by
  rw [Fbfile.pending, h.pushed.drop, cstr_terminated h.pushed.noNul]

theorem nextByte_eq (h : FbHolds bufsiz pending text fb) : fb.nextByte = text.head? := by
  rw [Fbfile.nextByte]
  split
  · next hptr =>
      obtain ⟨c, rest, rfl, hchar, -⟩ := text_cons h hptr
      rw [Fbfile.char] at hchar
      split at hchar
      · cases hchar
      · next d hd =>
          cases hchar
          exact hd
  · next hptr =>
      obtain ⟨blocks, hreads, htext, hblocks⟩ :=
        drained_text h (Nat.le_antisymm h.ptr (Nat.not_lt.mp hptr))
      rw [hreads, ← htext]
      cases blocks with
      | nil => rfl
      | cons bytes blocks =>
          obtain ⟨hpos, -⟩ := hblocks bytes (List.mem_cons_self ..)
          cases bytes with
          | nil => exact absurd hpos (Nat.lt_irrefl 0)
          | cons b bytes => rfl

/-- The place of the latest character. -/
theorem pushed_place (h : FbHolds bufsiz pending text fb) :
    fb.pbptr.getD bufsiz + pending.length = bufsiz := by
  have hlen := congrArg List.length h.pushed.drop
  rw [List.length_drop, h.pushed.length, List.length_append, List.length_singleton] at hlen
  omega

theorem fbungetc_spec (h : FbHolds bufsiz pending text fb) {c : UInt8} (hc : c ≠ 0)
    (hroom : pending.length < bufsiz) :
    ∃ fb', fb.fbungetc bufsiz c = .ok fb' ∧ FbHolds bufsiz (c :: pending) text fb' := by
  have hplace := pushed_place h
  obtain ⟨p, hp⟩ : ∃ p, fb.pbptr.getD bufsiz = p + 1 :=
    Nat.exists_eq_succ_of_ne_zero (by omega)
  have hlt : p < fb.pbuf.length := by
    rw [h.pushed.length]
    omega
  have hdrop : (fb.pbuf.set p c).drop p = c :: pending ++ [0] := by
    rw [List.drop_set, if_neg (Nat.lt_irrefl p), Nat.sub_self, List.drop_eq_getElem_cons hlt,
      List.set_cons_zero, ← hp, h.pushed.drop, List.cons_append]
  have hput : putByte fb.pbuf p c = .ok (fb.pbuf.set p c) := if_pos hlt
  refine ⟨{ fb with pbptr := some p, pbuf := fb.pbuf.set p c }, ?_,
    ⟨by rw [List.length_set, h.pushed.length], hdrop, ?_, ?_⟩, h.length, h.endp, h.ptr, h.text,
    h.flags⟩
  · rw [Fbfile.fbungetc, hp]
    show (if p + 1 ≠ 0 then (putByte fb.pbuf p c).bind _ else _) = _
    rw [if_pos (Nat.succ_ne_zero p), hput]
    rfl
  · exact iff_of_false (Option.some_ne_none p) (List.cons_ne_nil c pending)
  · intro hz
    rcases List.mem_cons.mp hz with hz | hz
    · exact hc hz.symm
    · exact h.pushed.noNul hz

/-- What is pending is read at once. -/
theorem fbgets_pushed (h : FbHolds bufsiz pending text fb) (hne : pending ≠ []) {buf : List UInt8}
    (hbuf : pending.length < buf.length) :
    ∃ behind fb', fb.fbgets buf = .ok (some (pending ++ 0 :: behind), fb') ∧
      FbHolds bufsiz [] text fb' := by
  obtain ⟨p, hp⟩ := Option.ne_none_iff_exists'.mp (mt h.pushed.empty.mp hne)
  have hdrop := h.pushed.drop
  rw [hp, Option.getD_some] at hdrop
  have hcopied : cstr ((fb.pbuf.drop p).take buf.length) = pending := by
    rw [hdrop, List.take_of_length_le, cstr_terminated h.pushed.noNul]
    rw [List.length_append, List.length_singleton]
    exact hbuf
  have hfits : (cstr ((fb.pbuf.drop p).take buf.length)).length < buf.length := by
    rw [hcopied]
    exact hbuf
  have hstore := storeAll_strlcpyIrc hfits
  rw [hcopied, blit, List.take_zero, List.nil_append, List.append_assoc] at hstore
  have hend : fb.pbuf.drop bufsiz = [0] := by
    have hplace := pushed_place h
    rw [hp, Option.getD_some] at hplace
    rw [← hplace, ← List.drop_drop, hdrop, List.drop_left]
  have hrun : fb.fbgets buf =
      .ok (some (pending ++ 0 :: buf.drop (0 + (pending ++ [0]).length)),
        { fb with pbptr := none }) := by
    rw [Fbfile.fbgets, hp]
    simp only [hstore]
    rfl
  exact ⟨_, _, hrun, ⟨h.pushed.length, hend, iff_of_true rfl rfl, List.not_mem_nil⟩, h.length,
    h.endp, h.ptr, h.text, h.flags⟩

/-- A character of the file. -/
theorem fbgetc_spec (h : FbHolds bufsiz [] text fb) :
    ∃ fb', fb.fbgetc bufsiz = .ok ((text.head?.map charInt).getD (-1), fb') ∧
      FbHolds bufsiz [] text.tail fb' := by
  obtain ⟨hmore, hfb, hready⟩ := more_spec h
  have hcheck : fb.checkPushed bufsiz = .ok fb := by
    rw [Fbfile.checkPushed, h.pushed.empty.mpr rfl]
  rw [Fbfile.fbgetc, hcheck]
  simp only [bind, Except.bind]
  generalize fb.more = r at hmore hfb hready
  obtain ⟨ready, fb1⟩ := r
  cases text with
  | nil =>
      cases hmore
      exact ⟨fb1, rfl, hfb⟩
  | cons c text =>
      cases hmore
      obtain ⟨d, rest, heq, hchar, hadvance⟩ := text_cons hfb (hready (List.cons_ne_nil c text))
      cases heq
      refine ⟨fb1.advance, ?_, hadvance⟩
      have hc : fb1.char = .ok c := hchar
      simp only [hc, if_true]
      rfl

/-- One step: where the condition holds, the answer is that of the stream. -/
theorem answer_follows {op : FbOp} {answers : List FbAnswer} (h : FbHolds bufsiz pending text fb)
    (hallowed : FbAllowed bufsiz (fb, answers) op) (hright : FbRight bufsiz (fb, answers) op) :
    ∃ a fb' pending' text', fb.answer bufsiz op = .ok (a, fb') ∧
      StreamStep ⟨pending, text⟩ op a ⟨pending', text'⟩ ∧ FbHolds bufsiz pending' text' fb' := by
  cases op with
  | ungetc c =>
      obtain ⟨hc, hroom⟩ := hallowed
      rw [pending_eq h] at hroom
      obtain ⟨fb', hrun, hfb'⟩ := fbungetc_spec h hc hroom
      exact ⟨_, fb', _, _, by rw [Fbfile.answer, hrun]; rfl, .ungetc, hfb'⟩
  | getc =>
      obtain ⟨hnone, hsign⟩ := hright
      rw [pending_eq h] at hnone
      subst hnone
      rw [nextByte_eq h] at hsign
      obtain ⟨fb', hrun, hfb'⟩ := fbgetc_spec h
      refine ⟨_, fb', _, _, by rw [Fbfile.answer, hrun]; rfl, ?_, hfb'⟩
      cases text with
      | nil => exact .eof
      | cons c text =>
          have hc : charInt c = c.toNat := if_pos (hsign c rfl)
          show StreamStep _ _ (.char (charInt c)) _
          rw [hc]
          exact .byte
  | gets buf =>
      obtain ⟨hlen, hbuf⟩ := hallowed
      rw [pending_eq h] at hbuf
      by_cases hne : pending = []
      · subst hne
        rcases fbgets_cases hlen h with ⟨rfl, fb', hrun, hfb'⟩ |
          ⟨line, rest, behind, fb', hrun, hline, hshort, hfb'⟩
        · exact ⟨_, fb', _, _, by rw [Fbfile.answer, hrun]; rfl, .none, hfb'⟩
        · refine ⟨_, fb', _, _, by rw [Fbfile.answer, hrun]; rfl, ?_, hfb'⟩
          have htext : text ≠ [] := List.ne_nil_of_length_pos (Nat.zero_lt_of_lt hshort)
          refine .gets (hline.ne_nil (by omega) htext) List.suffix_rfl hline.rest ?_
          rw [List.nil_append, List.nil_append, hline.unix]
      · obtain ⟨behind, fb', hrun, hfb'⟩ := fbgets_pushed h hne hbuf
        exact ⟨_, fb', _, _, by rw [Fbfile.answer, hrun]; rfl,
          .gets hne (List.nil_suffix) List.suffix_rfl rfl, hfb'⟩

theorem run_follows : ∀ {ops : List FbOp} {pending text : List UInt8} {fb : Fbfile}
    {answers : List FbAnswer}, FbHolds bufsiz pending text fb →
      Meets (Fbfile.step bufsiz) (FbAllowed bufsiz) (fb, answers) ops →
      Meets (Fbfile.step bufsiz) (FbRight bufsiz) (fb, answers) ops →
        ∃ fb' as stream, run (Fbfile.step bufsiz) (fb, answers) ops = .ok (fb', answers ++ as) ∧
          StreamRun ⟨pending, text⟩ ops as stream := by
  intro ops
  induction ops with
  | nil =>
      intro pending text fb answers _ _ _
      exact ⟨fb, [], _, by rw [List.append_nil]; rfl, .nil⟩
  | cons op ops ih =>
      intro pending text fb answers h hallowed hright
      obtain ⟨a, fb', pending', text', hanswer, hstep, hfb'⟩ :=
        answer_follows h hallowed.1 hright.1
      have hone : Fbfile.step bufsiz (fb, answers) op = .ok (fb', answers ++ [a]) := by
        rw [Fbfile.step, hanswer]
        rfl
      obtain ⟨fb'', as, stream, hrun, hfollows⟩ := ih hfb' (hallowed.2 _ hone) (hright.2 _ hone)
      refine ⟨fb'', a :: as, stream, ?_, .cons hstep hfollows⟩
      rw [run_cons_ok.mpr ⟨_, hone, hrun⟩, List.append_assoc, List.singleton_append]

end Operations

/-- In a run where no character is read while others are pending, or reads as a
negative one, every answer is that of the stream. -/
theorem fbRun_follows {bufsiz : Nat} {text : List UInt8} {reads : List ReadCall} {ops : List FbOp}
    (hreads : SplitReads bufsiz text reads)
    (hallowed : Meets (Fbfile.step bufsiz) (FbAllowed bufsiz) (Fbfile.fdbopen bufsiz reads, []) ops)
    (hright : Meets (Fbfile.step bufsiz) (FbRight bufsiz) (Fbfile.fdbopen bufsiz reads, []) ops) :
    FbFollows bufsiz text reads ops := by
  obtain ⟨fb', as, stream, hrun, hfollows⟩ := run_follows (fdbopen_holds hreads) hallowed hright
  exact ⟨_, stream, hrun, hfollows⟩

set_option maxRecDepth 4000 in
/-- A line, a character that is read and pushed back, and the rest with it. -/
theorem fbRun_follows_line : FbFollows 256 [0x61, 0x0d, 0x0a, 0x62, 0x63]
    [.data [0x61, 0x0d], .data [0x0a, 0x62, 0x63]]
    [.gets [0, 0, 0, 0], .getc, .ungetc 0x62, .gets [0, 0, 0, 0], .getc, .getc] :=
  fbRun_follows ⟨[[0x61, 0x0d], [0x0a, 0x62, 0x63]], rfl, rfl, by decide⟩ (by decide)
    (by decide)

set_option maxRecDepth 4000 in
/-- A character that is pushed back is not read, and one from `0x80` on is negative. -/
theorem fbRun_diverges :
    (Meets (Fbfile.step 256) (FbAllowed 256) (Fbfile.fdbopen 256 [.data [0x78]], [])
        [.ungetc 0x61, .getc] ∧
      ¬ FbFollows 256 [0x78] [.data [0x78]] [.ungetc 0x61, .getc]) ∧
      ¬ FbFollows 256 [0xe9] [.data [0xe9]] [.getc] := by
  refine ⟨⟨by decide, ?_⟩, ?_⟩
  · rintro ⟨⟨fb, answers⟩, stream, hrun, hfollows⟩
    have hanswers : (run (Fbfile.step 256) (Fbfile.fdbopen 256 [.data [0x78]], [])
        [.ungetc 0x61, .getc]).map Prod.snd = .ok [.done, .char 0x78] := by decide
    rw [hrun] at hanswers
    obtain ⟨a, as, s', heq, hstep, hrest⟩ := hfollows.head
    cases hstep
    obtain ⟨a', as', s'', heq', hstep', -⟩ := hrest.head
    have hchar : a' = .char (0x61 : UInt8).toNat := by
      cases hstep'
      rfl
    rw [heq', hchar] at heq
    cases heq.symm.trans (Except.ok.inj hanswers)
  · rintro ⟨⟨fb, answers⟩, stream, hrun, hfollows⟩
    have hanswers : (run (Fbfile.step 256) (Fbfile.fdbopen 256 [.data [0xe9]], [])
        [.getc]).map Prod.snd = .ok [.char (-23)] := by decide
    rw [hrun] at hanswers
    obtain ⟨a, as, s', heq, hstep, -⟩ := hfollows.head
    have hchar : a = .char (0xe9 : UInt8).toNat := by
      cases hstep
      rfl
    rw [hchar] at heq
    cases heq.symm.trans (Except.ok.inj hanswers)

end TrIrcd
