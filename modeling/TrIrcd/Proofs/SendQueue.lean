import TrIrcd.Proofs.LineLengths

/-!
# What goes out on the send queues

Messages are put into a buffer of the sender's own, attached to the send
queues of the clients they go to, and written queue by queue, as much at a
time as a socket takes. `OutSt` keeps beside the buffers what was put into
each, what was attached to each queue and what each socket took, and
`Sending` relates them: what was attached to a queue is what its socket took
and what the lines of its list still hold, from the queue's offset on.

The mark `flushing` belongs to the line and is shared, the offset belongs to
the queue. A queue whose offset is not 0 has a marked line in front
(`Queued.begun`), so the one place that resets an offset, where a line gets
its mark, only ever resets 0.
-/

namespace TrIrcd

open Function (update)
open TrIrcd.Lib

inductive OutOp
  | put (n : Nat) (buf : List UInt8)
  | attach (cptr n : Nat)
  | donebuf (n : Nat)
  | flush (cptr : Nat) (retval : Int)

structure OutSt where
  st : LineSt
  /-- What was put into a sender's buffer. -/
  written : Nat → List UInt8
  /-- What was attached to a client's queue, from the beginning. -/
  attached : Nat → List UInt8
  /-- What a client's socket took, from the beginning. -/
  sent : Nat → List UInt8

namespace OutSt

def init : OutSt where
  st := LineSt.init
  written _ := []
  attached _ := []
  sent _ := []

def step (A : Allocator) (o : OutSt) : OutOp → Except LineStop OutSt
  | .put n buf => (linebufPut A (.linebuf n) buf o.st).map fun st =>
      { o with
        st := st
        written := update o.written n (o.written n ++ buf.take bufDataSize) }
  | .attach cptr n => (linebufAttach (.sendQ cptr) (.linebuf n) o.st).map fun st =>
      { o with
        st := st
        attached := update o.attached cptr (o.attached cptr ++ o.written n) }
  | .donebuf n => (linebufDonebuf (.linebuf n) o.st).map fun st =>
      { o with st := st, written := update o.written n [] }
  | .flush cptr retval => (linebufFlush (.sendQ cptr) retval o.st).map fun r =>
      { o with st := r.2.2, sent := update o.sent cptr (o.sent cptr ++ r.2.1) }

end OutSt

/-! ## Lines that stay as they are -/

/-- The line keeps its bytes, and its mark if it has it. -/
structure BufLine.Kept (ln ln' : BufLine) : Prop where
  buf : ln'.buf = ln.buf
  len : ln'.len = ln.len
  terminated : ln'.terminated = ln.terminated
  flushing : ln.flushing = true → ln'.flushing = true

theorem BufLine.Kept.refl (ln : BufLine) : ln.Kept ln := ⟨rfl, rfl, rfl, id⟩

theorem BufLine.Kept.recount (ln : BufLine) (refcount : Int) :
    ln.Kept { ln with refcount := refcount } := ⟨rfl, rfl, rfl, id⟩

theorem BufLine.Kept.trans {ln ln' ln'' : BufLine} (h : ln.Kept ln') (h' : ln'.Kept ln'') :
    ln.Kept ln'' :=
  ⟨h'.buf.trans h.buf, h'.len.trans h.len, h'.terminated.trans h.terminated,
    fun hf => h'.flushing (h.flushing hf)⟩

theorem BufLine.Kept.rest {ln ln' : BufLine} (h : ln.Kept ln') (writeofs : Nat) :
    ln'.rest writeofs = ln.rest writeofs := by
  rw [BufLine.rest, BufLine.rest, h.buf, h.len]

theorem kept_update {line : Nat → BufLine} {bufline : Nat} {ln : BufLine}
    (h : (line bufline).Kept ln) (l : Nat) : (line l).Kept (update line bufline ln l) := by
  by_cases he : l = bufline
  · rw [he, Function.update_self]
    exact h
  · rw [Function.update_of_ne he]
    exact BufLine.Kept.refl _

section Bytes

variable {line line' : Nat → BufLine}

theorem lineBytes_append (ls ms : List Nat) :
    lineBytes line (ls ++ ms) = lineBytes line ls ++ lineBytes line ms :=
  List.flatMap_append

theorem lineBytes_cons (l : Nat) (ls : List Nat) :
    lineBytes line (l :: ls) = (line l).rest 0 ++ lineBytes line ls := List.flatMap_cons

theorem lineBytes_congr {ls : List Nat} (h : ∀ l ∈ ls, (line l).Kept (line' l)) :
    lineBytes line' ls = lineBytes line ls := by
  induction ls with
  | nil => rfl
  | cons l ls ih =>
      rw [lineBytes_cons, lineBytes_cons, (h l (List.mem_cons_self ..)).rest,
        ih fun m hm => h m (List.mem_cons_of_mem _ hm)]

theorem BufLine.Sized.length_rest {ln : BufLine} (h : ln.Sized) (writeofs : Nat) :
    (ln.rest writeofs).length = ln.len - writeofs := by
  have := h.len
  have := h.buf
  rw [BufLine.rest, List.length_drop, List.length_take]
  omega

theorem lineBytes_drop {l : Nat} {writeofs : Nat} (hsized : (line l).Sized)
    (hofs : writeofs ≤ (line l).len) (ls : List Nat) :
    (lineBytes line (l :: ls)).drop writeofs =
      (line l).rest writeofs ++ lineBytes line ls := by
  rw [lineBytes_cons, List.drop_append_of_le_length (by rw [hsized.length_rest]; exact hofs)]
  rfl

end Bytes

/-! ## One queue -/

/-- The state of a queue between two calls. -/
structure Queued (line : Nat → BufLine) (hd : BufHead) (attached sent : List UInt8) :
    Prop where
  begun : 0 < hd.writeofs → ∃ l rest, hd.list = l :: rest ∧ (line l).flushing = true ∧
    hd.writeofs < (line l).len
  bytes : attached = sent ++ (lineBytes line hd.list).drop hd.writeofs

section Queued

variable {line line' : Nat → BufLine} {hd hd' : BufHead} {attached sent : List UInt8}

theorem Queued.sent_le (h : Queued line hd attached sent) : sent <+: attached :=
  ⟨_, h.bytes.symm⟩

theorem Queued.eq_of_empty (h : Queued line hd attached sent) (hnil : hd.list = []) :
    sent = attached := by
  rw [h.bytes, hnil]
  simp [lineBytes]

/-- The offset lies in the first line. -/
theorem Queued.writeofs_le (h : Queued line hd attached sent)
    (hsized : ∀ l, (line l).Sized) :
    hd.writeofs ≤ (lineBytes line hd.list).length := by
  rcases Nat.eq_zero_or_pos hd.writeofs with hz | hpos
  · omega
  · obtain ⟨l, rest, hlist, -, hlt⟩ := h.begun hpos
    rw [hlist, lineBytes_cons, List.length_append, (hsized l).length_rest]
    omega

/-- More lines at the end; the lines that were there are kept. -/
theorem Queued.append (h : Queued line hd attached sent) (hsized : ∀ l, (line l).Sized)
    {ls : List Nat} (hlist : hd'.list = hd.list ++ ls) (hofs : hd'.writeofs = hd.writeofs)
    (hkept : ∀ l ∈ hd.list, (line l).Kept (line' l)) :
    Queued line' hd' (attached ++ lineBytes line' ls) sent where
  begun hpos := by
    rw [hofs] at hpos
    obtain ⟨l, rest, hl, hf, hlt⟩ := h.begun hpos
    have hk := hkept l (by rw [hl]; exact List.mem_cons_self ..)
    exact ⟨l, rest ++ ls, by rw [hlist, hl]; rfl, hk.flushing hf, by rw [hofs, hk.len]; exact hlt⟩
  bytes := by
    rw [hlist, hofs, lineBytes_append, lineBytes_congr hkept,
      List.drop_append_of_le_length (h.writeofs_le hsized), ← List.append_assoc, ← h.bytes]

theorem Queued.congr (h : Queued line hd attached sent) (hsized : ∀ l, (line l).Sized)
    (hlist : hd'.list = hd.list) (hofs : hd'.writeofs = hd.writeofs)
    (hkept : ∀ l ∈ hd.list, (line l).Kept (line' l)) : Queued line' hd' attached sent := by
  have happ := @Queued.append _ line' _ hd' _ _ h hsized []
    (by rw [hlist, List.append_nil]) hofs hkept
  simpa [lineBytes] using happ

/-- The socket took a part of the first line. -/
theorem Queued.part (h : Queued line hd attached sent) (hsized : ∀ l, (line l).Sized)
    {l : Nat} {rest : List Nat} (hl : hd.list = l :: rest) (hf : (line l).flushing = true)
    {n : Nat} (hn : hd.writeofs + n < (line l).len) (hlist : hd'.list = hd.list)
    (hofs : hd'.writeofs = hd.writeofs + n) :
    Queued line hd' attached (sent ++ ((line l).rest hd.writeofs).take n) where
  begun _ := ⟨l, rest, hlist.trans hl, hf, by rw [hofs]; exact hn⟩
  bytes := by
    have hb := h.bytes
    have hdrop : (line l).rest (hd.writeofs + n) = ((line l).rest hd.writeofs).drop n := by
      rw [BufLine.rest, BufLine.rest, List.drop_drop]
    rw [hl, lineBytes_drop (hsized l) (by omega)] at hb
    rw [hb, hlist, hl, hofs, lineBytes_drop (hsized l) (by omega), hdrop,
      List.append_assoc sent, ← List.append_assoc (List.take _ _), List.take_append_drop]

/-- The socket took what was left of the first line. -/
theorem Queued.all (h : Queued line hd attached sent) (hsized : ∀ l, (line l).Sized)
    {l : Nat} {rest : List Nat} (hl : hd.list = l :: rest)
    {n : Nat} (hn : hd.writeofs + n = (line l).len) (hlist : hd'.list = rest)
    (hofs : hd'.writeofs = 0) (hkept : ∀ m ∈ rest, (line m).Kept (line' m)) :
    Queued line' hd' attached (sent ++ ((line l).rest hd.writeofs).take n) where
  begun hpos := by omega
  bytes := by
    have hb := h.bytes
    rw [hl, lineBytes_drop (hsized l) (by omega)] at hb
    rw [hb, hlist, hofs, List.drop_zero, lineBytes_congr hkept, List.take_of_length_le,
      List.append_assoc]
    rw [(hsized l).length_rest]
    omega

end Queued

/-- The buffers, and what they were given and gave. -/
structure Sending (o : OutSt) : Prop extends Accounted o.st where
  terminated : ∀ h, ∀ l ∈ (o.st.head h).list, (o.st.line l).terminated = true
  written : ∀ n, o.written n = lineBytes o.st.line (o.st.head (.linebuf n)).list
  queued : ∀ cptr, Queued o.st.line (o.st.head (.sendQ cptr)) (o.attached cptr)
    (o.sent cptr)

theorem OutSt.init_sending : Sending OutSt.init where
  toAccounted := LineSt.init_accounted
  terminated h l hl := by cases hl
  written _ := rfl
  queued _ := ⟨fun h => absurd h (Nat.lt_irrefl 0), rfl⟩

/-! ## Putting -/

variable {o : OutSt} {s : LineSt}

section Put

variable (A : Allocator) (bufhead : HeadId) (buf : List UInt8) (s)

theorem putLine_eq : linebufPutLine A bufhead buf s =
    (linebufNewLine A bufhead s).2.store bufhead (linebufNewLine A bufhead s).1
      { (linebufNewLine A bufhead s).2.line (linebufNewLine A bufhead s).1 with
        buf := blit ((linebufNewLine A bufhead s).2.line
          (linebufNewLine A bufhead s).1).buf 0 (buf.take bufDataSize)
        len := (buf.take bufDataSize).length
        terminated := true }
      (buf.take bufDataSize).length := rfl

theorem putLine_head {h : HeadId} (hh : h ≠ bufhead) :
    (linebufPutLine A bufhead buf s).head h = s.head h :=
  (Function.update_of_ne hh ..).trans (newLine_head A bufhead s hh)

theorem putLine_list : ((linebufPutLine A bufhead buf s).head bufhead).list =
    (s.head bufhead).list ++ [(linebufNewLine A bufhead s).1] := by
  rw [putLine_eq, store_list, newLine_head_self]

theorem putLine_line {l : Nat} (hl : l ≠ (linebufNewLine A bufhead s).1) :
    (linebufPutLine A bufhead buf s).line l = s.line l := by
  rw [putLine_eq, store_line, Function.update_of_ne hl, newLine_line A bufhead s hl]

/-- The new line holds the bytes, as far as a line can. -/
theorem putLine_line_self :
    ((linebufPutLine A bufhead buf s).line (linebufNewLine A bufhead s).1).rest 0 =
        buf.take bufDataSize ∧
      ((linebufPutLine A bufhead buf s).line
        (linebufNewLine A bufhead s).1).terminated = true := by
  rw [putLine_eq, store_line, Function.update_self]
  refine ⟨?_, rfl⟩
  have htake := @take_blit ((linebufNewLine A bufhead s).2.line
    (linebufNewLine A bufhead s).1).buf (buf.take bufDataSize) 0 (Nat.zero_le _)
  rw [Nat.zero_add, List.take_zero, List.nil_append] at htake
  exact htake

end Put

theorem putLine_sending (A : Allocator) (n : Nat) (buf : List UInt8) (h : Sending o) :
    Sending { o with
      st := linebufPutLine A (.linebuf n) buf o.st
      written := update o.written n (o.written n ++ buf.take bufDataSize) } := by
  have hfresh := newLine_fresh A (.linebuf n) o.st
  have hkept : ∀ hd, ∀ l ∈ (o.st.head hd).list,
      (o.st.line l).Kept ((linebufPutLine A (.linebuf n) buf o.st).line l) := by
    intro hd l hl
    rw [putLine_line]
    · exact BufLine.Kept.refl _
    · intro heq
      subst heq
      exact hfresh (h.live hd _ hl)
  obtain ⟨htext, hterm⟩ := putLine_line_self o.st A (.linebuf n) buf
  refine ⟨h.toAccounted.putLine A (.linebuf n) buf, fun hd l hl => ?_, fun m => ?_,
    fun cptr => ?_⟩
  · by_cases hh : hd = .linebuf n
    · rw [hh, putLine_list] at hl
      rcases List.mem_append.mp hl with hl | hl
      · rw [(hkept _ l hl).terminated]
        exact h.terminated _ l hl
      · rw [List.mem_singleton.mp hl]
        exact hterm
    · rw [putLine_head o.st A (.linebuf n) buf hh] at hl
      rw [(hkept hd l hl).terminated]
      exact h.terminated hd l hl
  · show update o.written n _ m = _
    by_cases hm : m = n
    · rw [hm, Function.update_self, putLine_list, lineBytes_append,
        lineBytes_congr (hkept _), lineBytes_cons, htext, h.written]
      simp [lineBytes]
    · have hne : HeadId.linebuf m ≠ .linebuf n := by simpa using hm
      rw [Function.update_of_ne hm, putLine_head o.st A (.linebuf n) buf hne,
        lineBytes_congr (hkept _), h.written]
  · have hne : HeadId.sendQ cptr ≠ .linebuf n := HeadId.noConfusion
    have hhead := putLine_head o.st A (.linebuf n) buf hne
    exact (h.queued cptr).congr h.sized (congrArg BufHead.list hhead)
      (congrArg BufHead.writeofs hhead) (hkept _)

/-! ## Attaching -/

/-- Attached lines are at the end of one list, and no line has changed but
for its count. -/
theorem attachLines_eq (bufhead : HeadId) :
    ∀ (ls : List Nat) (s : LineSt),
      (∀ h, h ≠ bufhead →
        (ls.foldl (linebufAttachLine bufhead) s).head h = s.head h) ∧
      ((ls.foldl (linebufAttachLine bufhead) s).head bufhead).list =
        (s.head bufhead).list ++ ls ∧
      ((ls.foldl (linebufAttachLine bufhead) s).head bufhead).writeofs =
        (s.head bufhead).writeofs ∧
      ∀ l, (s.line l).Kept ((ls.foldl (linebufAttachLine bufhead) s).line l) := by
  intro ls
  induction ls with
  | nil =>
      intro s
      exact ⟨fun _ _ => rfl, (List.append_nil _).symm, rfl, fun _ => BufLine.Kept.refl _⟩
  | cons l ls ih =>
      intro s
      obtain ⟨hother, hlist, hofs, hkept⟩ := ih (linebufAttachLine bufhead s l)
      have hself : (linebufAttachLine bufhead s l).head bufhead =
          { s.head bufhead with
            list := (s.head bufhead).list ++ [l]
            alloclen := (s.head bufhead).alloclen + 1
            len := (s.head bufhead).len + (s.line l).len
            numlines := (s.head bufhead).numlines + 1 } := Function.update_self ..
      rw [List.foldl_cons]
      refine ⟨fun h hh => ?_, ?_, ?_, fun m => ?_⟩
      · rw [hother h hh]
        exact Function.update_of_ne hh ..
      · rw [hlist, hself, List.append_assoc]
        rfl
      · rw [hofs, hself]
      · exact BufLine.Kept.trans (kept_update (BufLine.Kept.recount (s.line l) _) m) (hkept m)

theorem attach_sending (cptr n : Nat) (h : Sending o) :
    Sending { o with
      st := (o.st.head (.linebuf n)).list.foldl (linebufAttachLine (.sendQ cptr)) o.st
      attached := update o.attached cptr (o.attached cptr ++ o.written n) } := by
  obtain ⟨hother, hlist, hofs, hkept⟩ :=
    attachLines_eq (.sendQ cptr) (o.st.head (.linebuf n)).list o.st
  refine ⟨attachLines_accounted _ _ h.toAccounted (h.live _), fun hd l hl => ?_,
    fun m => ?_, fun c => ?_⟩
  · rw [(hkept l).terminated]
    by_cases hh : hd = .sendQ cptr
    · rw [hh, hlist] at hl
      rcases List.mem_append.mp hl with hl | hl
      · exact h.terminated _ l hl
      · exact h.terminated _ l hl
    · rw [hother hd hh] at hl
      exact h.terminated hd l hl
  · rw [hother _ HeadId.noConfusion, lineBytes_congr fun l _ => hkept l]
    exact h.written m
  · show Queued _ _ (update o.attached cptr _ c) _
    by_cases hc : c = cptr
    · rw [hc, Function.update_self, h.written, ← lineBytes_congr fun l _ => hkept l]
      exact (h.queued cptr).append h.sized hlist hofs fun l _ => hkept l
    · have hne : HeadId.sendQ c ≠ .sendQ cptr := by simpa using hc
      rw [Function.update_of_ne hc, hother _ hne]
      exact (h.queued c).congr h.sized rfl rfl fun l _ => hkept l

/-! ## Done with a buffer -/

/-- The heads but one, and all lines, are kept. -/
structure KeptBut (bufhead : HeadId) (s s' : LineSt) : Prop where
  head : ∀ h, h ≠ bufhead → s'.head h = s.head h
  line : ∀ l, (s.line l).Kept (s'.line l)

theorem DoneLine.keptBut {bufhead : HeadId} {bufline : Nat} {rest : List Nat}
    {s' : LineSt} (h : DoneLine bufhead bufline rest s s') : KeptBut bufhead s s' where
  head hd hh := by rw [h.head, Function.update_of_ne hh]
  line l := by
    rw [h.line]
    exact kept_update (BufLine.Kept.recount (s.line bufline) _) l

/-- `linebuf_donebuf` empties the list. -/
theorem linebufDonebuf_ok (bufhead : HeadId) (h : Accounted s) :
    ∃ s', linebufDonebuf bufhead s = .ok s' ∧ Accounted s' ∧
      (s'.head bufhead).list = [] ∧ KeptBut bufhead s s' := by
  have hloop : ∀ ls {s : LineSt}, Accounted s → (s.head bufhead).list = ls →
      ∃ s', linebufDonebufLoop bufhead ls.length s = .ok s' ∧ Accounted s' ∧
        (s'.head bufhead).list = [] ∧ KeptBut bufhead s s' := by
    intro ls
    induction ls with
    | nil =>
        intro s h hnil
        exact ⟨s, rfl, h, hnil, fun _ _ => rfl, fun _ => BufLine.Kept.refl _⟩
    | cons l ls ih =>
        intro s h hlist
        obtain ⟨m, hok, hd, hm⟩ := h.doneLine hlist
        have hrest : (m.head bufhead).list = ls := by
          rw [hd.head, Function.update_self]
        obtain ⟨s', hok', h', hnil, hk⟩ := ih hm hrest
        refine ⟨s', ?_, h', hnil, fun hd' hh => ?_, fun x => ?_⟩
        · rw [List.length_cons, linebufDonebufLoop, if_neg (by rw [hlist]; simp), hok]
          exact hok'
        · rw [hk.head hd' hh, hd.keptBut.head hd' hh]
        · exact (hd.keptBut.line x).trans (hk.line x)
  exact hloop _ h rfl

theorem donebuf_sending (A : Allocator) (n : Nat) (h : Sending o) :
    Answers Sending (· = .socket) (o.step A (.donebuf n)) := by
  obtain ⟨s', hok, h', hnil, hk⟩ := linebufDonebuf_ok (.linebuf n) h.toAccounted
  simp only [OutSt.step, hok]
  refine ⟨h', fun hd l hl => ?_, fun m => ?_, fun cptr => ?_⟩
  · rw [(hk.line l).terminated]
    by_cases hh : hd = .linebuf n
    · rw [hh, hnil] at hl
      cases hl
    · rw [hk.head hd hh] at hl
      exact h.terminated hd l hl
  · show update o.written n [] m = _
    by_cases hm : m = n
    · rw [hm, Function.update_self, hnil]
      rfl
    · have hne : HeadId.linebuf m ≠ .linebuf n := by simpa using hm
      rw [Function.update_of_ne hm, hk.head _ hne, lineBytes_congr fun l _ => hk.line l]
      exact h.written m
  · rw [hk.head _ HeadId.noConfusion]
    exact (h.queued cptr).congr h.sized rfl rfl fun l _ => hk.line l

/-! ## Flushing -/

/-- The mark makes no difference to any head: one that has written a part of
its first line finds the mark there. -/
theorem startFlush_head {bufhead : HeadId} {bufline : Nat}
    (h : (s.line bufline).flushing = false → (s.head bufhead).writeofs = 0) :
    (s.startFlush bufhead bufline).head = s.head := by
  rw [LineSt.startFlush]
  split
  · rfl
  · next hf =>
      have hz := h (by simpa using hf)
      funext hd
      by_cases hh : hd = bufhead
      · rw [hh, setWriteofs_head_self]
        show { s.head bufhead with writeofs := 0 } = s.head bufhead
        rw [← hz]
      · rw [setWriteofs_head _ _ _ hh]

theorem startFlush_kept (bufhead : HeadId) (bufline l : Nat) :
    (s.line l).Kept ((s.startFlush bufhead bufline).line l) := by
  rw [startFlush_line]
  exact ⟨rfl, rfl, rfl, fun hf => by rw [hf, Bool.true_or]⟩

/-- A state with the same heads, lines kept. -/
theorem Sending.congr {s' : LineSt} (h : Sending o) (h' : Accounted s')
    (hhead : s'.head = o.st.head) (hkept : ∀ l, (o.st.line l).Kept (s'.line l)) :
    Sending { o with st := s' } where
  toAccounted := h'
  terminated hd l hl := by
    rw [(hkept l).terminated]
    rw [show ({ o with st := s' } : OutSt).st.head = o.st.head from hhead] at hl
    exact h.terminated hd l hl
  written n := by
    rw [show ({ o with st := s' } : OutSt).st.head = o.st.head from hhead,
      lineBytes_congr fun l _ => hkept l]
    exact h.written n
  queued cptr := by
    rw [show ({ o with st := s' } : OutSt).st.head = o.st.head from hhead]
    exact (h.queued cptr).congr h.sized rfl rfl fun l _ => hkept l

/-- One head has changed, the queue of one client, and so has what that
client was sent. -/
theorem Sending.sent {cptr : Nat} {s' : LineSt} {sent : List UInt8} (h : Sending o)
    (h' : Accounted s') (hk : KeptBut (.sendQ cptr) o.st s')
    (hlist : (s'.head (.sendQ cptr)).list ⊆ (o.st.head (.sendQ cptr)).list)
    (hq : Queued s'.line (s'.head (.sendQ cptr)) (o.attached cptr) sent) :
    Sending { o with st := s', sent := update o.sent cptr sent } where
  toAccounted := h'
  terminated hd l hl := by
    rw [(hk.line l).terminated]
    by_cases hh : hd = .sendQ cptr
    · rw [hh] at hl
      exact h.terminated _ l (hlist hl)
    · rw [show ({ o with st := s', sent := update o.sent cptr sent } : OutSt).st.head hd =
        o.st.head hd from hk.head hd hh] at hl
      exact h.terminated hd l hl
  written n := by
    rw [show ({ o with st := s', sent := update o.sent cptr sent } : OutSt).st.head
        (.linebuf n) = o.st.head (.linebuf n) from hk.head _ HeadId.noConfusion,
      lineBytes_congr fun l _ => hk.line l]
    exact h.written n
  queued c := by
    show Queued s'.line (s'.head _) (o.attached c) (update o.sent cptr sent c)
    by_cases hc : c = cptr
    · rw [hc, Function.update_self]
      exact hq
    · have hne : HeadId.sendQ c ≠ .sendQ cptr := by simpa using hc
      rw [Function.update_of_ne hc, hk.head _ hne]
      exact (h.queued c).congr h.sized rfl rfl fun l _ => hk.line l

theorem Sending.sent_nil (h : Sending o) (cptr : Nat) :
    Sending { o with sent := update o.sent cptr (o.sent cptr ++ []) } := by
  rw [List.append_nil, Function.update_eq_self]
  exact h

section Flush

variable {cptr l n : Nat} {rest : List Nat}

theorem flush_part (h : Sending o) (hlist : (o.st.head (.sendQ cptr)).list = l :: rest)
    (hf : (o.st.line l).flushing = true)
    (hn : (o.st.head (.sendQ cptr)).writeofs + n < (o.st.line l).len) :
    Sending { o with
      st := o.st.setWriteofs (.sendQ cptr) ((o.st.head (.sendQ cptr)).writeofs + n)
      sent := update o.sent cptr (o.sent cptr ++
        ((o.st.line l).rest (o.st.head (.sendQ cptr)).writeofs).take n) } := by
  have hself := setWriteofs_head_self o.st (.sendQ cptr)
    ((o.st.head (.sendQ cptr)).writeofs + n)
  refine h.sent (h.toAccounted.setWriteofs (.sendQ cptr) _) ⟨fun hd hh => setWriteofs_head _ _ _ hh,
    fun _ => BufLine.Kept.refl _⟩ (by rw [setWriteofs_list]; exact List.Subset.refl _) ?_
  exact (h.queued cptr).part h.sized hlist hf hn (by rw [hself]) (by rw [hself])

theorem flush_all (h : Sending o) (hlist : (o.st.head (.sendQ cptr)).list = l :: rest)
    (hn : (o.st.head (.sendQ cptr)).writeofs + n = (o.st.line l).len) :
    ∃ s', linebufDoneLine (.sendQ cptr) (o.st.setWriteofs (.sendQ cptr) 0) = .ok s' ∧
      Sending { o with
        st := s'
        sent := update o.sent cptr (o.sent cptr ++
          ((o.st.line l).rest (o.st.head (.sendQ cptr)).writeofs).take n) } := by
  obtain ⟨s', hok, hd, h'⟩ := (h.toAccounted.setWriteofs (.sendQ cptr) 0).doneLine
    ((setWriteofs_list o.st (.sendQ cptr) 0 _).trans hlist)
  have hself : s'.head (.sendQ cptr) = { o.st.head (.sendQ cptr) with
      list := rest
      alloclen := (o.st.head (.sendQ cptr)).alloclen - 1
      len := (o.st.head (.sendQ cptr)).len - (o.st.line l).len
      numlines := (o.st.head (.sendQ cptr)).numlines - 1
      writeofs := 0 } := by
    rw [hd.head, Function.update_self, setWriteofs_head_self]
    rfl
  refine ⟨s', hok, h.sent h' ⟨fun hd' hh => ?_, hd.keptBut.line⟩ ?_ ?_⟩
  · rw [hd.keptBut.head hd' hh, setWriteofs_head _ _ _ hh]
  · rw [hself, hlist]
    exact List.subset_cons_self ..
  · exact (h.queued cptr).all h.sized hlist hn (by rw [hself]) (by rw [hself])
      fun m _ => hd.keptBut.line m

end Flush

theorem flush_sending (A : Allocator) (cptr : Nat) (retval : Int) (h : Sending o) :
    Answers Sending (· = .socket) (o.step A (.flush cptr retval)) := by
  cases hlist : (o.st.head (.sendQ cptr)).list with
  | nil =>
      simp only [OutSt.step, linebufFlush, hlist]
      exact h.sent_nil cptr
  | cons l rest =>
      have hl : l ∈ (o.st.head (.sendQ cptr)).list := by
        rw [hlist]
        exact List.mem_cons_self ..
      have hzero : (o.st.line l).flushing = false →
          (o.st.head (.sendQ cptr)).writeofs = 0 := by
        intro hf
        by_contra hne
        obtain ⟨l', rest', hl', hf', -⟩ := (h.queued cptr).begun (Nat.pos_of_ne_zero hne)
        rw [hlist] at hl'
        cases hl'
        rw [hf] at hf'
        cases hf'
      have hhead := startFlush_head hzero
      have hmarked : ((o.st.startFlush (.sendQ cptr) l).line l).flushing = true := by
        rw [startFlush_line]
        simp
      have hkept := @startFlush_kept o.st (.sendQ cptr) l
      have hmark := h.congr (h.toAccounted.startFlush (.sendQ cptr) l) hhead hkept
      simp only [OutSt.step, linebufFlush, hlist, h.terminated _ l hl]
      rw [if_neg (not_not.mpr trivial), ← (hkept l).rest, ← (hkept l).len]
      rw [← hhead] at hlist
      generalize o.st.startFlush (.sendQ cptr) l = s at *
      split
      · exact hmark.sent_nil cptr
      · split
        · exact rfl
        · have hsize : ((s.line l).rest (s.head (.sendQ cptr)).writeofs).length =
              (s.line l).len - (s.head (.sendQ cptr)).writeofs :=
            (hmark.sized l).length_rest _
          split
          · next hall =>
              have hlen := ((hmark.toAccounted.setWriteofs (.sendQ cptr) 0).exact
                (.sendQ cptr)).nonneg
              obtain ⟨s', hok, h'⟩ := flush_all hmark hlist hall
              rw [if_neg (not_lt.mpr hlen), hok]
              exact h'
          · refine flush_part hmark hlist hmarked ?_
            show (s.head (.sendQ cptr)).writeofs + retval.toNat < (s.line l).len
            omega

theorem step_sending (A : Allocator) (o : OutSt) (op : OutOp) (h : Sending o) :
    Answers Sending (· = .socket) (o.step A op) := by
  cases op with
  | put n buf =>
      have hput : linebufPut A (.linebuf n) buf o.st =
          .ok (linebufPutLine A (.linebuf n) buf o.st) := by
        rw [linebufPut]
        split
        · rfl
        · next l hlast =>
            rw [if_pos (h.terminated _ l (List.mem_of_getLast? hlast))]
      simp only [OutSt.step, hput]
      exact putLine_sending A n buf h
  | attach cptr n =>
      have hattach : linebufAttach (.sendQ cptr) (.linebuf n) o.st =
          .ok ((o.st.head (.linebuf n)).list.foldl (linebufAttachLine (.sendQ cptr)) o.st) := by
        rw [linebufAttach, if_neg fun hself => HeadId.noConfusion hself.1]
      simp only [OutSt.step, hattach]
      exact attach_sending cptr n h
  | donebuf n => exact donebuf_sending A n h
  | flush cptr retval => exact flush_sending A cptr retval h

/-- Whatever is put, attached and dropped, and however much each socket takes
at a time, what a socket took is the beginning of what was attached to its
queue, all of it once the queue is empty. No call fails, unless a socket takes
more than it is offered. -/
theorem output_in_order (A : Allocator) (ops : List OutOp) :
    Answers (fun o : OutSt => ∀ cptr, o.sent cptr <+: o.attached cptr ∧
        ((o.st.head (.sendQ cptr)).list = [] → o.sent cptr = o.attached cptr))
      (· = .socket) (run (OutSt.step A) OutSt.init ops) := by
  have hrun := run_answers (fun o op h _ => step_sending A o op h) ops OutSt.init_sending
    (Meets.of_forall (fun _ _ => trivial) ops)
  cases hr : run (OutSt.step A) OutSt.init ops with
  | error e =>
      rw [hr] at hrun
      exact hrun
  | ok o =>
      rw [hr] at hrun
      exact fun cptr => ⟨(hrun.queued cptr).sent_le, (hrun.queued cptr).eq_of_empty⟩

end TrIrcd
