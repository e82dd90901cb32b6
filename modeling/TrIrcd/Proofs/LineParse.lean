import TrIrcd.Proofs.LineChunks
import TrIrcd.Proofs.LineLengths

/-!
# Reading lines from chunks

`parseChunks` feeds a connection's data to its receive buffer, `getLines`
takes the terminated lines out again, and `userLines` is what the user's
parser then sees: the non-empty lines, as the strings they are read as.
`Received` ties the buffer to the lines and the part of a line of `Absorbs`,
and what holds there holds here: the lines do not depend on the chunks
exactly when the stream is `Bounded`.
-/

namespace TrIrcd

open Function (update)
open TrIrcd.Lib

/-- `linebuf_parse` chunk by chunk. -/
def parseChunks (A : Allocator) (bufhead : HeadId) :
    List (List UInt8) → LineSt → Except LineStop LineSt
  | [], s => .ok s
  | chunk :: chunks, s =>
      (linebufParse A bufhead chunk 0 false s).bind fun r =>
        parseChunks A bufhead chunks r.2

/-- `linebuf_get` until it answers no line; every turn but the last takes one
off the list. -/
def getLines (bufhead : HeadId) (buflen : Nat) :
    Nat → LineSt → Except LineStop (List (List UInt8))
  | 0, _ => .ok []
  | fuel + 1, s =>
      (linebufGet bufhead buflen false false s).bind fun r =>
        match r with
        | (none, _) => .ok []
        | (some text, s) => (getLines bufhead buflen fuel s).map (text :: ·)

/-- The non-empty lines a user's parser sees of a stream that came in chunks. -/
def userLines (A : Allocator) (bufhead : HeadId) (buflen : Nat)
    (chunks : List (List UInt8)) : Except LineStop (List (List UInt8)) :=
  (parseChunks A bufhead chunks LineSt.init).bind fun s =>
    (getLines bufhead buflen (s.head bufhead).list.length s).map fun lines =>
      (lines.map cstr).filter fun w => !w.isEmpty

/-! ## The buffer -/

/-- The strings in the lines of a list. -/
def readLines (line : Nat → BufLine) (ls : List Nat) : List (List UInt8) :=
  (ls.map fun l => cstr ((line l).text false)).filter fun w => !w.isEmpty

/-- The lines of a buffer that is only read into: those that are terminated
and those that can still be added to. The head may count too much. -/
structure Reading (bufhead : HeadId) (closed opened : List Nat) (s : LineSt) : Prop
    extends Counted s where
  sized : ∀ l, (s.line l).Sized
  list : (s.head bufhead).list = closed ++ opened
  once : (closed ++ opened).Nodup
  len : (lenSum s.line (closed ++ opened) : Int) ≤ (s.head bufhead).len
  plain : ∀ l ∈ closed ++ opened, (s.line l).raw = false ∧ (s.line l).flushing = false ∧
    (s.line l).len < bufDataSize
  terminated : ∀ l ∈ closed, (s.line l).terminated = true

/-- A line with a part of a line in it. -/
structure OpenLine (ln : BufLine) (part : List UInt8) : Prop where
  terminated : ln.terminated = false
  text : ln.buf.take ln.len = part
  ends : EndsInText part
  nul : 0 ∉ part

/-- What a buffer holds after a part of a stream. -/
def Received (bufhead : HeadId) (st : Lines) (s : LineSt) : Prop :=
  ∃ closed opened, Reading bufhead closed opened s ∧ readLines s.line closed = st.1 ∧
    ((opened = [] ∧ st.2 = []) ∨ ∃ l, opened = [l] ∧ OpenLine (s.line l) st.2)

theorem BufLine.text_of_raw {ln : BufLine} (h : ln.raw = false) :
    ln.text false = ln.buf.take ln.len := by
  rw [BufLine.text, if_neg (by rw [h]; exact fun hr => Bool.false_ne_true hr.1)]

theorem readLines_append_singleton (line : Nat → BufLine) (ls : List Nat) (l : Nat) :
    readLines line (ls ++ [l]) = close (readLines line ls) (cstr ((line l).text false)) := by
  rw [readLines, readLines, List.map_append, List.filter_append, close]
  rfl

theorem readLines_congr {line line' : Nat → BufLine} {ls : List Nat}
    (h : ∀ l ∈ ls, line' l = line l) : readLines line' ls = readLines line ls := by
  rw [readLines, readLines]
  congr 1
  exact List.map_congr_left fun l hl => by rw [h l hl]

theorem init_received (bufhead : HeadId) : Received bufhead ([], []) LineSt.init :=
  ⟨[], [], ⟨LineSt.init_counted, LineSt.init_accounted.sized, rfl, List.nodup_nil,
    Int.le_refl _, fun _ hl => (by cases hl), fun _ hl => (by cases hl)⟩, rfl,
    Or.inl ⟨rfl, rfl⟩⟩

variable {bufhead : HeadId} {closed opened : List Nat} {s : LineSt} {l : Nat}

/-! ## One copy -/

theorem Reading.notMem_closed (h : Reading bufhead closed [l] s) : ∀ m ∈ closed, m ≠ l := by
  rintro m hm rfl
  exact (List.nodup_append.mp h.once).2.2 m hm m (List.mem_singleton_self m) rfl

/-- A copy stores the open line, longer by no more than it adds to the head. -/
theorem Reading.store (h : Reading bufhead closed [l] s) (ln : BufLine) (added : Nat)
    (hr : ln.refcount = (s.line l).refcount) (hln : ln.Sized)
    (hlen : ln.len ≤ (s.line l).len + added) (hraw : ln.raw = false)
    (hflush : ln.flushing = (s.line l).flushing) (hroom : ln.len < bufDataSize) :
    Reading bufhead closed [l] (s.store bufhead l ln added) := by
  have hne := h.notMem_closed
  have hclosed : ∀ m ∈ closed, (s.store bufhead l ln added).line m = s.line m := fun m hm =>
    Function.update_of_ne (hne m hm) ..
  have hself : (s.store bufhead l ln added).line l = ln := Function.update_self ..
  refine ⟨h.toCounted.store hr, sized_update h.sized hln, ?_, h.once, ?_, fun m hm => ?_,
    fun m hm => ?_⟩
  · rw [store_list, h.list]
  · have hsum := h.len
    have hhead : ((s.store bufhead l ln added).head bufhead).len =
        (s.head bufhead).len + added := by
      simp only [LineSt.store, Function.update_self]
    rw [lenSum_append, lenSum_cons] at hsum ⊢
    rw [hhead, lenSum_congr fun m hm => by rw [hclosed m hm], hself]
    simp only [lenSum] at hsum ⊢
    omega
  · rcases List.mem_append.mp hm with hc | hl
    · rw [hclosed m hc]
      exact h.plain m hm
    · rw [List.mem_singleton.mp hl, hself, hflush]
      exact ⟨hraw, (h.plain l (by simp)).2.1, hroom⟩
  · rw [hclosed m hm]
    exact h.terminated m hm

/-- The open line is closed. -/
theorem Reading.close (h : Reading bufhead closed [l] s)
    (hterm : (s.line l).terminated = true) : Reading bufhead (closed ++ [l]) [] s where
  toCounted := h.toCounted
  sized := h.sized
  list := by rw [h.list, List.append_nil]
  once := by
    rw [List.append_nil]
    exact h.once
  len := by
    rw [List.append_nil]
    exact h.len
  plain m hm := h.plain m (by rwa [List.append_nil] at hm)
  terminated m hm := by
    rcases List.mem_append.mp hm with hm | hm
    · exact h.terminated m hm
    · rw [List.mem_singleton.mp hm]
      exact hterm

/-- The closed lines read as before a copy into the open one. -/
theorem Reading.readLines_store (h : Reading bufhead closed [l] s) (ln : BufLine)
    (added : Nat) :
    readLines (s.store bufhead l ln added).line closed = readLines s.line closed :=
  readLines_congr fun m hm => by
    rw [store_line, Function.update_of_ne (h.notMem_closed m hm)]

/-- A copy that terminates the open line adds it to the closed ones. -/
theorem Reading.close_store (h : Reading bufhead closed [l] s) {ln : BufLine} {added : Nat}
    (hstore : Reading bufhead closed [l] (s.store bufhead l ln added))
    (hraw : ln.raw = false) (hterm : ln.terminated = true) :
    Reading bufhead (closed ++ [l]) [] (s.store bufhead l ln added) ∧
      readLines (s.store bufhead l ln added).line (closed ++ [l]) =
        TrIrcd.Lib.close (readLines s.line closed) (cstr (ln.buf.take ln.len)) := by
  have hself : (s.store bufhead l ln added).line l = ln := Function.update_self ..
  refine ⟨hstore.close (by rw [hself]; exact hterm), ?_⟩
  rw [readLines_append_singleton, h.readLines_store, hself, BufLine.text_of_raw hraw]

theorem cstr_append_replicate {w : List UInt8} (hw : 0 ∉ w) (z : Nat) :
    cstr (w ++ List.replicate z 0) = w := by
  rw [cstr_append_of_notMem hw]
  cases z with
  | zero => rw [List.replicate_zero, cstr_nil, List.append_nil]
  | succ z => rw [List.replicate_succ, cstr_cons_zero, List.append_nil]

theorem notMem_upToEol {data : List UInt8} (h : 0 ∉ data) : 0 ∉ upToEol data :=
  fun hm => h ((List.takeWhile_sublist _).subset hm)

/-- A copy into the open line is what `absorb` says. -/
theorem copy_absorb (h : Reading bufhead closed [l] s) {part data : List UInt8}
    (ho : OpenLine (s.line l) part) (hdata : data ≠ []) (hnul : 0 ∉ data) :
    ∃ s', linebufCopyLine bufhead l data s =
        .ok ((upToEol data).length + (eolsAfter data).length, s') ∧
      let st := absorb (readLines s.line closed, part) (upToEol data) (eolsAfter data)
      ((Reading bufhead (closed ++ [l]) [] s' ∧ readLines s'.line (closed ++ [l]) = st.1 ∧
          st.2 = []) ∨
        (eolsAfter data = [] ∧ Reading bufhead closed [l] s' ∧
          readLines s'.line closed = st.1 ∧ OpenLine (s'.line l) st.2)) := by
  obtain ⟨-, hflush, hroom⟩ := h.plain l (by simp)
  have hsized := h.sized l
  have hpart : part.length = (s.line l).len := by
    rw [← ho.text, List.length_take, hsized.buf]
    omega
  have hnul' : 0 ∉ part ++ upToEol data := fun hm =>
    (List.mem_append.mp hm).elim ho.nul (notMem_upToEol hnul)
  obtain ⟨buf, hbuf, ⟨hclen, htext, hok⟩ | ⟨hclen, htext, hok⟩⟩ :=
    @linebufCopyLine_cases s bufhead l data hsized.buf hroom ho.terminated hdata
  · rw [ho.text, hpart] at htext
    have hstore := h.store ((s.line l).filled buf (eolsAfter data ≠ [])
      ((s.line l).len + (upToEol data).length)) (upToEol data).length rfl
      ⟨hbuf, by dsimp only [BufLine.filled]; omega,
        fun _ => by dsimp only [BufLine.filled]; omega⟩
      (Nat.le_refl _) rfl rfl (by dsimp only [BufLine.filled]; omega)
    refine ⟨_, hok, ?_⟩
    rw [absorb, if_neg (by dsimp only; omega)]
    rcases eq_or_ne (eolsAfter data) [] with he | he
    · rw [if_pos he]
      refine Or.inr ⟨he, hstore, h.readLines_store _ _, ?_⟩
      rw [store_line, Function.update_self]
      refine ⟨?_, htext, ?_, hnul'⟩
      · rw [he]
        rfl
      · exact endsInText_append ho.ends fun c hc => not_isEol_of_mem_upToEol hc
    · obtain ⟨hclose, hlines⟩ := h.close_store hstore rfl (decide_eq_true he)
      rw [if_neg he]
      refine Or.inl ⟨hclose, ?_, rfl⟩
      rw [hlines]
      show close _ (cstr (buf.take ((s.line l).len + (upToEol data).length))) = _
      rw [htext, cstr_of_notMem hnul']
  · rw [ho.text] at htext
    obtain ⟨z, htext⟩ := htext ho.ends
    have hstore := h.store ((s.line l).filled buf true (bufDataSize - 1)) (bufDataSize - 1) rfl
      ⟨hbuf, by dsimp only [BufLine.filled]; omega,
        fun _ => by dsimp only [BufLine.filled]; omega⟩
      (Nat.le_add_left ..) rfl rfl (by dsimp only [BufLine.filled]; omega)
    obtain ⟨hclose, hlines⟩ := h.close_store hstore rfl rfl
    refine ⟨_, hok, ?_⟩
    rw [absorb, if_pos (by dsimp only; omega)]
    refine Or.inl ⟨hclose, ?_, rfl⟩
    rw [hlines]
    show close _ (cstr (buf.take (bufDataSize - 1))) = _
    rw [htext, cstr_append_replicate fun hm => hnul' (List.mem_of_mem_take hm)]

/-! ## A chunk -/

theorem eq_upToEol_append (data : List UInt8) :
    data = upToEol data ++ (eolsAfter data ++
      data.drop ((upToEol data).length + (eolsAfter data).length)) := by
  have h := List.take_append_drop ((upToEol data).length + (eolsAfter data).length) data
  rw [take_eq_upToEol_append, List.append_assoc] at h
  exact h.symm

/-- Only the end of the data can come before a line end. -/
theorem drop_eq_nil_of_eolsAfter {data : List UInt8} (h : eolsAfter data = []) :
    data.drop ((upToEol data).length + (eolsAfter data).length) = [] := by
  have hsplit : upToEol data ++ data.dropWhile (fun c => !isEol c) = data :=
    List.takeWhile_append_dropWhile
  have hdrop := congrArg (List.drop (upToEol data).length) hsplit
  rw [List.drop_left] at hdrop
  rw [h, List.length_nil, Nat.add_zero, ← hdrop]
  cases hd : data.dropWhile fun c => !isEol c with
  | nil => rfl
  | cons c ys =>
      have hc := List.head?_dropWhile_not (fun c => !isEol c) data
      rw [hd] at hc
      rw [eolsAfter, ← hdrop, hd, List.takeWhile_cons_of_pos (by simpa using hc)] at h
      cases h

theorem Absorbs.of_copy {st st' : Lines} {data : List UInt8} (hdata : data ≠ [])
    (h : Absorbs (absorb st (upToEol data) (eolsAfter data))
      (data.drop ((upToEol data).length + (eolsAfter data).length)) st') :
    Absorbs st data st' := by
  have hpos := (linebufSkipCrlf_eq_ok (linebufSkipCrlf_of_ne_nil hdata)).2.1
  rw [eq_upToEol_append data]
  refine .piece (fun c hc => not_isEol_of_mem_upToEol hc)
    (fun c hc => isEol_of_mem_eolsAfter hc) (fun hnil => ?_) drop_eq_nil_of_eolsAfter h
  rw [← List.length_append, hnil] at hpos
  exact Nat.lt_irrefl 0 hpos

/-- A new line is an open one with nothing in it. -/
theorem Reading.newLine (A : Allocator) (h : Reading bufhead closed [] s) :
    let l := (linebufNewLine A bufhead s).1
    let s' := (linebufNewLine A bufhead s).2
    Reading bufhead closed [l] s' ∧ OpenLine (s'.line l) [] ∧
      readLines s'.line closed = readLines s.line closed := by
  have hfresh := newLine_fresh A bufhead s
  have hself := newLine_line_self A bufhead s
  have hlist := h.list
  rw [List.append_nil] at hlist
  have hclosed : ∀ m ∈ closed, (linebufNewLine A bufhead s).2.line m = s.line m := by
    intro m hm
    rw [newLine_line]
    intro heq
    subst heq
    exact hfresh (h.live bufhead _ (by rw [hlist]; exact hm))
  have hnotin : (linebufNewLine A bufhead s).1 ∉ closed := fun hm =>
    hfresh (h.live bufhead _ (by rw [hlist]; exact hm))
  refine ⟨⟨h.toCounted.newLine A bufhead, ?_, ?_, ?_, ?_, fun m hm => ?_, fun m hm => ?_⟩,
    ?_, readLines_congr hclosed⟩
  · exact sized_update h.sized
      ⟨(h.sized _).buf, Nat.zero_le _, fun _ => bufDataSize_pos⟩
  · rw [newLine_head_self, hlist]
  · have honce := h.once
    rw [List.append_nil] at honce
    exact List.nodup_append.mpr ⟨honce, List.nodup_singleton _,
      fun m hm k hk => by rintro rfl; exact hnotin (List.mem_singleton.mp hk ▸ hm)⟩
  · have hlen := h.len
    rw [List.append_nil] at hlen
    rw [newLine_head_self, lenSum_append, lenSum_congr fun m hm => by rw [hclosed m hm],
      lenSum_cons, hself]
    exact hlen
  · rcases List.mem_append.mp hm with hc | hm
    · rw [hclosed m hc]
      exact h.plain m (List.mem_append_left _ hc)
    · rw [List.mem_singleton.mp hm, hself]
      exact ⟨rfl, rfl, bufDataSize_pos⟩
  · rw [hclosed m hm]
    exact h.terminated m hm
  · rw [hself]
    exact ⟨rfl, rfl, EndsInText.nil, by simp⟩

theorem linebufParseLoop_nil (A : Allocator) (bufhead : HeadId) (after : UInt8) (raw : Bool)
    (fuel linecnt : Nat) (s : LineSt) :
    linebufParseLoop A bufhead after raw fuel [] linecnt s = .ok (linecnt, s) := by
  cases fuel with
  | zero => rfl
  | succ fuel => rw [linebufParseLoop, if_pos rfl]

/-- One turn of the loop. -/
theorem linebufParseLoop_succ {A : Allocator} {fuel linecnt cpylen : Nat}
    {data : List UInt8} {s' : LineSt} (hdata : data ≠ [])
    (hok : linebufCopyLine bufhead (linebufNewLine A bufhead s).1 data
      (linebufNewLine A bufhead s).2 = .ok (cpylen, s')) :
    linebufParseLoop A bufhead 0 false (fuel + 1) data linecnt s =
      linebufParseLoop A bufhead 0 false fuel (data.drop cpylen) (linecnt + 1) s' := by
  rw [linebufParseLoop, if_neg hdata]
  show Except.bind (linebufCopy bufhead (linebufNewLine A bufhead s).1 data 0 false
    (linebufNewLine A bufhead s).2) _ = _
  rw [linebufCopy, if_neg Bool.false_ne_true, hok]
  rfl

theorem linebufParseLoop_absorbs (A : Allocator) (bufhead : HeadId) :
    ∀ fuel {closed : List Nat} {data : List UInt8} (linecnt : Nat) {s : LineSt},
      Reading bufhead closed [] s → data.length ≤ fuel → 0 ∉ data →
      ∃ n s' st', linebufParseLoop A bufhead 0 false fuel data linecnt s = .ok (n, s') ∧
        Received bufhead st' s' ∧ Absorbs (readLines s.line closed, []) data st' := by
  intro fuel
  induction fuel with
  | zero =>
      intro closed data linecnt s h hfuel _
      have hnil := List.length_eq_zero_iff.mp (Nat.le_zero.mp hfuel)
      subst hnil
      exact ⟨_, s, _, rfl, ⟨closed, [], h, rfl, Or.inl ⟨rfl, rfl⟩⟩, .done _⟩
  | succ fuel ih =>
      intro closed data linecnt s h hfuel hnul
      by_cases hdata : data = []
      · subst hdata
        exact ⟨_, s, _, linebufParseLoop_nil .., ⟨closed, [], h, rfl, Or.inl ⟨rfl, rfl⟩⟩,
          .done _⟩
      · obtain ⟨hnew, hopen, hread⟩ := h.newLine A
        obtain ⟨s', hok, hcopy⟩ := copy_absorb hnew hopen hdata hnul
        have hpos := (linebufSkipCrlf_eq_ok (linebufSkipCrlf_of_ne_nil hdata)).2.1
        rw [linebufParseLoop_succ hdata hok]
        rw [hread] at hcopy
        rcases hcopy with ⟨hr, hlines, hpart⟩ | ⟨he, hr, hlines, hopen'⟩
        · have hrest : (data.drop ((upToEol data).length + (eolsAfter data).length)).length ≤
              fuel := by
            rw [List.length_drop]
            omega
          obtain ⟨n, s'', st', hloop, hrec, habs⟩ := ih (linecnt + 1) hr hrest
            fun hm => hnul (List.mem_of_mem_drop hm)
          refine ⟨n, s'', st', hloop, hrec, .of_copy hdata ?_⟩
          rw [show absorb _ _ _ = (_, _) from Prod.ext hlines.symm hpart]
          exact habs
        · rw [drop_eq_nil_of_eolsAfter he]
          refine ⟨_, s', _, linebufParseLoop_nil ..,
            ⟨closed, _, hr, hlines, Or.inr ⟨_, rfl, hopen'⟩⟩, .of_copy hdata ?_⟩
          rw [drop_eq_nil_of_eolsAfter he]
          exact .done _

/-- A terminated line takes nothing. -/
theorem linebufCopyLine_terminated (hterm : (s.line l).terminated = true)
    (hraw : (s.line l).raw = false) (hroom : (s.line l).len < bufDataSize)
    (bufhead : HeadId) (data : List UInt8) :
    linebufCopyLine bufhead l data s = .ok (0, s) := by
  have hself : ({ s.line l with raw := false } : BufLine) = s.line l := by
    rw [← hraw]
  simp only [linebufCopyLine, hself]
  rw [if_neg (not_not.mpr hroom), if_pos hterm]
  simp [LineSt.store]

/-- A chunk that starts a line: the last line, if there is one, is full. -/
theorem linebufParse_closed (A : Allocator) {data : List UInt8}
    (h : Reading bufhead closed [] s) (hdata : data ≠ []) (hnul : 0 ∉ data) :
    ∃ n s' st', linebufParse A bufhead data 0 false s = .ok (n, s') ∧
      Received bufhead st' s' ∧ Absorbs (readLines s.line closed, []) data st' := by
  have hloop := fun linecnt =>
    linebufParseLoop_absorbs A bufhead data.length linecnt h (Nat.le_refl _) hnul
  rw [linebufParse]
  cases hlast : (s.head bufhead).list.getLast? with
  | none => exact hloop 0
  | some l =>
      have hl := List.mem_of_getLast? hlast
      rw [h.list, List.append_nil] at hl
      obtain ⟨hraw, hflush, hroom⟩ := h.plain l (List.mem_append_left _ hl)
      have hcopy := linebufCopyLine_terminated (h.terminated l hl) hraw hroom bufhead data
      have hne : 0 ≠ data.length := fun h0 => hdata (List.length_eq_zero_iff.mp h0.symm)
      simp only [hflush, linebufCopy, Bool.false_eq_true, if_false, hcopy, Except.bind]
      rw [if_neg hne, List.drop_zero]
      exact hloop 1

/-- A chunk that goes on with the open line. -/
theorem linebufParse_opened (A : Allocator) {part data : List UInt8}
    (h : Reading bufhead closed [l] s) (ho : OpenLine (s.line l) part) (hdata : data ≠ [])
    (hnul : 0 ∉ data) :
    ∃ n s' st', linebufParse A bufhead data 0 false s = .ok (n, s') ∧
      Received bufhead st' s' ∧ Absorbs (readLines s.line closed, part) data st' := by
  obtain ⟨-, hflush, -⟩ := h.plain l (by simp)
  obtain ⟨s', hok, hcopy⟩ := copy_absorb h ho hdata hnul
  have hlast : (s.head bufhead).list.getLast? = some l := by
    rw [h.list, List.getLast?_concat]
  have hdrop := List.length_drop (l := data)
    (i := (upToEol data).length + (eolsAfter data).length)
  have hle := length_upToEol_add_le data
  rw [linebufParse, hlast]
  simp only [hflush, linebufCopy, Bool.false_eq_true, if_false, hok, Except.bind]
  split
  · next hall =>
      -- The data end with this line.
      have hnil : data.drop ((upToEol data).length + (eolsAfter data).length) = [] :=
        List.length_eq_zero_iff.mp (by omega)
      refine ⟨_, s', _, rfl, ?_, .of_copy hdata (by rw [hnil]; exact .done _)⟩
      rcases hcopy with ⟨hr, hlines, hpart⟩ | ⟨-, hr, hlines, hopen⟩
      · exact ⟨_, [], hr, hlines, Or.inl ⟨rfl, hpart⟩⟩
      · exact ⟨closed, [l], hr, hlines, Or.inr ⟨l, rfl, hopen⟩⟩
  · next hmore =>
      rcases hcopy with ⟨hr, hlines, hpart⟩ | ⟨he, -, -, -⟩
      · obtain ⟨n, s'', st', hloop, hrec, habs⟩ :=
          @linebufParseLoop_absorbs A bufhead data.length _
            (data.drop ((upToEol data).length + (eolsAfter data).length)) 1 s' hr
            (by omega) fun hm => hnul (List.mem_of_mem_drop hm)
        refine ⟨n, s'', st', hloop, hrec, .of_copy hdata ?_⟩
        rw [show absorb _ _ _ = (_, _) from Prod.ext hlines.symm hpart]
        exact habs
      · rw [drop_eq_nil_of_eolsAfter he, List.length_nil] at hdrop
        omega

theorem linebufParse_absorbs (A : Allocator) {st : Lines} {data : List UInt8}
    (h : Received bufhead st s) (hdata : data ≠ []) (hnul : 0 ∉ data) :
    ∃ n s' st', linebufParse A bufhead data 0 false s = .ok (n, s') ∧
      Received bufhead st' s' ∧ Absorbs st data st' := by
  obtain ⟨closed, opened, hr, hlines, ⟨rfl, hpart⟩ | ⟨l, rfl, hopen⟩⟩ := h
  · rw [show st = (readLines s.line closed, []) from Prod.ext hlines.symm hpart]
    exact linebufParse_closed A hr hdata hnul
  · rw [show st = (readLines s.line closed, st.2) from Prod.ext hlines.symm rfl]
    exact linebufParse_opened A hr hopen hdata hnul

theorem parseChunks_absorbs (A : Allocator) :
    ∀ (chunks : List (List UInt8)) {st : Lines} {s : LineSt}, Received bufhead st s →
      (∀ chunk ∈ chunks, chunk ≠ []) → 0 ∉ chunks.flatten →
      ∃ s' st', parseChunks A bufhead chunks s = .ok s' ∧ Received bufhead st' s' ∧
        AbsorbsAll st chunks st' := by
  intro chunks
  induction chunks with
  | nil => exact fun h _ _ => ⟨_, _, rfl, h, .nil _⟩
  | cons chunk chunks ih =>
      intro st s h hne hnul
      rw [List.flatten_cons, List.mem_append] at hnul
      obtain ⟨n, s', st', hok, h', habs⟩ := linebufParse_absorbs A h
        (hne chunk (List.mem_cons_self ..)) fun hm => hnul (Or.inl hm)
      obtain ⟨s'', st'', hok', h'', habs'⟩ := ih h'
        (fun c hc => hne c (List.mem_cons_of_mem _ hc)) fun hm => hnul (Or.inr hm)
      refine ⟨s'', st'', ?_, h'', .cons habs habs'⟩
      rw [parseChunks, hok]
      exact hok'

/-! ## Taking the lines out -/

theorem Reading.loosen (h : Reading bufhead closed opened s) :
    Reading bufhead [] (closed ++ opened) s where
  toCounted := h.toCounted
  sized := h.sized
  list := h.list
  once := h.once
  len := h.len
  plain := h.plain
  terminated m hm := by cases hm

theorem Reading.tighten (h : Reading bufhead [] (closed ++ opened) s)
    (hterm : ∀ l ∈ closed, (s.line l).terminated = true) : Reading bufhead closed opened s where
  toCounted := h.toCounted
  sized := h.sized
  list := h.list
  once := h.once
  len := h.len
  plain := h.plain
  terminated := hterm

/-- The first line comes off the list, whatever line it is. -/
theorem Reading.doneHead {rest : List Nat} (h : Reading bufhead [] (l :: rest) s) :
    ∃ s', linebufDoneLine bufhead s = .ok s' ∧ Reading bufhead [] rest s' ∧
      ∀ m, (s'.line m).text false = (s.line m).text false ∧
        (s'.line m).terminated = (s.line m).terminated := by
  have hlist := h.list
  have hlen := h.len
  rw [List.nil_append] at hlist hlen
  rw [lenSum_cons] at hlen
  rcases linebufDoneLine_cases h.toCounted hlist with ⟨hneg, -⟩ | ⟨-, s', hok, hd⟩
  · omega
  · have hline : ∀ m, ∃ refcount, s'.line m = { s.line m with refcount := refcount } := by
      intro m
      rw [hd.line]
      by_cases hm : m = l
      · rw [hm, Function.update_self]
        exact ⟨_, rfl⟩
      · rw [Function.update_of_ne hm]
        exact ⟨(s.line m).refcount, rfl⟩
    have hself : s'.head bufhead = { s.head bufhead with
        list := rest
        alloclen := (s.head bufhead).alloclen - 1
        len := (s.head bufhead).len - (s.line l).len
        numlines := (s.head bufhead).numlines - 1 } := by
      rw [hd.head, Function.update_self]
    refine ⟨s', hok, ⟨hd.counted, fun m => ?_, by rw [hself]; rfl, ?_, ?_, fun m hm => ?_,
      fun m hm => by cases hm⟩, fun m => ?_⟩
    · obtain ⟨r, hm⟩ := hline m
      rw [hm]
      exact ⟨(h.sized m).buf, (h.sized m).len, (h.sized m).room⟩
    · exact (List.nodup_cons.mp h.once).2
    · have hsum : lenSum s'.line rest = lenSum s.line rest :=
        lenSum_congr fun m _ => by
          obtain ⟨r, hm⟩ := hline m
          rw [hm]
      rw [hself, List.nil_append, hsum]
      show _ ≤ (s.head bufhead).len - (s.line l).len
      push_cast at hlen
      omega
    · obtain ⟨r, hm'⟩ := hline m
      rw [hm']
      exact h.plain m (List.mem_cons_of_mem _ hm)
    · obtain ⟨r, hm⟩ := hline m
      rw [hm]
      exact ⟨rfl, rfl⟩

theorem Reading.doneLine {rest : List Nat} (h : Reading bufhead (l :: rest) opened s) :
    ∃ s', linebufDoneLine bufhead s = .ok s' ∧ Reading bufhead rest opened s' ∧
      ∀ m, (s'.line m).text false = (s.line m).text false ∧
        (s'.line m).terminated = (s.line m).terminated := by
  obtain ⟨s', hok, h', hline⟩ := h.loosen.doneHead
  refine ⟨s', hok, h'.tighten fun m hm => ?_, hline⟩
  rw [(hline m).2]
  exact h.terminated m (List.mem_cons_of_mem _ hm)

/-- All terminated lines come out, in order. -/
theorem getLines_eq {buflen : Nat} (hbuflen : bufDataSize ≤ buflen) :
    ∀ (closed : List Nat) {fuel : Nat} {s : LineSt}, Reading bufhead closed opened s →
      (∀ l ∈ opened, (s.line l).terminated = false) → closed.length ≤ fuel →
      getLines bufhead buflen fuel s =
        .ok (closed.map fun l => (s.line l).text false) := by
  intro closed
  induction closed with
  | nil =>
      intro fuel s h hopen _
      have hlist := h.list
      rw [List.nil_append] at hlist
      cases fuel with
      | zero => rfl
      | succ fuel =>
          cases hopened : opened with
          | nil =>
              simp only [getLines, linebufGet, hlist, hopened]
              rfl
          | cons l ls =>
              have hterm := hopen l (by rw [hopened]; exact List.mem_cons_self ..)
              simp only [getLines, linebufGet, hlist, hopened, hterm]
              rfl
  | cons l rest ih =>
      intro fuel s h hopen hfuel
      obtain ⟨k, rfl⟩ : ∃ k, fuel = k + 1 := ⟨fuel - 1, by
        rw [List.length_cons] at hfuel
        omega⟩
      obtain ⟨s', hok, h', htext⟩ := h.doneLine
      have hlist := h.list
      rw [List.cons_append] at hlist
      have hroom := (h.plain l (by simp)).2.2
      have hterm := h.terminated l (List.mem_cons_self ..)
      have hrest := ih h' (fun m hm => by rw [(htext m).2]; exact hopen m hm)
        (Nat.le_of_succ_le_succ hfuel)
      simp only [getLines, linebufGet, hlist, hterm, hok]
      rw [if_neg (by simp), if_neg (by omega)]
      simp only [Except.map, Except.bind, hrest, List.map_cons]
      rw [List.map_congr_left fun m _ => (htext m).1]

/-- The lines are those of the stream, whatever the chunks: those that are
closed when all chunks are in. -/
theorem userLines_eq (A : Allocator) (bufhead : HeadId) {buflen : Nat}
    (hbuflen : bufDataSize ≤ buflen) {chunks : List (List UInt8)}
    (hne : ∀ chunk ∈ chunks, chunk ≠ []) (hnul : 0 ∉ chunks.flatten) :
    ∃ st, userLines A bufhead buflen chunks = .ok st.1 ∧ AbsorbsAll ([], []) chunks st := by
  obtain ⟨s', st, hok, ⟨closed, opened, hr, hlines, hopen⟩, habs⟩ :=
    parseChunks_absorbs A chunks (init_received bufhead) hne hnul
  refine ⟨st, ?_, habs⟩
  have hterm : ∀ l ∈ opened, (s'.line l).terminated = false := by
    intro l hl
    rcases hopen with ⟨rfl, -⟩ | ⟨m, rfl, ho⟩
    · cases hl
    · rw [List.mem_singleton.mp hl]
      exact ho.terminated
  have hfuel : closed.length ≤ (s'.head bufhead).list.length := by
    rw [hr.list, List.length_append]
    exact Nat.le_add_right ..
  have hget := getLines_eq hbuflen closed hr hterm hfuel
  rw [userLines, hok]
  simp only [Except.bind, hget, Except.map]
  rw [← hlines, readLines, List.map_map]
  rfl

/-- The ways of cutting a stream into chunks. -/
def Chunks (stream : List UInt8) (chunks : List (List UInt8)) : Prop :=
  chunks.flatten = stream ∧ ∀ chunk ∈ chunks, chunk ≠ []

/-- The lines of a stream are the same however it is cut exactly when no
segment is longer than 512 bytes and the remainder shorter than 1024. -/
theorem userLines_chunks_iff (A : Allocator) (bufhead : HeadId) {buflen : Nat}
    (hbuflen : bufDataSize ≤ buflen) {stream : List UInt8} (hnul : 0 ∉ stream) :
    (∀ c d, Chunks stream c → Chunks stream d →
        userLines A bufhead buflen c = userLines A bufhead buflen d) ↔
      (∀ w ∈ segments isEol stream, w.length ≤ bufDataSize) ∧
        (remainder isEol stream).length < 2 * bufDataSize := by
  have hlines : ∀ {c}, Chunks stream c → ∃ st,
      userLines A bufhead buflen c = .ok st.1 ∧ AbsorbsAll ([], []) c st := fun hc =>
    userLines_eq A bufhead hbuflen hc.2 (by rw [hc.1]; exact hnul)
  constructor
  · intro hall
    by_contra hb
    obtain ⟨a, b, hstream, ha, hbne, hlong, hlt⟩ :=
      exists_cut stream fun h => hb ⟨h.segment, h.rest⟩
    have hne : stream ≠ [] := by
      rw [hstream]
      exact List.append_ne_nil_of_left_ne_nil ha b
    have hone : Chunks stream [stream] := ⟨List.flatten_singleton, by simpa using hne⟩
    have htwo : Chunks stream [a, b] := ⟨by simp [hstream], by simp [ha, hbne]⟩
    obtain ⟨st, hst, habs⟩ := hlines hone
    obtain ⟨st', hst', habs'⟩ := hlines htwo
    have heq := hall _ _ hone htwo
    rw [hst, hst'] at heq
    have hlen := congrArg List.length (Except.ok.inj heq)
    rw [habs.one, habs'.two hlong] at hlen
    omega
  · rintro ⟨hseg, hrest⟩ c d hc hd
    have hsame : ∀ {c}, Chunks stream c →
        userLines A bufhead buflen c = .ok (fullLines stream) := by
      intro c hc
      obtain ⟨st, hst, habs⟩ := hlines hc
      have hcanon := habs.canon canon_nil (by rw [List.nil_append, hc.1]; exact ⟨hseg, hrest⟩)
      rw [List.nil_append, hc.1] at hcanon
      rw [hst, hcanon.lines]
    rw [hsame hc, hsame hd]

/-- CR and LF in different chunks. -/
theorem userLines_chunks_ping :
    userLines .bump (.recvQ 0) bufDataSize [[0x50, 0x49, 0x4e, 0x47, 0x0d, 0x0a, 0x41]] =
      userLines .bump (.recvQ 0) bufDataSize
        [[0x50, 0x49], [0x4e, 0x47, 0x0d], [0x0a, 0x41]] :=
  (userLines_chunks_iff .bump (.recvQ 0) (Nat.le_refl _) (by decide)).mpr
    ⟨by decide, by decide⟩ _ _ ⟨rfl, by decide⟩ ⟨rfl, by decide⟩

/-- A line of 513 bytes in one chunk, and with the last of them in a second. -/
theorem userLines_cut :
    userLines .bump (.recvQ 0) bufDataSize [List.replicate 513 0x61 ++ [0x0a]] =
        .ok [List.replicate 511 0x61] ∧
      userLines .bump (.recvQ 0) bufDataSize [List.replicate 512 0x61, [0x61, 0x0a]] =
        .ok [List.replicate 511 0x61, [0x61]] := by
  decide +kernel

end TrIrcd
