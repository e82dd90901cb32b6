import TrIrcd.Proofs.FormatBounds
import TrIrcd.Src.Fileio

/-!
# Lines read through a buffer

Between two calls, what is left of a file is what `buf` still holds and what was
not read yet (`FbHolds`). A refill changes where a byte is and not what is left, and
so the loop of `fbgets` takes the same line as one that has the whole text before
it (`fbgetsLoop_text`): it looks for more behind every byte and behind a `\r`, so
it sees the next byte whatever block that is in. After the end of the file there
is nothing more to find, and each call says so.
-/

namespace TrIrcd

open TrIrcd.Lib

/-! ## The whole text -/

/-- The loop of `fbgets` over a text that is all there: what goes into `buf`, and
what is left of it. -/
def fbgetsLoop : Nat → List UInt8 → List UInt8 × List UInt8
  | 0, text => ([], text)
  | _ + 1, [] => ([], [])
  | len + 1, c :: text =>
      if c = 0x0a then ([0x0a], text)
      else if c = 0x0d then ([0x0a], if text.head? = some 0x0a then text.tail else text)
      else
        let (buf, text) := fbgetsLoop len text
        (c :: buf, text)

/-- `fbgets` of a text that is all there. -/
def fbgets (len : Nat) (text : List UInt8) : Option (List UInt8 × List UInt8) :=
  if text = [] then none else some (fbgetsLoop (len - 1) text)

theorem fbgetsLoop_length (len : Nat) (text : List UInt8) :
    (fbgetsLoop len text).2.length ≤ text.length := by
  induction len generalizing text with
  | zero => exact Nat.le_refl _
  | succ len ih =>
      cases text with
      | nil => exact Nat.le_refl _
      | cons c text =>
          rw [fbgetsLoop]
          split
          · exact Nat.le_succ _
          · split
            · dsimp only
              split
              · rw [List.length_tail, List.length_cons]
                omega
              · exact Nat.le_succ _
            · exact Nat.le_succ_of_le (ih text)

/-- A line that is read makes the file shorter. -/
theorem fbgets_length {len : Nat} {text buf rest : List UInt8} (hlen : 2 ≤ len)
    (h : fbgets len text = some (buf, rest)) : rest.length < text.length := by
  obtain ⟨n, rfl⟩ := Nat.exists_eq_add_of_le' hlen
  cases text with
  | nil => cases h
  | cons c text =>
      have hrest : (fbgetsLoop (n + 1) (c :: text)).2 = rest :=
        congrArg Prod.snd (Option.some.inj h)
      rw [← hrest, fbgetsLoop]
      split
      · exact Nat.lt_succ_self _
      · split
        · dsimp only
          split
          · rw [List.length_tail, List.length_cons]
            omega
          · exact Nat.lt_succ_self _
        · exact Nat.lt_succ_of_le (fbgetsLoop_length n text)

/-! ## What is left of a file -/

/-- The calls of `read` return this text, in blocks that fit the buffer. -/
def SplitReads (bufsiz : Nat) (text : List UInt8) (reads : List ReadCall) : Prop :=
  ∃ blocks : List (List UInt8), reads = blocks.map .data ∧ blocks.flatten = text ∧
    ∀ bytes ∈ blocks, 0 < bytes.length ∧ bytes.length ≤ bufsiz

/-- What was pushed back, the latest first, in `pbuf`. -/
structure Pushed (bufsiz : Nat) (pending : List UInt8) (pbptr : Option Nat)
    (pbuf : List UInt8) : Prop where
  length : pbuf.length = bufsiz + 1
  drop : pbuf.drop (pbptr.getD bufsiz) = pending ++ [0]
  empty : pbptr = none ↔ pending = []
  noNul : 0 ∉ pending

/-- What is left to read: what was pushed back, and the text of the file. -/
structure FbHolds (bufsiz : Nat) (pending text : List UInt8) (fb : Fbfile) : Prop where
  pushed : Pushed bufsiz pending fb.pbptr fb.pbuf
  length : fb.buf.length = bufsiz
  endp : fb.endp ≤ bufsiz
  ptr : fb.ptr ≤ fb.endp
  text : ∃ unread, text = (fb.buf.take fb.endp).drop fb.ptr ++ unread ∧
    SplitReads bufsiz unread fb.reads
  flags : fb.flags ≠ 0 → fb.reads = []

section Refill

variable {bufsiz : Nat} {pending text : List UInt8} {c : UInt8} {fb : Fbfile}

theorem fdbopen_holds {reads : List ReadCall} (h : SplitReads bufsiz text reads) :
    FbHolds bufsiz [] text (Fbfile.fdbopen bufsiz reads) where
  pushed := {
    length := List.length_replicate
    drop := by
      rw [Fbfile.fdbopen, Option.getD_none, List.drop_replicate, Nat.add_sub_cancel_left]
      rfl
    empty := Iff.rfl.trans (by simp [Fbfile.fdbopen])
    noNul := List.not_mem_nil }
  length := List.length_replicate
  endp := Nat.zero_le _
  ptr := Nat.le_refl _
  text := ⟨text, rfl, h⟩
  flags := fun h => absurd rfl h

theorem fbfill_over (h : fb.flags ≠ 0) : fb.fbfill = (-1, fb) := if_pos h

theorem fbfill_end (h : ¬ fb.flags ≠ 0) (hreads : fb.reads = []) :
    fb.fbfill = (0, { fb with flags := fb.flags ||| fbEof }) := by
  rw [Fbfile.fbfill, if_neg h, hreads]

theorem fbfill_block {bytes : List UInt8} {reads : List ReadCall} (h : ¬ fb.flags ≠ 0)
    (hreads : fb.reads = .data bytes :: reads) (hpos : 0 < bytes.length) :
    fb.fbfill = ((bytes.length : Int),
      { fb with reads := reads, buf := blit fb.buf 0 bytes, ptr := 0, endp := bytes.length }) := by
  rw [Fbfile.fbfill, if_neg h, hreads]
  exact if_pos hpos

/-- When the buffer is used up, the blocks are all there is. -/
theorem drained_text (h : FbHolds bufsiz pending text fb) (hptr : fb.ptr = fb.endp) :
    SplitReads bufsiz text fb.reads := by
  obtain ⟨unread, htext, hreads⟩ := h.text
  have hbuffered : (fb.buf.take fb.endp).drop fb.ptr = [] := by
    rw [hptr, List.drop_eq_nil_iff, List.length_take]
    exact Nat.min_le_left ..
  rw [hbuffered, List.nil_append] at htext
  rw [htext]
  exact hreads

/-- A refill finds the next block, if there is one. -/
theorem fbfill_spec (h : FbHolds bufsiz pending text fb) (hptr : fb.ptr = fb.endp) :
    (text = [] ∧ fb.fbfill.1 < 1 ∧ FbHolds bufsiz pending [] fb.fbfill.2) ∨
      (text ≠ [] ∧ 0 < fb.fbfill.1 ∧ FbHolds bufsiz pending text fb.fbfill.2 ∧
        fb.fbfill.2.ptr < fb.fbfill.2.endp) := by
  obtain ⟨blocks, hreads, htext, hblocks⟩ := drained_text h hptr
  cases blocks with
  | nil =>
      have hnil : text = [] := by rw [← htext, List.flatten_nil]
      subst hnil
      refine .inl ⟨rfl, ?_⟩
      by_cases hflags : fb.flags ≠ 0
      · rw [fbfill_over hflags]
        exact ⟨Int.lt_of_le_of_lt (Int.neg_nonpos_of_nonneg (by decide)) Int.one_pos, h⟩
      · rw [fbfill_end hflags hreads]
        exact ⟨Int.one_pos, h.pushed, h.length, h.endp, h.ptr, h.text, fun _ => hreads⟩
  | cons bytes blocks =>
      obtain ⟨hpos, hle⟩ := hblocks bytes (List.mem_cons_self ..)
      have hflags : ¬ fb.flags ≠ 0 := fun hne => by
        have hnone := h.flags hne
        rw [hreads] at hnone
        cases hnone
      have hbuf : (blit fb.buf 0 bytes).take bytes.length = bytes := by
        rw [← Nat.zero_add bytes.length, take_blit (Nat.zero_le _), List.take_zero, List.nil_append]
      have hne : text ≠ [] := by
        intro hnil
        rw [hnil, List.flatten_cons] at htext
        rw [(List.append_eq_nil_iff.mp htext).1] at hpos
        exact absurd hpos (Nat.lt_irrefl 0)
      rw [fbfill_block hflags hreads hpos]
      refine .inr ⟨hne, Int.natCast_pos.mpr hpos, ⟨h.pushed, ?_, hle, Nat.zero_le _,
        ⟨blocks.flatten, ?_, blocks, rfl, rfl, fun b hb => hblocks b (List.mem_cons_of_mem _ hb)⟩,
        fun hne => absurd hne hflags⟩, hpos⟩
      · show (blit fb.buf 0 bytes).length = bufsiz
        rw [length_blit (by rw [h.length]; omega), h.length]
      · show text = ((blit fb.buf 0 bytes).take bytes.length).drop 0 ++ blocks.flatten
        rw [hbuf, List.drop_zero, ← htext, List.flatten_cons]

/-- What is at `ptr` comes first. -/
theorem text_cons (h : FbHolds bufsiz pending text fb) (hptr : fb.ptr < fb.endp) :
    ∃ c rest, text = c :: rest ∧ fb.char = .ok c ∧ FbHolds bufsiz pending rest fb.advance := by
  have hlt : fb.ptr < (fb.buf.take fb.endp).length := by
    rw [List.length_take, h.length, Nat.min_eq_left h.endp]
    exact hptr
  have hget : fb.buf[fb.ptr]? = some (fb.buf.take fb.endp)[fb.ptr] := by
    rw [← List.getElem?_eq_getElem hlt, List.getElem?_take_of_lt hptr]
  obtain ⟨unread, htext, hreads⟩ := h.text
  rw [List.drop_eq_getElem_cons hlt, List.cons_append] at htext
  refine ⟨_, _, htext, ?_, h.pushed, h.length, h.endp, hptr, ⟨unread, rfl, hreads⟩, h.flags⟩
  rw [Fbfile.char, hget]

theorem text_ne_nil (h : FbHolds bufsiz pending text fb) (hptr : fb.ptr < fb.endp) : text ≠ [] := by
  obtain ⟨c, rest, rfl, -⟩ := text_cons h hptr
  exact List.cons_ne_nil c rest

theorem more_spec (h : FbHolds bufsiz pending text fb) :
    fb.more.1 = decide (text ≠ []) ∧ FbHolds bufsiz pending text fb.more.2 ∧
      (text ≠ [] → fb.more.2.ptr < fb.more.2.endp) := by
  rw [Fbfile.more]
  split
  · next hptr =>
      exact ⟨(decide_eq_true (text_ne_nil h hptr)).symm, h, fun _ => hptr⟩
  · next hptr =>
      rcases fbfill_spec h (Nat.le_antisymm h.ptr (Nat.not_lt.mp hptr)) with
        ⟨rfl, hn, hfb⟩ | ⟨hne, hn, hfb, hready⟩
      · exact ⟨decide_eq_false (by omega), hfb, fun hne => absurd rfl hne⟩
      · exact ⟨(decide_eq_true hn).trans (decide_eq_true hne).symm, hfb, fun _ => hready⟩

theorem drained_spec (h : FbHolds bufsiz pending text fb) :
    fb.drained.1 = decide (text = []) ∧ FbHolds bufsiz pending text fb.drained.2 ∧
      (text ≠ [] → fb.drained.2.ptr < fb.drained.2.endp) := by
  rw [Fbfile.drained]
  split
  · next hptr =>
      rcases fbfill_spec h hptr with ⟨rfl, hn, hfb⟩ | ⟨hne, hn, hfb, hready⟩
      · exact ⟨(decide_eq_true hn).trans (decide_eq_true rfl).symm, hfb, fun hne => absurd rfl hne⟩
      · refine ⟨?_, hfb, fun _ => hready⟩
        exact (decide_eq_false (by omega)).trans (decide_eq_false hne).symm
  · next hptr =>
      have hlt : fb.ptr < fb.endp := Nat.lt_of_le_of_ne h.ptr hptr
      exact ⟨(decide_eq_false (text_ne_nil h hlt)).symm, h, fun _ => hlt⟩

/-! ## A line -/

theorem skipLf_spec (h : FbHolds bufsiz pending text fb) :
    ∃ fb', fb.skipLf = .ok fb' ∧
      FbHolds bufsiz pending (if text.head? = some 0x0a then text.tail else text) fb' := by
  obtain ⟨hmore, hfb, hready⟩ := more_spec h
  rw [Fbfile.skipLf]
  generalize fb.more = r at hmore hfb hready
  obtain ⟨ready, fb1⟩ := r
  cases text with
  | nil =>
      cases hmore
      exact ⟨fb1, rfl, hfb⟩
  | cons c text =>
      cases hmore
      obtain ⟨d, rest, heq, hchar, hadvance⟩ := text_cons hfb (hready (List.cons_ne_nil c text))
      cases heq
      simp only [bind, Except.bind, hchar, if_true]
      by_cases hc : c = 0x0a
      · have hhead : (c :: text).head? = some 0x0a := congrArg some hc
        rw [if_pos hc, if_pos hhead]
        exact ⟨_, rfl, hadvance⟩
      · have hhead : ¬ (c :: text).head? = some 0x0a := fun h => hc (Option.some.inj h)
        rw [if_neg hc, if_neg hhead]
        exact ⟨_, rfl, hfb⟩

theorem fbgetsLoop_nil (len : Nat) : fbgetsLoop len [] = ([], []) := by
  cases len with
  | zero => rfl
  | succ len => rfl

/-- The loop takes what it takes of a text that is all there. -/
theorem fbgetsLoop_text : ∀ (len : Nat) {text : List UInt8} {fb : Fbfile},
    FbHolds bufsiz pending text fb → fb.ptr < fb.endp →
      ∃ fb', fb.fbgetsLoop len = .ok ((fbgetsLoop len text).1, fb') ∧
        FbHolds bufsiz pending (fbgetsLoop len text).2 fb' := by
  intro len
  induction len with
  | zero => exact fun h _ => ⟨_, rfl, h⟩
  | succ len ih =>
      intro text fb h hptr
      obtain ⟨c, rest, rfl, hchar, hadvance⟩ := text_cons h hptr
      rw [Fbfile.fbgetsLoop, hchar, fbgetsLoop]
      show ∃ fb', (if c = 0x0a then _ else _) = _ ∧ _
      by_cases hlf : c = 0x0a
      · rw [if_pos hlf, if_pos hlf, hlf]
        exact ⟨_, rfl, hadvance⟩
      · rw [if_neg hlf, if_neg hlf]
        by_cases hcr : c = 0x0d
        · obtain ⟨fb', hskip, hfb'⟩ := skipLf_spec hadvance
          rw [if_pos hcr, if_pos hcr, hskip]
          exact ⟨fb', rfl, hfb'⟩
        · obtain ⟨hdrained, hfb, hready⟩ := drained_spec hadvance
          rw [if_neg hcr, if_neg hcr]
          generalize fb.advance.drained = r at hdrained hfb hready
          obtain ⟨stop, fb1⟩ := r
          cases rest with
          | nil =>
              cases hdrained
              rw [fbgetsLoop_nil]
              exact ⟨fb1, rfl, hfb⟩
          | cons d rest =>
              cases hdrained
              obtain ⟨fb', hloop, hfb'⟩ := ih hfb (hready (List.cons_ne_nil d rest))
              refine ⟨fb', ?_, hfb'⟩
              show Except.bind (fb1.fbgetsLoop len) _ = _
              rw [hloop]
              rfl

/-- And a call takes what it takes of the text. -/
theorem fbgets_text (buf : List UInt8) (h : FbHolds bufsiz [] text fb) :
    ∃ fb', fb.fbgets buf =
        .ok ((fbgets buf.length text).map fun r => blit buf 0 (r.1 ++ [0]), fb') ∧
      FbHolds bufsiz [] (((fbgets buf.length text).map Prod.snd).getD []) fb' := by
  obtain ⟨hdrained, hfb, hready⟩ := drained_spec h
  rw [Fbfile.fbgets, h.pushed.empty.mpr rfl, fbgets]
  simp only
  generalize fb.drained = r at hdrained hfb hready
  obtain ⟨stop, fb1⟩ := r
  by_cases hnil : text = []
  · rw [decide_eq_true hnil] at hdrained
    cases hdrained
    rw [if_pos hnil]
    exact ⟨fb1, rfl, hnil ▸ hfb⟩
  · rw [decide_eq_false hnil] at hdrained
    cases hdrained
    obtain ⟨fb', hloop, hfb'⟩ := fbgetsLoop_text (buf.length - 1) hfb (hready hnil)
    rw [if_neg hnil]
    refine ⟨fb', ?_, hfb'⟩
    show Except.bind (fb1.fbgetsLoop (buf.length - 1)) _ = _
    rw [hloop]
    rfl

end Refill

/-! ## Line ends -/

/-- A `\r` is an `\n`, and an `\n` behind it is nothing. -/
def unixFrom : Bool → List UInt8 → List UInt8
  | _, [] => []
  | cr, c :: text =>
      if c = 0x0a ∧ cr then unixFrom false text
      else if c = 0x0d then 0x0a :: unixFrom true text
      else c :: unixFrom false text

/-- Each `\r\n` and each `\r` alone is replaced by an `\n`. -/
def unixText (text : List UInt8) : List UInt8 := unixFrom false text

theorem unixText_cr (text : List UInt8) : unixText (0x0d :: text) = 0x0a :: unixFrom true text := by
  rw [unixText, unixFrom, if_neg (by decide), if_pos rfl]

theorem unixText_cons {c : UInt8} (hc : c ≠ 0x0d) (text : List UInt8) :
    unixText (c :: text) = c :: unixText text := by
  rw [unixText, unixFrom, if_neg fun h => Bool.false_ne_true h.2, if_neg hc, unixText]

theorem unixFrom_true (text : List UInt8) :
    unixFrom true text = unixText (if text.head? = some 0x0a then text.tail else text) := by
  cases text with
  | nil => rfl
  | cons c text =>
      by_cases hc : c = 0x0a
      · have hhead : (c :: text).head? = some 0x0a := congrArg some hc
        rw [if_pos hhead, unixFrom, if_pos ⟨hc, rfl⟩]
        rfl
      · have hhead : ¬ (c :: text).head? = some 0x0a := fun h => hc (Option.some.inj h)
        rw [if_neg hhead, unixText, unixFrom, unixFrom]
        simp only [hc, false_and, if_false]

theorem mem_unixFrom {c : UInt8} {text : List UInt8} :
    ∀ {cr : Bool}, c ∈ unixFrom cr text → c ∈ text ∨ c = 0x0a := by
  induction text with
  | nil => exact fun h => .inl h
  | cons d text ih =>
      intro cr h
      rw [unixFrom] at h
      split at h
      · exact (ih h).imp_left (List.mem_cons_of_mem d)
      · split at h
        · rcases List.mem_cons.mp h with h | h
          · exact .inr h
          · exact (ih h).imp_left (List.mem_cons_of_mem d)
        · rcases List.mem_cons.mp h with h | h
          · exact .inl (List.mem_cons.mpr (.inl h))
          · exact (ih h).imp_left (List.mem_cons_of_mem d)

/-- A line, and what it leaves of the text. -/
structure LineOf (len : Nat) (text line rest : List UInt8) : Prop where
  unix : line ++ unixText rest = unixText text
  length : line.length ≤ len
  last : 0x0a ∉ line.dropLast
  rest : rest <:+ text
  ne_nil : 0 < len → text ≠ [] → line ≠ []

theorem fbgetsLoop_lineOf (len : Nat) (text : List UInt8) :
    LineOf len text (fbgetsLoop len text).1 (fbgetsLoop len text).2 := by
  induction len generalizing text with
  | zero =>
      exact ⟨rfl, Nat.le_refl 0, List.not_mem_nil, List.suffix_rfl,
        fun h => absurd h (Nat.lt_irrefl 0)⟩
  | succ len ih =>
      cases text with
      | nil =>
          exact ⟨rfl, Nat.zero_le _, List.not_mem_nil, List.suffix_rfl, fun _ h => absurd rfl h⟩
      | cons c text =>
          rw [fbgetsLoop]
          by_cases hlf : c = 0x0a
          · rw [if_pos hlf, hlf]
            exact ⟨rfl, Nat.le_add_left 1 len, List.not_mem_nil, List.suffix_cons _ _,
              fun _ _ => List.cons_ne_nil _ _⟩
          · rw [if_neg hlf]
            by_cases hcr : c = 0x0d
            · rw [if_pos hcr]
              refine ⟨?_, Nat.le_add_left 1 len, List.not_mem_nil, ?_,
                fun _ _ => List.cons_ne_nil _ _⟩
              · rw [hcr, unixText_cr, unixFrom_true]
                rfl
              · show (if text.head? = some 0x0a then text.tail else text) <:+ c :: text
                split
                · exact (List.tail_suffix text).trans (List.suffix_cons c text)
                · exact List.suffix_cons c text
            · rw [if_neg hcr]
              obtain ⟨hunix, hlength, hlast, hrest, -⟩ := ih text
              refine ⟨?_, Nat.succ_le_succ hlength, ?_, hrest.trans (List.suffix_cons c text),
                fun _ _ => List.cons_ne_nil _ _⟩
              · show c :: ((fbgetsLoop len text).1 ++ unixText (fbgetsLoop len text).2) = _
                rw [hunix, unixText_cons hcr]
              · show 0x0a ∉ (c :: (fbgetsLoop len text).1).dropLast
                intro hmem
                cases hp : (fbgetsLoop len text).1 with
                | nil =>
                    rw [hp] at hmem
                    exact List.not_mem_nil hmem
                | cons d p =>
                    rw [hp, List.dropLast_cons_cons] at hmem
                    rw [hp] at hlast
                    rcases List.mem_cons.mp hmem with h | h
                    · exact hlf h.symm
                    · exact hlast h

/-! ## The whole file -/

/-- The strings that calls of `fbgets` with these buffers return, until one
returns 0. -/
inductive ReadsLines (bufs : Nat → List UInt8) : Nat → Fbfile → List (List UInt8) → Prop
  | done {i : Nat} {fb fb' : Fbfile} (h : fb.fbgets (bufs i) = .ok (none, fb')) :
      ReadsLines bufs i fb []
  | line {i : Nat} {fb fb' : Fbfile} {mem : List UInt8} {strings : List (List UInt8)}
      (h : fb.fbgets (bufs i) = .ok (some mem, fb'))
      (hrest : ReadsLines bufs (i + 1) fb' strings) :
      ReadsLines bufs i fb (cstr mem :: strings)

section Whole

variable {bufsiz : Nat} {text content : List UInt8} {fb : Fbfile} {bufs : Nat → List UInt8}

/-- A call finds the next line, or there is none. -/
theorem fbgets_cases {buf : List UInt8} (hbuf : 2 ≤ buf.length) (h : FbHolds bufsiz [] text fb) :
    (text = [] ∧ ∃ fb', fb.fbgets buf = .ok (none, fb') ∧ FbHolds bufsiz [] [] fb') ∨
      ∃ line rest behind fb', fb.fbgets buf = .ok (some (line ++ 0 :: behind), fb') ∧
        LineOf (buf.length - 1) text line rest ∧ rest.length < text.length ∧
        FbHolds bufsiz [] rest fb' := by
  obtain ⟨fb', hrun, hfb'⟩ := fbgets_text buf h
  cases hget : fbgets buf.length text with
  | none =>
      rw [hget] at hrun hfb'
      refine .inl ⟨?_, fb', hrun, hfb'⟩
      by_contra hne
      rw [fbgets, if_neg hne] at hget
      cases hget
  | some r =>
      obtain ⟨line, rest⟩ := r
      have hshort := fbgets_length hbuf hget
      rw [hget] at hrun hfb'
      rw [fbgets] at hget
      split at hget
      · cases hget
      · have hline := fbgetsLoop_lineOf (buf.length - 1) text
        rw [Option.some.inj hget] at hline
        have hmem : blit buf 0 (line ++ [0]) =
            line ++ 0 :: buf.drop (0 + (line ++ [0]).length) := by
          rw [blit, List.take_zero, List.nil_append, List.append_assoc]
          rfl
        have hrun' : fb.fbgets buf = .ok (some (blit buf 0 (line ++ [0])), fb') := hrun
        rw [hmem] at hrun'
        exact .inr ⟨line, rest, _, fb', hrun', hline, hshort, hfb'⟩

theorem readsLines_holds (hbufs : ∀ i, 2 ≤ (bufs i).length) :
    ∀ {n i : Nat} {text : List UInt8} {fb : Fbfile}, text.length < n → 0 ∉ text →
      FbHolds bufsiz [] text fb → ∃ strings, ReadsLines bufs i fb strings ∧
        strings.flatten = unixText text ∧
        ∀ (j : Nat) (s : List UInt8), strings[j]? = some s →
          s.length < (bufs (i + j)).length ∧ 0x0a ∉ s.dropLast := by
  intro n
  induction n with
  | zero => exact fun h => absurd h (Nat.not_lt_zero _)
  | succ n ih =>
      intro i text fb hlen h0 h
      rcases fbgets_cases (hbufs i) h with ⟨rfl, fb', hnone, -⟩ |
        ⟨line, rest, behind, fb', hsome, hline, hshort, hfb'⟩
      · exact ⟨[], .done hnone, rfl, fun j s hs => by cases hs⟩
      · obtain ⟨strings, hreads, hflatten, hall⟩ :=
          ih (i := i + 1) (by omega) (fun hz => h0 (hline.rest.subset hz)) hfb'
        have hline0 : 0 ∉ line := by
          intro hz
          have hmem : 0 ∈ unixText text := hline.unix ▸ List.mem_append_left _ hz
          rcases mem_unixFrom hmem with h | h
          · exact h0 h
          · cases h
        have hcstr : cstr (line ++ 0 :: behind) = line := cstr_terminated hline0 behind
        refine ⟨line :: strings, hcstr ▸ .line hsome hreads, ?_, ?_⟩
        · rw [List.flatten_cons, hflatten, hline.unix]
        · intro j s hs
          cases j with
          | zero =>
              cases hs
              have := hbufs i
              exact ⟨Nat.lt_of_le_of_lt hline.length (by rw [Nat.add_zero]; omega), hline.last⟩
          | succ j =>
              have hj := hall j s hs
              rw [Nat.add_right_comm] at hj
              exact hj

/-- The strings are the file with its line ends made one, however it is read and
whatever the buffers are. -/
theorem readsLines_spec {reads : List ReadCall} (h0 : 0 ∉ content)
    (hreads : SplitReads bufsiz content reads) (hbufs : ∀ i, 2 ≤ (bufs i).length) :
    ∃ strings, ReadsLines bufs 0 (Fbfile.fdbopen bufsiz reads) strings ∧
      strings.flatten = unixText content ∧
      ∀ (i : Nat) (s : List UInt8), strings[i]? = some s →
        s.length < (bufs i).length ∧ 0x0a ∉ s.dropLast := by
  obtain ⟨strings, hlines, hflatten, hall⟩ :=
    readsLines_holds hbufs (i := 0) (Nat.lt_succ_self _) h0 (fdbopen_holds hreads)
  exact ⟨strings, hlines, hflatten, fun i s hs => Nat.zero_add i ▸ hall i s hs⟩

/-- `ab\r` and `\ncd` in blocks of three, into buffers of three bytes. -/
theorem readsLines_blocks : ∃ strings,
    ReadsLines (fun _ => [0, 0, 0]) 0
      (Fbfile.fdbopen 3 [.data [0x61, 0x62, 0x0d], .data [0x0a, 0x63, 0x64]]) strings ∧
      strings.flatten = unixText [0x61, 0x62, 0x0d, 0x0a, 0x63, 0x64] ∧
      ∀ (i : Nat) (s : List UInt8), strings[i]? = some s → s.length < 3 ∧ 0x0a ∉ s.dropLast :=
  readsLines_spec (by decide) ⟨[[0x61, 0x62, 0x0d], [0x0a, 0x63, 0x64]], rfl, rfl, by decide⟩
    fun _ => Nat.le_of_ble_eq_true rfl

end Whole

end TrIrcd
