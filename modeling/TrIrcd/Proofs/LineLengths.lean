import TrIrcd.Proofs.LineCounts
import TrIrcd.Proofs.LineText

/-!
# The lengths in a buffer head

A head keeps the sum of the lengths of its lines and, twice, their number.
`Exact` says that it is right, and `Accounted` is what it takes to keep it
right: lines are counted (`Counted`) and hold no more than they can.

Two things put the sum wrong. When a line that already holds a part overflows,
`linebuf_copy_line` adds the length of the whole line to the head, the part
included that was added before. And when the line that `linebuf_parse` adds to
is on another list too, the head of that list is not told. `Fits` excludes
both, and then the head is right after every sequence of calls, whatever the
data, the sockets and the heads.
-/

namespace TrIrcd

open Function (update)
open TrIrcd.Lib

/-- A line that can be written to has room for the NUL. -/
structure BufLine.Sized (ln : BufLine) : Prop where
  buf : ln.buf.length = bufDataSize
  len : ln.len ≤ bufDataSize
  room : ln.terminated = false → ln.len < bufDataSize

/-- The length of all the lines of a list. -/
def lenSum (line : Nat → BufLine) : List Nat → Nat
  | [] => 0
  | l :: ls => (line l).len + lenSum line ls

/-- What the head says about its lines is true. -/
structure BufHead.Exact (line : Nat → BufLine) (hd : BufHead) : Prop where
  len : hd.len = lenSum line hd.list
  alloclen : hd.alloclen = hd.list.length
  numlines : hd.numlines = hd.list.length

structure Accounted (s : LineSt) : Prop extends Counted s where
  sized : ∀ l, (s.line l).Sized
  exact : ∀ h, (s.head h).Exact s.line

theorem BufHead.Exact.nonneg {line : Nat → BufLine} {hd : BufHead} (h : hd.Exact line) :
    0 ≤ hd.len := by
  rw [h.len]
  exact Int.natCast_nonneg _

theorem LineSt.init_accounted : Accounted LineSt.init where
  toCounted := LineSt.init_counted
  sized _ := ⟨List.length_replicate, Nat.zero_le _, fun _ => Nat.zero_lt_succ 511⟩
  exact _ := ⟨rfl, rfl, rfl⟩

/-! ## Sums -/

section Sums

variable {line : Nat → BufLine} {bufline : Nat} {ln : BufLine}

theorem lenSum_cons (l : Nat) (ls : List Nat) :
    lenSum line (l :: ls) = (line l).len + lenSum line ls := rfl

theorem lenSum_append (ls ms : List Nat) :
    lenSum line (ls ++ ms) = lenSum line ls + lenSum line ms := by
  induction ls with
  | nil => rw [List.nil_append, lenSum, Nat.zero_add]
  | cons l ls ih => rw [List.cons_append, lenSum, lenSum, ih, Nat.add_assoc]

/-- A line that grows by `added` adds this much for every time it is named. -/
theorem lenSum_update {added : Nat} (hlen : ln.len = (line bufline).len + added) :
    ∀ ls, lenSum (update line bufline ln) ls = lenSum line ls + ls.count bufline * added := by
  intro ls
  induction ls with
  | nil => simp [lenSum]
  | cons l ls ih =>
      rw [lenSum_cons, lenSum_cons, ih, List.count_cons]
      by_cases he : l = bufline
      · rw [he, Function.update_self, hlen, if_pos (beq_self_eq_true _), Nat.succ_mul]
        omega
      · rw [Function.update_of_ne he, if_neg (by simpa using he), Nat.add_zero]
        omega

theorem lenSum_update_of_len (hlen : ln.len = (line bufline).len) (ls : List Nat) :
    lenSum (update line bufline ln) ls = lenSum line ls := by
  rw [lenSum_update (show ln.len = (line bufline).len + 0 from hlen), Nat.mul_zero,
    Nat.add_zero]

theorem lenSum_congr {line' : Nat → BufLine} {ls : List Nat}
    (h : ∀ l ∈ ls, (line' l).len = (line l).len) : lenSum line' ls = lenSum line ls := by
  induction ls with
  | nil => rfl
  | cons l ls ih =>
      rw [lenSum, lenSum, h l (List.mem_cons_self ..),
        ih fun m hm => h m (List.mem_cons_of_mem _ hm)]

theorem BufHead.Exact.update_line {hd : BufHead} (h : hd.Exact line)
    (hlen : ln.len = (line bufline).len) : hd.Exact (update line bufline ln) where
  len := by rw [lenSum_update_of_len hlen, h.len]
  alloclen := h.alloclen
  numlines := h.numlines

end Sums

theorem sized_update {line : Nat → BufLine} {bufline : Nat} {ln : BufLine}
    (h : ∀ l, (line l).Sized) (hln : ln.Sized) (l : Nat) :
    (update line bufline ln l).Sized := by
  by_cases he : l = bufline
  · rw [he, Function.update_self]
    exact hln
  · rw [Function.update_of_ne he]
    exact h l

/-! ## Storing -/

variable {s : LineSt} {bufhead : HeadId} {bufline : Nat} {ln : BufLine}

/-- A line that only this head names, and names once. -/
theorem Counted.unshared (h : Counted s) (hl : bufline ∈ (s.head bufhead).list)
    (hr : (s.line bufline).refcount = 1) :
    (s.head bufhead).list.count bufline = 1 ∧
      ∀ h, h ≠ bufhead → (s.head h).list.count bufline = 0 := by
  have hrefs := h.refs bufline (h.live bufhead bufline hl)
  rw [hr] at hrefs
  exact hrefs.of_one (List.count_pos_iff.mpr hl)

theorem Accounted.store (h : Accounted s) {added : Nat}
    (hr : ln.refcount = (s.line bufline).refcount) (hln : ln.Sized)
    (hlen : ln.len = (s.line bufline).len + added)
    (honly : (bufline ∈ (s.head bufhead).list ∧ (s.line bufline).refcount = 1) ∨
      added = 0) :
    Accounted (s.store bufhead bufline ln added) where
  toCounted := h.toCounted.store hr
  sized := sized_update h.sized hln
  exact hd := by
    have hcount : (s.head bufhead).list.count bufline * added = added ∧
        ∀ h, h ≠ bufhead → (s.head h).list.count bufline * added = 0 := by
      rcases honly with ⟨hl, hone⟩ | rfl
      · obtain ⟨hself, hother⟩ := h.toCounted.unshared hl hone
        exact ⟨by rw [hself, Nat.one_mul], fun h hh => by rw [hother h hh, Nat.zero_mul]⟩
      · exact ⟨rfl, fun _ _ => rfl⟩
    have he := h.exact hd
    simp only [LineSt.store]
    by_cases hh : hd = bufhead
    · subst hh
      rw [Function.update_self]
      refine ⟨?_, he.alloclen, he.numlines⟩
      show (s.head hd).len + added = _
      rw [lenSum_update hlen, hcount.1, he.len, Int.natCast_add]
    · rw [Function.update_of_ne hh]
      refine ⟨?_, he.alloclen, he.numlines⟩
      rw [lenSum_update hlen, hcount.2 hd hh, he.len, Nat.add_zero]

/-! ## A copy -/

/-- What a copy into a line does: the line is stored, and its length grows by
as much as the head's unless it overflows with a part in it. -/
structure Copied (s : LineSt) (bufline : Nat) (data : List UInt8) (raw : Bool)
    (ln : BufLine) (added : Nat) : Prop where
  refcount : ln.refcount = (s.line bufline).refcount
  sized : ln.Sized
  len : (s.line bufline).terminated = true ∨ (s.line bufline).len = 0 ∨
      (raw = false → (s.line bufline).len + (upToEol data).length +
        (eolsAfter data).length < bufDataSize) →
    ln.len = (s.line bufline).len + added
  nothing : (s.line bufline).terminated = true ∨
      (raw = false → (s.line bufline).len + (upToEol data).length +
        (eolsAfter data).length < bufDataSize) ∧
      upToEol data = [] ∧ (raw = true → data = []) →
    added = 0

theorem linebufCopyLine_copied {data : List UInt8} {n : Nat} {s' : LineSt}
    (hs : (s.line bufline).Sized)
    (h : linebufCopyLine bufhead bufline data s = .ok (n, s')) :
    ∃ ln added, s' = s.store bufhead bufline ln added ∧
      Copied s bufline data false ln added := by
  cases hterm : (s.line bufline).terminated with
  | true =>
      simp only [linebufCopyLine, hterm, if_true] at h
      split at h
      · cases h
      · cases h
        exact ⟨_, _, rfl, rfl, ⟨hs.buf, hs.len, fun ht => by cases ht⟩,
          fun _ => rfl, fun _ => rfl⟩
  | false =>
      have hroom := hs.room hterm
      have hdata : data ≠ [] := by
        intro heq
        subst heq
        simp only [linebufCopyLine, hterm] at h
        rw [if_neg (not_not.mpr hroom)] at h
        cases h
      obtain ⟨buf, hbuf, ⟨hclen, -, hok⟩ | ⟨hclen, -, hok⟩⟩ :=
        @linebufCopyLine_cases s bufhead bufline data hs.buf hroom hterm hdata
      · rw [hok] at h
        cases h
        refine ⟨_, _, rfl, rfl, ⟨hbuf, ?_, fun _ => ?_⟩, fun _ => rfl, fun hno => ?_⟩
        · show (s.line bufline).len + (upToEol data).length ≤ _
          omega
        · show (s.line bufline).len + (upToEol data).length < _
          omega
        · rcases hno with ht | ⟨-, ht, -⟩
          · rw [hterm] at ht
            cases ht
          · rw [ht]
            rfl
      · rw [hok] at h
        cases h
        refine ⟨_, _, rfl, rfl, ⟨hbuf, Nat.sub_le .., fun ht => by cases ht⟩,
          fun hlen => ?_, fun hno => ?_⟩
        · rcases hlen with ht | hz | hfit
          · rw [hterm] at ht
            cases ht
          · rw [hz, Nat.zero_add]
            rfl
          · have := hfit rfl
            omega
        · rcases hno with ht | ⟨hfit, -, -⟩
          · rw [hterm] at ht
            cases ht
          · have := hfit rfl
            omega

theorem length_upToEol_add_le (ch : List UInt8) :
    (upToEol ch).length + (eolsAfter ch).length ≤ ch.length := by
  obtain ⟨rest, h⟩ := upToEol_append_eolsAfter ch
  have := congrArg List.length h
  simp only [List.length_append] at this
  omega

theorem length_rawCopied_le (data : List UInt8) (remaining : Nat) (terminated : Prop)
    [Decidable terminated] :
    (upToEol (data.take remaining) ++
      if terminated then eolsAfter (data.take remaining) else []).length ≤
        min remaining data.length := by
  have := length_upToEol_add_le (data.take remaining)
  rw [List.length_take] at this
  rw [List.length_append]
  split
  · exact this
  · rw [List.length_nil]
    omega

theorem linebufCopyRaw_copied (bufhead : HeadId) (data : List UInt8) (after : UInt8)
    (hs : (s.line bufline).Sized) :
    ∃ ln added, (linebufCopyRaw bufhead bufline data after s).2 =
        s.store bufhead bufline ln added ∧
      Copied s bufline data true ln added := by
  by_cases hfull : (s.line bufline).len = bufDataSize ∨ (s.line bufline).terminated = true
  · simp only [linebufCopyRaw]
    rw [if_pos hfull]
    refine ⟨s.line bufline, 0, ?_, rfl, hs, fun _ => rfl, fun _ => rfl⟩
    simp [LineSt.store]
  · -- Whatever is copied fits: `remaining` is at most the room.
    have hcopied : ∃ copied : List UInt8, copied.length ≤ data.length ∧
        (s.line bufline).len + copied.length < bufDataSize ∧
        ∃ terminated, (linebufCopyRaw bufhead bufline data after s).2 =
          s.store bufhead bufline
            { s.line bufline with
              buf := (blit (s.line bufline).buf (s.line bufline).len copied).set
                ((s.line bufline).len + copied.length) 0
              terminated := terminated
              raw := true
              len := (s.line bufline).len + copied.length }
            copied.length := by
      simp only [linebufCopyRaw]
      rw [if_neg hfull]
      refine ⟨_, Nat.le_trans (length_rawCopied_le ..) (Nat.min_le_right ..), ?_, _, rfl⟩
      have hlen := hs.len
      have hne : (s.line bufline).len ≠ bufDataSize := fun he => hfull (Or.inl he)
      refine Nat.lt_of_le_of_lt (Nat.add_le_add_left
        (Nat.le_trans (length_rawCopied_le ..) (Nat.min_le_left ..)) _) ?_
      split
      · omega
      · omega
    obtain ⟨copied, hle, hlt, terminated, hok⟩ := hcopied
    refine ⟨_, _, hok, rfl, ⟨?_, by dsimp only; omega, fun _ => hlt⟩, fun _ => rfl,
      fun hno => ?_⟩
    · rw [List.length_set, length_blit (by rw [hs.buf]; omega), hs.buf]
    · rcases hno with ht | ⟨-, -, hnil⟩
      · exact absurd (Or.inr ht) hfull
      · rw [hnil rfl] at hle
        exact Nat.le_zero.mp hle

theorem linebufCopyLine_error {data : List UInt8} {e : LineStop}
    (h : linebufCopyLine bufhead bufline data s = .error e) : e ≠ .headLen := by
  simp only [linebufCopyLine] at h
  split at h
  · cases h
    exact LineStop.noConfusion
  · split at h
    · cases h
    · simp only [linebufSkipCrlf] at h
      split at h
      · simp only [Except.bind] at h
        split at h
        · cases h
        · split at h
          · cases h
          · cases h
      · cases h
        exact LineStop.noConfusion

theorem linebufCopy_copied (bufhead : HeadId) (data : List UInt8) (after : UInt8)
    (raw : Bool) (hs : (s.line bufline).Sized) :
    Answers (fun r => ∃ ln added, r.2 = s.store bufhead bufline ln added ∧
      Copied s bufline data raw ln added) (· ≠ .headLen)
      (linebufCopy bufhead bufline data after raw s) := by
  cases raw with
  | true => exact linebufCopyRaw_copied bufhead data after hs
  | false =>
      rw [linebufCopy, if_neg Bool.false_ne_true]
      cases h : linebufCopyLine bufhead bufline data s with
      | error e => exact linebufCopyLine_error h
      | ok r =>
          obtain ⟨n, s'⟩ := r
          exact linebufCopyLine_copied hs h

/-! ## Parsing -/

theorem Accounted.newLine (A : Allocator) (bufhead : HeadId) (h : Accounted s) :
    Accounted (linebufNewLine A bufhead s).2 where
  toCounted := h.toCounted.newLine A bufhead
  sized := sized_update h.sized
    ⟨(h.sized _).buf, Nat.zero_le _, fun _ => Nat.zero_lt_succ 511⟩
  exact hd := by
    have he := h.exact hd
    -- No list named the line before it was handed out.
    have hold : lenSum (linebufNewLine A bufhead s).2.line (s.head hd).list =
        lenSum s.line (s.head hd).list := by
      refine lenSum_congr fun l hl => ?_
      rw [newLine_line]
      intro heq
      subst heq
      exact newLine_fresh A bufhead s (h.live hd _ hl)
    by_cases hh : hd = bufhead
    · subst hh
      rw [newLine_head_self]
      refine ⟨?_, ?_, ?_⟩
      · show (s.head hd).len = _
        rw [lenSum_append, hold, lenSum_cons, newLine_line_self, he.len]
        rfl
      · show (s.head hd).alloclen + 1 = _
        rw [he.alloclen, List.length_append]
        rfl
      · show (s.head hd).numlines + 1 = _
        rw [he.numlines, List.length_append]
        rfl
    · rw [newLine_head A bufhead s hh]
      exact ⟨by rw [hold, he.len], he.alloclen, he.numlines⟩

/-- The new line is on the list it was made for and on no other. -/
theorem newLine_unshared (A : Allocator) (bufhead : HeadId) (s : LineSt) :
    (linebufNewLine A bufhead s).1 ∈ ((linebufNewLine A bufhead s).2.head bufhead).list ∧
      ((linebufNewLine A bufhead s).2.line (linebufNewLine A bufhead s).1).refcount = 1 := by
  rw [newLine_head_self, newLine_line_self]
  exact ⟨List.mem_append_right _ (List.mem_singleton_self _), rfl⟩

theorem linebufParseLoop_accounted (A : Allocator) (bufhead : HeadId) (after : UInt8)
    (raw : Bool) :
    ∀ fuel data linecnt {s : LineSt}, Accounted s →
      Answers (fun r => Accounted r.2) (· ≠ .headLen)
        (linebufParseLoop A bufhead after raw fuel data linecnt s) := by
  intro fuel
  induction fuel with
  | zero => exact fun _ _ _ h => h
  | succ fuel ih =>
      intro data linecnt s h
      rw [linebufParseLoop]
      split
      · exact h
      · have hnew := h.newLine A bufhead
        refine (linebufCopy_copied bufhead data after raw (hnew.sized _)).bind ?_
        rintro ⟨cpylen, s'⟩ ⟨ln, added, rfl, hc⟩
        have hempty : ((linebufNewLine A bufhead s).2.line
            (linebufNewLine A bufhead s).1).len = 0 := by rw [newLine_line_self]
        exact ih _ _ (hnew.store hc.refcount hc.sized (hc.len (Or.inr (Or.inl hempty)))
          (Or.inl (newLine_unshared A bufhead s)))

/-- What the two defects need: a line at the end of the list that holds a
part, and data that overflow it or a head elsewhere that shares it. -/
def LineSt.Fits (s : LineSt) : LineOp → Prop
  | .parse bufhead data _ raw => ∀ l ∈ (s.head bufhead).list.getLast?,
      (s.line l).terminated = true ∨
        (raw = false → (s.line l).len + (upToEol data).length +
          (eolsAfter data).length < bufDataSize) ∧
        ((s.line l).refcount = 1 ∨ upToEol data = [] ∧ (raw = true → data = []))
  | _ => True

instance (s : LineSt) : ∀ op, Decidable (s.Fits op)
  | .parse bufhead data _ raw => inferInstanceAs (Decidable
      (∀ l ∈ (s.head bufhead).list.getLast?, (s.line l).terminated = true ∨
        (raw = false → (s.line l).len + (upToEol data).length +
          (eolsAfter data).length < bufDataSize) ∧
        ((s.line l).refcount = 1 ∨ upToEol data = [] ∧ (raw = true → data = []))))
  | .put .. => .isTrue trivial
  | .attach .. => .isTrue trivial
  | .get .. => .isTrue trivial
  | .flush .. => .isTrue trivial
  | .donebuf .. => .isTrue trivial

theorem linebufParse_accounted (A : Allocator) (bufhead : HeadId) (data : List UInt8)
    (after : UInt8) (raw : Bool) (h : Accounted s)
    (hfit : s.Fits (.parse bufhead data after raw)) :
    Answers (fun r => Accounted r.2) (· ≠ .headLen)
      (linebufParse A bufhead data after raw s) := by
  rw [linebufParse]
  cases hlast : (s.head bufhead).list.getLast? with
  | none => exact linebufParseLoop_accounted A bufhead after raw _ _ _ h
  | some l =>
      have hfit := hfit l hlast
      have hl := List.mem_of_getLast? hlast
      show Answers _ _ (if _ then _ else _)
      split
      · exact LineStop.noConfusion
      · refine (linebufCopy_copied bufhead data after raw (h.sized l)).bind ?_
        rintro ⟨cpylen, s'⟩ ⟨ln, added, rfl, hc⟩
        have hs' : Accounted (s.store bufhead l ln added) := by
          refine h.store hc.refcount hc.sized (hc.len ?_) ?_
          · exact hfit.imp_right fun hf => Or.inr hf.1
          · rcases hfit with ht | ⟨hf, hone | ⟨ht, hd⟩⟩
            · exact Or.inr (hc.nothing (Or.inl ht))
            · exact Or.inl ⟨hl, hone⟩
            · exact Or.inr (hc.nothing (Or.inr ⟨hf, ht, hd⟩))
        show Answers _ _ (if _ then _ else _)
        split
        · exact hs'
        · exact linebufParseLoop_accounted A bufhead after raw _ _ _ hs'

/-! ## The other calls -/

theorem Accounted.putLine (A : Allocator) (bufhead : HeadId) (buf : List UInt8)
    (h : Accounted s) : Accounted (linebufPutLine A bufhead buf s) := by
  have hnew := h.newLine A bufhead
  have hbuf := (hnew.sized (linebufNewLine A bufhead s).1).buf
  have hle : (buf.take bufDataSize).length ≤ bufDataSize := by
    rw [List.length_take]
    exact Nat.min_le_left ..
  refine hnew.store rfl ⟨?_, hle, fun ht => by cases ht⟩ ?_
    (Or.inl (newLine_unshared A bufhead s))
  · show (blit ((linebufNewLine A bufhead s).2.line
      (linebufNewLine A bufhead s).1).buf 0 _).length = _
    rw [length_blit (by omega), hbuf]
  · show (buf.take bufDataSize).length = ((linebufNewLine A bufhead s).2.line
      (linebufNewLine A bufhead s).1).len + (buf.take bufDataSize).length
    rw [newLine_line_self]
    exact (Nat.zero_add _).symm

theorem linebufPut_accounted (A : Allocator) (bufhead : HeadId) (buf : List UInt8)
    (h : Accounted s) :
    Answers Accounted (· ≠ .headLen) (linebufPut A bufhead buf s) := by
  rw [linebufPut]
  split
  · exact h.putLine A bufhead buf
  · split
    · exact h.putLine A bufhead buf
    · exact LineStop.noConfusion

/-- Attaching a line counts it once more, everywhere. -/
theorem attachLine_counted (h : Counted s) (hl : bufline ∈ s.blocks) :
    Counted (linebufAttachLine bufhead s bufline) := by
  refine ⟨fun l hlb => ?_, fun hd l hm => ?_, h.nodup, h.count⟩
  · refine Total.congr ?_ fun hd => count_update hd
    have hupd := (h.refs l hlb).update bufhead
      (((s.head bufhead).list ++ [bufline]).count l)
    rw [List.count_append, List.count_singleton] at hupd ⊢
    show Total _ (update s.line bufline _ l).refcount
    by_cases he : l = bufline
    · subst he
      rw [Function.update_self]
      rw [if_pos (beq_self_eq_true l)] at hupd ⊢
      have heq : (s.line l).refcount + 1 = (s.line l).refcount -
          (List.count l (s.head bufhead).list : Int) +
            ((List.count l (s.head bufhead).list + 1 : Nat) : Int) := by
        push_cast
        omega
      rw [heq]
      exact hupd
    · rw [Function.update_of_ne he]
      rw [if_neg (by simpa using Ne.symm he), Nat.add_zero] at hupd ⊢
      rwa [Int.sub_add_cancel] at hupd
  · simp only [linebufAttachLine] at hm
    by_cases hh : hd = bufhead
    · rw [hh, Function.update_self] at hm
      rcases List.mem_append.mp hm with hm | hm
      · exact h.live bufhead l hm
      · rw [List.mem_singleton.mp hm]
        exact hl
    · rw [Function.update_of_ne hh] at hm
      exact h.live hd l hm

theorem attachLine_accounted (h : Accounted s) (hl : bufline ∈ s.blocks) :
    Accounted (linebufAttachLine bufhead s bufline) where
  toCounted := attachLine_counted h.toCounted hl
  sized := sized_update h.sized
    ⟨(h.sized bufline).buf, (h.sized bufline).len, (h.sized bufline).room⟩
  exact hd := by
    have he := h.exact hd
    simp only [linebufAttachLine]
    by_cases hh : hd = bufhead
    · subst hh
      rw [Function.update_self]
      refine BufHead.Exact.update_line ⟨?_, ?_, ?_⟩ rfl
      · show (s.head hd).len + (s.line bufline).len = _
        rw [lenSum_append, lenSum_cons, he.len, Int.natCast_add]
        rfl
      · show (s.head hd).alloclen + 1 = _
        rw [he.alloclen, List.length_append]
        rfl
      · show (s.head hd).numlines + 1 = _
        rw [he.numlines, List.length_append]
        rfl
    · rw [Function.update_of_ne hh]
      exact he.update_line rfl

theorem attachLines_accounted (bufhead : HeadId) :
    ∀ (ls : List Nat) {s : LineSt}, Accounted s → (∀ l ∈ ls, l ∈ s.blocks) →
      Accounted (ls.foldl (linebufAttachLine bufhead) s) := by
  intro ls
  induction ls with
  | nil => exact fun h _ => h
  | cons l ls ih =>
      intro s h hls
      exact ih (attachLine_accounted h (hls l (List.mem_cons_self ..)))
        fun m hm => hls m (List.mem_cons_of_mem _ hm)

theorem linebufAttach_accounted (bufhead new : HeadId) (h : Accounted s) :
    Answers Accounted (· ≠ .headLen) (linebufAttach bufhead new s) := by
  rw [linebufAttach]
  split
  · exact LineStop.noConfusion
  · exact attachLines_accounted bufhead _ h (h.live new)

/-- With the lengths right no assertion about a first line fails. -/
theorem Accounted.doneLine (h : Accounted s) {rest : List Nat}
    (hlist : (s.head bufhead).list = bufline :: rest) :
    ∃ s', linebufDoneLine bufhead s = .ok s' ∧ DoneLine bufhead bufline rest s s' ∧
      Accounted s' := by
  have he := h.exact bufhead
  have hlen := he.len
  rw [hlist, lenSum_cons] at hlen
  rcases linebufDoneLine_cases h.toCounted hlist with ⟨hneg, -⟩ | ⟨-, s', hok, hd⟩
  · omega
  · refine ⟨s', hok, hd, hd.counted, ?_, fun hd' => ?_⟩
    · rw [hd.line]
      exact sized_update h.sized
        ⟨(h.sized bufline).buf, (h.sized bufline).len, (h.sized bufline).room⟩
    · rw [hd.line, hd.head]
      by_cases hh : hd' = bufhead
      · have hall := he.alloclen
        have hnum := he.numlines
        rw [hlist, List.length_cons] at hall hnum
        rw [hh, Function.update_self]
        refine BufHead.Exact.update_line ⟨?_, ?_, ?_⟩ rfl
        · show (s.head bufhead).len - (s.line bufline).len = (lenSum s.line rest : Int)
          omega
        · show (s.head bufhead).alloclen - 1 = (rest.length : Int)
          omega
        · show (s.head bufhead).numlines - 1 = (rest.length : Int)
          omega
      · rw [Function.update_of_ne hh]
        exact (h.exact hd').update_line rfl

theorem linebufDoneLine_accounted (bufhead : HeadId) (h : Accounted s) :
    Answers Accounted (· ≠ .headLen) (linebufDoneLine bufhead s) := by
  cases hlist : (s.head bufhead).list with
  | nil =>
      simp only [linebufDoneLine, hlist]
      exact h
  | cons l rest =>
      obtain ⟨s', hok, -, h'⟩ := h.doneLine hlist
      rw [hok]
      exact h'

theorem linebufDonebuf_accounted (bufhead : HeadId) (h : Accounted s) :
    Answers Accounted (· ≠ .headLen) (linebufDonebuf bufhead s) := by
  have hloop : ∀ fuel {s : LineSt}, Accounted s →
      Answers Accounted (· ≠ .headLen) (linebufDonebufLoop bufhead fuel s) := by
    intro fuel
    induction fuel with
    | zero => exact fun h => h
    | succ fuel ih =>
        intro s h
        rw [linebufDonebufLoop]
        split
        · exact h
        · exact (linebufDoneLine_accounted bufhead h).bind fun _ => ih
  exact hloop _ h

theorem linebufGet_accounted (bufhead : HeadId) (buflen : Nat) (part raw : Bool)
    (h : Accounted s) :
    Answers (fun r => Accounted r.2) (· ≠ .headLen)
      (linebufGet bufhead buflen part raw s) := by
  simp only [linebufGet]
  split
  · exact h
  · split
    · exact h
    · split
      · exact LineStop.noConfusion
      · exact (linebufDoneLine_accounted bufhead h).map fun _ h' => h'

/-- The mark of a line and the offset of a head are in none of the counts. -/
theorem Accounted.setWriteofs (h : Accounted s) (bufhead : HeadId) (writeofs : Nat) :
    Accounted (s.setWriteofs bufhead writeofs) where
  toCounted := h.toCounted.setWriteofs bufhead writeofs
  sized := h.sized
  exact hd := by
    by_cases hh : hd = bufhead
    · rw [hh, setWriteofs_head_self]
      exact ⟨(h.exact bufhead).len, (h.exact bufhead).alloclen, (h.exact bufhead).numlines⟩
    · rw [setWriteofs_head s bufhead writeofs hh]
      exact h.exact hd

theorem Accounted.startFlush (h : Accounted s) (bufhead : HeadId) (bufline : Nat) :
    Accounted (s.startFlush bufhead bufline) where
  toCounted := h.toCounted.startFlush bufhead bufline
  sized l := by
    rw [startFlush_line]
    exact ⟨(h.sized l).buf, (h.sized l).len, (h.sized l).room⟩
  exact hd := by
    rw [LineSt.startFlush]
    split
    · exact h.exact hd
    · by_cases hh : hd = bufhead
      · rw [hh, setWriteofs_head_self]
        have he := (h.exact bufhead).update_line
          (show { s.line bufline with flushing := true }.len = (s.line bufline).len from rfl)
        exact ⟨he.len, he.alloclen, he.numlines⟩
      · rw [setWriteofs_head _ bufhead 0 hh]
        exact (h.exact hd).update_line rfl

theorem linebufFlush_accounted (bufhead : HeadId) (retval : Int) (h : Accounted s) :
    Answers (fun r => Accounted r.2.2) (· ≠ .headLen) (linebufFlush bufhead retval s) := by
  simp only [linebufFlush]
  split
  · exact h
  · next bufline _ _ =>
      have hmark := h.startFlush bufhead bufline
      split
      · exact h
      · split
        · exact hmark
        · split
          · exact LineStop.noConfusion
          · split
            · have hdone := hmark.setWriteofs bufhead 0
              have hlen := (hdone.exact bufhead).nonneg
              rw [if_neg (by omega)]
              exact (linebufDoneLine_accounted bufhead hdone).map fun _ h' => h'
            · exact hmark.setWriteofs bufhead _

theorem step_accounted (A : Allocator) (s : LineSt) (op : LineOp) (h : Accounted s)
    (hfit : s.Fits op) : Answers Accounted (· ≠ .headLen) (s.step A op) := by
  cases op with
  | parse bufhead data after raw =>
      exact (linebufParse_accounted A bufhead data after raw h hfit).map fun _ h' => h'
  | put bufhead buf => exact linebufPut_accounted A bufhead buf h
  | attach bufhead new => exact linebufAttach_accounted bufhead new h
  | get bufhead buflen part raw =>
      exact (linebufGet_accounted bufhead buflen part raw h).map fun _ h' => h'
  | flush bufhead retval => exact (linebufFlush_accounted bufhead retval h).map fun _ h' => h'
  | donebuf bufhead => exact linebufDonebuf_accounted bufhead h

/-! ## The result -/

/-- After any calls that fit, every head knows its lines, an emptied one has
length 0, and if a call failed then not for the length of a head. -/
theorem lengths_exact (A : Allocator) (ops : List LineOp)
    (hfit : Meets (LineSt.step A) LineSt.Fits LineSt.init ops) :
    Answers (fun s : LineSt => ∀ h, (s.head h).Exact s.line ∧
        ((s.head h).list = [] → (s.head h).len = 0))
      (· ≠ .headLen) (run (LineSt.step A) LineSt.init ops) := by
  have hrun := run_answers (step_accounted A) ops LineSt.init_accounted hfit
  cases hr : run (LineSt.step A) LineSt.init ops with
  | error e =>
      rw [hr] at hrun
      exact hrun
  | ok s =>
      rw [hr] at hrun
      refine fun h => ⟨hrun.exact h, fun hnil => ?_⟩
      rw [(hrun.exact h).len, hnil]
      rfl

/-- A line read in two parts, put on a send queue and half written. -/
theorem lengths_exact_shared :
    Answers (fun s : LineSt => ∀ h, (s.head h).Exact s.line ∧
        ((s.head h).list = [] → (s.head h).len = 0))
      (· ≠ .headLen) (run (LineSt.step .bump) LineSt.init
        [.parse (.recvQ 0) [0x50, 0x49] 0 false, .parse (.recvQ 0) [0x4e, 0x47, 0x0d, 0x0a] 0 false,
          .attach (.sendQ 1) (.recvQ 0), .get (.recvQ 0) 513 false false, .flush (.sendQ 1) 3]) :=
  lengths_exact .bump _ (by decide)

/-- One byte, and then a line of 512: the head adds 512 and takes away 511. -/
theorem lengths_drift :
    Answers (fun s : LineSt => (s.head (.recvQ 0)).list = [] ∧ (s.head (.recvQ 0)).len = 1)
      (fun _ => False) (run (LineSt.step .bump) LineSt.init
        [.parse (.recvQ 0) [0x61] 0 false,
          .parse (.recvQ 0) (List.replicate 512 0x62 ++ [0x0a]) 0 false,
          .get (.recvQ 0) 513 false false]) := by
  decide +kernel

end TrIrcd
