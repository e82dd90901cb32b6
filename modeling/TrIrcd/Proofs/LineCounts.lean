import TrIrcd.Lib.Run
import TrIrcd.Lib.Total
import TrIrcd.Src.Linebuf

/-!
# Lines are counted

`Counted` is the order under which lines can be shared: the lists name lines
that the heap has handed out, and the reference count of such a line is the
number of places that name it, over all heads together. A line is given back
when its count reaches 0, and then no list names it.

Every function keeps `Counted`, and the spec lemmas say what else it does:
which lists grow or lose their first line, and which line changes.
-/

namespace TrIrcd

open Function (update)
open TrIrcd.Lib

structure Counted (s : LineSt) : Prop where
  refs : ∀ l ∈ s.blocks, Total (fun h => (s.head h).list.count l) (s.line l).refcount
  live : ∀ h, ∀ l ∈ (s.head h).list, l ∈ s.blocks
  nodup : s.blocks.Nodup
  count : s.buflineCount = s.blocks.length

theorem LineSt.init_counted : Counted LineSt.init where
  refs l hl := by cases hl
  live h l hl := by cases hl
  nodup := List.nodup_nil
  count := rfl

/-- How often the heads name a line, after the list of one of them changed. -/
theorem count_update {head : HeadId → BufHead} {bufhead : HeadId} {hd : BufHead}
    {l : Nat} (h : HeadId) :
    ((update head bufhead hd) h).list.count l =
      update (fun h => (head h).list.count l) bufhead (hd.list.count l) h := by
  by_cases he : h = bufhead
  · rw [he, Function.update_self, Function.update_self]
  · rw [Function.update_of_ne he, Function.update_of_ne he]

variable {s : LineSt}

/-- A line off the heap is on no list. -/
theorem Counted.count_eq_zero (h : Counted s) {l : Nat} (hl : l ∉ s.blocks)
    (hd : HeadId) : (s.head hd).list.count l = 0 :=
  List.count_eq_zero.mpr fun hm => hl (h.live hd l hm)

/-- A line that is on a list has a positive count. -/
theorem Counted.refcount_pos (h : Counted s) {hd : HeadId} {l : Nat}
    (hl : l ∈ (s.head hd).list) : 0 < (s.line l).refcount := by
  have hle := (h.refs l (h.live hd l hl)).le hd
  have hpos := List.count_pos_iff.mpr hl
  omega

/-! ## Storing -/

section Store

variable {bufhead : HeadId} {bufline : Nat} {ln : BufLine} {added : Nat}

@[simp] theorem store_blocks : (s.store bufhead bufline ln added).blocks = s.blocks := rfl

@[simp] theorem store_line :
    (s.store bufhead bufline ln added).line = update s.line bufline ln := rfl

@[simp] theorem store_list (h : HeadId) :
    ((s.store bufhead bufline ln added).head h).list = (s.head h).list := by
  simp only [LineSt.store]
  by_cases he : h = bufhead
  · rw [he, Function.update_self]
  · rw [Function.update_of_ne he]

/-- Storing a line under its old count changes no list and no count. -/
theorem Counted.store (h : Counted s) (hr : ln.refcount = (s.line bufline).refcount) :
    Counted (s.store bufhead bufline ln added) := by
  refine ⟨fun l hl => ?_, fun hd l hl => ?_, h.nodup, h.count⟩
  · have hrefs : Total (fun hd => ((s.store bufhead bufline ln added).head hd).list.count l)
        (s.line l).refcount := (h.refs l hl).congr fun hd => by rw [store_list]
    rw [store_line]
    by_cases he : l = bufline
    · subst he
      rw [Function.update_self, hr]
      exact hrefs
    · rw [Function.update_of_ne he]
      exact hrefs
  · rw [store_list] at hl
    exact h.live hd l hl

end Store

/-! ## A new line -/

section NewLine

variable (A : Allocator) (bufhead : HeadId) (s : LineSt)

theorem newLine_fresh : (linebufNewLine A bufhead s).1 ∉ s.blocks := A.pick_fresh _

theorem newLine_blocks :
    (linebufNewLine A bufhead s).2.blocks = (linebufNewLine A bufhead s).1 :: s.blocks :=
  rfl

theorem newLine_line_self :
    (linebufNewLine A bufhead s).2.line (linebufNewLine A bufhead s).1 =
      ⟨(s.line (linebufNewLine A bufhead s).1).buf, false, false, false, 0, 1⟩ :=
  Function.update_self ..

theorem newLine_line {l : Nat} (hl : l ≠ (linebufNewLine A bufhead s).1) :
    (linebufNewLine A bufhead s).2.line l = s.line l := Function.update_of_ne hl ..

theorem newLine_head_self :
    (linebufNewLine A bufhead s).2.head bufhead =
      { s.head bufhead with
        list := (s.head bufhead).list ++ [(linebufNewLine A bufhead s).1]
        alloclen := (s.head bufhead).alloclen + 1
        numlines := (s.head bufhead).numlines + 1 } := Function.update_self ..

theorem newLine_head {h : HeadId} (hh : h ≠ bufhead) :
    (linebufNewLine A bufhead s).2.head h = s.head h := Function.update_of_ne hh ..

variable {s}

theorem Counted.newLine (h : Counted s) : Counted (linebufNewLine A bufhead s).2 := by
  have hfresh := newLine_fresh A bufhead s
  have hself := newLine_line_self A bufhead s
  refine ⟨fun l hl => ?_, fun hd l hl => ?_, List.nodup_cons.mpr ⟨hfresh, h.nodup⟩, ?_⟩
  · rw [newLine_blocks] at hl
    refine Total.congr ?_ fun hd => count_update hd
    rw [List.count_append]
    by_cases he : l = (linebufNewLine A bufhead s).1
    · -- The new line is on the one list that was given it.
      subst he
      rw [hself]
      have hzero : (fun hd => (s.head hd).list.count (linebufNewLine A bufhead s).1) =
          fun _ => 0 := funext fun hd => h.count_eq_zero hfresh hd
      have hone := (Total.zero (ι := HeadId)).update bufhead 1
      rw [hzero]
      rw [show List.count (linebufNewLine A bufhead s).1 (s.head bufhead).list = 0 from
        h.count_eq_zero hfresh bufhead]
      simpa [linebufNewLine] using hone
    · rw [newLine_line A bufhead s he]
      have hold := h.refs l ((List.mem_cons.mp hl).resolve_left he)
      have hupd := hold.update bufhead ((s.head bufhead).list.count l)
      have hnone : List.count l [(linebufNewLine A bufhead s).1] = 0 :=
        List.count_eq_zero.mpr (by simpa using he)
      rw [show A.pick s.blocks = (linebufNewLine A bufhead s).1 from rfl, hnone,
        Nat.add_zero]
      simpa using hupd
  · rw [newLine_blocks]
    by_cases hh : hd = bufhead
    · rw [hh, newLine_head_self] at hl
      rcases List.mem_append.mp hl with hl | hl
      · exact List.mem_cons_of_mem _ (h.live bufhead l hl)
      · rw [List.mem_singleton.mp hl]
        exact List.mem_cons_self ..
    · rw [newLine_head A bufhead s hh] at hl
      exact List.mem_cons_of_mem _ (h.live hd l hl)
  · rw [newLine_blocks, List.length_cons]
    show s.buflineCount + 1 = _
    rw [h.count]
    rfl

end NewLine

/-! ## Marks and offsets -/

section Marks

variable (bufhead : HeadId) (bufline : Nat) (writeofs : Nat) (s)

@[simp] theorem setWriteofs_blocks : (s.setWriteofs bufhead writeofs).blocks = s.blocks := rfl

@[simp] theorem setWriteofs_line : (s.setWriteofs bufhead writeofs).line = s.line := rfl

theorem setWriteofs_head_self : (s.setWriteofs bufhead writeofs).head bufhead =
    { s.head bufhead with writeofs := writeofs } := Function.update_self ..

theorem setWriteofs_head {h : HeadId} (hh : h ≠ bufhead) :
    (s.setWriteofs bufhead writeofs).head h = s.head h := Function.update_of_ne hh ..

@[simp] theorem setWriteofs_list (h : HeadId) :
    ((s.setWriteofs bufhead writeofs).head h).list = (s.head h).list := by
  by_cases hh : h = bufhead
  · rw [hh, setWriteofs_head_self]
  · rw [setWriteofs_head s bufhead writeofs hh]

@[simp] theorem startFlush_blocks : (s.startFlush bufhead bufline).blocks = s.blocks := by
  rw [LineSt.startFlush]
  split
  · rfl
  · rfl

@[simp] theorem startFlush_list (h : HeadId) :
    ((s.startFlush bufhead bufline).head h).list = (s.head h).list := by
  rw [LineSt.startFlush]
  split
  · rfl
  · rw [setWriteofs_list]

/-- All that can change about a line is that it has the mark. -/
theorem startFlush_line (l : Nat) :
    (s.startFlush bufhead bufline).line l =
      { s.line l with flushing := (s.line l).flushing || l = bufline } := by
  rw [LineSt.startFlush]
  split
  · next hf =>
      by_cases he : l = bufline
      · rw [he, hf, Bool.true_or, ← hf]
      · rw [decide_eq_false he, Bool.or_false]
  · show update s.line bufline _ l = _
    by_cases he : l = bufline
    · subst he
      rw [Function.update_self, decide_eq_true rfl, Bool.or_true]
    · rw [Function.update_of_ne he, decide_eq_false he, Bool.or_false]

variable {s}

theorem Counted.setWriteofs (h : Counted s) : Counted (s.setWriteofs bufhead writeofs) where
  refs l hl := (h.refs l hl).congr fun hd => by rw [setWriteofs_list]
  live hd l hl := h.live hd l (by rwa [setWriteofs_list] at hl)
  nodup := h.nodup
  count := h.count

theorem Counted.startFlush (h : Counted s) : Counted (s.startFlush bufhead bufline) where
  refs l hl := by
    rw [startFlush_line]
    rw [startFlush_blocks] at hl
    exact (h.refs l hl).congr fun hd => by rw [startFlush_list]
  live hd l hl := by
    rw [startFlush_blocks]
    exact h.live hd l (by rwa [startFlush_list] at hl)
  nodup := by
    rw [startFlush_blocks]
    exact h.nodup
  count := by
    rw [startFlush_blocks, ← h.count, LineSt.startFlush]
    split
    · rfl
    · rfl

end Marks

/-! ## A line done with -/

/-- The first line leaves the list, the rest of the head follows, and the
line's count goes down; nothing else about any line changes. -/
structure DoneLine (bufhead : HeadId) (bufline : Nat) (rest : List Nat)
    (s s' : LineSt) : Prop where
  counted : Counted s'
  head : s'.head = update s.head bufhead
    { s.head bufhead with
      list := rest
      alloclen := (s.head bufhead).alloclen - 1
      len := (s.head bufhead).len - (s.line bufline).len
      numlines := (s.head bufhead).numlines - 1 }
  line : s'.line = update s.line bufline
    { s.line bufline with refcount := (s.line bufline).refcount - 1 }

/-- The state after the first line left the list, before its count is looked
at. -/
def LineSt.unlisted (bufhead : HeadId) (bufline : Nat) (rest : List Nat) (s : LineSt) :
    LineSt :=
  { s with
    head := update s.head bufhead
      { s.head bufhead with
        list := rest
        alloclen := (s.head bufhead).alloclen - 1
        len := (s.head bufhead).len - (s.line bufline).len
        numlines := (s.head bufhead).numlines - 1 }
    line := update s.line bufline
      { s.line bufline with refcount := (s.line bufline).refcount - 1 } }

theorem unlisted_line_self (s : LineSt) (bufhead : HeadId) (bufline : Nat)
    (rest : List Nat) : (s.unlisted bufhead bufline rest).line bufline =
      { s.line bufline with refcount := (s.line bufline).refcount - 1 } :=
  Function.update_self ..

theorem unlisted_list (s : LineSt) (bufhead : HeadId) (bufline : Nat) (rest : List Nat)
    (hd : HeadId) : ((s.unlisted bufhead bufline rest).head hd).list =
      if hd = bufhead then rest else (s.head hd).list := by
  simp only [LineSt.unlisted, Function.update_apply]
  split <;> rfl

theorem Counted.unlisted (h : Counted s) {bufhead : HeadId} {bufline : Nat}
    {rest : List Nat} (hl : (s.head bufhead).list = bufline :: rest) :
    Counted (s.unlisted bufhead bufline rest) where
  refs l hlb := by
    have hupd := (h.refs l hlb).update bufhead (rest.count l)
    refine Total.congr ?_ fun hd => count_update hd
    rw [hl, List.count_cons] at hupd
    show Total _ (update s.line bufline _ l).refcount
    by_cases he : l = bufline
    · subst he
      rw [Function.update_self]
      have heq : (s.line l).refcount - 1 =
          (s.line l).refcount - ((rest.count l + 1 : Nat) : Int) + rest.count l := by
        push_cast
        omega
      rw [if_pos (beq_self_eq_true l)] at hupd
      rw [← heq] at hupd
      exact hupd
    · rw [Function.update_of_ne he]
      rw [if_neg (by simpa using Ne.symm he)] at hupd
      simpa using hupd
  live hd l hm := by
    rw [unlisted_list] at hm
    split at hm
    · exact h.live bufhead l (by rw [hl]; exact List.mem_cons_of_mem _ hm)
    · exact h.live hd l hm
  nodup := h.nodup
  count := h.count

/-- A line without references can be given back. -/
theorem Counted.free (h : Counted s) {bufline : Nat} (hb : bufline ∈ s.blocks)
    (hz : (s.line bufline).refcount = 0) :
    Counted { s with
      buflineCount := s.buflineCount - 1, blocks := s.blocks.erase bufline } where
  refs l hl := h.refs l (List.mem_of_mem_erase hl)
  live hd l hm := by
    have hzero := h.refs bufline hb
    rw [hz] at hzero
    have hnone := hzero.of_zero hd
    refine (List.mem_erase_of_ne ?_).mpr (h.live hd l hm)
    intro heq
    subst heq
    exact List.count_eq_zero.mp hnone hm
  nodup := h.nodup.erase _
  count := by
    have hlen := List.length_pos_of_mem hb
    have hcount := h.count
    rw [List.length_erase_of_mem hb]
    show s.buflineCount - 1 = _
    omega

/-- Of the assertions only the one about the head's length can fail. -/
theorem linebufDoneLine_cases (h : Counted s) {bufhead : HeadId} {bufline : Nat}
    {rest : List Nat} (hl : (s.head bufhead).list = bufline :: rest) :
    ((s.head bufhead).len - (s.line bufline).len < 0 ∧
        linebufDoneLine bufhead s = .error .headLen) ∨
      (0 ≤ (s.head bufhead).len - (s.line bufline).len ∧
        ∃ s', linebufDoneLine bufhead s = .ok s' ∧ DoneLine bufhead bufline rest s s') := by
  have hin : bufline ∈ (s.head bufhead).list := by
    rw [hl]
    exact List.mem_cons_self ..
  have hblock := h.live bufhead bufline hin
  have hpos := h.refcount_pos hin
  have hlen := List.length_pos_of_mem hblock
  have hcount := h.count
  have hun := h.unlisted hl
  simp only [linebufDoneLine, hl]
  by_cases hneg : (s.head bufhead).len - (s.line bufline).len < 0
  · exact Or.inl ⟨hneg, by rw [if_pos hneg]⟩
  · refine Or.inr ⟨by omega, ?_⟩
    rw [if_neg hneg, if_neg (by omega)]
    split
    · next hz =>
        have hself : ((s.unlisted bufhead bufline rest).line bufline).refcount = 0 := by
          rw [unlisted_line_self]
          exact hz
        rw [if_neg (by omega)]
        exact ⟨_, rfl, hun.free hblock hself, rfl, rfl⟩
    · exact ⟨_, rfl, hun, rfl, rfl⟩

end TrIrcd
