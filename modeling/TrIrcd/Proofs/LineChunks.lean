import TrIrcd.Lib.Lines
import TrIrcd.Proofs.LineText

/-!
# Lines from chunks, without the buffers

What `linebufParse` makes of data, as far as its reader can tell: `absorb`
takes a piece, text and line ends, to the lines that are closed and the part
of a line that is open. A line has room for 511 bytes, and when the part and
the piece together have more, the line is closed with what fits and the rest
of the piece is gone, its line ends counted.

What is lost therefore depends on where the piece stops, which is where the
line stops or where the chunk does. With segments of at most 512 bytes and a
remainder of at most 1023 (`Bounded`) every way of cutting the stream loses
the same (`Absorbs.canon`). With a longer segment one chunk and two give
different lines (`Absorbs.whole`).
-/

namespace TrIrcd

open TrIrcd.Lib

/-- Closed lines, and the part of a line. -/
abbrev Lines := List (List UInt8) × List UInt8

/-- A piece of `text` and `eols` comes in. -/
def absorb (st : Lines) (text eols : List UInt8) : Lines :=
  if bufDataSize - st.2.length - 1 < text.length + eols.length then
    (close st.1 ((st.2 ++ text).take (bufDataSize - 1)), [])
  else if eols = [] then (st.1, st.2 ++ text)
  else (close st.1 (st.2 ++ text), [])

/-- Piece after piece, to the end of the data. -/
inductive Absorbs : Lines → List UInt8 → Lines → Prop
  | done (st : Lines) : Absorbs st [] st
  | piece {st st' : Lines} {text eols rest : List UInt8} :
      (∀ c ∈ text, isEol c = false) → (∀ c ∈ eols, isEol c = true) →
      text ++ eols ≠ [] → (eols = [] → rest = []) →
      Absorbs (absorb st text eols) rest st' →
      Absorbs st (text ++ (eols ++ rest)) st'

/-- Chunk after chunk. -/
inductive AbsorbsAll : Lines → List (List UInt8) → Lines → Prop
  | nil (st : Lines) : AbsorbsAll st [] st
  | cons {st st' st'' : Lines} {chunk : List UInt8} {chunks : List (List UInt8)} :
      Absorbs st chunk st' → AbsorbsAll st' chunks st'' →
      AbsorbsAll st (chunk :: chunks) st''

/-- The lines a reader can get from a stream that comes in one chunk. -/
def fullLines (stream : List UInt8) : List (List UInt8) :=
  (segments isEol stream).map (List.take (bufDataSize - 1)) ++
    if (remainder isEol stream).length < bufDataSize then []
    else [(remainder isEol stream).take (bufDataSize - 1)]

/-- Neither a segment nor the remainder can be cut in two different places. -/
structure Bounded (stream : List UInt8) : Prop where
  segment : ∀ w ∈ segments isEol stream, w.length ≤ bufDataSize
  rest : (remainder isEol stream).length < 2 * bufDataSize

theorem bufDataSize_pos : 0 < bufDataSize := Nat.zero_lt_succ 511

theorem Bounded.left {xs ys : List UInt8} (h : Bounded (xs ++ ys)) : Bounded xs := by
  induction ys using lines_induction isEol with
  | text t ht =>
      obtain ⟨hseg, hrem⟩ := segments_append_text xs ht
      have hlen := h.rest
      rw [hrem, List.length_append] at hlen
      exact ⟨fun w hw => h.segment w (by rw [hseg]; exact hw), by omega⟩
  | line t c ys ht hc _ =>
      obtain ⟨hseg, -⟩ := segments_append_cons (xs ++ t) ys hc
      obtain ⟨hseg', hrem'⟩ := segments_append_text xs ht
      rw [List.append_assoc, hseg', hrem'] at hseg
      refine ⟨fun w hw => h.segment w ?_, ?_⟩
      · rw [hseg, close]
        simp [hw]
      · by_cases hnil : remainder isEol xs ++ t = []
        · rw [(List.append_eq_nil_iff.mp hnil).1]
          decide
        · have hlen := h.segment (remainder isEol xs ++ t) (by
            rw [hseg, close_of_ne_nil _ hnil]
            simp)
          have := bufDataSize_pos
          rw [List.length_append] at hlen
          omega

/-! ## Full lines -/

theorem map_take_close (ws : List (List UInt8)) (w : List UInt8) :
    (close ws w).map (List.take (bufDataSize - 1)) =
      close (ws.map (List.take (bufDataSize - 1))) (w.take (bufDataSize - 1)) := by
  cases w with
  | nil => rw [close_nil, List.take_nil, close_nil]
  | cons c w =>
      have hne : (c :: w).take (bufDataSize - 1) ≠ [] := by simp [bufDataSize]
      rw [close_of_ne_nil _ (List.cons_ne_nil c w), close_of_ne_nil _ hne, List.map_append,
        List.map_singleton]

theorem take_of_length_lt {w : List UInt8} (h : w.length < bufDataSize) :
    w.take (bufDataSize - 1) = w := List.take_of_length_le (by omega)

theorem close_take_of_le (done : List (List UInt8)) {w : List UInt8}
    (h : bufDataSize ≤ w.length) :
    close done (w.take (bufDataSize - 1)) = done ++ [w.take (bufDataSize - 1)] := by
  refine close_of_ne_nil _ fun hnil => ?_
  have hlen := congrArg List.length hnil
  rw [List.length_take, List.length_nil] at hlen
  have : 0 < bufDataSize - 1 := by decide
  omega

theorem fullLines_text {t : List UInt8} (ht : ∀ c ∈ t, isEol c = false)
    (xs : List UInt8) :
    fullLines (xs ++ t) = (segments isEol xs).map (List.take (bufDataSize - 1)) ++
      if (remainder isEol xs ++ t).length < bufDataSize then []
      else [(remainder isEol xs ++ t).take (bufDataSize - 1)] := by
  rw [fullLines, (segments_append_text xs ht).1, (segments_append_text xs ht).2]

theorem fullLines_line {t es : List UInt8} (ht : ∀ c ∈ t, isEol c = false)
    (hes : ∀ c ∈ es, isEol c = true) (hne : es ≠ []) (xs ys : List UInt8) :
    fullLines (xs ++ (t ++ (es ++ ys))) =
      close ((segments isEol xs).map (List.take (bufDataSize - 1)))
        ((remainder isEol xs ++ t).take (bufDataSize - 1)) ++ fullLines ys := by
  obtain ⟨hseg, hrem⟩ := segments_append_line xs ys ht hes hne
  rw [fullLines, fullLines, hseg, hrem, List.map_append, map_take_close, List.append_assoc]

theorem fullLines_nil : fullLines [] = [] := by
  rw [fullLines, segments_nil, remainder_nil]
  rfl

theorem length_fullLines (stream : List UInt8) :
    (fullLines stream).length = (segments isEol stream).length +
      if (remainder isEol stream).length < bufDataSize then 0 else 1 := by
  rw [fullLines, List.length_append, List.length_map]
  split
  · rfl
  · rfl

/-! ## However the stream is cut -/

/-- The lines after a bounded part of a stream. When the remainder has 512
bytes its line is closed, and what is open then is what came after. -/
structure Canon (stream : List UInt8) (st : Lines) : Prop where
  lines : st.1 = fullLines stream
  short : (remainder isEol stream).length < bufDataSize → st.2 = remainder isEol stream
  long : bufDataSize ≤ (remainder isEol stream).length →
    st.2.length + bufDataSize ≤ (remainder isEol stream).length

theorem canon_nil : Canon [] ([], []) where
  lines := fullLines_nil.symm
  short _ := remainder_nil.symm
  long h := by
    rw [remainder_nil] at h
    exact absurd h (by decide)

/-- A piece without line ends adds to the part of a line, as far as there is
room. -/
theorem absorb_text (st : Lines) (text : List UInt8) :
    absorb st text [] =
      if bufDataSize - st.2.length - 1 < text.length then
        (close st.1 ((st.2 ++ text).take (bufDataSize - 1)), [])
      else (st.1, st.2 ++ text) := by
  rw [absorb, List.length_nil, Nat.add_zero, if_pos rfl]

/-- A piece with line ends closes the line, with what there was room for. -/
theorem absorb_line (st : Lines) (text : List UInt8) {eols : List UInt8} (hne : eols ≠ []) :
    absorb st text eols = (close st.1 ((st.2 ++ text).take (bufDataSize - 1)), []) := by
  rw [absorb, if_neg hne]
  split
  · rfl
  · rw [take_of_length_lt]
    have := List.length_pos_of_ne_nil hne
    rw [List.length_append]
    omega

/-- The remainder grows. -/
theorem Canon.text {xs text : List UInt8} {st : Lines} (h : Canon xs st)
    (htext : ∀ c ∈ text, isEol c = false) (hb : Bounded (xs ++ text)) :
    Canon (xs ++ text) (absorb st text []) := by
  have hlines := h.lines
  rw [fullLines] at hlines
  have hrem := (segments_append_text xs htext).2
  have hfull := fullLines_text htext xs
  have hrest := hb.rest
  rw [hrem, List.length_append] at hrest
  rw [absorb_text]
  rcases Nat.lt_or_ge (remainder isEol xs).length bufDataSize with hlt | hge
  · rw [if_pos hlt, List.append_nil] at hlines
    rw [h.short hlt, hlines]
    split
    · next hover =>
        have hlong : bufDataSize ≤ (remainder isEol xs ++ text).length := by
          rw [List.length_append]
          omega
        refine ⟨?_, fun hs => ?_, fun _ => ?_⟩
        · rw [hfull, if_neg (by omega), close_take_of_le _ hlong]
        · rw [hrem] at hs
          omega
        · rw [hrem, List.length_nil]
          omega
    · next hfit =>
        have hshort : (remainder isEol xs ++ text).length < bufDataSize := by
          rw [List.length_append]
          omega
        refine ⟨?_, fun _ => hrem.symm, fun hl => ?_⟩
        · rw [hfull, if_pos hshort, List.append_nil]
        · rw [hrem] at hl
          omega
  · -- A line was closed before; the open part has room to spare.
    have hopen := h.long hge
    rw [if_neg (by omega)] at hlines
    rw [if_neg (by omega)]
    refine ⟨?_, fun hs => ?_, fun _ => ?_⟩
    · rw [hfull, if_neg (by rw [List.length_append]; omega),
        List.take_append_of_le_length (by omega)]
      exact hlines
    · rw [hrem, List.length_append] at hs
      omega
    · rw [hrem, List.length_append, List.length_append]
      omega

/-- The remainder is closed. -/
theorem Canon.line {xs text eols : List UInt8} {st : Lines} (h : Canon xs st)
    (htext : ∀ c ∈ text, isEol c = false) (heols : ∀ c ∈ eols, isEol c = true)
    (hne : eols ≠ []) (hb : Bounded (xs ++ (text ++ eols))) :
    Canon (xs ++ (text ++ eols)) (absorb st text eols) := by
  have hlines := h.lines
  rw [fullLines] at hlines
  obtain ⟨hseg, hrem⟩ := segments_append_line xs [] htext heols hne
  have hfull := fullLines_line htext heols hne xs []
  rw [List.append_nil] at hrem hseg hfull
  rw [fullLines_nil, List.append_nil] at hfull
  rw [segments_nil, List.append_nil] at hseg
  rw [remainder_nil] at hrem
  rw [absorb_line st text hne]
  refine ⟨?_, fun _ => hrem.symm, fun hl => ?_⟩
  · rw [hfull]
    rcases Nat.lt_or_ge (remainder isEol xs).length bufDataSize with hlt | hge
    · rw [if_pos hlt, List.append_nil] at hlines
      rw [h.short hlt, hlines]
    · -- No room for text: the segment ends where its line was cut.
      have hlong := h.long hge
      have hle := hb.segment (remainder isEol xs ++ text) (by
        rw [hseg, close_of_ne_nil]
        · simp
        · intro hnil
          rw [(List.append_eq_nil_iff.mp hnil).1] at hge
          exact absurd hge (by decide))
      rw [List.length_append] at hle
      have ht : text = [] := List.length_eq_zero_iff.mp (by omega)
      have ho : st.2 = [] := List.length_eq_zero_iff.mp (by omega)
      rw [if_neg (by omega)] at hlines
      rw [ht, ho, List.append_nil, List.append_nil, List.take_nil, close_nil,
        close_take_of_le _ hge]
      exact hlines
  · rw [hrem] at hl
    exact absurd hl (by decide)

theorem absorb_canon {xs text eols : List UInt8} {st : Lines} (h : Canon xs st)
    (htext : ∀ c ∈ text, isEol c = false) (heols : ∀ c ∈ eols, isEol c = true)
    (hb : Bounded (xs ++ (text ++ eols))) :
    Canon (xs ++ (text ++ eols)) (absorb st text eols) := by
  rcases eq_or_ne eols [] with rfl | hne
  · rw [List.append_nil] at hb ⊢
    exact h.text htext hb
  · exact h.line htext heols hne hb

theorem Absorbs.canon {st st' : Lines} {data : List UInt8} (h : Absorbs st data st') :
    ∀ {xs}, Canon xs st → Bounded (xs ++ data) → Canon (xs ++ data) st' := by
  induction h with
  | done st =>
      intro xs hc _
      rw [List.append_nil]
      exact hc
  | @piece st st' text eols rest htext heols _ _ _ ih =>
      intro xs hc hb
      have hassoc : xs ++ (text ++ (eols ++ rest)) = xs ++ (text ++ eols) ++ rest := by
        rw [List.append_assoc, List.append_assoc]
      rw [hassoc] at hb ⊢
      exact ih (absorb_canon hc htext heols hb.left) hb

theorem AbsorbsAll.canon {st st' : Lines} {chunks : List (List UInt8)}
    (h : AbsorbsAll st chunks st') :
    ∀ {xs}, Canon xs st → Bounded (xs ++ chunks.flatten) →
      Canon (xs ++ chunks.flatten) st' := by
  induction h with
  | nil st =>
      intro xs hc _
      rw [List.flatten_nil, List.append_nil]
      exact hc
  | cons h _ ih =>
      intro xs hc hb
      rw [List.flatten_cons, ← List.append_assoc] at hb ⊢
      exact ih (h.canon hc hb.left) hb

/-! ## One chunk and two -/

theorem Absorbs.eq_of_nil {st st' : Lines} {data : List UInt8} (h : Absorbs st data st')
    (hnil : data = []) : st' = st := by
  cases h with
  | done => rfl
  | piece _ _ hne _ _ =>
      rw [← List.append_assoc] at hnil
      exact absurd (List.append_eq_nil_iff.mp hnil).1 hne

/-- A whole chunk that starts with no line open. -/
theorem Absorbs.whole {st st' : Lines} {data : List UInt8} (h : Absorbs st data st')
    (hopen : st.2 = []) :
    st'.1 = st.1 ++ fullLines data ∧
      (bufDataSize ≤ (remainder isEol data).length → st'.2 = []) := by
  induction h with
  | done st =>
      rw [fullLines_nil, List.append_nil]
      exact ⟨rfl, fun _ => hopen⟩
  | @piece st st' text eols rest htext heols _ hrest h ih =>
      rcases eq_or_ne eols [] with rfl | hne
      · -- The chunk ends here.
        rw [h.eq_of_nil (hrest rfl), hrest rfl, List.append_nil, List.append_nil,
          absorb_text, hopen, List.length_nil, List.nil_append]
        have hfull := fullLines_text htext []
        simp only [segments_nil, remainder_nil, List.nil_append, List.map_nil] at hfull
        rw [hfull, (segments_of_text htext).2]
        split
        · rw [if_neg (by omega), close_take_of_le _ (by omega)]
          exact ⟨rfl, fun _ => rfl⟩
        · have := bufDataSize_pos
          rw [if_pos (by omega)]
          exact ⟨(List.append_nil _).symm, fun _ => by omega⟩
      · rw [absorb_line st text hne, hopen, List.nil_append] at ih
        obtain ⟨hlines, hlong⟩ := ih rfl
        have hrem := (segments_append_line [] rest htext heols hne).2
        have hfull := fullLines_line htext heols hne [] rest
        rw [List.nil_append] at hrem hfull
        refine ⟨?_, fun hl => hlong (by rw [← hrem]; exact hl)⟩
        rw [hlines, hfull, segments_nil, remainder_nil, List.map_nil, List.nil_append,
          ← List.append_assoc, append_close, List.append_nil]

theorem AbsorbsAll.one {st' : Lines} {data : List UInt8}
    (h : AbsorbsAll ([], []) [data] st') : st'.1 = fullLines data := by
  cases h with
  | cons h hnil =>
      cases hnil
      exact (h.whole rfl).1

theorem AbsorbsAll.two {st' : Lines} {a b : List UInt8} (h : AbsorbsAll ([], []) [a, b] st')
    (hlong : bufDataSize ≤ (remainder isEol a).length) :
    st'.1 = fullLines a ++ fullLines b := by
  cases h with
  | cons ha h =>
      obtain ⟨hlines, hopen⟩ := ha.whole rfl
      cases h with
      | cons hb hnil =>
          cases hnil
          rw [(hb.whole (hopen hlong)).1, hlines]
          rfl

/-- With more than 512 bytes of text at its end, a stream has a first part
that ends in 512 of them and makes a line of these. -/
theorem fullLines_half {ps w : List UInt8} (hps : remainder isEol ps = [])
    (htext : ∀ c ∈ w, isEol c = false) (hlong : bufDataSize < w.length) :
    ps ++ w.take bufDataSize ≠ [] ∧
      bufDataSize ≤ (remainder isEol (ps ++ w.take bufDataSize)).length ∧
      (fullLines (ps ++ w.take bufDataSize)).length = (segments isEol ps).length + 1 := by
  obtain ⟨hseg, hrem⟩ := segments_append_text ps
    fun c hc => htext c (List.mem_of_mem_take hc (i := bufDataSize))
  have hlen : (w.take bufDataSize).length = bufDataSize :=
    List.length_take_of_le (Nat.le_of_lt hlong)
  have := bufDataSize_pos
  rw [hps, List.nil_append] at hrem
  refine ⟨fun hnil => ?_, by rw [hrem, hlen], ?_⟩
  · rw [(List.append_eq_nil_iff.mp hnil).2, List.length_nil] at hlen
    omega
  · rw [length_fullLines, hseg, hrem, if_neg (by omega)]

/-- A cut of a stream after 512 bytes of a line, at which two chunks make more
lines than one. -/
def Cut (stream : List UInt8) : Prop :=
  ∃ a b, stream = a ++ b ∧ a ≠ [] ∧ b ≠ [] ∧
    bufDataSize ≤ (remainder isEol a).length ∧
    (fullLines stream).length < (fullLines a ++ fullLines b).length

/-- A remainder of 1024 bytes makes two lines if a chunk ends after 512. -/
theorem cut_of_remainder {stream : List UInt8}
    (hlong : 2 * bufDataSize ≤ (remainder isEol stream).length) : Cut stream := by
  obtain ⟨ps, hstream, hps, hsegs, htext⟩ := eq_append_remainder isEol stream
  have := bufDataSize_pos
  have hlen := length_fullLines stream
  rw [if_neg (by omega), ← hsegs] at hlen
  obtain ⟨hne, hrem, hcount⟩ := fullLines_half hps htext (by omega)
  have hrest := segments_of_text
    fun c hc => htext c (List.mem_of_mem_drop hc (i := bufDataSize))
  have hdrop := List.length_drop (i := bufDataSize) (l := remainder isEol stream)
  refine ⟨_, (remainder isEol stream).drop bufDataSize, ?_, hne, fun hnil => ?_, hrem, ?_⟩
  · rw [List.append_assoc, List.take_append_drop, ← hstream]
  · rw [hnil, List.length_nil] at hdrop
    omega
  · rw [List.length_append, hcount, length_fullLines ((remainder isEol stream).drop _),
      hrest.1, hrest.2, if_neg (by omega), hlen, List.length_nil]
    omega

/-- A segment of 513 bytes makes two lines if a chunk ends after 512. -/
theorem cut_of_segment {stream w : List UInt8} (hw : w ∈ segments isEol stream)
    (hlong : bufDataSize < w.length) : Cut stream := by
  obtain ⟨ps, c, ys, rfl, hps, htext, hc⟩ := mem_segments hw
  obtain ⟨hne, hrem, hcount⟩ := fullLines_half hps htext hlong
  have hdrop := List.length_drop (i := bufDataSize) (l := w)
  have hrest : ∀ c ∈ w.drop bufDataSize, isEol c = false :=
    fun c hc => htext c (List.mem_of_mem_drop hc)
  -- The line end closes `w`, or what is left of it.
  have hwhole := segments_append_cons (ps ++ w) ys hc
  have hpart := segments_append_cons (w.drop bufDataSize) ys hc
  rw [List.append_assoc, (segments_append_text ps htext).1,
    (segments_append_text ps htext).2, hps, List.nil_append] at hwhole
  rw [(segments_of_text hrest).1, (segments_of_text hrest).2] at hpart
  have hwne : w ≠ [] := by
    intro heq
    subst heq
    exact absurd hlong (Nat.not_lt_zero _)
  have hdne : w.drop bufDataSize ≠ [] := by
    intro hnil
    rw [hnil, List.length_nil] at hdrop
    omega
  refine ⟨_, w.drop bufDataSize ++ c :: ys, ?_, hne, by simp, hrem, ?_⟩
  · rw [List.append_assoc, ← List.append_assoc (w.take _), List.take_append_drop]
  · rw [List.length_append, hcount, length_fullLines, length_fullLines, hwhole.1, hwhole.2,
      hpart.1, hpart.2, close_of_ne_nil _ hwne, close_of_ne_nil _ hdne]
    simp only [List.length_append, List.length_singleton, List.length_nil]
    omega

/-- In a stream that is not bounded a line is closed at 512 bytes if a chunk
ends there, and the text after it makes a line of its own. -/
theorem exists_cut (stream : List UInt8) (h : ¬ Bounded stream) : Cut stream := by
  by_cases hseg : ∀ w ∈ segments isEol stream, w.length ≤ bufDataSize
  · refine cut_of_remainder ?_
    by_contra hlt
    exact h ⟨hseg, by omega⟩
  · simp only [not_forall, Nat.not_le] at hseg
    obtain ⟨w, hw, hlong⟩ := hseg
    exact cut_of_segment hw hlong

end TrIrcd
