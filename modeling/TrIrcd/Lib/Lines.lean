import Mathlib.Data.List.TakeWhile

/-!
# Lines of a stream

A stream is cut where an element ends a line. `segments` are the pieces that
a line end closes, without the empty ones, and `remainder` is the piece after
the last line end. Both follow the stream element by element: text extends
the remainder, a line end closes it. So whatever reads a stream in chunks can
be compared with them chunk by chunk.
-/

namespace TrIrcd.Lib

variable {α : Type}

/-- For lists whose elements are given: the test can be computed. -/
theorem forall_mem_of_all {p : α → Prop} [DecidablePred p] {xs : List α}
    (h : xs.all (fun x => decide (p x)) = true) : ∀ x ∈ xs, p x :=
  fun x hx => of_decide_eq_true (List.all_eq_true.mp h x hx)

/-- A closed segment counts unless it is empty. -/
def close (done : List (List α)) (w : List α) : List (List α) :=
  done ++ [w].filter fun w => !w.isEmpty

@[simp] theorem close_nil (done : List (List α)) : close done [] = done := by simp [close]

theorem close_of_ne_nil (done : List (List α)) {w : List α} (hw : w ≠ []) :
    close done w = done ++ [w] := by simp [close, hw]

theorem append_close (done ds : List (List α)) (w : List α) :
    done ++ close ds w = close (done ++ ds) w := by rw [close, close, List.append_assoc]

variable (eol : α → Bool)

/-- The non-empty pieces that a line end closes. -/
def segments (xs : List α) : List (List α) :=
  (xs.splitOnP eol).dropLast.filter fun w => !w.isEmpty

/-- The piece after the last line end. -/
def remainder (xs : List α) : List α :=
  (xs.splitOnP eol).getLast (List.splitOnP_ne_nil eol xs)

variable {eol}

theorem splitOnP_eq (eol : α → Bool) (xs : List α) :
    ∃ ws, xs.splitOnP eol = ws ++ [remainder eol xs] ∧
      segments eol xs = ws.filter fun w => !w.isEmpty :=
  ⟨_, (List.dropLast_concat_getLast _).symm, rfl⟩

theorem segments_of_splitOnP {xs w : List α} {ws : List (List α)}
    (h : xs.splitOnP eol = ws ++ [w]) :
    segments eol xs = (ws.filter fun w => !w.isEmpty) ∧ remainder eol xs = w := by
  constructor
  · rw [segments, h, List.dropLast_concat]
  · simp only [remainder, h, List.getLast_concat]

theorem segments_of_text {t : List α} (ht : ∀ c ∈ t, eol c = false) :
    segments eol t = [] ∧ remainder eol t = t :=
  @segments_of_splitOnP _ _ t t [] (List.splitOnP_eq_singleton ht)

@[simp] theorem segments_nil : segments eol [] = [] :=
  (segments_of_text (by simp)).1

@[simp] theorem remainder_nil : remainder eol [] = [] :=
  (segments_of_text (by simp)).2

/-- A line end closes the segment before it. -/
theorem segments_append_cons (xs ys : List α) {c : α} (hc : eol c = true) :
    segments eol (xs ++ c :: ys) =
        close (segments eol xs) (remainder eol xs) ++ segments eol ys ∧
      remainder eol (xs ++ c :: ys) = remainder eol ys := by
  obtain ⟨ws, hxs, hws⟩ := splitOnP_eq eol xs
  obtain ⟨vs, hys, hvs⟩ := splitOnP_eq eol ys
  have h := List.splitOnP_append_cons xs ys hc
  rw [hxs, hys, ← List.append_assoc] at h
  obtain ⟨hseg, hrem⟩ := segments_of_splitOnP h
  refine ⟨?_, hrem⟩
  rw [hseg, List.filter_append, List.filter_append, ← hws, ← hvs, close]

/-- Every stream is text, or text and a line end and a stream. -/
theorem lines_induction (eol : α → Bool) {motive : List α → Prop}
    (text : ∀ t, (∀ c ∈ t, eol c = false) → motive t)
    (line : ∀ t c ys, (∀ c ∈ t, eol c = false) → eol c = true → motive ys →
      motive (t ++ c :: ys)) (xs : List α) : motive xs := by
  induction hn : xs.length using Nat.strongRecOn generalizing xs with
  | ind n ih =>
      have hsplit : xs.takeWhile (fun c => !eol c) ++ xs.dropWhile (fun c => !eol c) = xs :=
        List.takeWhile_append_dropWhile
      have htext : ∀ c ∈ xs.takeWhile fun c => !eol c, eol c = false := by
        intro c hc
        have := List.mem_takeWhile_imp hc
        simpa using this
      cases hd : xs.dropWhile fun c => !eol c with
      | nil =>
          rw [hd, List.append_nil] at hsplit
          rw [← hsplit]
          exact text _ htext
      | cons c ys =>
          have hc := List.head?_dropWhile_not (fun c => !eol c) xs
          rw [hd] at hsplit hc
          rw [← hsplit]
          refine line _ c ys htext (by simpa using hc) (ih ys.length ?_ ys rfl)
          rw [← hn, ← hsplit, List.length_append, List.length_cons]
          omega

/-- Text extends the remainder. -/
theorem segments_append_text (xs : List α) {t : List α} (ht : ∀ c ∈ t, eol c = false) :
    segments eol (xs ++ t) = segments eol xs ∧
      remainder eol (xs ++ t) = remainder eol xs ++ t := by
  induction xs using lines_induction eol with
  | text u hu =>
      have happ : ∀ c ∈ u ++ t, eol c = false := fun c hc =>
        (List.mem_append.mp hc).elim (hu c) (ht c)
      rw [(segments_of_text happ).1, (segments_of_text happ).2, (segments_of_text hu).1,
        (segments_of_text hu).2]
      exact ⟨rfl, rfl⟩
  | line u c ys hu hc ih =>
      rw [List.append_assoc, List.cons_append, (segments_append_cons u _ hc).1,
        (segments_append_cons u _ hc).2, (segments_append_cons u _ hc).1,
        (segments_append_cons u _ hc).2, ih.1, ih.2]
      exact ⟨rfl, rfl⟩

/-- Line ends before a stream change nothing. -/
theorem segments_eols_append {es : List α} (hes : ∀ c ∈ es, eol c = true) (ys : List α) :
    segments eol (es ++ ys) = segments eol ys ∧ remainder eol (es ++ ys) = remainder eol ys := by
  induction es with
  | nil => exact ⟨rfl, rfl⟩
  | cons c es ih =>
      have h := segments_append_cons [] (es ++ ys) (hes c (List.mem_cons_self ..))
      rw [segments_nil, remainder_nil, close_nil, List.nil_append, List.nil_append] at h
      obtain ⟨ih1, ih2⟩ := ih fun x hx => hes x (List.mem_cons_of_mem _ hx)
      exact ⟨h.1.trans ih1, h.2.trans ih2⟩

/-- A line: text, and one line end or more. -/
theorem segments_append_line (xs : List α) {t es : List α} (ys : List α)
    (ht : ∀ c ∈ t, eol c = false) (hes : ∀ c ∈ es, eol c = true) (hne : es ≠ []) :
    segments eol (xs ++ (t ++ (es ++ ys))) =
        close (segments eol xs) (remainder eol xs ++ t) ++ segments eol ys ∧
      remainder eol (xs ++ (t ++ (es ++ ys))) = remainder eol ys := by
  obtain ⟨c, es, rfl⟩ := List.exists_cons_of_ne_nil hne
  obtain ⟨hseg, hrem⟩ := segments_append_cons (xs ++ t) (es ++ ys) (hes c (List.mem_cons_self ..))
  obtain ⟨hseg', hrem'⟩ := segments_append_text xs ht
  obtain ⟨hseg'', hrem''⟩ := segments_eols_append
    (fun x hx => hes x (List.mem_cons_of_mem _ hx)) ys
  rw [List.cons_append, ← List.append_assoc, hseg, hrem, hseg', hrem', hseg'', hrem'']
  exact ⟨rfl, rfl⟩

/-- Where a segment comes from. -/
theorem mem_segments {xs w : List α} (h : w ∈ segments eol xs) :
    ∃ ps c ys, xs = ps ++ (w ++ c :: ys) ∧ remainder eol ps = [] ∧
      (∀ c ∈ w, eol c = false) ∧ eol c = true := by
  induction xs using lines_induction eol with
  | text u hu =>
      rw [(segments_of_text hu).1] at h
      cases h
  | line u c ys hu hc ih =>
      rw [(segments_append_cons u ys hc).1, (segments_of_text hu).1,
        (segments_of_text hu).2] at h
      rcases List.mem_append.mp h with h | h
      · have hw : w = u := by
          rw [close, List.nil_append] at h
          exact List.mem_singleton.mp (List.mem_filter.mp h).1
        subst hw
        exact ⟨[], c, ys, rfl, remainder_nil, hu, hc⟩
      · obtain ⟨ps, d, zs, rfl, hps, hw, hd⟩ := ih h
        refine ⟨u ++ c :: ps, d, zs, by simp, ?_, hw, hd⟩
        rw [(segments_append_cons u ps hc).2, hps]

/-- Where the remainder comes from. -/
theorem eq_append_remainder (eol : α → Bool) (xs : List α) :
    ∃ ps, xs = ps ++ remainder eol xs ∧ remainder eol ps = [] ∧
      segments eol ps = segments eol xs ∧ ∀ c ∈ remainder eol xs, eol c = false := by
  induction xs using lines_induction eol with
  | text u hu =>
      rw [(segments_of_text hu).1, (segments_of_text hu).2]
      exact ⟨[], rfl, remainder_nil, segments_nil, hu⟩
  | line u c ys hu hc ih =>
      obtain ⟨ps, hys, hps, hseg, htext⟩ := ih
      rw [(segments_append_cons u ys hc).1, (segments_append_cons u ys hc).2]
      refine ⟨u ++ c :: ps, ?_, ?_, ?_, htext⟩
      · rw [List.append_assoc, List.cons_append, ← hys]
      · rw [(segments_append_cons u ps hc).2, hps]
      · rw [(segments_append_cons u ps hc).1, hseg]

/-- What comes next is read as if it followed the remainder alone. -/
theorem segments_append (xs ys : List α) :
    segments eol (xs ++ ys) = segments eol xs ++ segments eol (remainder eol xs ++ ys) ∧
      remainder eol (xs ++ ys) = remainder eol (remainder eol xs ++ ys) := by
  induction xs using lines_induction eol with
  | text u hu =>
      rw [(segments_of_text hu).1, (segments_of_text hu).2]
      exact ⟨rfl, rfl⟩
  | line u c zs hu hc ih =>
      rw [List.append_assoc, List.cons_append, (segments_append_cons u _ hc).1,
        (segments_append_cons u _ hc).2, (segments_append_cons u _ hc).1,
        (segments_append_cons u _ hc).2, ih.1, ih.2, List.append_assoc]
      exact ⟨rfl, rfl⟩

/-! ## All pieces -/

/-- The non-empty pieces, also the one after the last line end. -/
def pieces (eol : α → Bool) (xs : List α) : List (List α) :=
  (xs.splitOnP eol).filter fun w => !w.isEmpty

theorem pieces_of_text {t : List α} (ht : ∀ c ∈ t, eol c = false) :
    pieces eol t = close [] t := by
  rw [pieces, List.splitOnP_eq_singleton ht]
  rfl

theorem pieces_append_cons (xs ys : List α) {c : α} (hc : eol c = true) :
    pieces eol (xs ++ c :: ys) = pieces eol xs ++ pieces eol ys := by
  rw [pieces, List.splitOnP_append_cons xs ys hc, List.filter_append]
  rfl

/-- The first piece starts with the text the stream starts with. -/
theorem pieces_text_append (ys : List α) :
    ∀ {t : List α}, (∀ c ∈ t, eol c = false) → t ≠ [] →
      ∃ w ws, pieces eol (t ++ ys) = (t ++ w) :: ws := by
  induction ys with
  | nil =>
      intro t ht hne
      exact ⟨[], [], by rw [List.append_nil, pieces_of_text ht, close_of_ne_nil [] hne,
        List.nil_append]⟩
  | cons c ys ih =>
      intro t ht hne
      cases hc : eol c with
      | true =>
          exact ⟨[], pieces eol ys, by rw [pieces_append_cons t ys hc, pieces_of_text ht,
            close_of_ne_nil [] hne, List.append_nil]; rfl⟩
      | false =>
          have htc : ∀ d ∈ t ++ [c], eol d = false := by
            intro d hd
            rcases List.mem_append.mp hd with hd | hd
            · exact ht d hd
            · rw [List.mem_singleton.mp hd]
              exact hc
          obtain ⟨w, ws, hw⟩ := ih htc (List.append_ne_nil_of_right_ne_nil t (List.cons_ne_nil c []))
          rw [List.append_assoc, List.singleton_append] at hw
          exact ⟨c :: w, ws, by rw [hw, List.append_assoc, List.singleton_append]⟩

/-- Cut before a line end, the pieces are those of both parts. -/
theorem pieces_append (xs : List α) {ys : List α} (hys : ∀ c ∈ ys.head?, eol c = true) :
    pieces eol (xs ++ ys) = pieces eol xs ++ pieces eol ys := by
  cases ys with
  | nil => simp [pieces]
  | cons c ys =>
      have hc : eol c = true := hys c rfl
      have hrest := pieces_append_cons [] ys hc
      rw [List.nil_append] at hrest
      rw [pieces_append_cons xs ys hc, hrest]
      simp [pieces]

/-- A piece is text of the stream. -/
theorem eq_of_mem_pieces {xs w : List α} (h : w ∈ pieces eol xs) :
    ∃ ps ys, xs = ps ++ (w ++ ys) ∧ w ≠ [] ∧ ∀ c ∈ w, eol c = false := by
  have hclose : ∀ {t : List α}, w ∈ close [] t → w = t ∧ w ≠ [] := by
    intro t hw
    by_cases ht : t = []
    · rw [ht, close_nil] at hw
      cases hw
    · rw [close_of_ne_nil [] ht] at hw
      obtain rfl := List.mem_singleton.mp hw
      exact ⟨rfl, ht⟩
  induction xs using lines_induction eol with
  | text t ht =>
      rw [pieces_of_text ht] at h
      obtain ⟨rfl, hne⟩ := hclose h
      exact ⟨[], [], by simp, hne, ht⟩
  | line t c ys ht hc ih =>
      rw [pieces_append_cons t ys hc, pieces_of_text ht] at h
      rcases List.mem_append.mp h with h | h
      · obtain ⟨rfl, hne⟩ := hclose h
        exact ⟨[], c :: ys, rfl, hne, ht⟩
      · obtain ⟨ps, zs, rfl, hne, hw⟩ := ih h
        exact ⟨t ++ c :: ps, zs, by simp, hne, hw⟩

/-- Text of the stream is part of a piece. -/
theorem exists_piece_of_text (xs ys : List α) {w : List α} (hne : w ≠ [])
    (hw : ∀ c ∈ w, eol c = false) :
    ∃ v ∈ pieces eol (xs ++ (w ++ ys)), w.length ≤ v.length := by
  induction xs using lines_induction eol with
  | text t ht =>
      have htw : ∀ c ∈ t ++ w, eol c = false := fun c hc =>
        (List.mem_append.mp hc).elim (ht c) (hw c)
      obtain ⟨v, vs, hv⟩ := pieces_text_append ys htw (List.append_ne_nil_of_right_ne_nil t hne)
      rw [← List.append_assoc, hv]
      refine ⟨_, List.mem_cons_self .., ?_⟩
      simp only [List.length_append]
      omega
  | line t c zs ht hc ih =>
      obtain ⟨v, hv, hlen⟩ := ih
      refine ⟨v, ?_, hlen⟩
      rw [List.append_assoc, List.cons_append, pieces_append_cons t _ hc]
      exact List.mem_append_right _ hv

/-- No piece of a part of the stream is longer than all of the stream's. -/
theorem exists_longer_piece {xs ys zs w : List α} (h : w ∈ pieces eol ys) :
    ∃ v ∈ pieces eol (xs ++ (ys ++ zs)), w.length ≤ v.length := by
  obtain ⟨ps, qs, rfl, hne, hw⟩ := eq_of_mem_pieces h
  have hparts : xs ++ (ps ++ (w ++ qs) ++ zs) = xs ++ ps ++ (w ++ (qs ++ zs)) := by simp
  rw [hparts]
  exact exists_piece_of_text (xs ++ ps) (qs ++ zs) hne hw

/-- The pieces of a start of the stream: text, and what is behind its end. -/
theorem pieces_take_append_cons {t : List α} (ys : List α) {c : α} (ht : ∀ d ∈ t, eol d = false)
    (hc : eol c = true) (k : Nat) :
    pieces eol ((t ++ c :: ys).take k) =
      if k ≤ t.length then close [] (t.take k)
      else close [] t ++ pieces eol (ys.take (k - t.length - 1)) := by
  split
  next hk =>
    rw [List.take_append_of_le_length hk]
    exact pieces_of_text fun d hd => ht d (List.mem_of_mem_take hd)
  next hk =>
    obtain ⟨i, hi⟩ : ∃ i, k = t.length + (i + 1) := ⟨k - t.length - 1, by omega⟩
    rw [hi, List.take_length_add_append, List.take_succ_cons, pieces_append_cons t _ hc,
      pieces_of_text ht]
    congr
    omega

end TrIrcd.Lib
