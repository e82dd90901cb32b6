import Mathlib.Data.List.Induction

/-!
# Words of a text

The words of a text are its longest pieces without a separator, and there is
no word between two separators. A text that is put together word by word, with
a separator between two words, has these words and no others.
-/

namespace TrIrcd.Lib

variable {α : Type}

/-- The pieces between separators that are not empty. -/
def words (sep : α → Bool) (xs : List α) : List (List α) :=
  (xs.splitOnP sep).filter fun w => !w.isEmpty

variable {sep : α → Bool}

@[simp] theorem words_nil : words sep [] = [] := by
  rw [words, List.splitOnP_nil]
  rfl

theorem words_of_text {w : List α} (hw : w ≠ []) (h : ∀ c ∈ w, sep c = false) :
    words sep w = [w] := by
  rw [words, List.splitOnP_eq_singleton h]
  simp [hw]

/-- A separator ends the words before it. -/
theorem words_append_cons (xs ys : List α) {c : α} (hc : sep c = true) :
    words sep (xs ++ c :: ys) = words sep xs ++ words sep ys := by
  rw [words, List.splitOnP_append_cons xs ys hc, List.filter_append]
  rfl

/-- A separator at the end adds no word. -/
theorem words_append_sep (xs : List α) {c : α} (hc : sep c = true) :
    words sep (xs ++ [c]) = words sep xs := by
  rw [words_append_cons xs [] hc, words_nil, List.append_nil]

/-- One word more. -/
theorem words_append_word (xs : List α) {c : α} {w : List α} (hc : sep c = true) (hw : w ≠ [])
    (h : ∀ c ∈ w, sep c = false) : words sep (xs ++ c :: w) = words sep xs ++ [w] := by
  rw [words_append_cons xs w hc, words_of_text hw h]

/-! ## Words put together -/

variable {c : α} {ws : List (List α)} {w : List α}

theorem intercalate_concat (hws : ws ≠ []) :
    [c].intercalate (ws ++ [w]) = [c].intercalate ws ++ c :: w := by
  induction ws with
  | nil => exact absurd rfl hws
  | cons v ws ih =>
      cases ws with
      | nil => simp
      | cons u ws =>
          have htail := ih (List.cons_ne_nil u ws)
          rw [List.cons_append, List.cons_append, List.intercalate_cons_cons, ← List.cons_append,
            htail, List.intercalate_cons_cons]
          simp only [List.append_assoc]

theorem intercalate_ne_nil (hws : ws ≠ []) (h : ∀ w ∈ ws, w ≠ []) : [c].intercalate ws ≠ [] := by
  cases ws with
  | nil => exact absurd rfl hws
  | cons v ws =>
      have hv := h v List.mem_cons_self
      cases ws with
      | nil => simpa using hv
      | cons u ws =>
          rw [List.intercalate_cons_of_ne_nil (List.cons_ne_nil u ws)]
          simp

theorem words_intercalate (hc : sep c = true) (hne : ∀ w ∈ ws, w ≠ [])
    (h : ∀ w ∈ ws, ∀ c ∈ w, sep c = false) : words sep ([c].intercalate ws) = ws := by
  induction ws using List.reverseRecOn with
  | nil => simp
  | append_singleton ws w ih =>
      have hw : w ∈ ws ++ [w] := List.mem_append_right _ List.mem_cons_self
      have hws : words sep ([c].intercalate ws) = ws :=
        ih (fun v hv => hne v (List.mem_append_left _ hv))
          fun v hv => h v (List.mem_append_left _ hv)
      by_cases hnil : ws = []
      · rw [hnil, List.nil_append, List.intercalate_singleton, words_of_text (hne w hw) (h w hw)]
      · rw [intercalate_concat hnil, words_append_word _ hc (hne w hw) (h w hw), hws]

end TrIrcd.Lib
