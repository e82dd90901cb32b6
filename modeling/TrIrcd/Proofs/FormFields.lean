import TrIrcd.Proofs.HttpLoops
import TrIrcd.Src.HttpForms

/-!
# Fields of a form, decoded twice

The body is a line like any other, so `parse_client_header` decodes it before
`http_post` does. The first decoding gives the names and values back, joined
by `=` and `&` (`FormEncodes.decode`); the second takes a `%` or a `+` in them
for the sign of an escape or of a space; and the split comes last, when a `&`
or a `=` that was escaped is one like any other. So the fields are those that
were typed exactly if there is no `%` and no `+`, no `&`, and no `=` in a name.

What is lost shows in the length: an escape is longer than the byte it stands
for (`urlDecode_length_lt`), and the fields with what joins them are not
longer than the text they are cut from (`formFields_length`).

An element without a `=` is written through a null pointer, and where the
second decoding swallows the terminator, the memory behind it can bring one.
-/

namespace TrIrcd

open TrIrcd.Lib

/-! ## The split -/

/-- An element of a form. -/
def fieldText (f : FormField) : List UInt8 := f.1 ++ 0x3d :: f.2

/-- The elements, joined. -/
def joinFields : List FormField → List UInt8
  | [] => []
  | [f] => fieldText f
  | f :: fs => fieldText f ++ 0x26 :: joinFields fs

/-- The characters that the split looks for are where it expects them. -/
def Splits (f : FormField) : Prop := 0x26 ∉ f.1 ∧ 0x26 ∉ f.2 ∧ 0x3d ∉ f.1

theorem fieldText_ne_nil (f : FormField) : fieldText f ≠ [] := by
  rw [fieldText]
  exact List.append_ne_nil_of_right_ne_nil _ (List.cons_ne_nil _ _)

theorem mem_joinFields {fs : List FormField} {c : UInt8} :
    c ∈ joinFields fs → c = 0x26 ∨ c = 0x3d ∨ ∃ f ∈ fs, c ∈ f.1 ∨ c ∈ f.2 := by
  have htext : ∀ f, c ∈ fieldText f → c = 0x3d ∨ c ∈ f.1 ∨ c ∈ f.2 := by
    intro f h
    rcases List.mem_append.mp h with h | h
    · exact Or.inr (Or.inl h)
    · exact (List.mem_cons.mp h).imp_right Or.inr
  induction fs using joinFields.induct with
  | case1 => exact fun h => by cases h
  | case2 f =>
      intro h
      rcases htext f h with h | h
      · exact Or.inr (Or.inl h)
      · exact Or.inr (Or.inr ⟨f, List.mem_singleton_self f, h⟩)
  | case3 f fs hne ih =>
      intro h
      rw [joinFields.eq_3 f fs hne] at h
      rcases List.mem_append.mp h with h | h
      · rcases htext f h with h | h
        · exact Or.inr (Or.inl h)
        · exact Or.inr (Or.inr ⟨f, List.mem_cons_self, h⟩)
      · rcases List.mem_cons.mp h with h | h
        · exact Or.inl h
        · refine (ih h).imp_right (Or.imp_right ?_)
          rintro ⟨g, hg, hc⟩
          exact ⟨g, List.mem_cons_of_mem f hg, hc⟩

theorem subset_joinFields {fs : List FormField} {f : FormField} (hf : f ∈ fs) {c : UInt8}
    (hc : c ∈ f.1 ++ f.2) : c ∈ joinFields fs := by
  have htext : c ∈ fieldText f :=
    (List.mem_append.mp hc).elim (List.mem_append_left _)
      fun h => List.mem_append_right _ (List.mem_cons_of_mem _ h)
  induction fs using joinFields.induct with
  | case1 => cases hf
  | case2 g =>
      rw [List.mem_singleton.mp hf] at htext
      exact htext
  | case3 g fs hne ih =>
      rw [joinFields.eq_3 g fs hne]
      rcases List.mem_cons.mp hf with rfl | hf
      · exact List.mem_append_left _ htext
      · exact List.mem_append_right _ (List.mem_cons_of_mem _ (ih hf))

theorem zero_notMem_joinFields {fs : List FormField} (h : ∀ f ∈ fs, 0 ∉ f.1 ++ f.2) :
    0 ∉ joinFields fs := by
  intro hmem
  rcases mem_joinFields hmem with hc | hc | ⟨f, hf, hc⟩
  · exact absurd hc (by decide)
  · exact absurd hc (by decide)
  · exact h f hf (List.mem_append.mpr hc)

theorem cutAt_fieldText {f : FormField} (h : 0x3d ∉ f.1) : cutAt 0x3d (fieldText f) = some f := by
  have hne : ∀ c ∈ f.1, decide (c ≠ 0x3d) = true :=
    fun c hc => decide_eq_true fun heq => h (heq ▸ hc)
  have htake : (fieldText f).takeWhile (fun c => decide (c ≠ 0x3d)) = f.1 := by
    rw [fieldText, List.takeWhile_append_of_pos hne]
    simp
  have hdrop : (fieldText f).dropWhile (fun c => decide (c ≠ 0x3d)) = 0x3d :: f.2 := by
    rw [fieldText, List.dropWhile_append_of_pos hne]
    simp
  have hmem : 0x3d ∈ fieldText f := List.mem_append_right _ List.mem_cons_self
  rw [cutAt, if_pos hmem, htake, hdrop]
  rfl

theorem strtokens_joinFields {fs : List FormField} (h0 : 0 ∉ joinFields fs)
    (hfs : ∀ f ∈ fs, Splits f) : strtokens [0x26] (joinFields fs) = fs.map fieldText := by
  rw [strtokens, cstr_of_notMem h0]
  have htext : ∀ f, Splits f → ∀ c ∈ fieldText f, decide (c ∈ [(0x26 : UInt8)]) = false := by
    intro f hf c hc
    refine decide_eq_false fun heq => ?_
    rw [List.mem_singleton.mp heq] at hc
    rcases List.mem_append.mp hc with hc | hc
    · exact hf.1 hc
    · exact hf.2.1 ((List.mem_cons.mp hc).resolve_left (by decide))
  clear h0
  induction fs using joinFields.induct with
  | case1 => rfl
  | case2 f =>
      rw [joinFields, pieces_of_text (htext f (hfs f (List.mem_singleton_self f))),
        close_of_ne_nil [] (fieldText_ne_nil f)]
      rfl
  | case3 f fs hne ih =>
      obtain ⟨hf, hfs⟩ := List.forall_mem_cons.mp hfs
      rw [joinFields.eq_3 f fs hne, pieces_append_cons _ _ (by decide), ih hfs,
        pieces_of_text (htext f hf), close_of_ne_nil [] (fieldText_ne_nil f)]
      rfl

theorem formField_ok {element : List UInt8} {f : FormField} (h : formField element = .ok f) :
    element = fieldText f ∧ 0x3d ∉ f.1 := by
  rw [formField, cutAt] at h
  by_cases hmem : 0x3d ∈ element
  · rw [if_pos hmem] at h
    cases h
    refine ⟨?_, fun hin => ?_⟩
    · have hsplit := @List.takeWhile_append_dropWhile _ (fun c : UInt8 => decide (c ≠ 0x3d)) element
      cases hd : element.dropWhile (fun c => decide (c ≠ 0x3d)) with
      | nil =>
          rw [hd, List.append_nil] at hsplit
          rw [← hsplit] at hmem
          have := List.mem_takeWhile_imp hmem
          simp at this
      | cons c rest =>
          have hc := List.head?_dropWhile_not (fun c : UInt8 => decide (c ≠ 0x3d)) element
          rw [hd] at hc hsplit
          have hc : c = 0x3d := by simpa using hc
          subst hc
          exact hsplit.symm
    · have := List.mem_takeWhile_imp hin
      simp at this
  · rw [if_neg hmem] at h
    cases h

theorem mapM_ok_iff {α β ε : Type} {f : α → Except ε β} {xs : List α} :
    ∀ {ys : List β}, xs.mapM f = .ok ys ↔ List.Forall₂ (fun x y => f x = .ok y) xs ys := by
  induction xs with
  | nil =>
      intro ys
      rw [List.mapM_nil, List.forall₂_nil_left_iff]
      exact ⟨fun h => (Except.ok.inj h).symm, fun h => h ▸ rfl⟩
  | cons x xs ih =>
      intro ys
      rw [List.mapM_cons]
      cases hx : f x with
      | error e =>
          refine iff_of_false (fun h => by cases h) fun h => ?_
          cases h with
          | cons hy _ => rw [hx] at hy; cases hy
      | ok y =>
          cases hxs : xs.mapM f with
          | error e =>
              refine iff_of_false (fun h => by cases h) fun h => ?_
              cases h with
              | cons _ hys => rw [ih.mpr hys] at hxs; cases hxs
          | ok zs =>
              constructor
              · intro h
                cases h
                exact .cons hx (ih.mp hxs)
              · intro h
                cases h with
                | cons hy hys =>
                    rw [hx] at hy
                    rw [ih.mpr hys] at hxs
                    cases hy
                    cases hxs
                    rfl

theorem forall₂_formField {fs : List FormField} {elements : List (List UInt8)}
    (h : List.Forall₂ (fun e f => formField e = .ok f) elements fs) :
    elements = fs.map fieldText ∧ ∀ f ∈ fs, 0x3d ∉ f.1 := by
  induction h with
  | nil => exact ⟨rfl, by simp⟩
  | cons hf _ ih =>
      obtain ⟨rfl, hne⟩ := formField_ok hf
      rw [ih.1, List.map_cons, List.forall_mem_cons]
      exact ⟨rfl, hne, ih.2⟩

/-- What is joined like this is split like that. -/
theorem formFields_joinFields {fs : List FormField} (h0 : 0 ∉ joinFields fs)
    (hfs : ∀ f ∈ fs, Splits f) : formFields (joinFields fs) = .ok fs := by
  rw [formFields, strtokens_joinFields h0 hfs, mapM_ok_iff, List.forall₂_map_left_iff,
    List.forall₂_same]
  intro f hf
  rw [formField, cutAt_fieldText (hfs f hf).2.2]

/-- The pieces, each with one byte more for what ends it, are not longer than the text. -/
theorem pieces_length {eol : UInt8 → Bool} (xs : List UInt8) :
    ((pieces eol xs).map fun w => w.length + 1).sum ≤ xs.length + 1 := by
  have hclose : ∀ t : List UInt8, ((close [] t).map fun w => w.length + 1).sum ≤ t.length + 1 := by
    intro t
    by_cases ht : t = []
    · rw [ht, close_nil]
      simp
    · rw [close_of_ne_nil [] ht]
      simp
  induction xs using lines_induction eol with
  | text t ht =>
      rw [pieces_of_text ht]
      exact hclose t
  | line t c ys ht hc ih =>
      have := hclose t
      rw [pieces_append_cons t ys hc, pieces_of_text ht, List.map_append, List.sum_append,
        List.length_append, List.length_cons]
      omega

theorem joinFields_length {fs : List FormField} (hne : fs ≠ []) :
    (joinFields fs).length + 1 = ((fs.map fieldText).map fun w => w.length + 1).sum := by
  induction fs using joinFields.induct with
  | case1 => exact absurd rfl hne
  | case2 f => simp [joinFields]
  | case3 f fs hfs ih =>
      have hfs : fs ≠ [] := fun h => hfs h
      rw [joinFields.eq_3 f fs hfs, List.map_cons, List.map_cons, List.sum_cons, ← ih hfs,
        List.length_append, List.length_cons]
      omega

/-- What can come out of the split. -/
theorem formFields_ok {decoded : List UInt8} {fs : List FormField}
    (h : formFields decoded = .ok fs) :
    (∀ f ∈ fs, Splits f) ∧ (∀ f ∈ fs, ∀ c ∈ f.1 ++ f.2, c ∈ decoded) ∧
      (joinFields fs).length ≤ decoded.length := by
  rw [formFields, mapM_ok_iff] at h
  obtain ⟨htokens, heq⟩ := forall₂_formField h
  have hpiece : ∀ f ∈ fs, ∀ c ∈ f.1 ++ f.2, c ∈ decoded ∧ c ≠ 0x26 := by
    intro f hf c hc
    have hin : fieldText f ∈ strtokens [0x26] decoded := by
      rw [htokens]
      exact List.mem_map_of_mem hf
    obtain ⟨ps, ys, hsplit, -, htext⟩ := eq_of_mem_pieces hin
    have hmem : c ∈ fieldText f := subset_joinFields (List.mem_singleton_self f) hc
    have hcstr : c ∈ cstr decoded := by
      rw [hsplit]
      exact List.mem_append_right _ (List.mem_append_left _ hmem)
    refine ⟨(List.takeWhile_prefix _).subset hcstr, fun h => ?_⟩
    have := htext c hmem
    rw [h] at this
    exact absurd this (by decide)
  refine ⟨fun f hf => ⟨fun h => ?_, fun h => ?_, heq f hf⟩,
    fun f hf c hc => (hpiece f hf c hc).1, ?_⟩
  · exact (hpiece f hf _ (List.mem_append_left _ h)).2 rfl
  · exact (hpiece f hf _ (List.mem_append_right _ h)).2 rfl
  · by_cases hne : fs = []
    · rw [hne]
      exact Nat.zero_le _
    · have hsum := @pieces_length (fun c => c ∈ [(0x26 : UInt8)]) (cstr decoded)
      have hlen := cstr_length_le decoded
      have hjoin := joinFields_length hne
      rw [← htokens] at hjoin
      have hjoin : (joinFields fs).length + 1 ≤ (cstr decoded).length + 1 := hjoin ▸ hsum
      omega

/-! ## Decoding what is not encoded -/

theorem urlDecode_of_unescaped {s : List UInt8} (h : 0x25 ∉ s) :
    urlDecode s = s.map plainByte := by
  induction s with
  | nil => rfl
  | cons c s ih =>
      obtain ⟨hc, hs⟩ := not_or.mp (mt List.mem_cons.mpr h)
      rw [urlDecode_plain (Ne.symm hc), ih hs, List.map_cons]

theorem urlDecode_of_unreserved {s : List UInt8} (h : ∀ c ∈ s, Unreserved c) :
    urlDecode s = s := by
  rw [urlDecode_of_unescaped fun hmem => (h _ hmem).1 rfl]
  refine (List.map_congr_left fun c hc => ?_).trans (List.map_id s)
  rw [plainByte, if_neg (h c hc).2]
  rfl

/-- An escape is longer than what it stands for. -/
theorem urlDecode_length_lt (s : List UInt8) :
    0x25 ∈ s → (urlDecode s).length < s.length := by
  induction s using escape_induction with
  | nil => exact fun h => by cases h
  | plain c s hc ih =>
      intro h
      rw [urlDecode_plain hc]
      exact Nat.succ_lt_succ (ih ((List.mem_cons.mp h).resolve_left (Ne.symm hc)))
  | percent => exact fun _ => by decide
  | bad x s hx _ =>
      intro _
      have := urlDecode_length_le s
      rw [urlDecode_bad hx, List.length_cons, List.length_cons]
      omega
  | half x hx =>
      intro _
      rw [urlDecode, if_neg (by decide), if_pos rfl, if_pos hx]
      exact Nat.succ_pos _
  | pair x y s hx _ =>
      intro _
      have := urlDecode_length_le s
      have := pairBytes_length_le x y
      rw [urlDecode_pair hx]
      simp only [List.length_append, List.length_cons]
      omega

theorem cstr_append_zero (w : List UInt8) : cstr (w ++ [0]) = cstr w := by
  induction w with
  | nil => rfl
  | cons b w ih =>
      by_cases hb : b = 0
      · rw [hb]
        rfl
      · rw [List.cons_append, cstr_cons_of_ne hb, cstr_cons_of_ne hb, ih]

theorem decodeInto_nil (data : List UInt8) : decodeInto [] data = cstr (urlDecode data) := by
  rw [decodeInto, blit, List.take_nil, List.nil_append, List.drop_nil, List.append_nil,
    urlDecode_terminated]
  split
  · rw [List.append_nil]
  · exact cstr_append_zero _

/-! ## The packet -/

theorem dataOf_cons (line : List UInt8) (lines : List (List UInt8)) :
    dataOf (line :: lines) = if 0x3a ∈ line then dataOf lines else some (decodeInto [] line) := by
  rw [dataOf, List.find?_cons]
  by_cases h : 0x3a ∈ line
  · simp [h, dataOf]
  · simp [h]

/-- Lines are read up to the data; one that does not fit overruns its buffer. -/
theorem lineLoop_read (env : HttpEnv) (stack : HttpStack) (lines : List (List UInt8)) :
    ∀ (n : Nat) (c : HttpClient),
      (∀ line ∈ linesRead lines, line.length < httpBufSize) ∧
          (∃ c', lineLoop env stack lines n c = .ok (c', dataOf lines)) ∨
        ¬(∀ line ∈ linesRead lines, line.length < httpBufSize) ∧
          lineLoop env stack lines n c = .error .overflow := by
  induction lines with
  | nil => exact fun n c => Or.inl ⟨by simp [linesRead], c, rfl⟩
  | cons line lines ih =>
      intro n c
      rw [linesRead_cons, List.forall_mem_cons, lineLoop, dataOf_cons]
      by_cases hlong : httpBufSize ≤ line.length
      · rw [if_pos hlong]
        exact Or.inr ⟨fun h => absurd h.1 (Nat.not_lt_of_le hlong), rfl⟩
      · rw [if_neg hlong]
        have hshort := Nat.lt_of_not_le hlong
        cases hf : headerField line with
        | none =>
            have hcolon := headerField_eq_none.mp hf
            rw [if_neg hcolon, if_neg hcolon]
            exact Or.inl ⟨⟨hshort, by simp⟩, c, rfl⟩
        | some f =>
            have hcolon : 0x3a ∈ line := by
              by_contra h
              rw [headerField_eq_none.mpr h] at hf
              cases hf
            rw [if_pos hcolon, if_pos hcolon]
            rcases ih (n + 1) (runHeader env stack n line f.1 f.2 c) with ⟨hall, c', hc'⟩ | ⟨hall, hc'⟩
            · exact Or.inl ⟨⟨hshort, hall⟩, c', hc'⟩
            · exact Or.inr ⟨fun h => hall h.2, hc'⟩

theorem packetFields_eq {env : HttpEnv} {stack : HttpStack} {buffer : List UInt8} {c : HttpClient}
    (h : ∀ line ∈ linesRead (headerLines buffer), line.length < httpBufSize) :
    packetFields env stack buffer c = postedFields stack.form (dataOf (headerLines buffer)) := by
  rw [packetFields, parseLoop_nil]
  rcases lineLoop_read env stack (headerLines buffer) 0 c with ⟨-, c', hc'⟩ | ⟨hno, -⟩
  · rw [hc']
    rfl
  · exact absurd h hno

/-! ## No null pointer -/

/-- The line without a colon. -/
def bodyLine (buffer : List UInt8) : Option (List UInt8) :=
  (headerLines buffer).find? fun line => 0x3a ∉ line

/-- Decoding it for the second time leaves the end where it is, and every element
has a `=`. -/
def Readable (data : List UInt8) : Prop :=
  (endsInEscape data = false ∨ hasNulEscape data = true) ∧
    ∀ element ∈ strtokens [0x26] (urlDecode data), 0x3d ∈ element

instance (data : List UInt8) : Decidable (Readable data) := inferInstanceAs (Decidable (_ ∧ _))

theorem formFields_isOk {decoded : List UInt8} :
    (∃ fs, formFields decoded = .ok fs) ↔ ∀ e ∈ strtokens [0x26] decoded, 0x3d ∈ e := by
  have hfield : ∀ e, (∃ f, formField e = .ok f) ↔ 0x3d ∈ e := by
    intro e
    rw [formField, cutAt]
    by_cases h : 0x3d ∈ e
    · rw [if_pos h]
      exact iff_of_true ⟨_, rfl⟩ h
    · rw [if_neg h]
      refine iff_of_false ?_ h
      rintro ⟨f, hf⟩
      cases hf
  rw [formFields]
  induction strtokens [0x26] decoded with
  | nil => exact iff_of_true ⟨[], rfl⟩ (by simp)
  | cons e es ih =>
      simp only [mapM_ok_iff] at ih ⊢
      rw [List.forall_mem_cons]
      refine Iff.trans ?_ (and_congr (hfield e) ih)
      constructor
      · rintro ⟨fs, h⟩
        cases h with
        | cons he hes => exact ⟨⟨_, he⟩, _, hes⟩
      · rintro ⟨⟨f, he⟩, fs, hes⟩
        exact ⟨f :: fs, .cons he hes⟩

/-- Where the terminator is swallowed, the memory behind can hold an element
without a `=`. -/
theorem formFields_unterminated {data : List UInt8} (hends : endsInEscape data = true)
    (hnul : 0 ∉ urlDecode data) :
    ∃ form, ¬∃ fs, formFields (decodeInto form data) = .ok fs := by
  refine ⟨List.replicate (urlDecode data).length 1 ++ [0x26, 0x61, 0], fun h => ?_⟩
  have hdecoded : decodeInto (List.replicate (urlDecode data).length 1 ++ [0x26, 0x61, 0]) data =
      urlDecode data ++ [0x26, 0x61] := by
    rw [decodeInto, urlDecode_terminated, hends, if_pos rfl, List.append_nil, blit, List.take_zero,
      List.nil_append, Nat.zero_add, List.drop_left' List.length_replicate,
      cstr_append_of_notMem hnul]
    rfl
  have h0 : 0 ∉ urlDecode data ++ [0x26, 0x61] := by
    rw [List.mem_append, not_or]
    exact ⟨hnul, by decide⟩
  rw [formFields_isOk, hdecoded, strtokens, cstr_of_notMem h0,
    pieces_append_cons _ _ (by decide)] at h
  have := h [0x61] (List.mem_append_right _ (by decide))
  revert this
  decide

theorem formFields_readable {data : List UInt8} (h0 : 0 ∉ data) :
    (∀ form, ∃ fs, formFields (decodeInto form data) = .ok fs) ↔ Readable data := by
  rw [Readable, ← zero_mem_urlDecode data h0]
  have htokens : strtokens [0x26] (cstr (urlDecode data)) = strtokens [0x26] (urlDecode data) := by
    rw [strtokens, cstr_cstr, strtokens]
  by_cases hend : endsInEscape data = false ∨ 0 ∈ urlDecode data
  · have hmem : 0 ∈ urlDecode (data ++ [0]) := by
      rw [urlDecode_terminated]
      rcases hend with h | h
      · rw [h]
        exact List.mem_append_right _ List.mem_cons_self
      · exact List.mem_append_left _ h
    simp only [decodeInto_of_mem hmem, decodeInto_nil, formFields_isOk, htokens, hend, true_and,
      forall_const]
  · refine iff_of_false (fun h => ?_) fun h => hend h.1
    obtain ⟨hends, hnul⟩ := not_or.mp hend
    obtain ⟨form, hform⟩ := formFields_unterminated (by simpa using hends) hnul
    exact hform (h form)

/-- The fields of a packet are read without a fault, whatever is in memory. -/
def FieldsRead (buffer : List UInt8) : Prop :=
  ∀ env stack c, ∃ fs, packetFields env stack buffer c = .ok fs

/-- The lines fit, and the body, decoded once, is empty or readable. -/
def BodyReadable (buffer : List UInt8) : Prop :=
  (∀ line ∈ linesRead (headerLines buffer), line.length < httpBufSize) ∧
    ∀ line ∈ bodyLine buffer, cstr (urlDecode line) = [] ∨ Readable (cstr (urlDecode line))

theorem fieldsRead_iff (buffer : List UInt8) : FieldsRead buffer ↔ BodyReadable buffer := by
  by_cases hshort : ∀ line ∈ linesRead (headerLines buffer), line.length < httpBufSize
  · rw [FieldsRead, BodyReadable, and_iff_right hshort]
    simp only [packetFields_eq hshort, dataOf]
    rw [bodyLine]
    cases (headerLines buffer).find? fun line => 0x3a ∉ line with
    | none => exact iff_of_true (fun _ _ _ => ⟨[], rfl⟩) (by simp)
    | some line =>
        have hposted : ∀ form, postedFields form (some (cstr (urlDecode line))) =
            if cstr (urlDecode line) = [] then .ok []
            else formFields (decodeInto form (cstr (urlDecode line))) := fun _ => rfl
        simp only [Option.map_some, decodeInto_nil, hposted, Option.mem_some_iff, forall_eq']
        by_cases hnil : cstr (urlDecode line) = []
        · simp only [if_pos hnil]
          exact iff_of_true (fun _ _ _ => ⟨[], rfl⟩) (Or.inl hnil)
        · simp only [if_neg hnil, or_iff_right hnil]
          rw [← formFields_readable (zero_notMem_cstr _)]
          exact ⟨fun h form => h emptyServer { zeroStack with form := form } (makeHttpClient none),
            fun h _ stack _ => h stack.form⟩
  · refine iff_of_false (fun h => ?_) fun h => hshort h.1
    obtain ⟨fs, hfs⟩ := h emptyServer zeroStack (makeHttpClient none)
    rw [packetFields, parseLoop_nil] at hfs
    rcases lineLoop_read emptyServer zeroStack (headerLines buffer) 0 (makeHttpClient none) with
      ⟨hall, -⟩ | ⟨-, herr⟩
    · exact hshort hall
    · rw [herr] at hfs
      cases hfs

/-! ## An encoded body -/

/-- What a browser leaves as it is: letters, digits, `*`, `-`, `.` and `_`. -/
def formPlain (c : UInt8) : Bool :=
  isDigit c || (0x61 ≤ c && c ≤ 0x7a) || (0x41 ≤ c && c ≤ 0x5a) ||
    c ∈ [(0x2a : UInt8), 0x2d, 0x2e, 0x5f]

/-- A body that encodes fields: encoded names and values, joined like the fields. -/
def FormEncodes (body : List UInt8) (fs : List FormField) : Prop :=
  ∃ parts : List FormField, body = joinFields parts ∧
    List.Forall₂ (fun p f => UrlEncodes (fun c => formPlain c = true) p.1 f.1 ∧
      UrlEncodes (fun c => formPlain c = true) p.2 f.2) parts fs

/-- What comes in front of a body: lines with a colon, each ended. -/
def HeaderBlock (head : List UInt8) : Prop :=
  remainder endsLine head = [] ∧
    ∀ line ∈ segments endsLine head, 0x3a ∈ line ∧ line.length < httpBufSize

/-- The second decoding takes nothing in the field for an escape or a space. -/
def Survives (f : FormField) : Prop := ∀ c ∈ f.1 ++ f.2, Unreserved c

/-- What is not in an encoded body: a colon, or what ends a line. -/
def bodyText (c : UInt8) : Bool := !(c = 0x3a || endsLine c)

theorem formPlain_spec {c : UInt8} (h : formPlain c = true) : Unreserved c ∧ bodyText c = true := by
  have hplain : ∀ d ∈ [(0x25 : UInt8), 0x2b, 0x3a, 0x0d, 0x0a, 0], formPlain d = false :=
    forall_mem_of_all (by decide)
  have hnot : ∀ d ∈ [(0x25 : UInt8), 0x2b, 0x3a, 0x0d, 0x0a, 0], c ≠ d := by
    intro d hd heq
    rw [heq, hplain d hd] at h
    cases h
  refine ⟨⟨hnot _ (by simp), hnot _ (by simp)⟩, ?_⟩
  simp [bodyText, endsLine, hnot]

theorem isXDigit_bodyText {c : UInt8} (h : isXDigit c = true) : bodyText c = true := by
  have hdigit : ∀ d ∈ [(0x3a : UInt8), 0x0d, 0x0a, 0], isXDigit d = false :=
    forall_mem_of_all (by decide)
  have hnot : ∀ d ∈ [(0x3a : UInt8), 0x0d, 0x0a, 0], c ≠ d := by
    intro d hd heq
    rw [heq, hdigit d hd] at h
    cases h
  simp [bodyText, endsLine, hnot]

section Encoded

variable {s s' t t' body : List UInt8} {fs : List FormField}

theorem UrlEncodes.append {plain : UInt8 → Prop} (h : UrlEncodes plain s t)
    (h' : UrlEncodes plain s' t') : UrlEncodes plain (s ++ s') (t ++ t') := by
  induction h with
  | nil => exact h'
  | plain hc _ ih => exact .plain hc ih
  | plus _ ih => exact .plus ih
  | escape hx hy _ ih => exact .escape hx hy ih

theorem UrlEncodes.mono {plain plain' : UInt8 → Prop} (hplain : ∀ c, plain c → plain' c)
    (h : UrlEncodes plain s t) : UrlEncodes plain' s t := by
  induction h with
  | nil => exact .nil
  | plain hc _ ih => exact .plain (hplain _ hc) ih
  | plus _ ih => exact .plus ih
  | escape hx hy _ ih => exact .escape hx hy ih

theorem UrlEncodes.bodyText (h : UrlEncodes (fun c => formPlain c = true) s t) :
    ∀ c ∈ s, bodyText c = true := by
  induction h with
  | nil => simp
  | plain hc _ ih => exact List.forall_mem_cons.mpr ⟨(formPlain_spec hc).2, ih⟩
  | plus _ ih => exact List.forall_mem_cons.mpr ⟨by decide, ih⟩
  | escape hx hy _ ih =>
      exact List.forall_mem_cons.mpr ⟨by decide, List.forall_mem_cons.mpr
        ⟨isXDigit_bodyText hx.value.1, List.forall_mem_cons.mpr ⟨isXDigit_bodyText hy.value.1, ih⟩⟩⟩

/-- The whole body is the encoding of the fields, joined. -/
theorem FormEncodes.encodes (h : FormEncodes body fs) : UrlEncodes Unreserved body (joinFields fs) := by
  obtain ⟨parts, rfl, h⟩ := h
  have hpair : ∀ {p f : FormField}, UrlEncodes (fun c => formPlain c = true) p.1 f.1 ∧
      UrlEncodes (fun c => formPlain c = true) p.2 f.2 →
        UrlEncodes Unreserved (fieldText p) (fieldText f) := by
    intro p f hpf
    have hplain : ∀ c, formPlain c = true → Unreserved c := fun c hc => (formPlain_spec hc).1
    exact (hpf.1.mono hplain).append (.plain ⟨by decide, by decide⟩ (hpf.2.mono hplain))
  induction h with
  | nil => exact .nil
  | @cons p f ps fs hpf hrest ih =>
      cases hrest with
      | nil => exact hpair hpf
      | cons _ _ => exact (hpair hpf).append (.plain ⟨by decide, by decide⟩ ih)

theorem FormEncodes.bodyText (h : FormEncodes body fs) : ∀ c ∈ body, bodyText c = true := by
  obtain ⟨parts, rfl, h⟩ := h
  have hparts : ∀ p ∈ parts, ∀ c, c ∈ p.1 ∨ c ∈ p.2 → TrIrcd.bodyText c = true := by
    induction h with
    | nil => simp
    | cons hpf _ ih =>
        exact List.forall_mem_cons.mpr
          ⟨fun c hc => hc.elim (hpf.1.bodyText c) (hpf.2.bodyText c), ih⟩
  intro c hc
  rcases mem_joinFields hc with rfl | rfl | ⟨p, hp, hc⟩
  · decide
  · decide
  · exact hparts p hp c hc

theorem FormEncodes.body_eq_nil (h : FormEncodes body fs) : body = [] ↔ fs = [] := by
  obtain ⟨parts, rfl, h⟩ := h
  cases h with
  | nil => exact iff_of_true rfl rfl
  | @cons p f ps fs hpf hrest =>
      refine iff_of_false (fun hnil => ?_) (List.cons_ne_nil _ _)
      cases hrest with
      | nil => exact fieldText_ne_nil p hnil
      | cons _ _ => exact fieldText_ne_nil p (List.append_eq_nil_iff.mp hnil).1

/-- The lines of a packet: the headers, and the body. -/
theorem headerLines_body {head : List UInt8} (hhead : HeaderBlock head)
    (hbody : ∀ c ∈ body, bodyText c = true) :
    headerLines (head ++ body) = close (segments endsLine head) body := by
  have htext : ∀ c ∈ body, endsLine c = false := by
    intro c hc
    have := hbody c hc
    rw [TrIrcd.bodyText, Bool.not_eq_true', Bool.or_eq_false_iff] at this
    exact this.2
  obtain ⟨hseg, hrem⟩ := segments_append_text head htext
  obtain ⟨ws, hws, hws'⟩ := splitOnP_eq endsLine (head ++ body)
  rw [headerLines, pieces, hws, List.filter_append, ← hws', hseg, hrem, hhead.1, List.nil_append,
    close]

/-- The body is the data, and it is decoded once. -/
theorem FormEncodes.packetFields_eq (h : FormEncodes body fs) {head : List UInt8}
    (hhead : HeaderBlock head) (h0 : ∀ f ∈ fs, 0 ∉ f.1 ++ f.2)
    (hlen : body.length < httpBufSize) (env : HttpEnv) (stack : HttpStack) (c : HttpClient) :
    packetFields env stack (head ++ body) c =
      if fs = [] then .ok [] else formFields (decodeInto stack.form (joinFields fs)) := by
  have hlines := headerLines_body hhead h.bodyText
  have hshort : ∀ line ∈ headerLines (head ++ body), line.length < httpBufSize := by
    intro line hline
    rw [hlines] at hline
    rcases List.mem_append.mp hline with hline | hline
    · exact (hhead.2 line hline).2
    · rw [List.mem_singleton.mp (List.mem_filter.mp hline).1]
      exact hlen
  have hzero := zero_notMem_joinFields h0
  have hdecode : decodeInto [] body = joinFields fs := by
    have hd := h.encodes.decode (fun _ hc => hc) []
    rw [List.append_nil] at hd
    rw [decodeInto_nil, hd, urlDecode, List.append_nil, cstr_of_notMem hzero]
  have hcolon : 0x3a ∉ body := fun hc => absurd (h.bodyText _ hc) (by decide)
  have hdata : ∀ lines : List (List UInt8), (∀ line ∈ lines, 0x3a ∈ line) →
      dataOf (close lines body) = if body = [] then none else some (joinFields fs) := by
    intro lines hall
    induction lines with
    | nil =>
        by_cases hb : body = []
        · rw [if_pos hb, hb, close_nil]
          rfl
        · rw [if_neg hb, close_of_ne_nil [] hb, List.nil_append, dataOf_cons, if_neg hcolon, hdecode]
    | cons line lines ih =>
        obtain ⟨hline, hall⟩ := List.forall_mem_cons.mp hall
        have hcons : close (line :: lines) body = line :: close lines body := rfl
        rw [hcons, dataOf_cons, if_pos hline, ih hall]
  have hread : ∀ line ∈ linesRead (headerLines (head ++ body)), line.length < httpBufSize :=
    fun line hline => hshort line (List.mem_of_mem_take hline)
  rw [TrIrcd.packetFields_eq hread, hlines, hdata _ fun line hline => (hhead.2 line hline).1]
  by_cases hb : body = []
  · rw [if_pos hb, if_pos (h.body_eq_nil.mp hb)]
    rfl
  · have hfs : fs ≠ [] := fun hfs => hb (h.body_eq_nil.mpr hfs)
    have hjoin : joinFields fs ≠ [] := by
      intro hnil
      have := joinFields_length hfs
      rw [hnil] at this
      cases fs with
      | nil => exact hfs rfl
      | cons f fs =>
          have hpos := List.length_pos_iff.mpr (fieldText_ne_nil f)
          rw [List.map_cons, List.map_cons, List.sum_cons, List.length_nil] at this
          omega
    rw [if_neg hb, if_neg hfs, postedFields]
    exact if_neg hjoin

/-- Fields come back exactly if nothing in them is decoded or split once more. -/
theorem formFields_exact_iff (hzero : 0 ∉ joinFields fs) :
    (∀ form, formFields (decodeInto form (joinFields fs)) = .ok fs) ↔
      ∀ f ∈ fs, Survives f ∧ Splits f := by
  constructor
  · intro h
    obtain ⟨hsplits, hin, hlen⟩ := formFields_ok (h [])
    rw [decodeInto_nil] at hin hlen
    have hpercent : 0x25 ∉ joinFields fs := by
      intro hmem
      have hlt := urlDecode_length_lt _ hmem
      have hle := cstr_length_le (urlDecode (joinFields fs))
      omega
    refine fun f hf => ⟨fun c hc => ⟨fun heq => ?_, fun heq => ?_⟩, hsplits f hf⟩
    · exact hpercent (heq ▸ subset_joinFields hf hc)
    · have hmem := (List.takeWhile_prefix _).subset (hin f hf c hc)
      rw [urlDecode_of_unescaped hpercent, heq] at hmem
      obtain ⟨d, -, hd⟩ := List.mem_map.mp hmem
      rw [plainByte] at hd
      split at hd
      · exact absurd hd (by decide)
      · contradiction
  · intro h form
    have hplain : ∀ c ∈ joinFields fs, Unreserved c := by
      intro c hc
      rcases mem_joinFields hc with rfl | rfl | ⟨f, hf, hc⟩
      · exact ⟨by decide, by decide⟩
      · exact ⟨by decide, by decide⟩
      · exact (h f hf).1 c (List.mem_append.mpr hc)
    have hends : urlDecode (joinFields fs ++ [0]) = joinFields fs ++ [0] := by
      refine urlDecode_of_unreserved fun c hc => ?_
      rcases List.mem_append.mp hc with hc | hc
      · exact hplain c hc
      · rw [List.mem_singleton.mp hc]
        exact ⟨by decide, by decide⟩
    rw [decodeInto_of_mem (by rw [hends]; exact List.mem_append_right _ List.mem_cons_self),
      decodeInto_nil, urlDecode_of_unreserved hplain, cstr_of_notMem hzero]
    exact formFields_joinFields hzero fun f hf => (h f hf).2

end Encoded

/-- Encoded fields come out of a packet as they were typed, whatever is in memory,
exactly if no name or value has a `%`, a `+` or a `&`, and no name a `=`; and any
packet is read without a fault exactly if its lines fit and its body, decoded once, is
empty or can be decoded and split once more. -/
theorem packetFields_exact_iff (fs : List FormField) (body head buffer : List UInt8) :
    (FormEncodes body fs → HeaderBlock head →
      (∀ f ∈ fs, 0 ∉ f.1 ++ f.2) → body.length < httpBufSize →
        ((∀ env stack c, packetFields env stack (head ++ body) c = .ok fs) ↔
          ∀ f ∈ fs, Survives f ∧ Splits f)) ∧
      (FieldsRead buffer ↔ BodyReadable buffer) := by
  refine ⟨fun hfs hhead h0 hlen => ?_, fieldsRead_iff buffer⟩
  simp only [hfs.packetFields_eq hhead h0 hlen]
  by_cases hnil : fs = []
  · subst hnil
    exact iff_of_true (fun _ _ _ => rfl) (by simp)
  · simp only [if_neg hnil]
    rw [← formFields_exact_iff (zero_notMem_joinFields h0)]
    exact ⟨fun h form => h emptyServer { zeroStack with form := form } (makeHttpClient none),
      fun h _ stack _ => h stack.form⟩

/-- A packet with a header, and with the fields `a` and `b`: a space, and nothing. -/
theorem packetFields_exact_ab :
    packetFields emptyServer zeroStack (ascii ['H', ':', 'x', '\r', '\n'] ++
        ascii ['a', '=', '1', '+', '2', '&', 'b', '=']) (makeHttpClient none) =
      .ok [(ascii ['a'], ascii ['1', ' ', '2']), (ascii ['b'], [])] := by
  have hfs : FormEncodes (ascii ['a', '=', '1', '+', '2', '&', 'b', '='])
      [(ascii ['a'], ascii ['1', ' ', '2']), (ascii ['b'], [])] := by
    refine ⟨[(ascii ['a'], ascii ['1', '+', '2']), (ascii ['b'], [])], rfl,
      .cons ⟨?_, ?_⟩ (.cons ⟨?_, .nil⟩ .nil)⟩
    · exact .plain (by decide) .nil
    · exact .plain (by decide) (.plus (.plain (by decide) .nil))
    · exact .plain (by decide) .nil
  have hhead : HeaderBlock (ascii ['H', ':', 'x', '\r', '\n']) := by
    refine ⟨by decide, forall_mem_of_all (by decide)⟩
  refine ((packetFields_exact_iff _ _ (ascii ['H', ':', 'x', '\r', '\n']) []).1 hfs hhead
    (forall_mem_of_all (by decide)) (by decide)).mpr (fun f hf => ?_) _ _ _
  simp only [List.mem_cons, List.not_mem_nil, or_false] at hf
  rcases hf with rfl | rfl
  · exact ⟨forall_mem_of_all (by decide), by decide, by decide, by decide⟩
  · exact ⟨forall_mem_of_all (by decide), by decide, by decide, by decide⟩

/-- `a=1+2`, as a browser sends it. -/
def plusBody : List UInt8 := ascii ['a', '=', '1', '%', '2', 'B', '2']

/-- The plus comes out as a space; and a body without a `=` is written through a null
pointer. -/
theorem packetFields_plus :
    FormEncodes plusBody [(ascii ['a'], ascii ['1', '+', '2'])] ∧
      packetFields emptyServer zeroStack plusBody (makeHttpClient none) =
        .ok [(ascii ['a'], ascii ['1', ' ', '2'])] ∧
      packetFields emptyServer zeroStack (ascii ['a']) (makeHttpClient none) =
        .error .nullPointer := by
  refine ⟨⟨[(ascii ['a'], ascii ['1', '%', '2', 'B', '2'])], rfl, .cons ⟨?_, ?_⟩ .nil⟩, rfl, rfl⟩
  · exact .plain (by decide) .nil
  · exact .plain (by decide) (.escape (Or.inr (by decide)) (Or.inr (by decide))
      (.plain (by decide) .nil))

end TrIrcd
