import TrIrcd.Proofs.MaskLanguage

/-!
# Collapsed masks

`collapse` drops a star behind another one, and whatever it writes goes to a
place that it has read already (`collapseIn_eq`). A star behind a star takes
nothing that the first one could not take, so no word is lost or won
(`matches_collapse`); and where no star follows another there is nothing to drop
(`collapse_of_single`).
-/

namespace TrIrcd

open TrIrcd.Lib

/-! ## In the memory -/

/-- A byte is written where one has been read, and what is between the two
pointers moves on. -/
theorem put_gap (done gap q : List UInt8) (c : UInt8) :
    ∃ gap' : List UInt8, gap'.length = gap.length ∧
      (done ++ (gap ++ c :: q)).set done.length c = done ++ [c] ++ (gap' ++ q) := by
  obtain ⟨b, gap', hgap⟩ : ∃ b gap', gap ++ [c] = b :: gap' :=
    List.exists_cons_of_ne_nil (List.append_ne_nil_of_right_ne_nil gap (List.cons_ne_nil c []))
  refine ⟨gap', ?_, ?_⟩
  · have hlen := congrArg List.length hgap
    rw [List.length_append, List.length_singleton, List.length_cons] at hlen
    omega
  · rw [List.append_cons gap c q, hgap, List.cons_append, set_middle, List.append_assoc]
    rfl

theorem getElem?_gap (done gap q : List UInt8) (c : UInt8) :
    (done ++ (gap ++ c :: q))[done.length + gap.length]? = some c := by
  rw [List.getElem?_append_right (Nat.le_add_right _ _), Nat.add_sub_cancel_left,
    getElem?_middle]

theorem lt_length_gap (done gap q : List UInt8) (c : UInt8) :
    done.length < (done ++ (gap ++ c :: q)).length := by
  simp only [List.length_append, List.length_cons]
  omega

/-- What is written is what `collapse` says, and the NUL behind it. -/
theorem collapseIn_eq (q : List UInt8) {junk : List UInt8} :
    ∀ (star quote : Bool) (done gap : List UInt8) {n : Nat}, 0 ∉ q → q.length < n →
      ∃ junk', collapseIn n star quote (done.length + gap.length) done.length
          (done ++ (gap ++ (q ++ 0 :: junk))) =
        some (done ++ collapseFrom star quote q ++ 0 :: junk') := by
  induction q with
  | nil =>
      intro star quote done gap n _ hn
      obtain ⟨n, rfl⟩ : ∃ m, n = m + 1 := Nat.exists_eq_add_of_le' (Nat.one_le_of_lt hn)
      obtain ⟨gap', -, hset⟩ := put_gap done gap junk 0
      rw [List.nil_append, collapseIn, getElem?_gap]
      simp only [if_true, lt_length_gap, hset]
      exact ⟨gap' ++ junk, by rw [collapseFrom, List.append_nil, List.append_assoc]; rfl⟩
  | cons c q ih =>
      intro star quote done gap n h0 hn
      obtain ⟨n, rfl⟩ : ∃ m, n = m + 1 := Nat.exists_eq_add_of_le' (Nat.one_le_of_lt hn)
      have hc : c ≠ 0 := fun hc => h0 (hc ▸ List.mem_cons_self ..)
      have h0' : 0 ∉ q := fun h => h0 (List.mem_cons_of_mem c h)
      have hn' : q.length < n := Nat.lt_of_succ_lt_succ hn
      obtain ⟨gap', hlen, hset⟩ := put_gap done gap (q ++ 0 :: junk) c
      -- The byte is written, and both pointers move on.
      have hwrite (star' quote' : Bool) : ∃ junk', collapseIn n star' quote'
          (done.length + gap.length + 1) (done.length + 1)
          ((done ++ (gap ++ c :: (q ++ 0 :: junk))).set done.length c) =
            some (done ++ c :: collapseFrom star' quote' q ++ 0 :: junk') := by
        have hplace : done.length + gap.length + 1 = (done ++ [c]).length + gap'.length := by
          rw [List.length_append, List.length_singleton, hlen]
          omega
        have hnext : done.length + 1 = (done ++ [c]).length := by
          rw [List.length_append, List.length_singleton]
        obtain ⟨junk', h⟩ := ih star' quote' (done ++ [c]) gap' h0' hn'
        refine ⟨junk', ?_⟩
        rw [hset, hplace, hnext, h, ← List.append_cons]
      -- It is not, and one pointer does.
      have hskip : ∃ junk', collapseIn n true quote (done.length + gap.length + 1) done.length
          (done ++ (gap ++ c :: (q ++ 0 :: junk))) =
            some (done ++ collapseFrom true quote q ++ 0 :: junk') := by
        obtain ⟨junk', h⟩ := ih true quote done (gap ++ [c]) h0' hn'
        refine ⟨junk', ?_⟩
        rw [List.length_append, List.length_singleton, ← Nat.add_assoc, ← List.append_cons] at h
        exact h
      rw [List.cons_append, collapseIn, getElem?_gap, collapseFrom]
      simp only [hc, if_false, lt_length_gap, if_true, Option.bind_some]
      split
      · split
        · exact hwrite true quote
        · exact hskip
      · split
        · exact hwrite star true
        · exact hwrite false false

/-! ## The language -/

section Language

variable {α : Type} {r : UInt8 → α → Prop} {p : List (Tok UInt8)} {w : List α}

/-- A star behind a star. -/
theorem matches_star_star : Matches r (.star :: .star :: p) w ↔ Matches r (.star :: p) w := by
  constructor
  · rintro ⟨v, hv, h⟩
    exact matches_star_of_suffix hv h
  · exact matches_star_of

theorem matches_cons_congr {q : List (Tok UInt8)} (t : Tok UInt8)
    (h : ∀ w, Matches r p w ↔ Matches r q w) : Matches r (t :: p) w ↔ Matches r (t :: q) w :=
  matches_append_congr h [t] w

/-- Whether or not there is a star in front, no word is lost or won. -/
theorem matches_collapseFrom {mask : List UInt8} (h0 : 0 ∉ mask) (hslash : 0x5c ∉ mask) :
    (∀ w, Matches r ((collapseFrom false false mask).map plainTok) w ↔
      Matches r (mask.map plainTok) w) ∧
    ∀ w, Matches r (.star :: (collapseFrom true false mask).map plainTok) w ↔
      Matches r (.star :: mask.map plainTok) w := by
  induction mask with
  | nil => exact ⟨fun _ => Iff.rfl, fun _ => Iff.rfl⟩
  | cons c mask ih =>
      have hc0 : c ≠ 0 := fun h => h0 (h ▸ List.mem_cons_self ..)
      have hc : c ≠ 0x5c := fun h => hslash (h ▸ List.mem_cons_self ..)
      obtain ⟨hfree, hstar⟩ := ih (fun h => h0 (List.mem_cons_of_mem c h))
        fun h => hslash (List.mem_cons_of_mem c h)
      by_cases hcs : c = 0x2a
      · subst hcs
        constructor
        · intro w
          exact hstar w
        · intro w
          have hdrop : collapseFrom true false (0x2a :: mask) = collapseFrom true false mask := rfl
          rw [hdrop, hstar w]
          exact matches_star_star.symm
      · have hkeep (star : Bool) :
            collapseFrom star false (c :: mask) = c :: collapseFrom false false mask := by
          rw [collapseFrom, if_neg hc0, if_neg fun h => hcs h.2, if_neg fun h => hc h.2]
        have hrest : ∀ w, Matches r (plainTok c :: (collapseFrom false false mask).map plainTok) w ↔
            Matches r (plainTok c :: mask.map plainTok) w := fun w => matches_cons_congr _ hfree
        rw [hkeep, hkeep]
        exact ⟨hrest, fun w => matches_cons_congr _ hrest⟩

end Language

theorem mem_collapseFrom {d : UInt8} {mask : List UInt8} :
    ∀ {star quote : Bool}, d ∈ collapseFrom star quote mask → d ∈ mask := by
  induction mask with
  | nil => exact fun h => absurd h List.not_mem_nil
  | cons c mask ih =>
      intro star quote h
      have hcons {s q : Bool} (h : d ∈ c :: collapseFrom s q mask) : d ∈ c :: mask := by
        rcases List.mem_cons.mp h with rfl | h
        · exact List.mem_cons_self ..
        · exact List.mem_cons_of_mem c (ih h)
      rw [collapseFrom] at h
      split at h
      · exact absurd h List.not_mem_nil
      · split at h
        · split at h
          · exact hcons h
          · exact List.mem_cons_of_mem c (ih h)
        · split at h
          · exact hcons h
          · exact hcons h

theorem length_collapseFrom (mask : List UInt8) :
    ∀ star quote : Bool, (collapseFrom star quote mask).length ≤ mask.length := by
  induction mask with
  | nil => exact fun _ _ => Nat.le_refl 0
  | cons c mask ih =>
      intro star quote
      rw [collapseFrom]
      split
      · exact Nat.zero_le _
      · split
        · split
          · exact Nat.succ_le_succ (ih _ _)
          · exact Nat.le_succ_of_le (ih _ _)
        · split
          · exact Nat.succ_le_succ (ih _ _)
          · exact Nat.succ_le_succ (ih _ _)

/-! ## Stars next to each other -/

/-- No star follows another. -/
def Single (mask : List UInt8) : Prop := ¬ [0x2a, 0x2a] <:+: mask

theorem single_cons {c : UInt8} {mask : List UInt8} :
    Single (c :: mask) ↔ ¬ (c = 0x2a ∧ mask.head? = some 0x2a) ∧ Single mask := by
  have hprefix : [0x2a] <+: mask ↔ mask.head? = some 0x2a := by
    cases mask with
    | nil => simp
    | cons d mask => simp [List.cons_prefix_cons, eq_comm]
  rw [Single, List.infix_cons_iff, List.cons_prefix_cons, hprefix, not_or, Single, eq_comm]

/-- There is none in what is written, and none at its beginning if one is in
front. -/
theorem collapseFrom_single {mask : List UInt8} (h0 : 0 ∉ mask) (hslash : 0x5c ∉ mask) :
    ∀ star : Bool, (star = true → (collapseFrom star false mask).head? ≠ some 0x2a) ∧
      Single (collapseFrom star false mask) := by
  induction mask with
  | nil =>
      intro star
      refine ⟨fun _ h => ?_, fun h => ?_⟩
      · cases h
      · exact absurd (List.eq_nil_of_infix_nil h) (List.cons_ne_nil _ _)
  | cons c mask ih =>
      intro star
      have hc0 : c ≠ 0 := fun h => h0 (h ▸ List.mem_cons_self ..)
      have hc : c ≠ 0x5c := fun h => hslash (h ▸ List.mem_cons_self ..)
      have hrest := ih (fun h => h0 (List.mem_cons_of_mem c h))
        fun h => hslash (List.mem_cons_of_mem c h)
      by_cases hcs : c = 0x2a
      · subst hcs
        cases star with
        | true => exact hrest true
        | false =>
            obtain ⟨hhead, hsingle⟩ := hrest true
            refine ⟨fun h => ?_, single_cons.mpr ⟨fun h => hhead rfl h.2, hsingle⟩⟩
            cases h
      · rw [collapseFrom, if_neg hc0, if_neg fun h => hcs h.2, if_neg fun h => hc h.2]
        exact ⟨fun _ h => hcs (Option.some.inj h), single_cons.mpr ⟨fun h => hcs h.1, (hrest false).2⟩⟩

theorem collapse_of_single {mask : List UInt8} (h0 : 0 ∉ mask) (hslash : 0x5c ∉ mask) :
    ∀ star : Bool, Single mask → (star = true → mask.head? ≠ some 0x2a) →
      collapseFrom star false mask = mask := by
  induction mask with
  | nil => exact fun _ _ _ => rfl
  | cons c mask ih =>
      intro star hsingle hhead
      have hc0 : c ≠ 0 := fun h => h0 (h ▸ List.mem_cons_self ..)
      have hc : c ≠ 0x5c := fun h => hslash (h ▸ List.mem_cons_self ..)
      have hrest := ih (fun h => h0 (List.mem_cons_of_mem c h))
        fun h => hslash (List.mem_cons_of_mem c h)
      obtain ⟨hnext, hsingle'⟩ := single_cons.mp hsingle
      by_cases hcs : c = 0x2a
      · subst hcs
        cases star with
        | true => exact absurd rfl (hhead rfl)
        | false =>
            have hkeep : collapseFrom true false mask = mask :=
              hrest true hsingle' fun _ h => hnext ⟨rfl, h⟩
            exact congrArg (0x2a :: ·) hkeep
      · rw [collapseFrom, if_neg hc0, if_neg fun h => hcs h.2, if_neg fun h => hc h.2,
          hrest false hsingle' fun h => nomatch h]

/-! ## The whole mask -/

/-- `collapse` in a memory that begins with the mask. -/
def collapseBuf (mem : List UInt8) : Option (List UInt8) :=
  collapseIn mem.length false false 0 0 mem

theorem collapseBuf_eq {mask : List UInt8} (h0 : 0 ∉ mask) (junk : List UInt8) :
    ∃ junk', collapseBuf (mask ++ 0 :: junk) = some (collapse mask ++ 0 :: junk') := by
  have hlen : mask.length < (mask ++ 0 :: junk).length := by
    rw [List.length_append, List.length_cons]
    omega
  exact collapseIn_eq mask false false [] [] h0 hlen

/-- What is left in the memory of a mask without backslashes: the same words, no
star behind another, no more bytes than before, and nothing to collapse. -/
theorem collapse_spec {mask : List UInt8} (h0 : 0 ∉ mask) (hslash : 0x5c ∉ mask) :
    ∃ mem mem', collapseBuf (mask ++ [0]) = some mem ∧ collapseBuf mem = some mem' ∧
      (∀ name, InMask (cstr mem) name ↔ InMask mask name) ∧ Single (cstr mem) ∧
      (cstr mem).length ≤ mask.length ∧ cstr mem' = cstr mem := by
  have h0' : 0 ∉ collapse mask := fun h => h0 (mem_collapseFrom h)
  have hslash' : 0x5c ∉ collapse mask := fun h => hslash (mem_collapseFrom h)
  have hsingle : Single (collapse mask) := (collapseFrom_single h0 hslash false).2
  have hagain : collapse (collapse mask) = collapse mask :=
    collapse_of_single h0' hslash' false hsingle fun h => nomatch h
  obtain ⟨junk, hmem⟩ := collapseBuf_eq h0 []
  obtain ⟨junk', hmem'⟩ := collapseBuf_eq h0' junk
  have htext (junk : List UInt8) : cstr (collapse mask ++ 0 :: junk) = collapse mask :=
    cstr_terminated h0' junk
  refine ⟨_, _, hmem, hmem', ?_, ?_, ?_, ?_⟩
  · intro name
    rw [htext, InMask, InMask, maskToks_of_notMem hslash', maskToks_of_notMem hslash]
    exact (matches_collapseFrom h0 hslash).1 name
  · rw [htext]
    exact hsingle
  · rw [htext]
    exact length_collapseFrom mask false false
  · rw [hagain, htext, htext]

/-- `a**?*` -/
theorem collapse_spec_stars : ∃ mem mem',
    collapseBuf ([0x61, 0x2a, 0x2a, 0x3f, 0x2a] ++ [0]) = some mem ∧ collapseBuf mem = some mem' ∧
      (∀ name, InMask (cstr mem) name ↔ InMask [0x61, 0x2a, 0x2a, 0x3f, 0x2a] name) ∧
      Single (cstr mem) ∧ (cstr mem).length ≤ 5 ∧ cstr mem' = cstr mem :=
  collapse_spec (by decide) (by decide)

end TrIrcd
