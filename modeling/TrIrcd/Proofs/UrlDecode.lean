import TrIrcd.Proofs.FormatBounds
import TrIrcd.Src.HttpLoops

/-!
# What `url_decode` leaves in its buffer

The terminator is decoded like any other character. An escape that is not
finished swallows it, and so what stands behind the decoded text ends the
string (`urlDecode_terminated`): in the buffer of `parse_client_header` that
is a NUL, in the one of `http_post` whatever was there before. This happens
exactly with a string that ends in `%` or in `%` and one digit, unless an
escape in it decodes to NUL (`urlDecodeInto_exact_iff`).

Everything is by induction over a string as the loop takes it apart
(`escape_induction`): a plain character, an escape of two digits, one that
breaks off at its first or second character, or one that the end cuts short.
-/

namespace TrIrcd

open TrIrcd.Lib

/-- A string as the loop takes it apart. -/
theorem escape_induction {motive : List UInt8 → Prop} (nil : motive [])
    (plain : ∀ c s, c ≠ 0x25 → motive s → motive (c :: s))
    (percent : motive [0x25])
    (bad : ∀ x s, isXDigit x = false → motive s → motive (0x25 :: x :: s))
    (half : ∀ x, isXDigit x = true → motive [0x25, x])
    (pair : ∀ x y s, isXDigit x = true → motive s → motive (0x25 :: x :: y :: s))
    (s : List UInt8) : motive s := by
  induction hn : s.length using Nat.strongRecOn generalizing s with
  | ind n ih =>
      cases s with
      | nil => exact nil
      | cons c s =>
          by_cases hc : c = 0x25
          · subst hc
            cases s with
            | nil => exact percent
            | cons x s =>
                cases hx : isXDigit x with
                | false => exact bad x s hx (ih s.length (by simp at hn; omega) s rfl)
                | true =>
                    cases s with
                    | nil => exact half x hx
                    | cons y s => exact pair x y s hx (ih s.length (by simp at hn; omega) s rfl)
          · exact plain c s hc (ih s.length (by simp at hn; omega) s rfl)

theorem isXDigit_zero : isXDigit 0 = false := by decide

/-- The byte for a plain character. -/
def plainByte (c : UInt8) : UInt8 := if c = 0x2b then 0x20 else c

/-- What an escape of a digit and another character puts out. -/
def pairBytes (x y : UInt8) : List UInt8 :=
  if isXDigit y then [UInt8.ofNat (hexToInt x * 16 + hexToInt y)] else []

section Equations

variable {c x y : UInt8} {s : List UInt8} {len ol : Nat}

/-- What `urlDecode` takes next: a plain character, or an escape. -/
theorem urlDecode_next (c x y : UInt8) (s : List UInt8) :
    (c ≠ 0x25 → urlDecode (c :: s) = plainByte c :: urlDecode s) ∧
      (isXDigit x = false → urlDecode (0x25 :: x :: s) = urlDecode s) ∧
      (isXDigit x = true → urlDecode [0x25, x] = []) ∧
      (isXDigit x = true → urlDecode (0x25 :: x :: y :: s) = pairBytes x y ++ urlDecode s) := by
  refine ⟨fun hc => ?_, fun hx => ?_, fun hx => ?_, fun hx => ?_⟩
  · rw [urlDecode.eq_def, plainByte]
    dsimp only
    split <;> rfl
  · rw [urlDecode.eq_def]
    dsimp only
    rw [if_neg (by decide), if_pos rfl, if_neg (by rw [hx]; exact Bool.false_ne_true)]
  · rw [urlDecode.eq_def]
    dsimp only
    rw [if_neg (by decide), if_pos rfl, if_pos hx]
  · rw [urlDecode.eq_def, pairBytes]
    dsimp only
    rw [if_neg (by decide), if_pos rfl, if_pos hx]
    split <;> rfl

theorem urlDecode_plain (hc : c ≠ 0x25) : urlDecode (c :: s) = plainByte c :: urlDecode s :=
  (urlDecode_next c 0 0 s).1 hc

theorem urlDecode_bad (hx : isXDigit x = false) : urlDecode (0x25 :: x :: s) = urlDecode s :=
  (urlDecode_next 0 x 0 s).2.1 hx

theorem urlDecode_half (hx : isXDigit x = true) : urlDecode [0x25, x] = [] :=
  (urlDecode_next 0 x 0 []).2.2.1 hx

theorem urlDecode_pair (hx : isXDigit x = true) :
    urlDecode (0x25 :: x :: y :: s) = pairBytes x y ++ urlDecode s :=
  (urlDecode_next 0 x y s).2.2.2 hx

/-- The same for what it reads and writes. -/
theorem urlDecodeAccesses_next (c x y : UInt8) (s : List UInt8) (len ol : Nat) :
    (c ≠ 0x25 → urlDecodeAccesses (c :: s) len ol =
      .read .line len :: .write .obuf ol (plainByte c) ::
        urlDecodeAccesses s (len + 1) (ol + 1)) ∧
      (isXDigit x = false → urlDecodeAccesses (0x25 :: x :: s) len ol =
        .read .line len :: .read .line (len + 1) :: urlDecodeAccesses s (len + 2) ol) ∧
      (isXDigit x = true → urlDecodeAccesses (0x25 :: x :: y :: s) len ol =
        .read .line len :: .read .line (len + 1) :: .read .line (len + 2) ::
          ((pairBytes x y).map (.write .obuf ol) ++
            urlDecodeAccesses s (len + 3) (ol + (pairBytes x y).length))) := by
  refine ⟨fun hc => ?_, fun hx => ?_, fun hx => ?_⟩
  · rw [urlDecodeAccesses.eq_def, plainByte]
    dsimp only
    split <;> rfl
  · rw [urlDecodeAccesses.eq_def]
    dsimp only
    rw [if_neg (by decide), if_pos rfl, if_neg (by rw [hx]; exact Bool.false_ne_true)]
  · rw [urlDecodeAccesses.eq_def, pairBytes]
    dsimp only
    rw [if_neg (by decide), if_pos rfl, if_pos hx]
    split <;> rfl

theorem urlDecodeAccesses_plain (hc : c ≠ 0x25) : urlDecodeAccesses (c :: s) len ol =
    .read .line len :: .write .obuf ol (plainByte c) ::
      urlDecodeAccesses s (len + 1) (ol + 1) :=
  (urlDecodeAccesses_next c 0 0 s len ol).1 hc

theorem urlDecodeAccesses_bad (hx : isXDigit x = false) :
    urlDecodeAccesses (0x25 :: x :: s) len ol =
      .read .line len :: .read .line (len + 1) :: urlDecodeAccesses s (len + 2) ol :=
  (urlDecodeAccesses_next 0 x 0 s len ol).2.1 hx

theorem urlDecodeAccesses_pair (hx : isXDigit x = true) :
    urlDecodeAccesses (0x25 :: x :: y :: s) len ol =
      .read .line len :: .read .line (len + 1) :: .read .line (len + 2) ::
        ((pairBytes x y).map (.write .obuf ol) ++
          urlDecodeAccesses s (len + 3) (ol + (pairBytes x y).length)) :=
  (urlDecodeAccesses_next 0 x y s len ol).2.2 hx

end Equations

theorem pairBytes_length_le (x y : UInt8) : (pairBytes x y).length ≤ 1 := by
  rw [pairBytes]
  split <;> simp

theorem urlDecode_length_le (s : List UInt8) : (urlDecode s).length ≤ s.length := by
  induction s using escape_induction with
  | nil => exact Nat.le_refl _
  | plain c s hc ih =>
      rw [urlDecode_plain hc]
      exact Nat.succ_le_succ ih
  | percent => decide
  | bad x s hx ih =>
      rw [urlDecode_bad hx]
      exact Nat.le_add_right_of_le (Nat.le_add_right_of_le ih)
  | half x hx =>
      rw [urlDecode_half hx]
      exact Nat.zero_le _
  | pair x y s hx ih =>
      have := pairBytes_length_le x y
      rw [urlDecode_pair hx]
      simp only [List.length_append, List.length_cons]
      omega

/-! ## Index by index -/

/-- The bytes are written one behind the other. -/
theorem urlDecodeAccesses_written (s : List UInt8) :
    ∀ len ol, (urlDecodeAccesses s len ol).filterMap HttpAccess.written =
      writeFrom ol (urlDecode s) := by
  induction s using escape_induction with
  | nil => exact fun _ _ => rfl
  | plain c s hc ih =>
      intro len ol
      rw [urlDecodeAccesses_plain hc, urlDecode_plain hc]
      exact congrArg _ (ih (len + 1) (ol + 1))
  | percent => exact fun _ _ => rfl
  | bad x s hx ih =>
      intro len ol
      rw [urlDecodeAccesses_bad hx, urlDecode_bad hx]
      exact ih (len + 2) ol
  | half x hx =>
      intro len ol
      rw [urlDecode_half hx, urlDecodeAccesses, if_neg (by decide), if_pos rfl, if_pos hx]
      rfl
  | pair x y s hx ih =>
      intro len ol
      have hpair : ((pairBytes x y).map (HttpAccess.write .obuf ol)).filterMap
          HttpAccess.written = writeFrom ol (pairBytes x y) := by
        rw [pairBytes]
        split <;> rfl
      rw [urlDecodeAccesses_pair hx, urlDecode_pair hx, writeFrom_append,
        ← ih (len + 3) (ol + (pairBytes x y).length), ← hpair, ← List.filterMap_append]
      rfl

/-- Nothing is read behind the terminator, and nothing written further than that. -/
theorem urlDecodeAccesses_inside {length : Nat} (s : List UInt8) :
    ∀ len ol, 0 ∉ s → len + s.length < httpBufSize → ol + s.length < httpBufSize →
      ∀ a ∈ urlDecodeAccesses (s ++ [0]) len ol, a.Inside length := by
  induction s using escape_induction with
  | nil =>
      intro len ol _ hlen hol a ha
      rcases List.mem_cons.mp ha with rfl | ha
      · exact hlen
      · rw [List.mem_singleton.mp ha]
        exact hol
  | plain c s hc ih =>
      intro len ol h0 hlen hol a ha
      rw [List.length_cons] at hlen hol
      rw [List.cons_append, urlDecodeAccesses_plain hc] at ha
      rcases List.mem_cons.mp ha with rfl | ha
      · exact Nat.lt_of_le_of_lt (Nat.le_add_right ..) hlen
      · rcases List.mem_cons.mp ha with rfl | ha
        · exact Nat.lt_of_le_of_lt (Nat.le_add_right ..) hol
        · exact ih (len + 1) (ol + 1) (fun h => h0 (List.mem_cons_of_mem _ h)) (by omega)
            (by omega) a ha
  | percent =>
      intro len ol _ hlen _ a ha
      rw [List.length_singleton] at hlen
      rw [List.singleton_append, urlDecodeAccesses_bad isXDigit_zero] at ha
      rcases List.mem_cons.mp ha with rfl | ha
      · exact Nat.lt_of_le_of_lt (Nat.le_add_right ..) hlen
      · rw [List.mem_singleton.mp ha]
        exact hlen
  | bad x s hx ih =>
      intro len ol h0 hlen hol a ha
      simp only [List.length_cons] at hlen hol
      rw [List.cons_append, List.cons_append, urlDecodeAccesses_bad hx] at ha
      have h0' : 0 ∉ s := fun h => h0 (List.mem_cons_of_mem _ (List.mem_cons_of_mem _ h))
      rcases List.mem_cons.mp ha with rfl | ha
      · show len < httpBufSize
        omega
      · rcases List.mem_cons.mp ha with rfl | ha
        · show len + 1 < httpBufSize
          omega
        · exact ih (len + 2) ol h0' (by omega) (by omega) a ha
  | half x hx =>
      intro len ol _ hlen _ a ha
      simp only [List.length_cons, List.length_nil] at hlen
      have hpair : pairBytes x 0 = [] := by rw [pairBytes, if_neg (by decide)]
      rw [List.cons_append, List.singleton_append, urlDecodeAccesses_pair hx, hpair] at ha
      simp only [List.map_nil, List.nil_append, urlDecodeAccesses, List.mem_cons,
        List.not_mem_nil, or_false] at ha
      have hread : ∀ i, i ≤ len + 2 → (HttpAccess.read .line i).Inside length := by
        intro i hi
        show i < httpBufSize
        omega
      rcases ha with rfl | rfl | rfl
      · exact hread _ (by omega)
      · exact hread _ (by omega)
      · exact hread _ (by omega)
  | pair x y s hx ih =>
      intro len ol h0 hlen hol a ha
      simp only [List.length_cons] at hlen hol
      have hle := pairBytes_length_le x y
      have h0' : 0 ∉ s := fun h => h0
        (List.mem_cons_of_mem _ (List.mem_cons_of_mem _ (List.mem_cons_of_mem _ h)))
      have hread : ∀ i, i ≤ len + 2 → (HttpAccess.read .line i).Inside length := by
        intro i hi
        show i < httpBufSize
        omega
      rw [List.cons_append, List.cons_append, List.cons_append, urlDecodeAccesses_pair hx] at ha
      simp only [List.mem_cons, List.mem_append, List.mem_map] at ha
      rcases ha with rfl | rfl | rfl | ⟨c, -, rfl⟩ | ha
      · exact hread _ (by omega)
      · exact hread _ (by omega)
      · exact hread _ (by omega)
      · show ol < httpBufSize
        omega
      · exact ih (len + 3) _ h0' (by omega) (by omega) a ha

/-! ## The string that is left -/

/-- The string breaks off in an escape. -/
def endsInEscape : List UInt8 → Bool
  | [] => false
  | c :: s =>
      if c = 0x25 then
        match s with
        | [] => true
        | x :: s =>
            if isXDigit x then
              match s with
              | [] => true
              | _ :: s => endsInEscape s
            else endsInEscape s
      else endsInEscape s

/-- One of its escapes is `%00`. -/
def hasNulEscape : List UInt8 → Bool
  | [] => false
  | c :: s =>
      if c = 0x25 then
        match s with
        | [] => false
        | x :: s =>
            if isXDigit x then
              match s with
              | [] => false
              | y :: s => (x = 0x30 && y = 0x30) || hasNulEscape s
            else hasNulEscape s
      else hasNulEscape s

/-- The terminator is swallowed exactly by an escape that is not finished. -/
theorem urlDecode_terminated (s : List UInt8) :
    urlDecode (s ++ [0]) = urlDecode s ++ if endsInEscape s then [] else [0] := by
  induction s using escape_induction with
  | nil => rfl
  | plain c s hc ih =>
      have hends : endsInEscape (c :: s) = endsInEscape s := by
        rw [endsInEscape.eq_def]
        exact if_neg hc
      rw [List.cons_append, urlDecode_plain hc, urlDecode_plain hc, ih, hends, List.cons_append]
  | percent => decide
  | bad x s hx ih =>
      have hends : endsInEscape (0x25 :: x :: s) = endsInEscape s := by
        rw [endsInEscape.eq_def]
        dsimp only
        rw [if_pos rfl, if_neg (by rw [hx]; exact Bool.false_ne_true)]
      rw [List.cons_append, List.cons_append, urlDecode_bad hx, urlDecode_bad hx, ih, hends]
  | half x hx =>
      have hends : endsInEscape [0x25, x] = true := by
        rw [endsInEscape, if_pos rfl, if_pos hx]
      have hpair : pairBytes x 0 = [] := by rw [pairBytes, if_neg (by decide)]
      rw [List.cons_append, List.singleton_append, urlDecode_pair hx, hpair, hends,
        urlDecode_half hx]
      rfl
  | pair x y s hx ih =>
      have hends : endsInEscape (0x25 :: x :: y :: s) = endsInEscape s := by
        rw [endsInEscape.eq_def]
        dsimp only
        rw [if_pos rfl, if_pos hx]
      rw [List.cons_append, List.cons_append, List.cons_append, urlDecode_pair hx,
        urlDecode_pair hx, ih, hends, List.append_assoc]

theorem hexToInt_digit {x : UInt8} (hx : isXDigit x = true) :
    hexToInt x < 16 ∧ (hexToInt x = 0 ↔ x = 0x30) := by
  have heq : x = 0x30 ↔ x.toNat = 0x30 := UInt8.toNat_inj.symm
  grind [isXDigit, isDigit, hexToInt, UInt8.le_iff_toNat_le, UInt8.toNat_add]

theorem zero_mem_pairBytes {x y : UInt8} (hx : isXDigit x = true) :
    0 ∈ pairBytes x y ↔ x = 0x30 ∧ y = 0x30 := by
  have hzero : isXDigit 0x30 = true := by decide
  rw [pairBytes]
  split
  next hy =>
    obtain ⟨hxlt, hx0⟩ := hexToInt_digit hx
    obtain ⟨hylt, hy0⟩ := hexToInt_digit hy
    rw [List.mem_singleton, ← hx0, ← hy0, ← UInt8.toNat_inj, UInt8.toNat_ofNat']
    show 0 = _ % 256 ↔ _
    omega
  next hy =>
    refine iff_of_false List.not_mem_nil ?_
    rintro ⟨-, rfl⟩
    exact hy hzero

theorem zero_mem_urlDecode (s : List UInt8) :
    0 ∉ s → (0 ∈ urlDecode s ↔ hasNulEscape s = true) := by
  induction s using escape_induction with
  | nil => exact fun _ => iff_of_false List.not_mem_nil Bool.false_ne_true
  | plain c s hc ih =>
      intro h0
      have hnul : hasNulEscape (c :: s) = hasNulEscape s := by
        rw [hasNulEscape.eq_def]
        exact if_neg hc
      have hbyte : 0 ≠ plainByte c := by
        rw [plainByte]
        split
        · decide
        · exact fun h => h0 (h ▸ List.mem_cons_self)
      rw [urlDecode_plain hc, List.mem_cons, or_iff_right hbyte, hnul]
      exact ih fun h => h0 (List.mem_cons_of_mem _ h)
  | percent => exact fun _ => iff_of_false List.not_mem_nil Bool.false_ne_true
  | bad x s hx ih =>
      intro h0
      have hnul : hasNulEscape (0x25 :: x :: s) = hasNulEscape s := by
        rw [hasNulEscape.eq_def]
        dsimp only
        rw [if_pos rfl, if_neg (by rw [hx]; exact Bool.false_ne_true)]
      rw [urlDecode_bad hx, hnul]
      exact ih fun h => h0 (List.mem_cons_of_mem _ (List.mem_cons_of_mem _ h))
  | half x hx =>
      intro _
      rw [urlDecode_half hx, hasNulEscape, if_pos rfl, if_pos hx]
      exact iff_of_false List.not_mem_nil Bool.false_ne_true
  | pair x y s hx ih =>
      intro h0
      have hnul : hasNulEscape (0x25 :: x :: y :: s) =
          ((x = 0x30 && y = 0x30) || hasNulEscape s) := by
        rw [hasNulEscape.eq_def]
        dsimp only
        rw [if_pos rfl, if_pos hx]
      rw [urlDecode_pair hx, List.mem_append, zero_mem_pairBytes hx, hnul,
        ih fun h => h0 (List.mem_cons_of_mem _ (List.mem_cons_of_mem _ (List.mem_cons_of_mem _ h)))]
      simp

theorem foldl_set_writeFrom (w : List UInt8) :
    ∀ (b : List UInt8) (i : Nat), i + w.length ≤ b.length →
      (writeFrom i w).foldl (fun b p => b.set p.1 p.2) b = blit b i w := by
  induction w with
  | nil =>
      intro b i _
      simp [writeFrom, blit]
  | cons c w ih =>
      intro b i hlen
      rw [List.length_cons] at hlen
      have hcons : writeFrom i (c :: w) = (i, c) :: writeFrom (i + 1) w := rfl
      rw [hcons, List.foldl_cons, ih _ _ (by rw [List.length_set]; omega), blit, blit,
        List.length_cons, List.take_set, List.take_succ_eq_append_getElem (by omega),
        List.drop_set_of_lt (by omega)]
      have hset : (b.take i ++ [b[i]]).set i c = b.take i ++ [c] := by
        have hi : (b.take i).length = i := by rw [List.length_take]; omega
        rw [List.set_append_right i c (by omega), hi, Nat.sub_self]
        rfl
      rw [hset, List.append_assoc, List.append_assoc, List.append_assoc, Nat.add_assoc,
        Nat.add_comm 1]
      rfl

/-- What the writes come to. -/
theorem urlDecodeInto_eq {out s : List UInt8} (hout : s.length < out.length) :
    urlDecodeInto out s =
      urlDecode (s ++ [0]) ++ out.drop (urlDecode (s ++ [0])).length := by
  have hlen := urlDecode_length_le (s ++ [0])
  rw [List.length_append, List.length_singleton] at hlen
  rw [urlDecodeInto, urlDecodeAccesses_written, foldl_set_writeFrom _ _ _ (by omega), blit,
    List.take_zero, List.nil_append, Nat.zero_add]

/-- A string of at most the length of `s`, whatever was in the buffer. -/
def DecodesExactly (s : List UInt8) : Prop :=
  ∃ r, 0 ∉ r ∧ r.length ≤ s.length ∧
    ∀ out, s.length < out.length → r ++ [0] <+: urlDecodeInto out s

theorem cstr_prefix_of_mem {s : List UInt8} (h : 0 ∈ s) : cstr s ++ [0] <+: s := by
  induction s with
  | nil => cases h
  | cons b s ih =>
      by_cases hb : b = 0
      · subst hb
        exact ⟨s, rfl⟩
      · rw [cstr_cons_of_ne hb, List.cons_append, List.cons_prefix_cons]
        exact ⟨rfl, ih ((List.mem_cons.mp h).resolve_left (Ne.symm hb))⟩

theorem decodesExactly_iff {s : List UInt8} (h0 : 0 ∉ s) :
    DecodesExactly s ↔ endsInEscape s = false ∨ hasNulEscape s = true := by
  rw [← zero_mem_urlDecode s h0]
  have hlen := urlDecode_length_le s
  constructor
  · rintro ⟨r, -, -, hout⟩
    cases hends : endsInEscape s with
    | false => exact Or.inl rfl
    | true =>
        -- In memory without a NUL there is none but the decoded ones.
        have hones := hout (List.replicate (s.length + 1) 1)
          (by rw [List.length_replicate]; exact Nat.lt_succ_self _)
        rw [urlDecodeInto_eq (by rw [List.length_replicate]; exact Nat.lt_succ_self _),
          urlDecode_terminated, hends, if_pos rfl, List.append_nil] at hones
        have hmem := hones.subset (List.mem_append_right r List.mem_cons_self)
        rcases List.mem_append.mp hmem with hmem | hmem
        · exact Or.inr hmem
        · exact absurd (List.eq_of_mem_replicate (List.mem_of_mem_drop hmem)) (by decide)
  · intro h
    have hmem : 0 ∈ urlDecode (s ++ [0]) := by
      rw [urlDecode_terminated]
      rcases h with h | h
      · rw [h]
        exact List.mem_append_right _ List.mem_cons_self
      · exact List.mem_append_left _ h
    refine ⟨cstr (urlDecode (s ++ [0])), zero_notMem_cstr _, ?_, fun out hout => ?_⟩
    · have hpre := (cstr_prefix_of_mem hmem).length_le
      have hall := urlDecode_length_le (s ++ [0])
      simp only [List.length_append, List.length_singleton] at hpre hall
      omega
    · rw [urlDecodeInto_eq hout]
      exact (cstr_prefix_of_mem hmem).trans (List.prefix_append _ _)

/-! ## The round trip -/

/-- A digit of a hexadecimal number, in lower or upper case, and its value. -/
def HexDigit (x : UInt8) (n : Nat) : Prop :=
  (ascii ['0', '1', '2', '3', '4', '5', '6', '7', '8', '9', 'a', 'b', 'c', 'd', 'e', 'f'])[n]? =
      some x ∨
    (ascii ['0', '1', '2', '3', '4', '5', '6', '7', '8', '9', 'A', 'B', 'C', 'D', 'E', 'F'])[n]? =
      some x

/-- The first string encodes the second: a character that may stand for itself
does, or any is escaped, or a space is a plus. -/
inductive UrlEncodes (plain : UInt8 → Prop) : List UInt8 → List UInt8 → Prop
  | nil : UrlEncodes plain [] []
  | plain {c : UInt8} {s t : List UInt8} (hc : plain c) (h : UrlEncodes plain s t) :
      UrlEncodes plain (c :: s) (c :: t)
  | plus {s t : List UInt8} (h : UrlEncodes plain s t) :
      UrlEncodes plain (0x2b :: s) (0x20 :: t)
  | escape {c x y : UInt8} {s t : List UInt8} (hx : HexDigit x (c.toNat / 16))
      (hy : HexDigit y (c.toNat % 16)) (h : UrlEncodes plain s t) :
      UrlEncodes plain (0x25 :: x :: y :: s) (c :: t)

/-- What is not the sign of an escape or of a space. -/
def Unreserved (c : UInt8) : Prop := c ≠ 0x25 ∧ c ≠ 0x2b

instance : DecidablePred Unreserved := fun c =>
  inferInstanceAs (Decidable (c ≠ 0x25 ∧ c ≠ 0x2b))

theorem HexDigit.value {x : UInt8} {n : Nat} (h : HexDigit x n) :
    isXDigit x = true ∧ hexToInt x = n := by
  have hall : ∀ {digits : List UInt8}, (digits.zipIdx.all fun p =>
      decide (isXDigit p.1 = true ∧ hexToInt p.1 = p.2)) = true → digits[n]? = some x →
        isXDigit x = true ∧ hexToInt x = n := by
    intro digits hdigits hget
    exact forall_mem_of_all hdigits (x, n) (List.mk_mem_zipIdx_iff_getElem?.mpr hget)
  rcases h with h | h
  · exact hall (by decide) h
  · exact hall (by decide) h

theorem pairBytes_digits {c x y : UInt8} (hx : HexDigit x (c.toNat / 16))
    (hy : HexDigit y (c.toNat % 16)) : pairBytes x y = [c] := by
  obtain ⟨-, hx⟩ := hx.value
  obtain ⟨hdigit, hy⟩ := hy.value
  rw [pairBytes, if_pos hdigit, hx, hy, Nat.div_add_mod', UInt8.ofNat_toNat]

/-- The round trip, over any rest. -/
theorem UrlEncodes.decode {plain : UInt8 → Prop} {s t : List UInt8} (h : UrlEncodes plain s t)
    (hplain : ∀ c, plain c → Unreserved c) (rest : List UInt8) :
    urlDecode (s ++ rest) = t ++ urlDecode rest := by
  induction h with
  | nil => rfl
  | plain hc _ ih =>
      obtain ⟨hpercent, hplus⟩ := hplain _ hc
      rw [List.cons_append, urlDecode_plain hpercent, plainByte, if_neg hplus, ih,
        List.cons_append]
  | plus _ ih =>
      rw [List.cons_append, urlDecode_plain (by decide), plainByte, if_pos rfl, ih,
        List.cons_append]
  | escape hx hy _ ih =>
      rw [List.cons_append, List.cons_append, List.cons_append, urlDecode_pair hx.value.1,
        pairBytes_digits hx hy, ih, List.singleton_append, List.cons_append]

/-- `url_decode` leaves a string that does not depend on what was in the buffer
exactly if the string does not break off in an escape, or has a `%00` in it; and of
an encoding it leaves the text, always. -/
theorem urlDecodeInto_exact_iff (s : List UInt8) :
    (0 ∉ s → (DecodesExactly s ↔ endsInEscape s = false ∨ hasNulEscape s = true)) ∧
    ∀ t, UrlEncodes Unreserved s t → 0 ∉ t → ∀ out, s.length < out.length →
      t ++ [0] <+: urlDecodeInto out s := by
  refine ⟨fun h0 => decodesExactly_iff h0, fun t h _ out hout => ?_⟩
  rw [urlDecodeInto_eq hout, h.decode (fun _ hc => hc)]
  exact ⟨out.drop (t ++ urlDecode [0]).length, rfl⟩

/-- Of `a%` nothing ends what is left but the memory that was there. -/
theorem urlDecodeInto_unfinished :
    urlDecodeInto [0x78, 0x79, 0x7a, 0] [0x61, 0x25] = [0x61, 0x79, 0x7a, 0] ∧
      urlDecodeInto [0, 0, 0, 0] [0x61, 0x25] = [0x61, 0, 0, 0] ∧
      ¬DecodesExactly [0x61, 0x25] := by
  refine ⟨by decide, by decide, ?_⟩
  rw [decodesExactly_iff (by decide)]
  decide

end TrIrcd
