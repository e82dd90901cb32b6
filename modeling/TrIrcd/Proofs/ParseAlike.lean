import TrIrcd.Proofs.ParaBounds
import TrIrcd.Src.Parse

/-!
# What the two parsers make of a command

Behind the early branches of `server_parse` for tokens and numerics both parsers
take a command word off the line and fill `para` with the same loop. In the buffer
the loop leaves a NUL in front of every parameter but the first, so when it is
done every place of `para` starts a string that ends where its parameter does:
what is split is `splitPara` of the text behind the word, whatever it was split
by (`fills`). The conditions under which `server_parse` gets to the word are about
its first four bytes only.

Both write the NULL behind the parameters, and of a line with `MAXPARA` of them it
is past the array: there is a call for either just as long as there is room
(`FitsPara`).
-/

namespace TrIrcd

open TrIrcd.Lib

/-! ## The loop -/

theorem skipSpaces_blanks (text : List UInt8) :
    ∃ k, text = List.replicate k 0x20 ++ skipSpaces text := by
  refine ⟨(text.takeWhile fun c => !notSpace c).length, ?_⟩
  have hall : ∀ c ∈ text.takeWhile (fun c => !notSpace c), c = 0x20 := by
    intro c hc
    have hspace := List.mem_takeWhile_imp (p := fun c => !notSpace c) hc
    simpa [notSpace] using hspace
  rw [← List.eq_replicate_of_mem hall]
  exact List.takeWhile_append_dropWhile.symm

theorem skipSpaces_terminated (text behind : List UInt8) :
    ∃ c rest, skipSpaces text ++ 0 :: behind = c :: rest ∧ notSpace c = true := by
  cases hs : skipSpaces text with
  | nil => exact ⟨0, behind, rfl, by decide⟩
  | cons c rest => exact ⟨c, rest ++ 0 :: behind, rfl, skipSpaces_head hs⟩

theorem eraseSpaces_blanks {rest : List UInt8} (hrest : ∀ c ∈ rest.head?, notSpace c = true)
    (pre : List UInt8) (k : Nat) :
    eraseSpaces (pre ++ (List.replicate k 0x20 ++ rest)) pre.length =
      (pre ++ List.replicate k 0 ++ rest, (pre ++ List.replicate k 0).length) := by
  have hblank : ∀ c ∈ List.replicate k (0x20 : UInt8), (!notSpace c) = true := by
    intro c hc
    rw [List.eq_of_mem_replicate hc]
    decide
  have hstop : rest.takeWhile (fun c => !notSpace c) = [] := by
    cases rest with
    | nil => rfl
    | cons c rest =>
        rw [List.takeWhile_cons_of_neg]
        rw [hrest c rfl]
        decide
  have hrun : ((pre ++ (List.replicate k 0x20 ++ rest)).drop pre.length).takeWhile
      (fun c => !notSpace c) = List.replicate k 0x20 := by
    rw [List.drop_left, List.takeWhile_append_of_pos hblank, hstop, List.append_nil]
  rw [eraseSpaces]
  simp only [hrun, List.length_replicate, blit, List.take_left, List.length_append]
  rw [← List.append_assoc, List.drop_left' (by simp)]

theorem eraseSpaces_word {c : UInt8} (hc : notSpace c = true) (pre rest : List UInt8) :
    eraseSpaces (pre ++ c :: rest) pre.length = (pre ++ c :: rest, pre.length) := by
  have hstop : ∀ b ∈ (c :: rest).head?, notSpace b = true := by
    rintro b ⟨⟩
    exact hc
  have hnone := eraseSpaces_blanks hstop pre 0
  simpa only [List.replicate_zero, List.nil_append, List.append_nil] using hnone

theorem wordEnd_word {word rest : List UInt8}
    (hword : ∀ c ∈ word, c ≠ 0 ∧ notSpace c = true)
    (hrest : ∀ c ∈ rest.head?, c = 0 ∨ notSpace c = false) (pre : List UInt8) :
    wordEnd (pre ++ (word ++ rest)) pre.length = (pre ++ word).length := by
  have hall : ∀ c ∈ word, decide (c ≠ 0 ∧ notSpace c) = true := fun c hc =>
    decide_eq_true (hword c hc)
  have hstop : rest.takeWhile (fun c => c ≠ 0 ∧ notSpace c) = [] := by
    cases rest with
    | nil => rfl
    | cons c rest =>
        have hc := hrest c rfl
        rw [List.takeWhile_cons_of_neg]
        simp only [decide_eq_true_eq, not_and_or, not_not, Bool.not_eq_true]
        exact hc
  rw [wordEnd, List.drop_left, List.takeWhile_append_of_pos hall, hstop, List.append_nil,
    List.length_append]

theorem firstWord_pastWord (s : List UInt8) : firstWord s ++ pastWord s = s :=
  List.takeWhile_append_dropWhile

theorem pastWord_head (s : List UInt8) : ∀ c ∈ (pastWord s).head?, notSpace c = false := by
  intro c hc
  have hhead := List.head?_dropWhile_not notSpace s
  rw [pastWord] at hc
  rw [hc] at hhead
  simpa using hhead

theorem paraFill_blanks {c : UInt8} (hc : notSpace c = true) (n : Int) (fuel i k : Nat)
    (pre rest : List UInt8) :
    paraFill n (fuel + 1) pre.length i (pre ++ (List.replicate k 0x20 ++ c :: rest)) =
      paraFill n (fuel + 1) (pre ++ List.replicate k 0).length i
        (pre ++ List.replicate k 0 ++ c :: rest) := by
  have hstop : ∀ b ∈ (c :: rest).head?, notSpace b = true := by
    rintro b ⟨⟩
    exact hc
  rw [paraFill, paraFill, eraseSpaces_blanks hstop, eraseSpaces_word hc]

theorem paraFill_cons {c : UInt8} (hc : notSpace c = true) (n : Int) (fuel i : Nat)
    (pre rest : List UInt8) :
    paraFill n (fuel + 1) pre.length i (pre ++ c :: rest) =
      if c = 0 then .ok ([], pre ++ c :: rest)
      else if c = 0x3a then .ok ([pre.length + 1], pre ++ c :: rest)
      else if n ≤ (i + 1 : Nat) then .ok ([pre.length], pre ++ c :: rest)
      else
        (paraFill n fuel (wordEnd (pre ++ c :: rest) pre.length) (i + 1) (pre ++ c :: rest)).map
          fun done => (pre.length :: done.1, done.2) := by
  rw [paraFill, eraseSpaces_word hc]
  simp only [getElem?_middle]
  cases paraFill n fuel (wordEnd (pre ++ c :: rest) pre.length) (i + 1) (pre ++ c :: rest) <;> rfl

/-! What `splitPara` makes of a text whose first byte is no blank. -/

theorem splitPara_colon (more : Nat) (t : List UInt8) : splitPara more (0x3a :: t) = [t] := by
  rw [splitPara, skipSpaces_word (by decide)]
  exact if_pos rfl

theorem splitPara_last {c : UInt8} (hc : notSpace c = true) (hcolon : c ≠ 0x3a) (t : List UInt8) :
    splitPara 0 (c :: t) = [c :: t] := by
  rw [splitPara, skipSpaces_word hc]
  exact if_neg hcolon

theorem splitPara_more {c : UInt8} (hc : notSpace c = true) (hcolon : c ≠ 0x3a) (more : Nat)
    (t : List UInt8) :
    splitPara (more + 1) (c :: t) = firstWord (c :: t) :: splitPara more (pastWord (c :: t)) := by
  rw [splitPara, skipSpaces_word hc]
  exact if_neg hcolon

theorem splitPara_skip (more : Nat) (k : Nat) (t : List UInt8) :
    splitPara more (List.replicate k 0x20 ++ t) = splitPara more t := by
  have hskip : skipSpaces (List.replicate k 0x20 ++ t) = skipSpaces t := by
    induction k with
    | zero => rfl
    | succ k ih => rw [List.replicate_succ, List.cons_append, skipSpaces_space, ih]
  rw [splitPara, splitPara, hskip]

/-- What is true of the loop at a place of the buffer: in front of the place nothing
changes, the byte there is a NUL afterwards unless it belongs to a parameter, and the
places in `para` start the parameters. -/
def Fills (n : Int) (fuel : Nat) (behind text : List UInt8) : Prop :=
  ∀ (pre : List UInt8) (i : Nat),
    ∃ para post, paraFill n fuel pre.length i (pre ++ (text ++ 0 :: behind)) =
        .ok (para, pre ++ post) ∧
      ((∀ c ∈ text.head?, notSpace c = false) → post.head? = some 0) ∧
      para.map (fun p => cstr ((pre ++ post).drop p)) = splitPara (n - (i + 1 : Nat)).toNat text

section Fill

variable {n : Int} {fuel : Nat} {behind : List UInt8}

theorem fills_nil : Fills n (fuel + 1) behind [] := by
  intro pre i
  refine ⟨[], 0 :: behind, ?_, fun _ => rfl, ?_⟩
  · rw [List.nil_append, paraFill_cons (by decide), if_pos rfl]
  · rw [splitPara.eq_def]
    rfl

/-- A word: the loop goes on behind it, where it starts by ending it. -/
theorem fills_word {c : UInt8} {text : List UInt8} (hc : notSpace c = true) (h0 : 0 ∉ c :: text)
    (hrest : Fills n fuel behind (pastWord (c :: text))) :
    Fills n (fuel + 1) behind (c :: text) := by
  intro pre i
  have hc0 : c ≠ 0 := fun h => h0 (h ▸ List.mem_cons_self)
  have hhead : (∀ b ∈ (c :: text).head?, notSpace b = false) → False := fun h => by
    rw [h c rfl] at hc
    exact Bool.false_ne_true hc
  rw [List.cons_append, paraFill_cons hc, if_neg hc0]
  by_cases hcolon : c = 0x3a
  · refine ⟨[pre.length + 1], c :: (text ++ 0 :: behind), if_pos hcolon,
      fun h => (hhead h).elim, ?_⟩
    have hstring := cstr_terminated (fun h => h0 (List.mem_cons_of_mem c h)) behind
    rw [hcolon, splitPara_colon, List.map_cons, drop_middle pre _ _ 0, List.drop_zero, hstring,
      List.map_nil]
  rw [if_neg hcolon]
  by_cases hlast : n ≤ (i + 1 : Nat)
  · refine ⟨[pre.length], c :: (text ++ 0 :: behind), if_pos hlast,
      fun h => (hhead h).elim, ?_⟩
    have hstring := cstr_terminated h0 behind
    have hnone : (n - (i + 1 : Nat)).toNat = 0 := by omega
    rw [hnone, splitPara_last hc hcolon, List.map_cons, List.drop_left, ← List.cons_append,
      hstring, List.map_nil]
  rw [if_neg hlast]
  obtain ⟨para, post, hrun, hend, hstrings⟩ := hrest (pre ++ firstWord (c :: text)) (i + 1)
  have hsplit : c :: (text ++ 0 :: behind) =
      firstWord (c :: text) ++ (pastWord (c :: text) ++ 0 :: behind) := by
    rw [← List.append_assoc, firstWord_pastWord, List.cons_append]
  have hword : ∀ b ∈ firstWord (c :: text), b ≠ 0 ∧ notSpace b = true := by
    intro b hb
    refine ⟨fun h => h0 (h ▸ List.takeWhile_subset _ hb), ?_⟩
    exact List.mem_takeWhile_imp hb
  have hstop : ∀ b ∈ (pastWord (c :: text) ++ 0 :: behind).head?,
      b = 0 ∨ notSpace b = false := by
    intro b hb
    cases hp : pastWord (c :: text) with
    | nil =>
        rw [hp, List.nil_append, List.head?_cons, Option.mem_def, Option.some.injEq] at hb
        exact .inl hb.symm
    | cons d rest =>
        rw [hp, List.cons_append, List.head?_cons] at hb
        refine .inr (pastWord_head (c :: text) b ?_)
        rwa [hp]
  refine ⟨pre.length :: para, firstWord (c :: text) ++ post, ?_, fun h => (hhead h).elim, ?_⟩
  · rw [hsplit, wordEnd_word hword hstop, ← List.append_assoc, hrun, ← List.append_assoc]
    rfl
  · obtain ⟨rest, rfl⟩ := List.head?_eq_some_iff.mp (hend (pastWord_head (c :: text)))
    have hstring : cstr (firstWord (c :: text) ++ 0 :: rest) = firstWord (c :: text) :=
      cstr_terminated (fun h => (hword 0 h).1 rfl) rest
    have hmore : (n - (i + 1 : Nat)).toNat = (n - (i + 1 + 1 : Nat)).toNat + 1 := by omega
    rw [hmore, splitPara_more hc hcolon, List.map_cons, List.drop_left, hstring, ← hstrings,
      List.append_assoc]

end Fill

/-- Every text, by the number of its bytes. -/
theorem fills (n : Int) (behind : List UInt8) (fuel : Nat) :
    ∀ text : List UInt8, 0 ∉ text → text.length < fuel → Fills n fuel behind text := by
  induction fuel with
  | zero => exact fun text h0 hlt => absurd hlt (Nat.not_lt_zero _)
  | succ fuel ih =>
      intro text h0 hlt
      obtain ⟨k, htext⟩ := skipSpaces_blanks text
      have hskipped : Fills n (fuel + 1) behind (skipSpaces text) := by
        cases hs : skipSpaces text with
        | nil => exact fills_nil
        | cons c rest =>
            have hsub : ∀ b ∈ c :: rest, b ∈ text := fun b hb =>
              (List.dropWhile_suffix _).subset (hs ▸ hb : b ∈ skipSpaces text)
            have hc := skipSpaces_head hs
            refine fills_word hc (fun h => h0 (hsub 0 h)) (ih _ (fun h => ?_) ?_)
            · exact h0 (hsub 0 ((List.dropWhile_suffix _).subset h))
            · have hpast := pastWord_length hc rest
              have hlen := skipSpaces_length text
              rw [hs, List.length_cons] at hlen
              omega
      intro pre i
      obtain ⟨para, post, hrun, hend, hstrings⟩ := hskipped (pre ++ List.replicate k 0) i
      refine ⟨para, List.replicate k 0 ++ post, ?_, ?_, ?_⟩
      · obtain ⟨c, rest, hcons, hc⟩ := skipSpaces_terminated text behind
        rw [hcons, ← paraFill_blanks hc, ← hcons, ← List.append_assoc (List.replicate k 0x20),
          ← htext] at hrun
        rw [hrun, List.append_assoc]
      · intro hhead
        cases k with
        | zero =>
            rw [List.replicate_zero, List.nil_append] at htext
            exact hend (htext ▸ hhead)
        | succ k => rfl
      · rw [htext, splitPara_skip, ← hstrings, List.append_assoc]

/-! ## The word -/

theorem fillPara_text {n : Int} {text : List UInt8} (h0 : 0 ∉ text) (pre behind : List UInt8) :
    fillPara n (some pre.length) (pre ++ (text ++ 0 :: behind)) =
      .ok (splitPara (min n maxPara - 1).toNat text) := by
  have hfuel : text.length < (pre ++ (text ++ 0 :: behind)).length + 1 := by
    simp only [List.length_append, List.length_cons]
    omega
  obtain ⟨para, post, hrun, -, hstrings⟩ := fills (min n maxPara) behind _ text h0 hfuel pre 0
  rw [fillPara]
  simp only [hrun, bind, Except.bind, hstrings]
  rfl

/-- The parameters of a line for a message, with an id replaced by its name. -/
def ParseSt.paramsOf (s : ParseSt) (msg : Nat) (line : List UInt8) : List (List UInt8) :=
  let more := (min (s.paramcount msg) maxPara - 1).toNat
  s.readId (((cutCommand line).2.map (splitPara more)).getD [])

theorem space_notMem_firstWord (line : List UInt8) : 0x20 ∉ firstWord line := by
  intro h
  have hne := List.mem_takeWhile_imp (p := notSpace) h
  exact absurd hne (by decide)

/-- The word is cut off, and `s` is behind the blank. -/
theorem cutWord_eq {line : List UInt8} (h0 : 0 ∉ line) (pre behind : List UInt8) :
    ∃ rest mem, cutWord (pre ++ (line ++ 0 :: behind)) pre.length = .ok (rest, mem) ∧
      cstr (mem.drop pre.length) = firstWord line ∧
      ∀ n, fillPara n rest mem =
        .ok (((cutCommand line).2.map (splitPara (min n maxPara - 1).toNat)).getD []) := by
  have hline := firstWord_pastWord line
  have hword0 : 0 ∉ firstWord line := fun h => h0 (List.takeWhile_subset _ h)
  rw [cutCommand]
  cases hp : pastWord line with
  | nil =>
      rw [hp, List.append_nil] at hline
      have hdrop : (pre ++ (line ++ 0 :: behind)).drop pre.length = line ++ 0 :: behind :=
        List.drop_left
      have hnone := strchrIn_none (c := 0x20) (by decide) h0
        (fun h => space_notMem_firstWord line (by rwa [hline])) hdrop
      refine ⟨none, pre ++ (line ++ 0 :: behind), ?_, ?_, fun n => rfl⟩
      · simp only [cutWord, hnone, bind, Except.bind]
      · rw [hdrop, cstr_terminated h0, hline]
  | cons d text =>
      have hd : d = 0x20 := by
        have hspace := pastWord_head line d (by rw [hp]; rfl)
        simpa [notSpace] using hspace
      rw [hp, hd] at hline
      have htext0 : 0 ∉ text := fun h => h0 (by
        rw [← hline]
        exact List.mem_append_right _ (List.mem_cons_of_mem _ h))
      have hmem : (pre ++ (line ++ 0 :: behind)).drop pre.length =
          firstWord line ++ 0x20 :: (text ++ 0 :: behind) := by
        rw [List.drop_left, ← List.cons_append, ← List.append_assoc, hline]
      have hsome := strchrIn_some (c := 0x20) hword0 (space_notMem_firstWord line) hmem
      have hput := putByte_middle (pre ++ firstWord line) (text ++ 0 :: behind) 0x20 0
      have hwhole : pre ++ (line ++ 0 :: behind) =
          pre ++ firstWord line ++ 0x20 :: (text ++ 0 :: behind) := by
        rw [List.append_assoc, ← hmem, List.drop_left]
      have hplace : pre.length + (firstWord line).length = (pre ++ firstWord line).length :=
        List.length_append.symm
      refine ⟨some ((pre ++ firstWord line).length + 1),
        pre ++ firstWord line ++ 0 :: (text ++ 0 :: behind), ?_, ?_, fun n => ?_⟩
      · rw [hplace] at hsome
        rw [← hwhole] at hput
        simp only [cutWord, hsome, hput, bind, Except.bind]
      · rw [List.append_assoc, List.drop_left, cstr_terminated hword0]
      · have hfill := @fillPara_text n text htext0 (pre ++ firstWord line ++ [0]) behind
        rw [List.length_append, List.append_assoc] at hfill
        exact hfill

/-- What is split off the line leaves room for the NULL in `para`. -/
def ParseSt.FitsPara (s : ParseSt) (msg : Nat) (line : List UInt8) : Prop :=
  s.paramcount msg < maxPara ∨ ∀ rest ∈ (cutCommand line).2, (lineParams rest).length < maxPara

instance (s : ParseSt) (msg : Nat) (line : List UInt8) : Decidable (s.FitsPara msg line) :=
  inferInstanceAs (Decidable (_ ∨ _))

theorem length_params_lt_iff (n : Int) (behind : Option (List UInt8)) :
    ((behind.map (splitPara (min n maxPara - 1).toNat)).getD []).length < maxPara ↔
      n < maxPara ∨ ∀ rest ∈ behind, (lineParams rest).length < maxPara := by
  have hmax : maxPara = 15 := rfl
  cases behind with
  | none =>
      rw [Option.map_none, Option.getD_none, List.length_nil, hmax]
      exact iff_of_true (by decide) (.inr fun rest h => absurd h (Option.not_mem_none rest))
  | some rest =>
      have hlen := @length_splitPara (min n maxPara - 1).toNat rest
      simp only [Option.mem_some_iff, forall_eq', Option.map_some, Option.getD_some]
      omega

/-- The word is known: its handler is called if there is room for the parameters. -/
theorem parseWord_eq (s : ParseSt) (cptr source : Nat) (para0 : List UInt8) {line : List UInt8}
    {msg : Nat} (h0 : 0 ∉ line) (hmsg : s.commands.hashParse (firstWord line) = .ok (some msg))
    (pre behind : List UInt8) :
    s.parseWord cptr source para0 pre.length (pre ++ (line ++ 0 :: behind)) =
      if s.FitsPara msg line then
        .ok (s.dispatch cptr msg source (para0 :: s.paramsOf msg line))
      else .error .overflow := by
  obtain ⟨rest, mem, hcut, hword, hfill⟩ := cutWord_eq h0 pre behind
  have hfits := length_params_lt_iff (s.paramcount msg) (cutCommand line).2
  simp only [ParseSt.parseWord, hcut, textFault, Except.mapError, bind, Except.bind, hword, hmsg,
    ParseSt.callMessage, hfill, ParseSt.paramsOf, endPara]
  by_cases hroom : s.FitsPara msg line
  · rw [if_pos hroom, if_neg (Nat.not_le.mpr (hfits.mpr hroom))]
  · rw [if_neg hroom, if_pos (Nat.le_of_not_lt fun hlt => hroom (hfits.mp hlt))]

/-! ## The two parsers -/

/-- A line that is a command for both parsers: no prefix, a word that is in the table,
and neither a token nor a numeric. -/
structure ParseSt.CommandLine (s : ParseSt) (text : List UInt8) (msg : Nat) : Prop where
  noNul : 0 ∉ text
  noPrefix : ∀ c ∈ (skipSpaces text).head?, c ≠ 0x21 ∧ c ≠ 0x3a
  known : s.commands.hashParse (firstWord (skipSpaces text)) = .ok (some msg)
  long : 1 < (firstWord (skipSpaces text)).length
  notNumeric : ¬ ((firstWord (skipSpaces text)).length = 3 ∧
    ∀ c ∈ firstWord (skipSpaces text), isDigit10 c = true)

/-- The handler of `msg` is called for the client and with its name; a client that is
on its way out gets none. -/
def ParseSt.calls (s : ParseSt) (cptr msg : Nat) (params : List (List UInt8)) : Parsed :=
  if (s.client cptr).dead || (s.client cptr).closing then .dead
  else s.dispatch cptr msg cptr (s.names.name cptr :: params)

section Alike

variable {s : ParseSt} {text : List UInt8} {msg : Nat}

theorem serverPrefix_none (hnone : ∀ c ∈ (skipSpaces text).head?, c ≠ 0x21 ∧ c ≠ 0x3a)
    (cptr : Nat) : s.serverPrefix cptr text = .ok (cptr, s.names.name cptr, skipSpaces text) := by
  rw [ParseSt.serverPrefix]
  split
  case h_1 ch heq => exact absurd rfl (hnone 0x3a (by rw [heq]; rfl)).2
  case h_2 ch heq => exact absurd rfl (hnone 0x21 (by rw [heq]; rfl)).1
  case h_3 => rfl

theorem userPrefix_none (hnone : ∀ c ∈ (skipSpaces text).head?, c ≠ 0x21 ∧ c ≠ 0x3a)
    (cptr : Nat) : s.userPrefix cptr text = .ok (cptr, s.names.name cptr, skipSpaces text) := by
  rw [ParseSt.userPrefix]
  split
  case h_1 ch heq => exact absurd rfl (hnone 0x3a (by rw [heq]; rfl)).2
  case h_2 => rfl

theorem notSpace_of_digit {c : UInt8} (h : isDigit10 c = true) : notSpace c = true :=
  decide_eq_true fun hblank => by
    rw [hblank] at h
    exact absurd h (by decide)

namespace ParseSt.CommandLine

/-- The first two bytes are bytes of the word. -/
theorem cons (h : s.CommandLine text msg) :
    ∃ a b line, skipSpaces text = a :: b :: line ∧ notSpace a = true ∧ notSpace b = true := by
  have hlong := h.long
  rw [firstWord] at hlong
  cases hs : skipSpaces text with
  | nil =>
      rw [hs] at hlong
      exact absurd hlong (by decide)
  | cons a rest =>
      have ha := skipSpaces_head hs
      rw [hs, List.takeWhile_cons_of_pos ha, List.length_cons] at hlong
      cases rest with
      | nil => exact absurd hlong (by decide)
      | cons b line =>
          by_cases hb : notSpace b = true
          · exact ⟨a, b, line, rfl, ha, hb⟩
          · rw [List.takeWhile_cons_of_neg hb] at hlong
            exact absurd hlong (by decide)

theorem nonzero (h : s.CommandLine text msg) : ∀ c ∈ skipSpaces text, c ≠ 0 := by
  rintro c hc rfl
  exact h.noNul ((List.dropWhile_suffix _).subset hc)

theorem not_digits (h : s.CommandLine text msg) {a b c : UInt8} {rest : List UInt8}
    (hs : skipSpaces text = a :: b :: c :: 0x20 :: rest) :
    ¬ (isDigit10 a = true ∧ isDigit10 b = true ∧ isDigit10 c = true) := by
  rintro ⟨ha, hb, hc⟩
  have hword : firstWord (skipSpaces text) = [a, b, c] := by
    rw [hs, firstWord, List.takeWhile_cons_of_pos (notSpace_of_digit ha),
      List.takeWhile_cons_of_pos (notSpace_of_digit hb),
      List.takeWhile_cons_of_pos (notSpace_of_digit hc), List.takeWhile_cons_of_neg (by decide)]
  refine h.notNumeric ?_
  rw [hword]
  refine ⟨rfl, ?_⟩
  simpa using ⟨ha, hb, hc⟩

theorem userLine_eq (h : s.CommandLine text msg) (cptr source : Nat)
    (para0 pre behind : List UInt8) :
    s.userLine cptr source para0 pre.length (pre ++ (skipSpaces text ++ 0 :: behind)) =
      s.parseWord cptr source para0 pre.length (pre ++ (skipSpaces text ++ 0 :: behind)) := by
  obtain ⟨a, b, line, hs, -, -⟩ := h.cons
  have hget : (pre ++ (skipSpaces text ++ 0 :: behind))[pre.length]? = some a := by
    rw [hs, List.cons_append, getElem?_middle]
  rw [ParseSt.userLine, hget]
  exact if_neg (h.nonzero a (by rw [hs]; exact List.mem_cons_self))

/-- Of three digits and a blank the word would be a numeric. -/
theorem serverLine_eq (h : s.CommandLine text msg) (cptr source : Nat)
    (para0 pre behind : List UInt8) :
    s.serverLine cptr source para0 pre.length (pre ++ (skipSpaces text ++ 0 :: behind)) =
      s.parseWord cptr source para0 pre.length (pre ++ (skipSpaces text ++ 0 :: behind)) := by
  obtain ⟨a, b, line, hs, ha, hb⟩ := h.cons
  have ha0 : a ≠ 0 := h.nonzero a (by rw [hs]; exact List.mem_cons_self)
  have hb0 : ¬ (b = 0x20 ∨ b = 0) := by
    rintro (rfl | rfl)
    · exact absurd hb (by decide)
    · exact h.nonzero 0 (by rw [hs]; exact List.mem_cons_of_mem _ List.mem_cons_self) rfl
  have hdrop : (pre ++ (skipSpaces text ++ 0 :: behind)).drop pre.length =
      a :: b :: (line ++ 0 :: behind) := by
    rw [List.drop_left, hs]
    rfl
  rw [ParseSt.serverLine, hdrop]
  simp only [if_neg ha0, if_neg hb0]
  split
  case h_2 => rfl
  case h_1 c rest heq =>
    refine if_neg fun hdigits => ?_
    have hc0 : c ≠ 0 := by
      rintro rfl
      exact absurd hdigits.2.2 (by decide)
    cases line with
    | nil => exact absurd (List.cons.inj heq).1.symm hc0
    | cons d line =>
        obtain ⟨rfl, htail⟩ := List.cons.inj heq
        cases line with
        | nil => exact absurd (List.cons.inj htail).1 (by decide)
        | cons e line =>
            obtain ⟨rfl, -⟩ := List.cons.inj htail
            exact h.not_digits hs hdigits

end ParseSt.CommandLine

/-- What both parsers make of the line, whatever stands behind it in the buffer. -/
theorem parseIn_eq (h : s.CommandLine text msg) (cptr : Nat) (behind : List UInt8) :
    let r : Except LineFault Parsed :=
      if (s.client cptr).dead || (s.client cptr).closing then .ok .dead
      else if s.FitsPara msg (skipSpaces text) then
        .ok (s.calls cptr msg (s.paramsOf msg (skipSpaces text)))
      else .error .overflow
    s.serverParseIn cptr (text ++ 0 :: behind) = r ∧
      s.userParseIn cptr (text ++ 0 :: behind) = r := by
  intro r
  obtain ⟨k, htext⟩ := skipSpaces_blanks text
  have hmem : text ++ 0 :: behind =
      List.replicate k 0x20 ++ (skipSpaces text ++ 0 :: behind) := by
    rw [← List.append_assoc, ← htext]
  have hplace : text.length - (skipSpaces text).length =
      (List.replicate k (0x20 : UInt8)).length := by
    have hlen := congrArg List.length htext
    rw [List.length_append] at hlen
    omega
  have h0 : 0 ∉ skipSpaces text := fun hz => h.nonzero 0 hz rfl
  have hword := parseWord_eq s cptr cptr (s.names.name cptr) h0 h.known
    (List.replicate k 0x20) behind
  simp only [r]
  rw [ParseSt.serverParseIn, ParseSt.userParseIn, ParseSt.calls, cstr_terminated h.noNul,
    serverPrefix_none h.noPrefix, userPrefix_none h.noPrefix]
  by_cases hdead : ((s.client cptr).dead || (s.client cptr).closing) = true
  · rw [if_pos hdead, if_pos hdead, if_pos hdead]
    exact ⟨rfl, rfl⟩
  · rw [if_neg hdead, if_neg hdead, if_neg hdead, if_neg hdead]
    simp only [hplace]
    rw [hmem, h.serverLine_eq, h.userLine_eq, hword]
    exact ⟨rfl, rfl⟩

/-- A fault of the string is one of the line. -/
def ParseFault.inLine : ParseFault → LineFault
  | .overflow => .overflow
  | .intOverflow => .intOverflow

theorem runCommand_eq (hsmall : s.parameters msg < 2147483648) {line : List UInt8}
    (hmsg : s.commands.hashParse (firstWord line) = .ok (some msg))
    (hroom : s.FitsPara msg line) (cptr source : Nat) (para0 : List UInt8) :
    s.runCommand cptr source para0 line =
      .ok (s.dispatch cptr msg source (para0 :: s.paramsOf msg line)) := by
  have hcount : s.paramcount msg = s.parameters msg :=
    Int.bmod_eq_of_le_mul_two (by rw [UInt32.size]; omega) (by rw [UInt32.size]; omega)
  have hmore : (min (s.paramcount msg) maxPara - 1).toNat = min (s.parameters msg) maxPara - 1 := by
    rw [hcount]
    omega
  have hlen := (length_params_lt_iff (s.paramcount msg) (cutCommand line).2).mpr hroom
  rw [hmore] at hlen
  rw [ParseSt.runCommand, show (cutCommand line).1 = firstWord line from rfl, hmsg]
  simp only [ParseSt.runMessage, ParseSt.paramsOf, hmore, paraOf_readId hlen]
  rfl

namespace ParseSt.CommandLine

theorem serverCommand_eq (h : s.CommandLine text msg) (cptr source : Nat)
    (para0 : List UInt8) :
    s.serverCommand cptr source para0 (skipSpaces text) =
        s.runCommand cptr source para0 (skipSpaces text) ∧
      s.serverPara (skipSpaces text) = s.wordPara (skipSpaces text) := by
  obtain ⟨a, b, line, hs, ha, hb⟩ := h.cons
  rw [ParseSt.serverCommand.eq_def, ParseSt.serverPara.eq_def, hs]
  split
  case h_1 heq => cases heq
  case h_2 heq => cases heq
  case h_3 heq =>
    cases heq
    exact absurd hb (by decide)
  case h_4 heq =>
    rw [heq]
    exact ⟨rfl, rfl⟩
  case h_5 heq =>
    rw [heq]
    exact ⟨rfl, rfl⟩
  case h_6 a b c d rest _ heq =>
    rw [heq] at hs ⊢
    have hdigits : ¬(decide (d = 0x20) && isDigit10 a && isDigit10 b && isDigit10 c) = true := by
      simp only [Bool.and_eq_true, decide_eq_true_eq]
      rintro ⟨⟨⟨rfl, hda⟩, hdb⟩, hdc⟩
      exact h.not_digits hs ⟨hda, hdb, hdc⟩
    exact ⟨if_neg hdigits, if_neg hdigits⟩

/-- The parameters both parsers come to split. -/
theorem linePara_eq (h : s.CommandLine text msg) (server : Bool) {cptr : Nat}
    (hdead : ¬((s.client cptr).dead || (s.client cptr).closing) = true) :
    s.linePara server cptr text =
      some (s.paramcount msg, (cutCommand (skipSpaces text)).2) := by
  have hword : s.wordPara (skipSpaces text) =
      some (s.paramcount msg, (cutCommand (skipSpaces text)).2) := by
    rw [ParseSt.wordPara, show (cutCommand (skipSpaces text)).1 = firstWord (skipSpaces text)
      from rfl, h.known]
  obtain ⟨a, b, line, hs, -, -⟩ := h.cons
  rw [ParseSt.linePara, if_neg hdead, serverPrefix_none h.noPrefix, userPrefix_none h.noPrefix]
  cases server with
  | true =>
      rw [if_pos rfl, ← hword]
      exact (h.serverCommand_eq cptr cptr []).2
  | false =>
      rw [if_neg Bool.false_ne_true, ← hword, hs]
      rfl

end ParseSt.CommandLine

/-- Of a string the parsers say what they say of the line in the buffer. -/
theorem parse_strings (h : s.CommandLine text msg)
    (hsmall : ∀ msg, s.parameters msg < 2147483648) (cptr : Nat) (behind : List UInt8) :
    s.serverParseIn cptr (text ++ 0 :: behind) =
        (s.serverParse cptr text).mapError ParseFault.inLine ∧
      s.userParseIn cptr (text ++ 0 :: behind) =
        (s.userParse cptr text).mapError ParseFault.inLine := by
  obtain ⟨hserver, huser⟩ := parseIn_eq h cptr behind
  have hover := fun server => ParseSt.parse_overflow_iff hsmall server cptr text
  rw [hserver, huser]
  by_cases hdead : ((s.client cptr).dead || (s.client cptr).closing) = true
  · rw [if_pos hdead, ParseSt.serverParse, ParseSt.userParse, if_pos hdead, if_pos hdead]
    exact ⟨rfl, rfl⟩
  rw [if_neg hdead]
  by_cases hroom : s.FitsPara msg (skipSpaces text)
  · have hsp := serverPrefix_none (s := s) h.noPrefix cptr
    have hup := userPrefix_none (s := s) h.noPrefix cptr
    have hrun := runCommand_eq (hsmall msg) h.known hroom cptr cptr (s.names.name cptr)
    obtain ⟨a, b, line, hs, -, -⟩ := h.cons
    rw [ParseSt.serverPrefix] at hsp
    rw [ParseSt.userPrefix] at hup
    rw [if_pos hroom, ParseSt.serverParse, ParseSt.userParse, if_neg hdead, if_neg hdead,
      ParseSt.calls, if_neg hdead]
    simp only [hsp, hup]
    rw [(h.serverCommand_eq cptr cptr _).1, hrun]
    refine ⟨rfl, ?_⟩
    rw [hs] at hrun ⊢
    exact (congrArg (Except.mapError ParseFault.inLine) hrun).symm
  · have hnot : ∀ server, ¬ParseSt.Within (s.linePara server cptr text) := by
      intro server hwithin
      rw [h.linePara_eq server hdead, ParseSt.within_some] at hwithin
      refine hroom ?_
      rw [ParseSt.FitsPara]
      cases hrest : (cutCommand (skipSpaces text)).2 with
      | none => exact .inr fun rest h => absurd h (Option.not_mem_none rest)
      | some rest =>
          rw [hrest, paraWritten_some_le_iff] at hwithin
          simpa only [Option.mem_some_iff, forall_eq'] using hwithin
    have hs := (hover true).mpr (hnot true)
    have hu := (hover false).mpr (hnot false)
    rw [ParseSt.parse, if_pos rfl] at hs
    rw [ParseSt.parse, if_neg Bool.false_ne_true] at hu
    rw [if_neg hroom, hs, hu]
    exact ⟨rfl, rfl⟩

end Alike

end TrIrcd
