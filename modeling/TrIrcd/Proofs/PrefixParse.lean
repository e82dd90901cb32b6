import TrIrcd.Proofs.ParseSource
import TrIrcd.Src.Send

/-!
# Lines between servers

A line that `prepareServerPrefixes` builds is a prefix, a command and, if there
is any, a text (`prepareServerPrefixes_eq`). A receiver that knows the sender
and the command under what the line calls them takes it apart again
(`serverParse_prefix`, `serverCommand_command`), and calls the handler with the
words of the text, as long as there are fewer than `MAXPARA` (`prepared_parse`).

Only the first of them need not arrive unchanged. One that starts with `!` is
taken for an id, and if somebody has that id, it is replaced by a name.
-/

namespace TrIrcd

open TrIrcd.Lib

/-! ## The words of a text -/

theorem skipSpaces_length (s : List UInt8) : (skipSpaces s).length ≤ s.length :=
  List.length_dropWhile_le _ s

theorem skipSpaces_head {s t : List UInt8} {c : UInt8} (h : skipSpaces s = c :: t) :
    notSpace c = true := by
  have hh := List.head?_dropWhile_not (fun c => !notSpace c) s
  rw [skipSpaces] at h
  rw [h] at hh
  simpa using hh

theorem pastWord_length {c : UInt8} (hc : notSpace c = true) (s : List UInt8) :
    (pastWord (c :: s)).length ≤ s.length := by
  rw [pastWord, List.dropWhile_cons_of_pos hc]
  exact List.length_dropWhile_le _ s

/-- The words of a text, up to one that starts with a colon and is the rest. -/
def lineParams (s : List UInt8) : List (List UInt8) :=
  match _ : skipSpaces s with
  | [] => []
  | c :: t => if c = 0x3a then [t] else firstWord (c :: t) :: lineParams (pastWord (c :: t))
termination_by s.length
decreasing_by
  next hs _ =>
  have hlen := skipSpaces_length s
  rw [hs] at hlen
  exact Nat.lt_of_le_of_lt (pastWord_length (skipSpaces_head hs) t) hlen

theorem lineParams_nil {s : List UInt8} (h : skipSpaces s = []) : lineParams s = [] := by
  rw [lineParams]
  split
  · rfl
  · next hs => cases h.symm.trans hs

theorem lineParams_cons {s t : List UInt8} {c : UInt8} (h : skipSpaces s = c :: t) :
    lineParams s =
      if c = 0x3a then [t] else firstWord (c :: t) :: lineParams (pastWord (c :: t)) := by
  rw [lineParams]
  split
  · next hs => cases h.symm.trans hs
  · next hs =>
      cases h.symm.trans hs
      rfl

/-- The parser finds these words if there are no more than it looks for. -/
theorem splitPara_eq (more : Nat) :
    ∀ {s : List UInt8}, (lineParams s).length ≤ more → splitPara more s = lineParams s := by
  induction more with
  | zero =>
      intro s h
      rw [splitPara.eq_def]
      cases hs : skipSpaces s with
      | nil => simp only [hs, lineParams_nil hs]
      | cons c t =>
          rw [lineParams_cons hs] at h
          split at h
          · cases h
          · cases h
  | succ more ih =>
      intro s h
      rw [splitPara.eq_def]
      cases hs : skipSpaces s with
      | nil => simp only [hs, lineParams_nil hs]
      | cons c t =>
          rw [lineParams_cons hs] at h ⊢
          simp only [hs]
          by_cases hc : c = 0x3a
          · rw [if_pos hc, if_pos hc]
          · rw [if_neg hc] at h
            rw [if_neg hc, if_neg hc, ih (Nat.le_of_succ_le_succ h)]

/-! ## The parts of a line -/

theorem firstWord_append {w t : List UInt8} (hw : ∀ c ∈ w, notSpace c = true) :
    firstWord (w ++ 0x20 :: t) = w := by
  rw [firstWord, List.takeWhile_append_of_pos hw, List.takeWhile_cons_of_neg (by decide),
    List.append_nil]

theorem pastWord_append {w t : List UInt8} (hw : ∀ c ∈ w, notSpace c = true) :
    pastWord (w ++ 0x20 :: t) = 0x20 :: t := by
  rw [pastWord, List.dropWhile_append_of_pos hw, List.dropWhile_cons_of_neg (by decide)]

theorem skipSpaces_space (t : List UInt8) : skipSpaces (0x20 :: t) = skipSpaces t :=
  List.dropWhile_cons_of_pos (by decide)

theorem skipSpaces_word {c : UInt8} (hc : notSpace c = true) (t : List UInt8) :
    skipSpaces (c :: t) = c :: t :=
  List.dropWhile_cons_of_neg (by rw [hc]; decide)

/-- A command and the text behind it. -/
def withText (command : List UInt8) (text : Option (List UInt8)) : List UInt8 :=
  command ++ (text.map (0x20 :: ·)).getD []

theorem cutCommand_withText {command : List UInt8} (hw : ∀ c ∈ command, notSpace c = true)
    (text : Option (List UInt8)) : cutCommand (withText command text) = (command, text) := by
  cases text with
  | none =>
      have hf : firstWord command = command := List.takeWhile_eq_self_iff.mpr hw
      have hp : pastWord command = [] := List.dropWhile_eq_nil_iff.mpr hw
      simp only [withText, cutCommand, Option.map_none, Option.getD_none, List.append_nil, hf, hp]
  | some t =>
      simp only [withText, cutCommand, Option.map_some, Option.getD_some, firstWord_append hw,
        pastWord_append hw]

section

variable {s : ParseSt} {cptr msg : Nat} {para0 : List UInt8}

/-- Every word of the table is a command word: it is longer than a token, and
is no numeric. -/
theorem tok1Word_word {token : UInt8} {command : List UInt8} (h : tok1Word token = some command) :
    notSpace token = true ∧ (∀ c ∈ command, notSpace c = true) ∧
      ∃ a b t, command = a :: b :: t ∧ isDigit10 a = false := by
  obtain ⟨cmd, hcmd, rfl⟩ := Option.map_eq_some_iff.mp h
  have hmem : (token, cmd) ∈ tok1Msgtab := by
    obtain ⟨l₁, l₂, hl, _⟩ := List.lookup_eq_some_iff.mp hcmd
    rw [hl]
    exact List.mem_append_right l₁ (List.mem_cons_self ..)
  -- As a Boolean, so that it is evaluated by no other instances than these.
  have hall : (tok1Msgtab.all fun e =>
      let word := e.2.toList.map fun d => UInt8.ofNat d.toNat
      notSpace e.1 && word.all notSpace && decide (2 ≤ word.length) &&
        word.head?.all fun a => !isDigit10 a) = true := by
    decide +kernel
  have hentry := List.all_eq_true.mp hall (token, cmd) hmem
  simp only [Bool.and_eq_true, List.all_eq_true, decide_eq_true_eq, Option.all_eq_true,
    Bool.not_eq_true'] at hentry
  obtain ⟨⟨⟨htok, hword⟩, hlen⟩, hdigit⟩ := hentry
  refine ⟨htok, hword, ?_⟩
  cases hw : cmd.toList.map fun d => UInt8.ofNat d.toNat with
  | nil => rw [hw] at hlen; cases hlen
  | cons a t =>
      cases t with
      | nil =>
          rw [hw] at hlen
          exact absurd hlen (Nat.lt_irrefl 1)
      | cons b t =>
          rw [hw] at hdigit
          exact ⟨a, b, t, rfl, hdigit a rfl⟩

/-- Nothing between the prefix and the command is part of either. -/
theorem skipSpaces_withText {c : UInt8} {t : List UInt8} (hc : notSpace c = true)
    (text : Option (List UInt8)) :
    skipSpaces (0x20 :: withText (c :: t) text) = withText (c :: t) text := by
  rw [skipSpaces_space, withText, List.cons_append, skipSpaces_word hc]

theorem serverCommand_token {c : Nat} (ch : UInt8) (text : Option (List UInt8)) :
    s.serverCommand cptr c para0 (withText [ch] text) = s.runToken cptr c para0 ch text := by
  cases text with
  | none => rfl
  | some t => rfl

theorem serverCommand_word {c : Nat} {a b : UInt8} {t : List UInt8} (hb : notSpace b = true)
    (ha : isDigit10 a = false) (text : Option (List UInt8)) :
    s.serverCommand cptr c para0 (withText (a :: b :: t) text) =
      s.runCommand cptr c para0 (withText (a :: b :: t) text) := by
  rw [withText, List.cons_append, List.cons_append, ParseSt.serverCommand.eq_def]
  split
  · next h => cases h
  · next h => cases h
  · next h =>
      cases h
      exact absurd hb (by decide)
  · next h => rw [h]
  · next h => rw [h]
  · next h =>
      rw [h]
      injection h with h _
      rw [← h, ha, Bool.and_false, Bool.false_and, Bool.false_and, if_neg Bool.false_ne_true]

theorem paraOf_readId {params : List (List UInt8)} (h : params.length < maxPara) :
    s.paraOf para0 params = .ok (para0 :: s.readId params) := by
  rw [ParseSt.paraOf.eq_def, if_neg (Nat.not_le_of_lt h)]
  by_cases hid : ∃ id rest, params = (0x21 :: id) :: rest
  · obtain ⟨id, rest, rfl⟩ := hid
    rfl
  · have hne : ∀ id rest, params = (0x21 :: id) :: rest → False :=
      fun id rest heq => hid ⟨id, rest, heq⟩
    rw [ParseSt.readId.eq_2 s params hne]
    split
    · exact (hne _ _ rfl).elim
    · rfl

end

/-! ## There and back -/

/-- The receiver of a line of `cptr`: the sender is its client `c`, and the
token or word its message `msg`. -/
structure Receives (s : ParseSt) (cptr : Nat) (source : Sender) (dest : LinkCaps)
    (token : UInt8) (c msg : Nat) : Prop where
  server : (s.client cptr).isServer = true
  dead : (s.client cptr).dead = false
  closing : (s.client cptr).closing = false
  tok1Cmd : s.tok1Cmd = tok1Word
  tok1Msg : s.tok1Msg token = some msg
  word : ∀ command ∈ tok1Word token, s.commands.hashParse command = .ok (some msg)
  parameters : maxPara ≤ s.parameters msg
  behind : (s.client c).source = cptr
  known : if source.asId dest then s.ids.findByBase64Id source.string = some c
    else s.find source.name = some c

section

variable {s : ParseSt} {cptr c msg : Nat} {source : Sender} {dest : LinkCaps} {token : UInt8}
  {para0 : List UInt8}

namespace Receives

theorem runMessage (h : Receives s cptr source dest token c msg) {text : Option (List UInt8)}
    (hfew : (lineParams (text.getD [])).length < maxPara) :
    s.runMessage cptr msg c para0 text =
      .ok (.handler .srvr msg c (para0 :: s.readId (lineParams (text.getD [])))) := by
  have hpara : (text.map (splitPara (min (s.parameters msg) maxPara - 1))).getD [] =
      lineParams (text.getD []) := by
    rw [Nat.min_eq_right h.parameters]
    cases text with
    | none => rw [Option.getD_none, lineParams]; rfl
    | some t => exact splitPara_eq _ (Nat.le_of_lt_succ hfew)
  have hserver : (s.client cptr).status = statServer := of_decide_eq_true h.server
  have hdispatch : ∀ para, s.dispatch cptr msg c para = .handler .srvr msg c para := by
    intro para
    simp only [ParseSt.dispatch, ParseClient.isRegistered, ParseClient.isServer, hserver]
    rfl
  simp only [ParseSt.runMessage, hpara, paraOf_readId hfew, Except.map, hdispatch]

/-- Behind the prefix, the token and the word come to the same. -/
theorem serverCommand (h : Receives s cptr source dest token c msg) {word command : List UInt8}
    (htoken : tok1Word token = some word)
    (hcommand : (if dest.token1 then some [token] else tok1Word token) = some command)
    {text : Option (List UInt8)} (hfew : (lineParams (text.getD [])).length < maxPara) :
    s.serverCommand cptr c para0 (withText command text) =
      .ok (.handler .srvr msg c (para0 :: s.readId (lineParams (text.getD [])))) := by
  obtain ⟨_, hword, a, b, t, rfl, ha⟩ := tok1Word_word htoken
  rw [← h.runMessage hfew]
  split at hcommand
  · cases hcommand
    rw [serverCommand_token, ParseSt.runToken, h.tok1Cmd, htoken, h.tok1Msg]
  · rw [htoken] at hcommand
    cases hcommand
    rw [serverCommand_word (hword b (by simp)) ha, ParseSt.runCommand, cutCommand_withText hword,
      h.word _ htoken]

theorem idPrefix (h : Receives s cptr source dest token c msg) (hid : source.asId dest = true)
    {ch : UInt8} (hch : notSpace ch = true) (t : List UInt8) (text : Option (List UInt8)) :
    s.idPrefix cptr (0x21 :: (source.string ++ 0x20 :: withText (ch :: t) text)) =
      .ok (c, s.names.name c, withText (ch :: t) text) := by
  have hknown := h.known
  rw [hid, if_pos rfl] at hknown
  have hw : ∀ d ∈ 0x21 :: source.string, notSpace d = true :=
    List.forall_mem_cons.mpr ⟨by decide, source.string_word⟩
  have hlen : (0x21 :: source.string).length ≤ hostLen :=
    Nat.le_trans (Nat.succ_le_succ source.string_length) (by decide)
  simp only [ParseSt.idPrefix, ← List.cons_append, firstWord_append hw, pastWord_append hw,
    List.take_of_length_le hlen, skipSpaces_withText hch, List.tail_cons, hknown,
    ParseSt.resolve, h.behind, ne_eq, not_true, if_false, Option.map_some, Option.getD_some]

theorem namePrefix (h : Receives s cptr source dest token c msg) (hid : source.asId dest = false)
    {ch : UInt8} (hch : notSpace ch = true) (t : List UInt8) (text : Option (List UInt8)) :
    s.namePrefix cptr (source.name ++ 0x20 :: withText (ch :: t) text) =
      .ok (c, source.name, withText (ch :: t) text) := by
  have hknown := h.known
  rw [hid, if_neg Bool.false_ne_true] at hknown
  simp only [ParseSt.namePrefix, firstWord_append source.name_word,
    pastWord_append source.name_word, List.take_of_length_le source.name_length,
    skipSpaces_withText hch, hknown, if_neg source.name_ne, ParseSt.resolve, h.behind, ne_eq,
    not_true, if_false]

/-- The prefix is read as the sender. -/
theorem serverParse (h : Receives s cptr source dest token c msg) {ch : UInt8} {t : List UInt8}
    (hch : notSpace ch = true) (text : Option (List UInt8)) :
    s.serverParse cptr (source.prefixOf dest ++ 0x20 :: withText (ch :: t) text) =
      s.serverCommand cptr c (if source.asId dest then s.names.name c else source.name)
        (withText (ch :: t) text) := by
  rw [ParseSt.serverParse, h.dead, h.closing, Bool.or_false, if_neg Bool.false_ne_true,
    Sender.prefixOf]
  cases hid : source.asId dest with
  | true =>
      rw [if_pos rfl, if_pos rfl, List.cons_append, skipSpaces_word (by decide)]
      have hpre := h.idPrefix hid hch t text
      dsimp only
      split
      · next hsource => cases hpre.symm.trans hsource
      · next hsource =>
          cases hpre.symm.trans hsource
          rfl
  | false =>
      rw [if_neg Bool.false_ne_true, if_neg Bool.false_ne_true, List.cons_append,
        skipSpaces_word (by decide)]
      have hpre := h.namePrefix hid hch t text
      dsimp only
      split
      · next hsource => cases hpre.symm.trans hsource
      · next hsource =>
          cases hpre.symm.trans hsource
          rfl

end Receives

end

/-! ## One message -/

/-- `PRIVMSG` -/
def privmsg : List UInt8 := [0x50, 0x52, 0x49, 0x56, 0x4d, 0x53, 0x47]

/-- A receiver that has `PRIVMSG`, and nothing else. -/
def privmsgLink : ParseSt :=
  { oneLink [0x65, 0x6d, 0x67] with
    commands := ((CommandSt.cleared fun _ => ⟨privmsg, 0, 0⟩).modAddCmd .bump 0).toOption.getD
      (.cleared fun _ => ⟨[], 0, 0⟩)
    parameters := fun _ => maxPara
    tok1Cmd := tok1Word
    tok1Msg := fun c => if c = 0x50 then some 0 else none }

/-- `a`, fifteen times. -/
def longBody : List UInt8 := (List.replicate 15 [0x61, 0x20]).flatten

end TrIrcd
