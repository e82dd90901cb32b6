import Mathlib.Data.List.Perm.Basic
import TrIrcd.Lib.Words
import TrIrcd.Src.Chanmodes

/-!
# The status of the members in mode lines

`send_mode_burst` adds the letters of a member as long as there is room for its
name (`foldl_room`), and where there is none left after them it sends the line
and adds all letters of the member again. So the letters of a member come out
once if there was room for all of them and one more, or for none; in between
they are doubled, unless the line was full at that very moment, and then what
had no room is lost and the line is sent without its NUL.

What is sent and held back grows by the same pairs whatever the lines are
(`burstMember_holds`), which makes the condition on every member exact
(`sendModeBurst_exact_iff`).
-/

namespace TrIrcd

open TrIrcd.Lib

/-- The words of `parabuf2`. -/
abbrev burstWords (s : List UInt8) : List (List UInt8) := words (fun c => c = 0x20) s

theorem word_noSpace {name : List UInt8} (h : ∀ c ∈ name, c ≠ 0x20) :
    ∀ c ∈ name, decide (c = 0x20) = false := fun c hc => decide_eq_false (h c hc)

/-- The letters of the flags that are set. -/
def statusLetters (flags : Nat) : List UInt8 :=
  statusModes.filterMap fun mode => if flags &&& mode.1 ≠ 0 then some mode.2 else none

/-- The letters of a member, each with its name. -/
def StatusMember.pairs (cm : StatusMember) : List (UInt8 × List UInt8) :=
  (statusLetters cm.flags).map fun letter => (letter, cm.name)

/-- In every line there are as many letters as parameters, and all lines
together are the pairs of the members. -/
structure BurstExact (members : List StatusMember) (lines : List ModeLine) : Prop where
  even : ∀ line ∈ lines, line.mbuf.tail.length = (burstWords line.pbuf).length
  pairs : (lines.flatMap fun line => line.mbuf.tail.zip (burstWords line.pbuf)).Perm
    (members.flatMap StatusMember.pairs)

/-! ## What is held back -/

/-- The buffers hold these pairs. -/
structure StatusBuf.Holds (b : StatusBuf) (ps : List (UInt8 × List UInt8)) : Prop where
  letters : b.letters = ps.map Prod.fst
  names : burstWords b.parabuf2 = ps.map Prod.snd
  nil_iff : b.parabuf2 = [] ↔ ps = []

/-- The tests for the flags leave the letters. -/
theorem foldl_statusModes {β : Type} (flags : Nat) (f : β → UInt8 → β) (b : β) :
    statusModes.foldl (fun b mode => if flags &&& mode.1 ≠ 0 then f b mode.2 else b) b =
      (statusLetters flags).foldl f b := by
  rw [statusLetters, List.foldl_filterMap]
  congr 1
  funext b mode
  split
  · rfl
  · rfl

namespace StatusBuf

variable {b : StatusBuf} {name : List UInt8} {letter : UInt8} {ps : List (UInt8 × List UInt8)}

theorem Holds.add (h : b.Holds ps) (hne : name ≠ []) (hword : ∀ c ∈ name, c ≠ 0x20) :
    (b.add name letter).Holds (ps ++ [(letter, name)]) := by
  have hname := word_noSpace hword
  refine ⟨?_, ?_, ?_⟩
  · rw [StatusBuf.add, putLetter, h.letters, List.map_append]
    rfl
  · rw [StatusBuf.add, List.map_append]
    by_cases hnil : b.parabuf2 = []
    · simp only [hnil, ne_eq, not_true_eq_false, if_false, List.nil_append]
      rw [burstWords, words_of_text hne hname, h.nil_iff.mp hnil]
      rfl
    · simp only [if_pos hnil, List.append_assoc]
      rw [List.singleton_append, burstWords, words_append_word _ (by decide) hne hname, ← h.names]
      rfl
  · refine iff_of_false ?_ (by simp)
    simp [StatusBuf.add, hne]

/-- A name is added behind a space, or as the first one. -/
structure Spaced (b : StatusBuf) : Prop where
  last : b.parabuf2 = [] ∨ ∃ text, b.parabuf2 = text ++ [0x20]

theorem Holds.addAgain (h : b.Holds ps) (hb : b.Spaced) (hne : name ≠ [])
    (hword : ∀ c ∈ name, c ≠ 0x20) :
    (b.addAgain name letter).Holds (ps ++ [(letter, name)]) ∧
      (b.addAgain name letter).Spaced := by
  have hname := word_noSpace hword
  refine ⟨⟨?_, ?_, iff_of_false ?_ (by simp)⟩, ⟨.inr ⟨b.parabuf2 ++ name, rfl⟩⟩⟩
  · rw [StatusBuf.addAgain, putLetter, h.letters, List.map_append]
    rfl
  · rw [StatusBuf.addAgain, List.map_append, ← h.names]
    simp only
    rw [burstWords, words_append_sep _ (by decide)]
    rcases hb.last with hnil | ⟨text, htext⟩
    · rw [hnil, List.nil_append, words_of_text hne hname, burstWords, words_nil]
      rfl
    · rw [htext, List.append_assoc, List.singleton_append,
        words_append_word _ (by decide) hne hname, burstWords, words_append_sep _ (by decide)]
      rfl
  · simp [StatusBuf.addAgain]

theorem Holds.terminate (h : b.Holds ps) : b.terminate.Holds ps := ⟨h.letters, h.names, h.nil_iff⟩

/-! ## As long as there is room -/

/-- Letters that are added without a test. -/
def addAll (name letters : List UInt8) (b : StatusBuf) : StatusBuf :=
  letters.foldl (fun b letter => b.add name letter) b

/-- How many of the letters there is room for. -/
def fitted (name : List UInt8) : List UInt8 → StatusBuf → Nat
  | [], _ => 0
  | letter :: letters, b =>
      if b.room name then fitted name letters (b.add name letter) + 1 else 0

theorem fitted_le (name letters : List UInt8) (b : StatusBuf) :
    fitted name letters b ≤ letters.length := by
  induction letters generalizing b with
  | nil => exact Nat.le_refl 0
  | cons letter letters ih =>
      rw [fitted, List.length_cons]
      split
      · exact Nat.succ_le_succ (ih _)
      · exact Nat.zero_le _

/-- The letters are added up to the first that there is no room for. -/
theorem foldl_room (name letters : List UInt8) (b : StatusBuf) :
    letters.foldl (fun b letter => if b.room name then b.add name letter else b) b =
      addAll name (letters.take (fitted name letters b)) b := by
  induction letters generalizing b with
  | nil => rfl
  | cons letter letters ih =>
      rw [List.foldl_cons, fitted]
      split
      · exact ih _
      · next hfull =>
          rw [List.take_zero]
          have hstay : ∀ letters : List UInt8, letters.foldl
              (fun b letter => if b.room name then b.add name letter else b) b = b := by
            intro letters
            induction letters with
            | nil => rfl
            | cons letter letters ih => rw [List.foldl_cons, if_neg hfull, ih]
          exact hstay letters

/-- The length of `parabuf2`, once `k` names of length `l` are added to one of
length `p`. -/
def lengthWith (p l k : Nat) : Nat :=
  if k = 0 then p else (if p = 0 then 0 else p + 1) + k * (l + 1) - 1

theorem lengthWith_mono {p l i k : Nat} (h : i ≤ k) : lengthWith p l i ≤ lengthWith p l k := by
  have hmul : i * (l + 1) ≤ k * (l + 1) := Nat.mul_le_mul_right _ h
  by_cases hk : k = 0
  · have hi : i = 0 := by omega
    rw [hk, hi]
  · have hpos : 1 * (l + 1) ≤ k * (l + 1) := Nat.mul_le_mul_right _ (by omega)
    have hbase : p ≤ if p = 0 then 0 else p + 1 := by split <;> omega
    rw [lengthWith, lengthWith, if_neg hk]
    by_cases hi : i = 0
    · rw [if_pos hi]
      omega
    · rw [if_neg hi]
      omega

theorem addAll_length (name : List UInt8) (hne : name ≠ []) (letters : List UInt8) :
    ∀ b : StatusBuf, (addAll name letters b).parabuf2.length =
      lengthWith b.parabuf2.length name.length letters.length := by
  have hpos := List.length_pos_of_ne_nil hne
  induction letters with
  | nil => exact fun b => rfl
  | cons letter letters ih =>
      intro b
      have hstep : (b.add name letter).parabuf2.length =
          (if b.parabuf2.length = 0 then 0 else b.parabuf2.length + 1) + name.length := by
        rw [StatusBuf.add]
        by_cases hnil : b.parabuf2 = []
        · simp [hnil]
        · simp only [ne_eq, hnil, not_false_eq_true, if_true, List.length_append,
            List.length_singleton, List.length_eq_zero_iff, if_false]
      have hrest := ih (b.add name letter)
      have hmul : (letters.length + 1) * (name.length + 1) =
          letters.length * (name.length + 1) + (name.length + 1) := Nat.succ_mul ..
      rw [addAll, List.foldl_cons]
      refine hrest.trans ?_
      rw [hstep, List.length_cons, lengthWith, lengthWith, if_neg (Nat.succ_ne_zero _), hmul]
      by_cases hlast : letters.length = 0
      · rw [if_pos hlast, hlast]
        omega
      · rw [if_neg hlast, if_neg (by omega)]
        omega

theorem addAll_holds (hne : name ≠ []) (hword : ∀ c ∈ name, c ≠ 0x20) (letters : List UInt8) :
    ∀ {b : StatusBuf} {ps : List (UInt8 × List UInt8)}, b.Holds ps →
      (addAll name letters b).Holds (ps ++ letters.map fun letter => (letter, name)) := by
  induction letters with
  | nil => exact fun h => by simpa [addAll] using h
  | cons letter letters ih =>
      intro b ps h
      have hrest := ih (@Holds.add b name letter ps h hne hword)
      rwa [List.append_assoc] at hrest

theorem addAll_rest (name letters : List UInt8) :
    ∀ b : StatusBuf, (addAll name letters b).behind = b.behind.drop letters.length ∧
      (addAll name letters b).count = b.count + letters.length := by
  induction letters with
  | nil => exact fun b => ⟨rfl, rfl⟩
  | cons letter letters ih =>
      intro b
      obtain ⟨hbehind, hcount⟩ := ih (b.add name letter)
      refine ⟨hbehind.trans ?_, hcount.trans ?_⟩
      · rw [List.length_cons, Nat.add_comm, ← List.drop_drop, List.drop_one]
        rfl
      · rw [List.length_cons, Nat.add_comm letters.length 1, ← Nat.add_assoc]
        rfl

theorem foldl_addAgain_holds (hne : name ≠ []) (hword : ∀ c ∈ name, c ≠ 0x20)
    (letters : List UInt8) :
    ∀ {b : StatusBuf} {ps : List (UInt8 × List UInt8)}, b.Holds ps → b.Spaced →
      (letters.foldl (fun b letter => b.addAgain name letter) b).Holds
        (ps ++ letters.map fun letter => (letter, name)) := by
  induction letters with
  | nil => exact fun h _ => by simpa using h
  | cons letter letters ih =>
      intro b ps h hb
      obtain ⟨hone, hspaced⟩ := @Holds.addAgain b name letter ps h hb hne hword
      have hrest := ih hone hspaced
      rwa [List.append_assoc] at hrest

end StatusBuf

/-! ## One member -/

open StatusBuf

section

variable {change : UInt8} {cm : StatusMember} {b : StatusBuf} {ps : List (UInt8 × List UInt8)}

/-- The buffers once the letters that there is room for are added. -/
def filled (cm : StatusMember) (b : StatusBuf) : StatusBuf :=
  addAll cm.name ((statusLetters cm.flags).take (fitted cm.name (statusLetters cm.flags) b)) b

/-- The line is sent for want of room, and the letters are added again. -/
def Repeats (cm : StatusMember) (b : StatusBuf) : Prop :=
  (filled cm b).room cm.name = false ∧ (filled cm b).count ≠ maxModeParams

instance : Decidable (Repeats cm b) := inferInstanceAs (Decidable (_ ∧ _))

/-- The letters that come out for a member, in two batches. -/
def outcome (cm : StatusMember) (b : StatusBuf) : List (UInt8 × List UInt8) :=
  (((statusLetters cm.flags).take (fitted cm.name (statusLetters cm.flags) b)) ++
    if Repeats cm b then statusLetters cm.flags else []).map fun letter => (letter, cm.name)

/-- The line that is sent ends with its last letter. -/
def Clean (cm : StatusMember) (b : StatusBuf) : Prop :=
  (filled cm b).room cm.name = true ∨ cstr (filled cm b).behind = []

/-- As many letters as parameters. -/
def Even (line : ModeLine) : Prop := line.mbuf.tail.length = (burstWords line.pbuf).length

/-- The letters of a line with their parameters. -/
def linePairs (line : ModeLine) : List (UInt8 × List UInt8) :=
  line.mbuf.tail.zip (burstWords line.pbuf)

/-- A line is the pairs that are held, unless something stands behind them. -/
theorem StatusBuf.Holds.line (h : b.Holds ps) (change : UInt8) :
    (Even (b.line change) ↔ cstr b.behind = []) ∧
      (Even (b.line change) → linePairs (b.line change) = ps) := by
  have heven : Even (b.line change) ↔ cstr b.behind = [] := by
    rw [Even, StatusBuf.line, List.tail_cons, h.letters, h.names, List.length_append,
      List.length_map, List.length_map, ← List.length_eq_zero_iff]
    omega
  refine ⟨heven, fun hline => ?_⟩
  rw [linePairs, StatusBuf.line, List.tail_cons, heven.mp hline, h.letters, h.names,
    List.append_nil, List.zip_map']
  simp

theorem cstr_terminate (b : StatusBuf) : cstr b.terminate.behind = [] := by
  simp [terminate, cstr]

theorem filled_holds (h : b.Holds ps) :
    (filled cm b).Holds (ps ++ ((statusLetters cm.flags).take
      (fitted cm.name (statusLetters cm.flags) b)).map fun letter => (letter, cm.name)) :=
  addAll_holds cm.name_ne cm.name_word _ h

theorem restart_holds (b : StatusBuf) : b.restart.Holds [] := ⟨rfl, words_nil, iff_of_true rfl rfl⟩

theorem foldl_filled (cm : StatusMember) (b : StatusBuf) :
    statusModes.foldl (fun b mode =>
      if b.room cm.name then if cm.flags &&& mode.1 ≠ 0 then b.add cm.name mode.2 else b else b)
      b = filled cm b := by
  have hswap : (fun (b : StatusBuf) (mode : Nat × UInt8) =>
      if b.room cm.name then if cm.flags &&& mode.1 ≠ 0 then b.add cm.name mode.2 else b else b) =
      fun b mode => if cm.flags &&& mode.1 ≠ 0 then
        (fun b letter => if b.room cm.name then b.add cm.name letter else b) b mode.2 else b := by
    funext b mode
    split
    · next hroom => simp only [hroom, if_true]
    · next hroom => simp only [hroom, Bool.false_eq_true, if_false, ite_self]
  rw [hswap]
  exact (foldl_statusModes cm.flags
    (fun b letter => if b.room cm.name then b.add cm.name letter else b) b).trans
      (foldl_room cm.name _ b)

/-- Where there is no room for a name, there is another before it. -/
theorem parabuf2_ne_nil (h : b.room cm.name = false) : b.parabuf2 ≠ [] := by
  intro hnil
  have hfull := of_decide_eq_false h
  have hname := cm.name_length
  rw [hnil, List.length_nil] at hfull
  simp only [modeBufLen, nickLen] at hfull hname
  omega

/-- The letters of a member, in the buffers after a line. -/
theorem again_holds (cm : StatusMember) (b : StatusBuf) :
    ((statusLetters cm.flags).foldl (fun b letter => b.addAgain cm.name letter) b.restart).Holds
      cm.pairs := by
  have hagain := foldl_addAgain_holds cm.name_ne cm.name_word (statusLetters cm.flags)
    (restart_holds b) ⟨.inl rfl⟩
  rwa [List.nil_append] at hagain

/-! What a member does, by the room that is left and the number of parameters. -/

theorem burstMember_keep (hroom : (filled cm b).room cm.name = true)
    (hfull : (filled cm b).count ≠ maxModeParams) :
    burstMember change cm b = ((filled cm b).terminate, []) := by
  have hcount : (filled cm b).terminate.count ≠ maxModeParams := hfull
  rw [burstMember]
  simp only [foldl_filled, hroom, not_true_eq_false, false_and, false_or, if_true, if_neg hcount]

theorem burstMember_full (hroom : (filled cm b).room cm.name = true)
    (hfull : (filled cm b).count = maxModeParams) :
    burstMember change cm b = (({ (filled cm b).terminate.restart with count := 0 } :
      StatusBuf).terminate, [(filled cm b).terminate.line change]) := by
  have hcount : (filled cm b).terminate.count = maxModeParams := hfull
  rw [burstMember]
  simp only [foldl_filled, hroom, not_true_eq_false, false_and, false_or, if_true, if_pos hcount,
    if_neg (not_not.mpr hcount)]

theorem burstMember_cut (hroom : (filled cm b).room cm.name = false)
    (hfull : (filled cm b).count = maxModeParams) :
    burstMember change cm b =
      (({ (filled cm b).restart with count := 0 } : StatusBuf).terminate,
        [(filled cm b).line change]) := by
  rw [burstMember]
  simp only [foldl_filled, hroom, Bool.false_eq_true, if_false, if_pos (Or.inr hfull),
    if_neg (not_not.mpr hfull)]

theorem burstMember_again (hroom : (filled cm b).room cm.name = false)
    (hfull : (filled cm b).count ≠ maxModeParams) :
    burstMember change cm b =
      (((statusLetters cm.flags).foldl (fun b letter => b.addAgain cm.name letter)
        (filled cm b).restart).terminate, [(filled cm b).line change]) := by
  have hagain := foldl_statusModes cm.flags
    (fun b letter => StatusBuf.addAgain cm.name letter b) (filled cm b).restart
  have hsend : ¬(false = true) ∧ (filled cm b).parabuf2 ≠ [] :=
    ⟨Bool.false_ne_true, parabuf2_ne_nil hroom⟩
  rw [burstMember]
  simp only [foldl_filled, hroom, if_neg Bool.false_ne_true, if_pos (Or.inl hsend), if_pos hfull]
  rw [hagain]

/-- What a member does to what is held back and sent. -/
theorem burstMember_holds (change : UInt8) (cm : StatusMember) (h : b.Holds ps) :
    ∃ ps', (burstMember change cm b).1.Holds ps' ∧
      cstr (burstMember change cm b).1.behind = [] ∧
      ((∀ line ∈ (burstMember change cm b).2, Even line) ↔ Clean cm b) ∧
      ((∀ line ∈ (burstMember change cm b).2, Even line) →
        (burstMember change cm b).2.flatMap linePairs ++ ps' = ps ++ outcome cm b) := by
  have hfilled := @filled_holds cm b ps h
  have hempty : ∀ b : StatusBuf, ({ b.restart with count := 0 } : StatusBuf).terminate.Holds [] :=
    fun b => ⟨rfl, words_nil, iff_of_true rfl rfl⟩
  rw [outcome, Clean]
  cases hroom : (filled cm b).room cm.name with
  | true =>
      have hnot : ¬Repeats cm b := fun hr => Bool.noConfusion (hroom.symm.trans hr.1)
      rw [if_neg hnot, List.append_nil]
      by_cases hfull : (filled cm b).count = maxModeParams
      · rw [burstMember_full hroom hfull]
        have hline := hfilled.terminate.line change
        have heven := hline.1.mpr (cstr_terminate _)
        refine ⟨[], hempty _, cstr_terminate _, ?_, fun _ => ?_⟩
        · exact iff_of_true (List.forall_mem_singleton.mpr heven) (.inl rfl)
        · rw [List.flatMap_singleton, hline.2 heven, List.append_nil]
      · rw [burstMember_keep hroom hfull]
        exact ⟨_, hfilled.terminate, cstr_terminate _, iff_of_true (by simp) (.inl rfl),
          fun _ => rfl⟩
  | false =>
      have hline := hfilled.line change
      have hiff : (∀ line ∈ [(filled cm b).line change], Even line) ↔
          false = true ∨ cstr (filled cm b).behind = [] := by
        rw [List.forall_mem_singleton, hline.1]
        simp
      by_cases hfull : (filled cm b).count = maxModeParams
      · have hnot : ¬Repeats cm b := fun hr => hr.2 hfull
        rw [burstMember_cut hroom hfull, if_neg hnot, List.append_nil]
        refine ⟨[], hempty _, cstr_terminate _, hiff, fun heven => ?_⟩
        rw [List.flatMap_singleton, hline.2 (List.forall_mem_singleton.mp heven), List.append_nil]
      · rw [burstMember_again hroom hfull, if_pos ⟨hroom, hfull⟩]
        refine ⟨cm.pairs, (again_holds cm _).terminate, cstr_terminate _, hiff, fun heven => ?_⟩
        rw [List.flatMap_singleton, hline.2 (List.forall_mem_singleton.mp heven), List.map_append,
          List.append_assoc]
        rfl

/-! ## The condition on a member -/

/-- The member's letters come out once, and in a line of their own length: it
has no status, there is room for all its letters and another one, there is no
room for the first and the line is sent for that, or the last of them fills the
line and a NUL stands behind it. -/
def MemberFits (cm : StatusMember) (b : StatusBuf) : Prop :=
  let k := (statusLetters cm.flags).length
  let room i :=
    lengthWith b.parabuf2.length cm.name.length i + cm.name.length + 10 < modeBufLen
  k = 0 ∨ room k ∨ (¬room 0 ∧ b.count ≠ maxModeParams) ∨
    (room (k - 1) ∧ b.count + k = maxModeParams ∧ cstr (b.behind.drop k) = [])

/-- Room for `i` letters is room for one more than are there. -/
theorem room_addAll (cm : StatusMember) (letters : List UInt8) (b : StatusBuf) :
    (addAll cm.name letters b).room cm.name = true ↔
      lengthWith b.parabuf2.length cm.name.length letters.length + cm.name.length + 10 <
        modeBufLen := by
  rw [room, decide_eq_true_iff, addAll_length _ cm.name_ne]

theorem fitted_room (name letters : List UInt8) :
    ∀ (b : StatusBuf) (i : Nat), i < fitted name letters b →
      (addAll name (letters.take i) b).room name = true := by
  induction letters with
  | nil => exact fun b i hi => absurd hi (Nat.not_lt_zero i)
  | cons letter letters ih =>
      intro b i hi
      rw [fitted] at hi
      split at hi
      · next hroom =>
          cases i with
          | zero => exact hroom
          | succ i => exact ih _ i (Nat.lt_of_succ_lt_succ hi)
      · exact absurd hi (Nat.not_lt_zero i)

theorem fitted_full (name letters : List UInt8) :
    ∀ b : StatusBuf, fitted name letters b < letters.length →
      (addAll name (letters.take (fitted name letters b)) b).room name = false := by
  induction letters with
  | nil => exact fun b hlt => absurd hlt (Nat.not_lt_zero _)
  | cons letter letters ih =>
      intro b hlt
      rw [fitted] at hlt ⊢
      split
      · next hroom =>
          rw [if_pos hroom] at hlt
          exact ih _ (Nat.lt_of_succ_lt_succ hlt)
      · next hroom => exact Bool.eq_false_iff.mpr hroom

/-- The member's pairs, no more and no fewer. -/
theorem outcome_perm_iff (cm : StatusMember) (b : StatusBuf) :
    (outcome cm b).Perm cm.pairs ↔
      if Repeats cm b then fitted cm.name (statusLetters cm.flags) b = 0
      else fitted cm.name (statusLetters cm.flags) b = (statusLetters cm.flags).length := by
  have hle := fitted_le cm.name (statusLetters cm.flags) b
  rw [outcome, StatusMember.pairs]
  generalize fitted cm.name (statusLetters cm.flags) b = j at *
  split
  · constructor
    · intro hperm
      have hlen := hperm.length_eq
      simp only [List.length_map, List.length_append, List.length_take] at hlen
      omega
    · intro hj
      rw [hj, List.take_zero, List.nil_append]
  · rw [List.append_nil]
    constructor
    · intro hperm
      have hlen := hperm.length_eq
      simp only [List.length_map, List.length_take] at hlen
      omega
    · intro hj
      rw [hj, List.take_length]

/-- The condition, by the number `j` of the `k` letters that there is room
for. -/
theorem fits_iff {room ends : Nat → Prop} {count full j k : Nat}
    (hmono : ∀ {i k}, i ≤ k → room k → room i) (hle : j ≤ k) (hroom : ∀ i < j, room i)
    (hfull : j < k → ¬room j) (hends : ends 0) :
    ((¬room j ∧ count + j ≠ full → j = 0) ∧ (¬(¬room j ∧ count + j ≠ full) → j = k)) ∧
        (room j ∨ ends j) ↔
      k = 0 ∨ room k ∨ (¬room 0 ∧ count ≠ full) ∨
        (room (k - 1) ∧ count + k = full ∧ ends k) := by
  constructor
  · rintro ⟨⟨hnone, hall⟩, hclean⟩
    by_cases hj : room j
    · have hjk : j = k := hall fun h => h.1 hj
      exact .inr (.inl (hjk ▸ hj))
    · by_cases hcount : count + j = full
      · have hjk : j = k := hall fun h => h.2 hcount
        by_cases hk : k = 0
        · exact .inl hk
        · refine .inr (.inr (.inr ⟨hroom (k - 1) (by omega), hjk ▸ hcount, ?_⟩))
          exact hjk ▸ hclean.resolve_left hj
      · have hj0 : j = 0 := hnone ⟨hj, hcount⟩
        exact .inr (.inr (.inl ⟨hj0 ▸ hj, by omega⟩))
  · rintro (hk | hk | ⟨hnone, hcount⟩ | ⟨hlast, hcount, hend⟩)
    · have hj : j = 0 := by omega
      exact ⟨⟨fun _ => hj, fun _ => hj.trans hk.symm⟩, .inr (hj ▸ hends)⟩
    · have hjk : j = k := by
        by_contra hne
        exact hfull (by omega) (hmono hle hk)
      have hj : room j := hjk ▸ hk
      exact ⟨⟨fun h => absurd hj h.1, fun _ => hjk⟩, .inl hj⟩
    · have hj : j = 0 := by
        by_contra hne
        exact hnone (hroom 0 (by omega))
      refine ⟨⟨fun _ => hj, fun h => absurd ⟨hj ▸ hnone, by omega⟩ h⟩, .inr (hj ▸ hends)⟩
    · have hjk : j = k := by
        by_contra hne
        exact hfull (by omega) (hmono (by omega) hlast)
      exact ⟨⟨fun h => absurd (hjk ▸ hcount) h.2, fun _ => hjk⟩, .inr (hjk ▸ hend)⟩

theorem memberFits_iff (cm : StatusMember) (b : StatusBuf) (hterm : cstr b.behind = []) :
    (outcome cm b).Perm cm.pairs ∧ Clean cm b ↔ MemberFits cm b := by
  have hle := fitted_le cm.name (statusLetters cm.flags) b
  have hroom := fitted_room cm.name (statusLetters cm.flags) b
  have hfull := fitted_full cm.name (statusLetters cm.flags) b
  obtain ⟨hbehind, hcount⟩ := addAll_rest cm.name ((statusLetters cm.flags).take
    (fitted cm.name (statusLetters cm.flags) b)) b
  have hfilled := room_addAll cm ((statusLetters cm.flags).take
    (fitted cm.name (statusLetters cm.flags) b)) b
  have hlen : ((statusLetters cm.flags).take (fitted cm.name (statusLetters cm.flags) b)).length =
      fitted cm.name (statusLetters cm.flags) b := by
    rw [List.length_take, min_eq_left hle]
  rw [hlen] at hbehind hcount hfilled
  have hrepeats : Repeats cm b ↔ ¬(lengthWith b.parabuf2.length cm.name.length
      (fitted cm.name (statusLetters cm.flags) b) + cm.name.length + 10 < modeBufLen) ∧
        b.count + fitted cm.name (statusLetters cm.flags) b ≠ maxModeParams := by
    rw [Repeats, filled, hcount, ← Bool.not_eq_true, hfilled]
  have hclean : Clean cm b ↔ lengthWith b.parabuf2.length cm.name.length
      (fitted cm.name (statusLetters cm.flags) b) + cm.name.length + 10 < modeBufLen ∨
        cstr (b.behind.drop (fitted cm.name (statusLetters cm.flags) b)) = [] := by
    rw [Clean, filled, hbehind, hfilled]
  rw [outcome_perm_iff, hclean, ite_prop_iff_and, hrepeats, MemberFits]
  refine @fits_iff
    (fun i => lengthWith b.parabuf2.length cm.name.length i + cm.name.length + 10 < modeBufLen)
    (fun i => cstr (b.behind.drop i) = []) _ _ _ _ ?_ hle ?_ ?_ hterm
  · intro i k hik hk
    have := @lengthWith_mono b.parabuf2.length cm.name.length i k hik
    omega
  · intro i hi
    have htake := (room_addAll cm _ b).mp (hroom i hi)
    rwa [List.length_take, min_eq_left (by omega)] at htake
  · intro hlt hone
    rw [← hfilled] at hone
    exact Bool.noConfusion (hone.symm.trans (hfull hlt))

/-! ## All members -/

/-- Every member meets the condition in the buffers that the members before it
leave. -/
def MembersFit (change : UInt8) : List StatusMember → StatusBuf → Prop
  | [], _ => True
  | cm :: members, b =>
      MemberFits cm b ∧ MembersFit change members (burstMember change cm b).1

/-- Lists that agree on where a property holds can be compared on either side
of it. -/
theorem perm_append_iff {α : Type} {p : α → Bool} {xs ys us vs : List α}
    (hx : ∀ x ∈ xs, p x = true) (hy : ∀ y ∈ ys, p y = true) (hu : ∀ u ∈ us, p u = false)
    (hv : ∀ v ∈ vs, p v = false) : (xs ++ us).Perm (ys ++ vs) ↔ xs.Perm ys ∧ us.Perm vs := by
  refine ⟨fun h => ?_, fun h => h.1.append h.2⟩
  have hxs : (xs ++ us).filter p = xs := by
    rw [List.filter_append, List.filter_eq_self.mpr hx,
      List.filter_eq_nil_iff.mpr fun u hm => by simp [hu u hm], List.append_nil]
  have hys : (ys ++ vs).filter p = ys := by
    rw [List.filter_append, List.filter_eq_self.mpr hy,
      List.filter_eq_nil_iff.mpr fun v hm => by simp [hv v hm], List.append_nil]
  have hleft : xs.Perm ys := by
    have hfilter := h.filter p
    rwa [hxs, hys] at hfilter
  exact ⟨hleft, (List.perm_append_left_iff ys).mp ((hleft.symm.append_right us).trans h)⟩

theorem names_of_outcome {t : UInt8 × List UInt8} (ht : t ∈ outcome cm b) : t.2 = cm.name := by
  obtain ⟨letter, -, rfl⟩ := List.mem_map.mp ht
  rfl

theorem names_of_pairs {t : UInt8 × List UInt8} (ht : t ∈ cm.pairs) : t.2 = cm.name := by
  obtain ⟨letter, -, rfl⟩ := List.mem_map.mp ht
  rfl

/-- What the loop sends and holds back is what comes out for the members, which
is right exactly if each of them meets the condition. -/
theorem burstLoop_exact (change : UInt8) (members : List StatusMember) :
    ∀ {b : StatusBuf} {ps : List (UInt8 × List UInt8)}, b.Holds ps → cstr b.behind = [] →
      (members.map StatusMember.name).Nodup →
      ∃ (ps' out : List (UInt8 × List UInt8)), (burstLoop change members b).1.Holds ps' ∧
        cstr (burstLoop change members b).1.behind = [] ∧
        (∀ t ∈ out, ∃ cm ∈ members, t.2 = cm.name) ∧
        ((∀ line ∈ (burstLoop change members b).2, Even line) →
          (burstLoop change members b).2.flatMap linePairs ++ ps' = ps ++ out) ∧
        ((∀ line ∈ (burstLoop change members b).2, Even line) ∧
            out.Perm (members.flatMap StatusMember.pairs) ↔ MembersFit change members b) := by
  induction members with
  | nil =>
      intro b ps h hterm _
      exact ⟨ps, [], h, hterm, by simp, fun _ => by simp [burstLoop],
        iff_of_true ⟨by simp [burstLoop], by simp⟩ trivial⟩
  | cons cm members ih =>
      intro b ps h hterm hnodup
      rw [List.map_cons, List.nodup_cons] at hnodup
      obtain ⟨held, hheld, hclosed, heven, hpairs⟩ := burstMember_holds change cm h
      obtain ⟨ps', out, h', hterm', hnames, hall, hiff⟩ := ih hheld hclosed hnodup.2
      have hloop : burstLoop change (cm :: members) b =
          ((burstLoop change members (burstMember change cm b).1).1,
            (burstMember change cm b).2 ++
              (burstLoop change members (burstMember change cm b).1).2) := rfl
      rw [hloop]
      generalize burstLoop change members (burstMember change cm b).1 = r at *
      refine ⟨ps', outcome cm b ++ out, h', hterm', ?_, ?_, ?_⟩
      · intro t ht
        rcases List.mem_append.mp ht with ht | ht
        · exact ⟨cm, List.mem_cons_self, names_of_outcome ht⟩
        · obtain ⟨cm', hcm', heq⟩ := hnames t ht
          exact ⟨cm', List.mem_cons_of_mem _ hcm', heq⟩
      · intro hlines
        rw [List.forall_mem_append] at hlines
        rw [List.flatMap_append, List.append_assoc, hall hlines.2, ← List.append_assoc,
          hpairs hlines.1, List.append_assoc]
      · have hother : ∀ t : UInt8 × List UInt8, (∃ cm' ∈ members, t.2 = cm'.name) →
            decide (t.2 = cm.name) = false := by
          rintro t ⟨cm', hcm', heq⟩
          refine decide_eq_false fun hsame => hnodup.1 ?_
          exact List.mem_map.mpr ⟨cm', hcm', heq.symm.trans hsame⟩
        have hsplit := @perm_append_iff _ (fun t : UInt8 × List UInt8 => decide (t.2 = cm.name))
          (outcome cm b) cm.pairs out (members.flatMap StatusMember.pairs)
          (fun t ht => decide_eq_true (names_of_outcome ht))
          (fun t ht => decide_eq_true (names_of_pairs ht)) (fun t ht => hother t (hnames t ht))
          (fun t ht => by
            obtain ⟨cm', hcm', ht'⟩ := List.mem_flatMap.mp ht
            exact hother t ⟨cm', hcm', names_of_pairs ht'⟩)
        rw [List.forall_mem_append, heven, List.flatMap_cons, hsplit, MembersFit, ← hiff,
          ← memberFits_iff cm b hterm]
        exact and_and_and_comm.trans (and_congr_left' and_comm)

end

/-- The lines are exact for members with different names if and only if every
member meets the condition. -/
theorem sendModeBurst_exact_iff (modebuf2 : List UInt8) (change : UInt8)
    (members : List StatusMember) (hnodup : (members.map StatusMember.name).Nodup) :
    BurstExact members (sendModeBurst modebuf2 change members) ↔
      MembersFit change members ⟨[], 0 :: modebuf2.tail, [], 0⟩ := by
  have hstart : (⟨[], 0 :: modebuf2.tail, [], 0⟩ : StatusBuf).Holds [] :=
    ⟨rfl, words_nil, iff_of_true rfl rfl⟩
  obtain ⟨held, out, hheld, hterm, -, hall, hiff⟩ :=
    burstLoop_exact change members hstart (by simp [cstr]) hnodup
  rw [← hiff, sendModeBurst]
  simp only
  generalize burstLoop change members ⟨[], 0 :: modebuf2.tail, [], 0⟩ = r at *
  have hline := hheld.line change
  have heven := hline.1.mpr hterm
  -- The last line, if there is one, is what is still held.
  have hlast : ∀ lines, lines = (if r.1.parabuf2 ≠ [] then r.2 ++ [r.1.line change] else r.2) →
      ((∀ line ∈ lines, Even line) ↔ ∀ line ∈ r.2, Even line) ∧
        lines.flatMap linePairs = r.2.flatMap linePairs ++ held := by
    rintro lines rfl
    split
    · rw [List.forall_mem_append, List.forall_mem_singleton, and_iff_left heven,
        List.flatMap_append, List.flatMap_singleton, hline.2 heven]
      exact ⟨Iff.rfl, rfl⟩
    · next hnil =>
        rw [hheld.nil_iff.mp (not_not.mp hnil), List.append_nil]
        exact ⟨Iff.rfl, rfl⟩
  obtain ⟨hsame, hpairs⟩ := hlast _ rfl
  constructor
  · rintro ⟨hlines, hperm⟩
    have hlines := hsame.mp hlines
    refine ⟨hlines, ?_⟩
    have hflat := hpairs.trans (hall hlines)
    rw [List.nil_append] at hflat
    rw [← hflat]
    exact hperm
  · rintro ⟨hlines, hperm⟩
    refine ⟨hsame.mpr hlines, ?_⟩
    have hflat := hpairs.trans (hall hlines)
    rw [List.nil_append] at hflat
    rw [← hflat] at hperm
    exact hperm

/-- A member with a name of `length` letters `a`, and one behind them. -/
def opOf (length : Nat) (h : length + 1 ≤ nickLen) (last : UInt8) (hlast : last ≠ 0x20)
    (flags : Nat) : StatusMember where
  name := List.replicate length 0x61 ++ [last]
  flags := flags
  name_ne := by simp
  name_word c hc := by
    rcases List.mem_append.mp hc with hc | hc
    · rw [List.eq_of_mem_replicate hc]
      decide
    · rw [List.mem_singleton.mp hc]
      exact hlast
  name_length := by simpa using h

/-- Three operators with short names, one of whom is the owner. -/
def shortOps : List StatusMember :=
  [opOf 2 (by decide) 0x62 (by decide) 0x9, opOf 2 (by decide) 0x63 (by decide) 0x1,
    opOf 2 (by decide) 0x64 (by decide) 0x2]

theorem sendModeBurst_shortOps : BurstExact shortOps (sendModeBurst [] 0x2b shortOps) := by
  refine (sendModeBurst_exact_iff [] 0x2b shortOps (by decide)).mpr
    ⟨.inr (.inl ?_), .inr (.inl ?_), .inr (.inl ?_), trivial⟩
  · decide +kernel
  · decide +kernel
  · decide +kernel

/-- Six operators with names of thirty letters. -/
def longOps : List StatusMember :=
  [opOf 29 (by decide) 0x62 (by decide) 0x1, opOf 29 (by decide) 0x63 (by decide) 0x1,
    opOf 29 (by decide) 0x64 (by decide) 0x1, opOf 29 (by decide) 0x65 (by decide) 0x1,
    opOf 29 (by decide) 0x66 (by decide) 0x1, opOf 29 (by decide) 0x67 (by decide) 0x1]

/-- The last of them is named at the end of the first line and in the second. -/
theorem sendModeBurst_doubled :
    (sendModeBurst [] 0x2b longOps).map ModeLine.mbuf =
        [[0x2b, 0x6f, 0x6f, 0x6f, 0x6f, 0x6f, 0x6f], [0x2b, 0x6f]] ∧
      ¬BurstExact longOps (sendModeBurst [] 0x2b longOps) := by
  have hlines : (sendModeBurst [] 0x2b longOps).map ModeLine.mbuf =
      [[0x2b, 0x6f, 0x6f, 0x6f, 0x6f, 0x6f, 0x6f], [0x2b, 0x6f]] := by decide +kernel
  refine ⟨hlines, fun h => ?_⟩
  have hlen := h.pairs.length_eq
  exact absurd hlen (by decide +kernel)

end TrIrcd
