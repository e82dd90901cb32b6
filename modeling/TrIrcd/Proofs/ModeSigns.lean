import TrIrcd.Src.SetMode

/-!
# The signs in `mbuf`

`signedLetters` reads a mode string back: each letter with the sign it stands
under. `mbuf` is right if this is what the handlers were asked for
(`ModesRight`).

A sign that comes directly behind another is patched, so it is always the one
that was asked for last. Behind a letter a sign is only written if `adl` is the
other one. A letter that is listed sets `adl` back, and the sign behind it is
then never written, though the next letter may be asked for the other way.
So all goes well just when every two letters put into `mbuf` one after the
other are asked for the same way, or a sign between them was read while `adl`
was the other one (`SignsWritten`, `setMode_signs_iff`).
-/

namespace TrIrcd

/-! ## Reading a mode string -/

/-- The letters, each with the way the sign before it asks for it. -/
def signedLetters : Cmode → List UInt8 → List (Cmode × UInt8)
  | _, [] => []
  | sign, c :: text =>
      if c = 43 then signedLetters .add text
      else if c = 45 then signedLetters .del text
      else (sign, c) :: signedLetters sign text

/-- The sign that is in force at the end. -/
def lastSign : Cmode → List UInt8 → Cmode
  | sign, [] => sign
  | sign, c :: text =>
      lastSign (if c = 43 then .add else if c = 45 then .del else sign) text

def isSign (c : UInt8) : Bool := c = 43 || c = 45

theorem signedLetters_append (sign : Cmode) (text more : List UInt8) :
    signedLetters sign (text ++ more) =
      signedLetters sign text ++ signedLetters (lastSign sign text) more := by
  induction text generalizing sign with
  | nil => rfl
  | cons c text ih =>
      simp only [List.cons_append, signedLetters, lastSign]
      split
      · exact ih .add
      · split
        · exact ih .del
        · rw [ih sign, List.cons_append]

theorem lastSign_append (sign : Cmode) (text more : List UInt8) :
    lastSign sign (text ++ more) = lastSign (lastSign sign text) more := by
  induction text generalizing sign with
  | nil => rfl
  | cons c text ih => exact ih _

theorem signedLetters_eq_nil_iff {sign : Cmode} {text : List UInt8} :
    signedLetters sign text = [] ↔ ∀ c ∈ text, isSign c = true := by
  induction text generalizing sign with
  | nil => simp [signedLetters]
  | cons c text ih =>
      rw [signedLetters]
      split
      · next h => simp [ih, isSign, h]
      · split
        · next h => simp [ih, isSign, h]
        · next hplus hminus => simp [isSign, hplus, hminus]

/-- `'+'` and `'-'` -/
def signByte (add : Bool) : UInt8 := if add then 43 else 45

def signCmode (add : Bool) : Cmode := if add then .add else .del

section Concat

variable {sign : Cmode} {text : List UInt8}

theorem signedLetters_sign (add : Bool) :
    signedLetters sign (text ++ [signByte add]) = signedLetters sign text := by
  rw [signedLetters_append]
  cases add <;> exact List.append_nil _

theorem lastSign_sign (add : Bool) :
    lastSign sign (text ++ [signByte add]) = signCmode add := by
  rw [lastSign_append]
  cases add <;> rfl

theorem signedLetters_letter {c : UInt8} (hc : isSign c = false) :
    signedLetters sign (text ++ [c]) = signedLetters sign text ++ [(lastSign sign text, c)] := by
  have hne : c ≠ 43 ∧ c ≠ 45 := by simpa [isSign] using hc
  rw [signedLetters_append]
  show _ ++ (if c = 43 then [] else if c = 45 then [] else [(lastSign sign text, c)]) = _
  rw [if_neg hne.1, if_neg hne.2]

theorem lastSign_letter {c : UInt8} (hc : isSign c = false) :
    lastSign sign (text ++ [c]) = lastSign sign text := by
  have hne : c ≠ 43 ∧ c ≠ 45 := by simpa [isSign] using hc
  rw [lastSign_append]
  show (if c = 43 then .add else if c = 45 then .del else lastSign sign text) = _
  rw [if_neg hne.1, if_neg hne.2]

end Concat

/-! ## What happens to a mode string -/

/-- What a character of the mode string does. -/
inductive ModeEvent
  | sign (add : Bool)
  | listed
  | appended (adl : Cmode) (letter : UInt8)
deriving DecidableEq, Repr

section Events

variable {σ : Type} (modetab : UInt8 → ModeItem σ) (sptr : ModeSender) (parc : Int)

/-- What `modeChar` does with `s`. -/
def modeEvent (m : ModeSt σ) (s : UInt8) : Option ModeEvent :=
  if s = 43 then some (.sign true)
  else if s = 45 then some (.sign false)
  else if 31 < s ∧ s < 128 ∧ (modetab s).inUse then
    if parc = 1 ∧ (modetab s).listable then some .listed
    else if ((modetab s).handler sptr m.adl m.nmodes m.state).appends ∧ m.adl ≠ .list then
      some (.appended m.adl s)
    else none
  else none

/-- What the loop does, in order. -/
def modeEvents : ModeSt σ → List UInt8 → List ModeEvent
  | _, [] => []
  | m, s :: modes =>
      if s = 0 ∨ ¬ m.nmodes < maxmodes sptr then []
      else
        (modeEvent modetab sptr parc m s).toList ++
          modeEvents (modeChar modetab sptr parc m s) modes

/-- What `set_mode` does, from its first character on. -/
def setModeEvents (modes : List UInt8) (state : σ) : List ModeEvent :=
  if parc < 1 then []
  else
    modeEvents modetab sptr parc
      { adl := .list, nmodes := 0, mbuf := [43], unknown := [], state := state } modes

/-- The letters the handlers have appended, with what they were called with. -/
def appendedModes (events : List ModeEvent) : List (Cmode × UInt8) :=
  events.filterMap fun
    | .appended adl letter => some (adl, letter)
    | _ => none

/-- What a character leaves of `adl` and `mbuf`. -/
inductive ModeStep (m m' : ModeSt σ) : Option ModeEvent → Prop
  | none (hadl : m'.adl = m.adl) (hmbuf : m'.mbuf = m.mbuf) : ModeStep m m' none
  | sign (add : Bool) (hadl : m'.adl = signCmode add)
      (hmbuf : m'.mbuf =
        putSign m.mbuf m.adl (signByte add) (signByte !add) (signCmode !add)) :
      ModeStep m m' (some (.sign add))
  | listed (hadl : m'.adl = .list) (hmbuf : m'.mbuf = m.mbuf) : ModeStep m m' (some .listed)
  | appended (c : UInt8) (hc : isSign c = false) (hasked : m.adl ≠ .list)
      (hadl : m'.adl = m.adl) (hmbuf : m'.mbuf = m.mbuf ++ [c]) :
      ModeStep m m' (some (.appended m.adl c))

theorem modeChar_step (m : ModeSt σ) (s : UInt8) :
    ModeStep m (modeChar modetab sptr parc m s) (modeEvent modetab sptr parc m s) := by
  rw [modeEvent]
  by_cases hplus : s = 43
  · subst hplus
    exact .sign true rfl rfl
  by_cases hminus : s = 45
  · subst hminus
    exact .sign false rfl rfl
  rw [if_neg hplus, if_neg hminus]
  by_cases hletter : 31 < s ∧ s < 128 ∧ (modetab s).inUse = true
  · rw [if_pos hletter]
    have huse : ¬ ¬ (modetab s).inUse = true := not_not_intro hletter.2.2
    by_cases hlist : parc = 1 ∧ (modetab s).listable = true
    · rw [if_pos hlist, modeChar, if_neg hplus, if_neg hminus, if_pos ⟨hletter.1, hletter.2.1⟩,
        if_neg huse]
      exact .listed (if_pos hlist) (if_neg fun h => h.2 (if_pos hlist))
    · rw [if_neg hlist, modeChar, if_neg hplus, if_neg hminus, if_pos ⟨hletter.1, hletter.2.1⟩,
        if_neg huse]
      simp only [if_neg hlist]
      by_cases happ : ((modetab s).handler sptr m.adl m.nmodes m.state).appends = true ∧
          m.adl ≠ .list
      · simp only [if_pos happ]
        exact .appended s (by simp [isSign, hplus, hminus]) happ.2 rfl rfl
      · simp only [if_neg happ]
        exact .none rfl rfl
  · rw [if_neg hletter, modeChar, if_neg hplus, if_neg hminus]
    by_cases hrange : 31 < s ∧ s < 128
    · rw [if_pos hrange, if_pos fun h => hletter ⟨hrange.1, hrange.2, h⟩]
      split <;> exact .none rfl rfl
    · rw [if_neg hrange]
      split <;> exact .none rfl rfl

end Events

/-! ## Letters and the signs before them -/

/-- Every letter is asked for like the last one, or a sign since then was read
while `adl` was the other. -/
def SignsWritten : Option Cmode → Bool → Cmode → List ModeEvent → Prop
  | _, _, _, [] => True
  | last, turned, adl, .sign add :: events =>
      SignsWritten last (turned || decide (adl = signCmode !add)) (signCmode add) events
  | last, turned, _, .listed :: events => SignsWritten last turned .list events
  | last, turned, _, .appended adl _ :: events =>
      (last = none ∨ last = some adl ∨ turned = true) ∧
        SignsWritten (some adl) false adl events

/-- A sign is the last character. -/
def EndsInSign (mbuf : List UInt8) : Prop := ∃ text add, mbuf = text ++ [signByte add]

def BeginsWithSign (text : List UInt8) : Prop := ∃ add rest, text = signByte add :: rest

/-- What `mbuf` has to do with the last letter and `adl`. -/
structure SignState (last : Option Cmode) (turned : Bool) (adl : Cmode) (mbuf : List UInt8) :
    Prop where
  sign : EndsInSign mbuf → adl ≠ .list → lastSign .list mbuf = adl
  written : EndsInSign mbuf → last = none ∨ turned = true
  letter : ¬ EndsInSign mbuf → last = some (lastSign .list mbuf) ∧ turned = false

/-- A sign is patched, written behind a letter, or left out. -/
theorem putSign_cases (mbuf : List UInt8) (adl : Cmode) (add : Bool) :
    (∃ text, mbuf = text ++ [signByte !add] ∧
      putSign mbuf adl (signByte add) (signByte !add) (signCmode !add) = text ++ [signByte add]) ∨
    (adl = signCmode (!add) ∧
      putSign mbuf adl (signByte add) (signByte !add) (signCmode !add) = mbuf ++ [signByte add]) ∨
    (adl ≠ signCmode (!add) ∧ mbuf.getLast? ≠ some (signByte !add) ∧
      putSign mbuf adl (signByte add) (signByte !add) (signCmode !add) = mbuf) := by
  by_cases hlast : mbuf.getLast? = some (signByte !add)
  · obtain ⟨text, rfl⟩ := List.getLast?_eq_some_iff.mp hlast
    refine .inl ⟨text, rfl, ?_⟩
    rw [putSign, if_pos hlast, List.dropLast_concat]
  · by_cases hadl : adl = signCmode !add
    · exact .inr (.inl ⟨hadl, by rw [putSign, if_neg hlast, if_pos hadl]⟩)
    · exact .inr (.inr ⟨hadl, hlast, by rw [putSign, if_neg hlast, if_neg hadl]⟩)

theorem signedLetters_putSign (mbuf : List UInt8) (adl : Cmode) (add : Bool) :
    signedLetters .list (putSign mbuf adl (signByte add) (signByte !add) (signCmode !add)) =
      signedLetters .list mbuf := by
  rcases putSign_cases mbuf adl add with ⟨text, rfl, hput⟩ | ⟨-, hput⟩ | ⟨-, -, hput⟩
  · rw [hput, signedLetters_sign, signedLetters_sign]
  · rw [hput, signedLetters_sign]
  · rw [hput]

theorem BeginsWithSign.append {mbuf : List UInt8} (h : BeginsWithSign mbuf)
    (more : List UInt8) : BeginsWithSign (mbuf ++ more) := by
  obtain ⟨add, rest, rfl⟩ := h
  exact ⟨add, rest ++ more, rfl⟩

theorem BeginsWithSign.putSign {mbuf : List UInt8} (h : BeginsWithSign mbuf) (adl : Cmode)
    (add : Bool) :
    BeginsWithSign (putSign mbuf adl (signByte add) (signByte !add) (signCmode !add)) := by
  rcases putSign_cases mbuf adl add with ⟨text, htext, hput⟩ | ⟨-, hput⟩ | ⟨-, -, hput⟩
  · rw [hput]
    cases text with
    | nil => exact ⟨add, [], rfl⟩
    | cons c text =>
        obtain ⟨first, rest, hfirst⟩ := h
        rw [htext] at hfirst
        exact ⟨first, text ++ [signByte add], by rw [List.cons_append, (List.cons.inj hfirst).1]⟩
  · rw [hput]
    exact h.append _
  · rwa [hput]

theorem SignState.putSign {last : Option Cmode} {turned : Bool} {adl : Cmode}
    {mbuf : List UInt8} (h : SignState last turned adl mbuf) (add : Bool) :
    SignState last (turned || decide (adl = signCmode !add)) (signCmode add)
      (putSign mbuf adl (signByte add) (signByte !add) (signCmode !add)) := by
  have hkept : EndsInSign mbuf →
      last = none ∨ (turned || decide (adl = signCmode !add)) = true := by
    intro hends
    rcases h.written hends with hnone | hturned
    · exact .inl hnone
    · exact .inr (by rw [hturned, Bool.true_or])
  rcases putSign_cases mbuf adl add with ⟨text, htext, hput⟩ | ⟨hadl, hput⟩ | ⟨hadl, hlast, hput⟩
  · rw [hput]
    exact ⟨fun _ _ => lastSign_sign add, fun _ => hkept ⟨text, _, htext⟩,
      fun hn => absurd ⟨text, add, rfl⟩ hn⟩
  · rw [hput]
    exact ⟨fun _ _ => lastSign_sign add, fun _ => .inr (by simp [hadl]),
      fun hn => absurd ⟨_, add, rfl⟩ hn⟩
  · rw [hput]
    refine ⟨fun hsign _ => ?_, hkept, fun hn => ?_⟩
    · -- The sign at the end is this one already.
      obtain ⟨text, b, rfl⟩ := hsign
      have hb : b = add := by
        have hne : signByte b ≠ signByte !add := by simpa using hlast
        cases b <;> cases add <;> simp_all
      subst hb
      exact lastSign_sign b
    · obtain ⟨hletter, hturned⟩ := h.letter hn
      exact ⟨hletter, by simp [hturned, hadl]⟩

theorem SignState.listed {last : Option Cmode} {turned : Bool} {adl : Cmode}
    {mbuf : List UInt8} (h : SignState last turned adl mbuf) :
    SignState last turned .list mbuf :=
  ⟨fun _ hlist => absurd rfl hlist, h.written, h.letter⟩

theorem not_endsInSign_letter {mbuf : List UInt8} {c : UInt8} (hc : isSign c = false) :
    ¬ EndsInSign (mbuf ++ [c]) := by
  rintro ⟨text, add, h⟩
  have hlast := (List.append_inj' h rfl).2
  rw [List.cons.injEq] at hlast
  rw [hlast.1] at hc
  revert hc
  cases add <;> decide

/-- A letter gets the sign it is asked for just when the last one was asked for like
it, or a sign was written since. -/
theorem SignState.lastSign_iff {last : Option Cmode} {turned : Bool} {adl : Cmode}
    {mbuf : List UInt8} (h : SignState last turned adl mbuf) (hadl : adl ≠ .list) :
    lastSign .list mbuf = adl ↔ last = none ∨ last = some adl ∨ turned = true := by
  by_cases hends : EndsInSign mbuf
  · refine iff_of_true (h.sign hends hadl) ?_
    rcases h.written hends with hnone | hturned
    · exact .inl hnone
    · exact .inr (.inr hturned)
  · obtain ⟨rfl, rfl⟩ := h.letter hends
    simp

theorem SignState.appended {adl : Cmode} {mbuf : List UInt8} {c : UInt8}
    (hc : isSign c = false) (hsign : lastSign .list mbuf = adl) :
    SignState (some adl) false adl (mbuf ++ [c]) := by
  have hends : ¬ EndsInSign (mbuf ++ [c]) := not_endsInSign_letter hc
  exact ⟨fun h _ => absurd h hends, fun h => absurd h hends,
    fun _ => ⟨by rw [lastSign_letter hc, hsign], rfl⟩⟩

/-! ## The loop -/

section Loop

variable {σ : Type} {modetab : UInt8 → ModeItem σ} {sptr : ModeSender} {parc : Int}

/-- What stands in `mbuf` stays, with its signs. -/
theorem setModeLoop_letters (modes : List UInt8) (m : ModeSt σ) :
    signedLetters .list m.mbuf <+:
      signedLetters .list (setModeLoop modetab sptr parc m modes).mbuf := by
  induction modes generalizing m with
  | nil => exact List.prefix_rfl
  | cons s modes ih =>
      rw [setModeLoop]
      split
      · exact List.prefix_rfl
      · refine List.IsPrefix.trans ?_ (ih _)
        have hstep := modeChar_step modetab sptr parc m s
        generalize modeChar modetab sptr parc m s = m' at hstep ⊢
        generalize modeEvent modetab sptr parc m s = event at hstep
        cases hstep with
        | none _ hmbuf | listed _ hmbuf => exact ⟨[], by rw [hmbuf, List.append_nil]⟩
        | sign add _ hmbuf =>
            exact ⟨[], by rw [hmbuf, signedLetters_putSign, List.append_nil]⟩
        | appended c hc _ _ hmbuf =>
            rw [hmbuf, signedLetters_letter hc]
            exact List.prefix_append _ _

/-- The loop puts down what it was asked for just when the signs are written. -/
theorem setModeLoop_signs_iff (modes : List UInt8) {m : ModeSt σ} {last : Option Cmode}
    {turned : Bool} (h : SignState last turned m.adl m.mbuf) :
    signedLetters .list (setModeLoop modetab sptr parc m modes).mbuf =
        signedLetters .list m.mbuf ++ appendedModes (modeEvents modetab sptr parc m modes) ↔
      SignsWritten last turned m.adl (modeEvents modetab sptr parc m modes) := by
  induction modes generalizing m last turned with
  | nil => simp [setModeLoop, modeEvents, appendedModes, SignsWritten]
  | cons s modes ih =>
      rw [setModeLoop, modeEvents]
      split
      · simp [appendedModes, SignsWritten]
      · have hstep := modeChar_step modetab sptr parc m s
        have hkeeps := @setModeLoop_letters σ modetab sptr parc modes
          (modeChar modetab sptr parc m s)
        generalize modeChar modetab sptr parc m s = m' at hstep hkeeps ⊢
        generalize modeEvent modetab sptr parc m s = event at hstep ⊢
        cases hstep with
        | none hadl hmbuf =>
            have h' := ih (m := m') (by rw [hadl, hmbuf]; exact h)
            rwa [hadl, hmbuf] at h'
        | listed hadl hmbuf =>
            have h' := ih (m := m') (by rw [hadl, hmbuf]; exact h.listed)
            rwa [hadl, hmbuf] at h'
        | sign add hadl hmbuf =>
            have h' := ih (m := m') (by rw [hadl, hmbuf]; exact h.putSign add)
            rw [hadl, hmbuf, signedLetters_putSign] at h'
            exact h'
        | appended c hc hasked hadl hmbuf =>
            simp only [Option.toList, List.cons_append, List.nil_append, appendedModes,
              List.filterMap_cons, SignsWritten]
            rw [List.append_cons]
            by_cases hsign : lastSign .list m.mbuf = m.adl
            · have h' := ih (m := m') (by rw [hadl, hmbuf]; exact .appended hc hsign)
              rw [hadl, hmbuf, signedLetters_letter hc, hsign] at h'
              exact h'.trans ⟨fun hrest => ⟨(h.lastSign_iff hasked).mp hsign, hrest⟩, And.right⟩
            · -- The letter stands under the other sign, and stays there.
              refine iff_of_false (fun heq => hsign ?_) fun hw =>
                hsign ((h.lastSign_iff hasked).mpr hw.1)
              rw [heq, hmbuf, signedLetters_letter hc, List.append_assoc,
                List.prefix_append_right_inj] at hkeeps
              exact (Prod.mk.inj (List.cons_prefix_cons.mp hkeeps).1).1

theorem setModeLoop_begins (modes : List UInt8) {m : ModeSt σ} (h : BeginsWithSign m.mbuf) :
    BeginsWithSign (setModeLoop modetab sptr parc m modes).mbuf := by
  induction modes generalizing m with
  | nil => exact h
  | cons s modes ih =>
      rw [setModeLoop]
      split
      · exact h
      · refine ih ?_
        have hstep := modeChar_step modetab sptr parc m s
        generalize modeChar modetab sptr parc m s = m' at hstep ⊢
        generalize modeEvent modetab sptr parc m s = event at hstep
        cases hstep with
        | none _ hmbuf | listed _ hmbuf => rwa [hmbuf]
        | sign add _ hmbuf =>
            rw [hmbuf]
            exact h.putSign m.adl add
        | appended c _ _ _ hmbuf =>
            rw [hmbuf]
            exact h.append [c]

end Loop

/-- The text of `mbuf` says what the handlers were called with. -/
structure ModesRight (text : List UInt8) (appended : List (Cmode × UInt8)) : Prop where
  letters : signedLetters .list text = appended
  begins : text = [] ∨ BeginsWithSign text

theorem signedLetters_endModes (sign : Cmode) (mbuf : List UInt8) :
    signedLetters sign (endModes mbuf) = signedLetters sign mbuf := by
  rw [endModes]
  split
  · next h =>
      have hends : ∃ add, mbuf.getLast? = some (signByte add) :=
        h.elim (fun h => ⟨true, h⟩) fun h => ⟨false, h⟩
      obtain ⟨add, hadd⟩ := hends
      obtain ⟨text, rfl⟩ := List.getLast?_eq_some_iff.mp hadd
      rw [List.dropLast_concat, signedLetters_sign]
  · rfl

theorem endModes_begins {mbuf : List UInt8} (h : BeginsWithSign mbuf) :
    endModes mbuf = [] ∨ BeginsWithSign (endModes mbuf) := by
  obtain ⟨add, rest, rfl⟩ := h
  rw [endModes]
  split
  · cases rest with
    | nil => exact .inl rfl
    | cons c rest => exact .inr ⟨add, (c :: rest).dropLast, rfl⟩
  · exact .inr ⟨add, rest, rfl⟩

theorem isSign_iff {c : UInt8} : isSign c = true ↔ ∃ add, c = signByte add := by
  simp [isSign, signByte, Bool.exists_bool, or_comm]

/-- `mbuf` says what the handlers were called with just when the signs are written; without
a mode string nothing may stand in it but signs. -/
theorem setMode_signs_iff {σ : Type} (modetab : UInt8 → ModeItem σ) (sptr : ModeSender)
    (parc : Int) (mbuf modes : List UInt8) (state : σ) :
    ModesRight (setMode modetab sptr parc mbuf modes state).mbuf
        (appendedModes (setModeEvents modetab sptr parc modes state)) ↔
      (parc < 1 → ∀ c ∈ mbuf, isSign c = true) ∧
        SignsWritten none false .list (setModeEvents modetab sptr parc modes state) := by
  rw [setMode, setModeEvents]
  by_cases hparc : parc < 1
  · rw [if_pos hparc, if_pos hparc]
    constructor
    · exact fun h => ⟨fun _ => signedLetters_eq_nil_iff.mp h.letters, trivial⟩
    · rintro ⟨hsigns, -⟩
      refine ⟨signedLetters_eq_nil_iff.mpr (hsigns hparc), ?_⟩
      cases mbuf with
      | nil => exact .inl rfl
      | cons c rest =>
          obtain ⟨add, rfl⟩ := isSign_iff.mp (hsigns hparc c List.mem_cons_self)
          exact .inr ⟨add, rest, rfl⟩
  · rw [if_neg hparc, if_neg hparc]
    have hbegins : BeginsWithSign [43] := ⟨true, [], rfl⟩
    have hstart : SignState none false .list [43] :=
      ⟨fun _ h => absurd rfl h, fun _ => .inl rfl, fun h => absurd ⟨[], true, rfl⟩ h⟩
    have hloop := @setModeLoop_signs_iff σ modetab sptr parc modes ⟨.list, 0, [43], [], state⟩
      _ _ hstart
    dsimp only
    constructor
    · intro h
      refine ⟨fun hlt => absurd hlt hparc, hloop.mp ?_⟩
      rw [← signedLetters_endModes]
      exact h.letters
    · rintro ⟨-, hwritten⟩
      refine ⟨?_, endModes_begins (setModeLoop_begins modes hbegins)⟩
      rw [signedLetters_endModes]
      exact hloop.mpr hwritten

/-- A handler that does what it is asked for. -/
def plainHandler : CmodeHandler Unit := fun _ nmodes _ => ⟨(), nmodes + 1, true⟩

/-- `b` can be listed. -/
def plainModetab (c : UInt8) : ModeItem Unit :=
  ⟨true, c == 98, plainHandler, plainHandler, plainHandler, plainHandler, plainHandler⟩

/-- `+nb-t` without parameters takes `t` away, and `mbuf` says `+nt`. -/
theorem setMode_sign_lost :
    ¬ ∀ (modetab : UInt8 → ModeItem Unit) (sptr : ModeSender) (parc : Int)
        (mbuf modes : List UInt8),
      ModesRight (setMode modetab sptr parc mbuf modes ()).mbuf
        (appendedModes (setModeEvents modetab sptr parc modes ())) := by
  intro h
  have hright := (h plainModetab ⟨true, false, false, false, false⟩ 1 []
    [43, 110, 98, 45, 116]).letters
  revert hright
  decide

end TrIrcd
