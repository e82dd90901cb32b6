import TrIrcd.Lib.Run
import TrIrcd.Src.Motd

/-!
# The sections that are shown

A section is over at the first line that has `};` in it (`Displays`). The inner
loop asks the other way round, whether the line is in `};`: it also ends at a
blank line, and at `}` or `;`, and goes on behind a closing line with anything
else on it. At the end of the file it has no line to look at.

So a file is shown as it should be if and only if, wherever a section starts,
the first line that is either of these is `};` (`sendConfigFile_displays_iff`).
-/

namespace TrIrcd

open TrIrcd.Lib

variable {sect : List UInt8} {lines shown temp : List (List UInt8)}

/-! ## The inner loop -/

theorem strstrFinds_iff {haystack needle : List UInt8} :
    strstrFinds haystack needle = true ↔ needle <:+: haystack := decide_eq_true_iff

/-- The inner loop ends at the first line that is in `};`. -/
theorem showSection_ok_iff :
    showSection lines = .ok (shown, temp) ↔ ∃ line rest, temp = line :: rest ∧
      lines = shown ++ line :: rest ∧ line <:+: closer ∧ ∀ l ∈ shown, ¬ l <:+: closer := by
  induction lines generalizing shown with
  | nil =>
      constructor
      · intro h
        cases h
      · rintro ⟨line, rest, _, h, _⟩
        cases shown <;> cases h
  | cons l lines ih =>
      rw [showSection]
      split
      next hl =>
        rw [strstrFinds_iff] at hl
        constructor
        · intro h
          cases h
          exact ⟨l, lines, rfl, rfl, hl, fun _ hx => absurd hx List.not_mem_nil⟩
        · rintro ⟨line, rest, rfl, heq, _, hno⟩
          cases shown with
          | nil => rw [← List.nil_append (line :: rest), ← heq]
          | cons l' shown =>
              cases heq
              exact absurd hl (hno l (List.mem_cons_self ..))
      next hl =>
        rw [strstrFinds_iff] at hl
        constructor
        · intro h
          cases hs : showSection lines with
          | error fault => rw [hs] at h; cases h
          | ok found =>
              obtain ⟨shown', temp'⟩ := found
              rw [hs] at h
              cases h
              obtain ⟨line, rest, htemp, hlines, hline, hno⟩ := ih.mp hs
              refine ⟨line, rest, htemp, by rw [hlines, List.cons_append], hline, ?_⟩
              exact List.forall_mem_cons.mpr ⟨hl, hno⟩
        · rintro ⟨line, rest, rfl, heq, hline, hno⟩
          cases shown with
          | nil =>
              cases heq
              exact absurd hline hl
          | cons l' shown =>
              cases heq
              rw [ih.mpr ⟨line, rest, rfl, rfl, hline, (List.forall_mem_cons.mp hno).2⟩]
              rfl

/-! ## The outer loop -/

theorem sendConfigFile_nil : sendConfigFile sect [] = .ok [.endOfDisplay] := by
  rw [sendConfigFile]

theorem sendConfigFile_skip {line : List UInt8} (h : startsSection sect line = false) :
    sendConfigFile sect (line :: lines) = sendConfigFile sect lines := by
  rw [sendConfigFile, if_neg (Bool.eq_false_iff.mp h)]

theorem sendConfigFile_section {line : List UInt8} (h : startsSection sect line = true) :
    sendConfigFile sect (line :: lines) =
      (showSection (line :: lines)).bind fun (shown, temp) =>
        (sendConfigFile sect temp.tail).map fun out =>
          .displayStart sect :: shown.map .display ++ .display closer :: out := by
  rw [sendConfigFile, if_pos h]
  split
  next hs => rw [hs]; rfl
  next hs => rw [hs]; rfl

/-- A section that has been shown, and the line at which the inner loop ended. -/
theorem sendConfigFile_ok {line : List UInt8} {out : List ConfigReply}
    (hstart : startsSection sect line = true)
    (h : sendConfigFile sect (line :: lines) = .ok out) :
    ∃ shown stop rest out', line :: lines = shown ++ stop :: rest ∧ stop <:+: closer ∧
      (∀ l ∈ shown, ¬ l <:+: closer) ∧ sendConfigFile sect rest = .ok out' ∧
      out = .displayStart sect :: shown.map .display ++ .display closer :: out' := by
  rw [sendConfigFile_section hstart] at h
  obtain ⟨⟨shown, temp⟩, hshow, h⟩ := bind_ok_iff.mp h
  obtain ⟨out', hrest, rfl⟩ := map_ok_iff.mp h
  obtain ⟨stop, rest, rfl, hlines, hstop, hno⟩ := showSection_ok_iff.mp hshow
  exact ⟨shown, stop, rest, out', hlines, hstop, hno, hrest, rfl⟩

/-! ## What is to be shown -/

/-- A line that closes a section. -/
def Closes (line : List UInt8) : Prop := closer <:+: line

/-- A file and what is to be shown of it: for each line that starts a section
the lines from it up to the first that closes it, or to the end. -/
inductive Displays (sect : List UInt8) : List (List UInt8) → List ConfigReply → Prop
  | done : Displays sect [] [.endOfDisplay]
  | skip {line lines out} (hstart : startsSection sect line = false)
      (hrest : Displays sect lines out) : Displays sect (line :: lines) out
  | closed {line lines body close rest out} (hstart : startsSection sect line = true)
      (hlines : line :: lines = body ++ close :: rest) (hbody : ∀ l ∈ body, ¬ Closes l)
      (hclose : Closes close) (hrest : Displays sect rest out) :
      Displays sect (line :: lines)
        (.displayStart sect :: body.map .display ++ .display closer :: out)
  | unclosed {line lines} (hstart : startsSection sect line = true)
      (hopen : ∀ l ∈ line :: lines, ¬ Closes l) :
      Displays sect (line :: lines)
        (.displayStart sect :: (line :: lines).map .display ++ [.endOfDisplay])

/-- In every section, the first line that closes it or is in `};` is `};`. -/
inductive Tidy (sect : List UInt8) : List (List UInt8) → Prop
  | done : Tidy sect []
  | skip {line lines} (hstart : startsSection sect line = false) (hrest : Tidy sect lines) :
      Tidy sect (line :: lines)
  | closed {line lines body rest} (hstart : startsSection sect line = true)
      (hlines : line :: lines = body ++ closer :: rest)
      (hbody : ∀ l ∈ body, ¬ Closes l ∧ ¬ l <:+: closer) (hrest : Tidy sect rest) :
      Tidy sect (line :: lines)

/-- Two lists of lines before their first `};`, with the same to see. -/
theorem display_inj {xs ys : List (List UInt8)} {us vs : List ConfigReply} (hx : closer ∉ xs)
    (hy : closer ∉ ys)
    (h : xs.map ConfigReply.display ++ .display closer :: us =
      ys.map ConfigReply.display ++ .display closer :: vs) : xs = ys ∧ us = vs := by
  have htake : ∀ {zs : List (List UInt8)} {ws : List ConfigReply}, closer ∉ zs →
      (zs.map ConfigReply.display ++ .display closer :: ws).takeWhile (· ≠ .display closer) =
        zs.map .display := by
    intro zs ws hz
    have hall : ∀ r ∈ zs.map ConfigReply.display, decide (r ≠ .display closer) = true := by
      intro r hr
      obtain ⟨z, hzm, rfl⟩ := List.mem_map.mp hr
      refine decide_eq_true fun he => hz ?_
      injection he with he
      exact he ▸ hzm
    rw [List.takeWhile_append_of_pos hall]
    simp
  have hmap : xs.map ConfigReply.display = ys.map .display := by
    rw [← @htake _ us hx, h, htake hy]
  rw [hmap] at h
  refine ⟨List.map_injective_iff.mpr (fun _ _ he => by injection he) hmap, ?_⟩
  exact (List.cons.inj (List.append_cancel_left h)).2

/-- The sections are shown as they should be if and only if each is closed
tidily. -/
theorem sendConfigFile_displays_iff {sect : List UInt8} {content : List (List UInt8)} :
    (∃ out, sendConfigFile sect content = .ok out ∧ Displays sect content out) ↔
      Tidy sect content := by
  constructor
  · rintro ⟨out, hsend, hdisplays⟩
    induction hdisplays with
    | done => exact .done
    | skip hstart _ ih =>
        rw [sendConfigFile_skip hstart] at hsend
        exact .skip hstart (ih hsend)
    | @closed line lines body close rest out hstart hlines hbody hclose _ ih =>
        obtain ⟨shown, stop, rest', out', hlines', hstop, hno, hrest', hout⟩ :=
          sendConfigFile_ok hstart hsend
        have hin : closer ∉ shown := fun hm => hno closer hm List.infix_rfl
        have hin' : closer ∉ body := fun hm => hbody closer hm List.infix_rfl
        obtain ⟨rfl, rfl⟩ := display_inj hin' hin (List.cons.inj hout).2
        obtain ⟨rfl, rfl⟩ := List.cons.inj (List.append_cancel_left (hlines.symm.trans hlines'))
        have hclosed : close = closer :=
          hstop.eq_of_length (Nat.le_antisymm hstop.length_le hclose.length_le)
        rw [hclosed] at hlines
        exact .closed hstart hlines (fun l hl => ⟨hbody l hl, hno l hl⟩) (ih hrest')
    | @unclosed line lines hstart hopen =>
        obtain ⟨shown, stop, rest', out', _, _, _, _, hout⟩ := sendConfigFile_ok hstart hsend
        -- What is shown at the end of a section is in no line of the file.
        have hin : ConfigReply.display closer ∈
            (line :: lines).map ConfigReply.display ++ [.endOfDisplay] := by
          have htail := (List.cons.inj hout).2
          rw [show (line :: lines).map ConfigReply.display ++ [.endOfDisplay] = _ from htail]
          exact List.mem_append_right _ (List.mem_cons_self ..)
        rcases List.mem_append.mp hin with hm | hm
        · obtain ⟨l, hl, he⟩ := List.mem_map.mp hm
          injection he with he
          exact absurd (he ▸ List.infix_rfl) (hopen l hl)
        · cases List.mem_singleton.mp hm
  · intro h
    induction h with
    | done => exact ⟨_, sendConfigFile_nil, .done⟩
    | skip hstart _ ih =>
        obtain ⟨out, hsend, hdisplays⟩ := ih
        exact ⟨out, by rw [sendConfigFile_skip hstart, hsend], .skip hstart hdisplays⟩
    | @closed line lines body rest hstart hlines hbody _ ih =>
        obtain ⟨out, hsend, hdisplays⟩ := ih
        have hshow : showSection (line :: lines) = .ok (body, closer :: rest) :=
          showSection_ok_iff.mpr ⟨closer, rest, rfl, hlines, List.infix_rfl, fun l hl => (hbody l hl).2⟩
        refine ⟨_, ?_, .closed hstart hlines (fun l hl => (hbody l hl).1) List.infix_rfl hdisplays⟩
        rw [sendConfigFile_section hstart, hshow]
        dsimp only [Except.bind, List.tail_cons]
        rw [hsend]
        rfl

/-- A file that ends in a section. -/
theorem unclosed_section_faults :
    ¬ ∃ out, sendConfigFile [0x61] [[0x61, 0x20, 0x7b]] = .ok out ∧
      Displays [0x61] [[0x61, 0x20, 0x7b]] out := by
  rintro ⟨out, hsend, _⟩
  rw [sendConfigFile_section (by decide), showSection, if_neg (by decide), showSection] at hsend
  cases hsend

end TrIrcd
