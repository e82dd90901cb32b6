import TrIrcd.Proofs.BanLookup
import TrIrcd.Src.Textedit

/-!
# Masks made pretty

A mask is a text of just one of five kinds (`MaskForm`): it has a `!` or not, an
`@` behind it or not, and without both a dot or not. `pretty_mask` shows the parts
that the kind has, each cut at white space and at its length, and a star for the
others (`prettyMask_form`). What it makes is of the first kind with the same
parts: no `!` comes before the one that it puts behind the nick, since a nick has
none, and no `@` behind the other one, since a host has none.
-/

namespace TrIrcd

open TrIrcd.Lib

/-! ## Texts cut at a byte -/

section Cut

variable {c : UInt8} {s t : List UInt8}

theorem strchrCut_none (h : c ∉ s) : strchrCut c s = none := if_neg h

theorem takeWhile_cons_self (c : UInt8) (t : List UInt8) : (c :: t).takeWhile (· ≠ c) = [] := by
  rw [List.takeWhile_cons, if_neg (by simp)]

theorem dropWhile_cons_self (c : UInt8) (t : List UInt8) :
    (c :: t).dropWhile (· ≠ c) = c :: t := by
  rw [List.dropWhile_cons, if_neg (by simp)]

theorem strchrCut_append (h : c ∉ s) (t : List UInt8) : strchrCut c (s ++ c :: t) = some (s, t) := by
  have hall : ∀ d ∈ s, decide (d ≠ c) = true := fun d hd => decide_eq_true fun hc => h (hc ▸ hd)
  rw [strchrCut, if_pos (List.mem_append_right s (List.mem_cons_self ..)),
    List.takeWhile_append_of_pos hall, takeWhile_cons_self, List.append_nil,
    List.dropWhile_append_of_pos hall, dropWhile_cons_self, List.tail_cons]

theorem strrchrCut_none (h : c ∉ s) : strrchrCut c s = none := by
  rw [strrchrCut, strchrCut_none (List.mem_reverse.not.mpr h), Option.map_none]

theorem strrchrCut_append (s : List UInt8) (h : c ∉ t) :
    strrchrCut c (s ++ c :: t) = some (s, t) := by
  have hreverse : (s ++ c :: t).reverse = t.reverse ++ c :: s.reverse := by simp
  rw [strrchrCut, hreverse, strchrCut_append (List.mem_reverse.not.mpr h), Option.map_some,
    List.reverse_reverse, List.reverse_reverse]

end Cut

/-! ## Parts -/

/-- What is shown of a part: it is cut, and a star if nothing is left. -/
def shown (len : Nat) (s : List UInt8) : List UInt8 := (checkString s).take len

theorem makeNickUserHost_shown (nick name host : List UInt8) :
    makeNickUserHost nick name host =
      nuhText (shown nickLen nick) (shown userLen name) (shown hostLen host) := rfl

theorem shown_whole {len : Nat} (hlen : 0 < len) (s : List UInt8) : Whole len (shown len s) := by
  have hcheck : checkString s ≠ [] ∧ ∀ c ∈ checkString s, isSpace c = false := by
    rw [checkString]
    split
    · exact ⟨List.cons_ne_nil _ _, fun c hc => List.mem_singleton.mp hc ▸ rfl⟩
    · next hcut =>
        refine ⟨hcut, fun c hc => ?_⟩
        have hspace := List.mem_takeWhile_imp (p := fun c => !isSpace c) hc
        simpa using hspace
  refine ⟨?_, fun c hc => hcheck.2 c (List.mem_of_mem_take hc), ?_⟩
  · intro h
    rcases List.take_eq_nil_iff.mp h with h | h
    · omega
    · exact hcheck.1 h
  · exact List.length_take_le ..

theorem mem_shown {len : Nat} {s : List UInt8} {c : UInt8} (h : c ∈ shown len s) :
    c ∈ s ∨ c = 0x2a := by
  have hc := List.mem_of_mem_take h
  rw [checkString] at hc
  split at hc
  · exact .inr (List.mem_singleton.mp hc)
  · exact .inl (mem_cutSpace hc)

/-! ## Kinds of masks -/

/-- `nick!user@host`, `nick!user`, `user@host`, a host with a dot, and a nick. -/
inductive MaskForm
  | full (n u h : List UInt8)
  | nickUser (n u : List UInt8)
  | userHost (u h : List UInt8)
  | host (h : List UInt8)
  | nick (n : List UInt8)

namespace MaskForm

def text : MaskForm → List UInt8
  | full n u h => n ++ 0x21 :: (u ++ 0x40 :: h)
  | nickUser n u => n ++ 0x21 :: u
  | userHost u h => u ++ 0x40 :: h
  | host h => h
  | nick n => n

def Wf : MaskForm → Prop
  | full n _ h => 0x21 ∉ n ∧ 0x40 ∉ h
  | nickUser n u => 0x21 ∉ n ∧ 0x40 ∉ u
  | userHost u h => 0x21 ∉ u ∧ 0x21 ∉ h ∧ 0x40 ∉ h
  | host h => 0x21 ∉ h ∧ 0x40 ∉ h ∧ 0x2e ∈ h
  | nick n => 0x21 ∉ n ∧ 0x40 ∉ n ∧ 0x2e ∉ n

/-- The parts; one that the mask does not have is empty. -/
def parts : MaskForm → List UInt8 × List UInt8 × List UInt8
  | full n u h => (n, u, h)
  | nickUser n u => (n, u, [])
  | userHost u h => ([], u, h)
  | host h => ([], [], h)
  | nick n => (n, [], [])

end MaskForm

/-- The parts of a mask are shown, with stars for those that it does not have. -/
theorem prettyMask_form (f : MaskForm) (hf : f.Wf) :
    prettyMask f.text = makeNickUserHost f.parts.1 f.parts.2.1 f.parts.2.2 := by
  cases f with
  | full nick user host =>
      obtain ⟨hnick, hhost⟩ := hf
      simp only [prettyMask, MaskForm.text, strchrCut_append hnick, Option.getD_some,
        strrchrCut_append user hhost, reduceCtorEq, if_false, MaskForm.parts]
  | nickUser nick user =>
      obtain ⟨hnick, huser⟩ := hf
      simp only [prettyMask, MaskForm.text, strchrCut_append hnick, Option.getD_some,
        strrchrCut_none huser, reduceCtorEq, false_and, if_false, MaskForm.parts]
  | userHost user host =>
      obtain ⟨huser, hhost, hat⟩ := hf
      have hnone : 0x21 ∉ user ++ 0x40 :: host := by
        rw [List.mem_append, List.mem_cons]
        rintro (h | h | h)
        · exact huser h
        · exact absurd h (by decide)
        · exact hhost h
      simp only [prettyMask, MaskForm.text, strchrCut_none hnone, Option.getD_none,
        strrchrCut_append user hat, if_true, MaskForm.parts]
  | host host =>
      obtain ⟨hbang, hat, hdot⟩ := hf
      simp only [prettyMask, MaskForm.text, strchrCut_none hbang, Option.getD_none,
        strrchrCut_none hat, true_and, hdot, if_true, MaskForm.parts]
  | nick nick =>
      obtain ⟨hbang, hat, hdot⟩ := hf
      simp only [prettyMask, MaskForm.text, strchrCut_none hbang, Option.getD_none,
        strrchrCut_none hat, true_and, hdot, if_false, MaskForm.parts]

theorem notMem_of_append {c d : UInt8} {s t : List UInt8} (h : c ∉ s ++ d :: t) : c ∉ s ∧ c ∉ t :=
  ⟨fun hs => h (List.mem_append_left _ hs),
    fun ht => h (List.mem_append_right _ (List.mem_cons_of_mem _ ht))⟩

theorem eq_append_cons_last {c : UInt8} {s : List UInt8} (h : c ∈ s) :
    ∃ s₁ s₂, s = s₁ ++ c :: s₂ ∧ c ∉ s₂ := by
  obtain ⟨s₂, s₁, hs, hc⟩ := List.eq_append_cons_of_mem (List.mem_reverse.mpr h)
  refine ⟨s₁.reverse, s₂.reverse, ?_, List.mem_reverse.not.mpr hc⟩
  rw [← List.reverse_reverse s, hs, List.reverse_append, List.reverse_cons, List.append_assoc]
  rfl

/-- Every text is a mask. -/
theorem exists_maskForm (mask : List UInt8) : ∃ f : MaskForm, f.Wf ∧ f.text = mask := by
  by_cases hbang : 0x21 ∈ mask
  · obtain ⟨n, rest, rfl, hn⟩ := List.eq_append_cons_of_mem hbang
    by_cases hat : 0x40 ∈ rest
    · obtain ⟨u, h, rfl, hh⟩ := eq_append_cons_last hat
      exact ⟨.full n u h, ⟨hn, hh⟩, rfl⟩
    · exact ⟨.nickUser n rest, ⟨hn, hat⟩, rfl⟩
  · by_cases hat : 0x40 ∈ mask
    · obtain ⟨u, h, rfl, hh⟩ := eq_append_cons_last hat
      obtain ⟨hu, hh'⟩ := notMem_of_append hbang
      exact ⟨.userHost u h, ⟨hu, hh', hh⟩, rfl⟩
    · by_cases hdot : 0x2e ∈ mask
      · exact ⟨.host mask, ⟨hbang, hat, hdot⟩, rfl⟩
      · exact ⟨.nick mask, ⟨hbang, hat, hdot⟩, rfl⟩

/-- No nick has a `!` in it, and no host an `@`. -/
theorem MaskForm.notMem_parts {f : MaskForm} (hf : f.Wf) : 0x21 ∉ f.parts.1 ∧ 0x40 ∉ f.parts.2.2 := by
  cases f with
  | full n u h => exact hf
  | nickUser n u => exact ⟨hf.1, List.not_mem_nil⟩
  | userHost u h => exact ⟨List.not_mem_nil, hf.2.2⟩
  | host h => exact ⟨List.not_mem_nil, hf.2.1⟩
  | nick n => exact ⟨hf.1, List.not_mem_nil⟩

/-- A mask that is pretty already stays as it is. -/
theorem prettyMask_nuhText {nick user host : List UInt8} (hnick : Whole nickLen nick)
    (huser : Whole userLen user) (hhost : Whole hostLen host) (hbang : 0x21 ∉ nick)
    (hat : 0x40 ∉ host) : prettyMask (nuhText nick user host) = nuhText nick user host := by
  have hform := prettyMask_form (.full nick user host) ⟨hbang, hat⟩
  have htext : MaskForm.text (.full nick user host) = nuhText nick user host := by
    rw [nuhText, List.append_assoc]
    rfl
  rw [htext] at hform
  rw [hform]
  exact makeNickUserHost_eq hnick huser hhost

/-- What is made of a mask has three parts, of the lengths that they may have and
without white space, it keeps those that the mask has, and made pretty again it
stays the same. -/
theorem prettyMask_spec (mask : List UInt8) :
    (∃ nick user host, Whole nickLen nick ∧ Whole userLen user ∧ Whole hostLen host ∧
      prettyMask mask = nuhText nick user host) ∧
    (∀ f : MaskForm, f.Wf → f.text = mask → prettyMask mask =
      nuhText (shown nickLen f.parts.1) (shown userLen f.parts.2.1) (shown hostLen f.parts.2.2)) ∧
    prettyMask (prettyMask mask) = prettyMask mask := by
  have hform : ∀ f : MaskForm, f.Wf → f.text = mask → prettyMask mask =
      nuhText (shown nickLen f.parts.1) (shown userLen f.parts.2.1)
        (shown hostLen f.parts.2.2) := by
    rintro f hf rfl
    rw [prettyMask_form f hf, makeNickUserHost_shown]
  obtain ⟨f, hf, htext⟩ := exists_maskForm mask
  obtain ⟨hbang, hat⟩ := MaskForm.notMem_parts hf
  have hpretty := hform f hf htext
  have hnick : Whole nickLen (shown nickLen f.parts.1) := shown_whole (by decide) _
  have huser : Whole userLen (shown userLen f.parts.2.1) := shown_whole (by decide) _
  have hhost : Whole hostLen (shown hostLen f.parts.2.2) := shown_whole (by decide) _
  refine ⟨⟨_, _, _, hnick, huser, hhost, hpretty⟩, hform, ?_⟩
  rw [hpretty]
  refine prettyMask_nuhText hnick huser hhost (fun h => ?_) fun h => ?_
  · exact (mem_shown h).elim hbang (by decide)
  · exact (mem_shown h).elim hat (by decide)

end TrIrcd
