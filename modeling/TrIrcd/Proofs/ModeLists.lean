import TrIrcd.Lib.Words
import TrIrcd.Src.Chanmodes

/-!
# Lists of masks in mode lines

The three functions that announce a list of masks share the step `addNuh`, and
so what they hold back between two entries is always a batch: some masks with a
space between two of them, and as many letters as masks (`Holds`). A step adds
its mask to the batch, or sends the batch before it or behind it
(`addNuh_holds`). Whichever limit is reached, no mask is dropped or doubled, and
the lines are the list in batches (`nuhLists_exact`).

A mask without characters does not make it into `pbuf`, but its letter does.
-/

namespace TrIrcd

open TrIrcd.Lib

/-- The line of some masks. -/
def nuhLine (sign letter : UInt8) (masks : List (List UInt8)) : ModeLine where
  mbuf := sign :: List.replicate masks.length letter
  pbuf := [0x20].intercalate masks

/-- A line of a batch: within both limits. -/
structure Batch (sign letter : UInt8) (masks : List (List UInt8)) : Prop where
  pos : 0 < masks.length
  le : masks.length ≤ maxModeParams
  lt : (nuhLine sign letter masks).pbuf.length < modeBufLen

/-- The lines are the masks in batches. -/
def Announces (sign letter : UInt8) (masks : List (List UInt8)) (lines : List ModeLine) : Prop :=
  ∃ batches : List (List (List UInt8)), batches.flatten = masks ∧
    lines = batches.map (nuhLine sign letter) ∧ ∀ batch ∈ batches, Batch sign letter batch

/-- The parameters of a line are the masks in it, if they are words. -/
theorem nuhLine_words {sign letter : UInt8} {masks : List (List UInt8)}
    (hne : ∀ w ∈ masks, w ≠ []) (hword : ∀ w ∈ masks, (0x20 : UInt8) ∉ w) :
    words (fun c => c = 0x20) (nuhLine sign letter masks).pbuf = masks := by
  refine words_intercalate (by decide) hne fun w hw c hc => ?_
  refine decide_eq_false fun heq => hword w hw ?_
  rwa [← heq]

/-- A mask that fits in an empty buffer. -/
def Short (nuhstr : List UInt8) : Prop := nuhstr ≠ [] ∧ nuhstr.length + 10 < modeBufLen

/-! ## One mask -/

/-- What is held back is a batch that is not full, or nothing. -/
structure Holds (sign letter : UInt8) (masks : List (List UInt8)) (b : ModeBuf) : Prop where
  mbuf : b.mbuf = sign :: List.replicate masks.length letter
  pbuf : b.pbuf = [0x20].intercalate masks
  count : b.count = masks.length
  ne : ∀ w ∈ masks, w ≠ []
  not_full : masks.length < maxModeParams
  lt : b.pbuf.length < modeBufLen

variable {sign letter : UInt8} {masks : List (List UInt8)} {b : ModeBuf}

namespace Holds

theorem empty (sign letter : UInt8) : Holds sign letter [] ⟨[sign], [], 0⟩ where
  mbuf := rfl
  pbuf := rfl
  count := rfl
  ne := by simp
  not_full := by simp [maxModeParams]
  lt := by simp [modeBufLen]

theorem single {nuhstr : List UInt8} (h : Short nuhstr) :
    Holds sign letter [nuhstr] ⟨[sign, letter], nuhstr, 1⟩ where
  mbuf := rfl
  pbuf := List.intercalate_singleton.symm
  count := rfl
  ne := List.forall_mem_singleton.mpr h.1
  not_full := by simp [maxModeParams]
  lt := by have := h.2; simp only; omega

theorem line_eq (h : Holds sign letter masks b) : b.line = nuhLine sign letter masks := by
  rw [ModeBuf.line, h.mbuf, h.pbuf, nuhLine]

theorem pbuf_eq_nil_iff (h : Holds sign letter masks b) : b.pbuf = [] ↔ masks = [] := by
  constructor
  · intro hnil
    by_contra hmasks
    exact intercalate_ne_nil hmasks h.ne (h.pbuf.symm.trans hnil)
  · intro hmasks
    rw [h.pbuf, hmasks]
    rfl

theorem batch (h : Holds sign letter masks b) (hne : masks ≠ []) : Batch sign letter masks where
  pos := List.length_pos_of_ne_nil hne
  le := h.not_full.le
  lt := by rw [← h.line_eq]; exact h.lt

end Holds

/-- A step sends at most one batch, and holds back the rest of what it held
back and its mask. -/
theorem addNuh_holds (h : Holds sign letter masks b) {nuhstr : List UInt8}
    (hshort : Short nuhstr) :
    ∃ (sent : List (List (List UInt8))) (held : List (List UInt8)),
      (addNuh sign letter nuhstr b).2 = sent.map (nuhLine sign letter) ∧
      Holds sign letter held (addNuh sign letter nuhstr b).1 ∧
      sent.flatten ++ held = masks ++ [nuhstr] ∧ ∀ batch ∈ sent, Batch sign letter batch := by
  rw [addNuh]
  by_cases hfits : b.pbuf.length + nuhstr.length + 10 < modeBufLen
  · -- The mask is added, and the batch is sent if it is full then.
    have hpbuf : (if b.pbuf ≠ [] then b.pbuf ++ [0x20] else b.pbuf) ++ nuhstr =
        [0x20].intercalate (masks ++ [nuhstr]) := by
      by_cases hmasks : masks = []
      · rw [if_neg (not_not.mpr (h.pbuf_eq_nil_iff.mpr hmasks)), h.pbuf_eq_nil_iff.mpr hmasks,
          hmasks, List.nil_append, List.nil_append, List.intercalate_singleton]
      · rw [if_pos (mt h.pbuf_eq_nil_iff.mp hmasks), intercalate_concat hmasks, h.pbuf,
          List.append_assoc]
        rfl
    have hmbuf : b.mbuf ++ [letter] =
        sign :: List.replicate (masks ++ [nuhstr]).length letter := by
      rw [h.mbuf, List.length_append, List.length_singleton, List.replicate_succ']
      rfl
    have hlt : ((if b.pbuf ≠ [] then b.pbuf ++ [0x20] else b.pbuf) ++ nuhstr).length <
        modeBufLen := by
      split
      · simp only [List.length_append, List.length_singleton]
        omega
      · rw [List.length_append]
        omega
    rw [hpbuf] at hlt
    simp only [hfits, not_true_eq_false, false_and, false_or, if_true, hpbuf, hmbuf, h.count]
    by_cases hfull : masks.length + 1 = maxModeParams
    · rw [if_pos hfull, if_neg (not_not.mpr hfull)]
      refine ⟨[masks ++ [nuhstr]], [], rfl, Holds.empty sign letter, by simp,
        List.forall_mem_singleton.mpr ⟨by simp, ?_, hlt⟩⟩
      rw [List.length_append, List.length_singleton]
      exact hfull.le
    · rw [if_neg hfull]
      have hlen : (masks ++ [nuhstr]).length = masks.length + 1 := by simp
      refine ⟨[], masks ++ [nuhstr], rfl, ⟨rfl, rfl, hlen.symm, ?_, ?_, hlt⟩, rfl, by simp⟩
      · rw [List.forall_mem_append, List.forall_mem_singleton]
        exact ⟨h.ne, hshort.1⟩
      · have := h.not_full
        omega
  · -- The batch is sent, and the mask starts the next one.
    have hmasks : masks ≠ [] := by
      intro hnil
      have hlen := congrArg List.length (h.pbuf_eq_nil_iff.mpr hnil)
      have := hshort.2
      rw [List.length_nil] at hlen
      omega
    have hcount : b.count ≠ maxModeParams := by
      have := h.not_full
      rw [h.count]
      omega
    have hne := mt h.pbuf_eq_nil_iff.mp hmasks
    simp only [hfits, if_false, not_false_eq_true, true_and, if_pos (Or.inl hne), if_pos hcount]
    refine ⟨[masks], [nuhstr], ?_, Holds.single hshort, by simp,
      List.forall_mem_singleton.mpr (h.batch hmasks)⟩
    rw [h.line_eq]
    rfl

/-! ## The loops -/

/-- The masks of a list. -/
def nuhStrings (list : NuhList) : List (List UInt8) := list.filterMap fun d => d.bind Nuh.nuhstr

/-- Every entry has a mask that is not empty and fits in an empty buffer. -/
def ShortMasks (list : NuhList) : Prop :=
  ∀ bp, some bp ∈ list → ∃ nuhstr, bp.nuhstr = some nuhstr ∧ Short nuhstr

/-- What the loops and the test behind them send. -/
theorem Holds.announces (h : Holds sign letter masks b) {batches : List (List (List UInt8))}
    (hb : ∀ batch ∈ batches, Batch sign letter batch) (last : Prop) [Decidable last]
    (hlast : last ↔ masks ≠ []) :
    Announces sign letter (batches.flatten ++ masks)
      (if last then batches.map (nuhLine sign letter) ++ [b.line]
        else batches.map (nuhLine sign letter)) := by
  by_cases hmasks : masks = []
  · rw [if_neg (mt hlast.mp (not_not.mpr hmasks)), hmasks, List.append_nil]
    exact ⟨batches, rfl, rfl, hb⟩
  · rw [if_pos (hlast.mpr hmasks), h.line_eq]
    refine ⟨batches ++ [masks], by simp, by simp, ?_⟩
    rw [List.forall_mem_append, List.forall_mem_singleton]
    exact ⟨hb, h.batch hmasks⟩

theorem nuhLoop_holds (list : NuhList) :
    ∀ {masks : List (List UInt8)} {b : ModeBuf}, Holds sign letter masks b → ShortMasks list →
      ∃ (batches : List (List (List UInt8))) (held : List (List UInt8)) (b' : ModeBuf),
        nuhLoop sign letter list b = some (b', batches.map (nuhLine sign letter)) ∧
        Holds sign letter held b' ∧ batches.flatten ++ held = masks ++ nuhStrings list ∧
        ∀ batch ∈ batches, Batch sign letter batch := by
  induction list with
  | nil => exact fun h _ => ⟨[], _, _, rfl, h, by simp [nuhStrings], by simp⟩
  | cons d list ih =>
      intro masks b h hshort
      have hrest : ShortMasks list := fun bp hbp => hshort bp (List.mem_cons_of_mem _ hbp)
      cases d with
      | none =>
          obtain ⟨batches, held, b', hloop, hheld, hflat, hb⟩ := ih h hrest
          exact ⟨batches, held, b', hloop, hheld, hflat, hb⟩
      | some bp =>
          obtain ⟨nuhstr, hstr, hone⟩ := hshort bp List.mem_cons_self
          obtain ⟨sent, held, hsent, hheld, hsplit, hbatch⟩ := addNuh_holds h hone
          obtain ⟨batches, held', b', hloop, hheld', hflat, hb⟩ := ih hheld hrest
          have hstrings : nuhStrings (some bp :: list) = nuhstr :: nuhStrings list := by
            simp [nuhStrings, hstr]
          refine ⟨sent ++ batches, held', b', ?_, hheld', ?_, ?_⟩
          · rw [nuhLoop, hstr, Option.bind_some]
            simp only [hloop, hsent, Option.map_some, List.map_append]
          · rw [List.flatten_append, List.append_assoc, hflat, ← List.append_assoc, hsplit,
              hstrings, List.append_assoc]
            rfl
          · rw [List.forall_mem_append]
            exact ⟨hbatch, hb⟩

theorem matchingLoop_holds (hit : List UInt8 → Bool) (list : NuhList) :
    ∀ {masks : List (List UInt8)} {b : ModeBuf}, Holds 0x2d letter masks b → ShortMasks list →
      ∃ (batches : List (List (List UInt8))) (held : List (List UInt8)) (b' : ModeBuf),
        matchingLoop hit letter list b =
          (b', batches.map (nuhLine 0x2d letter),
            list.filter fun d => (d.bind Nuh.nuhstr).all fun nuhstr => !hit nuhstr) ∧
        Holds 0x2d letter held b' ∧
        batches.flatten ++ held = masks ++ (nuhStrings list).filter hit ∧
        ∀ batch ∈ batches, Batch 0x2d letter batch := by
  induction list with
  | nil => exact fun h _ => ⟨[], _, _, rfl, h, by simp [nuhStrings], by simp⟩
  | cons d list ih =>
      intro masks b h hshort
      have hrest : ShortMasks list := fun bp hbp => hshort bp (List.mem_cons_of_mem _ hbp)
      cases d with
      | none =>
          obtain ⟨batches, held, b', hloop, hheld, hflat, hb⟩ := ih h hrest
          refine ⟨batches, held, b', ?_, hheld, hflat, hb⟩
          rw [matchingLoop]
          simp only [hloop]
          rfl
      | some bp =>
          obtain ⟨nuhstr, hstr, hone⟩ := hshort bp List.mem_cons_self
          have hstrings : nuhStrings (some bp :: list) = nuhstr :: nuhStrings list := by
            simp [nuhStrings, hstr]
          rw [hstrings]
          cases hhit : hit nuhstr with
          | false =>
              obtain ⟨batches, held, b', hloop, hheld, hflat, hb⟩ := ih h hrest
              refine ⟨batches, held, b', ?_, hheld, ?_, hb⟩
              · rw [matchingLoop]
                simp only [hstr, Option.filter_some, hhit, hloop]
                simp [hstr, hhit]
              · rw [hflat, List.filter_cons_of_neg (by simp [hhit])]
          | true =>
              obtain ⟨sent, held, hsent, hheld, hsplit, hbatch⟩ := addNuh_holds h hone
              obtain ⟨batches, held', b', hloop, hheld', hflat, hb⟩ := ih hheld hrest
              refine ⟨sent ++ batches, held', b', ?_, hheld', ?_, ?_⟩
              · rw [matchingLoop]
                simp only [hstr, Option.filter_some, hhit, if_true, hloop, hsent, List.map_append]
                simp [hstr, hhit]
              · rw [List.flatten_append, List.append_assoc, hflat, ← List.append_assoc, hsplit,
                  List.append_assoc, List.filter_cons_of_pos hhit]
                rfl
              · rw [List.forall_mem_append]
                exact ⟨hbatch, hb⟩

/-! ## The functions -/

theorem sendNuhList_announces {list : NuhList} (letter : UInt8) (h : ShortMasks list) :
    ∃ lines, sendNuhList list letter [0x2b] [] = some lines ∧
      Announces 0x2b letter (nuhStrings list) lines := by
  obtain ⟨batches, held, b, hloop, hheld, hflat, hb⟩ :=
    nuhLoop_holds list (Holds.empty 0x2b letter) h
  refine ⟨_, by rw [sendNuhList, if_neg (by simp), hloop]; rfl, ?_⟩
  rw [List.nil_append] at hflat
  rw [← hflat]
  refine hheld.announces hb _ ⟨?_, fun hne => .inr (mt hheld.pbuf_eq_nil_iff.mp hne)⟩
  rintro (hlen | hpbuf)
  · rintro rfl
    rw [hheld.mbuf] at hlen
    exact absurd hlen (by simp)
  · exact mt hheld.pbuf_eq_nil_iff.mpr hpbuf

theorem removeNuhList_announces {list : NuhList} (letter : UInt8) (h : ShortMasks list) :
    ∃ lines, removeNuhList list letter = some (lines, list.filter Option.isNone) ∧
      Announces 0x2d letter (nuhStrings list) lines := by
  obtain ⟨batches, held, b, hloop, hheld, hflat, hb⟩ :=
    nuhLoop_holds list (Holds.empty 0x2d letter) h
  refine ⟨_, by rw [removeNuhList, hloop]; rfl, ?_⟩
  rw [List.nil_append] at hflat
  rw [← hflat]
  exact hheld.announces hb _ (not_congr hheld.pbuf_eq_nil_iff)

/-- The masks that `remove_matching_nuhs` looks for. -/
def BanClient.hits (cptr : BanClient) (nuhstr : List UInt8) : Bool :=
  cptr.isPerson && cptr.user.any fun user => nuhMatches cptr user nuhstr

/-- The entries without such a mask. -/
def unhit (cptr : BanClient) (list : NuhList) : NuhList :=
  list.filter fun d => (d.bind Nuh.nuhstr).all fun nuhstr => !cptr.hits nuhstr

theorem removeMatchingNuhs_other {cptr : BanClient} (list : NuhList) (letter : UInt8)
    (h : cptr.isPerson = false) : removeMatchingNuhs cptr list letter = ([], list) := by
  rw [removeMatchingNuhs]
  split
  · rfl
  · rw [if_pos (by simp [h])]

theorem removeMatchingNuhs_announces (cptr : BanClient) {list : NuhList} (letter : UInt8)
    (h : ShortMasks list) :
    ∃ lines, removeMatchingNuhs cptr list letter = (lines, unhit cptr list) ∧
      Announces 0x2d letter ((nuhStrings list).filter cptr.hits) lines := by
  cases hperson : cptr.isPerson with
  | false =>
      have hhits : cptr.hits = fun _ => false := by
        funext nuhstr
        rw [BanClient.hits, hperson, Bool.false_and]
      have hall : unhit cptr list = list := by
        rw [unhit, hhits]
        simp
      refine ⟨[], by rw [removeMatchingNuhs_other list letter hperson, hall], [], ?_, rfl, ?_⟩
      · rw [hhits]
        simp
      · simp
  | true =>
      obtain ⟨user, huser⟩ := Option.isSome_iff_exists.mp (Bool.and_eq_true_iff.mp hperson).1
      have hhits : cptr.hits = nuhMatches cptr user := by
        funext nuhstr
        rw [BanClient.hits, hperson, huser]
        rfl
      obtain ⟨batches, held, b, hloop, hheld, hflat, hb⟩ :=
        matchingLoop_holds (nuhMatches cptr user) list (Holds.empty 0x2d letter) h
      have hrun : removeMatchingNuhs cptr list letter =
          (if b.pbuf ≠ [] then batches.map (nuhLine 0x2d letter) ++ [b.line]
            else batches.map (nuhLine 0x2d letter), unhit cptr list) := by
        rw [removeMatchingNuhs, huser, unhit, hhits]
        simp only [hperson, not_true_eq_false, if_false, hloop]
      rw [List.nil_append] at hflat
      rw [hhits, ← hflat]
      exact ⟨_, hrun, hheld.announces hb _ (not_congr hheld.pbuf_eq_nil_iff)⟩

/-- Whatever the list, as long as its masks are short and not empty: the lines
of each of the three functions are the masks they are to announce, in batches
within both limits, and the masks that are announced by a `-` are those that
leave the list. A parameter of a line is one mask if masks are words. -/
theorem nuhLists_exact (list : NuhList) (letter : UInt8) (h : ShortMasks list) :
    (∃ lines, sendNuhList list letter [0x2b] [] = some lines ∧
        Announces 0x2b letter (nuhStrings list) lines) ∧
      (∃ lines, removeNuhList list letter = some (lines, list.filter Option.isNone) ∧
        Announces 0x2d letter (nuhStrings list) lines) ∧
      (∀ cptr : BanClient, ∃ lines,
        removeMatchingNuhs cptr list letter = (lines, unhit cptr list) ∧
          Announces 0x2d letter ((nuhStrings list).filter cptr.hits) lines) ∧
      ∀ sign batch, (∀ w ∈ batch, w ≠ [] ∧ (0x20 : UInt8) ∉ w) →
        words (fun c => c = 0x20) (nuhLine sign letter batch).pbuf = batch :=
  ⟨sendNuhList_announces letter h, removeNuhList_announces letter h,
    fun cptr => removeMatchingNuhs_announces cptr letter h,
    fun _ _ hw => nuhLine_words (fun w hb => (hw w hb).1) fun w hb => (hw w hb).2⟩

/-- A ban on everybody, an entry without data and a ban on one nick. -/
def twoBans : NuhList :=
  [some ⟨some [0x2a, 0x21, 0x2a, 0x40, 0x2a]⟩, none,
    some ⟨some [0x61, 0x21, 0x2a, 0x40, 0x2a]⟩]

theorem twoBans_exact :
    ∃ lines, sendNuhList twoBans 0x62 [0x2b] [] = some lines ∧
      Announces 0x2b 0x62 (nuhStrings twoBans) lines := by
  refine (nuhLists_exact twoBans 0x62 fun bp hbp => ?_).1
  rcases List.mem_cons.mp hbp with heq | hbp
  · cases heq
    exact ⟨_, rfl, by decide, by decide⟩
  · rcases List.mem_cons.mp hbp with heq | hbp
    · cases heq
    · cases List.mem_singleton.mp hbp
      exact ⟨_, rfl, by decide, by decide⟩

/-- Two letters and one parameter: the empty mask is lost. -/
theorem sendNuhList_empty :
    let list : NuhList := [some ⟨some []⟩, some ⟨some [0x61]⟩]
    (∀ w ∈ nuhStrings list, w.length + 10 < modeBufLen) ∧
      sendNuhList list 0x62 [0x2b] [] = some [⟨[0x2b, 0x62, 0x62], [0x61]⟩] ∧
      ¬∃ lines, sendNuhList list 0x62 [0x2b] [] = some lines ∧
        Announces 0x2b 0x62 (nuhStrings list) lines := by
  refine ⟨by decide, by decide, ?_⟩
  rintro ⟨lines, hlines, batches, hflat, hmap, -⟩
  have hline : lines = [⟨[0x2b, 0x62, 0x62], [0x61]⟩] := by
    have hsent : sendNuhList [some ⟨some []⟩, some ⟨some [0x61]⟩] 0x62 [0x2b] [] =
        some [⟨[0x2b, 0x62, 0x62], [0x61]⟩] := by decide
    exact Option.some.inj (hlines.symm.trans hsent)
  rw [hline] at hmap
  obtain ⟨batch, hbatch, heq⟩ := List.map_eq_singleton_iff.mp hmap.symm
  rw [hbatch, List.flatten_singleton] at hflat
  rw [hflat] at heq
  exact absurd heq (by decide)

end TrIrcd
