import TrIrcd.Src.Bans
import TrIrcd.Proofs.MaskLanguage

/-!
# Masks that are refused as redundant

`add_id` and `add_silence` refuse a mask if a mask of the list accepts it, as a
text. In this text the wild cards of the new mask are characters. Where a star
of the old mask takes them, or a question mark takes a question mark, nothing
is lost, since whatever the new mask stands for there the old one takes too
(`Covers.inMask`). A question mark of the old mask that takes a star of the new
one is wrong: the star stands for any number of characters.

So what is refused was in the lists already, as long as some mask of the list
takes the new one without such a question mark (`refused_included`).
-/

namespace TrIrcd

open TrIrcd.Lib

/-! ## One mask against the text of another -/

/-- A character of a mask takes one of another mask that is not a star. -/
def Faces (c d : UInt8) : Prop := d ≠ 0x2a ∧ (c = 0x3f ∨ SameLetter c d)

instance (c d : UInt8) : Decidable (Faces c d) :=
  inferInstanceAs (Decidable (d ≠ 0x2a ∧ (c = 0x3f ∨ SameLetter c d)))

/-- The stars of a mask, and its other characters. -/
def starTok (c : UInt8) : Tok UInt8 := if c = 0x2a then .star else .lit c

/-- The mask takes the text of the other one, and only its stars take stars. -/
def Covers (mask id : List UInt8) : Prop := Matches Faces (mask.map starTok) id

instance (mask id : List UInt8) : Decidable (Covers mask id) :=
  inferInstanceAs (Decidable (Matches Faces (mask.map starTok) id))

theorem toLower_eq_mark {c : UInt8} (h : SameLetter c 0x3f) : c = 0x3f := by
  simp only [SameLetter, toLower] at h
  grind

theorem Faces.over {c d : UInt8} (hc : c ≠ 0x2a) (h : Faces c d) :
    Tok.Over SameLetter (plainTok c) (plainTok d) := by
  obtain ⟨hd, htakes⟩ := h
  rw [plainTok, plainTok, if_neg hc, if_neg hd]
  refine ⟨by split <;> simp, fun e he => ?_⟩
  by_cases hmark : c = 0x3f
  · rw [if_pos hmark]
    trivial
  · have hsame : SameLetter c d := htakes.resolve_left hmark
    have hdmark : d ≠ 0x3f := fun hd => hmark (toLower_eq_mark (hd ▸ hsame))
    rw [if_neg hdmark] at he
    rw [if_neg hmark]
    exact hsame.trans he

theorem Covers.lift {mask : List UInt8} : ∀ {id : List UInt8}, Covers mask id →
    Matches (Tok.Over SameLetter) ((mask.map plainTok).map Tok.lift) (id.map plainTok) := by
  induction mask with
  | nil =>
      intro id h
      rw [show id = [] from h]
      rfl
  | cons c mask ih =>
      intro id h
      by_cases hc : c = 0x2a
      · subst hc
        obtain ⟨v, hv, hm⟩ := h
        exact ⟨v.map plainTok, hv.map plainTok, ih hm⟩
      · have hstar : starTok c = .lit c := if_neg hc
        have hlift : (plainTok c).lift = .lit (plainTok c) := by
          rw [plainTok, if_neg hc]
          split <;> rfl
        rw [Covers, List.map_cons, hstar] at h
        obtain ⟨d, v, rfl, hfaces, hm⟩ := h
        rw [List.map_cons, List.map_cons, hlift]
        exact ⟨plainTok d, v.map plainTok, rfl, hfaces.over hc, ih hm⟩

/-- What the covered mask stands for, the other stands for as well. -/
theorem Covers.inMask {mask id name : List UInt8} (h : Covers mask id) (hmask : 0x5c ∉ mask)
    (hid : 0x5c ∉ id) (hname : InMask id name) : InMask mask name := by
  rw [InMask, maskToks_of_notMem hid] at hname
  rw [InMask, maskToks_of_notMem hmask]
  exact h.lift.includes hname

/-- Masks that differ in case only cover each other. -/
theorem covers_of_toUpper : ∀ {mask id : List UInt8}, mask.map toUpper = id.map toUpper →
    Covers mask id
  | [], [], _ => rfl
  | [], _ :: _, h => by simp at h
  | _ :: _, [], h => by simp at h
  | c :: mask, d :: id, h => by
      rw [List.map_cons, List.map_cons, List.cons.injEq] at h
      have hstar : c = 0x2a ↔ d = 0x2a := by
        have hup : ∀ a : UInt8, toUpper a = 0x2a ↔ a = 0x2a := by
          intro a
          simp only [toUpper]
          grind
        rw [← hup c, ← hup d, h.1]
      have hrest := covers_of_toUpper h.2
      rw [Covers, List.map_cons, starTok]
      split
      · exact ⟨id, List.suffix_cons d id, hrest⟩
      · next hc =>
          exact ⟨d, id, rfl, ⟨fun hd => hc (hstar.mpr hd), .inr (toLower_eq_iff.mpr h.1)⟩, hrest⟩

theorem covers_of_ircStrcmp {mask id : List UInt8} (hmask : 0 ∉ mask) (hid : 0 ∉ id)
    (h : ircStrcmp mask id = 0) : Covers mask id := by
  rw [ircStrcmp_eq_zero, cstr_of_notMem hmask, cstr_of_notMem hid] at h
  exact covers_of_toUpper h

/-! ## The lists -/

/-- The entries `add_id` compares with, before the list is full. -/
def addIdSeen (myClient : Bool) (maxnums : Int) (list : List NuhEntry) : List NuhEntry :=
  if myClient then list.take (maxnums - 1).toNat else list

/-- The masks `add_silence` compares with, before the list is full. -/
def silenceSeen : Nat → Nat → List (List UInt8) → List (List UInt8)
  | _, _, [] => []
  | cnt, len, cp :: silence =>
      if maxSileLength < len + cp.length ∨ maxSiles ≤ cnt + 1 then []
      else cp :: silenceSeen (cnt + 1) (len + cp.length) silence

section AddId

variable {accepts : List UInt8 → List UInt8 → Int} {id : List UInt8} {maxnums : Int}

theorem addIdLoop_local (cnt : Int) (e : NuhEntry) (list : List NuhEntry) :
    addIdLoop accepts true id maxnums cnt (e :: list) =
      if maxnums ≤ cnt + 1 then some .listFull
      else if accepts e.nuhstr id = 0 then some .redundant
      else addIdLoop accepts true id maxnums (cnt + 1) list := by
  simp [addIdLoop]

theorem addIdLoop_remote (cnt : Int) (e : NuhEntry) (list : List NuhEntry) :
    addIdLoop accepts false id maxnums cnt (e :: list) =
      if accepts e.nuhstr id = 0 then some .redundant
      else addIdLoop accepts false id maxnums cnt list := by
  simp [addIdLoop]

theorem addIdLoop_redundant_remote {cnt : Int} {list : List NuhEntry}
    (h : addIdLoop accepts false id maxnums cnt list = some .redundant) :
    ∃ e ∈ list, accepts e.nuhstr id = 0 := by
  induction list with
  | nil => cases h
  | cons e list ih =>
      rw [addIdLoop_remote] at h
      split at h
      · next hacc => exact ⟨e, List.mem_cons_self, hacc⟩
      · obtain ⟨e', he', hacc⟩ := ih h
        exact ⟨e', List.mem_cons_of_mem _ he', hacc⟩

theorem addIdLoop_redundant_local {cnt : Int} {list : List NuhEntry}
    (h : addIdLoop accepts true id maxnums cnt list = some .redundant) :
    ∃ e ∈ list.take (maxnums - cnt - 1).toNat, accepts e.nuhstr id = 0 := by
  induction list generalizing cnt with
  | nil => cases h
  | cons e list ih =>
      rw [addIdLoop_local] at h
      split at h
      · cases h
      · have hmore : (maxnums - cnt - 1).toNat = (maxnums - (cnt + 1) - 1).toNat + 1 := by omega
        rw [hmore, List.take_succ_cons]
        split at h
        · next hacc => exact ⟨e, List.mem_cons_self, hacc⟩
        · obtain ⟨e', he', hacc⟩ := ih h
          exact ⟨e', List.mem_cons_of_mem _ he', hacc⟩

theorem addIdLoop_redundant {list : List NuhEntry} {myClient : Bool}
    (h : addIdLoop accepts myClient id maxnums 0 list = some .redundant) :
    ∃ e ∈ addIdSeen myClient maxnums list, accepts e.nuhstr id = 0 := by
  cases myClient with
  | false => exact addIdLoop_redundant_remote h
  | true =>
      have hseen := addIdLoop_redundant_local h
      rwa [Int.sub_zero] at hseen

end AddId

section AddSilence

variable {accepts : List UInt8 → List UInt8 → Int} {mask : List UInt8}
  {silence : List (List UInt8)} {cnt len : Nat}

theorem addSilenceLoop_redundant_local
    (h : addSilenceLoop accepts true mask cnt len silence = some .redundant) :
    ∃ cp ∈ silenceSeen cnt len silence, accepts cp mask = 0 := by
  induction silence generalizing cnt len with
  | nil => cases h
  | cons cp silence ih =>
      rw [addSilenceLoop, if_pos rfl] at h
      rw [silenceSeen]
      split at h
      · cases h
      · next hroom =>
          rw [if_neg hroom]
          split at h
          · next hacc => exact ⟨cp, List.mem_cons_self, hacc⟩
          · obtain ⟨cp', hcp', hacc⟩ := ih h
            exact ⟨cp', List.mem_cons_of_mem _ hcp', hacc⟩

theorem addSilenceLoop_redundant_remote
    (h : addSilenceLoop accepts false mask cnt len silence = some .redundant) :
    ∃ cp ∈ silence, ircStrcmp cp mask = 0 := by
  induction silence generalizing cnt len with
  | nil => cases h
  | cons cp silence ih =>
      rw [addSilenceLoop, if_neg Bool.false_ne_true] at h
      split at h
      · next hsame => exact ⟨cp, List.mem_cons_self, hsame⟩
      · obtain ⟨cp', hcp', hsame⟩ := ih h
        exact ⟨cp', List.mem_cons_of_mem _ hcp', hsame⟩

end AddSilence

/-- If a mask is refused by some mask, one of the list covers it. -/
def CoveredIfMet (seen masks : List (List UInt8)) (id : List UInt8) : Prop :=
  (∃ mask ∈ seen, matchFree mask id = 0) → ∃ mask ∈ masks, Covers mask id

instance (seen masks : List (List UInt8)) (id : List UInt8) : Decidable (CoveredIfMet seen masks id) :=
  inferInstanceAs (Decidable ((∃ mask ∈ seen, matchFree mask id = 0) → ∃ mask ∈ masks, Covers mask id))

/-- What `add_id` and `add_silence` refuse as redundant is in the list already. -/
theorem refused_included {list : List NuhEntry} {silence : List (List UInt8)} {id : List UInt8}
    (hlist : ∀ e ∈ list, 0x5c ∉ e.nuhstr) (hsilence : ∀ cp ∈ silence, 0 ∉ cp ∧ 0x5c ∉ cp)
    (hid : 0 ∉ id ∧ 0x5c ∉ id) (myClient : Bool) (maxnums : Int)
    (hmet : CoveredIfMet ((addIdSeen myClient maxnums list).map NuhEntry.nuhstr)
      (list.map NuhEntry.nuhstr) id)
    (hmetSilence : myClient = true → CoveredIfMet (silenceSeen 0 0 silence) silence id) :
    ((addId matchFree myClient id maxnums list).2 = some .redundant →
        ∀ name, InMask id name → ∃ e ∈ list, InMask e.nuhstr name) ∧
      ((addSilence matchFree myClient id silence).2 = some .redundant →
        ∀ name, InMask id name → ∃ cp ∈ silence, InMask cp name) := by
  constructor
  · intro hrefused name hname
    have hloop : addIdLoop matchFree myClient id maxnums 0 list = some .redundant := by
      rw [addId] at hrefused
      split at hrefused
      · next h => rw [h]; exact hrefused
      · cases hrefused
    obtain ⟨e, he, hacc⟩ := addIdLoop_redundant hloop
    obtain ⟨mask, hmask, hcovers⟩ := hmet ⟨e.nuhstr, List.mem_map_of_mem he, hacc⟩
    obtain ⟨e', he', rfl⟩ := List.mem_map.mp hmask
    exact ⟨e', he', hcovers.inMask (hlist e' he') hid.2 hname⟩
  · intro hrefused name hname
    have hloop : addSilenceLoop matchFree myClient id 0 0 silence = some .redundant := by
      rw [addSilence] at hrefused
      split at hrefused
      · next h => rw [h]; exact hrefused
      · cases hrefused
    have hcovers : ∃ cp ∈ silence, Covers cp id := by
      cases myClient with
      | true => exact hmetSilence rfl (addSilenceLoop_redundant_local hloop)
      | false =>
          obtain ⟨cp, hcp, hsame⟩ := addSilenceLoop_redundant_remote hloop
          exact ⟨cp, hcp, covers_of_ircStrcmp (hsilence cp hcp).1 hid.1 hsame⟩
    obtain ⟨cp, hcp, hc⟩ := hcovers
    exact ⟨cp, hcp, hc.inMask (hsilence cp hcp).2 hid.2 hname⟩

/-- `*!?@h` covers `*!u@h`. -/
theorem refused_included_user :
    let list : List NuhEntry := [⟨[0x2a, 0x21, 0x3f, 0x40, 0x68], .userhost⟩]
    let id : List UInt8 := [0x2a, 0x21, 0x75, 0x40, 0x68]
    (addId matchFree true id 100 list).2 = some .redundant ∧
      ∀ name, InMask id name → ∃ e ∈ list, InMask e.nuhstr name := by
  have hincluded := (@refused_included [⟨[0x2a, 0x21, 0x3f, 0x40, 0x68], .userhost⟩]
    [[0x2a, 0x21, 0x3f, 0x40, 0x68]] [0x2a, 0x21, 0x75, 0x40, 0x68] (by decide) (by decide)
    (by decide) true 100 (by decide) fun _ => by decide).1
  have hrefused : (addId matchFree true [0x2a, 0x21, 0x75, 0x40, 0x68] 100
      [⟨[0x2a, 0x21, 0x3f, 0x40, 0x68], .userhost⟩]).2 = some .redundant := by decide
  exact ⟨hrefused, hincluded hrefused⟩

/-- `?!*@*` takes the text `*!*@*`, and `ab!u@h` is in the language of the second
only. -/
theorem refused_not_included :
    ¬ ∀ (list : List NuhEntry) (silence : List (List UInt8)) (id : List UInt8) (myClient : Bool)
        (maxnums : Int), (∀ e ∈ list, 0x5c ∉ e.nuhstr) → (∀ cp ∈ silence, 0 ∉ cp ∧ 0x5c ∉ cp) →
      0 ∉ id ∧ 0x5c ∉ id →
      ((addId matchFree myClient id maxnums list).2 = some .redundant →
          ∀ name, InMask id name → ∃ e ∈ list, InMask e.nuhstr name) ∧
        ((addSilence matchFree myClient id silence).2 = some .redundant →
          ∀ name, InMask id name → ∃ cp ∈ silence, InMask cp name) := by
  intro h
  have hincluded := (h [⟨[0x3f, 0x21, 0x2a, 0x40, 0x2a], .full⟩] []
    [0x2a, 0x21, 0x2a, 0x40, 0x2a] true 100 (by decide) (by decide) (by decide)).1
    (by decide) [0x61, 0x62, 0x21, 0x75, 0x40, 0x68] (by decide)
  revert hincluded
  decide

end TrIrcd
