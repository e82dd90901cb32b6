import Mathlib.Data.List.Chain
import TrIrcd.Proofs.ModeSigns
import TrIrcd.Src.SetMode

/-!
# The modes of a user that are reported

What changed is a list of letters, each set or cleared (`umodeChanges`), and the
text is made of it by writing a sign where the way changes (`signedText`). Read
back, the text is the list (`signedLetters_signedText`), so all that is to be
known of the text can be seen on the list.

Each letter takes one byte, and a sign one more. There are sixteen modes, so a
buffer of 32 bytes is too small for the text and its NUL if all of them change
and every one the other way than the one before, and for no other text
(`sendUmode_room_iff`). With one way only there is one sign, as for the callers
that have such a buffer, who report all modes as new.
-/

namespace TrIrcd

/-! ## Signed letters -/

/-- The changes as a text: a sign where the way is not that of the letter
before. -/
def signedText : Cmode → List (Bool × UInt8) → List UInt8
  | _, [] => []
  | what, (add, c) :: cs =>
      (if what = signCmode add then [c] else [signByte add, c]) ++ signedText (signCmode add) cs

theorem signCmode_inj {add add' : Bool} : signCmode add = signCmode add' ↔ add = add' := by
  revert add add'
  decide

theorem signedLetters_cons_sign (what : Cmode) (add : Bool) (text : List UInt8) :
    signedLetters what (signByte add :: text) = signedLetters (signCmode add) text := by
  cases add <;> rfl

theorem signedLetters_cons_letter (what : Cmode) {c : UInt8} (hc : isSign c = false)
    (text : List UInt8) : signedLetters what (c :: text) = (what, c) :: signedLetters what text := by
  have hne : c ≠ 43 ∧ c ≠ 45 := by simpa [isSign] using hc
  rw [signedLetters, if_neg hne.1, if_neg hne.2]

section Text

variable {what : Cmode} {cs : List (Bool × UInt8)}

/-- Read back, the text is the changes. -/
theorem signedLetters_signedText (h : ∀ x ∈ cs, isSign x.2 = false) :
    signedLetters what (signedText what cs) = cs.map fun x => (signCmode x.1, x.2) := by
  induction cs generalizing what with
  | nil => rfl
  | cons x cs ih =>
      obtain ⟨hc, hrest⟩ := List.forall_mem_cons.mp h
      rw [signedText, List.map_cons]
      split
      next hw =>
        rw [List.singleton_append, signedLetters_cons_letter what hc, hw, ih hrest]
      next =>
        rw [List.cons_append, List.singleton_append, signedLetters_cons_sign,
          signedLetters_cons_letter _ hc, ih hrest]

/-- Every sign has a letter behind it. -/
theorem signedText_signs (h : ∀ x ∈ cs, isSign x.2 = false) {pre post : List UInt8} {s : UInt8}
    (ht : signedText what cs = pre ++ s :: post) (hs : isSign s = true) :
    ∃ c post', post = c :: post' ∧ isSign c = false := by
  induction cs generalizing what pre with
  | nil => cases pre <;> cases ht
  | cons x cs ih =>
      obtain ⟨hc, hrest⟩ := List.forall_mem_cons.mp h
      -- The letter `x` is no sign, so `s` stands before or behind it.
      have hletter : ∀ {pre}, x.2 :: signedText (signCmode x.1) cs = pre ++ s :: post →
          ∃ c post', post = c :: post' ∧ isSign c = false := by
        intro pre ht
        cases pre with
        | nil =>
            obtain ⟨rfl, _⟩ := List.cons.inj ht
            exact absurd (hs.symm.trans hc) Bool.false_ne_true.symm
        | cons p pre => exact ih hrest (List.cons.inj ht).2
      rw [signedText] at ht
      split at ht
      next => exact hletter ht
      next =>
        cases pre with
        | nil => exact ⟨_, _, (List.cons.inj ht).2.symm, hc⟩
        | cons p pre => exact hletter (List.cons.inj ht).2

theorem signedText_cons_length (x : Bool × UInt8) :
    (signedText what (x :: cs)).length =
      (signedText (signCmode x.1) cs).length + if what = signCmode x.1 then 1 else 2 := by
  rw [signedText, List.length_append]
  split
  · exact Nat.add_comm ..
  · exact Nat.add_comm ..

/-- A byte for each letter, and one for each sign at most. -/
theorem signedText_length : (signedText what cs).length ≤ 2 * cs.length := by
  induction cs generalizing what with
  | nil => exact Nat.le_refl _
  | cons x cs ih =>
      have hrest := @ih (signCmode x.1)
      rw [signedText_cons_length, List.length_cons]
      split <;> omega

/-- There is a sign for each letter just when no two letters in a row go the same
way. -/
theorem signedText_length_eq_iff :
    (signedText what cs).length = 2 * cs.length ↔
      (∀ x ∈ cs.head?, what ≠ signCmode x.1) ∧ cs.IsChain fun x y => x.1 ≠ y.1 := by
  induction cs generalizing what with
  | nil => simp [signedText]
  | cons x cs ih =>
      have hle := @signedText_length (signCmode x.1) cs
      have hchain : (x :: cs).IsChain (fun x y => x.1 ≠ y.1) ↔
          (∀ y ∈ cs.head?, signCmode x.1 ≠ signCmode y.1) ∧ cs.IsChain fun x y => x.1 ≠ y.1 := by
        cases cs with
        | nil => simp
        | cons y cs => simp [signCmode_inj]
      rw [hchain, ← ih, signedText_cons_length, List.length_cons, List.head?_cons]
      simp only [Option.mem_some_iff, forall_eq']
      split
      next hw => exact iff_of_false (by omega) fun hn => hn.1 hw
      next hw => exact ⟨fun he => ⟨hw, by omega⟩, fun he => by omega⟩

theorem signedText_length_eq {add : Bool} (h : ∀ x ∈ cs, x.1 = add) :
    (signedText (signCmode add) cs).length = cs.length := by
  induction cs with
  | nil => rfl
  | cons x cs ih =>
      obtain ⟨rfl, hrest⟩ := List.forall_mem_cons.mp h
      rw [signedText_cons_length, if_pos rfl, ih hrest, List.length_cons]

/-- With one way there is one sign. -/
theorem signedText_length_le {add : Bool} (h : ∀ x ∈ cs, x.1 = add) :
    (signedText what cs).length ≤ cs.length + 1 := by
  cases cs with
  | nil => exact Nat.zero_le _
  | cons x cs =>
      obtain ⟨rfl, hrest⟩ := List.forall_mem_cons.mp h
      rw [signedText_cons_length, signedText_length_eq hrest, List.length_cons]
      split <;> omega

end Text

/-! ## What changes -/

namespace UmodeCall

variable (c : UmodeCall)

/-- A mode that is in use, and in the mask if the client is ours. -/
def shown (i : Nat) : Bool :=
  (umodetab i).inUse && !(c.myClient && (umodetab i).type &&& c.sendmask = 0)

/-- The change of a mode, if it is shown and changes. -/
def change (i : Nat) : Option (Bool × UInt8) :=
  if c.shown i then
    if (umodetab i).type &&& c.old ≠ 0 ∧ c.umode &&& (umodetab i).type = 0 then
      some (false, UInt8.ofNat i)
    else if (umodetab i).type &&& c.old = 0 ∧ c.umode &&& (umodetab i).type ≠ 0 then
      some (true, UInt8.ofNat i)
    else none
  else none

/-- The changes, in the order of the table. -/
def changes : List (Bool × UInt8) := (List.range' 64 63).filterMap c.change

/-- A turn of the loop puts the change of the mode behind the text. -/
theorem umodeChar_text (what : Cmode) (buf : List UInt8) (i : Nat) (cs : List (Bool × UInt8)) :
    (umodeChar c what buf i).2 ++ signedText (umodeChar c what buf i).1 cs =
      buf ++ signedText what ((c.change i).toList ++ cs) := by
  rw [umodeChar, change, shown]
  by_cases huse : (umodetab i).inUse = true
  · by_cases hmask : (c.myClient && (umodetab i).type &&& c.sendmask = 0) = true
    · simp only [huse, hmask, Bool.not_true, Bool.false_eq_true, if_false, if_true,
        Bool.and_false]
      rfl
    · simp only [huse, hmask, Bool.not_true, Bool.false_eq_true, if_false, Bool.not_false,
        Bool.and_self, if_true]
      by_cases hdel : (umodetab i).type &&& c.old ≠ 0 ∧ c.umode &&& (umodetab i).type = 0
      · rw [if_pos hdel, if_pos hdel]
        by_cases hw : what = .del
        · simp [hw, signedText, signCmode]
        · simp [hw, signedText, signCmode, signByte]
      · rw [if_neg hdel, if_neg hdel]
        by_cases hadd : (umodetab i).type &&& c.old = 0 ∧ c.umode &&& (umodetab i).type ≠ 0
        · rw [if_pos hadd, if_pos hadd]
          by_cases hw : what = .add
          · simp [hw, signedText, signCmode]
          · simp [hw, signedText, signCmode, signByte]
        · rw [if_neg hadd, if_neg hadd]
          rfl
  · simp [huse]

theorem foldl_umodeChar (is : List Nat) : ∀ st : Cmode × List UInt8,
    (is.foldl (fun st i => umodeChar c st.1 st.2 i) st).2 =
      st.2 ++ signedText st.1 (is.filterMap c.change) := by
  induction is with
  | nil => exact fun st => (List.append_nil st.2).symm
  | cons i is ih =>
      intro st
      have hcons : (i :: is).filterMap c.change =
          (c.change i).toList ++ is.filterMap c.change := by
        rw [List.filterMap_cons]
        cases c.change i <;> rfl
      rw [List.foldl_cons, ih, hcons, umodeChar_text]

/-- The text is made of the changes. -/
theorem sendUmode_eq : sendUmode c = signedText .list c.changes := by
  rw [sendUmode, foldl_umodeChar, List.nil_append, changes]

/-! ## The new word -/

/-- The word after the letters that were read. -/
def setUmodes (w : BitVec 64) (letters : List (Cmode × UInt8)) : BitVec 64 :=
  letters.foldl (fun w x => match x.1 with
    | .add => w ||| (umodetab x.2.toNat).type
    | .del => w &&& ~~~(umodetab x.2.toNat).type
    | .list => w) w

/-- The flags of the modes that are shown. -/
def mask : BitVec 64 :=
  ((List.range' 64 63).filter c.shown).foldl (fun m i => m ||| (umodetab i).type) 0

/-- A flag is one bit. -/
theorem umodetab_bit : ∀ i ∈ List.range' 64 63, (umodetab i).inUse = true →
    (umodetab i).type = BitVec.twoPow 64 (umodetab i).type.toNat.log2 := by
  decide

variable {i k : Nat}

/-- A test with a flag reads its bit. -/
theorem flag_and (hi : i ∈ List.range' 64 63) (huse : (umodetab i).inUse = true)
    (hk : (umodetab i).type.getLsbD k = true) (x : BitVec 64) :
    (umodetab i).type &&& x = 0 ↔ x.getLsbD k = false := by
  obtain ⟨n, hn⟩ : ∃ n, (umodetab i).type = BitVec.twoPow 64 n := ⟨_, umodetab_bit i hi huse⟩
  rw [hn, BitVec.getLsbD_twoPow, Bool.and_eq_true, decide_eq_true_eq, decide_eq_true_eq] at hk
  obtain ⟨hlt, rfl⟩ := hk
  rw [hn, BitVec.twoPow_and]
  cases x.getLsbD n with
  | true =>
      refine iff_of_false (fun h0 => ?_) Bool.noConfusion
      have hzero := congrArg (fun y : BitVec 64 => y.getLsbD n) h0
      simp [hlt] at hzero
  | false => exact iff_of_true rfl rfl

theorem shown_inUse (h : c.shown i = true) : (umodetab i).inUse = true :=
  (Bool.and_eq_true_iff.mp h).1

/-- What a change is. -/
theorem change_cases {x : Bool × UInt8} (h : c.change i = some x) : c.shown i = true ∧
    x.2 = UInt8.ofNat i ∧ ((x.1 = true ∧ (umodetab i).type &&& c.old = 0 ∧
      c.umode &&& (umodetab i).type ≠ 0) ∨ (x.1 = false ∧ (umodetab i).type &&& c.old ≠ 0 ∧
      c.umode &&& (umodetab i).type = 0)) := by
  rw [change] at h
  split at h
  next hs =>
    split at h
    next hdel =>
      cases h
      exact ⟨hs, rfl, Or.inr ⟨rfl, hdel⟩⟩
    next =>
      split at h
      next hadd =>
        cases h
        exact ⟨hs, rfl, Or.inl ⟨rfl, hadd⟩⟩
      next => cases h
  next => cases h

theorem change_none (h : c.change i = none) (hs : c.shown i = true) :
    (umodetab i).type &&& c.old = 0 ↔ c.umode &&& (umodetab i).type = 0 := by
  rw [change, if_pos hs] at h
  by_cases ho : (umodetab i).type &&& c.old = 0 <;> by_cases hn : c.umode &&& (umodetab i).type = 0
  · exact iff_of_true ho hn
  · rw [if_neg fun hd => hn hd.2, if_pos ⟨ho, hn⟩] at h
    cases h
  · rw [if_pos ⟨ho, hn⟩] at h
    cases h
  · exact iff_of_false ho hn

/-- Whether a bit is that of a mode that changes. -/
def changed (is : List Nat) (k : Nat) : Bool :=
  is.any fun i => (c.change i).isSome && (umodetab i).type.getLsbD k

/-- The letters bring the bits of the modes that change to what they are. -/
theorem setUmodes_bit (hk64 : k < 64) (is : List Nat) (his : ∀ i ∈ is, i ∈ List.range' 64 63) :
    ∀ w : BitVec 64, (setUmodes w ((is.filterMap c.change).map fun x =>
        (signCmode x.1, x.2))).getLsbD k =
      if c.changed is k then c.umode.getLsbD k else w.getLsbD k := by
  induction is with
  | nil => exact fun w => rfl
  | cons i is ih =>
      intro w
      obtain ⟨hi, hrest⟩ := List.forall_mem_cons.mp his
      cases hc : c.change i with
      | none =>
          rw [List.filterMap_cons_none hc, ih hrest, changed, changed, List.any_cons, hc]
          rfl
      | some x =>
          obtain ⟨hs, hx, hway⟩ := c.change_cases hc
          have hlt : i < 256 := by
            rw [List.mem_range'_1] at hi
            omega
          have hletter : x.2.toNat = i := by
            rw [hx]
            exact Nat.mod_eq_of_lt hlt
          have hany : c.changed (i :: is) k = ((umodetab i).type.getLsbD k || c.changed is k) := by
            rw [changed, List.any_cons, hc]
            rfl
          rw [List.filterMap_cons_some hc, List.map_cons, setUmodes, List.foldl_cons]
          refine (ih hrest _).trans ?_
          rw [hany]
          cases c.changed is k with
          | true => rw [Bool.or_true]; rfl
          | false =>
              have hflag := flag_and (k := k) hi (c.shown_inUse hs)
              rw [Bool.or_false]
              rcases hway with ⟨hadd, _, hnew⟩ | ⟨hdel, _, hnew⟩
              · rw [hadd, hletter]
                show (w ||| (umodetab i).type).getLsbD k = _
                rw [BitVec.getLsbD_or]
                cases hk : (umodetab i).type.getLsbD k with
                | false => rw [Bool.or_false]; rfl
                | true =>
                    rw [BitVec.and_comm, Ne, hflag hk, Bool.not_eq_false] at hnew
                    rw [hnew, Bool.or_true]
                    rfl
              · rw [hdel, hletter]
                show (w &&& ~~~(umodetab i).type).getLsbD k = _
                rw [BitVec.getLsbD_and, BitVec.getLsbD_not]
                cases hk : (umodetab i).type.getLsbD k with
                | false => simp [hk64]
                | true =>
                    rw [BitVec.and_comm, hflag hk] at hnew
                    rw [hnew]
                    simp

theorem foldl_or_bit {is : List Nat} (m : BitVec 64) :
    (is.foldl (fun m i => m ||| (umodetab i).type) m).getLsbD k =
      (m.getLsbD k || is.any fun i => (umodetab i).type.getLsbD k) := by
  induction is generalizing m with
  | nil => simp
  | cons i is ih => rw [List.foldl_cons, ih, BitVec.getLsbD_or, List.any_cons, Bool.or_assoc]

theorem mask_bit : c.mask.getLsbD k =
    (List.range' 64 63).any fun i => c.shown i && (umodetab i).type.getLsbD k := by
  rw [mask, foldl_or_bit, List.any_filter]
  simp

/-- The letters turn the old word into the new one on the modes that are shown. -/
theorem setUmodes_changes : setUmodes c.old (c.changes.map fun x => (signCmode x.1, x.2)) =
    (c.old &&& ~~~c.mask) ||| (c.umode &&& c.mask) := by
  refine BitVec.eq_of_getLsbD_eq fun k hk64 => ?_
  rw [changes, c.setUmodes_bit hk64 _ fun i hi => hi, BitVec.getLsbD_or, BitVec.getLsbD_and,
    BitVec.getLsbD_and, BitVec.getLsbD_not]
  cases hch : c.changed (List.range' 64 63) k with
  | true =>
      have hmask : c.mask.getLsbD k = true := by
        obtain ⟨i, hi, hx⟩ := List.any_eq_true.mp hch
        obtain ⟨hsome, hbit⟩ := Bool.and_eq_true_iff.mp hx
        obtain ⟨x, hx⟩ := Option.isSome_iff_exists.mp hsome
        rw [mask_bit]
        exact List.any_eq_true.mpr ⟨i, hi, Bool.and_eq_true_iff.mpr ⟨(c.change_cases hx).1, hbit⟩⟩
      rw [hmask]
      simp
  | false =>
      cases hmask : c.mask.getLsbD k with
      | false => simp [hk64]
      | true =>
          -- A mode with this bit is shown and does not change.
          rw [mask_bit] at hmask
          obtain ⟨i, hi, hx⟩ := List.any_eq_true.mp hmask
          obtain ⟨hs, hbit⟩ := Bool.and_eq_true_iff.mp hx
          have hno := List.any_eq_false.mp hch i hi
          rw [hbit, Bool.and_true, Option.not_isSome_iff_eq_none] at hno
          have hsame := c.change_none hno hs
          have hflag := flag_and (k := k) hi (c.shown_inUse hs) hbit
          rw [BitVec.and_comm c.umode, hflag, hflag] at hsame
          cases ho : c.old.getLsbD k <;> cases hn : c.umode.getLsbD k <;> simp_all

/-- A letter is that of a mode that is shown, and changes so. -/
structure Changes (x : Cmode × UInt8) (i : Nat) : Prop where
  letter : x.2 = UInt8.ofNat i
  shown : c.shown i = true
  way : x.1 = .add ∧ (umodetab i).type &&& c.old = 0 ∧ c.umode &&& (umodetab i).type ≠ 0 ∨
    x.1 = .del ∧ (umodetab i).type &&& c.old ≠ 0 ∧ c.umode &&& (umodetab i).type = 0

/-- What a text says about the change of the modes. -/
structure Reported (text : List UInt8) : Prop where
  applied : setUmodes c.old (signedLetters .list text) =
    (c.old &&& ~~~c.mask) ||| (c.umode &&& c.mask)
  changed : ∀ x ∈ signedLetters .list text, ∃ i ∈ List.range' 64 63, c.Changes x i
  signs : ∀ pre s post, text = pre ++ s :: post → isSign s = true →
    ∃ l post', post = l :: post' ∧ isSign l = false

/-- All sixteen modes change, each the other way than the one before. -/
def Alternates : Prop := c.changes.length = 16 ∧ c.changes.IsChain fun x y => x.1 ≠ y.1

theorem umodetab_noSign : ∀ i ∈ List.range' 64 63, isSign (UInt8.ofNat i) = false := by decide

theorem changes_noSign : ∀ x ∈ c.changes, isSign x.2 = false := by
  intro x hx
  obtain ⟨i, hi, hc⟩ := List.mem_filterMap.mp hx
  rw [(c.change_cases hc).2.1]
  exact umodetab_noSign i hi

theorem changes_length : c.changes.length ≤ 16 := by
  rw [changes, List.length_filterMap_eq_countP]
  have hcount : (List.range' 64 63).countP (fun i => (umodetab i).inUse) = 16 := by decide
  rw [← hcount]
  refine List.countP_mono_left fun i _ hsome => ?_
  obtain ⟨x, hx⟩ := Option.isSome_iff_exists.mp hsome
  exact c.shown_inUse (c.change_cases hx).1

/-- The text says what changes, and nothing else. It has room in 32 bytes unless
all modes change to and fro, and always if there were no modes before. -/
theorem sendUmode_reported : c.Reported (sendUmode c) ∧
    ((sendUmode c).length + 1 ≤ 32 ↔ ¬ c.Alternates) ∧
    (c.old = 0 → (sendUmode c).length + 1 ≤ 18) := by
  have hletters : signedLetters .list (sendUmode c) =
      c.changes.map fun x => (signCmode x.1, x.2) := by
    rw [sendUmode_eq, signedLetters_signedText c.changes_noSign]
  have hlen := c.changes_length
  refine ⟨⟨?_, ?_, ?_⟩, ?_, fun h0 => ?_⟩
  · rw [hletters, setUmodes_changes]
  · intro x hx
    rw [hletters] at hx
    obtain ⟨y, hy, rfl⟩ := List.mem_map.mp hx
    obtain ⟨i, hi, hc⟩ := List.mem_filterMap.mp hy
    obtain ⟨hs, hletter, hway⟩ := c.change_cases hc
    refine ⟨i, hi, hletter, hs, hway.imp (fun h => ?_) fun h => ?_⟩
    · exact ⟨by rw [h.1]; rfl, h.2⟩
    · exact ⟨by rw [h.1]; rfl, h.2⟩
  · intro pre s post ht hs
    rw [sendUmode_eq] at ht
    exact signedText_signs c.changes_noSign ht hs
  · have hle := @signedText_length .list c.changes
    have hiff := @signedText_length_eq_iff .list c.changes
    have hhead : ∀ x ∈ c.changes.head?, Cmode.list ≠ signCmode x.1 := by
      intro x _
      cases x.1 <;> exact Cmode.noConfusion
    rw [and_iff_right hhead] at hiff
    rw [Alternates, ← hiff, sendUmode_eq]
    omega
  · have hadd : ∀ x ∈ c.changes, x.1 = true := by
      intro x hx
      obtain ⟨i, hi, hc⟩ := List.mem_filterMap.mp hx
      obtain ⟨_, _, hway⟩ := c.change_cases hc
      rcases hway with ⟨hx, _⟩ | ⟨_, hold, _⟩
      · exact hx
      · rw [h0] at hold
        exact absurd (BitVec.and_zero ..) hold
    have hle := @signedText_length_le .list c.changes true hadd
    rw [sendUmode_eq]
    omega

/-- A user of another server all of whose modes change, on and off in turn. -/
theorem alternate_modes_overrun : ¬ (sendUmode ⟨false, 0x29d5, 0x1d42a, 0⟩).length + 1 ≤ 32 := by
  decide

end UmodeCall

end TrIrcd
