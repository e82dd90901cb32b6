import TrIrcd.Lib.Run
import TrIrcd.Src.Language

/-!
# A language is found if it is alone in its bucket

`langAdded` reads off a history of calls which language a name stands for.
`Holds s f` says that the table of `s` is the map `f`, with one language at
most in a bucket and none in the first: then the number of the bucket tells the
language. A call keeps that if it adds no language to a bucket that is taken,
nor to the first (`Free`); deleting keeps it always.

Where two names share a bucket, `get_language` answers for the one added first,
and deleting the other one deletes both.
-/

namespace TrIrcd

open Function (update)
open TrIrcd.Lib

inductive LangOp
  | add (langname helpdir : List UInt8) (fmtarray : Nat)
  | del (langname : List UInt8)

namespace LangOp

/-- The name a call works on. -/
def name : LangOp → List UInt8
  | .add langname _ _ => langname
  | .del langname => langname

/-- What the name `n` stands for after a call. -/
def apply (n : List UInt8) (op : LangOp) (current : Option LangHash) : Option LangHash :=
  if ircStrcmp n op.name = 0 then
    match op with
    | .add langname helpdir fmtarray =>
        current.or (some ⟨cstr langname, cstr helpdir, fmtarray⟩)
    | .del _ => none
  else current

end LangOp

/-- The calls of `clear_hash_lang`. -/
def clearOps (replies : Nat) : List LangOp :=
  [.add LangSt.standardName LangSt.enUs replies, .add LangSt.englishName LangSt.enUs replies]

/-- What the name `n` stands for after `clear_hash_lang` and a history of
calls. -/
def langAdded (replies : Nat) (ops : List LangOp) (n : List UInt8) : Option LangHash :=
  (clearOps replies ++ ops).foldl (fun current op => op.apply n current) none

namespace LangSt

def step (s : LangSt) : LangOp → Except CommandFault LangSt
  | .add langname helpdir fmtarray => langAddTable langname helpdir fmtarray s
  | .del langname => langDelTable langname s

/-- A language that is added has a bucket of its own, which is not the first. -/
def Free (s : LangSt) : LangOp → Prop
  | .add langname _ _ =>
      match langHash langname with
      | .ok i => (s.table i).any (LangHash.named langname) ∨ (i ≠ 0 ∧ s.table i = [])
      | .error _ => True
  | .del _ => True

instance (s : LangSt) (op : LangOp) : Decidable (Free s op) :=
  match op with
  | .del _ => .isTrue trivial
  | .add langname helpdir fmtarray => by
      rw [Free]
      split <;> infer_instance

/-- The table of `s` is the map `f`. -/
structure Holds (s : LangSt) (f : List UInt8 → Option LangHash) : Prop where
  first : s.table 0 = []
  alone : ∀ i, (s.table i).length ≤ 1
  lookup : ∀ n i, langHash n = .ok i → (s.table i).find? (LangHash.named n) = f n
  summed : ∀ n e, f n = some e → ∃ i, langHash n = .ok i

/-- The sum of the name's bytes leaves `int`. -/
def Overflows (langname : List UInt8) : Prop := intMax < letterSum (cstr langname)

variable {s : LangSt} {f : List UInt8 → Option LangHash}

theorem ok_or_overflows (n : List UInt8) :
    (∃ i, langHash n = .ok i) ∨ (Overflows n ∧ langHash n = .error .intOverflow) := by
  rw [langHash_eq]
  split
  · exact Or.inl ⟨_, rfl⟩
  · next h => exact Or.inr ⟨Nat.lt_of_not_le h, rfl⟩

theorem named_iff {n : List UInt8} {e : LangHash} :
    e.named n = true ↔ foldName e.langname = foldName n := by
  rw [LangHash.named, decide_eq_true_iff, ircStrcmp_eq_zero_iff]

/-- Names that are not told apart have the same entries. -/
theorem named_congr {n m : List UInt8} (h : ircStrcmp n m = 0) :
    LangHash.named n = LangHash.named m := by
  funext e
  rw [Bool.eq_iff_iff, named_iff, named_iff, ircStrcmp_eq_zero_iff.mp h]

theorem Holds.congr (h : Holds s f) {g : List UInt8 → Option LangHash}
    (hg : ∀ n, g n = f n) : Holds s g := by
  rw [funext hg]
  exact h

theorem Holds.add (h : Holds s f) (langname helpdir : List UInt8) (fmtarray : Nat)
    (hfree : Free s (.add langname helpdir fmtarray)) :
    Answers (fun s' => Holds s' fun n =>
        (LangOp.add langname helpdir fmtarray).apply n (f n))
      (fun _ => Overflows langname) (langAddTable langname helpdir fmtarray s) := by
  rw [langAddTable]
  rcases ok_or_overflows langname with ⟨i, hi⟩ | ⟨ho, he⟩
  · rw [Free, hi] at hfree
    rw [hi]
    simp only [Except.map, Answers]
    split
    next hany =>
      -- The name stands for something already.
      refine h.congr fun n => ?_
      rw [LangOp.apply, LangOp.name]
      split
      next hn =>
        have hl := h.lookup n i (by rw [langHash_congr hn, hi])
        rw [named_congr hn] at hl
        obtain ⟨e, he⟩ := Option.isSome_iff_exists.mp (List.find?_isSome.mpr
          (List.any_eq_true.mp hany))
        rw [← hl, he]
        rfl
      · rfl
    next hany =>
      obtain ⟨hi0, hnil⟩ := hfree.resolve_left hany
      refine ⟨?_, fun j => ?_, fun n j hj => ?_, fun n e he => ?_⟩
      · exact (Function.update_of_ne (Ne.symm hi0) ..).trans h.first
      · dsimp only
        by_cases hji : j = i
        · rw [hji, Function.update_self, hnil]
          exact Nat.le_refl 1
        · rw [Function.update_of_ne hji]
          exact h.alone j
      · dsimp only
        have hl := h.lookup n j hj
        rw [LangOp.apply, LangOp.name]
        by_cases hji : j = i
        · rw [hji, hnil] at hl
          rw [hji, Function.update_self, hnil, ← hl]
          split
          next hn =>
            have hname : LangHash.named n ⟨cstr langname, cstr helpdir, fmtarray⟩ = true := by
              rw [named_iff, foldName_cstr]
              exact ircStrcmp_eq_zero_iff.mp hn
            exact List.find?_cons_of_pos hname
          next hn =>
            refine List.find?_cons_of_neg fun hname => hn ?_
            rw [named_iff, foldName_cstr] at hname
            exact ircStrcmp_eq_zero_iff.mpr hname
        · rw [Function.update_of_ne hji, hl, if_neg]
          intro hn
          rw [langHash_congr hn, hi] at hj
          exact hji (Except.ok.inj hj).symm
      · rw [LangOp.apply, LangOp.name] at he
        split at he
        next hn => exact ⟨i, by rw [langHash_congr hn, hi]⟩
        · exact h.summed n e he
  · rw [he]
    exact ho

theorem Holds.del (h : Holds s f) (langname : List UInt8) :
    Answers (fun s' => Holds s' fun n => (LangOp.del langname).apply n (f n))
      (fun _ => Overflows langname) (langDelTable langname s) := by
  rw [langDelTable]
  rcases ok_or_overflows langname with ⟨i, hi⟩ | ⟨ho, he⟩
  · rw [hi]
    simp only [Except.map, Answers]
    have hgone : ∀ n, ircStrcmp n langname = 0 → f n = (s.table i).find? (LangHash.named langname) := by
      intro n hn
      rw [← h.lookup n i (by rw [langHash_congr hn, hi]), named_congr hn]
    have hone := h.alone i
    cases hv : s.table i with
    | nil =>
        refine h.congr fun n => ?_
        rw [LangOp.apply, LangOp.name]
        split
        next hn =>
          rw [hgone n hn, hv]
          rfl
        · rfl
    | cons e rest =>
        rw [hv, List.length_cons] at hone
        have hrest : rest = [] := List.length_eq_zero_iff.mp (by omega)
        rw [hrest] at hv ⊢
        rw [delLoop]
        by_cases hname : e.named langname = true
        · rw [if_pos hname]
          refine ⟨?_, fun j => ?_, fun n j hj => ?_, fun n e he => ?_⟩
          · by_cases h0 : 0 = i
            · rw [h0]
              exact Function.update_self ..
            · exact (Function.update_of_ne h0 ..).trans h.first
          · dsimp only
            by_cases hji : j = i
            · rw [hji, Function.update_self]
              exact Nat.zero_le _
            · rw [Function.update_of_ne hji]
              exact h.alone j
          · dsimp only
            have hl := h.lookup n j hj
            rw [LangOp.apply, LangOp.name]
            by_cases hji : j = i
            · rw [hji, Function.update_self]
              split
              · rfl
              next hn =>
                rw [hji, hv] at hl
                rw [← hl]
                refine (List.find?_cons_of_neg fun hne => hn ?_).symm
                rw [named_iff] at hname hne
                exact ircStrcmp_eq_zero_iff.mpr (hname.symm.trans hne)
            · rw [Function.update_of_ne hji, hl, if_neg]
              intro hn
              rw [langHash_congr hn, hi] at hj
              exact hji (Except.ok.inj hj).symm
          · rw [LangOp.apply, LangOp.name] at he
            split at he
            · cases he
            · exact h.summed n e he
        · rw [if_neg hname, delLoop]
          refine h.congr fun n => ?_
          rw [LangOp.apply, LangOp.name]
          split
          next hn =>
            rw [hgone n hn, hv, List.find?_cons_of_neg hname]
            rfl
          · rfl
  · rw [he]
    exact ho

/-- One call changes the map as the history does. -/
theorem step_holds (h : Holds s f) (op : LangOp) (hfree : Free s op) :
    Answers (fun s' => Holds s' fun n => op.apply n (f n)) (fun _ => Overflows op.name)
      (step s op) := by
  cases op with
  | add langname helpdir fmtarray => exact h.add langname helpdir fmtarray hfree
  | del langname => exact h.del langname

theorem run_holds : ∀ (ops : List LangOp) {s : LangSt} {f : List UInt8 → Option LangHash},
    Holds s f → Meets step Free s ops →
    Answers (fun s' => Holds s' fun n => ops.foldl (fun current op => op.apply n current) (f n))
      (fun _ => ∃ op ∈ ops, Overflows op.name) (run step s ops)
  | [], _, _, h, _ => h
  | op :: ops, s, f, h, hfree => by
      have hs := step_holds h op hfree.1
      rw [run]
      cases he : step s op with
      | error e =>
          rw [he] at hs
          exact ⟨op, List.mem_cons_self .., hs⟩
      | ok m =>
          rw [he] at hs
          refine (run_holds ops hs (hfree.2 m he)).imp (fun _ h' => h') fun e hex => ?_
          obtain ⟨op', hop, ho⟩ := hex
          exact ⟨op', List.mem_cons_of_mem _ hop, ho⟩

/-- A language that the map has is alone in the bucket of its name. -/
theorem Holds.alone_in (h : Holds s f) {n : List UInt8} {i : Nat} {e : LangHash}
    (hi : langHash n = .ok i) (he : f n = some e) :
    i ≠ 0 ∧ s.table i = [e] ∧ e.named n = true := by
  have hl := h.lookup n i hi
  rw [he] at hl
  obtain ⟨hmem, hname⟩ := (List.mem_of_find?_eq_some hl), List.find?_some hl
  have hone := h.alone i
  cases hv : s.table i with
  | nil =>
      rw [hv] at hmem
      cases hmem
  | cons x rest =>
      rw [hv, List.length_cons] at hone
      have hrest : rest = [] := List.length_eq_zero_iff.mp (by omega)
      rw [hv, hrest] at hmem
      rw [hrest, List.mem_singleton.mp hmem]
      refine ⟨fun h0 => ?_, rfl, ?_⟩
      · rw [h0, h.first] at hv
        cases hv
      · rw [← List.mem_singleton.mp hmem]
        exact hname

/-- The language that a client gets by its name. -/
theorem Holds.found (h : Holds s f) {n : List UInt8} {i : Nat} {e : LangHash}
    (hi : langHash n = .ok i) (he : f n = some e) (meLang : Nat) :
    langParse n s = .ok i ∧ s.entry meLang i = some e := by
  obtain ⟨h0, hv, hname⟩ := h.alone_in hi he
  constructor
  · rw [langParse, hi]
    simp only [Except.map, hv, List.any_cons, hname, Bool.true_or, if_true]
  · rw [entry, if_pos h0, hv]
    rfl

/-- What `clear_hash_lang` leaves. -/
def cleared (replies : Nat) : LangSt where
  table := update (update (fun _ => []) 206 [⟨standardName, enUs, replies⟩])
    135 [⟨englishName, enUs, replies⟩]
  standardindex := 135

theorem clearHashLang_eq (replies : Nat) (s : LangSt) :
    clearHashLang replies s = .ok (cleared replies) := rfl

theorem cleared_holds (replies : Nat) : Holds (cleared replies) (langAdded replies []) := by
  have hempty : Holds { table := fun _ => [], standardindex := 135 } fun _ => none :=
    ⟨rfl, fun _ => Nat.zero_le _, fun _ _ _ => rfl, fun _ _ => nofun⟩
  have hone := hempty.add standardName enUs replies (Or.inr ⟨by decide, rfl⟩)
  have htwo := Holds.add hone englishName enUs replies (Or.inr ⟨by decide, rfl⟩)
  exact htwo

/-- In a run that adds each language to a bucket of its own, a language is found
as it was added last, and deleting another one does not change that. -/
theorem languages_found (replies meLang : Nat) (s₀ s : LangSt) (ops : List LangOp)
    (hc : clearHashLang replies s₀ = .ok s) (hfree : Meets step Free s ops) :
    Answers
      (fun s' => ∀ n e, langAdded replies ops n = some e →
        ∃ i, langParse n s' = .ok i ∧ getLanguage replies meLang i s' = e.fmtarray ∧
          getLangpath enUs meLang i s' = e.helpdirname ∧
          ∀ m s'', langDelTable m s' = .ok s'' → ircStrcmp n m ≠ 0 →
            langParse n s'' = .ok i ∧ getLanguage replies meLang i s'' = e.fmtarray)
      (fun _ => ∃ op ∈ ops, Overflows op.name) (run step s ops) := by
  rw [clearHashLang_eq] at hc
  cases hc
  refine (run_holds ops (cleared_holds replies) hfree).imp (fun s' h n e he => ?_)
    fun _ => id
  have hadded : ops.foldl (fun current op => op.apply n current) (langAdded replies [] n) =
      some e := he
  obtain ⟨i, hi⟩ := h.summed n e hadded
  obtain ⟨hparse, hentry⟩ := h.found hi hadded meLang
  refine ⟨i, hparse, by rw [getLanguage, hentry]; rfl, by rw [getLangpath, hentry]; rfl,
    fun m s'' hdel hne => ?_⟩
  have hd := h.del m
  rw [hdel] at hd
  have hadded' : (LangOp.del m).apply n
      (ops.foldl (fun current op => op.apply n current) (langAdded replies [] n)) = some e := by
    rw [LangOp.apply, LangOp.name, if_neg hne, hadded]
  obtain ⟨hparse', hentry'⟩ := Holds.found hd hi hadded' meLang
  exact ⟨hparse', by rw [getLanguage, hentry']; rfl⟩

/-- `ab` -/
def ab : List UInt8 := [0x61, 0x62]

/-- `ba` -/
def ba : List UInt8 := [0x62, 0x61]

theorem languages_found_greek :
    Answers
      (fun s' => ∀ n e, langAdded 1 [.add ab [0x65] 2, .add [0x67] [0x67] 3, .del ab] n = some e →
        ∃ i, langParse n s' = .ok i ∧ getLanguage 1 0 i s' = e.fmtarray ∧
          getLangpath enUs 0 i s' = e.helpdirname ∧
          ∀ m s'', langDelTable m s' = .ok s'' → ircStrcmp n m ≠ 0 →
            langParse n s'' = .ok i ∧ getLanguage 1 0 i s'' = e.fmtarray)
      (fun _ => ∃ op ∈ [LangOp.add ab [0x65] 2, .add [0x67] [0x67] 3, .del ab],
        Overflows op.name)
      (run step (cleared 1) [.add ab [0x65] 2, .add [0x67] [0x67] 3, .del ab]) :=
  languages_found 1 0 (cleared 1) (cleared 1) _ (clearHashLang_eq 1 _) (by decide)

/-- Two names with the same letters: the second is found as the first, and
deleting it deletes both. -/
theorem anagram_lost :
    ∃ s s', clearHashLang 1 (cleared 1) = .ok (cleared 1) ∧
      run step (cleared 1) [.add ab [0x65] 2, .add ba [0x66] 3] = .ok s ∧
      langAdded 1 [.add ab [0x65] 2, .add ba [0x66] 3] ba = some ⟨ba, [0x66], 3⟩ ∧
      (langParse ba s).map (fun i => getLanguage 1 0 i s) = .ok 2 ∧
      langDelTable ba s = .ok s' ∧
      (langParse ab s').map (fun i => getLanguage 1 0 i s') = .ok 1 := by
  refine ⟨_, _, rfl, rfl, by decide, rfl, rfl, rfl⟩

end LangSt

end TrIrcd
