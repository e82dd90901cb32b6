import TrIrcd.Src.Commands

/-!
# `server/s_numeric.c`: the languages

`lang_hash_table` chains the languages whose names have the same sum. A client
keeps the number of the bucket as its language, and whoever needs the texts
takes the first of that bucket. Where there is none, or for the number 0, the
server's own language stands in, and then the texts that are compiled in.

An array of texts is a pointer. `me.lang` is an argument of the functions that
read it.
-/

namespace TrIrcd

open Function (update)
open TrIrcd.Lib

/-- `MAX_LANG_HASH` -/
def maxLangHash : Nat := 387

/-- `struct LangHash`, without its link. -/
structure LangHash where
  langname : List UInt8
  helpdirname : List UInt8
  fmtarray : Nat
deriving DecidableEq

/-- `lang_hash_table` and `standardindex`. -/
structure LangSt where
  table : Nat → List LangHash
  standardindex : Nat

/-- `hash` of this file. -/
def langHash (p : List UInt8) : Except CommandFault Nat :=
  (hashLoop 0 (cstr p)).map (· % maxLangHash)

/-- The comparison of the loops. -/
def LangHash.named (langname : List UInt8) (ptr : LangHash) : Bool :=
  ircStrcmp langname ptr.langname = 0

namespace LangSt

/-- `lang_add_table` -/
def langAddTable (langname helpdir : List UInt8) (fmtarray : Nat) (s : LangSt) :
    Except CommandFault LangSt :=
  (langHash langname).map fun langindex =>
    if (s.table langindex).any (LangHash.named langname) then s
    else
      { s with
        table := update s.table langindex
          (s.table langindex ++ [⟨cstr langname, cstr helpdir, fmtarray⟩]) }

/-- What `lang_del_table` leaves of a chain. `last_ptr` stays `NULL` all along,
so what stands before the language goes with it. -/
def delLoop (langname : List UInt8) : List LangHash → Option (List LangHash)
  | [] => none
  | ptr :: next => if ptr.named langname then some next else delLoop langname next

/-- `lang_del_table` -/
def langDelTable (langname : List UInt8) (s : LangSt) : Except CommandFault LangSt :=
  (langHash langname).map fun langindex =>
    match delLoop langname (s.table langindex) with
    | none => s
    | some next => { s with table := update s.table langindex next }

/-- `lang_parse` -/
def langParse (givenname : List UInt8) (s : LangSt) : Except CommandFault Nat :=
  (langHash givenname).map fun langindex =>
    if (s.table langindex).any (LangHash.named givenname) then langindex else 0

/-- The language that `get_language` and `get_langpath` find. -/
def entry (meLang langindex : Nat) (s : LangSt) : Option LangHash :=
  if langindex ≠ 0 then (s.table langindex).head?
  else if meLang ≠ 0 then (s.table meLang).head?
  else none

/-- `get_language` -/
def getLanguage (replies meLang langindex : Nat) (s : LangSt) : Nat :=
  ((s.entry meLang langindex).map LangHash.fmtarray).getD replies

/-- `get_langpath` of a client whose language is `langindex`. -/
def getLangpath (enUs : List UInt8) (meLang langindex : Nat) (s : LangSt) : List UInt8 :=
  ((s.entry meLang langindex).map LangHash.helpdirname).getD enUs

/-- `standard` -/
def standardName : List UInt8 := [0x73, 0x74, 0x61, 0x6e, 0x64, 0x61, 0x72, 0x64]

/-- `english` -/
def englishName : List UInt8 := [0x65, 0x6e, 0x67, 0x6c, 0x69, 0x73, 0x68]

/-- `en_us` -/
def enUs : List UInt8 := [0x65, 0x6e, 0x5f, 0x75, 0x73]

/-- `clear_hash_lang` -/
def clearHashLang (replies : Nat) (s : LangSt) : Except CommandFault LangSt :=
  (langAddTable standardName enUs replies { s with table := fun _ => [] }).bind fun s =>
    (langAddTable englishName enUs replies s).bind fun s =>
      (langHash englishName).map fun standardindex => { s with standardindex := standardindex }

end LangSt

/-! ## The index -/

theorem langHash_eq (p : List UInt8) :
    langHash p = if letterSum (cstr p) ≤ intMax then
      .ok (letterSum (cstr p) % maxLangHash) else .error .intOverflow := by
  rw [langHash, hashLoop_eq _ 0 (Nat.zero_le _), Nat.zero_add]
  split <;> rfl

theorem langHash_congr {s1 s2 : List UInt8} (h : ircStrcmp s1 s2 = 0) :
    langHash s1 = langHash s2 := by
  have hsum : letterSum (cstr s1) = letterSum (cstr s2) := by
    rw [← letterSum_map_toUpper, ircStrcmp_eq_zero.mp h, letterSum_map_toUpper]
  rw [langHash_eq, langHash_eq, hsum]

end TrIrcd
