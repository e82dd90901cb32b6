import TrIrcd.Lib.Alloc
import TrIrcd.Lib.Buckets
import TrIrcd.Src.Match

/-!
# `src/commands.c`: the command table

`msg_hash_table` chains `MessageHash` entries. An entry carries its own copy
of the command name and a pointer to the `Message`, which lives in the module
that registered it. The index is a sum of `int`s, so a name of some ten
million bytes overflows it, and that is an outcome of `hash`.
-/

namespace TrIrcd

open Function (update)
open TrIrcd.Lib

/-- `struct Message`, as far as the table touches it. -/
structure Message where
  cmd : List UInt8
  count : UInt32
  bytes : UInt64
deriving DecidableEq

/-- `msg_hash_table`, the entries it chains with the fields `cmd` and `msg`,
the ones `MyMalloc` handed out, and the messages. -/
structure CommandSt where
  msgHashTable : Buckets Nat Nat
  entryCmd : Nat → List UInt8
  entryMsg : Nat → Nat
  used : List Nat
  message : Nat → Message

inductive CommandFault
  | intOverflow
deriving DecidableEq

/-- `MAX_MSG_HASH` -/
def maxMsgHash : Nat := 387

/-- The loop of `hash`. -/
def hashLoop (hashVal : Nat) : List UInt8 → Except CommandFault Nat
  | [] => .ok hashVal
  | c :: p =>
      let hashVal := hashVal + (c &&& 0xDF).toNat
      if hashVal ≤ intMax then hashLoop hashVal p else .error .intOverflow

/-- `hash` -/
def hash (p : List UInt8) : Except CommandFault Nat :=
  (hashLoop 0 (cstr p)).map (· % maxMsgHash)

namespace CommandSt

/-- `clear_hash_parse` -/
def cleared (message : Nat → Message) : CommandSt where
  msgHashTable := Buckets.empty
  entryCmd _ := []
  entryMsg _ := 0
  used := []
  message := message

/-- The loop shared by all four functions: `last_ptr`, and the entry whose
name is `cmd`. -/
def seek (msgindex : Nat) (cmd : List UInt8) (s : CommandSt) :
    Option Nat × Option Nat :=
  s.msgHashTable.seek msgindex fun ptr => ircStrcmp cmd (s.entryCmd ptr) = 0

/-- `hash_parse` -/
def hashParse (cmd : List UInt8) (s : CommandSt) :
    Except CommandFault (Option Nat) :=
  (hash cmd).map fun msgindex => (s.seek msgindex cmd).2.map s.entryMsg

/-- A new entry for `msg` at the end of a chain. -/
def addEntry (A : Allocator) (msgindex : Nat) (lastPtr : Option Nat) (msg : Nat)
    (s : CommandSt) : CommandSt :=
  let newPtr := A.pick s.used
  { msgHashTable := s.msgHashTable.append msgindex lastPtr newPtr
    entryCmd := update s.entryCmd newPtr (cstr (s.message msg).cmd)
    entryMsg := update s.entryMsg newPtr msg
    used := newPtr :: s.used
    message := update s.message msg { s.message msg with count := 0, bytes := 0 } }

/-- `mod_add_cmd` -/
def modAddCmd (A : Allocator) (msg : Nat) (s : CommandSt) :
    Except CommandFault CommandSt :=
  (hash (s.message msg).cmd).map fun msgindex =>
    match s.seek msgindex (s.message msg).cmd with
    | (_, some _) => s
    | (lastPtr, none) => s.addEntry A msgindex lastPtr msg

/-- The entry `ptr`, which stands after `last_ptr`, is freed. -/
def delEntry (msgindex : Nat) (lastPtr : Option Nat) (ptr : Nat) (s : CommandSt) :
    CommandSt :=
  { s with
    msgHashTable := s.msgHashTable.unlinkAfter msgindex lastPtr ptr
    used := s.used.erase ptr }

/-- The common body of `mod_del_cmd` and `mod_del_msg`. -/
def delName (cmd : List UInt8) (s : CommandSt) : Except CommandFault CommandSt :=
  (hash cmd).map fun msgindex =>
    match s.seek msgindex cmd with
    | (lastPtr, some ptr) => s.delEntry msgindex lastPtr ptr
    | (_, none) => s

/-- `mod_del_cmd` -/
def modDelCmd (msg : Nat) (s : CommandSt) : Except CommandFault CommandSt :=
  delName (s.message msg).cmd s

/-- `mod_del_msg` -/
def modDelMsg (string : Option (List UInt8)) (s : CommandSt) :
    Except CommandFault CommandSt :=
  match string with
  | none => .ok s
  | some string => delName string s

end CommandSt

/-- Adding the bytes up without bound. -/
def letterSum : List UInt8 → Nat
  | [] => 0
  | c :: p => (c &&& 0xDF).toNat + letterSum p

theorem hashLoop_eq (p : List UInt8) : ∀ (hashVal : Nat), hashVal ≤ intMax →
    hashLoop hashVal p =
      if hashVal + letterSum p ≤ intMax then .ok (hashVal + letterSum p)
      else .error .intOverflow := by
  induction p with
  | nil =>
      intro hashVal hle
      rw [hashLoop, letterSum, Nat.add_zero, if_pos hle]
  | cons c p ih =>
      intro hashVal hle
      simp only [hashLoop]
      by_cases hc : hashVal + (c &&& 0xDF).toNat ≤ intMax
      · rw [if_pos hc, ih _ hc, letterSum, Nat.add_assoc]
      · rw [if_neg hc, letterSum, if_neg (by omega)]

/-- `hash` is the sum modulo the table size, unless the sum leaves `int`. -/
theorem hash_eq (p : List UInt8) :
    hash p = if letterSum (cstr p) ≤ intMax then
      .ok (letterSum (cstr p) % maxMsgHash) else .error .intOverflow := by
  rw [hash, hashLoop_eq _ 0 (Nat.zero_le _), Nat.zero_add]
  split <;> rfl

/-- The bit that `hash` clears is the one the two cases of a letter differ
in. -/
theorem toUpper_and (c : UInt8) : toUpper c &&& 0xDF = c &&& 0xDF := by
  have h : ∀ n : Fin 256, toUpper (UInt8.ofFin n) &&& 0xDF = UInt8.ofFin n &&& 0xDF := by
    decide +kernel
  exact h c.toFin

theorem letterSum_map_toUpper (p : List UInt8) :
    letterSum (p.map toUpper) = letterSum p := by
  induction p with
  | nil => rfl
  | cons c p ih => rw [List.map_cons, letterSum, letterSum, toUpper_and, ih]

/-- Names that `irc_strcmp` does not tell apart have the same index. -/
theorem hash_congr {s1 s2 : List UInt8} (h : ircStrcmp s1 s2 = 0) : hash s1 = hash s2 := by
  have hsum : letterSum (cstr s1) = letterSum (cstr s2) := by
    rw [← letterSum_map_toUpper, ircStrcmp_eq_zero.mp h, letterSum_map_toUpper]
  rw [hash_eq, hash_eq, hsum]

end TrIrcd
