import TrIrcd.Src.Maskitem

/-!
# `newconf/maskfile_parser.y`: the mask file

The actions of the grammar, for items as the parser finds them: the action of a
field runs when the field has been read, and that of `all_items` when the item
has. They hand each other the texts in `host`, `user` and `reason`, and `MyFree`
frees what these point to without setting them.

`yylval.string` is the text of the `QSTRING` that was read last, which is that of
the field. What the parser makes of a text that is no item is left out, and so
is what `ami->reason` pointed to before. The clock is read once for each item.
-/

namespace TrIrcd

open Function (update)
open TrIrcd.Lib

/-- A `static char *` of the parser. -/
inductive StaticPtr
  | null
  | text (s : List UInt8)
  | freed
deriving DecidableEq

inductive MaskfileFault
  /-- What was freed is read, or freed again. -/
  | freed
  | nullPointer
  | mask (fault : MaskFault)
deriving DecidableEq

namespace StaticPtr

/-- `MyFree` -/
def free : StaticPtr → Except MaskfileFault StaticPtr
  | .null => .ok .null
  | .text _ => .ok .freed
  | .freed => .error .freed

/-- The string, for a function that takes the pointer. -/
def read : StaticPtr → Except MaskfileFault (Option (List UInt8))
  | .null => .ok none
  | .text s => .ok (some s)
  | .freed => .error .freed

end StaticPtr

/-- What stands behind `mask:`. -/
inductive MaskKind
  | kline | quarantine | gecosDeny | zap | jupiter
deriving DecidableEq, Repr

/-- `MASKITEM_KLINE_CONFIG` and the others. -/
def MaskKind.type : MaskKind → Nat
  | .kline => 8
  | .quarantine => 9
  | .gecosDeny => 10
  | .zap => 11
  | .jupiter => 12

inductive MaskField
  | userhost (string : List UInt8)
  | masktext (string : List UInt8)
  | reason (string : List UInt8)

/-- An item, with the time when it is read. -/
structure MaskfileItem where
  kind : MaskKind
  fields : List MaskField
  now : Int

structure Maskfile where
  store : MaskSt
  /-- `ami->reason` -/
  reasonOf : Nat → Option (List UInt8)
  host : StaticPtr
  user : StaticPtr
  reason : StaticPtr

namespace Maskfile

/-- `mask_user`, `mask_name` and `mask_reason` -/
def field (f : Maskfile) : MaskField → Except MaskfileFault Maskfile
  | .userhost string =>
      f.user.free.bind fun _ => f.host.free.map fun host =>
        if 0x40 ∈ string then
          { f with
            user := .text (string.takeWhile (· ≠ 0x40))
            host := .text (string.dropWhile (· ≠ 0x40)).tail }
        -- `new_host` is not put into `host`.
        else { f with user := .text [0x2a], host := host }
  | .masktext string => f.host.free.map fun _ => { f with host := .text string }
  | .reason string => f.reason.free.map fun _ => { f with reason := .text string }

/-- `mask_items` and `mask_items_name` -/
def fields : List MaskField → Maskfile → Except MaskfileFault Maskfile
  | [], f => .ok f
  | x :: xs, f => (f.field x).bind (fields xs)

/-- The `user` that `create_maskitem` is called with. -/
def userFor (f : Maskfile) : MaskKind → Except MaskfileFault (Option (List UInt8))
  | .kline => f.user.read
  | _ => .ok none

/-- The actions of `all_items`. -/
def allItems (E : MaskEnv) (kind : MaskKind) (now : Int) (f : Maskfile) :
    Except MaskfileFault Maskfile :=
  f.host.read.bind fun host => (f.userFor kind).bind fun user =>
    match createMaskitem E host user kind.type 0 { f.store with clock := now } with
    | .error fault => .error (.mask fault)
    | .ok (none, store) => .ok { f with store := store }
    | .ok (some ami, store) =>
        f.reason.read.bind fun
          | none => .error .nullPointer
          | some reason =>
              .ok { f with store := store, reasonOf := update f.reasonOf ami (some reason) }

/-- `conf` -/
def conf (E : MaskEnv) : List MaskfileItem → Maskfile → Except MaskfileFault Maskfile
  | [], f => .ok f
  | item :: items, f =>
      ((fields item.fields f).bind (allItems E item.kind item.now)).bind (conf E items)

end Maskfile

end TrIrcd
