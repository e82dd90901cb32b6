import TrIrcd.Lib.Links
import TrIrcd.Src.Hash

/-!
# `src/whowas.c`: the nick history

`WHOWAS` is a ring of slots that `add_history` fills one after the other. A
used slot is linked into the chain of its hash value, and into the list of
its client while the client is online. The fields of a slot are functions of
its index; the links of the two families of lists and their heads,
`WHOWASHASH` and the `whowas` of each client, are two `Links`. `del_whowas_…`
leaves the links of the slot it takes out as they were.
-/

namespace TrIrcd

open Function (update)
open TrIrcd.Lib

/-- `NICKNAMEHISTORYLENGTH` -/
def nicknameHistoryLength : Nat := 2048

/-- `USERLEN`, `HOSTLEN`, `REALLEN` -/
def userLen : Nat := 10
def hostLen : Nat := 63
def realLen : Nat := 50

/-- What `add_history` reads of a client: its name, its `user` and its `info`. -/
structure HistoryInfo where
  name : List UInt8
  username : List UInt8
  fakehost : List UInt8
  host : List UInt8
  info : List UInt8
  server : List UInt8

/-- The texts of a slot. -/
structure WhowasText where
  name : List UInt8
  username : List UInt8
  hostname : List UInt8
  morehost : List UInt8
  realname : List UInt8
  servername : List UInt8

/-- `WHOWAS`, `WHOWASHASH`, `whowas_next`, and the `whowas` field of every
client. -/
structure WhowasSt where
  hashv : Nat → Int
  text : Nat → WhowasText
  logoff : Nat → Int
  online : Nat → Option Nat
  whowasHash : Links Nat Nat
  whowas : Links Nat Nat
  whowasNext : Nat

namespace WhowasSt

/-- `initwhowas` -/
def init : WhowasSt where
  hashv _ := -1
  text _ :=
    { name := [], username := [], hostname := [], morehost := [], realname := [],
      servername := [] }
  logoff _ := 0
  online _ := none
  whowasHash := Links.empty
  whowas := Links.empty
  whowasNext := 0

/-- The beginning of `add_history`: the slot leaves the lists it is in. -/
def releaseSlot (new : Nat) (s : WhowasSt) : WhowasSt :=
  if s.hashv new ≠ -1 then
    let s := match s.online new with
      | some cptr => { s with whowas := s.whowas.del cptr new }
      | none => s
    { s with whowasHash := s.whowasHash.del (s.hashv new).toNat new }
  else s

/-- `add_history` -/
def addHistory (ircdRandomKey : UInt32) (now : Int) (cptr : Nat) (info : HistoryInfo)
    (online : Bool) (s : WhowasSt) : WhowasSt :=
  let new := s.whowasNext
  let s := s.releaseSlot new
  let hashv := (strhash ircdRandomKey info.name).toNat
  let s := { s with
    hashv := update s.hashv new hashv
    logoff := update s.logoff new now
    text := update s.text new
      { name := (cstr info.name).take nickLen
        username := (cstr info.username).take userLen
        hostname := (cstr info.fakehost).take hostLen
        morehost := (cstr info.host).take hostLen
        realname := (cstr info.info).take realLen
        servername := cstr info.server } }
  let s :=
    if online then
      { s with
        online := update s.online new (some cptr)
        whowas := s.whowas.add cptr new }
    else { s with online := update s.online new none }
  { s with
    whowasHash := s.whowasHash.add hashv new
    whowasNext :=
      if s.whowasNext + 1 = nicknameHistoryLength then 0 else s.whowasNext + 1 }

/-- The loop of `off_history` from slot `temp` on. -/
def offHistoryLoop (cptr : Nat) : Nat → Option Nat → WhowasSt → WhowasSt
  | 0, _, s => s
  | _ + 1, none, s => s
  | fuel + 1, some temp, s =>
      let next := s.whowas.next temp
      offHistoryLoop cptr fuel next { s with
        online := update s.online temp none
        whowas := s.whowas.del cptr temp }

/-- `off_history`; there are no more slots to visit than the ring has. -/
def offHistory (cptr : Nat) (s : WhowasSt) : WhowasSt :=
  offHistoryLoop cptr nicknameHistoryLength (s.whowas.head cptr) s

/-- `get_history` -/
def getHistory (ircdRandomKey : UInt32) (now : Int) (nick : List UInt8) (timelimit : Int)
    (s : WhowasSt) : Option Nat :=
  let timelimit := now - timelimit
  let blah := (strhash ircdRandomKey nick).toNat
  match findFrom s.whowasHash.next
      (fun temp => ircStrcmp nick (s.text temp).name = 0 ∧ ¬ s.logoff temp < timelimit)
      nicknameHistoryLength (s.whowasHash.head blah) with
  | some temp => s.online temp
  | none => none

end WhowasSt

end TrIrcd
