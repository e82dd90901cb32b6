import TrIrcd.Lib.Alloc
import TrIrcd.Lib.Bytes
import Mathlib.Data.Set.Function

/-!
# `src/throttle.c`

A throttle is kept for every host seen lately: on the list `throttles`, and
in a hash table through which `throttle_check` finds it. The table is the
file's own: `queue.h` lists of pointers, which are Lean lists here, rebuilt by
`resize_hash_table` a bucket at a time. The key is the address up to its NUL,
of which the hash reads `HOSTIPLEN` bytes.

Times are in seconds and `NOW` is an argument. `strcpy` into an address field
that is too short, and a hash modulo 0, are outcomes of their own. Of the
messages of `throttle_check` the notice to operators is kept, with the values
it prints.
-/

namespace TrIrcd

open Function (update)
open TrIrcd.Lib

/-- `HOSTIPLEN` -/
def hostIpLen : Nat := 53

/-- `THROTTLE_HASHSIZE` -/
def throttleHashSize : Nat := 25147

/-- `throttle_ztime`, which nothing ever sets to another value than
`THROTTLE_LENGTH`. -/
def throttleZtime : Int := 900

/-- `struct throttle_t`, without its links. -/
structure Throttle where
  addr : List UInt8
  conns : Int
  first : Int
  last : Int
  zlineStart : Int
  stage : Int
  reZlines : Int
deriving DecidableEq

/-- `throttle_tcount` and `throttle_ttime`. -/
structure ThrottleConf where
  tcount : Int
  ttime : Int

/-- "throttled connections from %s (%d in %d seconds) for %d minutes (offense
%d)" -/
structure ThrottleNotice where
  addr : List UInt8
  conns : Int
  seconds : Int
  minutes : Int
  offense : Int
deriving DecidableEq

inductive ThrottleFault
  | overflow
  | divByZero
deriving DecidableEq

/-- `throttle_hash`, `throttles` and the records both point to. -/
structure ThrottleSt where
  size : Nat
  table : Nat → List Nat
  throttles : List Nat
  record : Nat → Throttle
  numthrottles : Int

/-- `throttle_get_zline_time` -/
def throttleGetZlineTime (stage : Int) : Int :=
  if stage = -1 then 0
  else if stage = 0 then 120
  else if stage = 1 then 300
  else if stage = 2 then 900
  else if stage = 3 then 1800
  else 3600

/-- A `char` in unsigned arithmetic. -/
def charVal (c : UInt8) : UInt32 := if c < 0x80 then c.toUInt32 else c.toUInt32 + 0xffffff00

/-- `hash_get_key_hash` on `throttle_hash`: `HASH_FL_STRING`, `keylen`
`HOSTIPLEN`. -/
def hashGetKeyHash (size : Nat) (key : List UInt8) : Nat :=
  (((cstr key).take hostIpLen).foldl (fun hash c => hash * 33 + charVal c) (0 : UInt32)).toNat
    % size

namespace ThrottleSt

/-- `hash_insert` -/
def hashInsert (ent : Nat) (s : ThrottleSt) : ThrottleSt :=
  let hash := hashGetKeyHash s.size (s.record ent).addr
  { s with table := update s.table hash (ent :: s.table hash) }

/-- `hash_delete` -/
def hashDelete (ent : Nat) (s : ThrottleSt) : ThrottleSt :=
  let hash := hashGetKeyHash s.size (s.record ent).addr
  { s with table := update s.table hash ((s.table hash).erase ent) }

/-- `hash_find` -/
def hashFind (key : List UInt8) (s : ThrottleSt) : Option Nat :=
  (s.table (hashGetKeyHash s.size key)).find? fun ent => cstr (s.record ent).addr = cstr key

/-- `resize_hash_table`: the entries of the old buckets, in the order they are
taken out, put into an empty table. -/
def resizeHashTable (elems : Nat) (s : ThrottleSt) : Except ThrottleFault ThrottleSt :=
  let old := (List.range s.size).flatMap s.table
  if elems = 0 ∧ old ≠ [] then .error .divByZero
  else .ok (old.foldl (fun s ent => s.hashInsert ent)
    { s with size := elems, table := fun _ => [] })

/-- `throttle_init` -/
def init : ThrottleSt where
  size := throttleHashSize
  table _ := []
  throttles := []
  record _ :=
    { addr := [], conns := 0, first := 0, last := 0, zlineStart := 0, stage := 0,
      reZlines := 0 }
  numthrottles := 0

/-- `LIST_REMOVE`, `hash_delete`, `throttle_free`. -/
def remove (tp : Nat) (s : ThrottleSt) : ThrottleSt :=
  let s := { s with throttles := s.throttles.erase tp }
  let s := s.hashDelete tp
  { s with numthrottles := s.numthrottles - 1 }

end ThrottleSt

/-- The record `throttle_check` makes for a host it has not seen. -/
def Throttle.new (host : List UInt8) (sotime : Int) (tp : Throttle) : Throttle :=
  { tp with
    addr := cstr host
    stage := -1
    zlineStart := 0
    conns := 0
    first := sotime
    reZlines := 0 }

/-- The part of `throttle_check` from `tp->conns++` on. -/
def Throttle.count (conf : ThrottleConf) (fd sotime : Int) (tp : Throttle) :
    Throttle × Int × Option ThrottleNotice :=
  let tp := { tp with conns := tp.conns + 1, last := sotime }
  if sotime - tp.first > conf.ttime then
    ({ tp with conns := 1, first := sotime }, 1, none)
  else if tp.conns ≥ conf.tcount then
    if fd ≠ -1 then
      let stage := tp.stage + 1
      ({ tp with stage := stage, zlineStart := sotime }, 0, some {
        addr := tp.addr
        conns := tp.conns
        seconds := sotime - tp.first
        minutes := (throttleGetZlineTime stage).tdiv 60
        offense := stage + 1 })
    else (tp, 0, none)
  else (tp, 1, none)

/-- What `throttle_check` does to a record it found. -/
def Throttle.again (conf : ThrottleConf) (fd sotime : Int) (tp : Throttle) :
    Throttle × Int × Option ThrottleNotice :=
  if tp.zlineStart ≠ 0 then
    if sotime - tp.zlineStart < throttleGetZlineTime tp.stage then
      if fd = -1 then (tp, 0, none)
      else ({ tp with reZlines := tp.reZlines + 1, zlineStart := sotime }, 0, none)
    else
      Throttle.count conf fd sotime { tp with conns := 0, first := sotime, zlineStart := 0 }
  else Throttle.count conf fd sotime tp

namespace ThrottleSt

/-- The new record of `throttle_check`, in the table and on the list. -/
def insertNew (A : Allocator) (host : List UInt8) (sotime : Int) (s : ThrottleSt) :
    Nat × ThrottleSt :=
  let tp := A.pick s.throttles
  let s := { s with record := update s.record tp ((s.record tp).new host sotime) }
  let s := s.hashInsert tp
  (tp, { s with
    throttles := tp :: s.throttles
    numthrottles := s.numthrottles + 1 })

/-- `throttle_check`: the new state, the value returned and the notice sent. -/
def throttleCheck (A : Allocator) (conf : ThrottleConf) (host : List UInt8)
    (fd sotime now : Int) (s : ThrottleSt) :
    Except ThrottleFault (ThrottleSt × Int × Option ThrottleNotice) :=
  if s.size = 0 then .error .divByZero
  else
    let tp := s.hashFind host
    if fd = -1 ∧ now - sotime > conf.ttime then .ok (s, 1, none)
    else
      let sotime := if sotime > now then now else sotime
      match tp with
      | none =>
          if hostIpLen < (cstr host).length then .error .overflow
          else
            let (tp, s) := s.insertNew A host sotime
            let (r, out) := (s.record tp).count conf fd sotime
            .ok ({ s with record := update s.record tp r }, out)
      | some tp =>
          let (r, out) := (s.record tp).again conf fd sotime
          .ok ({ s with record := update s.record tp r }, out)

end ThrottleSt

/-- The test of `throttle_timer_zapped`. -/
def Throttle.zapOver (now : Int) (tp : Throttle) : Bool :=
  tp.zlineStart ≠ 0 ∧
    now - tp.zlineStart ≥ throttleGetZlineTime tp.stage + throttleZtime

/-- The test of `throttle_timer_nonzapped`. -/
def Throttle.idle (now : Int) (tp : Throttle) : Bool :=
  ¬ tp.zlineStart ≠ 0 ∧ now - tp.last ≥ throttleZtime

namespace ThrottleSt

/-- The common loop of the two timers, from where it stands on the list. -/
def expireFrom (gone : Throttle → Bool) (tps : List Nat) (s : ThrottleSt) : ThrottleSt :=
  tps.foldl (fun s tp => if gone (s.record tp) then s.remove tp else s) s

def expire (gone : Throttle → Bool) (s : ThrottleSt) : ThrottleSt :=
  s.expireFrom gone s.throttles

/-- `throttle_timer_nonzapped` -/
def throttleTimerNonzapped (now : Int) (s : ThrottleSt) : ThrottleSt :=
  s.expire (Throttle.idle now)

/-- `throttle_timer_zapped` -/
def throttleTimerZapped (now : Int) (s : ThrottleSt) : ThrottleSt :=
  throttleTimerNonzapped now (s.expire (Throttle.zapOver now))

/-- `throttle_remove` -/
def throttleRemove (host : List UInt8) (s : ThrottleSt) : ThrottleSt :=
  if cstr host = [] then s
  else
    match s.hashFind host with
    | none => s
    | some tp => s.remove tp

/-- `throttle_rehash` -/
def throttleRehash (s : ThrottleSt) : ThrottleSt := s.expire fun _ => true

/-- `throttle_resize` -/
def throttleResize (size : Nat) (s : ThrottleSt) : Except ThrottleFault ThrottleSt :=
  s.resizeHashTable size

end ThrottleSt

end TrIrcd
