import TrIrcd.Lib.Alloc
import TrIrcd.Lib.Buckets
import TrIrcd.Src.Match
import TrIrcd.Src.Tools

/-!
# `src/maskitem.c`: network bans

A ban is a block that stands in the dlink list of its type and, by `hnext`, in
a bucket of the table of its type. The bucket comes from the netmask a ban
names, or from its text, and is kept in the ban.

The clock is read once for each call. `match`, which `find_maskitem` calls when
it is asked to, and `re_match` on patterns that are not empty are parameters:
neither writes anything. What bans are reported with is left out. The code is
that of a build without `IPV6`.
-/

namespace TrIrcd

open Function (update)
open TrIrcd.Lib

/-- `MASKITEM_MASK` -/
def maskitemMask : Nat := 16

/-- `MASK_MAX` -/
def maskMax : Nat := 65536

/-- Where C gives a call no meaning. -/
inductive MaskFault
  | outOfBounds
  | badShift
  | nullDeref
  | badType
  | clock
deriving DecidableEq, Repr

/-! ## Netmasks -/

/-- `strtoul` to base 10: the value, `ULONG_MAX` if it does not fit, and where
the number ends. -/
def strtoul10 (s : List UInt8) : UInt64 × List UInt8 :=
  let t := s.dropWhile isSpace
  let (neg, t) := match t with
    | 0x2d :: t => (true, t)
    | 0x2b :: t => (false, t)
    | t => (false, t)
  let digits := t.takeWhile isDigit
  if digits = [] then (0, s)
  else
    let v := digits.foldl (fun v d => 10 * v + (d.toNat - 0x30)) 0
    let v := if 0x10000000000000000 ≤ v then (0 - 1 : UInt64)
      else if neg then 0 - UInt64.ofNat v
      else UInt64.ofNat v
    (v, t.dropWhile isDigit)

/-- The value of `parse_netmask`, with the address in host order. -/
inductive Netmask
  | host
  | ipv4 (addr : UInt32) (bits : Int)
deriving DecidableEq, Repr

/-- The loop of `try_parse_v4_netmask`: the `digits`, and `bits`. `prev` is the
byte before. -/
def scanV4 : Option UInt8 → List UInt8 → List (List UInt8) → Option (List (List UInt8) × Int)
  | _, [], digits => some (digits, 0)
  | prev, c :: p, digits =>
      if isDigit c then scanV4 (some c) p digits
      else if c = 0x2e then
        if 4 ≤ digits.length then none else scanV4 (some c) p (digits ++ [p])
      else if c = 0x2a then
        if p ≠ [] ∨ prev ≠ some 0x2e then none else some (digits, (digits.length - 1) * 8)
      else if c = 0x2f then
        let (v, after) := strtoul10 p
        let bits : Int := v.toUInt32.toInt32.toInt
        if bits = 0 ∨ after ≠ [] then none
        else if digits.length * 8 < bits then none
        else some (digits, bits)
      else none

/-- `addb` with the unused bits set to 0. -/
def clearUnused (addb : List UInt8) (bits : Int) : List UInt8 :=
  addb.mapIdx fun i b =>
    if bits < 32 ∧ bits.tmod 8 ≠ 0 ∧ i = bits.tdiv 8 then
      UInt8.ofNat (b.toNat >>> (8 - bits.tmod 8).toNat <<< (8 - bits.tmod 8).toNat)
    else if bits.tdiv 8 + (if bits.tmod 8 ≠ 0 then 1 else 0) ≤ i then 0
    else b

/-- `try_parse_v4_netmask`. From -8 bits on it writes in front of `addb`. -/
def tryParseV4Netmask (text : List UInt8) : Except MaskFault Netmask :=
  match scanV4 none text [text] with
  | none => .ok .host
  | some (digits, bits) =>
      let bits : Int := if digits.length < 4 ∧ bits = 0 then digits.length * 8 else bits
      let digits :=
        if bits ≠ 0 then digits ++ List.replicate (4 - digits.length) [0x30] else digits
      let addb := digits.map fun d => (strtoul10 d).1.toUInt8
      let bits := if bits = 0 then 32 else bits
      if bits ≤ -8 then .error .outOfBounds
      else
        let addb := clearUnused addb bits
        .ok (.ipv4 (addb.foldl (fun addr b => addr <<< 8 ||| b.toUInt32) 0) bits)

/-- `parse_netmask` -/
def parseNetmask (text : List UInt8) : Except MaskFault Netmask :=
  if 0x2e ∈ text then tryParseV4Netmask text else .ok .host

/-- `match_ipv4`, with the addresses in host order. -/
def matchIpv4 (addr mask : UInt32) (bits : Int) : Int :=
  if addr &&& ~~~((1 <<< UInt32.ofNat (32 - bits).toNat) - 1) ≠ mask then 1 else 0

/-- `match_ipmask`, for a client with this `hostip`. -/
def matchIpmask (mask hostip : List UInt8) : Except MaskFault Int := do
  let nm ← parseNetmask mask
  let cnm ← parseNetmask hostip
  match nm, cnm with
  | .ipv4 addr bits, .ipv4 caddr cbits =>
      .ok (if bits = cbits ∧ matchIpv4 addr caddr bits = 0 then 0 else 1)
  | _, _ => .ok 1

/-- `IpQuadTab` -/
def ipQuadTab (b : UInt8) : List UInt8 :=
  (if 100 ≤ b then [0x30 + b / 100] else []) ++ (if 10 ≤ b then [0x30 + b / 10 % 10] else []) ++
    [0x30 + b % 10]

/-- `inetntoa`, of an address in host order. -/
def inetntoa (addr : UInt32) : List UInt8 :=
  ipQuadTab (addr >>> 24).toUInt8 ++ 0x2e :: ipQuadTab (addr >>> 16).toUInt8 ++
    0x2e :: ipQuadTab (addr >>> 8).toUInt8 ++ 0x2e :: ipQuadTab addr.toUInt8

/-- `hash_ipv4` -/
def hashIpv4 (addr : UInt32) (bits : Int) : Except MaskFault Nat :=
  if 1 ≤ bits ∧ bits ≤ 32 then
    let av := addr &&& ~~~((1 <<< UInt32.ofNat (32 - bits).toNat) - 1)
    .ok ((av ^^^ av >>> 12 ^^^ av >>> 24).toNat &&& (maskMax - 1))
  else .error .badShift

/-- `hash_string` -/
def hashString (start : List UInt8) : Nat :=
  let h : UInt64 := (cstr start).foldl (fun h c => (h <<< 4) - (h + (toLower c).toUInt64)) 0
  h.toNat &&& (maskMax - 1)

/-! ## The store -/

structure MaskItem where
  type : Nat
  hashval : Nat
  string : List UInt8
  username : Option (List UInt8)
  expiration : Int
  /-- The compiled pattern, empty after the `memset` of `make_maskitem`. -/
  rex : List UInt8

structure MaskSt where
  /-- `maskitem_list` -/
  lists : Dlinks Nat Nat
  /-- `maskhash`, and the bans chained in it. -/
  maskhash : Buckets (Nat × Nat) Nat
  item : Nat → MaskItem
  /-- The blocks of `maskitem_entries` in use. -/
  used : List Nat
  clock : Int

structure MaskEnv where
  alloc : Allocator
  maskMatch : List UInt8 → List UInt8 → Int
  reMatch : List UInt8 → List UInt8 → Int

namespace MaskSt

/-- `init_maskitem` -/
def init (clock : Int) : MaskSt where
  lists := Dlinks.empty 0
  maskhash := Buckets.empty
  item _ := ⟨0, 0, [], none, 0, []⟩
  used := []
  clock := clock

end MaskSt

/-- `ireg_match`. An empty pattern matches no more than nothing. -/
def iregMatch (E : MaskEnv) (ami : MaskItem) (str : List UInt8) : Int :=
  let ret := if ami.rex = [] then 0 else E.reMatch ami.rex str
  if 0 < ret then 1 else 0

/-- `remove_from_maskitem_hashtable` -/
def removeFromMaskitemHashtable (ami : Nat) (s : MaskSt) : MaskSt :=
  match s.maskhash.unlink ((s.item ami).type - 1, (s.item ami).hashval) ami with
  | some maskhash => { s with maskhash := maskhash.clearNext ami }
  | none => s

/-- The three calls that let go of a ban, which stands in the node `ptr`. -/
def dropItem (ptr ami htype : Nat) (s : MaskSt) : MaskSt :=
  let s := removeFromMaskitemHashtable ami s
  { s with
    lists := dlinkDeleteNode ptr htype s.lists
    used := s.used.erase ami }

/-- The loop of `expire_maskitems` over one list, and that of
`rehash_maskitems`. -/
def sweepLoop (gone : MaskItem → Bool) (htype : Nat) : Nat → Option Nat → MaskSt → MaskSt
  | 0, _, s => s
  | _ + 1, none, s => s
  | fuel + 1, some ptr, s =>
      let nextPtr := s.lists.next ptr
      let ami := s.lists.data ptr
      sweepLoop gone htype fuel nextPtr
        (if gone (s.item ami) then dropItem ptr ami htype s else s)

def sweep (gone : MaskItem → Bool) (htype : Nat) (s : MaskSt) : MaskSt :=
  sweepLoop gone htype s.lists.used.length (s.lists.head htype) s

/-- The time of a ban has come. -/
def MaskItem.expired (now : Int) (ami : MaskItem) : Bool :=
  0 < ami.expiration && ami.expiration ≤ now

/-- `expire_maskitems` -/
def expireMaskitems (s : MaskSt) : MaskSt :=
  (List.range maskitemMask).foldl (fun s i => sweep (MaskItem.expired s.clock) i s) s

/-- What the loops of `find_maskitem` look for. -/
def foundBy (E : MaskEnv) (string : List UInt8) (user : Option (List UInt8)) (type : Nat)
    (m : Bool) (ami : MaskItem) : Bool :=
  let compfunc := if m then E.maskMatch else ircStrcmp
  if type < 13 then
    compfunc ami.string string = 0 &&
      match user, ami.username with
      | some user, some username => compfunc username user = 0
      | _, _ => true
  else 0 < iregMatch E ami string

/-- `find_maskitem` -/
def findMaskitem (E : MaskEnv) (string user : Option (List UInt8)) (type : Nat) (m : Bool)
    (s : MaskSt) : Option Nat × MaskSt :=
  match string with
  | none => (none, s)
  | some string =>
      if cstr string = [] then (none, s)
      else
        let s := expireMaskitems s
        let p := fun ami => foundBy E string user type m (s.item ami)
        ((dlinkFind (type - 1) p s.lists).map s.lists.data, s)

/-- `MASKITEM_KLINE`, `MASKITEM_KLINE_CONFIG`, `MASKITEM_AUTOKILL` and
`MASKITEM_EXCLUDE` -/
def isUserMask (type : Nat) : Bool := type = 1 || type = 8 || type = 2 || type = 6

/-- `MASKITEM_ZAPLINE` and `MASKITEM_ZAPLINE_CONFIG` -/
def isZapline (type : Nat) : Bool := type = 5 || type = 11

/-- `MASKITEM_KLINE_REGEX` -/
def isKlineRegex (type : Nat) : Bool := type = 13

/-- `len ? time(NULL) + len : 0`, an `unsigned long` put into a `time_t`. -/
def expirationOf (len : UInt64) (s : MaskSt) : Int :=
  if len = 0 then 0 else (s.clock + len.toNat).bmod 0x10000000000000000

/-- The end of `create_maskitem`: the new ban is filled in and put first in its
bucket and on its list. -/
def addItem (E : MaskEnv) (type hashval : Nat) (string : List UInt8)
    (username : Option (List UInt8)) (len : UInt64) (s : MaskSt) : Option Nat × MaskSt :=
  let ami := E.alloc.pick s.used
  (some ami, { s with
    used := ami :: s.used
    item := update s.item ami ⟨type, hashval, string, username, expirationOf len s, []⟩
    maskhash := s.maskhash.push (type - 1, hashval) ami
    lists := dlinkAddNew E.alloc ami (type - 1) s.lists })

/-- The bucket of a ban on users. -/
def maskHash (string : List UInt8) : Netmask → Except MaskFault Nat
  | .host => .ok (hashString string)
  | .ipv4 addr bits => hashIpv4 addr bits

/-- The `switch` of `create_maskitem`. A ban that is made and freed again
leaves nothing. -/
def newItem (E : MaskEnv) (string user : Option (List UInt8)) (type : Nat) (len : UInt64)
    (s : MaskSt) : Except MaskFault (Option Nat × MaskSt) :=
  if isUserMask type then
    match user, string with
    | some user, some string =>
        (parseNetmask string).bind fun t =>
          (maskHash string t).map fun hashval =>
            addItem E type hashval string (some user) len s
    | _, _ => .ok (none, s)
  else if isZapline type then
    match string with
    | some string =>
        (parseNetmask string).bind fun
          | .host => .ok (none, s)
          | .ipv4 addr bits => (hashIpv4 addr bits).map fun hashval =>
              addItem E type hashval string none len s
    | none => .ok (none, s)
  else if isKlineRegex type then
    match string, user with
    | some string, user => .ok (addItem E type (hashString string) string user len s)
    | none, some _ => .error .nullDeref
    | none, none => .ok (none, s)
  else
    match string with
    | some string => .ok (addItem E type (hashString string) string none len s)
    | none => .ok (none, s)

/-- `create_maskitem` -/
def createMaskitem (E : MaskEnv) (string user : Option (List UInt8)) (type : Nat)
    (len : UInt64) (s : MaskSt) : Except MaskFault (Option Nat × MaskSt) :=
  match findMaskitem E string user type false s with
  | (some ami, s) => .ok (some ami, s)
  | (none, s) => newItem E string user type len s

/-- `terminate_maskitem` -/
def terminateMaskitem (E : MaskEnv) (string user : Option (List UInt8)) (type : Nat)
    (s : MaskSt) : MaskSt :=
  match findMaskitem E string user type false s with
  | (none, s) => s
  | (some ami, s) =>
      let s := removeFromMaskitemHashtable ami s
      { s with
        lists := dlinkDeleteFirst (type - 1) (· = ami) s.lists
        used := s.used.erase ami }

/-- `rehash_maskitems` -/
def rehashMaskitems (type : Nat) (s : MaskSt) : MaskSt := sweep (fun _ => true) (type - 1) s

/-! ## The machine

The functions, at times that do not go back, on the types there are. -/

inductive MaskCall
  | create (string user : Option (List UInt8)) (type : Nat) (len : UInt64)
  | find (string user : Option (List UInt8)) (type : Nat) (m : Bool)
  | terminate (string user : Option (List UInt8)) (type : Nat)
  | expire
  | rehash (type : Nat)

/-- The type a call is for, if it is for one. -/
def MaskCall.type : MaskCall → Option Nat
  | .create _ _ type _ => some type
  | .find _ _ type _ => some type
  | .terminate _ _ type => some type
  | .expire => none
  | .rehash type => some type

structure MaskOp where
  now : Int
  call : MaskCall

namespace MaskSt

/-- A call, with the ban it answers if it answers one. -/
def perform (E : MaskEnv) (s : MaskSt) : MaskCall → Except MaskFault (Option Nat × MaskSt)
  | .create string user type len => createMaskitem E string user type len s
  | .find string user type m => .ok (findMaskitem E string user type m s)
  | .terminate string user type => .ok (none, terminateMaskitem E string user type s)
  | .expire => .ok (none, expireMaskitems s)
  | .rehash type => .ok (none, rehashMaskitems type s)

def step (E : MaskEnv) (s : MaskSt) (op : MaskOp) : Except MaskFault MaskSt :=
  if op.now < s.clock then .error .clock
  else if op.call.type.all fun type => 1 ≤ type && type ≤ maskitemMask then
    (perform E { s with clock := op.now } op.call).map (·.2)
  else .error .badType

end MaskSt

end TrIrcd
