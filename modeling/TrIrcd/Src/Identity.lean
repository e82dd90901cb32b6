import TrIrcd.Lib.Buckets
import TrIrcd.Lib.Bytes

/-!
# `src/identity.c`: user and server identities

An identity packs a server number and a 20-bit user number into one integer,
and travels as the base64 digits of it. Users are chained by `idhnext` from
the `userid` buckets of their server; servers stand in `serv_id_table`. The
local server hands out user numbers from a counter that skips what
`find_by_userid` finds.

`IRCU32` is `unsigned long`, but every value the file computes fits 32 bits,
and `UInt32` stands for it. The parameters that C narrows to `u_short` are
`UInt16`. A counter that finds nothing free would turn for ever; here
`assignLocaluserIdentity` answers `none` then.
-/

namespace TrIrcd

open Function (update)
open TrIrcd.Lib

def maxServIdentity : UInt16 := 0xFFF
def maxUserIdentity : Nat := 0xFFFFE
def minUserIdentity : Nat := 0x1

/-- `ID_MAP_SIZE` -/
def idMapSize : UInt16 := 4096

/-- `USERID_PART` -/
def useridPart (x : UInt32) : UInt32 := x &&& 0xFFFFF

/-- `SERVERID_PART` -/
def serveridPart (x : UInt32) : UInt32 := (x >>> 24) &&& 0xFFF

/-- `MAKE_ID` -/
def makeId (sid uid : UInt32) : UInt32 :=
  ((sid <<< 24) &&& 0xFFF00000) ||| (uid &&& 0xFFFFF)

/-! ## Base64 -/

/-- `int6_to_base64_map` -/
def int6ToBase64Map : List UInt8 :=
  [0x30, 0x31, 0x32, 0x33, 0x34, 0x35, 0x36, 0x37, 0x38, 0x39, 0x41, 0x42, 0x43,
    0x44, 0x45, 0x46, 0x47, 0x48, 0x49, 0x4a, 0x4b, 0x4c, 0x4d, 0x4e, 0x4f, 0x50,
    0x51, 0x52, 0x53, 0x54, 0x55, 0x56, 0x57, 0x58, 0x59, 0x5a, 0x61, 0x62, 0x63,
    0x64, 0x65, 0x66, 0x67, 0x68, 0x69, 0x6a, 0x6b, 0x6c, 0x6d, 0x6e, 0x6f, 0x70,
    0x71, 0x72, 0x73, 0x74, 0x75, 0x76, 0x77, 0x78, 0x79, 0x7a, 0x7b, 0x7d]

/-- `base64_to_int6_map` -/
def base64ToInt6Map : List Int :=
  List.replicate 48 (-1) ++ [0, 1, 2, 3, 4, 5, 6, 7, 8, 9] ++ List.replicate 7 (-1) ++
    [10, 11, 12, 13, 14, 15, 16, 17, 18, 19, 20, 21, 22, 23, 24, 25, 26, 27, 28, 29,
      30, 31, 32, 33, 34, 35] ++ List.replicate 6 (-1) ++
    [36, 37, 38, 39, 40, 41, 42, 43, 44, 45, 46, 47, 48, 49, 50, 51, 52, 53, 54, 55,
      56, 57, 58, 59, 60, 61, 62, -1, 63] ++ List.replicate 130 (-1)

/-- The digit for the six low bits. -/
def int6ToBase64 (val : UInt32) : UInt8 :=
  int6ToBase64Map.getD (val &&& 63).toNat 0

/-- What a digit adds to an `unsigned int`. -/
def base64ToInt6 (c : UInt8) : UInt32 :=
  UInt32.ofInt (base64ToInt6Map.getD c.toNat (-1))

/-- The loop of `int_to_base64`, which fills its buffer from the end. Six
turns shift every bit out. -/
def intToBase64Loop : Nat → UInt32 → List UInt8 → List UInt8
  | 0, _, buf => buf
  | fuel + 1, val, buf =>
      let buf := int6ToBase64 val :: buf
      let val := val >>> 6
      if val ≠ 0 then intToBase64Loop fuel val buf else buf

/-- `int_to_base64` -/
def intToBase64 (val : UInt32) : List UInt8 := intToBase64Loop 6 val []

/-- The loop of `int_to_base64_r`, which fills `base64buf` from the end: the
index it comes to, and every byte that is written, with its index. -/
def intToBase64RLoop : Nat → Nat → UInt32 → Nat × List (Nat × UInt8)
  | 0, i, _ => (i, [])
  | fuel + 1, i, val =>
      let i := i - 1
      let digit := int6ToBase64 val
      let val := val >>> 6
      if val ≠ 0 then
        let (last, written) := intToBase64RLoop fuel i val
        (last, (i, digit) :: written)
      else (i, [(i, digit)])

/-- `int_to_base64_r`: where the string starts, and what is written. -/
def intToBase64R (val : UInt32) : Nat × List (Nat × UInt8) :=
  let (i, written) := intToBase64RLoop 6 7 val
  (i, (7, 0) :: written)

/-- `base64enc_r`: what stands at the pointer that is returned, with `b` in the
buffer before. -/
def base64encR (i : UInt32) (b : List UInt8) : List UInt8 :=
  let (start, written) := intToBase64R i
  (written.foldl (fun b p => b.set p.1 p.2) b).drop start

/-- One turn of the loop of `base64_to_int`. -/
def base64Step (v : UInt32) (c : UInt8) : UInt32 := (v <<< 6) + base64ToInt6 c

/-- `base64_to_int`. The first character is read before the test for the end,
and on an empty string the loop then reads past it; that read is left out here
(`base64Reads` has it). -/
def base64ToInt (b64 : List UInt8) : UInt32 :=
  match cstr b64 with
  | [] => base64ToInt6 0
  | c :: cs => cs.foldl base64Step (base64ToInt6 c)

/-- `base64dec` -/
def base64dec (b64 : List UInt8) : UInt32 := base64ToInt b64

/-- The indices that the loop of `base64_to_int` reads, from `i` on, where
`b64` is what stands in memory there. -/
def base64ReadLoop : List UInt8 → Nat → List Nat
  | [], i => [i]
  | c :: b64, i => if c = 0 then [i] else i :: base64ReadLoop b64 (i + 1)

/-- All indices that `base64_to_int` reads: the first character in any case. -/
def base64Reads (b64 : List UInt8) : List Nat := 0 :: base64ReadLoop b64.tail 1

/-! ## The tables -/

structure IdSt where
  /-- `server->serv->userid`, chained by `idhnext`. -/
  userid : Buckets (Nat × UInt16) Nat
  /-- `cptr->id.id` -/
  id : Nat → UInt32
  /-- `cptr->id.string` -/
  string : Nat → List UInt8
  servIdTable : UInt16 → Option Nat
  lastLocaluserId : Nat
  useridsInuse : Nat

/-- The client that is this server. -/
def me : Nat := 0

/-- `hash_cid` -/
def hashCid (id : UInt16) : UInt16 := id % idMapSize

namespace IdSt

/-- Memory at the start of the program. -/
def blank : IdSt where
  userid := Buckets.empty
  id _ := 0
  string _ := []
  servIdTable _ := none
  lastLocaluserId := 0
  useridsInuse := 0

/-- The user number of a client. -/
def uid (s : IdSt) (cptr : Nat) : Nat := (useridPart (s.id cptr)).toNat

/-- `find_by_userid` -/
def findByUserid (server : Nat) (id : UInt16) (s : IdSt) : Option Nat :=
  s.userid.find (server, hashCid id) fun cptr => s.uid cptr = id.toNat

/-- `find_by_base64_id` -/
def findByBase64Id (b64 : List UInt8) (s : IdSt) : Option Nat :=
  let id := base64ToInt b64
  let serverid := (serveridPart id).toUInt16
  if serverid > maxServIdentity then none
  else
    match s.servIdTable serverid with
    | none => none
    | some server =>
        let userid := (useridPart id).toUInt16
        s.userid.find (server, hashCid userid) fun cptr => s.uid cptr = userid.toNat

/-- `add_userid_to_server` -/
def addUseridToServer (server user : Nat) (s : IdSt) : IdSt :=
  let idval := hashCid (useridPart (s.id user)).toUInt16
  { s with userid := s.userid.push (server, idval) user }

/-- `rem_userid_from_server` for a server that has a `serv`; the value says
whether the loop met the user. -/
def remUseridFromServer (server user : Nat) (s : IdSt) : Bool × IdSt :=
  let idval := hashCid (useridPart (s.id user)).toUInt16
  match s.userid.unlink (server, idval) user with
  | some userid => (true, { s with userid := userid })
  | none => (false, s)

end IdSt

open IdSt

/-! ## Local identities -/

/-- `++last_localuser_id`, back to the first number after the last. -/
def nextLocaluserId (last : Nat) : Nat :=
  if last + 1 > maxUserIdentity then minUserIdentity else last + 1

/-- The loop of `assign_localuser_identity`, given what `find_by_userid`
finds. -/
def seekLocaluserId (taken : Nat → Bool) : Nat → Nat → Option Nat
  | 0, _ => none
  | fuel + 1, last =>
      let next := nextLocaluserId last
      if taken next then seekLocaluserId taken fuel next else some next

/-- `find_by_userid(&me, last_localuser_id)`: the counter is narrowed to
`u_short` on the way. -/
def useridTaken (s : IdSt) (last : Nat) : Bool :=
  (s.findByUserid me (UInt16.ofNat last)).isSome

/-- `assign_localuser_identity` -/
def assignLocaluserIdentity (cptr : Nat) (s : IdSt) : Option (Int × IdSt) :=
  if s.useridsInuse = 0xFFFFF then some (-1, s)
  else if useridPart (s.id cptr) ≠ 0 then some (-1, s)
  else
    match seekLocaluserId (useridTaken s) maxUserIdentity s.lastLocaluserId with
    | none => none
    | some last =>
        let s := { s with
          lastLocaluserId := last
          useridsInuse := s.useridsInuse + 1
          id := update s.id cptr
            (makeId (serveridPart (s.id me)) (UInt32.ofNat last)) }
        let s := addUseridToServer me cptr s
        some (0, { s with string := update s.string cptr (intToBase64 (s.id cptr)) })

/-- `free_localuser_identity` -/
def freeLocaluserIdentity (cptr : Nat) (s : IdSt) : Int × IdSt :=
  if useridPart (s.id cptr) = 0xFFFFF then (0, s)
  else
    match remUseridFromServer me cptr s with
    | (false, s) => (0, s)
    | (true, s) => (0, { s with
        useridsInuse := s.useridsInuse - 1
        id := update s.id cptr 0xFFFFFFFF
        string := update s.string cptr [] })

/-- `init_identity` -/
def initIdentity (serverid : UInt16) (s : IdSt) : Int × IdSt :=
  let s := { s with
    servIdTable := fun _ => none
    lastLocaluserId := 0
    useridsInuse := 2 }
  if serverid > maxServIdentity then (-1, s)
  else
    let s := { s with
      id := update s.id me (makeId serverid.toUInt32 0)
      servIdTable := update s.servIdTable serverid (some me) }
    let s := addUseridToServer me me s
    (0, { s with string := update s.string me (intToBase64 (s.id me)) })

/-! ## The machine

Clients are assigned an identity while their user number is 0, as it is in
new memory, and may be freed while they hold one. -/

inductive IdOp
  | assign (cptr : Nat)
  | free (cptr : Nat)

/-- Why a call has no next state. -/
inductive IdStop
  | notAssigned
  | diverges
  | overflow
  deriving DecidableEq, Repr

namespace IdSt

/-- The client was assigned an identity and not freed since: its user number
is neither that of new memory nor the one `free_localuser_identity` leaves. -/
def Holds (s : IdSt) (cptr : Nat) : Prop :=
  cptr ≠ me ∧ s.uid cptr ≠ 0 ∧ s.uid cptr ≠ 0xFFFFF

instance (s : IdSt) (cptr : Nat) : Decidable (s.Holds cptr) :=
  inferInstanceAs (Decidable (_ ∧ _))

def step (s : IdSt) : IdOp → Except IdStop IdSt
  | .assign cptr =>
      if cptr = me ∨ s.uid cptr ≠ 0 then .error .notAssigned
      else
        match assignLocaluserIdentity cptr s with
        | none => .error .diverges
        | some (_, s) => .ok s
  | .free cptr =>
      if s.Holds cptr then .ok (freeLocaluserIdentity cptr s).2
      else .error .notAssigned

end IdSt

/-! ## Server identities

Every server sends the digits of its own identity, which has the user number
0. Whoever gets them puts the server into `serv_id_table`; only a server with
`HasID` is taken out. -/

/-- The tables, and which clients have the `PFLAGS_HASIDENTITY` flag. -/
structure ServIdSt where
  ids : IdSt
  hasId : Nat → Bool

/-- The digits a server with this number sends. -/
def idText (serverid : UInt16) : List UInt8 := intToBase64 (makeId serverid.toUInt32 0)

namespace ServIdSt

/-- `find_server_by_base64_id`: the server, and what `giveid` gets. -/
def findServerByBase64Id (b64 : List UInt8) (s : ServIdSt) : Option (Nat × UInt32) :=
  let id := base64ToInt b64
  let serverid := (serveridPart id).toUInt16
  if serverid > maxServIdentity then none
  else (s.ids.servIdTable serverid).map fun server => (server, id)

/-- `rem_base64_server` -/
def remBase64Server (server : Nat) (s : ServIdSt) : ServIdSt :=
  let ids := (remUseridFromServer server server s.ids).2
  let slot := (serveridPart (ids.id server)).toUInt16
  { ids := { ids with servIdTable := update ids.servIdTable slot none }
    hasId := update s.hasId server false }

/-- `add_base64_server`. `strlcpy_irc(.., 8)` takes 8 characters, and the NUL of a text that
has as many is behind `string[8]`. -/
def addBase64Server (server : Nat) (b64 : List UInt8) (s : ServIdSt) :
    Except IdStop (Int × ServIdSt) :=
  let val := base64ToInt b64
  let slot := (serveridPart val).toUInt16
  if useridPart val ≠ 0 ∨ (s.ids.servIdTable slot).isSome then .ok (-1, s)
  else if 8 ≤ (cstr b64).length then .error .overflow
  else
    let ids := { s.ids with
      string := update s.ids.string server (cstr b64)
      id := update s.ids.id server val
      servIdTable := update s.ids.servIdTable slot (some server) }
    .ok (0, { ids := addUseridToServer server server ids
              hasId := update s.hasId server true })

/-- After `init_identity`. -/
def init (serverid : UInt16) : ServIdSt where
  ids := (initIdentity serverid blank).2
  hasId c := c = me ∧ (initIdentity serverid blank).1 = 0

end ServIdSt

/-- Servers with numbers of their own, from 1 to `MAX_SERV_IDENTITY`. -/
structure Numbering where
  servers : List Nat
  ident : Nat → UInt16
  me_mem : me ∈ servers
  range : ∀ c ∈ servers, 1 ≤ ident c ∧ ident c ≤ maxServIdentity
  inj : ∀ c ∈ servers, ∀ d ∈ servers, ident c = ident d → c = d

inductive ServIdOp
  | add (server : Nat)
  | rem (server : Nat)

/-- A server links or exits. `exit_one_client` looks at `HasID` first. -/
def ServIdSt.step (N : Numbering) (s : ServIdSt) : ServIdOp → Except IdStop ServIdSt
  | .add server =>
      if server ∈ N.servers ∧ server ≠ me then
        (s.addBase64Server server (idText (N.ident server))).map Prod.snd
      else .error .notAssigned
  | .rem server =>
      if server ∈ N.servers ∧ server ≠ me ∧ s.hasId server then .ok (s.remBase64Server server)
      else .error .notAssigned

end TrIrcd
