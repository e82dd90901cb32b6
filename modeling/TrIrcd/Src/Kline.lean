import TrIrcd.Src.Confitem
import TrIrcd.Src.Maskitem
import TrIrcd.Src.Whowas

/-!
# `src/s_kline.c`: who is banned

`find_kill_level` goes over the clients after a rehash, and
`find_connection_kill_level` looks at one that is about to get in. Both try one
lookup after another in the store of the bans and stop at the first that finds
something. The lookups are lists here, in the order of the calls.

`match` and `ireg_match` are parameters, and so is the list of the confs
`find_conf_by_host` goes through. The clock is read once for a whole check. The
texts that go to a client are the lines of `KillLine`; the reason and the mask
in them are the ban's, which is given by its address.
-/

namespace TrIrcd

open TrIrcd.Lib

/-- `MASKITEM_KLINE` -/
def maskitemKline : Nat := 1

/-- `MASKITEM_AUTOKILL` -/
def maskitemAutokill : Nat := 2

/-- `MASKITEM_ZAPLINE` -/
def maskitemZapline : Nat := 5

/-- `MASKITEM_EXCLUDE` -/
def maskitemExclude : Nat := 6

/-- `MASKITEM_KLINE_CONFIG` -/
def maskitemKlineConfig : Nat := 8

/-- `MASKITEM_ZAPLINE_CONFIG` -/
def maskitemZaplineConfig : Nat := 11

/-- `MASKITEM_KLINE_REGEX` -/
def maskitemKlineRegex : Nat := 13

/-- `BANNED_CLIENT` -/
def bannedClient : Int := -5

/-- `CONF_FLAGS_EXEMPTKLINE` -/
def confFlagsExemptKline : UInt32 := 0x1

/-- `aConfItem`, as far as it is looked at. -/
structure KillConf where
  status : UInt32
  host : Option (List UInt8)
  flags : UInt32
  deriving DecidableEq, Repr

/-- `anUser` -/
structure KillUser where
  username : List UInt8
  deriving DecidableEq, Repr

/-- `aClient` -/
structure KillClient where
  hostip : List UInt8
  sockhost : List UInt8
  user : Option KillUser
  deriving DecidableEq, Repr

structure KillEnv extends MaskEnv where
  iregMatch : MaskItem → List UInt8 → Int
  /-- `GlobalConfItemList` -/
  confs : List KillConf
  /-- `ServerOpts.use_regex` -/
  useRegex : Bool
  /-- `ServerOpts.server_kline_address` -/
  serverKlineAddress : List UInt8
  /-- `ServerOpts.network_kline_address` -/
  networkKlineAddress : List UInt8

/-- What is sent to a client that is turned away. -/
inductive KillLine
  /-- `ERR_YOUREBANNEDCREEP` -/
  | youreBannedCreep (word : String)
  /-- `:*** You are not welcome on this %s` -/
  | notWelcome (place : String)
  /-- `:*** %s for %s` -/
  | bannedFor (word : String) (kconf : Nat)
  /-- `:*** Your hostmask is %M` -/
  | hostmask (kconf : Nat)
  /-- `:*** For more information, please mail %s and include everything shown here.` -/
  | mail (address : List UInt8)
  deriving DecidableEq, Repr

namespace KillEnv

variable (K : KillEnv)

/-- `find_conf_by_host` -/
def findConfByHost (host : List UInt8) (status : UInt32) : Option KillConf :=
  K.confs.find? fun aconf =>
    aconf.status &&& status ≠ 0 && aconf.host.any fun h => K.maskMatch h host = 0

/-- `IsConfExemptKline` of the conf of a client. -/
def exemptKline (cptr : KillClient) : Bool :=
  (K.findConfByHost cptr.hostip confClient).any fun aconf =>
    aconf.flags &&& confFlagsExemptKline ≠ 0

/-- What the loops of `find_maskitem` look for, with `match`. -/
def found (string : List UInt8) (user : Option (List UInt8)) (type : Nat) (ami : MaskItem) :
    Bool :=
  if type < 13 then foundBy K.toMaskEnv string user type true ami
  else 0 < K.iregMatch ami string

/-- `find_maskitem` with `match`, whatever `ireg_match` answers. -/
def findMaskitem (string : List UInt8) (user : Option (List UInt8)) (type : Nat) (s : MaskSt) :
    Option Nat × MaskSt :=
  if cstr string = [] then (none, s)
  else
    let s := expireMaskitems s
    ((dlinkFind (type - 1) (fun ami => K.found string user type (s.item ami)) s.lists).map
      s.lists.data, s)

/-- With the `ireg_match` there is this is `find_maskitem`. -/
theorem findMaskitem_eq (hireg : K.iregMatch = TrIrcd.iregMatch K.toMaskEnv) (string : List UInt8)
    (user : Option (List UInt8)) (type : Nat) (s : MaskSt) :
    K.findMaskitem string user type s =
      TrIrcd.findMaskitem K.toMaskEnv (some string) user type true s := by
  have hfound : K.found string user type = foundBy K.toMaskEnv string user type true := by
    funext ami
    rw [found]
    split
    · rfl
    · next h => rw [foundBy.eq_def, if_neg h, hireg]
  rw [findMaskitem, hfound]
  rfl

end KillEnv

/-- A call of `find_maskitem`, and what a hit stands for. -/
structure KillCheck (α : Type) where
  string : List UInt8
  user : Option (List UInt8)
  type : Nat
  ret : α

/-- The calls up to the first that finds something. -/
def firstHit {α : Type} (K : KillEnv) : List (KillCheck α) → MaskSt → Option (α × Nat) × MaskSt
  | [], s => (none, s)
  | k :: ks, s =>
      match K.findMaskitem k.string k.user k.type s with
      | (some ami, s) => (some (k.ret, ami), s)
      | (none, s) => firstHit K ks s

/-- `"%s@%s"` -/
def userAtHost (username host : List UInt8) : List UInt8 := username ++ 0x40 :: host

/-- The calls of `find_kill_level`, with the value returned at a hit. -/
def killChecks (useRegex : Bool) (hostip host name : List UInt8) : List (KillCheck Nat) :=
  [⟨host, some name, maskitemExclude, 0⟩,
    ⟨hostip, some name, maskitemExclude, 0⟩,
    ⟨hostip, none, maskitemZapline, maskitemZapline⟩,
    ⟨hostip, none, maskitemZaplineConfig, maskitemZapline⟩,
    ⟨host, some name, maskitemAutokill, maskitemAutokill⟩,
    ⟨host, some name, maskitemKline, maskitemKline⟩,
    ⟨host, some name, maskitemKlineConfig, maskitemKline⟩] ++
  (if useRegex then [⟨userAtHost name host, some name, maskitemKlineRegex, maskitemKline⟩]
    else []) ++
  [⟨hostip, some name, maskitemAutokill, maskitemAutokill⟩,
    ⟨hostip, some name, maskitemKline, maskitemKline⟩,
    ⟨hostip, some name, maskitemKlineConfig, maskitemKline⟩] ++
  (if useRegex then [⟨userAtHost name hostip, some name, maskitemKlineRegex, maskitemKline⟩]
    else [])

/-- `find_kill_level` -/
def findKillLevel (K : KillEnv) (cptr : KillClient) (s : MaskSt) : Nat × MaskSt :=
  match cptr.user with
  | none => (0, s)
  | some user =>
      let host := cptr.sockhost
      let name := user.username
      if hostLen < host.length ∨ hostLen < name.length then (0, s)
      else if K.exemptKline cptr then (0, s)
      else
        let (hit, s) := firstHit K (killChecks K.useRegex cptr.hostip host name) s
        ((hit.map (·.1)).getD 0, s)

/-- The words of a ban in the lines. -/
structure KillWords where
  creep : String
  place : String
  banned : String
  address : List UInt8

/-- The five lines. -/
def KillWords.lines (w : KillWords) (kconf : Nat) : List KillLine :=
  [.youreBannedCreep w.creep, .notWelcome w.place, .bannedFor w.banned kconf, .hostmask kconf,
    .mail w.address]

def KillEnv.klined (K : KillEnv) : KillWords := ⟨"klined", "server", "Klined", K.serverKlineAddress⟩

def KillEnv.autokilled (K : KillEnv) : KillWords :=
  ⟨"autokill", "network", "Autokill", K.networkKlineAddress⟩

/-- The calls of `find_connection_kill_level` about one of the two names of the
host. -/
def hostChecks (K : KillEnv) (host username : List UInt8) : List (KillCheck KillWords) :=
  [⟨host, some username, maskitemKline, K.klined⟩,
    ⟨host, some username, maskitemKlineConfig, K.klined⟩,
    ⟨host, some username, maskitemAutokill, K.autokilled⟩] ++
  (if K.useRegex then [⟨host, some username, maskitemKlineRegex, K.klined⟩] else [])

/-- `find_connection_kill_level`, and the lines it sends. -/
def findConnectionKillLevel (K : KillEnv) (client_p : KillClient) (username : List UInt8)
    (s : MaskSt) : Int × List KillLine × MaskSt :=
  match firstHit K
      (hostChecks K client_p.hostip username ++ hostChecks K client_p.sockhost username) s with
  | (some (w, kconf), s) => (bannedClient, w.lines kconf, s)
  | (none, s) => (0, [], s)

end TrIrcd
