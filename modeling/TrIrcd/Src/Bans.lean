import TrIrcd.Lib.Bytes
import TrIrcd.Src.Channel
import TrIrcd.Src.Mask
import TrIrcd.Src.Whowas

/-!
# `src/chanmodes.c` and `src/channel.c`: bans

A channel has four lists of masks for `nick!user@host`: bans, exceptions from
them, masks that may join without an invitation and masks that may not speak.
`is_nuhed` looks a client up in such a list, `can_join` and `can_send` decide
by these lists, and after them by the hooks the channel modes are modules of.

`is_nuhed` makes three texts of a client with `make_nick_user_host`, which
writes each into one static buffer and returns its address. Of the second text
only this address is kept. `check_string` cuts the strings of the client itself
at white space, so the hooks that are called later see them cut.

The address of a client or a channel is a number. The dates and the names in
the masks, which nothing here reads, are left out.
-/

namespace TrIrcd

open TrIrcd.Lib

/-- `CHFL_SPEAKABLE` -/
def chflSpeakable : Nat := 0x1f

/-- `ERR_CANNOTSENDTOCHAN` -/
def errCannotSendToChan : Int := 404

/-- `ERR_ISINBADCHAN` -/
def errIsInBadChan : Int := 415

/-- `ERR_BANNEDFROMCHAN` -/
def errBannedFromChan : Int := 474

/-- `ERR_HOSTMODERATED` -/
def errHostModerated : Int := 487

/-- `ERR_BANNEDINCHAN` -/
def errBannedInChan : Int := 488

/-- `aNUH` -/
structure Nuh where
  nuhstr : Option (List UInt8)
  deriving DecidableEq, Repr

/-- A list of masks; the data of a node may be null. -/
abbrev NuhList := List (Option Nuh)

/-- `anUser` -/
structure BanUser where
  username : List UInt8
  host : List UInt8
  fakehost : List UInt8
  channel : List Nat
  invited : List Nat
  deriving DecidableEq, Repr

/-- `aClient`, as far as bans are about it. -/
structure BanClient where
  addr : Nat
  name : List UInt8
  hostip : List UInt8
  status : Int
  fd : Int
  /-- `IsULine` -/
  uLine : Bool
  /-- `IsAnOper` -/
  anOper : Bool
  user : Option BanUser
  deriving DecidableEq, Repr

/-- `aChannel`, as far as bans are about it. -/
structure BanChannel where
  addr : Nat
  /-- `IsChanAnon` -/
  anon : Bool
  /-- `IsChanHidePartQuit` -/
  hidePartQuit : Bool
  chname : List UInt8
  members : List ChanMember
  banlist : NuhList
  invitelist : NuhList
  banexlist : NuhList
  stoplist : NuhList
  chanbanlist : NuhList

/-- What is called and is not of these files: the table of the channels, and
the hooks. -/
structure BanEnv where
  findChannel : List UInt8 → Option Nat
  canJoin : BanClient → BanChannel → Option (List UInt8) → Int
  canSend : BanClient → BanChannel → Option (List UInt8) → Bool → Int
  /-- The name and the channel's name are in `parv` before the text. -/
  canSendMore : BanClient → BanChannel → List UInt8 → Int

/-! ## The three texts -/

/-- What `check_string` leaves of a string. -/
def cutSpace (s : List UInt8) : List UInt8 := s.takeWhile fun c => !isSpace c

/-- `check_string` -/
def checkString (s : List UInt8) : List UInt8 :=
  if cutSpace s = [] then [0x2a] else cutSpace s

/-- `make_nick_user_host` -/
def makeNickUserHost (nick name host : List UInt8) : List UInt8 :=
  (checkString nick).take nickLen ++ 0x21 :: (checkString name).take userLen ++
    0x40 :: (checkString host).take hostLen

namespace BanClient

/-- `IsPerson` -/
def isPerson (cptr : BanClient) : Bool := cptr.user.isSome && decide (cptr.status = statClient)

/-- `IsServer` -/
def isServer (cptr : BanClient) : Bool := decide (cptr.status = statServer)

/-- `MyClient` -/
def myClient (cptr : BanClient) : Bool :=
  decide (0 ≤ cptr.fd) && decide (cptr.status = statClient)

/-- The client after `is_nuhed` has made its texts. -/
def cut (cptr : BanClient) : BanClient :=
  match cptr.user with
  | none => cptr
  | some user =>
      if ¬ cptr.isPerson then cptr
      else
        { cptr with
          name := cutSpace cptr.name
          hostip := cutSpace cptr.hostip
          user := some { user with
            username := cutSpace user.username
            host := cutSpace user.host
            fakehost := cutSpace user.fakehost } }

end BanClient

/-- The loop of `is_nuhed`. -/
def nuhedLoop (s s2 fakeuhost : List UInt8) : NuhList → Option Nuh
  | [] => none
  | none :: list => nuhedLoop s s2 fakeuhost list
  | some tmp :: list =>
      match tmp.nuhstr with
      | none => nuhedLoop s s2 fakeuhost list
      | some nuhstr =>
          if ircMatch nuhstr s = 0 ∨ ircMatch nuhstr s2 = 0 ∨ ircMatch nuhstr fakeuhost = 0 then
            some tmp
          else nuhedLoop s s2 fakeuhost list

/-- `is_nuhed` -/
def isNuhed (cptr : BanClient) (list : NuhList) : Option Nuh :=
  match cptr.user with
  | none => none
  | some user =>
      if ¬ cptr.isPerson then none
      else
        let namebuf := makeNickUserHost cptr.name user.username user.host
        let s := namebuf
        -- The text with `hostip` is made here and not copied.
        let namebuf := makeNickUserHost cptr.name user.username user.fakehost
        let fakeuhost := namebuf
        -- `s2` is the address of the buffer, and this is what stands there now.
        let s2 := namebuf
        nuhedLoop s s2 fakeuhost list

/-! ## Members -/

/-- `find_user_member` -/
def BanChannel.findUserMember (chptr : BanChannel) (acptr : BanClient) : Bool :=
  chptr.members.any fun cm => cm.client = acptr.addr

/-- `get_flags` -/
def BanChannel.getFlags (chptr : BanChannel) (acptr : BanClient) : Nat :=
  ((chptr.members.find? fun cm => cm.client = acptr.addr).map ChanMember.flags).getD 0

/-- `get_bans` -/
def BanChannel.getBans (chptr : BanChannel) (acptr : BanClient) : Nat :=
  ((chptr.members.find? fun cm => cm.client = acptr.addr).map ChanMember.bans).getD 0

/-- `IsMember` -/
def BanClient.isMember (b : BanClient) (c : Nat) : Bool :=
  (b.user.map fun user => decide (c ∈ user.channel)).getD false

/-! ## Sending and joining -/

section

variable (E : BanEnv)

/-- `can_send` -/
def canSend (cptr : BanClient) (chptr : BanChannel) (msg : Option (List UInt8)) : Int :=
  if cptr.isServer || cptr.uLine then 0
  else if chptr.anon then errCannotSendToChan
  else if cptr.anOper then 0
  else if ¬ cptr.myClient then 0
  else
    let member := chptr.findUserMember cptr
    let flags := if member then chptr.getFlags cptr else 0
    if ¬ member then
      let h := E.canSend cptr chptr msg member
      if h ≠ 0 then h
      else if (isNuhed cptr chptr.banlist).isSome then
        if (isNuhed cptr.cut chptr.banexlist).isSome then 0 else errBannedInChan
      else if (isNuhed cptr.cut chptr.stoplist).isSome then errCannotSendToChan
      else 0
    -- `!flags & CHFL_SPEAKABLE`
    else if (if flags = 0 then 1 else 0) &&& chflSpeakable ≠ 0 then
      let h := E.canSend cptr chptr msg member
      if h ≠ 0 then h
      else if chptr.getBans cptr ≠ 0 ∨ (isNuhed cptr chptr.banlist).isSome then
        -- With `get_bans` the strings may not be cut yet; the texts are the same.
        if (isNuhed cptr.cut chptr.banexlist).isSome then 0 else errBannedInChan
      else if (isNuhed cptr.cut chptr.stoplist).isSome then
        if (isNuhed cptr.cut chptr.banexlist).isSome then 0 else errHostModerated
      else
        match msg with
        | none => 0
        | some msg =>
            if ¬ chptr.hidePartQuit ∧ E.canSendMore cptr.cut chptr msg ≠ 0 then
              errCannotSendToChan
            else 0
    else 0

/-- The loop over `chanbanlist`. -/
def inBadChan (sptr : BanClient) (chanbanlist : NuhList) : Bool :=
  chanbanlist.any fun tmp =>
    match (tmp.bind Nuh.nuhstr).bind E.findChannel with
    | none => false
    | some chptr2 => sptr.isMember chptr2

/-- `can_join` -/
def canJoin (sptr : BanClient) (chptr : BanChannel) (key : Option (List UInt8)) : Int :=
  match sptr.user with
  | none => -2
  | some user =>
      if chptr.addr ∈ user.invited ∨ sptr.uLine ∨ sptr.anOper ∨
          (isNuhed sptr chptr.invitelist).isSome then 0
      else if (isNuhed sptr.cut chptr.banlist).isSome then
        if (isNuhed sptr.cut chptr.banexlist).isSome then 0 else errBannedFromChan
      else if inBadChan E sptr.cut chptr.chanbanlist then errIsInBadChan
      else E.canJoin sptr.cut chptr key

end

/-!
## `src/chanmodes.c` and `server/s_silence.c`: lists of masks

`add_id` puts a mask in front of a list of bans, unless a mask of the list
accepts its text or, for one of our users, the list is full; what kind of mask
it is shows in its first four characters. `del_id` takes out a mask that is
the same up to case. `nick_is_nuhed` asks whether a new nick would be banned,
and looks at the masks only that can tell one nick from another. The silence
list of a user is kept in the same way, except that what other servers add is
compared as it is.

`match` is a parameter, so that it can be taken with its cap and without.
Every entry has data and a mask, since `add_id` gives it both; who set it, and
when, is not read here. What `add_id` returns is 1 if it puts the mask in, and
`add_silence` then returns 0.
-/

/-- `match` without its cap: it does not turn oftener than this. -/
def matchFree (mask name : List UInt8) : Int :=
  matchLoop mask name ((mask.length + 2) * (name.length + 2)) {}

/-- `MTYP_FULL` and the others -/
inductive Mtyp
  | full
  | userhost
  | host
  | channel
deriving DecidableEq, Repr

/-- `aNUH` -/
structure NuhEntry where
  nuhstr : List UInt8
  type : Mtyp
deriving DecidableEq, Repr

/-- The type `add_id` gives a mask. -/
def mtypOf (id : List UInt8) : Mtyp :=
  if id.getD 0 0 = 0x2a ∧ id.getD 1 0 = 0x21 then
    if id.getD 2 0 = 0x2a ∧ id.getD 3 0 = 0x40 then .host else .userhost
  else if id.getD 0 0 = 0x23 then .channel
  else .full

/-- Why a mask is not put in. -/
inductive Refusal
  /-- `ERR_BANLISTFULL` or `ERR_SILELISTFULL` is sent. -/
  | listFull
  | redundant
deriving DecidableEq, Repr

section

variable (accepts : List UInt8 → List UInt8 → Int)

/-- The loop of `add_id`. -/
def addIdLoop (myClient : Bool) (id : List UInt8) (maxnums : Int) :
    Int → List NuhEntry → Option Refusal
  | _, [] => none
  | cnt, nuhptr :: list =>
      let cnt := if myClient then cnt + 1 else cnt
      if myClient ∧ maxnums ≤ cnt then some .listFull
      else if accepts nuhptr.nuhstr id = 0 then some .redundant
      else addIdLoop myClient id maxnums cnt list

/-- `add_id`: the list, and why it is the same as before. -/
def addId (myClient : Bool) (id : List UInt8) (maxnums : Int) (list : List NuhEntry) :
    List NuhEntry × Option Refusal :=
  match addIdLoop accepts myClient id maxnums 0 list with
  | some refusal => (list, some refusal)
  | none => (⟨id, mtypOf id⟩ :: list, none)

/-- `del_id` -/
def delId (id : List UInt8) (list : List NuhEntry) : List NuhEntry :=
  list.eraseP fun nuhptr => ircStrcmp id nuhptr.nuhstr = 0

/-- `is_nuhed`; `s2` is where the last text stands, as in `isNuhed`. -/
def isNuhedBy (cptr : BanClient) (list : List NuhEntry) : Option NuhEntry :=
  match cptr.user with
  | none => none
  | some user =>
      if ¬ cptr.isPerson then none
      else
        let s := makeNickUserHost cptr.name user.username user.host
        let fakeuhost := makeNickUserHost cptr.name user.username user.fakehost
        let s2 := fakeuhost
        list.find? fun tmp =>
          accepts tmp.nuhstr s = 0 ∨ accepts tmp.nuhstr s2 = 0 ∨
            accepts tmp.nuhstr fakeuhost = 0

/-- `nick_is_nuhed`; the text with `hostip` is made last and stays. -/
def nickIsNuhed (nick : List UInt8) (cptr : BanClient) (list : List NuhEntry) :
    Option NuhEntry :=
  match cptr.user with
  | none => none
  | some user =>
      if ¬ cptr.isPerson then none
      else
        let s2 := makeNickUserHost nick user.username user.host
        let fakeuhost := makeNickUserHost nick user.username user.fakehost
        let s := makeNickUserHost nick user.username cptr.hostip
        list.find? fun tmp =>
          tmp.type = .full ∧
            (accepts tmp.nuhstr s2 = 0 ∨ accepts tmp.nuhstr s = 0 ∨
              accepts tmp.nuhstr fakeuhost = 0)

/-! ## Silence -/

/-- `MAXSILES` -/
def maxSiles : Nat := 10

/-- `MAXSILELENGTH` -/
def maxSileLength : Nat := 128

/-- The loop of `add_silence`. -/
def addSilenceLoop (myClient : Bool) (mask : List UInt8) :
    Nat → Nat → List (List UInt8) → Option Refusal
  | _, _, [] => none
  | cnt, len, cp :: silence =>
      let len := len + cp.length
      if myClient then
        if maxSileLength < len ∨ maxSiles ≤ cnt + 1 then some .listFull
        else if accepts cp mask = 0 then some .redundant
        else addSilenceLoop myClient mask (cnt + 1) len silence
      else if ircStrcmp cp mask = 0 then some .redundant
      else addSilenceLoop myClient mask cnt len silence

/-- `add_silence` -/
def addSilence (myClient : Bool) (mask : List UInt8) (silence : List (List UInt8)) :
    List (List UInt8) × Option Refusal :=
  match addSilenceLoop accepts myClient mask 0 0 silence with
  | some refusal => (silence, some refusal)
  | none => (mask :: silence, none)

end

end TrIrcd
