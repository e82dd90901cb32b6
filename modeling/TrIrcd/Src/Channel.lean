import TrIrcd.Src.Hash
import TrIrcd.Src.Tools

/-!
# `src/channel.c`: channels, members and invitations

A channel is a block of the heap `free_channels`, on the global list that
`nextch` and `prevch` link, in `channelTable`, and the owner of two dlink
lists, its members and its invitations. A client with a user structure owns
the two lists that answer them, the channels it is on and those it is invited
to. Nothing ties the two sides together but the functions of this file.

Addresses are numbers, handed out by the allocator of the environment. A
channel that is freed may be handed out again at once, which is what makes a
pointer left behind dangerous. The one thing C gives no meaning to here is a
name too long for its array, and the functions answer an error for it.

Members carry their flags in the node itself; the ban and topic fields of a
channel, its time stamps and the hook of `sub1_from_channel`, which no module
of the source registers for, are left out.
-/

namespace TrIrcd

open Function (update)
open TrIrcd.Lib

/-- `CHANNELLEN` -/
def channelLen : Nat := 32

/-- `MODE_LINKED` -/
def modeLinked : Nat := 0x40000

/-- `STAT_SERVER` -/
def statServer : Int := 0

/-- `STAT_CLIENT` -/
def statClient : Int := 1

/-- `struct ChanMember` -/
structure ChanMember where
  client : Nat
  flags : Nat
  bans : Nat
  deriving DecidableEq, Repr

/-- What the data of a dlink node points at. -/
inductive Ptr
  | null
  | client (c : Nat)
  | channel (ch : Nat)
  | member (cm : ChanMember)
  deriving DecidableEq, Repr

/-- The lists of `aChannel` and `anUser`. -/
inductive ListId
  | members (chptr : Nat)
  | invites (chptr : Nat)
  | channel (cptr : Nat)
  | invited (cptr : Nat)
  deriving DecidableEq, Repr

/-- `aChannel`, without its links and lists. -/
structure Channel where
  users : Int
  chname : List UInt8
  mode : Nat
  link : List UInt8

/-- What the functions read and never write: the hash key, the allocators,
and which clients have a user structure. -/
structure ChanEnv where
  ircdRandomKey : UInt32
  alloc : Allocator
  user : Nat → Bool

structure ChanSt where
  dl : Dlinks ListId Ptr
  chan : Nat → Channel
  /-- The blocks of `free_channels` in use. -/
  blocks : List Nat
  channel : Option Nat
  nextch : Nat → Option Nat
  prevch : Nat → Option Nat
  channelTable : HashTable
  /-- `Count.chan` -/
  countChan : Int
  /-- `user->joined` -/
  joined : Nat → Int

/-- Why a call has no next state. -/
inductive ChanStop
  | notLive
  | noUser
  | overflow
  deriving DecidableEq, Repr

/-- The client that creates a channel, as far as `MyClient` looks at it. -/
structure Creator where
  fd : Int
  status : Int

/-- `MyClient` -/
def Creator.myClient (cptr : Creator) : Bool :=
  decide (0 ≤ cptr.fd) && decide (cptr.status = statClient)

/-- `IsChanLinked` -/
def Channel.isLinked (ch : Channel) : Bool := decide (ch.mode &&& modeLinked ≠ 0)

namespace ChanSt

def init : ChanSt where
  dl := Dlinks.empty .null
  chan _ := ⟨0, [], 0, []⟩
  blocks := []
  channel := none
  nextch _ := none
  prevch _ := none
  channelTable := HashTable.cleared
  countChan := 0
  joined _ := 0

/-- `find_channel` on the global table. -/
def find (E : ChanEnv) (name : List UInt8) (s : ChanSt) : Option Nat :=
  findChannel E.ircdRandomKey (fun ch => (s.chan ch).chname) name s.channelTable

end ChanSt

/-! ## Creating a channel -/

/-- The value of `create_channel`, what it wrote to `*new`, and the state. -/
structure Created where
  chptr : Option Nat
  new : Option Bool
  st : ChanSt

/-- `make_channel` and the rest of `create_channel` for a name not found. -/
def newChannel (E : ChanEnv) (chname : List UInt8) (s : ChanSt) : Nat × ChanSt :=
  let chptr := E.alloc.pick s.blocks
  -- The `memset` of `make_channel`, then `strlcpy_irc`.
  let s := { s with
    blocks := chptr :: s.blocks
    dl := clearDlinkList (.invites chptr) (clearDlinkList (.members chptr) s.dl)
    chan := update s.chan chptr ⟨0, chname, 0, []⟩ }
  let s := match s.channel with
    | some first => { s with prevch := update s.prevch first (some chptr) }
    | none => s
  let s := { s with
    prevch := update s.prevch chptr none
    nextch := update s.nextch chptr s.channel
    channel := some chptr
    channelTable := addToChannelHashTable E.ircdRandomKey chname chptr s.channelTable
    countChan := s.countChan + 1 }
  (chptr, s)

/-- The body of `create_channel`; `onLinked` is the call it makes for a
linked channel, if it is to follow links. -/
def createChannelBody (E : ChanEnv) (cptr : Creator)
    (onLinked : Option (List UInt8 → ChanSt → Except ChanStop Created))
    (chname : List UInt8) (s : ChanSt) : Except ChanStop Created :=
  let chname := cstr chname
  if chname = [] then .ok ⟨none, none, s⟩
  else
    let chname :=
      if cptr.myClient ∧ channelLen < chname.length then chname.take channelLen
      else chname
    match s.find E chname with
    | some chptr =>
        match onLinked with
        | some createLinked =>
            if (s.chan chptr).isLinked then
              (createLinked (s.chan chptr).link s).map fun r =>
                { r with new := some (r.new.getD false) }
            else .ok ⟨some chptr, some false, s⟩
        | none => .ok ⟨some chptr, some false, s⟩
    | none =>
        if channelLen < chname.length then .error .overflow
        else
          let (chptr, s) := newChannel E chname s
          .ok ⟨some chptr, some true, s⟩

/-- `create_channel` -/
def createChannel (E : ChanEnv) (cptr : Creator) (chname : List UInt8)
    (recurse : Bool) (s : ChanSt) : Except ChanStop Created :=
  createChannelBody E cptr
    (if recurse then some (createChannelBody E cptr none) else none) chname s

/-! ## Members -/

/-- `add_user_to_channel` -/
def addUserToChannel (E : ChanEnv) (chptr who flags : Nat) (s : ChanSt) :
    Bool × ChanSt :=
  if E.user who then
    let ch := s.chan chptr
    (true, { s with
      chan := update s.chan chptr { ch with users := ch.users + 1 }
      dl := dlinkAddNew E.alloc (.channel chptr) (.channel who)
        (dlinkAddNew E.alloc (.member ⟨who, flags, 0⟩) (.members chptr) s.dl)
      joined := update s.joined who (s.joined who + 1) })
  else (false, s)

/-- The loop of `remove_chanmember`; `ptr->next` is read before the node can
be deleted. -/
def removeChanmemberLoop (acptr chptr : Nat) :
    Nat → Option Nat → Dlinks ListId Ptr → Dlinks ListId Ptr
  | 0, _, D => D
  | _ + 1, none, D => D
  | fuel + 1, some ptr, D =>
      let nextPtr := D.next ptr
      match D.data ptr with
      | .null =>
          removeChanmemberLoop acptr chptr fuel nextPtr
            (dlinkDeleteNode ptr (.members chptr) D)
      | .member cm =>
          if acptr = cm.client then dlinkDeleteNode ptr (.members chptr) D
          else removeChanmemberLoop acptr chptr fuel nextPtr D
      | _ => removeChanmemberLoop acptr chptr fuel nextPtr D

/-- `remove_chanmember` -/
def removeChanmember (acptr chptr : Nat) (D : Dlinks ListId Ptr) :
    Dlinks ListId Ptr :=
  removeChanmemberLoop acptr chptr D.used.length (D.head (.members chptr)) D

/-! ## Invitations -/

/-- `del_invite` -/
def delInvite (cptr chptr : Nat) (D : Dlinks ListId Ptr) : Dlinks ListId Ptr :=
  dlinkDeleteFirst (.invited cptr) (· = .channel chptr)
    (dlinkDeleteFirst (.invites chptr) (· = .client cptr) D)

/-- `add_invite` -/
def addInvite (E : ChanEnv) (cptr chptr : Nat) (D : Dlinks ListId Ptr) :
    Dlinks ListId Ptr :=
  dlinkAddNew E.alloc (.channel chptr) (.invited cptr)
    (dlinkAddNew E.alloc (.client cptr) (.invites chptr) (delInvite cptr chptr D))

/-- `while (tmp && (tmp = tmp->next)) del_invite(tmp->data, chptr);` -/
def sub1InviteLoop (chptr : Nat) :
    Nat → Option Nat → Dlinks ListId Ptr → Dlinks ListId Ptr
  | 0, _, D => D
  | _ + 1, none, D => D
  | fuel + 1, some tmp, D =>
      match D.next tmp with
      | none => D
      | some tmp =>
          let D := match D.data tmp with
            | .client cptr => delInvite cptr chptr D
            | _ => D
          sub1InviteLoop chptr fuel (some tmp) D

/-! ## Destroying a channel -/

/-- The branch of `sub1_from_channel` that destroys the channel. -/
def destroyChannel (E : ChanEnv) (chptr : Nat) (s : ChanSt) : ChanSt :=
  let s := { s with
    dl := sub1InviteLoop chptr s.dl.used.length (s.dl.head (.invites chptr)) s.dl }
  let s := match s.prevch chptr with
    | some p => { s with nextch := update s.nextch p (s.nextch chptr) }
    | none => { s with channel := s.nextch chptr }
  let s := match s.nextch chptr with
    | some n => { s with prevch := update s.prevch n (s.prevch chptr) }
    | none => s
  { s with
    channelTable := (delFromChannelHashTable E.ircdRandomKey
      (s.chan chptr).chname chptr s.channelTable).2
    blocks := s.blocks.erase chptr
    countChan := s.countChan - 1 }

/-- `sub1_from_channel` -/
def sub1FromChannel (E : ChanEnv) (chptr : Nat) (s : ChanSt) : ChanSt :=
  let ch := s.chan chptr
  let s := { s with chan := update s.chan chptr { ch with users := ch.users - 1 } }
  if ch.users - 1 ≤ 0 then destroyChannel E chptr s else s

/-- `remove_user_from_channel` -/
def removeUserFromChannel (E : ChanEnv) (who chptr : Nat) (s : ChanSt) : ChanSt :=
  let s := { s with dl := removeChanmember who chptr s.dl }
  if E.user who then
    let s := { s with
      dl := dlinkDeleteFirst (.channel who) (· = .channel chptr) s.dl
      joined := update s.joined who (s.joined who - 1) }
    sub1FromChannel E chptr s
  else s

/-! ## The machine

Any sequence of calls, on channels that exist and, for invitations, clients
that have a user structure. `setMode` is what the mode commands may do to the
two fields `create_channel` reads. -/

inductive ChanOp
  | createChannel (cptr : Creator) (chname : List UInt8) (recurse : Bool)
  | setMode (chptr mode : Nat) (link : List UInt8)
  | addUser (chptr who flags : Nat)
  | removeUser (who chptr : Nat)
  | addInvite (cptr chptr : Nat)
  | delInvite (cptr chptr : Nat)

def ChanSt.step (E : ChanEnv) (s : ChanSt) : ChanOp → Except ChanStop ChanSt
  | .createChannel cptr chname recurse =>
      (TrIrcd.createChannel E cptr chname recurse s).map Created.st
  | .setMode chptr mode link =>
      if chptr ∉ s.blocks then .error .notLive
      else if channelLen < link.length then .error .overflow
      else .ok { s with
        chan := update s.chan chptr { s.chan chptr with mode := mode, link := link } }
  | .addUser chptr who flags =>
      if chptr ∉ s.blocks then .error .notLive
      else .ok (addUserToChannel E chptr who flags s).2
  | .removeUser who chptr =>
      if chptr ∉ s.blocks then .error .notLive
      else .ok (removeUserFromChannel E who chptr s)
  | .addInvite cptr chptr =>
      if chptr ∉ s.blocks then .error .notLive
      else if E.user cptr then
        .ok { s with dl := TrIrcd.addInvite E cptr chptr s.dl }
      else .error .noUser
  | .delInvite cptr chptr =>
      if chptr ∉ s.blocks then .error .notLive
      else if E.user cptr then
        .ok { s with dl := TrIrcd.delInvite cptr chptr s.dl }
      else .error .noUser

/-!
## `src/channel.c`: `privileged_join`

`privileged_join` makes a client join a channel: it asks whether the client is
on too many channels, gets the channel from `create_channel`, which makes it if
it is not there, and then asks `can_join`. What `can_join` answers depends on
bans and modes and on the hooks of other modules, so it is a parameter, of the
client, the channel and the state. The messages to the channel and to other
servers are left out, and so are time stamps and the topic.

Without a name `create_channel` returns a null pointer, which is not checked.
-/

/-- `CHFL_CHANOP` -/
def chflChanOp : Nat := 0x1

/-- `MODE_TOPICLIMIT` -/
def modeTopicLimit : Nat := 0x8

/-- `MODE_NOPRIVMSGS` -/
def modeNoPrivMsgs : Nat := 0x20

/-- `MODE_EXTOPIC` -/
def modeExTopic : Nat := 0x2000

/-- `ERR_TOOMANYCHANNELS` -/
def errTooManyChannels : Int := 405

/-- `aClient`, as far as joining is about it. -/
structure Joiner extends Creator where
  /-- `IsAnOper` -/
  anOper : Bool

structure JoinEnv where
  chan : ChanEnv
  client : Nat → Joiner
  /-- `ChannelConf.max_channels_per_user` -/
  maxChannelsPerUser : Int
  /-- `ChannelConf.default_extended_topic_limitation` -/
  extendedTopic : Bool
  /-- `can_join`, without a key -/
  canJoin : Nat → Nat → ChanSt → Int

/-- Where the code has no meaning. -/
inductive JoinStop
  | create (stop : ChanStop)
  | nullChannel
deriving DecidableEq, Repr

/-- What `privileged_join` leaves, and the numeric of a refusal. -/
structure JoinReply where
  st : ChanSt
  numeric : Option Int

/-- `IsMember` -/
def isMember (E : ChanEnv) (b c : Nat) (s : ChanSt) : Bool :=
  E.user b && (dlinkFind (.channel b) (· = .channel c) s.dl).isSome

section Join

variable (E : JoinEnv)

/-- The client is on as many channels as it may be. -/
def tooManyChannels (sptr : Nat) (s : ChanSt) : Bool :=
  decide (E.maxChannelsPerUser ≤ s.joined sptr) &&
    (!(E.client sptr).anOper || decide (E.maxChannelsPerUser * 3 ≤ s.joined sptr))

/-- What happens to a client that may join. -/
def joinChannel (sptr chptr flags : Nat) (s : ChanSt) : ChanSt :=
  let s := (addUserToChannel E.chan chptr sptr flags s).2
  let s :=
    if flags = chflChanOp then
      let ch := s.chan chptr
      let topic := if E.extendedTopic then modeExTopic else modeTopicLimit
      { s with chan := update s.chan chptr { ch with mode := ch.mode ||| topic ||| modeNoPrivMsgs } }
    else s
  if (E.client sptr).myClient then { s with dl := delInvite sptr chptr s.dl } else s

/-- `privileged_join` -/
def privilegedJoin (sptr : Nat) (name : List UInt8) (s : ChanSt) : Except JoinStop JoinReply :=
  if tooManyChannels E sptr s then .ok ⟨s, some errTooManyChannels⟩
  else
    match createChannel E.chan (E.client sptr).toCreator name true s with
    | .error stop => .error (.create stop)
    | .ok r =>
        match r.chptr with
        | none => .error .nullChannel
        | some chptr =>
            let flags := if r.new = some true then chflChanOp else 0
            let i := E.canJoin sptr chptr r.st
            -- `MyConnect`
            if 0 ≤ (E.client sptr).fd ∧ i ≠ 0 then .ok ⟨r.st, some i⟩
            else if isMember E.chan sptr chptr r.st then .ok ⟨r.st, none⟩
            else .ok ⟨joinChannel E sptr chptr flags r.st, none⟩

end Join

end TrIrcd
