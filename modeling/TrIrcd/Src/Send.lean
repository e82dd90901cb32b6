import TrIrcd.Src.Parse

/-!
# `server/s_send.c`: lines to servers and messages to channels

`prepare_server_prefixes` puts the sender, the command and the channel before
the text of a message. The sender is an id or a name, the command a token or a
word, as the link can do.

The functions behind it hand a message to the members of channels. What counts
here is who it is handed to; what the message says is told apart only as far as
the three functions do. Each keeps an array indexed by descriptors of whom it
has sent to, and an index outside of it is an `overflow`.
-/

namespace TrIrcd

open Function (update)
open TrIrcd.Lib

/-- `tok1_msgtab`, without the entries that have no command. -/
def tok1Msgtab : List (UInt8 × String) :=
  [(0x2c, "EWHOIS"), (0x31, "SVSKILL"), (0x32, "SVSMODE"), (0x33, "SVSNICK"), (0x34, "SVSNOOP"),
    (0x35, "SGLINE"), (0x36, "UNSGLINE"), (0x37, "UNSZLINE"), (0x3b, "HASH"), (0x3c, "ADMINS"),
    (0x3d, "MYID"), (0x3e, "SADMINS"), (0x3f, "STATS"), (0x40, "LUSERS"), (0x41, "AWAY"),
    (0x42, "BURST"), (0x43, "JUPITER"), (0x44, "UNJUPITER"), (0x45, "ERROR"), (0x46, "GLINE"),
    (0x47, "GNOTICE"), (0x48, "CLIENT"), (0x49, "INVITE"), (0x4a, "JOIN"), (0x4b, "KICK"),
    (0x4c, "GLOBOPS"), (0x4d, "MODE"), (0x4e, "NICK"), (0x4f, "SQUERY"), (0x50, "PRIVMSG"),
    (0x51, "QUIT"), (0x52, "RAKILL"), (0x53, "SJOIN"), (0x54, "TOPIC"), (0x55, "UNSQLINE"),
    (0x56, "NETSET"), (0x57, "WHOIS"), (0x58, "SERVICE"), (0x59, "INFO"), (0x5a, "SZLINE"),
    (0x5b, "RPING"), (0x5c, "USERS"), (0x5d, "RPONG"), (0x5e, "INFOCONF"), (0x61, "AKILL"),
    (0x62, "SVSJOIN"), (0x63, "CONNECT"), (0x64, "ADMIN"), (0x65, "EXCLUDE"), (0x66, "PING"),
    (0x67, "GOPER"), (0x68, "SILENCE"), (0x69, "TIME"), (0x6a, "REXCLUDE"), (0x6b, "KILL"),
    (0x6c, "WALLOPS"), (0x6d, "MOTD"), (0x6e, "NOTICE"), (0x6f, "UPTIME"), (0x70, "PART"),
    (0x71, "SQUIT"), (0x72, "RNOTICE"), (0x73, "SERVER"), (0x74, "TRACE"), (0x75, "PONG"),
    (0x76, "VERSION"), (0x77, "WHOWAS"), (0x78, "SQLINE"), (0x79, "UNGLINE"), (0x7a, "SVINFO"),
    (0x7b, "KNOCK"), (0x7c, "REXCOM"), (0x7e, "TMODE")]

/-- `tok1_msgtab[c].cmd` -/
def tok1Word (c : UInt8) : Option (List UInt8) :=
  (tok1Msgtab.lookup c).map fun cmd => cmd.toList.map fun d => UInt8.ofNat d.toNat

/-- What a line says about its sender. `name` has room for `HOSTLEN` bytes and
`id.string` for seven. -/
structure Sender where
  name : List UInt8
  string : List UInt8
  hasId : Bool
  name_ne : name ≠ []
  name_word : ∀ c ∈ name, notSpace c
  name_length : name.length ≤ hostLen
  string_word : ∀ c ∈ string, notSpace c
  string_length : string.length ≤ 7

/-- `IsToken1` and `IsIDCapable` of a link. -/
structure LinkCaps where
  token1 : Bool
  idCapable : Bool

namespace Sender

/-- The sender is sent as an id. -/
def asId (source : Sender) (dest : LinkCaps) : Bool := dest.idCapable && source.hasId

/-- The prefix up to its space. -/
def prefixOf (source : Sender) (dest : LinkCaps) : List UInt8 :=
  if source.asId dest then 0x21 :: source.string else 0x3a :: source.name

end Sender

/-- `prepare_server_prefixes`. A token without a command has no word. -/
def prepareServerPrefixes (source : Option Sender) (chname : Option (List UInt8))
    (dest : LinkCaps) (token : UInt8) (buffer : List UInt8) : Option (List UInt8) :=
  (if dest.token1 then some [token] else tok1Word token).map fun command =>
    let servbuf := ((source.map fun s => s.prefixOf dest ++ [0x20]).getD []) ++ command ++ [0x20]
      ++ ((chname.map (· ++ [0x20])).getD [])
    if buffer ≠ [] then servbuf ++ buffer
    else if servbuf.getLast? = some 0x20 then servbuf.dropLast
    else servbuf

/-! ## Messages to channels -/

/-- `MAXCONNECTIONS` -/
def maxConnections : Nat := 2048

/-- `MODE_ANONYMOUS` -/
def modeAnonymous : Nat := 0x8000

/-- `IsChanAnon` -/
def Channel.isAnon (ch : Channel) : Bool := decide (ch.mode &&& modeAnonymous ≠ 0)

/-- What is read of a client; `source` is the pointer `from`. -/
structure Peer where
  source : Option Nat
  fd : Int
  status : Int
  anon : Bool
  closing : Bool

/-- The clients, `can_send`, and what `exit_client` makes of the channels when
a ghost exits. -/
structure FanEnv extends ChanEnv where
  peer : Nat → Peer
  canSend : Nat → Nat → Int
  exitGhost : Nat → ChanSt → ChanSt

namespace FanEnv

variable (F : FanEnv)

def myConnect (x : Nat) : Bool := 0 ≤ (F.peer x).fd
def myClient (x : Nat) : Bool := F.myConnect x && (F.peer x).status = statClient
def isPerson (x : Nat) : Bool := F.user x && (F.peer x).status = statClient
def isServer (x : Nat) : Bool := (F.peer x).status = statServer

end FanEnv

inductive FanMsg
  | text
  | quit
  | part (chptr : Nat)
deriving DecidableEq

/-- The channels, `sentalong`, and what was handed to whom, in order. -/
structure Fan where
  st : ChanSt
  sentalong : Nat → Bool
  out : List (Nat × FanMsg)

/-- Why a call has no result; a loop that runs out of turns `diverges`. -/
inductive FanStop
  | overflow
  | diverges
deriving DecidableEq

namespace Fan

/-- Before anything is sent. -/
def start (s : ChanSt) : Fan where
  st := s
  sentalong _ := false
  out := []

/-- `send_message` -/
def hand (dest : Nat) (msg : FanMsg) (f : Fan) : Fan := { f with out := f.out ++ [(dest, msg)] }

/-- `sentalong[i] = 1` -/
def mark (i : Nat) (f : Fan) : Fan := { f with sentalong := update f.sentalong i true }

end Fan

/-- The index `fd` of `sentalong`. -/
def sentIndex (fd : Int) : Except FanStop Nat :=
  if 0 ≤ fd ∧ fd < maxConnections then .ok fd.toNat else .error .overflow

section

variable (F : FanEnv)

/-- `check_fake_direction`: the channels after it if it answers -1. -/
def checkFakeDirection (source dest : Nat) (s : ChanSt) : Option ChanSt :=
  if !F.myClient source && F.isPerson dest && (F.peer dest).source = (F.peer source).source then
    some (if F.isServer source then s else F.exitGhost dest s)
  else none

/-- The body of the loop of `sendto_channel_butone`. -/
def butoneMember (one : Option Nat) (incflags source : Nat) (cm : ChanMember) (f : Fan) :
    Except FanStop Fan :=
  let acptr := cm.client
  if (F.peer acptr).source = one ∨ (F.peer acptr).anon ∨ cm.flags &&& incflags ≠ incflags then
    .ok f
  else
    match checkFakeDirection F source acptr f.st with
    | some st => .ok { f with st := st }
    | none =>
        if F.myClient acptr then
          (sentIndex (F.peer acptr).fd).map fun i => (f.hand acptr .text).mark i
        else
          match (F.peer acptr).source with
          | none => .ok f
          | some link => (sentIndex (F.peer link).fd).map fun i =>
              if f.sentalong i then f else (f.hand link .text).mark i

/-- The loop of `sendto_channel_butone`; `ptr->next` is read before the body. -/
def butoneLoop (one : Option Nat) (incflags source : Nat) :
    Nat → Option Nat → Fan → Except FanStop Fan
  | 0, _, f => .ok f
  | _ + 1, none, f => .ok f
  | fuel + 1, some ptr, f =>
      let nextPtr := f.st.dl.next ptr
      match f.st.dl.data ptr with
      | .member cm =>
          (butoneMember F one incflags source cm f).bind
            (butoneLoop one incflags source fuel nextPtr)
      | _ => butoneLoop one incflags source fuel nextPtr f

/-- `sendto_channel_butone` -/
def sendtoChannelButone (one : Option Nat) (incflags source chptr : Nat) (s : ChanSt) :
    Except FanStop Fan :=
  butoneLoop F one incflags source s.dl.used.length (s.dl.head (.members chptr)) (Fan.start s)

/-- The body of the inner loops below; the value says whether the client was
sent the message. -/
def tellMember (source : Nat) (msg : FanMsg) (cptr : Nat) (f : Fan) :
    Except FanStop (Bool × Fan) :=
  if !F.myConnect cptr || (F.peer cptr).anon || cptr = source then .ok (false, f)
  else
    (sentIndex (F.peer cptr).fd).map fun i =>
      if f.sentalong i then (false, f)
      else
        match checkFakeDirection F source cptr f.st with
        | some st => (false, { f with st := st })
        | none => (true, (f.hand cptr msg).mark i)

/-- The inner loop of `sendto_common_channels` and, with `restart`, that of
`send_quit_to_common_channels`, which it leaves when it has sent to a client
that is closing. The value says whether it did. -/
def tellLoop (source : Nat) (msg : FanMsg) (restart : Bool) :
    Nat → Option Nat → Fan → Except FanStop (Bool × Fan)
  | 0, _, f => .ok (false, f)
  | _ + 1, none, f => .ok (false, f)
  | fuel + 1, some usr, f =>
      let nextUsr := f.st.dl.next usr
      match f.st.dl.data usr with
      | .member cm =>
          (tellMember F source msg cm.client f).bind fun r =>
            if restart && r.1 && (F.peer cm.client).closing then .ok (true, r.2)
            else tellLoop source msg restart fuel nextUsr r.2
      | _ => tellLoop source msg restart fuel nextUsr f

/-- `if (from->fd > 0) sentalong[from->fd] = 1;` -/
def markSource (source : Nat) (f : Fan) : Except FanStop Fan :=
  if 0 < (F.peer source).fd then (sentIndex (F.peer source).fd).map fun i => f.mark i
  else .ok f

/-- The outer loop of `sendto_common_channels`. -/
def commonLoop (source : Nat) : Nat → Option Nat → Fan → Except FanStop Fan
  | 0, _, f => .ok f
  | _ + 1, none, f => .ok f
  | fuel + 1, some chn, f =>
      let nextChn := f.st.dl.next chn
      match f.st.dl.data chn with
      | .channel chptr =>
          if (f.st.chan chptr).isAnon then commonLoop source fuel nextChn f
          else
            (tellLoop F source .text false f.st.dl.used.length
              (f.st.dl.head (.members chptr)) f).bind fun r =>
                commonLoop source fuel nextChn r.2
      | _ => commonLoop source fuel nextChn f

/-- `sendto_common_channels` -/
def sendtoCommonChannels (source : Nat) (s : ChanSt) : Except FanStop Fan :=
  (markSource F source (Fan.start s)).bind fun f =>
    (if F.user source then
      commonLoop F source s.dl.used.length (s.dl.head (.channel source)) f
    else .ok f).map fun f => if F.myConnect source then f.hand source .text else f

/-- The outer loop of `send_quit_to_common_channels`, from the head of the list
again after `goto closeloop`. -/
def quitLoop (source : Nat) : Nat → Option Nat → Fan → Except FanStop Fan
  | 0, _, _ => .error .diverges
  | _ + 1, none, f => .ok f
  | fuel + 1, some channels, f =>
      let nextChan := f.st.dl.next channels
      match f.st.dl.data channels with
      | .channel chptr =>
          let msg := if F.canSend source chptr = 0 then FanMsg.quit else .part chptr
          (if (f.st.chan chptr).isAnon then .ok (false, f)
          else tellLoop F source msg true f.st.dl.used.length
            (f.st.dl.head (.members chptr)) f).bind fun r =>
              if r.1 then quitLoop source fuel (r.2.st.dl.head (.channel source)) r.2
              else quitLoop source fuel nextChan
                { r.2 with st := removeUserFromChannel F.toChanEnv source chptr r.2.st }
      | _ => quitLoop source fuel nextChan f

/-- `send_quit_to_common_channels`. Every turn of the loop takes a channel off
the list or, before a restart, sends to a descriptor for the first time. -/
def sendQuitToCommonChannels (source : Nat) (s : ChanSt) : Except FanStop Fan :=
  (markSource F source (Fan.start s)).bind fun f =>
    quitLoop F source (s.dl.used.length + maxConnections + 1) (s.dl.head (.channel source)) f

end

end TrIrcd
